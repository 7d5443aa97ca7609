import Protobuf.Proofs.Packing
import Protobuf.Proofs.Text.RoundTrip

/-!
# Expanded payloads in text

The payload of an `Any` is printed as a message if a registry knows its type. The text is parsed
again with the registry (`Any.parse_print_expanded`), provided that the URL can stand in brackets:
it is printed as it is, but only some characters are read there, and a slash must be among them.
-/

namespace Protobuf

open Build

/-! ## URLs in brackets -/

namespace Text

/-- The name in brackets is read as a URL, and as the same one. -/
structure IsBracketed (url : String) : Prop where
  /-- A name without a slash is one of an extension. -/
  slash : '/' ∈ url.toList
  /-- Nothing else is read between brackets. -/
  chars : ∀ c ∈ url.toList, isCharOf isBracketedByte c = true

theorem encode_bracketed (url : String) :
    Utf8.encode ("[" ++ url ++ "]") = byte '[' :: (Utf8.encode url ++ [byte ']']) := by
  rw [Utf8.encode_append, Utf8.encode_append, List.append_assoc]
  rfl

theorem IsBracketed.readFrom {url : String} (h : IsBracketed url) :
    (FieldName.bracketed url).ReadFrom ("[" ++ url ++ "]") := by
  refine ⟨⟨byte '[', _, encode_bracketed url, by decide, by decide⟩, ?_⟩
  intro setting bytes more hstrip _
  refine Scan.finds_bracketedName (List.ne_nil_of_mem h.slash) h.chars ?_
  rw [hstrip, encode_bracketed, List.cons_append, List.append_assoc]
  rfl

/-- A payload that is printed as a message is a block behind the URL. -/
theorem messageLines_expanded {print : PrintOptions} {any payload : Message}
    (ha : any.type = .any) (h : Any.expanded? print.known? any = some payload) (n : Nat) :
    messageLines print (n + 1) any =
      Line.block ("[" ++ Any.url any ++ "]") (messageLines print n payload) ++
        unknownLines print any.unknown := by
  rw [messageLines, if_pos ha, h]

variable {options : ParseOptions} {registry : Registry} {depth : Nat}

/-- A block behind a URL is merged as the payload of an `Any`. -/
theorem merges_expanded {url : String} (hurl : IsBracketed url)
    (hknown : options.known? = some registry) {type : MessageType}
    (hlookup : registry.lookup? url = some type) (hd : depth + 1 ≤ options.depthLimit)
    {body : List Line} {m any : Message} (hany : any.type = .any)
    (h : Merges options (depth + 1) body (.new type) m) :
    Merges options depth (Line.block ("[" ++ url ++ "]") body) any
      (Any.make url (.held m) any.unknown) := by
  have hspans := spans_block hd h
  refine merges_piece hurl.readFrom (hspans.imp fun rounds c c' hrun => ?_)
  have hslash : url.toList.contains '/' = true := List.contains_iff_mem.2 hurl.slash
  have htype : options.known?.bind (·.lookup? url) = some type := by
    rw [hknown]
    exact hlookup
  have hexpanded : mergeExpanded options (mergeFields options rounds) url (any, c) =
      .ok () (Any.make url (.held m) any.unknown, c') := by
    rw [mergeExpanded, htype]
    exact run_bind_of_ok (read_eq_ok.2 ⟨alone_eq_ok.2 hrun, rfl⟩)
  rw [mergeNamed, run_bind_of_ok (run_current any c)]
  dsimp only
  rw [if_pos hslash, if_pos hany]
  exact run_bind_of_ok hexpanded

end Text

/-! ## Payloads inside payloads -/

namespace Any

open Message

/-- A payload in bytes is expanded to the message that is decoded from them. -/
theorem expanded?_of_decode {registry : Registry} {any m : Message} {type : MessageType}
    {bytes : Bytes} (hpayload : payload any = .serialized bytes)
    (hlookup : registry.lookup? (url any) = some type)
    (hdecode : decode { allowPartial := true } type bytes = .ok m) :
    expanded? (some registry) any = some m := by
  rw [expanded?, hpayload]
  dsimp only [bind, Option.bind]
  rw [hlookup]
  dsimp only
  rw [hdecode]
  rfl

theorem expanded?_ofBytes {registry : Registry} {u : String} {type : MessageType} {bytes : Bytes}
    {m : Message} (hlookup : registry.lookup? u = some type)
    (hdecode : decode { allowPartial := true } type bytes = .ok m) :
    expanded? (some registry) (ofBytes u bytes) = some m :=
  expanded?_of_decode rfl hlookup hdecode

/-- The payload of the `Any` is printed as a message that is parsed as one of the same type, and
that has the bytes of the payload. -/
structure Expands (registry : Registry) (any payload : Message) : Prop where
  /-- It is an `Any`. -/
  type_eq : any.type = .any
  /-- It has the slots of one. -/
  fits : any.Fits
  /-- Nothing in it is unknown. -/
  unknown_eq : any.unknown = []
  /-- It carries the message, resolved through the registry if need be. -/
  expanded : expanded? (some registry) any = some payload
  /-- The URL can stand in brackets. -/
  bracketed : Text.IsBracketed (url any)
  /-- The type is registered. -/
  registered : registry.lookup? (url any) = some payload.type
  /-- The bytes are what the message is encoded as. -/
  canonical : payload.encode = value any

/-- The `Any` is printed with its payload as a message inside fewer than so many blocks, and parsed
where so many more blocks may be open. The payload may be another `Any`. -/
inductive Restorable (registry : Registry) : (blocks levels : Nat) → Message → Prop
  /-- The payload is printed in bytes. -/
  | bytes {blocks : Nat} {any : Message} (type_eq : any.type = .any) (fits : any.Fits)
    (unknown_eq : any.unknown = [])
    (h : blocks = 0 ∨ expanded? (some registry) any = none) : Restorable registry blocks 0 any
  /-- The payload is printed as a message without unknown fields and floating-point numbers. -/
  | message {blocks : Nat} {any payload : Message} (h : Expands registry any payload)
    (ht : payload.type ≠ .node) (ha : payload.type ≠ .any)
    (hsound : payload.Sound (fun _ _ unknown => unknown = []) 0)
    (hplain : payload.Everywhere
      (fun _ c => ∀ v ∈ c.visits, ∀ x ∈ v.scalars, x.isFloating = false) 0) :
    Restorable registry (blocks + 1) (payload.type.height + 1) any
  /-- The payload is printed as an `Any`. -/
  | any {blocks levels : Nat} {any payload : Message} (h : Expands registry any payload)
    (hpayload : Restorable registry blocks levels payload) :
    Restorable registry (blocks + 1) (levels + 1) any

variable {registry : Registry} {options : Text.ParseOptions} {print : Text.PrintOptions}

theorem Restorable.type_eq {blocks levels : Nat} {any : Message}
    (h : Restorable registry blocks levels any) : any.type = .any := by
  cases h with
  | bytes h => exact h
  | message h => exact h.type_eq
  | any h => exact h.type_eq

/-- What is parsed from a block with the payload is the same `Any` in bytes. -/
theorem Expands.inBytes_make {any payload m : Message} (h : Expands registry any payload)
    (hm : m.inBytes = payload.inBytes) : (make (url any) (.held m) []).inBytes = any.inBytes := by
  obtain ⟨u, p, hany⟩ := h.fits.eq_make h.type_eq
  rw [h.unknown_eq] at hany
  have hvalue : payload.encode = p.bytes encode := by
    rw [h.canonical, hany, value_make]
  have hurl : url any = u := by
    rw [hany]
    rfl
  have hencode : m.encode = payload.encode := by
    rw [← encode_inBytes m, hm, encode_inBytes]
  rw [hurl, hany, Any.inBytes_make, Any.inBytes_make, ← hvalue, ← hencode]
  rfl

/-- A block with the payload is merged into the same `Any` in bytes if the payload is. -/
theorem Expands.merges (hoptions : options.known? = some registry)
    (hprint : print.known? = some registry) {any payload m : Message}
    (h : Expands registry any payload) {blocks depth : Nat} (hd : depth + 1 ≤ options.depthLimit)
    (hmerges : Text.Merges options (depth + 1) (Text.messageLines print blocks payload)
      (.new payload.type) m) (hm : m.inBytes = payload.inBytes) :
    ∃ any', Text.Merges options depth (Text.messageLines print (blocks + 1) any) (.new .any) any' ∧
      any'.inBytes = any.inBytes := by
  refine ⟨make (url any) (.held m) [], ?_, h.inBytes_make hm⟩
  rw [Text.messageLines_expanded h.type_eq (hprint.symm ▸ h.expanded) blocks, h.unknown_eq,
    Text.unknownLines_nil, List.append_nil]
  have htype : (new .any).type = .any := rfl
  exact Text.merges_expanded h.bracketed hoptions h.registered hd htype hmerges

/-- The lines of the URL and of the payload in bytes are merged, however messages are printed. -/
theorem merges_bytes {any : Message} (ha : any.type = .any) (hfits : any.Fits)
    (hunknown : any.unknown = []) (depth : Nat) (lines : Nat → Message → List Text.Line) :
    Text.Merges options depth (any.visits.flatMap (Text.visitLines (lines 1) (lines 2)))
      (.new .any) any.inBytes := by
  obtain ⟨u, p, hany⟩ := hfits.eq_make ha
  rw [hunknown] at hany
  rw [hany] at hfits ⊢
  have hplain : ∀ v ∈ (make u p []).visits, ∀ x ∈ v.scalars, x.isFloating = false := by
    intro v hv x hx
    rw [visits_make] at hv
    simp only [Member.visits, List.mem_append, List.mem_ite_nil_left, List.mem_singleton,
      List.not_mem_nil, or_false] at hv
    obtain ⟨-, rfl⟩ | ⟨-, rfl⟩ := hv <;>
      obtain rfl := List.mem_singleton.1 hx <;>
      rfl
  have hslots : (make u p []).slots = [.plain (.string u), .payload p] := rfl
  -- What is carried is not a message inside: only its bytes are printed here.
  have hback : ∀ s ∈ (make u p []).slots, ∀ c ∈ s.nested,
      Text.Restores options (depth + c.1) (lines c.1 c.2) c.2 := by
    intro s hs c hc
    rw [hslots, List.mem_pair] at hs
    rcases hs with rfl | rfl <;> cases hc
  have hmap : ∀ es, .map es ∉ (make u p []).slots := by
    intro es hes
    rw [hslots, List.mem_pair] at hes
    rcases hes with hes | hes <;> cases hes
  have hempty : ([] : List (Slot Message)).length = ([] : List Member).length := rfl
  rw [inBytes_eq]
  exact Text.merges_members lines (m := .new .any) (List.nil_append _).symm hempty rfl hfits.forall₂
    hplain hback fun es hes => absurd hes (hmap es)

/-- The lines of an `Any` are merged into one that is the same in bytes. -/
theorem Restorable.merges (hoptions : options.known? = some registry)
    (hprint : print.known? = some registry) {blocks levels : Nat} {any : Message}
    (h : Restorable registry blocks levels any) {depth : Nat}
    (hd : depth + levels ≤ options.depthLimit) :
    ∃ m, Text.Merges options depth (Text.messageLines print blocks any) (.new .any) m ∧
      m.inBytes = any.inBytes := by
  induction h generalizing depth with
  | @bytes blocks any type_eq fits unknown_eq h =>
    have hlines : ∃ lines : Nat → Message → List Text.Line,
        Text.messageLines print blocks any =
          any.visits.flatMap (Text.visitLines (lines 1) (lines 2)) := by
      rcases h with rfl | h
      · refine ⟨fun _ => Text.plainLines print, ?_⟩
        rw [Text.messageLines, Text.plainLines_eq, unknown_eq, Text.unknownLines_nil,
          List.append_nil]
      · refine ⟨fun level => Text.messageLines print (blocks - level), ?_⟩
        rw [Text.messageLines_eq (fun _ => hprint.symm ▸ h), unknown_eq, Text.unknownLines_nil,
          List.append_nil]
    obtain ⟨lines, hlines⟩ := hlines
    rw [hlines]
    refine ⟨any.inBytes, merges_bytes type_eq fits unknown_eq depth lines, ?_⟩
    obtain ⟨u, p, hany⟩ := fits.eq_make type_eq
    rw [hany, inBytes_make, inBytes_make]
    rfl
  | @message blocks any payload h ht ha hsound hplain =>
    have hsound : payload.Sound (fun _ _ unknown => unknown = []) (depth + 1) :=
      Everywhere.at (P := fun _ c => c.Fits ∧ c.unknown = []) (fun _ _ _ here => here) hsound _
    have hself : payload.inBytes = payload := hsound.inBytes_eq_self ht ha
    have hplain := Everywhere.at
      (Q := fun _ c => ∀ v ∈ c.visits, ∀ x ∈ v.scalars, x.isFloating = false)
      (fun _ _ _ here => here) hplain (depth + 1)
    have hnests : payload.NestsWithin options.depthLimit (depth + 1) :=
      hsound.nestsWithin ht (by omega)
    have hprintable : payload.Everywhere (fun _ c => c.Printable print.known?) (depth + 1) :=
      hsound.printable ht hplain fun h => absurd h ha
    obtain ⟨-, hmerges⟩ := Text.restores hsound hnests hprintable blocks
    exact h.merges hoptions hprint (by omega) hmerges (congrArg inBytes hself)
  | @any blocks levels any payload h hpayload ih =>
    have hlevels : depth + 1 + levels ≤ options.depthLimit := by omega
    obtain ⟨m, hmerges, hm⟩ := ih hlevels
    have hmerges : Text.Merges options (depth + 1) (Text.messageLines print blocks payload)
        (.new payload.type) m := hpayload.type_eq ▸ hmerges
    exact h.merges hoptions hprint (by omega) hmerges hm

/-- An `Any` that is printed and parsed with a registry has the same URL and the same bytes, if the
URLs that are printed in brackets can be read there. -/
theorem parse_print_expanded (hoptions : options.known? = some registry)
    (hpartial : options.allowPartial = true) (hprint : print.known? = some registry)
    {levels : Nat} {any : Message} (h : Restorable registry print.anyDepth levels any)
    (hlimit : levels ≤ options.depthLimit) :
    ∃ any', parse options .any (any.print print) = .ok any' ∧ url any' = url any ∧
      value any' = value any := by
  obtain ⟨m, hmerges, hm⟩ := h.merges hoptions hprint ((Nat.zero_add levels).symm ▸ hlimit)
  obtain ⟨c, hbody⟩ := hmerges.mergeBody
  have hchecked : m.checked options.allowPartial = .ok m := by
    rw [checked, hpartial, Bool.true_or]
    rfl
  refine ⟨m, ?_, ?_, ?_⟩
  · rw [parse, mergeText, Message.print, hbody]
    dsimp only
    rw [hchecked]
  · rw [← url_inBytes m, hm, url_inBytes]
  · rw [← value_inBytes m, hm, value_inBytes]

/-- The payload is an `Any` that carries bytes of a message. -/
theorem parse_print_expanded_any :
    ∃ (registry : Registry) (any any' : Message),
      registry = Registry.empty.registerAll [.any, .inner] ∧
      any = pack (ofBytes "a.b/protowire_test.Inner" [8, 5]) "c" ∧
      parse { known? := some registry, allowPartial := true } .any
        (any.print { known? := some registry }) = .ok any' ∧
      url any' = "c/google.protobuf.Any" ∧ value any' = value any := by
  let registry := Registry.empty.registerAll [.any, .inner]
  let inner := ofBytes "a.b/protowire_test.Inner" [8, 5]
  let m : Message := ⟨.inner, [.plain (.int32 5), .plain (.string "")], []⟩
  have hlookup : registry.lookup? "a.b/protowire_test.Inner" = some .inner := by decide +kernel
  have hinner : Expands registry inner m := {
    type_eq := rfl
    fits := fits_make ..
    unknown_eq := rfl
    expanded := expanded?_ofBytes hlookup rfl
    bracketed := ⟨by decide, List.all_eq_true.1 (by decide)⟩
    registered := hlookup
    canonical := encode_inner_five.trans (value_make _ (.serialized [8, 5]) []).symm }
  have hany : Expands registry (pack inner "c") inner := {
    type_eq := rfl
    fits := fits_make ..
    unknown_eq := rfl
    expanded := rfl
    bracketed := ⟨by decide, List.all_eq_true.1 (by decide)⟩
    registered := by decide +kernel
    canonical := (value_make _ (.held inner) []).symm }
  have hnew := sound_new (U := fun _ _ unknown => unknown = []) (fun _ _ => rfl) 0 .inner
  have hsound : m.Sound (fun _ _ unknown => unknown = []) 0 :=
    hnew.set (i := 0) (s := .plain (.int32 5)) rfl ⟨rfl, List.forall_mem_nil _⟩
  have hplain : m.Everywhere
      (fun _ c => ∀ v ∈ c.visits, ∀ x ∈ v.scalars, x.isFloating = false) 0 :=
    .intro (by decide) fun _ hc => nomatch hc
  have h : Restorable registry 10 2 (pack inner "c") :=
    .any hany (.message hinner (by decide) (by decide) hsound hplain)
  let print : Text.PrintOptions := { known? := some registry }
  let options : Text.ParseOptions := { known? := some registry, allowPartial := true }
  have hback : ∃ any', parse options .any ((pack inner "c").print print) = .ok any' ∧
      url any' = url (pack inner "c") ∧ value any' = value (pack inner "c") :=
    parse_print_expanded rfl rfl rfl h (by decide)
  obtain ⟨any', hparse, hurl, hvalue⟩ := hback
  exact ⟨registry, _, any', rfl, rfl, hparse, hurl, hvalue⟩

/-- A URL with a hyphen is printed in brackets, but not read there. -/
theorem parse_print_expanded_hyphen :
    ∃ (registry : Registry) (any m : Message),
      registry = Registry.empty.registerAll [.inner] ∧
      any = ofBytes "my-host.com/protowire_test.Inner" [8, 5] ∧
      expanded? (some registry) any = some m ∧ registry.lookup? (url any) = some m.type ∧
      m = ⟨.inner, [.plain (.int32 5), .plain (.string "")], []⟩ ∧ m.encode = value any ∧
      parse { known? := some registry, allowPartial := true, depthLimit := 2 ^ 64 - 1 } .any
        (any.print { known? := some registry }) =
          .error (.malformedText 1 4 (.expectedChar ']')) := by
  let registry := Registry.empty.registerAll [.inner]
  let any := ofBytes "my-host.com/protowire_test.Inner" [8, 5]
  let m : Message := ⟨.inner, [.plain (.int32 5), .plain (.string "")], []⟩
  have hlookup : registry.lookup? "my-host.com/protowire_test.Inner" = some .inner := by
    decide +kernel
  let print : Text.PrintOptions := { known? := some registry }
  have hexpanded : expanded? print.known? any = some m := expanded?_ofBytes hlookup rfl
  have hnone : m.type = .any → expanded? print.known? m = none := fun ha => nomatch ha
  have hvisits : m.visits = [.field 1 "value" (.scalar (.int32 5))] := rfl
  have hprint : any.print print = "[my-host.com/protowire_test.Inner] \x7b\n  value: 5\n\x7d\n" := by
    have hlines := Text.messageLines_expanded rfl hexpanded 9
    have hpayload := Text.messageLines_eq hnone 9
    rw [Message.print, hlines, hpayload, hvisits, Text.unknownLines_nil]
    decide +kernel
  have hparse : parse { known? := some registry, allowPartial := true, depthLimit := 2 ^ 64 - 1 }
      .any "[my-host.com/protowire_test.Inner] \x7b\n  value: 5\n\x7d\n" =
        .error (.malformedText 1 4 (.expectedChar ']')) := rfl
  exact ⟨registry, any, m, rfl, rfl, hexpanded, hlookup, rfl,
    encode_inner_five.trans (value_make _ (.serialized [8, 5]) []).symm, hprint ▸ hparse⟩

end Any

end Protobuf
