import Protobuf.Proofs.Text.Expansion

/-!
# Chains of payloads

An `Any` may carry another one in bytes, which carries another one, and so on. Only so many of them
are printed as blocks: the next one inside has its bytes printed as they are, so that the text is
parsed to an `Any` that is encoded as before (`Any.print_parse_chain`).
-/

namespace Protobuf

open Message

/-! ## Blocks inside blocks -/

namespace Text.Line

/-- The line behind two spaces for every block that is open around it. -/
def atLevel (level : Nat) (line : Line) : String :=
  "".pushn ' ' (2 * level) ++ line.text ++ "\n"

theorem finalDepth_append (depth : Nat) (a b : List Line) :
    finalDepth depth (a ++ b) = finalDepth (finalDepth depth a) b :=
  List.foldl_append

theorem finalDepth_block (label : String) {body : List Line} {depth : Nat}
    (h : finalDepth (depth + 1) body = depth + 1) :
    finalDepth depth (block label body) = depth := by
  have hblock : finalDepth depth (block label body) =
      finalDepth (finalDepth (depth + 1) body) [closing] := finalDepth_append (depth + 1) body _
  rw [hblock, h]
  rfl

theorem indented_block (label : String) {body : List Line} {depth : Nat}
    (h : finalDepth (depth + 1) body = depth + 1) :
    indented depth (block label body) =
      atLevel depth (opening label) :: (indented (depth + 1) body ++ [atLevel depth closing]) := by
  have hblock : indented depth (block label body) =
      atLevel depth (opening label) :: indented (depth + 1) (body ++ [closing]) := rfl
  rw [hblock, indented_append, h]
  rfl

variable (label : String) {body : List Line} {depth : Nat}

/-- Blocks around blocks end where they start. -/
theorem finalDepth_iterate_block (k : Nat) (h : finalDepth (depth + k) body = depth + k) :
    finalDepth depth ((block label)^[k] body) = depth := by
  induction k generalizing depth with
  | zero => exact h
  | succ k ih =>
    rw [Function.iterate_succ_apply']
    refine finalDepth_block label (ih ?_)
    rwa [Nat.add_right_comm]

/-- Every block is one level further in than the one around it. -/
theorem indented_iterate_block (k : Nat) (h : finalDepth (depth + k) body = depth + k) :
    indented depth ((block label)^[k] body) =
      (List.range' depth k).map (fun i => atLevel i (opening label)) ++
        indented (depth + k) body ++
        (List.range' depth k).reverse.map (fun i => atLevel i closing) := by
  induction k generalizing depth with
  | zero => exact (List.append_nil _).symm
  | succ k ih =>
    have hinside : finalDepth (depth + 1 + k) body = depth + 1 + k := by
      rwa [Nat.add_right_comm]
    rw [Function.iterate_succ_apply',
      indented_block label (finalDepth_iterate_block label k hinside), ih hinside, List.range'_succ,
      List.reverse_cons, List.map_append, List.map_cons, Nat.add_right_comm, Nat.add_assoc]
    simp only [List.cons_append, List.append_assoc, List.map_cons, List.map_nil]

end Text.Line

/-- A registered type is found under its name. -/
theorem TypeRegistry.find?_of_mem {τ : Type} [NamedTypes τ] {registry : TypeRegistry τ} {type : τ}
    (h : type ∈ registry.types) : registry.find? (NamedTypes.fullName type) = some type := by
  have hsome : (registry.find? (NamedTypes.fullName type)).isSome = true :=
    List.find?_isSome.2 ⟨type, h, decide_eq_true rfl⟩
  obtain ⟨other, hother⟩ := Option.isSome_iff_exists.1 hsome
  have hfound := List.find?_some (show registry.types.find? _ = some other from hother)
  have hname : NamedTypes.fullName other = NamedTypes.fullName type := of_decide_eq_true hfound
  have hmem : other ∈ registry.types := List.mem_of_find?_eq_some hother
  rw [hother, List.inj_on_of_nodup_map registry.distinct hmem h hname]

/-! ## Chains -/

namespace Any

/-- A URL for an `Any` that is carried. -/
def nestedUrl : String := "type.googleapis.com/google.protobuf.Any"

/-- So many of them, each with the next one in bytes. The last one carries an empty message, which
has no bytes. -/
def chain : Nat → Message
  | 0 => .new .any
  | n + 1 => ofBytes nestedUrl (chain n).encode

/-- The chain in which so many of the outer payloads are resolved. -/
def resolvedChain : (resolved n : Nat) → Message
  | resolved + 1, n + 1 => make nestedUrl (.held (resolvedChain resolved n)) []
  | _, n => chain n

/-- The lines of the chain's fields as they are. The field with the bytes is left out if there are
none. -/
def rawChainLines : Nat → List Text.Line
  | 0 => []
  | n + 1 =>
    .field "type_url" (Text.quote nestedUrl) ::
      if (chain n).encode = [] then []
      else [.field "value" (Text.quote (Text.escapeBytes (chain n).encode))]

/-- The text of the chain: headers, each one level further in than the one before, the fields of
the next one inside them as they are, and the ends of the blocks. -/
def chainText (blocks n : Nat) : String :=
  let headers := min n blocks
  String.join
    ((List.range headers).map (fun i => Text.Line.atLevel i (.opening ("[" ++ nestedUrl ++ "]"))) ++
      (rawChainLines (n - headers)).map (Text.Line.atLevel headers) ++
      (List.range headers).reverse.map fun i => Text.Line.atLevel i .closing)

theorem isBracketed_nestedUrl : Text.IsBracketed nestedUrl :=
  ⟨by decide, List.all_eq_true.1 (by decide)⟩

theorem type_chain (n : Nat) : (chain n).type = .any := by
  cases n <;> rfl

theorem fits_chain (n : Nat) : (chain n).Fits := by
  cases n <;> exact fits_make ..

theorem unknown_chain (n : Nat) : (chain n).unknown = [] := by
  cases n <;> rfl

theorem inBytes_chain (n : Nat) : (chain n).inBytes = chain n := by
  cases n <;> exact inBytes_make ..

theorem arises_chain (n : Nat) : (chain n).Arises .any :=
  Or.inl ⟨type_chain n, .intro ⟨fits_chain n, unknown_chain n⟩ fun _ hc => by
    cases n <;> cases hc⟩

theorem isInitialized_chain (n : Nat) : (chain n).isInitialized = true := by
  cases n <;> exact isInitialized_ofBytes ..

/-! ## Resolved payloads -/

theorem encode_resolvedChain (resolved n : Nat) :
    (resolvedChain resolved n).encode = (chain n).encode := by
  induction resolved generalizing n with
  | zero => cases n <;> rfl
  | succ resolved ih =>
    cases n with
    | zero => rfl
    | succ n =>
      have hbytes : (make nestedUrl (.held (resolvedChain resolved n)) []).inBytes =
          chain (n + 1) := by
        rw [inBytes_make]
        exact congrArg (ofBytes nestedUrl) (ih n)
      exact (encode_inBytes _).symm.trans (congrArg encode hbytes)

theorem isInitialized_resolvedChain (resolved n : Nat) :
    (resolvedChain resolved n).isInitialized = true := by
  induction resolved generalizing n with
  | zero => cases n <;> exact isInitialized_chain _
  | succ resolved ih =>
    cases n with
    | zero => exact isInitialized_chain 0
    | succ n =>
      have heq : (resolvedChain (resolved + 1) (n + 1)).isInitialized =
          (true && ((resolvedChain resolved n).isInitialized && true)) := isInitialized_eq _
      rw [heq, ih n]
      rfl

theorem length_chain_le {k n : Nat} (h : k ≤ n) :
    (chain k).encode.length ≤ (chain n).encode.length := by
  induction n, h using Nat.le_induction with
  | base => exact Nat.le_refl _
  | succ n _ ih => exact Nat.le_trans ih (length_value_le nestedUrl (.serialized _) [])

theorem decode_chain {n : Nat} (hlen : (chain n).encode.length < 2 ^ 64) :
    decode { allowPartial := true } .any (chain n).encode = .ok (chain n) := by
  rw [(arises_chain n).decode_encode (by decide) hlen, inBytes_chain]

variable {registry : Registry}

theorem lookup?_nestedUrl (h : .any ∈ registry.types) :
    registry.lookup? nestedUrl = some .any := by
  have hname : TypeUrl.typeName nestedUrl = MessageType.any.fullName := by decide
  rw [TypeRegistry.lookup?, hname]
  exact TypeRegistry.find?_of_mem h

/-- No type is registered under the empty name. -/
theorem expanded?_chain_zero : expanded? (some registry) (chain 0) = none := by
  have hname : TypeUrl.typeName "" = "" := by decide
  have hnone : registry.lookup? "" = none := by
    rw [TypeRegistry.lookup?, hname, TypeRegistry.find?, List.find?_eq_none]
    intro type _
    cases type <;> decide
  have hbind : expanded? (some registry) (chain 0) =
      (registry.lookup? "").bind fun type =>
        (decode { allowPartial := true } type []).toOption := rfl
  rw [hbind, hnone]
  rfl

/-- Each `Any` of the chain is expanded to the next one. -/
theorem expanded?_chain_succ (hany : .any ∈ registry.types) {n : Nat}
    (hlen : (chain n).encode.length < 2 ^ 64) :
    expanded? (some registry) (chain (n + 1)) = some (chain n) :=
  expanded?_ofBytes (lookup?_nestedUrl hany) (decode_chain hlen)

/-! ## The text of a chain -/

/-- The fields of a message that is no expanded payload are printed as they are. -/
theorem visitLines_chain (body entryBody : Message → List Text.Line) (n : Nat) :
    (chain n).visits.flatMap (Text.visitLines body entryBody) = rawChainLines n := by
  cases n with
  | zero => rfl
  | succ n =>
    have hurl : Member.visits encode (.plain 1 "type_url" .string) (.plain (.string nestedUrl)) =
        [.field 1 "type_url" (.scalar (.string nestedUrl))] := rfl
    have htext : Text.escapeString nestedUrl = nestedUrl := by decide
    have hvisits : (chain (n + 1)).visits = [.field 1 "type_url" (.scalar (.string nestedUrl))] ++
        (Member.visits encode (.payload 2 "value") (.payload (.serialized (chain n).encode)) ++
          []) := visits_make ..
    rw [hvisits, rawChainLines, Member.visits, Payload.bytes]
    cases hbytes : (chain n).encode with
    | nil =>
      simp [Text.visitLines, Text.valueLines, Text.scalarText, htext]
    | cons b bytes =>
      simp [Text.visitLines, Text.valueLines, Text.scalarText, htext]

variable {print : Text.PrintOptions} {options : Text.ParseOptions}

/-- Fewer payloads than there may be blocks are printed as blocks, and the next one as it is. -/
theorem messageLines_chain (hany : .any ∈ registry.types) (hprint : print.known? = some registry)
    {n : Nat} (hlen : (chain n).encode.length < 2 ^ 64) (blocks : Nat) :
    Text.messageLines print blocks (chain n) =
      (Text.Line.block ("[" ++ nestedUrl ++ "]"))^[min n blocks]
        (rawChainLines (n - min n blocks)) := by
  induction blocks generalizing n with
  | zero =>
    rw [Nat.min_zero, Nat.sub_zero, Text.messageLines, Text.plainLines_eq, visitLines_chain,
      unknown_chain, Text.unknownLines_nil, List.append_nil]
    rfl
  | succ blocks ih =>
    cases n with
    | zero =>
      have hnone : (chain 0).type = .any → expanded? print.known? (chain 0) = none :=
        fun _ => hprint ▸ expanded?_chain_zero
      rw [Text.messageLines_eq hnone, visitLines_chain, unknown_chain, Text.unknownLines_nil,
        List.append_nil, Nat.zero_min]
      rfl
    | succ n =>
      have hlen : (chain n).encode.length < 2 ^ 64 :=
        Nat.lt_of_le_of_lt (length_chain_le (Nat.le_succ n)) hlen
      have hexpanded : expanded? print.known? (chain (n + 1)) = some (chain n) :=
        hprint ▸ expanded?_chain_succ hany hlen
      rw [Text.messageLines_expanded (type_chain _) hexpanded, unknown_chain,
        Text.unknownLines_nil, List.append_nil, ih hlen, Nat.succ_min_succ, Nat.succ_sub_succ,
        Function.iterate_succ_apply']
      rfl

theorem indented_rawChainLines (n depth : Nat) :
    Text.Line.indented depth (rawChainLines n) =
        (rawChainLines n).map (Text.Line.atLevel depth) ∧
      Text.Line.finalDepth depth (rawChainLines n) = depth := by
  cases n with
  | zero => exact ⟨rfl, rfl⟩
  | succ n =>
    rw [rawChainLines]
    split
    · exact ⟨rfl, rfl⟩
    · exact ⟨rfl, rfl⟩

theorem print_chain (hany : .any ∈ registry.types) (hprint : print.known? = some registry)
    {n : Nat} (hlen : (chain n).encode.length < 2 ^ 64) :
    (chain n).print print = chainText print.anyDepth n := by
  obtain ⟨hraw, hdepth⟩ := indented_rawChainLines (n - min n print.anyDepth)
    (0 + min n print.anyDepth)
  rw [Message.print, messageLines_chain hany hprint hlen, Text.Line.render,
    Text.Line.indented_iterate_block _ _ hdepth, hraw, Nat.zero_add, chainText,
    List.range_eq_range']

/-- The lines of a chain are merged into one in which the payloads in blocks are resolved. -/
theorem merges_chain (hany : .any ∈ registry.types) (hoptions : options.known? = some registry)
    (hprint : print.known? = some registry) {n : Nat} (hlen : (chain n).encode.length < 2 ^ 64)
    (blocks depth : Nat) (hd : depth + min n blocks ≤ options.depthLimit) :
    Text.Merges options depth (Text.messageLines print blocks (chain n)) (.new .any)
      (resolvedChain blocks n) := by
  induction blocks generalizing n depth with
  | zero =>
    have hmerges : Text.Merges options depth _ _ _ := merges_bytes (type_chain n) (fits_chain n)
      (unknown_chain n) depth fun _ => Text.plainLines print
    have hresolved : resolvedChain 0 n = chain n := by
      cases n <;> rfl
    rw [messageLines_chain hany hprint hlen, Nat.min_zero, hresolved]
    rwa [visitLines_chain, inBytes_chain] at hmerges
  | succ blocks ih =>
    cases n with
    | zero =>
      rw [messageLines_chain hany hprint hlen, Nat.zero_min]
      exact Text.merges_nil
    | succ n =>
      have hlen : (chain n).encode.length < 2 ^ 64 :=
        Nat.lt_of_le_of_lt (length_chain_le (Nat.le_succ n)) hlen
      have hexpanded : expanded? print.known? (chain (n + 1)) = some (chain n) :=
        hprint ▸ expanded?_chain_succ hany hlen
      have hmerges := ih hlen (depth + 1) (by omega)
      rw [Text.messageLines_expanded (type_chain _) hexpanded, unknown_chain,
        Text.unknownLines_nil, List.append_nil]
      exact Text.merges_expanded isBracketed_nestedUrl hoptions (lookup?_nestedUrl hany) (by omega)
        rfl hmerges

/-- A chain that was decoded is printed with as many blocks as there may be, and what is left of it
inside them as it is. Its text is parsed to a chain that is encoded as before, if so many blocks may
be open. -/
theorem print_parse_chain (hany : .any ∈ registry.types) (hprint : print.known? = some registry)
    (hoptions : options.known? = some registry) (n : Nat)
    (hlimit : min n print.anyDepth ≤ options.depthLimit) (hlen : (chain n).encodedLen < 2 ^ 64) :
    decode { allowPartial := true } .any (chain n).encode = .ok (chain n) ∧
      (chain n).print print = chainText print.anyDepth n ∧
      parse options .any ((chain n).print print) = .ok (resolvedChain print.anyDepth n) ∧
      ∀ allowPartial,
        (resolvedChain print.anyDepth n).serialize allowPartial = .ok (chain n).encode := by
  rw [encodedLen_eq] at hlen
  obtain ⟨c, hbody⟩ :=
    (merges_chain hany hoptions hprint hlen print.anyDepth 0 (by omega)).mergeBody
  have hchecked (allowPartial : Bool) :
      (resolvedChain print.anyDepth n).checked allowPartial =
        .ok (resolvedChain print.anyDepth n) := by
    rw [checked, isInitialized_resolvedChain, Bool.or_true]
    rfl
  refine ⟨decode_chain hlen, print_chain hany hprint hlen, ?_, fun allowPartial => ?_⟩
  · rw [parse, mergeText, Message.print, hbody]
    dsimp only
    rw [hchecked]
  · rw [serialize, hchecked, ← encode_resolvedChain print.anyDepth n]
    exact congrArg Except.ok (toBytes_eq _)

/-- One of three is printed as a block, and the bytes in the next one are escaped. -/
theorem print_parse_chain_three :
    let registry := Registry.standard
    let print : Text.PrintOptions := { known? := some registry, anyDepth := 1 }
    let m := make nestedUrl (.held (chain 2)) []
    (chain 3).encodedLen < 2 ^ 64 ∧
      (chain 3).print print = "[type.googleapis.com/google.protobuf.Any] \x7b\n" ++
        "  type_url: \"type.googleapis.com/google.protobuf.Any\"\n" ++
        "  value: \"\\n\\'type.googleapis.com/google.protobuf.Any\"\n\x7d\n" ∧
      parse { known? := some registry, depthLimit := 1 } .any ((chain 3).print print) = .ok m ∧
      m.serialize false = .ok (chain 3).encode := by
  have hlen : (chain 3).encodedLen < 2 ^ 64 := by decide +kernel
  obtain ⟨-, hprint, hparse, hserialize⟩ := @print_parse_chain Registry.standard
    { known? := some Registry.standard, anyDepth := 1 }
    { known? := some Registry.standard, depthLimit := 1 } (by decide) rfl rfl 3 (by decide) hlen
  exact ⟨hlen, hprint.trans (by decide +kernel), hparse, hserialize false⟩

end Any

end Protobuf
