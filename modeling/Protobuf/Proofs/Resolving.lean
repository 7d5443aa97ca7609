import Mathlib.Order.Filter.AtTopBot.Finite
import Protobuf.Proofs.Labels
import Protobuf.Proofs.Text.Expansion

/-!
# Resolving payloads

An `Any` is resolved, or it is left as it was (`Any.resolve_atomic`). Once it is resolved, nothing
else is unpacked from it and nothing else is printed for it than before. Its bytes stay the same
where they were an encoding, and not only something that can be decoded.
-/

namespace Protobuf

/-! ## Unknown fields from decoded messages -/

namespace Message

variable {P Q : Nat → Message → Prop} {d : Nat} {m c : Message}

/-- The message is the other one, or is read inside it. -/
inductive Encloses : Message → Message → Prop
  /-- It is the message itself. -/
  | self (m : Message) : Encloses m m
  /-- It is read inside a message that is read directly inside. -/
  | inside {m inner : Message} {c : Nat × Message} (hc : c ∈ m.nested) (h : Encloses c.2 inner) :
    Encloses m inner

theorem Everywhere.of_encloses (h : m.Everywhere P d) (hc : m.Encloses c) : ∃ d', P d' c := by
  induction hc generalizing d with
  | self m => exact ⟨d, h.here⟩
  | inside hc _ ih => exact ih (h.inside hc)

theorem Everywhere.imp_encloses (h : m.Everywhere P d)
    (himp : ∀ d c, m.Encloses c → P d c → Q d c) : m.Everywhere Q d := by
  induction h with
  | @intro d m here _ ih =>
    exact .intro (himp d m (.self m) here) fun c hc =>
      ih c hc fun d inner hinner => himp d inner (.inside hc hinner)

/-- The bytes are unknown fields that messages of the type kept when they were decoded, as inputs of
their own or inside others. -/
inductive KeptUnknown (type : MessageType) : Bytes → Prop
  /-- Nothing is unknown. -/
  | nil : KeptUnknown type []
  /-- A decoded message adds what is unknown in it. -/
  | append {unknown bytes : Bytes} {options : DecodeOptions} {outer : MessageType} {m c : Message}
    (before : KeptUnknown type unknown) (decoded : decode options outer bytes = .ok m)
    (hc : m.Encloses c) (type_eq : c.type = type) : KeptUnknown type (unknown ++ c.unknown)

/-- What was kept is kept again wherever it may nest deep enough. -/
theorem KeptUnknown.exists_foreign {type : MessageType} {unknown : Bytes}
    (h : KeptUnknown type unknown) :
    ∃ levels, ∀ limit depth, levels ≤ limit - depth → Foreign limit depth type unknown := by
  induction h with
  | nil => exact ⟨0, fun limit depth _ => foreign_nil limit depth type⟩
  | @append _ _ options _ _ _ _ decoded hc type_eq ih =>
    obtain ⟨levels, ih⟩ := ih
    obtain ⟨d, -, hforeign⟩ := (sound_of_decode decoded).2.of_encloses hc
    rw [type_eq] at hforeign
    refine ⟨max levels (options.depthLimit - d), fun limit depth hle => ?_⟩
    exact (ih limit depth (by omega)).append (hforeign.of_levels_le (by omega))

/-! ## Encodings -/

/-- The bytes are the encoding of a message of the type. What is unknown in it, at any level, was
kept in decoding. -/
def IsEncoding (type : MessageType) (bytes : Bytes) : Prop :=
  ∃ m : Message, m.type = type ∧ m.Sound (fun _ type unknown => KeptUnknown type unknown) 0 ∧
    m.serialize true = .ok bytes

/-- A decoded message has an encoding. -/
theorem isEncoding_of_decode {options : DecodeOptions} {type : MessageType} {bytes : Bytes}
    (h : decode options type bytes = .ok m) : IsEncoding type m.encode := by
  obtain ⟨htype, hsound⟩ := sound_of_decode h
  refine ⟨m, htype, hsound.imp_encloses fun d c hc hhere => ⟨hhere.1, ?_⟩, serialize_partial m⟩
  exact .append .nil h hc rfl

/-- Under a limit that is high enough, a message does not nest too deep, and what is unknown in it
is foreign. -/
theorem Sound.eventually_foreign
    (h : m.Sound (fun _ type unknown => KeptUnknown type unknown) d) :
    ∀ᶠ limit in Filter.atTop, m.Sound (Foreign limit) d ∧ m.NestsWithin limit d := by
  induction h with
  | @intro d m here _ ih =>
    obtain ⟨hfits, hkept⟩ := here
    obtain ⟨levels, hforeign⟩ := hkept.exists_foreign
    have hinside : ∀ᶠ limit in Filter.atTop, ∀ c ∈ m.nested,
        c.2.Sound (Foreign limit) (d + c.1) ∧ c.2.NestsWithin limit (d + c.1) :=
      (Filter.eventually_all_finite m.nested.finite_toSet).2 ih
    filter_upwards [hinside, Filter.eventually_ge_atTop (d + 1 + levels)] with limit hinside hle
    constructor
    · exact .intro ⟨hfits, hforeign limit d (by omega)⟩ fun c hc => (hinside c hc).1
    · exact .intro ⟨by omega, fun _ _ _ => by omega⟩ fun c hc => (hinside c hc).2

/-- If an encoding can be decoded, the message that it is decoded to has it as its encoding. -/
theorem IsEncoding.encode_eq {type : MessageType} {bytes : Bytes} (h : IsEncoding type bytes)
    (hlen : bytes.length < 2 ^ 64) (hdecode : decode { allowPartial := true } type bytes = .ok m) :
    m.encode = bytes := by
  obtain ⟨n, rfl, hsound, hbytes⟩ := h
  rw [serialize_partial] at hbytes
  cases hbytes
  obtain ⟨limit, ⟨hforeign, hnests⟩, hle⟩ :=
    (hsound.eventually_foreign.and (Filter.eventually_ge_atTop 100)).exists
  have hwide : decode { depthLimit := limit, allowPartial := true } n.type n.encode =
      .ok n.inBytes := decode_encode rfl rfl hforeign hnests hlen
  -- the default limit makes no other difference than to give some inputs up
  rcases decode_of_limit_le { allowPartial := true } hle n.type n.encode with heq | hgiven
  · have hm : m = n.inBytes := Except.ok.inj (hdecode.symm.trans (heq.trans hwide))
    rw [hm, encode_inBytes]
  · rw [hdecode] at hgiven
    cases hgiven

end Message

/-! ## Resolving -/

/-- Only names that are registered can be looked up. -/
theorem TypeRegistry.lookup?_eq_none_iff {τ : Type} [NamedTypes τ] {registry : TypeRegistry τ}
    {url : String} :
    registry.lookup? url = none ↔ TypeUrl.typeName url ∉ registry.names := by
  rw [lookup?, find?, List.find?_eq_none, names, List.mem_mergeSort, List.mem_map, not_exists]
  simp only [decide_eq_true_iff, not_and]

namespace Any

open Message

variable {registry : Registry} {any any' m : Message} {type : MessageType} {bytes : Bytes}

/-- All that can become of an `Any`. -/
theorem resolve_cases (registry : Registry) (any : Message) :
    (∃ m, payload any = .held m ∧ resolve registry any = .ok true any) ∨
    ∃ bytes, payload any = .serialized bytes ∧
      ((registry.lookup? (url any) = none ∧ resolve registry any = .ok false any) ∨
      ∃ type, registry.lookup? (url any) = some type ∧
        ((∃ e, decode { allowPartial := true } type bytes = .error e ∧
            resolve registry any = .error e any) ∨
          ∃ m, decode { allowPartial := true } type bytes = .ok m ∧
            resolve registry any = .ok true (make (url any) (.held m) any.unknown))) := by
  unfold resolve
  cases payload any with
  | held m => exact .inl ⟨m, rfl, rfl⟩
  | serialized bytes =>
    refine .inr ⟨bytes, rfl, ?_⟩
    dsimp only
    cases registry.lookup? (url any) with
    | none => exact .inl ⟨rfl, rfl⟩
    | some type =>
      refine .inr ⟨type, rfl, ?_⟩
      dsimp only
      cases decode { allowPartial := true } type bytes with
      | error e => exact .inl ⟨e, rfl, rfl⟩
      | ok m => exact .inr ⟨m, rfl, rfl⟩

/-- What is seen of the second `Any` is what was seen of the first one: its URL and its unknown
fields, what is unpacked as the registered type, and the text if the registry is at hand. So are its
bytes and its hash, provided that the bytes were an encoding. The second one is resolved. -/
structure AsBefore (registry : Registry) (any any' : Message) : Prop where
  /-- The URL is the same. -/
  url_eq : url any' = url any
  /-- The unknown fields are the same. -/
  unknown_eq : any'.unknown = any.unknown
  /-- There is nothing left to resolve. -/
  resolved : ∀ registry', resolve registry' any' = .ok true any'
  /-- The same message is unpacked, or none for the same reason. -/
  unpack_eq : ∀ type, registry.lookup? (url any) = some type → ∀ allowPartial,
    unpack any' type allowPartial = unpack any type allowPartial
  /-- The same text is printed. -/
  print_eq : ∀ options : Text.PrintOptions, options.known? = some registry →
    1 ≤ options.anyDepth → any'.print options = any.print options
  /-- The bytes and the hash are the same. -/
  value_eq : ∀ type, registry.lookup? (url any) = some type → IsEncoding type (value any) →
    (value any).length < 2 ^ 64 → value any' = value any ∧ any'.fingerprint = any.fingerprint

theorem resolve_of_held (registry : Registry) (h : payload any = .held m) :
    resolve registry any = .ok true any := by
  rw [resolve, h]

theorem asBefore_self (h : payload any = .held m) : AsBefore registry any any where
  url_eq := rfl
  unknown_eq := rfl
  resolved registry' := resolve_of_held registry' h
  unpack_eq _ _ _ := rfl
  print_eq _ _ _ := rfl
  value_eq _ _ _ _ := ⟨rfl, rfl⟩

theorem fingerprint_eq (htype : any.type = .any) (hfits : any.Fits) :
    any.fingerprint = Fingerprint.string (url any) ++ Fingerprint.bytes (value any) ++
      Fingerprint.bytes any.unknown := by
  obtain ⟨u, p, hany⟩ := hfits.eq_make htype
  have hurl : url any = u := by
    rw [hany]
    rfl
  have hvalue : value any = p.bytes encode := by
    rw [hany, value_make]
  rw [hurl, hvalue, ← fingerprint_make, ← hany]

/-- What is unpacked as the registered type is what the payload is resolved to. -/
theorem unpack_resolved (hpayload : payload any = .serialized bytes)
    (hlookup : registry.lookup? (url any) = some type)
    (hdecode : decode { allowPartial := true } type bytes = .ok m) (allowPartial : Bool) :
    unpack (make (url any) (.held m) any.unknown) type allowPartial =
      unpack any type allowPartial := by
  have hname : typeName any = type.fullName := TypeRegistry.fullName_of_lookup? hlookup
  have hholds : holds any type = true := decide_eq_true hname
  have hholds' : holds (make (url any) (.held m) any.unknown) type = true := hholds
  have hheld : held? any = none := by
    rw [held?, hpayload]
  have hheld' : held? (make (url any) (.held m) any.unknown) = some m := rfl
  have hvalue : value any = bytes := by
    rw [value, hpayload]
    rfl
  have htype : m.type = type := (sound_of_decode hdecode).1
  have hstrict : decode { allowPartial } type bytes = m.checked allowPartial :=
    decode_checked hdecode
  simp only [unpack, hholds, hholds', hheld, hheld', htype, hvalue, hstrict, Bool.not_true,
    Bool.false_eq_true, if_false, if_true]

theorem asBefore_resolved (htype : any.type = .any) (hfits : any.Fits)
    (hpayload : payload any = .serialized bytes)
    (hlookup : registry.lookup? (url any) = some type)
    (hdecode : decode { allowPartial := true } type bytes = .ok m) :
    AsBefore registry any (make (url any) (.held m) any.unknown) where
  url_eq := rfl
  unknown_eq := rfl
  resolved registry' := resolve_of_held registry' rfl
  unpack_eq type' hlookup' allowPartial := by
    cases hlookup.symm.trans hlookup'
    exact unpack_resolved hpayload hlookup hdecode allowPartial
  print_eq options hknown hdepth := by
    obtain ⟨n, hn⟩ := Nat.exists_eq_succ_of_ne_zero (n := options.anyDepth) (by omega)
    have hexpanded : expanded? options.known? any = some m := by
      rw [hknown]
      exact expanded?_of_decode hpayload hlookup hdecode
    rw [Message.print, Message.print, hn, Text.messageLines_expanded htype hexpanded,
      Text.messageLines_expanded rfl rfl]
    rfl
  value_eq type' hlookup' hencoding hlen := by
    cases hlookup.symm.trans hlookup'
    have hvalue : value any = bytes := by
      rw [value, hpayload]
      rfl
    have hsame : value (make (url any) (.held m) any.unknown) = value any := by
      rw [hvalue] at hencoding hlen
      rw [value_make, hvalue]
      exact hencoding.encode_eq hlen hdecode
    refine ⟨hsame, ?_⟩
    rw [fingerprint_eq rfl (fits_make ..), fingerprint_eq htype hfits, hsame]
    rfl

theorem eq_of_resolve_error {e : Error} (h : resolve registry any = .error e any') :
    any' = any := by
  obtain ⟨m, -, hresolve⟩ | ⟨bytes, -, ⟨-, hresolve⟩ | ⟨type, -, ⟨e', -, hresolve⟩ |
    ⟨m, -, hresolve⟩⟩⟩ := resolve_cases registry any <;> rw [hresolve] at h <;> cases h
  rfl

theorem resolve_eq_false_iff :
    resolve registry any = .ok false any' ↔
      held? any = none ∧ typeName any ∉ registry.names ∧ any' = any := by
  rw [typeName, ← TypeRegistry.lookup?_eq_none_iff]
  obtain ⟨m, hpayload, hresolve⟩ | ⟨bytes, hpayload, ⟨hlookup, hresolve⟩ |
    ⟨type, hlookup, ⟨e, -, hresolve⟩ | ⟨m, -, hresolve⟩⟩⟩ := resolve_cases registry any
  · simp [hresolve, held?, hpayload]
  · simp [hresolve, held?, hpayload, hlookup, eq_comm]
  · simp [hresolve, hlookup]
  · simp [hresolve, hlookup]

theorem asBefore_of_resolve (htype : any.type = .any) (hfits : any.Fits)
    (h : resolve registry any = .ok true any') : AsBefore registry any any' := by
  obtain ⟨m, hpayload, hresolve⟩ | ⟨bytes, hpayload, ⟨-, hresolve⟩ | ⟨type, hlookup,
    ⟨e, -, hresolve⟩ | ⟨m, hdecode, hresolve⟩⟩⟩ := resolve_cases registry any <;>
      rw [hresolve] at h <;> cases h
  · exact asBefore_self hpayload
  · exact asBefore_resolved htype hfits hpayload hlookup hdecode

/-- An `Any` that is not resolved is left as it was. If there is no error then its payload is in
bytes and nothing is registered under the name of its type, and the other way round. An `Any` that
is resolved cannot be told from what it was before. -/
theorem resolve_atomic (registry : Registry) (htype : any.type = .any) (hfits : any.Fits) :
    (∀ e any', resolve registry any = .error e any' → any' = any) ∧
    (∀ any', resolve registry any = .ok false any' → any' = any) ∧
    ((∃ any', resolve registry any = .ok false any') ↔
      held? any = none ∧ typeName any ∉ registry.names) ∧
    ∀ any', resolve registry any = .ok true any' → AsBefore registry any any' := by
  refine ⟨fun e any' => eq_of_resolve_error, fun any' h => (resolve_eq_false_iff.1 h).2.2, ?_,
    fun any' => asBefore_of_resolve htype hfits⟩
  constructor
  · rintro ⟨any', h⟩
    obtain ⟨hheld, hname, -⟩ := resolve_eq_false_iff.1 h
    exact ⟨hheld, hname⟩
  · rintro ⟨hheld, hname⟩
    exact ⟨any, resolve_eq_false_iff.2 ⟨hheld, hname, rfl⟩⟩

/-- A payload in bytes and an unknown field. The bytes are an encoding. -/
theorem resolve_atomic_inner :
    ∃ registry any', resolve registry (make "a/protowire_test.Inner" (.serialized [8, 5]) [24, 1]) =
        .ok true any' ∧ (held? any').isSome = true ∧
      unpack any' .inner false =
        unpack (make "a/protowire_test.Inner" (.serialized [8, 5]) [24, 1]) .inner false ∧
      value any' = [8, 5] ∧ any'.unknown = [24, 1] := by
  let registry := Registry.empty.registerAll [.inner]
  let m : Message := ⟨.inner, [.plain (.int32 5), .plain (.string "")], []⟩
  let any := make "a/protowire_test.Inner" (.serialized [8, 5]) [24, 1]
  have hdecode : decode { allowPartial := true } .inner [8, 5] = .ok m := rfl
  have hlookup : registry.lookup? (url any) = some .inner := by decide +kernel
  have hresolve : resolve registry any =
      .ok true (make "a/protowire_test.Inner" (.held m) [24, 1]) := by
    have hpayload : payload any = .serialized [8, 5] := rfl
    rw [resolve, hpayload]
    dsimp only
    rw [hlookup]
    dsimp only
    rw [hdecode]
    rfl
  have hvalue : value any = [8, 5] := value_make ..
  have hencoding : IsEncoding .inner (value any) := by
    rw [hvalue, ← encode_inner_five]
    exact isEncoding_of_decode hdecode
  have hbefore := (resolve_atomic registry (show any.type = .any from rfl) (fits_make ..)).2.2.2 _
    hresolve
  have hsame := (hbefore.value_eq .inner hlookup hencoding (by rw [hvalue]; decide)).1
  exact ⟨registry, _, hresolve, rfl, hbefore.unpack_eq .inner hlookup false, hsame.trans hvalue,
    hbefore.unknown_eq⟩

end Any

end Protobuf
