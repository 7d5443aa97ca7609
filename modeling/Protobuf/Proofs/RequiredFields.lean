import Protobuf.Proofs.Packing
import Protobuf.Text.Parsing

/-!
# Required fields

A message is initialized exactly if no required field is missing in it or in any message that it
holds, however deep (`Message.isInitialized_iff`). Encoding, decoding and parsing ask for required
fields in the end and do nothing else about them (`Message.required_gates`). The walk over the
fields that are present, which carries a verdict along, comes to the same
(`Message.isInitialized_eq_walk`).
-/

namespace Protobuf

variable {M α : Type}

/-! ## Messages that are held -/

/-- The slot holds the message, in a field of its own, in a list, under a key of a map, as the
choice of a oneof or as the payload of an `Any`. -/
inductive Slot.Holds : Slot M → M → Prop where
  | optional {c : M} : Holds (.optional (some (.message c))) c
  | repeated {values : List (Value M)} {c : M} (h : .message c ∈ values) :
    Holds (.repeated values) c
  | map {entries : List (Scalar × Value M)} {key : Scalar} {c : M}
    (h : (key, .message c) ∈ entries) : Holds (.map entries) c
  | oneof {number : Nat} {c : M} : Holds (.oneof (some (number, .message c))) c
  | payload {c : M} : Holds (.payload (.held c)) c

namespace Message

/-- The message is the other one or holds it, through any number of messages in between. -/
inductive Holds : Message → Message → Prop where
  | self (m : Message) : Holds m m
  | inside {m c inner : Message} {slot : Slot Message} (hslot : slot ∈ m.slots)
    (hc : slot.Holds c) (h : Holds c inner) : Holds m inner

/-- A required field of the message's own is not set. -/
def Lacks (m : Message) (field : Field) : Prop :=
  ∃ i : Nat, m.type.members[i]? = some (.optional field true) ∧ m.slots[i]? = some (.optional none)

end Message

theorem Value.mem_children {v : Value M} {c : M} : c ∈ v.children ↔ v = .message c := by
  cases v with
  | scalar s => simp [children]
  | message m => simp [children, eq_comm]

theorem Slot.holds_iff {slot : Slot M} {c : M} : slot.Holds c ↔ c ∈ slot.children := by
  constructor
  · intro h
    cases h with
    | optional => exact List.mem_singleton_self _
    | repeated h => exact List.mem_flatMap.2 ⟨_, h, List.mem_singleton_self _⟩
    | map h => exact List.mem_flatMap.2 ⟨_, h, List.mem_singleton_self _⟩
    | oneof => exact List.mem_singleton_self _
    | payload => exact List.mem_singleton_self _
  · intro h
    cases slot with
    | plain s => exact absurd h List.not_mem_nil
    | packed ss => exact absurd h List.not_mem_nil
    | optional v =>
      obtain ⟨v, hv, hc⟩ := List.mem_flatMap.1 h
      obtain rfl := Value.mem_children.1 hc
      obtain rfl := Option.mem_toList.1 hv
      exact .optional
    | repeated vs =>
      obtain ⟨v, hv, hc⟩ := List.mem_flatMap.1 h
      obtain rfl := Value.mem_children.1 hc
      exact .repeated hv
    | map es =>
      obtain ⟨⟨key, v⟩, he, hc⟩ := List.mem_flatMap.1 h
      obtain rfl : v = .message c := Value.mem_children.1 hc
      exact .map he
    | oneof choice =>
      obtain ⟨⟨number, v⟩, he, hc⟩ := List.mem_flatMap.1 h
      obtain rfl : v = .message c := Value.mem_children.1 hc
      obtain rfl := Option.mem_toList.1 he
      exact .oneof
    | payload p =>
      cases p with
      | serialized bytes => exact absurd h List.not_mem_nil
      | held m =>
        obtain rfl := List.mem_singleton.1 h
        exact .payload

namespace Message

theorem Holds.of_child {m c inner : Message} (hc : c ∈ m.children) (h : c.Holds inner) :
    m.Holds inner := by
  obtain ⟨slot, hslot, hc⟩ := List.mem_flatMap.1 hc
  exact .inside hslot (Slot.holds_iff.2 hc) h

/-! ## What initialized means -/

theorem requirementMet_eq_false {member : Member} {slot : Slot M} :
    member.requirementMet slot = false ↔
      ∃ field, member = .optional field true ∧ slot = .optional none := by
  constructor
  · intro h
    unfold Member.requirementMet at h
    split at h
    · exact ⟨_, rfl, rfl⟩
    · cases h
  · rintro ⟨field, rfl, rfl⟩
    rfl

theorem requiredSet_iff {m : Message} : m.requiredSet = true ↔ ∀ field, ¬ m.Lacks field := by
  rw [requiredSet, List.all_eq_true]
  constructor
  · rintro h field ⟨i, hmember, hslot⟩
    have hmem : (Member.optional field true, Slot.optional none) ∈ m.type.members.zip m.slots :=
      List.mem_of_getElem? (i := i) (List.getElem?_zip_eq_some.2 ⟨hmember, hslot⟩)
    exact absurd (h _ hmem) (by simp [Member.requirementMet])
  · rintro h ⟨member, slot⟩ hmem
    obtain ⟨i, hi⟩ := List.mem_iff_getElem?.1 hmem
    obtain ⟨hmember, hslot⟩ := List.getElem?_zip_eq_some.1 hi
    by_contra hunmet
    obtain ⟨field, rfl, rfl⟩ := requirementMet_eq_false.1 (Bool.eq_false_iff.2 hunmet)
    exact h field ⟨i, hmember, hslot⟩

/-- A message is initialized exactly if neither it nor any message that it holds lacks a required
field. -/
theorem isInitialized_iff (m : Message) :
    m.isInitialized = true ↔ ∀ c, m.Holds c → ∀ field, ¬ c.Lacks field := by
  induction m using Message.induction with
  | step m ih =>
    rw [isInitialized_eq, Bool.and_eq_true, List.all_eq_true, requiredSet_iff]
    constructor
    · rintro ⟨hown, hinside⟩ c hc
      cases hc with
      | self => exact hown
      | inside hslot hchild h =>
        have hmem := List.mem_flatMap.2 ⟨_, hslot, Slot.holds_iff.1 hchild⟩
        exact (ih _ hmem).1 (hinside _ hmem) c h
    · intro h
      refine ⟨h m (.self m), fun c hc => (ih c hc).2 fun inner hinner => ?_⟩
      exact h inner (.of_child hc hinner)

end Message

/-! ## The walk over the fields that are present -/

/-- The verdict on a message after one more of its fields. A verdict that is negative stays. -/
def Visit.judge (initialized : M → Bool) (verdict : Bool) : Visit M → Bool
  | field _ _ value | mapEntry _ _ _ value =>
    if verdict then value.children.all initialized else false
  | packed _ _ _ => verdict

/-- The message that the slot holds as a payload. -/
def Slot.payloads : Slot M → List M
  | payload p => p.children
  | _ => []

/-- One field that is not initialized decides the walk, wherever it stands. -/
theorem Visit.foldl_judge (initialized : M → Bool) (verdict : Bool) (visits : List (Visit M)) :
    visits.foldl (judge initialized) verdict =
      (verdict && visits.all fun v => v.children.all initialized) := by
  induction visits generalizing verdict with
  | nil => simp
  | cons v visits ih =>
    rw [List.foldl_cons, ih, List.all_cons, ← Bool.and_assoc]
    congr 1
    cases v with
    | packed number name scalars => simp [judge, children]
    | field number name value => cases verdict <;> rfl
    | mapEntry number name key value => cases verdict <;> rfl

/-- Every message of a slot is a payload or is written for the slot. -/
theorem Member.Fits.mem_children {member : Member} {slot : Slot Message} (hfits : member.Fits slot)
    {c : Message} (hc : c ∈ slot.children) :
    c ∈ slot.payloads ∨ ∃ v ∈ member.visits Message.encode slot, c ∈ v.children := by
  have hvalue (kind : FieldKind) : c ∈ (FieldValue.ofValue kind (.message c)).children := by
    rw [FieldValue.children_ofValue]
    exact List.mem_singleton_self c
  cases Slot.holds_iff.2 hc with
  | optional =>
    cases member with
    | optional field required => exact .inr ⟨_, List.mem_singleton_self _, hvalue field.kind⟩
    | _ => exact hfits.elim
  | repeated h =>
    cases member with
    | repeated field => exact .inr ⟨_, List.mem_map_of_mem h, hvalue field.kind⟩
    | _ => exact hfits.elim
  | map h =>
    cases member with
    | map number name key kind => exact .inr ⟨_, List.mem_map_of_mem h, hvalue kind⟩
    | _ => exact hfits.elim
  | oneof =>
    cases member with
    | oneof fields =>
      obtain ⟨field, hfind, -⟩ := hfits _ rfl
      rw [visits, hfind]
      exact .inr ⟨_, List.mem_singleton_self _, hvalue field.kind⟩
    | _ => exact hfits.elim
  | payload => exact .inl (List.mem_singleton_self c)

namespace Message

theorem mem_children_iff {m : Message} (hm : m.Fits) {c : Message} :
    c ∈ m.children ↔ c ∈ m.slots.flatMap Slot.payloads ∨ ∃ v ∈ m.visits, c ∈ v.children := by
  constructor
  · intro hc
    obtain ⟨slot, hslot, hc⟩ := List.mem_flatMap.1 hc
    obtain ⟨i, hi⟩ := List.mem_iff_getElem?.1 hslot
    have hlt : i < m.type.members.length := by
      rw [← hm.length_eq]
      exact (List.getElem?_eq_some_iff.1 hi).1
    have hmember := List.getElem?_eq_getElem hlt
    have hmem : (m.type.members[i], slot) ∈ m.type.members.zip m.slots :=
      List.mem_of_getElem? (i := i) (List.getElem?_zip_eq_some.2 ⟨hmember, hi⟩)
    refine ((hm.fits_slot i _ slot hmember hi).mem_children hc).imp (fun h => ?_) fun h => ?_
    · exact List.mem_flatMap.2 ⟨slot, hslot, h⟩
    · obtain ⟨v, hv, hc⟩ := h
      exact ⟨v, List.mem_flatMap.2 ⟨_, hmem, hv⟩, hc⟩
  · rintro (h | ⟨v, hv, hc⟩)
    · obtain ⟨slot, hslot, h⟩ := List.mem_flatMap.1 h
      refine List.mem_flatMap.2 ⟨slot, hslot, ?_⟩
      cases slot with
      | payload p => exact h
      | _ => exact absurd h List.not_mem_nil
    · exact children_of_mem_visits hv hc

/-- A message is initialized exactly if its own required fields are set, a payload that it holds is
initialized, and the walk over its fields ends with the verdict that it began with. -/
theorem isInitialized_eq_walk {m : Message} (hm : m.WellTyped) :
    m.isInitialized = (m.requiredSet && (m.slots.flatMap Slot.payloads).all isInitialized &&
      m.visits.foldl (Visit.judge isInitialized) true) := by
  rw [isInitialized_eq, Visit.foldl_judge, Bool.true_and, Bool.and_assoc]
  congr 1
  rw [Bool.eq_iff_iff, Bool.and_eq_true]
  simp only [List.all_eq_true, mem_children_iff hm.here.1]
  constructor
  · intro h
    exact ⟨fun c hc => h c (.inl hc), fun v hv c hc => h c (.inr ⟨v, hv, hc⟩)⟩
  · rintro ⟨hpayloads, hvisits⟩ c (hc | ⟨v, hv, hc⟩)
    · exact hpayloads c hc
    · exact hvisits v hv c hc

end Message

/-! ## Asking for required fields in the end -/

namespace Text

variable {options : ParseOptions}

/-- While text is merged, nothing is required. -/
theorem mergeFields_allowPartial (allowPartial : Bool) (rounds : Nat) :
    mergeFields { options with allowPartial } rounds = mergeFields options rounds := by
  induction rounds with
  | zero => rfl
  | succ rounds ih =>
    funext close?
    rw [mergeFields, mergeFields, ih]
    rfl

theorem mergeBody_allowPartial (allowPartial : Bool) :
    mergeBody { options with allowPartial } = mergeBody options := by
  funext close?
  simp only [mergeBody, mergeFields_allowPartial]

end Text

namespace Message

/-- What becomes of a message that was read, if required fields are asked for. -/
def gated : Except Error Message → Except Error Message
  | .error e => .error e
  | .ok m => if m.isInitialized then .ok m else .error .missingRequired

/-- What becomes of text that was merged, if required fields are asked for. The message stays as it
is. -/
def gatedMerge : EStateM.Result Error Message Unit → EStateM.Result Error Message Unit
  | .error e m => .error e m
  | .ok a m => if m.isInitialized then .ok a m else .error .missingRequired m

theorem checked_false (m : Message) :
    m.checked false = if m.isInitialized then .ok m else .error .missingRequired := by
  rw [checked, Bool.false_or]

theorem serialize_strict (m : Message) :
    m.serialize false = if m.isInitialized then m.serialize true else .error .missingRequired := by
  rw [serialize, checked_false]
  cases m.isInitialized <;> rfl

theorem decode_strict (options : DecodeOptions) (type : MessageType) (bytes : Bytes) :
    decode { options with allowPartial := false } type bytes =
      gated (decode { options with allowPartial := true } type bytes) := by
  have hmerge (allowPartial : Bool) : merge { options with allowPartial } bytes =
      merge options bytes := merge_allowPartial allowPartial bytes
  rw [decode, decode, hmerge false, hmerge true]
  cases merge options bytes (new type) with
  | ok _ m => exact checked_false m
  | error e m => rfl

theorem mergeText_strict (options : Text.ParseOptions) (text : String) (m : Message) :
    mergeText { options with allowPartial := false } text m =
      gatedMerge (mergeText { options with allowPartial := true } text m) := by
  have hbody (allowPartial : Bool) : Text.mergeBody { options with allowPartial } =
      Text.mergeBody options := Text.mergeBody_allowPartial allowPartial
  rw [mergeText, mergeText, hbody false, hbody true]
  cases Text.mergeBody options none (m, .new text) with
  | ok _ p =>
    obtain ⟨m, c⟩ := p
    show _ = if m.isInitialized then _ else _
    dsimp only
    rw [checked_false]
    cases m.isInitialized <;> rfl
  | error e p => rfl

theorem parse_strict (options : Text.ParseOptions) (type : MessageType) (text : String) :
    parse { options with allowPartial := false } type text =
      gated (parse { options with allowPartial := true } type text) := by
  rw [parse, parse, mergeText_strict]
  cases mergeText { options with allowPartial := true } text (new type) with
  | ok _ m =>
    dsimp only [gated, gatedMerge]
    cases m.isInitialized <;> rfl
  | error e m => rfl

/-- Required fields are asked for exactly: of a message and all that it holds, when it is encoded,
and in the end when it was decoded or parsed. An earlier error comes first. To ask is to walk over
the fields that are present: the verdict of the walk turns negative at the first message that is
not initialized, and stays so whatever follows. -/
theorem required_gates :
    (∀ m : Message, m.isInitialized = true ↔ ∀ c, m.Holds c → ∀ field, ¬ c.Lacks field) ∧
    (∀ m : Message, m.WellTyped → m.isInitialized =
      (m.requiredSet && (m.slots.flatMap Slot.payloads).all isInitialized &&
        m.visits.foldl (Visit.judge isInitialized) true)) ∧
    (∀ (initialized : Message → Bool) (visits : List (Visit Message)),
      visits.foldl (Visit.judge initialized) false = false) ∧
    (∀ m : Message, m.serialize false =
      if m.isInitialized then m.serialize true else .error .missingRequired) ∧
    (∀ (options : DecodeOptions) (type : MessageType) (bytes : Bytes),
      decode { options with allowPartial := false } type bytes =
        gated (decode { options with allowPartial := true } type bytes)) ∧
    (∀ (options : Text.ParseOptions) (type : MessageType) (text : String),
      parse { options with allowPartial := false } type text =
        gated (parse { options with allowPartial := true } type text)) :=
  ⟨isInitialized_iff, fun _ hm => isInitialized_eq_walk hm,
    fun initialized visits => Visit.foldl_judge initialized false visits,
    serialize_strict, decode_strict, parse_strict⟩

end Message

end Protobuf
