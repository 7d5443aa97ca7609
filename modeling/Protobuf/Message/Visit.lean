import Protobuf.Message.Basic

/-!
# Fields present in a message

The fields that are written for a message, in the order in which they are written, and the plain
encoding: each field in turn, then the unknown ones.
-/

namespace Protobuf

variable {M α : Type}

/-- A field's value as it is written. -/
inductive FieldValue (M : Type) where
  /-- A scalar. -/
  | scalar (scalar : Scalar)
  /-- A message behind its length. -/
  | message (message : M)
  /-- A message between two tags. -/
  | group (message : M)
  deriving DecidableEq, Repr

/-- Something that is written with a tag of its own. -/
inductive Visit (M : Type) where
  /-- A single value. -/
  | field (number : Nat) (name : String) (value : FieldValue M)
  /-- The values of a packed field; there is at least one. -/
  | packed (number : Nat) (name : String) (scalars : List Scalar)
  /-- An entry of a map. -/
  | mapEntry (number : Nat) (name : String) (key : Scalar) (value : FieldValue M)
  deriving DecidableEq, Repr

namespace FieldValue

/-- How a value of a declared type is written. -/
def ofValue : FieldKind → Value M → FieldValue M
  | _, .scalar s => scalar s
  | .group _, .message m => group m
  | _, .message m => message m

/-- Replaces the message. -/
def map (f : M → α) : FieldValue M → FieldValue α
  | scalar s => scalar s
  | message m => message (f m)
  | group m => group (f m)

/-- The message, if the value is one. -/
def children : FieldValue M → List M
  | scalar _ => []
  | message m | group m => [m]

/-- The value is written between two tags. -/
def isGroup : FieldValue M → Bool
  | group _ => true
  | _ => false

/-- The framing of the value. -/
def wireType : FieldValue M → WireType
  | scalar s => s.wireType
  | message _ => .lengthDelimited
  | group _ => .startGroup

/-- The bytes of a field, tags included, given the bytes of messages. -/
def encode (bytes : M → Bytes) (number : Nat) (value : FieldValue M) : Bytes :=
  Tag.encode number value.wireType ++
    match value with
    | scalar s => s.encode
    | message m => Varint.encode (bytes m).length ++ bytes m
    | group m => bytes m ++ Tag.encode number .endGroup

theorem map_ofValue (f : M → α) (kind : FieldKind) (v : Value M) :
    (ofValue kind v).map f = ofValue kind (v.map f) := by
  cases kind <;> cases v <;> rfl

theorem encode_map (f : M → α) (bytes : α → Bytes) (number : Nat) (v : FieldValue M) :
    (v.map f).encode bytes number = v.encode (bytes ∘ f) number := by
  cases v <;> rfl

theorem encode_congr {bytes bytes' : M → Bytes} {number : Nat} {v : FieldValue M}
    (h : ∀ m ∈ v.children, bytes m = bytes' m) :
    v.encode bytes number = v.encode bytes' number := by
  cases v with
  | scalar s => rfl
  | message m | group m => rw [encode, encode, h m (List.mem_singleton_self m)]

end FieldValue

namespace Visit

/-- Replaces the message. -/
def map (f : M → α) : Visit M → Visit α
  | field number name value => field number name (value.map f)
  | packed number name scalars => packed number name scalars
  | mapEntry number name key value => mapEntry number name key (value.map f)

/-- The messages that are written inside. -/
def children : Visit M → List M
  | field _ _ value | mapEntry _ _ _ value => value.children
  | packed _ _ _ => []

/-- The field's number. -/
def number : Visit M → Nat
  | field number _ _ | packed number _ _ | mapEntry number _ _ _ => number

/-- Bytes of a field that is framed by its length. -/
def delimited (number : Nat) (bytes : Bytes) : Bytes :=
  Tag.encode number .lengthDelimited ++ (Varint.encode bytes.length ++ bytes)

/-- The bytes that are written, given the bytes of messages. An entry of a map is written as a
message with the key as its first field and the value as its second. -/
def encode (bytes : M → Bytes) : Visit M → Bytes
  | field number _ value => value.encode bytes number
  | packed number _ scalars => delimited number (scalars.flatMap Scalar.encode)
  | mapEntry number _ key value =>
    delimited number
      ((FieldValue.scalar key).encode bytes 1 ++ value.encode bytes 2)

theorem encode_map (f : M → α) (bytes : α → Bytes) (v : Visit M) :
    (v.map f).encode bytes = v.encode (bytes ∘ f) := by
  cases v with
  | field number name value => exact FieldValue.encode_map ..
  | packed => rfl
  | mapEntry number name key value =>
    simp only [map, encode, FieldValue.encode_map]
    rfl

end Visit

theorem Visit.encode_congr {bytes bytes' : M → Bytes} {v : Visit M}
    (h : ∀ m ∈ v.children, bytes m = bytes' m) : v.encode bytes = v.encode bytes' := by
  cases v with
  | field number name value => exact FieldValue.encode_congr h
  | packed number name ss => rfl
  | mapEntry number name key value =>
    have hvalue : value.encode bytes 2 = value.encode bytes' 2 := FieldValue.encode_congr h
    rw [encode, encode, hvalue]
    rfl

/-- What is written for a member in some state, given the bytes of messages. A plain scalar with the
zero value, an empty list and an empty payload are left out. -/
def Member.visits (bytes : M → Bytes) : Member → Slot M → List (Visit M)
  | plain number name _, .plain s => if s.isZero then [] else [.field number name (.scalar s)]
  | optional field _, .optional (some v) =>
    [.field field.number field.name (.ofValue field.kind v)]
  | packed number name _, .packed ss => if ss.isEmpty then [] else [.packed number name ss]
  | repeated field, .repeated vs =>
    vs.map fun v => .field field.number field.name (.ofValue field.kind v)
  | map number name _ kind, .map es => es.map fun e => .mapEntry number name e.1 (.ofValue kind e.2)
  | oneof fields, .oneof (some (number, v)) =>
    ((fields.find? (·.number = number)).map fun field =>
      .field number field.name (.ofValue field.kind v)).toList
  | payload number name, .payload p =>
    if (p.bytes bytes).isEmpty then []
    else [.field number name (.scalar (.bytes (p.bytes bytes)))]
  | _, _ => []

/-- What is written for the members of a type in some states. -/
def MessageType.visits (bytes : M → Bytes) (type : MessageType) (slots : List (Slot M)) :
    List (Visit M) :=
  (type.members.zip slots).flatMap fun (member, slot) => member.visits bytes slot

/-! ## Payloads in bytes -/

/-- The payload in bytes. -/
def Slot.serialized (bytes : M → Bytes) : Slot M → Slot M
  | payload p => payload (.serialized (p.bytes bytes))
  | slot => slot

/-- The payload in bytes, if those of a message that is held can be had. -/
def Slot.serialized? (bytes? : M → Option Bytes) : Slot M → Option (Slot M)
  | payload (.held m) => (bytes? m).map fun bytes => payload (.serialized bytes)
  | slot => some slot

theorem Slot.serialized?_eq {bytes? : M → Option Bytes} {bytes : M → Bytes} {slot : Slot M}
    (h : ∀ m ∈ slot.children, bytes? m = some (bytes m)) :
    slot.serialized? bytes? = some (slot.serialized bytes) := by
  cases slot with
  | payload p =>
    cases p with
    | serialized bytes => rfl
    | held m =>
      rw [serialized?, h m (List.mem_singleton_self m)]
      rfl
  | _ => rfl

/-- Of a payload in bytes no message is asked for. -/
theorem Member.visits_serialized (bytes bytes' : M → Bytes) (member : Member) (slot : Slot M) :
    member.visits bytes' (slot.serialized bytes) = member.visits bytes slot := by
  cases slot with
  | optional v => cases member <;> cases v <;> rfl
  | oneof c => cases member <;> cases c <;> rfl
  | _ => cases member <;> rfl

theorem MessageType.visits_serialized (bytes bytes' : M → Bytes) (type : MessageType)
    (slots : List (Slot M)) :
    type.visits bytes' (slots.map (Slot.serialized bytes)) = type.visits bytes slots := by
  unfold visits
  rw [List.zip_map_right, List.flatMap_map]
  simp only [Prod.map, id, Member.visits_serialized]

/-! ## Replacing messages, and the messages that are written -/

theorem Payload.bytes_map (f : M → α) (encode : α → Bytes) (p : Payload M) :
    (p.map f).bytes encode = p.bytes (encode ∘ f) := by
  cases p <;> rfl

theorem Member.visits_mapMessages (f : M → α) (bytes : α → Bytes) (member : Member)
    (slot : Slot M) :
    member.visits bytes (slot.mapMessages f) =
      (member.visits (bytes ∘ f) slot).map (Visit.map f) := by
  cases member <;> cases slot <;>
    simp only [Slot.mapMessages, visits, List.map_nil]
  case plain.plain => split <;> rfl
  case optional.optional field _ v =>
    cases v <;> simp [Visit.map, FieldValue.map_ofValue]
  case packed.packed => split <;> rfl
  case repeated.repeated => simp [Visit.map, FieldValue.map_ofValue]
  case map.map => simp [Visit.map, FieldValue.map_ofValue]
  case oneof.oneof fields c =>
    cases c with
    | none => simp
    | some e =>
      simp only [Option.map_some]
      cases fields.find? (·.number = e.1) <;> simp [Visit.map, FieldValue.map_ofValue]
  case payload.payload =>
    simp only [Payload.bytes_map]
    split <;> rfl

theorem MessageType.visits_mapMessages (f : M → α) (bytes : α → Bytes) (type : MessageType)
    (slots : List (Slot M)) :
    type.visits bytes (slots.map (Slot.mapMessages f)) =
      (type.visits (bytes ∘ f) slots).map (Visit.map f) := by
  unfold visits
  generalize type.members = members
  induction members generalizing slots with
  | nil => simp
  | cons member members ih =>
    cases slots with
    | nil => simp
    | cons slot slots => simp [ih, Member.visits_mapMessages]

theorem FieldValue.children_ofValue (kind : FieldKind) (v : Value M) :
    (ofValue kind v).children = v.children := by
  cases kind <;> cases v <;> rfl

/-- Only messages of a slot are written for it. -/
theorem Member.children_of_mem_visits {bytes : M → Bytes} {member : Member} {slot : Slot M}
    {v : Visit M} {m : M} (hv : v ∈ member.visits bytes slot) (hm : m ∈ v.children) :
    m ∈ slot.children := by
  cases member <;> cases slot <;> simp only [visits] at hv
  case plain.plain =>
    split at hv <;> simp at hv
    subst hv
    simp [Visit.children, FieldValue.children] at hm
  case optional.optional field _ v =>
    cases v <;> simp at hv
    subst hv
    simpa [Visit.children, FieldValue.children_ofValue, Slot.children] using hm
  case packed.packed =>
    split at hv <;> simp at hv
    subst hv
    simp [Visit.children] at hm
  case repeated.repeated =>
    obtain ⟨v, hmem, rfl⟩ := List.mem_map.1 hv
    exact List.mem_flatMap.2 ⟨v, hmem, by
      simpa [Visit.children, FieldValue.children_ofValue] using hm⟩
  case map.map =>
    obtain ⟨e, hmem, rfl⟩ := List.mem_map.1 hv
    exact List.mem_flatMap.2 ⟨e, hmem, by
      simpa [Visit.children, FieldValue.children_ofValue] using hm⟩
  case oneof.oneof fields c =>
    cases c with
    | none => simp at hv
    | some e =>
      simp only [Option.mem_toList, Option.map_eq_some_iff] at hv
      obtain ⟨field, _, rfl⟩ := hv
      simpa [Visit.children, FieldValue.children_ofValue, Slot.children] using hm
  case payload.payload =>
    split at hv <;> simp at hv
    subst hv
    simp [Visit.children, FieldValue.children] at hm
  all_goals simp at hv

/-- What is written for a member has the numbers of the member's fields. -/
theorem Member.hasNumber_of_mem_visits {bytes : M → Bytes} {member : Member} {slot : Slot M}
    {v : Visit M} (h : v ∈ member.visits bytes slot) :
    member.hasNumber v.number = true := by
  have hself : ∀ label : Nat × String, [label].any (·.1 = label.1) = true := by simp
  unfold visits at h
  split at h
  · split at h
    · cases h
    · rw [List.mem_singleton.1 h]
      exact hself _
  · rw [List.mem_singleton.1 h]
    exact hself _
  · split at h
    · cases h
    · rw [List.mem_singleton.1 h]
      exact hself _
  · obtain ⟨x, -, rfl⟩ := List.mem_map.1 h
    exact hself _
  · obtain ⟨x, -, rfl⟩ := List.mem_map.1 h
    exact hself _
  · rename_i fields number x
    obtain ⟨field, hfield, rfl⟩ := Option.map_eq_some_iff.1 (Option.mem_toList.1 h)
    have hlabel : (field.number, field.name) ∈ (oneof fields).labels :=
      List.mem_map.2 ⟨field, List.mem_of_find?_eq_some hfield, rfl⟩
    have hfound := List.find?_some hfield
    have hnumber : field.number = number := of_decide_eq_true hfound
    exact List.any_eq_true.2 ⟨_, hlabel, decide_eq_true hnumber⟩
  · split at h
    · cases h
    · rw [List.mem_singleton.1 h]
      exact hself _
  · cases h

namespace Message

/-- The encoding of a message: its fields in order, then the unknown fields. -/
def encode : Message → Bytes :=
  fold fun type slots unknown =>
    (type.visits (·.2) slots).flatMap (Visit.encode (·.2)) ++ unknown

/-- What is written for a message, the unknown fields apart. -/
def visits (m : Message) : List (Visit Message) := m.type.visits encode m.slots

theorem encode_eq (m : Message) :
    m.encode = m.visits.flatMap (Visit.encode encode) ++ m.unknown := by
  rw [encode, fold_eq, MessageType.visits_mapMessages, List.flatMap_map]
  simp only [Visit.encode_map]
  rfl

/-- Only messages directly inside a message are written for it. -/
theorem children_of_mem_visits {m c : Message} {v : Visit Message} (hv : v ∈ m.visits)
    (hc : c ∈ v.children) : c ∈ m.children := by
  obtain ⟨⟨member, slot⟩, hs, hv⟩ := List.mem_flatMap.1 hv
  exact List.mem_flatMap.2 ⟨slot, (List.of_mem_zip hs).2, Member.children_of_mem_visits hv hc⟩

/-- Whatever is written for a message has a valid field number. -/
theorem valid_of_mem_visits {m : Message} {v : Visit Message} (h : v ∈ m.visits) :
    ValidFieldNumber v.number := by
  obtain ⟨⟨member, slot⟩, hs, hv⟩ := List.mem_flatMap.1 h
  obtain ⟨label, hlabel, hnumber⟩ := List.any_eq_true.1 (Member.hasNumber_of_mem_visits hv)
  rw [← of_decide_eq_true hnumber]
  exact MessageType.valid_of_mem_labels
    (List.mem_flatMap.2 ⟨member, (List.of_mem_zip hs).1, hlabel⟩)

/-- No entry of a map holds a group. -/
theorem not_isGroup_of_mem_visits {m : Message} {number : Nat} {name : String} {key : Scalar}
    {value : FieldValue Message} (h : .mapEntry number name key value ∈ m.visits) :
    value.isGroup = false := by
  have kinds : ∀ type : MessageType, ∀ member ∈ type.members,
      (match member with | .map _ _ _ (.group _) => false | _ => true) = true := by
    intro type
    cases type <;> decide
  obtain ⟨⟨member, slot⟩, hs, hv⟩ := List.mem_flatMap.1 h
  have allowed := kinds m.type member (List.of_mem_zip hs).1
  cases member <;> cases slot <;> simp only [Member.visits] at hv
  case plain.plain => split at hv <;> simp at hv
  case optional.optional field _ v => cases v <;> simp at hv
  case packed.packed => split at hv <;> simp at hv
  case repeated.repeated => simp at hv
  case map.map number name key kind entries =>
    obtain ⟨e, _, he⟩ := List.mem_map.1 hv
    simp only [Visit.mapEntry.injEq] at he
    obtain ⟨_, _, _, rfl⟩ := he
    cases kind with
    | group => simp at allowed
    | _ => cases e.2 <;> rfl
  case oneof.oneof fields c => cases c <;> simp at hv
  case payload.payload => split at hv <;> simp at hv
  all_goals simp at hv

end Message

end Protobuf
