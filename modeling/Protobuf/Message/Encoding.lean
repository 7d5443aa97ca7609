import Protobuf.Message.Required
import Protobuf.Message.Visit
import Protobuf.Writer.Operation

/-!
# Encoding in two passes

The first pass adds up the exact size of a message, the second one fills a buffer of that size. The
second one asks the first one for every length prefix, and both ask both passes for the bytes of a
message that an `Any` holds. Main statement: both passes agree with the plain encoding
(`encodes_passes`), so the buffer is filled exactly and encoding cannot fail.
-/

namespace Protobuf

variable {M α : Type}

/-- The two passes over a message, each of which may fail. -/
structure Passes where
  /-- The size pass. -/
  size? : Option Nat
  /-- The write pass. -/
  write? : Writer → Option Writer

/-- The bytes in a buffer of the size that the first pass gives, if the second pass fills it. -/
def Passes.bytes? (p : Passes) : Option Bytes := do
  let size ← p.size?
  let w ← p.write? (.new size)
  if w.used = size then some w.written else none

/-! ## The size pass -/

namespace FieldValue

/-- How many bytes a value takes without its tags, given the sizes of messages. -/
def size? (length? : M → Option Nat) : FieldValue M → Option Nat
  | scalar s => some s.size
  | message m => (length? m).map WireValue.delimitedSize
  | group m => length? m

/-- How many bytes a field takes. -/
def fieldSize? (length? : M → Option Nat) (number : Nat) (value : FieldValue M) : Option Nat := do
  let tag ← Tag.size? number value.wireType
  let size ← value.size? length?
  match value with
  | group _ => some (2 * tag + size)
  | _ => some (tag + size)

end FieldValue

/-- How many bytes scalars take one behind the other. -/
def Scalar.totalSize : List Scalar → Nat
  | [] => 0
  | s :: ss => s.size + totalSize ss

namespace Visit

/-- How many bytes the fields of a map entry take: one tag and the value for each. -/
def entrySize? (length? : M → Option Nat) (key value : FieldValue M) : Option Nat := do
  let keyTag ← Tag.size? 1 key.wireType
  let keySize ← key.size? length?
  let valueTag ← Tag.size? 2 value.wireType
  let valueSize ← value.size? length?
  some (keyTag + keySize + (valueTag + valueSize))

/-- How many bytes are written, given the sizes of messages. -/
def size? (length? : M → Option Nat) : Visit M → Option Nat
  | field number _ value => value.fieldSize? length? number
  | packed number _ scalars => do
    let tag ← Tag.size? number .lengthDelimited
    some (tag + WireValue.delimitedSize (Scalar.totalSize scalars))
  | mapEntry number _ key value => do
    let tag ← Tag.size? number .lengthDelimited
    let size ← entrySize? length? (.scalar key) value
    some (tag + WireValue.delimitedSize size)

end Visit

/-! ## The write pass -/

namespace FieldValue

/-- Writes a value after its tag, given the passes over messages. -/
def write? (passes : M → Passes) : FieldValue M → Writer → Option Writer
  | scalar s, w => (Writer.Operation.ofScalar s).perform w
  | message m, w => do
    let w ← w.varint (← (passes m).size?)
    (passes m).write? w
  | group m, w => (passes m).write? w

/-- Writes a field with its tags. -/
def writeField? (passes : M → Passes) (number : Nat) (value : FieldValue M) (w : Writer) :
    Option Writer := do
  let w ← w.startField number value.wireType
  let w ← value.write? passes w
  match value with
  | group _ => w.startField number .endGroup
  | _ => some w

end FieldValue

/-- Writes an entry of a map behind its tag and its length. -/
def Visit.entryWrite? (passes : M → Passes) (number : Nat) (key value : FieldValue M) (w : Writer) :
    Option Writer := do
  let w ← w.startField number .lengthDelimited
  let w ← w.varint (← entrySize? (fun m => (passes m).size?) key value)
  let w ← key.writeField? passes 1 w
  value.writeField? passes 2 w

/-- Writes fields with their tags and lengths. -/
def Visit.write? (passes : M → Passes) : Visit M → Writer → Option Writer
  | field number _ value, w => value.writeField? passes number w
  | packed number _ scalars, w => do
    let w ← w.startField number .lengthDelimited
    let w ← w.varint (Scalar.totalSize scalars)
    scalars.foldlM (fun w s => (Writer.Operation.ofScalar s).perform w) w
  | mapEntry number _ key value, w => entryWrite? passes number (.scalar key) value w

/-- The two passes over the fields that are visited, if they can be, and over the unknown fields. -/
def Passes.ofVisits (visits? : Option (List (Visit (M × Passes)))) (unknown : Bytes) : Passes where
  size? := do
    let visits ← visits?
    let sizes ← visits.mapM (Visit.size? (·.2.size?))
    some (sizes.foldr (· + ·) 0 + unknown.length)
  write? w := do
    let visits ← visits?
    let w ← visits.foldlM (fun w visit => visit.write? (·.2) w) w
    w.append unknown

namespace Message

/-- The two passes over a message. A message that is held is encoded before anything is visited. -/
def passes : Message → Passes :=
  fold fun type slots unknown =>
    .ofVisits ((slots.mapM (Slot.serialized? (·.2.bytes?))).map (type.visits fun _ => [])) unknown

/-- The exact size of a message's encoding. -/
def encodedLen? (m : Message) : Option Nat := m.passes.size?

/-- Writes a message into a buffer, if it fits. -/
def write? (m : Message) : Writer → Option Writer := m.passes.write?

/-- A message in a buffer of exactly its size. -/
def toBytes? (m : Message) : Option Bytes := m.passes.bytes?

end Message

/-! ## Passes that agree -/

/-- The first pass gives the length of some bytes and the second pass appends them. -/
structure Passes.Encodes (p : Passes) (bytes : Bytes) : Prop where
  size?_eq : p.size? = some bytes.length
  appends : Writer.Appends p.write? bytes

/-- Passes that agree fill the buffer exactly. -/
theorem Passes.Encodes.bytes?_eq {p : Passes} {bytes : Bytes} (h : p.Encodes bytes) :
    p.bytes? = some bytes := by
  have hw : p.write? (.new bytes.length) = some ⟨bytes, 0⟩ := by
    rw [h.appends]
    simp only [Writer.append, Writer.new, Nat.le_refl, if_pos, List.nil_append, Nat.sub_self]
  rw [bytes?, h.size?_eq, Option.bind_eq_bind, Option.bind_some, hw]
  exact if_pos rfl

/-! ## Sizes are lengths -/

theorem Tag.length_encode (number : Nat) (wireType : WireType) :
    (Tag.encode number wireType).length = Tag.size number wireType :=
  Varint.length_encode _

theorem Tag.size_endGroup (number : Nat) :
    Tag.size number .endGroup = Tag.size number .startGroup := by
  have log (n : Nat) (hn : n < 8) (h : 0 < number) :
      (8 * number + n ||| 1).log2 = number.log2 + 3 := by
    rw [Varint.log2_or_one (by omega)]
    have step : ∀ m : Nat, 2 ≤ m → m.log2 = (m / 2).log2 + 1 := fun m hm => by
      rw [Nat.log2_def, if_pos hm]
    rw [step _ (by omega), step _ (by omega), step _ (by omega)]
    simp only [Nat.div_div_eq_div_mul]
    have : (8 * number + n) / (2 * 2 * 2) = number := by omega
    rw [this]
  simp only [size, rawOf, WireType.code, Varint.size]
  by_cases h : 0 < number
  · rw [log 4 (by omega) h, log 3 (by omega) h]
  · have : number = 0 := by omega
    subst this
    rfl

theorem WireValue.length_delimited (bytes : Bytes) :
    (Varint.encode bytes.length ++ bytes).length = delimitedSize bytes.length := by
  rw [List.length_append, Varint.length_encode, delimitedSize]

/-- The size pass gives the length of every scalar. -/
theorem Scalar.length_encode (s : Scalar) : s.encode.length = s.size := by
  have hsigned (v : Int32) : (Varint.encode (UInt64.ofInt v.toInt).toNat).length =
      Varint.size v.toInt64.toUInt64.toNat := by
    rw [Int32.toUInt64_toInt64, Varint.length_encode]
  cases s with
  | int32 v => exact hsigned v
  | enum type v => exact hsigned v
  | bool v => cases v <;> exact Varint.length_encode _
  | string v => exact WireValue.length_delimited (Utf8.encode v)
  | bytes v => exact WireValue.length_delimited v
  | fixed32 v | sfixed32 v | float v | fixed64 v | sfixed64 v | double v => rfl
  | _ => exact Varint.length_encode _

theorem Scalar.length_flatMap_encode (ss : List Scalar) :
    (ss.flatMap encode).length = totalSize ss := by
  induction ss with
  | nil => rfl
  | cons s ss ih => rw [List.flatMap_cons, List.length_append, length_encode, ih, totalSize]

theorem Visit.length_delimited (number : Nat) (bytes : Bytes) :
    (delimited number bytes).length =
      Tag.size number .lengthDelimited + WireValue.delimitedSize bytes.length := by
  rw [delimited, List.length_append, Tag.length_encode, WireValue.length_delimited]

section

variable {bytes : M → Bytes} {length? : M → Option Nat}

/-- The bytes of a field are as many as the size pass says, if that holds of the message inside. -/
theorem FieldValue.fieldSize?_eq {number : Nat} (valid : ValidFieldNumber number)
    (v : FieldValue M) (h : ∀ m ∈ v.children, length? m = some (bytes m).length) :
    v.fieldSize? length? number = some (v.encode bytes number).length := by
  rw [fieldSize?, Tag.size?_of_valid valid]
  cases v with
  | scalar s =>
    show some _ = some _
    rw [encode, List.length_append, Tag.length_encode, Scalar.length_encode]
  | message m =>
    rw [size?, h m (List.mem_singleton_self m)]
    show some _ = some _
    rw [encode, List.length_append, Tag.length_encode, WireValue.length_delimited]
  | group m =>
    rw [size?, h m (List.mem_singleton_self m)]
    show some _ = some _
    rw [encode, List.length_append, List.length_append, Tag.length_encode, Tag.length_encode,
      Tag.size_endGroup, wireType]
    congr 1
    omega

namespace Visit

theorem valid_key : ValidFieldNumber 1 := by decide

theorem valid_value : ValidFieldNumber 2 := by decide

theorem entrySize?_of_size? {key value : FieldValue M} {keySize valueSize : Nat}
    (hkey : key.size? length? = some keySize) (hvalue : value.size? length? = some valueSize) :
    entrySize? length? key value =
      some (Tag.size 1 key.wireType + keySize + (Tag.size 2 value.wireType + valueSize)) := by
  rw [entrySize?, Tag.size?_of_valid valid_key, Tag.size?_of_valid valid_value, hkey, hvalue]
  rfl

/-- The fields of an entry are as many bytes as the size pass says. A group would be counted with
one of its two tags. -/
theorem entrySize?_eq (key : Scalar) (value : FieldValue M)
    (h : ∀ m ∈ value.children, length? m = some (bytes m).length) (hg : value.isGroup = false) :
    entrySize? length? (.scalar key) value =
      some ((FieldValue.scalar key).encode bytes 1 ++ value.encode bytes 2).length := by
  have hkey : (FieldValue.scalar (M := M) key).size? length? = some key.size := rfl
  rw [List.length_append]
  cases value with
  | group m => cases hg
  | scalar s =>
    rw [entrySize?_of_size? hkey rfl, FieldValue.encode, FieldValue.encode, List.length_append,
      List.length_append, Tag.length_encode, Tag.length_encode, Scalar.length_encode,
      Scalar.length_encode]
  | message m =>
    have hsize : (FieldValue.message m).size? length? =
        some (WireValue.delimitedSize (bytes m).length) := by
      rw [FieldValue.size?, h m (List.mem_singleton_self m), Option.map_some]
    rw [entrySize?_of_size? hkey hsize, FieldValue.encode, FieldValue.encode, List.length_append,
      List.length_append, Tag.length_encode, Tag.length_encode, Scalar.length_encode,
      WireValue.length_delimited]

/-- The bytes of a written field are as many as the size pass says. -/
theorem size?_eq {v : Visit M} (valid : ValidFieldNumber v.number)
    (h : ∀ m ∈ v.children, length? m = some (bytes m).length)
    (hg : ∀ number name key value, v = .mapEntry number name key value → value.isGroup = false) :
    v.size? length? = some (v.encode bytes).length := by
  cases v with
  | field number name value => exact FieldValue.fieldSize?_eq valid value h
  | packed number name ss =>
    rw [size?, Tag.size?_of_valid (show ValidFieldNumber number from valid),
      ← Scalar.length_flatMap_encode]
    exact congrArg some (length_delimited _ _).symm
  | mapEntry number name key value =>
    rw [size?, Tag.size?_of_valid (show ValidFieldNumber number from valid),
      entrySize?_eq key value h (hg _ _ _ _ rfl)]
    exact congrArg some (length_delimited _ _).symm

end Visit

end

/-! ## Writing is appending -/

section

variable {bytes : M → Bytes} {passes : M → Passes}

open Writer

/-- A field is written as its bytes, if that holds of the message inside. -/
theorem FieldValue.appends_writeField? {number : Nat} (valid : ValidFieldNumber number)
    (v : FieldValue M) (h : ∀ m ∈ v.children, (passes m).Encodes (bytes m)) :
    Appends (v.writeField? passes number) (v.encode bytes number) := by
  have hstart (wireType : WireType) := appends_startField wireType valid
  cases v with
  | scalar s => exact (hstart _).bind (appends_ofScalar s).bind_some
  | message m =>
    have hm := h m (List.mem_singleton_self m)
    have hbody : Appends ((FieldValue.message m).write? passes)
        (Varint.encode (bytes m).length ++ bytes m) := by
      intro w
      rw [write?, hm.size?_eq]
      exact (appends_varint _).bind hm.appends w
    exact (hstart _).bind hbody.bind_some
  | group m =>
    have hm := h m (List.mem_singleton_self m)
    exact (hstart _).bind (hm.appends.bind (hstart _))

/-- The entry is written behind its tag and the length that the size pass gives for it. -/
theorem Visit.appends_entryWrite? {number : Nat} (valid : ValidFieldNumber number)
    {key value : FieldValue M} {size : Nat}
    (hkey : ∀ m ∈ key.children, (passes m).Encodes (bytes m))
    (hvalue : ∀ m ∈ value.children, (passes m).Encodes (bytes m))
    (hsize : entrySize? (fun m => (passes m).size?) key value = some size) :
    Appends (entryWrite? passes number key value)
      (Tag.encode number .lengthDelimited ++
        (Varint.encode size ++ (key.encode bytes 1 ++ value.encode bytes 2))) := by
  have hfields := (key.appends_writeField? valid_key hkey).bind
    (value.appends_writeField? valid_value hvalue)
  intro w
  rw [entryWrite?, hsize]
  exact (appends_startField _ valid).bind ((appends_varint _).bind hfields) w

/-- Fields are written as their bytes, if that holds of the messages inside. -/
theorem Visit.appends_write? {v : Visit M} (valid : ValidFieldNumber v.number)
    (h : ∀ m ∈ v.children, (passes m).Encodes (bytes m))
    (hg : ∀ number name key value, v = .mapEntry number name key value → value.isGroup = false) :
    Appends (v.write? passes) (v.encode bytes) := by
  cases v with
  | field number name value => exact FieldValue.appends_writeField? valid value h
  | packed number name ss =>
    have hss : Appends (fun w => ss.foldlM (fun w s => (Operation.ofScalar s).perform w) w)
        (ss.flatMap Scalar.encode) := appends_foldlM fun s _ => appends_ofScalar s
    intro w
    rw [write?, ← Scalar.length_flatMap_encode]
    exact (appends_startField _ valid).bind ((appends_varint _).bind hss) w
  | mapEntry number name key value =>
    have hsize : entrySize? (fun m => (passes m).size?) (.scalar key) value =
        some ((FieldValue.scalar key).encode bytes 1 ++ value.encode bytes 2).length :=
      entrySize?_eq key value (fun m hm => (h m hm).size?_eq) (hg _ _ _ _ rfl)
    exact appends_entryWrite? valid (List.forall_mem_nil _) h hsize

end

/-! ## Replacing messages -/

theorem FieldValue.fieldSize?_map (f : M → α) (length? : α → Option Nat) (number : Nat)
    (v : FieldValue M) :
    (v.map f).fieldSize? length? number = v.fieldSize? (length? ∘ f) number := by
  cases v <;> rfl

theorem Visit.size?_map (f : M → α) (length? : α → Option Nat) (v : Visit M) :
    (v.map f).size? length? = v.size? (length? ∘ f) := by
  cases v with
  | field number name value => exact FieldValue.fieldSize?_map ..
  | packed => rfl
  | mapEntry number name key value => cases value <;> rfl

theorem FieldValue.writeField?_map (f : M → α) (passes : α → Passes) (number : Nat)
    (v : FieldValue M) (w : Writer) :
    (v.map f).writeField? passes number w = v.writeField? (passes ∘ f) number w := by
  cases v <;> rfl

theorem Visit.write?_map (f : M → α) (passes : α → Passes) (v : Visit M) (w : Writer) :
    (v.map f).write? passes w = v.write? (passes ∘ f) w := by
  cases v with
  | field number name value => exact FieldValue.writeField?_map ..
  | packed => rfl
  | mapEntry number name key value => cases value <;> rfl

theorem mapM_eq_some_map {β : Type} {f : α → Option β} {g : α → β} {xs : List α}
    (h : ∀ x ∈ xs, f x = some (g x)) : xs.mapM f = some (xs.map g) := by
  induction xs with
  | nil => rfl
  | cons x xs ih =>
    obtain ⟨hx, hxs⟩ := List.forall_mem_cons.1 h
    rw [List.mapM_cons, hx, ih hxs]
    rfl

/-- Both passes agree on what is visited if they agree on every message inside. -/
theorem Passes.encodes_ofVisits {bytes : M → Bytes} {passes : M → Passes} {visits : List (Visit M)}
    (valid : ∀ v ∈ visits, ValidFieldNumber v.number)
    (h : ∀ v ∈ visits, ∀ m ∈ v.children, (passes m).Encodes (bytes m))
    (hg : ∀ v ∈ visits, ∀ number name key value,
      v = .mapEntry number name key value → value.isGroup = false) (unknown : Bytes) :
    (ofVisits (some (visits.map (Visit.map fun m => (m, passes m)))) unknown).Encodes
      (visits.flatMap (Visit.encode bytes) ++ unknown) := by
  constructor
  · have hsizes : (visits.map (Visit.map fun m => (m, passes m))).mapM (Visit.size? (·.2.size?)) =
        some (visits.map fun v => (v.encode bytes).length) := by
      rw [List.mapM_map]
      refine mapM_eq_some_map fun v hv => ?_
      show (v.map fun m => (m, passes m)).size? (·.2.size?) = _
      rw [Visit.size?_map]
      exact Visit.size?_eq (valid v hv) (fun m hm => (h v hv m hm).size?_eq) (hg v hv)
    rw [ofVisits, Option.bind_eq_bind, Option.bind_some, hsizes, List.length_append,
      List.length_flatMap]
    rfl
  · have hwrite : Writer.Appends
        (fun w => (visits.map (Visit.map fun m => (m, passes m))).foldlM
          (fun w visit => visit.write? (·.2) w) w) (visits.flatMap (Visit.encode bytes)) := by
      intro w
      simp only [List.foldlM_map, Visit.write?_map]
      exact Writer.appends_foldlM
        (fun v hv => Visit.appends_write? (valid v hv) (h v hv) (hg v hv)) w
    exact hwrite.bind (Writer.appends_append unknown)

namespace Message

/-- What both passes visit, if the bytes of the messages inside can be had. -/
theorem passes_eq {m : Message} (h : ∀ c ∈ m.children, c.passes.Encodes c.encode) :
    m.passes = .ofVisits (some (m.visits.map (Visit.map fun c => (c, c.passes)))) m.unknown := by
  have hslots : (m.slots.map (Slot.mapMessages fun c => (c, c.passes))).mapM
      (Slot.serialized? (·.2.bytes?)) =
        some ((m.slots.map (Slot.mapMessages fun c => (c, c.passes))).map
          (Slot.serialized (·.1.encode))) := by
    refine mapM_eq_some_map fun slot hslot => Slot.serialized?_eq fun p hp => ?_
    obtain ⟨s, hs, rfl⟩ := List.mem_map.1 hslot
    rw [Slot.children_mapMessages] at hp
    obtain ⟨c, hc, rfl⟩ := List.mem_map.1 hp
    exact (h c (List.mem_flatMap.2 ⟨s, hs, hc⟩)).bytes?_eq
  have hvisits : ((m.slots.map (Slot.mapMessages fun c => (c, c.passes))).mapM
      (Slot.serialized? (·.2.bytes?))).map (m.type.visits fun _ => []) =
        some (m.visits.map (Visit.map fun c => (c, c.passes))) := by
    rw [hslots, Option.map_some, MessageType.visits_serialized, MessageType.visits_mapMessages]
    rfl
  rw [← hvisits, passes, fold_eq]

/-- Both passes agree with the plain encoding. -/
theorem encodes_passes (m : Message) : m.passes.Encodes m.encode := by
  induction m using induction with
  | step m ih =>
    rw [passes_eq ih, encode_eq]
    refine Passes.encodes_ofVisits (fun v hv => valid_of_mem_visits hv)
      (fun v hv c hc => ih c (children_of_mem_visits hv hc)) ?_ m.unknown
    intro v hv number name key value he
    exact not_isGroup_of_mem_visits (he ▸ hv)

theorem encodedLen?_eq (m : Message) : m.encodedLen? = some m.encode.length :=
  m.encodes_passes.size?_eq

/-- Writing a message appends its encoding. -/
theorem appends_write? (m : Message) : Writer.Appends m.write? m.encode :=
  m.encodes_passes.appends

/-- Encoding in two passes succeeds with the plain encoding. -/
theorem toBytes?_eq (m : Message) : m.toBytes? = some m.encode :=
  m.encodes_passes.bytes?_eq

/-- The exact size of a message's encoding, which the size pass always gives. -/
def encodedLen (m : Message) : Nat := m.encodedLen?.get (by simp [encodedLen?_eq])

@[simp] theorem encodedLen_eq (m : Message) : m.encodedLen = m.encode.length := by
  simp [encodedLen, encodedLen?_eq]

/-- A message in bytes. -/
def toBytes (m : Message) : Bytes := m.toBytes?.get (by simp [toBytes?_eq])

@[simp] theorem toBytes_eq (m : Message) : m.toBytes = m.encode := by
  simp [toBytes, toBytes?_eq]

/-- A message in bytes; it may lack required fields only if that is allowed. -/
def serialize (allowPartial : Bool) (m : Message) : Except Error Bytes :=
  toBytes <$> m.checked allowPartial

/-- Where required fields may be missing, every message is serialized. -/
theorem serialize_partial (m : Message) : m.serialize true = .ok m.encode :=
  congrArg Except.ok m.toBytes_eq

end Message

end Protobuf
