import Protobuf.Proofs.TwoPasses

/-!
# Sizes of map entries

The length that is written in front of a map entry counts one tag for each of its two fields. That
is all there is to a scalar or a message, but a group has an end tag, which the length leaves out.
So the length of an entry is the right one exactly if neither the key nor the value is a group
(`Message.entry_length`). Members of maps never hold groups (`Message.passes_agree`).
-/

namespace Protobuf

variable {M : Type} {bytes : M → Bytes}

open Writer

/-! ## Values behind their tags -/

/-- How many bytes the end tag of a field takes, if it has one. -/
def FieldValue.endTagSize (number : Nat) (value : FieldValue M) : Nat :=
  if value.isGroup then Tag.size number .endGroup else 0

/-- The bytes of a field are its tag, what the size pass counts for the value, and the end tag of a
group. -/
theorem FieldValue.length_encode {length? : M → Option Nat} (number : Nat) (value : FieldValue M)
    (h : ∀ m ∈ value.children, length? m = some (bytes m).length) :
    ∃ size, value.size? length? = some size ∧
      (value.encode bytes number).length =
        Tag.size number value.wireType + size + value.endTagSize number := by
  cases value with
  | scalar s =>
    refine ⟨s.size, rfl, ?_⟩
    rw [encode, List.length_append, Tag.length_encode, Scalar.length_encode]
    rfl
  | message m =>
    refine ⟨WireValue.delimitedSize (bytes m).length, ?_, ?_⟩
    · rw [size?, h m (List.mem_singleton_self m), Option.map_some]
    · rw [encode, List.length_append, Tag.length_encode, WireValue.length_delimited]
      rfl
  | group m =>
    refine ⟨(bytes m).length, h m (List.mem_singleton_self m), ?_⟩
    rw [encode, List.length_append, List.length_append, Tag.length_encode, Tag.length_encode,
      Nat.add_assoc]
    rfl

namespace Visit

variable {key value : FieldValue M}

/-- The fields of an entry take as many bytes as the size pass counts, and the end tags of
groups. -/
theorem length_entry {length? : M → Option Nat}
    (hkey : ∀ m ∈ key.children, length? m = some (bytes m).length)
    (hvalue : ∀ m ∈ value.children, length? m = some (bytes m).length) :
    ∃ size, entrySize? length? key value = some size ∧
      (key.encode bytes 1 ++ value.encode bytes 2).length =
        size + key.endTagSize 1 + value.endTagSize 2 := by
  obtain ⟨keySize, hkeySize, hkeyBytes⟩ := key.length_encode 1 hkey
  obtain ⟨valueSize, hvalueSize, hvalueBytes⟩ := value.length_encode 2 hvalue
  refine ⟨_, entrySize?_of_size? hkeySize hvalueSize, ?_⟩
  rw [List.length_append, hkeyBytes, hvalueBytes]
  omega

end Visit

namespace Visit

variable {key value : FieldValue M} {passes : M → Passes}

/-- An entry is written with a number that fields may have, and not at all with another one. -/
theorem entryWrite?_eq (number : Nat) {size : Nat}
    (hkey : ∀ m ∈ key.children, (passes m).Encodes (bytes m))
    (hvalue : ∀ m ∈ value.children, (passes m).Encodes (bytes m))
    (hsize : entrySize? (fun m => (passes m).size?) key value = some size) (w : Writer) :
    entryWrite? passes number key value w =
      if ValidFieldNumber number then
        w.append (Tag.encode number .lengthDelimited ++
          (Varint.encode size ++ (key.encode bytes 1 ++ value.encode bytes 2)))
      else none := by
  by_cases valid : ValidFieldNumber number
  · rw [if_pos valid]
    exact appends_entryWrite? valid hkey hvalue hsize w
  · rw [if_neg valid, entryWrite?, startField, Tag.ofNumber?, dif_neg valid]
    rfl

end Visit

/-! ## Entries of messages -/

namespace Message

/-- Whatever the key and the value of an entry are, the size pass gives a length for the entry, and
the write pass appends the tag, that length and the two fields, if fields may have the number. The
fields take one byte more than the length says for each of them that is a group. So the length is
right, and the entry fits where the size pass makes room for it, exactly if neither of them is a
group. -/
theorem entry_length (number : Nat) (key value : FieldValue Message) :
    ∃ size fields, Visit.entrySize? encodedLen? key value = some size ∧
      (∀ w : Writer, Visit.entryWrite? passes number key value w =
        if ValidFieldNumber number then
          w.append (Tag.encode number .lengthDelimited ++ (Varint.encode size ++ fields))
        else none) ∧
      fields = key.encode encode 1 ++ value.encode encode 2 ∧
      fields.length =
        size + (if key.isGroup then 1 else 0) + (if value.isGroup then 1 else 0) ∧
      (fields.length = size ↔ key.isGroup = false ∧ value.isGroup = false) ∧
      ((∃ w, Visit.entryWrite? passes number key value
          (.new (Tag.size number .lengthDelimited + WireValue.delimitedSize size)) = some w) ↔
        ValidFieldNumber number ∧ key.isGroup = false ∧ value.isGroup = false) := by
  have hlength : ∀ field : FieldValue Message, ∀ m ∈ field.children,
      encodedLen? m = some m.encode.length := fun _ m _ => m.encodedLen?_eq
  have hpasses : ∀ field : FieldValue Message, ∀ m ∈ field.children,
      m.passes.Encodes m.encode := fun _ m _ => m.encodes_passes
  obtain ⟨size, hsize, hfields⟩ := Visit.length_entry (hlength key) (hlength value)
  have hbytes : (key.encode encode 1 ++ value.encode encode 2).length =
      size + (if key.isGroup then 1 else 0) + (if value.isGroup then 1 else 0) := hfields
  have hgroups : size + (if key.isGroup then 1 else 0) + (if value.isGroup then 1 else 0) ≤ size ↔
      key.isGroup = false ∧ value.isGroup = false := by
    cases key.isGroup <;> cases value.isGroup <;> simp [Nat.add_assoc]
  have hwrite (w : Writer) := Visit.entryWrite?_eq number (hpasses key) (hpasses value) hsize w
  refine ⟨size, _, hsize, hwrite, rfl, hbytes, ?_, ?_⟩
  · rw [← hgroups, hbytes]
    omega
  · rw [hwrite]
    by_cases valid : ValidFieldNumber number
    · rw [if_pos valid, and_iff_right valid, ← hgroups, ← hbytes, ← Option.ne_none_iff_exists',
        ne_eq, append_eq_none, List.length_append, List.length_append, Tag.length_encode,
        Varint.length_encode]
      show ¬ _ + (_ + size) < _ ↔ _
      omega
    · simp [valid]

/-- An entry whose value is an empty group: its length is written as three, but the two fields take
four bytes. -/
theorem entry_length_group :
    Visit.entrySize? encodedLen? (.scalar (.int32 1)) (.group (.new .empty)) = some 3 ∧
      Visit.entryWrite? passes 1 (.scalar (.int32 1)) (.group (.new .empty)) (.new 6) =
        some ⟨[10, 3] ++ [8, 1, 19, 20], 0⟩ ∧
      ([8, 1, 19, 20] : Bytes).length ≠ 3 := by
  have hempty : (Message.new .empty).encode = [] := by
    rw [encode_eq]
    rfl
  have hsize : Visit.entrySize? encodedLen? (.scalar (.int32 1)) (.group (.new .empty)) =
      some 3 := by
    rw [Visit.entrySize?, FieldValue.size?, FieldValue.size?, encodedLen?_eq, hempty]
    rfl
  have hwrite : Appends (Visit.entryWrite? passes 1 (.scalar (.int32 1)) (.group (.new .empty)))
      (Tag.encode 1 .lengthDelimited ++
        (Varint.encode 3 ++ ((FieldValue.scalar (.int32 1)).encode encode 1 ++
          (FieldValue.group (.new .empty)).encode encode 2))) :=
    Visit.appends_entryWrite? Visit.valid_key (fun m _ => m.encodes_passes)
      (fun m _ => m.encodes_passes) hsize
  refine ⟨hsize, ?_, by decide⟩
  rw [hwrite, FieldValue.encode, FieldValue.encode, hempty]
  cbv

end Message

end Protobuf
