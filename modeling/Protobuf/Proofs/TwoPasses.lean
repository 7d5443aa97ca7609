import Protobuf.Message.Encoding

/-!
# The two passes of encoding

The size pass and the write pass of encoding visit a message independently of each other. They
always succeed, and they agree with the plain encoding and so with each other, also on every length
prefix inside (`Message.passes_agree`).
-/

namespace Protobuf

namespace Message

/-- Both passes agree on every field that is written, whatever is inside. -/
theorem passes_agree_of_mem_visits {m : Message} {v : Visit Message} (hv : v ∈ m.visits) :
    v.size? encodedLen? = some (v.encode encode).length ∧
      Writer.Appends (v.write? passes) (v.encode encode) := by
  have hg : ∀ number name key value, v = .mapEntry number name key value →
      value.isGroup = false := by
    intro number name key value he
    exact not_isGroup_of_mem_visits (he ▸ hv)
  constructor
  · exact Visit.size?_eq (valid_of_mem_visits hv) (fun c _ => c.encodedLen?_eq) hg
  · exact Visit.appends_write? (valid_of_mem_visits hv) (fun c _ => c.encodes_passes) hg

/-- The length of a map entry is that of its two fields. -/
theorem entrySize?_of_mem_visits {m : Message} {number : Nat} {name : String} {key : Scalar}
    {value : FieldValue Message} (hv : .mapEntry number name key value ∈ m.visits) :
    Visit.entrySize? encodedLen? (.scalar key) value =
      some ((FieldValue.scalar key).encode encode 1 ++ value.encode encode 2).length :=
  Visit.entrySize?_eq key value (fun c _ => c.encodedLen?_eq) (not_isGroup_of_mem_visits hv)

/-- Encoding in two passes cannot fail. The size pass gives the number of bytes, the write pass
appends the bytes of the plain encoding to any buffer that has room for them and fills one of the
given size exactly, and every length that is written is the number of the bytes behind it. -/
theorem passes_agree (m : Message) :
    ∃ n bytes, m.encodedLen? = some n ∧ m.toBytes? = some bytes ∧ bytes.length = n ∧
      bytes = m.visits.flatMap (Visit.encode encode) ++ m.unknown ∧
      m.write? (.new n) = some ⟨bytes, 0⟩ ∧ (∀ w : Writer, m.write? w = w.append bytes) ∧
      (∀ c ∈ m.children, c.encodedLen? = some c.encode.length) ∧
      (∀ v ∈ m.visits, v.size? encodedLen? = some (v.encode encode).length ∧
        ∀ w : Writer, v.write? passes w = w.append (v.encode encode)) ∧
      (∀ number name scalars, .packed number name scalars ∈ m.visits →
        Scalar.totalSize scalars = (scalars.flatMap Scalar.encode).length) ∧
      (∀ number name key value, .mapEntry number name key value ∈ m.visits →
        Visit.entrySize? encodedLen? (.scalar key) value =
          some ((FieldValue.scalar key).encode encode 1 ++ value.encode encode 2).length) := by
  refine ⟨m.encode.length, m.encode, m.encodedLen?_eq, m.toBytes?_eq, rfl, m.encode_eq, ?_,
    m.appends_write?, ?_, ?_, ?_, ?_⟩
  · rw [m.appends_write?]
    simp only [Writer.append, Writer.new, Nat.le_refl, if_pos, List.nil_append, Nat.sub_self]
  · intro c _
    exact c.encodedLen?_eq
  · intro v hv
    exact passes_agree_of_mem_visits hv
  · intro number name scalars _
    exact (Scalar.length_flatMap_encode scalars).symm
  · intro number name key value hv
    exact entrySize?_of_mem_visits hv

end Message

end Protobuf
