import Protobuf.Error
import Protobuf.Message.Basic

/-!
# Required fields

A message is initialized when its required fields are set and every message inside it, the payload
of an `Any` included, is initialized.
-/

namespace Protobuf

variable {M α : Type}

/-- The member is not a required field that is missing. -/
def Member.requirementMet : Member → Slot M → Bool
  | optional _ true, .optional none => false
  | _, _ => true

/-- The message's own required fields are set. -/
def Message.requiredSet (m : Message) : Bool :=
  (m.type.members.zip m.slots).all fun (member, slot) => member.requirementMet slot

/-- No required field is missing in the message or in any message inside it. -/
def Message.isInitialized : Message → Bool :=
  Message.fold fun type slots _ =>
    (type.members.zip slots).all (fun (member, slot) => member.requirementMet slot) &&
      slots.all fun slot => slot.children.all (·.2)

/-- The message itself; a message that lacks a required field passes only if that is allowed. -/
def Message.checked (allowPartial : Bool) (m : Message) : Except Error Message :=
  if allowPartial || m.isInitialized then .ok m else .error .missingRequired

/-- A message that passes is not changed. -/
theorem Message.eq_of_checked {allowPartial : Bool} {m m' : Message}
    (h : m.checked allowPartial = .ok m') : m' = m := by
  unfold checked at h
  split at h
  · exact (Except.ok.inj h).symm
  · cases h

theorem Message.error_of_checked {allowPartial : Bool} {m : Message} {e : Error}
    (h : m.checked allowPartial = .error e) : e = .missingRequired := by
  unfold checked at h
  split at h
  · cases h
  · cases h
    rfl

/-! ## One level at a time -/

theorem Member.requirementMet_mapMessages (f : M → α) (member : Member) (slot : Slot M) :
    member.requirementMet (slot.mapMessages f) = member.requirementMet slot := by
  cases member with
  | optional field required => cases required <;> rcases slot with _ | ⟨_ | _⟩ | _ <;> rfl
  | _ => cases slot <;> rfl

/-- A message is initialized if its own required fields are set and all messages directly inside it
are initialized. -/
theorem Message.isInitialized_eq (m : Message) :
    m.isInitialized = (m.requiredSet && m.children.all Message.isInitialized) := by
  rw [isInitialized, fold_eq]
  simp [requiredSet, children, List.zip_map_right, List.all_map, Function.comp_def,
    Member.requirementMet_mapMessages, Slot.children_mapMessages, List.all_flatMap]

end Protobuf
