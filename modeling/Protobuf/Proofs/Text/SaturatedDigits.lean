import Protobuf.Proofs.Running
import Protobuf.Text.Cursor

/-!
# Field numbers in words

The digits of a field number are added up in a word that stays at the greatest one where they spell
more than that. The word is the number itself or the greatest word, whichever is less
(`Text.Scan.toNat_saturatedValue`), so the checks of a field number come out as they would for the
number, and what passes them is small enough to be narrowed (`Text.Scan.fieldNumber_eq`).
-/

namespace Protobuf

namespace Text.Scan

variable {digits : Bytes}

/-- The value of decimal digits. -/
def decimalValue (digits : Bytes) : Nat :=
  digits.foldl (fun value b => 10 * value + (b.toNat - 48)) 0

theorem toNat_saturate (n : Nat) : (saturate n).toNat = min n (UInt64.size - 1) := by
  have hlt : min n (UInt64.size - 1) < UInt64.size :=
    Nat.lt_of_le_of_lt (Nat.min_le_right _ _) (by decide)
  rw [saturate, UInt64.toNat_ofNat_of_lt' hlt]

/-- One more digit, whether the word was exact before or not. -/
theorem toNat_saturatingStep {value : UInt64} {n : Nat} {b : UInt8}
    (hvalue : value.toNat = min n (UInt64.size - 1)) (hb : isDigit b = true) :
    (saturatingStep value b).toNat = min (10 * n + (b.toNat - 48)) (UInt64.size - 1) := by
  have hdigit : (b - 48).toUInt64.toNat = b.toNat - 48 := by
    rw [UInt8.toNat_toUInt64]
    exact UInt8.toNat_sub_of_le _ _ (of_decide_eq_true (Bool.and_eq_true_iff.1 hb).1)
  have hsize : UInt64.size = 18446744073709551616 := rfl
  rw [saturatingStep, toNat_saturate, toNat_saturate, hdigit, hvalue]
  omega

/-- However many digits there are, the word is what they spell as long as that fits. -/
theorem toNat_saturatedValue (h : ∀ b ∈ digits, isDigit b = true) :
    (saturatedValue digits).toNat = min (decimalValue digits) (UInt64.size - 1) := by
  -- The word and the number that it stands for go on from the same digits.
  have hfold : ∀ (value : UInt64) (n : Nat), value.toNat = min n (UInt64.size - 1) →
      (digits.foldl saturatingStep value).toNat =
        min (digits.foldl (fun value b => 10 * value + (b.toNat - 48)) n) (UInt64.size - 1) := by
    induction digits with
    | nil => exact fun value n hvalue => hvalue
    | cons b digits ih =>
      obtain ⟨hb, hdigits⟩ := List.forall_mem_cons.1 h
      intro value n hvalue
      exact ih hdigits _ _ (toNat_saturatingStep hvalue hb)
  exact hfold 0 0 rfl

/-- The word is refused exactly if the number is. -/
theorem saturatedValue_invalid_iff (h : ∀ b ∈ digits, isDigit b = true) :
    (saturatedValue digits = 0 ∨ UInt64.ofNat maxFieldNumber < saturatedValue digits) ↔
      (decimalValue digits = 0 ∨ maxFieldNumber < decimalValue digits) := by
  have hvalue := toNat_saturatedValue h
  have hsize : UInt64.size = 18446744073709551616 := rfl
  have hmax : maxFieldNumber = 536870911 := rfl
  have hword : (UInt64.ofNat maxFieldNumber).toNat = maxFieldNumber := rfl
  rw [← UInt64.toNat_inj, UInt64.lt_iff_toNat_lt, hword, hvalue, UInt64.toNat_zero]
  omega

/-- A number that is not refused has 32 bits. -/
theorem toNat_toUInt32_saturatedValue (h : ∀ b ∈ digits, isDigit b = true)
    (hle : decimalValue digits ≤ maxFieldNumber) :
    (saturatedValue digits).toUInt32.toNat = decimalValue digits := by
  have hvalue := toNat_saturatedValue h
  have hsize : UInt64.size = 18446744073709551616 := rfl
  have hmax : maxFieldNumber = 536870911 := rfl
  rw [UInt64.toNat_toUInt32, hvalue]
  omega

/-- A field number is read as if its value was added up without bounds. -/
theorem fieldNumber_eq : fieldNumber = (do
    let digits ← span isDigit
    if (← get).rest.head?.any isNameByte then fail .invalidFieldNumber
    let value := decimalValue digits
    if value = 0 ∨ maxFieldNumber < value then fail (.fieldNumberRange (ofAscii digits))
    return .number value) := by
  funext c
  have hdigits : ∀ b ∈ c.rest.takeWhile isDigit, isDigit b = true :=
    List.all_eq_true.1 List.all_takeWhile
  have hspan : span isDigit c =
    .ok (c.rest.takeWhile isDigit) (c.advance (c.rest.takeWhile isDigit).length) := rfl
  rw [fieldNumber, run_bind_of_ok hspan, run_bind_of_ok hspan]
  dsimp only
  simp only [saturatedValue_invalid_iff hdigits]
  by_cases hvalue : decimalValue (c.rest.takeWhile isDigit) = 0 ∨
      maxFieldNumber < decimalValue (c.rest.takeWhile isDigit)
  · simp only [if_pos hvalue]
    rfl
  · rw [toNat_toUInt32_saturatedValue hdigits (by omega)]

end Text.Scan

end Protobuf
