import Mathlib.Algebra.Order.Ring.Int
import Mathlib.Data.Nat.Cast.Order.Basic
import Mathlib.Tactic.Lift
import Protobuf.DecimalInteger

/-!
# Decimal forms

An integer within the range is read back from its decimal form
(`DecimalInteger.signed64_toString`, `DecimalInteger.unsigned64_toString`).
-/

namespace Protobuf

/-- The decimal form of a natural number starts with a digit. -/
theorem toList_toString_nat (n : Nat) :
    ∃ c cs, (toString (n : Int)).toList = c :: cs ∧ c.isDigit = true ∧
      Nat.toDigits 10 n = c :: cs := by
  have htext : (toString (n : Int)).toList = Nat.toDigits 10 n := Nat.toList_repr
  cases hdigits : Nat.toDigits 10 n with
  | nil => exact absurd hdigits Nat.toDigits_ne_nil
  | cons c cs =>
    have hmem : c ∈ Nat.toDigits 10 n := hdigits ▸ List.mem_cons_self
    exact ⟨c, cs, htext.trans hdigits,
      Nat.isDigit_of_mem_toDigits (by decide) (by decide) hmem, rfl⟩

/-- The decimal form of a negative number is a hyphen and digits. -/
theorem toList_toString_neg {n : Int} (h : n < 0) :
    (toString n).toList = '-' :: Nat.toDigits 10 n.natAbs := by
  cases n with
  | ofNat n => exact absurd h (by simp)
  | negSucc n =>
    show ("-" ++ Nat.repr (n + 1)).toList = _
    rw [String.toList_append, Nat.toList_repr]
    rfl

namespace DecimalInteger

theorem le_ofDigitChars (cs : List Char) (magnitude : Nat) :
    magnitude ≤ Nat.ofDigitChars 10 cs magnitude := by
  induction cs generalizing magnitude with
  | nil => exact Nat.le_refl _
  | cons c cs ih => exact Nat.le_trans (by omega) (ih (10 * magnitude + (c.toNat - 48)))

/-- A number that is not above the bound is not above it after any of its digits. -/
theorem digits_eq_ok {bound : Nat} {excess : Fault} {cs : List Char} {magnitude : Nat}
    (hdigits : ∀ c ∈ cs, c.isDigit = true) (h : Nat.ofDigitChars 10 cs magnitude ≤ bound) :
    digits bound excess magnitude cs = .ok (Nat.ofDigitChars 10 cs magnitude) := by
  induction cs generalizing magnitude with
  | nil => rfl
  | cons c cs ih =>
    obtain ⟨hc, hcs⟩ := List.forall_mem_cons.1 hdigits
    have hle := Nat.le_trans (le_ofDigitChars cs (10 * magnitude + (c.toNat - 48))) h
    rw [digits, hc]
    exact (if_neg (Nat.not_lt.2 hle)).trans (ih hcs h)

theorem digits_toDigits {bound n : Nat} (excess : Fault) (h : n ≤ bound) :
    digits bound excess 0 (Nat.toDigits 10 n) = .ok n := by
  have hvalue : Nat.ofDigitChars 10 (Nat.toDigits 10 n) 0 = n :=
    Nat.ofDigitChars_toDigits (by decide) (by decide)
  have hdigits : ∀ c ∈ Nat.toDigits 10 n, c.isDigit = true :=
    fun c hc => Nat.isDigit_of_mem_toDigits (by decide) (by decide) hc
  rw [digits_eq_ok hdigits (by rwa [hvalue]), hvalue]

section

variable {below above : Nat} {n : Int}

/-- Text that starts with a digit has no sign. -/
theorem read_of_isDigit {text : String} {c : Char} {cs : List Char} (htext : text.toList = c :: cs)
    (hc : c.isDigit = true) :
    read below above text = Int.ofNat <$> digits above .tooLarge 0 (c :: cs) := by
  have hplus : c ≠ '+' := fun h => absurd hc (by rw [h]; decide)
  have hminus : c ≠ '-' := fun h => absurd hc (by rw [h]; decide)
  rw [read, htext]
  split <;> simp_all

theorem read_of_minus {text : String} {cs : List Char} (htext : text.toList = '-' :: cs)
    (hne : cs ≠ []) (hbelow : below ≠ 0) :
    read below above text = (fun n : Nat => -(n : Int)) <$> digits below .tooSmall 0 cs := by
  rw [read, htext]
  split <;> simp_all

theorem read_toString_of_nonneg (h : 0 ≤ n) (hle : n ≤ above) :
    read below above (toString n) = .ok n := by
  lift n to Nat using h
  obtain ⟨c, cs, htext, hc, hdigits⟩ := toList_toString_nat n
  rw [read_of_isDigit htext hc, ← hdigits, digits_toDigits .tooLarge (Int.ofNat_le.1 hle)]
  rfl

theorem read_toString_of_neg (h : n < 0) (hle : -below ≤ n) :
    read below above (toString n) = .ok n := by
  rw [read_of_minus (toList_toString_neg h) Nat.toDigits_ne_nil (by omega),
    digits_toDigits .tooSmall (by omega)]
  show Except.ok (-(n.natAbs : Int)) = .ok n
  rw [Int.ofNat_natAbs_of_nonpos (Int.le_of_lt h), Int.neg_neg]

end

/-- Every signed integer of 64 bits is read back from its decimal form. -/
theorem signed64_toString {n : Int} (hlow : -2 ^ 63 ≤ n) (hhigh : n < 2 ^ 63) :
    signed64 (toString n) = .ok n := by
  rcases Int.lt_or_le n 0 with h | h
  · exact read_toString_of_neg h (by simpa using hlow)
  · exact read_toString_of_nonneg h (by simp; omega)

/-- Every unsigned integer of 64 bits is read back from its decimal form. -/
theorem unsigned64_toString {n : Int} (hlow : 0 ≤ n) (hhigh : n < 2 ^ 64) :
    unsigned64 (toString n) = .ok n.toNat := by
  rw [unsigned64, read_toString_of_nonneg hlow (by simp [UInt64.size]; omega)]
  rfl

end DecimalInteger

end Protobuf
