import Mathlib.Data.List.Chain
import Mathlib.Data.Nat.Digits.Defs
import Protobuf.Proofs.Text.AppendedFields
import Protobuf.Proofs.Text.Scalars

/-!
# Numerals

Which tokens spell integers is described by itself (`Text.Numeral`): a magnitude in hexadecimal,
octal or decimal digits, which has 64 bits, behind a minus sign or not. The readers of integers take
these tokens and no others, as long as the integer is in the range of the type, and what is printed
for an integer is read back (`Text.Scan.integers_exact`).

The functions that read digits would also take a plus sign, but none stands in front of the digits
of a token: the scanner takes a plus sign only behind the letter of an exponent (`Text.Sign`).
-/

namespace Protobuf

open Build

namespace Text

/-! ## Spelling -/

/-- The character is the digit of a base with this value; letters may be small or capital. -/
def IsDigit (base : Nat) (c : Char) (digit : Nat) : Prop :=
  digit < base ∧ (c = digit.digitChar ∨ c = digit.digitChar.toUpper)

/-- The characters are digits of a base, the most significant one first, and spell the number. -/
def Spelled (base : Nat) (cs : List Char) (n : Nat) : Prop :=
  cs ≠ [] ∧ ∃ digits, List.Forall₂ (IsDigit base) cs digits ∧ Nat.ofDigits base digits.reverse = n

/-- The characters spell a magnitude, in the base that their beginning tells. -/
inductive Magnitude : List Char → Nat → Prop
  /-- A zero and the letter `x` make it hexadecimal. -/
  | hexadecimal {x : Char} {cs : List Char} {n : Nat} (hx : x = 'x' ∨ x = 'X')
      (digits : Spelled 16 cs n) : Magnitude ('0' :: x :: cs) n
  /-- A zero in front of other digits makes it octal. -/
  | octal {cs : List Char} {n : Nat} (digits : Spelled 8 cs n) : Magnitude ('0' :: cs) n
  /-- Otherwise it is decimal; only zero itself starts with a zero. -/
  | decimal {cs : List Char} {n : Nat} (leading : cs.head? = some '0' → cs = ['0'])
      (digits : Spelled 10 cs n) : Magnitude cs n

/-- The characters spell an integer: a magnitude of 64 bits, behind a minus sign or not. -/
inductive Numeral : List Char → Int → Prop
  /-- Without a sign the integer is the magnitude. -/
  | unsigned {cs : List Char} {n : Nat} (spelled : Magnitude cs n) (bounded : n < 2 ^ 64) :
      Numeral cs n
  /-- A minus sign may also stand before a zero. -/
  | negative {cs : List Char} {n : Nat} (spelled : Magnitude cs n) (bounded : n < 2 ^ 64) :
      Numeral ('-' :: cs) (-n)

/-! ## Digits -/

theorem digit?_eq_some_iff {base : Nat} (hbase : base ≤ 16) {c : Char} {digit : Nat} :
    digit? base c = some digit ↔ IsDigit base c digit := by
  constructor
  · intro h
    have all : ∀ n < 128, ∀ digit ∈ Bytes.hexValue? (UInt8.ofNat n),
        Char.ofNat n = digit.digitChar ∨ Char.ofNat n = digit.digitChar.toUpper := by decide
    unfold digit? Scan.digitValue? at h
    split at h
    · rename_i hlt
      obtain ⟨hvalue, hdigit⟩ := Option.filter_eq_some_iff.1 h
      have hc := all c.toNat hlt digit hvalue
      rw [Char.ofNat_toNat] at hc
      exact ⟨of_decide_eq_true hdigit, hc⟩
    · cases h
  · rintro ⟨hdigit, hc⟩
    have small : ∀ digit < 16, digit.digitChar.toNat < 128 ∧
        Bytes.hexValue? (byte digit.digitChar) = some digit := by decide
    have capital : ∀ digit < 16, digit.digitChar.toUpper.toNat < 128 ∧
        Bytes.hexValue? (byte digit.digitChar.toUpper) = some digit := by decide
    obtain ⟨hlt, hvalue⟩ : c.toNat < 128 ∧ Bytes.hexValue? (byte c) = some digit := by
      have hdigit := Nat.lt_of_lt_of_le hdigit hbase
      rcases hc with rfl | rfl
      · exact small digit hdigit
      · exact capital digit hdigit
    rw [digit?, if_pos hlt, Scan.digitValue?, hvalue, Option.filter_some,
      if_pos (decide_eq_true hdigit)]

/-- Digits up to nine are no letters. -/
theorem IsDigit.isDigit {base digit : Nat} {c : Char} (h : IsDigit base c digit)
    (hbase : base ≤ 10) : c.isDigit = true := by
  have all : ∀ digit < 10, digit.digitChar.isDigit = true ∧
      digit.digitChar.toUpper.isDigit = true := by decide
  obtain ⟨hsmall, hcapital⟩ := all digit (Nat.lt_of_lt_of_le h.1 hbase)
  rcases h.2 with rfl | rfl
  · exact hsmall
  · exact hcapital

/-- Digits up to nine start with one of them. -/
theorem Spelled.exists_cons {base n : Nat} {cs : List Char} (h : Spelled base cs n)
    (hbase : base ≤ 10) : ∃ c rest, cs = c :: rest ∧ c.isDigit = true := by
  obtain ⟨hne, digits, hdigits, -⟩ := h
  cases hdigits with
  | nil => exact absurd rfl hne
  | cons hc hrest => exact ⟨_, _, rfl, hc.isDigit hbase⟩

theorem mapM_eq_some_iff {α β : Type} {f : α → Option β} {xs : List α} {ys : List β} :
    xs.mapM f = some ys ↔ List.Forall₂ (fun x y => f x = some y) xs ys := by
  induction xs generalizing ys with
  | nil => simp [List.forall₂_nil_left_iff, eq_comm]
  | cons x xs ih =>
    simp [List.mapM_cons, List.forall₂_cons_left_iff, ← ih, Option.bind_eq_some_iff,
      @eq_comm _ ys]

theorem ofDigits_eq (base : Nat) (digits : List Nat) :
    ofDigits base digits = Nat.ofDigits base digits.reverse := by
  rw [Nat.ofDigits_eq_foldr, List.foldr_reverse, ofDigits]
  congr 1
  funext value digit
  rw [Nat.mul_comm, Nat.add_comm]
  rfl

theorem natural?_eq_some_iff {base : Nat} (hbase : base ≤ 16) {cs : List Char} {n : Nat}
    (hplus : cs.head? ≠ some '+') :
    natural? base cs = some n ↔ Spelled base cs n ∧ n < 2 ^ 64 := by
  have hdigit : IsDigit base = fun c digit => digit? base c = some digit := by
    funext c digit
    exact propext (digit?_eq_some_iff hbase).symm
  have hvalue : (cs.mapM (digit? base)).map (ofDigits base) = some n ↔
      ∃ digits, List.Forall₂ (IsDigit base) cs digits ∧ Nat.ofDigits base digits.reverse = n := by
    simp only [Option.map_eq_some_iff, mapM_eq_some_iff, hdigit, ofDigits_eq]
  rw [natural?, dropPlus_of_head?_ne hplus, Spelled]
  by_cases hempty : cs = []
  · simp [hempty]
  · rw [if_neg (mt List.isEmpty_iff.1 hempty), Option.filter_eq_some_iff, hvalue,
      decide_eq_true_eq]
    exact and_congr_left fun _ => (and_iff_right hempty).symm

/-! ## Signs -/

/-- A plus sign stands only behind the letter of an exponent. -/
def Sign (before c : Char) : Prop := c = '+' → before = 'e' ∨ before = 'E'

theorem head?_ne_of_isChain {before : Char} {cs : List Char}
    (h : List.IsChain Sign (before :: cs)) (hbefore : before ≠ 'e' ∧ before ≠ 'E') :
    cs.head? ≠ some '+' := by
  cases cs with
  | nil => exact (Option.some_ne_none '+').symm
  | cons c cs =>
    rintro ⟨⟩
    exact ((List.isChain_cons_cons.1 h).1 rfl).elim hbefore.1 hbefore.2

/-! ## Magnitudes and integers -/

theorem magnitude?_eq_some_iff {cs : List Char} {n : Nat} (h : List.IsChain Sign ('-' :: cs)) :
    magnitude? cs = some n ↔ Magnitude cs n ∧ n < 2 ^ 64 := by
  have hplus := head?_ne_of_isChain h (by decide)
  constructor
  · intro hvalue
    unfold magnitude? at hvalue
    split at hvalue
    · have htail := head?_ne_of_isChain h.tail.tail (by decide)
      obtain ⟨hspelled, hn⟩ := (natural?_eq_some_iff (by decide) htail).1 hvalue
      exact ⟨.hexadecimal (.inl rfl) hspelled, hn⟩
    · have htail := head?_ne_of_isChain h.tail.tail (by decide)
      obtain ⟨hspelled, hn⟩ := (natural?_eq_some_iff (by decide) htail).1 hvalue
      exact ⟨.hexadecimal (.inr rfl) hspelled, hn⟩
    · have htail := head?_ne_of_isChain h.tail (by decide)
      obtain ⟨hspelled, hn⟩ := (natural?_eq_some_iff (by decide) htail).1 hvalue
      exact ⟨.octal hspelled, hn⟩
    · rename_i hoctal
      obtain ⟨hspelled, hn⟩ := (natural?_eq_some_iff (by decide) hplus).1 hvalue
      refine ⟨.decimal (fun hhead => ?_) hspelled, hn⟩
      rcases cs with _ | ⟨c, _ | ⟨c', cs⟩⟩
      · cases hhead
      · rw [Option.some.inj hhead]
      · exact absurd (congrArg (· :: c' :: cs) (Option.some.inj hhead)) (hoctal c' cs)
  · rintro ⟨hspelled, hn⟩
    cases hspelled with
    | hexadecimal hx digits =>
      have htail := head?_ne_of_isChain h.tail.tail (by rcases hx with rfl | rfl <;> decide)
      have hvalue := (natural?_eq_some_iff (by decide) htail).2 ⟨digits, hn⟩
      rcases hx with rfl | rfl
      · exact hvalue
      · exact hvalue
    | octal digits =>
      have htail := head?_ne_of_isChain h.tail (by decide)
      have hvalue := (natural?_eq_some_iff (by decide) htail).2 ⟨digits, hn⟩
      -- The hexadecimal forms come first, but no octal digit is an `x`.
      obtain ⟨c, rest, rfl, hc⟩ := digits.exists_cons (by decide)
      unfold magnitude?
      split
      · rename_i heq
        cases heq
        cases hc
      · rename_i heq
        cases heq
        cases hc
      · rename_i heq
        cases heq
        exact hvalue
      · rename_i hoctal
        exact absurd rfl (hoctal c rest)
    | decimal leading digits =>
      have hvalue := (natural?_eq_some_iff (by decide) hplus).2 ⟨digits, hn⟩
      by_cases hhead : cs.head? = some '0'
      · obtain rfl := leading hhead
        exact hvalue
      · rwa [magnitude?_of_head?_ne hhead]

theorem Magnitude.head?_ne {cs : List Char} {n : Nat} (h : Magnitude cs n) :
    cs.head? ≠ some '-' := by
  cases h with
  | decimal leading digits =>
    obtain ⟨c, rest, rfl, hc⟩ := digits.exists_cons (by decide)
    rintro ⟨⟩
    cases hc
  | _ => exact fun heq => absurd (Option.some.inj heq) (by decide)

theorem splitSign_of_head?_ne {cs : List Char} (h : cs.head? ≠ some '-') :
    splitSign cs = (false, cs) := by
  unfold splitSign
  split
  · exact absurd rfl h
  · rfl

theorem isChain_splitSign {cs : List Char} (h : List.IsChain Sign ('-' :: cs)) :
    List.IsChain Sign ('-' :: (splitSign cs).2) := by
  unfold splitSign
  split
  · exact h.tail
  · exact h

/-- The sign and the magnitude that a token spells make up the integer whose numeral it is. -/
theorem numeral_iff {token : String} (h : List.IsChain Sign ('-' :: token.toList)) {i : Int} :
    Numeral token.toList i ↔
      ∃ negative magnitude, integer? token = some (negative, magnitude) ∧
        signed negative magnitude = i := by
  have hspells := fun n => magnitude?_eq_some_iff (n := n) (isChain_splitSign h)
  rw [integer?]
  generalize token.toList = cs at hspells
  constructor
  · intro hnumeral
    cases hnumeral with
    | @unsigned _ n spelled bounded =>
      have hminus := spelled.head?_ne
      rw [splitSign_of_head?_ne hminus] at hspells ⊢
      dsimp only at hspells ⊢
      rw [(hspells n).2 ⟨spelled, bounded⟩]
      exact ⟨false, n, rfl, rfl⟩
    | @negative cs n spelled bounded =>
      dsimp only [splitSign] at hspells ⊢
      rw [(hspells n).2 ⟨spelled, bounded⟩]
      exact ⟨true, n, rfl, rfl⟩
  · rintro ⟨negative, magnitude, hvalue, rfl⟩
    by_cases hminus : cs.head? = some '-'
    · obtain ⟨body, rfl⟩ := List.head?_eq_some_iff.1 hminus
      dsimp only [splitSign] at hspells hvalue
      obtain ⟨n, hn, heq⟩ := Option.map_eq_some_iff.1 hvalue
      obtain ⟨hspelled, hbounded⟩ := (hspells n).1 hn
      cases heq
      exact .negative hspelled hbounded
    · rw [splitSign_of_head?_ne hminus] at hspells hvalue
      obtain ⟨n, hn, heq⟩ := Option.map_eq_some_iff.1 hvalue
      obtain ⟨hspelled, hbounded⟩ := (hspells n).1 hn
      cases heq
      exact .unsigned hspelled hbounded

namespace Scan

variable {c t : Cursor} {token : String}

/-! ## Tokens -/

theorem isChain_numberSpan (hexadecimal afterE : Bool) (bytes : Bytes) {before : Char}
    (hbefore : afterE = true → before = 'e' ∨ before = 'E') :
    List.IsChain Sign
      (before :: (numberSpan hexadecimal afterE bytes).map fun b => Char.ofNat b.toNat) := by
  -- `afterE` says of the character before what the chain asks for in front of a plus sign.
  induction bytes generalizing afterE before with
  | nil => exact .singleton before
  | cons b bytes ih =>
    rw [numberSpan]
    split
    · rename_i hb
      refine .cons_cons (fun hplus => hbefore ?_) (ih _ fun he => ?_)
      · obtain rfl : b = byte '+' := by
          rw [byte, ← hplus, toNat_ofNat_of_lt b.toNat_lt, UInt8.ofNat_toNat]
        have hname : (isNameByte (byte '+') || byte '+' = byte '.') = false := by decide
        rw [hname, Bool.false_or] at hb
        exact (Bool.and_eq_true_iff.1 (Bool.and_eq_true_iff.1 hb).1).1
      · rw [Bool.or_eq_true, decide_eq_true_eq, decide_eq_true_eq] at he
        rcases he with rfl | rfl
        · exact .inl rfl
        · exact .inr rfl
    · exact .singleton before

theorem toList_ofAscii (bytes : Bytes) :
    (ofAscii bytes).toList = bytes.map fun b => Char.ofNat b.toNat := String.toList_ofList

/-- In what is read as a number or a word a plus sign stands only behind the letter of an
exponent. -/
theorem isChain_of_numberToken (h : numberToken c = .ok token t) :
    List.IsChain Sign ('-' :: token.toList) := by
  have hblanks : blanks c = .ok () c.settle := rfl
  have hchain : ∀ hexadecimal bytes, List.IsChain Sign
      ('-' :: (numberSpan hexadecimal false bytes).map fun b => Char.ofNat b.toNat) :=
    fun hexadecimal bytes => isChain_numberSpan hexadecimal false bytes Bool.noConfusion
  rw [numberToken, run_bind_of_ok hblanks, run_bind_of_ok (run_get _)] at h
  dsimp only at h
  by_cases hminus : c.settle.rest.head? = some (byte '-')
  · rw [if_pos hminus, run_bind_of_ok (run_modify (·.advance 1) c.settle),
      run_bind_of_ok (run_get _), run_bind_of_ok (run_set _ _)] at h
    split at h
    · cases h
    · cases h
      rw [toList_ofAscii]
      exact .cons_cons (fun heq => absurd heq (by decide)) (hchain _ _)
  · rw [if_neg hminus, run_bind_of_ok (run_get _), run_bind_of_ok (run_set _ _)] at h
    split at h
    · cases h
    · cases h
      rw [toList_ofAscii]
      exact hchain _ _

/-! ## Reading numerals -/

/-- The action reads a token as an integer between two bounds: it succeeds if and only if the token
is the numeral of one, gives that integer, and stops behind the token. -/
def ReadsNumeral {α : Type} (read : Scan α) (toInt : α → Int) (low high : Int) (token : String)
    (c t : Cursor) : Prop :=
  ∀ (i : Int) (t' : Cursor), (∃ v, read c = .ok v t' ∧ toInt v = i) ↔
    t' = t ∧ Numeral token.toList i ∧ low ≤ i ∧ i ≤ high

section

variable {α β : Type} {read : Scan α} {toInt : α → Int} {low high : Int}

theorem ReadsNumeral.map (h : ReadsNumeral read toInt low high token c t) {f : α → β}
    {toInt' : β → Int} (hf : ∀ v, low ≤ toInt v → toInt v ≤ high → toInt' (f v) = toInt v) :
    ReadsNumeral (f <$> read) toInt' low high token c t := by
  intro i t'
  rw [← h i t']
  constructor
  · rintro ⟨_, hrun, hi⟩
    obtain ⟨v, hread, rfl⟩ := map_eq_ok.1 hrun
    obtain ⟨-, -, hlow, hhigh⟩ := (h (toInt v) t').1 ⟨v, hread, rfl⟩
    exact ⟨v, hread, (hf v hlow hhigh).symm.trans hi⟩
  · rintro ⟨v, hread, rfl⟩
    obtain ⟨-, -, hlow, hhigh⟩ := (h (toInt v) t').1 ⟨v, hread, rfl⟩
    exact ⟨f v, map_eq_ok.2 ⟨v, hread, rfl⟩, hf v hlow hhigh⟩

theorem ReadsNumeral.of_run {read' : Scan α} {c' : Cursor}
    (h : ReadsNumeral read toInt low high token c t) (hrun : read' c' = read c) :
    ReadsNumeral read' toInt low high token c' t := by
  intro i t'
  rw [hrun]
  exact h i t'

/-- What is done with the sign and the magnitude of a token decides which integers are read. -/
theorem readsNumeral_integer_bind (h : numberToken c = .ok token t) {f : Bool × Nat → Scan α}
    (accepts : ∀ negative magnitude, low ≤ signed negative magnitude →
      signed negative magnitude ≤ high →
      ∃ v, f (negative, magnitude) t = .ok v t ∧ toInt v = signed negative magnitude)
    (rejects : ∀ negative magnitude,
      signed negative magnitude < low ∨ high < signed negative magnitude →
      ∃ e u, f (negative, magnitude) t = .error e u) :
    ReadsNumeral (integer >>= f) toInt low high token c t := by
  intro i t'
  rw [numeral_iff (isChain_of_numberToken h)]
  cases hvalue : integer? token with
  | none =>
    obtain ⟨e, u, hinteger⟩ : ∃ e u, integer c = .error e u := by
      rw [integer, run_bind_of_ok h, hvalue]
      exact ⟨_, _, rfl⟩
    rw [run_bind_of_error hinteger]
    simp
  | some value =>
    obtain ⟨negative, magnitude⟩ := value
    have hinteger : integer c = .ok (negative, magnitude) t := by
      rw [integer, run_bind_of_ok h, hvalue]
      rfl
    rw [run_bind_of_ok hinteger]
    constructor
    · rintro ⟨v, hrun, rfl⟩
      by_cases hrange : low ≤ signed negative magnitude ∧ signed negative magnitude ≤ high
      · obtain ⟨v', hrun', hv'⟩ := accepts negative magnitude hrange.1 hrange.2
        rw [hrun'] at hrun
        cases hrun
        rw [hv']
        exact ⟨rfl, ⟨negative, magnitude, rfl, rfl⟩, hrange⟩
      · obtain ⟨e, u, hrun'⟩ := rejects negative magnitude (by omega)
        rw [hrun'] at hrun
        cases hrun
    · rintro ⟨rfl, ⟨_, _, heq, rfl⟩, hlow, hhigh⟩
      cases heq
      exact accepts negative magnitude hlow hhigh

end

/-- Only the magnitude zero may be negative. -/
theorem natCast_of_signed_nonneg {negative : Bool} {magnitude : Nat}
    (h : 0 ≤ signed negative magnitude) : (magnitude : Int) = signed negative magnitude := by
  cases negative with
  | false => rfl
  | true =>
    have hzero : 0 ≤ -(magnitude : Int) := h
    show (magnitude : Int) = -magnitude
    omega

theorem run_requireColon_bind {α : Type} (hcolon : c.sawColon = true) (f : Unit → Scan α) :
    (requireColon >>= f) c = f () c := by
  refine run_bind_of_ok ?_
  rw [requireColon, run_bind_of_ok (run_get c), hcolon]
  rfl

section

variable (hcolon : c.sawColon = true) (h : numberToken c = .ok token t)

include hcolon h

theorem readsNumeral_signedInteger (low high : Int) :
    ReadsNumeral (signedInteger low high) id low high token c t := by
  refine (readsNumeral_integer_bind h (fun negative magnitude hlow hhigh => ?_)
    (fun negative magnitude hout => ?_)).of_run (run_requireColon_bind hcolon _)
  · dsimp only
    rw [if_neg (by omega)]
    exact ⟨_, rfl, rfl⟩
  · dsimp only
    rw [if_pos hout]
    exact ⟨_, _, rfl⟩

theorem readsNumeral_unsignedInteger (bound : Nat) :
    ReadsNumeral (unsignedInteger bound) Nat.cast 0 (bound - 1) token c t := by
  have hsigned : ∀ negative magnitude,
      (negative = true ∧ magnitude ≠ 0) ∨ bound ≤ magnitude ↔
        signed negative magnitude < 0 ∨ (bound : Int) - 1 < signed negative magnitude := by
    intro negative magnitude
    cases negative with
    | false =>
      show (false = true ∧ magnitude ≠ 0) ∨ bound ≤ magnitude ↔
        (magnitude : Int) < 0 ∨ (bound : Int) - 1 < magnitude
      simp only [Bool.false_eq_true, false_and, false_or]
      omega
    | true =>
      show (true = true ∧ magnitude ≠ 0) ∨ bound ≤ magnitude ↔
        -(magnitude : Int) < 0 ∨ (bound : Int) - 1 < -magnitude
      simp only [true_and]
      omega
  refine (readsNumeral_integer_bind h (fun negative magnitude hlow hhigh => ?_)
    (fun negative magnitude hout => ?_)).of_run (run_requireColon_bind hcolon _)
  · dsimp only
    rw [if_neg (by rw [hsigned]; omega)]
    exact ⟨_, rfl, natCast_of_signed_nonneg hlow⟩
  · dsimp only
    rw [if_pos ((hsigned negative magnitude).2 hout)]
    exact ⟨_, _, rfl⟩

theorem readsNumeral_int32 : ReadsNumeral int32 Int32.toInt (-2 ^ 31) (2 ^ 31 - 1) token c t :=
  (readsNumeral_signedInteger hcolon h _ _).map fun _ hlow hhigh =>
    Int32.toInt_ofInt_of_le hlow (Int.lt_of_le_sub_one hhigh)

theorem readsNumeral_int64 : ReadsNumeral int64 Int64.toInt (-2 ^ 63) (2 ^ 63 - 1) token c t :=
  (readsNumeral_signedInteger hcolon h _ _).map fun _ hlow hhigh =>
    Int64.toInt_ofInt_of_le hlow (Int.lt_of_le_sub_one hhigh)

theorem readsNumeral_uint32 :
    ReadsNumeral uint32 (fun v => v.toNat) 0 (2 ^ 32 - 1) token c t :=
  (readsNumeral_unsignedInteger hcolon h _).map fun _ _ hhigh =>
    congrArg Nat.cast (UInt32.toNat_ofNat_of_lt' (Int.ofNat_lt.1 (Int.lt_of_le_sub_one hhigh)))

theorem readsNumeral_uint64 :
    ReadsNumeral uint64 (fun v => v.toNat) 0 (2 ^ 64 - 1) token c t :=
  (readsNumeral_unsignedInteger hcolon h _).map fun _ _ hhigh =>
    congrArg Nat.cast (UInt64.toNat_ofNat_of_lt' (Int.ofNat_lt.1 (Int.lt_of_le_sub_one hhigh)))

theorem readsNumeral_enum (type : EnumType) (hhead : c.settle.rest.head?.any isNameStart = false) :
    ReadsNumeral (enum type) Int32.toInt (-2 ^ 31) (2 ^ 31 - 1) token c t := by
  have hidentifier := identifier_of_head (Bool.eq_false_iff.1 hhead)
  have hsettle : numberToken c.settle = .ok token t := (settles_numberToken c).trans h
  have hmin : Int32.minValue.toInt = -2 ^ 31 := by decide
  have hmax : Int32.maxValue.toInt = 2 ^ 31 - 1 := by decide
  refine (readsNumeral_integer_bind hsettle (fun negative magnitude hlow hhigh => ?_)
    (fun negative magnitude hout => ?_)).of_run
    ((run_requireColon_bind hcolon _).trans (run_bind_of_ok hidentifier))
  · dsimp only
    rw [hmin, hmax, if_neg (by omega)]
    exact ⟨_, rfl, Int32.toInt_ofInt_of_le hlow (Int.lt_of_le_sub_one hhigh)⟩
  · dsimp only
    rw [hmin, hmax, if_pos hout]
    exact ⟨_, _, rfl⟩

end

/-! ## Printed integers -/

/-- The digits of a number end before a byte that is no part of numbers. -/
theorem numberSpan_digits (hexadecimal : Bool) {digits more : Bytes}
    (hdigits : ∀ b ∈ digits, isDigit b = true)
    (hmore : ∀ b ∈ more.head?, isNameByte b = false ∧ b ≠ byte '.') :
    numberSpan hexadecimal false (digits ++ more) = digits := by
  induction digits with
  | nil =>
    cases more with
    | nil => rfl
    | cons b more =>
      obtain ⟨hname, hpoint⟩ := hmore b rfl
      rw [List.nil_append, numberSpan, if_neg]
      simp [hname, hpoint]
  | cons b digits ih =>
    obtain ⟨hb, hdigits⟩ := List.forall_mem_cons.1 hdigits
    have hname : isNameByte b = true := by rw [isNameByte, hb, Bool.or_true]
    have he : (decide (b = byte 'e') || decide (b = byte 'E')) = false := by
      rw [decide_eq_false (ne_of_test hb (by decide)), decide_eq_false (ne_of_test hb (by decide))]
      rfl
    rw [List.cons_append, numberSpan, if_pos (by rw [hname]; rfl), he, ih hdigits]

/-- A printed integer is a token wherever it stands. -/
theorem numberToken_toString {i : Int} {more : Bytes}
    (hmore : ∀ b ∈ more.head?, isNameByte b = false ∧ b ≠ byte '.')
    (hrest : c.settle.rest = Utf8.encode (toString i) ++ more) :
    ∃ t, numberToken c = .ok (toString i) t ∧ t.rest = more := by
  obtain ⟨cs, hne, hcs, htext⟩ := exists_digits_toString i
  have hdigits : ∀ b ∈ cs.map byte, isDigit b = true := by
    intro b hb
    obtain ⟨ch, hch, rfl⟩ := List.mem_map.1 hb
    exact isDigit_byte (hcs ch hch)
  have hword : ∀ b ∈ cs.map byte, isNameByte b = true := by
    intro b hb
    rw [isNameByte, hdigits b hb, Bool.or_true]
  have hlt : ∀ ch ∈ (toString i).toList, ch.toNat < 128 := by
    have hdigit : ∀ ch ∈ cs, ch.toNat < 128 := fun ch hch =>
      Nat.lt_of_le_of_lt (range_of_isDigit (hcs ch hch)).2 (by decide)
    rcases htext with htext | htext
    · rwa [htext]
    · rw [htext]
      exact List.forall_mem_cons.2 ⟨by decide, hdigit⟩
  have hne : cs.map byte ≠ [] := mt List.map_eq_nil_iff.1 hne
  have hends := fun hexadecimal => numberSpan_digits hexadecimal hdigits hmore
  have hencode := encode_eq_map_byte hlt
  have hstrip : strip c.settle.rest = c.settle.rest :=
    strip_of_head fun b hb => (Cursor.head_skipBlanks false rfl b hb).1
  have hfinds : Finds c.settle.setting numberToken c.settle.rest (toString i) more := by
    have hascii : ofAscii ((toString i).toList.map byte) = toString i := by
      rw [ofAscii_map_byte hlt, String.ofList_toList]
    rw [hrest, hencode] at hstrip ⊢
    rcases htext with htext | htext
    · rw [htext] at hascii hstrip ⊢
      rw [← hascii]
      exact finds_word hne hword hends hstrip
    · rw [htext] at hascii hstrip ⊢
      rw [← hascii]
      exact finds_signed_word hne hends hstrip
  obtain ⟨t, hrun, ht⟩ := hfinds c.settle ⟨rfl, rfl⟩
  exact ⟨t, (settles_numberToken c).symm.trans hrun, ht.1⟩

end Scan

/-- The integer that a scalar of an integer type is. -/
def integerOf? : Scalar → Option Int
  | .int32 v | .sint32 v | .sfixed32 v | .enum _ v => some v.toInt
  | .int64 v | .sint64 v | .sfixed64 v => some v.toInt
  | .uint32 v | .fixed32 v => some v.toNat
  | .uint64 v | .fixed64 v => some v.toNat
  | _ => none

namespace Scan

variable {c t : Cursor} {token : String}

theorem numeral_toString {i : Int} (h : numberToken c = .ok (toString i) t)
    (hi : i.natAbs < 2 ^ 64) : Numeral (toString i).toList i :=
  (numeral_iff (isChain_of_numberToken h)).2 (integer?_toString hi).2

theorem ReadsNumeral.run {α : Type} {read : Scan α} {toInt : α → Int} {low high : Int} {v : α}
    (h : ReadsNumeral read toInt low high token c t) (injective : Function.Injective toInt)
    (hnumeral : Numeral token.toList (toInt v)) (hlow : low ≤ toInt v) (hhigh : toInt v ≤ high) :
    read c = .ok v t := by
  obtain ⟨v', hrun, hv⟩ := (h (toInt v) t).2 ⟨rfl, hnumeral, hlow, hhigh⟩
  rwa [injective hv] at hrun

theorem scalar_of_numberToken {x : Scalar} {i : Int} (hx : integerOf? x = some i)
    (hcolon : c.sawColon = true) (hhead : c.settle.rest.head?.any isNameStart = false)
    (h : numberToken c = .ok (toString i) t) : scalar x.kind c = .ok x t := by
  cases x with
  | int32 v | sint32 v | sfixed32 v =>
    cases hx
    have hlow := v.le_toInt
    have hhigh := v.toInt_lt
    have hrun := (readsNumeral_int32 hcolon h).run (fun _ _ => Int32.toInt_inj.1)
      (numeral_toString h (by omega)) hlow (by omega)
    exact map_eq_ok.2 ⟨v, hrun, rfl⟩
  | int64 v | sint64 v | sfixed64 v =>
    cases hx
    have hlow := v.le_toInt
    have hhigh := v.toInt_lt
    have hrun := (readsNumeral_int64 hcolon h).run (fun _ _ => Int64.toInt_inj.1)
      (numeral_toString h (by omega)) hlow (by omega)
    exact map_eq_ok.2 ⟨v, hrun, rfl⟩
  | uint32 v | fixed32 v =>
    cases hx
    have hlt := v.toNat_lt
    have hrun := (readsNumeral_uint32 hcolon h).run
      (fun _ _ heq => UInt32.toNat_inj.1 (Int.ofNat.inj heq))
      (numeral_toString h (by omega)) (by omega) (by omega)
    exact map_eq_ok.2 ⟨v, hrun, rfl⟩
  | uint64 v | fixed64 v =>
    cases hx
    have hlt := v.toNat_lt
    have hrun := (readsNumeral_uint64 hcolon h).run
      (fun _ _ heq => UInt64.toNat_inj.1 (Int.ofNat.inj heq))
      (numeral_toString h (by omega)) (by omega) (by omega)
    exact map_eq_ok.2 ⟨v, hrun, rfl⟩
  | enum type v =>
    cases hx
    have hlow := v.le_toInt
    have hhigh := v.toInt_lt
    have hrun := (readsNumeral_enum hcolon h type hhead).run (fun _ _ => Int32.toInt_inj.1)
      (numeral_toString h (by omega)) hlow (by omega)
    exact map_eq_ok.2 ⟨v, hrun, rfl⟩
  | _ => cases hx

theorem scalarText_of_integer {x : Scalar} {i : Int} (hx : integerOf? x = some i)
    (unnamed : ∀ type v, x = .enum type v → type.name? v = none) : scalarText x = toString i := by
  cases x with
  | enum type v =>
    cases hx
    rw [scalarText, unnamed type v rfl]
    rfl
  | float _ | double _ | bool _ | string _ | bytes _ => cases hx
  | _ =>
    cases hx
    rfl

/-- Integers are read exactly. Behind a colon a reader succeeds on a token if and only if the token
is the numeral of an integer in the range of the type, and gives that integer; values of
enumerations are read in this way where no name comes next. An integer is printed in decimal, unless
it is a value of an enumeration with a name, and these digits are read as the same value of the same
type, whatever blanks and comments stand before them, up to any byte that cannot go on a number. -/
theorem integers_exact :
    (∀ (c t : Cursor) (token : String), c.sawColon = true → numberToken c = .ok token t →
      ReadsNumeral int32 Int32.toInt (-2 ^ 31) (2 ^ 31 - 1) token c t ∧
      ReadsNumeral int64 Int64.toInt (-2 ^ 63) (2 ^ 63 - 1) token c t ∧
      ReadsNumeral uint32 (fun v => v.toNat) 0 (2 ^ 32 - 1) token c t ∧
      ReadsNumeral uint64 (fun v => v.toNat) 0 (2 ^ 64 - 1) token c t ∧
      ∀ type, c.settle.rest.head?.any isNameStart = false →
        ReadsNumeral (enum type) Int32.toInt (-2 ^ 31) (2 ^ 31 - 1) token c t) ∧
    ∀ (x : Scalar) (i : Int), integerOf? x = some i →
      ((∀ type v, x = .enum type v → type.name? v = none) → scalarText x = toString i) ∧
      ∀ (c : Cursor) (more : Bytes), c.sawColon = true →
        behindBlanks false c.rest = Utf8.encode (toString i) ++ more →
        (∀ b ∈ more.head?, isNameByte b = false ∧ b ≠ byte '.') →
        ∃ t, scalar x.kind c = .ok x t ∧ t.rest = more := by
  refine ⟨fun c t token hcolon h => ?_, fun x i hx => ⟨scalarText_of_integer hx, ?_⟩⟩
  · exact ⟨readsNumeral_int32 hcolon h, readsNumeral_int64 hcolon h, readsNumeral_uint32 hcolon h,
      readsNumeral_uint64 hcolon h, readsNumeral_enum hcolon h⟩
  · intro c more hcolon hbytes hmore
    have hrest : c.settle.rest = Utf8.encode (toString i) ++ more := by
      rw [Cursor.rest_settle, hbytes]
    obtain ⟨t, htoken, ht⟩ := numberToken_toString hmore hrest
    have hhead : c.settle.rest.head?.any isNameStart = false := by
      rw [hrest, Option.any_eq_false]
      exact fun b hb => (isNameStart_of_head?_toString hb).1
    exact ⟨t, scalar_of_numberToken hx hcolon hhead htoken, ht⟩

/-- A negative zero is read as an unsigned number, and the least number of 32 bits as itself. -/
theorem integers_exact_minValue :
    let c : Cursor := { Cursor.new " -0," with sawColon := true }
    let c' : Cursor := { Cursor.new "#\n-2147483648]" with sawColon := true }
    ∃ t, numberToken c = .ok "-0" t ∧ uint64 c = .ok 0 t ∧
      ∃ t', scalar .sfixed32 c' = .ok (.sfixed32 Int32.minValue) t' ∧ t'.rest = [byte ']'] := by
  intro c c'
  obtain ⟨hread, hprinted⟩ := integers_exact
  obtain ⟨t, htoken⟩ : ∃ t, numberToken c = .ok "-0" t := ⟨_, rfl⟩
  have hnumeral : Numeral "-0".toList 0 :=
    (numeral_iff (isChain_of_numberToken htoken)).2 ⟨true, 0, by decide, rfl⟩
  obtain ⟨-, -, -, huint64, -⟩ := hread c t _ rfl htoken
  obtain ⟨v, hrun, hv⟩ := (huint64 0 t).2 ⟨rfl, hnumeral, by decide, by decide⟩
  refine ⟨t, htoken, ?_, ?_⟩
  · rw [hrun, UInt64.toNat_inj.1 (Int.ofNat.inj hv : v.toNat = (0 : UInt64).toNat)]
  · refine (hprinted (.sfixed32 Int32.minValue) (-2147483648) rfl).2 c' [byte ']'] rfl (by decide)
      fun b hb => ?_
    obtain rfl := Option.some.inj hb
    decide

end Scan

end Text

end Protobuf
