import Protobuf.Proofs.Text.FailingNames
import Protobuf.Proofs.Text.Numerals
import Protobuf.Proofs.Text.SaturatedDigits
import Protobuf.Proofs.Text.UnknownLines
import Protobuf.Proofs.Text.Walks

/-!
# Field numbers in text

A field may be named by its number, in decimal digits. However many digits there are, the number is
taken for exactly what they spell, and is refused if no field can have it, or if the digits run into
a name. It is refused wherever names are read: among fields that are merged, and where the options
let fields be passed over (`Text.Scan.fieldName_of_showsNumber`).
-/

namespace Protobuf

open Build

namespace Text

/-! ## Digits in front of a place -/

/-- Behind blanks the decimal digits of a number stand in front of the place, and then other
bytes. -/
structure Cursor.ShowsNumber (c : Cursor) (digits : List Char) (n : Nat) (more : Bytes) :
    Prop where
  /-- The digits spell the number; there may be zeros in front. -/
  spelled : Spelled 10 digits n
  rest : c.settle.rest = digits.map byte ++ more
  /-- No more digits follow. -/
  ends : ∀ b ∈ more.head?, isDigit b = false

/-- The number can be that of a field, and the bytes behind its digits do not go on with a name. -/
def NamesField (n : Nat) (more : Bytes) : Prop :=
  1 ≤ n ∧ n ≤ 2 ^ 29 - 1 ∧ ∀ b ∈ more.head?, isNameByte b = false

/-- What is wrong with digits that do not name a field. -/
def numberFault (digits : List Char) (more : Bytes) : TextFault :=
  if more.head?.any isNameByte then .invalidFieldNumber
  else .fieldNumberRange (String.ofList digits)

/-- Digits that stand in front of the place do not name a field; the error tells the place behind
them. -/
def numberError (c : Cursor) (digits : List Char) (more : Bytes) : Error :=
  let behind := c.settle.advance digits.length
  .malformedText behind.line (behind.position - behind.lineStart + 1) (numberFault digits more)

theorem IsDigit.toNat_sub {d : Char} {value : Nat} (h : IsDigit 10 d value) :
    d.toNat - 48 = value := by
  have all : ∀ value < 10, value.digitChar.toNat - 48 = value ∧
      value.digitChar.toUpper.toNat - 48 = value := by decide
  obtain ⟨hsmall, hcapital⟩ := all value h.1
  rcases h.2 with rfl | rfl
  · exact hsmall
  · exact hcapital

variable {c : Cursor} {digits : List Char} {n : Nat} {more : Bytes}

theorem Spelled.isDigit (h : Spelled 10 digits n) : ∀ d ∈ digits, d.isDigit = true := by
  obtain ⟨-, values, hvalues, -⟩ := h
  induction hvalues with
  | nil => exact fun d hd => absurd hd List.not_mem_nil
  | cons hd _ ih => exact List.forall_mem_cons.2 ⟨hd.isDigit (by decide), ih⟩

theorem map_toNat_sub {values : List Nat} (h : List.Forall₂ (IsDigit 10) digits values) :
    digits.map (fun d => d.toNat - 48) = values := by
  induction h with
  | nil => rfl
  | cons hd _ ih => rw [List.map_cons, hd.toNat_sub, ih]

/-- The digits are added up to the number that they spell. -/
theorem Spelled.decimalValue (h : Spelled 10 digits n) :
    Scan.decimalValue (digits.map byte) = n := by
  have hdigits := h.isDigit
  obtain ⟨-, values, hvalues, rfl⟩ := h
  rw [Scan.decimalValue_map hdigits, ← ofDigits_map, map_toNat_sub hvalues, ofDigits_eq]

theorem isDigit_of_spelled (h : Spelled 10 digits n) :
    ∀ b ∈ digits.map byte, isDigit b = true := by
  intro b hb
  obtain ⟨d, hd, rfl⟩ := List.mem_map.1 hb
  exact isDigit_byte (h.isDigit d hd)

/-- All digits spell a number. -/
theorem spelled_of_isDigit (hne : digits ≠ []) (h : ∀ d ∈ digits, d.isDigit = true) :
    Spelled 10 digits (Nat.ofDigitChars 10 digits 0) := by
  refine ⟨hne, digits.map fun d => d.toNat - 48, ?_, ?_⟩
  · rw [List.forall₂_map_right_iff, List.forall₂_same]
    intro d hd
    have all : ∀ value < 10, Char.ofNat (48 + value) = value.digitChar := by decide
    obtain ⟨hlow, hhigh⟩ := range_of_isDigit (h d hd)
    refine ⟨by omega, .inl ?_⟩
    rw [← all _ (by omega), Nat.add_sub_cancel' hlow, Char.ofNat_toNat]
  · rw [← ofDigits_eq, ofDigits_map]

/-- Bytes that are digits are those of characters that are. -/
theorem exists_map_byte {bytes : Bytes} (h : ∀ b ∈ bytes, isDigit b = true) :
    ∃ digits : List Char, bytes = digits.map byte ∧ ∀ d ∈ digits, d.isDigit = true := by
  have hchar : ∀ b ∈ bytes, byte (Char.ofNat b.toNat) = b ∧
      (Char.ofNat b.toNat).isDigit = true := by
    intro b hb
    have all : ∀ value < 10, byte (Char.ofNat (48 + value)) = UInt8.ofNat (48 + value) ∧
        (Char.ofNat (48 + value)).isDigit = true := by decide
    obtain ⟨hlow, hhigh⟩ := Bool.and_eq_true_iff.1 (h b hb)
    have hlow : 48 ≤ b.toNat := UInt8.le_iff_toNat_le.1 (of_decide_eq_true hlow)
    have hhigh : b.toNat ≤ 57 := UInt8.le_iff_toNat_le.1 (of_decide_eq_true hhigh)
    have hb := all (b.toNat - 48) (by omega)
    rwa [Nat.add_sub_cancel' hlow, UInt8.ofNat_toNat] at hb
  refine ⟨bytes.map fun b => Char.ofNat b.toNat, ?_, fun d hd => ?_⟩
  · rw [List.map_map]
    exact ((List.map_congr_left fun b hb => (hchar b hb).1).trans (List.map_id bytes)).symm
  · obtain ⟨b, hb, rfl⟩ := List.mem_map.1 hd
    exact (hchar b hb).2

namespace Cursor

/-- Wherever a digit comes next, a number is shown. -/
theorem exists_showsNumber (h : c.settle.rest.head?.any isDigit = true) :
    ∃ digits n more, c.ShowsNumber digits n more := by
  have hne : c.settle.rest.takeWhile isDigit ≠ [] :=
    List.ne_nil_of_length_pos (Scan.length_takeWhile_pos h)
  obtain ⟨digits, hbytes, hdigits⟩ := exists_map_byte fun b hb => List.mem_takeWhile_imp hb
  rw [hbytes] at hne
  refine ⟨digits, _, c.settle.rest.dropWhile isDigit,
    spelled_of_isDigit (mt List.map_eq_nil_iff.2 hne) hdigits, ?_, fun b hb => ?_⟩
  · rw [← hbytes, List.takeWhile_append_dropWhile]
  · have hstop := List.head?_dropWhile_not isDigit c.settle.rest
    rw [Option.mem_def.1 hb] at hstop
    exact Bool.eq_false_iff.2 (by simpa using hstop)

variable (h : c.ShowsNumber digits n more)
include h

theorem ShowsNumber.takeWhile : c.settle.rest.takeWhile isDigit = digits.map byte := by
  have hmore : more.takeWhile isDigit = [] := by
    cases hcases : more with
    | nil => rfl
    | cons b rest =>
      have hb : isDigit b = false := h.ends b (by rw [hcases]; rfl)
      exact List.takeWhile_cons_of_neg (Bool.eq_false_iff.1 hb)
  rw [h.rest, List.takeWhile_append_of_pos (isDigit_of_spelled h.spelled), hmore, List.append_nil]

/-- Behind the digits stand the other bytes. -/
theorem ShowsNumber.rest_advance : (c.settle.advance digits.length).rest = more := by
  show c.settle.rest.drop digits.length = more
  rw [h.rest, List.drop_left' (List.length_map byte)]

theorem ShowsNumber.exists_digit : ∃ b, c.settle.rest.head? = some b ∧ isDigit b = true := by
  obtain ⟨d, rest, rfl, hd⟩ := h.spelled.exists_cons (by decide)
  exact ⟨byte d, by rw [h.rest]; rfl, isDigit_byte hd⟩

end Cursor

namespace Scan

/-- All digits are read, and then the checks are made. -/
theorem run_fieldName (h : c.ShowsNumber digits n more) :
    fieldName c = (do
      if more.head?.any isNameByte then fail .invalidFieldNumber
      if n = 0 ∨ maxFieldNumber < n then fail (.fieldNumberRange (String.ofList digits))
      return .number n : Scan FieldName) (c.settle.advance digits.length) := by
  obtain ⟨b, hhead, hb⟩ := h.exists_digit
  have hspan : span isDigit c.settle =
      .ok (digits.map byte) (c.settle.advance digits.length) := by
    show EStateM.Result.ok (c.settle.rest.takeWhile isDigit)
      (c.settle.advance (c.settle.rest.takeWhile isDigit).length) = _
    rw [h.takeWhile, List.length_map]
  have hshown : ofAscii (digits.map byte) = String.ofList digits := by
    refine ofAscii_map_byte fun d hd => ?_
    have hrange := range_of_isDigit (h.spelled.isDigit d hd)
    omega
  rw [fieldName, run_bind_of_ok (run_peek c), hhead, Option.any_some, if_pos hb, fieldNumber_eq,
    run_bind_of_ok hspan, run_bind_of_ok (run_get _), h.rest_advance]
  dsimp only
  rw [h.spelled.decimalValue, hshown]

theorem namesField_iff :
    NamesField n more ↔ ¬ (n = 0 ∨ maxFieldNumber < n) ∧ more.head?.any isNameByte = false := by
  have hrange : ¬ (n = 0 ∨ maxFieldNumber < n) ↔ 1 ≤ n ∧ n ≤ 2 ^ 29 - 1 := by
    have hmax : maxFieldNumber = 2 ^ 29 - 1 := rfl
    omega
  have hapart : more.head?.any isNameByte = false ↔ ∀ b ∈ more.head?, isNameByte b = false := by
    cases more.head? with
    | none => simp
    | some b => simp
  rw [hrange, hapart, and_assoc, NamesField]

theorem fieldName_of_namesField (h : c.ShowsNumber digits n more) (hnames : NamesField n more) :
    fieldName c = .ok (.number n) (c.settle.advance digits.length) := by
  obtain ⟨hvalid, hapart⟩ := namesField_iff.1 hnames
  rw [run_fieldName h, if_neg (Bool.eq_false_iff.1 hapart), if_neg hvalid]
  rfl

theorem fieldName_of_not_namesField (h : c.ShowsNumber digits n more)
    (hnames : ¬ NamesField n more) :
    fieldName c = .error (numberError c digits more) (c.settle.advance digits.length) := by
  rw [run_fieldName h]
  by_cases hapart : more.head?.any isNameByte = true
  · rw [if_pos hapart, numberError, numberFault, if_pos hapart]
    rfl
  · have hvalid : n = 0 ∨ maxFieldNumber < n := by
      by_contra hvalid
      exact hnames (namesField_iff.2 ⟨hvalid, Bool.eq_false_iff.2 hapart⟩)
    rw [if_neg hapart, if_pos hvalid, numberError, numberFault, if_neg hapart]
    rfl

/-- Digits that do not name a field stop wherever names are read. -/
theorem failsAt_of_not_namesField (h : c.ShowsNumber digits n more)
    (hnames : ¬ NamesField n more) :
    FailsAt c (numberError c digits more) (c.settle.advance digits.length) := by
  obtain ⟨b, hhead, hb⟩ := h.exists_digit
  refine ⟨⟨b, hhead, ?_⟩, fieldName_of_not_namesField h hnames⟩
  rw [startsName, isNameByte_of_isDigit hb, Bool.true_or]

/-- A field is named by the number that the digits spell, whatever their count, exactly if a field
can have that number and the digits do not run into a name; nothing but the digits is read. Digits
that name no field are an error. The error stands wherever such digits are a name: among the fields
that are merged into a message, whatever the options ignore, among fields that are passed over, and
for every text in which parsing comes to them. -/
theorem fieldName_of_showsNumber (h : c.ShowsNumber digits n more) :
    (∀ name d, fieldName c = .ok name d ↔
      NamesField n more ∧ name = .number n ∧ d = c.settle.advance digits.length) ∧
    (¬ NamesField n more →
      fieldName c = .error (numberError c digits more) (c.settle.advance digits.length) ∧
      (∀ (options : ParseOptions) (close? : Option Char) (m : Message),
        (∀ close ∈ close?, EndsBlock close) →
        mergeBody options close? (m, c) =
          .error (numberError c digits more) (m, c.settle.advance digits.length)) ∧
      (∀ (limit : Nat) (close : Char), EndsBlock close →
        passFields limit close c =
          .error (numberError c digits more) (c.settle.advance digits.length)) ∧
      ∀ (options : ParseOptions) (type : MessageType) (text : String),
        ComesToName options (.new type, .new text) c →
        Message.parse options type text = .error (numberError c digits more)) := by
  refine ⟨fun name d => ⟨fun hrun => ?_, ?_⟩, fun hnames => ?_⟩
  · by_cases hnames : NamesField n more
    · rw [fieldName_of_namesField h hnames] at hrun
      cases hrun
      exact ⟨hnames, rfl, rfl⟩
    · rw [fieldName_of_not_namesField h hnames] at hrun
      cases hrun
  · rintro ⟨hnames, rfl, rfl⟩
    exact fieldName_of_namesField h hnames
  · have hfails := failsAt_of_not_namesField h hnames
    exact ⟨hfails.fails, fun options close? m hclose => hfails.mergeBody options hclose m,
      fun limit close hclose => hfails.passFields limit hclose,
      fun options type text hcomes => Message.parse_error_of_comesToName hcomes hfails⟩

/-- Words of 64 bits would wrap around to field number one; the digits stand in a block that is
passed over. Zeros in front of another number make no difference. -/
theorem fieldName_of_wrapping_number :
    Message.parse (ParseOptions.ignoringAll {}) .empty "2 \x7b 18446744073709551617: 1 \x7d" =
      .error (.malformedText 1 25 (.fieldNumberRange "18446744073709551617")) ∧
    fieldName (.new "0000000000000000000000007: 1") =
      .ok (.number 7) ((Cursor.new "0000000000000000000000007: 1").advance 25) := by
  have hcolon : ∀ b ∈ some (byte ':'), isNameByte b = false := by
    rintro b ⟨⟩
    decide
  have hend : ∀ b ∈ some (byte ':'), isDigit b = false := by
    rintro b ⟨⟩
    decide
  have hshows : Cursor.ShowsNumber
      ⟨Utf8.encode " 18446744073709551617: 1 \x7d", 3, 1, 0, 1, false⟩
      "18446744073709551617".toList 18446744073709551617 (Utf8.encode ": 1 \x7d") :=
    ⟨spelled_of_isDigit (by decide) (List.all_eq_true.1 rfl), rfl, hend⟩
  have hnames : ¬ NamesField 18446744073709551617 (Utf8.encode ": 1 \x7d") :=
    fun h => absurd h.2.1 (by decide)
  have hfield : FieldAt none (.number 2) 1 (.new "2 \x7b 18446744073709551617: 1 \x7d")
      ⟨Utf8.encode "\x7b 18446744073709551617: 1 \x7d", 2, 1, 0, 0, false⟩ :=
    ⟨_, _, rfl, ⟨_, rfl, rfl⟩, rfl⟩
  have hopen : Opens 10 '\x7d'
      ⟨Utf8.encode "\x7b 18446744073709551617: 1 \x7d", 2, 1, 0, 0, false⟩
      ⟨Utf8.encode " 18446744073709551617: 1 \x7d", 3, 1, 0, 1, false⟩ :=
    ⟨_, rfl, rfl⟩
  have hzeros : (Cursor.new "0000000000000000000000007: 1").ShowsNumber
      "0000000000000000000000007".toList 7 (Utf8.encode ": 1") :=
    ⟨spelled_of_isDigit (by decide) (List.all_eq_true.1 rfl), rfl, hend⟩
  refine ⟨((fieldName_of_showsNumber hshows).2 hnames).2.2.2 _ _ _ ?_, ?_⟩
  · exact ⟨_, _, .refl, .passed hfield rfl rfl (.fields hopen) .refl⟩
  · exact ((fieldName_of_showsNumber hzeros).1 _ _).2 ⟨⟨by decide, by decide, hcolon⟩, rfl, rfl⟩

end Scan

end Text

end Protobuf
