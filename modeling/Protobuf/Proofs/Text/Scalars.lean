import Protobuf.Proofs.ScalarRoundTrip
import Protobuf.Proofs.Text.Literals
import Protobuf.Text.Parsing
import Protobuf.Text.Printing

/-!
# Reading printed scalars back

What is printed for a scalar is read as that scalar (`Scan.reads_scalar`): integers by their decimal
digits, truth values as words, values of enumerations by name or by number, strings and bytes as
literals. Floating-point numbers are left out.
-/

namespace Protobuf

open Build

namespace Text

/-! ## Decimal digits -/

theorem range_of_isDigit {c : Char} (h : c.isDigit = true) :
    48 ≤ c.toNat ∧ c.toNat ≤ 57 := by
  simp only [Char.isDigit, Bool.and_eq_true, decide_eq_true_eq] at h
  exact ⟨UInt32.le_iff_toNat_le.1 h.1, UInt32.le_iff_toNat_le.1 h.2⟩

theorem byte_range_of_isDigit {c : Char} (h : c.isDigit = true) :
    48 ≤ byte c ∧ byte c ≤ 57 := by
  have hrange := range_of_isDigit h
  rw [UInt8.le_iff_toNat_le, UInt8.le_iff_toNat_le, toNat_byte (by omega)]
  exact hrange

theorem isDigit_byte {c : Char} (h : c.isDigit = true) : isDigit (byte c) = true := by
  obtain ⟨hlow, hhigh⟩ := byte_range_of_isDigit h
  rw [isDigit, decide_eq_true hlow, decide_eq_true hhigh]
  rfl

theorem isNameChar_of_isDigit {c : Char} (h : c.isDigit = true) : isNameChar c = true := by
  have hrange := range_of_isDigit h
  refine isCharOf_iff.2 ⟨by omega, ?_⟩
  rw [isNameByte, isDigit_byte h, Bool.or_true]

theorem digit?_of_isDigit {c : Char} (h : c.isDigit = true) :
    digit? 10 c = some (c.toNat - 48) := by
  have hrange := range_of_isDigit h
  have hlt : c.toNat - 48 < 10 := by omega
  rw [digit?, if_pos (by omega), Scan.digitValue?, Bytes.hexValue?,
    if_pos (byte_range_of_isDigit h), toNat_byte (by omega), Option.filter_some,
    if_pos (decide_eq_true hlt)]

theorem mapM_digit? {cs : List Char} (h : ∀ c ∈ cs, c.isDigit = true) :
    cs.mapM (digit? 10) = some (cs.map fun c => c.toNat - 48) := by
  induction cs with
  | nil => rfl
  | cons c cs ih =>
    obtain ⟨hc, hcs⟩ := List.forall_mem_cons.1 h
    rw [List.mapM_cons, digit?_of_isDigit hc, ih hcs]
    rfl

theorem ofDigits_map (cs : List Char) :
    ofDigits 10 (cs.map fun c => c.toNat - 48) = Nat.ofDigitChars 10 cs 0 := by
  rw [ofDigits, Nat.ofDigitChars, List.foldl_map]
  congr 1
  funext value c
  rw [Nat.mul_comm]
  rfl

theorem dropPlus_of_head?_ne {cs : List Char} (h : cs.head? ≠ some '+') : dropPlus cs = cs := by
  unfold dropPlus
  split
  · exact absurd rfl h
  · rfl

/-- The decimal digits of a number spell that number. -/
theorem natural?_toDigits {n : Nat} (h : n < 2 ^ 64) :
    natural? 10 (Nat.toDigits 10 n) = some n := by
  have hdigits : ∀ c ∈ Nat.toDigits 10 n, c.isDigit = true :=
    fun c hc => Nat.isDigit_of_mem_toDigits (by decide) (by decide) hc
  have hne : ¬ (Nat.toDigits 10 n).isEmpty = true :=
    fun he => Nat.toDigits_ne_nil (List.isEmpty_iff.1 he)
  have hplus : (Nat.toDigits 10 n).head? ≠ some '+' := fun hhead =>
    absurd (hdigits '+' (List.mem_of_mem_head? hhead)) (by decide)
  rw [natural?, dropPlus_of_head?_ne hplus, if_neg hne, mapM_digit? hdigits, Option.map_some,
    ofDigits_map, Nat.ofDigitChars_toDigits (by decide) (by decide), Option.filter_some]
  exact if_pos (decide_eq_true h)

/-- Only zero starts with the digit zero. -/
theorem head?_toDigits_ne {n : Nat} (h : n ≠ 0) : (Nat.toDigits 10 n).head? ≠ some '0' := by
  induction n using Nat.strongRecOn with
  | ind n ih =>
    rw [Nat.toDigits_eq_if (by decide)]
    by_cases hn : n < 10
    · have all : ∀ n < 10, n ≠ 0 → [n.digitChar].head? ≠ some '0' := by decide
      rw [if_pos hn]
      exact all n hn h
    · rw [if_neg hn, List.head?_append]
      have hhead := ih (n / 10) (by omega) (by omega)
      cases hdigits : (Nat.toDigits 10 (n / 10)).head? with
      | none => exact absurd (List.head?_eq_none_iff.1 hdigits) Nat.toDigits_ne_nil
      | some c =>
        rw [hdigits] at hhead
        exact hhead

theorem magnitude?_of_head?_ne {cs : List Char} (h : cs.head? ≠ some '0') :
    magnitude? cs = natural? 10 cs := by
  unfold magnitude?
  split
  · exact absurd rfl h
  · exact absurd rfl h
  · exact absurd rfl h
  · rfl

theorem magnitude?_toDigits {n : Nat} (h : n < 2 ^ 64) :
    magnitude? (Nat.toDigits 10 n) = some n := by
  by_cases hn : n = 0
  · rw [hn]
    decide
  · rw [magnitude?_of_head?_ne (head?_toDigits_ne hn), natural?_toDigits h]

/-! ## Integers -/

theorem isDigit_of_head?_toDigits {n : Nat} {c : Char} {cs : List Char}
    (h : Nat.toDigits 10 n = c :: cs) : c.isDigit = true :=
  Nat.isDigit_of_mem_toDigits (by decide) (by decide) (h ▸ List.mem_cons_self)

theorem splitSign_toDigits (n : Nat) :
    splitSign (Nat.toDigits 10 n) = (false, Nat.toDigits 10 n) := by
  cases hdigits : Nat.toDigits 10 n with
  | nil => exact absurd hdigits Nat.toDigits_ne_nil
  | cons c cs =>
    have hc := isDigit_of_head?_toDigits hdigits
    unfold splitSign
    split
    · rename_i heq
      obtain ⟨rfl, -⟩ := List.cons.inj heq
      exact absurd hc (by decide)
    · rfl

/-- A natural number is printed as a word that spells it. -/
theorem integer?_toString_nat {n : Nat} (h : n < 2 ^ 64) :
    Scan.IsWord (toString n) ∧ integer? (toString n) = some (false, n) := by
  have htext : (toString n).toList = Nat.toDigits 10 n := Nat.toList_repr
  refine ⟨⟨Nat.toDigits 10 n, Nat.toDigits_ne_nil, fun c hc => ?_, Or.inl htext⟩, ?_⟩
  · exact isNameChar_of_isDigit (Nat.isDigit_of_mem_toDigits (by decide) (by decide) hc)
  · rw [integer?, htext, splitSign_toDigits]
    dsimp only
    rw [magnitude?_toDigits h]
    rfl

/-- An integer is printed as a word that spells it. -/
theorem integer?_toString {i : Int} (h : i.natAbs < 2 ^ 64) :
    Scan.IsWord (toString i) ∧
      ∃ negative magnitude, integer? (toString i) = some (negative, magnitude) ∧
        signed negative magnitude = i := by
  cases i with
  | ofNat n =>
    obtain ⟨hword, hspells⟩ := integer?_toString_nat (n := n) h
    exact ⟨hword, false, n, hspells, rfl⟩
  | negSucc n =>
    have htext : (toString (Int.negSucc n)).toList = '-' :: Nat.toDigits 10 (n + 1) := by
      show ("-" ++ Nat.repr (n + 1)).toList = _
      rw [String.toList_append, Nat.toList_repr]
      rfl
    refine ⟨⟨Nat.toDigits 10 (n + 1), Nat.toDigits_ne_nil, fun c hc => ?_, Or.inr htext⟩,
      true, n + 1, ?_, rfl⟩
    · exact isNameChar_of_isDigit (Nat.isDigit_of_mem_toDigits (by decide) (by decide) hc)
    · have hmagnitude := magnitude?_toDigits (n := n + 1) h
      rw [integer?, htext]
      show (magnitude? (Nat.toDigits 10 (n + 1))).map _ = _
      rw [hmagnitude]
      rfl

/-- An integer is printed as digits, behind a minus sign or not. -/
theorem exists_digits_toString (i : Int) :
    ∃ cs, cs ≠ [] ∧ (∀ c ∈ cs, c.isDigit = true) ∧
      ((toString i).toList = cs ∨ (toString i).toList = '-' :: cs) := by
  have hdigits : ∀ n, ∀ c ∈ Nat.toDigits 10 n, c.isDigit = true :=
    fun n c hc => Nat.isDigit_of_mem_toDigits (by decide) (by decide) hc
  cases i with
  | ofNat n => exact ⟨_, Nat.toDigits_ne_nil, hdigits n, .inl Nat.toList_repr⟩
  | negSucc n =>
    refine ⟨_, Nat.toDigits_ne_nil, hdigits (n + 1), .inr ?_⟩
    show ("-" ++ Nat.repr (n + 1)).toList = _
    rw [String.toList_append, Nat.toList_repr]
    rfl

theorem exists_toList_toString (i : Int) :
    ∃ c cs, (toString i).toList = c :: cs ∧ (c.isDigit = true ∨ c = '-') := by
  obtain ⟨digits, hne, hdigits, htext | htext⟩ := exists_digits_toString i
  · cases digits with
    | nil => exact absurd rfl hne
    | cons c cs => exact ⟨c, cs, htext, Or.inl (hdigits c List.mem_cons_self)⟩
  · exact ⟨'-', digits, htext, Or.inr rfl⟩

namespace Scan

variable {depth : Nat} {bytes more : Bytes} {token : String}

theorem run_requireColon {c : Cursor} (hc : c.Shows (depth, true) bytes) :
    requireColon c = .ok () c := by
  have hcolon : c.sawColon = true := (Prod.mk.inj hc.2).2
  rw [requireColon, run_bind_of_ok (run_get c), hcolon]
  rfl

theorem reads_requireColon : Reads (depth, true) requireColon bytes () bytes :=
  fun c hc => ⟨c, run_requireColon hc, hc⟩

theorem reads_pure {setting : Nat × Bool} {α : Type} (a : α) :
    Reads setting (pure a) bytes a bytes :=
  fun c hc => ⟨c, rfl, hc⟩

theorem reads_numberToken {setting : Nat × Bool} (hword : IsWord token)
    (h : strip bytes = Utf8.encode token ++ byte '\n' :: more) :
    Reads setting numberToken bytes token (byte '\n' :: more) :=
  (finds_numberToken hword (endsNumber_cons (by decide)) h).reads

theorem reads_integer {setting : Nat × Bool} (hword : IsWord token) {value : Bool × Nat}
    (hspells : integer? token = some value)
    (h : strip bytes = Utf8.encode token ++ byte '\n' :: more) :
    Reads setting integer bytes value (byte '\n' :: more) := by
  refine (reads_numberToken hword h).bind ?_
  rw [hspells]
  exact reads_pure value

theorem reads_signedInteger {low high i : Int} (hi : i.natAbs < 2 ^ 64) (hlow : low ≤ i)
    (hhigh : i ≤ high) (h : strip bytes = Utf8.encode (toString i) ++ byte '\n' :: more) :
    Reads (depth, true) (signedInteger low high) bytes i (byte '\n' :: more) := by
  obtain ⟨hword, negative, magnitude, hspells, hsigned⟩ := integer?_toString hi
  refine reads_requireColon.bind ((reads_integer hword hspells h).bind ?_)
  dsimp only
  rw [hsigned, if_neg (by omega)]
  exact reads_pure i

theorem reads_unsignedInteger {bound n : Nat} (hn : n < 2 ^ 64) (hbound : n < bound)
    (h : strip bytes = Utf8.encode (toString n) ++ byte '\n' :: more) :
    Reads (depth, true) (unsignedInteger bound) bytes n (byte '\n' :: more) := by
  obtain ⟨hword, hspells⟩ := integer?_toString_nat hn
  refine reads_requireColon.bind ((reads_integer hword hspells h).bind ?_)
  dsimp only
  rw [if_neg (by simp; omega)]
  exact reads_pure n

theorem reads_int32 (v : Int32)
    (h : strip bytes = Utf8.encode (toString v.toInt) ++ byte '\n' :: more) :
    Reads (depth, true) int32 bytes v (byte '\n' :: more) := by
  have hlow := v.le_toInt
  have hhigh := v.toInt_lt
  have hread : Reads (depth, true) int32 bytes (Int32.ofInt v.toInt) (byte '\n' :: more) :=
    (reads_signedInteger (by omega) v.minValue_le_toInt v.toInt_le h).map Int32.ofInt
  rwa [v.ofInt_toInt] at hread

theorem reads_int64 (v : Int64)
    (h : strip bytes = Utf8.encode (toString v.toInt) ++ byte '\n' :: more) :
    Reads (depth, true) int64 bytes v (byte '\n' :: more) := by
  have hlow := v.le_toInt
  have hhigh := v.toInt_lt
  have hread : Reads (depth, true) int64 bytes (Int64.ofInt v.toInt) (byte '\n' :: more) :=
    (reads_signedInteger (by omega) v.minValue_le_toInt v.toInt_le h).map Int64.ofInt
  rwa [v.ofInt_toInt] at hread

theorem reads_uint32 (v : UInt32)
    (h : strip bytes = Utf8.encode (toString v.toNat) ++ byte '\n' :: more) :
    Reads (depth, true) uint32 bytes v (byte '\n' :: more) := by
  have hlt := v.toNat_lt
  have hread : Reads (depth, true) uint32 bytes (UInt32.ofNat v.toNat) (byte '\n' :: more) :=
    (reads_unsignedInteger (by omega) hlt h).map UInt32.ofNat
  rwa [UInt32.ofNat_toNat] at hread

theorem reads_uint64 (v : UInt64)
    (h : strip bytes = Utf8.encode (toString v.toNat) ++ byte '\n' :: more) :
    Reads (depth, true) uint64 bytes v (byte '\n' :: more) := by
  have hread : Reads (depth, true) uint64 bytes (UInt64.ofNat v.toNat) (byte '\n' :: more) :=
    (reads_unsignedInteger v.toNat_lt v.toNat_lt h).map UInt64.ofNat
  rwa [UInt64.ofNat_toNat] at hread

/-! ## Words and literals -/

theorem reads_bool (v : Bool)
    (h : strip bytes = Utf8.encode (if v then "true" else "false") ++ byte '\n' :: more) :
    Reads (depth, true) bool bytes v (byte '\n' :: more) := by
  have hword : IsWord (if v then "true" else "false") := by
    cases v with
    | true => exact isWord_of_all (by decide) (by decide)
    | false => exact isWord_of_all (by decide) (by decide)
  have hspells : bool? (if v then "true" else "false") = some v := by cases v <;> decide
  refine reads_requireColon.bind ((reads_numberToken hword h).bind ?_)
  rw [hspells]
  exact reads_pure v

theorem follows_newline (h : Follows more) : Follows (byte '\n' :: more) := by
  rwa [Follows, strip_cons_of_isSpace (by decide)]

theorem reads_quoted {escaped : String} {value : Bytes}
    (hstand : StandFor (byte '"') (Utf8.encode escaped) value)
    (h : strip bytes = Utf8.encode (quote escaped) ++ byte '\n' :: more) (hmore : Follows more) :
    Reads (depth, true) Scan.bytes bytes value (byte '\n' :: more) := by
  rw [encode_quote, List.cons_append, List.append_assoc, List.singleton_append] at h
  exact reads_requireColon.bind (reads_stringLiteral hstand h (follows_newline hmore))

theorem reads_bytes (v : Bytes)
    (h : strip bytes = Utf8.encode (quote (escapeBytes v)) ++ byte '\n' :: more)
    (hmore : Follows more) : Reads (depth, true) Scan.bytes bytes v (byte '\n' :: more) :=
  reads_quoted (standFor_escapeBytes v) h hmore

theorem reads_string (v : String)
    (h : strip bytes = Utf8.encode (quote (escapeString v)) ++ byte '\n' :: more)
    (hmore : Follows more) : Reads (depth, true) string bytes v (byte '\n' :: more) := by
  refine (reads_quoted (standFor_escapeString v) h hmore).bind ?_
  rw [Utf8.decode_encode]
  exact reads_pure v

/-- The names of values are names as they may stand in text. -/
theorem isIdentifier_of_name? {type : EnumType} {v : Int32} {name : String}
    (h : type.name? v = some name) : isIdentifier name.toList = true := by
  have all : ∀ symbol ∈ type.symbols, isIdentifier symbol.1.toList = true := by
    cases type <;> decide
  obtain ⟨symbol, hsymbol, rfl⟩ := Option.map_eq_some_iff.1 h
  exact all symbol (List.mem_of_find?_eq_some hsymbol)

/-- No name starts where an integer is printed, and no comment. -/
theorem isNameStart_of_head?_toString {i : Int} {rest : Bytes} {b : UInt8}
    (hb : b ∈ (Utf8.encode (toString i) ++ rest).head?) :
    isNameStart b = false ∧ b ≠ byte '#' := by
  obtain ⟨c, cs, hcs, hc⟩ := exists_toList_toString i
  have hlt : c.toNat < 128 := by
    rcases hc with hc | rfl
    · have hrange := range_of_isDigit hc
      omega
    · decide
  rw [Utf8.encode, hcs, List.flatMap_cons, utf8EncodeChar_of_lt hlt] at hb
  obtain rfl := Option.some.inj hb
  rcases hc with hc | rfl
  · have hdigit := isDigit_byte hc
    refine ⟨?_, ne_of_test hdigit (by decide)⟩
    cases hstart : isNameStart (byte c) with
    | false => rfl
    | true =>
      rw [not_isDigit_of_isNameStart hstart] at hdigit
      cases hdigit
  · decide

theorem reads_enum (type : EnumType) (v : Int32)
    (h : strip bytes =
      Utf8.encode ((type.name? v).getD (toString v.toInt)) ++ byte '\n' :: more) :
    Reads (depth, true) (enum type) bytes v (byte '\n' :: more) := by
  refine reads_requireColon.bind ?_
  cases hname : type.name? v with
  | some name =>
    rw [hname, Option.getD_some] at h
    have hidentifier := isIdentifier_of_name? hname
    have hend : ∀ b ∈ (byte '\n' :: more).head?, isNameByte b = false := by
      intro b hb
      obtain rfl := Option.some.inj hb
      decide
    refine (finds_identifier hidentifier h hend).reads.bind ?_
    dsimp only
    rw [type.number?_of_name? hname]
    exact reads_pure v
  | none =>
    rw [hname, Option.getD_none] at h
    have hlow := v.le_toInt
    have hhigh := v.toInt_lt
    have hlow' := v.minValue_le_toInt
    have hhigh' := v.toInt_le
    obtain ⟨hword, negative, magnitude, hspells, hsigned⟩ :=
      integer?_toString (i := v.toInt) (by omega)
    have hhead : ∀ b ∈ (strip bytes).head?, isNameStart b = false ∧ b ≠ byte '#' := by
      intro b hb
      rw [h] at hb
      exact isNameStart_of_head?_toString hb
    refine (finds_no_identifier (fun heq => (hhead _ heq).2 rfl)
      fun b hb => (hhead b hb).1).reads.bind ?_
    refine (reads_integer hword hspells ((strip_strip bytes).trans h)).bind ?_
    dsimp only
    rw [hsigned, if_neg (by omega), v.ofInt_toInt]
    exact reads_pure v

end Scan

end Text

/-- The scalar is a floating-point number. -/
def Scalar.isFloating : Scalar → Bool
  | float _ | double _ => true
  | _ => false

namespace Text

/-- The byte may start a printed scalar. -/
def startsScalar (b : UInt8) : Bool := isNameByte b || b = byte '-' || b = byte '"'

theorem startsScalar_of_isNameChar {c : Char} (h : isNameChar c = true) :
    startsScalar (byte c) = true := by
  rw [startsScalar, (isCharOf_iff.1 h).2, Bool.true_or, Bool.true_or]

theorem exists_head_toString (i : Int) :
    ∃ b rest, Utf8.encode (toString i) = b :: rest ∧ startsScalar b = true := by
  obtain ⟨c, cs, hcs, hc⟩ := exists_toList_toString i
  have hstart : startsScalar (byte c) = true ∧ c.toNat < 128 := by
    rcases hc with hc | rfl
    · have hname := isNameChar_of_isDigit hc
      exact ⟨startsScalar_of_isNameChar hname, (isCharOf_iff.1 hname).1⟩
    · decide
  refine ⟨byte c, cs.flatMap String.utf8EncodeChar, ?_, hstart.1⟩
  rw [Utf8.encode, hcs, List.flatMap_cons, utf8EncodeChar_of_lt hstart.2, List.singleton_append]

theorem exists_head_scalarText {x : Scalar} (hx : x.isFloating = false) :
    ∃ b rest, Utf8.encode (scalarText x) = b :: rest ∧ startsScalar b = true := by
  cases x with
  | int32 v | sint32 v | sfixed32 v => exact exists_head_toString v.toInt
  | int64 v | sint64 v | sfixed64 v => exact exists_head_toString v.toInt
  | uint32 v | fixed32 v => exact exists_head_toString v.toNat
  | uint64 v | fixed64 v => exact exists_head_toString v.toNat
  | float v | double v => cases hx
  | bool v =>
    cases v with
    | true => exact ⟨byte 't', _, rfl, by decide⟩
    | false => exact ⟨byte 'f', _, rfl, by decide⟩
  | enum type v =>
    rw [scalarText]
    cases hname : type.name? v with
    | none => exact exists_head_toString v.toInt
    | some name =>
      obtain ⟨c, cs, hcs, -⟩ := isNameStart_of_isIdentifier (Scan.isIdentifier_of_name? hname)
      have hname := isNameChar_of_isIdentifier (Scan.isIdentifier_of_name? hname)
      rw [hcs] at hname
      have hc := hname c List.mem_cons_self
      refine ⟨byte c, cs.flatMap String.utf8EncodeChar, ?_, startsScalar_of_isNameChar hc⟩
      rw [Option.getD_some, Utf8.encode, hcs, List.flatMap_cons,
        utf8EncodeChar_of_lt ((isCharOf_iff.1 hc).1), List.singleton_append]
  | string v => exact ⟨byte '"', _, encode_quote _, by decide⟩
  | bytes v => exact ⟨byte '"', _, encode_quote _, by decide⟩

/-- A printed scalar is read back, if it is no floating-point number. -/
theorem Scan.reads_scalar {depth : Nat} {bytes more : Bytes} {x : Scalar}
    (hx : x.isFloating = false)
    (h : strip bytes = Utf8.encode (scalarText x) ++ byte '\n' :: more) (hmore : Follows more) :
    Reads (depth, true) (scalar x.kind) bytes x (byte '\n' :: more) := by
  cases x with
  | int32 v | sint32 v | sfixed32 v => exact (reads_int32 v h).map _
  | int64 v | sint64 v | sfixed64 v => exact (reads_int64 v h).map _
  | uint32 v | fixed32 v => exact (reads_uint32 v h).map _
  | uint64 v | fixed64 v => exact (reads_uint64 v h).map _
  | float v | double v => cases hx
  | bool v => exact (reads_bool v h).map _
  | enum type v => exact (reads_enum type v h).map _
  | string v => exact (reads_string v h hmore).map _
  | bytes v => exact (reads_bytes v h hmore).map _

end Text

end Protobuf
