import Protobuf.Proofs.Text.Tokens
import Protobuf.Text.Quoted

/-!
# Reading string literals back

Whatever bytes are escaped, and whatever string, the literal is read as these bytes. What is written
for one byte or character stands for it wherever it is inside the quotes, and so does what is
written for many.
-/

namespace Protobuf

open Build

namespace Text

/-! ## Inside the quotes -/

namespace Scan

/-- The bytes that are written in a literal stand for a value: reading them appends it. -/
def StandFor (quote : UInt8) (written value : Bytes) : Prop :=
  ∀ (setting : Nat × Bool) (more read : Bytes) (c : Cursor) (rounds : Nat),
    c.At setting (written ++ more) → c.rest.length < rounds →
    ∃ (c' : Cursor) (rounds' : Nat), c'.At setting more ∧ c'.rest.length < rounds' ∧
      literalBody quote rounds (read, c) = literalBody quote rounds' (read ++ value, c')

theorem standFor_nil (quote : UInt8) : StandFor quote [] [] := by
  intro setting more read c rounds hc hrounds
  exact ⟨c, rounds, hc, hrounds, by rw [List.append_nil]⟩

variable {quote : UInt8} {written value written' value' : Bytes}

theorem StandFor.append (h : StandFor quote written value) (h' : StandFor quote written' value') :
    StandFor quote (written ++ written') (value ++ value') := by
  intro setting more read c rounds hc hrounds
  rw [List.append_assoc] at hc
  obtain ⟨c1, rounds1, hc1, hrounds1, hfirst⟩ := h setting _ read c rounds hc hrounds
  obtain ⟨c2, rounds2, hc2, hrounds2, hrest⟩ := h' setting more (read ++ value) c1 rounds1 hc1
    hrounds1
  exact ⟨c2, rounds2, hc2, hrounds2, by rw [hfirst, hrest, List.append_assoc]⟩

theorem standFor_flatMap {ι : Type} (items : List ι) {f g : ι → Bytes}
    (h : ∀ item ∈ items, StandFor quote (f item) (g item)) :
    StandFor quote (items.flatMap f) (items.flatMap g) := by
  induction items with
  | nil => exact standFor_nil quote
  | cons item items ih =>
    obtain ⟨hitem, hitems⟩ := List.forall_mem_cons.1 h
    exact hitem.append (ih hitems)

theorem run_anyByte {setting : Nat × Bool} {b : UInt8} {more : Bytes} {c : Cursor}
    (hc : c.At setting (b :: more)) :
    anyByte c = .ok (some b) (c.advance 1) ∧ (c.advance 1).At setting more := by
  refine ⟨?_, hc.advance 1⟩
  rw [anyByte, run_bind_of_ok (run_get c), hc.1]
  rfl

/-- A byte that neither ends nor escapes stands for itself. -/
theorem standFor_self {b : UInt8} (hnewline : b ≠ byte '\n') (hescape : b ≠ byte '\\')
    (hquote : b ≠ quote) : StandFor quote [b] [b] := by
  intro setting more read c rounds hc hrounds
  obtain ⟨rounds, rfl⟩ := Nat.exists_eq_succ_of_ne_zero (n := rounds) (by omega)
  obtain ⟨hany, hc'⟩ := run_anyByte hc
  refine ⟨c.advance 1, rounds, hc', ?_, ?_⟩
  · rw [hc.1] at hrounds
    rw [hc'.1]
    exact Nat.lt_of_succ_lt_succ hrounds
  · rw [literalBody, run_bind_of_ok (read_eq_ok.2 ⟨hany, rfl⟩)]
    dsimp only
    rw [if_neg hnewline, if_neg hescape, if_neg hquote, run_bind_of_ok (run_update _ _ _)]

/-- An escape stands for what it is read as. -/
theorem standFor_escape (h : ∀ (setting : Nat × Bool) (more : Bytes) (c : Cursor),
      c.At setting (written ++ more) → ∃ c', escape c = .ok value c' ∧ c'.At setting more) :
    StandFor quote (byte '\\' :: written) value := by
  intro setting more read c rounds hc hrounds
  obtain ⟨rounds, rfl⟩ := Nat.exists_eq_succ_of_ne_zero (n := rounds) (by omega)
  obtain ⟨hany, hc1⟩ := run_anyByte hc
  obtain ⟨c2, hescape, hc2⟩ := h setting more _ hc1
  refine ⟨c2, rounds, hc2, ?_, ?_⟩
  · rw [hc.1, List.cons_append, List.length_cons, List.length_append] at hrounds
    rw [hc2.1]
    omega
  · rw [literalBody, run_bind_of_ok (read_eq_ok.2 ⟨hany, rfl⟩)]
    dsimp only
    rw [if_neg (by decide), if_pos rfl, run_bind_of_ok (read_eq_ok.2 ⟨hescape, rfl⟩),
      run_bind_of_ok (run_update _ _ _)]

/-! ## Escapes -/

theorem letterEscape?_of_escapeLetter? {b : UInt8} {letter : Char}
    (h : escapeLetter? b = some letter) : letterEscape? (byte letter) = some b := by
  have hof : UInt8.ofNat b.toNat = b := UInt8.ofNat_toNat
  unfold escapeLetter? at h
  split at h <;> rename_i hb <;> simp only [Option.some.injEq, reduceCtorEq] at h <;> subst h <;>
    rw [hb] at hof <;> rw [← hof] <;> rfl

theorem run_escape_letter {b value : UInt8} (h : letterEscape? b = some value)
    {setting : Nat × Bool} {more : Bytes} {c : Cursor} (hc : c.At setting ([b] ++ more)) :
    ∃ c', escape c = .ok [value] c' ∧ c'.At setting more := by
  obtain ⟨hany, hc'⟩ := run_anyByte hc
  refine ⟨c.advance 1, ?_, hc'⟩
  rw [escape, run_bind_of_ok hany]
  dsimp only
  rw [h]
  rfl

theorem digitValue?_digitChar :
    ∀ n < 8, digitValue? 8 (byte (Nat.digitChar n)) = some n ∧
      letterEscape? (byte (Nat.digitChar n)) = none := by
  decide

/-- Two octal digits are read as the number that they spell. -/
theorem run_digits {a b : UInt8} {m n : Nat} (ha : digitValue? 8 a = some m)
    (hb : digitValue? 8 b = some n) {setting : Nat × Bool} {more : Bytes} {c : Cursor}
    (hc : c.At setting (a :: b :: more)) :
    digits 8 2 c = .ok (m * 8 + n, 2) (c.advance 2) ∧ (c.advance 2).At setting more := by
  refine ⟨?_, hc.advance 2⟩
  rw [digits, run_bind_of_ok (run_get c), hc.1]
  simp only [List.take, List.map, ha, hb, List.takeWhile, Option.isSome]
  rw [run_bind_of_ok (run_set _ c)]
  simp

theorem run_escape_octal (b : UInt8) {setting : Nat × Bool} {more : Bytes} {c : Cursor}
    (hc : c.At setting ((octal b).map byte ++ more)) :
    ∃ c', escape c = .ok [b] c' ∧ c'.At setting more := by
  have hlt := b.toNat_lt
  obtain ⟨hfirst, hletter⟩ := digitValue?_digitChar (b.toNat / 64) (by omega)
  obtain ⟨hsecond, -⟩ := digitValue?_digitChar (b.toNat / 8 % 8) (by omega)
  obtain ⟨hthird, -⟩ := digitValue?_digitChar (b.toNat % 8) (by omega)
  obtain ⟨hany, hc1⟩ := run_anyByte hc
  obtain ⟨hdigits, hc2⟩ := run_digits hsecond hthird hc1
  have hvalue : (b.toNat / 64) <<< (3 * 2) + (b.toNat / 8 % 8 * 8 + b.toNat % 8) = b.toNat := by
    rw [Nat.shiftLeft_eq]
    omega
  refine ⟨_, ?_, hc2⟩
  rw [escape, run_bind_of_ok hany]
  dsimp only
  rw [hletter]
  dsimp only
  rw [hfirst]
  dsimp only
  rw [run_bind_of_ok hdigits]
  dsimp only
  rw [hvalue, if_neg (by omega), UInt8.ofNat_toNat]
  rfl

end Scan

/-! ## Bytes and characters -/

theorem le_of_mem_utf8EncodeChar {c : Char} (h : ¬ c.toNat < 128) {b : UInt8}
    (hb : b ∈ String.utf8EncodeChar c) : 128 ≤ b.toNat := by
  have hval : c.val.toNat = c.toNat := rfl
  have high : ∀ n : Nat, 128 ≤ n → n < 256 → 128 ≤ (UInt8.ofNat n).toNat := by
    intro n hn hlt
    rwa [UInt8.toNat_ofNat_of_lt' hlt]
  unfold String.utf8EncodeChar at hb
  simp only [hval] at hb
  rw [if_neg (by omega)] at hb
  repeat' split at hb
  all_goals
    simp only [List.mem_cons, List.not_mem_nil, or_false] at hb
    rcases hb with rfl | rfl | rfl | rfl
    all_goals exact high _ (by omega) (by omega)

theorem lt_of_mem_escapeByte {b : UInt8} {c : Char} (h : c ∈ escapeByte b) : c.toNat < 128 := by
  have := (printable_of_mem_escapeByte h).2
  omega

theorem flatMap_utf8EncodeChar {cs : List Char} (h : ∀ c ∈ cs, c.toNat < 128) :
    cs.flatMap String.utf8EncodeChar = cs.map byte := by
  have hs := encode_eq_map_byte (s := String.ofList cs) (by rwa [String.toList_ofList])
  rwa [Utf8.encode, String.toList_ofList] at hs

theorem encode_escapeBytes (bytes : Bytes) :
    Utf8.encode (escapeBytes bytes) = bytes.flatMap fun b => (escapeByte b).map byte := by
  rw [escapeBytes, Utf8.encode, String.toList_ofList, List.flatMap_assoc]
  congr 1
  funext b
  exact flatMap_utf8EncodeChar fun c hc => lt_of_mem_escapeByte hc

theorem encode_escapeString (s : String) :
    Utf8.encode (escapeString s) =
      s.toList.flatMap fun c => (escapeChar c).flatMap String.utf8EncodeChar := by
  rw [escapeString, Utf8.encode, String.toList_ofList, List.flatMap_assoc]

theorem encode_quote (escaped : String) :
    Utf8.encode (quote escaped) = byte '"' :: (Utf8.encode escaped ++ [byte '"']) := by
  rw [quote, Utf8.encode_append, Utf8.encode_append]
  rfl

namespace Scan

/-- What is written for a byte stands for that byte. -/
theorem standFor_escapeByte (b : UInt8) :
    StandFor (byte '"') ((escapeByte b).map byte) [b] := by
  unfold escapeByte
  cases hletter : escapeLetter? b with
  | some letter =>
    have hread := letterEscape?_of_escapeLetter? hletter
    exact standFor_escape fun setting more c hc => run_escape_letter hread hc
  | none =>
    dsimp only
    split
    · rename_i hrange
      have hbyte : byte (Char.ofNat b.toNat) = b := by
        rw [byte, toNat_ofNat_of_lt b.toNat_lt, UInt8.ofNat_toNat]
      have hplain : ∀ special ∈ ([byte '\n', byte '\\', byte '"'] : Bytes), b ≠ special := by
        have all : ([byte '\n', byte '\\', byte '"'] : Bytes).all
            (fun special => (escapeLetter? special).isSome) = true := by decide
        rintro special hspecial rfl
        have hsome := List.all_eq_true.1 all b hspecial
        rw [hletter] at hsome
        cases hsome
      rw [List.map_singleton, hbyte]
      exact standFor_self (hplain _ (by decide)) (hplain _ (by decide)) (hplain _ (by decide))
    · exact standFor_escape fun setting more c hc => run_escape_octal b hc

/-- What is written for a character stands for the bytes of that character. -/
theorem standFor_escapeChar (c : Char) :
    StandFor (byte '"') ((escapeChar c).flatMap String.utf8EncodeChar)
      (String.utf8EncodeChar c) := by
  unfold escapeChar
  by_cases hc : c.toNat < 128
  · rw [if_pos hc, flatMap_utf8EncodeChar fun c hc => lt_of_mem_escapeByte hc,
      utf8EncodeChar_of_lt hc]
    exact standFor_escapeByte (byte c)
  · have hself : ∀ b ∈ String.utf8EncodeChar c, StandFor (byte '"') [b] [b] := by
      intro b hb
      have hlarge := le_of_mem_utf8EncodeChar hc hb
      have hne : ∀ b' : UInt8, b'.toNat < 128 → b ≠ b' := by
        rintro b' hb' rfl
        omega
      exact standFor_self (hne _ (by decide)) (hne _ (by decide)) (hne _ (by decide))
    rw [if_neg hc, List.flatMap_singleton]
    have hall := standFor_flatMap _ hself
    rwa [List.flatMap_singleton'] at hall

theorem standFor_escapeBytes (bytes : Bytes) :
    StandFor (byte '"') (Utf8.encode (escapeBytes bytes)) bytes := by
  have hall := standFor_flatMap bytes fun b _ => standFor_escapeByte b
  rw [encode_escapeBytes]
  rwa [List.flatMap_singleton'] at hall

theorem standFor_escapeString (s : String) :
    StandFor (byte '"') (Utf8.encode (escapeString s)) (Utf8.encode s) := by
  rw [encode_escapeString]
  exact standFor_flatMap _ fun c _ => standFor_escapeChar c

/-! ## Literals -/

variable {setting : Nat × Bool} {bytes more written value : Bytes} {quote : UInt8}

/-- The closing quote ends a literal. -/
theorem run_literalBody (h : StandFor quote written value) (hnewline : quote ≠ byte '\n')
    (hescape : quote ≠ byte '\\') {c : Cursor} (hc : c.At setting (written ++ quote :: more))
    {rounds : Nat} (hrounds : c.rest.length < rounds) (read : Bytes) :
    ∃ c', literalBody quote rounds (read, c) = .ok () (read ++ value, c') ∧
      c'.At setting more := by
  obtain ⟨c1, rounds1, hc1, hrounds1, hbody⟩ := h setting _ read c rounds hc hrounds
  obtain ⟨rounds1, rfl⟩ := Nat.exists_eq_succ_of_ne_zero (n := rounds1) (by omega)
  obtain ⟨hany, hc2⟩ := run_anyByte hc1
  refine ⟨c1.advance 1, ?_, hc2⟩
  rw [hbody, literalBody, run_bind_of_ok (read_eq_ok.2 ⟨hany, rfl⟩)]
  dsimp only
  rw [if_neg hnewline, if_neg hescape, if_pos rfl]
  rfl

theorem finds_atString (h : (strip bytes).head? = some (byte '"')) :
    Finds setting atString bytes true (strip bytes) := by
  intro c hc
  obtain ⟨c', hpeek, hc'⟩ := finds_peek (by rw [h]; decide) c hc
  refine ⟨c', ?_, hc'⟩
  rw [atString, run_bind_of_ok hpeek, h]
  rfl

theorem finds_not_atString (h : Follows bytes) :
    Finds setting atString bytes false (strip bytes) := by
  intro c hc
  obtain ⟨c', hpeek, hc'⟩ := finds_peek (h.head?_ne (by decide)) c hc
  refine ⟨c', ?_, hc'⟩
  rw [atString, run_bind_of_ok hpeek, decide_eq_false (h.head?_ne (by decide)),
    decide_eq_false (h.head?_ne (by decide))]
  rfl

/-- One literal of those that stand behind each other is read up to its closing quote. -/
theorem run_literals (h : StandFor (byte '"') written value) {c c' : Cursor}
    (hat : atString c = .ok true c')
    (hc' : c'.At setting (byte '"' :: (written ++ byte '"' :: more))) (read : Bytes)
    (rounds : Nat) :
    ∃ t, literals (rounds + 1) (read, c) = literals rounds (read ++ value, t) ∧
      t.At setting more := by
  obtain ⟨hany, hopened⟩ := run_anyByte hc'
  obtain ⟨t, hbody, ht⟩ := run_literalBody h (by decide) (by decide) hopened
    (Nat.lt_succ_self _) read
  refine ⟨t, ?_, ht⟩
  rw [literals, run_bind_of_ok (read_eq_ok.2 ⟨hat, rfl⟩), if_pos rfl,
    run_bind_of_ok (read_eq_ok.2 ⟨hany, rfl⟩)]
  dsimp only
  rw [run_bind_of_ok (run_source _ _), run_bind_of_ok hbody]

/-- A literal is read as what it stands for, if no other one follows. -/
theorem reads_stringLiteral (h : StandFor (byte '"') written value)
    (hbytes : strip bytes = byte '"' :: (written ++ byte '"' :: more)) (hmore : Follows more) :
    Reads setting stringLiteral bytes value more := by
  intro c hc
  have hhead : (strip bytes).head? = some (byte '"') := by rw [hbytes]; rfl
  obtain ⟨c1, hat, hc1⟩ := finds_atString hhead c hc
  have hhead' : (strip (strip bytes)).head? = some (byte '"') := by rwa [strip_strip]
  obtain ⟨c2, hat2, hc2⟩ := finds_atString hhead' c1 hc1.shows
  rw [strip_strip, hbytes] at hc2
  obtain ⟨rounds, hrounds⟩ : ∃ rounds, c1.rest.length + 1 = rounds + 2 := by
    refine ⟨(written ++ byte '"' :: more).length, ?_⟩
    rw [hc1.1, hbytes, List.length_cons]
  obtain ⟨c3, hliteral, hc3⟩ := run_literals h hat2 hc2 [] (rounds + 1)
  obtain ⟨c4, hend, hc4⟩ := finds_not_atString hmore c3 hc3.shows
  refine ⟨c4, ?_, hc4.of_strip⟩
  rw [stringLiteral, run_bind_of_ok hat]
  refine (run_bind_of_ok (run_get c1)).trans ?_
  rw [hrounds]
  refine alone_eq_ok.2 ?_
  rw [hliteral, literals, run_bind_of_ok (read_eq_ok.2 ⟨hend, rfl⟩)]
  rfl

end Scan

end Text

end Protobuf
