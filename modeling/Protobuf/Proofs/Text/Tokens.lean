import Mathlib.Data.List.DropRight
import Protobuf.Proofs.Running
import Protobuf.Text.Cursor

/-!
# Finding tokens

What blanks stand before a token is of no importance. A cursor shows some bytes if it stands at
their start, apart from blanks, and an action finds a token in them if from every such place it
reads the token and leaves what stands behind it.
-/

namespace Protobuf

open Build

variable {α β : Type}

namespace Text

/-! ## ASCII -/

theorem toNat_byte {c : Char} (h : c.toNat < 128) : (byte c).toNat = c.toNat :=
  UInt8.toNat_ofNat_of_lt' (Nat.lt_of_lt_of_le h (by decide))

theorem utf8EncodeChar_of_lt {c : Char} (h : c.toNat < 128) :
    String.utf8EncodeChar c = [byte c] := by
  unfold String.utf8EncodeChar
  have hval : c.val.toNat = c.toNat := rfl
  simp only [hval]
  rw [if_pos (by omega)]
  rfl

theorem encode_eq_map_byte {s : String} (h : ∀ c ∈ s.toList, c.toNat < 128) :
    Utf8.encode s = s.toList.map byte := by
  unfold Utf8.encode
  generalize s.toList = cs at h ⊢
  induction cs with
  | nil => rfl
  | cons c cs ih =>
    obtain ⟨hc, hcs⟩ := List.forall_mem_cons.1 h
    rw [List.flatMap_cons, List.map_cons, utf8EncodeChar_of_lt hc, ih hcs, List.singleton_append]

theorem ofAscii_map_byte {cs : List Char} (h : ∀ c ∈ cs, c.toNat < 128) :
    ofAscii (cs.map byte) = String.ofList cs := by
  unfold ofAscii
  rw [List.map_map]
  congr 1
  refine (List.map_congr_left fun c hc => ?_).trans (List.map_id cs)
  show Char.ofNat (byte c).toNat = c
  rw [toNat_byte (h c hc), Char.ofNat_toNat]

/-! ## Blanks -/

/-- The byte may stand between tokens. -/
def isSpace (b : UInt8) : Bool := isBlank b || b = byte '\n'

theorem eq_of_isSpace {b : UInt8} (h : isSpace b = true) : b ∈ [32, 9, 13, 11, 12, 10] := by
  simp only [isSpace, isBlank, Bool.or_eq_true, decide_eq_true_eq] at h
  rcases h with ((((h | h) | h) | h) | h) | h <;> rw [h] <;> decide

theorem test_of_isSpace {test : UInt8 → Bool}
    (any : ([32, 9, 13, 11, 12, 10] : Bytes).any test = false) {b : UInt8}
    (h : isSpace b = true) : test b = false :=
  Bool.eq_false_iff.2 (List.any_eq_false.1 any b (eq_of_isSpace h))

theorem not_isSpace_of_test {test : UInt8 → Bool}
    (any : ([32, 9, 13, 11, 12, 10] : Bytes).any test = false) {b : UInt8}
    (h : test b = true) : isSpace b = false := by
  rw [Bool.eq_false_iff]
  intro hs
  rw [test_of_isSpace any hs] at h
  cases h

theorem ne_of_test {test : UInt8 → Bool} {b b' : UInt8} (h : test b = true)
    (h' : test b' = false) : b ≠ b' := by
  rintro rfl
  rw [h'] at h
  cases h

/-- The bytes from the first one on that may not stand between tokens. -/
def strip (bytes : Bytes) : Bytes := bytes.dropWhile isSpace

theorem strip_append {blanks : Bytes} (h : ∀ b ∈ blanks, isSpace b = true) (bytes : Bytes) :
    strip (blanks ++ bytes) = strip bytes :=
  List.dropWhile_append_of_pos h

theorem strip_cons_of_isSpace {b : UInt8} (h : isSpace b = true) (bytes : Bytes) :
    strip (b :: bytes) = strip bytes :=
  List.dropWhile_cons_of_pos h

theorem strip_of_not_isSpace {b : UInt8} (h : isSpace b = false) (bytes : Bytes) :
    strip (b :: bytes) = b :: bytes :=
  List.dropWhile_cons_of_neg (by rw [h]; decide)

theorem strip_of_head {bytes : Bytes} (h : ∀ b ∈ bytes.head?, isSpace b = false) :
    strip bytes = bytes := by
  cases bytes with
  | nil => rfl
  | cons b bytes => exact strip_of_not_isSpace (h b rfl) bytes

theorem strip_strip (bytes : Bytes) : strip (strip bytes) = strip bytes :=
  List.dropWhile_idempotent isSpace bytes

/-- The byte starts a field or ends a block. -/
def isLead (b : UInt8) : Bool := isNameByte b || b = byte '[' || b = byte '\x7d'

/-- Behind blanks a field starts, a block ends or the text ends. -/
def Follows (bytes : Bytes) : Prop := ∀ b ∈ (strip bytes).head?, isLead b = true

theorem Follows.head?_ne {bytes : Bytes} (h : Follows bytes) {b : UInt8} (hb : isLead b = false) :
    (strip bytes).head? ≠ some b := by
  intro heq
  rw [h b heq] at hb
  cases hb

theorem follows_nil : Follows [] := fun _ h => nomatch h

namespace Cursor

/-- How many blocks are open, and whether a colon stood behind the last field name. -/
def setting (c : Cursor) : Nat × Bool := (c.depth, c.sawColon)

/-- The cursor stands at the start of the bytes. -/
def At (c : Cursor) (setting : Nat × Bool) (bytes : Bytes) : Prop :=
  c.rest = bytes ∧ c.setting = setting

/-- The cursor stands at the start of the bytes, apart from blanks. -/
def Shows (c : Cursor) (setting : Nat × Bool) (bytes : Bytes) : Prop :=
  strip c.rest = strip bytes ∧ c.setting = setting

variable {c : Cursor} {setting : Nat × Bool} {bytes : Bytes}

theorem At.shows (h : c.At setting bytes) : c.Shows setting bytes := ⟨congrArg strip h.1, h.2⟩

theorem Shows.of_strip_eq (h : c.Shows setting bytes) {bytes' : Bytes}
    (heq : strip bytes = strip bytes') : c.Shows setting bytes' :=
  ⟨h.1.trans heq, h.2⟩

theorem At.of_strip (h : c.At setting (strip bytes)) : c.Shows setting bytes :=
  h.shows.of_strip_eq (strip_strip bytes)

theorem At.advance (h : c.At setting bytes) (count : Nat) :
    (c.advance count).At setting (bytes.drop count) :=
  ⟨congrArg (List.drop count) h.1, h.2⟩

/-- Where no comment starts, blanks are skipped up to the next byte that is none. -/
theorem at_skipBlanks (h : c.At setting bytes) (hc : (strip bytes).head? ≠ some (byte '#')) :
    (c.skipBlanks false bytes).At setting (strip bytes) := by
  induction bytes generalizing c with
  | nil => exact h
  | cons b bytes ih =>
    unfold skipBlanks
    by_cases hn : b = byte '\n'
    · have hs : isSpace b = true := by rw [hn]; decide
      rw [strip_cons_of_isSpace hs] at hc ⊢
      rw [if_pos hn]
      exact ih (h.advance 1) hc
    · rw [if_neg hn]
      by_cases hb : isBlank b = true
      · have hs : isSpace b = true := by rw [isSpace, hb, Bool.true_or]
        rw [strip_cons_of_isSpace hs] at hc ⊢
        rw [if_pos (by rw [hb, Bool.or_true])]
        exact ih (h.advance 1) hc
      · have hs : isSpace b = false := by simp [isSpace, hb, hn]
        rw [strip_of_not_isSpace hs] at hc ⊢
        have hhash : b ≠ byte '#' := fun heq => hc (by rw [heq]; rfl)
        rw [if_neg (by simpa using hb), if_neg hhash]
        exact h

end Cursor

/-! ## Finding -/

/-- Wherever a cursor shows the first bytes, the action gives the value and leaves the others. -/
def Finds (setting : Nat × Bool) (x : Scan α) (bytes : Bytes) (a : α) (more : Bytes) : Prop :=
  ∀ c : Cursor, c.Shows setting bytes → ∃ c', x c = .ok a c' ∧ c'.At setting more

variable {setting : Nat × Bool} {bytes more rest : Bytes}

/-- The action gives the value and leaves the other bytes, apart from blanks. -/
def Reads (setting : Nat × Bool) (x : Scan α) (bytes : Bytes) (a : α) (more : Bytes) : Prop :=
  ∀ c : Cursor, c.Shows setting bytes → ∃ c', x c = .ok a c' ∧ c'.Shows setting more

theorem Finds.reads {x : Scan α} {a : α} (h : Finds setting x bytes a more) :
    Reads setting x bytes a more := by
  intro c hc
  obtain ⟨c', hx, hc'⟩ := h c hc
  exact ⟨c', hx, hc'.shows⟩

theorem Reads.bind {x : Scan α} {f : α → Scan β} {a : α} {b : β} (hx : Reads setting x bytes a more)
    (hf : Reads setting (f a) more b rest) : Reads setting (x >>= f) bytes b rest := by
  intro c hc
  obtain ⟨c1, hx, hc1⟩ := hx c hc
  obtain ⟨c2, hf, hc2⟩ := hf c1 hc1
  exact ⟨c2, (run_bind_of_ok hx).trans hf, hc2⟩

theorem Reads.map {x : Scan α} {a : α} (f : α → β) (hx : Reads setting x bytes a more) :
    Reads setting (f <$> x) bytes (f a) more := by
  intro c hc
  obtain ⟨c', hx, hc'⟩ := hx c hc
  exact ⟨c', by rw [run_map, hx], hc'⟩

namespace Scan

theorem finds_blanks (h : (strip bytes).head? ≠ some (byte '#')) :
    Finds setting blanks bytes () (strip bytes) := by
  intro c hc
  have hat : c.At setting c.rest := ⟨rfl, hc.2⟩
  rw [← hc.1] at h ⊢
  exact ⟨_, rfl, Cursor.at_skipBlanks hat h⟩

theorem finds_peek (h : (strip bytes).head? ≠ some (byte '#')) :
    Finds setting peek bytes (strip bytes).head? (strip bytes) := by
  intro c hc
  obtain ⟨c', hblanks, hc'⟩ := finds_blanks h c hc
  refine ⟨c', ?_, hc'⟩
  rw [peek, run_bind_of_ok hblanks, run_bind_of_ok (run_get c'), hc'.1]
  rfl

theorem exists_line (h : (strip bytes).head? ≠ some (byte '#')) {c : Cursor}
    (hc : c.Shows setting bytes) : ∃ n c', line c = .ok n c' ∧ c'.At setting (strip bytes) := by
  obtain ⟨c', hblanks, hc'⟩ := finds_blanks h c hc
  refine ⟨c'.line, c', ?_, hc'⟩
  rw [line, run_bind_of_ok hblanks, run_bind_of_ok (run_get c')]
  rfl

theorem finds_tryChar (char : Char) (hchar : byte char ≠ byte '#')
    (h : strip bytes = byte char :: more) : Finds setting (tryChar char) bytes true more := by
  intro c hc
  have hhead : (strip bytes).head? = some (byte char) := by rw [h]; rfl
  have hne : (strip bytes).head? ≠ some (byte '#') := by
    rw [hhead]
    exact fun heq => hchar (Option.some.inj heq)
  obtain ⟨c', hpeek, hc'⟩ := finds_peek hne c hc
  refine ⟨c'.advance 1, ?_, ?_⟩
  · rw [tryChar, run_bind_of_ok hpeek, if_pos hhead]
    rfl
  · have hadvance := hc'.advance 1
    rwa [h] at hadvance

theorem finds_tryChar_false (char : Char) (hc : (strip bytes).head? ≠ some (byte '#'))
    (h : (strip bytes).head? ≠ some (byte char)) :
    Finds setting (tryChar char) bytes false (strip bytes) := by
  intro c hshows
  obtain ⟨c', hpeek, hc'⟩ := finds_peek hc c hshows
  refine ⟨c', ?_, hc'⟩
  rw [tryChar, run_bind_of_ok hpeek, if_neg h]
  rfl

theorem run_span {test : UInt8 → Bool} {found : Bytes} (hfound : ∀ b ∈ found, test b = true)
    (hmore : ∀ b ∈ more.head?, test b = false) {c : Cursor} (hc : c.At setting (found ++ more)) :
    ∃ c', span test c = .ok found c' ∧ c'.At setting more := by
  have htake : c.rest.takeWhile test = found := by
    rw [hc.1, List.takeWhile_append_of_pos hfound]
    cases more with
    | nil => exact List.append_nil found
    | cons b more =>
      rw [List.takeWhile_cons_of_neg (by rw [hmore b rfl]; decide)]
      exact List.append_nil found
  refine ⟨c.advance found.length, ?_, ?_⟩
  · rw [span, run_bind_of_ok (run_get c), htake]
    rfl
  · have hadvance := hc.advance found.length
    rwa [List.drop_left] at hadvance

end Scan

/-! ## Names -/

/-- The character is ASCII, and its byte passes a test. -/
def isCharOf (test : UInt8 → Bool) (c : Char) : Bool := c.toNat < 128 && test (byte c)

/-- The character is one of those that a name may be made of. -/
abbrev isNameChar (c : Char) : Bool := isCharOf isNameByte c

/-- The characters are a plain name. -/
def isIdentifier (cs : List Char) : Bool :=
  cs.head?.any (fun c => isNameStart (byte c)) && cs.all isNameChar

theorem not_isDigit_of_isNameStart {b : UInt8} (h : isNameStart b = true) :
    isDigit b = false := by
  have hnine : (57 : UInt8).toNat = 57 := rfl
  have hupper : (65 : UInt8).toNat = 65 := rfl
  have hlower : (97 : UInt8).toNat = 97 := rfl
  simp only [isNameStart, isDigit, Bool.or_eq_true, Bool.and_eq_true, decide_eq_true_eq,
    Bool.and_eq_false_iff, decide_eq_false_iff_not, UInt8.le_iff_toNat_le] at h ⊢
  rcases h with (h | h) | rfl
  · omega
  · omega
  · exact Or.inr (by decide)

theorem isNameStart_of_isIdentifier {cs : List Char} (h : isIdentifier cs = true) :
    ∃ c cs', cs = c :: cs' ∧ isNameStart (byte c) = true := by
  cases cs with
  | nil => cases h
  | cons c cs => exact ⟨c, cs, rfl, (Bool.and_eq_true _ _ ▸ h).1⟩

theorem isNameChar_of_isIdentifier {cs : List Char} (h : isIdentifier cs = true) :
    ∀ c ∈ cs, isNameChar c = true := by
  rw [isIdentifier, Bool.and_eq_true, List.all_eq_true] at h
  exact h.2

theorem isCharOf_iff {test : UInt8 → Bool} {c : Char} :
    isCharOf test c = true ↔ c.toNat < 128 ∧ test (byte c) = true := by
  rw [isCharOf, Bool.and_eq_true, decide_eq_true_eq]

/-- A string of such characters is the text of its bytes, all of which pass the test. -/
theorem encode_of_isCharOf {test : UInt8 → Bool} {s : String}
    (h : ∀ c ∈ s.toList, isCharOf test c = true) :
    Utf8.encode s = s.toList.map byte ∧ ofAscii (Utf8.encode s) = s ∧
      ∀ b ∈ Utf8.encode s, test b = true := by
  have hlt : ∀ c ∈ s.toList, c.toNat < 128 := fun c hc => (isCharOf_iff.1 (h c hc)).1
  have hmap := encode_eq_map_byte hlt
  refine ⟨hmap, ?_, fun b hb => ?_⟩
  · rw [hmap, ofAscii_map_byte hlt, String.ofList_toList]
  · rw [hmap] at hb
    obtain ⟨c, hc, rfl⟩ := List.mem_map.1 hb
    exact (isCharOf_iff.1 (h c hc)).2

/-- The byte may stand in a name, a number or a word. -/
def isTokenByte (b : UInt8) : Bool :=
  isNameByte b || b = byte '.' || b = byte '+' || b = byte '-'

namespace Scan

theorem finds_identifier {name : String} (hname : isIdentifier name.toList = true)
    (h : strip bytes = Utf8.encode name ++ more)
    (hmore : ∀ b ∈ more.head?, isNameByte b = false) :
    Finds setting identifier bytes (some name) more := by
  intro c hc
  obtain ⟨hmap, hascii, hbytes⟩ := encode_of_isCharOf (isNameChar_of_isIdentifier hname)
  obtain ⟨first, cs, hcs, hstart⟩ := isNameStart_of_isIdentifier hname
  have hhead : (strip bytes).head? = some (byte first) := by
    rw [h, hmap, hcs]
    rfl
  have hhash : (strip bytes).head? ≠ some (byte '#') := by
    rw [hhead]
    exact fun heq => ne_of_test hstart (by decide) (Option.some.inj heq)
  obtain ⟨c1, hblanks, hc1⟩ := finds_blanks hhash c hc
  have hany : c1.rest.head?.any isNameStart = true := by
    rw [hc1.1, hhead]
    exact hstart
  rw [h] at hc1
  obtain ⟨c2, hspan, hc2⟩ := run_span hbytes hmore hc1
  refine ⟨c2, ?_, hc2⟩
  rw [identifier, run_bind_of_ok hblanks, run_bind_of_ok (run_get c1), if_pos hany,
    run_bind_of_ok hspan, hascii]
  rfl

theorem finds_no_identifier (hc : (strip bytes).head? ≠ some (byte '#'))
    (h : ∀ b ∈ (strip bytes).head?, isNameStart b = false) :
    Finds setting identifier bytes none (strip bytes) := by
  intro c hshows
  obtain ⟨c1, hblanks, hc1⟩ := finds_blanks hc c hshows
  have hany : ¬ c1.rest.head?.any isNameStart = true := by
    rw [hc1.1]
    cases hhead : (strip bytes).head? with
    | none => decide
    | some b =>
      rw [Option.any_some, h b hhead]
      decide
  refine ⟨c1, ?_, hc1⟩
  rw [identifier, run_bind_of_ok hblanks, run_bind_of_ok (run_get c1), if_neg hany]
  rfl

/-! ## Numbers and words -/

/-- The characters are those of a number or a word, with a sign or without. -/
def IsWord (s : String) : Prop :=
  ∃ cs, cs ≠ [] ∧ (∀ c ∈ cs, isNameChar c = true) ∧ (s.toList = cs ∨ s.toList = '-' :: cs)

theorem isWord_of_all {s : String} (hne : s.toList ≠ []) (h : s.toList.all isNameChar = true) :
    IsWord s :=
  ⟨s.toList, hne, List.all_eq_true.1 h, Or.inl rfl⟩

/-- A number or a word ends before these bytes. -/
def EndsNumber (bytes : Bytes) : Prop := ∀ b ∈ bytes.head?, isTokenByte b = false

instance (bytes : Bytes) : Decidable (EndsNumber bytes) :=
  decidable_of_iff (bytes.head?.all fun b => !isTokenByte b) (by cases bytes <;> simp [EndsNumber])

theorem endsNumber_cons {b : UInt8} (hb : isTokenByte b = false) : EndsNumber (b :: more) := by
  intro b' hb'
  obtain rfl := Option.some.inj hb'
  exact hb

theorem numberSpan_append (hexadecimal afterE : Bool) {word : Bytes}
    (hword : ∀ b ∈ word, isNameByte b = true) (hmore : EndsNumber more) :
    numberSpan hexadecimal afterE (word ++ more) = word := by
  induction word generalizing afterE with
  | nil =>
    cases more with
    | nil => rfl
    | cons b more =>
      have hb : isTokenByte b = false := hmore b rfl
      simp only [isTokenByte, Bool.or_eq_false_iff] at hb
      obtain ⟨⟨⟨hname, hpoint⟩, hplus⟩, hminus⟩ := hb
      rw [List.nil_append, numberSpan, hname, hpoint, hplus, hminus, if_neg]
      simp
  | cons a word ih =>
    obtain ⟨ha, hword⟩ := List.forall_mem_cons.1 hword
    rw [List.cons_append, numberSpan, if_pos (by rw [ha]; rfl), ih _ hword]

/-- A word of a number is a run of bytes of names. -/
theorem IsWord.exists_bytes {token : String} (h : IsWord token) :
    ofAscii (Utf8.encode token) = token ∧ ∃ word, word ≠ [] ∧ (∀ b ∈ word, isNameByte b = true) ∧
      (Utf8.encode token = word ∨ Utf8.encode token = byte '-' :: word) := by
  obtain ⟨cs, hne, hcs, htoken⟩ := h
  have hlt : ∀ c ∈ cs, c.toNat < 128 := fun c hc => (isCharOf_iff.1 (hcs c hc)).1
  have hall : ∀ c ∈ token.toList, c.toNat < 128 := by
    rcases htoken with htoken | htoken
    · rwa [htoken]
    · rw [htoken]
      exact List.forall_mem_cons.2 ⟨by decide, hlt⟩
  have hmap := encode_eq_map_byte hall
  refine ⟨?_, cs.map byte, fun heq => hne (List.map_eq_nil_iff.1 heq), fun b hb => ?_, ?_⟩
  · rw [hmap, ofAscii_map_byte hall, String.ofList_toList]
  · obtain ⟨c, hc, rfl⟩ := List.mem_map.1 hb
    exact (isCharOf_iff.1 (hcs c hc)).2
  · rcases htoken with htoken | htoken
    · exact Or.inl (by rw [hmap, htoken])
    · exact Or.inr (by rw [hmap, htoken, List.map_cons])

section

variable {word : Bytes} (hne : word ≠ []) (hword : ∀ b ∈ word, isNameByte b = true)
  (hends : ∀ hexadecimal, numberSpan hexadecimal false (word ++ more) = word)

include hne hword hends

theorem finds_word (h : strip bytes = word ++ more) :
    Finds setting numberToken bytes (ofAscii word) more := by
  have hempty : ¬ word.isEmpty = true := fun he => hne (List.isEmpty_iff.1 he)
  have hhead : ∀ b ∈ (strip bytes).head?, isNameByte b = true := by
    intro b hb
    rw [h] at hb
    cases word with
    | nil => exact absurd rfl hne
    | cons first word => exact hword b (List.mem_of_mem_head? hb)
  have hhash : (strip bytes).head? ≠ some (byte '#') := fun heq =>
    absurd (hhead _ heq) (by decide)
  have hminus : ¬ (strip bytes).head? = some (byte '-') := fun heq =>
    absurd (hhead _ heq) (by decide)
  intro c hc
  obtain ⟨c1, hblanks, hc1⟩ := finds_blanks hhash c hc
  have hspan : numberSpan (startsHexadecimal c1.rest) false c1.rest = word := by
    rw [hc1.1, h, hends]
  rw [← hc1.1] at hminus
  rw [h] at hc1
  have hadvance := hc1.advance word.length
  rw [List.drop_left] at hadvance
  refine ⟨c1.advance word.length, ?_, hadvance⟩
  rw [numberToken, run_bind_of_ok hblanks, run_bind_of_ok (run_get c1)]
  dsimp only
  rw [if_neg hminus, run_bind_of_ok (run_get c1), hspan, run_bind_of_ok (run_set _ c1),
    if_neg hempty, if_neg hminus]
  rfl

omit hword in
theorem finds_signed_word (h : strip bytes = byte '-' :: (word ++ more)) :
    Finds setting numberToken bytes (ofAscii (byte '-' :: word)) more := by
  have hempty : ¬ word.isEmpty = true := fun he => hne (List.isEmpty_iff.1 he)
  have hminus : (strip bytes).head? = some (byte '-') := by rw [h]; rfl
  have hhash : (strip bytes).head? ≠ some (byte '#') := by
    rw [hminus]
    decide
  intro c hc
  obtain ⟨c1, hblanks, hc1⟩ := finds_blanks hhash c hc
  rw [← hc1.1] at hminus
  rw [h] at hc1
  have hc2 : (c1.advance 1).At setting (word ++ more) := hc1.advance 1
  have hspan : numberSpan (startsHexadecimal (c1.advance 1).rest) false (c1.advance 1).rest =
      word := by
    rw [hc2.1, hends]
  have hadvance := hc2.advance word.length
  rw [List.drop_left] at hadvance
  refine ⟨(c1.advance 1).advance word.length, ?_, hadvance⟩
  rw [numberToken, run_bind_of_ok hblanks, run_bind_of_ok (run_get c1)]
  dsimp only
  rw [if_pos hminus, run_bind_of_ok (run_modify (·.advance 1) c1), run_bind_of_ok (run_get _),
    hspan, run_bind_of_ok (run_set _ _), if_neg hempty, if_pos hminus]
  rfl

end

theorem finds_numberToken {token : String} (htoken : IsWord token) (hmore : EndsNumber more)
    (h : strip bytes = Utf8.encode token ++ more) :
    Finds setting numberToken bytes token more := by
  obtain ⟨htext, word, hne, hword, hbytes⟩ := htoken.exists_bytes
  have hends : ∀ hexadecimal, numberSpan hexadecimal false (word ++ more) = word :=
    fun hexadecimal => numberSpan_append hexadecimal false hword hmore
  rcases hbytes with hbytes | hbytes
  · rw [hbytes] at h htext
    rw [← htext]
    exact finds_word hne hword hends h
  · rw [hbytes] at h htext
    rw [← htext]
    exact finds_signed_word hne hends h

end Scan

/-! ## Names of fields -/

/-- The byte is one of those that may stand between brackets. -/
def isBracketedByte (b : UInt8) : Bool := isNameByte b || b = byte '.' || b = byte '/'

/-- The characters are a name with points in brackets. -/
def isExtension (cs : List Char) : Bool :=
  let inner := (cs.drop 1).dropLast
  cs = '[' :: (inner ++ [']']) && !inner.isEmpty &&
    inner.all fun c => isCharOf isBracketedByte c && c ≠ '/'

/-- The text can stand before a field. -/
def isLabel (name : String) : Bool := isIdentifier name.toList || isExtension name.toList

/-- How a name is read that stands before a field. -/
def FieldName.ofLabel (name : String) : FieldName :=
  if isIdentifier name.toList then .plain name
  else .bracketed (String.ofList (name.toList.drop 1).dropLast)

/-- A label is a plain name, or one in brackets that is no URL. -/
theorem FieldName.ofLabel_cases {name : String} (h : isLabel name = true) :
    (isIdentifier name.toList = true ∧ ofLabel name = .plain name) ∨
      ∃ inner : String, ofLabel name = .bracketed inner ∧
        name.toList = '[' :: (inner.toList ++ [']']) ∧ inner.toList ≠ [] ∧
        ∀ c ∈ inner.toList, isCharOf isBracketedByte c = true ∧ c ≠ '/' := by
  unfold ofLabel
  by_cases hplain : isIdentifier name.toList = true
  · exact Or.inl ⟨hplain, if_pos hplain⟩
  · rw [isLabel, Bool.or_eq_true] at h
    have hext := h.resolve_left hplain
    simp only [isExtension, Bool.and_eq_true, decide_eq_true_eq, List.all_eq_true,
      Bool.not_eq_true', List.isEmpty_eq_false_iff] at hext
    refine Or.inr ⟨String.ofList (name.toList.drop 1).dropLast, if_neg hplain, ?_⟩
    rw [String.toList_ofList]
    exact ⟨hext.1.1, hext.1.2, hext.2⟩

namespace Scan

theorem finds_expect (char : Char) (hchar : byte char ≠ byte '#')
    (h : strip bytes = byte char :: more) : Finds setting (expect char) bytes () more := by
  intro c hc
  obtain ⟨c', htry, hc'⟩ := finds_tryChar char hchar h c hc
  refine ⟨c', ?_, hc'⟩
  rw [expect, run_bind_of_ok htry]
  rfl

/-- Where neither a blank nor a comment starts, nothing is skipped. -/
theorem finds_no_blanks (h : ∀ b ∈ bytes.head?, isSpace b = false ∧ b ≠ byte '#') :
    Finds setting blanks bytes () bytes := by
  have hstrip := strip_of_head fun b hb => (h b hb).1
  have hhash : (strip bytes).head? ≠ some (byte '#') := by
    rw [hstrip]
    exact fun heq => (h _ heq).2 rfl
  have hfinds : Finds setting blanks bytes () (strip bytes) := finds_blanks hhash
  rwa [hstrip] at hfinds

/-- A name in brackets is read up to the closing one. -/
theorem run_bracketedName {inner : String} (hne : inner.toList ≠ [])
    (hinner : ∀ c ∈ inner.toList, isCharOf isBracketedByte c = true) {c : Cursor}
    (hc : c.At setting (byte '[' :: (Utf8.encode inner ++ byte ']' :: more))) :
    ∃ c', bracketedName c = .ok (.bracketed inner) c' ∧ c'.At setting more := by
  obtain ⟨hmap, hascii, htest⟩ := encode_of_isCharOf hinner
  have hempty : ¬ (Utf8.encode inner).isEmpty = true := by
    rw [hmap, List.isEmpty_iff, List.map_eq_nil_iff]
    exact hne
  have hend : ∀ b ∈ (byte ']' :: more).head?, isBracketedByte b = false := by
    intro b hb
    obtain rfl := Option.some.inj hb
    decide
  have hfirst : ∀ b ∈ (Utf8.encode inner ++ byte ']' :: more).head?,
      isSpace b = false ∧ b ≠ byte '#' := by
    intro b hb
    rw [List.head?_append, Option.mem_def, Option.or_eq_some_iff] at hb
    rcases hb with hb | ⟨-, hb⟩
    · have hb := htest b (List.mem_of_mem_head? hb)
      exact ⟨not_isSpace_of_test (by decide) hb, ne_of_test hb (by decide)⟩
    · obtain rfl := Option.some.inj hb
      decide
  have hc1 : (c.advance 1).At setting (Utf8.encode inner ++ byte ']' :: more) := hc.advance 1
  obtain ⟨c2, hblanks, hc2⟩ := finds_no_blanks hfirst _ hc1.shows
  obtain ⟨c3, hspan, hc3⟩ := run_span htest hend hc2
  have hspan : span (fun b => isNameByte b || b = byte '.' || b = byte '/') c2 =
      .ok (Utf8.encode inner) c3 := hspan
  have hbracket := strip_of_not_isSpace (b := byte ']') (by decide) more
  obtain ⟨c4, hclose, hc4⟩ := finds_expect ']' (by decide) hbracket c3 hc3.shows
  refine ⟨c4, ?_, hc4⟩
  rw [bracketedName, run_bind_of_ok (run_modify (·.advance 1) c), run_bind_of_ok hblanks,
    run_bind_of_ok hspan, if_neg hempty]
  refine (run_bind_of_ok hclose).trans ?_
  rw [hascii]
  rfl

theorem finds_bracketedName {inner : String} (hne : inner.toList ≠ [])
    (hinner : ∀ c ∈ inner.toList, isCharOf isBracketedByte c = true)
    (h : strip bytes = byte '[' :: (Utf8.encode inner ++ byte ']' :: more)) :
    Finds setting fieldName bytes (.bracketed inner) more := by
  intro c hc
  have hhead : (strip bytes).head? = some (byte '[') := by rw [h]; rfl
  have hhash : (strip bytes).head? ≠ some (byte '#') := by
    rw [hhead]
    decide
  obtain ⟨c1, hpeek, hc1⟩ := finds_peek hhash c hc
  rw [hhead] at hpeek
  rw [h] at hc1
  obtain ⟨c2, hname, hc2⟩ := run_bracketedName hne hinner hc1
  refine ⟨c2, ?_, hc2⟩
  rw [fieldName, run_bind_of_ok hpeek, if_neg (by decide), if_pos rfl]
  exact hname

theorem finds_plainName {name : String} (hname : isIdentifier name.toList = true)
    (h : strip bytes = Utf8.encode name ++ more)
    (hmore : ∀ b ∈ more.head?, isNameByte b = false) :
    Finds setting fieldName bytes (.plain name) more := by
  obtain ⟨first, cs, hcs, hstart⟩ := isNameStart_of_isIdentifier hname
  have hmap := (encode_of_isCharOf (isNameChar_of_isIdentifier hname)).1
  have hhead : (strip bytes).head? = some (byte first) := by
    rw [h, hmap, hcs]
    rfl
  have hne : ∀ b, isNameStart b = false → (strip bytes).head? ≠ some b := by
    intro b hb heq
    rw [hhead] at heq
    exact ne_of_test hstart hb (Option.some.inj heq)
  have hdigit : ¬ (some (byte first)).any isDigit = true := by
    rw [Option.any_some, not_isDigit_of_isNameStart hstart]
    decide
  intro c hc
  obtain ⟨c1, hpeek, hc1⟩ := finds_peek (hne _ (by decide)) c hc
  obtain ⟨c2, hidentifier, hc2⟩ :=
    finds_identifier hname ((strip_strip bytes).trans h) hmore c1 hc1.shows
  have hbracket := hne (byte '[') (by decide)
  rw [hhead] at hpeek hbracket
  refine ⟨c2, ?_, hc2⟩
  rw [fieldName, run_bind_of_ok hpeek, if_neg hdigit, if_neg hbracket,
    run_bind_of_ok hidentifier]
  rfl

/-- A label is read where a colon or a blank follows it. -/
theorem finds_fieldName {name : String} (hname : isLabel name = true)
    (h : strip bytes = Utf8.encode name ++ more)
    (hmore : ∀ b ∈ more.head?, isNameByte b = false) :
    Finds setting fieldName bytes (.ofLabel name) more := by
  rcases FieldName.ofLabel_cases hname with ⟨hplain, hof⟩ | ⟨inner, hof, hcs, hne, hinner⟩
  · rw [hof]
    exact finds_plainName hplain h hmore
  · have hchars : ∀ c ∈ inner.toList, isCharOf isBracketedByte c = true :=
      fun c hc => (hinner c hc).1
    have htext : Utf8.encode name = byte '[' :: (Utf8.encode inner ++ [byte ']']) := by
      have hopen : String.utf8EncodeChar '[' = [byte '['] := by decide
      have hclose : String.utf8EncodeChar ']' = [byte ']'] := by decide
      rw [Utf8.encode, hcs, List.flatMap_cons, List.flatMap_append, List.flatMap_singleton, hopen,
        hclose]
      rfl
    rw [hof]
    refine finds_bracketedName hne hchars ?_
    rw [h, htext, List.cons_append, List.append_assoc]
    rfl

end Scan

end Text

end Protobuf
