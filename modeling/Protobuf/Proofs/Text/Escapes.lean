import Protobuf.Proofs.Text.Appending
import Protobuf.Proofs.Text.Literals

/-!
# Escaping and unescaping

Quoted literals that stand behind each other, with blanks and comments between them, are read as
the bytes that they stand for together (`Text.Scan.run_stringLiteral`). Whatever is escaped is
therefore read back, however it is cut into literals (`Text.Scan.literals_exact`).
-/

namespace Protobuf

open Build

namespace Text

/-! ## Gaps -/

/-- Blanks and comments. -/
inductive Gap : Bytes → Prop
  /-- There need not be any. -/
  | nil : Gap []
  /-- A blank or a line break. -/
  | space {b : UInt8} {bytes : Bytes} (space : isSpace b = true) (rest : Gap bytes) :
      Gap (b :: bytes)
  /-- A comment up to the end of its line. -/
  | comment {text bytes : Bytes} (line : byte '\n' ∉ text) (rest : Gap bytes) :
      Gap (byte '#' :: (text ++ byte '\n' :: bytes))

theorem behindBlanks_comment {text : Bytes} (h : byte '\n' ∉ text) (bytes : Bytes) :
    behindBlanks true (text ++ byte '\n' :: bytes) = behindBlanks false bytes := by
  induction text with
  | nil => rfl
  | cons b text ih =>
    obtain ⟨hb, htext⟩ := List.ne_and_not_mem_of_not_mem_cons h
    rw [List.cons_append, behindBlanks, if_neg hb.symm, if_pos (Bool.true_or _), ih htext]

theorem behindBlanks_quote (bytes : Bytes) :
    behindBlanks false (byte '"' :: bytes) = byte '"' :: bytes := rfl

/-- Gaps are skipped. -/
theorem Gap.behindBlanks_append {gap : Bytes} (h : Gap gap) (bytes : Bytes) :
    behindBlanks false (gap ++ bytes) = behindBlanks false bytes := by
  induction h with
  | nil => rfl
  | @space b gap space rest ih =>
    rw [List.cons_append, behindBlanks]
    by_cases hnewline : b = byte '\n'
    · rw [if_pos hnewline, ih]
    · have hblank : isBlank b = true := by
        rw [isSpace, decide_eq_false hnewline, Bool.or_false] at space
        exact space
      rw [if_neg hnewline, if_pos (by rw [hblank]; rfl), ih]
  | comment line rest ih =>
    rw [List.cons_append, List.append_assoc, behindBlanks, if_neg (by decide),
      if_neg (by decide), if_pos rfl, List.cons_append, behindBlanks_comment line, ih]

namespace Scan

/-! ## Literals behind each other -/

/-- Quoted literals behind each other, each of them behind a gap, and the bytes that they stand for
together. -/
inductive Quotes : Bytes → Bytes → Prop
  /-- No literal. -/
  | nil : Quotes [] []
  /-- A literal in front of others. -/
  | cons {gap written value text bytes : Bytes} (gap_skipped : Gap gap)
      (literal : StandFor (byte '"') written value) (rest : Quotes text bytes) :
      Quotes (gap ++ byte '"' :: (written ++ byte '"' :: text)) (value ++ bytes)

variable {written value text bytes more : Bytes} {c : Cursor}

/-- The bytes behind blanks and comments do not start with a quote. -/
def EndsLiterals (more : Bytes) : Prop :=
  ∀ b ∈ (behindBlanks false more).head?, b ≠ byte '"' ∧ b ≠ byte '\''

theorem run_atString_quote (h : c.settle.rest = byte '"' :: text) :
    atString c = .ok true c.settle := by
  rw [run_atString, h]
  rfl

theorem run_atString_end (h : EndsLiterals c.rest) : atString c = .ok false c.settle := by
  have hne : ∀ b, b = byte '"' ∨ b = byte '\'' → c.settle.rest.head? ≠ some b := by
    intro b hb heq
    rw [Cursor.rest_settle] at heq
    exact hb.elim (h b heq).1 (h b heq).2
  rw [run_atString, decide_eq_false (hne _ (.inl rfl)), decide_eq_false (hne _ (.inr rfl))]
  rfl

/-- Literals behind each other are read up to the next token. -/
theorem run_literals_quotes (h : Quotes text bytes) (hmore : EndsLiterals more)
    (hrest : c.rest = text ++ more) {rounds : Nat} (hrounds : text.length < rounds) (read : Bytes) :
    ∃ t, literals rounds (read, c) = .ok () (read ++ bytes, t) ∧
      t.rest = behindBlanks false more := by
  -- Every literal takes one round and at least its two quotes, so the rounds do not run out.
  induction h generalizing c rounds read with
  | nil =>
    obtain ⟨rounds, rfl⟩ := Nat.exists_eq_succ_of_ne_zero (Nat.ne_of_gt hrounds)
    have hend : atString c = .ok false c.settle := run_atString_end (by rwa [hrest])
    refine ⟨c.settle, ?_, ?_⟩
    · rw [literals, run_bind_of_ok (read_eq_ok.2 ⟨hend, rfl⟩), List.append_nil]
      rfl
    · rw [Cursor.rest_settle, hrest]
      rfl
  | @cons gap written value text bytes gap_skipped literal rest ih =>
    obtain ⟨rounds, rfl⟩ := Nat.exists_eq_succ_of_ne_zero (n := rounds) (by omega)
    have hquote : c.settle.rest = byte '"' :: (written ++ byte '"' :: (text ++ more)) := by
      rw [Cursor.rest_settle, hrest, List.append_assoc, gap_skipped.behindBlanks_append]
      simp [behindBlanks_quote]
    obtain ⟨c', hone, hc', -⟩ :=
      run_literals literal (run_atString_quote hquote) ⟨hquote, rfl⟩ read rounds
    have hshorter : text.length < rounds := by
      simp only [List.length_append, List.length_cons] at hrounds
      omega
    obtain ⟨t, hothers, ht⟩ := ih hc' hshorter (read ++ value)
    exact ⟨t, by rw [hone, hothers, List.append_assoc], ht⟩

/-- Literals behind each other are read as what they stand for together, up to the next token. -/
theorem run_stringLiteral (literal : StandFor (byte '"') written value) (h : Quotes text bytes)
    (hmore : EndsLiterals more)
    (hrest : behindBlanks false c.rest = byte '"' :: (written ++ byte '"' :: (text ++ more))) :
    ∃ t, stringLiteral c = .ok (value ++ bytes) t ∧ t.rest = behindBlanks false more := by
  have hquote : c.settle.rest = byte '"' :: (written ++ byte '"' :: (text ++ more)) :=
    (Cursor.rest_settle c).trans hrest
  have hrounds : (byte '"' :: (written ++ byte '"' :: text)).length <
      c.settle.rest.length + 1 := by
    rw [hquote]
    simp only [List.length_append, List.length_cons]
    omega
  -- The first quote was peeked at already, so no gap stands before the first literal any more.
  have hall : c.settle.rest = byte '"' :: (written ++ byte '"' :: text) ++ more := by
    rw [hquote, List.cons_append, List.append_assoc]
    rfl
  obtain ⟨t, hrun, ht⟩ := run_literals_quotes (.cons .nil literal h) hmore hall hrounds []
  refine ⟨t, ?_, ht⟩
  rw [stringLiteral, run_bind_of_ok (run_atString_quote hquote)]
  refine (run_bind_of_ok (run_get c.settle)).trans (alone_eq_ok.2 ?_)
  rw [hrun]
  rfl

/-- Bytes that are cut into pieces are quoted one piece behind the other. -/
theorem quotes_escapeBytes {pieces : List (Bytes × Bytes)} (h : ∀ piece ∈ pieces, Gap piece.1) :
    Quotes (pieces.flatMap fun piece => piece.1 ++ Utf8.encode (quote (escapeBytes piece.2)))
      (pieces.flatMap fun piece => piece.2) := by
  induction pieces with
  | nil => exact .nil
  | cons piece pieces ih =>
    obtain ⟨hgap, hgaps⟩ := List.forall_mem_cons.1 h
    have hcons := Quotes.cons hgap (standFor_escapeBytes piece.2) (ih hgaps)
    simpa only [List.flatMap_cons, encode_quote, List.append_assoc, List.cons_append,
      List.nil_append] using hcons

theorem printable_of_mem_escapeBytes {bytes : Bytes} {char : Char}
    (h : char ∈ (escapeBytes bytes).toList) : 32 ≤ char.toNat ∧ char.toNat ≤ 126 := by
  rw [escapeBytes, String.toList_ofList] at h
  obtain ⟨b, -, hb⟩ := List.mem_flatMap.1 h
  exact printable_of_mem_escapeByte hb

theorem run_quote {escaped : String} (literal : StandFor (byte '"') (Utf8.encode escaped) value)
    (hmore : EndsLiterals more)
    (hrest : behindBlanks false c.rest = Utf8.encode (quote escaped) ++ more) :
    ∃ t, stringLiteral c = .ok value t ∧ t.rest = behindBlanks false more := by
  rw [encode_quote, List.cons_append, List.append_assoc] at hrest
  have hrun := run_stringLiteral literal .nil hmore hrest
  rwa [List.append_nil] at hrun

/-- Whatever is escaped is read back: between quotes, what is written for some bytes stands for
exactly these bytes, and what is written for a string for exactly the bytes of that string. Reading
ends in front of the next token, if that is no quote. Bytes may also be cut into pieces, each of
them quoted behind blanks and comments. All that is written for bytes is printable ASCII. -/
theorem literals_exact (c : Cursor) (more : Bytes) (hmore : EndsLiterals more) :
    (∀ b : Bytes, behindBlanks false c.rest = Utf8.encode (quote (escapeBytes b)) ++ more →
      ∃ t, stringLiteral c = .ok b t ∧ t.rest = behindBlanks false more) ∧
    (∀ s : String, behindBlanks false c.rest = Utf8.encode (quote (escapeString s)) ++ more →
      ∃ t, stringLiteral c = .ok (Utf8.encode s) t ∧ t.rest = behindBlanks false more) ∧
    (∀ (b : Bytes) (pieces : List (Bytes × Bytes)), pieces ≠ [] →
      (∀ piece ∈ pieces, Gap piece.1) → (pieces.flatMap fun piece => piece.2) = b →
      c.rest = (pieces.flatMap fun piece =>
        piece.1 ++ Utf8.encode (quote (escapeBytes piece.2))) ++ more →
      ∃ t, stringLiteral c = .ok b t ∧ t.rest = behindBlanks false more) ∧
    ∀ b : Bytes, ∀ char ∈ (escapeBytes b).toList, 32 ≤ char.toNat ∧ char.toNat ≤ 126 := by
  refine ⟨fun b hrest => run_quote (standFor_escapeBytes b) hmore hrest,
    fun s hrest => run_quote (standFor_escapeString s) hmore hrest, ?_,
    fun b char hchar => printable_of_mem_escapeBytes hchar⟩
  rintro _ pieces hne hgaps rfl hrest
  cases pieces with
  | nil => exact absurd rfl hne
  | cons piece pieces =>
    obtain ⟨hgap, hgaps⟩ := List.forall_mem_cons.1 hgaps
    refine run_stringLiteral (standFor_escapeBytes piece.2) (quotes_escapeBytes hgaps) hmore ?_
    rw [hrest, List.flatMap_cons, encode_quote, List.append_assoc, List.append_assoc,
      hgap.behindBlanks_append, List.cons_append, List.append_assoc]
    rfl

/-- An octal escape stands in front of a digit, another literal behind a comment in which there is a
quote, and a bracket behind both. -/
theorem literals_exact_octal :
    let pieces : List (Bytes × Bytes) := [([], [200, 49]), ([10, 35, 34, 10], [7, 34])]
    let c : Cursor := { Cursor.new "" with
      rest := (pieces.flatMap fun piece =>
        piece.1 ++ Utf8.encode (quote (escapeBytes piece.2))) ++ [byte ' ', byte ']'] }
    EndsLiterals [byte ' ', byte ']'] ∧ (∀ piece ∈ pieces, Gap piece.1) ∧
      Utf8.encode (quote (escapeBytes [200, 49])) = Utf8.encode "\"\\3101\"" ∧
      ∃ t, stringLiteral c = .ok [200, 49, 7, 34] t ∧ t.rest = [byte ']'] := by
  intro pieces c
  have hmore : EndsLiterals [byte ' ', byte ']'] := by
    rintro b hb
    obtain rfl := Option.some.inj hb
    decide
  have hgaps : ∀ piece ∈ pieces, Gap piece.1 := by
    refine List.forall_mem_cons.2 ⟨.nil, List.forall_mem_singleton.2 ?_⟩
    exact .space (by decide) (@Gap.comment [34] [] (by decide) .nil)
  exact ⟨hmore, hgaps, by decide, (literals_exact c _ hmore).2.2.1 _ pieces (List.cons_ne_nil _ _)
    hgaps rfl rfl⟩

end Scan

end Text

end Protobuf
