import Protobuf.Proofs.Text.Colons
import Protobuf.Proofs.Text.Tokens

/-!
# Skipping scalars

Reading a value and skipping it follow the same text with two programs. A reader is trailed by
another program that reaches the same place, whatever colon it remembers, or that gives up at a list
without a colon (`Text.Trails`). Whatever is read as a scalar is skipped up to the same place, or it
ends in front of a point or a sign, where nothing else can be read (`Text.Scan.scalarAt_of_scalar`).
-/

namespace Protobuf

open Build

variable {σ α β : Type}

namespace Text

/-! ## Behind blanks -/

namespace Cursor

/-- The place behind blanks and comments. -/
def settle (c : Cursor) : Cursor := c.skipBlanks false c.rest

theorem settle_of_head {c : Cursor} (h : ∀ b ∈ c.rest.head?, isSpace b = false ∧ b ≠ byte '#') :
    c.settle = c := by
  unfold settle
  cases hrest : c.rest with
  | nil => rfl
  | cons b rest =>
    obtain ⟨hspace, hhash⟩ := h b (by rw [hrest]; rfl)
    obtain ⟨hblank, hnewline⟩ := Bool.or_eq_false_iff.1 hspace
    rw [skipBlanks, if_neg (of_decide_eq_false hnewline), if_neg (by rw [hblank]; decide),
      if_neg hhash]

/-- Behind blanks and comments there are no more of them. -/
theorem head_skipBlanks (inComment : Bool) {c : Cursor} {bytes : Bytes} (h : c.rest = bytes) :
    ∀ b ∈ (c.skipBlanks inComment bytes).rest.head?, isSpace b = false ∧ b ≠ byte '#' := by
  induction bytes generalizing inComment c with
  | nil =>
    intro b hb
    rw [skipBlanks, h] at hb
    cases hb
  | cons b bytes ih =>
    have hrest : (c.advance 1).rest = bytes := rest_advance_one h
    have hrest' : c.newline.rest = bytes := hrest
    unfold skipBlanks
    by_cases hnewline : b = byte '\n'
    · rw [if_pos hnewline]
      exact ih false hrest'
    · rw [if_neg hnewline]
      by_cases hblank : (inComment || isBlank b) = true
      · rw [if_pos hblank]
        exact ih inComment hrest
      · rw [if_neg hblank]
        by_cases hhash : b = byte '#'
        · rw [if_pos hhash]
          exact ih true hrest
        · rw [if_neg hhash, h]
          intro b' hb'
          obtain rfl := Option.some.inj hb'
          obtain ⟨-, hblank⟩ := Bool.or_eq_false_iff.1 (Bool.eq_false_iff.2 hblank)
          exact ⟨by rw [isSpace, hblank, decide_eq_false hnewline]; rfl, hhash⟩

@[simp] theorem settle_settle (c : Cursor) : c.settle.settle = c.settle :=
  settle_of_head (head_skipBlanks false rfl)

theorem settle_withColon (c : Cursor) (saw : Bool) :
    (c.withColon saw).settle = c.settle.withColon saw :=
  Scan.skipBlanks_withColon saw false c.rest c

theorem length_settle_le (c : Cursor) : c.settle.rest.length ≤ c.rest.length :=
  (before_skipBlanks false rfl).length_le

end Cursor

/-- The action starts by skipping blanks and comments. -/
def Settles (x : Scan α) : Prop := ∀ c : Cursor, x c.settle = x c

theorem Settles.bind {x : Scan α} {f : α → Scan β} (h : Settles x) : Settles (x >>= f) := by
  intro c
  rw [run_bind, run_bind, h c]

namespace Scan

theorem settles_blanks : Settles blanks := by
  intro c
  show EStateM.Result.ok _ c.settle.settle = EStateM.Result.ok _ c.settle
  rw [Cursor.settle_settle]

theorem settles_peek : Settles peek := settles_blanks.bind

theorem settles_tryChar (char : Char) : Settles (tryChar char) := settles_peek.bind

theorem settles_openBlock : Settles openBlock := (settles_tryChar _).bind

theorem settles_numberToken : Settles numberToken := settles_blanks.bind

theorem settles_stringLiteral : Settles stringLiteral := settles_peek.bind.bind

theorem run_peek (c : Cursor) : peek c = .ok c.settle.rest.head? c.settle := rfl

theorem run_line (c : Cursor) : line c = .ok c.settle.line c.settle := rfl

theorem run_atBlock (c : Cursor) : atBlock c =
    .ok (c.settle.rest.head? = some (byte '\x7b') || c.settle.rest.head? = some (byte '<'))
      c.settle := rfl

theorem run_atString (c : Cursor) : atString c =
    .ok (c.settle.rest.head? = some (byte '"') || c.settle.rest.head? = some (byte '\''))
      c.settle := rfl

theorem tryChar_eq_true {char : Char} {c d : Cursor} :
    tryChar char c = .ok true d ↔
      c.settle.rest.head? = some (byte char) ∧ d = c.settle.advance 1 := by
  rw [tryChar, run_bind_of_ok (run_peek c)]
  split
  · rename_i h
    constructor
    · intro hrun
      cases hrun
      exact ⟨h, rfl⟩
    · rintro ⟨-, rfl⟩
      rfl
  · rename_i h
    constructor
    · intro hrun
      cases hrun
    · intro hrun
      exact absurd hrun.1 h

theorem tryChar_eq_false {char : Char} {c d : Cursor} :
    tryChar char c = .ok false d ↔
      c.settle.rest.head? ≠ some (byte char) ∧ d = c.settle := by
  rw [tryChar, run_bind_of_ok (run_peek c)]
  split
  · rename_i h
    constructor
    · intro hrun
      cases hrun
    · intro hrun
      exact absurd h hrun.1
  · rename_i h
    constructor
    · intro hrun
      cases hrun
      exact ⟨h, rfl⟩
    · rintro ⟨-, rfl⟩
      rfl

end Scan

/-! ## Trailing a reader -/

/-- The action gives up at a list for which there is no colon, and which opens at one of the
places. -/
def GivesUp (lists : Cursor → Prop) (y : Scan β) (c : Cursor) : Prop :=
  ∃ u v : Cursor, lists u ∧
    y c = .error (.malformedText u.line (u.position - u.lineStart + 1) .expectedColonOrBlock) v

/-- From the first place on, with a colon or without one, the action reaches the second place, or
it gives up at a list which opens at one of the places. -/
def Trails (lists : Cursor → Prop) (y : Scan β) (c c' : Cursor) : Prop :=
  ∀ saw, (∃ b saw', y (c.withColon saw) = .ok b (c'.withColon saw')) ∨
    GivesUp lists y (c.withColon saw)

namespace Trails

variable {lists lists' : Cursor → Prop}

theorem mono {y : Scan β} {c d : Cursor} (h : Trails lists y c d)
    (hlists : ∀ u, lists u → lists' u) : Trails lists' y c d := by
  intro saw
  rcases h saw with hrun | ⟨u, v, hu, hrun⟩
  · exact .inl hrun
  · exact .inr ⟨u, v, hlists u hu, hrun⟩

theorem bind {y : Scan α} {f : α → Scan β} {c d e : Cursor} (h : Trails lists y c d)
    (hf : ∀ b, Trails lists (f b) d e) : Trails lists (y >>= f) c e := by
  intro saw
  rcases h saw with ⟨b, saw', hb⟩ | ⟨u, v, hu, hrun⟩
  · rcases hf b saw' with ⟨b', saw'', hb'⟩ | ⟨u, v, hu, hrun⟩
    · exact .inl ⟨b', saw'', (run_bind_of_ok hb).trans hb'⟩
    · exact .inr ⟨u, v, hu, (run_bind_of_ok hb).trans hrun⟩
  · exact .inr ⟨u, v, hu, run_bind_of_error hrun⟩

/-- A token that is read is read with a colon and without one. -/
theorem of_ok {y : Scan β} (hy : IgnoresColon y) {c d : Cursor} {b : β} (h : y c = .ok b d) :
    Trails lists y c d := fun saw => .inl ⟨b, saw, by rw [hy c saw, h]; rfl⟩

/-- After a token the action goes on with what was read. -/
theorem step {y : Scan α} (hy : IgnoresColon y) {f : α → Scan β} {c d e : Cursor} {a : α}
    (h : y c = .ok a d) (hf : Trails lists (f a) d e) : Trails lists (y >>= f) c e := by
  intro saw
  have hrun : y (c.withColon saw) = .ok a (d.withColon saw) := by
    rw [hy c saw, h]
    rfl
  rcases hf saw with ⟨b, saw', hb⟩ | ⟨u, v, hu, hlist⟩
  · exact .inl ⟨b, saw', (run_bind_of_ok hrun).trans hb⟩
  · exact .inr ⟨u, v, hu, (run_bind_of_ok hrun).trans hlist⟩

theorem pure (b : β) (c : Cursor) : Trails lists (Pure.pure b : Scan β) c c :=
  fun saw => .inl ⟨b, saw, rfl⟩

end Trails

/-! ## Scalars -/

/-- Next comes a byte with which nothing starts that can follow a value. -/
def Cursor.Stuck (c : Cursor) : Prop :=
  ∃ b ∈ c.rest.head?, b = byte '.' ∨ b = byte '+' ∨ b = byte '-'

namespace Cursor.Stuck

variable {c : Cursor}

theorem settle_eq (h : c.Stuck) : c.settle = c := by
  obtain ⟨b, hb, hcases⟩ := h
  refine settle_of_head fun b' hb' => ?_
  obtain rfl := Option.some.inj (hb.symm.trans hb')
  rcases hcases with rfl | rfl | rfl <;> decide

theorem head?_ne (h : c.Stuck) {b : UInt8} (hb : b ∉ [byte '.', byte '+', byte '-']) :
    c.rest.head? ≠ some b := by
  obtain ⟨b', hb', hcases⟩ := h
  intro heq
  obtain rfl := Option.some.inj (hb'.symm.trans heq)
  simp only [List.mem_cons, List.not_mem_nil, or_false] at hb
  exact hb hcases

end Cursor.Stuck

namespace Scan

theorem tryChar_of_stuck {c : Cursor} (h : c.Stuck) {char : Char}
    (hchar : byte char ∉ [byte '.', byte '+', byte '-']) : tryChar char c = .ok false c := by
  refine tryChar_eq_false.2 ⟨?_, h.settle_eq.symm⟩
  rw [h.settle_eq]
  exact h.head?_ne hchar

theorem separator_of_stuck {c : Cursor} (h : c.Stuck) : separator c = .ok () c := by
  rw [separator, run_bind_of_ok (tryChar_of_stuck h (by decide))]
  exact run_bind_of_ok (tryChar_of_stuck h (by decide))

theorem fieldName_of_stuck {c : Cursor} (h : c.Stuck) (name : FieldName) (d : Cursor) :
    fieldName c ≠ .ok name d := by
  intro hrun
  have hdigit : ¬ c.settle.rest.head?.any isDigit = true := by
    rw [h.settle_eq]
    obtain ⟨b, hb, hcases⟩ := h
    rw [Option.mem_def.1 hb, Option.any_some]
    rcases hcases with rfl | rfl | rfl <;> decide
  have hstart : ¬ c.settle.settle.rest.head?.any isNameStart = true := by
    rw [Cursor.settle_settle, h.settle_eq]
    obtain ⟨b, hb, hcases⟩ := h
    rw [Option.mem_def.1 hb, Option.any_some]
    rcases hcases with rfl | rfl | rfl <;> decide
  have hbracket : c.settle.rest.head? ≠ some (byte '[') := by
    rw [h.settle_eq]
    exact h.head?_ne (by decide)
  have hidentifier : identifier c.settle = .ok none c.settle.settle := by
    show (if c.settle.settle.rest.head?.any isNameStart = true then _ else _ : Scan _) _ = _
    rw [if_neg hstart]
    rfl
  rw [fieldName, run_bind_of_ok (run_peek c), if_neg hdigit, if_neg hbracket,
    run_bind_of_ok hidentifier] at hrun
  cases hrun

theorem expect_of_stuck {c : Cursor} (h : c.Stuck) {char : Char}
    (hchar : byte char ∉ [byte '.', byte '+', byte '-']) (d : Cursor) :
    expect char c ≠ .ok () d := by
  intro hrun
  rw [expect, run_bind_of_ok (tryChar_of_stuck h hchar)] at hrun
  cases hrun

/-- The bytes of a number go on behind those of a name only with a point or a sign. -/
theorem numberSpan_cases (hexadecimal afterE : Bool) (bytes : Bytes) :
    numberSpan hexadecimal afterE bytes = bytes.takeWhile isNameByte ∨
      ∃ b ∈ (bytes.dropWhile isNameByte).head?, b = byte '.' ∨ b = byte '+' ∨ b = byte '-' := by
  induction bytes generalizing afterE with
  | nil => exact .inl rfl
  | cons b bytes ih =>
    by_cases hname : isNameByte b = true
    · rw [numberSpan, if_pos (by rw [hname]; rfl), List.takeWhile_cons_of_pos hname,
        List.dropWhile_cons_of_pos hname]
      rcases ih (b = byte 'e' || b = byte 'E') with h | h
      · exact .inl (by rw [h])
      · exact .inr h
    · rw [List.takeWhile_cons_of_neg hname, List.dropWhile_cons_of_neg hname, numberSpan]
      by_cases hsign : b = byte '.' ∨ b = byte '+' ∨ b = byte '-'
      · exact .inr ⟨b, rfl, hsign⟩
      · obtain ⟨hpoint, hplus, hminus⟩ : b ≠ byte '.' ∧ b ≠ byte '+' ∧ b ≠ byte '-' := by
          simpa only [not_or] using hsign
        rw [if_neg]
        · exact .inl rfl
        · simp [hname, hpoint, hplus, hminus]

/-- A scalar stands there: it is skipped up to the second place, or nothing can be read behind
it. -/
structure ScalarAt (c c' : Cursor) : Prop where
  /-- Neither a block nor a list stands there. -/
  starts : ∀ b ∈ c.settle.rest.head?, b ≠ byte '\x7b' ∧ b ≠ byte '<' ∧ b ≠ byte '['
  /-- The scalar is skipped. -/
  skip : skipScalar c.settle = .ok () c' ∨ c'.Stuck

/-- The byte may start a number or a word. -/
def startsNumber (b : UInt8) : Bool := isNameByte b || b = byte '.' || b = byte '-'

theorem head_of_numberToken {c c' : Cursor} {token : String} (h : numberToken c = .ok token c') :
    ∃ b ∈ c.settle.rest.head?, startsNumber b = true := by
  have hblanks : blanks c = .ok () c.settle := rfl
  rw [numberToken, run_bind_of_ok hblanks, run_bind_of_ok (run_get _)] at h
  dsimp only at h
  by_cases hminus : c.settle.rest.head? = some (byte '-')
  · exact ⟨_, hminus, by decide⟩
  · rw [if_neg hminus, run_bind_of_ok (run_get _)] at h
    cases hrest : c.settle.rest with
    | nil =>
      rw [hrest] at h
      cases h
    | cons b rest =>
      refine ⟨b, rfl, ?_⟩
      by_cases hb : (isNameByte b || b = byte '.') = true
      · rw [startsNumber, hb, Bool.true_or]
      · have hempty : numberSpan (startsHexadecimal c.settle.rest) false c.settle.rest = [] := by
          rw [hrest, numberSpan, if_neg]
          simpa using hb
        rw [hempty] at h
        cases h

theorem scalarAt_of_numberToken {c c' : Cursor} {token : String}
    (h : numberToken c = .ok token c') : ScalarAt c c' := by
  obtain ⟨b, hb, hstart⟩ := head_of_numberToken h
  have hne : ∀ b', startsNumber b' = false → c.settle.rest.head? ≠ some b' := by
    intro b' hb' heq
    exact ne_of_test hstart hb' (Option.some.inj (hb.symm.trans heq))
  refine ⟨fun b' hb' => ?_, .inl ?_⟩
  · have hstart' : startsNumber b' = true := by
      obtain rfl := Option.some.inj (hb.symm.trans hb')
      exact hstart
    exact ⟨ne_of_test hstart' (by decide), ne_of_test hstart' (by decide),
      ne_of_test hstart' (by decide)⟩
  · rw [skipScalar, run_bind_of_ok (run_atString _), Cursor.settle_settle,
      decide_eq_false (hne _ (by decide)), decide_eq_false (hne _ (by decide))]
    have hrun : numberToken c.settle = .ok token c' := (settles_numberToken c).trans h
    exact run_bind_of_ok hrun

theorem scalarAt_of_stringLiteral {c c' : Cursor} {b : Bytes} (h : stringLiteral c = .ok b c') :
    ScalarAt c c' := by
  have hquote : (decide (c.settle.rest.head? = some (byte '"')) ||
      decide (c.settle.rest.head? = some (byte '\''))) = true := by
    rw [stringLiteral, run_bind_of_ok (run_atString c)] at h
    rw [← Bool.not_eq_false]
    intro hfalse
    rw [hfalse] at h
    cases h
  refine ⟨fun b' hb' => ?_, .inl ?_⟩
  · rw [Option.mem_def.1 hb', Bool.or_eq_true, decide_eq_true_eq, decide_eq_true_eq] at hquote
    rcases hquote with hquote | hquote <;> obtain rfl := Option.some.inj hquote <;> decide
  · rw [skipScalar, run_bind_of_ok (run_atString _), Cursor.settle_settle, hquote, if_pos rfl]
    have hrun : stringLiteral c.settle = .ok b c' := (settles_stringLiteral c).trans h
    exact run_bind_of_ok hrun

theorem numberToken_of_name {c : Cursor} {b : UInt8} {rest : Bytes} (hrest : c.rest = b :: rest)
    (hb : isNameStart b = true) :
    numberToken c = .ok (ofAscii (numberSpan (startsHexadecimal c.rest) false c.rest))
      (c.advance (numberSpan (startsHexadecimal c.rest) false c.rest).length) := by
  have hname : isNameByte b = true := by rw [isNameByte, hb, Bool.true_or]
  have hhead : c.rest.head? = some b := by rw [hrest, List.head?_cons]
  have hsettle : c.settle = c := by
    refine Cursor.settle_of_head fun b' hb' => ?_
    obtain rfl := Option.some.inj (hhead.symm.trans hb')
    exact ⟨not_isSpace_of_test (by decide) hb, ne_of_test hb (by decide)⟩
  have hblanks : blanks c = .ok () c := congrArg (EStateM.Result.ok ()) hsettle
  have hminus : ¬ c.rest.head? = some (byte '-') := by
    intro h
    exact ne_of_test hb (by decide) (Option.some.inj (hhead.symm.trans h))
  have hempty : ¬ (numberSpan (startsHexadecimal c.rest) false c.rest).isEmpty = true := by
    rw [hrest, numberSpan, if_pos (by rw [hname]; rfl), List.isEmpty_cons]
    exact Bool.false_ne_true
  rw [numberToken, run_bind_of_ok hblanks, run_bind_of_ok (run_get c)]
  dsimp only
  rw [if_neg hminus]
  show (if (numberSpan (startsHexadecimal c.rest) false c.rest).isEmpty = true then _ else _ :
    Scan String) _ = _
  rw [if_neg hempty, if_neg hminus]
  rfl

theorem scalarAt_of_identifier {c c' : Cursor} {name : String}
    (h : identifier c = .ok (some name) c') : ScalarAt c c' := by
  have hblanks : blanks c = .ok () c.settle := rfl
  rw [identifier, run_bind_of_ok hblanks, run_bind_of_ok (run_get _)] at h
  by_cases hstart : c.settle.rest.head?.any isNameStart = true
  · rw [if_pos hstart] at h
    cases h
    cases hrest : c.settle.rest with
    | nil =>
      rw [hrest] at hstart
      cases hstart
    | cons b rest =>
      have hhead : c.settle.rest.head? = some b := by rw [hrest, List.head?_cons]
      have hb : isNameStart b = true := by
        rw [hhead] at hstart
        exact hstart
      have hne : ∀ b', isNameStart b' = false → c.settle.rest.head? ≠ some b' := by
        intro b' hb' heq
        exact ne_of_test hb hb' (Option.some.inj (hhead.symm.trans heq))
      refine ⟨fun b' hb' => ?_, ?_⟩
      · obtain rfl := Option.some.inj (hhead.symm.trans hb')
        exact ⟨ne_of_test hb (by decide), ne_of_test hb (by decide), ne_of_test hb (by decide)⟩
      · rcases numberSpan_cases (startsHexadecimal c.settle.rest) false c.settle.rest with
          hspan | ⟨b', hb', hsign⟩
        · left
          have hrun := numberToken_of_name hrest hb
          rw [hspan, hrest] at hrun
          rw [skipScalar, run_bind_of_ok (run_atString _), Cursor.settle_settle,
            decide_eq_false (hne _ (by decide)), decide_eq_false (hne _ (by decide))]
          exact run_bind_of_ok hrun
        · refine .inr ⟨b', ?_, hsign⟩
          have hdrop : (c.settle.rest.takeWhile isNameByte ++
              c.settle.rest.dropWhile isNameByte).drop
                (c.settle.rest.takeWhile isNameByte).length =
              c.settle.rest.dropWhile isNameByte := List.drop_left
          rw [List.takeWhile_append_dropWhile] at hdrop
          show (c.settle.rest.drop _).head? = some b'
          rw [← hrest, hdrop]
          exact hb'
  · rw [if_neg hstart] at h
    cases h

/-- What needs a colon is only read behind one. -/
theorem of_requireColon_bind {f : Unit → Scan α} {c c' : Cursor} {a : α}
    (h : (requireColon >>= f) c = .ok a c') : c.sawColon = true ∧ f () c = .ok a c' := by
  cases hsaw : c.sawColon with
  | true =>
    have hrun : requireColon c = .ok () c := by
      rw [requireColon, run_bind_of_ok (run_get c), hsaw]
      rfl
    exact ⟨rfl, (run_bind_of_ok hrun).symm.trans h⟩
  | false =>
    obtain ⟨_, d, hd, -⟩ := bind_eq_ok.1 h
    rw [requireColon, run_bind_of_ok (run_get c), hsaw] at hd
    cases hd

theorem numberToken_of_integer {c c' : Cursor} {value : Bool × Nat}
    (h : integer c = .ok value c') : ∃ token, numberToken c = .ok token c' := by
  obtain ⟨token, d, hd, hnext⟩ := bind_eq_ok.1 h
  cases hvalue : integer? token with
  | some value =>
    rw [hvalue] at hnext
    cases hnext
    exact ⟨token, hd⟩
  | none =>
    rw [hvalue] at hnext
    cases hnext

theorem numberToken_of_signedInteger {low high value : Int} {c c' : Cursor}
    (h : signedInteger low high c = .ok value c') :
    c.sawColon = true ∧ ∃ token, numberToken c = .ok token c' := by
  obtain ⟨hsaw, hrun⟩ := of_requireColon_bind h
  obtain ⟨⟨negative, magnitude⟩, d, hd, hnext⟩ := bind_eq_ok.1 hrun
  dsimp only at hnext
  split at hnext
  · cases hnext
  · cases hnext
    exact ⟨hsaw, numberToken_of_integer hd⟩

theorem numberToken_of_unsignedInteger {bound value : Nat} {c c' : Cursor}
    (h : unsignedInteger bound c = .ok value c') :
    c.sawColon = true ∧ ∃ token, numberToken c = .ok token c' := by
  obtain ⟨hsaw, hrun⟩ := of_requireColon_bind h
  obtain ⟨⟨negative, magnitude⟩, d, hd, hnext⟩ := bind_eq_ok.1 hrun
  dsimp only at hnext
  split at hnext
  · cases hnext
  · cases hnext
    exact ⟨hsaw, numberToken_of_integer hd⟩

theorem numberToken_of_double {c c' : Cursor} {bits : UInt64} (h : double c = .ok bits c') :
    c.sawColon = true ∧ ∃ token, numberToken c = .ok token c' := by
  obtain ⟨hsaw, hrun⟩ := of_requireColon_bind h
  obtain ⟨token, d, hd, hnext⟩ := bind_eq_ok.1 hrun
  cases hbits : double? token with
  | some bits =>
    rw [hbits] at hnext
    cases hnext
    exact ⟨hsaw, token, hd⟩
  | none =>
    rw [hbits] at hnext
    cases hnext

theorem numberToken_of_bool {c c' : Cursor} {value : Bool} (h : bool c = .ok value c') :
    c.sawColon = true ∧ ∃ token, numberToken c = .ok token c' := by
  obtain ⟨hsaw, hrun⟩ := of_requireColon_bind h
  obtain ⟨token, d, hd, hnext⟩ := bind_eq_ok.1 hrun
  cases hvalue : bool? token with
  | some value =>
    rw [hvalue] at hnext
    cases hnext
    exact ⟨hsaw, token, hd⟩
  | none =>
    rw [hvalue] at hnext
    cases hnext

theorem stringLiteral_of_string {c c' : Cursor} {s : String} (h : string c = .ok s c') :
    c.sawColon = true ∧ ∃ b, stringLiteral c = .ok b c' := by
  unfold string at h
  obtain ⟨b, d, hd, hnext⟩ := bind_eq_ok.1 h
  obtain ⟨hsaw, hrun⟩ := of_requireColon_bind hd
  cases hdecode : Utf8.decode b with
  | ok s =>
    simp only [hdecode] at hnext
    cases hnext
    exact ⟨hsaw, b, hrun⟩
  | error e =>
    simp only [hdecode] at hnext
    cases hnext

theorem scalarAt_of_enum {type : EnumType} {c c' : Cursor} {v : Int32}
    (h : enum type c = .ok v c') : c.sawColon = true ∧ ScalarAt c c' := by
  obtain ⟨hsaw, hrun⟩ := of_requireColon_bind h
  refine ⟨hsaw, ?_⟩
  obtain ⟨name, d, hd, hnext⟩ := bind_eq_ok.1 hrun
  cases name with
  | some name =>
    cases hnumber : type.number? name with
    | some value =>
      dsimp only at hnext
      rw [hnumber] at hnext
      cases hnext
      exact scalarAt_of_identifier hd
    | none =>
      dsimp only at hnext
      rw [hnumber] at hnext
      cases hnext
  | none =>
    obtain ⟨⟨negative, magnitude⟩, u, hu, hlast⟩ := bind_eq_ok.1 hnext
    dsimp only at hlast
    split at hlast
    · cases hlast
    · cases hlast
      obtain ⟨token, htoken⟩ := numberToken_of_integer hu
      have hsettle : d = c.settle := by
        have hblanks : blanks c = .ok () c.settle := rfl
        rw [identifier, run_bind_of_ok hblanks, run_bind_of_ok (run_get _)] at hd
        split at hd
        · cases hd
        · cases hd
          rfl
      rw [hsettle] at htoken
      exact scalarAt_of_numberToken ((settles_numberToken c).symm.trans htoken)

/-- Behind a colon a scalar of any type is read. -/
theorem scalarAt_of_scalar {kind : ScalarKind} {c c' : Cursor} {s : Scalar}
    (h : scalar kind c = .ok s c') : c.sawColon = true ∧ ScalarAt c c' := by
  have hnumber : (c.sawColon = true ∧ ∃ token, numberToken c = .ok token c') →
      c.sawColon = true ∧ ScalarAt c c' := by
    rintro ⟨hsaw, token, htoken⟩
    exact ⟨hsaw, scalarAt_of_numberToken htoken⟩
  cases kind with
  | int32 | sint32 | sfixed32 =>
    obtain ⟨_, h, -⟩ := map_eq_ok.1 h
    obtain ⟨_, h, -⟩ := map_eq_ok.1 h
    exact hnumber (numberToken_of_signedInteger h)
  | int64 | sint64 | sfixed64 =>
    obtain ⟨_, h, -⟩ := map_eq_ok.1 h
    obtain ⟨_, h, -⟩ := map_eq_ok.1 h
    exact hnumber (numberToken_of_signedInteger h)
  | uint32 | fixed32 =>
    obtain ⟨_, h, -⟩ := map_eq_ok.1 h
    obtain ⟨_, h, -⟩ := map_eq_ok.1 h
    exact hnumber (numberToken_of_unsignedInteger h)
  | uint64 | fixed64 =>
    obtain ⟨_, h, -⟩ := map_eq_ok.1 h
    obtain ⟨_, h, -⟩ := map_eq_ok.1 h
    exact hnumber (numberToken_of_unsignedInteger h)
  | float =>
    obtain ⟨_, h, -⟩ := map_eq_ok.1 h
    obtain ⟨_, d, h, hpure⟩ := bind_eq_ok.1 h
    cases hpure
    exact hnumber (numberToken_of_double h)
  | double =>
    obtain ⟨_, h, -⟩ := map_eq_ok.1 h
    exact hnumber (numberToken_of_double h)
  | bool =>
    obtain ⟨_, h, -⟩ := map_eq_ok.1 h
    exact hnumber (numberToken_of_bool h)
  | enum type =>
    obtain ⟨_, h, -⟩ := map_eq_ok.1 h
    exact scalarAt_of_enum h
  | string =>
    obtain ⟨_, h, -⟩ := map_eq_ok.1 h
    obtain ⟨hsaw, b, hb⟩ := stringLiteral_of_string h
    exact ⟨hsaw, scalarAt_of_stringLiteral hb⟩
  | bytes =>
    obtain ⟨_, h, -⟩ := map_eq_ok.1 h
    obtain ⟨hsaw, hb⟩ := of_requireColon_bind h
    exact ⟨hsaw, scalarAt_of_stringLiteral hb⟩

end Scan

end Text

end Protobuf
