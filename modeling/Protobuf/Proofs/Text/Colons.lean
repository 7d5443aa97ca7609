import Protobuf.Proofs.Text.Skipping

/-!
# What does not depend on colons

The cursor remembers whether a colon stood behind the last field name. Only the readers of scalars
ask for it: names, tokens and literals are read, and values are skipped, in the same way with a
colon and without one (`Text.IgnoresColon`).
-/

namespace Protobuf

open Build

variable {σ α β : Type}

namespace Text

/-- The same place, with a colon behind the last field name or without one. -/
def Cursor.withColon (saw : Bool) (c : Cursor) : Cursor := { c with sawColon := saw }

/-- The same value, and the same place with a colon or without one. -/
def besideColon (saw : Bool) (p : σ × Cursor) : σ × Cursor := (p.1, p.2.withColon saw)

/-- The outcome with another state. -/
def moved (move : σ → σ) : EStateM.Result Error σ α → EStateM.Result Error σ α
  | .ok a t => .ok a (move t)
  | .error e t => .error e (move t)

/-- From the state on, the action does the same with a colon and without one. -/
def IgnoresFrom (mark : Bool → σ → σ) (s : σ) (x : EStateM Error σ α) : Prop :=
  ∀ saw, x (mark saw s) = moved (mark saw) (x s)

/-- The action does the same with a colon and without one. -/
def Ignores (mark : Bool → σ → σ) (x : EStateM Error σ α) : Prop := ∀ s, IgnoresFrom mark s x

/-- Text is read in the same way with a colon and without one. -/
abbrev IgnoresColon (x : Scan α) : Prop := Ignores Cursor.withColon x

/-- A value is built in the same way with a colon and without one. -/
abbrev BuildsWithoutColon (x : Build Cursor σ α) : Prop := Ignores besideColon x

namespace IgnoresFrom

variable {mark : Bool → σ → σ} {s : σ}

theorem bind {x : EStateM Error σ α} {f : α → EStateM Error σ β} (hx : IgnoresFrom mark s x)
    (hf : ∀ a t, x s = .ok a t → IgnoresFrom mark t (f a)) : IgnoresFrom mark s (x >>= f) := by
  intro saw
  rw [run_bind, run_bind, hx saw]
  cases h : x s with
  | ok a t => exact hf a t h saw
  | error e t => rfl

theorem ite {p : Prop} [Decidable p] {x y : EStateM Error σ α} (hx : p → IgnoresFrom mark s x)
    (hy : ¬p → IgnoresFrom mark s y) : IgnoresFrom mark s (if p then x else y) := by
  split
  · rename_i h
    exact hx h
  · rename_i h
    exact hy h

/-- What is asked of the state may not be the colon. -/
theorem get_bind {f : σ → EStateM Error σ α} (hmark : ∀ saw, f (mark saw s) = f s)
    (hf : IgnoresFrom mark s (f s)) : IgnoresFrom mark s (get >>= f) := by
  intro saw
  rw [run_bind_of_ok (run_get _), run_bind_of_ok (run_get _), hmark]
  exact hf saw

end IgnoresFrom

namespace Ignores

variable {mark : Bool → σ → σ}

theorem pure (a : α) : Ignores mark (Pure.pure a : EStateM Error σ α) := fun _ _ => rfl

theorem throw (e : Error) : Ignores mark (MonadExcept.throw e : EStateM Error σ α) := fun _ _ => rfl

theorem bind {x : EStateM Error σ α} {f : α → EStateM Error σ β} (hx : Ignores mark x)
    (hf : ∀ a, Ignores mark (f a)) : Ignores mark (x >>= f) :=
  fun s => (hx s).bind fun a t _ => hf a t

theorem ite {p : Prop} [Decidable p] {x y : EStateM Error σ α} (hx : Ignores mark x)
    (hy : Ignores mark y) : Ignores mark (if p then x else y) :=
  fun s => .ite (fun _ => hx s) fun _ => hy s

theorem read {x : Scan α} (hx : IgnoresColon x) :
    BuildsWithoutColon (read x : Build Cursor σ α) := by
  rintro ⟨s, c⟩ saw
  show Build.read x (s, c.withColon saw) = _
  rw [run_read, run_read, hx c saw]
  cases x c <;> rfl

theorem update (f : σ → σ) : BuildsWithoutColon (update f : Build Cursor σ Unit) := fun _ _ => rfl

theorem alone {s : σ} {x : Build Cursor σ Unit} (hx : BuildsWithoutColon x) :
    IgnoresColon (alone s x) := by
  intro c saw
  have hrun : x (s, c.withColon saw) = moved (besideColon saw) (x (s, c)) := hx (s, c) saw
  rw [run_alone, run_alone, hrun]
  cases x (s, c) <;> rfl

end Ignores

/-! ## Tokens -/

namespace Scan

theorem skipBlanks_withColon (saw inComment : Bool) (bytes : Bytes) (c : Cursor) :
    (c.withColon saw).skipBlanks inComment bytes =
      (c.skipBlanks inComment bytes).withColon saw := by
  induction bytes generalizing inComment c with
  | nil => rfl
  | cons b bytes ih =>
    unfold Cursor.skipBlanks
    split
    · exact ih false c.newline
    · split
      · exact ih inComment (c.advance 1)
      · split
        · exact ih true (c.advance 1)
        · rfl

theorem ignores_fail (fault : TextFault) : IgnoresColon (fail fault : Scan α) := fun _ _ => rfl

theorem ignores_blanks : IgnoresColon blanks := by
  intro c saw
  show EStateM.Result.ok _ ((c.withColon saw).skipBlanks false c.rest) = _
  rw [skipBlanks_withColon]
  rfl

theorem ignores_line : IgnoresColon line := ignores_blanks.bind fun _ _ _ => rfl

theorem ignores_peek : IgnoresColon peek := ignores_blanks.bind fun _ _ _ => rfl

theorem ignores_advance (count : Nat) :
    IgnoresColon (modify (·.advance count) : Scan PUnit) := fun _ _ => rfl

theorem ignores_tryChar (char : Char) : IgnoresColon (tryChar char) :=
  ignores_peek.bind fun _ => .ite ((ignores_advance 1).bind fun _ => .pure _) (.pure _)

theorem ignores_expect (char : Char) : IgnoresColon (expect char) :=
  (ignores_tryChar char).bind fun _ => .ite (ignores_fail _) (.pure _)

theorem ignores_span (test : UInt8 → Bool) : IgnoresColon (span test) := fun _ _ => rfl

theorem ignores_identifier : IgnoresColon identifier :=
  ignores_blanks.bind fun _ _ => .get_bind (fun _ => rfl)
    (.ite (fun _ => (ignores_span _).bind (fun _ => .pure _) _) fun _ => Ignores.pure _ _)

theorem ignores_fieldNumber : IgnoresColon fieldNumber := by
  rw [fieldNumber_eq]
  refine (ignores_span _).bind fun digits c => .get_bind (fun _ => rfl) ?_
  have hrange : ∀ value, IgnoresColon (do
      if value = 0 ∨ maxFieldNumber < value then fail (.fieldNumberRange (ofAscii digits))
      return .number value : Scan FieldName) :=
    fun value => .ite ((ignores_fail _).bind fun _ => .pure _) (.pure _)
  exact .ite (fun _ => (ignores_fail _).bind (fun _ => hrange _) c) fun _ => hrange _ c

theorem ignores_bracketedName : IgnoresColon bracketedName := by
  refine (ignores_advance 1).bind fun _ => ignores_blanks.bind fun _ =>
    (ignores_span _).bind fun name => ?_
  have hend : IgnoresColon (do
      expect ']'
      return .bracketed (ofAscii name) : Scan FieldName) :=
    (ignores_expect _).bind fun _ => .pure _
  exact .ite ((ignores_fail _).bind fun _ => hend) hend

theorem ignores_fieldName : IgnoresColon fieldName := by
  refine ignores_peek.bind fun _ => .ite ignores_fieldNumber (.ite ignores_bracketedName ?_)
  refine ignores_identifier.bind fun name => ?_
  cases name with
  | some name => exact .pure _
  | none => exact ignores_fail _

theorem ignores_numberToken : IgnoresColon numberToken := by
  have hbody : ∀ (negative : Prop) [Decidable negative], IgnoresColon (do
      let c ← get
      let body := numberSpan (startsHexadecimal c.rest) false c.rest
      set (c.advance body.length)
      if body.isEmpty then fail .expectedNumber
      return ofAscii (if negative then byte '-' :: body else body) : Scan String) := by
    intro negative _ c saw
    have hend : IgnoresColon (do
        if (numberSpan (startsHexadecimal c.rest) false c.rest).isEmpty then fail .expectedNumber
        return ofAscii (if negative then
            byte '-' :: numberSpan (startsHexadecimal c.rest) false c.rest
          else numberSpan (startsHexadecimal c.rest) false c.rest) : Scan String) :=
      .ite ((ignores_fail _).bind fun _ => .pure _) (.pure _)
    exact hend (c.advance (numberSpan (startsHexadecimal c.rest) false c.rest).length) saw
  refine ignores_blanks.bind fun _ c => .get_bind (fun _ => rfl) ?_
  exact .ite (fun _ => (ignores_advance 1).bind (fun _ => hbody _) c) fun _ => hbody _ c

/-! ## String literals -/

theorem ignores_digits (base count : Nat) : IgnoresColon (digits base count) := fun _ _ => rfl

theorem ignores_anyByte : IgnoresColon anyByte := by
  rintro ⟨rest, position, line, lineStart, depth, sawColon⟩ saw
  cases rest with
  | nil => rfl
  | cons b rest => rfl

theorem ignores_unicodeEscape (width : Nat) : IgnoresColon (unicodeEscape width) :=
  (ignores_digits 16 width).bind fun _ => .ite (.pure _) (ignores_fail _)

theorem ignores_escape : IgnoresColon escape := by
  refine ignores_anyByte.bind fun next => ?_
  cases next with
  | none => exact ignores_fail _
  | some b =>
    dsimp only
    split
    · exact .pure _
    · split
      · refine (ignores_digits 8 2).bind fun _ => .ite ?_ (.pure _)
        exact (ignores_fail _).bind fun _ => .pure _
      · refine .ite ?_ (.ite (ignores_unicodeEscape 4)
          (.ite (ignores_unicodeEscape 8) (ignores_fail _)))
        refine (ignores_digits 16 2).bind fun _ => .ite ?_ (.pure _)
        exact (ignores_fail _).bind fun _ => .pure _

theorem ignores_literalBody (quote : UInt8) (rounds : Nat) :
    BuildsWithoutColon (literalBody quote rounds) := by
  induction rounds with
  | zero => exact .read (ignores_fail _)
  | succ rounds ih =>
    refine (Ignores.read ignores_anyByte).bind fun next => ?_
    cases next with
    | none => exact .read (ignores_fail _)
    | some b =>
      refine .ite (.read (ignores_fail _)) (.ite ?_ (.ite (.pure _) ?_))
      · exact (Ignores.read ignores_escape).bind fun _ => (Ignores.update _).bind fun _ => ih
      · exact (Ignores.update _).bind fun _ => ih

theorem ignores_atString : IgnoresColon atString := ignores_peek.bind fun _ => .pure _

theorem ignores_literals (rounds : Nat) : BuildsWithoutColon (literals rounds) := by
  induction rounds with
  | zero => exact .pure _
  | succ rounds ih =>
    refine (Ignores.read ignores_atString).bind fun found => .ite ?_ (.pure _)
    refine (Ignores.read ignores_anyByte).bind fun next => ?_
    cases next with
    | none => exact .pure _
    | some quote =>
      intro p saw
      have hbody : BuildsWithoutColon (do
          literalBody quote (p.2.rest.length + 1)
          literals rounds : Build Cursor Bytes Unit) :=
        (ignores_literalBody quote _).bind fun _ => ih
      exact hbody p saw

theorem ignores_stringLiteral : IgnoresColon stringLiteral := by
  have hliterals : IgnoresColon (do
      let c ← get
      alone [] (literals (c.rest.length + 1)) : Scan Bytes) :=
    fun c => .get_bind (fun _ => rfl) (Ignores.alone (ignores_literals _) c)
  exact ignores_atString.bind fun _ => .ite ((ignores_fail _).bind fun _ => hliterals) hliterals

/-! ## Blocks -/

theorem ignores_openBlock : IgnoresColon openBlock :=
  (ignores_tryChar _).bind fun _ => .ite (.pure _) <|
    (ignores_tryChar _).bind fun _ => .ite (.pure _) (ignores_fail _)

theorem ignores_enter (limit : Nat) : IgnoresColon (enter limit) := by
  have hmodify : IgnoresColon
      (modify fun c => { c with depth := c.depth + 1 } : Scan PUnit) := fun _ _ => rfl
  exact hmodify.bind fun _ c => .get_bind (fun _ => rfl)
    (.ite (fun _ => Ignores.throw _ c) fun _ => Ignores.pure _ c)

theorem ignores_leave : IgnoresColon leave := fun _ _ => rfl

theorem ignores_separator : IgnoresColon separator :=
  (ignores_tryChar _).bind fun _ =>
    .ite ((ignores_tryChar _).bind fun _ => .pure _) (.pure _)

theorem ignores_atBlock : IgnoresColon atBlock := ignores_peek.bind fun _ => .pure _

/-! ## Skipping -/

theorem ignores_skipScalar : IgnoresColon skipScalar :=
  ignores_atString.bind fun _ => .ite (ignores_stringLiteral.bind fun _ => .pure _)
    (ignores_numberToken.bind fun _ => .pure _)

theorem ignores_skip (limit rounds : Nat) :
    (∀ sawColon, IgnoresColon (skipValue limit rounds sawColon)) ∧
      IgnoresColon (skipBlock limit rounds) ∧
      (∀ close, IgnoresColon (skipFields limit close rounds)) ∧
      IgnoresColon (skipElements limit rounds) := by
  induction rounds with
  | zero =>
    exact ⟨fun _ => ignores_fail _, ignores_fail _, fun _ => ignores_fail _, ignores_fail _⟩
  | succ rounds ih =>
    obtain ⟨hvalue, hblock, hfields, helements⟩ := ih
    refine ⟨fun sawColon => ?_, ?_, fun close => ?_, ?_⟩
    · refine ignores_atBlock.bind fun _ => .ite hblock (.ite ?_ (ignores_fail _))
      refine ignores_peek.bind fun _ => .ite ?_ ignores_skipScalar
      exact (ignores_expect _).bind fun _ => (ignores_tryChar _).bind fun _ =>
        .ite helements (.pure _)
    · exact ignores_openBlock.bind fun close => (ignores_enter limit).bind fun _ =>
        (hfields close).bind fun _ => ignores_leave
    · refine (ignores_tryChar _).bind fun _ => .ite ?_ (.pure _)
      exact ignores_fieldName.bind fun _ => (ignores_tryChar _).bind fun sawColon =>
        (hvalue sawColon).bind fun _ => ignores_separator.bind fun _ => hfields close
    · have hrest : IgnoresColon (do
          if !(← tryChar ']') then
            expect ','
            skipElements limit rounds : Scan Unit) :=
        (ignores_tryChar _).bind fun _ =>
          .ite ((ignores_expect _).bind fun _ => helements) (.pure _)
      exact ignores_atBlock.bind fun _ =>
        .ite (hblock.bind fun _ => hrest) (ignores_skipScalar.bind fun _ => hrest)

theorem ignores_passValue (limit : Nat) (sawColon : Bool) :
    IgnoresColon (passValue limit sawColon) :=
  fun c saw => (ignores_skip limit (2 * c.rest.length + 2)).1 sawColon c saw

end Scan

end Text

end Protobuf
