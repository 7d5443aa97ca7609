import Protobuf.Proofs.Text.Skipping

/-!
# What text fails with

Tokens and scalars only fail because the text is malformed, and values that are skipped also
because blocks nest too deep (`Text.Scan.raises_passValue`). That a field is unknown is only ever
found where the fields of messages and of map entries are read.
-/

namespace Protobuf

open Build

variable {σ τ α β : Type}

namespace Text

/-- Every error of the action has the property. -/
def Raises (E : Error → Prop) (x : EStateM Error σ α) : Prop := ∀ s e t, x s = .error e t → E e

/-- The text breaks the grammar. -/
def MalformedText (e : Error) : Prop :=
  ∃ line column fault, e = .malformedText line column fault

/-- The text breaks the grammar, or its blocks nest deeper than allowed. -/
def MalformedOrDeep (limit : Nat) (e : Error) : Prop :=
  MalformedText e ∨ e = .textDepthLimit limit

namespace Raises

variable {E : Error → Prop}

theorem imp {E' : Error → Prop} {x : EStateM Error σ α} (hx : Raises E x) (h : ∀ e, E e → E' e) :
    Raises E' x := fun s e t hrun => h e (hx s e t hrun)

theorem of_ok {x : EStateM Error σ α} (h : ∀ s, ∃ a t, x s = .ok a t) : Raises E x := by
  intro s e t hrun
  obtain ⟨a, u, hok⟩ := h s
  rw [hok] at hrun
  cases hrun

theorem pure (a : α) : Raises E (Pure.pure a : EStateM Error σ α) := .of_ok fun s => ⟨a, s, rfl⟩

theorem get : Raises E (MonadState.get : EStateM Error σ σ) := .of_ok fun s => ⟨s, s, rfl⟩

theorem modify (f : σ → σ) : Raises E (modify f : EStateM Error σ PUnit) :=
  .of_ok fun s => ⟨_, f s, rfl⟩

theorem throw {e : Error} (h : E e) : Raises E (MonadExcept.throw e : EStateM Error σ α) := by
  intro s e' t hrun
  cases hrun
  exact h

theorem bind {x : EStateM Error σ α} {f : α → EStateM Error σ β} (hx : Raises E x)
    (hf : ∀ a, Raises E (f a)) : Raises E (x >>= f) := by
  intro s e t h
  rcases bind_eq_error.1 h with h | ⟨a, u, -, h⟩
  · exact hx s e t h
  · exact hf a u e t h

theorem ite {p : Prop} [Decidable p] {x y : EStateM Error σ α} (hx : Raises E x)
    (hy : Raises E y) : Raises E (if p then x else y) := by
  split
  · exact hx
  · exact hy

theorem map {x : EStateM Error σ α} (f : α → β) (hx : Raises E x) : Raises E (f <$> x) := by
  rw [map_eq_bind]
  exact hx.bind fun a => .pure (f a)

theorem read {x : Scan α} (hx : Raises E x) : Raises E (Build.read x : Build Cursor σ α) := by
  rintro ⟨s, c⟩ e ⟨s', d⟩ h
  exact hx c e d (read_eq_error.1 h).1

theorem source : Raises E (Build.source : Build Cursor σ Cursor) :=
  .of_ok fun p => ⟨p.2, p, rfl⟩

theorem update (f : σ → σ) : Raises E (Build.update f : Build Cursor σ Unit) :=
  .of_ok fun p => ⟨(), (f p.1, p.2), rfl⟩

theorem alone {s : σ} {x : Build Cursor σ Unit} (hx : Raises E x) : Raises E (Build.alone s x) := by
  intro c e d h
  rw [run_alone] at h
  cases hrun : x (s, c) with
  | ok a p =>
    rw [hrun] at h
    cases h
  | error e' p =>
    rw [hrun] at h
    cases h
    exact hx (s, c) e p hrun

end Raises

namespace Scan

/-! ## Tokens -/

theorem raises_fail (fault : TextFault) : Raises MalformedText (fail fault : Scan α) :=
  Raises.get.bind fun _ => .throw ⟨_, _, fault, rfl⟩

section

variable {E : Error → Prop}

theorem raises_blanks : Raises E blanks := .modify _

theorem raises_line : Raises E line := raises_blanks.bind fun _ => Raises.get.bind fun _ => .pure _

theorem raises_peek : Raises E peek := raises_blanks.bind fun _ => Raises.get.bind fun _ => .pure _

theorem raises_tryChar (char : Char) : Raises E (tryChar char) :=
  raises_peek.bind fun _ => .ite ((Raises.modify _).bind fun _ => .pure _) (.pure _)

theorem raises_span (test : UInt8 → Bool) : Raises E (span test) := .of_ok fun _ => ⟨_, _, rfl⟩

theorem raises_identifier : Raises E identifier :=
  raises_blanks.bind fun _ => Raises.get.bind fun _ =>
    .ite ((raises_span _).bind fun _ => .pure _) (.pure _)

theorem raises_digits (base count : Nat) : Raises E (digits base count) :=
  .of_ok fun _ => ⟨_, _, rfl⟩

theorem raises_anyByte : Raises E anyByte := by
  refine .of_ok fun c => ?_
  rw [anyByte, run_bind_of_ok (run_get c)]
  cases c.rest with
  | nil => exact ⟨none, c, rfl⟩
  | cons b rest => exact ⟨some b, c.advance 1, rfl⟩

theorem raises_atString : Raises E atString := raises_peek.bind fun _ => .pure _

theorem raises_atBlock : Raises E atBlock := raises_peek.bind fun _ => .pure _

theorem raises_separator : Raises E separator :=
  (raises_tryChar _).bind fun _ => .ite ((raises_tryChar _).bind fun _ => .pure _) (.pure _)

theorem raises_colon : Raises E colon := (raises_tryChar _).bind fun _ => .modify _

theorem raises_leave : Raises E leave := .modify _

end

theorem raises_expect (char : Char) : Raises MalformedText (expect char) :=
  (raises_tryChar char).bind fun _ => .ite (raises_fail _) (.pure _)

theorem raises_fieldNumber : Raises MalformedText fieldNumber := by
  rw [fieldNumber_eq]
  refine (raises_span _).bind fun digits => Raises.get.bind fun _ => ?_
  have hrange : ∀ value, Raises MalformedText (do
      if value = 0 ∨ maxFieldNumber < value then fail (.fieldNumberRange (ofAscii digits))
      return .number value : Scan FieldName) :=
    fun value => .ite ((raises_fail _).bind fun _ => .pure _) (.pure _)
  exact .ite ((raises_fail _).bind fun _ => hrange _) (hrange _)

theorem raises_bracketedName : Raises MalformedText bracketedName := by
  refine (Raises.modify _).bind fun _ => raises_blanks.bind fun _ =>
    (raises_span _).bind fun name => ?_
  have hend : Raises MalformedText (do
      expect ']'
      return .bracketed (ofAscii name) : Scan FieldName) :=
    (raises_expect _).bind fun _ => .pure _
  exact .ite ((raises_fail _).bind fun _ => hend) hend

theorem raises_fieldName : Raises MalformedText fieldName := by
  refine raises_peek.bind fun _ => .ite raises_fieldNumber (.ite raises_bracketedName ?_)
  refine raises_identifier.bind fun name => ?_
  cases name with
  | some name => exact .pure _
  | none => exact raises_fail _

theorem raises_numberToken : Raises MalformedText numberToken := by
  have hbody : ∀ (negative : Prop) [Decidable negative], Raises MalformedText (do
      let c ← get
      let body := numberSpan (startsHexadecimal c.rest) false c.rest
      set (c.advance body.length)
      if body.isEmpty then fail .expectedNumber
      return ofAscii (if negative then byte '-' :: body else body) : Scan String) :=
    fun negative _ => Raises.get.bind fun c => (Raises.of_ok fun _ => ⟨_, _, rfl⟩).bind fun _ =>
      .ite ((raises_fail _).bind fun _ => .pure _) (.pure _)
  refine raises_blanks.bind fun _ => Raises.get.bind fun _ => ?_
  exact .ite ((Raises.modify _).bind fun _ => hbody _) (hbody _)

/-! ## String literals -/

theorem raises_unicodeEscape (width : Nat) : Raises MalformedText (unicodeEscape width) :=
  (raises_digits 16 width).bind fun _ => .ite (.pure _) (raises_fail _)

theorem raises_escape : Raises MalformedText escape := by
  refine raises_anyByte.bind fun next => ?_
  cases next with
  | none => exact raises_fail _
  | some b =>
    dsimp only
    split
    · exact .pure _
    · split
      · refine (raises_digits 8 2).bind fun _ => .ite ?_ (.pure _)
        exact (raises_fail _).bind fun _ => .pure _
      · refine .ite ?_ (.ite (raises_unicodeEscape 4)
          (.ite (raises_unicodeEscape 8) (raises_fail _)))
        refine (raises_digits 16 2).bind fun _ => .ite ?_ (.pure _)
        exact (raises_fail _).bind fun _ => .pure _

theorem raises_literalBody (quote : UInt8) (rounds : Nat) :
    Raises MalformedText (literalBody quote rounds) := by
  induction rounds with
  | zero => exact .read (raises_fail _)
  | succ rounds ih =>
    refine (Raises.read raises_anyByte).bind fun next => ?_
    cases next with
    | none => exact .read (raises_fail _)
    | some b =>
      refine .ite (.read (raises_fail _)) (.ite ?_ (.ite (.pure _) ?_))
      · exact (Raises.read raises_escape).bind fun _ => (Raises.update _).bind fun _ => ih
      · exact (Raises.update _).bind fun _ => ih

theorem raises_literals (rounds : Nat) : Raises MalformedText (literals rounds) := by
  induction rounds with
  | zero => exact .pure _
  | succ rounds ih =>
    refine (Raises.read raises_atString).bind fun found => .ite ?_ (.pure _)
    refine (Raises.read raises_anyByte).bind fun next => ?_
    cases next with
    | none => exact .pure _
    | some quote =>
      exact Raises.source.bind fun c => (raises_literalBody quote _).bind fun _ => ih

theorem raises_stringLiteral : Raises MalformedText stringLiteral := by
  have hliterals : Raises MalformedText (do
      let c ← get
      alone [] (literals (c.rest.length + 1)) : Scan Bytes) :=
    Raises.get.bind fun c => .alone (raises_literals _)
  exact raises_atString.bind fun _ => .ite ((raises_fail _).bind fun _ => hliterals) hliterals

/-! ## Scalars -/

theorem raises_requireColon : Raises MalformedText requireColon :=
  Raises.get.bind fun _ => .ite (raises_fail _) (.pure _)

theorem raises_integer : Raises MalformedText integer := by
  refine raises_numberToken.bind fun token => ?_
  cases integer? token with
  | some value => exact .pure _
  | none => exact raises_fail _

theorem raises_signedInteger (low high : Int) : Raises MalformedText (signedInteger low high) :=
  raises_requireColon.bind fun _ => raises_integer.bind fun _ =>
    .ite ((raises_fail _).bind fun _ => .pure _) (.pure _)

theorem raises_unsignedInteger (bound : Nat) : Raises MalformedText (unsignedInteger bound) :=
  raises_requireColon.bind fun _ => raises_integer.bind fun _ =>
    .ite ((raises_fail _).bind fun _ => .pure _) (.pure _)

theorem raises_double : Raises MalformedText double := by
  refine raises_requireColon.bind fun _ => raises_numberToken.bind fun token => ?_
  cases double? token with
  | some bits => exact .pure _
  | none => exact raises_fail _

theorem raises_bool : Raises MalformedText bool := by
  refine raises_requireColon.bind fun _ => raises_numberToken.bind fun token => ?_
  cases bool? token with
  | some value => exact .pure _
  | none => exact raises_fail _

theorem raises_bytes : Raises MalformedText bytes :=
  raises_requireColon.bind fun _ => raises_stringLiteral

theorem raises_string : Raises MalformedText string := by
  refine raises_bytes.bind fun b => ?_
  cases Utf8.decode b with
  | ok s => exact .pure _
  | error e => exact raises_fail _

theorem raises_enum (type : EnumType) : Raises MalformedText (enum type) := by
  refine raises_requireColon.bind fun _ => raises_identifier.bind fun name => ?_
  cases name with
  | some name =>
    dsimp only
    cases type.number? name with
    | some value => exact .pure _
    | none => exact raises_fail _
  | none =>
    exact raises_integer.bind fun _ => .ite ((raises_fail _).bind fun _ => .pure _) (.pure _)

theorem raises_scalar (kind : ScalarKind) : Raises MalformedText (scalar kind) := by
  cases kind with
  | int32 | sint32 | sfixed32 => exact ((raises_signedInteger _ _).map _).map _
  | int64 | sint64 | sfixed64 => exact ((raises_signedInteger _ _).map _).map _
  | uint32 | fixed32 => exact ((raises_unsignedInteger _).map _).map _
  | uint64 | fixed64 => exact ((raises_unsignedInteger _).map _).map _
  | float => exact (raises_double.bind fun _ => .pure _).map _
  | double => exact raises_double.map _
  | bool => exact raises_bool.map _
  | enum type => exact (raises_enum type).map _
  | string => exact raises_string.map _
  | bytes => exact raises_bytes.map _

/-! ## Blocks -/

theorem raises_openBlock : Raises MalformedText openBlock :=
  (raises_tryChar _).bind fun _ => .ite (.pure _) <|
    (raises_tryChar _).bind fun _ => .ite (.pure _) (raises_fail _)

theorem raises_enter (limit : Nat) : Raises (MalformedOrDeep limit) (enter limit) :=
  (Raises.modify _).bind fun _ => Raises.get.bind fun _ => .ite (.throw (.inr rfl)) (.pure _)

theorem raises_finished (close? : Option Char) : Raises MalformedText (finished close?) := by
  cases close? with
  | some close =>
    exact (raises_tryChar close).bind fun _ => .ite (.pure _) <|
      raises_peek.bind fun _ => .ite (raises_fail _) (.pure _)
  | none => exact raises_peek.bind fun _ => .pure _

/-! ## Skipping -/

theorem raises_skipScalar : Raises MalformedText skipScalar :=
  raises_atString.bind fun _ => .ite (raises_stringLiteral.bind fun _ => .pure _)
    (raises_numberToken.bind fun _ => .pure _)

theorem raises_skip (limit rounds : Nat) :
    (∀ sawColon, Raises (MalformedOrDeep limit) (skipValue limit rounds sawColon)) ∧
      Raises (MalformedOrDeep limit) (skipBlock limit rounds) ∧
      (∀ close, Raises (MalformedOrDeep limit) (skipFields limit close rounds)) ∧
      Raises (MalformedOrDeep limit) (skipElements limit rounds) := by
  have hmalformed : ∀ {α : Type} {x : Scan α}, Raises MalformedText x →
      Raises (MalformedOrDeep limit) x := fun hx => hx.imp fun _ h => .inl h
  induction rounds with
  | zero =>
    exact ⟨fun _ => hmalformed (raises_fail _), hmalformed (raises_fail _),
      fun _ => hmalformed (raises_fail _), hmalformed (raises_fail _)⟩
  | succ rounds ih =>
    obtain ⟨hvalue, hblock, hfields, helements⟩ := ih
    have hexpect : ∀ char, Raises (MalformedOrDeep limit) (expect char) :=
      fun char => hmalformed (raises_expect char)
    refine ⟨fun sawColon => ?_, ?_, fun close => ?_, ?_⟩
    · refine raises_atBlock.bind fun _ => .ite hblock (.ite ?_ (hmalformed (raises_fail _)))
      refine raises_peek.bind fun _ => .ite ?_ (hmalformed raises_skipScalar)
      exact (hexpect _).bind fun _ => (raises_tryChar _).bind fun _ => .ite helements (.pure _)
    · exact (hmalformed raises_openBlock).bind fun close => (raises_enter limit).bind fun _ =>
        (hfields close).bind fun _ => raises_leave
    · refine (raises_tryChar _).bind fun _ => .ite ?_ (.pure _)
      exact (hmalformed raises_fieldName).bind fun _ => (raises_tryChar _).bind fun sawColon =>
        (hvalue sawColon).bind fun _ => raises_separator.bind fun _ => hfields close
    · have hrest : Raises (MalformedOrDeep limit) (do
          if !(← tryChar ']') then
            expect ','
            skipElements limit rounds : Scan Unit) :=
        (raises_tryChar _).bind fun _ => .ite ((hexpect _).bind fun _ => helements) (.pure _)
      exact raises_atBlock.bind fun _ => .ite (hblock.bind fun _ => hrest)
        ((hmalformed raises_skipScalar).bind fun _ => hrest)

theorem raises_passValue (limit : Nat) (sawColon : Bool) :
    Raises (MalformedOrDeep limit) (passValue limit sawColon) :=
  fun c e d h => (raises_skip limit (2 * c.rest.length + 2)).1 sawColon c e d h

end Scan

end Text

end Protobuf
