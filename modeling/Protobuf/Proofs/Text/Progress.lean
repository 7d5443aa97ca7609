import Protobuf.Proofs.Keeping
import Protobuf.Proofs.Text.SaturatedDigits

/-!
# How far text is read

Whatever is read of a text, the cursor moves on over bytes of it and never goes back. What succeeds
leaves as many blocks open as there were before. What fails may leave more of them open, but has
closed none that it did not open (`Text.Moves`). Every turn of a loop over text reads a byte, so the
bounds on the number of turns are never met.
-/

namespace Protobuf

open Build

variable {σ τ α β : Type}

namespace Text

/-! ## Places in a text -/

namespace Cursor

/-- From one place to another over the given bytes. -/
def Over (c : Cursor) (bytes : Bytes) (d : Cursor) : Prop :=
  c.rest = bytes ++ d.rest ∧ d.position = c.position + bytes.length

/-- The second place lies behind the first one, with as many blocks open. -/
def Before (c d : Cursor) : Prop := (∃ bytes, c.Over bytes d) ∧ d.depth = c.depth

/-- The second place lies behind the first one, with no fewer blocks open. -/
def Reaches (c d : Cursor) : Prop := (∃ bytes, c.Over bytes d) ∧ c.depth ≤ d.depth

theorem Over.nil (c : Cursor) : c.Over [] c := ⟨rfl, rfl⟩

theorem Over.append {c d e : Cursor} {a b : Bytes} (h : c.Over a d) (h' : d.Over b e) :
    c.Over (a ++ b) e := by
  obtain ⟨hrest, hposition⟩ := h
  obtain ⟨hrest', hposition'⟩ := h'
  refine ⟨by rw [hrest, hrest', List.append_assoc], ?_⟩
  rw [hposition', hposition, List.length_append, Nat.add_assoc]

theorem over_advance {c : Cursor} {count : Nat} (h : count ≤ c.rest.length) :
    c.Over (c.rest.take count) (c.advance count) := by
  have hlength : (c.rest.take count).length = count := List.length_take_of_le h
  refine ⟨(List.take_append_drop count c.rest).symm, ?_⟩
  rw [hlength]
  rfl

theorem Before.refl (c : Cursor) : c.Before c := ⟨⟨[], .nil c⟩, rfl⟩

theorem Before.trans {c d e : Cursor} (h : c.Before d) (h' : d.Before e) : c.Before e := by
  obtain ⟨⟨a, ha⟩, hdepth⟩ := h
  obtain ⟨⟨b, hb⟩, hdepth'⟩ := h'
  exact ⟨⟨a ++ b, ha.append hb⟩, hdepth'.trans hdepth⟩

theorem Before.reaches {c d : Cursor} (h : c.Before d) : c.Reaches d :=
  ⟨h.1, Nat.le_of_eq h.2.symm⟩

theorem Reaches.refl (c : Cursor) : c.Reaches c := (Before.refl c).reaches

theorem Reaches.trans {c d e : Cursor} (h : c.Reaches d) (h' : d.Reaches e) : c.Reaches e := by
  obtain ⟨⟨a, ha⟩, hdepth⟩ := h
  obtain ⟨⟨b, hb⟩, hdepth'⟩ := h'
  exact ⟨⟨a ++ b, ha.append hb⟩, Nat.le_trans hdepth hdepth'⟩

theorem Reaches.length_le {c d : Cursor} (h : c.Reaches d) : d.rest.length ≤ c.rest.length := by
  obtain ⟨⟨bytes, hrest, -⟩, -⟩ := h
  have hlength := congrArg List.length hrest
  rw [List.length_append] at hlength
  omega

theorem Before.length_le {c d : Cursor} (h : c.Before d) : d.rest.length ≤ c.rest.length :=
  h.reaches.length_le

theorem before_advance {c : Cursor} {count : Nat} (h : count ≤ c.rest.length) :
    c.Before (c.advance count) :=
  ⟨⟨_, over_advance h⟩, rfl⟩

theorem rest_advance_one {c : Cursor} {b : UInt8} {bytes : Bytes} (h : c.rest = b :: bytes) :
    (c.advance 1).rest = bytes := by
  show c.rest.drop 1 = bytes
  rw [h, List.drop_one, List.tail_cons]

theorem over_advance_one {c : Cursor} {b : UInt8} (h : c.rest.head? = some b) :
    c.Over [b] (c.advance 1) := by
  obtain ⟨bytes, hrest⟩ := List.head?_eq_some_iff.1 h
  refine ⟨?_, rfl⟩
  rw [rest_advance_one hrest, hrest, List.singleton_append]

/-- Where something is left to read, one byte further on less is left. -/
theorem before_advance_one {c : Cursor} {b : UInt8} (h : c.rest.head? = some b) :
    c.Before (c.advance 1) ∧ (c.advance 1).rest.length < c.rest.length := by
  obtain ⟨bytes, hrest⟩ := List.head?_eq_some_iff.1 h
  have hlength : c.rest.length = bytes.length + 1 := by rw [hrest, List.length_cons]
  refine ⟨before_advance (by omega), ?_⟩
  show (c.rest.drop 1).length < c.rest.length
  rw [List.length_drop]
  omega

/-- What is kept over newlines and over every other byte is kept over blanks and comments. -/
theorem skipBlanks_keeps {Kept : Cursor → Prop}
    (hnewline : ∀ c : Cursor, Kept c → c.rest.head? = some (byte '\n') → Kept c.newline)
    (hadvance : ∀ (c : Cursor) (b : UInt8), Kept c → c.rest.head? = some b → b ≠ byte '\n' →
      Kept (c.advance 1))
    {bytes : Bytes} (inComment : Bool) {c : Cursor} (h : c.rest = bytes) (hc : Kept c) :
    Kept (c.skipBlanks inComment bytes) := by
  induction bytes generalizing inComment c with
  | nil => exact hc
  | cons b bytes ih =>
    have hhead : c.rest.head? = some b := by rw [h, List.head?_cons]
    have hrest := rest_advance_one h
    unfold skipBlanks
    by_cases hb : b = byte '\n'
    · rw [if_pos hb]
      exact ih false hrest (hnewline c hc (hb ▸ hhead))
    · have hone := hadvance c b hc hhead hb
      rw [if_neg hb]
      split
      · exact ih inComment hrest hone
      · split
        · exact ih true hrest hone
        · exact hc

theorem before_skipBlanks {bytes : Bytes} (inComment : Bool) {c : Cursor} (h : c.rest = bytes) :
    c.Before (c.skipBlanks inComment bytes) := by
  refine skipBlanks_keeps (fun d hd hhead => ?_) (fun d b hd hhead _ => ?_) inComment h (.refl c)
  · have hone : d.Before d.newline := (before_advance_one hhead).1
    exact hd.trans hone
  · exact hd.trans (before_advance_one hhead).1

end Cursor

/-! ## Actions that move on -/

/-- From the state on, the action reads bytes of the text. A success leaves as many blocks open as
there were, and a failure no fewer. -/
structure MovesFrom (place : σ → Cursor) (s : σ) (x : EStateM Error σ α) : Prop where
  before : ∀ {a t}, x s = .ok a t → (place s).Before (place t)
  reaches : ∀ {e t}, x s = .error e t → (place s).Reaches (place t)

/-- From every state on, the action reads bytes of the text and balances the blocks. -/
def Moves (place : σ → Cursor) (x : EStateM Error σ α) : Prop := ∀ s, MovesFrom place s x

namespace MovesFrom

variable {place : σ → Cursor} {s t : σ}

theorem of_ok {x : EStateM Error σ α} {a : α} (h : x s = .ok a t)
    (hbefore : (place s).Before (place t)) : MovesFrom place s x := by
  constructor
  · intro a' t' h'
    rw [h] at h'
    cases h'
    exact hbefore
  · intro e t' h'
    rw [h] at h'
    cases h'

theorem of_error {x : EStateM Error σ α} {e : Error} (h : x s = .error e t)
    (hreaches : (place s).Reaches (place t)) : MovesFrom place s x := by
  constructor
  · intro a t' h'
    rw [h] at h'
    cases h'
  · intro e' t' h'
    rw [h] at h'
    cases h'
    exact hreaches

theorem pure (a : α) : MovesFrom place s (Pure.pure a : EStateM Error σ α) :=
  of_ok rfl (.refl _)

theorem throw (e : Error) : MovesFrom place s (MonadExcept.throw e : EStateM Error σ α) :=
  of_error rfl (.refl _)

/-- What is done next may depend on what came before. -/
theorem bind {x : EStateM Error σ α} {f : α → EStateM Error σ β} (hx : MovesFrom place s x)
    (hf : ∀ a t, x s = .ok a t → MovesFrom place t (f a)) : MovesFrom place s (x >>= f) := by
  constructor
  · intro b u h
    obtain ⟨a, t, ht, hu⟩ := bind_eq_ok.1 h
    exact (hx.before ht).trans ((hf a t ht).before hu)
  · intro e u h
    rcases bind_eq_error.1 h with h | ⟨a, t, ht, hu⟩
    · exact hx.reaches h
    · exact (hx.before ht).reaches.trans ((hf a t ht).reaches hu)

theorem ite {p : Prop} [Decidable p] {x y : EStateM Error σ α} (hx : p → MovesFrom place s x)
    (hy : ¬p → MovesFrom place s y) : MovesFrom place s (if p then x else y) := by
  split
  · rename_i h
    exact hx h
  · rename_i h
    exact hy h

end MovesFrom

namespace Moves

variable {place : σ → Cursor}

theorem pure (a : α) : Moves place (Pure.pure a : EStateM Error σ α) := fun _ => .pure a

theorem throw (e : Error) : Moves place (MonadExcept.throw e : EStateM Error σ α) :=
  fun _ => .throw e

theorem bind {x : EStateM Error σ α} {f : α → EStateM Error σ β} (hx : Moves place x)
    (hf : ∀ a, Moves place (f a)) : Moves place (x >>= f) :=
  fun s => (hx s).bind fun a t _ => hf a t

theorem ite {p : Prop} [Decidable p] {x y : EStateM Error σ α} (hx : Moves place x)
    (hy : Moves place y) : Moves place (if p then x else y) :=
  fun s => .ite (fun _ => hx s) fun _ => hy s

theorem map {x : EStateM Error σ α} (f : α → β) (hx : Moves place x) : Moves place (f <$> x) := by
  rw [map_eq_bind]
  exact hx.bind fun _ => .pure _

theorem get : Moves id (get : Scan Cursor) := fun _ => .of_ok rfl (.refl _)

theorem source : Moves Prod.snd (source : Build Cursor σ Cursor) := fun _ => .of_ok rfl (.refl _)

theorem current : Moves Prod.snd (current : Build Cursor σ σ) := fun _ => .of_ok rfl (.refl _)

theorem put (s : σ) : Moves Prod.snd (put s : Build Cursor σ Unit) := fun _ => .of_ok rfl (.refl _)

theorem update (f : σ → σ) : Moves Prod.snd (update f : Build Cursor σ Unit) :=
  fun _ => .of_ok rfl (.refl _)

theorem read {x : Scan α} (hx : Moves id x) : Moves Prod.snd (read x : Build Cursor σ α) := by
  rintro ⟨s, c⟩
  constructor
  · rintro a ⟨s', d⟩ h
    exact (hx c).before (read_eq_ok.1 h).1
  · rintro e ⟨s', d⟩ h
    exact (hx c).reaches (read_eq_error.1 h).1

theorem zoom {part : σ → τ} {put : σ → τ → σ} {x : Build Cursor τ α} (hx : Moves Prod.snd x) :
    Moves Prod.snd (zoom part put x) := by
  rintro ⟨s, c⟩
  have hpart := hx (part s, c)
  have hrun := run_zoom part put x s c
  cases h : x (part s, c) with
  | ok a p =>
    rw [h] at hrun
    exact .of_ok hrun (hpart.before h)
  | error e p =>
    rw [h] at hrun
    exact .of_error hrun (hpart.reaches h)

theorem alone {s : σ} {x : Build Cursor σ Unit} (hx : Moves Prod.snd x) : Moves id (alone s x) := by
  intro c
  have hbuild := hx (s, c)
  have hrun := run_alone s x c
  cases h : x (s, c) with
  | ok a p =>
    rw [h] at hrun
    exact .of_ok hrun (hbuild.before h)
  | error e p =>
    rw [h] at hrun
    exact .of_error hrun (hbuild.reaches h)

end Moves

theorem Moves.length_le {x : Scan α} (hx : Moves id x) {c d : Cursor} {a : α}
    (h : x c = .ok a d) : d.rest.length ≤ c.rest.length :=
  ((hx c).before h).length_le

/-- From the place on, a success leaves fewer bytes to read. -/
def Shrinks (c : Cursor) (x : Scan α) : Prop :=
  ∀ a d, x c = .ok a d → d.rest.length < c.rest.length

namespace Shrinks

variable {c : Cursor}

theorem bind_left {x : Scan α} {f : α → Scan β} (hx : Shrinks c x) (hf : ∀ a, Moves id (f a)) :
    Shrinks c (x >>= f) := by
  intro b e h
  obtain ⟨a, d, hd, he⟩ := bind_eq_ok.1 h
  exact Nat.lt_of_le_of_lt ((hf a).length_le he) (hx a d hd)

theorem bind_right {x : Scan α} {f : α → Scan β} (hx : MovesFrom id c x)
    (hf : ∀ a d, x c = .ok a d → Shrinks d (f a)) : Shrinks c (x >>= f) := by
  intro b e h
  obtain ⟨a, d, hd, he⟩ := bind_eq_ok.1 h
  exact Nat.lt_of_lt_of_le (hf a d hd b e he) (hx.before hd).length_le

theorem ite {p : Prop} [Decidable p] {x y : Scan α} (hx : p → Shrinks c x)
    (hy : ¬p → Shrinks c y) : Shrinks c (if p then x else y) := by
  split
  · rename_i h
    exact hx h
  · rename_i h
    exact hy h

end Shrinks

/-! ## Tokens -/

namespace Scan

theorem moves_fail (fault : TextFault) : Moves id (fail fault : Scan α) :=
  Moves.get.bind fun _ => .throw _

theorem moves_blanks : Moves id blanks := fun _ => .of_ok rfl (Cursor.before_skipBlanks false rfl)

theorem moves_line : Moves id line := moves_blanks.bind fun _ => Moves.get.bind fun _ => .pure _

theorem moves_peek : Moves id peek := moves_blanks.bind fun _ => Moves.get.bind fun _ => .pure _

/-- What was peeked at is the next byte. -/
theorem head?_of_peek {c d : Cursor} {next : Option UInt8} (h : peek c = .ok next d) :
    d.rest.head? = next := by
  cases h
  rfl

theorem moves_tryChar (char : Char) : Moves id (tryChar char) := by
  refine fun c => (moves_peek c).bind fun next d hd => .ite (fun hnext => ?_) fun _ => .pure _
  have hhead : d.rest.head? = some (byte char) := (head?_of_peek hd).trans hnext
  exact .of_ok rfl (Cursor.before_advance_one hhead).1

theorem shrinks_tryChar {char : Char} {c d : Cursor} (h : tryChar char c = .ok true d) :
    d.rest.length < c.rest.length := by
  obtain ⟨next, u, hu, h⟩ := bind_eq_ok.1 h
  by_cases hnext : next = some (byte char)
  · rw [if_pos hnext] at h
    cases h
    have hle := moves_peek.length_le hu
    exact Nat.lt_of_lt_of_le (Cursor.before_advance_one ((head?_of_peek hu).trans hnext)).2 hle
  · rw [if_neg hnext] at h
    cases h

theorem moves_expect (char : Char) : Moves id (expect char) :=
  (moves_tryChar char).bind fun _ => .ite (moves_fail _) (.pure _)

theorem shrinks_expect (char : Char) (c : Cursor) : Shrinks c (expect char) := by
  intro _ d h
  obtain ⟨found, u, hu, h⟩ := bind_eq_ok.1 h
  cases found with
  | true =>
    cases h
    exact shrinks_tryChar hu
  | false => cases h

theorem moves_span (test : UInt8 → Bool) : Moves id (span test) :=
  fun _ => .of_ok rfl (Cursor.before_advance (List.takeWhile_sublist test).length_le)

/-- A byte that passes the test is left behind. -/
theorem shrinks_span {test : UInt8 → Bool} {c : Cursor} (h : c.rest.head?.any test = true) :
    Shrinks c (span test) := by
  intro found d hrun
  cases hrun
  show (c.rest.drop (c.rest.takeWhile test).length).length < c.rest.length
  cases hrest : c.rest with
  | nil =>
    rw [hrest] at h
    cases h
  | cons b rest =>
    rw [hrest] at h
    have hb : test b = true := h
    rw [List.takeWhile_cons_of_pos hb, List.length_cons, List.drop_succ_cons, List.length_drop,
      List.length_cons]
    omega

theorem moves_identifier : Moves id identifier :=
  moves_blanks.bind fun _ => Moves.get.bind fun _ =>
    .ite ((moves_span _).bind fun _ => .pure _) (.pure _)

theorem shrinks_identifier {c d : Cursor} {name : String} (h : identifier c = .ok (some name) d) :
    d.rest.length < c.rest.length := by
  obtain ⟨_, u, hu, h⟩ := bind_eq_ok.1 h
  rw [run_bind_of_ok (run_get u)] at h
  have hle := moves_blanks.length_le hu
  by_cases hstart : u.rest.head?.any isNameStart = true
  · rw [if_pos hstart] at h
    obtain ⟨found, v, hv, h⟩ := bind_eq_ok.1 h
    cases h
    have hname : u.rest.head?.any isNameByte = true := by
      cases hhead : u.rest.head? with
      | none =>
        rw [hhead] at hstart
        cases hstart
      | some b =>
        rw [hhead, Option.any_some] at hstart
        rw [Option.any_some, isNameByte, hstart, Bool.true_or]
    exact Nat.lt_of_lt_of_le (shrinks_span hname _ _ hv) hle
  · rw [if_neg hstart] at h
    cases h

theorem moves_checkedNumber (digits : Bytes) : Moves id (do
    if (← get).rest.head?.any isNameByte then fail .invalidFieldNumber
    let value := decimalValue digits
    if value = 0 ∨ maxFieldNumber < value then fail (.fieldNumberRange (ofAscii digits))
    return .number value : Scan FieldName) := by
  have hrange : ∀ value, Moves id (do
      if value = 0 ∨ maxFieldNumber < value then fail (.fieldNumberRange (ofAscii digits))
      return .number value : Scan FieldName) :=
    fun value => .ite ((moves_fail _).bind fun _ => .pure _) (.pure _)
  exact Moves.get.bind fun _ => .ite ((moves_fail _).bind fun _ => hrange _) (hrange _)

theorem moves_fieldNumber : Moves id fieldNumber := by
  rw [fieldNumber_eq]
  exact (moves_span _).bind moves_checkedNumber

theorem moves_insideBrackets : Moves id (do
    blanks
    let name ← span fun b => isNameByte b || b = byte '.' || b = byte '/'
    if name.isEmpty then fail .emptyBracketedName
    expect ']'
    return .bracketed (ofAscii name) : Scan FieldName) := by
  refine moves_blanks.bind fun _ => (moves_span _).bind fun name => ?_
  have hend : Moves id (do
      expect ']'
      return .bracketed (ofAscii name) : Scan FieldName) :=
    (moves_expect _).bind fun _ => .pure _
  exact .ite ((moves_fail _).bind fun _ => hend) hend

theorem moves_plainName : Moves id (do
    match ← identifier with
    | some name => return .plain name
    | none => fail .expectedFieldName : Scan FieldName) := by
  refine moves_identifier.bind fun name => ?_
  cases name with
  | some name => exact .pure _
  | none => exact moves_fail _

/-- A bracket that stands next is left behind. -/
theorem movesFrom_advance {c : Cursor} {b : UInt8} (h : c.rest.head? = some b) :
    MovesFrom id c (modify (·.advance 1) : Scan PUnit) ∧
      Shrinks c (modify (·.advance 1) : Scan PUnit) := by
  obtain ⟨hbefore, hlt⟩ := Cursor.before_advance_one h
  refine ⟨.of_ok rfl hbefore, fun _ d hd => ?_⟩
  cases hd
  exact hlt

theorem moves_fieldName : Moves id fieldName := by
  refine fun c => (moves_peek c).bind fun next d hd => .ite (fun _ => moves_fieldNumber d) fun _ =>
    .ite (fun hnext => ?_) fun _ => moves_plainName d
  have hhead := (head?_of_peek hd).trans hnext
  exact (movesFrom_advance hhead).1.bind fun _ d' _ => moves_insideBrackets d'

/-- A name that was read is left behind. -/
theorem shrinks_fieldName (c : Cursor) : Shrinks c fieldName := by
  refine Shrinks.bind_right (moves_peek c) fun next d hd => ?_
  have hhead := head?_of_peek hd
  refine .ite (fun hdigit => ?_) fun _ => .ite (fun hnext => ?_) fun _ => ?_
  · rw [← hhead] at hdigit
    rw [fieldNumber_eq]
    exact (shrinks_span hdigit).bind_left moves_checkedNumber
  · exact (movesFrom_advance (hhead.trans hnext)).2.bind_left fun _ => moves_insideBrackets
  · intro name e h
    obtain ⟨found, u, hu, h⟩ := bind_eq_ok.1 h
    cases found with
    | none => cases h
    | some found =>
      cases h
      exact shrinks_identifier hu

/-! ## Numbers and words -/

theorem length_numberSpan_le (hexadecimal afterE : Bool) (bytes : Bytes) :
    (numberSpan hexadecimal afterE bytes).length ≤ bytes.length := by
  induction bytes generalizing afterE with
  | nil => exact Nat.le_refl _
  | cons b bytes ih =>
    unfold numberSpan
    split
    · exact Nat.succ_le_succ (ih _)
    · exact Nat.zero_le _

theorem moves_numberBody (negative : Prop) [Decidable negative] : Moves id (do
    let c ← get
    let body := numberSpan (startsHexadecimal c.rest) false c.rest
    set (c.advance body.length)
    if body.isEmpty then fail .expectedNumber
    return ofAscii (if negative then byte '-' :: body else body) : Scan String) := by
  intro c
  have hset : MovesFrom id c (set (c.advance
      (numberSpan (startsHexadecimal c.rest) false c.rest).length) : Scan PUnit) :=
    .of_ok rfl (Cursor.before_advance (length_numberSpan_le _ _ _))
  refine (Moves.get c).bind fun c' d hd => ?_
  cases hd
  refine hset.bind fun _ d _ => ?_
  exact (Moves.ite ((moves_fail _).bind fun _ => .pure _) (.pure _) : Moves id _) d

theorem moves_numberToken : Moves id numberToken := by
  refine fun c => (moves_blanks c).bind fun _ d _ => (Moves.get d).bind fun c' d' hd => ?_
  cases hd
  refine .ite (fun hminus => ?_) fun _ => moves_numberBody _ d
  exact (movesFrom_advance hminus).1.bind fun _ d' _ => moves_numberBody _ d'

/-! ## String literals -/

theorem moves_digits (base count : Nat) : Moves id (digits base count) := by
  intro c
  refine .of_ok rfl (Cursor.before_advance (c := c) ?_)
  have hle := (List.takeWhile_sublist Option.isSome (l :=
    (c.rest.take count).map (digitValue? base))).length_le
  rw [List.length_map, List.length_take] at hle
  omega

theorem anyByte_of_nil {c : Cursor} (h : c.rest = []) : anyByte c = .ok none c := by
  rw [anyByte, run_bind_of_ok (run_get c), h]
  rfl

theorem anyByte_of_head {c : Cursor} {b : UInt8} (h : c.rest.head? = some b) :
    anyByte c = .ok (some b) (c.advance 1) := by
  obtain ⟨bytes, hrest⟩ := List.head?_eq_some_iff.1 h
  rw [anyByte, run_bind_of_ok (run_get c), hrest]
  rfl

theorem moves_anyByte : Moves id anyByte := by
  intro c
  cases hrest : c.rest with
  | nil => exact .of_ok (anyByte_of_nil hrest) (.refl c)
  | cons b rest =>
    have hhead : c.rest.head? = some b := by rw [hrest, List.head?_cons]
    exact .of_ok (anyByte_of_head hhead) (Cursor.before_advance_one hhead).1

/-- A byte that was read is left behind. -/
theorem length_lt_of_anyByte {c d : Cursor} {b : UInt8} (h : anyByte c = .ok (some b) d) :
    d.rest.length < c.rest.length := by
  cases hhead : c.rest.head? with
  | none =>
    rw [anyByte_of_nil (List.head?_eq_none_iff.1 hhead)] at h
    cases h
  | some b' =>
    rw [anyByte_of_head hhead] at h
    cases h
    exact (Cursor.before_advance_one hhead).2

theorem moves_unicodeEscape (width : Nat) : Moves id (unicodeEscape width) :=
  (moves_digits 16 width).bind fun _ => .ite (.pure _) (moves_fail _)

theorem moves_escape : Moves id escape := by
  refine moves_anyByte.bind fun next => ?_
  cases next with
  | none => exact moves_fail _
  | some b =>
    dsimp only
    split
    · exact .pure _
    · split
      · refine (moves_digits 8 2).bind fun _ => .ite ?_ (.pure _)
        exact (moves_fail _).bind fun _ => .pure _
      · refine .ite ?_ (.ite (moves_unicodeEscape 4) (.ite (moves_unicodeEscape 8) (moves_fail _)))
        refine (moves_digits 16 2).bind fun _ => .ite ?_ (.pure _)
        exact (moves_fail _).bind fun _ => .pure _

theorem moves_literalBody (quote : UInt8) (rounds : Nat) :
    Moves Prod.snd (literalBody quote rounds) := by
  induction rounds with
  | zero => exact .read (moves_fail _)
  | succ rounds ih =>
    refine (Moves.read moves_anyByte).bind fun next => ?_
    cases next with
    | none => exact .read (moves_fail _)
    | some b =>
      refine .ite (.read (moves_fail _)) (.ite ?_ (.ite (.pure _) ?_))
      · exact (Moves.read moves_escape).bind fun _ => (Moves.update _).bind fun _ => ih
      · exact (Moves.update _).bind fun _ => ih

theorem moves_atString : Moves id atString := moves_peek.bind fun _ => .pure _

theorem moves_literals (rounds : Nat) : Moves Prod.snd (literals rounds) := by
  induction rounds with
  | zero => exact .pure _
  | succ rounds ih =>
    refine (Moves.read moves_atString).bind fun found => .ite ?_ (.pure _)
    refine (Moves.read moves_anyByte).bind fun next => ?_
    cases next with
    | none => exact .pure _
    | some quote =>
      exact Moves.source.bind fun c => (moves_literalBody quote _).bind fun _ => ih

theorem moves_stringLiteral : Moves id stringLiteral := by
  have hliterals : Moves id (do
      let c ← get
      alone [] (literals (c.rest.length + 1)) : Scan Bytes) :=
    Moves.get.bind fun c => .alone (moves_literals _)
  exact moves_atString.bind fun _ => .ite ((moves_fail _).bind fun _ => hliterals) hliterals

/-! ## Scalars -/

theorem moves_requireColon : Moves id requireColon :=
  Moves.get.bind fun _ => .ite (moves_fail _) (.pure _)

theorem moves_integer : Moves id integer := by
  refine moves_numberToken.bind fun token => ?_
  cases integer? token with
  | some value => exact .pure _
  | none => exact moves_fail _

theorem moves_signedInteger (low high : Int) : Moves id (signedInteger low high) :=
  moves_requireColon.bind fun _ => moves_integer.bind fun _ =>
    .ite ((moves_fail _).bind fun _ => .pure _) (.pure _)

theorem moves_unsignedInteger (bound : Nat) : Moves id (unsignedInteger bound) :=
  moves_requireColon.bind fun _ => moves_integer.bind fun _ =>
    .ite ((moves_fail _).bind fun _ => .pure _) (.pure _)

theorem moves_double : Moves id double := by
  refine moves_requireColon.bind fun _ => moves_numberToken.bind fun token => ?_
  cases double? token with
  | some bits => exact .pure _
  | none => exact moves_fail _

theorem moves_bool : Moves id bool := by
  refine moves_requireColon.bind fun _ => moves_numberToken.bind fun token => ?_
  cases bool? token with
  | some value => exact .pure _
  | none => exact moves_fail _

theorem moves_bytes : Moves id bytes := moves_requireColon.bind fun _ => moves_stringLiteral

theorem moves_string : Moves id string := by
  refine moves_bytes.bind fun b => ?_
  cases Utf8.decode b with
  | ok s => exact .pure _
  | error e => exact moves_fail _

theorem moves_enum (type : EnumType) : Moves id (enum type) := by
  refine moves_requireColon.bind fun _ => moves_identifier.bind fun name => ?_
  cases name with
  | some name =>
    dsimp only
    cases type.number? name with
    | some value => exact .pure _
    | none => exact moves_fail _
  | none =>
    exact moves_integer.bind fun _ => .ite ((moves_fail _).bind fun _ => .pure _) (.pure _)

theorem moves_scalar (kind : ScalarKind) : Moves id (scalar kind) := by
  cases kind with
  | int32 | sint32 | sfixed32 => exact ((moves_signedInteger _ _).map _).map _
  | int64 | sint64 | sfixed64 => exact ((moves_signedInteger _ _).map _).map _
  | uint32 | fixed32 => exact ((moves_unsignedInteger _).map _).map _
  | uint64 | fixed64 => exact ((moves_unsignedInteger _).map _).map _
  | float => exact (moves_double.bind fun _ => .pure _).map _
  | double => exact moves_double.map _
  | bool => exact moves_bool.map _
  | enum type => exact (moves_enum type).map _
  | string => exact moves_string.map _
  | bytes => exact moves_bytes.map _

/-! ## Blocks -/

theorem moves_openBlock : Moves id openBlock :=
  (moves_tryChar _).bind fun _ => .ite (.pure _) <|
    (moves_tryChar _).bind fun _ => .ite (.pure _) (moves_fail _)

theorem shrinks_openBlock (c : Cursor) : Shrinks c openBlock := by
  intro close e h
  obtain ⟨found, d, hd, h⟩ := bind_eq_ok.1 h
  cases found with
  | true =>
    cases h
    exact shrinks_tryChar hd
  | false =>
    obtain ⟨found, u, hu, h⟩ := bind_eq_ok.1 h
    cases found with
    | true =>
      cases h
      exact Nat.lt_of_lt_of_le (shrinks_tryChar hu) ((moves_tryChar _).length_le hd)
    | false => cases h

end Scan

namespace Cursor

/-- The same place with one more block open. -/
def opened (c : Cursor) : Cursor := { c with depth := c.depth + 1 }

/-- The same place with one block fewer open. -/
def closed (c : Cursor) : Cursor := { c with depth := c.depth - 1 }

/-- A block that is opened, read over and closed leaves as many blocks open as before. -/
theorem Before.closed {c d : Cursor} (h : c.opened.Before d) : c.Before d.closed := by
  obtain ⟨hover, hdepth⟩ := h
  refine ⟨hover, ?_⟩
  show d.depth - 1 = c.depth
  rw [hdepth]
  rfl

theorem Reaches.of_opened {c d : Cursor} (h : c.opened.Reaches d) : c.Reaches d := by
  obtain ⟨hover, hdepth⟩ := h
  have hdepth : c.depth + 1 ≤ d.depth := hdepth
  exact ⟨hover, by omega⟩

end Cursor

namespace Scan

theorem enter_of_le {limit : Nat} {c : Cursor} (h : c.depth + 1 ≤ limit) :
    enter limit c = .ok () c.opened := by
  rw [enter, run_bind_of_ok (run_modify _ c), run_bind_of_ok (run_get _),
    if_neg (show ¬ limit < c.depth + 1 from Nat.not_lt.2 h)]
  rfl

theorem enter_of_limit_lt {limit : Nat} {c : Cursor} (h : limit < c.depth + 1) :
    enter limit c = .error (.textDepthLimit limit) c.opened := by
  rw [enter, run_bind_of_ok (run_modify _ c), run_bind_of_ok (run_get _),
    if_pos (show limit < c.depth + 1 from h)]
  rfl

/-- What is done inside a block is balanced if the block is closed behind it. -/
theorem moves_enter {limit : Nat} {x : Scan α} {f : α → Scan β} (hx : Moves id x)
    (hf : ∀ a d, ∃ b, f a d = .ok b d.closed) :
    Moves id (enter limit >>= fun _ => x >>= f) := by
  intro c
  by_cases hd : c.depth + 1 ≤ limit
  · have hrun : (enter limit >>= fun _ => x >>= f) c = (x >>= f) c.opened :=
      run_bind_of_ok (enter_of_le hd)
    cases h : x c.opened with
    | ok a d =>
      obtain ⟨b, hb⟩ := hf a d
      exact .of_ok (hrun.trans ((run_bind_of_ok h).trans hb)) ((hx c.opened).before h).closed
    | error e d =>
      exact .of_error (hrun.trans (run_bind_of_error h)) ((hx c.opened).reaches h).of_opened
  · have hrun := enter_of_limit_lt (Nat.lt_of_not_le hd)
    exact .of_error (run_bind_of_error hrun) (Cursor.Reaches.refl c.opened).of_opened

theorem moves_separator : Moves id separator :=
  (moves_tryChar _).bind fun _ => .ite ((moves_tryChar _).bind fun _ => .pure _) (.pure _)

theorem moves_atBlock : Moves id atBlock := moves_peek.bind fun _ => .pure _

theorem moves_colon : Moves id colon :=
  (moves_tryChar _).bind fun _ _ => .of_ok rfl (Cursor.Before.refl _)

theorem moves_finished (close? : Option Char) : Moves id (finished close?) := by
  cases close? with
  | none => exact moves_peek.bind fun _ => .pure _
  | some close =>
    exact (moves_tryChar _).bind fun _ => .ite (.pure _) <|
      moves_peek.bind fun _ => .ite (moves_fail _) (.pure _)

/-! ## Skipping -/

theorem moves_skipScalar : Moves id skipScalar :=
  moves_atString.bind fun _ => .ite (moves_stringLiteral.bind fun _ => .pure _)
    (moves_numberToken.bind fun _ => .pure _)

/-- Whatever is skipped, the cursor moves on. -/
theorem moves_skip (limit rounds : Nat) :
    (∀ sawColon, Moves id (skipValue limit rounds sawColon)) ∧
      Moves id (skipBlock limit rounds) ∧ (∀ close, Moves id (skipFields limit close rounds)) ∧
      Moves id (skipElements limit rounds) := by
  induction rounds with
  | zero => exact ⟨fun _ => moves_fail _, moves_fail _, fun _ => moves_fail _, moves_fail _⟩
  | succ rounds ih =>
    obtain ⟨hvalue, hblock, hfields, helements⟩ := ih
    refine ⟨fun sawColon => ?_, ?_, fun close => ?_, ?_⟩
    · refine moves_atBlock.bind fun _ => .ite hblock (.ite ?_ (moves_fail _))
      refine moves_peek.bind fun _ => .ite ?_ moves_skipScalar
      exact (moves_expect _).bind fun _ => (moves_tryChar _).bind fun _ =>
        .ite helements (.pure _)
    · exact moves_openBlock.bind fun close => moves_enter (hfields close) fun _ d => ⟨(), rfl⟩
    · refine (moves_tryChar _).bind fun _ => .ite ?_ (.pure _)
      exact moves_fieldName.bind fun _ => (moves_tryChar _).bind fun sawColon =>
        (hvalue sawColon).bind fun _ => moves_separator.bind fun _ => hfields close
    · have hrest : Moves id (do
          if !(← tryChar ']') then
            expect ','
            skipElements limit rounds : Scan Unit) :=
        (moves_tryChar _).bind fun _ => .ite ((moves_expect _).bind fun _ => helements) (.pure _)
      exact moves_atBlock.bind fun _ =>
        .ite (hblock.bind fun _ => hrest) (moves_skipScalar.bind fun _ => hrest)

theorem moves_skipValue (limit rounds : Nat) (sawColon : Bool) :
    Moves id (skipValue limit rounds sawColon) :=
  (moves_skip limit rounds).1 sawColon

/-! ## Lists and map entries -/

theorem moves_elements {read : Scan α} (hread : Moves id read) (rounds : Nat) :
    Moves Prod.snd (elements read rounds) := by
  induction rounds with
  | zero => exact .pure _
  | succ rounds ih =>
    refine (Moves.read hread).bind fun _ => (Moves.update _).bind fun _ => ?_
    exact (Moves.read (moves_tryChar _)).bind fun _ =>
      .ite ((Moves.read (moves_expect _)).bind fun _ => ih) (.pure _)

theorem moves_repeated {read : Scan α} (hread : Moves id read) :
    Moves Prod.snd (repeated read) := by
  refine (Moves.read (moves_tryChar _)).bind fun _ => .ite ?_ ?_
  · refine (Moves.read (moves_tryChar _)).bind fun _ => .ite ?_ (.pure _)
    exact Moves.source.bind fun _ => moves_elements hread _
  · exact (Moves.read hread).bind fun _ => .update _

variable {κ ν : Type}

theorem moves_entryFields {readKey : Scan κ} {readValue : Scan ν} (hkey : Moves id readKey)
    (hvalue : Moves id readValue) (close : Char) (rounds : Nat) :
    Moves Prod.snd (entryFields readKey readValue close rounds) := by
  induction rounds with
  | zero => exact .pure _
  | succ rounds ih =>
    have hrest : Moves Prod.snd (do
        Build.read separator
        entryFields readKey readValue close rounds : Build Cursor (κ × ν) Unit) :=
      (Moves.read moves_separator).bind fun _ => ih
    refine (Moves.read (moves_tryChar _)).bind fun _ => .ite ?_ (.pure _)
    refine (Moves.read moves_line).bind fun _ => (Moves.read moves_fieldName).bind fun _ =>
      (Moves.read moves_colon).bind fun _ => .ite ?_ (.ite ?_ ?_)
    · exact (Moves.read hkey).bind fun _ => (Moves.update _).bind fun _ => hrest
    · exact (Moves.read hvalue).bind fun _ => (Moves.update _).bind fun _ => hrest
    · exact (Moves.throw _).bind fun _ => hrest

theorem moves_mapEntry {limit : Nat} {zero : κ × ν} {readKey : Scan κ} {readValue : Scan ν}
    (hkey : Moves id readKey) (hvalue : Moves id readValue) :
    Moves id (mapEntry limit zero readKey readValue) := by
  refine moves_openBlock.bind fun close => moves_enter (.alone ?_) fun entry d => ⟨entry, rfl⟩
  exact Moves.source.bind fun _ => moves_entryFields hkey hvalue close _

end Scan

/-! ## Messages -/

section

variable {limit : Nat} {body : MergeBody}

theorem moves_block (hbody : ∀ close?, Moves Prod.snd (body close?)) :
    Moves Prod.snd (block limit body) := by
  refine (Moves.read Scan.moves_openBlock).bind fun close => ?_
  rintro ⟨m, c⟩
  have hinside := hbody (some close) (m, c.opened)
  by_cases hd : c.depth + 1 ≤ limit
  · have hread := read_eq_ok (s := m).2 ⟨Scan.enter_of_le hd, rfl⟩
    cases h : body (some close) (m, c.opened) with
    | ok a p =>
      refine .of_ok (a := ()) (t := (p.1, p.2.closed)) ?_ (hinside.before h).closed
      rw [run_bind_of_ok hread, run_bind_of_ok h]
      rfl
    | error e p =>
      refine .of_error (e := e) (t := p) ?_ (hinside.reaches h).of_opened
      rw [run_bind_of_ok hread, run_bind_of_error h]
  · have hread := read_eq_error (s := m).2 ⟨Scan.enter_of_limit_lt (Nat.lt_of_not_le hd), rfl⟩
    exact .of_error (run_bind_of_error hread) (Cursor.Reaches.refl c.opened).of_opened

theorem moves_value (hbody : ∀ close?, Moves Prod.snd (body close?)) (kind : FieldKind) :
    Moves id (value limit body kind) := by
  cases kind with
  | scalar kind => exact (Scan.moves_scalar kind).map _
  | message type | group type => exact (Moves.alone (moves_block hbody)).map _

theorem moves_mergeMember (hbody : ∀ close?, Moves Prod.snd (body close?)) (name : String)
    (member : Member) : Moves Prod.snd (mergeMember limit body name member) := by
  cases member with
  | plain number label kind =>
    exact (Moves.read (Scan.moves_scalar kind)).bind fun _ => .put _
  | optional field required =>
    rw [mergeMember]
    cases field.kind with
    | scalar kind => exact (Moves.read (Scan.moves_scalar kind)).bind fun _ => .put _
    | message type | group type => exact .zoom (moves_block hbody)
  | packed number label kind =>
    rw [mergeMember]
    exact .zoom (Scan.moves_repeated (Scan.moves_scalar kind))
  | repeated field =>
    rw [mergeMember]
    exact .zoom (Scan.moves_repeated (moves_value hbody field.kind))
  | map number label key kind =>
    refine (Moves.read (Scan.moves_mapEntry (Scan.moves_scalar key) ?_)).bind fun _ => .update _
    exact moves_value hbody kind
  | oneof fields =>
    rw [mergeMember]
    cases fields.find? (·.name = name) with
    | none => exact .pure _
    | some field => exact (Moves.read (moves_value hbody field.kind)).bind fun _ => .put _
  | payload number label => exact (Moves.read Scan.moves_bytes).bind fun _ => .put _

theorem moves_mergeField (hbody : ∀ close?, Moves Prod.snd (body close?)) (name : String) :
    Moves Prod.snd (mergeField limit body name) := by
  rintro ⟨m, c⟩
  cases hfound : Message.member? m.type (·.hasName name) with
  | none =>
    have hrun : mergeField limit body name (m, c) = .ok false (m, c) := by
      rw [mergeField, hfound]
    exact .of_ok hrun (.refl c)
  | some found =>
    obtain ⟨i, member⟩ := found
    have hrun : mergeField limit body name (m, c) =
        (do Message.atSlot i member (mergeMember limit body name member); pure true) (m, c) := by
      rw [mergeField, hfound]
    have hmoves : Moves Prod.snd
        (do Message.atSlot i member (mergeMember limit body name member); pure true :
          Build Cursor Message Bool) :=
      (Moves.zoom (moves_mergeMember hbody name member)).bind fun _ => .pure _
    constructor
    · intro a t h
      exact (hmoves (m, c)).before (hrun.symm.trans h)
    · intro e t h
      exact (hmoves (m, c)).reaches (hrun.symm.trans h)

variable {options : ParseOptions}

theorem moves_mergeNamed (hbody : ∀ close?, Moves Prod.snd (body close?)) (name : FieldName) :
    Moves Prod.snd (mergeNamed options body name) := by
  refine Moves.current.bind fun m => ?_
  cases name with
  | plain name => exact moves_mergeField hbody name
  | number number =>
    dsimp only
    cases m.type.textName? number with
    | none => exact .pure _
    | some name => exact moves_mergeField hbody name
  | bracketed url =>
    refine .ite (.ite (Moves.bind ?_ fun _ => .pure _) (.pure _)) (moves_mergeField hbody _)
    unfold mergeExpanded
    cases options.known?.bind (·.lookup? url) with
    | none => exact .throw _
    | some type => exact (Moves.read (.alone (moves_block hbody))).bind fun _ => .update _

theorem moves_mergeBehind (hbody : ∀ close?, Moves Prod.snd (body close?)) (line : Nat)
    (name : FieldName) : Moves Prod.snd (mergeBehind options body line name) := by
  have hskip : Moves Prod.snd (do
      let c ← source
      read (Scan.skipValue options.depthLimit (2 * c.rest.length + 2) c.sawColon)
      read Scan.separator : Build Cursor Message Unit) :=
    Moves.source.bind fun _ => (Moves.read (Scan.moves_skipValue _ _ _)).bind fun _ =>
      .read Scan.moves_separator
  refine (Moves.read Scan.moves_colon).bind fun _ => (moves_mergeNamed hbody name).bind fun _ => ?_
  exact .ite (.ite ((Moves.throw _).bind fun _ => hskip) hskip) (.read Scan.moves_separator)

theorem moves_mergeFields (rounds : Nat) (close? : Option Char) :
    Moves Prod.snd (mergeFields options rounds close?) := by
  induction rounds generalizing close? with
  | zero => exact .pure _
  | succ rounds ih =>
    rw [mergeFields_succ]
    refine (Moves.read (Scan.moves_finished close?)).bind fun _ => .ite ?_ (.pure _)
    exact (Moves.read Scan.moves_line).bind fun line =>
      (Moves.read Scan.moves_fieldName).bind fun name =>
      (moves_mergeBehind ih line name).bind fun _ => ih close?

theorem moves_mergeBody (close? : Option Char) : Moves Prod.snd (mergeBody options close?) :=
  Moves.source.bind fun _ => moves_mergeFields _ close?

end

end Text

end Protobuf
