import Protobuf.Proofs.Text.Progress
import Protobuf.Proofs.UnknownFields

/-!
# Skipping without counting

Every turn of skipping reads a byte, so as many rounds as are given for the bytes that are left
always suffice, and more of them make no difference (`Text.Scan.skip_rounds`). What is skipped with
enough rounds satisfies the equations of the grammar, in which no rounds are counted. That is what
happens to the value of a field that its message does not declare (`Text.mergeNamed_of_undeclared`),
so a text is parsed as a message without fields by passing over all of it (`Text.parse_empty`).
-/

namespace Protobuf

open Build

variable {σ α β : Type}

/-! ## What names stand for -/

namespace MessageType

/-- The label of the field that a name stands for in a message of the type. A URL is no label. -/
def label? (type : MessageType) : Text.FieldName → Option String
  | .plain name => some name
  | .number number => type.textName? number
  | .bracketed name =>
    if name.toList.contains '/' then none else some (Text.FieldName.bracketed name).display

/-- The name is a URL that may stand for an expanded payload of the type. -/
def expands (type : MessageType) : Text.FieldName → Bool
  | .bracketed name => name.toList.contains '/' && type = .any
  | _ => false

/-- The type declares a field that the name stands for. -/
def declares (type : MessageType) (name : Text.FieldName) : Bool :=
  type.expands name ||
    (type.label? name).any fun label => (Message.member? type (·.hasName label)).isSome

end MessageType

namespace Text

/-- What is done next matters only where something was read before. -/
theorem run_bind_congr {x : EStateM Error σ α} {f g : α → EStateM Error σ β} {s : σ}
    (h : ∀ a t, x s = .ok a t → f a t = g a t) : (x >>= f) s = (x >>= g) s := by
  rw [run_bind, run_bind]
  cases hx : x s with
  | ok a t => exact h a t hx
  | error e t => rfl

theorem run_bind_congr_left {x y : EStateM Error σ α} {f g : α → EStateM Error σ β} {s : σ}
    (hxy : x s = y s) (h : ∀ a t, x s = .ok a t → f a t = g a t) : (x >>= f) s = (y >>= g) s :=
  (run_bind_congr h).trans (by rw [run_bind, run_bind, hxy])

theorem run_ite_congr {p : Prop} [Decidable p] {x y x' y' : EStateM Error σ α} {s : σ}
    (hx : p → x s = x' s) (hy : ¬p → y s = y' s) :
    (if p then x else y) s = (if p then x' else y') s := by
  split
  · rename_i h
    exact hx h
  · rename_i h
    exact hy h

namespace Scan

/-! ## Turns -/

/-- What is done for a value, given how blocks and elements are passed over. -/
def valueTurn (block elements : Scan Unit) (sawColon : Bool) : Scan Unit := do
  if ← atBlock then block
  else if sawColon then
    if (← peek) = some (byte '[') then
      expect '['
      if !(← tryChar ']') then elements
    else skipScalar
  else fail .expectedColonOrBlock

/-- What is done for a block, given how its fields are passed over. -/
def blockTurn (limit : Nat) (fields : Char → Scan Unit) : Scan Unit := do
  let close ← openBlock
  enter limit
  fields close
  leave

/-- What is done for a field, given how its value and the fields behind it are passed over. -/
def fieldsTurn (close : Char) (value : Bool → Scan Unit) (fields : Scan Unit) : Scan Unit := do
  if !(← tryChar close) then
    let _ ← fieldName
    let sawColon ← tryChar ':'
    value sawColon
    separator
    fields

/-- What is done for an element, given how blocks and the elements behind it are passed over. -/
def elementsTurn (block elements : Scan Unit) : Scan Unit := do
  if ← atBlock then block else skipScalar
  if !(← tryChar ']') then
    expect ','
    elements

section

variable {c : Cursor} {block block' elements elements' loop loop' : Scan Unit}
  {fields fields' : Char → Scan Unit} {value value' : Bool → Scan Unit}

theorem valueTurn_congr
    (hblock : ∀ d : Cursor, d.rest.length ≤ c.rest.length → block d = block' d)
    (helements : ∀ d : Cursor, d.rest.length < c.rest.length → elements d = elements' d)
    (sawColon : Bool) :
    valueTurn block elements sawColon c = valueTurn block' elements' sawColon c := by
  refine run_bind_congr fun found d hd => ?_
  have hle := moves_atBlock.length_le hd
  refine run_ite_congr (fun _ => hblock d hle) fun _ => run_ite_congr (fun _ => ?_) fun _ => rfl
  refine run_bind_congr fun next u hu => run_ite_congr (fun _ => ?_) fun _ => rfl
  have hpeek := moves_peek.length_le hu
  refine run_bind_congr fun _ v hv => ?_
  have hlt := shrinks_expect '[' u () v hv
  refine run_bind_congr fun closed w hw => run_ite_congr (fun _ => ?_) fun _ => rfl
  have htry := (moves_tryChar ']').length_le hw
  exact helements w (by omega)

theorem length_lt_of_enter {limit : Nat} {c d e : Cursor} {close : Char}
    (hd : openBlock c = .ok close d) (he : enter limit d = .ok () e) :
    e.rest.length < c.rest.length := by
  have hlt := shrinks_openBlock c close d hd
  by_cases hdepth : d.depth + 1 ≤ limit
  · rw [enter_of_le hdepth] at he
    cases he
    exact hlt
  · rw [enter_of_limit_lt (Nat.lt_of_not_le hdepth)] at he
    cases he

theorem blockTurn_congr (limit : Nat)
    (hfields : ∀ close (d : Cursor), d.rest.length < c.rest.length →
      fields close d = fields' close d) :
    blockTurn limit fields c = blockTurn limit fields' c :=
  run_bind_congr fun close _ hd => run_bind_congr fun _ u hu =>
    run_bind_congr_left (hfields close u (length_lt_of_enter hd hu)) fun _ _ _ => rfl

theorem fieldsTurn_congr (hmoves : ∀ sawColon, Moves id (value sawColon))
    (hvalue : ∀ sawColon (d : Cursor), d.rest.length < c.rest.length →
      value sawColon d = value' sawColon d)
    (hloop : ∀ d : Cursor, d.rest.length < c.rest.length → loop d = loop' d) (close : Char) :
    fieldsTurn close value loop c = fieldsTurn close value' loop' c := by
  refine run_bind_congr fun closed d hd => run_ite_congr (fun _ => ?_) fun _ => rfl
  have htry := (moves_tryChar close).length_le hd
  refine run_bind_congr fun name u hu => ?_
  have hlt := shrinks_fieldName d name u hu
  refine run_bind_congr fun sawColon v hv => ?_
  have hcolon := (moves_tryChar ':').length_le hv
  refine run_bind_congr_left (hvalue sawColon v (by omega)) fun _ w hw => ?_
  have hle := (hmoves sawColon).length_le hw
  refine run_bind_congr fun _ x hx => ?_
  have hseparator := moves_separator.length_le hx
  exact hloop x (by omega)

theorem elementsTurn_congr (hmoves : Moves id block)
    (hblock : ∀ d : Cursor, d.rest.length ≤ c.rest.length → block d = block' d)
    (hloop : ∀ d : Cursor, d.rest.length < c.rest.length → loop d = loop' d) :
    elementsTurn block loop c = elementsTurn block' loop' c := by
  have hrest : ∀ u : Cursor, u.rest.length ≤ c.rest.length →
      (do
        if !(← tryChar ']') then
          expect ','
          loop : Scan Unit) u =
      (do
        if !(← tryChar ']') then
          expect ','
          loop' : Scan Unit) u := by
    refine fun u hu => run_bind_congr fun closed v hv => run_ite_congr (fun _ => ?_) fun _ => rfl
    have htry := (moves_tryChar ']').length_le hv
    refine run_bind_congr fun _ w hw => ?_
    have hlt := shrinks_expect ',' v () w hw
    exact hloop w (by omega)
  refine run_bind_congr fun found d hd => ?_
  have hle := moves_atBlock.length_le hd
  refine run_ite_congr (fun _ => ?_) fun _ => ?_
  · refine run_bind_congr_left (hblock d hle) fun _ u hu => hrest u ?_
    exact Nat.le_trans (hmoves.length_le hu) hle
  · refine run_bind_congr fun _ u hu => hrest u ?_
    exact Nat.le_trans (moves_skipScalar.length_le hu) hle

end

/-! ## Rounds -/

variable (limit : Nat)

/-- Where there are more than two rounds for every byte that is left, their number makes no
difference. -/
theorem skip_rounds (rounds rounds' : Nat) (c : Cursor) :
    (2 * c.rest.length + 1 < rounds → 2 * c.rest.length + 1 < rounds' → ∀ sawColon,
      skipValue limit rounds sawColon c = skipValue limit rounds' sawColon c) ∧
    (2 * c.rest.length < rounds → 2 * c.rest.length < rounds' →
      skipBlock limit rounds c = skipBlock limit rounds' c) ∧
    (2 * c.rest.length < rounds → 2 * c.rest.length < rounds' → ∀ close,
      skipFields limit close rounds c = skipFields limit close rounds' c) ∧
    (2 * c.rest.length + 1 < rounds → 2 * c.rest.length + 1 < rounds' →
      skipElements limit rounds c = skipElements limit rounds' c) := by
  induction rounds generalizing rounds' c with
  | zero => exact ⟨by omega, by omega, by omega, by omega⟩
  | succ rounds ih =>
    cases rounds' with
    | zero => exact ⟨by omega, by omega, by omega, by omega⟩
    | succ rounds' =>
      have hblock : 2 * c.rest.length < rounds → 2 * c.rest.length < rounds' →
          ∀ d : Cursor, d.rest.length ≤ c.rest.length →
            skipBlock limit rounds d = skipBlock limit rounds' d :=
        fun h h' d hd => (ih rounds' d).2.1 (by omega) (by omega)
      have helements : 2 * c.rest.length < rounds → 2 * c.rest.length < rounds' →
          ∀ d : Cursor, d.rest.length < c.rest.length →
            skipElements limit rounds d = skipElements limit rounds' d :=
        fun h h' d hd => (ih rounds' d).2.2.2 (by omega) (by omega)
      refine ⟨fun h h' sawColon => ?_, fun h h' => ?_, fun h h' close => ?_, fun h h' => ?_⟩
      · exact valueTurn_congr (hblock (by omega) (by omega)) (helements (by omega) (by omega)) _
      · exact blockTurn_congr limit fun close d hd =>
          (ih rounds' d).2.2.1 (by omega) (by omega) close
      · exact fieldsTurn_congr (moves_skipValue limit rounds)
          (fun sawColon d hd => (ih rounds' d).1 (by omega) (by omega) sawColon)
          (fun d hd => (ih rounds' d).2.2.1 (by omega) (by omega) close) close
      · exact elementsTurn_congr (moves_skip limit rounds).2.1 (hblock (by omega) (by omega))
          (helements (by omega) (by omega))

/-- Passes over a field's value. -/
def passValue (sawColon : Bool) : Scan Unit := fun c =>
  skipValue limit (2 * c.rest.length + 2) sawColon c

/-- Passes over a block. -/
def passBlock : Scan Unit := fun c => skipBlock limit (2 * c.rest.length + 1) c

/-- Passes over the fields of a block up to the closing character. -/
def passFields (close : Char) : Scan Unit := fun c =>
  skipFields limit close (2 * c.rest.length + 1) c

/-- Passes over the elements of a list up to its end. -/
def passElements : Scan Unit := fun c => skipElements limit (2 * c.rest.length + 2) c

theorem skipValue_eq_pass {rounds : Nat} {c : Cursor} (h : 2 * c.rest.length + 1 < rounds)
    (sawColon : Bool) : skipValue limit rounds sawColon c = passValue limit sawColon c :=
  (skip_rounds limit _ _ c).1 h (by omega) sawColon

theorem skipBlock_eq_pass {rounds : Nat} {c : Cursor} (h : 2 * c.rest.length < rounds) :
    skipBlock limit rounds c = passBlock limit c :=
  (skip_rounds limit _ _ c).2.1 h (by omega)

theorem skipFields_eq_pass {rounds : Nat} {c : Cursor} (h : 2 * c.rest.length < rounds)
    (close : Char) : skipFields limit close rounds c = passFields limit close c :=
  (skip_rounds limit _ _ c).2.2.1 h (by omega) close

theorem skipElements_eq_pass {rounds : Nat} {c : Cursor} (h : 2 * c.rest.length + 1 < rounds) :
    skipElements limit rounds c = passElements limit c :=
  (skip_rounds limit _ _ c).2.2.2 h (by omega)

theorem passValue_eq (sawColon : Bool) :
    passValue limit sawColon = valueTurn (passBlock limit) (passElements limit) sawColon := by
  funext c
  exact valueTurn_congr (fun d hd => skipBlock_eq_pass limit (by omega))
    (fun d hd => skipElements_eq_pass limit (by omega)) sawColon

theorem passBlock_eq : passBlock limit = blockTurn limit (passFields limit) := by
  funext c
  exact blockTurn_congr limit fun close d hd => skipFields_eq_pass limit (by omega) close

theorem passFields_eq (close : Char) :
    passFields limit close = fieldsTurn close (passValue limit) (passFields limit close) := by
  funext c
  exact fieldsTurn_congr (moves_skipValue limit _)
    (fun sawColon d hd => skipValue_eq_pass limit (by omega) sawColon)
    (fun d hd => skipFields_eq_pass limit (by omega) close) close

theorem passElements_eq :
    passElements limit = elementsTurn (passBlock limit) (passElements limit) := by
  funext c
  exact elementsTurn_congr (moves_skip limit _).2.1
    (fun d hd => skipBlock_eq_pass limit (by omega))
    (fun d hd => skipElements_eq_pass limit (by omega))

/-! ## Texts of messages without fields -/

/-- What is done for a field that the type does not declare, given how the fields behind it are
passed over. -/
def textTurn (options : ParseOptions) (fields : Scan Unit) : Scan Unit := do
  if !(← finished none) then
    let line ← line
    let name ← fieldName
    colon
    if !options.ignores name then throw (.unknownField name.display line)
    passValue options.depthLimit (← get).sawColon
    separator
    fields

/-- Passes over the fields of a text, in a number of rounds. -/
def skipText (options : ParseOptions) : (rounds : Nat) → Scan Unit
  | 0 => pure ()
  | rounds + 1 => textTurn options (skipText options rounds)

/-- Passes over the fields of a text. -/
def passText (options : ParseOptions) : Scan Unit := fun c =>
  skipText options (c.rest.length + 1) c

theorem moves_passValue (limit : Nat) (sawColon : Bool) : Moves id (passValue limit sawColon) :=
  fun c => ⟨fun h => (moves_skipValue limit _ sawColon c).before h,
    fun h => (moves_skipValue limit _ sawColon c).reaches h⟩

section

variable (options : ParseOptions)

theorem textTurn_congr {c : Cursor} {fields fields' : Scan Unit}
    (h : ∀ d : Cursor, d.rest.length < c.rest.length → fields d = fields' d) :
    textTurn options fields c = textTurn options fields' c := by
  refine run_bind_congr fun ended d hd => run_ite_congr (fun _ => ?_) fun _ => rfl
  have hfinished := (moves_finished none).length_le hd
  refine run_bind_congr fun line u hu => ?_
  have hline := moves_line.length_le hu
  refine run_bind_congr fun name v hv => ?_
  have hlt := shrinks_fieldName u name v hv
  refine run_bind_congr fun _ w hw => ?_
  have hcolon := moves_colon.length_le hw
  have hskip : (do
        passValue options.depthLimit (← get).sawColon
        separator
        fields : Scan Unit) w =
      (do
        passValue options.depthLimit (← get).sawColon
        separator
        fields' : Scan Unit) w := by
    refine run_bind_congr fun w' x hx => ?_
    cases hx
    refine run_bind_congr fun _ x hx => run_bind_congr fun _ y hy => h y ?_
    have hvalue := (moves_passValue _ _).length_le hx
    have hseparator := moves_separator.length_le hy
    omega
  refine run_ite_congr (fun _ => run_bind_congr fun _ x hx => ?_) fun _ => hskip
  cases hx

theorem skipText_rounds (rounds rounds' : Nat) (c : Cursor) (h : c.rest.length < rounds)
    (h' : c.rest.length < rounds') : skipText options rounds c = skipText options rounds' c := by
  induction rounds generalizing rounds' c with
  | zero => omega
  | succ rounds ih =>
    cases rounds' with
    | zero => omega
    | succ rounds' =>
      exact textTurn_congr options fun d hd => ih rounds' d (by omega) (by omega)

theorem passText_eq : passText options = textTurn options (passText options) := by
  funext c
  exact textTurn_congr options fun d hd => skipText_rounds options _ _ d (by omega) (by omega)

end

end Scan

/-- What only reads is read as a whole. -/
theorem run_read_bind {x : Scan α} {f : α → Build Cursor σ β} {g : α → Scan β} {s : σ} {c : Cursor}
    (h : ∀ a d, x c = .ok a d → f a (s, d) = read (g a) (s, d)) :
    (read x >>= f) (s, c) = read (x >>= g) (s, c) := by
  rw [run_read, run_bind, run_bind, run_read]
  cases hx : x c with
  | ok a d => exact (h a d hx).trans (run_read (g a) s d)
  | error e d => rfl

theorem run_read_ite {p : Prop} [Decidable p] {x y : Build Cursor σ α} {x' y' : Scan α} {s : σ}
    {c : Cursor} (hx : p → x (s, c) = read x' (s, c)) (hy : ¬p → y (s, c) = read y' (s, c)) :
    (if p then x else y) (s, c) = read (if p then x' else y') (s, c) := by
  split
  · rename_i h
    exact hx h
  · rename_i h
    exact hy h

section

variable {options : ParseOptions} {body : MergeBody} {name : FieldName} {m : Message} {c : Cursor}

theorem mergeNamed_of_label {label : String} (h : m.type.label? name = some label) :
    mergeNamed options body name (m, c) = mergeField options.depthLimit body label (m, c) := by
  rw [mergeNamed, run_bind_of_ok (run_current m c)]
  cases name with
  | plain name =>
    cases h
    rfl
  | number number =>
    have htext : m.type.textName? number = some label := h
    dsimp only
    rw [htext]
  | bracketed url =>
    rw [MessageType.label?] at h
    split at h
    · cases h
    · rename_i hslash
      cases h
      dsimp only
      rw [if_neg hslash]

theorem mergeNamed_of_expands {url : String} (h : m.type.expands (.bracketed url) = true) :
    mergeNamed options body (.bracketed url) (m, c) = (do
      mergeExpanded options body url
      pure true : Build Cursor Message Bool) (m, c) := by
  obtain ⟨hslash, hany⟩ := Bool.and_eq_true_iff.1 h
  rw [mergeNamed, run_bind_of_ok (run_current m c)]
  dsimp only
  rw [if_pos hslash, if_pos (of_decide_eq_true hany)]

theorem mergeNamed_of_nothing (hexpands : m.type.expands name = false)
    (hlabel : m.type.label? name = none) :
    mergeNamed options body name (m, c) = .ok false (m, c) := by
  rw [mergeNamed, run_bind_of_ok (run_current m c)]
  cases name with
  | plain name => cases hlabel
  | number number =>
    have htext : m.type.textName? number = none := hlabel
    dsimp only
    rw [htext]
    rfl
  | bracketed url =>
    rw [MessageType.label?] at hlabel
    split at hlabel
    · rename_i hslash
      have hany : ¬ m.type = .any := fun hany => by
        rw [MessageType.expands, hslash, hany] at hexpands
        cases hexpands
      dsimp only
      rw [if_pos hslash, if_neg hany]
      rfl
    · cases hlabel

/-- A field with a name is merged into the member that has it as a label, or is merged as the
expanded payload of an `Any`, or is not declared and left to be skipped. -/
theorem mergeNamed_cases (options : ParseOptions) (body : MergeBody) (name : FieldName)
    (m : Message) (c : Cursor) :
    (∃ label i member, m.type.label? name = some label ∧
      Message.member? m.type (·.hasName label) = some (i, member) ∧
      mergeNamed options body name (m, c) = (do
        Message.atSlot i member (mergeMember options.depthLimit body label member)
        pure true : Build Cursor Message Bool) (m, c)) ∨
    (∃ url, name = .bracketed url ∧ m.type.expands name = true ∧
      mergeNamed options body name (m, c) = (do
        mergeExpanded options body url
        pure true : Build Cursor Message Bool) (m, c)) ∨
    m.type.declares name = false ∧ mergeNamed options body name (m, c) = .ok false (m, c) := by
  cases hexpands : m.type.expands name with
  | true =>
    cases name with
    | bracketed url => exact .inr (.inl ⟨url, rfl, rfl, mergeNamed_of_expands hexpands⟩)
    | _ => cases hexpands
  | false =>
    cases hlabel : m.type.label? name with
    | none =>
      refine .inr (.inr ⟨?_, mergeNamed_of_nothing hexpands hlabel⟩)
      rw [MessageType.declares, hexpands, hlabel]
      rfl
    | some label =>
      rw [mergeNamed_of_label hlabel, mergeField]
      cases hfound : Message.member? m.type (·.hasName label) with
      | none =>
        refine .inr (.inr ⟨?_, rfl⟩)
        rw [MessageType.declares, hexpands, hlabel, Option.any_some, hfound]
        rfl
      | some found => exact .inl ⟨label, found.1, found.2, rfl, hfound, rfl⟩

/-- A field that the type does not declare is left to be skipped. -/
theorem mergeNamed_of_undeclared (h : m.type.declares name = false) :
    mergeNamed options body name (m, c) = .ok false (m, c) := by
  obtain ⟨hexpands, hlabel⟩ := Bool.or_eq_false_iff.1 h
  rcases mergeNamed_cases options body name m c with
    ⟨label, i, member, hname, hfound, -⟩ | ⟨url, -, hurl, -⟩ | ⟨-, hrun⟩
  · rw [hname, Option.any_some, hfound] at hlabel
    cases hlabel
  · rw [hurl] at hexpands
    cases hexpands
  · exact hrun

end

/-- A type without fields declares no name. -/
theorem declares_empty (name : FieldName) : MessageType.empty.declares name = false := by
  have hlabel : ∀ label : Option String,
      (label.any fun label => (Message.member? .empty (·.hasName label)).isSome) = false := by
    rintro (_ | label) <;> rfl
  have hexpands : MessageType.empty.expands name = false := by
    cases name with
    | bracketed url => exact Bool.and_false _
    | _ => rfl
  rw [MessageType.declares, hexpands, hlabel, Bool.or_self]

/-- Text is passed over where it is merged into a message without fields, which is not changed. -/
theorem mergeFields_empty (options : ParseOptions) {m : Message} (hm : m.type = .empty)
    (rounds : Nat) (c : Cursor) :
    mergeFields options rounds none (m, c) = read (Scan.skipText options rounds) (m, c) := by
  induction rounds generalizing c with
  | zero => rfl
  | succ rounds ih =>
    have hskip : ∀ d, (do
          let c ← source
          read (Scan.skipValue options.depthLimit (2 * c.rest.length + 2) c.sawColon)
          read Scan.separator
          mergeFields options rounds none : Build Cursor Message Unit) (m, d) =
        read (do
          Scan.passValue options.depthLimit (← get).sawColon
          Scan.separator
          Scan.skipText options rounds) (m, d) := by
      intro d
      rw [run_bind_of_ok (run_source m d)]
      show _ = read (Scan.passValue options.depthLimit d.sawColon >>= _) (m, d)
      exact run_read_bind fun _ u _ => run_read_bind fun _ v _ => ih v
    refine run_read_bind fun ended d hd => run_read_ite (fun _ => ?_) fun _ => rfl
    refine run_read_bind fun line u hu => run_read_bind fun name v hv =>
      run_read_bind fun _ w hw => ?_
    rw [run_bind_of_ok (mergeNamed_of_undeclared (hm ▸ declares_empty name)),
      if_pos Bool.not_false]
    exact run_read_ite (fun _ => rfl) fun _ => hskip w

/-- A text is passed over where it is parsed as a message without fields. -/
theorem parse_empty (options : ParseOptions) (text : String) :
    Message.parse options .empty text =
      match Scan.passText options (.new text) with
      | .ok _ _ => .ok (.new .empty)
      | .error e _ => .error e := by
  have hbody : mergeBody options none (.new .empty, .new text) =
      read (Scan.passText options) (.new .empty, .new text) := by
    rw [mergeBody, run_bind_of_ok (run_source _ _)]
    exact mergeFields_empty options rfl _ _
  rw [Message.parse, Message.mergeText, hbody, run_read]
  cases Scan.passText options (.new text) with
  | ok a c =>
    have hchecked := Message.checked_empty options.allowPartial []
    have hnew : (Message.new .empty) = ⟨.empty, [], []⟩ := rfl
    dsimp only
    rw [hnew, hchecked]
  | error e c => rfl

/-- The options with which no field is unknown. -/
def ParseOptions.ignoringAll (options : ParseOptions) : ParseOptions :=
  { options with ignoreUnknown := true, ignoreExtensions := true }

@[simp] theorem ParseOptions.ignores_ignoringAll (options : ParseOptions) (name : FieldName) :
    options.ignoringAll.ignores name = true := by
  cases name <;> rfl

end Text

end Protobuf
