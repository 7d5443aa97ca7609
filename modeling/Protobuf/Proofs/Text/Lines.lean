import Protobuf.Proofs.Text.Scalars

/-!
# Merging printed lines

Printed lines are merged field by field, whatever blanks stand around them. Behind its label a field
shows a piece of text, either a value on the same line or a block, and an action that reads the
piece from every place where it is shown can be used for the whole field (`merges_piece`). Blocks
and map entries are read line by line in turn.
-/

namespace Protobuf

open Build

namespace Text

/-! ## Lines as bytes -/

/-- The line starts a field or ends a block. -/
def Line.Leads (line : Line) : Prop :=
  ∃ b rest, Utf8.encode line.text = b :: rest ∧ isLead b = true

/-- The bytes are the lines, each of them behind some blanks. -/
inductive Spells : List Line → Bytes → Prop
  | nil : Spells [] []
  | cons {line : Line} {lines : List Line} {blanks bytes : Bytes}
    (hblanks : ∀ b ∈ blanks, isSpace b = true) (hline : line.Leads) (h : Spells lines bytes) :
    Spells (line :: lines) (blanks ++ (Utf8.encode line.text ++ byte '\n' :: bytes))

theorem isSpace_of_mem_encode_pushn (n : Nat) :
    ∀ b ∈ Utf8.encode ("".pushn ' ' n), isSpace b = true := by
  rw [String.pushn_eq_repeat_push]
  induction n with
  | zero => exact List.forall_mem_nil _
  | succ n ih =>
    have hpush : Utf8.encode (Nat.repeat (fun s => s.push ' ') (n + 1) "") =
        Utf8.encode (Nat.repeat (fun s => s.push ' ') n "") ++ [byte ' '] := by
      show Utf8.encode (String.push _ ' ') = _
      rw [Utf8.encode, String.toList_push, List.flatMap_append]
      rfl
    rw [hpush]
    refine List.forall_mem_append.2 ⟨ih, ?_⟩
    exact List.forall_mem_singleton.2 (by decide)

/-- Printed lines are lines behind blanks. -/
theorem spells_indented {lines : List Line} (h : ∀ line ∈ lines, line.Leads) (depth : Nat) :
    Spells lines (Utf8.encode (String.join (Line.indented depth lines))) := by
  induction lines generalizing depth with
  | nil => exact .nil
  | cons line lines ih =>
    obtain ⟨hline, hlines⟩ := List.forall_mem_cons.1 h
    have hrest := ih hlines (line.depthAfter depth)
    rw [Line.indented, String.join_cons, Utf8.encode_append, Utf8.encode_append,
      Utf8.encode_append, List.append_assoc, List.append_assoc]
    exact .cons (isSpace_of_mem_encode_pushn _) hline hrest

theorem Spells.split {a b : List Line} {bytes : Bytes} (h : Spells (a ++ b) bytes) :
    ∃ x y, bytes = x ++ y ∧ Spells a x ∧ Spells b y := by
  induction a generalizing bytes with
  | nil => exact ⟨[], bytes, rfl, .nil, h⟩
  | cons line a ih =>
    cases h with
    | @cons _ _ blanks rest hblanks hline h =>
      obtain ⟨x, y, rfl, ha, hb⟩ := ih h
      refine ⟨blanks ++ (Utf8.encode line.text ++ byte '\n' :: x), y, ?_, .cons hblanks hline ha,
        hb⟩
      rw [List.append_assoc, List.append_assoc, List.cons_append]

theorem strip_line {line : Line} (h : line.Leads) {blanks : Bytes}
    (hblanks : ∀ b ∈ blanks, isSpace b = true) (bytes : Bytes) :
    strip (blanks ++ (Utf8.encode line.text ++ bytes)) = Utf8.encode line.text ++ bytes := by
  obtain ⟨b, rest, htext, hb⟩ := h
  rw [strip_append hblanks, htext, List.cons_append,
    strip_of_not_isSpace (not_isSpace_of_test (by decide) hb)]

/-- Where lines can stand, more lines can stand before them. -/
theorem Spells.follows {lines : List Line} {bytes more : Bytes} (h : Spells lines bytes)
    (hmore : Follows more) : Follows (bytes ++ more) := by
  cases h with
  | nil => exact hmore
  | @cons line lines blanks bytes hblanks hline h =>
    intro b hb
    rw [List.append_assoc, List.append_assoc, strip_line hline hblanks] at hb
    obtain ⟨b', rest, htext, hb'⟩ := hline
    rw [htext] at hb
    obtain rfl := Option.some.inj hb
    exact hb'

/-! ## Pieces -/

/-- What is printed behind a label. -/
inductive Piece where
  /-- A value on the same line. -/
  | text (value : String)
  /-- A block of lines. -/
  | block (body : List Line)

namespace Piece

/-- The lines of a field. -/
def lines (label : String) : Piece → List Line
  | text value => [.field label value]
  | block body => Line.block label body

/-- The lines inside a block. -/
def body : Piece → List Line
  | text _ => []
  | block body => body

/-- A colon stands behind the label. -/
def hasColon : Piece → Bool
  | text _ => true
  | block _ => false

/-- The bytes are what stands behind the label, and behind the colon if there is one. -/
def Spells : Piece → Bytes → Prop
  | text value, bytes => bytes = byte ' ' :: (Utf8.encode value ++ [byte '\n'])
  | block body, bytes => ∃ x y, bytes = byte '\x7b' :: byte '\n' :: (x ++ y) ∧
      Text.Spells body x ∧ Text.Spells [.closing] y

/-- The bytes of a field are blanks, its label, a colon or a blank, and what stands behind. -/
theorem exists_spells {piece : Piece} {label : String} {bytes : Bytes}
    (h : Text.Spells (piece.lines label) bytes) :
    ∃ inner, piece.Spells inner ∧ inner.length < bytes.length ∧
      ∀ more, strip (bytes ++ more) = Utf8.encode label ++
        (if piece.hasColon then byte ':' else byte ' ') :: (inner ++ more) := by
  cases piece with
  | text value =>
    cases h with
    | @cons _ _ blanks bytes hblanks hline h =>
      cases h
      have htext : Utf8.encode (Line.text (.field label value)) =
          Utf8.encode label ++ byte ':' :: byte ' ' :: Utf8.encode value := by
        rw [Line.text, Utf8.encode_append, Utf8.encode_append, List.append_assoc]
        rfl
      refine ⟨_, rfl, ?_, fun more => ?_⟩
      · rw [htext]
        simp only [List.length_append, List.length_cons]
        omega
      · rw [List.append_assoc, List.append_assoc, strip_line hline hblanks, htext]
        simp [hasColon]
  | block body =>
    cases h with
    | @cons _ _ blanks bytes hblanks hline h =>
      obtain ⟨x, y, rfl, hx, hy⟩ := h.split
      have htext : Utf8.encode (Line.text (.opening label)) =
          Utf8.encode label ++ [byte ' ', byte '\x7b'] := by
        rw [Line.text, Utf8.encode_append]
        rfl
      refine ⟨_, ⟨x, y, rfl, hx, hy⟩, ?_, fun more => ?_⟩
      · rw [htext]
        simp only [List.length_append, List.length_cons]
        omega
      · rw [List.append_assoc, List.append_assoc, strip_line hline hblanks, htext]
        simp [hasColon]

end Piece

/-! ## Labels -/

/-- The name is read from the label, in front of a colon or a blank. -/
structure FieldName.ReadFrom (name : FieldName) (label : String) : Prop where
  /-- A label is no closing character. -/
  starts : ∃ b rest, Utf8.encode label = b :: rest ∧ isLead b = true ∧ b ≠ byte '\x7d'
  /-- It is followed by something that belongs to no name. -/
  finds : ∀ {setting : Nat × Bool} {bytes more : Bytes},
    strip bytes = Utf8.encode label ++ more → (∀ b ∈ more.head?, isNameByte b = false) →
    Finds setting Scan.fieldName bytes name more

theorem FieldName.readFrom_ofLabel (label : String) (h : isLabel label = true) :
    (FieldName.ofLabel label).ReadFrom label := by
  have hhead : ∃ c cs, label.toList = c :: cs ∧ c.toNat < 128 ∧
      (isNameStart (byte c) = true ∨ c = '[') := by
    rcases ofLabel_cases h with ⟨hplain, -⟩ | ⟨inner, -, hcs, -⟩
    · obtain ⟨c, cs, hcs, hc⟩ := isNameStart_of_isIdentifier hplain
      have hall := isNameChar_of_isIdentifier hplain
      rw [hcs] at hall
      exact ⟨c, cs, hcs, (isCharOf_iff.1 (hall c List.mem_cons_self)).1, Or.inl hc⟩
    · exact ⟨'[', _, hcs, by decide, Or.inr rfl⟩
  obtain ⟨c, cs, hcs, hlt, hc⟩ := hhead
  refine ⟨⟨byte c, cs.flatMap String.utf8EncodeChar, ?_, ?_, ?_⟩, Scan.finds_fieldName h⟩
  · rw [Utf8.encode, hcs, List.flatMap_cons, utf8EncodeChar_of_lt hlt, List.singleton_append]
  · rcases hc with hc | rfl
    · rw [isLead, isNameByte, hc, Bool.true_or, Bool.true_or, Bool.true_or]
    · decide
  · rcases hc with hc | rfl
    · exact ne_of_test hc (by decide)
    · decide

namespace Scan

variable {depth : Nat} {saw : Bool} {bytes more : Bytes} {c : Cursor}

/-- The colon that was read, or none, is remembered. -/
theorem run_colon {found : Bool} {d : Cursor} (h : tryChar ':' c = .ok found d)
    (hd : d.Shows (depth, saw) more) :
    ∃ c', colon c = .ok () c' ∧ c'.Shows (depth, found) more := by
  refine ⟨{ d with sawColon := found }, ?_, hd.1, ?_⟩
  · rw [colon, run_bind_of_ok h]
    rfl
  · rw [Cursor.setting, (Prod.mk.inj hd.2).1]

/-- The label of a field is read, and its colon if there is one, in front of what stands behind. -/
theorem exists_label {name : FieldName} {label : String} (hname : name.ReadFrom label)
    {piece : Piece} (h : Spells (piece.lines label) bytes)
    (hc : c.Shows (depth, saw) (bytes ++ more)) :
    ∃ (inner : Bytes) (c1 c2 : Cursor), piece.Spells inner ∧ inner.length < bytes.length ∧
      fieldName c = .ok name c1 ∧ tryChar ':' c1 = .ok piece.hasColon c2 ∧
      c2.Shows (depth, saw) (inner ++ more) := by
  obtain ⟨inner, hinner, hlt, hstrip⟩ := piece.exists_spells h
  have hstrip := hstrip more
  have hend : ∀ b ∈ ((if piece.hasColon then byte ':' else byte ' ') :: (inner ++ more)).head?,
      isNameByte b = false := by
    intro b hb
    obtain rfl := Option.some.inj hb
    cases piece with
    | text value => exact (by decide : isNameByte (byte ':') = false)
    | block body => exact (by decide : isNameByte (byte ' ') = false)
  obtain ⟨c1, hfield, hc1⟩ := hname.finds hstrip hend c hc
  refine ⟨inner, c1, ?_⟩
  cases piece with
  | text value =>
    have hcolon := strip_of_not_isSpace (b := byte ':') (by decide) (inner ++ more)
    obtain ⟨c2, htry, hc2⟩ := finds_tryChar ':' (by decide) hcolon c1 hc1.shows
    exact ⟨c2, hinner, hlt, hfield, htry, hc2.shows⟩
  | block body =>
    obtain ⟨x, y, rfl, hx, hy⟩ := hinner
    have hblank : strip (byte ' ' :: (byte '\x7b' :: byte '\n' :: (x ++ y) ++ more)) =
        byte '\x7b' :: byte '\n' :: (x ++ y) ++ more := by
      rw [strip_cons_of_isSpace (by decide), List.cons_append, strip_of_not_isSpace (by decide)]
    have hne : ∀ b, b ≠ byte '\x7b' →
        (strip (byte ' ' :: (byte '\x7b' :: byte '\n' :: (x ++ y) ++ more))).head? ≠ some b := by
      intro b hb heq
      rw [hblank] at heq
      exact hb (Option.some.inj heq).symm
    obtain ⟨c2, htry, hc2⟩ := finds_tryChar_false ':' (hne _ (by decide)) (hne _ (by decide)) c1
      hc1.shows
    exact ⟨c2, ⟨x, y, rfl, hx, hy⟩, hlt, hfield, htry, by rw [hblank] at hc2; exact hc2.shows⟩

/-- The line of a field is told, and its label and its colon are read. -/
theorem exists_header {name : FieldName} {label : String} (hname : name.ReadFrom label)
    {piece : Piece} (h : Spells (piece.lines label) bytes)
    (hc : c.Shows (depth, saw) (bytes ++ more)) :
    ∃ (inner : Bytes) (n : Nat) (c1 c2 c3 : Cursor), piece.Spells inner ∧
      inner.length < bytes.length ∧ line c = .ok n c1 ∧ fieldName c1 = .ok name c2 ∧
      colon c2 = .ok () c3 ∧ c3.Shows (depth, piece.hasColon) (inner ++ more) := by
  obtain ⟨_, -, -, hstrip⟩ := piece.exists_spells h
  obtain ⟨b, rest, hlabel, hlead, -⟩ := hname.starts
  have hhash : (strip (bytes ++ more)).head? ≠ some (byte '#') := by
    rw [hstrip, hlabel]
    exact fun heq => ne_of_test hlead (by decide) (Option.some.inj heq)
  obtain ⟨n, c1, hline, hc1⟩ := exists_line hhash hc
  obtain ⟨inner, c2, d, hinner, hlt, hfield, htry, hd⟩ := exists_label hname h hc1.of_strip
  obtain ⟨c3, hcolon, hc3⟩ := run_colon htry hd
  exact ⟨inner, n, c1, c2, c3, hinner, hlt, hline, hfield, hcolon, hc3⟩

/-- No separator is printed behind a field. -/
theorem reads_separator {setting : Nat × Bool} (h : Follows more) :
    Reads setting separator more () more := by
  intro c hc
  obtain ⟨c1, hcomma, hc1⟩ := finds_tryChar_false ',' (h.head?_ne (by decide))
    (h.head?_ne (by decide)) c hc
  have hstrip : Follows (strip more) := by rwa [Follows, strip_strip]
  obtain ⟨c2, hsemicolon, hc2⟩ := finds_tryChar_false ';' (hstrip.head?_ne (by decide))
    (hstrip.head?_ne (by decide)) c1 hc1.shows
  rw [strip_strip] at hc2
  refine ⟨c2, ?_, hc2.of_strip⟩
  rw [separator, run_bind_of_ok hcomma]
  exact run_bind_of_ok hsemicolon

/-! ## The ends of sequences of fields -/

/-- How a sequence of printed fields may end. -/
def Closes (close? : Option Char) : Prop := close? = none ∨ close? = some '\x7d'

theorem reads_not_finished {setting : Nat × Bool} {close? : Option Char} (hclose : Closes close?)
    {b : UInt8} (hhead : (strip bytes).head? = some b) (hlead : isLead b = true)
    (hb : b ≠ byte '\x7d') : Reads setting (finished close?) bytes false bytes := by
  intro c hc
  have hne : ∀ b', isLead b' = false → (strip bytes).head? ≠ some b' := by
    intro b' hb' heq
    rw [hhead] at heq
    exact ne_of_test hlead hb' (Option.some.inj heq)
  rcases hclose with rfl | rfl
  · obtain ⟨c1, hpeek, hc1⟩ := finds_peek (hne _ (by decide)) c hc
    refine ⟨c1, ?_, hc1.of_strip⟩
    rw [finished, run_bind_of_ok hpeek, hhead]
    rfl
  · have hbrace : (strip bytes).head? ≠ some (byte '\x7d') := by
      rw [hhead]
      exact fun heq => hb (Option.some.inj heq)
    obtain ⟨c1, htry, hc1⟩ := finds_tryChar_false '\x7d' (hne _ (by decide)) hbrace c hc
    have hhash : (strip (strip bytes)).head? ≠ some (byte '#') := by
      rw [strip_strip]
      exact hne _ (by decide)
    obtain ⟨c2, hpeek, hc2⟩ := finds_peek hhash c1 hc1.shows
    rw [strip_strip] at hpeek hc2
    refine ⟨c2, ?_, hc2.of_strip⟩
    rw [finished, run_bind_of_ok htry]
    refine (run_bind_of_ok hpeek).trans ?_
    rw [hhead]
    rfl

theorem finds_finished_brace {setting : Nat × Bool} (h : strip bytes = byte '\x7d' :: more) :
    Finds setting (finished (some '\x7d')) bytes true more := by
  intro c hc
  obtain ⟨c1, htry, hc1⟩ := finds_tryChar '\x7d' (by decide) h c hc
  refine ⟨c1, ?_, hc1⟩
  rw [finished, run_bind_of_ok htry]
  rfl

theorem reads_finished_end {setting : Nat × Bool} (h : strip bytes = []) :
    Reads setting (finished none) bytes true bytes := by
  intro c hc
  obtain ⟨c1, hpeek, hc1⟩ := finds_peek (by rw [h]; decide) c hc
  refine ⟨c1, ?_, hc1.of_strip⟩
  rw [finished, run_bind_of_ok hpeek, h]
  rfl

/-! ## Blocks -/

theorem finds_openBlock {setting : Nat × Bool} (h : strip bytes = byte '\x7b' :: more) :
    Finds setting openBlock bytes '\x7d' more := by
  intro c hc
  obtain ⟨c1, htry, hc1⟩ := finds_tryChar '\x7b' (by decide) h c hc
  refine ⟨c1, ?_, hc1⟩
  rw [openBlock, run_bind_of_ok htry]
  rfl

theorem run_enter {limit : Nat} (hd : depth + 1 ≤ limit) (hc : c.Shows (depth, saw) bytes) :
    enter limit c = .ok () { c with depth := c.depth + 1 } ∧
      ({ c with depth := c.depth + 1 } : Cursor).Shows (depth + 1, saw) bytes := by
  obtain ⟨hdepth, hsaw⟩ := Prod.mk.inj hc.2
  refine ⟨?_, hc.1, ?_⟩
  · rw [enter, run_bind_of_ok (run_modify _ c), run_bind_of_ok (run_get _), if_neg]
    · rfl
    · show ¬ limit < c.depth + 1
      omega
  · rw [Cursor.setting, hdepth, hsaw]

/-- Behind a block the line ends. -/
theorem shows_leave (hc : c.At (depth + 1, saw) (byte '\n' :: more)) :
    ({ c with depth := c.depth - 1 } : Cursor).Shows (depth, saw) more := by
  obtain ⟨hdepth, hsaw⟩ := Prod.mk.inj hc.2
  refine ⟨?_, ?_⟩
  · show strip c.rest = _
    rw [hc.1, strip_cons_of_isSpace (by decide)]
  · rw [Cursor.setting, hdepth, hsaw]
    rfl

end Scan

theorem strip_closing {bytes : Bytes} (h : Spells [.closing] bytes) (more : Bytes) :
    strip (bytes ++ more) = byte '\x7d' :: byte '\n' :: more := by
  cases h with
  | cons hblanks hline h =>
    cases h
    rw [List.append_assoc, List.append_assoc, strip_line hline hblanks]
    rfl

/-! ## Merging lines -/

/-- Merging the lines into the first message leaves the second, and goes on in front of what stands
behind the lines. -/
structure Merges (options : ParseOptions) (depth : Nat) (lines : List Line) (m m' : Message) :
    Prop where
  /-- Every line starts a field or ends a block. -/
  leads : ∀ line ∈ lines, line.Leads
  /-- Some rounds of merging fields read the lines. -/
  run : ∀ ⦃bytes more : Bytes⦄ ⦃close? : Option Char⦄ ⦃rounds : Nat⦄ ⦃c : Cursor⦄ ⦃saw : Bool⦄,
    Spells lines bytes → Follows more → Scan.Closes close? → (bytes ++ more).length < rounds →
    c.Shows (depth, saw) (bytes ++ more) →
    ∃ (c' : Cursor) (saw' : Bool) (rounds' : Nat), c'.Shows (depth, saw') more ∧
      more.length < rounds' ∧
      mergeFields options rounds close? (m, c) = mergeFields options rounds' close? (m', c')

/-- Wherever a cursor shows the piece, a cursor in front of what stands behind it is related to that
one, given how many rounds of merging fields may take. -/
structure Spans (depth : Nat) (piece : Piece) (P : Nat → Cursor → Cursor → Prop) : Prop where
  /-- Every line inside a block starts a field or ends a block. -/
  leads : ∀ line ∈ piece.body, line.Leads
  /-- The cursor behind the piece. -/
  run : ∀ ⦃inner more : Bytes⦄ ⦃rounds : Nat⦄ ⦃c : Cursor⦄, piece.Spells inner → Follows more →
    (inner ++ more).length < rounds → c.Shows (depth, piece.hasColon) (inner ++ more) →
    ∃ (c' : Cursor) (saw : Bool), P rounds c c' ∧ c'.Shows (depth, saw) more

theorem Spans.imp {depth : Nat} {piece : Piece} {P Q : Nat → Cursor → Cursor → Prop}
    (h : Spans depth piece P) (himp : ∀ rounds c c', P rounds c c' → Q rounds c c') :
    Spans depth piece Q := by
  refine ⟨h.leads, fun inner more rounds c hinner hmore hrounds hc => ?_⟩
  obtain ⟨c', saw, hP, hc'⟩ := h.run hinner hmore hrounds hc
  exact ⟨c', saw, himp rounds c c' hP, hc'⟩

/-- A label leads the lines of its field. -/
theorem leads_lines {name : FieldName} {label : String} (hname : name.ReadFrom label)
    {piece : Piece} (h : ∀ line ∈ piece.body, line.Leads) :
    ∀ line ∈ piece.lines label, line.Leads := by
  obtain ⟨b, rest, hlabel, hlead, -⟩ := hname.starts
  cases piece with
  | text value =>
    have htext : Utf8.encode (Line.text (.field label value)) =
        b :: (rest ++ (Utf8.encode ": " ++ Utf8.encode value)) := by
      rw [Line.text, Utf8.encode_append, Utf8.encode_append, hlabel, List.append_assoc]
      rfl
    exact List.forall_mem_singleton.2 ⟨b, _, htext, hlead⟩
  | block body =>
    have htext : Utf8.encode (Line.text (.opening label)) =
        b :: (rest ++ Utf8.encode " \x7b") := by
      rw [Line.text, Utf8.encode_append, hlabel]
      rfl
    refine List.forall_mem_cons.2 ⟨⟨b, _, htext, hlead⟩, List.forall_mem_append.2 ⟨h, ?_⟩⟩
    exact List.forall_mem_singleton.2 ⟨byte '\x7d', [], by decide, by decide⟩

section

variable {options : ParseOptions} {depth : Nat} {m m' m'' : Message}

theorem merges_nil : Merges options depth [] m m := by
  refine ⟨List.forall_mem_nil _, ?_⟩
  intro bytes more close? rounds c saw h hmore hclose hrounds hc
  cases h
  exact ⟨c, saw, rounds, hc, hrounds, rfl⟩

theorem Merges.append {a b : List Line} (h : Merges options depth a m m')
    (h' : Merges options depth b m' m'') : Merges options depth (a ++ b) m m'' := by
  refine ⟨List.forall_mem_append.2 ⟨h.leads, h'.leads⟩, ?_⟩
  intro bytes more close? rounds c saw hspells hmore hclose hrounds hc
  obtain ⟨x, y, rfl, hx, hy⟩ := hspells.split
  rw [List.append_assoc] at hc hrounds
  obtain ⟨c1, saw1, rounds1, hc1, hrounds1, hfirst⟩ :=
    h.run hx (hy.follows hmore) hclose hrounds hc
  obtain ⟨c2, saw2, rounds2, hc2, hrounds2, hrest⟩ := h'.run hy hmore hclose hrounds1 hc1
  exact ⟨c2, saw2, rounds2, hc2, hrounds2, hfirst.trans hrest⟩

/-- A field is merged as what stands behind its label is. -/
theorem merges_piece {name : FieldName} {label : String} (hname : name.ReadFrom label)
    {piece : Piece} (h : Spans depth piece fun rounds c c' =>
      mergeNamed options (mergeFields options rounds) name (m, c) = .ok true (m', c')) :
    Merges options depth (piece.lines label) m m' := by
  refine ⟨leads_lines hname h.leads, ?_⟩
  intro bytes more close? rounds c saw hspells hmore hclose hrounds hc
  obtain ⟨rounds, rfl⟩ := Nat.exists_eq_succ_of_ne_zero (n := rounds) (by omega)
  obtain ⟨_, -, -, hstrip⟩ := piece.exists_spells hspells
  obtain ⟨b, rest, hlabel, hlead, hb⟩ := hname.starts
  have hhead : (strip (bytes ++ more)).head? = some b := by
    rw [hstrip, hlabel]
    rfl
  obtain ⟨c0, hfinished, hc0⟩ := Scan.reads_not_finished hclose hhead hlead hb c hc
  obtain ⟨inner, n, c1, c2, c3, hinner, hlt, hline, hfield, hcolon, hc3⟩ :=
    Scan.exists_header hname hspells hc0
  rw [List.length_append] at hrounds
  have hlen : (inner ++ more).length < rounds := by
    rw [List.length_append]
    omega
  -- The round that reads the label is used up, so those left still exceed the bytes left.
  obtain ⟨c4, saw4, hnamed, hc4⟩ := h.run hinner hmore hlen hc3
  obtain ⟨c5, hseparator, hc5⟩ := Scan.reads_separator hmore c4 hc4
  refine ⟨c5, saw4, rounds, hc5, by omega, ?_⟩
  rw [mergeFields, run_bind_of_ok (read_eq_ok.2 ⟨hfinished, rfl⟩)]
  refine (run_bind_of_ok (read_eq_ok.2 ⟨hline, rfl⟩)).trans ?_
  rw [run_bind_of_ok (read_eq_ok.2 ⟨hfield, rfl⟩), run_bind_of_ok (read_eq_ok.2 ⟨hcolon, rfl⟩),
    run_bind_of_ok hnamed]
  exact run_bind_of_ok (read_eq_ok.2 ⟨hseparator, rfl⟩)

/-- The lines of a whole text are merged. -/
theorem Merges.mergeBody {lines : List Line} (h : Merges options 0 lines m m') :
    ∃ c, mergeBody options none (m, .new (Line.render lines)) = .ok () (m', c) := by
  have hspells := spells_indented h.leads 0
  have hstart : (Cursor.new (Line.render lines)).Shows (0, false)
      (Utf8.encode (Line.render lines) ++ []) := by
    rw [List.append_nil]
    exact ⟨rfl, rfl⟩
  have hrounds : (Utf8.encode (Line.render lines) ++ []).length <
      (Cursor.new (Line.render lines)).rest.length + 1 := by
    rw [List.append_nil]
    exact Nat.lt_succ_self _
  obtain ⟨c1, saw1, rounds, hc1, hlt, hmerge⟩ :=
    h.run hspells follows_nil (Or.inl rfl) hrounds hstart
  obtain ⟨rounds, rfl⟩ := Nat.exists_eq_succ_of_ne_zero (n := rounds) (by omega)
  obtain ⟨c2, hfinished, -⟩ := Scan.reads_finished_end rfl c1 hc1
  refine ⟨c2, ?_⟩
  rw [Text.mergeBody, run_bind_of_ok (run_source m _), hmerge, mergeFields,
    run_bind_of_ok (read_eq_ok.2 ⟨hfinished, rfl⟩)]
  rfl

/-- A block is merged as its lines are. -/
theorem spans_block (hd : depth + 1 ≤ options.depthLimit) {body : List Line}
    (h : Merges options (depth + 1) body m m') :
    Spans depth (.block body) fun rounds c c' =>
      block options.depthLimit (mergeFields options rounds) (m, c) = .ok () (m', c') := by
  refine ⟨h.leads, ?_⟩
  rintro inner more rounds c ⟨x, y, rfl, hx, hy⟩ hmore hrounds hc
  have hopen := strip_of_not_isSpace (b := byte '\x7b') (by decide) (byte '\n' :: (x ++ y) ++ more)
  obtain ⟨c1, hrun, hc1⟩ := Scan.finds_openBlock hopen c hc
  obtain ⟨henter, hc2⟩ := Scan.run_enter hd hc1.shows
  have hinside : ({ c1 with depth := c1.depth + 1 } : Cursor).Shows (depth + 1, false)
      (x ++ (y ++ more)) := by
    refine hc2.of_strip_eq ?_
    rw [List.cons_append, strip_cons_of_isSpace (by decide), List.append_assoc]
  have hlen : (x ++ (y ++ more)).length < rounds := by
    rw [← List.append_assoc]
    simp only [List.cons_append, List.length_cons] at hrounds
    omega
  obtain ⟨c3, saw3, rounds3, hc3, hrounds3, hmerge⟩ :=
    h.run hx (hy.follows hmore) (Or.inr rfl) hlen hinside
  obtain ⟨rounds3, rfl⟩ := Nat.exists_eq_succ_of_ne_zero (n := rounds3) (by omega)
  obtain ⟨c4, hfinished, hc4⟩ := Scan.finds_finished_brace (strip_closing hy more) c3 hc3
  refine ⟨{ c4 with depth := c4.depth - 1 }, saw3, ?_, Scan.shows_leave hc4⟩
  show block options.depthLimit (mergeFields options rounds) (m, c) = _
  rw [block, run_bind_of_ok (read_eq_ok.2 ⟨hrun, rfl⟩),
    run_bind_of_ok (read_eq_ok.2 ⟨henter, rfl⟩), run_bind, hmerge, mergeFields,
    run_bind_of_ok (read_eq_ok.2 ⟨hfinished, rfl⟩)]
  rfl

end

end Text

end Protobuf
