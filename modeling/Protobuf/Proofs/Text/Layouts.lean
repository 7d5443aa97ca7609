import Protobuf.Proofs.Text.Escapes
import Protobuf.Proofs.Text.Numerals
import Protobuf.Proofs.Text.Turns

/-!
# Layouts

What stands between the tokens of a text is of no importance: gaps of blanks and comments, and a
separator behind each field. How fields can be written is described by relations between the bytes
in front of something that is written and the bytes behind it (`Text.Fields`), and wherever fields
are written they are merged one after the other (`Text.Fields.exists_merged`).
-/

namespace Protobuf

open Build

variable {α γ σ : Type}

namespace Text

/-! ## Marks -/

/-- A character stands behind a gap, in front of other bytes. -/
def Mark (char : Char) (bytes more : Bytes) : Prop :=
  ∃ gap, Gap gap ∧ bytes = gap ++ byte char :: more

theorem behindBlanks_of_head {bytes : Bytes}
    (h : ∀ b ∈ bytes.head?, isSpace b = false ∧ b ≠ byte '#') :
    behindBlanks false bytes = bytes := by
  cases bytes with
  | nil => rfl
  | cons b bytes =>
    obtain ⟨hspace, hhash⟩ := h b rfl
    obtain ⟨hblank, hnewline⟩ := Bool.or_eq_false_iff.1 hspace
    rw [behindBlanks, if_neg (of_decide_eq_false hnewline), if_neg (by rw [hblank]; decide),
      if_neg hhash]

/-- The character is neither a blank nor the start of a comment. -/
def isToken (char : Char) : Bool := !isSpace (byte char) && byte char ≠ byte '#'

theorem Gap.behindBlanks_mark {gap bytes : Bytes} (h : Gap gap) {b : UInt8}
    (hspace : isSpace b = false) (hhash : b ≠ byte '#') :
    behindBlanks false (gap ++ b :: bytes) = b :: bytes := by
  rw [h.behindBlanks_append]
  refine behindBlanks_of_head fun b' hb' => ?_
  obtain rfl := Option.some.inj hb'
  exact ⟨hspace, hhash⟩

variable {bytes more : Bytes} {char : Char}

theorem Mark.behindBlanks_eq (h : Mark char bytes more) (hchar : isToken char = true) :
    behindBlanks false bytes = byte char :: more := by
  obtain ⟨gap, hgap, rfl⟩ := h
  rw [isToken, Bool.and_eq_true, Bool.not_eq_true', decide_eq_true_eq] at hchar
  exact hgap.behindBlanks_mark hchar.1 hchar.2

/-- In front of a character, behind a gap or not, no name goes on. -/
theorem Mark.not_isNameByte (h : Mark char bytes more) (hchar : isNameByte (byte char) = false) :
    ∀ b ∈ bytes.head?, isNameByte b = false := by
  obtain ⟨gap, hgap, rfl⟩ := h
  intro b hb
  cases hgap with
  | nil =>
    obtain rfl := Option.some.inj hb
    exact hchar
  | space space rest =>
    obtain rfl := Option.some.inj hb
    exact test_of_isSpace (by decide) space
  | comment line rest =>
    obtain rfl := Option.some.inj hb
    decide

/-! ## Places -/

/-- Behind blanks and comments the cursor is at the bytes. So many blocks are open, and a colon was
seen if one is asked for. -/
structure Cursor.Faces (c : Cursor) (depth : Nat) (strict : Bool) (bytes : Bytes) : Prop where
  rest : behindBlanks false c.rest = behindBlanks false bytes
  depth : c.depth = depth
  colon : strict = true → c.sawColon = true

variable {depth : Nat} {strict : Bool} {c : Cursor}

namespace Cursor.Faces

theorem rest_settle (h : c.Faces depth strict bytes) :
    c.settle.rest = behindBlanks false bytes :=
  (Cursor.rest_settle c).trans h.rest

theorem settle (h : c.Faces depth strict bytes) : c.settle.Faces depth strict bytes where
  rest := by rw [h.rest_settle, behindBlanks_behindBlanks]
  depth := (Cursor.depth_settle c).trans h.depth
  colon hstrict := (Cursor.sawColon_settle c).trans (h.colon hstrict)

theorem of_rest {d : Cursor} (h : c.Faces depth strict bytes) (hrest : d.rest = more)
    (hdepth : d.depth = c.depth) (hcolon : d.sawColon = c.sawColon) :
    d.Faces depth strict more where
  rest := by rw [hrest]
  depth := hdepth.trans h.depth
  colon hstrict := hcolon.trans (h.colon hstrict)

theorem weaken (h : c.Faces depth true bytes) : c.Faces depth strict bytes :=
  ⟨h.rest, h.depth, fun _ => h.colon rfl⟩

theorem relax (h : c.Faces depth strict bytes) : c.Faces depth false bytes :=
  ⟨h.rest, h.depth, fun heq => absurd heq Bool.false_ne_true⟩

/-- The start of a text. -/
theorem new (text : String) : (Cursor.new text).Faces 0 false (Utf8.encode text) :=
  ⟨rfl, rfl, fun heq => absurd heq Bool.false_ne_true⟩

end Cursor.Faces

/-- From every place that faces the bytes the action delivers the value, and what stands behind. -/
def Delivers (depth : Nat) (strict : Bool) (x : Scan α) (bytes : Bytes) (a : α) (more : Bytes) :
    Prop :=
  ∀ c : Cursor, c.Faces depth strict bytes → ∃ d, x c = .ok a d ∧ d.Faces depth strict more

/-- What is found behind blanks is found behind comments, too. -/
theorem Finds.delivers {x : Scan α} {a : α} (hx : Settles x)
    (h : ∀ setting, Finds setting x (behindBlanks false bytes) a more) :
    Delivers depth strict x bytes a more := by
  intro c hc
  have hshows : c.settle.Shows c.settle.setting (behindBlanks false bytes) :=
    ⟨by rw [hc.rest_settle], rfl⟩
  obtain ⟨d, hrun, hrest, hsetting⟩ := h _ c.settle hshows
  obtain ⟨hdepth, hcolon⟩ := Prod.mk.inj hsetting
  exact ⟨d, (hx c).symm.trans hrun, hc.settle.of_rest hrest hdepth hcolon⟩

namespace Scan

theorem delivers_tryChar (hchar : isToken char = true) (h : Mark char bytes more) :
    Delivers depth strict (tryChar char) bytes true more := by
  intro c hc
  have hrest : c.settle.rest = byte char :: more := hc.rest_settle.trans (h.behindBlanks_eq hchar)
  refine ⟨c.settle.advance 1, tryChar_eq_true.2 ⟨by rw [hrest]; rfl, rfl⟩, ?_⟩
  exact hc.settle.of_rest (Cursor.rest_advance_one hrest) rfl rfl

theorem delivers_tryChar_false (h : (behindBlanks false bytes).head? ≠ some (byte char)) :
    Delivers depth strict (tryChar char) bytes false bytes := by
  intro c hc
  exact ⟨c.settle, tryChar_eq_false.2 ⟨by rwa [hc.rest_settle], rfl⟩, hc.settle⟩

theorem delivers_expect (hchar : isToken char = true) (h : Mark char bytes more) :
    Delivers depth strict (expect char) bytes () more := by
  intro c hc
  obtain ⟨d, hrun, hd⟩ := delivers_tryChar hchar h c hc
  refine ⟨d, ?_, hd⟩
  rw [expect, run_bind_of_ok hrun]
  rfl

/-! ## Ends -/

theorem delivers_finished_false {close? : Option Char} (hclose : ∀ close ∈ close?, EndsBlock close)
    {b : UInt8} (hhead : (behindBlanks false bytes).head? = some b) (hb : isNameStart b = true) :
    Delivers depth strict (finished close?) bytes false bytes := by
  intro c hc
  cases close? with
  | none =>
    refine ⟨c.settle, ?_, hc.settle⟩
    rw [finished, run_bind_of_ok (run_peek c), hc.rest_settle, hhead]
    rfl
  | some close =>
    have hne : (behindBlanks false bytes).head? ≠ some (byte close) := by
      rw [hhead]
      intro heq
      obtain rfl | rfl := hclose close rfl
      · exact ne_of_test hb (by decide) (Option.some.inj heq)
      · exact ne_of_test hb (by decide) (Option.some.inj heq)
    obtain ⟨d, hrun, hd⟩ := delivers_tryChar_false hne c hc
    refine ⟨d.settle, ?_, hd.settle⟩
    rw [finished, run_bind_of_ok hrun]
    refine (run_bind_of_ok (run_peek d)).trans ?_
    rw [hd.rest_settle, hhead]
    rfl

theorem delivers_finished_close {close : Char} (hclose : EndsBlock close)
    (h : Mark close bytes more) :
    Delivers depth strict (finished (some close)) bytes true more := by
  intro c hc
  have htoken : isToken close = true := by
    obtain rfl | rfl := hclose <;> decide
  obtain ⟨d, hrun, hd⟩ := delivers_tryChar htoken h c hc
  refine ⟨d, ?_, hd⟩
  rw [finished, run_bind_of_ok hrun]
  rfl

theorem delivers_finished_end (h : behindBlanks false bytes = []) :
    Delivers depth strict (finished none) bytes true bytes := by
  intro c hc
  refine ⟨c.settle, ?_, hc.settle⟩
  rw [finished, run_bind_of_ok (run_peek c), hc.rest_settle, h]
  rfl

end Scan

/-! ## Names -/

/-- The name of a field stands behind a gap, and a colon behind the name; where none is asked for it
may be left out. -/
inductive Label (name : String) : (strict : Bool) → Bytes → Bytes → Prop
  /-- With a colon. -/
  | colon {strict : Bool} {gap behind more : Bytes} (gap_skipped : Gap gap)
    (mark : Mark ':' behind more) : Label name strict (gap ++ (Utf8.encode name ++ behind)) more
  /-- Without one. -/
  | bare {gap more : Bytes} (gap_skipped : Gap gap)
    (apart : ∀ b ∈ more.head?, isNameByte b = false)
    (other : (behindBlanks false more).head? ≠ some (byte ':')) :
    Label name false (gap ++ (Utf8.encode name ++ more)) more

variable {name : String}

theorem behindBlanks_name (hname : isIdentifier name.toList = true) {gap : Bytes}
    (hgap : Gap gap) (behind : Bytes) :
    behindBlanks false (gap ++ (Utf8.encode name ++ behind)) = Utf8.encode name ++ behind ∧
      ∃ b, (Utf8.encode name ++ behind).head? = some b ∧ isNameStart b = true := by
  obtain ⟨first, cs, hcs, hstart⟩ := isNameStart_of_isIdentifier hname
  have hmap := (encode_of_isCharOf (isNameChar_of_isIdentifier hname)).1
  rw [hmap, hcs, List.map_cons, List.cons_append]
  refine ⟨hgap.behindBlanks_mark ?_ (ne_of_test hstart (by decide)), byte first, rfl, hstart⟩
  exact not_isSpace_of_test (by decide) hstart

theorem Label.exists_head (h : Label name strict bytes more)
    (hname : isIdentifier name.toList = true) :
    ∃ b, (behindBlanks false bytes).head? = some b ∧ isNameStart b = true := by
  cases h with
  | colon hgap _ | bare hgap _ _ =>
    obtain ⟨hrest, hhead⟩ := behindBlanks_name hname hgap _
    rwa [hrest]

namespace Scan

theorem delivers_fieldName (hname : isIdentifier name.toList = true) {gap : Bytes}
    (hgap : Gap gap) (hmore : ∀ b ∈ more.head?, isNameByte b = false) :
    Delivers depth strict fieldName (gap ++ (Utf8.encode name ++ more)) (.plain name) more := by
  obtain ⟨hrest, b, hhead, hb⟩ := behindBlanks_name hname hgap more
  refine Finds.delivers settles_fieldName fun setting => finds_plainName hname ?_ hmore
  rw [hrest]
  refine strip_of_head fun b' hb' => ?_
  rw [hhead] at hb'
  obtain rfl := Option.some.inj hb'
  exact not_isSpace_of_test (by decide) hb

theorem exists_colon {found : Bool} (h : Delivers depth strict (tryChar ':') bytes found more)
    (hc : c.Faces depth strict bytes) :
    ∃ d, colon c = .ok () d ∧ d.Faces depth found more := by
  obtain ⟨d, hrun, hd⟩ := h c hc
  refine ⟨{ d with sawColon := found }, ?_, hd.rest, hd.depth, id⟩
  rw [colon, run_bind_of_ok hrun]
  rfl

/-- The name of a field and its colon are read. -/
theorem exists_name (h : Label name strict bytes more) (hname : isIdentifier name.toList = true)
    (hc : c.Faces depth false bytes) :
    ∃ d e, fieldName c = .ok (.plain name) d ∧ colon d = .ok () e ∧
      e.Faces depth strict more := by
  cases h with
  | colon hgap mark =>
    have hapart := mark.not_isNameByte (by decide)
    obtain ⟨d, hfield, hd⟩ := delivers_fieldName hname hgap hapart c hc
    obtain ⟨e, hcolon, he⟩ := exists_colon (delivers_tryChar (by decide) mark) hd
    exact ⟨d, e, hfield, hcolon, he.weaken⟩
  | bare hgap hapart other =>
    obtain ⟨d, hfield, hd⟩ := delivers_fieldName hname hgap hapart c hc
    obtain ⟨e, hcolon, he⟩ := exists_colon (delivers_tryChar_false other) hd
    exact ⟨d, e, hfield, hcolon, he⟩

end Scan

/-! ## Separators -/

/-- A comma, a semicolon or nothing stands behind a field. -/
inductive Separator : Bytes → Bytes → Prop
  /-- A comma. -/
  | comma {bytes more : Bytes} (mark : Mark ',' bytes more) : Separator bytes more
  /-- A semicolon. -/
  | semicolon {bytes more : Bytes} (mark : Mark ';' bytes more) : Separator bytes more
  /-- Neither of them. -/
  | none {bytes : Bytes} (noComma : (behindBlanks false bytes).head? ≠ some (byte ','))
    (noSemicolon : (behindBlanks false bytes).head? ≠ some (byte ';')) : Separator bytes bytes

theorem Scan.delivers_separator (h : Separator bytes more) :
    Delivers depth strict separator bytes () more := by
  intro c hc
  cases h with
  | comma mark =>
    obtain ⟨d, hrun, hd⟩ := delivers_tryChar (by decide) mark c hc
    refine ⟨d, ?_, hd⟩
    rw [separator, run_bind_of_ok hrun]
    rfl
  | semicolon mark =>
    have hne : (behindBlanks false bytes).head? ≠ some (byte ',') := by
      rw [mark.behindBlanks_eq (by decide), List.head?_cons]
      decide
    obtain ⟨d, hcomma, hd⟩ := delivers_tryChar_false hne c hc
    obtain ⟨e, hsemicolon, he⟩ := delivers_tryChar (by decide) mark d hd
    refine ⟨e, ?_, he⟩
    rw [separator, run_bind_of_ok hcomma]
    exact run_bind_of_ok hsemicolon
  | none noComma noSemicolon =>
    obtain ⟨d, hcomma, hd⟩ := delivers_tryChar_false noComma c hc
    obtain ⟨e, hsemicolon, he⟩ := delivers_tryChar_false noSemicolon d hd
    refine ⟨e, ?_, he⟩
    rw [separator, run_bind_of_ok hcomma]
    exact run_bind_of_ok hsemicolon

/-! ## Fields -/

/-- Fields stand one behind the other, with separators or without. -/
inductive Fields (Item : γ → Bytes → Bytes → Prop) : List γ → Bytes → Bytes → Prop
  /-- No field. -/
  | nil {bytes : Bytes} : Fields Item [] bytes bytes
  /-- A field in front of others. -/
  | cons {x : γ} {xs : List γ} {bytes behind next more : Bytes} (item : Item x bytes behind)
    (separator : Separator behind next) (rest : Fields Item xs next more) :
    Fields Item (x :: xs) bytes more

theorem Fields.map {δ : Type} {Item : γ → Bytes → Bytes → Prop} {Item' : δ → Bytes → Bytes → Prop}
    {f : γ → δ} {xs : List γ} (h : Fields Item xs bytes more)
    (himp : ∀ x bytes more, Item x bytes more → Item' (f x) bytes more) :
    Fields Item' (xs.map f) bytes more := by
  induction h with
  | nil => exact .nil
  | cons item separator rest ih => exact .cons (himp _ _ _ item) separator ih

variable {options : ParseOptions} {close? : Option Char}

/-- Behind the name of a field its value is merged. Where that succeeds a separator and the other
fields follow, otherwise everything ends there. -/
theorem exists_value (options : ParseOptions) (hclose : ∀ close ∈ close?, Scan.EndsBlock close)
    (hname : isIdentifier name.toList = true) (h : Label name strict bytes more)
    (hc : c.Faces depth false bytes) (m : Message) :
    ∃ d, d.Faces depth strict more ∧
      (∀ m' e, mergeNamed options (mergeBody options) (.plain name) (m, d) = .ok true (m', e) →
        mergeBody options close? (m, c) = (do
          read Scan.separator
          mergeBody options close? : Build Cursor Message Unit) (m', e)) ∧
      ∀ error m' e,
        mergeNamed options (mergeBody options) (.plain name) (m, d) = .error error (m', e) →
        mergeBody options close? (m, c) = .error error (m', e) := by
  obtain ⟨b, hhead, hb⟩ := h.exists_head hname
  obtain ⟨c1, hfinished, hc1⟩ := Scan.delivers_finished_false hclose hhead hb c hc
  obtain ⟨c2, d, hfield, hcolon, hd⟩ := Scan.exists_name h hname hc1.settle
  -- The turn begins with what comes before the value, whatever becomes of it.
  have hturn : mergeBody options close? (m, c) = (do
      mergeBehind options (mergeBody options) c1.settle.line (.plain name)
      mergeBody options close? : Build Cursor Message Unit) (m, c2) := by
    refine (congrFun ((ends_mergeBody options).turns close?) (m, c)).trans ?_
    refine (run_read_bind_of_ok hfinished).trans ?_
    exact (run_read_bind_of_ok (Scan.run_line c1)).trans (run_read_bind_of_ok hfield)
  refine ⟨d, hd, fun m' e hvalue => ?_, fun error m' e hvalue => ?_⟩
  · rw [hturn, mergeBehind, bind_assoc, run_read_bind_of_ok hcolon, bind_assoc,
      run_bind_of_ok hvalue]
    rfl
  · rw [hturn, mergeBehind, bind_assoc, run_read_bind_of_ok hcolon, bind_assoc,
      run_bind_of_error hvalue]

/-- Fields are merged one after the other if each of them is. -/
theorem Fields.exists_merged {Item : γ → Bytes → Bytes → Prop} (message : σ → Message)
    (act : σ → γ → σ) {xs : List γ}
    (hitem : ∀ x s bytes behind (c : Cursor), x ∈ xs → Item x bytes behind →
      c.Faces depth false bytes → ∃ d, d.Faces depth false behind ∧
        mergeBody options close? (message s, c) = (do
          read Scan.separator
          mergeBody options close? : Build Cursor Message Unit) (message (act s x), d))
    (h : Fields Item xs bytes more) (hc : c.Faces depth false bytes) (s : σ) :
    ∃ d, d.Faces depth false more ∧
      mergeBody options close? (message s, c) =
        mergeBody options close? (message (xs.foldl act s), d) := by
  induction h generalizing c s with
  | nil => exact ⟨c, hc, rfl⟩
  | @cons x xs bytes behind next more item separator rest ih =>
    obtain ⟨d, hd, hfield⟩ := hitem x s bytes behind c List.mem_cons_self item hc
    obtain ⟨e, hseparator, he⟩ := Scan.delivers_separator separator d hd
    obtain ⟨f, hf, hrest⟩ :=
      ih (fun x' s' _ _ _ hx' => hitem x' s' _ _ _ (List.mem_cons_of_mem x hx')) he (act s x)
    exact ⟨f, hf, (hfield.trans (run_read_bind_of_ok hseparator)).trans hrest⟩

theorem exists_mergeBody_of_finished (options : ParseOptions) (m : Message)
    (h : Delivers depth false (Scan.finished close?) bytes true more)
    (hc : c.Faces depth false bytes) :
    ∃ d, mergeBody options close? (m, c) = .ok () (m, d) ∧ d.Faces depth false more := by
  obtain ⟨d, hfinished, hd⟩ := h c hc
  refine ⟨d, ?_, hd⟩
  rw [(ends_mergeBody options).turns close?]
  exact run_read_bind_of_ok hfinished

/-! ## Texts -/

/-- There is a text for an item, in front of everything that does not go on a number. -/
def Writable (Item : γ → Bytes → Bytes → Prop) (x : γ) : Prop :=
  ∃ s : String, ∀ more, Scan.EndsNumber more → Item x (Utf8.encode s ++ more) more

theorem encode_append_append (s t : String) (more : Bytes) :
    Utf8.encode (s ++ t) ++ more = Utf8.encode s ++ (Utf8.encode t ++ more) := by
  rw [Utf8.encode_append, List.append_assoc]

/-- A label stands in front of a text. -/
theorem exists_labelled {name s : String} {Value : Bytes → Prop} {more : Bytes} {strict : Bool}
    (h : Value (Utf8.encode s ++ more)) :
    ∃ value, Label name strict (Utf8.encode (name ++ (":" ++ s)) ++ more) value ∧ Value value := by
  refine ⟨Utf8.encode s ++ more, ?_, h⟩
  rw [encode_append_append, encode_append_append]
  exact .colon .nil ⟨[], .nil, rfl⟩

theorem Fields.exists_text {Item : γ → Bytes → Bytes → Prop} {xs : List γ}
    (h : ∀ x ∈ xs, Writable Item x) :
    ∃ s : String, ∀ more, Fields Item xs (Utf8.encode s ++ more) more := by
  induction xs with
  | nil => exact ⟨"", fun _ => .nil⟩
  | cons x xs ih =>
    obtain ⟨⟨s, hs⟩, hxs⟩ := List.forall_mem_cons.1 h
    obtain ⟨t, ht⟩ := ih hxs
    refine ⟨s ++ (";" ++ t), fun more => ?_⟩
    rw [encode_append_append, encode_append_append]
    exact .cons (hs _ (Scan.endsNumber_cons (by decide))) (.semicolon ⟨[], .nil, rfl⟩) (ht more)

end Text

end Protobuf
