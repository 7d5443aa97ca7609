import Protobuf.Proofs.Text.RoundTrip
import Protobuf.Proofs.Text.Skipping

/-!
# Printed unknown fields

Whatever bytes are printed as unknown fields, the lines are fields that are named by number, and
every block among them is closed (`Text.Numbered`). Such lines are skipped wherever unknown fields
are ignored, as long as their blocks do not nest too deep (`Message.parse_print_unknown`).
-/

namespace Protobuf

open Build

namespace Text

/-! ## Numbers as labels -/

namespace Scan

theorem decimalValue_map {cs : List Char} (h : ∀ c ∈ cs, c.isDigit = true) :
    decimalValue (cs.map byte) = Nat.ofDigitChars 10 cs 0 := by
  rw [← ofDigits_map, decimalValue, ofDigits, List.foldl_map, List.foldl_map]
  refine List.foldl_ext _ _ 0 fun value c hc => ?_
  have hrange := range_of_isDigit (h c hc)
  rw [toNat_byte (by omega), Nat.mul_comm]

/-- A number is written with decimal digits, which spell it. -/
theorem encode_toString (number : Nat) :
    decimalValue (Utf8.encode (toString number)) = number ∧
      (∀ b ∈ Utf8.encode (toString number), isDigit b = true) ∧
      ∃ b rest, Utf8.encode (toString number) = b :: rest ∧ isDigit b = true := by
  have htext : (toString number).toList = Nat.toDigits 10 number := Nat.toList_repr
  have hdigits : ∀ c ∈ Nat.toDigits 10 number, c.isDigit = true :=
    fun c hc => Nat.isDigit_of_mem_toDigits (by decide) (by decide) hc
  have hencode : Utf8.encode (toString number) = (Nat.toDigits 10 number).map byte := by
    rw [← htext]
    refine encode_eq_map_byte fun c hc => ?_
    rw [htext] at hc
    have hrange := range_of_isDigit (hdigits c hc)
    omega
  have hbytes : ∀ b ∈ (Nat.toDigits 10 number).map byte, isDigit b = true := by
    intro b hb
    obtain ⟨c, hc, rfl⟩ := List.mem_map.1 hb
    exact isDigit_byte (hdigits c hc)
  obtain ⟨c, cs, hcs⟩ := List.exists_cons_of_ne_nil (Nat.toDigits_ne_nil (b := 10) (n := number))
  rw [hencode]
  refine ⟨?_, hbytes, byte c, cs.map byte, by rw [hcs]; rfl, ?_⟩
  · rw [decimalValue_map hdigits, Nat.ofDigitChars_toDigits (by decide) (by decide)]
  · exact hbytes _ (List.mem_map_of_mem (hcs ▸ List.mem_cons_self))

/-- A number is read by its decimal digits, if it can be that of a field. -/
theorem finds_fieldNumber {number : Nat} (hnumber : ValidFieldNumber number)
    {setting : Nat × Bool} {bytes more : Bytes}
    (h : strip bytes = Utf8.encode (toString number) ++ more)
    (hmore : ∀ b ∈ more.head?, isNameByte b = false) :
    Finds setting fieldName bytes (.number number) more := by
  obtain ⟨htext, hdigits, hlead⟩ := encode_toString number
  obtain ⟨b, rest, hcons, hb⟩ := hlead
  have hhead : (strip bytes).head? = some b := by
    rw [h, hcons]
    rfl
  have hhash : (strip bytes).head? ≠ some (byte '#') := by
    rw [hhead]
    exact fun heq => ne_of_test hb (by decide) (Option.some.inj heq)
  have hend : ∀ b ∈ more.head?, isDigit b = false := fun b hb =>
    (Bool.or_eq_false_iff.1 (hmore b hb)).2
  have hname : ¬ more.head?.any isNameByte = true := by
    cases hhead : more.head? with
    | none => decide
    | some b =>
      rw [Option.any_some, hmore b hhead]
      decide
  intro c hc
  obtain ⟨c1, hpeek, hc1⟩ := finds_peek hhash c hc
  rw [h] at hc1
  obtain ⟨c2, hspan, hc2⟩ := run_span hdigits hend hc1
  have hvalid : ¬ (number = 0 ∨ maxFieldNumber < number) := by
    obtain ⟨hlow, hhigh⟩ := hnumber
    omega
  rw [← hc2.1] at hname
  refine ⟨c2, ?_, hc2⟩
  rw [fieldName, run_bind_of_ok hpeek, hhead, Option.any_some, if_pos hb, fieldNumber_eq,
    run_bind_of_ok hspan, run_bind_of_ok (run_get c2), if_neg hname]
  dsimp only
  rw [htext, if_neg hvalid]
  rfl

end Scan

theorem FieldName.readFrom_number {number : Nat} (h : ValidFieldNumber number) :
    (FieldName.number number).ReadFrom (toString number) := by
  obtain ⟨-, -, b, rest, hcons, hb⟩ := Scan.encode_toString number
  refine ⟨⟨b, rest, hcons, ?_, ne_of_test hb (by decide)⟩, Scan.finds_fieldNumber h⟩
  rw [isLead, isNameByte, hb, Bool.or_true, Bool.true_or, Bool.true_or]

/-! ## Lines of numbered fields -/

/-- The value is a word or a literal, which is skipped up to the end of its line. -/
def IsSkipped (value : String) : Prop :=
  (value.toList ≠ [] ∧ value.toList.all isNameChar = true) ∨
    ∃ bytes, value = quote (escapeBytes bytes)

theorem IsSkipped.exists_head {value : String} (h : IsSkipped value) :
    ∃ b rest, Utf8.encode value = b :: rest ∧ startsScalar b = true := by
  rcases h with ⟨hne, hall⟩ | ⟨bytes, rfl⟩
  · obtain ⟨c, cs, hcs⟩ := List.exists_cons_of_ne_nil hne
    have hc : isNameChar c = true := List.all_eq_true.1 hall c (hcs ▸ List.mem_cons_self)
    refine ⟨byte c, cs.flatMap String.utf8EncodeChar, ?_, startsScalar_of_isNameChar hc⟩
    rw [Utf8.encode, hcs, List.flatMap_cons, utf8EncodeChar_of_lt (isCharOf_iff.1 hc).1,
      List.singleton_append]
  · exact ⟨byte '"', _, encode_quote _, by decide⟩

theorem isSkipped_toString (n : Nat) : IsSkipped (toString n) := by
  have htext : (toString n).toList = Nat.toDigits 10 n := Nat.toList_repr
  refine .inl ⟨by rw [htext]; exact Nat.toDigits_ne_nil, ?_⟩
  rw [htext, List.all_eq_true]
  exact fun c hc =>
    isNameChar_of_isDigit (Nat.isDigit_of_mem_toDigits (by decide) (by decide) hc)

/-- The lines are fields that are named by number, and their blocks are closed. -/
inductive Numbered : List Line → Prop
  | nil : Numbered []
  | field {number : Nat} {value : String} {lines : List Line} (hnumber : ValidFieldNumber number)
    (hvalue : IsSkipped value) (h : Numbered lines) :
    Numbered (.field (toString number) value :: lines)
  | block {number : Nat} {body lines : List Line} (hnumber : ValidFieldNumber number)
    (hbody : Numbered body) (h : Numbered lines) :
    Numbered (Line.block (toString number) body ++ lines)

theorem Numbered.append {a b : List Line} (ha : Numbered a) (hb : Numbered b) :
    Numbered (a ++ b) := by
  induction ha with
  | nil => exact hb
  | field hnumber hvalue h ih => exact .field hnumber hvalue ih
  | block hnumber hbody h ihbody ih =>
    rw [List.append_assoc]
    exact .block hnumber hbody ih

/-- The lines close so many blocks that were opened before them. -/
inductive Closes : Nat → List Line → Prop
  | none {lines : List Line} (h : Numbered lines) : Closes 0 lines
  | one {a b : List Line} {count : Nat} (ha : Numbered a) (hb : Closes count b) :
    Closes (count + 1) (a ++ .closing :: b)

namespace Closes

variable {count number : Nat} {lines : List Line}

theorem append {a : List Line} (ha : Numbered a) (h : Closes count lines) :
    Closes count (a ++ lines) := by
  cases h with
  | none h => exact .none (ha.append h)
  | one hb h =>
    rw [← List.append_assoc]
    exact .one (ha.append hb) h

theorem opening (hnumber : ValidFieldNumber number) (h : Closes (count + 1) lines) :
    Closes count (.opening (toString number) :: lines) := by
  cases h with
  | @one a b _ ha hb =>
    have hblock : Line.opening (toString number) :: (a ++ .closing :: b) =
        Line.block (toString number) a ++ [] ++ b := by
      simp [Line.block]
    rw [hblock]
    exact hb.append (.block hnumber ha .nil)

theorem closing (h : Closes count lines) : Closes (count + 1) (.closing :: lines) := .one .nil h

theorem numbered (h : Closes 0 lines) : Numbered lines := by
  cases h with
  | none h => exact h

/-- All open groups are closed where printing stops. -/
theorem map_closing (groups : List Nat) :
    Closes groups.length (groups.map fun _ => Line.closing) := by
  induction groups with
  | nil => exact .none .nil
  | cons number groups ih => exact ih.closing

end Closes

theorem isSkipped_hexText (width n : Nat) : IsSkipped (hexText width n) := by
  have hdigit : ∀ n < 16, isNameChar (Nat.digitChar n) = true := by decide
  have hdigits : ∀ c ∈ Bytes.hexDigits width n, isNameChar c = true := by
    induction width generalizing n with
    | zero => exact List.forall_mem_nil _
    | succ width ih =>
      refine List.forall_mem_append.2 ⟨ih (n / 16), List.forall_mem_singleton.2 ?_⟩
      exact hdigit (n % 16) (Nat.mod_lt n (by decide))
  have htext : (hexText width n).toList = '0' :: 'x' :: Bytes.hexDigits width n := by
    rw [hexText, String.toList_append, String.toList_ofList, String.toList_ofList]
    rfl
  refine .inl ⟨by rw [htext]; exact List.cons_ne_nil _ _, ?_⟩
  rw [htext, List.all_eq_true]
  exact List.forall_mem_cons.2 ⟨by decide, List.forall_mem_cons.2 ⟨by decide, hdigits⟩⟩

/-- The lines of a value are a field, or a block around nested lines. -/
theorem numbered_unknownValueLines {nested? : Option (Bytes → List Line)}
    (hnested : ∀ lines ∈ nested?, ∀ bytes, Numbered (lines bytes)) {number : Nat}
    (hnumber : ValidFieldNumber number) (value : WireValue) :
    Numbered (unknownValueLines nested? (toString number) value) := by
  have hquoted : ∀ bytes, Numbered [.field (toString number) (quote (escapeBytes bytes))] :=
    fun bytes => .field hnumber (.inr ⟨bytes, rfl⟩) .nil
  cases value with
  | varint v => exact .field hnumber (isSkipped_toString _) .nil
  | fixed32 v => exact .field hnumber (isSkipped_hexText _ _) .nil
  | fixed64 v => exact .field hnumber (isSkipped_hexText _ _) .nil
  | lengthDelimited bytes =>
    cases nested? with
    | none => exact hquoted bytes
    | some lines =>
      rw [unknownValueLines]
      split
      · have hblock := Numbered.block hnumber (hnested lines rfl bytes) .nil
        rwa [List.append_nil] at hblock
      · exact hquoted bytes

/-- The lines of bytes that look like a message, where they may be guessed to be one. -/
def nestedLines? (rounds depth : Nat) : Option (Bytes → List Line) :=
  if depth = 0 then none
  else some fun bytes => unknownFieldLines rounds (depth - 1) [] (.new bytes)

/-- Printing stops and closes all groups, or it goes on behind the start or the end of a group or
behind a value. -/
theorem unknownFieldLines_cases (rounds depth : Nat) (groups : List Nat) (r : Reader) :
    unknownFieldLines (rounds + 1) depth groups r = groups.map (fun _ => .closing) ∨
      ∃ tag t, Reader.nextTag r = .ok (some tag) t ∧
        ((tag.wireType = .startGroup ∧
          unknownFieldLines (rounds + 1) depth groups r =
            .opening (toString tag.number) ::
              unknownFieldLines rounds depth (tag.number :: groups) t) ∨
        (tag.wireType = .endGroup ∧ groups.head? = some tag.number ∧
          unknownFieldLines (rounds + 1) depth groups r =
            .closing :: unknownFieldLines rounds depth groups.tail t) ∨
        ∃ value u, Reader.wireValue tag.wireType t = .ok value u ∧
          unknownFieldLines (rounds + 1) depth groups r =
            unknownValueLines (nestedLines? rounds depth) (toString tag.number) value ++
              unknownFieldLines rounds depth groups u) := by
  rw [unknownFieldLines]
  cases hnext : Reader.nextTag r with
  | error e t => exact .inl rfl
  | ok tag? t =>
    cases tag? with
    | none => exact .inl rfl
    | some tag =>
      dsimp only
      cases hwire : tag.wireType with
      | startGroup => exact .inr ⟨tag, t, rfl, .inl ⟨hwire, rfl⟩⟩
      | endGroup =>
        dsimp only
        by_cases hgroup : groups.head? = some tag.number
        · rw [if_pos hgroup]
          exact .inr ⟨tag, t, rfl, .inr (.inl ⟨hwire, hgroup, rfl⟩)⟩
        · rw [if_neg hgroup]
          exact .inl rfl
      | _ =>
        dsimp only
        rw [← hwire]
        cases hvalue : Reader.wireValue tag.wireType t with
        | error e u => exact .inl rfl
        | ok value u => exact .inr ⟨tag, t, rfl, .inr (.inr ⟨value, u, hvalue, rfl⟩)⟩

/-- Whatever is printed of unknown fields, the open groups are closed in the end. -/
theorem closes_unknownFieldLines (rounds depth : Nat) (groups : List Nat) (r : Reader) :
    Closes groups.length (unknownFieldLines rounds depth groups r) := by
  induction rounds generalizing depth groups r with
  | zero => exact .map_closing groups
  | succ rounds ih =>
    have hnested : ∀ lines ∈ nestedLines? rounds depth, ∀ bytes, Numbered (lines bytes) := by
      intro lines hlines bytes
      unfold nestedLines? at hlines
      split at hlines
      · cases hlines
      · cases hlines
        exact (ih (depth - 1) [] (.new bytes)).numbered
    rcases unknownFieldLines_cases rounds depth groups r with
      h | ⟨tag, t, -, ⟨-, h⟩ | ⟨-, hgroup, h⟩ | ⟨value, u, -, h⟩⟩
    · rw [h]
      exact .map_closing groups
    · rw [h]
      exact (ih depth (tag.number :: groups) t).opening tag.valid
    · rw [h]
      obtain ⟨outer, rfl⟩ := List.head?_eq_some_iff.1 hgroup
      exact (ih depth outer t).closing
    · rw [h]
      exact (ih depth groups u).append (numbered_unknownValueLines hnested tag.valid value)

theorem numbered_unknownLines (print : PrintOptions) (unknown : Bytes) :
    Numbered (unknownLines print unknown) := by
  unfold unknownLines
  split
  · exact (closes_unknownFieldLines _ _ [] _).numbered
  · exact .nil

/-! ## How deep blocks nest -/

theorem Line.le_maxDepth (depth : Nat) (lines : List Line) : depth ≤ maxDepth depth lines := by
  cases lines with
  | nil => exact Nat.le_refl depth
  | cons line lines => exact Nat.le_max_left _ _

theorem Line.maxDepth_append (depth : Nat) (a b : List Line) :
    maxDepth depth (a ++ b) = max (maxDepth depth a) (maxDepth (finalDepth depth a) b) := by
  induction a generalizing depth with
  | nil => exact (Nat.max_eq_right (le_maxDepth depth b)).symm
  | cons line a ih =>
    rw [List.cons_append, maxDepth, maxDepth, ih, Nat.max_assoc]
    rfl

theorem Numbered.finalDepth_eq {lines : List Line} (h : Numbered lines) (depth : Nat) :
    Line.finalDepth depth lines = depth := by
  induction h generalizing depth with
  | nil => rfl
  | field hnumber hvalue h ih => exact ih depth
  | @block number body lines hnumber hbody h ihbody ih =>
    have happend : Line.finalDepth depth (Line.block (toString number) body ++ lines) =
        Line.finalDepth (Line.depthAfter (Line.finalDepth (depth + 1) body) .closing) lines := by
      simp [Line.finalDepth, Line.block, Line.depthAfter]
    rw [happend, ihbody]
    exact ih depth

theorem Numbered.maxDepth_append {a : List Line} (ha : Numbered a) (depth : Nat) (b : List Line) :
    Line.maxDepth depth (a ++ b) = max (Line.maxDepth depth a) (Line.maxDepth depth b) := by
  rw [Line.maxDepth_append, ha.finalDepth_eq]

/-- Inside a block one more block is open. -/
theorem Numbered.maxDepth_block {body : List Line} (hbody : Numbered body) (depth : Nat)
    (label : String) : Line.maxDepth depth (Line.block label body) =
      Line.maxDepth (depth + 1) body := by
  have hle := Line.le_maxDepth (depth + 1) body
  have hclosing : Line.maxDepth (depth + 1) [.closing] = depth + 1 := by
    show max (depth + 1) depth = depth + 1
    omega
  have happend := hbody.maxDepth_append (depth + 1) [.closing]
  rw [hclosing] at happend
  show max depth (Line.maxDepth (depth + 1) (body ++ [.closing])) = _
  omega

/-! ## Skipping lines -/

/-- Where the cursor shows the first bytes, the action leaves the others, unless their blocks nest
deeper than the limit. -/
def PassesOver (limit depth deepest : Nat) (x : Scan Unit) (bytes more : Bytes) : Prop :=
  ∀ ⦃c : Cursor⦄ ⦃saw : Bool⦄, c.Shows (depth, saw) bytes →
    (deepest ≤ limit → ∃ c' saw', x c = .ok () c' ∧ c'.Shows (depth, saw') more) ∧
      (limit < deepest → ∃ c', x c = .error (.textDepthLimit limit) c')

/-- Where the cursor shows the first bytes, the action does what it does in front of the others,
unless their blocks nest deeper than the limit. -/
def GoesOn (limit depth deepest : Nat) (x : Scan Unit) (bytes more : Bytes) : Prop :=
  ∀ ⦃c : Cursor⦄ ⦃saw : Bool⦄, c.Shows (depth, saw) bytes →
    (deepest ≤ limit → ∃ c' saw', x c = x c' ∧ c'.Shows (depth, saw') more) ∧
      (limit < deepest → ∃ c', x c = .error (.textDepthLimit limit) c')

/-- The action passes over one field after the other. -/
def IsLoop (limit : Nat) (x : Scan Unit) : Prop :=
  ∀ ⦃number : Nat⦄ ⦃piece : Piece⦄ ⦃bytes more : Bytes⦄ ⦃c : Cursor⦄ ⦃depth : Nat⦄ ⦃saw : Bool⦄,
    ValidFieldNumber number → Spells (piece.lines (toString number)) bytes →
    c.Shows (depth, saw) (bytes ++ more) →
    ∃ inner c' saw', piece.Spells inner ∧ c'.Shows (depth, saw') (inner ++ more) ∧
      x c = (do
        Scan.passValue limit piece.hasColon
        Scan.separator
        x : Scan Unit) c'

namespace Scan

variable {limit depth : Nat} {saw : Bool} {bytes more : Bytes}

theorem finds_atBlock {setting : Nat × Bool} (h : (strip bytes).head? ≠ some (byte '#')) :
    Finds setting atBlock bytes
      ((strip bytes).head? = some (byte '\x7b') || (strip bytes).head? = some (byte '<'))
      (strip bytes) := by
  intro c hc
  obtain ⟨c', hpeek, hc'⟩ := finds_peek h c hc
  refine ⟨c', ?_, hc'⟩
  rw [atBlock, run_bind_of_ok hpeek]
  rfl

theorem reads_skipScalar {setting : Nat × Bool} {value : String} (hvalue : IsSkipped value)
    (h : strip bytes = Utf8.encode value ++ byte '\n' :: more) (hmore : Follows more) :
    Reads setting skipScalar bytes () (byte '\n' :: more) := by
  rcases hvalue with ⟨hne, hall⟩ | ⟨b, rfl⟩
  · obtain ⟨hmap, -, htest⟩ := encode_of_isCharOf (List.all_eq_true.1 hall)
    have hfollows : Follows bytes := by
      intro b hb
      rw [h, List.head?_append_of_ne_nil _ (by rw [hmap]; simpa using hne)] at hb
      rw [isLead, htest b (List.mem_of_mem_head? hb), Bool.true_or, Bool.true_or]
    refine (finds_not_atString hfollows).reads.bind ?_
    exact (reads_numberToken (isWord_of_all hne hall) ((strip_strip bytes).trans h)).bind
      (reads_pure ())
  · have hquote : strip bytes = byte '"' :: (Utf8.encode (escapeBytes b) ++ byte '"' ::
        byte '\n' :: more) := by
      rw [h, encode_quote, List.cons_append, List.append_assoc]
      rfl
    refine (finds_atString (by rw [hquote]; rfl)).reads.bind ?_
    exact (reads_stringLiteral (standFor_escapeBytes b) ((strip_strip bytes).trans hquote)
      (follows_newline hmore)).bind (reads_pure ())

/-- The value of a field is passed over up to the end of its line. -/
theorem reads_passValue {value : String} (hvalue : IsSkipped value) {inner : Bytes}
    (hinner : (Piece.text value).Spells inner) (hmore : Follows more) :
    Reads (depth, saw) (passValue limit true) (inner ++ more) () more := by
  obtain ⟨b, rest, htext, hb⟩ := hvalue.exists_head
  have hstrip : strip (inner ++ more) = Utf8.encode value ++ byte '\n' :: more := by
    obtain rfl := hinner
    rw [List.cons_append, strip_cons_of_isSpace (by decide), List.append_assoc,
      List.singleton_append, htext, List.cons_append,
      strip_of_not_isSpace (not_isSpace_of_test (by decide) hb)]
  have hhead : ∀ b', startsScalar b' = false → (strip (inner ++ more)).head? ≠ some b' := by
    intro b' hb' heq
    rw [hstrip, htext] at heq
    exact ne_of_test hb hb' (Option.some.inj heq)
  have hblock : (decide ((strip (inner ++ more)).head? = some (byte '\x7b')) ||
      decide ((strip (inner ++ more)).head? = some (byte '<'))) = false := by
    rw [decide_eq_false (hhead _ (by decide)), decide_eq_false (hhead _ (by decide))]
    rfl
  have hat : Reads (depth, saw) atBlock (inner ++ more) _ (strip (inner ++ more)) :=
    (finds_atBlock (hhead _ (by decide))).reads
  rw [hblock] at hat
  have hpeek : Reads (depth, saw) peek (strip (inner ++ more))
      (strip (strip (inner ++ more))).head? (strip (strip (inner ++ more))) :=
    (finds_peek (by rw [strip_strip]; exact hhead _ (by decide))).reads
  rw [strip_strip] at hpeek
  have hscalar : Reads (depth, saw) skipScalar (strip (inner ++ more)) () (byte '\n' :: more) :=
    reads_skipScalar hvalue ((strip_strip _).trans hstrip) hmore
  have hread : Reads (depth, saw) (valueTurn (passBlock limit) (passElements limit) true)
      (inner ++ more) () (byte '\n' :: more) := by
    refine hat.bind ?_
    rw [if_neg Bool.false_ne_true, if_pos rfl]
    refine hpeek.bind ?_
    rw [if_neg (hhead _ (by decide))]
    exact hscalar
  intro c hc
  obtain ⟨c', hrun, hc'⟩ := hread c hc
  rw [passValue_eq]
  exact ⟨c', hrun, hc'.of_strip_eq (strip_cons_of_isSpace (by decide) more)⟩

/-- The fields of a block are passed over. -/
theorem isLoop_passFields : IsLoop limit (passFields limit '\x7d') := by
  intro number piece bytes more c depth saw hnumber hspells hc
  have hname := FieldName.readFrom_number hnumber
  obtain ⟨_, -, -, hstrip⟩ := piece.exists_spells hspells
  obtain ⟨b, rest, hlabel, hlead, hb⟩ := hname.starts
  have hhead : (strip (bytes ++ more)).head? = some b := by
    rw [hstrip, hlabel]
    rfl
  have hhash : (strip (bytes ++ more)).head? ≠ some (byte '#') := by
    rw [hhead]
    exact fun heq => ne_of_test hlead (by decide) (Option.some.inj heq)
  have hbrace : (strip (bytes ++ more)).head? ≠ some (byte '\x7d') := by
    rw [hhead]
    exact fun heq => hb (Option.some.inj heq)
  obtain ⟨c0, hclose, hc0⟩ := finds_tryChar_false '\x7d' hhash hbrace c hc
  obtain ⟨inner, c1, c2, hinner, -, hfield, hcolon, hc2⟩ := exists_label hname hspells hc0.of_strip
  refine ⟨inner, c2, saw, hinner, hc2, ?_⟩
  refine (congrFun (passFields_eq limit '\x7d') c).trans ?_
  rw [fieldsTurn, run_bind_of_ok hclose]
  refine (run_bind_of_ok hfield).trans ?_
  exact run_bind_of_ok hcolon

theorem isLoop_passText {options : ParseOptions} (h : options.ignoreUnknown = true) :
    IsLoop options.depthLimit (passText options) := by
  intro number piece bytes more c depth saw hnumber hspells hc
  have hname := FieldName.readFrom_number hnumber
  obtain ⟨_, -, -, hstrip⟩ := piece.exists_spells hspells
  obtain ⟨b, rest, hlabel, hlead, hb⟩ := hname.starts
  have hhead : (strip (bytes ++ more)).head? = some b := by
    rw [hstrip, hlabel]
    rfl
  obtain ⟨c0, hfinished, hc0⟩ := reads_not_finished (.inl rfl) hhead hlead hb c hc
  obtain ⟨inner, n, c1, c2, c3, hinner, -, hline, hfield, hcolon, hc3⟩ :=
    exists_header hname hspells hc0
  have hsaw : c3.sawColon = piece.hasColon := (Prod.mk.inj hc3.2).2
  have hignores : ¬ (!options.ignores (.number number)) = true := by
    show ¬ (!options.ignoreUnknown) = true
    rw [h]
    decide
  refine ⟨inner, c3, piece.hasColon, hinner, hc3, ?_⟩
  refine (congrFun (passText_eq options) c).trans ?_
  rw [textTurn, run_bind_of_ok hfinished]
  refine (run_bind_of_ok hline).trans ?_
  rw [run_bind_of_ok hfield, run_bind_of_ok hcolon, if_neg hignores]
  refine (run_bind_of_ok (run_get c3)).trans ?_
  rw [hsaw]

/-- A block is passed over if its lines are. -/
theorem passesOver_block {body : List Line} (hd : depth ≤ limit) {inner : Bytes}
    (hinner : (Piece.block body).Spells inner)
    (hbody : ∀ {bytes more : Bytes}, Spells body bytes → Follows more → depth + 1 ≤ limit →
      GoesOn limit (depth + 1) (Line.maxDepth (depth + 1) body) (passFields limit '\x7d')
        (bytes ++ more) more) (hmore : Follows more) :
    PassesOver limit depth (Line.maxDepth (depth + 1) body) (passValue limit false)
      (inner ++ more) more := by
  obtain ⟨x, y, rfl, hx, hy⟩ := hinner
  intro c saw hc
  have hopen := strip_of_not_isSpace (b := byte '\x7b') (by decide)
    (byte '\n' :: (x ++ y) ++ more)
  have hhead : (strip (byte '\x7b' :: byte '\n' :: (x ++ y) ++ more)).head? =
      some (byte '\x7b') := by
    rw [List.cons_append, hopen]
    rfl
  obtain ⟨c1, hat, hc1⟩ := finds_atBlock (by rw [hhead]; decide) c hc
  obtain ⟨c2, hrun, hc2⟩ := finds_openBlock ((strip_strip _).trans hopen) c1 hc1.shows
  have hvalue : passValue limit false c = blockTurn limit (passFields limit) c1 := by
    rw [passValue_eq, valueTurn, run_bind_of_ok hat, hhead, passBlock_eq]
    rfl
  rw [hvalue, blockTurn, run_bind_of_ok hrun]
  by_cases hlimit : depth + 1 ≤ limit
  · obtain ⟨henter, hc3⟩ := run_enter hlimit hc2.shows
    have hinside : ({ c2 with depth := c2.depth + 1 } : Cursor).Shows (depth + 1, saw)
        (x ++ (y ++ more)) := by
      refine hc3.of_strip_eq ?_
      rw [List.cons_append, strip_cons_of_isSpace (by decide), List.append_assoc]
    obtain ⟨hwithin, hbeyond⟩ := hbody hx (hy.follows hmore) hlimit hinside
    rw [run_bind_of_ok henter]
    refine ⟨fun hdeep => ?_, fun hdeep => ?_⟩
    · obtain ⟨c4, saw', hfields, hc4⟩ := hwithin hdeep
      obtain ⟨c5, hclose, hc5⟩ := finds_tryChar '\x7d' (by decide) (strip_closing hy more) c4 hc4
      have hend : passFields limit '\x7d' c4 = .ok () c5 := by
        rw [passFields_eq, fieldsTurn, run_bind_of_ok hclose]
        rfl
      refine ⟨{ c5 with depth := c5.depth - 1 }, saw', ?_, shows_leave hc5⟩
      rw [run_bind_of_ok (hfields.trans hend)]
      rfl
    · obtain ⟨c4, hfields⟩ := hbeyond hdeep
      exact ⟨c4, run_bind_of_error hfields⟩
  · have hdepth : c2.depth = depth := (Prod.mk.inj hc2.2).1
    have hle := Line.le_maxDepth (depth + 1) body
    refine ⟨fun hdeep => by omega, fun _ => ⟨_, run_bind_of_error (enter_of_limit_lt ?_)⟩⟩
    omega

end Scan

section

variable {limit depth : Nat}

/-- A loop goes on behind a field if its value is passed over. -/
theorem IsLoop.goesOn {x : Scan Unit} (hx : IsLoop limit x) {number : Nat}
    (hnumber : ValidFieldNumber number) {piece : Piece} {a b more : Bytes} {d e : Nat}
    (hspells : Spells (piece.lines (toString number)) a) (hfollows : Follows (b ++ more))
    (hvalue : ∀ {inner : Bytes}, piece.Spells inner →
      PassesOver limit depth d (Scan.passValue limit piece.hasColon) (inner ++ (b ++ more))
        (b ++ more))
    (hrest : GoesOn limit depth e x (b ++ more) more) :
    GoesOn limit depth (max d e) x (a ++ (b ++ more)) more := by
  intro c saw hc
  obtain ⟨inner, c1, saw1, hinner, hc1, hrun⟩ := hx hnumber hspells hc
  obtain ⟨hwithin, hbeyond⟩ := hvalue hinner hc1
  rw [hrun]
  by_cases hd : d ≤ limit
  · obtain ⟨c2, saw2, hpass, hc2⟩ := hwithin hd
    obtain ⟨c3, hseparator, hc3⟩ := Scan.reads_separator hfollows c2 hc2
    obtain ⟨hwithin', hbeyond'⟩ := hrest hc3
    rw [run_bind_of_ok hpass, run_bind_of_ok hseparator]
    exact ⟨fun hdeep => hwithin' (by omega), fun hdeep => hbeyond' (by omega)⟩
  · obtain ⟨c2, hpass⟩ := hbeyond (Nat.lt_of_not_le hd)
    exact ⟨fun hdeep => absurd (Nat.le_trans (Nat.le_max_left d e) hdeep) hd,
      fun _ => ⟨c2, run_bind_of_error hpass⟩⟩

/-- Every line of numbered fields starts a field or ends a block. -/
theorem Numbered.leads {lines : List Line} (h : Numbered lines) : ∀ line ∈ lines, line.Leads := by
  induction h with
  | nil => exact List.forall_mem_nil _
  | @field number value lines hnumber hvalue h ih =>
    have hline : ∀ line ∈ (Piece.text value).lines (toString number), line.Leads :=
      leads_lines (FieldName.readFrom_number hnumber) (List.forall_mem_nil _)
    exact List.forall_mem_append.2 ⟨hline, ih⟩
  | @block number body lines hnumber hbody h ihbody ih =>
    have hblock : ∀ line ∈ (Piece.block body).lines (toString number), line.Leads :=
      leads_lines (FieldName.readFrom_number hnumber) ihbody
    exact List.forall_mem_append.2 ⟨hblock, ih⟩

/-- Lines of numbered fields are passed over. -/
theorem Numbered.goesOn {lines : List Line} (h : Numbered lines) {x : Scan Unit}
    (hx : IsLoop limit x) (hd : depth ≤ limit) {bytes more : Bytes}
    (hspells : Spells lines bytes) (hmore : Follows more) :
    GoesOn limit depth (Line.maxDepth depth lines) x (bytes ++ more) more := by
  induction h generalizing x depth bytes more with
  | nil =>
    cases hspells
    exact fun c saw hc => ⟨fun _ => ⟨c, saw, rfl, hc⟩, fun hdeep => absurd hd (Nat.not_le.2 hdeep)⟩
  | @field number value lines hnumber hvalue h ih =>
    obtain ⟨a, b, rfl, ha, hb⟩ := Spells.split (a := [.field (toString number) value]) hspells
    have hfollows : Follows (b ++ more) := hb.follows hmore
    have hdeepest : Line.maxDepth depth (.field (toString number) value :: lines) =
        max depth (Line.maxDepth depth lines) := rfl
    rw [hdeepest, List.append_assoc]
    have ha : Spells ((Piece.text value).lines (toString number)) a := ha
    refine hx.goesOn hnumber ha hfollows (fun hinner => ?_) (ih hx hd hb hmore)
    intro c saw hc
    obtain ⟨c', hrun, hc'⟩ := Scan.reads_passValue hvalue hinner hfollows c hc
    exact ⟨fun _ => ⟨c', saw, hrun, hc'⟩, fun hdeep => absurd hd (Nat.not_le.2 hdeep)⟩
  | @block number body lines hnumber hbody h ihbody ih =>
    obtain ⟨a, b, rfl, ha, hb⟩ := hspells.split
    have hfollows : Follows (b ++ more) := hb.follows hmore
    have hblock : Numbered (Line.block (toString number) body) := by
      have hblock := Numbered.block hnumber hbody .nil
      rwa [List.append_nil] at hblock
    rw [hblock.maxDepth_append, hbody.maxDepth_block, List.append_assoc]
    have ha : Spells ((Piece.block body).lines (toString number)) a := ha
    refine hx.goesOn hnumber ha hfollows (fun hinner => ?_) (ih hx hd hb hmore)
    exact Scan.passesOver_block hd hinner
      (fun hbytes hmore hd => ihbody Scan.isLoop_passFields hd hbytes hmore) hfollows

end

/-! ## Groups that are printed -/

/-- The bytes of a value that are guessed to be a message, where so many guesses are left. -/
def guessed? (guesses : Nat) : WireValue → Option Bytes
  | .lengthDelimited bytes =>
    if guesses ≠ 0 && !bytes.isEmpty && RawField.areFields bytes then some bytes else none
  | _ => none

/-- The start of a group is printed among unknown fields. -/
def printsGroup : (rounds guesses : Nat) → Reader → Bool
  | 0, _, _ => false
  | rounds + 1, guesses, r =>
    match Reader.nextTag r with
    | .ok (some tag) r =>
      match tag.wireType with
      | .startGroup => true
      | .endGroup => false
      | wireType =>
        match Reader.wireValue wireType r with
        | .ok value r =>
          (guessed? guesses value).any (fun bytes =>
            printsGroup rounds (guesses - 1) (.new bytes)) || printsGroup rounds guesses r
        | .error _ _ => false
    | _ => false

/-- A value is one line, unless it is guessed to be a message. -/
theorem unknownValueLines_cases (rounds guesses : Nat) (label : String) (value : WireValue) :
    (∃ text, unknownValueLines (nestedLines? rounds guesses) label value = [.field label text]) ∨
      ∃ bytes, guesses ≠ 0 ∧ guessed? guesses value = some bytes ∧
        unknownValueLines (nestedLines? rounds guesses) label value =
          Line.block label (unknownFieldLines rounds (guesses - 1) [] (.new bytes)) := by
  cases value with
  | varint v | fixed32 v | fixed64 v => exact .inl ⟨_, rfl⟩
  | lengthDelimited bytes =>
    by_cases hguesses : guesses = 0
    · rw [nestedLines?, if_pos hguesses]
      exact .inl ⟨_, rfl⟩
    · rw [nestedLines?, if_neg hguesses, unknownValueLines]
      by_cases hfields : (!bytes.isEmpty && RawField.areFields bytes) = true
      · have hguessed : guessed? guesses (.lengthDelimited bytes) = some bytes := by
          rw [guessed?, if_pos]
          rw [Bool.and_assoc, hfields, decide_eq_true hguesses]
          rfl
        rw [if_pos hfields]
        exact .inr ⟨bytes, hguesses, hguessed, rfl⟩
      · rw [if_neg hfields]
        exact .inl ⟨_, rfl⟩

theorem printsGroup_of_startGroup {rounds guesses : Nat} {r t : Reader} {tag : Tag}
    (hnext : Reader.nextTag r = .ok (some tag) t) (htag : tag.wireType = .startGroup) :
    printsGroup (rounds + 1) guesses r = true := by
  rw [printsGroup, hnext]
  dsimp only
  rw [htag]

theorem printsGroup_of_wireValue {rounds guesses : Nat} {r t u : Reader} {tag : Tag}
    {value : WireValue} (hnext : Reader.nextTag r = .ok (some tag) t)
    (hvalue : Reader.wireValue tag.wireType t = .ok value u) :
    printsGroup (rounds + 1) guesses r =
      ((guessed? guesses value).any (fun bytes =>
        printsGroup rounds (guesses - 1) (.new bytes)) || printsGroup rounds guesses u) := by
  obtain ⟨hstart, hend⟩ := Reader.wireType_of_wireValue hvalue
  rw [printsGroup, hnext]
  dsimp only
  cases hwire : tag.wireType with
  | startGroup => exact absurd hwire hstart
  | endGroup => exact absurd hwire hend
  | _ =>
    dsimp only
    rw [← hwire, hvalue]

/-- Where no group is printed, blocks nest as deep as bytes may be guessed to be messages. -/
theorem maxDepth_unknownFieldLines {rounds guesses : Nat} {r : Reader}
    (h : printsGroup rounds guesses r = false) (depth : Nat) :
    Line.maxDepth depth (unknownFieldLines rounds guesses [] r) ≤ depth + guesses := by
  induction rounds generalizing guesses depth r with
  | zero => exact Nat.le_add_right _ _
  | succ rounds ih =>
    rcases unknownFieldLines_cases rounds guesses [] r with
      hlines | ⟨tag, t, hnext, ⟨htag, -⟩ | ⟨-, hgroup, -⟩ | ⟨value, u, hvalue, hlines⟩⟩
    · rw [hlines]
      exact Nat.le_add_right _ _
    · rw [printsGroup_of_startGroup hnext htag] at h
      cases h
    · cases hgroup
    · rw [printsGroup_of_wireValue hnext hvalue, Bool.or_eq_false_iff] at h
      obtain ⟨hguess, hrest⟩ := h
      have hrest := ih hrest depth
      rw [hlines]
      rcases unknownValueLines_cases rounds guesses (toString tag.number) value with
        ⟨text, hline⟩ | ⟨bytes, hguesses, hguessed, hblock⟩
      · rw [hline]
        show max depth (Line.maxDepth depth (unknownFieldLines rounds guesses [] u)) ≤ _
        omega
      · have hbody := (closes_unknownFieldLines rounds (guesses - 1) [] (.new bytes)).numbered
        have hnumbered := Numbered.block tag.valid hbody .nil
        rw [List.append_nil] at hnumbered
        rw [hguessed, Option.any_some] at hguess
        have hinside := ih hguess (depth + 1)
        rw [hblock, hnumbered.maxDepth_append, hbody.maxDepth_block]
        omega

end Text

namespace Message

open Text

/-- What is printed of unknown fields is skipped wherever unknown fields are ignored, whatever their
bytes are: the parsed message is empty, unless the printed blocks nest deeper than the limit, which
is then the error. They nest no deeper than bytes may be guessed to be messages, unless a group is
printed. -/
theorem parse_print_unknown (print : PrintOptions) (options : ParseOptions)
    (h : options.ignoreUnknown = true) (unknown : Bytes) :
    let m := (new .empty).appendUnknown unknown
    let deepest := Line.maxDepth 0 (messageLines print print.anyDepth m)
    parse options .empty (m.print print) =
        (if deepest ≤ options.depthLimit then .ok (new .empty)
        else .error (.textDepthLimit options.depthLimit)) ∧
      (printsGroup (unknown.length + 1) print.unknownDepth (.new unknown) = false →
        deepest ≤ print.unknownDepth) := by
  intro m deepest
  have htype : m.type ≠ .any := by
    show MessageType.empty ≠ .any
    decide
  have hlines : messageLines print print.anyDepth m = unknownLines print unknown :=
    messageLines_eq (fun hany => absurd hany htype) _
  have hdeepest : deepest = Line.maxDepth 0 (unknownLines print unknown) := by
    show Line.maxDepth 0 (messageLines print print.anyDepth m) = _
    rw [hlines]
  have hnumbered := numbered_unknownLines print unknown
  have hgoes := hnumbered.goesOn (Scan.isLoop_passText h) (Nat.zero_le options.depthLimit)
    (spells_indented hnumbered.leads 0) follows_nil
  have hstart : (Cursor.new (m.print print)).Shows (0, false)
      (Utf8.encode (String.join (Line.indented 0 (unknownLines print unknown))) ++ []) := by
    rw [List.append_nil, ← hlines]
    exact ⟨rfl, rfl⟩
  obtain ⟨hwithin, hbeyond⟩ := hgoes hstart
  rw [← hdeepest] at hwithin hbeyond
  refine ⟨?_, fun hgroup => ?_⟩
  · rw [parse_empty]
    by_cases hlimit : deepest ≤ options.depthLimit
    · obtain ⟨c, saw, hrun, hc⟩ := hwithin hlimit
      obtain ⟨c', hfinished, -⟩ := Scan.reads_finished_end rfl c hc
      have hend : Scan.passText options c = .ok () c' := by
        rw [Scan.passText_eq, Scan.textTurn, run_bind_of_ok hfinished]
        rfl
      rw [hrun, hend, if_pos hlimit]
    · obtain ⟨c, hrun⟩ := hbeyond (Nat.lt_of_not_le hlimit)
      rw [hrun, if_neg hlimit]
  · rw [hdeepest, unknownLines]
    split
    · have hle := maxDepth_unknownFieldLines hgroup 0
      rwa [Nat.zero_add] at hle
    · exact Nat.zero_le _

/-- A length-delimited field with a field inside, printed as a block where one guess is left. -/
theorem parse_print_unknown_nested :
    parse ⟨true, false, 1, false, none⟩ .empty
        (((new .empty).appendUnknown [10, 2, 8, 5]).print { unknownDepth := 1 }) =
      .ok (new .empty) ∧
    printsGroup 5 1 (.new [10, 2, 8, 5]) = false ∧
    Line.maxDepth 0 (messageLines { unknownDepth := 1 } 10
      ((new .empty).appendUnknown [10, 2, 8, 5])) ≤ 1 := by
  have h := parse_print_unknown { unknownDepth := 1 } ⟨true, false, 1, false, none⟩ rfl
    [10, 2, 8, 5]
  have hgroup : printsGroup 5 1 (.new [10, 2, 8, 5]) = false := by decide +kernel
  have hdeepest := h.2 hgroup
  refine ⟨?_, hgroup, hdeepest⟩
  rw [h.1]
  exact if_pos hdeepest

end Message

end Protobuf
