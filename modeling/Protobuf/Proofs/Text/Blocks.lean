import Mathlib.Data.Fin.VecNotation
import Protobuf.Proofs.Text.Layouts

/-!
# Integers and blocks

The elements of lists: numerals of integers, and blocks in which integer fields are set. Wherever
one of them is written it is read, in front of everything that does not go on a number
(`Text.Integer.delivers`, `Text.Block.delivers`).
-/

namespace Protobuf

open Build

namespace Text

/-! ## Integers -/

theorem IsDigit.isNameChar {base digit : Nat} {c : Char} (h : IsDigit base c digit)
    (hbase : base ≤ 16) : isNameChar c = true := by
  have all : ∀ digit < 16, Text.isNameChar digit.digitChar = true ∧
      Text.isNameChar digit.digitChar.toUpper = true := by decide
  obtain ⟨hsmall, hcapital⟩ := all digit (Nat.lt_of_lt_of_le h.1 hbase)
  rcases h.2 with rfl | rfl
  · exact hsmall
  · exact hcapital

theorem Spelled.isNameChar {base n : Nat} {cs : List Char} (h : Spelled base cs n)
    (hbase : base ≤ 16) : cs ≠ [] ∧ ∀ c ∈ cs, isNameChar c = true := by
  obtain ⟨hne, digits, hdigits, -⟩ := h
  refine ⟨hne, ?_⟩
  clear hne
  induction hdigits with
  | nil => exact List.forall_mem_nil _
  | cons hc _ ih => exact List.forall_mem_cons.2 ⟨hc.isNameChar hbase, ih⟩

theorem Magnitude.isNameChar {cs : List Char} {n : Nat} (h : Magnitude cs n) :
    cs ≠ [] ∧ ∀ c ∈ cs, isNameChar c = true := by
  have hzero : Text.isNameChar '0' = true := by decide
  cases h with
  | hexadecimal hx digits =>
    have hdigits := (digits.isNameChar (Nat.le_refl 16)).2
    refine ⟨List.cons_ne_nil _ _,
      List.forall_mem_cons.2 ⟨hzero, List.forall_mem_cons.2 ⟨?_, hdigits⟩⟩⟩
    rcases hx with rfl | rfl <;> decide
  | octal digits =>
    have hdigits := (digits.isNameChar (by decide)).2
    exact ⟨List.cons_ne_nil _ _, List.forall_mem_cons.2 ⟨hzero, hdigits⟩⟩
  | decimal leading digits => exact digits.isNameChar (by decide)

theorem Numeral.isWord {token : String} {i : Int} (h : Numeral token.toList i) :
    Scan.IsWord token := by
  generalize hcs : token.toList = cs at h
  cases h with
  | unsigned spelled _ => exact ⟨cs, spelled.isNameChar.1, spelled.isNameChar.2, .inl hcs⟩
  | @negative cs _ spelled _ => exact ⟨cs, spelled.isNameChar.1, spelled.isNameChar.2, .inr hcs⟩

/-- A numeral of the integer stands behind a gap, in front of bytes that do not belong to it. -/
def Integer (v : Int32) (bytes more : Bytes) : Prop :=
  ∃ gap token, Gap gap ∧ Numeral token.toList v.toInt ∧ Scan.EndsNumber more ∧
    bytes = gap ++ (Utf8.encode token ++ more)

/-- The bytes do not start with a bracket, apart from blanks and comments. -/
def NoBracket (bytes : Bytes) : Prop :=
  (behindBlanks false bytes).head? ≠ some (byte '[') ∧
    (behindBlanks false bytes).head? ≠ some (byte ']')

variable {bytes more : Bytes} {depth : Nat} {strict : Bool} {c : Cursor}

theorem Scan.IsWord.behindBlanks_eq {token : String} (h : IsWord token) {gap : Bytes}
    (hgap : Gap gap) (more : Bytes) :
    behindBlanks false (gap ++ (Utf8.encode token ++ more)) = Utf8.encode token ++ more ∧
      ∃ b rest, Utf8.encode token = b :: rest ∧ isTokenByte b = true := by
  obtain ⟨-, word, hne, hword, hbytes⟩ := h.exists_bytes
  obtain ⟨b, rest, htoken, hb⟩ :
      ∃ b rest, Utf8.encode token = b :: rest ∧ isTokenByte b = true := by
    rcases hbytes with hbytes | hbytes
    · obtain ⟨b, rest, rfl⟩ := List.exists_cons_of_ne_nil hne
      exact ⟨b, rest, hbytes, by simp [isTokenByte, hword b List.mem_cons_self]⟩
    · exact ⟨byte '-', word, hbytes, by decide⟩
  refine ⟨?_, b, rest, htoken, hb⟩
  rw [htoken, List.cons_append]
  exact hgap.behindBlanks_mark (not_isSpace_of_test (by decide) hb) (ne_of_test hb (by decide))

variable {v : Int32}

theorem Integer.noBracket (h : Integer v bytes more) : NoBracket bytes := by
  obtain ⟨gap, token, hgap, hnumeral, -, rfl⟩ := h
  obtain ⟨hrest, b, rest, htoken, hb⟩ := hnumeral.isWord.behindBlanks_eq hgap more
  rw [NoBracket, hrest, htoken, List.cons_append, List.head?_cons]
  have hopen : b ≠ byte '[' := ne_of_test hb (by decide)
  have hclose : b ≠ byte ']' := ne_of_test hb (by decide)
  exact ⟨fun heq => hopen (Option.some.inj heq), fun heq => hclose (Option.some.inj heq)⟩

theorem Scan.IsWord.delivers {token : String} (h : IsWord token) {gap : Bytes} (hgap : Gap gap)
    (hmore : EndsNumber more) :
    Delivers depth strict numberToken (gap ++ (Utf8.encode token ++ more)) token more := by
  obtain ⟨hrest, b, rest, htoken, hb⟩ := h.behindBlanks_eq hgap more
  refine Finds.delivers settles_numberToken fun _ => finds_numberToken h hmore ?_
  rw [hrest, htoken]
  exact strip_of_not_isSpace (not_isSpace_of_test (by decide) hb) _

theorem Integer.delivers (h : Integer v bytes more) :
    Delivers depth true (Scan.scalar .int32) bytes (.int32 v) more := by
  obtain ⟨gap, token, hgap, hnumeral, hends, rfl⟩ := h
  intro c hc
  obtain ⟨d, htoken, hd⟩ := hnumeral.isWord.delivers hgap hends c hc
  have hlow := v.le_toInt
  have hhigh := v.toInt_lt
  have hrun := (Scan.readsNumeral_int32 (hc.colon rfl) htoken).run (fun _ _ => Int32.toInt_inj.1)
    hnumeral hlow (by omega)
  exact ⟨d, map_eq_ok.2 ⟨v, hrun, rfl⟩, hd⟩

/-- What a word spells is an integer, if anything, and the word its numeral. -/
theorem Scan.IsWord.numeral {token : String} (h : IsWord token) {i : Int}
    (hvalue : ∃ negative magnitude, integer? token = some (negative, magnitude) ∧
      signed negative magnitude = i) : Numeral token.toList i := by
  have hnew : (Cursor.new token).Faces 0 false ([] ++ (Utf8.encode token ++ [])) := by
    rw [List.append_nil, List.nil_append]
    exact .new token
  obtain ⟨d, htoken, -⟩ := h.delivers .nil (by decide) _ hnew
  exact (numeral_iff (isChain_of_numberToken htoken)).2 hvalue

/-- A word that is no numeral is not read as an integer. -/
theorem exists_error_of_word {c : Cursor} {token : String} {depth : Nat} {bytes more : Bytes}
    (hc : c.Faces depth true bytes)
    (h : Delivers depth true Scan.numberToken bytes token more) (hvalue : integer? token = none) :
    ∃ e d, Scan.scalar .int32 c = .error e d := by
  cases hrun : Scan.scalar .int32 c with
  | error e d => exact ⟨e, d, rfl⟩
  | ok x d =>
    obtain ⟨t, htoken, -⟩ := h c hc
    obtain ⟨v, hint, -⟩ := map_eq_ok.1 hrun
    obtain ⟨-, hnumeral, -⟩ := (Scan.readsNumeral_int32 (hc.colon rfl) htoken _ d).1 ⟨v, hint, rfl⟩
    obtain ⟨_, _, hsome, -⟩ := (numeral_iff (Scan.isChain_of_numberToken htoken)).1 hnumeral
    rw [hvalue] at hsome
    cases hsome

/-! ## Blocks -/

/-- The fields of a block. -/
def blockNames : Fin 3 → String := !["a", "b", "c"]

/-- A field of a block is set to an integer. -/
def Setting (x : Fin 3 × Int32) (bytes more : Bytes) : Prop :=
  ∃ value, Label (blockNames x.1) true bytes value ∧ Integer x.2 value more

/-- The slots of a block's message where a field is set. -/
def setField (slots : List (Slot Message)) (x : Fin 3 × Int32) : List (Slot Message) :=
  slots.set x.1 (.optional (some (.scalar (.int32 x.2))))

/-- The message of a block in which some fields are set one after the other. -/
def blockMessage (settings : List (Fin 3 × Int32)) : Message :=
  ⟨.required, settings.foldl setField (Message.new .required).slots, []⟩

/-- The message of three integers, each of them set or not. -/
def integersMessage (x y z : Option Int32) : Message :=
  ⟨.required, [x, y, z].map fun value? => .optional (value?.map fun v => .scalar (.int32 v)), []⟩

/-- Blocks have all messages of three integers. -/
theorem exists_blockMessage (x y z : Option Int32) :
    ∃ settings, blockMessage settings = integersMessage x y z := by
  refine ⟨x.toList.map (0, ·) ++ y.toList.map (1, ·) ++ z.toList.map (2, ·), ?_⟩
  cases x <;> cases y <;> cases z <;> rfl

/-- The characters around the fields of a block. -/
inductive Brackets : Char → Char → Prop
  /-- Braces. -/
  | braces : Brackets '\x7b' '\x7d'
  /-- Angle brackets. -/
  | angles : Brackets '<' '>'

/-- A block stands behind a gap and spells the message. -/
def Block (m : Message) (bytes more : Bytes) : Prop :=
  ∃ opening closing inner behind settings, Brackets opening closing ∧ Mark opening bytes inner ∧
    Fields Setting settings inner behind ∧ Mark closing behind more ∧ m = blockMessage settings

variable {m : Message} {options : ParseOptions}

theorem Block.noBracket (h : Block m bytes more) : NoBracket bytes := by
  obtain ⟨opening, closing, inner, behind, settings, hbrackets, hopen, -⟩ := h
  cases hbrackets with
  | braces | angles =>
    rw [NoBracket, hopen.behindBlanks_eq (by decide), List.head?_cons]
    decide

theorem Brackets.endsBlock {opening closing : Char} (h : Brackets opening closing) :
    Scan.EndsBlock closing := by
  cases h with
  | braces => exact .inl rfl
  | angles => exact .inr rfl

theorem Scan.delivers_openBlock {opening closing : Char} (hbrackets : Brackets opening closing)
    (h : Mark opening bytes more) : Delivers depth strict openBlock bytes closing more := by
  intro c hc
  cases hbrackets with
  | braces =>
    obtain ⟨d, hrun, hd⟩ := delivers_tryChar (by decide) h c hc
    refine ⟨d, ?_, hd⟩
    rw [openBlock, run_bind_of_ok hrun]
    rfl
  | angles =>
    have hne : (behindBlanks false bytes).head? ≠ some (byte '\x7b') := by
      rw [h.behindBlanks_eq (by decide), List.head?_cons]
      decide
    obtain ⟨d, hbrace, hd⟩ := delivers_tryChar_false hne c hc
    obtain ⟨e, hangle, he⟩ := delivers_tryChar (by decide) h d hd
    refine ⟨e, ?_, he⟩
    rw [openBlock, run_bind_of_ok hbrace]
    exact run_bind_of_ok hangle

theorem mergeField_of_member {limit i : Nat} {body : MergeBody} {name : String} {member : Member}
    (h : Message.member? m.type (·.hasName name) = some (i, member)) :
    mergeField limit body name (m, c) = (do
      Message.atSlot i member (mergeMember limit body name member)
      pure true : Build Cursor Message Bool) (m, c) := by
  simp only [mergeField, h]

/-- A field of a block is merged into its slot. -/
theorem mergeNamed_setting {x : Fin 3 × Int32} {slots : List (Slot Message)} {body : MergeBody}
    {d : Cursor} (h : Scan.scalar .int32 c = .ok (.int32 x.2) d) :
    mergeNamed options body (.plain (blockNames x.1)) (⟨.required, slots, []⟩, c) =
      .ok true (⟨.required, setField slots x, []⟩, d) := by
  obtain ⟨i, v⟩ := x
  have hmember : ∀ i, Message.member? .required (·.hasName (blockNames i)) =
      some (i.val, .requiredScalar (([1, 3, 33] : List Nat).getD i 0) (blockNames i) .int32) := by
    decide
  have hlabel : MessageType.required.label? (.plain (blockNames i)) = some (blockNames i) := rfl
  rw [mergeNamed_of_label hlabel, mergeField_of_member (hmember i)]
  refine run_bind_of_ok (a := ()) (zoom_eq_ok.2 ⟨_, ?_, rfl⟩)
  exact run_read_bind_of_ok h

/-- The fields in a block are merged one after the other. -/
theorem exists_settings (options : ParseOptions) {settings : List (Fin 3 × Int32)} {closing : Char}
    (hclosing : Scan.EndsBlock closing) (h : Fields Setting settings bytes more)
    (hc : c.Faces depth false bytes) :
    ∃ d, d.Faces depth false more ∧
      mergeBody options (some closing) (.new .required, c) =
        mergeBody options (some closing) (blockMessage settings, d) := by
  have hclose : ∀ close ∈ some closing, Scan.EndsBlock close := by
    rintro _ ⟨⟩
    exact hclosing
  have hname : ∀ i, isIdentifier (blockNames i).toList = true := by decide
  refine Fields.exists_merged (fun slots => ⟨.required, slots, []⟩) setField
    (fun x slots bytes behind c _ hx hc => ?_) h hc _
  obtain ⟨value, hlabel, hinteger⟩ := hx
  obtain ⟨d, hd, hmerged, -⟩ := exists_value options hclose (hname x.1) hlabel hc _
  obtain ⟨e, hrun, he⟩ := hinteger.delivers d hd
  exact ⟨e, he.relax, hmerged _ e (mergeNamed_setting hrun)⟩

theorem Block.delivers (h : Block m bytes more) (hlimit : depth + 1 ≤ options.depthLimit) :
    Delivers depth false (value options.depthLimit (mergeBody options) (.message .required)) bytes
      (.message m) more := by
  obtain ⟨opening, closing, inner, behind, settings, hbrackets, hopen, hfields, hclose, rfl⟩ := h
  have hclosing := hbrackets.endsBlock
  intro c hc
  obtain ⟨c1, hblock, hc1⟩ := Scan.delivers_openBlock hbrackets hopen c hc
  have henter : Scan.enter options.depthLimit c1 = .ok () c1.opened :=
    Scan.enter_of_le (by rwa [hc1.depth])
  have hopened : c1.opened.Faces (depth + 1) false inner :=
    ⟨hc1.rest, congrArg (· + 1) hc1.depth, hc1.colon⟩
  obtain ⟨c2, hc2, hinside⟩ := exists_settings options hclosing hfields hopened
  obtain ⟨c3, hend, hc3⟩ :=
    exists_mergeBody_of_finished options (blockMessage settings)
      (Scan.delivers_finished_close hclosing hclose) hc2
  have hclosed : c3.closed.Faces depth false more :=
    ⟨hc3.rest, congrArg (· - 1) hc3.depth, hc3.colon⟩
  refine ⟨c3.closed, map_eq_ok.2 ⟨_, alone_eq_ok.2 ?_, rfl⟩, hclosed⟩
  refine (run_read_bind_of_ok hblock).trans ((run_read_bind_of_ok henter).trans ?_)
  exact run_bind_of_ok (hinside.trans hend)

/-- Where no block may be opened, none is read. -/
theorem Block.exists_error (h : Block m bytes more) (hlimit : options.depthLimit < depth + 1)
    (hc : c.Faces depth strict bytes) :
    ∃ d, value options.depthLimit (mergeBody options) (.message .required) c =
      .error (.textDepthLimit options.depthLimit) d := by
  obtain ⟨opening, closing, inner, behind, settings, hbrackets, hopen, -⟩ := h
  obtain ⟨d, hblock, hd⟩ := Scan.delivers_openBlock hbrackets hopen c hc
  have henter : Scan.enter options.depthLimit d =
      .error (.textDepthLimit options.depthLimit) d.opened :=
    Scan.enter_of_limit_lt (by rwa [hd.depth])
  have hrun : block options.depthLimit (mergeBody options) (.new .required, c) =
      .error (.textDepthLimit options.depthLimit) (.new .required, d.opened) := by
    refine (run_read_bind_of_ok hblock).trans (run_bind_of_error ?_)
    exact read_eq_error.2 ⟨henter, rfl⟩
  refine ⟨d.opened, ?_⟩
  rw [value, run_map, run_alone, hrun]

/-! ## Texts -/

/-- Integers can be written in decimal. -/
theorem writable_integer (v : Int32) : Writable Integer v := by
  have hlow := v.le_toInt
  have hhigh := v.toInt_lt
  obtain ⟨hword, hvalue⟩ := integer?_toString (i := v.toInt) (by omega)
  exact ⟨toString v.toInt, fun more hmore => ⟨[], _, .nil, hword.numeral hvalue, hmore, rfl⟩⟩

/-- Messages of blocks can be written in braces. -/
theorem writable_block (settings : List (Fin 3 × Int32)) :
    Writable Block (blockMessage settings) := by
  have hsettings : ∀ x ∈ settings, Writable Setting x := by
    intro x _
    obtain ⟨s, hs⟩ := writable_integer x.2
    exact ⟨blockNames x.1 ++ (":" ++ s), fun more hmore => exists_labelled (hs more hmore)⟩
  obtain ⟨s, hs⟩ := Fields.exists_text hsettings
  refine ⟨"\x7b" ++ (s ++ "\x7d"), fun more _ => ?_⟩
  rw [encode_append_append, encode_append_append]
  exact ⟨_, _, _, _, settings, .braces, ⟨[], .nil, rfl⟩, hs _, ⟨[], .nil, rfl⟩, rfl⟩

end Text

end Protobuf
