import Protobuf.Proofs.Text.Composition
import Protobuf.Proofs.Text.Walks

/-!
# The lines and columns of errors

A place in a text counts the newlines before it and the bytes behind the last of them. The count is
kept up where blanks are skipped, and every other step stays on its line (`Text.Counted.walk`). So
an error tells the line and the column at which reading stopped, except that a raw newline in a
literal has been read and is not counted, and a name that is not known is found on the line where it
starts (`Message.parse_error_line`).
-/

namespace Protobuf

open Build Relation

namespace Text

/-- The number of the line on which the text goes on behind the bytes. -/
def lineBehind (before : Bytes) : Nat := 1 + before.count (byte '\n')

/-- The number of the column in which the text goes on behind the bytes. -/
def columnBehind (before : Bytes) : Nat :=
  1 + (before.reverse.takeWhile fun b => b ≠ byte '\n').length

theorem lineBehind_append {a b : Bytes} (h : byte '\n' ∉ b) :
    lineBehind (a ++ b) = lineBehind a := by
  rw [lineBehind, lineBehind, List.count_append, List.count_eq_zero.2 h, Nat.add_zero]

theorem lineBehind_newline (a : Bytes) : lineBehind (a ++ [byte '\n']) = lineBehind a + 1 := by
  rw [lineBehind, lineBehind, List.count_append, List.count_singleton_self, Nat.add_assoc]

theorem columnBehind_append {a b : Bytes} (h : byte '\n' ∉ b) :
    columnBehind (a ++ b) = columnBehind a + b.length := by
  have hline : ∀ x ∈ b.reverse, decide (x ≠ byte '\n') = true := by
    intro x hx
    refine decide_eq_true fun heq => h ?_
    rw [← heq]
    exact List.mem_reverse.1 hx
  rw [columnBehind, columnBehind, List.reverse_append, List.takeWhile_append_of_pos hline,
    List.length_append, List.length_reverse]
  omega

theorem columnBehind_newline (a : Bytes) : columnBehind (a ++ [byte '\n']) = 1 := by
  rw [columnBehind, List.reverse_append, List.reverse_singleton, List.singleton_append,
    List.takeWhile_cons_of_neg (by simp)]
  rfl

/-! ## Counting along a walk -/

/-- The bytes come before the place in the text, which counts their lines and columns. -/
structure Counted (text : String) (before : Bytes) (c : Cursor) : Prop where
  passed : (Cursor.new text).Over before c
  line : c.line = lineBehind before
  column : c.lineStart + columnBehind before = c.position + 1

namespace Counted

variable {text : String} {before : Bytes} {c d : Cursor}

theorem new (text : String) : Counted text [] (.new text) := ⟨.nil _, rfl, rfl⟩

/-- On a line only the column changes. -/
theorem advance (h : Counted text before c) {count : Nat} (hcount : count ≤ c.rest.length)
    (hline : byte '\n' ∉ c.rest.take count) :
    Counted text (before ++ c.rest.take count) (c.advance count) := by
  refine ⟨h.passed.append (Cursor.over_advance hcount), ?_, ?_⟩
  · rw [lineBehind_append hline]
    exact h.line
  · have hcolumn := h.column
    rw [columnBehind_append hline, List.length_take_of_le hcount]
    show c.lineStart + _ = c.position + count + 1
    omega

theorem advance_one (h : Counted text before c) {b : UInt8} (hhead : c.rest.head? = some b)
    (hb : b ≠ byte '\n') : Counted text (before ++ [b]) (c.advance 1) := by
  obtain ⟨bytes, hrest⟩ := List.head?_eq_some_iff.1 hhead
  have htake : c.rest.take 1 = [b] := by rw [hrest, List.take_succ_cons, List.take_zero]
  rw [← htake]
  refine h.advance ?_ ?_
  · rw [hrest, List.length_cons]
    exact Nat.succ_pos _
  · rw [htake]
    exact fun hmem => hb (List.mem_singleton.1 hmem).symm

theorem newline (h : Counted text before c) (hhead : c.rest.head? = some (byte '\n')) :
    Counted text (before ++ [byte '\n']) c.newline := by
  refine ⟨h.passed.append (Cursor.over_advance_one hhead), ?_, ?_⟩
  · rw [lineBehind_newline, ← h.line]
    rfl
  · rw [columnBehind_newline]
    rfl

theorem settle (h : Counted text before c) : ∃ more, Counted text (before ++ more) c.settle := by
  have hnothing : ∃ more, Counted text (before ++ more) c := ⟨[], by rwa [List.append_nil]⟩
  refine @Cursor.skipBlanks_keeps (fun d => ∃ more, Counted text (before ++ more) d)
    (fun d hd hhead => ?_) (fun d b hd hhead hb => ?_) c.rest false c rfl hnothing
  · obtain ⟨more, hmore⟩ := hd
    refine ⟨more ++ [byte '\n'], ?_⟩
    rw [← List.append_assoc]
    exact hmore.newline hhead
  · obtain ⟨more, hmore⟩ := hd
    refine ⟨more ++ [b], ?_⟩
    rw [← List.append_assoc]
    exact hmore.advance_one hhead hb

/-- Every step keeps up the count. -/
theorem step {slice : Nat → Nat → Prop} (h : Counted text before c) (hstep : Step slice c d) :
    ∃ more, Counted text (before ++ more) d := by
  have hstays : ∀ {test : UInt8 → Bool} {bytes : Bytes}, test (byte '\n') = false →
      (∀ b ∈ bytes, test b = true) → byte '\n' ∉ bytes := by
    intro test bytes hnewline hbytes hmem
    rw [hbytes _ hmem] at hnewline
    cases hnewline
  cases hstep with
  | blanks => exact h.settle
  | mark hhead hmark =>
    refine ⟨_, h.advance_one hhead ?_⟩
    rintro rfl
    cases hmark
  | token hcount hpos hbytes => exact ⟨_, h.advance hcount (hstays rfl hbytes)⟩
  | bracketed hhead hd hcount hbytes =>
    obtain ⟨more, hmore⟩ := (h.advance_one hhead (by decide)).settle
    rw [← hd, List.append_assoc] at hmore
    have hname := hmore.advance hcount (hstays rfl hbytes)
    rw [List.append_assoc] at hname
    exact ⟨_, hname⟩
  | quoted hhead hcount hline => exact ⟨_, h.advance hcount hline⟩
  | setting depth sawColon => exact ⟨[], by rw [List.append_nil]; exact ⟨h.passed, h.line, h.column⟩⟩

theorem walk {slice : Nat → Nat → Prop} (h : Counted text before c) (hwalk : Walk slice c d) :
    ∃ more, Counted text (before ++ more) d := by
  induction hwalk with
  | refl => exact ⟨[], by rwa [List.append_nil]⟩
  | tail _ hstep ih =>
    obtain ⟨more, hmore⟩ := ih
    obtain ⟨more', hmore'⟩ := hmore.step hstep
    exact ⟨more ++ more', by rwa [List.append_assoc] at hmore'⟩

end Counted

/-! ## Where errors point -/

section

variable {slice : Nat → Nat → Prop} {text : String} {d : Cursor}

/-- Malformed text is reported where reading stopped, without a newline that was just read in a
literal. -/
theorem Stops.malformed_position {line column : Nat} {fault : TextFault}
    (h : Stops (Step slice) (.new text) (.malformedText line column fault) d) :
    ∃ before, (Cursor.new text).Over before d ∧
      (fault.endsLine = false → line = lineBehind before ∧ column = columnBehind before) ∧
      (fault.endsLine = true → ∃ earlier, before = earlier ++ [byte '\n'] ∧
        line = lineBehind earlier ∧ column = columnBehind earlier + 1) := by
  cases h with
  | malformed hwalk hline =>
    obtain ⟨before, hover, hbefore, hcolumn⟩ := (Counted.new text).walk hwalk
    refine ⟨_, hover, fun _ => ⟨hbefore, ?_⟩, fun hends => ?_⟩
    · rw [columnBehind] at hcolumn ⊢
      omega
    · rw [hline] at hends
      cases hends
  | newline hwalk hhead hd hline =>
    rename_i u
    obtain ⟨earlier, hover, hearlier, hcolumn⟩ := (Counted.new text).walk hwalk
    rw [hd]
    refine ⟨_, hover.append (Cursor.over_advance_one hhead), fun hends => ?_, fun _ => ⟨_, rfl, hearlier, ?_⟩⟩
    · rw [hline] at hends
      cases hends
    · show u.position + 1 - u.lineStart + 1 = _
      rw [columnBehind] at hcolumn ⊢
      omega

/-- An unknown field is reported on the line where its name starts. -/
theorem Stops.unknown_position {name : String} {line : Nat}
    (h : Stops (Step slice) (.new text) (.unknownField name line) d) :
    ∃ before b more field u v, Utf8.encode text = before ++ b :: more ∧ startsName b = true ∧
      line = lineBehind before ∧ (Cursor.new text).Over before u ∧ u.rest = b :: more ∧
      Scan.fieldName u = .ok field v ∧ field.display = name ∧ Scan.colon v = .ok () d := by
  cases h with
  | unknown hwalk hsettled hname hcolon hwalk' =>
    rename_i u v field
    obtain ⟨before, hover, hbefore, -⟩ := (Counted.new text).walk hwalk
    have hstart := Scan.startsName_of_fieldName hname
    rw [hsettled] at hstart
    cases hrest : u.rest with
    | nil =>
      have hlt := Scan.shrinks_fieldName u field v hname
      rw [hrest] at hlt
      cases hlt
    | cons b more =>
      rw [hrest] at hstart
      refine ⟨_, b, more, field, u, v, ?_, hstart b rfl, hbefore, hover, hrest, hname, rfl, hcolon⟩
      exact hover.1.trans (by rw [hrest])

end

end Text

namespace Message

open Text

/-- An error of parsing points at the place where reading stopped: malformed text at its line and
column, but before a raw newline that was just read in a literal is counted, and an unknown field at
the line where its name starts. -/
theorem parse_error_line (options : ParseOptions) (type : MessageType) (text : String) {e : Error}
    (h : parse options type text = .error e) :
    (∀ line column fault, e = .malformedText line column fault →
      ∃ m d before, Text.mergeBody options none (new type, .new text) = .error e (m, d) ∧
        (Cursor.new text).Over before d ∧
        (fault.endsLine = false → line = lineBehind before ∧ column = columnBehind before) ∧
        (fault.endsLine = true → ∃ earlier, before = earlier ++ [byte '\n'] ∧
          line = lineBehind earlier ∧ column = columnBehind earlier + 1)) ∧
    (∀ name line, e = .unknownField name line →
      ∃ before b more field u v m d, Utf8.encode text = before ++ b :: more ∧
        startsName b = true ∧ line = lineBehind before ∧
        (Cursor.new text).Over before u ∧ u.rest = b :: more ∧
        Scan.fieldName u = .ok field v ∧ field.display = name ∧ Scan.colon v = .ok () d ∧
        Text.mergeBody options none (new type, .new text) = .error e (m, d)) := by
  rcases mergeBody_of_parse_error h with rfl | ⟨⟨m, d⟩, hrun⟩
  · exact ⟨fun _ _ _ he => (by cases he), fun _ _ he => (by cases he)⟩
  have hbody : Tracks (Step AnySlice) Prod.snd (Text.mergeBody options none) :=
    tracks_mergeBody none fun _ hclose => absurd hclose (Option.not_mem_none _)
  have hstops : Stops (Step AnySlice) (.new text) e d :=
    (hbody (.new text) (new type, .new text) .refl).stops hrun
  refine ⟨fun line column fault he => ?_, fun name line he => ?_⟩
  · rw [he] at hstops
    obtain ⟨before, hplace⟩ := hstops.malformed_position
    exact ⟨m, d, before, hrun, hplace⟩
  · rw [he] at hstops
    obtain ⟨before, b, more, field, u, v, htext, hb, hline, hover, hrest, hname, hshow, hcolon⟩ :=
      hstops.unknown_position
    exact ⟨before, b, more, field, u, v, m, d, htext, hb, hline, hover, hrest, hname, hshow,
      hcolon, hrun⟩

/-- The third line of a list of blocks has a field that their type does not declare. -/
theorem parse_error_line_list :
    parse {} .requiredForeign "repeated_message: [ # x\n \x7b a: 1 \x7d,\n < z: 2 >]" =
        .error (.unknownField "z" 3) ∧
      ∃ before b more, Utf8.encode "repeated_message: [ # x\n \x7b a: 1 \x7d,\n < z: 2 >]" =
        before ++ b :: more ∧ startsName b = true ∧ 3 = lineBehind before := by
  have h : parse {} .requiredForeign "repeated_message: [ # x\n \x7b a: 1 \x7d,\n < z: 2 >]" =
      .error (.unknownField "z" 3) := rfl
  obtain ⟨before, b, more, _, _, _, _, _, htext, hb, hline, -⟩ :=
    (parse_error_line {} .requiredForeign _ h).2 "z" 3 rfl
  exact ⟨h, before, b, more, htext, hb, hline⟩

end Message

end Protobuf
