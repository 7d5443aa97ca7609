import Protobuf.Proofs.Text.Literals
import Protobuf.Proofs.Text.Turns
import Protobuf.Proofs.Text.Walks

/-!
# Character boundaries

A text is read byte by byte, and reading may stop inside a character. All the same, a slice of the
text starts and ends between two characters: bytes below 128 are characters of their own, and none
stands inside another character (`Text.Cursor.InText.isSlice`). So whatever is asked of a parser, in
any order and whether or not it succeeds, the cursor stays within the text, walks over slices that
can be taken, and every turn of a loop reads a byte or ends it (`Text.reading_inText`).
-/

namespace Protobuf

open Build Relation

variable {α : Type}

namespace Text

/-! ## Cutting a text at a byte -/

/-- A byte below 128 spells the character with its number. -/
theorem utf8EncodeChar_ofNat {b : UInt8} (h : b.toNat < 128) :
    String.utf8EncodeChar (Char.ofNat b.toNat) = [b] := by
  have hvalid : b.toNat.isValidChar := Or.inl (by omega)
  have hchar : (Char.ofNat b.toNat).toNat = b.toNat := by
    rw [Char.ofNat, dif_pos hvalid]
    rfl
  rw [utf8EncodeChar_of_lt (by omega), byte, hchar, UInt8.ofNat_toNat]

theorem encode_ofAscii {bytes : Bytes} (h : ∀ b ∈ bytes, b.toNat < 128) :
    Utf8.encode (ofAscii bytes) = bytes := by
  rw [Utf8.encode, ofAscii, String.toList_ofList]
  induction bytes with
  | nil => rfl
  | cons b bytes ih =>
    obtain ⟨hb, hbytes⟩ := List.forall_mem_cons.1 h
    rw [List.map_cons, List.flatMap_cons, utf8EncodeChar_ofNat hb, ih hbytes,
      List.singleton_append]

/-- A byte below 128 is a character, and the text can be cut on both sides of it. -/
theorem exists_split_of_flatMap {cs : List Char} {before after : Bytes} {b : UInt8}
    (h : cs.flatMap String.utf8EncodeChar = before ++ b :: after) (hb : b.toNat < 128) :
    ∃ xs ys, cs = xs ++ Char.ofNat b.toNat :: ys ∧ xs.flatMap String.utf8EncodeChar = before ∧
      ys.flatMap String.utf8EncodeChar = after := by
  induction cs generalizing before with
  | nil => cases before <;> cases h
  | cons c cs ih =>
    rw [List.flatMap_cons] at h
    rcases List.append_eq_append_iff.1 h with ⟨rest, hbefore, hrest⟩ | ⟨rest, hc, hrest⟩
    · obtain ⟨xs, ys, rfl, hxs, hys⟩ := ih hrest
      exact ⟨c :: xs, ys, rfl, by rw [List.flatMap_cons, hxs, hbefore], hys⟩
    · cases rest with
      | nil =>
        rw [List.append_nil] at hc
        have hafter : cs.flatMap String.utf8EncodeChar = [] ++ b :: after := hrest.symm
        obtain ⟨xs, ys, rfl, hxs, hys⟩ := ih hafter
        exact ⟨c :: xs, ys, rfl, by rw [List.flatMap_cons, hxs, hc, List.append_nil], hys⟩
      | cons b' rest =>
        obtain ⟨rfl, hafter⟩ := List.cons.inj hrest
        by_cases hlt : c.toNat < 128
        · rw [utf8EncodeChar_of_lt hlt] at hc
          obtain ⟨rfl, hsingle⟩ : before = [] ∧ byte c :: [] = b :: rest := by
            cases before with
            | nil => exact ⟨rfl, hc⟩
            | cons x before => cases before <;> cases hc
          obtain ⟨hbyte, rfl⟩ := List.cons.inj hsingle
          have hchar : Char.ofNat b.toNat = c := by
            rw [← hbyte, toNat_byte hlt, Char.ofNat_toNat]
          exact ⟨[], cs, by rw [hchar]; rfl, rfl, hafter.symm⟩
        · have hmem : b ∈ String.utf8EncodeChar c := by
            rw [hc]
            exact List.mem_append_right _ List.mem_cons_self
          have hlarge := le_of_mem_utf8EncodeChar hlt hmem
          omega

/-- A string that starts with bytes below 128 starts with their characters. -/
theorem exists_ofAscii_append {bytes after : Bytes} (hbytes : ∀ b ∈ bytes, b.toNat < 128)
    {s : String} (h : Utf8.encode s = bytes ++ after) : ∃ t, s = ofAscii bytes ++ t := by
  induction bytes generalizing s with
  | nil => exact ⟨s, String.empty_append.symm⟩
  | cons b bytes ih =>
    obtain ⟨hb, hbytes⟩ := List.forall_mem_cons.1 hbytes
    have hsplit : s.toList.flatMap String.utf8EncodeChar = [] ++ b :: (bytes ++ after) := h
    obtain ⟨xs, ys, hcs, hxs, hys⟩ := exists_split_of_flatMap hsplit hb
    have hnil : xs = [] := by
      cases xs with
      | nil => rfl
      | cons x xs =>
        rw [List.flatMap_cons, List.append_eq_nil_iff] at hxs
        have hlength := String.length_utf8EncodeChar x
        rw [hxs.1, List.length_nil] at hlength
        exact absurd hlength.symm (Nat.ne_of_gt (Char.utf8Size_pos x))
    have hrest : Utf8.encode (String.ofList ys) = bytes ++ after := by
      rw [Utf8.encode, String.toList_ofList, hys]
    obtain ⟨t, ht⟩ := ih hbytes hrest
    refine ⟨t, ?_⟩
    calc s = String.ofList (Char.ofNat b.toNat :: ys) := by
          rw [← List.nil_append (_ :: ys), ← hnil, ← hcs, String.ofList_toList]
      _ = String.ofList [Char.ofNat b.toNat] ++ String.ofList ys := by
          rw [← String.ofList_append, List.singleton_append]
      _ = String.ofList [Char.ofNat b.toNat] ++ (ofAscii bytes ++ t) := by rw [ht]
      _ = ofAscii (b :: bytes) ++ t := by
          rw [← String.append_assoc, ofAscii, ofAscii, ← String.ofList_append, List.map_cons,
            List.singleton_append]

theorem lt_of_isBlank {b : UInt8} (h : isBlank b = true) : b.toNat < 128 := by
  have hspace : isSpace b = true := by rw [isSpace, h, Bool.true_or]
  have hlarge : decide (128 ≤ b.toNat) = false :=
    @test_of_isSpace (fun b => decide (128 ≤ b.toNat)) (by decide) b hspace
  exact Nat.lt_of_not_le (of_decide_eq_false hlarge)

theorem lt_of_isNameByte {b : UInt8} (h : isNameByte b = true) : b.toNat < 128 := by
  simp only [isNameByte, isNameStart, isDigit, Bool.or_eq_true, Bool.and_eq_true,
    decide_eq_true_eq, UInt8.le_iff_toNat_le] at h
  rcases h with ((⟨-, h⟩ | ⟨-, h⟩) | rfl) | ⟨-, h⟩
  · exact Nat.lt_of_le_of_lt h (by decide)
  · exact Nat.lt_of_le_of_lt h (by decide)
  · decide
  · exact Nat.lt_of_le_of_lt h (by decide)

theorem lt_of_isTokenByte {b : UInt8} (h : isTokenByte b = true) : b.toNat < 128 := by
  simp only [isTokenByte, Bool.or_eq_true, decide_eq_true_eq] at h
  rcases h with ((h | rfl) | rfl) | rfl
  · exact lt_of_isNameByte h
  all_goals decide

theorem lt_of_isBracketedByte {b : UInt8} (h : isBracketedByte b = true) : b.toNat < 128 := by
  simp only [isBracketedByte, Bool.or_eq_true, decide_eq_true_eq] at h
  rcases h with (h | rfl) | rfl
  · exact lt_of_isNameByte h
  all_goals decide

/-- The text can be cut at a position: it lies between two characters, or at an end. -/
def IsBoundary (text : String) (position : Nat) : Prop :=
  ∃ a b, text = a ++ b ∧ (Utf8.encode a).length = position

/-- From one position to another the text spells the string. -/
def IsSlice (text : String) (start stop : Nat) (s : String) : Prop :=
  ∃ a b, text = a ++ s ++ b ∧ (Utf8.encode a).length = start ∧ (Utf8.encode (a ++ s)).length = stop

/-- From one position to another the text has a slice. -/
def HasSlice (text : String) (start stop : Nat) : Prop := ∃ s, IsSlice text start stop s

/-- A slice lies inside the text, and both of its ends are boundaries. -/
theorem HasSlice.isBoundary {text : String} {start stop : Nat} (h : HasSlice text start stop) :
    start ≤ stop ∧ stop ≤ (Utf8.encode text).length ∧ IsBoundary text start ∧
      IsBoundary text stop := by
  obtain ⟨s, a, b, rfl, rfl, rfl⟩ := h
  refine ⟨?_, ?_, ⟨a, s ++ b, String.append_assoc .., rfl⟩, ⟨a ++ s, b, rfl, rfl⟩⟩
  · rw [Utf8.encode_append, List.length_append]
    exact Nat.le_add_right _ _
  · rw [Utf8.encode_append (a ++ s), List.length_append]
    exact Nat.le_add_right _ _

namespace Cursor

theorem Reaches.position_le {c d : Cursor} (h : c.Reaches d) : c.position ≤ d.position := by
  obtain ⟨⟨bytes, -, hposition⟩, -⟩ := h
  exact hposition ▸ Nat.le_add_right _ _

/-- The text can be cut where the cursor is. -/
def Cuts (text : String) (c : Cursor) : Prop :=
  ∃ a b, text = a ++ b ∧ (Utf8.encode a).length = c.position ∧ Utf8.encode b = c.rest

/-- The cursor is in the text, and its line starts no later than there. -/
structure InText (text : String) (c : Cursor) : Prop where
  rest : c.rest = (Utf8.encode text).drop c.position
  position : c.position ≤ (Utf8.encode text).length
  lineStart : c.lineStart ≤ c.position

theorem inText_new (text : String) : (Cursor.new text).InText text :=
  ⟨rfl, Nat.zero_le _, Nat.le_refl _⟩

namespace InText

variable {text : String} {c d : Cursor}

theorem advance (h : c.InText text) {count : Nat} (hcount : count ≤ c.rest.length) :
    (c.advance count).InText text := by
  obtain ⟨hrest, hposition, hline⟩ := h
  rw [hrest, List.length_drop] at hcount
  refine ⟨?_, ?_, Nat.le_trans hline (Nat.le_add_right _ _)⟩
  · show c.rest.drop count = (Utf8.encode text).drop (c.position + count)
    rw [hrest, List.drop_drop]
  · show c.position + count ≤ _
    omega

theorem advance_one (h : c.InText text) {b : UInt8} (hhead : c.rest.head? = some b) :
    (c.advance 1).InText text :=
  h.advance (List.length_pos_of_mem (List.mem_of_mem_head? hhead))

theorem newline (h : c.InText text) (hhead : c.rest.head? = some (byte '\n')) :
    c.newline.InText text :=
  ⟨(h.advance_one hhead).rest, (h.advance_one hhead).position, Nat.le_refl _⟩

theorem settle (h : c.InText text) : c.settle.InText text :=
  skipBlanks_keeps (fun _ hd hhead => hd.newline hhead) (fun _ _ hd hhead _ => hd.advance_one hhead)
    false rfl h

theorem encode_eq (h : c.InText text) :
    Utf8.encode text = (Utf8.encode text).take c.position ++ c.rest := by
  rw [h.rest, List.take_append_drop]

/-- Before and behind a byte below 128 the text can be cut. -/
theorem cuts_of_head (h : c.InText text) {b : UInt8} (hhead : c.rest.head? = some b)
    (hb : b.toNat < 128) : c.Cuts text ∧ (c.advance 1).Cuts text := by
  obtain ⟨bytes, hrest⟩ := List.head?_eq_some_iff.1 hhead
  have htext := h.encode_eq
  rw [hrest] at htext
  obtain ⟨xs, ys, hcs, hxs, hys⟩ := exists_split_of_flatMap htext hb
  have hone := utf8EncodeChar_ofNat hb
  have hlength : ((Utf8.encode text).take c.position).length = c.position :=
    List.length_take_of_le h.position
  have htoList : text = String.ofList (xs ++ Char.ofNat b.toNat :: ys) := by
    rw [← hcs, String.ofList_toList]
  refine ⟨⟨String.ofList xs, String.ofList (Char.ofNat b.toNat :: ys), ?_, ?_, ?_⟩,
    ⟨String.ofList (xs ++ [Char.ofNat b.toNat]), String.ofList ys, ?_, ?_, ?_⟩⟩
  · rw [htoList, String.ofList_append]
  · rw [Utf8.encode, String.toList_ofList, hxs, hlength]
  · rw [Utf8.encode, String.toList_ofList, List.flatMap_cons, hone, hys, hrest,
      List.singleton_append]
  · rw [htoList, ← String.ofList_append, List.append_assoc, List.singleton_append]
  · rw [Utf8.encode, String.toList_ofList, List.flatMap_append, hxs, List.flatMap_singleton, hone,
      List.length_append, hlength]
    rfl
  · rw [Utf8.encode, String.toList_ofList, hys, rest_advance_one hrest]

/-- Behind blanks and comments the text can be cut, if it can be before them or inside a comment. -/
theorem cuts_skipBlanks (h : c.InText text) (inComment : Bool) {bytes : Bytes}
    (hrest : c.rest = bytes) (hcuts : inComment = false → c.Cuts text) :
    (c.skipBlanks inComment bytes).Cuts text := by
  induction bytes generalizing c inComment with
  | nil =>
    refine ⟨text, "", String.append_empty.symm, ?_, hrest.symm⟩
    have hend := congrArg List.length h.rest
    rw [hrest, List.length_drop, List.length_nil] at hend
    have hposition := h.position
    show _ = c.position
    omega
  | cons b bytes ih =>
    have hhead : c.rest.head? = some b := by rw [hrest, List.head?_cons]
    have hone : (c.advance 1).InText text := h.advance_one hhead
    have htail : (c.advance 1).rest = bytes := rest_advance_one hrest
    unfold Cursor.skipBlanks
    split
    · rename_i hb
      exact ih (h.newline (hb ▸ hhead)) false htail
        fun _ => (h.cuts_of_head hhead (by rw [hb]; decide)).2
    · split
      · rename_i hblank
        refine ih hone inComment htail fun hcomment => (h.cuts_of_head hhead ?_).2
        rw [hcomment, Bool.false_or] at hblank
        exact lt_of_isBlank hblank
      · split
        · exact ih hone true htail fun hcomment => (by cases hcomment)
        · refine hcuts (Bool.eq_false_iff.2 fun hcomment => ?_)
          rename_i hblank _
          rw [hcomment] at hblank
          exact hblank rfl

/-- Bytes below 128 are a slice of the text, if it can be cut before them. -/
theorem isSlice_of_cuts (hcuts : c.Cuts text) {count : Nat} (hcount : count ≤ c.rest.length)
    (hbytes : ∀ b ∈ c.rest.take count, b.toNat < 128) :
    IsSlice text c.position (c.position + count) (ofAscii (c.rest.take count)) := by
  obtain ⟨a, s, htext, hposition, hrest⟩ := hcuts
  rw [← List.take_append_drop count c.rest] at hrest
  obtain ⟨t, hs⟩ := exists_ofAscii_append hbytes hrest
  refine ⟨a, t, ?_, hposition, ?_⟩
  · rw [htext, hs, String.append_assoc]
  · rw [Utf8.encode_append, List.length_append, encode_ofAscii hbytes, hposition,
      List.length_take_of_le hcount]

/-- Some bytes below 128 are a slice of the text, wherever they stand. -/
theorem isSlice (h : c.InText text) {count : Nat} (hcount : count ≤ c.rest.length)
    (hpos : 0 < count) (hbytes : ∀ b ∈ c.rest.take count, b.toNat < 128) :
    IsSlice text c.position (c.position + count) (ofAscii (c.rest.take count)) := by
  cases hrest : c.rest with
  | nil =>
    rw [hrest] at hcount
    exact absurd hpos (Nat.not_lt.2 hcount)
  | cons b bytes =>
    have hhead : c.rest.head? = some b := by rw [hrest, List.head?_cons]
    have hb : b ∈ c.rest.take count := by
      obtain ⟨count, rfl⟩ := Nat.exists_eq_succ_of_ne_zero (Nat.ne_of_gt hpos)
      rw [hrest, List.take_succ_cons]
      exact List.mem_cons_self
    rw [← hrest]
    exact isSlice_of_cuts (h.cuts_of_head hhead (hbytes b hb)).1 hcount hbytes

/-- What stands between brackets is a slice of the text, even if it is empty. -/
theorem isSlice_bracketed (h : c.InText text) (hhead : c.rest.head? = some (byte '['))
    (hd : d = (c.advance 1).settle) {count : Nat} (hcount : count ≤ d.rest.length)
    (hbytes : ∀ b ∈ d.rest.take count, isBracketedByte b = true) :
    IsSlice text d.position (d.position + count) (ofAscii (d.rest.take count)) := by
  have hone := h.advance_one hhead
  have hcuts : d.Cuts text := by
    rw [hd]
    exact hone.cuts_skipBlanks false rfl fun _ => (h.cuts_of_head hhead (by decide)).2
  exact isSlice_of_cuts hcuts hcount fun b hb => lt_of_isBracketedByte (hbytes b hb)

/-- A step stays in the text, and the slices that it takes are slices of the text. -/
theorem step (h : c.InText text) (hstep : Step AnySlice c d) :
    d.InText text ∧ Step (HasSlice text) c d := by
  cases hstep with
  | blanks => exact ⟨h.settle, .blanks c⟩
  | mark hhead hmark => exact ⟨h.advance_one hhead, .mark hhead hmark⟩
  | token hcount hpos hbytes hslice =>
    have hslice := h.isSlice hcount hpos fun b hb => lt_of_isTokenByte (hbytes b hb)
    exact ⟨h.advance hcount, .token hcount hpos hbytes ⟨_, hslice⟩⟩
  | bracketed hhead hd hcount hbytes hslice =>
    have hslice := h.isSlice_bracketed hhead hd hcount hbytes
    refine ⟨?_, .bracketed hhead hd hcount hbytes ⟨_, hslice⟩⟩
    subst hd
    exact (h.advance_one hhead).settle.advance hcount
  | quoted hhead hcount hline => exact ⟨h.advance hcount, .quoted hhead hcount hline⟩
  | setting depth sawColon =>
    exact ⟨⟨h.rest, h.position, h.lineStart⟩, .setting c depth sawColon⟩

theorem walk (h : c.InText text) (hwalk : Walk AnySlice c d) :
    d.InText text ∧ Walk (HasSlice text) c d := by
  induction hwalk with
  | refl => exact ⟨h, .refl⟩
  | tail _ hstep ih =>
    obtain ⟨hd, hslices⟩ := ih.1.step hstep
    exact ⟨hd, ih.2.tail hslices⟩

/-- Where reading stops is in the text, behind slices of it. -/
theorem stops (h : c.InText text) {e : Error} (hstops : Stops (Step AnySlice) c e d) :
    d.InText text ∧
      (∃ u, Walk (HasSlice text) c u ∧
        (d = u ∨ u.rest.head? = some (byte '\n') ∧ d = u.advance 1)) ∧
      ∀ line column fault, e = .malformedText line column fault →
        d.lineStart + column = d.position + 1 := by
  have hcolumn : ∀ {u : Cursor} {line : Nat} {fault : TextFault}, u.InText text →
      ∀ line' column' fault', Error.malformedText line (u.position - u.lineStart + 1) fault =
        .malformedText line' column' fault' → u.lineStart + column' = u.position + 1 := by
    intro u line fault hu line' column' fault' heq
    cases heq
    have hline := hu.lineStart
    omega
  cases hstops with
  | malformed hwalk _ =>
    obtain ⟨hd, hslices⟩ := h.walk hwalk
    exact ⟨hd, ⟨d, hslices, .inl rfl⟩, hcolumn hd⟩
  | newline hwalk hhead hd _ =>
    obtain ⟨hu, hslices⟩ := h.walk hwalk
    have hd' : d.InText text := hd ▸ hu.advance_one hhead
    exact ⟨hd', ⟨_, hslices, .inr ⟨hhead, hd⟩⟩, hcolumn hd'⟩
  | unknown _ _ _ _ hwalk =>
    obtain ⟨hd, hslices⟩ := h.walk hwalk
    exact ⟨hd, ⟨d, hslices, .inl rfl⟩, fun _ _ _ heq => (by cases heq)⟩
  | depth hwalk =>
    obtain ⟨hd, hslices⟩ := h.walk hwalk
    exact ⟨hd, ⟨d, hslices, .inl rfl⟩, fun _ _ _ heq => (by cases heq)⟩
  | type hwalk =>
    obtain ⟨hd, hslices⟩ := h.walk hwalk
    exact ⟨hd, ⟨d, hslices, .inl rfl⟩, fun _ _ _ heq => (by cases heq)⟩

end InText

end Cursor

/-! ## What is taken from the text -/

namespace Scan

variable {text : String} {c d : Cursor}

/-- The bytes that pass a test are taken from the text, if there are any. -/
theorem isSlice_of_takeWhile (h : c.InText text) {test : UInt8 → Bool}
    (hhead : c.rest.head?.any test = true) (htest : ∀ b, test b = true → isTokenByte b = true) :
    IsSlice text c.position (c.position + (c.rest.takeWhile test).length)
      (ofAscii (c.rest.takeWhile test)) := by
  have hslice := h.isSlice (List.takeWhile_sublist test).length_le
    (length_takeWhile_pos hhead) fun b hb => ?_
  · rwa [take_length_takeWhile] at hslice
  · rw [take_length_takeWhile] at hb
    exact lt_of_isTokenByte (htest b (List.mem_takeWhile_imp hb))

/-- A name that is read is the slice of the text where it stands. -/
theorem isSlice_of_identifier (h : c.InText text) {name : String}
    (hrun : identifier c = .ok (some name) d) : IsSlice text c.settle.position d.position name := by
  rw [identifier, run_bind_of_ok (show blanks c = .ok () c.settle from rfl),
    run_bind_of_ok (run_get c.settle)] at hrun
  by_cases hhead : c.settle.rest.head?.any isNameStart = true
  · rw [if_pos hhead] at hrun
    cases hrun
    refine isSlice_of_takeWhile h.settle ?_ fun b => isTokenByte_of_isNameByte
    rw [Option.any_eq_true] at hhead ⊢
    obtain ⟨b, hb, hstart⟩ := hhead
    exact ⟨b, hb, isNameByte_of_isNameStart hstart⟩
  · rw [if_neg hhead] at hrun
    cases hrun

theorem take_length_numberSpan (hexadecimal afterE : Bool) (bytes : Bytes) :
    bytes.take (numberSpan hexadecimal afterE bytes).length =
      numberSpan hexadecimal afterE bytes := by
  induction bytes generalizing afterE with
  | nil => rfl
  | cons b bytes ih =>
    unfold numberSpan
    split
    · rw [List.length_cons, List.take_succ_cons, ih]
    · rfl

theorem numberBody_eq_ok {negative : Prop} [Decidable negative] {token : String}
    (hrun : (do
      let c ← get
      let body := numberSpan (startsHexadecimal c.rest) false c.rest
      set (c.advance body.length)
      if body.isEmpty then fail .expectedNumber
      return ofAscii (if negative then byte '-' :: body else body) : Scan String) c =
        .ok token d) :
    ∃ count, 0 < count ∧ count ≤ c.rest.length ∧
      (∀ b ∈ c.rest.take count, isTokenByte b = true) ∧ d = c.advance count ∧
      token = ofAscii (if negative then byte '-' :: c.rest.take count else c.rest.take count) := by
  rw [run_bind_of_ok (run_get c), run_bind_of_ok (run_set _ c)] at hrun
  have hbytes := isTokenByte_of_mem_numberSpan (startsHexadecimal c.rest) false c.rest
  have htake := take_length_numberSpan (startsHexadecimal c.rest) false c.rest
  have hle := length_numberSpan_le (startsHexadecimal c.rest) false c.rest
  cases hbody : numberSpan (startsHexadecimal c.rest) false c.rest with
  | nil =>
    rw [hbody] at hrun
    cases hrun
  | cons b body =>
    rw [hbody] at hrun htake hbytes hle
    cases hrun
    exact ⟨(b :: body).length, Nat.succ_pos _, hle, hbytes, rfl, by rw [htake]⟩

/-- A number or a word that is read is the slice of the text where it stands. -/
theorem isSlice_of_numberToken (h : c.InText text) {token : String}
    (hrun : numberToken c = .ok token d) : IsSlice text c.settle.position d.position token := by
  rw [numberToken, run_bind_of_ok (show blanks c = .ok () c.settle from rfl),
    run_bind_of_ok (run_get c.settle)] at hrun
  by_cases hminus : c.settle.rest.head? = some (byte '-')
  · obtain ⟨bytes, hrest⟩ := List.head?_eq_some_iff.1 hminus
    have htail : (c.settle.advance 1).rest = bytes := Cursor.rest_advance_one hrest
    rw [if_pos hminus, run_bind_of_ok (run_modify _ _)] at hrun
    obtain ⟨count, hpos, hcount, hbytes, rfl, rfl⟩ := numberBody_eq_ok hrun
    rw [htail] at hcount hbytes ⊢
    rw [if_pos hminus, advance_advance]
    have htake : c.settle.rest.take (1 + count) = byte '-' :: bytes.take count := by
      rw [hrest, Nat.add_comm, List.take_succ_cons]
    rw [← htake]
    refine h.settle.isSlice ?_ (by omega) ?_
    · rw [hrest, List.length_cons]
      omega
    · rw [htake]
      exact List.forall_mem_cons.2 ⟨by decide, fun b hb => lt_of_isTokenByte (hbytes b hb)⟩
  · rw [if_neg hminus] at hrun
    obtain ⟨count, hpos, hcount, hbytes, rfl, rfl⟩ := numberBody_eq_ok hrun
    rw [if_neg hminus]
    exact h.settle.isSlice hcount hpos fun b hb => lt_of_isTokenByte (hbytes b hb)

/-- The name is the string, or the string is its number in digits. -/
def Denotes (s : String) (name : FieldName) : Prop :=
  name = .plain s ∨ name = .bracketed s ∨ name = .number (decimalValue (Utf8.encode s))

theorem denotes_of_fieldNumber (h : c.InText text) (hdigit : c.rest.head?.any isDigit = true)
    {name : FieldName} (hrun : fieldNumber c = .ok name d) :
    ∃ s, IsSlice text c.position d.position s ∧ Denotes s name := by
  have hslice := isSlice_of_takeWhile h hdigit
    fun b hb => isTokenByte_of_isNameByte (isNameByte_of_isDigit hb)
  have henc : Utf8.encode (ofAscii (c.rest.takeWhile isDigit)) = c.rest.takeWhile isDigit :=
    encode_ofAscii fun b hb => lt_of_isNameByte (isNameByte_of_isDigit (List.mem_takeWhile_imp hb))
  have hspan : span isDigit c = .ok (c.rest.takeWhile isDigit)
      (c.advance (c.rest.takeWhile isDigit).length) := rfl
  rw [fieldNumber_eq, run_bind_of_ok hspan, run_bind_of_ok (run_get _)] at hrun
  by_cases hname : (c.advance (c.rest.takeWhile isDigit).length).rest.head?.any isNameByte = true
  · rw [if_pos hname] at hrun
    cases hrun
  · rw [if_neg hname] at hrun
    dsimp only at hrun
    by_cases hvalue : decimalValue (c.rest.takeWhile isDigit) = 0 ∨
        maxFieldNumber < decimalValue (c.rest.takeWhile isDigit)
    · rw [if_pos hvalue] at hrun
      cases hrun
    · rw [if_neg hvalue] at hrun
      cases hrun
      exact ⟨_, hslice, .inr (.inr (by rw [henc]))⟩

theorem position_le_of_moves {x : Scan α} (hx : Moves id x) {a : α} (h : x c = .ok a d) :
    c.position ≤ d.position :=
  ((hx c).before h).reaches.position_le

theorem denotes_of_bracketedName (h : c.InText text) (hhead : c.rest.head? = some (byte '['))
    {name : FieldName} (hrun : bracketedName c = .ok name d) :
    ∃ start stop s, c.position ≤ start ∧ stop ≤ d.position ∧ IsSlice text start stop s ∧
      Denotes s name := by
  let u := (c.advance 1).settle
  let inner := u.rest.takeWhile isBracketedByte
  have hslice := h.isSlice_bracketed hhead rfl (List.takeWhile_sublist isBracketedByte).length_le
    fun b hb => List.mem_takeWhile_imp (take_length_takeWhile _ _ ▸ hb)
  rw [take_length_takeWhile] at hslice
  have hblanks : blanks (c.advance 1) = .ok () u := rfl
  have hstart : c.position ≤ u.position :=
    Nat.le_trans (Nat.le_add_right c.position 1) (position_le_of_moves moves_blanks hblanks)
  have hbegin : bracketedName c = (do
      if inner.isEmpty then fail .emptyBracketedName
      expect ']'
      return .bracketed (ofAscii inner) : Scan FieldName) (u.advance inner.length) := rfl
  rw [hbegin] at hrun
  by_cases hempty : inner.isEmpty = true
  · rw [if_pos hempty] at hrun
    cases hrun
  · rw [if_neg hempty] at hrun
    obtain ⟨_, v, hv, hname⟩ := bind_eq_ok.1 hrun
    cases hname
    exact ⟨_, _, _, hstart, position_le_of_moves (moves_expect ']') hv, hslice, .inr (.inl rfl)⟩

/-- The name of a field is taken from the text. -/
theorem denotes_of_fieldName (h : c.InText text) {name : FieldName}
    (hrun : fieldName c = .ok name d) :
    ∃ start stop s, c.position ≤ start ∧ stop ≤ d.position ∧ IsSlice text start stop s ∧
      Denotes s name := by
  have hsettle : c.position ≤ c.settle.position := position_le_of_moves moves_blanks rfl
  rw [fieldName, run_bind_of_ok (run_peek c)] at hrun
  by_cases hdigit : c.settle.rest.head?.any isDigit = true
  · rw [if_pos hdigit] at hrun
    obtain ⟨s, hslice, hdenotes⟩ := denotes_of_fieldNumber h.settle hdigit hrun
    exact ⟨_, _, s, hsettle, Nat.le_refl _, hslice, hdenotes⟩
  · rw [if_neg hdigit] at hrun
    by_cases hbracket : c.settle.rest.head? = some (byte '[')
    · rw [if_pos hbracket] at hrun
      obtain ⟨start, stop, s, hstart, hplace⟩ := denotes_of_bracketedName h.settle hbracket hrun
      exact ⟨start, stop, s, Nat.le_trans hsettle hstart, hplace⟩
    · rw [if_neg hbracket] at hrun
      obtain ⟨found, u, hu, hrun⟩ := bind_eq_ok.1 hrun
      cases found with
      | none => cases hrun
      | some s =>
        cases hrun
        have hslice := isSlice_of_identifier h.settle hu
        rw [Cursor.settle_settle] at hslice
        exact ⟨_, _, s, hsettle, Nat.le_refl _, hslice, .inl rfl⟩

end Scan

/-! ## Whatever is asked of a parser -/

section

variable {options : ParseOptions} {text : String} {c d : Cursor}

theorem Operation.inText_of_ok (op : Operation) (h : c.InText text)
    (hrun : op.perform options c = .ok () d) : d.InText text ∧ Walk (HasSlice text) c d :=
  h.walk ((op.tracks_perform options c c .refl).walks hrun)

theorem Operation.inText_of_error (op : Operation) (h : c.InText text) {e : Error}
    (hrun : op.perform options c = .error e d) :
    d.InText text ∧
      (∃ u, Walk (HasSlice text) c u ∧
        (d = u ∨ u.rest.head? = some (byte '\n') ∧ d = u.advance 1)) ∧
      ∀ line column fault, e = .malformedText line column fault →
        d.lineStart + column = d.position + 1 :=
  h.stops ((op.tracks_perform options c c .refl).stops hrun)

theorem Operation.inText_after (op : Operation) (h : c.InText text) :
    (op.after options c).InText text := by
  unfold Operation.after
  cases hrun : op.perform options c with
  | ok a d => exact (op.inText_of_ok h hrun).1
  | error e d => exact (op.inText_of_error h hrun).1

theorem inText_run (options : ParseOptions) (ops : List Operation) (h : c.InText text) :
    (run options ops c).InText text := by
  induction ops generalizing c with
  | nil => exact h
  | cons op ops ih => exact ih (op.inText_after h)

end

/-- Whatever is asked of a parser, in any order and whether or not it succeeds, the cursor stays in
the text, does not go back and never stands before the start of its line. It walks over slices whose
ends are boundaries of characters; only a raw newline may have been read behind the last step.
Names, numbers and words are slices of the text wherever they are read. Every turn of a loop reads a
byte or ends the loop, so each loop ends: no other loop goes on by the same turns. -/
theorem reading_inText (options : ParseOptions) (text : String) :
    (∀ (before : List Operation) (next : Operation),
      let c := run options before (.new text)
      c.InText text ∧
      (∀ d, next.perform options c = .ok () d →
        d.InText text ∧ c.position ≤ d.position ∧ Walk (HasSlice text) c d) ∧
      ∀ e d, next.perform options c = .error e d →
        d.InText text ∧ c.position ≤ d.position ∧
        (∃ u, Walk (HasSlice text) c u ∧
          (d = u ∨ u.rest.head? = some (byte '\n') ∧ d = u.advance 1)) ∧
        ∀ line column fault, e = .malformedText line column fault →
          d.lineStart + column = d.position + 1) ∧
    (∀ start stop, HasSlice text start stop → start ≤ stop ∧ stop ≤ (Utf8.encode text).length ∧
      IsBoundary text start ∧ IsBoundary text stop) ∧
    (∀ c : Cursor, c.InText text →
      (∀ name d, Scan.identifier c = .ok (some name) d →
        IsSlice text c.settle.position d.position name) ∧
      (∀ token d, Scan.numberToken c = .ok token d →
        IsSlice text c.settle.position d.position token) ∧
      ∀ name d, Scan.fieldName c = .ok name d → ∃ start stop s, c.position ≤ start ∧
        stop ≤ d.position ∧ IsSlice text start stop s ∧ Scan.Denotes s name) ∧
    Ends Prod.snd (mergeTurn options) (Text.mergeBody options) ∧
    Ends id (Scan.skipTurn options.depthLimit) (Scan.passLoop options.depthLimit) ∧
    (∀ element : Operation, Ends Prod.snd
      (fun next (_ : Unit) => Scan.listTurn (element.perform options) (next ()))
      fun _ => Scan.listLoop (element.perform options)) ∧
    (∀ kind, Ends Prod.snd (fun next (_ : Unit) => Scan.listTurn (Scan.scalar kind) (next ()))
      fun _ => Scan.listLoop (Scan.scalar kind)) ∧
    (∀ kind, Ends Prod.snd
      (fun next (_ : Unit) => Scan.listTurn
        (Text.value options.depthLimit (Text.mergeBody options) kind) (next ()))
      fun _ => Scan.listLoop (Text.value options.depthLimit (Text.mergeBody options) kind)) ∧
    (∀ key value : Operation, Ends Prod.snd
      (Scan.entryTurn (key.perform options) (value.perform options))
      (Scan.entryLoop (key.perform options) (value.perform options))) ∧
    (∀ key kind, Ends Prod.snd
      (Scan.entryTurn (Scan.scalar key)
        (Text.value options.depthLimit (Text.mergeBody options) kind))
      (Scan.entryLoop (Scan.scalar key)
        (Text.value options.depthLimit (Text.mergeBody options) kind))) ∧
    Ends Prod.snd (fun next (_ : Unit) => Scan.literalsTurn (next ()))
      (fun _ => Scan.literalsLoop) ∧
    Ends Prod.snd Scan.literalTurn Scan.literalLoop := by
  refine ⟨fun before next => ?_, fun start stop h => h.isBoundary, fun c hc => ⟨?_, ?_, ?_⟩,
    ends_mergeBody options, Scan.ends_passLoop _, fun element => ?_, fun kind => ?_,
    fun kind => ?_, fun key value => ?_, fun key kind => ?_, Scan.ends_literalsLoop,
    Scan.ends_literalLoop⟩
  · have hc : (run options before (.new text)).InText text :=
      inText_run options before (Cursor.inText_new text)
    refine ⟨hc, fun d hrun => ?_, fun e d hrun => ?_⟩
    · obtain ⟨hd, hwalk⟩ := next.inText_of_ok hc hrun
      have hreaches := ((next.moves_perform options _).before hrun).reaches
      exact ⟨hd, hreaches.position_le, hwalk⟩
    · obtain ⟨hd, hstops⟩ := next.inText_of_error hc hrun
      exact ⟨hd, ((next.moves_perform options _).reaches hrun).position_le, hstops⟩
  · exact fun name d hrun => Scan.isSlice_of_identifier hc hrun
  · exact fun token d hrun => Scan.isSlice_of_numberToken hc hrun
  · exact fun name d hrun => Scan.denotes_of_fieldName hc hrun
  · exact Scan.ends_listLoop (element.moves_perform options)
  · exact Scan.ends_listLoop (Scan.moves_scalar kind)
  · exact Scan.ends_listLoop (moves_value moves_mergeBody kind)
  · exact Scan.ends_entryLoop (key.moves_perform options) (value.moves_perform options)
  · exact Scan.ends_entryLoop (Scan.moves_scalar key) (moves_value moves_mergeBody kind)

end Text

end Protobuf
