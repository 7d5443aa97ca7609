import Mathlib.Data.List.Nodup
import Protobuf.Proofs.ReadingBack
import Protobuf.Proofs.Text.Lines

/-!
# Merging the lines of a member

What is printed for a member of a message is merged into the slot that it was printed for, if every
message inside is read back from its own lines (`merges_visits`).
-/

namespace Protobuf

open Build

/-- What is printed behind the label of a value, given the lines of a message. -/
def FieldValue.piece {M : Type} (body : M → List Text.Line) : FieldValue M → Text.Piece
  | scalar s => .text (Text.scalarText s)
  | message m | group m => .block (body m)

/-- The scalars among what is written. -/
def FieldValue.scalars {M : Type} : FieldValue M → List Scalar
  | scalar s => [s]
  | message _ | group _ => []

/-- The scalars that are written, the key of a map entry included. -/
def Visit.scalars {M : Type} : Visit M → List Scalar
  | field _ _ value => value.scalars
  | packed _ _ ss => ss
  | mapEntry _ _ key value => key :: value.scalars

namespace Text

theorem valueLines_eq {M : Type} (body : M → List Line) (label : String) (v : FieldValue M) :
    valueLines body label v = (v.piece body).lines label := by
  cases v <;> rfl

/-! ## Values -/

/-- The text of a value starts as a scalar does. -/
def Piece.Starts : Piece → Prop
  | text value => ∃ b rest, Utf8.encode value = b :: rest ∧ startsScalar b = true
  | block _ => True

theorem FieldValue.starts_piece {M : Type} (body : M → List Line) {v : FieldValue M}
    (hv : ∀ x ∈ v.scalars, x.isFloating = false) : (v.piece body).Starts := by
  cases v with
  | scalar s => exact exists_head_scalarText (hv s List.mem_cons_self)
  | message m | group m => trivial

theorem Piece.Starts.head?_ne {piece : Piece} (h : piece.Starts) {inner : Bytes}
    (hinner : piece.Spells inner) (more : Bytes) :
    (strip (inner ++ more)).head? ≠ some (byte '#') ∧
      (strip (inner ++ more)).head? ≠ some (byte '[') := by
  cases piece with
  | text value =>
    obtain ⟨b, rest, htext, hb⟩ := h
    obtain rfl := hinner
    have hstrip : strip (byte ' ' :: (Utf8.encode value ++ [byte '\n']) ++ more) =
        b :: (rest ++ [byte '\n'] ++ more) := by
      rw [List.cons_append, strip_cons_of_isSpace (by decide), htext, List.cons_append,
        List.cons_append, strip_of_not_isSpace (not_isSpace_of_test (by decide) hb)]
    rw [hstrip]
    exact ⟨fun heq => ne_of_test hb (by decide) (Option.some.inj heq),
      fun heq => ne_of_test hb (by decide) (Option.some.inj heq)⟩
  | block body =>
    obtain ⟨x, y, rfl, -, -⟩ := hinner
    rw [List.cons_append, strip_of_not_isSpace (by decide), List.head?_cons]
    exact ⟨by decide, by decide⟩

section

variable {options : ParseOptions} {depth : Nat}

theorem spans_scalar (depth : Nat) {x : Scalar} (hx : x.isFloating = false) :
    Spans depth (.text (scalarText x)) fun _ c c' => Scan.scalar x.kind c = .ok x c' := by
  refine ⟨List.forall_mem_nil _, ?_⟩
  rintro inner more rounds c rfl hmore - hc
  obtain ⟨b, rest, htext, hb⟩ := exists_head_scalarText hx
  have hstrip : strip (byte ' ' :: (Utf8.encode (scalarText x) ++ [byte '\n']) ++ more) =
      Utf8.encode (scalarText x) ++ byte '\n' :: more := by
    rw [List.cons_append, strip_cons_of_isSpace (by decide), List.append_assoc,
      List.singleton_append, htext, List.cons_append,
      strip_of_not_isSpace (not_isSpace_of_test (by decide) hb)]
  obtain ⟨c', hread, hc'⟩ := Scan.reads_scalar hx hstrip hmore c hc
  exact ⟨c', true, hread, hc'.of_strip_eq (strip_cons_of_isSpace (by decide) more)⟩

/-- Where so many blocks are open, the message is read back from the lines. -/
def Restores (options : ParseOptions) (depth : Nat) (body : List Line) (m : Message) : Prop :=
  depth ≤ options.depthLimit ∧ Merges options depth body (.new m.type) m.inBytes

theorem spans_message {body : List Line} {m : Message} (h : Restores options (depth + 1) body m) :
    Spans depth (.block body) fun rounds c c' =>
      alone (.new m.type) (block options.depthLimit (mergeFields options rounds)) c =
        .ok m.inBytes c' :=
  (spans_block h.1 h.2).imp fun _ _ _ hrun => alone_eq_ok.2 hrun

/-- A value is read back if its message is. -/
theorem spans_value {kind : FieldKind} {v : Value Message} (hv : kind.Fits v)
    (hplain : ∀ x ∈ (FieldValue.ofValue kind v).scalars, x.isFloating = false)
    {body : Message → List Line}
    (h : ∀ m ∈ v.children, Restores options (depth + 1) (body m) m) :
    Spans depth ((FieldValue.ofValue kind v).piece body) fun rounds c c' =>
      value options.depthLimit (mergeFields options rounds) kind c =
        .ok (v.map Message.inBytes) c' := by
  cases kind with
  | scalar kind =>
    cases v with
    | scalar s =>
      have hs : s.kind = kind := hv
      have hread := spans_scalar depth (hplain s List.mem_cons_self)
      rw [hs] at hread
      exact hread.imp fun _ _ _ hrun => map_eq_ok.2 ⟨s, hrun, rfl⟩
    | message m => exact hv.elim
  | message type | group type =>
    cases v with
    | scalar s => exact hv.elim
    | message m =>
      have hread := spans_message (h m (List.mem_singleton_self m))
      rw [show m.type = type from hv] at hread
      exact hread.imp fun _ _ _ hrun => map_eq_ok.2 ⟨m.inBytes, hrun, rfl⟩

/-- One element of a repeated field is appended. -/
theorem spans_repeated {α : Type} {read : Nat → Scan α} {a : α} {piece : Piece}
    (hstarts : piece.Starts) (h : Spans depth piece fun rounds c c' => read rounds c = .ok a c')
    (as : List α) :
    Spans depth piece fun rounds c c' =>
      Scan.repeated (read rounds) (as, c) = .ok () (as ++ [a], c') := by
  refine ⟨h.leads, fun inner more rounds c hinner hmore hrounds hc => ?_⟩
  obtain ⟨hhash, hbracket⟩ := hstarts.head?_ne hinner more
  obtain ⟨c1, htry, hc1⟩ := Scan.finds_tryChar_false '[' hhash hbracket c hc
  obtain ⟨c2, saw, hread, hc2⟩ := h.run hinner hmore hrounds hc1.of_strip
  refine ⟨c2, saw, ?_, hc2⟩
  show Scan.repeated (read rounds) (as, c) = _
  rw [Scan.repeated, run_bind_of_ok (read_eq_ok.2 ⟨htry, rfl⟩)]
  exact run_bind_of_ok (read_eq_ok.2 ⟨hread, rfl⟩)

end

/-! ## Map entries -/

namespace Scan

variable {κ ν : Type} {depth : Nat} {bytes more : Bytes} {c : Cursor} {saw : Bool}

/-- The label of a field of a map entry is read. -/
theorem exists_entry_header {label : String} (hlabel : isIdentifier label.toList = true)
    {piece : Piece} (h : Spells (piece.lines label) bytes)
    (hc : c.Shows (depth, saw) (bytes ++ more)) :
    ∃ (inner : Bytes) (n : Nat) (c0 c1 c2 c3 : Cursor), piece.Spells inner ∧
      inner.length < bytes.length ∧ tryChar '\x7d' c = .ok false c0 ∧ line c0 = .ok n c1 ∧
      fieldName c1 = .ok (.plain label) c2 ∧ colon c2 = .ok () c3 ∧
      c3.Shows (depth, piece.hasColon) (inner ++ more) := by
  have hname : (FieldName.plain label).ReadFrom label := by
    have hread := FieldName.readFrom_ofLabel label (by rw [isLabel, hlabel]; rfl)
    rwa [FieldName.ofLabel, if_pos hlabel] at hread
  obtain ⟨_, -, -, hstrip⟩ := piece.exists_spells h
  obtain ⟨b, rest, htext, hlead, hb⟩ := hname.starts
  have hhead : (strip (bytes ++ more)).head? = some b := by
    rw [hstrip, htext]
    rfl
  have hne : ∀ b', b ≠ b' → (strip (bytes ++ more)).head? ≠ some b' := by
    intro b' hb' heq
    rw [hhead] at heq
    exact hb' (Option.some.inj heq)
  obtain ⟨c0, htry, hc0⟩ :=
    finds_tryChar_false '\x7d' (hne _ (ne_of_test hlead (by decide))) (hne _ hb) c hc
  obtain ⟨inner, n, c1, c2, c3, hinner, hlt, hline, hfield, hcolon, hc3⟩ :=
    exists_header hname h hc0.of_strip
  exact ⟨inner, n, c0, c1, c2, c3, hinner, hlt, htry, hline, hfield, hcolon, hc3⟩

theorem entryFields_key {readKey : Scan κ} (readValue : Scan ν) (rounds : Nat) {piece : Piece}
    (h : Spells (piece.lines "key") bytes) (hmore : Follows more) {key : κ}
    (hread : Spans depth piece fun _ c c' => readKey c = .ok key c') (entry : κ × ν)
    (hc : c.Shows (depth, saw) (bytes ++ more)) :
    ∃ c' saw', c'.Shows (depth, saw') more ∧
      entryFields readKey readValue '\x7d' (rounds + 1) (entry, c) =
        entryFields readKey readValue '\x7d' rounds ((key, entry.2), c') := by
  obtain ⟨inner, n, c0, c1, c2, c3, hinner, -, htry, hline, hfield, hcolon, hc3⟩ :=
    exists_entry_header (by decide) h hc
  obtain ⟨c4, saw4, hkey, hc4⟩ := hread.run hinner hmore (Nat.lt_succ_self _) hc3
  obtain ⟨c5, hseparator, hc5⟩ := reads_separator hmore c4 hc4
  refine ⟨c5, saw4, hc5, ?_⟩
  rw [entryFields, run_bind_of_ok (read_eq_ok.2 ⟨htry, rfl⟩)]
  refine (run_bind_of_ok (read_eq_ok.2 ⟨hline, rfl⟩)).trans ?_
  rw [run_bind_of_ok (read_eq_ok.2 ⟨hfield, rfl⟩), run_bind_of_ok (read_eq_ok.2 ⟨hcolon, rfl⟩),
    if_pos rfl, run_bind_of_ok (read_eq_ok.2 ⟨hkey, rfl⟩)]
  exact (run_bind_of_ok (run_update _ _ _)).trans
    (run_bind_of_ok (read_eq_ok.2 ⟨hseparator, rfl⟩))

theorem entryFields_value (readKey : Scan κ) (rounds : Nat) {piece : Piece}
    (h : Spells (piece.lines "value") bytes) (hmore : Follows more) {readValue : Nat → Scan ν}
    {value : ν}
    (hread : Spans depth piece fun rounds c c' => readValue rounds c = .ok value c')
    (entry : κ × ν) {limit : Nat} (hlimit : (bytes ++ more).length < limit)
    (hc : c.Shows (depth, saw) (bytes ++ more)) :
    ∃ c' saw', c'.Shows (depth, saw') more ∧
      entryFields readKey (readValue limit) '\x7d' (rounds + 1) (entry, c) =
        entryFields readKey (readValue limit) '\x7d' rounds ((entry.1, value), c') := by
  obtain ⟨inner, n, c0, c1, c2, c3, hinner, hlt, htry, hline, hfield, hcolon, hc3⟩ :=
    exists_entry_header (by decide) h hc
  rw [List.length_append] at hlimit
  have hlen : (inner ++ more).length < limit := by
    rw [List.length_append]
    omega
  obtain ⟨c4, saw4, hvalue, hc4⟩ := hread.run hinner hmore hlen hc3
  obtain ⟨c5, hseparator, hc5⟩ := reads_separator hmore c4 hc4
  refine ⟨c5, saw4, hc5, ?_⟩
  rw [entryFields, run_bind_of_ok (read_eq_ok.2 ⟨htry, rfl⟩)]
  refine (run_bind_of_ok (read_eq_ok.2 ⟨hline, rfl⟩)).trans ?_
  rw [run_bind_of_ok (read_eq_ok.2 ⟨hfield, rfl⟩), run_bind_of_ok (read_eq_ok.2 ⟨hcolon, rfl⟩),
    if_neg (by decide), if_pos rfl, run_bind_of_ok (read_eq_ok.2 ⟨hvalue, rfl⟩)]
  exact (run_bind_of_ok (run_update _ _ _)).trans
    (run_bind_of_ok (read_eq_ok.2 ⟨hseparator, rfl⟩))

end Scan

/-- A map entry is read back if its key and its value are. -/
theorem spans_mapEntry {κ ν : Type} {depth limit : Nat} (hd : depth + 1 ≤ limit)
    {keyPiece valuePiece : Piece} {readKey : Scan κ} {readValue : Nat → Scan ν} {key : κ}
    {value : ν} (hkey : Spans (depth + 1) keyPiece fun _ c c' => readKey c = .ok key c')
    (hvalue : Spans (depth + 1) valuePiece fun rounds c c' => readValue rounds c = .ok value c')
    (zero : κ × ν) :
    Spans depth (.block (keyPiece.lines "key" ++ valuePiece.lines "value")) fun rounds c c' =>
      Scan.mapEntry limit zero readKey (readValue rounds) c = .ok (key, value) c' := by
  have hkeyname := FieldName.readFrom_ofLabel "key" (by decide)
  have hvaluename := FieldName.readFrom_ofLabel "value" (by decide)
  refine ⟨List.forall_mem_append.2 ⟨leads_lines hkeyname hkey.leads,
    leads_lines hvaluename hvalue.leads⟩, ?_⟩
  rintro inner more rounds c ⟨x, y, rfl, hx, hy⟩ hmore hrounds hc
  obtain ⟨u, v, rfl, hu, hv⟩ := hx.split
  have hopen := strip_of_not_isSpace (b := byte '\x7b') (by decide)
    (byte '\n' :: (u ++ v ++ y) ++ more)
  obtain ⟨c1, hrun, hc1⟩ := Scan.finds_openBlock hopen c hc
  obtain ⟨henter, hc2⟩ := Scan.run_enter hd hc1.shows
  have hlength : 2 ≤ ({ c1 with depth := c1.depth + 1 } : Cursor).rest.length := by
    obtain ⟨_, -, hlt, -⟩ := keyPiece.exists_spells hu
    show 2 ≤ c1.rest.length
    rw [hc1.1]
    simp only [List.length_append, List.length_cons]
    omega
  generalize ({ c1 with depth := c1.depth + 1 } : Cursor) = c2 at henter hc2 hlength
  have hbytes : strip (byte '\n' :: (u ++ v ++ y) ++ more) = strip (u ++ (v ++ (y ++ more))) := by
    rw [List.cons_append, strip_cons_of_isSpace (by decide), List.append_assoc, List.append_assoc]
  have hend : Follows (y ++ more) := hy.follows hmore
  have hmiddle : Follows (v ++ (y ++ more)) := hv.follows hend
  have hlimit : (v ++ (y ++ more)).length < rounds := by
    simp only [List.length_append, List.length_cons] at hrounds ⊢
    omega
  -- One round reads the key, one the value, and one the closing character.
  obtain ⟨n, hn⟩ : ∃ n, c2.rest.length + 1 = n + 3 := ⟨c2.rest.length - 2, by omega⟩
  obtain ⟨c3, saw3, hc3, hfirst⟩ := Scan.entryFields_key (readValue rounds) (n + 2)
    hu hmiddle hkey zero (hc2.of_strip_eq hbytes)
  obtain ⟨c4, saw4, hc4, hsecond⟩ := Scan.entryFields_value readKey (n + 1)
    hv hend hvalue (key, zero.2) hlimit hc3
  obtain ⟨c5, hclose, hc5⟩ := Scan.finds_tryChar '\x7d' (by decide) (strip_closing hy more) c4 hc4
  refine ⟨{ c5 with depth := c5.depth - 1 }, saw4, ?_, Scan.shows_leave hc5⟩
  have hentry : alone zero (do
      Scan.entryFields readKey (readValue rounds) '\x7d' ((← source).rest.length + 1)) c2 =
        .ok (key, value) c5 := by
    refine alone_eq_ok.2 ?_
    rw [run_bind_of_ok (run_source zero c2), hn, hfirst, hsecond, Scan.entryFields,
      run_bind_of_ok (read_eq_ok.2 ⟨hclose, rfl⟩)]
    rfl
  show Scan.mapEntry limit zero readKey (readValue rounds) c = _
  rw [Scan.mapEntry, run_bind_of_ok hrun, run_bind_of_ok henter, run_bind_of_ok hentry]
  rfl

/-! ## Names -/

/-- The name of a field can stand before it, and the field's member is found by it. -/
theorem member?_of_label {type : MessageType} {i : Nat} {member : Member}
    (hi : type.members[i]? = some member) {label : Nat × String} (hl : label ∈ member.labels) :
    isLabel label.2 = true ∧ Message.member? type (·.hasName label.2) = some (i, member) := by
  have all : ∀ i < type.members.length, ∀ member ∈ type.members[i]?, ∀ label ∈ member.labels,
      isLabel label.2 = true ∧ Message.member? type (·.hasName label.2) = some (i, member) := by
    cases type <;> decide
  exact all i (List.getElem?_eq_some_iff.1 hi).1 member hi label hl

theorem mergeNamed_ofLabel {options : ParseOptions} {body : MergeBody} {label : String}
    (h : isLabel label = true) (m : Message) (c : Cursor) :
    mergeNamed options body (.ofLabel label) (m, c) =
      mergeField options.depthLimit body label (m, c) := by
  rw [mergeNamed, run_bind_of_ok (run_current m c)]
  rcases FieldName.ofLabel_cases h with ⟨-, hof⟩ | ⟨inner, hof, hcs, -, hinner⟩
  · rw [hof]
  · have hslash : ¬ inner.toList.contains '/' = true := by
      rw [List.contains_iff_mem]
      exact fun hmem => (hinner _ hmem).2 rfl
    have hdisplay : (FieldName.bracketed inner).display = label := by
      rw [← String.toList_inj, hcs]
      show ("[" ++ inner ++ "]").toList = _
      rw [String.toList_append, String.toList_append, List.append_assoc]
      rfl
    rw [hof]
    dsimp only
    rw [if_neg hslash, hdisplay]

/-! ## Members -/

section

variable {options : ParseOptions} {depth : Nat} {m : Message} {i : Nat} {member : Member}

/-- A field is merged into the slot of its member. -/
theorem merges_member (hi : m.type.members[i]? = some member) {label : Nat × String}
    (hl : label ∈ member.labels) {piece : Piece} {s : Slot Message}
    (h : Spans depth piece fun rounds c c' =>
      mergeMember options.depthLimit (mergeFields options rounds) label.2 member
        (m.slots.getD i member.initial, c) = .ok () (s, c')) :
    Merges options depth (piece.lines label.2) m { m with slots := m.slots.set i s } := by
  obtain ⟨hlabel, hfound⟩ := member?_of_label hi hl
  refine merges_piece (FieldName.readFrom_ofLabel _ hlabel) (h.imp fun rounds c c' hrun => ?_)
  have hslot : Message.atSlot i member
      (mergeMember options.depthLimit (mergeFields options rounds) label.2 member) (m, c) =
        .ok () ({ m with slots := m.slots.set i s }, c') :=
    zoom_eq_ok.2 ⟨s, hrun, rfl⟩
  rw [mergeNamed_ofLabel hlabel, mergeField, hfound]
  exact run_bind_of_ok hslot

theorem merges_plain {number : Nat} {name : String} {kind : ScalarKind}
    (hi : m.type.members[i]? = some (.plain number name kind)) {x : Scalar} (hx : x.kind = kind)
    (hplain : x.isFloating = false) :
    Merges options depth [.field name (scalarText x)] m
      { m with slots := m.slots.set i (.plain x) } := by
  have hread := spans_scalar depth hplain
  rw [hx] at hread
  exact merges_member hi (List.mem_singleton_self (number, name)) (hread.imp fun _ _ _ hrun =>
    run_bind_of_ok (read_eq_ok.2 ⟨hrun, rfl⟩))

theorem merges_payload {number : Nat} {name : String}
    (hi : m.type.members[i]? = some (.payload number name)) (b : Bytes) :
    Merges options depth [.field name (scalarText (.bytes b))] m
      { m with slots := m.slots.set i (.payload (.serialized b)) } := by
  have hread := spans_scalar depth (x := .bytes b) rfl
  refine merges_member hi (List.mem_singleton_self (number, name)) (hread.imp fun _ c c' hrun => ?_)
  have hrun : (Scalar.bytes <$> Scan.bytes) c = .ok (.bytes b) c' := hrun
  obtain ⟨b', hrun, hb⟩ := map_eq_ok.1 hrun
  obtain rfl := Scalar.bytes.inj hb
  exact run_bind_of_ok (read_eq_ok.2 ⟨hrun, rfl⟩)

section

variable {lines : Message → List Line} {v : Value Message}

theorem merges_optional {field : Field} {required : Bool}
    (hi : m.type.members[i]? = some (.optional field required))
    (hs : m.slots[i]? = some (.optional none)) (hv : field.kind.Fits v)
    (hplain : ∀ x ∈ (FieldValue.ofValue field.kind v).scalars, x.isFloating = false)
    (hback : ∀ c ∈ v.children, Restores options (depth + 1) (lines c) c) :
    Merges options depth (valueLines lines field.name (.ofValue field.kind v)) m
      { m with slots := m.slots.set i (.optional (some (v.map Message.inBytes))) } := by
  rw [valueLines_eq]
  refine merges_member hi (List.mem_singleton_self (field.number, field.name))
    ((spans_value hv hplain hback).imp fun rounds c c' hrun => ?_)
  rw [Message.getD_of_getElem? hs, mergeMember]
  revert hrun
  cases field.kind with
  | scalar kind =>
    intro hrun
    obtain ⟨s, hs, hv⟩ := map_eq_ok.1 hrun
    rw [hv]
    exact run_bind_of_ok (read_eq_ok.2 ⟨hs, rfl⟩)
  | message type | group type =>
    intro hrun
    obtain ⟨m', hm, hv⟩ := map_eq_ok.1 hrun
    rw [hv]
    exact zoom_eq_ok.2 ⟨m', alone_eq_ok.1 hm, rfl⟩

theorem merges_oneof {fields : List Field} (hi : m.type.members[i]? = some (.oneof fields))
    {field : Field} (hfield : fields.find? (·.name = field.name) = some field)
    (hv : field.kind.Fits v)
    (hplain : ∀ x ∈ (FieldValue.ofValue field.kind v).scalars, x.isFloating = false)
    (hback : ∀ c ∈ v.children, Restores options (depth + 1) (lines c) c) :
    Merges options depth (valueLines lines field.name (.ofValue field.kind v)) m
      { m with slots := m.slots.set i (.oneof (some (field.number, v.map Message.inBytes))) } := by
  have hl : (field.number, field.name) ∈ (Member.oneof fields).labels :=
    List.mem_map.2 ⟨field, List.mem_of_find?_eq_some hfield, rfl⟩
  rw [valueLines_eq]
  refine merges_member hi hl ((spans_value hv hplain hback).imp fun rounds c c' hrun => ?_)
  rw [mergeMember, hfield]
  exact run_bind_of_ok (read_eq_ok.2 ⟨hrun, rfl⟩)

end

/-- The lines of a list are merged if those of each element are, which appends the element to what
the slot holds. -/
theorem merges_each {α β : Type} {slot : List β → Slot Message} {f : α → β}
    {lines : α → List Line} {as : List α} (hs : m.slots[i]? = some (slot []))
    (hone : ∀ (m' : Message) (front : List α) (a : α) (rest : List α), as = front ++ a :: rest →
      m'.type = m.type → m'.slots[i]? = some (slot (front.map f)) →
      Merges options depth (lines a) m'
        { m' with slots := m'.slots.set i (slot (front.map f ++ [f a])) }) :
    Merges options depth (as.flatMap lines) m
      { m with slots := m.slots.set i (slot (as.map f)) } := by
  have hrest : ∀ (rest front : List α) (m' : Message), as = front ++ rest → m'.type = m.type →
      m'.slots[i]? = some (slot (front.map f)) → Merges options depth (rest.flatMap lines) m'
        { m' with slots := m'.slots.set i (slot (as.map f)) } := by
    intro rest
    induction rest with
    | nil =>
      intro front m' has _ hm'
      rw [has, List.append_nil, Message.set_of_getElem? hm']
      exact merges_nil
    | cons a rest ih =>
      intro front m' has ht hm'
      have hlt : i < m'.slots.length := (List.getElem?_eq_some_iff.1 hm').1
      have hset : (m'.slots.set i (slot (front.map f ++ [f a])))[i]? =
          some (slot ((front ++ [a]).map f)) := by
        rw [List.getElem?_set_self hlt, List.map_append]
        rfl
      have hnext := ih (front ++ [a])
        { m' with slots := m'.slots.set i (slot (front.map f ++ [f a])) }
        (has.trans (List.append_cons front a rest)) ht hset
      rw [List.set_set] at hnext
      exact (hone m' front a rest has ht hm').append hnext
  exact hrest as [] m rfl rfl hs

/-- The values of a repeated field are appended one by one. -/
theorem merges_repeated {lines : Message → List Line} {field : Field}
    (hi : m.type.members[i]? = some (.repeated field)) {vs : List (Value Message)}
    (hs : m.slots[i]? = some (.repeated [])) (hvs : ∀ v ∈ vs, field.kind.Fits v)
    (hplain : ∀ v ∈ vs, ∀ x ∈ (FieldValue.ofValue field.kind v).scalars, x.isFloating = false)
    (hback : ∀ v ∈ vs, ∀ c ∈ v.children, Restores options (depth + 1) (lines c) c) :
    Merges options depth
      (vs.flatMap fun v => valueLines lines field.name (.ofValue field.kind v)) m
      { m with slots := m.slots.set i (.repeated (vs.map (Value.map Message.inBytes))) } := by
  refine merges_each hs fun m' front v rest hsplit ht hm' => ?_
  have hv : v ∈ vs := hsplit ▸ List.mem_append_right _ List.mem_cons_self
  have hread := spans_repeated (FieldValue.starts_piece lines (hplain v hv))
    (spans_value (hvs v hv) (hplain v hv) (hback v hv)) (front.map (Value.map Message.inBytes))
  rw [valueLines_eq]
  refine merges_member (ht ▸ hi) (List.mem_singleton_self (field.number, field.name))
    (hread.imp fun rounds c c' hrun => ?_)
  rw [Message.getD_of_getElem? hm', mergeMember]
  exact zoom_eq_ok.2 ⟨_, hrun, rfl⟩

/-- The scalars of a packed field are appended one by one. -/
theorem merges_packed {number : Nat} {name : String} {kind : ScalarKind}
    (hi : m.type.members[i]? = some (.packed number name kind)) {ss : List Scalar}
    (hs : m.slots[i]? = some (.packed [])) (hss : ∀ x ∈ ss, x.kind = kind)
    (hplain : ∀ x ∈ ss, x.isFloating = false) :
    Merges options depth (ss.map fun x => .field name (scalarText x)) m
      { m with slots := m.slots.set i (.packed ss) } := by
  have heach : Merges options depth (ss.flatMap fun x => [.field name (scalarText x)]) m
      { m with slots := m.slots.set i (.packed (ss.map id)) } := by
    refine merges_each hs fun m' front x rest hsplit ht hm' => ?_
    have hx : x ∈ ss := hsplit ▸ List.mem_append_right _ List.mem_cons_self
    have hstarts : (Piece.text (scalarText x)).Starts := exists_head_scalarText (hplain x hx)
    have hscalar := spans_scalar depth (hplain x hx)
    rw [hss x hx] at hscalar
    refine merges_member (ht ▸ hi) (List.mem_singleton_self (number, name))
      ((spans_repeated hstarts hscalar (front.map id)).imp fun rounds c c' hrun => ?_)
    rw [Message.getD_of_getElem? hm', mergeMember]
    exact zoom_eq_ok.2 ⟨_, hrun, rfl⟩
  rwa [List.map_id, ← List.map_eq_flatMap] at heach

/-- The entries of a map are inserted one by one, each behind the others. -/
theorem merges_map {lines : Message → List Line} {number : Nat} {name : String} {key : ScalarKind}
    {kind : FieldKind} (hi : m.type.members[i]? = some (.map number name key kind))
    {es : List (Scalar × Value Message)} (hs : m.slots[i]? = some (.map []))
    (hes : ∀ e ∈ es, e.1.kind = key ∧ kind.Fits e.2) (hasc : Ascending es)
    (hd : es ≠ [] → depth + 1 ≤ options.depthLimit)
    (hplain : ∀ e ∈ es, e.1.isFloating = false ∧
      ∀ x ∈ (FieldValue.ofValue kind e.2).scalars, x.isFloating = false)
    (hback : ∀ e ∈ es, ∀ c ∈ e.2.children, Restores options (depth + 2) (lines c) c) :
    Merges options depth
      (es.flatMap fun e => Line.block name (valueLines lines "key" (.scalar e.1) ++
        valueLines lines "value" (.ofValue kind e.2))) m
      { m with slots := m.slots.set i (.map (es.map fun e => (e.1, e.2.map Message.inBytes))) } := by
  refine merges_each hs fun m' front e rest hsplit ht hm' => ?_
  have he : e ∈ es := hsplit ▸ List.mem_append_right _ List.mem_cons_self
  have hd := hd (List.ne_nil_of_mem he)
  obtain ⟨hk, hv⟩ := hes e he
  obtain ⟨hkplain, hvplain⟩ := hplain e he
  have hbehind : ∀ e' ∈ front.map fun e => (e.1, e.2.map Message.inBytes),
      e'.1.lt e.1 = true := by
    rw [hsplit] at hasc
    intro e' he'
    obtain ⟨e', hfront, rfl⟩ := List.mem_map.1 he'
    exact (List.pairwise_append.1 hasc).2.2 e' hfront e List.mem_cons_self
  have hkey := spans_scalar (depth + 1) hkplain
  rw [hk] at hkey
  have hread := spans_mapEntry hd hkey (spans_value hv hvplain (hback e he)) (key.zero, kind.zero)
  rw [valueLines_eq, valueLines_eq]
  refine merges_member (ht ▸ hi) (List.mem_singleton_self (number, name))
    (hread.imp fun rounds c c' hrun => ?_)
  rw [Message.getD_of_getElem? hm', mergeMember, run_bind_of_ok (read_eq_ok.2 ⟨hrun, rfl⟩)]
  show EStateM.Result.ok () (Slot.map (insertEntry e.1 (e.2.map Message.inBytes)
    (front.map fun e => (e.1, e.2.map Message.inBytes))), c') = _
  rw [insertEntry_of_forall_lt hbehind]

/-- Two fields of a oneof have different names. -/
theorem find?_name_of_find?_number {type : MessageType} {fields : List Field}
    (hm : .oneof fields ∈ type.members) {field : Field} {number : Nat}
    (h : fields.find? (·.number = number) = some field) :
    fields.find? (·.name = field.name) = some field := by
  have all : ∀ member ∈ type.members, (member.labels.map Prod.snd).Nodup := by
    cases type <;> decide
  have hnames : (fields.map Field.name).Nodup := by
    have hlabels := all _ hm
    rwa [Member.labels, List.map_map] at hlabels
  have hfield := List.mem_of_find?_eq_some h
  have hsome : (fields.find? (·.name = field.name)).isSome :=
    List.find?_isSome.2 ⟨field, hfield, decide_eq_true rfl⟩
  obtain ⟨other, hother⟩ := Option.isSome_iff_exists.1 hsome
  have hname := List.find?_some hother
  have hname : other.name = field.name := of_decide_eq_true hname
  rw [hother, List.inj_on_of_nodup_map hnames (List.mem_of_find?_eq_some hother) hfield hname]

/-- What is printed for a member is merged into its slot, if every message inside is read back. The
lines of messages may depend on how many levels deeper the messages are. -/
theorem merges_visits {lines : Nat → Message → List Line}
    (hi : m.type.members[i]? = some member) (hs : m.slots[i]? = some member.initial)
    {s : Slot Message} (hfits : member.Fits s)
    (hplain : ∀ v ∈ member.visits Message.encode s, ∀ x ∈ v.scalars, x.isFloating = false)
    (hback : ∀ c ∈ s.nested, Restores options (depth + c.1) (lines c.1 c.2) c.2)
    (hd : ∀ es, s = .map es → es ≠ [] → depth + 1 ≤ options.depthLimit) :
    Merges options depth
      ((member.visits Message.encode s).flatMap (visitLines (lines 1) (lines 2))) m
      { m with slots := m.slots.set i s.inBytes } := by
  cases member with
  | plain number name kind =>
    cases s with
    | plain x =>
      have hx : x.kind = kind := hfits
      rw [Member.visits] at hplain ⊢
      by_cases hz : x.isZero = true
      · have hzero : x = kind.zero := by
          rw [← hx]
          exact of_decide_eq_true hz
        rw [if_pos hz, hzero]
        exact (Message.set_of_getElem? hs).symm ▸ merges_nil
      · rw [if_neg hz] at hplain ⊢
        have hx' := hplain _ List.mem_cons_self x List.mem_cons_self
        exact merges_plain hi hx hx'
    | _ => exact hfits.elim
  | optional field required =>
    cases s with
    | optional v =>
      cases v with
      | none => exact (Message.set_of_getElem? hs).symm ▸ merges_nil
      | some v =>
        rw [Member.visits, List.flatMap_singleton]
        refine merges_optional hi hs (hfits v rfl) (hplain _ List.mem_cons_self)
          fun c hc => hback (1, c) ?_
        exact List.mem_flatMap.2 ⟨v, List.mem_singleton_self v, List.mem_map.2 ⟨c, hc, rfl⟩⟩
    | _ => exact hfits.elim
  | packed number name kind =>
    cases s with
    | packed ss =>
      cases ss with
      | nil => exact (Message.set_of_getElem? hs).symm ▸ merges_nil
      | cons x ss =>
        rw [Member.visits, List.isEmpty_cons, if_neg Bool.false_ne_true] at hplain ⊢
        rw [List.flatMap_singleton]
        exact merges_packed hi hs hfits (hplain _ List.mem_cons_self)
    | _ => exact hfits.elim
  | repeated field =>
    cases s with
    | repeated vs =>
      rw [Member.visits] at hplain ⊢
      rw [List.flatMap_map]
      refine merges_repeated hi hs hfits (fun v hv => hplain _ (List.mem_map.2 ⟨v, hv, rfl⟩))
        fun v hv c hc => hback (1, c) ?_
      exact List.mem_flatMap.2 ⟨v, hv, List.mem_map.2 ⟨c, hc, rfl⟩⟩
    | _ => exact hfits.elim
  | map number name key kind =>
    cases s with
    | map es =>
      rw [Member.visits] at hplain ⊢
      rw [List.flatMap_map]
      refine merges_map hi hs hfits.2 hfits.1 (hd es rfl)
        (fun e he => ?_) fun e he c hc => hback (2, c) ?_
      · exact List.forall_mem_cons.1 (hplain _ (List.mem_map.2 ⟨e, he, rfl⟩))
      · exact List.mem_flatMap.2 ⟨e, he, List.mem_map.2 ⟨c, hc, rfl⟩⟩
    | _ => exact hfits.elim
  | oneof fields =>
    cases s with
    | oneof choice =>
      cases choice with
      | none => exact (Message.set_of_getElem? hs).symm ▸ merges_nil
      | some e =>
        obtain ⟨number, v⟩ := e
        obtain ⟨field, hfield, hv⟩ := hfits (number, v) rfl
        have hname := find?_name_of_find?_number (List.mem_of_getElem? hi) hfield
        have hn := List.find?_some hfield
        have hn : field.number = number := of_decide_eq_true hn
        subst hn
        rw [Member.visits, hfield, Option.map_some, Option.toList_some] at hplain ⊢
        rw [List.flatMap_singleton]
        refine merges_oneof hi hname hv (hplain _ List.mem_cons_self) fun c hc => hback (1, c) ?_
        exact List.mem_flatMap.2 ⟨_, List.mem_singleton_self _, List.mem_map.2 ⟨c, hc, rfl⟩⟩
    | _ => exact hfits.elim
  | payload number name =>
    cases s with
    | payload p =>
      have hslot : (Slot.payload p).inBytes = .payload (.serialized (p.bytes Message.encode)) := rfl
      rw [hslot, Member.visits]
      cases hbytes : p.bytes Message.encode with
      | nil => exact (Message.set_of_getElem? hs).symm ▸ merges_nil
      | cons b bytes =>
        rw [List.isEmpty_cons, if_neg Bool.false_ne_true, List.flatMap_singleton]
        exact merges_payload hi (b :: bytes)
    | _ => exact hfits.elim

end

end Text

end Protobuf
