import Protobuf.Proofs.Text.Blocks

/-!
# Lists of values

The values of a repeated field are written as a list behind its name, as one field each, or as any
mixture of both. What is merged is the same in all of these forms, and where an element cannot be
read the elements before it are kept (`Text.lists_alike`). This holds of packed integers and of
repeated blocks alike: what the elements are is a parameter (`Text.ListField`).
-/

namespace Protobuf

open Build

variable {α β : Type}

namespace Text

variable {bytes more : Bytes} {depth : Nat} {strict : Bool} {c : Cursor} {m : Message}

/-! ## Lists of elements -/

/-- Elements stand one behind the other with a comma behind each. -/
inductive Commas (Written : β → Bytes → Bytes → Prop) : List β → Bytes → Bytes → Prop
  /-- No element. -/
  | nil {bytes : Bytes} : Commas Written [] bytes bytes
  /-- An element in front of others. -/
  | cons {b : β} {bs : List β} {bytes behind next more : Bytes} (element : Written b bytes behind)
    (comma : Mark ',' behind next) (rest : Commas Written bs next more) :
    Commas Written (b :: bs) bytes more

/-- The value of a field is one element or a list of them. -/
inductive Values (Written : β → Bytes → Bytes → Prop) : List β → Bytes → Bytes → Prop
  /-- One element. -/
  | single {b : β} {bytes more : Bytes} (element : Written b bytes more) :
    Values Written [b] bytes more
  /-- The empty list. -/
  | empty {bytes inner more : Bytes} (opening : Mark '[' bytes inner)
    (closing : Mark ']' inner more) : Values Written [] bytes more
  /-- A list of elements, with commas between them. -/
  | list {bs : List β} {b : β} {bytes inner last behind more : Bytes}
    (opening : Mark '[' bytes inner) (elements : Commas Written bs inner last)
    (element : Written b last behind) (closing : Mark ']' behind more) :
    Values Written (bs ++ [b]) bytes more

/-- The value of a field is written up to some element: the only one, or one of a list behind some
others. -/
inductive Upto (Written : β → Bytes → Bytes → Prop) : List β → Bytes → Bytes → Prop
  /-- The element is no list. -/
  | single {bytes : Bytes} (other : (behindBlanks false bytes).head? ≠ some (byte '[')) :
    Upto Written [] bytes bytes
  /-- The list does not end in front of its first element. -/
  | list {bs : List β} {bytes inner more : Bytes} (opening : Mark '[' bytes inner)
    (elements : Commas Written bs inner more)
    (other : bs = [] → (behindBlanks false more).head? ≠ some (byte ']')) :
    Upto Written bs bytes more

section

variable {Written : β → Bytes → Bytes → Prop} {read : Scan α} {element : β → α} {bs : List β}

namespace Scan

theorem listLoop_eq (hmoves : Moves id read) : listLoop read = listTurn read (listLoop read) :=
  (ends_listLoop hmoves).turns ()

/-- An element in front of the end of its list. -/
theorem exists_listLoop_last (hmoves : Moves id read) {a : α} {behind : Bytes}
    (hread : Delivers depth strict read bytes a behind) (hclose : Mark ']' behind more)
    (hc : c.Faces depth strict bytes) (as : List α) :
    ∃ d, listLoop read (as, c) = .ok () (as ++ [a], d) ∧ d.Faces depth strict more := by
  obtain ⟨d, hrun, hd⟩ := hread c hc
  obtain ⟨e, hbracket, he⟩ := delivers_tryChar (by decide) hclose d hd
  refine ⟨e, ?_, he⟩
  rw [listLoop_eq hmoves]
  refine (run_read_bind_of_ok hrun).trans ?_
  exact (run_bind_of_ok (run_update _ as d)).trans (run_read_bind_of_ok hbracket)

/-- An element in front of a comma. -/
theorem exists_listLoop_comma (hmoves : Moves id read) {a : α} {behind : Bytes}
    (hread : Delivers depth strict read bytes a behind) (hcomma : Mark ',' behind more)
    (hc : c.Faces depth strict bytes) (as : List α) :
    ∃ d, listLoop read (as, c) = listLoop read (as ++ [a], d) ∧ d.Faces depth strict more := by
  obtain ⟨d, hrun, hd⟩ := hread c hc
  have hne : (behindBlanks false behind).head? ≠ some (byte ']') := by
    rw [hcomma.behindBlanks_eq (by decide), List.head?_cons]
    decide
  obtain ⟨e, hbracket, he⟩ := delivers_tryChar_false hne d hd
  obtain ⟨f, hexpect, hf⟩ := delivers_expect (by decide) hcomma e he
  refine ⟨f, ?_, hf⟩
  rw [congrFun (listLoop_eq hmoves) (as, c)]
  refine (run_read_bind_of_ok hrun).trans ((run_bind_of_ok (run_update _ as d)).trans ?_)
  exact (run_read_bind_of_ok hbracket).trans (run_read_bind_of_ok hexpect)

/-- Elements are read one after the other if each of them is. -/
theorem exists_listLoop (hmoves : Moves id read)
    (hread : ∀ b ∈ bs, ∀ bytes more, Written b bytes more →
      Delivers depth strict read bytes (element b) more)
    (h : Commas Written bs bytes more) (hc : c.Faces depth strict bytes) (as : List α) :
    ∃ d, listLoop read (as, c) = listLoop read (as ++ bs.map element, d) ∧
      d.Faces depth strict more := by
  induction h generalizing c as with
  | nil => exact ⟨c, by rw [List.map_nil, List.append_nil], hc⟩
  | @cons b bs bytes behind next more written comma rest ih =>
    obtain ⟨hb, hbs⟩ := List.forall_mem_cons.1 hread
    obtain ⟨d, hone, hd⟩ := exists_listLoop_comma hmoves (hb _ _ written) comma hc as
    obtain ⟨e, hothers, he⟩ := ih hbs hd (as ++ [element b])
    refine ⟨e, ?_, he⟩
    rw [hone, hothers, List.append_assoc, List.map_cons, List.singleton_append]

/-- A list that is opened is read like its elements, if it does not end at once. -/
theorem exists_repeated_list (read : Scan α) {inner : Bytes} (hopen : Mark '[' bytes inner)
    (hinner : (behindBlanks false inner).head? ≠ some (byte ']'))
    (hc : c.Faces depth strict bytes) (as : List α) :
    ∃ d, repeated read (as, c) = listLoop read (as, d) ∧ d.Faces depth strict inner := by
  obtain ⟨d, hbracket, hd⟩ := delivers_tryChar (by decide) hopen c hc
  obtain ⟨e, hclose, he⟩ := delivers_tryChar_false hinner d hd
  exact ⟨e, (run_read_bind_of_ok hbracket).trans (run_read_bind_of_ok hclose), he⟩

/-- A value that is no list is read like an element. -/
theorem exists_repeated_single (read : Scan α)
    (h : (behindBlanks false bytes).head? ≠ some (byte '['))
    (hc : c.Faces depth strict bytes) (as : List α) :
    ∃ d, repeated read (as, c) = (do
        let a ← Build.read read
        update (· ++ [a]) : Build Cursor (List α) Unit) (as, d) ∧ d.Faces depth strict bytes := by
  obtain ⟨d, hbracket, hd⟩ := delivers_tryChar_false h c hc
  exact ⟨d, run_read_bind_of_ok hbracket, hd⟩

end Scan

theorem Commas.not_closed (hstarts : ∀ b bytes more, Written b bytes more → NoBracket bytes)
    (h : Commas Written bs bytes more)
    (hmore : bs = [] → (behindBlanks false more).head? ≠ some (byte ']')) :
    (behindBlanks false bytes).head? ≠ some (byte ']') := by
  cases h with
  | nil => exact hmore rfl
  | cons element _ _ => exact (hstarts _ _ _ element).2

namespace Scan

/-- The elements of a value are read, one or more or none. -/
theorem exists_repeated (hmoves : Moves id read)
    (hstarts : ∀ b bytes more, Written b bytes more → NoBracket bytes)
    (hread : ∀ b ∈ bs, ∀ bytes more, Written b bytes more →
      Delivers depth strict read bytes (element b) more)
    (h : Values Written bs bytes more) (hc : c.Faces depth strict bytes) (as : List α) :
    ∃ d, repeated read (as, c) = .ok () (as ++ bs.map element, d) ∧ d.Faces depth strict more := by
  cases h with
  | @single b _ _ written =>
    obtain ⟨d, hsingle, hd⟩ := exists_repeated_single read (hstarts _ _ _ written).1 hc as
    obtain ⟨e, hrun, he⟩ := hread b (List.mem_singleton_self b) _ _ written d hd
    refine ⟨e, hsingle.trans ?_, he⟩
    rw [run_read_bind_of_ok hrun]
    rfl
  | empty hopen hclose =>
    obtain ⟨d, hbracket, hd⟩ := delivers_tryChar (by decide) hopen c hc
    obtain ⟨e, hend, he⟩ := delivers_tryChar (by decide) hclose d hd
    refine ⟨e, (run_read_bind_of_ok hbracket).trans ((run_read_bind_of_ok hend).trans ?_), he⟩
    rw [List.map_nil, List.append_nil]
    rfl
  | @list bs b _ inner last behind _ hopen elements written hclose =>
    obtain ⟨hbs, hb⟩ := List.forall_mem_append.1 hread
    obtain ⟨d, hlist, hd⟩ := exists_repeated_list read hopen
      (elements.not_closed hstarts fun _ => (hstarts _ _ _ written).2) hc as
    obtain ⟨e, hloop, he⟩ := exists_listLoop hmoves hbs elements hd as
    obtain ⟨f, hend, hf⟩ := exists_listLoop_last hmoves
      (hb b (List.mem_singleton_self b) _ _ written) hclose he (as ++ bs.map element)
    refine ⟨f, ?_, hf⟩
    rw [hlist, hloop, hend, List.append_assoc, List.map_append]
    rfl

/-- Where an element cannot be read, the elements before it are kept. -/
theorem exists_upto (hmoves : Moves id read)
    (hstarts : ∀ b bytes more, Written b bytes more → NoBracket bytes)
    (hread : ∀ b ∈ bs, ∀ bytes more, Written b bytes more →
      Delivers depth strict read bytes (element b) more)
    (h : Upto Written bs bytes more) (hc : c.Faces depth strict bytes) (as : List α) :
    ∃ d, d.Faces depth strict more ∧ ∀ e f, read d = .error e f →
      repeated read (as, c) = .error e (as ++ bs.map element, f) := by
  cases h with
  | single hother =>
    obtain ⟨d, hsingle, hd⟩ := exists_repeated_single read hother hc as
    refine ⟨d, hd, fun e f hrun => ?_⟩
    rw [hsingle, List.map_nil, List.append_nil]
    exact run_bind_of_error (read_eq_error.2 ⟨hrun, rfl⟩)
  | list hopen elements hother =>
    obtain ⟨d, hlist, hd⟩ := exists_repeated_list read hopen
      (elements.not_closed hstarts hother) hc as
    obtain ⟨e, hloop, he⟩ := exists_listLoop hmoves hread elements hd as
    refine ⟨e, he, fun error f hrun => ?_⟩
    rw [hlist, hloop, listLoop_eq hmoves]
    exact run_bind_of_error (read_eq_error.2 ⟨hrun, rfl⟩)

end Scan

end

/-! ## Repeated fields -/

/-- A repeated field of a message type, and how its elements are written and read. -/
structure ListField (β α : Type) where
  /-- The type of the message. -/
  type : MessageType
  /-- The name of the field. -/
  name : String
  /-- Which slot of the message holds the values. -/
  index : Nat
  /-- A colon must stand behind the name. -/
  strict : Bool
  /-- How deep blocks nest in an element. -/
  nesting : Nat
  /-- How an element is written. -/
  Written : β → Bytes → Bytes → Prop
  /-- The value that an element is. -/
  element : β → α
  /-- The slot with some values. -/
  slot : List α → Slot Message
  /-- How an element is read. -/
  read : ParseOptions → Scan α

namespace ListField

variable (field : ListField β α)

/-- The message is of the field's type, and the field has these values. -/
structure Holds (m : Message) (vs : List α) : Prop where
  type : m.type = field.type
  slot : m.slots[field.index]? = some (field.slot vs)

/-- The message with these values of the field and everything else as it is. -/
def holding (m : Message) (vs : List α) : Message :=
  { m with slots := m.slots.set field.index (field.slot vs) }

/-- The field is written with one element or with a list of them. -/
def Group (bs : List β) (bytes more : Bytes) : Prop :=
  ∃ value, Label field.name field.strict bytes value ∧ Values field.Written bs value more

/-- The field is written with one element. -/
def Single (b : β) (bytes more : Bytes) : Prop :=
  ∃ value, Label field.name field.strict bytes value ∧ field.Written b value more

/-- The text consists of fields with the groups of elements, each group as a list or, if it is a
single element, without brackets. Where several elements in a row have fields of their own each of
them is a group. -/
def Grouped (groups : List (List β)) (text : String) : Prop :=
  ∃ more, Fields field.Group groups (Utf8.encode text) more ∧ behindBlanks false more = []

/-- The text consists of one field for each element. -/
def Separate (bs : List β) (text : String) : Prop :=
  ∃ more, Fields field.Single bs (Utf8.encode text) more ∧ behindBlanks false more = []

/-- Behind the elements, however they are grouped, another one starts. -/
def StartsBehind (bs : List β) (bytes more : Bytes) : Prop :=
  ∃ groups others next value, bs = groups.flatten ++ others ∧
    Fields field.Group groups bytes next ∧ Label field.name field.strict next value ∧
      Upto field.Written others value more

/-- The laws of a repeated field. -/
structure Lawful (options : ParseOptions) : Prop where
  isIdentifier : isIdentifier field.name.toList = true
  moves : Moves id (field.read options)
  noBracket : ∀ b bytes more, field.Written b bytes more → NoBracket bytes
  delivers : field.nesting ≤ options.depthLimit → ∀ b bytes more, field.Written b bytes more →
    Delivers 0 field.strict (field.read options) bytes (field.element b) more
  limited : options.depthLimit < field.nesting → ∀ b bytes more (c : Cursor),
    field.Written b bytes more → c.Faces 0 field.strict bytes →
      ∃ d, field.read options c = .error (.textDepthLimit options.depthLimit) d
  merges : ∀ m vs (c : Cursor), field.Holds m vs →
    mergeNamed options (mergeBody options) (.plain field.name) (m, c) = (do
      zoom (fun _ => vs) field.holding (Scan.repeated (field.read options))
      pure true : Build Cursor Message Bool) (m, c)

variable {field} {olds vs : List α}

theorem Holds.holding_self (h : field.Holds m olds) : field.holding m olds = m := by
  cases m
  obtain ⟨hlt, hslot⟩ := List.getElem?_eq_some_iff.1 h.slot
  rw [ListField.holding, ← hslot, List.set_getElem_self]

theorem Holds.holding (h : field.Holds m olds) : field.Holds (field.holding m vs) vs where
  type := h.type
  slot := List.getElem?_set_self (List.getElem?_eq_some_iff.1 h.slot).1

theorem holding_holding : field.holding (field.holding m olds) vs = field.holding m vs := by
  rw [holding, holding, holding, List.set_set]

theorem foldl_append_map (element : β → α) (groups : List (List β)) (olds : List α) :
    groups.foldl (fun as bs => as ++ bs.map element) olds = olds ++ groups.flatten.map element := by
  induction groups generalizing olds with
  | nil => exact (List.append_nil olds).symm
  | cons bs groups ih =>
    rw [List.foldl_cons, ih, List.flatten_cons, List.map_append, List.append_assoc]

variable {options : ParseOptions} {groups : List (List β)} {bs : List β}

/-- The merged field holds what its elements are read as. -/
theorem Lawful.mergeNamed_eq_ok (hlawful : field.Lawful options) (hholds : field.Holds m olds)
    {d : Cursor} (h : Scan.repeated (field.read options) (olds, c) = .ok () (vs, d)) :
    mergeNamed options (mergeBody options) (.plain field.name) (m, c) =
      .ok true (field.holding m vs, d) := by
  rw [hlawful.merges m olds c hholds]
  exact run_bind_of_ok (a := ()) (zoom_eq_ok.2 ⟨vs, h, rfl⟩)

theorem Lawful.mergeNamed_eq_error (hlawful : field.Lawful options) (hholds : field.Holds m olds)
    {d : Cursor} {e : Error}
    (h : Scan.repeated (field.read options) (olds, c) = .error e (vs, d)) :
    mergeNamed options (mergeBody options) (.plain field.name) (m, c) =
      .error e (field.holding m vs, d) := by
  rw [hlawful.merges m olds c hholds]
  exact run_bind_of_error (zoom_eq_error.2 ⟨vs, h, rfl⟩)

theorem Lawful.delivers_of_mem (hlawful : field.Lawful options)
    (hlimit : bs ≠ [] → field.nesting ≤ options.depthLimit) :
    ∀ b ∈ bs, ∀ bytes more, field.Written b bytes more →
      Delivers 0 field.strict (field.read options) bytes (field.element b) more :=
  fun b hb => hlawful.delivers (hlimit (List.ne_nil_of_mem hb)) b

/-- Groups of elements are merged one after the other. -/
theorem Lawful.exists_grouped (hlawful : field.Lawful options) (hholds : field.Holds m olds)
    (hlimit : groups.flatten ≠ [] → field.nesting ≤ options.depthLimit)
    (h : Fields field.Group groups bytes more) (hc : c.Faces 0 false bytes) :
    ∃ d, d.Faces 0 false more ∧ mergeBody options none (m, c) =
      mergeBody options none (field.holding m (olds ++ groups.flatten.map field.element), d) := by
  have hread := hlawful.delivers_of_mem hlimit
  have hgroup : ∀ (bs : List β) as bytes behind (c : Cursor), bs ∈ groups →
      field.Group bs bytes behind → c.Faces 0 false bytes → ∃ d, d.Faces 0 false behind ∧
        mergeBody options none (field.holding m as, c) = (do
          Build.read Scan.separator
          mergeBody options none : Build Cursor Message Unit)
            (field.holding m (as ++ bs.map field.element), d) := by
    intro bs as bytes behind c hbs hgroup hc
    obtain ⟨value, hlabel, hvalues⟩ := hgroup
    obtain ⟨d, hd, hmerged, -⟩ := exists_value options
      (fun _ h => absurd h (Option.not_mem_none _)) hlawful.isIdentifier hlabel hc
      (field.holding m as)
    obtain ⟨e, hrun, he⟩ := Scan.exists_repeated hlawful.moves hlawful.noBracket
      (fun b hb => hread b (List.mem_flatten.2 ⟨bs, hbs, hb⟩)) hvalues hd as
    refine ⟨e, he.relax, ?_⟩
    rw [hmerged _ e (hlawful.mergeNamed_eq_ok hholds.holding hrun), holding_holding]
  obtain ⟨d, hd, hmerged⟩ := h.exists_merged (field.holding m)
    (fun as bs => as ++ bs.map field.element) hgroup hc olds
  rw [foldl_append_map, hholds.holding_self] at hmerged
  exact ⟨d, hd, hmerged⟩

/-- Where an element cannot be read, the elements before it are appended and nothing else. -/
theorem Lawful.exists_startsBehind (hlawful : field.Lawful options) (hholds : field.Holds m olds)
    (hlimit : bs ≠ [] → field.nesting ≤ options.depthLimit) {text : String}
    (h : field.StartsBehind bs (Utf8.encode text) more) :
    ∃ c : Cursor, c.Faces 0 field.strict more ∧ ∀ e d, field.read options c = .error e d →
      Message.mergeText options text m =
        .error e (field.holding m (olds ++ bs.map field.element)) := by
  obtain ⟨groups, others, next, value, rfl, hgroups, hlabel, hupto⟩ := h
  have hgroupsLimit : groups.flatten ≠ [] → field.nesting ≤ options.depthLimit :=
    fun hne => hlimit (List.append_ne_nil_of_left_ne_nil hne others)
  have hothersLimit : others ≠ [] → field.nesting ≤ options.depthLimit :=
    fun hne => hlimit (List.append_ne_nil_of_right_ne_nil groups.flatten hne)
  obtain ⟨c, hc, hbefore⟩ := hlawful.exists_grouped hholds hgroupsLimit hgroups (.new text)
  obtain ⟨d, hd, -, hfailed⟩ := exists_value options
    (fun _ h => absurd h (Option.not_mem_none _)) hlawful.isIdentifier hlabel hc
    (field.holding m (olds ++ groups.flatten.map field.element))
  obtain ⟨e, he, hrepeated⟩ := Scan.exists_upto hlawful.moves hlawful.noBracket
    (hlawful.delivers_of_mem hothersLimit) hupto hd (olds ++ groups.flatten.map field.element)
  refine ⟨e, he, fun error f hrun => ?_⟩
  have hnamed := hlawful.mergeNamed_eq_error hholds.holding (hrepeated error f hrun)
  rw [Message.mergeText, hbefore, hfailed error _ f hnamed, holding_holding, List.append_assoc,
    ← List.map_append]

theorem mergeText_of_mergeBody {text : String} {m' : Message} {d : Cursor}
    (h : mergeBody options none (m, .new text) = .ok () (m', d)) :
    Message.mergeText options text m = Message.mergeText options "" m' := by
  obtain ⟨e, hend, -⟩ :=
    exists_mergeBody_of_finished options m' (Scan.delivers_finished_end rfl) (.new "")
  rw [Message.mergeText, h, Message.mergeText, hend]

theorem Lawful.mergeText_of_grouped (hlawful : field.Lawful options) (hholds : field.Holds m olds)
    (hlimit : groups.flatten ≠ [] → field.nesting ≤ options.depthLimit) {text : String}
    (h : field.Grouped groups text) :
    Message.mergeText options text m = Message.mergeText options ""
      (field.holding m (olds ++ groups.flatten.map field.element)) := by
  obtain ⟨more, hfields, hmore⟩ := h
  obtain ⟨d, hd, hmerged⟩ := hlawful.exists_grouped hholds hlimit hfields (.new text)
  obtain ⟨e, hend, -⟩ :=
    exists_mergeBody_of_finished options _ (Scan.delivers_finished_end hmore) hd
  exact mergeText_of_mergeBody (hmerged.trans hend)

/-- If there are elements at all, one of them is the first. -/
theorem exists_first
    (hnoBracket : ∀ b bytes more, field.Written b bytes more → NoBracket bytes)
    (h : Fields field.Group groups bytes more) (hne : groups.flatten ≠ []) :
    ∃ b first behind, field.StartsBehind [] bytes first ∧ field.Written b first behind := by
  induction h with
  | nil => exact absurd rfl hne
  | @cons bs groups bytes behind next more item separator rest ih =>
    obtain ⟨value, hlabel, hvalues⟩ := item
    cases hvalues with
    | @single b _ _ written =>
      have hother := (hnoBracket _ _ _ written).1
      exact ⟨b, value, behind, ⟨[], [], bytes, value, rfl, .nil, hlabel, .single hother⟩, written⟩
    | empty hopen hclose =>
      obtain ⟨b, first, last, ⟨groups', others, after, value', hnil, hfields, hupto⟩, written⟩ :=
        ih hne
      have hempty : field.Group [] bytes behind := ⟨value, hlabel, .empty hopen hclose⟩
      refine ⟨b, first, last, ⟨[] :: groups', others, after, value', hnil, ?_, hupto⟩, written⟩
      exact .cons hempty separator hfields
    | @list bs b _ inner last _ _ hopen elements written hclose =>
      obtain ⟨b', behind', hfirst⟩ : ∃ b' behind', field.Written b' inner behind' := by
        cases elements with
        | nil => exact ⟨b, _, written⟩
        | cons element _ _ => exact ⟨_, _, element⟩
      have hother := (hnoBracket _ _ _ hfirst).2
      refine ⟨b', inner, behind', ⟨[], [], bytes, value, rfl, .nil, hlabel, ?_⟩, hfirst⟩
      exact .list hopen .nil fun _ => hother

/-- Where blocks may not nest as deep as the elements do, nothing is merged. -/
theorem Lawful.mergeText_of_limited (hlawful : field.Lawful options) (hholds : field.Holds m olds)
    (hlimit : options.depthLimit < field.nesting) (hne : groups.flatten ≠ []) {text : String}
    (h : field.Grouped groups text) :
    Message.mergeText options text m = .error (.textDepthLimit options.depthLimit) m := by
  obtain ⟨more, hfields, -⟩ := h
  obtain ⟨b, first, behind, hstarts, written⟩ := exists_first hlawful.noBracket hfields hne
  obtain ⟨c, hc, hfailed⟩ :=
    hlawful.exists_startsBehind hholds (fun h => absurd rfl h) hstarts
  obtain ⟨d, hrun⟩ := hlawful.limited hlimit b first behind c written hc
  rw [hfailed _ d hrun, List.map_nil, List.append_nil, hholds.holding_self]

theorem grouped_of_separate {text : String} (h : field.Separate bs text) :
    field.Grouped (bs.map fun b => [b]) text := by
  obtain ⟨more, hfields, hmore⟩ := h
  refine ⟨more, hfields.map fun b bytes behind hsingle => ?_, hmore⟩
  obtain ⟨value, hlabel, written⟩ := hsingle
  exact ⟨value, hlabel, .single written⟩

variable (field) in
/-- A list and one field for each of its elements are the same text. -/
structure Alike (options : ParseOptions) : Prop where
  /-- The elements of a text are appended, however they are grouped: merging the text comes to the
  same as merging nothing where they are there already. -/
  appended : ∀ {m : Message} {olds : List α} {groups : List (List β)} {text : String},
    field.Holds m olds → field.Grouped groups text →
      (groups.flatten ≠ [] → field.nesting ≤ options.depthLimit) →
        Message.mergeText options text m =
          Message.mergeText options "" (field.holding m (olds ++ groups.flatten.map field.element))
  /-- A text with one field for each of the elements is merged alike, within the depth limit or
  not. -/
  separate : ∀ {m : Message} {olds : List α} {groups : List (List β)} {text text' : String},
    field.Holds m olds → field.Grouped groups text → field.Separate groups.flatten text' →
      Message.mergeText options text m = Message.mergeText options text' m
  /-- Where an element cannot be read, exactly the elements before it are appended. -/
  kept : ∀ {m : Message} {olds : List α} {bs : List β} {text : String} {more : Bytes},
    field.Holds m olds → field.StartsBehind bs (Utf8.encode text) more →
      (bs ≠ [] → field.nesting ≤ options.depthLimit) →
        ∃ c : Cursor, c.Faces 0 field.strict more ∧ ∀ e d, field.read options c = .error e d →
          Message.mergeText options text m =
            .error e (field.holding m (olds ++ bs.map field.element))

theorem Lawful.alike (hlawful : field.Lawful options) : field.Alike options where
  appended hholds h hlimit := hlawful.mergeText_of_grouped hholds hlimit h
  kept hholds h hlimit := hlawful.exists_startsBehind hholds hlimit h
  separate {m olds groups text text'} hholds h h' := by
    have h' := grouped_of_separate h'
    have hflatten : (groups.flatten.map fun b => [b]).flatten = groups.flatten :=
      List.flatMap_singleton' groups.flatten
    by_cases hread : groups.flatten ≠ [] → field.nesting ≤ options.depthLimit
    · have hread' := hread
      rw [← hflatten] at hread'
      rw [hlawful.mergeText_of_grouped hholds hread h,
        hlawful.mergeText_of_grouped hholds hread' h', hflatten]
    · obtain ⟨hne, hlimit⟩ := Classical.not_imp.1 hread
      have hlimit := Nat.lt_of_not_le hlimit
      have hne' := hne
      rw [← hflatten] at hne'
      rw [hlawful.mergeText_of_limited hholds hlimit hne h,
        hlawful.mergeText_of_limited hholds hlimit hne' h']

/-- A member that holds a list is merged by reading into it. -/
theorem mergeNamed_eq_zoom {body : MergeBody} {member : Member} {read : Scan α}
    {part : Slot Message → List α}
    (hmember : Message.member? field.type (·.hasName field.name) = some (field.index, member))
    (hmerge : mergeMember options.depthLimit body field.name member =
      zoom part (fun _ vs => field.slot vs) (Scan.repeated read))
    (hpart : ∀ vs, part (field.slot vs) = vs) (hholds : field.Holds m vs) :
    mergeNamed options body (.plain field.name) (m, c) = (do
      zoom (fun _ => vs) field.holding (Scan.repeated read)
      pure true : Build Cursor Message Bool) (m, c) := by
  have hslot : m.slots.getD field.index member.initial = field.slot vs := by
    rw [List.getD_eq_getElem?_getD, hholds.slot, Option.getD_some]
  have hlabel : m.type.label? (.plain field.name) = some field.name := rfl
  rw [← hholds.type] at hmember
  rw [mergeNamed_of_label hlabel, mergeField_of_member hmember]
  refine run_bind_congr_left ?_ fun _ _ _ => rfl
  rw [Message.atSlot, hmerge, run_zoom, run_zoom, run_zoom, hslot, hpart]
  cases Scan.repeated read (vs, c) <;> rfl

end ListField

/-! ## Integers and blocks -/

/-- The packed integers of a message with a field for each type. -/
def packedIntegers : ListField Int32 Scalar where
  type := .scalars
  name := "packed"
  index := 15
  strict := true
  nesting := 0
  Written := Integer
  element := .int32
  slot := .packed
  read _ := Scan.scalar .int32

/-- The blocks of a message with required fields in every position. -/
def repeatedBlocks : ListField Message (Value Message) where
  type := .requiredForeign
  name := "repeated_message"
  index := 1
  strict := false
  nesting := 1
  Written := Block
  element := .message
  slot := .repeated
  read options := value options.depthLimit (mergeBody options) (.message .required)

theorem lawful_packedIntegers (options : ParseOptions) : packedIntegers.Lawful options where
  isIdentifier := by decide
  moves := Scan.moves_scalar .int32
  noBracket _ _ _ h := h.noBracket
  delivers _ _ _ _ h := h.delivers
  limited hlimit := absurd hlimit (Nat.not_lt_zero _)
  merges _ _ _ hholds := ListField.mergeNamed_eq_zoom rfl rfl (fun _ => rfl) hholds

theorem lawful_repeatedBlocks (options : ParseOptions) : repeatedBlocks.Lawful options where
  isIdentifier := by decide
  moves := by
    show Moves id (value options.depthLimit (mergeBody options) (.message .required))
    exact moves_value moves_mergeBody _
  noBracket _ _ _ h := h.noBracket
  delivers hlimit _ _ _ h := h.delivers hlimit
  limited hlimit _ _ _ _ h hc := h.exists_error hlimit hc
  merges _ _ _ hholds := ListField.mergeNamed_eq_zoom rfl rfl (fun _ => rfl) hholds

/-! ## Texts for all groups -/

section

variable {γ : Type} {Written : β → Bytes → Bytes → Prop} {bs : List β}

theorem Commas.exists_text (h : ∀ b ∈ bs, Writable Written b) :
    ∃ s : String, ∀ more, Commas Written bs (Utf8.encode s ++ more) more := by
  induction bs with
  | nil => exact ⟨"", fun _ => .nil⟩
  | cons b bs ih =>
    obtain ⟨⟨s, hs⟩, hbs⟩ := List.forall_mem_cons.1 h
    obtain ⟨t, ht⟩ := ih hbs
    refine ⟨s ++ ("," ++ t), fun more => ?_⟩
    rw [encode_append_append, encode_append_append]
    exact .cons (hs _ (Scan.endsNumber_cons (by decide))) ⟨[], .nil, rfl⟩ (ht more)

theorem Values.exists_text (h : ∀ b ∈ bs, Writable Written b) :
    ∃ s : String, ∀ more, Values Written bs (Utf8.encode s ++ more) more := by
  rcases List.eq_nil_or_concat bs with rfl | ⟨init, b, rfl⟩
  · exact ⟨"[]", fun more => .empty ⟨[], .nil, rfl⟩ ⟨[], .nil, rfl⟩⟩
  · rw [List.concat_eq_append] at h ⊢
    obtain ⟨hinit, hb⟩ := List.forall_mem_append.1 h
    obtain ⟨s, hs⟩ := Commas.exists_text hinit
    obtain ⟨t, ht⟩ := hb b (List.mem_singleton_self b)
    refine ⟨"[" ++ (s ++ (t ++ "]")), fun more => ?_⟩
    rw [encode_append_append, encode_append_append, encode_append_append]
    have hends : Scan.EndsNumber (Utf8.encode "]" ++ more) := Scan.endsNumber_cons (by decide)
    exact .list ⟨[], .nil, rfl⟩ (hs _) (ht _ hends) ⟨[], .nil, rfl⟩

end

/-- Elements that can be written can be written in any grouping. -/
theorem ListField.exists_texts (field : ListField β α) (groups : List (List β))
    (h : ∀ b ∈ groups.flatten, Writable field.Written b) :
    (∃ text, field.Grouped groups text) ∧ ∃ text, field.Separate groups.flatten text := by
  have hgroups : ∀ bs ∈ groups, Writable field.Group bs := by
    intro bs hbs
    obtain ⟨s, hs⟩ := Values.exists_text fun b hb => h b (List.mem_flatten.2 ⟨bs, hbs, hb⟩)
    exact ⟨field.name ++ (":" ++ s), fun more _ => exists_labelled (hs more)⟩
  have hsingles : ∀ b ∈ groups.flatten, Writable field.Single b := by
    intro b hb
    obtain ⟨s, hs⟩ := h b hb
    exact ⟨field.name ++ (":" ++ s), fun more hmore => exists_labelled (hs more hmore)⟩
  obtain ⟨s, hs⟩ := Fields.exists_text hgroups
  obtain ⟨t, ht⟩ := Fields.exists_text hsingles
  have hs := hs []
  have ht := ht []
  rw [List.append_nil] at hs ht
  exact ⟨⟨s, [], hs, rfl⟩, t, [], ht, rfl⟩

/-- All integers can be written in any grouping. -/
theorem exists_integer_texts (groups : List (List Int32)) :
    (∃ text, packedIntegers.Grouped groups text) ∧
      ∃ text, packedIntegers.Separate groups.flatten text :=
  packedIntegers.exists_texts groups fun v _ => writable_integer v

/-- All messages of three integers can be written in any grouping. -/
theorem exists_block_texts (groups : List (List Message))
    (h : ∀ m ∈ groups.flatten, ∃ x y z, m = integersMessage x y z) :
    (∃ text, repeatedBlocks.Grouped groups text) ∧
      ∃ text, repeatedBlocks.Separate groups.flatten text := by
  refine repeatedBlocks.exists_texts groups fun m hm => ?_
  obtain ⟨x, y, z, rfl⟩ := h m hm
  obtain ⟨settings, hsettings⟩ := exists_blockMessage x y z
  rw [← hsettings]
  exact writable_block settings

/-- The elements of packed integers and of repeated blocks may be written as lists or as fields of
their own, in any grouping and with any separators: the outcome is that of one field for each
element, and where an element cannot be read the elements before it are appended. There are such
texts for all groups (`exists_integer_texts`, `exists_block_texts`). -/
theorem lists_alike (options : ParseOptions) :
    packedIntegers.Alike options ∧ repeatedBlocks.Alike options :=
  ⟨(lawful_packedIntegers options).alike, (lawful_repeatedBlocks options).alike⟩

/-- Two integers stand in a list or in fields of their own, and a list of them breaks off. A block
stands in a list, or in other brackets and without a colon in a field of its own. -/
theorem lists_alike_pairs :
    Message.mergeText {} "packed: [1, 0x2]" (.new .scalars) =
        Message.mergeText {} "packed: 1; packed: 0x2 # two" (.new .scalars) ∧
      (∃ e, Message.mergeText {} "packed: [1, 0x2, x" (.new .scalars) =
        .error e (packedIntegers.holding (.new .scalars) [.int32 1, .int32 2])) ∧
      Message.mergeText {} "repeated_message:[<a: 1>]" (.new .requiredForeign) =
        Message.mergeText {} "repeated_message\x7ba: 1,\x7d" (.new .requiredForeign) := by
  obtain ⟨hintegers, hblocks⟩ := lists_alike {}
  have hspace : Gap [byte ' '] := .space rfl .nil
  have hscalars : packedIntegers.Holds (.new .scalars) [] := ⟨rfl, rfl⟩
  have hforeign : repeatedBlocks.Holds (.new .requiredForeign) [] := ⟨rfl, rfl⟩
  have hnumeral : Numeral "1".toList 1 :=
    (Scan.isWord_of_all (by decide) (by decide)).numeral ⟨false, 1, rfl, rfl⟩
  have hnumeral' : Numeral "0x2".toList 2 :=
    (Scan.isWord_of_all (by decide) (by decide)).numeral ⟨false, 2, rfl, rfl⟩
  have hone : ∀ more, Scan.EndsNumber more → Integer 1 (Utf8.encode "1" ++ more) more :=
    fun _ hmore => ⟨[], "1", .nil, hnumeral, hmore, rfl⟩
  have hspaced : ∀ more, Scan.EndsNumber more → Integer 1 (Utf8.encode " 1" ++ more) more :=
    fun _ hmore => ⟨_, "1", hspace, hnumeral, hmore, rfl⟩
  have htwo : ∀ more, Scan.EndsNumber more → Integer 2 (Utf8.encode " 0x2" ++ more) more :=
    fun _ hmore => ⟨_, "0x2", hspace, hnumeral', hmore, rfl⟩
  have hlist : packedIntegers.Grouped [[1] ++ [2]] "packed: [1, 0x2]" :=
    ⟨[], .cons ⟨_, .colon .nil ⟨[], .nil, rfl⟩, .list ⟨_, hspace, rfl⟩
      (.cons (hone _ (by decide)) ⟨[], .nil, rfl⟩ .nil) (htwo _ (by decide)) ⟨[], .nil, rfl⟩⟩
      (.none (by decide) (by decide)) .nil, rfl⟩
  have hfields : packedIntegers.Separate [1, 2] "packed: 1; packed: 0x2 # two" :=
    ⟨Utf8.encode " # two", .cons ⟨_, .colon .nil ⟨[], .nil, rfl⟩, hspaced _ (by decide)⟩
      (.semicolon ⟨[], .nil, rfl⟩)
      (.cons ⟨_, .colon hspace ⟨[], .nil, rfl⟩, htwo _ (by decide)⟩
        (.none (by decide) (by decide)) .nil), rfl⟩
  have hstarts : packedIntegers.StartsBehind [1, 2] (Utf8.encode "packed: [1, 0x2, x")
      (Utf8.encode " x") :=
    ⟨[], [1, 2], _, _, rfl, .nil, .colon .nil ⟨[], .nil, rfl⟩, .list ⟨_, hspace, rfl⟩
      (.cons (hone _ (by decide)) ⟨[], .nil, rfl⟩
        (.cons (htwo _ (by decide)) ⟨[], .nil, rfl⟩ .nil)) fun h => absurd h (by decide)⟩
  have hset : ∀ more, Scan.EndsNumber more → Setting (0, 1) (Utf8.encode "a: 1" ++ more) more :=
    fun more hmore => ⟨_, .colon .nil ⟨[], .nil, rfl⟩, hspaced more hmore⟩
  have hangles : Block (blockMessage [(0, 1)]) (Utf8.encode "<a: 1>]") (Utf8.encode "]") :=
    ⟨_, _, _, _, [(0, 1)], .angles, ⟨[], .nil, rfl⟩,
      .cons (hset _ (by decide)) (.none (by decide) (by decide)) .nil, ⟨[], .nil, rfl⟩, rfl⟩
  have hbraces : Block (blockMessage [(0, 1)]) (Utf8.encode "\x7ba: 1,\x7d") [] :=
    ⟨_, _, _, _, [(0, 1)], .braces, ⟨[], .nil, rfl⟩,
      .cons (hset _ (by decide)) (.comma ⟨[], .nil, rfl⟩) .nil, ⟨[], .nil, rfl⟩, rfl⟩
  have hblockList : repeatedBlocks.Grouped [[] ++ [blockMessage [(0, 1)]]]
      "repeated_message:[<a: 1>]" :=
    ⟨[], .cons ⟨_, .colon .nil ⟨[], .nil, rfl⟩, .list ⟨[], .nil, rfl⟩ .nil hangles
      ⟨[], .nil, rfl⟩⟩ (.none (by decide) (by decide)) .nil, rfl⟩
  have hblockFields : repeatedBlocks.Separate [blockMessage [(0, 1)]]
      "repeated_message\x7ba: 1,\x7d" :=
    ⟨[], .cons ⟨_, .bare .nil (by rintro _ ⟨⟩; rfl) (by decide), hbraces⟩
      (.none (by decide) (by decide)) .nil, rfl⟩
  refine ⟨hintegers.separate hscalars hlist hfields, ?_,
    hblocks.separate hforeign hblockList hblockFields⟩
  obtain ⟨c, hc, hkept⟩ := hintegers.kept hscalars hstarts fun _ => Nat.zero_le _
  have hword : Scan.IsWord "x" := Scan.isWord_of_all (by decide) (by decide)
  have hends : Scan.EndsNumber [] := by decide
  obtain ⟨e, d, hrun⟩ := exists_error_of_word hc (hword.delivers hspace hends) (by decide)
  exact ⟨e, hkept e d hrun⟩

end Text

end Protobuf
