import Mathlib.Logic.Relation
import Protobuf.Proofs.Text.Faults
import Protobuf.Proofs.Text.IgnoredFields

/-!
# Names that cannot be ignored

Map entries know two names, and the options to ignore fields do not reach into them. Where all
undeclared fields are ignored, parsing finds a field unknown only if it comes to a map entry that
directly holds a field with a third name (`Message.parse_ignoringAll`).
-/

namespace Protobuf

open Build Relation

variable {σ α β κ ν : Type}

namespace Text

/-! ## Places where fields stand -/

namespace Scan

/-- A block opens at the first place, and what it holds starts at the second one. -/
def Opens (limit : Nat) (close : Char) (c d : Cursor) : Prop :=
  ∃ u, openBlock c = .ok close u ∧ enter limit u = .ok () d

/-- A field's name starts at the first place, on some line, and ends at the second one. -/
def Names (name : FieldName) (line : Nat) (c d : Cursor) : Prop :=
  ∃ u, Scan.line c = .ok line u ∧ fieldName u = .ok name d

/-- From one element of a list to the next one. -/
def NextElement (x : Scan α) (c d : Cursor) : Prop :=
  ∃ a u v, x c = .ok a u ∧ tryChar ']' u = .ok false v ∧ expect ',' v = .ok () d

/-- A field of a block starts at the first place, and what stands behind its colon at the second
one. -/
def FieldAt (close? : Option Char) (name : FieldName) (line : Nat) (c d : Cursor) : Prop :=
  ∃ u v, finished close? c = .ok false u ∧ Names name line u v ∧ colon v = .ok () d

/-- A field of a map entry starts at the first place, and what stands behind its colon at the second
one. -/
def EntryFieldAt (close : Char) (name : FieldName) (line : Nat) (c d : Cursor) : Prop :=
  ∃ u v, tryChar close c = .ok false u ∧ Names name line u v ∧ colon v = .ok () d

/-- From one field of a map entry to the next one. -/
def NextEntryField (readKey : Scan κ) (readValue : Scan ν) (close : Char) (c d : Cursor) : Prop :=
  ∃ name line u v, EntryFieldAt close name line c u ∧
    (name = .plain "key" ∧ (∃ key, readKey u = .ok key v) ∨
      name = .plain "value" ∧ ∃ value, readValue u = .ok value v) ∧
    separator v = .ok () d

/-- Among the fields of a map entry, which start at the place, is one that is neither the key nor
the value. -/
def Stray (readKey : Scan κ) (readValue : Scan ν) (close : Char) (c : Cursor) (name : FieldName)
    (line : Nat) : Prop :=
  ∃ d e, ReflTransGen (NextEntryField readKey readValue close) c d ∧
    EntryFieldAt close name line d e ∧ name ≠ .plain "key" ∧ name ≠ .plain "value"

end Scan

section

variable (limit : Nat) (body : MergeBody) (label : String)

/-- Reading the field with a label of a member from the first place on comes to a value of some
kind, which starts at the second place. -/
inductive ReadsAt : Member → Cursor → FieldKind → Cursor → Prop
  /-- The value of a oneof stands there. -/
  | oneof {fields : List Field} {field : Field} {c : Cursor}
    (hfind : fields.find? (·.name = label) = some field) : ReadsAt (.oneof fields) c field.kind c
  /-- The value of a repeated field stands alone. -/
  | single {field : Field} {c d : Cursor} (halone : Scan.tryChar '[' c = .ok false d) :
    ReadsAt (.repeated field) c field.kind d
  /-- The value of a repeated field stands in a list. -/
  | element {field : Field} {c d e f : Cursor} (hopen : Scan.tryChar '[' c = .ok true d)
    (hmore : Scan.tryChar ']' d = .ok false e)
    (hsteps : ReflTransGen (Scan.NextElement (value limit body field.kind)) e f) :
    ReadsAt (.repeated field) c field.kind f
  /-- The value of a map stands in an entry. -/
  | entry {number line : Nat} {name : String} {key : ScalarKind} {kind : FieldKind} {close : Char}
    {c d e f : Cursor} (hopen : Scan.Opens limit close c d)
    (hsteps : ReflTransGen
      (Scan.NextEntryField (Scan.scalar key) (value limit body kind) close) d e)
    (hfield : Scan.EntryFieldAt close (.plain "value") line e f) :
    ReadsAt (.map number name key kind) c kind f

/-- Merging the field with a label of a member into a slot, from some place on, comes to merging
fields into a message, from another place on. -/
inductive Enters : Member → Slot Message → Cursor → Message → Cursor → Prop
  /-- An optional message is merged into the one that is there. -/
  | optional {field : Field} {required : Bool} {type : MessageType} {s : Slot Message}
    {close : Char} {c d : Cursor} (hkind : field.kind.holds type)
    (hopen : Scan.Opens limit close c d) :
    Enters (.optional field required) s c (s.optionalMessage type) d
  /-- Another message starts out new. -/
  | value {member : Member} {kind : FieldKind} {type : MessageType} {s : Slot Message}
    {close : Char} {c d e : Cursor} (hread : ReadsAt limit body label member c kind d)
    (hkind : kind.holds type) (hopen : Scan.Opens limit close d e) :
    Enters member s c (.new type) e

end

/-- A field of a member of the message's type stands at the first place, and what stands behind its
colon at the second one. -/
def MemberAt (m : Message) (c : Cursor) (label : String) (i : Nat) (member : Member)
    (d : Cursor) : Prop :=
  ∃ close? name line, Scan.FieldAt close? name line c d ∧ m.type.label? name = some label ∧
    Message.member? m.type (·.hasName label) = some (i, member)

/-- Merging fields into a message from some place on comes to merging fields into the same or
another message from another place on. There are rounds for all bytes that are left. -/
inductive Leads (options : ParseOptions) : Message × Cursor → Message × Cursor → Prop
  /-- The next field of the message is merged. -/
  | next {close? : Option Char} {name : FieldName} {line rounds : Nat} {m m' : Message}
    {c d e c' : Cursor} (hrounds : c.rest.length ≤ rounds)
    (hmore : Scan.finished close? c = .ok false d) (hname : Scan.Names name line d e)
    (hrun : mergeBehind options (mergeFields options rounds) line name (m, e) = .ok () (m', c')) :
    Leads options (m, c) (m', c')
  /-- The fields of a message inside the message are merged. -/
  | inside {rounds i : Nat} {label : String} {member : Member} {m m' : Message} {c d c' : Cursor}
    (hrounds : c.rest.length ≤ rounds) (hmember : MemberAt m c label i member d)
    (henters : Enters options.depthLimit (mergeFields options rounds) label member
      (m.slots.getD i member.initial) d m' c') : Leads options (m, c) (m', c')
  /-- The fields of an expanded payload are merged. -/
  | expanded {close? : Option Char} {url : String} {line : Nat} {type : MessageType} {close : Char}
    {m : Message} {c d c' : Cursor} (hfield : Scan.FieldAt close? (.bracketed url) line c d)
    (hexpands : m.type.expands (.bracketed url) = true)
    (hknown : options.known?.bind (·.lookup? url) = some type)
    (hopen : Scan.Opens options.depthLimit close d c') : Leads options (m, c) (.new type, c')

/-- In front of the place stands a field of a map, whose entry holds a field that is neither the key
nor the value. -/
def StrayEntry (options : ParseOptions) (m : Message) (c : Cursor) (name : FieldName)
    (line : Nat) : Prop :=
  ∃ label i number mapName key kind d close e rounds,
    c.rest.length ≤ rounds ∧ MemberAt m c label i (.map number mapName key kind) d ∧
    Scan.Opens options.depthLimit close d e ∧
    Scan.Stray (Scan.scalar key) (value options.depthLimit (mergeFields options rounds) kind) close
      e name line

/-- Merging fields into the message from the place on comes to a map entry with a field that is
neither the key nor the value. -/
def ComesToStray (options : ParseOptions) (p : Message × Cursor) (display : String)
    (line : Nat) : Prop :=
  ∃ m c name, ReflTransGen (Leads options) p (m, c) ∧ StrayEntry options m c name line ∧
    display = name.display

theorem ComesToStray.head {options : ParseOptions} {p q : Message × Cursor} {display : String}
    {line : Nat} (hstep : Leads options p q) (h : ComesToStray options q display line) :
    ComesToStray options p display line := by
  obtain ⟨m, c, name, hsteps, hstray, hname⟩ := h
  exact ⟨m, c, name, .head hstep hsteps, hstray, hname⟩

/-! ## How far fields lead -/

section

variable {limit : Nat} {body : MergeBody} {c d : Cursor}

theorem Scan.Opens.length_le {close : Char} (h : Scan.Opens limit close c d) :
    d.rest.length ≤ c.rest.length := by
  obtain ⟨u, hu, hd⟩ := h
  exact Nat.le_of_lt (Scan.length_lt_of_enter hu hd)

theorem Scan.EntryFieldAt.length_le {close : Char} {name : FieldName} {line : Nat}
    (h : Scan.EntryFieldAt close name line c d) : d.rest.length ≤ c.rest.length := by
  obtain ⟨u, v, hu, ⟨w, hw, hv⟩, hd⟩ := h
  have htry := (Scan.moves_tryChar close).length_le hu
  have hline := Scan.moves_line.length_le hw
  have hname := Scan.moves_fieldName.length_le hv
  have hcolon := Scan.moves_colon.length_le hd
  omega

theorem Scan.length_le_of_elements {x : Scan α} (hx : Moves id x)
    (h : ReflTransGen (Scan.NextElement x) c d) : d.rest.length ≤ c.rest.length := by
  induction h with
  | refl => exact Nat.le_refl _
  | tail _ hstep ih =>
    obtain ⟨a, u, v, hu, hv, hd⟩ := hstep
    have helement := hx.length_le hu
    have htry := (Scan.moves_tryChar ']').length_le hv
    have hexpect := (Scan.moves_expect ',').length_le hd
    omega

theorem Scan.length_le_of_entryFields {readKey : Scan κ} {readValue : Scan ν} {close : Char}
    (hkey : Moves id readKey) (hvalue : Moves id readValue)
    (h : ReflTransGen (Scan.NextEntryField readKey readValue close) c d) :
    d.rest.length ≤ c.rest.length := by
  induction h with
  | refl => exact Nat.le_refl _
  | tail _ hstep ih =>
    obtain ⟨name, line, u, v, hfield, hread, hd⟩ := hstep
    have hfield := hfield.length_le
    have hseparator := Scan.moves_separator.length_le hd
    have hread : v.rest.length ≤ u.rest.length := by
      rcases hread with ⟨-, key, hkeyRun⟩ | ⟨-, value, hvalueRun⟩
      · exact hkey.length_le hkeyRun
      · exact hvalue.length_le hvalueRun
    omega

variable (hbody : ∀ close?, Moves Prod.snd (body close?))
include hbody

theorem ReadsAt.length_le {label : String} {member : Member} {kind : FieldKind}
    (h : ReadsAt limit body label member c kind d) : d.rest.length ≤ c.rest.length := by
  cases h with
  | oneof hfind => exact Nat.le_refl _
  | single halone => exact (Scan.moves_tryChar '[').length_le halone
  | element hopen hmore hsteps =>
    have htry := (Scan.moves_tryChar '[').length_le hopen
    have hclosed := (Scan.moves_tryChar ']').length_le hmore
    have hlist := Scan.length_le_of_elements (moves_value hbody _) hsteps
    omega
  | entry hopen hsteps hfield =>
    have hblock := hopen.length_le
    have hentry :=
      Scan.length_le_of_entryFields (Scan.moves_scalar _) (moves_value hbody _) hsteps
    have hname := hfield.length_le
    omega

theorem Enters.length_le {label : String} {member : Member} {s : Slot Message} {m : Message}
    (h : Enters limit body label member s c m d) : d.rest.length ≤ c.rest.length := by
  cases h with
  | optional hkind hopen => exact hopen.length_le
  | value hread hkind hopen => exact Nat.le_trans hopen.length_le (hread.length_le hbody)

end

/-! ## Where unknown fields are found -/

/-- The action finds no field unknown. -/
abbrev Quiet (x : EStateM Error σ α) : Prop :=
  Raises (fun e => ∀ name line, e ≠ .unknownField name line) x

theorem Raises.quiet {x : EStateM Error σ α} (hx : Raises MalformedText x) : Quiet x := by
  refine hx.imp fun e h name line heq => ?_
  obtain ⟨line', column, fault, rfl⟩ := h
  cases heq

theorem Raises.quiet_of_deep {limit : Nat} {x : EStateM Error σ α}
    (hx : Raises (MalformedOrDeep limit) x) : Quiet x := by
  refine hx.imp fun e h name line heq => ?_
  rcases h with ⟨line', column, fault, rfl⟩ | rfl <;> cases heq

section

variable {name : String} {line : Nat}

theorem Raises.of_bind {x : EStateM Error σ α} {f : α → EStateM Error σ β} {s t : σ}
    (hx : Quiet x) (h : (x >>= f) s = .error (.unknownField name line) t) :
    ∃ a u, x s = .ok a u ∧ f a u = .error (.unknownField name line) t := by
  rcases bind_eq_error.1 h with h | h
  · exact absurd rfl (hx s _ t h name line)
  · exact h

theorem Raises.of_read_bind {x : Scan α} {f : α → Build Cursor σ β} {s : σ} {c : Cursor}
    {t : σ × Cursor} (hx : Quiet x)
    (h : (Build.read x >>= f) (s, c) = .error (.unknownField name line) t) :
    ∃ a d, x c = .ok a d ∧ f a (s, d) = .error (.unknownField name line) t := by
  obtain ⟨a, ⟨s', d⟩, hread, hf⟩ := (Raises.read hx).of_bind h
  obtain ⟨hd, rfl⟩ := read_eq_ok.1 hread
  exact ⟨a, d, hd, hf⟩

namespace Scan

variable {limit : Nat} {body : MergeBody} {c d : Cursor}

/-- A list finds a field unknown where one of its elements does. -/
theorem unknown_of_elements {x : Scan α} (rounds : Nat) {vs : List α} {t : List α × Cursor}
    (h : elements x rounds (vs, c) = .error (.unknownField name line) t) :
    ∃ d e, ReflTransGen (NextElement x) c d ∧ x d = .error (.unknownField name line) e := by
  induction rounds generalizing vs c with
  | zero => cases h
  | succ rounds ih =>
    rcases bind_eq_error.1 h with hread | ⟨a, ⟨vs', d⟩, hread, hnext⟩
    · exact ⟨c, t.2, .refl, (read_eq_error.1 hread).1⟩
    · obtain ⟨hd, rfl⟩ := read_eq_ok.1 hread
      rw [run_bind_of_ok (run_update _ vs' d)] at hnext
      obtain ⟨closed, e, he, hnext⟩ := (raises_tryChar ']').of_read_bind hnext
      cases closed with
      | true => cases hnext
      | false =>
        obtain ⟨_, f, hf, hloop⟩ := (raises_expect ',').quiet.of_read_bind hnext
        obtain ⟨u, v, hsteps, hu⟩ := ih hloop
        exact ⟨u, v, .head ⟨a, d, e, hd, he, hf⟩ hsteps, hu⟩

theorem unknown_of_repeated {x : Scan α} {vs : List α} {t : List α × Cursor}
    (h : repeated x (vs, c) = .error (.unknownField name line) t) :
    (∃ d e, tryChar '[' c = .ok false d ∧ x d = .error (.unknownField name line) e) ∨
      ∃ d e f g, tryChar '[' c = .ok true d ∧ tryChar ']' d = .ok false e ∧
        ReflTransGen (NextElement x) e f ∧ x f = .error (.unknownField name line) g := by
  obtain ⟨opened, d, hd, hnext⟩ := (raises_tryChar '[').of_read_bind h
  cases opened with
  | false =>
    rcases bind_eq_error.1 hnext with hread | ⟨a, u, -, hupdate⟩
    · exact .inl ⟨d, t.2, hd, (read_eq_error.1 hread).1⟩
    · cases hupdate
  | true =>
    obtain ⟨closed, e, he, hnext⟩ := (raises_tryChar ']').of_read_bind hnext
    cases closed with
    | true => cases hnext
    | false =>
      obtain ⟨f, g, hsteps, hf⟩ := unknown_of_elements _ hnext
      exact .inr ⟨d, e, f, g, hd, he, hsteps, hf⟩

/-- Among the fields of a map entry, which start at the place, is a value in which a field is found
unknown, or a field that is neither the key nor the value. -/
def UnknownInEntry (readKey : Scan κ) (readValue : Scan ν) (close : Char) (c : Cursor)
    (name : String) (line : Nat) : Prop :=
  (∃ d e f line', ReflTransGen (NextEntryField readKey readValue close) c d ∧
    EntryFieldAt close (.plain "value") line' d e ∧
    readValue e = .error (.unknownField name line) f) ∨
  ∃ field, Stray readKey readValue close c field line ∧ name = field.display

variable {readKey : Scan κ} {readValue : Scan ν} {close : Char}

theorem UnknownInEntry.head (hstep : NextEntryField readKey readValue close c d)
    (h : UnknownInEntry readKey readValue close d name line) :
    UnknownInEntry readKey readValue close c name line := by
  rcases h with ⟨e, f, g, line', hsteps, hfield, hvalue⟩ | ⟨field, ⟨e, f, hsteps, hstray⟩, hname⟩
  · exact .inl ⟨e, f, g, line', .head hstep hsteps, hfield, hvalue⟩
  · exact .inr ⟨field, ⟨e, f, .head hstep hsteps, hstray⟩, hname⟩

theorem unknown_of_entryFields (hkey : Quiet readKey) (rounds : Nat) {entry : κ × ν}
    {t : (κ × ν) × Cursor}
    (h : entryFields readKey readValue close rounds (entry, c) =
      .error (.unknownField name line) t) :
    UnknownInEntry readKey readValue close c name line := by
  induction rounds generalizing entry c with
  | zero => cases h
  | succ rounds ih =>
    obtain ⟨ended, d, hd, hnext⟩ := (raises_tryChar close).of_read_bind h
    cases ended with
    | true => cases hnext
    | false =>
      obtain ⟨line', e, he, hnext⟩ := raises_line.of_read_bind hnext
      obtain ⟨field, f, hf, hnext⟩ := raises_fieldName.quiet.of_read_bind hnext
      obtain ⟨_, u, hu, hnext⟩ := raises_colon.of_read_bind hnext
      have hfield : EntryFieldAt close field line' c u := ⟨d, f, hd, ⟨e, he, hf⟩, hu⟩
      -- Behind the key or the value the loop goes on.
      have hbehind : ∀ {entry : κ × ν} {v : Cursor},
          (field = .plain "key" ∧ (∃ key, readKey u = .ok key v) ∨
            field = .plain "value" ∧ ∃ value, readValue u = .ok value v) → (do
            read separator
            entryFields readKey readValue close rounds : Build Cursor (κ × ν) Unit) (entry, v) =
              .error (.unknownField name line) t →
          UnknownInEntry readKey readValue close c name line := by
        intro entry v hread hrun
        obtain ⟨_, w, hw, hloop⟩ := raises_separator.of_read_bind hrun
        exact (ih hloop).head ⟨field, line', u, v, hfield, hread, hw⟩
      by_cases hiskey : field = .plain "key"
      · rw [if_pos hiskey] at hnext
        obtain ⟨key, v, hv, hlast⟩ := hkey.of_read_bind hnext
        rw [run_bind_of_ok (run_update _ entry v)] at hlast
        exact hbehind (.inl ⟨hiskey, key, hv⟩) hlast
      · rw [if_neg hiskey] at hnext
        by_cases hisvalue : field = .plain "value"
        · rw [if_pos hisvalue] at hnext
          rcases bind_eq_error.1 hnext with hread | ⟨value, ⟨entry', v⟩, hread, hlast⟩
          · rw [hisvalue] at hfield
            exact .inl ⟨c, u, t.2, line', .refl, hfield, (read_eq_error.1 hread).1⟩
          · rw [run_bind_of_ok (run_update _ entry' v)] at hlast
            exact hbehind (.inr ⟨hisvalue, value, (read_eq_ok.1 hread).1⟩) hlast
        · rw [if_neg hisvalue] at hnext
          cases hnext
          exact .inr ⟨field, ⟨c, u, .refl, hfield, hiskey, hisvalue⟩, rfl⟩

theorem raises_enter_quiet : Quiet (enter limit) := (raises_enter limit).quiet_of_deep

theorem unknown_of_mapEntry {zero : κ × ν} (hkey : Quiet readKey)
    (h : mapEntry limit zero readKey readValue c = .error (.unknownField name line) d) :
    ∃ close e, Opens limit close c e ∧ UnknownInEntry readKey readValue close e name line := by
  obtain ⟨close, u, hu, hnext⟩ := raises_openBlock.quiet.of_bind h
  obtain ⟨_, e, he, hnext⟩ := raises_enter_quiet.of_bind hnext
  refine ⟨close, e, ⟨u, hu, he⟩, ?_⟩
  rcases bind_eq_error.1 hnext with halone | ⟨entry, v, -, hleave⟩
  · rw [run_alone, run_bind_of_ok (run_source zero e)] at halone
    cases hrun : entryFields readKey readValue close (e.rest.length + 1) (zero, e) with
    | ok a p =>
      rw [hrun] at halone
      cases halone
    | error err p =>
      rw [hrun] at halone
      cases halone
      exact unknown_of_entryFields hkey _ hrun
  · cases hleave

end Scan

/-! ## Messages -/

variable {options : ParseOptions} {limit : Nat} {body : MergeBody} {c d : Cursor}

theorem unknown_of_block {m : Message} {t : Message × Cursor}
    (h : block limit body (m, c) = .error (.unknownField name line) t) :
    ∃ close d t', Scan.Opens limit close c d ∧
      body (some close) (m, d) = .error (.unknownField name line) t' := by
  obtain ⟨close, u, hu, hnext⟩ := Scan.raises_openBlock.quiet.of_read_bind h
  obtain ⟨_, e, he, hnext⟩ := Scan.raises_enter_quiet.of_read_bind hnext
  rcases bind_eq_error.1 hnext with hbody | ⟨_, ⟨m', v⟩, -, hleave⟩
  · exact ⟨close, e, t, ⟨u, hu, he⟩, hbody⟩
  · cases hleave

/-- A new message in which a field is found unknown. -/
theorem unknown_of_alone {type : MessageType}
    (h : alone (.new type) (block limit body) c = .error (.unknownField name line) d) :
    ∃ close e t, Scan.Opens limit close c e ∧
      body (some close) (.new type, e) = .error (.unknownField name line) t := by
  rw [run_alone] at h
  cases hrun : block limit body (.new type, c) with
  | ok a p =>
    rw [hrun] at h
    cases h
  | error e p =>
    rw [hrun] at h
    cases h
    exact unknown_of_block hrun

theorem unknown_of_value {kind : FieldKind}
    (h : value limit body kind c = .error (.unknownField name line) d) :
    ∃ type close e t, kind.holds type ∧ Scan.Opens limit close c e ∧
      body (some close) (.new type, e) = .error (.unknownField name line) t := by
  cases kind with
  | scalar kind =>
    exact absurd rfl (((Scan.raises_scalar kind).quiet.map Value.scalar) c _ d h name line)
  | message type | group type =>
    rw [value, map_eq_bind] at h
    rcases bind_eq_error.1 h with halone | ⟨m, u, -, hpure⟩
    · obtain ⟨close, e, t, hopen, hbody⟩ := unknown_of_alone halone
      exact ⟨type, close, e, t, by simp [FieldKind.holds], hopen, hbody⟩
    · cases hpure

/-- The field of a member finds a field unknown where fields are merged into a message inside, or in
a map entry that holds a field that is neither the key nor the value. -/
theorem unknown_of_mergeMember {label : String} {member : Member} {s : Slot Message}
    {t : Slot Message × Cursor}
    (h : mergeMember limit body label member (s, c) = .error (.unknownField name line) t) :
    (∃ m d close t', Enters limit body label member s c m d ∧
      body (some close) (m, d) = .error (.unknownField name line) t') ∨
    ∃ number mapName key kind close d field, member = .map number mapName key kind ∧
      Scan.Opens limit close c d ∧
      Scan.Stray (Scan.scalar key) (value limit body kind) close d field line ∧
      name = field.display := by
  -- A value that is read by itself.
  have hvalue : ∀ {kind : FieldKind} {d e : Cursor}, ReadsAt limit body label member c kind d →
      value limit body kind d = .error (.unknownField name line) e →
      ∃ m d close t', Enters limit body label member s c m d ∧
        body (some close) (m, d) = .error (.unknownField name line) t' := by
    intro kind d e hread hrun
    obtain ⟨type, close, f, t', hkind, hopen, hbody⟩ := unknown_of_value hrun
    exact ⟨.new type, f, close, t', .value hread hkind hopen, hbody⟩
  have hscalar : ∀ (kind : ScalarKind) (d e : Cursor),
      Scan.scalar kind d ≠ .error (.unknownField name line) e :=
    fun kind d e hrun => (Scan.raises_scalar kind).quiet d _ e hrun name line rfl
  cases member with
  | plain number label kind =>
    obtain ⟨scalar, d, -, hput⟩ := (Scan.raises_scalar kind).quiet.of_read_bind h
    cases hput
  | optional field required =>
    rw [mergeMember] at h
    cases hkind : field.kind with
    | scalar kind =>
      rw [hkind] at h
      obtain ⟨scalar, d, -, hput⟩ := (Scan.raises_scalar kind).quiet.of_read_bind h
      cases hput
    | message type | group type =>
      rw [hkind] at h
      obtain ⟨m, hblock, -⟩ := zoom_eq_error.1 h
      obtain ⟨close, d, t', hopen, hbody⟩ := unknown_of_block hblock
      have hholds : field.kind.holds type := by simp [FieldKind.holds, hkind]
      exact .inl ⟨s.optionalMessage type, d, close, t', .optional hholds hopen, hbody⟩
  | packed number name kind =>
    rw [mergeMember] at h
    obtain ⟨scalars, hrepeated, -⟩ := zoom_eq_error.1 h
    rcases Scan.unknown_of_repeated hrepeated with ⟨d, e, -, hd⟩ | ⟨d, e, f, g, -, -, -, hf⟩
    · exact absurd hd (hscalar kind d e)
    · exact absurd hf (hscalar kind f g)
  | repeated field =>
    rw [mergeMember] at h
    obtain ⟨values, hrepeated, -⟩ := zoom_eq_error.1 h
    rcases Scan.unknown_of_repeated hrepeated with
      ⟨d, e, halone, hd⟩ | ⟨d, e, f, g, hopen, hmore, hsteps, hf⟩
    · exact .inl (hvalue (.single halone) hd)
    · exact .inl (hvalue (.element hopen hmore hsteps) hf)
  | map number mapName key kind =>
    rcases bind_eq_error.1 h with hread | ⟨entry, u, -, hupdate⟩
    · have hkey : Quiet (Scan.scalar key) := (Scan.raises_scalar key).quiet
      obtain ⟨close, d, hopen, hentry⟩ :=
        Scan.unknown_of_mapEntry hkey (read_eq_error.1 hread).1
      rcases hentry with ⟨e, f, g, line', hsteps, hfield, hrun⟩ | ⟨field, hstray, hname⟩
      · exact .inl (hvalue (.entry hopen hsteps hfield) hrun)
      · exact .inr ⟨number, mapName, key, kind, close, d, field, rfl, hopen, hstray, hname⟩
    · cases hupdate
  | oneof fields =>
    rw [mergeMember] at h
    cases hfind : fields.find? (·.name = label) with
    | none =>
      rw [hfind] at h
      cases h
    | some field =>
      rw [hfind] at h
      rcases bind_eq_error.1 h with hread | ⟨v, u, -, hput⟩
      · exact .inl (hvalue (.oneof hfind) (read_eq_error.1 hread).1)
      · cases hput
  | payload number name =>
    obtain ⟨b, d, -, hput⟩ := Scan.raises_bytes.quiet.of_read_bind h
    cases hput

theorem unknown_of_mergeExpanded {url : String} {m : Message} {t : Message × Cursor}
    (h : mergeExpanded options body url (m, c) = .error (.unknownField name line) t) :
    ∃ type close d t', options.known?.bind (·.lookup? url) = some type ∧
      Scan.Opens options.depthLimit close c d ∧
      body (some close) (.new type, d) = .error (.unknownField name line) t' := by
  rw [mergeExpanded] at h
  cases hknown : options.known?.bind (·.lookup? url) with
  | none =>
    rw [hknown] at h
    cases h
  | some type =>
    rw [hknown] at h
    rcases bind_eq_error.1 h with hread | ⟨payload, p, -, hupdate⟩
    · obtain ⟨close, d, t', hopen, hrun⟩ := unknown_of_alone (read_eq_error.1 hread).1
      exact ⟨type, close, d, t', rfl, hopen, hrun⟩
    · cases hupdate

/-- A field that is merged finds a field unknown only where merging comes to a map entry with a
field that is neither the key nor the value. -/
theorem comesToStray_of_mergeNamed {rounds : Nat}
    (hbody : ∀ {close : Char} {m : Message} {c : Cursor} {t : Message × Cursor},
      c.rest.length < rounds →
      mergeFields options rounds (some close) (m, c) = .error (.unknownField name line) t →
      ComesToStray options (m, c) name line)
    {close? : Option Char} {field : FieldName} {line' : Nat} {m : Message}
    {t : Message × Cursor} (hrounds : c.rest.length ≤ rounds)
    (hlt : d.rest.length < c.rest.length) (hfield : Scan.FieldAt close? field line' c d)
    (h : mergeNamed options (mergeFields options rounds) field (m, d) =
      .error (.unknownField name line) t) : ComesToStray options (m, c) name line := by
  rcases mergeNamed_cases options (mergeFields options rounds) field m d with
    ⟨label, i, member, hlabel, hfound, hrun⟩ | ⟨url, rfl, hexpands, hrun⟩ | ⟨-, hrun⟩
  · rw [hrun] at h
    have hmember : MemberAt m c label i member d := ⟨close?, field, line', hfield, hlabel, hfound⟩
    rcases bind_eq_error.1 h with hslot | ⟨_, p, -, hpure⟩
    · obtain ⟨m', d'⟩ := t
      obtain ⟨s, hs, -⟩ := zoom_eq_error.1 hslot
      rcases unknown_of_mergeMember hs with
        ⟨m1, e, close, t', henters, hinside⟩ |
          ⟨number, mapName, key, kind, close, e, stray, rfl, hopen, hstray, hname⟩
      · have hle := henters.length_le (moves_mergeFields rounds)
        exact (hbody (by omega) hinside).head (.inside hrounds hmember henters)
      · exact ⟨m, c, stray, .refl, ⟨label, i, number, mapName, key, kind, d, close, e, rounds,
          hrounds, hmember, hopen, hstray⟩, hname⟩
    · cases hpure
  · rw [hrun] at h
    rcases bind_eq_error.1 h with hexpanded | ⟨_, p, -, hpure⟩
    · obtain ⟨type, close, e, t', hknown, hopen, hinside⟩ := unknown_of_mergeExpanded hexpanded
      have hle := hopen.length_le
      exact (hbody (by omega) hinside).head (.expanded hfield hexpands hknown hopen)
    · cases hpure
  · rw [hrun] at h
    cases h

theorem comesToStray_of_mergeFields (rounds : Nat) {close? : Option Char} {m : Message}
    {t : Message × Cursor} (hrounds : c.rest.length < rounds)
    (h : mergeFields options.ignoringAll rounds close? (m, c) =
      .error (.unknownField name line) t) :
    ComesToStray options.ignoringAll (m, c) name line := by
  induction rounds generalizing close? m c t with
  | zero => cases h
  | succ rounds ih =>
    rw [mergeFields_succ] at h
    obtain ⟨ended, d, hd, hnext⟩ := (Scan.raises_finished close?).quiet.of_read_bind h
    cases ended with
    | true => cases hnext
    | false =>
      obtain ⟨line', e, he, hnext⟩ := Scan.raises_line.of_read_bind hnext
      obtain ⟨field, f, hf, hnext⟩ := Scan.raises_fieldName.quiet.of_read_bind hnext
      have hfinished := (Scan.moves_finished close?).length_le hd
      have hline := Scan.moves_line.length_le he
      have hname := Scan.shrinks_fieldName e field f hf
      rcases bind_eq_error.1 hnext with hbehind | ⟨_, ⟨m', g⟩, hbehind, hloop⟩
      · obtain ⟨_, u, hu, hnamed⟩ := Scan.raises_colon.of_read_bind hbehind
        have hfield : Scan.FieldAt close? field line' c u := ⟨d, f, hd, ⟨e, he, hf⟩, hu⟩
        have hcolon := Scan.moves_colon.length_le hu
        rcases bind_eq_error.1 hnamed with hnamed | ⟨declared, ⟨m', v⟩, -, hskip⟩
        · exact comesToStray_of_mergeNamed ih (by omega) (by omega) hfield hnamed
        · -- What is skipped finds nothing unknown.
          have hseparator : Quiet (read Scan.separator : Build Cursor Message Unit) :=
            .read Scan.raises_separator
          rw [ParseOptions.ignores_ignoringAll] at hskip
          cases declared with
          | true => exact absurd rfl (hseparator (m', v) _ t hskip name line)
          | false =>
            obtain ⟨_, w, -, hlast⟩ := (Scan.raises_passValue options.depthLimit
              v.sawColon).quiet_of_deep.of_read_bind hskip
            exact absurd rfl (hseparator (m', w) _ t hlast name line)
      · have hle : g.rest.length ≤ f.rest.length :=
          ((moves_mergeBehind (moves_mergeFields rounds) line' field (m, f)).before
            hbehind).length_le
        exact (ih (by omega) hloop).head
          (.next (Nat.le_of_lt_succ hrounds) hd ⟨e, he, hf⟩ hbehind)

end

end Text

namespace Message

open Text

/-- Where all undeclared fields are ignored, a field is found unknown only in a map entry, and only
one that stands directly in it and is neither its key nor its value. The value of any other field
that is not declared is read over, no message is changed by it, and no message inside the one that
is parsed has unknown fields. -/
theorem parse_ignoringAll (options : ParseOptions) (type : MessageType) (text : String) :
    (∀ name line, parse options.ignoringAll type text = .error (.unknownField name line) →
      ComesToStray options.ignoringAll (.new type, .new text) name line) ∧
    (∀ (body : Text.MergeBody) (line : Nat) (name : FieldName) (m : Message) (c : Cursor),
      m.type.declares name = false →
      mergeBehind options.ignoringAll body line name (m, c) =
        read (do
          Scan.colon
          Scan.passValue options.depthLimit (← get).sawColon
          Scan.separator) (m, c)) ∧
    ∀ m, parse options.ignoringAll type text = .ok m → m.withoutUnknown = m := by
  refine ⟨fun name line h => ?_, fun body line name m c h => mergeBehind_of_undeclared line h,
    fun m h => withoutUnknown_of_parse h⟩
  rcases mergeBody_of_parse_error h with h | ⟨p, hmerge⟩
  · cases h
  · rw [Text.mergeBody, run_bind_of_ok (run_source _ _)] at hmerge
    exact comesToStray_of_mergeFields _ (Nat.lt_succ_self _) hmerge

/-- An undeclared name behind the value of an entry. -/
theorem parse_ignoringAll_entry :
    ComesToStray (ParseOptions.ignoringAll {})
      (.new .scalars, .new "labels \x7b value: 3 foo: 1 \x7d") "foo" 1 := by
  have h : parse (ParseOptions.ignoringAll {}) .scalars "labels \x7b value: 3 foo: 1 \x7d" =
      .error (.unknownField "foo" 1) := rfl
  exact (parse_ignoringAll {} .scalars _).1 "foo" 1 h

/-- The options to ignore fields do not reach into the entries of a map. -/
theorem parse_entry_unknownField :
    parse (ParseOptions.ignoringAll {}) .scalars "labels \x7b foo: 1 \x7d" =
      .error (.unknownField "foo" 1) := rfl

end Message

end Protobuf
