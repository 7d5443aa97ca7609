import Protobuf.Proofs.Commuting
import Protobuf.Proofs.ReadingBack

/-!
# Map entries

A map entry may hold any fields in any order. Its last key and its last value count, others are
skipped, and entries are inserted into the map in the order of the input (`Message.merge_entries`).
An entry in which an end tag closes nothing is malformed.
-/

namespace Protobuf

open Build Reader

/-! ## End tags that close nothing -/

/-- The input is malformed since an end tag stands where it closes nothing. -/
inductive Error.StrayEnd : Error → Prop
  /-- Among fields that are merged. -/
  | unexpected (offset number : Nat) :
    StrayEnd (.malformed offset (.unexpectedEndGroup number))
  /-- In a skipped group with another number. -/
  | mismatched (offset found expected : Nat) :
    StrayEnd (.malformed offset (.mismatchedEndGroup found expected))
  /-- In place of a field that is skipped. -/
  | unmatched (offset : Nat) : StrayEnd (.malformed offset .unmatchedEndGroup)

theorem Error.StrayEnd.shift {e : Error} (h : e.StrayEnd) (base : Nat) :
    (e.shift base).StrayEnd := by
  cases h <;> constructor

/-- The bytes are an end tag that closes nothing, or lead to one within groups that are skipped,
where so many levels are left. The innermost open group may be given; tags that are `known` are not
skipped. -/
inductive Stray : (known : Tag → Prop) → (group? : Option Nat) → (levels : Nat) → Bytes → Prop
  /-- The end tag itself. -/
  | stop {known : Tag → Prop} {group? : Option Nat} {levels : Nat} {tag : Tag} {header : Bytes}
    (ends : tag.wireType = .endGroup) (closes_nothing : group? ≠ some tag.number)
    (tagged : tag.SpelledBy header) : Stray known group? levels header
  /-- A start tag, the fields behind it, and what is astray in the group. -/
  | group {known : Tag → Prop} {group? : Option Nat} {levels : Nat} {tag : Tag}
    {header front inner : Bytes} (opens : tag.wireType = .startGroup) (skipped : ¬ known tag)
    (tagged : tag.SpelledBy header) (fields : Phrase.fields.SpelledBy levels front)
    (inside : Stray (fun _ => False) (some tag.number) levels inner) :
    Stray known group? (levels + 1) (header ++ (front ++ inner))

namespace Reader

variable {limit levels : Nat} {front bytes behind : Bytes} {r t : Reader} {rounds : Nat}

theorem exists_consumes (h : r.rest = front ++ behind) :
    ∃ t, r.Consumes front t ∧ t.rest = behind :=
  ⟨⟨behind, r.position + front.length, r.depth⟩, ⟨h, rfl, rfl⟩, rfl⟩

/-- The fields in a group are skipped while the group is open. -/
theorem skipGroups_of_fields (number : Nat) (outer : List Nat)
    (h : Phrase.fields.SpelledBy levels front)
    (hd : levels + (r.depth + (outer.length + 1)) ≤ limit) (hr : r.Consumes front t)
    (hrounds : r.remaining < rounds) :
    ∃ rounds', t.remaining < rounds' ∧
      skipGroups limit rounds (number :: outer) r =
        skipGroups limit rounds' (number :: outer) t := by
  have hdeep : (r.deepen (outer.length + 1)).Consumes front (t.deepen (outer.length + 1)) :=
    ⟨hr.1, hr.2.1, congrArg (· + (outer.length + 1)) hr.2.2⟩
  have hlevels : levels ≤ limit - (r.deepen (outer.length + 1)).depth := by
    rw [deepen]
    dsimp only
    omega
  obtain ⟨fields, hrun⟩ := h.reads hlevels hdeep
  obtain ⟨u, rounds', hu, hrounds', heq⟩ :=
    RawField.skipGroups_of_run number outer hrun (by omega) hrounds
  obtain ⟨rest, position, depth⟩ := t
  obtain ⟨rest', position', depth'⟩ := u
  simp only [deepen, Reader.mk.injEq, Nat.add_right_cancel_iff] at hu
  obtain ⟨rfl, rfl, rfl⟩ := hu
  exact ⟨rounds', hrounds', heq⟩

/-- What is astray in a group cannot be skipped, whatever stands behind it. -/
theorem skipGroups_of_stray {known : Tag → Prop} {number : Nat} (outer : List Nat)
    (h : Stray known (some number) levels bytes) (hfront : Phrase.fields.SpelledBy levels front)
    (hd : levels + (r.depth + (outer.length + 1)) ≤ limit)
    (hr : r.rest = front ++ (bytes ++ behind)) (hrounds : r.remaining < rounds) :
    ∃ e u, e.StrayEnd ∧ skipGroups limit rounds (number :: outer) r = .error e u := by
  -- the groups around the innermost one are on the stack
  generalize hgroup : some number = group? at h
  induction h generalizing number outer front r rounds with
  | @stop known group? levels tag header ends closes_nothing tagged =>
    subst hgroup
    obtain ⟨s, hs, hrest⟩ := exists_consumes hr
    obtain ⟨rounds, hrounds, heq⟩ := skipGroups_of_fields number outer hfront hd hs hrounds
    obtain ⟨rounds, rfl⟩ := Nat.exists_eq_succ_of_ne_zero (n := rounds) (by omega)
    obtain ⟨u, htag, -⟩ := exists_nextTag tagged hrest
    rw [← hs.2.2] at hd
    refine ⟨_, u, .mismatched _ _ _, heq.trans (skipGroups_of_mismatched ?_ htag ends ?_)⟩
    · exact Nat.le_trans (Nat.le_add_left ..) hd
    · rintro rfl
      exact closes_nothing rfl
  | @group known group? levels tag header front' inner opens _ tagged fields inside ih =>
    rw [List.append_assoc] at hr
    obtain ⟨s, hs, hrest⟩ := exists_consumes hr
    obtain ⟨rounds, hrounds, heq⟩ := skipGroups_of_fields number outer hfront hd hs hrounds
    obtain ⟨rounds, rfl⟩ := Nat.exists_eq_succ_of_ne_zero (n := rounds) (by omega)
    obtain ⟨u, htag, hu⟩ := exists_nextTag tagged hrest
    have hlt := remaining_of_nextTag htag
    have hdepth : u.depth = s.depth := (steady_nextTag _ _ _ htag).depth_eq
    rw [← hs.2.2] at hd
    have hlimit : s.depth + (outer.length + 1) ≤ limit := by omega
    obtain ⟨e, w, he, hw⟩ := ih (number :: outer) fields
      (by rw [hdepth, List.length_cons]; omega) (by rw [hu, List.append_assoc])
      (show u.remaining < rounds by omega) rfl
    exact ⟨e, w, he, heq.trans ((skipGroups_of_startGroup hlimit htag opens).trans hw)⟩

/-- A group in which something is astray cannot be skipped. -/
theorem skip_of_stray {known : Tag → Prop} {tag : Tag} (opens : tag.wireType = .startGroup)
    (h : Stray known (some tag.number) levels bytes)
    (hfront : Phrase.fields.SpelledBy levels front) (hd : levels + (r.depth + 1) ≤ limit)
    (hr : r.rest = front ++ (bytes ++ behind)) :
    ∃ e u, e.StrayEnd ∧ skip limit tag r = .error e u := by
  rw [skip, if_pos opens, run_bind_of_ok (run_get r)]
  exact skipGroups_of_stray [] h hfront hd hr (Nat.lt_succ_self _)

/-- Where all fields are skipped but known ones, what is astray is not. -/
theorem exists_skip_of_stray {known : Tag → Prop} {group? : Option Nat}
    (hknown : ∀ tag : Tag, tag.wireType = .endGroup → ¬ known tag)
    (h : Stray known group? levels bytes) (hd : levels + r.depth ≤ limit)
    (hr : r.rest = bytes ++ behind) :
    ∃ tag u, nextTag r = .ok (some tag) u ∧ ¬ known tag ∧
      ∃ e t, e.StrayEnd ∧ skip limit tag u = .error e t := by
  cases h with
  | @stop _ _ _ tag header ends _ tagged =>
    obtain ⟨u, htag, -⟩ := exists_nextTag tagged hr
    refine ⟨tag, u, htag, hknown tag ends, _, u, .unmatched u.position, ?_⟩
    rw [skip, if_neg (by rw [ends]; decide), ends]
    rfl
  | @group _ _ levels tag header front inner opens skipped tagged fields inside =>
    rw [List.append_assoc] at hr
    obtain ⟨u, htag, hu⟩ := exists_nextTag tagged hr
    have hdepth : u.depth = r.depth := (steady_nextTag _ _ _ htag).depth_eq
    rw [List.append_assoc] at hu
    exact ⟨tag, u, htag, skipped, skip_of_stray opens inside fields (by omega) hu⟩

end Reader

namespace Message

variable {options : DecodeOptions} {m : Message} {levels : Nat} {bytes behind : Bytes} {r : Reader}

/-- What is astray in a message cannot be merged, whatever stands behind it. -/
theorem mergeBody_of_stray {group? : Option Nat}
    (h : Stray (fun tag => m.type.accepts tag = true) group? levels bytes)
    (hd : levels + r.depth ≤ options.depthLimit) (hr : r.rest = bytes ++ behind) :
    ∃ e u, e.StrayEnd ∧ mergeBody options group? (m, r) = .error e (m, u) := by
  cases h with
  | @stop _ _ _ tag header ends closes_nothing tagged =>
    obtain ⟨u, htag, -⟩ := exists_nextTag tagged hr
    refine ⟨_, u, .unexpected r.position tag.number, ?_⟩
    rw [run_mergeBody, htag]
    dsimp only
    rw [if_pos ends, if_neg closes_nothing]
  | @group _ _ levels tag header front inner opens skipped tagged fields inside =>
    rw [List.append_assoc] at hr
    obtain ⟨u, htag, hu⟩ := exists_nextTag tagged hr
    have hdepth : u.depth = r.depth := (steady_nextTag _ _ _ htag).depth_eq
    rw [List.append_assoc] at hu
    obtain ⟨e, t, he, hskip⟩ := skip_of_stray opens inside fields
      (show levels + (u.depth + 1) ≤ options.depthLimit by omega) hu
    refine ⟨e, t, he, ?_⟩
    rw [run_mergeBody, htag]
    dsimp only
    rw [if_neg (by rw [opens]; decide), run_mergeOne_of_not_accepts skipped,
      Comparison.run_keepUnknown, hskip]

end Message

/-! ## The fields of an entry -/

/-- A value of a map that is read where so many messages are open. A message is new for every
entry. -/
inductive Value.SpelledBy (options : DecodeOptions) (d : Nat) :
    FieldKind → Value Message → Bytes → Prop
  /-- A scalar. -/
  | scalar {s : Scalar} {bytes : Bytes} (scalar : s.SpelledBy bytes) :
    SpelledBy options d (.scalar s.kind) (.scalar s) bytes
  /-- A message that is merged from the bytes behind its length. -/
  | message {type : MessageType} {m : Message} {t : Reader} {length body : Bytes}
    (confined : Varint.StandsFor length body.length) (nested : d + 1 ≤ options.depthLimit)
    (merged : Message.mergeBody options none (.new type, ⟨body, 0, d + 1⟩) = .ok () (m, t)) :
    SpelledBy options d (.message type) (.message m) (length ++ body)

/-- What a field of an entry counts for. -/
inductive EntryPart where
  /-- A key. -/
  | key (key : Scalar)
  /-- A value. -/
  | value (value : Value Message)
  /-- Nothing. -/
  | other

namespace EntryPart

/-- The key, if the field is one. -/
def key? : EntryPart → Option Scalar
  | key k => some k
  | _ => none

/-- The value, if the field is one. -/
def value? : EntryPart → Option (Value Message)
  | value v => some v
  | _ => none

/-- The key and the value after the field. -/
def put (entry : Scalar × Value Message) : EntryPart → Scalar × Value Message
  | key k => (k, entry.2)
  | value v => (entry.1, v)
  | other => entry

/-- The tag of a key or of a value, with the right wire type. -/
def Typed (key : ScalarKind) (kind : FieldKind) (tag : Tag) : Prop :=
  tag.number = 1 ∧ tag.wireType = key.wireType ∨ tag.number = 2 ∧ tag.wireType = kind.wireType

instance (key : ScalarKind) (kind : FieldKind) (tag : Tag) : Decidable (Typed key kind tag) :=
  inferInstanceAs (Decidable (_ ∧ _ ∨ _ ∧ _))

/-- A field of an entry, which is read where so many messages are open. Fields with other numbers
and those with the wrong wire type may be anything that can be skipped. -/
inductive SpelledBy (options : DecodeOptions) (d : Nat) (key : ScalarKind) (kind : FieldKind) :
    EntryPart → Bytes → Prop
  /-- A key. -/
  | key {tag : Tag} {k : Scalar} {header bytes : Bytes} (number : tag.number = 1)
    (framing : tag.wireType = key.wireType) (tagged : tag.SpelledBy header) (kind_eq : k.kind = key)
    (content : k.SpelledBy bytes) : SpelledBy options d key kind (.key k) (header ++ bytes)
  /-- A value. -/
  | value {tag : Tag} {v : Value Message} {header bytes : Bytes} (number : tag.number = 2)
    (framing : tag.wireType = kind.wireType) (tagged : tag.SpelledBy header)
    (content : v.SpelledBy options d kind bytes) :
    SpelledBy options d key kind (.value v) (header ++ bytes)
  /-- Another field. -/
  | other {tag : Tag} {header bytes : Bytes} {levels : Nat} (skipped : ¬ Typed key kind tag)
    (tagged : tag.SpelledBy header) (nested : levels + d ≤ options.depthLimit)
    (content : (Phrase.value tag).SpelledBy levels bytes) :
    SpelledBy options d key kind .other (header ++ bytes)

/-- The last key and the last value, or defaults. -/
def entry (key : ScalarKind) (kind : FieldKind) (parts : List EntryPart) : Scalar × Value Message :=
  ((parts.filterMap key?).getLast?.getD key.zero, (parts.filterMap value?).getLast?.getD kind.zero)

/-- Each key and each value replaces the one before. -/
theorem foldl_put (parts : List EntryPart) (start : Scalar × Value Message) :
    parts.foldl put start = ((parts.filterMap key?).getLast?.getD start.1,
      (parts.filterMap value?).getLast?.getD start.2) := by
  induction parts generalizing start with
  | nil => rfl
  | cons part parts ih =>
    rw [List.foldl_cons, ih]
    cases part <;>
      simp only [put, List.filterMap_cons, key?, value?, List.getLast?_cons, Option.getD_some]

end EntryPart

/-! ## Reading an entry -/

section

variable {options : DecodeOptions} {d : Nat} {key : ScalarKind} {kind : FieldKind}
  {r t : Reader} {rounds : Nat}

theorem Value.SpelledBy.takes {v : Value Message} {bytes : Bytes}
    (h : v.SpelledBy options d kind bytes) {tag : Tag} (ht : tag.wireType = kind.wireType) :
    Takes d (value options.depthLimit (Message.mergeBody options) kind tag) bytes v := by
  cases h with
  | scalar scalar => exact (takes_scalar_of_spelledBy rfl ht scalar).map _
  | message confined nested merged =>
    intro r t hd hr
    rw [← hd] at merged nested
    have hmessage :=
      Message.message_of_mergeBody ht (Varint.spells_iff.2 confined) merged nested hr
    exact map_eq_ok.2 ⟨_, alone_eq_ok.2 hmessage, rfl⟩

namespace EntryPart

/-- Reads the fields of an entry. -/
abbrev read (options : DecodeOptions) (key : ScalarKind) (kind : FieldKind) (rounds : Nat) :
    Build Reader (Scalar × Value Message) Unit :=
  entryFields options.depthLimit (scalar key)
    (Reader.value options.depthLimit (Message.mergeBody options) kind) rounds

/-- Reads one field of an entry. -/
abbrev readOne (options : DecodeOptions) (key : ScalarKind) (kind : FieldKind) (tag : Tag) :
    Build Reader (Scalar × Value Message) Unit :=
  entryField options.depthLimit (scalar key)
    (Reader.value options.depthLimit (Message.mergeBody options) kind) key.wireType kind.wireType
    tag

theorem read_succ (options : DecodeOptions) (key : ScalarKind) (kind : FieldKind) (rounds : Nat)
    (entry : Scalar × Value Message) (r : Reader) :
    read options key kind (rounds + 1) (entry, r) =
      match nextTag r with
      | .ok none t => .ok () (entry, t)
      | .ok (some tag) t =>
        (readOne options key kind tag >>= fun _ => read options key kind rounds) (entry, t)
      | .error e t => .error e (entry, t) := by
  have hvalue := expects_value options.depthLimit (Message.settled_mergeBody options) kind
  rw [read, entryFields_succ (expects_scalar key) hvalue, run_bind, run_read]
  rcases nextTag r with ⟨_ | tag, t⟩ | ⟨e, t⟩ <;> rfl

theorem readOne_of_not_typed {tag : Tag} (h : ¬ Typed key kind tag) :
    readOne options key kind tag = Build.read (skip options.depthLimit tag) := by
  rw [readOne, entryField, if_neg fun hk => h (.inl hk), if_neg fun hv => h (.inr hv)]

theorem SpelledBy.length_pos {part : EntryPart} {bytes : Bytes}
    (h : part.SpelledBy options d key kind bytes) : 0 < bytes.length := by
  cases h with
  | key _ _ tagged | value _ _ tagged | other _ tagged =>
    have := tagged.length_pos
    rw [List.length_append]
    omega

/-- A field of an entry is read as what it counts for. -/
theorem SpelledBy.readOne {part : EntryPart} {bytes : Bytes}
    (h : part.SpelledBy options d key kind bytes) (entry : Scalar × Value Message)
    (hd : r.depth = d) (hr : r.Consumes bytes t) :
    ∃ tag u, nextTag r = .ok (some tag) u ∧
      EntryPart.readOne options key kind tag (entry, u) = .ok () (part.put entry, t) := by
  cases h with
  | @key tag k header bytes number framing tagged kind_eq content =>
    obtain ⟨u, hu, ht⟩ := hr.split
    refine ⟨tag, u, nextTag_eq_some_iff.2 ⟨header, tagged, hu⟩, ?_⟩
    exact entryField_of_key number framing
      (takes_scalar_of_spelledBy kind_eq framing content u t rfl ht) entry
  | @value tag v header bytes number framing tagged content =>
    obtain ⟨u, hu, ht⟩ := hr.split
    refine ⟨tag, u, nextTag_eq_some_iff.2 ⟨header, tagged, hu⟩, ?_⟩
    exact entryField_of_value number framing
      (content.takes framing u t (hu.2.2.trans hd) ht) entry
  | @other tag header bytes levels skipped tagged nested content =>
    obtain ⟨u, hu, ht⟩ := hr.split
    have hdu : u.depth = d := hu.2.2.trans hd
    have hskip : skip options.depthLimit tag u = .ok () t := content.reads (by omega) ht
    refine ⟨tag, u, nextTag_eq_some_iff.2 ⟨header, tagged, hu⟩, ?_⟩
    rw [readOne_of_not_typed skipped]
    exact read_eq_ok.2 ⟨hskip, rfl⟩

/-- The fields of an entry are read one after the other. -/
theorem exists_read {parts : List EntryPart} {fields : List Bytes}
    (h : List.Forall₂ (SpelledBy options d key kind) parts fields)
    (entry : Scalar × Value Message) (hd : r.depth = d) (hr : r.Consumes fields.flatten t)
    (hrounds : r.remaining < rounds) :
    ∃ rounds', t.remaining < rounds' ∧
      read options key kind rounds (entry, r) =
        read options key kind rounds' (parts.foldl put entry, t) := by
  induction h generalizing entry r rounds with
  | nil =>
    rw [← hr.eq_of_nil] at hrounds ⊢
    exact ⟨rounds, hrounds, rfl⟩
  | @cons part bytes parts fields hpart _ ih =>
    rw [List.flatten_cons] at hr
    obtain ⟨u, hu, ht⟩ := hr.split
    obtain ⟨tag, v, htag, hone⟩ := hpart.readOne entry hd hu
    have hlen := hu.length_add
    obtain ⟨rounds, rfl⟩ := Nat.exists_eq_succ_of_ne_zero (n := rounds) (by omega)
    have hpos := hpart.length_pos
    obtain ⟨rounds', hrounds', hrest⟩ :=
      ih (part.put entry) (hu.2.2.trans hd) ht (show u.remaining < rounds by omega)
    refine ⟨rounds', hrounds', ?_⟩
    rw [read_succ, htag]
    dsimp only
    rw [run_bind_of_ok hone, hrest, List.foldl_cons]

theorem read_of_rest_nil (hr : r.rest = []) (hrounds : r.remaining < rounds)
    (entry : Scalar × Value Message) :
    read options key kind rounds (entry, r) = .ok () (entry, r) := by
  obtain ⟨rounds, rfl⟩ := Nat.exists_eq_succ_of_ne_zero (n := rounds) (by omega)
  rw [read_succ, nextTag_eq_none.2 ⟨hr, rfl⟩]

end EntryPart

/-- An entry is read as its last key and its last value. -/
theorem EntryPart.takes_mapEntry {parts : List EntryPart} {fields : List Bytes}
    (h : List.Forall₂ (SpelledBy options (d + 1) key kind) parts fields)
    (hd : d + 1 ≤ options.depthLimit) {tag : Tag} (ht : tag.wireType = .lengthDelimited)
    {length : Bytes} (hlen : Varint.StandsFor length fields.flatten.length) :
    Takes d (mapEntry options.depthLimit (key.zero, kind.zero) (scalar key)
        (Reader.value options.depthLimit (Message.mergeBody options) kind) tag)
      (length ++ fields.flatten) (EntryPart.entry key kind parts) := by
  intro r t hr hcons
  refine mapEntry_eq_ok.2 ⟨ht, by omega, { t with depth := t.depth + 1 }, ?_, rfl⟩
  refine within_of_spells (Varint.spells_iff.2 hlen) hcons.deeper ?_
  intro u hu hrest
  obtain ⟨hall, hend⟩ := consumes_whole hrest
  have hdu : u.depth = d + 1 := hu.trans (congrArg (· + 1) hr)
  obtain ⟨rounds, hrounds, hread⟩ :=
    exists_read h (key.zero, kind.zero) hdu hall (Nat.lt_succ_self u.remaining)
  rw [entryBody, run_bind_of_ok (run_source _ u)]
  rw [foldl_put] at hread
  exact hread.trans (read_of_rest_nil hend hrounds _)

/-! ## Entries that are malformed -/

/-- What makes an entry malformed, as it stands in front of whatever else is in the entry. -/
inductive EntryFault (options : DecodeOptions) (d : Nat) (key : ScalarKind) :
    FieldKind → Bytes → Prop
  /-- An end tag closes nothing among the fields of the entry, or in a group that is skipped. -/
  | stray {kind : FieldKind} {levels : Nat} {bytes : Bytes}
    (nested : levels + d ≤ options.depthLimit)
    (stray : Stray (EntryPart.Typed key kind) none levels bytes) :
    EntryFault options d key kind bytes
  /-- An end tag closes nothing in the message that is the value. -/
  | message {type : MessageType} {tag : Tag} {header length front bytes behind : Bytes}
    {levels : Nat} {m : Message} {t : Reader} (number : tag.number = 2)
    (framing : tag.wireType = .lengthDelimited) (tagged : tag.SpelledBy header)
    (confined : Varint.StandsFor length (front ++ (bytes ++ behind)).length)
    (nested : levels + (d + 1) ≤ options.depthLimit)
    (merged : Message.mergeBody options none (.new type, ⟨front, 0, d + 1⟩) = .ok () (m, t))
    (stray : Stray (fun tag => type.accepts tag = true) none levels bytes) :
    EntryFault options d key (.message type) (header ++ (length ++ (front ++ (bytes ++ behind))))

/-- A message cannot be read in which an end tag closes nothing. -/
theorem Reader.message_of_stray {type : MessageType} {m : Message} {tag : Tag} {levels : Nat}
    {length front bytes behind : Bytes} {t' : Reader} (ht : tag.wireType = .lengthDelimited)
    (hlen : Varint.StandsFor length (front ++ (bytes ++ behind)).length)
    (hd : levels + (r.depth + 1) ≤ options.depthLimit)
    (hmerged : Message.mergeBody options none (.new type, ⟨front, 0, r.depth + 1⟩) = .ok () (m, t'))
    (h : Stray (fun tag => type.accepts tag = true) none levels bytes)
    (hr : r.Consumes (length ++ (front ++ (bytes ++ behind))) t) :
    ∃ e p, e.StrayEnd ∧ Reader.message options.depthLimit (Message.mergeBody options) tag
      (.new type, r) = .error e p := by
  obtain ⟨u, hu, hrest, -, hwithin⟩ := exists_within_of_spells (Varint.spells_iff.2 hlen) hr.deeper
  obtain ⟨v, hv, hvrest⟩ := exists_consumes hrest
  have hmerges := Message.merges_of_mergeBody hmerged hu hv
  have hnew := (Message.wellTyped_new type).sound (r.depth + 1)
  have htype : m.type = type := (Message.sound_mergeBody (Message.admits_true _) hnew hmerged).1
  have hdv : v.depth = r.depth + 1 := hv.2.2.trans hu
  obtain ⟨e, w, he, hstray⟩ := Message.mergeBody_of_stray (m := m) (htype ▸ h)
    (show levels + v.depth ≤ options.depthLimit by omega) hvrest
  obtain ⟨w', hw'⟩ := hwithin ((Message.mergeBody_of_merges hmerges none).trans hstray)
  refine ⟨e, (m, w'), he, ?_⟩
  rw [message, run_bind_of_ok (read_eq_ok.2 ⟨expect_self ht r, rfl⟩),
    run_bind_of_ok (read_eq_ok.2 ⟨enter_eq_ok.2 ⟨by omega, rfl⟩, rfl⟩)]
  exact run_bind_of_error hw'

/-- Reading an entry fails at what makes it malformed. -/
theorem EntryFault.read {bytes behind : Bytes} (h : EntryFault options d key kind bytes)
    (hd : r.depth = d) (hr : r.rest = bytes ++ behind) (hrounds : r.remaining < rounds)
    (entry : Scalar × Value Message) :
    ∃ e p, e.StrayEnd ∧ EntryPart.read options key kind rounds (entry, r) = .error e p := by
  obtain ⟨rounds, rfl⟩ := Nat.exists_eq_succ_of_ne_zero (n := rounds) (by omega)
  cases h with
  | @stray kind levels bytes nested stray =>
    have htyped : ∀ tag : Tag, tag.wireType = .endGroup → ¬ EntryPart.Typed key kind tag := by
      rintro tag ends (⟨-, hw⟩ | ⟨-, hw⟩)
      · exact (FieldKind.scalar key).wireType_ne_endGroup (hw.symm.trans ends)
      · exact kind.wireType_ne_endGroup (hw.symm.trans ends)
    obtain ⟨tag, u, htag, hnot, e, t, he, hskip⟩ := exists_skip_of_stray htyped stray
      (show levels + r.depth ≤ options.depthLimit by omega) hr
    refine ⟨e, (entry, t), he, ?_⟩
    rw [EntryPart.read_succ, htag]
    dsimp only
    rw [EntryPart.readOne_of_not_typed hnot]
    exact run_bind_of_error (read_eq_error.2 ⟨hskip, rfl⟩)
  | @message type tag header length front bytes behind' levels m t number framing tagged confined
      nested merged stray =>
    rw [List.append_assoc] at hr
    obtain ⟨u, htag, hu⟩ := exists_nextTag tagged hr
    obtain ⟨v, hv, -⟩ := exists_consumes hu
    have hdu : u.depth = d := (steady_nextTag _ _ _ htag).depth_eq.trans hd
    rw [← hdu] at nested merged
    obtain ⟨e, ⟨m', w⟩, he, hmessage⟩ := message_of_stray framing confined nested merged stray hv
    have hvalue : Reader.value options.depthLimit (Message.mergeBody options) (.message type) tag
        u = .error e w := by
      rw [Reader.value, run_map, run_alone, hmessage]
    refine ⟨e, (entry, w), he, ?_⟩
    rw [EntryPart.read_succ, htag]
    dsimp only
    refine run_bind_of_error ?_
    rw [EntryPart.readOne, entryField, if_neg fun h => by omega, if_pos ⟨number, framing⟩]
    exact run_bind_of_error (read_eq_error.2 ⟨hvalue, rfl⟩)

theorem EntryPart.mapEntry_of_fault {parts : List EntryPart} {fields : List Bytes}
    (h : List.Forall₂ (SpelledBy options (d + 1) key kind) parts fields) {bytes behind : Bytes}
    (hfault : EntryFault options (d + 1) key kind bytes) (hd : d + 1 ≤ options.depthLimit)
    {tag : Tag} (ht : tag.wireType = .lengthDelimited) {length : Bytes}
    (hlen : Varint.StandsFor length (fields.flatten ++ (bytes ++ behind)).length)
    (hr : r.depth = d) (hcons : r.Consumes (length ++ (fields.flatten ++ (bytes ++ behind))) t) :
    ∃ e u, e.StrayEnd ∧ mapEntry options.depthLimit (key.zero, kind.zero) (scalar key)
      (Reader.value options.depthLimit (Message.mergeBody options) kind) tag r = .error e u := by
  obtain ⟨u, hu, hrest, -, hwithin⟩ :=
    exists_within_of_spells (Varint.spells_iff.2 hlen) hcons.deeper
  obtain ⟨v, hv, hvrest⟩ := exists_consumes hrest
  have hdu : u.depth = d + 1 := hu.trans (congrArg (· + 1) hr)
  obtain ⟨rounds, hrounds, hread⟩ :=
    exists_read h (key.zero, kind.zero) hdu hv (Nat.lt_succ_self u.remaining)
  obtain ⟨e, ⟨entry, w⟩, he, hfails⟩ := hfault.read (hv.2.2.trans hdu) hvrest hrounds
    (parts.foldl put (key.zero, kind.zero))
  have hbody : entryBody options.depthLimit (scalar key)
      (Reader.value options.depthLimit (Message.mergeBody options) kind)
      ((key.zero, kind.zero), u) = .error e (entry, w) := by
    rw [entryBody, run_bind_of_ok (run_source _ u)]
    exact hread.trans hfails
  obtain ⟨w', hw'⟩ := hwithin hbody
  have halone : alone (key.zero, kind.zero)
      (within (entryBody options.depthLimit (scalar key)
        (Reader.value options.depthLimit (Message.mergeBody options) kind)))
      { r with depth := r.depth + 1 } = .error e w' := by
    rw [run_alone, hw']
  refine ⟨e, w', he, ?_⟩
  rw [mapEntry, run_bind_of_ok (expect_self ht r),
    run_bind_of_ok (enter_eq_ok.2 ⟨by omega, rfl⟩)]
  exact run_bind_of_error halone

end

/-! ## Occurrences of a map field -/

/-- An occurrence of a map field, with the fields in its entry. -/
inductive EntrySpelledBy (options : DecodeOptions) (number : Nat) (key : ScalarKind)
    (kind : FieldKind) : List EntryPart → Bytes → Prop
  /-- A tag, a length and the fields, in any spelling. -/
  | intro {tag : Tag} {header length : Bytes} {parts : List EntryPart} {fields : List Bytes}
    (number_eq : tag.number = number) (framing : tag.wireType = .lengthDelimited)
    (tagged : tag.SpelledBy header) (confined : Varint.StandsFor length fields.flatten.length)
    (content : List.Forall₂ (EntryPart.SpelledBy options 1 key kind) parts fields) :
    EntrySpelledBy options number key kind parts (header ++ (length ++ fields.flatten))

/-- An occurrence of a map field whose entry goes wrong at an end tag that closes nothing. -/
inductive FaultyEntry (options : DecodeOptions) (number : Nat) (key : ScalarKind)
    (kind : FieldKind) : Bytes → Prop
  /-- The fields in front of the fault are such as they may be, and behind it may stand anything. -/
  | intro {tag : Tag} {header length : Bytes} {parts : List EntryPart} {fields : List Bytes}
    {bytes behind : Bytes} (number_eq : tag.number = number)
    (framing : tag.wireType = .lengthDelimited) (tagged : tag.SpelledBy header)
    (confined : Varint.StandsFor length (fields.flatten ++ (bytes ++ behind)).length)
    (front : List.Forall₂ (EntryPart.SpelledBy options 1 key kind) parts fields)
    (fault : EntryFault options 1 key kind bytes) :
    FaultyEntry options number key kind
      (header ++ (length ++ (fields.flatten ++ (bytes ++ behind))))

section

variable {options : DecodeOptions} {number : Nat} {name : String} {key : ScalarKind}
  {kind : FieldKind}

theorem EntryPart.kind_foldl_put {d : Nat} {parts : List EntryPart} {fields : List Bytes}
    (h : List.Forall₂ (SpelledBy options d key kind) parts fields)
    (start : Scalar × Value Message) (hstart : start.1.kind = key) :
    (parts.foldl put start).1.kind = key := by
  induction h generalizing start with
  | nil => exact hstart
  | cons hpart _ ih =>
    refine ih _ ?_
    cases hpart with
    | key _ _ _ kind_eq _ => exact kind_eq
    | value | other => exact hstart

theorem EntrySpelledBy.kind_entry {parts : List EntryPart} {bytes : Bytes}
    (h : EntrySpelledBy options number key kind parts bytes) :
    (EntryPart.entry key kind parts).1.kind = key := by
  cases h with
  | intro _ _ _ _ content =>
    have hkind := EntryPart.kind_foldl_put content (key.zero, kind.zero) key.kind_zero
    rwa [EntryPart.foldl_put] at hkind

theorem EntrySpelledBy.kind_of_mem {entries : List (List EntryPart)} {fields : List Bytes}
    (h : List.Forall₂ (EntrySpelledBy options number key kind) entries fields) :
    ∀ e ∈ entries.map (EntryPart.entry key kind), e.1.kind = key := by
  induction h with
  | nil => exact List.forall_mem_nil _
  | cons hentry _ ih => exact List.forall_mem_cons.2 ⟨hentry.kind_entry, ih⟩

/-- The type of the keys, if the member is a map. -/
def Member.key? : Member → Option ScalarKind
  | map _ _ key _ => some key
  | plain .. | optional .. | packed .. | repeated .. | oneof .. | payload .. => none

/-- The keys of maps are ordered. -/
theorem MessageType.isOrdered_of_map {type : MessageType} {i : Nat}
    (hi : type.members[i]? = some (.map number name key kind)) : key.isOrdered = true := by
  have all : ∀ member ∈ type.members, member.key?.all ScalarKind.isOrdered = true := by
    cases type <;> decide
  exact all _ (List.mem_of_getElem? hi)

namespace Message

variable {m : Message} {i : Nat} {es : List (Scalar × Value Message)}
  (hi : m.type.members[i]? = some (.map number name key kind)) (hs : m.slots[i]? = some (.map es))
  (hd : 1 ≤ options.depthLimit)

include hi hs hd

/-- An occurrence puts its entry into the map. -/
theorem merge_entry {parts : List EntryPart} {bytes : Bytes}
    (h : EntrySpelledBy options number key kind parts bytes) :
    merge options bytes m = .ok () { m with
      slots := m.slots.set i (.map (insertEntries [EntryPart.entry key kind parts] es)) } := by
  cases h with
  | @intro tag header length parts fields number_eq framing tagged confined content =>
    have hmember := member?_of_getElem? hi (List.mem_singleton_self (number, name))
    rw [← number_eq] at hmember
    refine (alone_of_merge hmember (decide_eq_true framing) (by rw [framing]; decide) tagged
      fun u t hu hcons => ?_).merge
    have hread := EntryPart.takes_mapEntry content hd framing confined u t hu hcons
    rw [getD_of_getElem? hs, Member.merge, run_bind_of_ok (read_eq_ok.2 ⟨hread, rfl⟩)]
    rfl

/-- A faulty entry fails, whatever stands behind it, and leaves the message as it was. -/
theorem merge_faultyEntry {bytes : Bytes} (h : FaultyEntry options number key kind bytes)
    (behind : Bytes) : ∃ e, e.StrayEnd ∧ merge options (bytes ++ behind) m = .error e m := by
  cases h with
  | @intro tag header length parts fields bytes others number_eq framing tagged confined front
      fault =>
    have hmember := member?_of_getElem? hi (List.mem_singleton_self (number, name))
    rw [← number_eq] at hmember
    obtain ⟨u, t, hu, hcons, -, hmerge⟩ := merge_of_merge_error options hmember
      (decide_eq_true framing) (by rw [framing]; decide) tagged
      (length ++ (fields.flatten ++ (bytes ++ others))) behind
    obtain ⟨e, v, he, hread⟩ :=
      EntryPart.mapEntry_of_fault front fault hd framing confined hu hcons
    refine ⟨e, he, ?_⟩
    rw [getD_of_getElem? hs] at hmerge
    rw [hmerge (s := .map es) (run_bind_of_error (read_eq_error.2 ⟨hread, rfl⟩)),
      set_of_getElem? hs]

/-- Occurrences put their entries into the map one after the other. -/
theorem merge_flatten_entries {entries : List (List EntryPart)} {fields : List Bytes}
    (h : List.Forall₂ (EntrySpelledBy options number key kind) entries fields) :
    merge options fields.flatten m = .ok () { m with
      slots := m.slots.set i
        (.map (insertEntries (entries.map (EntryPart.entry key kind)) es)) } := by
  induction h generalizing m es with
  | nil =>
    rw [List.map_nil, insertEntries, List.foldl_nil, set_of_getElem? hs]
    rfl
  | @cons parts bytes entries fields hentry _ ih =>
    have hlt : i < m.slots.length := (List.getElem?_eq_some_iff.1 hs).1
    rw [List.flatten_cons, merge_append (merge_entry hi hs hd hentry),
      ih (m := { m with slots := m.slots.set i _ }) hi (List.getElem?_set_self hlt)]
    dsimp only
    rw [List.set_set]
    rfl

omit hi hs hd

/-- Occurrences of a map field put their entries into the map one after the other, so that under
each key stands the value of its last entry. In an entry, the last field that is a key and the last
one that is a value count, with defaults where there is none, and other fields are skipped. An entry
in which an end tag closes nothing is malformed, and the entries in front of it stay. -/
theorem merge_entries (hi : m.type.members[i]? = some (.map number name key kind))
    (hm : m.WellTyped) (hs : m.slots[i]? = some (.map es)) (hd : 1 ≤ options.depthLimit)
    {entries : List (List EntryPart)} {fields : List Bytes}
    (h : List.Forall₂ (EntrySpelledBy options number key kind) entries fields) :
    let new := entries.map (EntryPart.entry key kind)
    let m' := { m with slots := m.slots.set i (.map (insertEntries new es)) }
    merge options fields.flatten m = .ok () m' ∧ Ascending (insertEntries new es) ∧
      (∀ k, (insertEntries new es).lookup k = (new.reverse.lookup k).or (es.lookup k)) ∧
      ∀ bytes behind, FaultyEntry options number key kind bytes →
        ∃ e, e.StrayEnd ∧ merge options (fields.flatten ++ (bytes ++ behind)) m = .error e m' := by
  intro new m'
  have hmerge : merge options fields.flatten m = .ok () m' := merge_flatten_entries hi hs hd h
  have hnew : ∀ e ∈ new, e.1.kind = key := EntrySpelledBy.kind_of_mem h
  have hsound : m.Sound (fun _ _ _ => True) 0 := hm
  obtain ⟨hascending, hes⟩ := ((sound_iff.1 hsound).2.1 i _ _ hi hs).1
  have hkinds : ∀ e ∈ es, e.1.kind = key := fun e he => (hes e he).1
  refine ⟨hmerge, hascending.insertEntries hnew hkinds,
    lookup_insertEntries hnew hkinds (MessageType.isOrdered_of_map hi), ?_⟩
  intro bytes behind hfault
  have hlt : i < m.slots.length := (List.getElem?_eq_some_iff.1 hs).1
  obtain ⟨e, he, hfails⟩ :=
    merge_faultyEntry (m := m') hi (List.getElem?_set_self hlt) hd hfault behind
  refine ⟨e.shift fields.flatten.length, he.shift _, ?_⟩
  rw [merge_append hmerge, hfails]

/-- An entry with a value of the wrong wire type between two others, an empty entry, and behind them
one that holds an end tag. -/
theorem merge_entries_requiredForeign :
    let bytes := [34, 12, 8, 5, 18, 2, 8, 1, 16, 3, 18, 2, 8, 2, 34, 0]
    let second : Message :=
      ⟨.required, [.optional (some (.scalar (.int32 2))), .optional none, .optional none], []⟩
    let entries : List (Scalar × Value Message) :=
      [(.int32 0, .message (.new .required)), (.int32 5, .message second)]
    let m : Message := ⟨.requiredForeign,
      [.optional none, .repeated [], .optional none, .map entries, .optional none], []⟩
    merge {} bytes (.new .requiredForeign) = .ok () m ∧
      ∃ e, e.StrayEnd ∧ merge {} (bytes ++ [34, 1, 12]) (.new .requiredForeign) = .error e m := by
  have stands : ∀ {bytes : Bytes} {v : UInt64}, Varint.decode bytes = .ok (v, bytes.length) →
      Varint.StandsFor bytes v.toNat :=
    fun h => Varint.spells_iff.1 ⟨_, rfl, h⟩
  have hkey : EntryPart.SpelledBy {} 1 .int32 (.message .required) (.key (.int32 5)) [8, 5] :=
    @EntryPart.SpelledBy.key {} 1 .int32 _ ⟨1, .varint, by decide⟩ (.int32 5) [8] [5] rfl rfl
      (stands (v := 8) rfl) rfl ⟨.varint 5, rfl, .varint (stands rfl)⟩
  have hvalue {m : Message} (n : UInt8) (t : Reader)
      (h : mergeBody {} none (.new .required, ⟨[8, n], 0, 2⟩) = .ok () (m, t)) :
      EntryPart.SpelledBy {} 1 .int32 (.message .required) (.value (.message m)) [18, 2, 8, n] :=
    @EntryPart.SpelledBy.value {} 1 .int32 _ ⟨2, .lengthDelimited, by decide⟩ _ [18] [2, 8, n] rfl
      rfl (stands (v := 18) rfl)
      (@Value.SpelledBy.message {} 1 .required m t [2] [8, n] (stands (v := 2) rfl) (by decide) h)
  have hother : EntryPart.SpelledBy {} 1 .int32 (.message .required) .other [16, 3] :=
    @EntryPart.SpelledBy.other {} 1 .int32 _ ⟨2, .varint, by decide⟩ [16] [3] 0 (by decide)
      (stands (v := 16) rfl) (by decide)
      (@Phrase.SpelledBy.framed _ (.varint 3) 0 [3] rfl (.varint (stands rfl)))
  have hfirst := @EntrySpelledBy.intro {} 4 .int32 (.message .required)
    ⟨4, .lengthDelimited, by decide⟩ [34] [12] _ _ rfl rfl (stands (v := 34) rfl)
    (stands (v := 12) rfl)
    (.cons hkey (.cons (hvalue 1 _ rfl) (.cons hother (.cons (hvalue 2 _ rfl) .nil))))
  have hempty := @EntrySpelledBy.intro {} 4 .int32 (.message .required)
    ⟨4, .lengthDelimited, by decide⟩ [34] [0] [] [] rfl rfl (stands (v := 34) rfl)
    (stands (v := 0) rfl) .nil
  have hfaulty := @FaultyEntry.intro {} 4 .int32 (.message .required)
    ⟨4, .lengthDelimited, by decide⟩ [34] [1] [] [] [12] [] rfl rfl (stands (v := 34) rfl)
    (stands (v := 1) rfl) .nil (@EntryFault.stray {} 1 .int32 _ 0 [12] (by decide)
      (@Stray.stop _ none 0 ⟨1, .endGroup, by decide⟩ [12] rfl (by decide) (stands (v := 12) rfl)))
  obtain ⟨hmerge, -, -, hfault⟩ := merge_entries (m := .new .requiredForeign) (i := 3) rfl
    (wellTyped_new _) rfl (by decide) (.cons hfirst (.cons hempty .nil))
  exact ⟨hmerge, hfault _ [] hfaulty⟩

end Message

end

end Protobuf
