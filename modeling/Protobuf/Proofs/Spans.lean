import Protobuf.Proofs.Merging
import Protobuf.Proofs.RawFields

/-!
# The bytes of a field

A reader that knows the type of a field takes exactly the bytes that are skipped where the field is
not known. So the fields of a message that was merged are the raw fields of its bytes
(`Message.exists_run_of_merges`).
-/

namespace Protobuf

open Build

namespace Reader

/-- From one place to another over the value that belongs to a tag, or over a group that was
merged. -/
def Spans (limit : Nat) (body : MergeBody) (tag : Tag) (r t : Reader) : Prop :=
  (∃ v, wireValue tag.wireType r = .ok v t) ∨
    tag.wireType = .startGroup ∧ ∃ m m', group limit body tag (m, r) = .ok () (m', t)

variable {σ α : Type} {limit : Nat} {body : MergeBody} {tag : Tag} {r t : Reader}

theorem spans_of_delimited {b : Bytes} (hw : tag.wireType = .lengthDelimited)
    (h : delimited r = .ok b t) : Spans limit body tag r t := by
  refine Or.inl ⟨.lengthDelimited b, ?_⟩
  rw [hw, wireValue, run_map, h]

theorem spans_scalar {kind : ScalarKind} {s : Scalar} (h : scalar kind tag r = .ok s t) :
    Spans limit body tag r t := by
  obtain ⟨hw, v, hv, -⟩ := scalar_eq_ok.1 h
  exact Or.inl ⟨v, by rw [hw, hv]⟩

theorem spans_bytes {b : Bytes} (h : bytes tag r = .ok b t) : Spans limit body tag r t :=
  spans_of_delimited (bytes_eq_ok.1 h).1 (bytes_eq_ok.1 h).2

theorem delimited_of_within {x : Build Reader σ α} (hx : Steady Prod.snd x) {s s' : σ} {a : α}
    (h : within x (s, r) = .ok a (s', t)) : ∃ b, delimited r = .ok b t := by
  obtain ⟨count, u, v, hl, hv, he, rfl⟩ := within_eq_ok.1 h
  exact ⟨_, delimited_eq_ok.2 ⟨count, u, hl, rfl, eq_advance_of_within hx (length_le hl) hv he⟩⟩

/-- What is confined to its length is skipped as a run of bytes, also from a level further up. -/
theorem spans_of_within {x : Build Reader σ α} (hx : Steady Prod.snd x)
    (hw : tag.wireType = .lengthDelimited) {s s' : σ} {a : α}
    (h : within x (s, r.deepen 1) = .ok a (s', t)) :
    Spans limit body tag r { t with depth := t.depth - 1 } := by
  obtain ⟨b, hb⟩ := delimited_of_within hx h
  obtain ⟨u, rfl, hu⟩ := ignoresDepth_delimited r 1 b t hb
  exact spans_of_delimited hw hu

theorem spans_repeated {element : WireType} {read : Tag → Reading Reader α}
    (hr : ∀ tag, Steady id (read tag))
    (hs : ∀ a, read tag r = .ok a t → Spans limit body tag r t) {as as' : List α}
    (h : repeated element read tag (as, r) = .ok () (as', t)) : Spans limit body tag r t := by
  unfold repeated at h
  split at h
  · rename_i hp
    obtain ⟨b, hb⟩ := delimited_of_within
      (Steady.source.bind fun _ => steady_elements (hr _) _) h
    exact spans_of_delimited hp.1 hb
  · obtain ⟨a, ⟨s, u⟩, hu, hupdate⟩ := bind_eq_ok.1 h
    cases hupdate
    exact hs a (read_eq_ok.1 hu).1

theorem spans_mapEntry {κ ν : Type} {zero entry : κ × ν} {readKey : Tag → Reading Reader κ}
    {readValue : Tag → Reading Reader ν} {keyType valueType : WireType}
    (hk : Expects readKey (·.wireType = keyType)) (hv : Expects readValue (·.wireType = valueType))
    (sk : ∀ tag, Steady id (readKey tag)) (sv : ∀ tag, Steady id (readValue tag))
    (h : mapEntry limit zero readKey readValue tag r = .ok entry t) :
    Spans limit body tag r t := by
  obtain ⟨hw, -, u, hu, rfl⟩ := mapEntry_eq_ok.1 h
  exact spans_of_within (Steady.source.bind fun r => steady_entryFields hk hv sk sv limit
    (r.remaining + 1)) hw hu

variable (sb : ∀ g, Steady Prod.snd (body g))

include sb

theorem spans_message {m m' : Message} (h : message limit body tag (m, r) = .ok () (m', t)) :
    Spans limit body tag r t := by
  obtain ⟨hw, -, u, hu, rfl⟩ := message_eq_ok.1 h
  exact spans_of_within (sb none) hw hu

omit sb in
theorem spans_group {m m' : Message} (h : group limit body tag (m, r) = .ok () (m', t)) :
    Spans limit body tag r t :=
  Or.inr ⟨(group_eq_ok.1 h).1, m, m', h⟩

theorem spans_value (kind : FieldKind) {v : Value Message}
    (h : value limit body kind tag r = .ok v t) : Spans limit body tag r t := by
  cases kind with
  | scalar kind =>
    obtain ⟨s, hs, -⟩ := map_eq_ok.1 h
    exact spans_scalar hs
  | message type =>
    obtain ⟨m, hm, -⟩ := map_eq_ok.1 h
    exact spans_message sb (alone_eq_ok.1 hm)
  | group type =>
    obtain ⟨m, hm, -⟩ := map_eq_ok.1 h
    exact spans_group (alone_eq_ok.1 hm)

omit sb in
theorem spans_intoOptional {type : MessageType} {wireType : WireType}
    {merge : Tag → Build Reader Message Unit}
    (hs : ∀ m m', merge tag (m, r) = .ok () (m', t) → Spans limit body tag r t)
    {s s' : Slot Message}
    (h : intoOptional type wireType merge tag (s, r) = .ok () (s', t)) :
    Spans limit body tag r t := by
  obtain ⟨_, ⟨s1, u⟩, hread, hzoom⟩ := bind_eq_ok.1 h
  obtain ⟨hexpect, rfl⟩ := read_eq_ok.1 hread
  obtain ⟨-, rfl⟩ := expect_eq_ok.1 hexpect
  obtain ⟨m, hm, -⟩ := zoom_eq_ok.1 hzoom
  exact hs _ m hm

omit sb in
theorem spans_intoChosen {type : MessageType} {wireType : WireType}
    {merge : Tag → Build Reader Message Unit}
    (hs : ∀ m m', merge tag (m, r) = .ok () (m', t) → Spans limit body tag r t)
    {s s' : Slot Message}
    (h : intoChosen type wireType merge tag (s, r) = .ok () (s', t)) :
    Spans limit body tag r t := by
  obtain ⟨_, ⟨s1, u⟩, hread, hrest⟩ := bind_eq_ok.1 h
  obtain ⟨hexpect, rfl⟩ := read_eq_ok.1 hread
  obtain ⟨-, rfl⟩ := expect_eq_ok.1 hexpect
  rw [run_bind_of_ok (run_current s1 u), run_bind_of_ok (run_put (Slot.oneof none) s1 u)] at hrest
  obtain ⟨m, ⟨s2, v⟩, hv, hput⟩ := bind_eq_ok.1 hrest
  cases hput
  exact hs _ m (alone_eq_ok.1 (read_eq_ok.1 hv).1)

theorem spans_optionalField {kind : FieldKind} {s s' : Slot Message}
    (h : optionalField limit body kind tag (s, r) = .ok () (s', t)) : Spans limit body tag r t := by
  cases kind with
  | scalar kind =>
    obtain ⟨_, ⟨s1, u⟩, hu, hput⟩ := bind_eq_ok.1 h
    cases hput
    exact spans_scalar (read_eq_ok.1 hu).1
  | message type => exact spans_intoOptional (fun _ _ => spans_message sb) h
  | group type => exact spans_intoOptional (fun _ _ => spans_group) h

theorem spans_oneofField {kind : FieldKind} {s s' : Slot Message}
    (h : oneofField limit body kind tag (s, r) = .ok () (s', t)) : Spans limit body tag r t := by
  cases kind with
  | scalar kind =>
    obtain ⟨_, ⟨s1, u⟩, hu, hput⟩ := bind_eq_ok.1 h
    cases hput
    exact spans_scalar (read_eq_ok.1 hu).1
  | message type => exact spans_intoChosen (fun _ _ => spans_message sb) h
  | group type => exact spans_intoChosen (fun _ _ => spans_group) h

theorem spans_repeatedField {kind : FieldKind} {vs vs' : List (Value Message)}
    (h : repeatedField limit body kind tag (vs, r) = .ok () (vs', t)) :
    Spans limit body tag r t := by
  cases kind with
  | scalar kind =>
    exact spans_repeated (steady_value limit sb (.scalar kind)) (fun _ => spans_value sb _) h
  | message type =>
    obtain ⟨_, ⟨s1, u⟩, hu, hupdate⟩ := bind_eq_ok.1 h
    cases hupdate
    exact spans_value sb (.message type) (read_eq_ok.1 hu).1
  | group type =>
    obtain ⟨_, ⟨s1, u⟩, hu, hupdate⟩ := bind_eq_ok.1 h
    cases hupdate
    exact spans_value sb (.group type) (read_eq_ok.1 hu).1

variable (hb : ∀ g, Settled (body g))

include hb

/-- A member takes the value that belongs to the tag. -/
theorem Member.spans_merge {member : Member} (hn : member.hasNumber tag.number = true)
    {s s' : Slot Message} (h : member.merge limit body tag (s, r) = .ok () (s', t)) :
    Spans limit body tag r t := by
  cases member with
  | plain number name kind =>
    obtain ⟨_, ⟨s1, u⟩, hu, hput⟩ := bind_eq_ok.1 h
    cases hput
    exact spans_scalar (read_eq_ok.1 hu).1
  | optional field required => exact spans_optionalField sb h
  | packed number name kind =>
    obtain ⟨ss, hss, -⟩ := zoom_eq_ok.1 h
    exact spans_repeated (steady_scalar kind) (fun _ => spans_scalar) hss
  | repeated field =>
    obtain ⟨vs, hvs, -⟩ := zoom_eq_ok.1 h
    exact spans_repeatedField sb hvs
  | map number name key kind =>
    obtain ⟨⟨k, v⟩, ⟨s1, u⟩, hu, hupdate⟩ := bind_eq_ok.1 h
    cases hupdate
    exact spans_mapEntry (expects_scalar key) (expects_value limit hb kind) (steady_scalar key)
      (steady_value limit sb kind) (read_eq_ok.1 hu).1
  | oneof fields =>
    cases hf : fields.find? (·.number = tag.number) with
    | none =>
      rw [Member.hasNumber, Member.labels, List.any_map, List.any_eq_true] at hn
      obtain ⟨field, hmem, hnum⟩ := hn
      exact absurd hnum (List.find?_eq_none.1 hf field hmem)
    | some field =>
      rw [Member.merge_oneof hf] at h
      exact spans_oneofField sb h
  | payload number name =>
    obtain ⟨_, ⟨s1, u⟩, hu, hput⟩ := bind_eq_ok.1 h
    cases hput
    exact spans_bytes (read_eq_ok.1 hu).1

end Reader

namespace Message

open Reader

variable {limit : Nat} {body : MergeBody} {tag : Tag} {m m' : Message} {r t : Reader}

theorem test_of_member? {type : MessageType} {test : Member → Bool} {i : Nat} {member : Member}
    (h : member? type test = some (i, member)) : test member = true := by
  simp only [member?, Option.bind_eq_bind, Option.pure_def, Option.bind_eq_some_iff,
    Option.some.injEq, Prod.mk.injEq] at h
  obtain ⟨j, hj, member', hmem, rfl, rfl⟩ := h
  obtain ⟨hlt, hp, -⟩ := List.findIdx?_eq_some_iff_getElem.1 hj
  rw [List.getElem?_eq_getElem hlt] at hmem
  cases hmem
  exact hp

/-- A field that the type accepts is merged into one slot and takes the value that belongs to its
tag. -/
theorem mergeField_eq_ok (hb : ∀ g, Settled (body g)) (sb : ∀ g, Steady Prod.snd (body g))
    (ha : m.type.accepts tag = true) {a : Bool}
    (h : mergeField limit body tag (m, r) = .ok a (m', t)) :
    m'.type = m.type ∧ m'.unknown = m.unknown ∧ Spans limit body tag r t := by
  obtain ⟨i, member, hf, -⟩ := exists_declared?_of_accepts ha
  rw [mergeField_of_declared? hf] at h
  obtain ⟨_, ⟨m1, u⟩, hu, hpure⟩ := bind_eq_ok.1 h
  cases hpure
  obtain ⟨s, hs, rfl⟩ := zoom_eq_ok.1 hu
  exact ⟨rfl, rfl, Member.spans_merge sb hb (test_of_member? (member?_of_declared? hf)) hs⟩

variable {options : DecodeOptions}

/-- A field is merged into one slot if the type accepts it, and noted as unknown otherwise. -/
theorem mergeOne_eq_ok {start : Reader}
    (h : mergeOne options (mergeBody options) start tag (m, r) = .ok () (m', t)) :
    if m.type.accepts tag then
      m'.type = m.type ∧ m'.unknown = m.unknown ∧
        Spans options.depthLimit (mergeBody options) tag r t
    else m' = options.note (start.consumed t) m ∧ skip options.depthLimit tag r = .ok () t := by
  rw [mergeOne, run_bind_of_ok (run_current m r)] at h
  split
  · rename_i ha
    rw [if_pos ha] at h
    obtain ⟨a, ⟨m1, u⟩, hu, hpure⟩ := bind_eq_ok.1 h
    cases hpure
    exact mergeField_eq_ok (settled_mergeBody options) (steady_mergeBody options) ha hu
  · rename_i ha
    rw [if_neg ha, Comparison.run_keepUnknown] at h
    cases hs : skip options.depthLimit tag r with
    | ok a u =>
      rw [hs] at h
      cases h
      exact ⟨rfl, rfl⟩
    | error e u =>
      rw [hs] at h
      cases h

/-- The unknown fields among some raw fields, one behind the other. -/
def unknownBytes (type : MessageType) (fields : List RawField) : Bytes :=
  (fields.filter fun field => !type.accepts field.tag).flatMap RawField.bytes

theorem unknownBytes_cons_of_accepts {type : MessageType} {field : RawField}
    (h : type.accepts field.tag = true) (fields : List RawField) :
    unknownBytes type (field :: fields) = unknownBytes type fields := by
  rw [unknownBytes, List.filter_cons_of_neg (by simp [h])]
  rfl

theorem unknownBytes_cons_of_not_accepts {type : MessageType} {field : RawField}
    (h : ¬ type.accepts field.tag = true) (fields : List RawField) :
    unknownBytes type (field :: fields) = field.bytes ++ unknownBytes type fields := by
  rw [unknownBytes, List.filter_cons_of_pos (by simpa using h)]
  rfl

/-- A field that is merged takes up what skipping it does, if that holds of the fields of groups. -/
theorem skip_of_mergeOne_of_inner {start : Reader}
    (inner : ∀ p q, Merges options p q → p.2.remaining ≤ r.remaining →
      ∃ fields, RawField.Run options.depthLimit p.2 fields q.2)
    (h : mergeOne options (mergeBody options) start tag (m, r) = .ok () (m', t)) :
    skip options.depthLimit tag r = .ok () t := by
  have hone := mergeOne_eq_ok h
  split at hone
  · rcases hone.2.2 with ⟨v, hv⟩ | ⟨hstart, m1, m2, hgroup⟩
    · exact skip_of_wireValue hv
    · obtain ⟨-, hd, u, hbody, rfl⟩ := group_eq_ok.1 hgroup
      obtain ⟨w, hmerges, stop, hstop, hend, hnumber⟩ := mergeBody_eq_ok.1 hbody
      obtain ⟨fields, hfields⟩ := inner _ _ hmerges (Nat.le_refl _)
      exact RawField.skip_of_run hstart hd hfields hstop hend hnumber
  · exact hone.2

/-- The fields that are merged are the raw fields of the bytes, and what becomes unknown are the
bytes of those that the type does not accept. -/
theorem exists_run_of_merges {p q : Message × Reader} (h : Merges options p q) :
    ∃ fields, RawField.Run options.depthLimit p.2 fields q.2 ∧ q.1.type = p.1.type ∧
      (options.discardUnknown = false →
        q.1.unknown = p.1.unknown ++ unknownBytes p.1.type fields) := by
  generalize hn : p.2.remaining = n
  -- the body of a group has fewer bytes than the field that holds it
  induction n using Nat.strongRecOn generalizing p q with
  | ind n ih =>
    cases h with
    | nil p => exact ⟨[], .nil _, rfl, fun _ => (List.append_nil _).symm⟩
    | @cons m r u tag p q htag hw hone hrest =>
      obtain ⟨m1, v⟩ := p
      have hlt : u.remaining < n := by
        rw [← hn]
        exact remaining_of_nextTag htag
      have hle : v.remaining ≤ u.remaining :=
        (steady_mergeOne options (settled_mergeBody options) (steady_mergeBody options) r tag
          _ _ _ hone).remaining_le
      obtain ⟨fields, hrun, htype, hunknown⟩ := ih v.remaining (by omega) hrest rfl
      have hskip : skip options.depthLimit tag u = .ok () v := by
        refine skip_of_mergeOne_of_inner (fun p q h hle => ?_) hone
        obtain ⟨inner, hinner, -⟩ := ih p.2.remaining (by omega) h rfl
        exact ⟨inner, hinner⟩
      refine ⟨⟨tag, r.consumed v⟩ :: fields, .cons htag hw hskip hrun, ?_, fun hdiscard => ?_⟩
      · have hone := mergeOne_eq_ok hone
        split at hone
        · exact htype.trans hone.1
        · rw [htype, hone.1]
          unfold DecodeOptions.note
          split <;> rfl
      · have hone := mergeOne_eq_ok hone
        rw [hunknown hdiscard]
        split at hone
        · rename_i ha
          rw [unknownBytes_cons_of_accepts ha, hone.1, hone.2.1]
        · rename_i ha
          rw [unknownBytes_cons_of_not_accepts ha, hone.1]
          simp [DecodeOptions.note, hdiscard, appendUnknown, List.append_assoc]

theorem skip_of_mergeOne {start : Reader}
    (h : mergeOne options (mergeBody options) start tag (m, r) = .ok () (m', t)) :
    skip options.depthLimit tag r = .ok () t := by
  refine skip_of_mergeOne_of_inner (fun p q h _ => ?_) h
  obtain ⟨fields, hfields, -⟩ := exists_run_of_merges h
  exact ⟨fields, hfields⟩

end Message

end Protobuf
