import Protobuf.Proofs.Commuting
import Protobuf.Proofs.FailedMerges
import Protobuf.Proofs.ReadingBack

/-!
# What a failed merge keeps

Where merging fails, lists keep all elements that they had, and optional messages stay, with the
fields that were merged into them until then. A oneof with a message or a group does not: it is
unset while the message is read, and is not set again if that fails (`Message.merge_error_keeps`).
-/

namespace Protobuf

open Build Reader

variable {α β : Type}

/-- What was built behind a length before it failed there. -/
theorem Reader.of_within_error {σ : Type} {body : Build Reader σ α} {s s' : σ} {r t : Reader}
    {e : Error} (h : within body (s, r) = .error e (s', t)) :
    s' = s ∨ ∃ u v : Reader, body (s, u) = .error e (s', v) ∨
      ∃ a, body (s, u) = .ok a (s', v) ∧ v.rest ≠ [] := by
  rw [run_within] at h
  rcases hlength : length r with ⟨count, u⟩ | ⟨e', u⟩
  · rw [hlength] at h
    dsimp only at h
    refine .inr ⟨{ u with rest := u.rest.take count }, ?_⟩
    rcases hbody : body (s, { u with rest := u.rest.take count }) with ⟨a, s1, v⟩ | ⟨e', s1, v⟩
    · rw [hbody] at h
      dsimp only at h
      split at h
      · cases h
      · rename_i hrest
        cases h
        exact ⟨t, .inr ⟨a, rfl, fun hnil => hrest (by rw [hnil]; rfl)⟩⟩
    · rw [hbody] at h
      cases h
      exact ⟨v, .inl rfl⟩
  · rw [hlength] at h
    cases h
    exact .inl rfl

/-! ## Lists that only grow -/

/-- The action puts elements behind those that are there, also where it fails. -/
structure Grows (x : Build Reader (List α) β) : Prop where
  /-- Where it succeeds. -/
  ok : ∀ {as r b as' t}, x (as, r) = .ok b (as', t) → as <+: as'
  /-- Where it fails. -/
  error : ∀ {as r e as' t}, x (as, r) = .error e (as', t) → as <+: as'

namespace Grows

variable {γ : Type}

theorem pure (b : β) : Grows (pure b : Build Reader (List α) β) where
  ok h := by
    cases h
    exact List.prefix_rfl
  error h := by cases h

theorem source : Grows (source : Build Reader (List α) Reader) where
  ok h := by
    cases h
    exact List.prefix_rfl
  error h := by cases h

theorem read (x : Reading Reader β) : Grows (read x : Build Reader (List α) β) where
  ok h := (read_eq_ok.1 h).2 ▸ List.prefix_rfl
  error h := (read_eq_error.1 h).2 ▸ List.prefix_rfl

theorem append (more : List α) : Grows (update (· ++ more) : Build Reader (List α) Unit) where
  ok h := by
    cases h
    exact List.prefix_append _ _
  error h := by cases h

theorem bind {x : Build Reader (List α) β} {f : β → Build Reader (List α) γ} (hx : Grows x)
    (hf : ∀ b, Grows (f b)) : Grows (x >>= f) where
  ok h := by
    obtain ⟨b, ⟨as', t⟩, hb, h⟩ := bind_eq_ok.1 h
    exact (hx.ok hb).trans ((hf b).ok h)
  error h := by
    rcases bind_eq_error.1 h with h | ⟨b, ⟨as', t⟩, hb, h⟩
    · exact hx.error h
    · exact (hx.ok hb).trans ((hf b).error h)

theorem within {body : Build Reader (List α) β} (h : Grows body) : Grows (within body) where
  ok hw := by
    obtain ⟨count, u, v, -, hbody, -⟩ := within_eq_ok.1 hw
    exact h.ok hbody
  error hw := by
    rcases of_within_error hw with rfl | ⟨u, v, hbody | ⟨b, hbody, -⟩⟩
    · exact List.prefix_rfl
    · exact h.error hbody
    · exact h.ok hbody

end Grows

namespace Reader

theorem grows_elements (read : Tag → Reading Reader α) (tag : Tag) (rounds : Nat) :
    Grows (elements read tag rounds) := by
  induction rounds with
  | zero => exact .pure ()
  | succ rounds ih =>
    refine Grows.source.bind fun r => ?_
    split
    · exact .pure ()
    · exact (Grows.read _).bind fun a => (Grows.append [a]).bind fun _ => ih

theorem grows_repeated (element : WireType) (read : Tag → Reading Reader α) (tag : Tag) :
    Grows (repeated element read tag) := by
  unfold repeated
  split
  · exact (Grows.source.bind fun r => grows_elements ..).within
  · exact (Grows.read _).bind fun a => .append [a]

theorem grows_repeatedField (limit : Nat) (body : MergeBody) (kind : FieldKind) (tag : Tag) :
    Grows (repeatedField limit body kind tag) := by
  cases kind with
  | scalar kind => exact grows_repeated ..
  | message type | group type => exact (Grows.read _).bind fun v => .append [v]

end Reader

/-! ## Messages that stay -/

variable {options : DecodeOptions}

/-- The message is as it was, or what is left behind by merging into it that failed. -/
def Message.PartlyMerged (options : DecodeOptions) (m m' : Message) : Prop :=
  m' = m ∨ ∃ group? r e t, mergeBody options group? (m, r) = .error e (m', t)

/-- What was in the slot is still there. -/
inductive Slot.Keeps (options : DecodeOptions) : Slot Message → Slot Message → Prop
  /-- The slot is as it was. -/
  | same (s : Slot Message) : Keeps options s s
  /-- The numbers of a packed field are followed by others. -/
  | packed {ss ss' : List Scalar} (more : ss <+: ss') : Keeps options (.packed ss) (.packed ss')
  /-- The values of a repeated field are followed by others. -/
  | repeated {vs vs' : List (Value Message)} (more : vs <+: vs') :
    Keeps options (.repeated vs) (.repeated vs')
  /-- Fields are merged into the message of an optional field. -/
  | message {m m' : Message} (more : m.PartlyMerged options m') :
    Keeps options (.optional (some (.message m))) (.optional (some (.message m')))
  /-- An optional field was not set. -/
  | unset (v : Value Message) : Keeps options (.optional none) (.optional (some v))

/-- The tag belongs to a message or a group of the oneof. -/
def Member.drops (tag : Tag) : Member → Bool
  | oneof fields => (fields.find? (·.number = tag.number)).any fun field =>
      !field.kind.isScalar && tag.wireType = field.kind.wireType
  | _ => false

/-- The bytes begin with the tag of a message or a group of the oneof. -/
def Member.DroppedBy (bytes : Bytes) (member : Member) : Prop :=
  ∃ (tag : Tag) (header rest : Bytes), tag.SpelledBy header ∧ bytes = header ++ rest ∧
    member.drops tag = true

theorem Member.droppedBy_iff {member : Member} {tag : Tag} {r t : Reader}
    (htag : nextTag r = .ok (some tag) t) :
    member.DroppedBy r.rest ↔ member.drops tag = true := by
  constructor
  · rintro ⟨tag', header, rest, hheader, hrest, hdrops⟩
    obtain ⟨u, htag', -⟩ := exists_nextTag hheader hrest
    cases htag.symm.trans htag'
    exact hdrops
  · intro hdrops
    obtain ⟨header, hheader, hr⟩ := nextTag_eq_some_iff.1 htag
    exact ⟨tag, header, t.rest, hheader, hr.1, hdrops⟩

namespace Message

variable {m m' : Message} {tag : Tag} {r t : Reader} {e : Error}

theorem partlyMerged_of_within_error
    (h : within (mergeBody options none) (m, r) = .error e (m', t)) :
    m.PartlyMerged options m' := by
  rcases of_within_error h with rfl | ⟨u, v, hbody | ⟨_, hbody, hrest⟩⟩
  · exact .inl rfl
  · exact .inr ⟨none, _, _, _, hbody⟩
  · -- a body that is merged ends where its region does
    obtain ⟨_, -, hv, rfl⟩ := mergeBody_eq_ok.1 hbody
    exact absurd hv hrest

theorem partlyMerged_of_message_error
    (h : message options.depthLimit (mergeBody options) tag (m, r) = .error e (m', t)) :
    m.PartlyMerged options m' := by
  rw [message, bind_eq_error] at h
  rcases h with h | ⟨_, ⟨m1, u⟩, h1, h⟩
  · exact .inl (read_eq_error.1 h).2
  rw [(read_eq_ok.1 h1).2, bind_eq_error] at h
  rcases h with h | ⟨_, ⟨m2, v⟩, h2, h⟩
  · exact .inl (read_eq_error.1 h).2
  rw [(read_eq_ok.1 h2).2, bind_eq_error] at h
  rcases h with h | ⟨_, ⟨m3, w⟩, -, h⟩
  · exact partlyMerged_of_within_error h
  · cases h

theorem partlyMerged_of_group_error
    (h : group options.depthLimit (mergeBody options) tag (m, r) = .error e (m', t)) :
    m.PartlyMerged options m' := by
  rw [group, bind_eq_error] at h
  rcases h with h | ⟨_, ⟨m1, u⟩, h1, h⟩
  · exact .inl (read_eq_error.1 h).2
  rw [(read_eq_ok.1 h1).2, bind_eq_error] at h
  rcases h with h | ⟨_, ⟨m2, v⟩, h2, h⟩
  · exact .inl (read_eq_error.1 h).2
  rw [(read_eq_ok.1 h2).2, bind_eq_error] at h
  rcases h with h | ⟨_, ⟨m3, w⟩, -, h⟩
  · exact .inr ⟨_, _, _, _, h⟩
  · cases h

end Message

namespace Member

variable {member : Member} {tag : Tag} {s s' : Slot Message} {r t : Reader} {e : Error}

theorem exists_of_drops (h : member.drops tag = true) :
    ∃ fields field type, member = .oneof fields ∧
      fields.find? (·.number = tag.number) = some field ∧ field.number = tag.number ∧
      field.kind.holds type ∧ tag.wireType = field.kind.wireType := by
  cases member with
  | oneof fields =>
    cases hfield : fields.find? (·.number = tag.number) with
    | none =>
      rw [drops, hfield] at h
      cases h
    | some field =>
      rw [drops, hfield, Option.any_some, Bool.and_eq_true, decide_eq_true_eq] at h
      have hfound := List.find?_some hfield
      have hnumber : field.number = tag.number := of_decide_eq_true hfound
      obtain ⟨hkind, hw⟩ := h
      cases hk : field.kind with
      | scalar kind =>
        rw [hk] at hkind
        cases hkind
      | message type => exact ⟨fields, field, type, rfl, hfield, hnumber, .inl hk, hw⟩
      | group type => exact ⟨fields, field, type, rfl, hfield, hnumber, .inr hk, hw⟩
  | _ => cases h

/-- The tag is one that the member takes. -/
theorem takes_of_drops (h : member.drops tag = true) :
    member.hasNumber tag.number = true ∧ member.takes tag = true := by
  obtain ⟨fields, field, type, rfl, hfield, hnumber, -, hw⟩ := exists_of_drops h
  have hlabel : (field.number, field.name) ∈ (oneof fields).labels :=
    List.mem_map.2 ⟨field, List.mem_of_find?_eq_some hfield, rfl⟩
  refine ⟨List.any_eq_true.2 ⟨_, hlabel, decide_eq_true hnumber⟩, ?_⟩
  rw [takes, hfield, Option.all_some]
  exact decide_eq_true hw

/-- A oneof is unset where the message of one of its fields cannot be merged. -/
theorem eq_none_of_merge_error {limit : Nat} {body : MergeBody} (hdrops : member.drops tag = true)
    (h : member.merge limit body tag (s, r) = .error e (s', t)) : s' = .oneof none := by
  obtain ⟨fields, field, type, rfl, hfield, hnumber, hholds, hw⟩ := exists_of_drops hdrops
  have hsingular : (oneof fields).Singular field := .oneof (hnumber ▸ hfield)
  rw [run_merge_of_singular hsingular hholds hnumber.symm hw] at h
  split at h
  · cases h
  · cases h
    rfl

/-- The message of an optional field stays where merging into it fails. -/
theorem keeps_of_intoOptional_error {type : MessageType} {wireType : WireType}
    {merge : Tag → Build Reader Message Unit} (hw : tag.wireType = wireType) {kind : FieldKind}
    (hholds : kind.holds type) {v : Option (Value Message)} (hfits : ∀ x ∈ v, kind.Fits x)
    (hmerge : ∀ {m m' r e t}, merge tag (m, r) = .error e (m', t) → m.PartlyMerged options m')
    (h : intoOptional type wireType merge tag (.optional v, r) = .error e (s', t)) :
    Slot.Keeps options (.optional v) s' := by
  rw [run_intoOptional hw] at h
  rcases hm : merge tag (Slot.optionalMessage type (.optional v), r) with ⟨_, m, u⟩ | ⟨e', m, u⟩
  · rw [hm] at h
    cases h
  · rw [hm] at h
    cases h
    cases v with
    | none => exact .unset _
    | some v =>
      cases v with
      | scalar s =>
        have hscalar := hfits _ rfl
        rcases hholds with rfl | rfl
        · exact hscalar.elim
        · exact hscalar.elim
      | message m => exact .message (hmerge hm)

/-- Every other member keeps what it had. -/
theorem keeps_of_merge_error (hfits : member.Fits s) (htakes : member.takes tag = true)
    (hdrops : member.drops tag = false)
    (h : member.merge options.depthLimit (Message.mergeBody options) tag (s, r) =
      .error e (s', t)) : s.Keeps options s' := by
  by_cases ha : member.isAtomic tag = true
  · rw [eq_of_merge_error ha h]
    exact .same s
  cases member with
  | packed number name kind =>
    obtain ⟨ss', hss, rfl⟩ := zoom_eq_error.1 h
    cases s with
    | packed ss => exact .packed ((grows_repeated ..).error hss)
    | _ => exact hfits.elim
  | repeated field =>
    obtain ⟨vs', hvs, rfl⟩ := zoom_eq_error.1 h
    cases s with
    | repeated vs => exact .repeated ((grows_repeatedField ..).error hvs)
    | _ => exact hfits.elim
  | optional field required =>
    cases s with
    | optional v =>
      obtain ⟨number, name, kind⟩ := field
      cases kind with
      | scalar kind => exact absurd rfl ha
      | message type =>
        exact keeps_of_intoOptional_error (of_decide_eq_true htakes) (.inl rfl) hfits
          (fun hm => Message.partlyMerged_of_message_error hm) h
      | group type =>
        exact keeps_of_intoOptional_error (of_decide_eq_true htakes) (.inr rfl) hfits
          (fun hm => Message.partlyMerged_of_group_error hm) h
    | _ => exact hfits.elim
  | oneof fields =>
    cases hfield : fields.find? (·.number = tag.number) with
    | none =>
      rw [isAtomic, hfield] at ha
      exact absurd rfl ha
    | some field =>
      rw [isAtomic, hfield, Option.all_some] at ha
      rw [takes, hfield, Option.all_some] at htakes
      rw [drops, hfield, Option.any_some, htakes, Bool.and_true, Bool.not_eq_false'] at hdrops
      exact absurd hdrops ha
  | _ => exact absurd rfl ha

end Member

namespace Message

variable {m m' m1 : Message} {e : Error}

/-- Merging that fails merges the front of the input and then fails at the next field. -/
theorem exists_front_of_merge_error {bytes : Bytes} (h : merge options bytes m = .error e m') :
    ∃ front u t m1, bytes = front ++ u.rest ∧ u.depth = 0 ∧ merge options front m = .ok () m1 ∧
      FirstFails options m1 u e m' t := by
  obtain ⟨t, hbody⟩ := mergeBody_of_merge_error h
  obtain ⟨m1, u, hmerges, hfails⟩ := exists_firstFails hbody
  obtain ⟨front, hfront⟩ := hmerges.before
  have hmerge := (cutMerges_of_merges (p := u.position) hmerges rfl (.zero bytes)).whole
    (Nat.le_refl _)
  have hbytes : bytes = front ++ u.rest := hfront.1
  have hcut : (Reader.new bytes).cut u.position = .new front := by
    have hposition : u.position = front.length := by
      rw [hfront.2.1]
      exact Nat.zero_add _
    rw [cut_new, hposition, hbytes, List.take_left]
  rw [hcut] at hmerge
  exact ⟨front, u, t, m1, hbytes, hfront.2.2,
    merge_eq_ok.2 ⟨_, hmerge, rest_cut_eq_nil (Nat.le_refl _)⟩, hfails⟩

/-- A member after the value of a field could not be merged. -/
theorem slot_of_mergeOne_error {start : Reader}
    (h : mergeOne options (mergeBody options) start tag (m1, r) = .error e (m', t))
    (hm1 : m1.WellTyped) {i : Nat} {member : Member} {s : Slot Message}
    (hi : m1.type.members[i]? = some member) (hs : m1.slots[i]? = some s) :
    ∃ s', m'.slots[i]? = some s' ∧ (member.drops tag = true → s' = .oneof none) ∧
      (member.drops tag ≠ true → s.Keeps options s') := by
  by_cases hn : member.hasNumber tag.number = true
  · obtain ⟨label, hlabel, hnumber⟩ := List.any_eq_true.1 hn
    have hmember := member?_of_getElem? hi hlabel
    rw [of_decide_eq_true hnumber] at hmember
    by_cases htakes : member.takes tag = true
    · obtain ⟨s', hmerge, rfl⟩ := exists_merge_of_mergeOne_error hmember htakes h
      rw [getD_of_getElem? hs] at hmerge
      have hlt : i < m1.slots.length := (List.getElem?_eq_some_iff.1 hs).1
      have hsound : m1.Sound (fun _ _ _ => True) 0 := hm1
      have hfits := ((sound_iff.1 hsound).2.1 i _ _ hi hs).1
      refine ⟨s', List.getElem?_set_self hlt, fun hd => ?_, fun hd => ?_⟩
      · exact Member.eq_none_of_merge_error hd hmerge
      · exact Member.keeps_of_merge_error hfits htakes (Bool.eq_false_of_not_eq_true hd) hmerge
    · rw [eq_of_mergeOne_error_of_not_accepts
        (by rwa [MessageType.accepts_of_member? hmember]) h]
      exact ⟨s, hs, fun hd => absurd (Member.takes_of_drops hd).2 htakes, fun _ => .same s⟩
  · -- the slot belongs to another field
    obtain ⟨-, -, hslots, -⟩ := eq_of_mergeOne_error h
    refine ⟨s, ?_, fun hd => absurd (Member.takes_of_drops hd).1 hn, fun _ => .same s⟩
    rw [hslots i, hs]
    intro other hother
    cases hi.symm.trans hother
    exact Bool.eq_false_of_not_eq_true hn

/-- A member after a field has failed: a oneof of which that field is a message or a group is unset,
and every other member keeps what it had. -/
theorem FirstFails.slot {u t : Reader} (h : FirstFails options m1 u e m' t) (hm1 : m1.WellTyped)
    {i : Nat} {member : Member} {s : Slot Message} (hi : m1.type.members[i]? = some member)
    (hs : m1.slots[i]? = some s) :
    ∃ s', m'.slots[i]? = some s' ∧ (member.DroppedBy u.rest → s' = .oneof none) ∧
      (¬ member.DroppedBy u.rest → s.Keeps options s') := by
  cases h with
  | tag htag =>
    refine ⟨s, hs, ?_, fun _ => .same s⟩
    rintro ⟨tag, header, rest, hheader, hrest, -⟩
    obtain ⟨v, htag', -⟩ := exists_nextTag hheader hrest
    cases htag.symm.trans htag'
  | @endGroup tag _ htag hend =>
    refine ⟨s, hs, ?_, fun _ => .same s⟩
    rw [Member.droppedBy_iff htag]
    intro hdrops
    obtain ⟨_, field, -, -, -, -, -, hw⟩ := Member.exists_of_drops hdrops
    exact absurd (hw.symm.trans hend) field.kind.wireType_ne_endGroup
  | value htag _ hone =>
    rw [Member.droppedBy_iff htag]
    exact slot_of_mergeOne_error hone hm1 hi hs

/-- Where merging fails, all fields in front of the one that fails are merged. That one unsets a
oneof if it is a message or a group in it, whatever the oneof held. Everything else keeps what it
had: lists begin with their elements, and messages stay, with what was merged into them. -/
theorem merge_error_keeps {bytes : Bytes} (hm : m.WellTyped)
    (h : merge options bytes m = .error e m') :
    ∃ front rest m1, bytes = front ++ rest ∧ merge options front m = .ok () m1 ∧
      (∀ x m2, x <+: rest → x ≠ [] → merge options x m1 ≠ .ok () m2) ∧
      ∀ (i : Nat) (member : Member), m.type.members[i]? = some member →
        ∃ s s', m1.slots[i]? = some s ∧ m'.slots[i]? = some s' ∧
          (member.DroppedBy rest → s' = .oneof none) ∧
          (¬ member.DroppedBy rest → s.Keeps options s') := by
  obtain ⟨front, u, t, m1, hbytes, hd, hmerge, hfails⟩ := exists_front_of_merge_error h
  obtain ⟨htype, hm1⟩ := wellTyped_of_merge hmerge hm
  refine ⟨front, u.rest, m1, hbytes, hmerge, ?_, ?_⟩
  · rintro x m2 ⟨y, hy⟩ hx
    exact merge_ne_ok_of_firstFails hfails hd hy.symm hx m2
  · intro i member hi
    rw [← htype] at hi
    have hsound : m1.Sound (fun _ _ _ => True) 0 := hm1
    have hlt : i < m1.slots.length := by
      rw [(sound_iff.1 hsound).1]
      exact (List.getElem?_eq_some_iff.1 hi).1
    have hs := List.getElem?_eq_getElem hlt
    obtain ⟨s', hs'⟩ := hfails.slot hm1 hi hs
    exact ⟨_, s', hs, hs'⟩

/-- A second part of an optional message breaks off, and the first one is kept. -/
theorem merge_error_keeps_requiredForeign :
    ∃ m m', merge {} [10, 2, 8, 1] (new .requiredForeign) = .ok () m ∧
      merge {} [10, 3, 24, 2, 8] m = .error (.truncated 5) m' ∧
      ∃ s s', m.slots[0]? = some s ∧ m'.slots[0]? = some s' ∧ s.Keeps {} s' := by
  let m : Message := ⟨.requiredForeign, [.optional (some (.message ⟨.required,
    [.optional (some (.scalar (.int32 1))), .optional none, .optional none], []⟩)), .repeated [],
    .optional none, .map [], .optional none], []⟩
  have hmerge : merge {} [10, 2, 8, 1] (new .requiredForeign) = .ok () m := rfl
  obtain ⟨m', herror⟩ : ∃ m', merge {} [10, 3, 24, 2, 8] m = .error (.truncated 5) m' := ⟨_, rfl⟩
  have hm := (wellTyped_of_merge hmerge (wellTyped_new _)).2
  obtain ⟨front, rest, m1, hbytes, hfront, -, hslots⟩ := merge_error_keeps hm herror
  obtain ⟨s, s', hs, hs', -, hkeeps⟩ :=
    hslots 0 (.optionalMessage 1 "optional_message" .required) rfl
  refine ⟨m, m', hmerge, herror, s, s', ?_, hs', hkeeps ?_⟩
  · -- no field in front of the one that fails
    have htake : front = [10, 3, 24, 2, 8].take front.length := by rw [hbytes, List.take_left]
    have hle : front.length ≤ 5 := by
      have hlen := congrArg List.length hbytes
      rw [List.length_append] at hlen
      exact Nat.le_trans (Nat.le_add_right _ _) (Nat.le_of_eq hlen.symm)
    generalize front.length = k at htake hle
    subst htake
    obtain rfl | rfl | rfl | rfl | rfl | rfl : k = 0 ∨ k = 1 ∨ k = 2 ∨ k = 3 ∨ k = 4 ∨ k = 5 := by
      omega
    · cases hfront
      exact hs
    all_goals cases hfront
  · rintro ⟨_, _, _, -, -, hdrops⟩
    cases hdrops

/-- A oneof holds a message with its required field, or a group. After another part of it that
breaks off, the oneof holds nothing. -/
theorem merge_error_unsets :
    let nested : Message := ⟨.nestedRequired, [.optional (some (.scalar (.double 1)))], []⟩
    let group : Message := ⟨.groupOption, [.optional (some (.scalar (.int32 5)))], []⟩
    (merge {} [26, 9, 9, 1, 0, 0, 0, 0, 0, 0, 0] (new .requiredOneof) =
        .ok () ⟨.requiredOneof, [.oneof (some (3, .message nested))], []⟩ ∧
      merge {} [26, 1, 9] ⟨.requiredOneof, [.oneof (some (3, .message nested))], []⟩ =
        .error (.truncated 3) ⟨.requiredOneof, [.oneof none], []⟩) ∧
    merge {} [27, 40, 5, 28] (new .oneofContainer) =
        .ok () ⟨.oneofContainer, [.oneof (some (3, .message group))], []⟩ ∧
      merge {} [27, 40] ⟨.oneofContainer, [.oneof (some (3, .message group))], []⟩ =
        .error (.truncated 2) ⟨.oneofContainer, [.oneof none], []⟩ :=
  ⟨⟨rfl, rfl⟩, rfl, rfl⟩

end Message

end Protobuf
