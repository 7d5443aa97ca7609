import Protobuf.Proofs.Concatenation
import Protobuf.Proofs.Fitting
import Protobuf.Proofs.Truncation

/-!
# Merging that fails

A message that is left behind by merging that failed holds all fields before the one where merging
failed, and of that one at most a part, in the slot of the member that declares it
(`Message.merge_error_frame`). Most members do not hold such a part either: they change only when
the value has been read. Messages and groups of optional fields and of oneofs are merged in place,
and the elements of a packed run are taken one by one (`Member.isAtomic`).
-/

namespace Protobuf

open Build Reader

variable {σ τ α : Type}

/-! ## Members that change as a whole -/

/-- A scalar is read before it is stored. -/
def FieldKind.isScalar : FieldKind → Bool
  | scalar _ => true
  | message _ | group _ => false

/-- The tag announces a packed run of elements, which are stored one by one. -/
def FieldKind.isRun (tag : Tag) : FieldKind → Bool
  | scalar kind => tag.wireType = .lengthDelimited ∧ kind.wireType ≠ .lengthDelimited
  | message _ | group _ => false

/-- The member changes only when all of the value behind the tag has been read. -/
def Member.isAtomic (tag : Tag) : Member → Bool
  | plain .. | map .. | payload .. => true
  | optional field _ => field.kind.isScalar
  | packed _ _ kind => !(FieldKind.scalar kind).isRun tag
  | repeated field => !field.kind.isRun tag
  | oneof fields =>
    (fields.find? (·.number = tag.number)).all fun field => field.kind.isScalar

/-- The action never fails. -/
def Infallible (x : EStateM Error σ α) : Prop := ∀ s e t, x s ≠ .error e t

theorem infallible_put (s : σ) : Infallible (put s : Build τ σ Unit) := by
  rintro p e t ⟨⟩

theorem infallible_update (f : σ → σ) : Infallible (update f : Build τ σ Unit) := by
  rintro p e t ⟨⟩

/-- Where only reading can fail, a failure leaves the value as it was. -/
theorem eq_of_read_bind_error {x : Reading Reader α} {f : α → Build Reader σ Unit}
    (hf : ∀ a, Infallible (f a)) {s s' : σ} {r t : Reader} {e : Error}
    (h : (read x >>= f) (s, r) = .error e (s', t)) : s' = s := by
  rcases bind_eq_error.1 h with h | ⟨a, q, -, h⟩
  · exact (read_eq_error.1 h).2
  · exact absurd h (hf a q e (s', t))

namespace Reader

variable {limit : Nat} {body : MergeBody} {tag : Tag} {r t : Reader} {e : Error}

/-- A single element is read before it is stored. -/
theorem eq_of_repeated_error {kind : ScalarKind} {read : Tag → Reading Reader α}
    (hrun : (!(FieldKind.scalar kind).isRun tag) = true) {as as' : List α}
    (h : repeated kind.wireType read tag (as, r) = .error e (as', t)) : as' = as := by
  have hrun : ¬ (tag.wireType = .lengthDelimited ∧ kind.wireType ≠ .lengthDelimited) := by
    simpa only [FieldKind.isRun, Bool.not_eq_true', decide_eq_false_iff_not] using hrun
  rw [repeated, if_neg hrun] at h
  exact eq_of_read_bind_error (fun _ => infallible_update _) h

theorem eq_of_repeatedField_error {kind : FieldKind} (hrun : (!kind.isRun tag) = true)
    {vs vs' : List (Value Message)}
    (h : repeatedField limit body kind tag (vs, r) = .error e (vs', t)) : vs' = vs := by
  cases kind with
  | scalar kind => exact eq_of_repeated_error hrun h
  | message type => exact eq_of_read_bind_error (fun _ => infallible_update _) h
  | group type => exact eq_of_read_bind_error (fun _ => infallible_update _) h

end Reader

/-- A member that changes as a whole does not change where merging fails. -/
theorem Member.eq_of_merge_error {limit : Nat} {body : MergeBody} {tag : Tag} {member : Member}
    (ha : member.isAtomic tag = true) {s s' : Slot Message} {r t : Reader} {e : Error}
    (h : member.merge limit body tag (s, r) = .error e (s', t)) : s' = s := by
  cases member with
  | plain number name kind => exact eq_of_read_bind_error (fun _ => infallible_put _) h
  | optional field required =>
    obtain ⟨number, name, kind⟩ := field
    cases kind with
    | scalar kind => exact eq_of_read_bind_error (fun _ => infallible_put _) h
    | message type | group type => cases ha
  | packed number name kind =>
    obtain ⟨ss, hss, rfl⟩ := zoom_eq_error.1 h
    rw [eq_of_repeated_error ha hss]
    exact Slot.setPackedScalars_self s
  | repeated field =>
    obtain ⟨vs, hvs, rfl⟩ := zoom_eq_error.1 h
    rw [eq_of_repeatedField_error ha hvs]
    exact Slot.setRepeatedValues_self s
  | map number name key kind => exact eq_of_read_bind_error (fun _ => infallible_update _) h
  | oneof fields =>
    cases hf : fields.find? (·.number = tag.number) with
    | none =>
      rw [merge_oneof_none hf] at h
      cases h
    | some field =>
      rw [merge_oneof hf] at h
      rw [isAtomic, hf] at ha
      obtain ⟨number, name, kind⟩ := field
      cases kind with
      | scalar kind => exact eq_of_read_bind_error (fun _ => infallible_put _) h
      | message type | group type => cases ha
  | payload number name => exact eq_of_read_bind_error (fun _ => infallible_put _) h

namespace Message

variable {options : DecodeOptions} {m m' m1 : Message} {r t u : Reader} {tag : Tag} {e : Error}

/-! ## The field that fails -/

/-- Merging fails at the first field: its tag is bad, it is an end tag, or its value cannot be
merged. -/
inductive FirstFails (options : DecodeOptions) (m : Message) (r : Reader) (e : Error) :
    Message → Reader → Prop
  /-- The tag is bad. -/
  | tag {t : Reader} (tag_eq : nextTag r = .error e t) : FirstFails options m r e m t
  /-- No group is open that could end. -/
  | endGroup {tag : Tag} {t : Reader} (tag_eq : nextTag r = .ok (some tag) t)
    (is_end : tag.wireType = .endGroup) : FirstFails options m r e m t
  /-- The value is bad. -/
  | value {tag : Tag} {u : Reader} {m' : Message} {t : Reader}
    (tag_eq : nextTag r = .ok (some tag) u) (not_end : tag.wireType ≠ .endGroup)
    (one : mergeOne options (mergeBody options) r tag (m, u) = .error e (m', t)) :
    FirstFails options m r e m' t

/-- Merging that fails merges some fields and then fails at the next one. -/
theorem exists_firstFails (h : mergeBody options none (m, r) = .error e (m', t)) :
    ∃ m1 u, Merges options (m, r) (m1, u) ∧ FirstFails options m1 u e m' t := by
  generalize hn : r.remaining = n
  -- every field takes up bytes of the region
  induction n using Nat.strongRecOn generalizing m r with
  | ind n ih =>
    rw [run_mergeBody] at h
    rcases htag : nextTag r with ⟨_ | tag, u⟩ | ⟨e', u⟩
    · rw [htag] at h
      cases h
    · rw [htag] at h
      dsimp only at h
      by_cases hw : tag.wireType = .endGroup
      · rw [if_pos hw, if_neg (Option.some_ne_none _).symm] at h
        cases h
        exact ⟨m', r, .nil _, .endGroup htag hw⟩
      · rw [if_neg hw] at h
        rcases hone : mergeOne options (mergeBody options) r tag (m, u) with
          ⟨_, m1, v⟩ | ⟨e', m1, v⟩
        · rw [hone] at h
          have hlt := remaining_of_nextTag htag
          have hle : v.remaining ≤ u.remaining :=
            (steady_mergeOne options (settled_mergeBody options) (steady_mergeBody options) r tag
              _ _ _ hone).remaining_le
          obtain ⟨m2, w, hmerges, hfails⟩ := ih v.remaining (by omega) h rfl
          exact ⟨m2, w, .cons htag hw hone hmerges, hfails⟩
        · rw [hone] at h
          cases h
          exact ⟨m, r, .nil _, .value htag hw hone⟩
    · rw [htag] at h
      cases h
      exact ⟨m', r, .nil _, .tag htag⟩

/-- A field that its member takes fails where the member's value cannot be merged. -/
theorem exists_merge_of_mergeOne_error {start : Reader} {i : Nat} {member : Member}
    (hf : member? m.type (·.hasNumber tag.number) = some (i, member))
    (htakes : member.takes tag = true)
    (h : mergeOne options (mergeBody options) start tag (m, r) = .error e (m', t)) :
    ∃ s, member.merge options.depthLimit (mergeBody options) tag
        (m.slots.getD i member.initial, r) = .error e (s, t) ∧
      m' = { m with slots := m.slots.set i s } := by
  rw [run_mergeOne_of_takes _ _ _ hf htakes] at h
  rcases hmerge : member.merge options.depthLimit (mergeBody options) tag
    (m.slots.getD i member.initial, r) with ⟨_, s, u⟩ | ⟨e', s, u⟩
  · rw [hmerge] at h
    cases h
  · rw [hmerge] at h
    cases h
    exact ⟨s, rfl, rfl⟩

/-- A field that is not known changes nothing where it cannot be skipped. -/
theorem eq_of_mergeOne_error_of_not_accepts {start : Reader} (ha : m.type.accepts tag ≠ true)
    (h : mergeOne options (mergeBody options) start tag (m, r) = .error e (m', t)) : m' = m := by
  rw [run_mergeOne_of_not_accepts ha, Comparison.run_keepUnknown] at h
  cases hs : skip options.depthLimit tag r with
  | ok a u =>
    rw [hs] at h
    cases h
  | error e' u =>
    rw [hs] at h
    cases h
    rfl

/-- A field that fails changes one slot at most, and none if its member changes as a whole. -/
theorem eq_of_mergeOne_error {start : Reader}
    (h : mergeOne options (mergeBody options) start tag (m, r) = .error e (m', t)) :
    m'.type = m.type ∧ m'.unknown = m.unknown ∧
      (∀ i : Nat, (∀ member, m.type.members[i]? = some member →
        member.hasNumber tag.number = false) → m'.slots[i]? = m.slots[i]?) ∧
      ((∀ member ∈ m.type.members, member.hasNumber tag.number = true →
        member.takes tag = true → member.isAtomic tag = true) → m' = m) := by
  by_cases ha : m.type.accepts tag = true
  · obtain ⟨i, member, hf, htakes⟩ := exists_member?_of_accepts ha
    have hi := member?_eq_some hf
    have hnumber := test_of_member? hf
    obtain ⟨s, hmerge, rfl⟩ := exists_merge_of_mergeOne_error hf htakes h
    refine ⟨rfl, rfl, fun j hj => ?_, fun hatomic => ?_⟩
    · refine List.getElem?_set_ne ?_
      rintro rfl
      rw [hj member hi] at hnumber
      cases hnumber
    · have hs := Member.eq_of_merge_error
        (hatomic member (List.mem_of_getElem? hi) hnumber htakes) hmerge
      rw [hs]
      exact set_getD_self m i member.initial
  · rw [eq_of_mergeOne_error_of_not_accepts ha h]
    exact ⟨rfl, rfl, fun _ _ => rfl, fun _ => rfl⟩

/-- No input that begins with the field that fails can be merged. -/
theorem merge_ne_ok_of_firstFails (h : FirstFails options m1 u e m' t) (hd : u.depth = 0)
    {x y : Bytes} (hrest : u.rest = x ++ y) (hx : x ≠ []) (m2 : Message) :
    merge options x m1 ≠ .ok () m2 := by
  intro hm
  obtain ⟨v, hmerges, hv⟩ := merge_eq_ok.1 hm
  cases hmerges with
  | nil => exact hx hv
  | @cons _ _ w tag q _ htag hw hone _ =>
    obtain ⟨m3, q⟩ := q
    let c : Comparison := ⟨u.position, y, options.depthLimit, options.depthLimit, Nat.le_refl _⟩
    have hc : c.reader (.new x) = u := by
      obtain ⟨rest, position, depth⟩ := u
      simp only at hrest hd
      rw [hrest, hd]
      rfl
    have htag' := Comparison.nextTag_reader_of_some (c := c) htag
    have hone' : mergeOne options (mergeBody options) (c.reader (.new x)) tag (m1, c.reader w) =
        .ok () (m3, c.reader q) := mergeOne_reader rfl rfl rfl htag hw hone
    rw [hc] at htag' hone'
    cases h with
    | tag htag => cases htag.symm.trans htag'
    | endGroup htag hend =>
      cases htag.symm.trans htag'
      exact hw hend
    | value htag _ hone =>
      cases htag.symm.trans htag'
      cases hone.symm.trans hone'

/-- Merging that fails merges all complete fields at the front of the input, as many as can be
merged, and fails at the next one. The message left behind has the unknown fields that these give,
and differs from what they give in at most the slot of a member that has the number of the next
field. It does not differ at all if there is no such member, if the member does not take the tag, or
if it changes as a whole only. -/
theorem merge_error_frame {bytes : Bytes} (h : merge options bytes m = .error e m') :
    ∃ k ≤ bytes.length, ∃ m1,
      (RawField.split options.depthLimit (bytes.take k)).2 = [] ∧
      merge options (bytes.take k) m = .ok () m1 ∧
      (∀ k' ≤ bytes.length, k < k' → ∀ m2, merge options (bytes.take k') m ≠ .ok () m2) ∧
      m'.type = m.type ∧ m'.unknown = m1.unknown ∧
      (∀ tag t, nextTag (standing bytes k) = .ok (some tag) t → ∀ i : Nat,
        (∀ member, m.type.members[i]? = some member →
          member.hasNumber tag.number = false) → m'.slots[i]? = m1.slots[i]?) ∧
      ((∀ tag t, nextTag (standing bytes k) = .ok (some tag) t →
        ∀ member ∈ m.type.members, member.hasNumber tag.number = true →
          member.takes tag = true → member.isAtomic tag = true) → m' = m1) := by
  obtain ⟨t, hbody⟩ := mergeBody_of_merge_error h
  obtain ⟨m1, u, hmerges, hfails⟩ := exists_firstFails hbody
  have hk : u.position ≤ bytes.length := by
    have hle := u.position_le_stop
    rwa [hmerges.before.stop_eq, stop_new] at hle
  have hd : u.depth = 0 := hmerges.before.depth_eq
  have hu : u = standing bytes u.position := by
    have hstands : u.StandsIn bytes := StandsIn.before (r := .new bytes) rfl hmerges.before
    have heq := hstands.eq_deepen
    rwa [hd] at heq
  have hfront := (cutMerges_of_merges (p := u.position) hmerges rfl (.zero bytes)).whole
    (Nat.le_refl _)
  rw [cut_new] at hfront
  have hnil : (u.cut u.position).rest = [] := rest_cut_eq_nil (Nat.le_refl _)
  have hmerge : merge options (bytes.take u.position) m = .ok () m1 :=
    merge_eq_ok.2 ⟨_, hfront, hnil⟩
  obtain ⟨fields, hrun, htype, -⟩ := exists_run_of_merges hfront
  have htype : m1.type = m.type := htype
  refine ⟨u.position, hk, m1, congrArg Prod.snd (RawField.split_of_run hrun hnil), hmerge,
    fun k' hk' hlt m2 => ?_, ?_⟩
  · obtain ⟨count, rfl⟩ := Nat.exists_eq_add_of_lt hlt
    have hrest : u.rest = bytes.drop u.position := congrArg Reader.rest hu
    rw [Nat.add_assoc, List.take_add, merge_append hmerge, ← hrest]
    have hx : u.rest.take (count + 1) ≠ [] := by
      rw [Ne, ← List.length_eq_zero_iff, hrest, List.length_take, List.length_drop]
      omega
    have hsplit := (List.take_append_drop (count + 1) u.rest).symm
    have hne := merge_ne_ok_of_firstFails hfails hd hsplit hx
    cases hm : merge options (u.rest.take (count + 1)) m1 with
    | ok a m3 => exact absurd hm (hne m3)
    | error e' m3 =>
      intro hok
      cases hok
  · rw [← hu, ← htype]
    cases hfails with
    | tag htag =>
      refine ⟨rfl, rfl, fun tag t htag' => ?_, fun _ => rfl⟩
      cases htag.symm.trans htag'
    | endGroup => exact ⟨rfl, rfl, fun _ _ _ _ _ => rfl, fun _ => rfl⟩
    | value htag _ hone =>
      obtain ⟨htype', hunknown, hslots, hatomic⟩ := eq_of_mergeOne_error hone
      refine ⟨htype', hunknown, fun tag t htag' => ?_, fun h => hatomic (h _ _ htag)⟩
      cases htag.symm.trans htag'
      exact hslots

/-- A number, an unknown field, and then a repeated message that breaks off inside a number. -/
theorem merge_error_frame_requiredForeign :
    ∃ m1, merge {} [24, 1, 40, 7] (new .requiredForeign) = .ok () m1 ∧ m1.unknown = [40, 7] ∧
      merge {} [24, 1, 40, 7, 18, 2, 8, 128] (new .requiredForeign) =
        .error (.truncated 8) m1 := by
  let bytes : Bytes := [24, 1, 40, 7, 18, 2, 8, 128]
  have herror : ∃ m', merge {} bytes (new .requiredForeign) = .error (.truncated 8) m' :=
    ⟨_, rfl⟩
  obtain ⟨m', herror⟩ := herror
  obtain ⟨k, hk, m1, -, hmerge, hmax, -, hunknown, -, hatomic⟩ := merge_error_frame herror
  have hk : k ≤ 8 := hk
  have hle : 4 ≤ k := Nat.le_of_not_lt fun hlt => hmax 4 (by decide) hlt _ rfl
  -- every longer front breaks off inside the repeated message
  obtain rfl | rfl | rfl | rfl | rfl : k = 4 ∨ k = 5 ∨ k = 6 ∨ k = 7 ∨ k = 8 := by omega
  · refine ⟨m1, hmerge, ?_, ?_⟩
    · cases hmerge
      rfl
    · rw [herror]
      refine congrArg _ (hatomic ?_)
      intro tag t htag
      cases htag
      decide
  all_goals cases hmerge

end Message

end Protobuf
