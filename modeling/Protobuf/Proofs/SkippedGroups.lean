import Protobuf.Proofs.DepthLimit
import Protobuf.Proofs.Grammar

/-!
# Skipped groups and merged ones

Skipping a group goes over its fields with the open groups on a stack; merging it into a message
without fields goes over them one by one and keeps them as unknown. Both take the values of the
grammar, and where one of them fails, the other one fails at the same place
(`Message.skip_group`).
-/

namespace Protobuf

open Build Reader

/-- Errors of the same kind at the same place. An end tag that closes nothing is worded in one way
where groups are skipped, and in another one where they are merged. -/
inductive Error.Alike : Error → Error → Prop
  /-- The same error. -/
  | same (e : Error) : Alike e e
  /-- An end tag that does not belong to the group. -/
  | endTag (offset found number : Nat) : Alike
    (.malformed offset (.mismatchedEndGroup found number))
    (.malformed offset (.unexpectedEndGroup found))

namespace Message

variable {options : DecodeOptions} {tag : Tag} {m : Message} {r s t : Reader}

/-- A type without fields keeps every field as unknown. -/
theorem mergeOne_empty (hm : m.type = .empty) (start : Reader) :
    mergeOne options (mergeBody options) start tag (m, r) =
      match skip options.depthLimit tag r with
      | .ok _ t => .ok () (options.note (start.consumed t) m, t)
      | .error e t => .error e (m, t) := by
  have ha : m.type.accepts tag = false := by rw [hm]; rfl
  rw [mergeOne, run_bind_of_ok (run_current m r), ha, if_neg Bool.false_ne_true]
  exact Comparison.run_keepUnknown ..

theorem type_note (bytes : Bytes) (m : Message) : (options.note bytes m).type = m.type := by
  unfold DecodeOptions.note
  split <;> rfl

/-- Where a field of a group is skipped, merging the group comes to what is behind it. -/
theorem mergeBody_of_skip {number : Nat} {u v : Reader} (hm : m.type = .empty)
    (htag : nextTag s = .ok (some tag) u) (he : tag.wireType ≠ .endGroup)
    (hskip : skip options.depthLimit tag (u.deepen 1) = .ok () (v.deepen 1)) :
    ∃ m', m'.type = .empty ∧ mergeBody options (some number) (m, s.deepen 1) =
      mergeBody options (some number) (m', v.deepen 1) := by
  have hone : mergeOne options (mergeBody options) (s.deepen 1) tag (m, u.deepen 1) =
      .ok () (options.note ((s.deepen 1).consumed (v.deepen 1)) m, v.deepen 1) := by
    rw [mergeOne_empty hm, hskip]
  exact ⟨_, (type_note _ m).trans hm, mergeBody_cons (uniform_nextTag.ok htag 1) he hone _⟩

theorem mergeBody_of_skip_error {number : Nat} {u : Reader} {e : Error} (hm : m.type = .empty)
    (htag : nextTag s = .ok (some tag) u) (he : tag.wireType ≠ .endGroup)
    (hskip : skip options.depthLimit tag (u.deepen 1) = .error e t) :
    ∃ p, mergeBody options (some number) (m, s.deepen 1) = .error e p := by
  refine ⟨(m, t), ?_⟩
  rw [run_mergeBody, uniform_nextTag.ok htag 1]
  dsimp only
  rw [if_neg he, mergeOne_empty hm, hskip]

/-- Skipping the fields of a group fails behind the first field or in it. -/
theorem skip_of_skipGroups_error {limit number rounds : Nat} {u : Reader} {e : Error}
    (hd : s.depth + 1 ≤ limit) (htag : nextTag s = .ok (some tag) u)
    (he : tag.wireType ≠ .endGroup) (hr : u.remaining < rounds)
    (h : skipGroups limit (rounds + 1) [number] s = .error e t) :
    (∃ v rounds', skip limit tag (u.deepen 1) = .ok () (v.deepen 1) ∧ v.depth = u.depth ∧
        v.remaining ≤ u.remaining ∧ v.remaining < rounds' ∧
        skipGroups limit rounds' [number] v = .error e t) ∨
      ∃ w, skip limit tag (u.deepen 1) = .error e w := by
  have hd' : s.depth + (([] : List Nat).length + 1) ≤ limit := hd
  by_cases hs : tag.wireType = .startGroup
  · rw [skipGroups_of_startGroup hd' htag hs] at h
    have hskip : skip limit tag (u.deepen 1) =
        skipGroups limit (u.remaining + 1) [tag.number] (u.deepen 1) := by
      rw [skip, if_pos hs, run_bind_of_ok (run_get _)]
      rfl
    obtain ⟨v, rounds', hok, hr', heq⟩ | ⟨e', v, w, herror, heq⟩ :=
      skipGroups_append limit [tag.number] [number] (Nat.lt_succ_self u.remaining) hr
    · have hbefore := steady_skipGroups _ _ _ _ _ _ hok
      have hdepth : v.depth + 1 = u.depth + 1 := hbefore.depth_eq
      exact .inl ⟨v, rounds', hskip.trans hok, by omega, hbefore.remaining_le, hr',
        heq.symm.trans h⟩
    · cases heq.symm.trans h
      exact .inr ⟨_, hskip.trans herror⟩
  · rcases hvalue : wireValue tag.wireType u with ⟨value, v⟩ | ⟨e', v⟩
    · rw [skipGroups_of_wireValue hd' htag hvalue] at h
      have hbefore := steady_wireValue _ _ _ _ hvalue
      have hle : v.remaining ≤ u.remaining := hbefore.remaining_le
      exact .inl ⟨v, rounds, skip_of_wireValue ((uniform_wireValue _).ok hvalue 1),
        hbefore.depth_eq, hle, by omega, h⟩
    · rw [skipGroups_of_wireValue_error hd' htag hs he hvalue] at h
      cases h
      refine .inr ⟨t.deepen 1, ?_⟩
      rw [skip, if_neg hs]
      exact run_bind_of_error ((uniform_wireValue _).error hvalue 1)

/-- Where skipping the fields of a group fails, merging them fails alike. -/
theorem mergeBody_of_skipGroups_error {number rounds : Nat} {e : Error}
    (h : skipGroups options.depthLimit rounds [number] s = .error e t)
    (hd : s.depth + 1 ≤ options.depthLimit) (hr : s.remaining < rounds) (hm : m.type = .empty) :
    ∃ e' p, mergeBody options (some number) (m, s.deepen 1) = .error e' p ∧ e.Alike e' := by
  -- the fields behind the first one are fewer bytes
  generalize hn : s.remaining = n
  induction n using Nat.strongRecOn generalizing s rounds m with
  | ind n ih =>
    obtain ⟨rounds, rfl⟩ := Nat.exists_eq_succ_of_ne_zero (n := rounds) (by omega)
    have hd' : s.depth + (([] : List Nat).length + 1) ≤ options.depthLimit := hd
    rcases htag : nextTag s with ⟨_ | tag, u⟩ | ⟨e', u⟩
    · rw [skipGroups_of_nextTag_none hd' htag] at h
      cases h
      refine ⟨_, (m, t.deepen 1), ?_, .same _⟩
      rw [run_mergeBody, uniform_nextTag.ok htag 1]
      rfl
    · have hlt := remaining_of_nextTag htag
      have hu : u.depth = s.depth := (steady_nextTag _ _ _ htag).depth_eq
      by_cases he : tag.wireType = .endGroup
      · by_cases hnum : tag.number = number
        · rw [skipGroups_of_endGroup hd' htag he hnum, skipGroups_nil] at h
          cases h
        · rw [skipGroups_of_mismatched hd' htag he hnum] at h
          cases h
          refine ⟨_, (m, t.deepen 1), ?_, .endTag s.position tag.number number⟩
          rw [run_mergeBody, uniform_nextTag.ok htag 1]
          dsimp only
          rw [if_pos he, if_neg (by simpa using Ne.symm hnum)]
          rfl
      · obtain ⟨v, rounds', hskip, hv, hle, hr', hrest⟩ | ⟨w, hskip⟩ :=
          skip_of_skipGroups_error hd htag he (show u.remaining < rounds by omega) h
        · obtain ⟨m', hm', hbody⟩ := mergeBody_of_skip hm htag he hskip
          rw [hbody]
          exact ih v.remaining (by omega) hrest (by omega) hr' hm' rfl
        · obtain ⟨p, hp⟩ := mergeBody_of_skip_error hm htag he hskip
          exact ⟨e, p, hp, .same e⟩
    · rw [skipGroups_of_nextTag_error hd' htag] at h
      cases h
      refine ⟨e, (m, t.deepen 1), ?_, .same e⟩
      rw [run_mergeBody, uniform_nextTag.error htag 1]

/-- A group is merged into a message without fields by keeping what stands before its end tag. -/
theorem group_of_closes (hdiscard : options.discardUnknown = false) {body : Bytes}
    (hw : tag.wireType = .startGroup) (hd : r.depth + 1 ≤ options.depthLimit)
    (h : Closes (options.depthLimit - (r.depth + 1)) tag.number body r t) :
    group options.depthLimit (mergeBody options) tag (.new .empty, r) =
      .ok () (⟨.empty, [], body⟩, t) := by
  obtain ⟨hbody, stop, header, hend, hn, hheader, hr⟩ := h
  obtain ⟨u, hu, ht⟩ := hr.split
  obtain ⟨fields, hrun, hflat⟩ :=
    RawField.exists_run_of_spelledBy (r := r.deepen 1) (t := u.deepen 1) hbody (Nat.le_refl _)
      hu.deeper
  have hmerges := merges_of_run (m := .new .empty) hdiscard hrun fun _ _ => rfl
  rw [hflat] at hmerges
  have hends : Ends (some tag.number) (u.deepen 1) (t.deepen 1) :=
    ⟨stop, nextTag_eq_some_iff.2 ⟨header, hheader, ht.deeper⟩, hend, hn⟩
  have hmerged : mergeBody options (some tag.number) (.new .empty, r.deepen 1) =
      .ok () (⟨.empty, [], body⟩, t.deepen 1) := by
    rw [mergeBody_of_merges hmerges, mergeBody_of_ends hends]
    rfl
  exact group_eq_ok.2 ⟨hw, hd, t.deepen 1, hmerged, rfl⟩

/-- A group that is merged is closed where merging ends, and what it keeps stands before the end
tag. -/
theorem closes_of_group (hdiscard : options.discardUnknown = false) {m' : Message}
    (h : group options.depthLimit (mergeBody options) tag (.new .empty, r) = .ok () (m', t)) :
    tag.wireType = .startGroup ∧ r.depth + 1 ≤ options.depthLimit ∧
      Closes (options.depthLimit - (r.depth + 1)) tag.number m'.unknown r t := by
  obtain ⟨hw, hd, u, hbody, rfl⟩ := group_eq_ok.1 h
  obtain ⟨v, hmerges, stop, hstop, hend, hn⟩ := mergeBody_eq_ok.1 hbody
  obtain ⟨fields, hrun, -⟩ := exists_run_of_merges hmerges
  have hskip := RawField.skip_of_run hw hd hrun hstop hend hn
  obtain ⟨-, body, hcloses⟩ := closes_of_skip hw hskip
  have hgroup := group_of_closes hdiscard hw hd hcloses
  cases hgroup.symm.trans h
  exact ⟨hw, hd, hcloses⟩

theorem group_of_skip_error (hw : tag.wireType = .startGroup) {e : Error}
    (h : skip options.depthLimit tag r = .error e t) :
    ∃ e' p, group options.depthLimit (mergeBody options) tag (.new .empty, r) = .error e' p ∧
      e.Alike e' := by
  by_cases hd : r.depth + 1 ≤ options.depthLimit
  · rw [skip, if_pos hw, run_bind_of_ok (run_get r)] at h
    obtain ⟨e', p, hbody, halike⟩ :=
      mergeBody_of_skipGroups_error (m := .new .empty) h hd (Nat.lt_succ_self _) rfl
    refine ⟨e', p, ?_, halike⟩
    rw [group, run_bind_of_ok (read_eq_ok.2 ⟨expect_self hw r, rfl⟩),
      run_bind_of_ok (read_eq_ok.2 ⟨enter_eq_ok.2 ⟨hd, rfl⟩, rfl⟩)]
    exact run_bind_of_error hbody
  · have hlt := Nat.lt_of_not_le hd
    rw [skip_of_limit_lt hlt hw] at h
    cases h
    exact ⟨_, _, group_of_limit_lt hlt hw _ _, .same _⟩

/-- What is skipped behind a tag is a value of the grammar, within the levels that are left. A group
is skipped exactly where it can be merged into a message without fields: both end at the same place,
the message keeps what stands between the tags of the group, and where they fail, they fail
alike. -/
theorem skip_group (hdiscard : options.discardUnknown = false) (tag : Tag) (r : Reader) :
    (∀ t, skip options.depthLimit tag r = .ok () t ↔ ∃ bytes,
      (Phrase.value tag).SpelledBy (options.depthLimit - r.depth) bytes ∧ r.Consumes bytes t) ∧
    (tag.wireType = .startGroup →
      (∀ t, skip options.depthLimit tag r = .ok () t ↔
        ∃ m, group options.depthLimit (mergeBody options) tag (.new .empty, r) = .ok () (m, t)) ∧
      (∀ m t, group options.depthLimit (mergeBody options) tag (.new .empty, r) = .ok () (m, t) →
        Closes (options.depthLimit - (r.depth + 1)) tag.number m.unknown r t) ∧
      (∀ e t, skip options.depthLimit tag r = .error e t → ∃ e' p,
        group options.depthLimit (mergeBody options) tag (.new .empty, r) = .error e' p ∧
          e.Alike e') ∧
      (∀ e' p, group options.depthLimit (mergeBody options) tag (.new .empty, r) = .error e' p →
        ∃ e t, skip options.depthLimit tag r = .error e t ∧ e.Alike e')) := by
  have hmerged : tag.wireType = .startGroup → ∀ t, skip options.depthLimit tag r = .ok () t →
      ∃ m, group options.depthLimit (mergeBody options) tag (.new .empty, r) = .ok () (m, t) := by
    intro hw t h
    obtain ⟨hd, body, hcloses⟩ := closes_of_skip hw h
    exact ⟨_, group_of_closes hdiscard hw hd hcloses⟩
  refine ⟨fun t => skip_eq_ok_iff, fun hw => ⟨fun t => ⟨hmerged hw t, ?_⟩, fun m t h => ?_,
    fun e t => group_of_skip_error hw, fun e' p h => ?_⟩⟩
  · rintro ⟨m, h⟩
    obtain ⟨-, hd, hcloses⟩ := closes_of_group hdiscard h
    obtain ⟨bytes, hvalue, hr⟩ := hcloses.spelledBy hw
    exact hvalue.reads (by omega) hr
  · exact (closes_of_group hdiscard h).2.2
  · cases hskip : skip options.depthLimit tag r with
    | ok a t =>
      obtain ⟨m, hm⟩ := hmerged hw t hskip
      cases hm.symm.trans h
    | error e t =>
      obtain ⟨e'', q, hq, halike⟩ := group_of_skip_error hw hskip
      cases hq.symm.trans h
      exact ⟨e, t, rfl, halike⟩

/-- A group with a number in it, and the same fields before the end tag of another group. -/
theorem skip_group_one :
    (∃ m, group 100 (mergeBody {}) ⟨1, .startGroup, by decide⟩ (.new .empty, .new [8, 5, 12]) =
        .ok () (m, ⟨[], 3, 0⟩) ∧ Closes 99 1 m.unknown (.new [8, 5, 12]) ⟨[], 3, 0⟩) ∧
      (∃ e p, group 100 (mergeBody {}) ⟨1, .startGroup, by decide⟩
          (.new .empty, .new [8, 5, 20]) = .error e p ∧
        Error.Alike (.malformed 2 (.mismatchedEndGroup 2 1)) e) := by
  have hkept : ({} : DecodeOptions).discardUnknown = false := rfl
  have hclosed := (skip_group hkept ⟨1, .startGroup, by decide⟩ (.new [8, 5, 12])).2 rfl
  have hstray := (skip_group hkept ⟨1, .startGroup, by decide⟩ (.new [8, 5, 20])).2 rfl
  obtain ⟨m, hm⟩ := (hclosed.1 ⟨[], 3, 0⟩).1 rfl
  exact ⟨⟨m, hm, hclosed.2.1 m _ hm⟩, hstray.2.2.1 _ ⟨[], 3, 0⟩ rfl⟩

end Message

end Protobuf
