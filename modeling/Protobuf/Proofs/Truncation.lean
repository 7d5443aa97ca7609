import Protobuf.Proofs.Cutting
import Protobuf.Proofs.Entries
import Protobuf.Proofs.ErrorPlaces
import Protobuf.Proofs.Spans
import Protobuf.Proofs.TagPlaces
import Protobuf.Proofs.UnknownFields

/-!
# Truncated input

What becomes of an input that decodes when it is cut off. Between two top-level fields it still
decodes. Where a tag is expected inside a group, it is malformed, since the group is not closed;
anywhere else it is truncated (`Message.decode_take`). This holds of every type, although each reads
the input in its own way: whatever a type does with a field, only its groups are read without a
length.
-/

namespace Protobuf

open Build Reader

/-- How input that is cut off at a place fails. -/
inductive CutShort (input : Bytes) (p : Nat) : Error → Prop
  /-- The cut is inside a tag or a value. -/
  | truncated (inside : ∀ stack, ¬ ExpectsTag input stack p) (offset : Nat) :
    CutShort input p (.truncated offset)
  /-- A tag is expected, and a group is open. -/
  | unclosed {number : Nat} {outer : List Nat} (place : ExpectsTag input (number :: outer) p) :
    CutShort input p (.malformed p (.unclosedGroup number))

namespace Reader

variable {input : Bytes} {p limit number : Nat} {stack outer : List Nat} {r t u : Reader}
  {tag : Tag}

theorem nextTag_cut_of_le (h : nextTag r = .ok (some tag) u) (hp : u.position ≤ p) :
    nextTag (r.cut p) = .ok (some tag) (u.cut p) := by
  obtain ⟨v, hv, htag⟩ := nextTag_eq_some.1 h
  have hcut := cutReads_rawVarint (p := p) (E := fun _ => True) (fun _ => trivial) r v u hv
  exact nextTag_eq_some.2 ⟨v, hcut.whole hp, htag⟩

/-- At the cut there is no tag. -/
theorem nextTag_cut_position (r : Reader) :
    nextTag (r.cut r.position) = .ok none (r.cut r.position) :=
  nextTag_eq_none.2 ⟨rest_cut_eq_nil (Nat.le_refl _), rfl⟩

/-- A tag that is cut off is truncated. -/
theorem nextTag_cut_of_lt (h : nextTag r = .ok (some tag) u) (hr : r.position < p)
    (hp : p < u.position) : ∃ offset v, nextTag (r.cut p) = .error (.truncated offset) v := by
  obtain ⟨v, hv, -⟩ := nextTag_eq_some.1 h
  have hcut := cutReads_rawVarint (p := p) (E := (·.isTruncation = true)) (fun _ => rfl) r v u hv
  obtain ⟨e, t, ht, he⟩ := hcut.broken (Nat.le_of_lt hr) hp
  obtain ⟨offset, rfl⟩ := Error.eq_truncated_of_isTruncation he
  have hne : (r.cut p).rest ≠ [] := by
    obtain ⟨bytes, ⟨hrest, hposition, -⟩, hpos⟩ := consumes_of_rawVarint hv
    have hlen := congrArg List.length hrest
    rw [List.length_append] at hlen
    rw [cut, Ne, ← List.length_eq_zero_iff, List.length_take]
    omega
  refine ⟨offset, t, ?_⟩
  rw [nextTag, run_bind_of_ok (run_get _), if_neg (by simpa using hne), run_bind_of_error ht]

/-! ## Skipping -/

/-- Inside the value that belongs to a tag no tag is expected. -/
theorem cutShort_of_isTruncation (hr : r.StandsIn input)
    (hplace : ExpectsTag input stack r.position) (htag : nextTag r = .ok (some tag) u)
    {v : WireValue} (hv : wireValue tag.wireType u = .ok v t) (hp : u.position ≤ p)
    (hlt : p < t.position) (e : Error) (he : e.isTruncation = true) : CutShort input p e := by
  obtain ⟨offset, rfl⟩ := Error.eq_truncated_of_isTruncation he
  have hr' : r.position < p := Nat.lt_of_lt_of_le (position_lt_of_nextTag htag) hp
  exact .truncated (hplace.not_between (hr.wireStep_value htag hv stack) hr' hlt) offset

/-- A value without groups is truncated where it is cut off. -/
theorem curtailed_wireValue (hr : r.StandsIn input) (hplace : ExpectsTag input stack r.position)
    (htag : nextTag r = .ok (some tag) u) {v : WireValue}
    (hv : wireValue tag.wireType u = .ok v t) :
    Curtailed id (cut p) p (CutShort input p) u.position v t
      (wireValue tag.wireType (u.cut p)) :=
  (cutReads_wireValue (E := (·.isTruncation = true)) (fun _ => rfl) tag.wireType u v t hv).imp
    (cutShort_of_isTruncation hr hplace htag hv)

/-- While groups are open, the input must not end before or inside the next tag. -/
theorem cutShort_skipGroups {rounds : Nat} {inner : List Nat}
    (hplace : ExpectsTag input (number :: outer) r.position)
    (hd : r.depth + (inner.length + 1) ≤ limit) (htag : nextTag r = .ok (some tag) u)
    {stack' : List Nat} {k : Nat}
    (hstep : WireStep input (number :: outer, r.position) (stack', k)) (hk : u.position ≤ k)
    (hp : r.position ≤ p) (hlt : p < u.position) :
    ∃ e v, skipGroups limit (rounds + 1) (number :: inner) (r.cut p) = .error e v ∧
      CutShort input p e := by
  have hd : ¬ limit < (r.cut p).depth + (inner.length + 1) := Nat.not_lt.2 hd
  rw [skipGroups_succ, if_neg hd]
  rcases Nat.eq_or_lt_of_le hp with rfl | hp
  · rw [run_bind_of_ok (nextTag_cut_position r)]
    exact ⟨_, _, rfl, .unclosed hplace⟩
  · obtain ⟨offset, v, hv⟩ := nextTag_cut_of_lt htag hp hlt
    rw [run_bind_of_error hv]
    exact ⟨_, v, rfl, .truncated
      (hplace.not_between hstep hp (Nat.lt_of_lt_of_le hlt hk)) offset⟩

/-- The fields inside the groups of a stack are skipped up to the cut. -/
theorem curtailed_skipGroups {rounds : Nat} (h : skipGroups limit rounds stack r = .ok () t)
    (hr : r.StandsIn input) (hplace : ExpectsTag input (stack ++ outer) r.position)
    {rounds' : Nat} (hrounds : (r.cut p).remaining < rounds') :
    Curtailed id (cut p) p (CutShort input p) r.position () t
      (skipGroups limit rounds' stack (r.cut p)) := by
  induction rounds generalizing stack r rounds' with
  | zero =>
    cases stack with
    | nil =>
      cases h
      exact skipGroups_nil limit rounds' ▸ Cuttable.pure () t _ _ rfl
    | cons number inner => cases h
  | succ rounds ih =>
    obtain ⟨rounds', rfl⟩ := Nat.exists_eq_succ_of_ne_zero (n := rounds') (by omega)
    cases stack with
    | nil =>
      cases h
      exact Cuttable.pure () t _ _ rfl
    | cons number inner =>
      rw [skipGroups_succ] at h
      split at h
      · cases h
      rename_i hd
      obtain ⟨tag?, u, htag, h⟩ := bind_eq_ok.1 h
      cases tag? with
      | none => cases h
      | some tag =>
        have hd : r.depth + (inner.length + 1) ≤ limit := Nat.le_of_not_lt hd
        have hd' : (r.cut p).depth + (inner.length + 1) ≤ limit := hd
        have hlt : r.position ≤ u.position := Nat.le_of_lt (position_lt_of_nextTag htag)
        have hu : u.StandsIn input := hr.before (steady_nextTag _ _ _ htag)
        have hend : u.position ≤ t.position :=
          (steady_skipRound (steady_skipGroups limit rounds) _ _ _ _ _ _ _ h).position_le
        have hremaining : u.position ≤ p → (u.cut p).remaining < rounds' := fun hp =>
          Nat.lt_of_lt_of_le (remaining_of_nextTag (nextTag_cut_of_le htag hp))
            (Nat.le_of_lt_succ hrounds)
        cases hw : tag.wireType with
        | endGroup =>
          simp only [skipRound, hw] at h
          split at h
          · rename_i hn
            have hstep := hr.wireStep_closed htag hw hn (inner ++ outer)
            refine .of_mid hlt hend (fun hp => ?_)
              (cutShort_skipGroups hplace hd htag hstep (Nat.le_refl _))
            rw [skipGroups_of_endGroup hd' (nextTag_cut_of_le htag hp) hw hn]
            exact ih h hu (hplace.step hstep) (hremaining hp)
          · cases h
        | startGroup =>
          simp only [skipRound, hw] at h
          have hstep := hr.wireStep_opened htag hw (number :: (inner ++ outer))
          refine .of_mid hlt hend (fun hp => ?_)
            (cutShort_skipGroups hplace hd htag hstep (Nat.le_refl _))
          rw [skipGroups_of_startGroup hd' (nextTag_cut_of_le htag hp) hw]
          exact ih h hu (hplace.step hstep) (hremaining hp)
        | varint | fixed64 | lengthDelimited | fixed32 =>
          simp only [skipRound, hw] at h
          obtain ⟨v, w, hv, h⟩ := bind_eq_ok.1 h
          rw [← hw] at hv
          have hstep := hr.wireStep_value htag hv (number :: (inner ++ outer))
          have hsteady := steady_wireValue _ _ _ _ hv
          refine .of_mid hlt hend (fun hp => ?_)
            (cutShort_skipGroups hplace hd htag hstep hsteady.position_le)
          have hvalue := curtailed_wireValue (p := p) hr hplace htag hv
          rw [run_skipGroups hd' (nextTag_cut_of_le htag hp), skipRound]
          simp only [hw] at hvalue ⊢
          refine hvalue.bind (steady_skipGroups _ _ _ _ _ _ h).position_le fun hwp => ?_
          refine ih h (hu.before hsteady) (hplace.step hstep) ?_
          exact Nat.lt_of_le_of_lt (steady_wireValue _ _ _ _ (hvalue.whole hwp)).remaining_le
            (hremaining hp)

/-- A field is skipped up to the cut. -/
theorem curtailed_skip (hr : r.StandsIn input) (hplace : ExpectsTag input stack r.position)
    (htag : nextTag r = .ok (some tag) u) : CutReads p (CutShort input p) (skip limit tag) u := by
  intro _ t h
  by_cases hw : tag.wireType = .startGroup
  · rw [skip, if_pos hw, run_bind_of_ok (run_get u)] at h
    rw [skip, if_pos hw, run_bind_of_ok (run_get (u.cut p))]
    exact curtailed_skipGroups h (hr.before (steady_nextTag _ _ _ htag))
      (hplace.step (hr.wireStep_opened htag hw stack)) (Nat.lt_succ_self _)
  · obtain ⟨v, hv⟩ := wireValue_of_skip hw h
    have hcut := curtailed_wireValue (p := p) hr hplace htag hv
    rw [skip, if_neg hw]
    exact hcut.bind (Nat.le_refl _) fun _ => Cuttable.pure () t _ _ rfl

end Reader

/-! ## Merging -/

namespace Message

variable {options : DecodeOptions} {input : Bytes} {p number : Nat} {stack outer : List Nat}
  {m m' : Message} {r t u : Reader} {tag : Tag}

/-- What becomes of merging fields, from a place where certain groups are open, if the input is cut
off: the fields before the cut are merged, and either nothing is left behind them, or the next one
fails. -/
structure CutMerges (options : DecodeOptions) (input : Bytes) (p : Nat) (stack : List Nat)
    (m : Message) (r : Reader) (m' : Message) (t : Reader) : Prop where
  place : ExpectsTag input stack t.position
  whole : t.position ≤ p → Merges options (m, r.cut p) (m', t.cut p)
  broken : r.position ≤ p → p ≤ t.position →
    (ExpectsTag input stack p ∧
      ∃ m1 u, Merges options (m, r.cut p) (m1, u) ∧ u.rest = [] ∧ u.position = p) ∨
    ∃ e, CutShort input p e ∧ ∀ group?, ∃ q, mergeBody options group? (m, r.cut p) = .error e q

/-- A group that is cut off is not closed, or what it holds is cut off. -/
theorem cutBuilds_mergeBody (hr : r.StandsIn input)
    (inner : ∀ m m' t, Merges options (m, r) (m', t) →
      CutMerges options input p (number :: outer) m r m' t) (m : Message) :
    CutBuilds p (CutShort input p) (mergeBody options (some number)) m r := by
  rintro ⟨⟩ ⟨m', t⟩ h
  obtain ⟨u, hmerges, tag, htag, hw, hn⟩ := mergeBody_eq_ok.1 h
  have hcut := inner m m' u hmerges
  have hlt := position_lt_of_nextTag htag
  have hle : r.position ≤ u.position := hmerges.before.position_le
  refine ⟨Nat.le_trans hle (Nat.le_of_lt hlt), fun hp => ?_, fun hp hpt => ?_⟩
  · have hwhole := hcut.whole (Nat.le_trans (Nat.le_of_lt hlt) hp)
    exact mergeBody_eq_ok.2 ⟨u.cut p, hwhole, tag, nextTag_cut_of_le htag hp, hw, hn⟩
  · show ∃ e q, mergeBody options (some number) (m, r.cut p) = .error e q ∧ CutShort input p e
    by_cases hpu : p ≤ u.position
    · rcases hcut.broken hp hpu with ⟨hplace, m1, v, hv, he, hposition⟩ | ⟨e, he, hbody⟩
      · refine ⟨_, (m1, v), ?_, .unclosed hplace⟩
        rw [mergeBody_of_merges hv, run_mergeBody, nextTag_eq_none.2 ⟨he, rfl⟩, hposition]
      · obtain ⟨q, hq⟩ := hbody (some number)
        exact ⟨e, q, hq, he⟩
    · have hpu : u.position < p := Nat.lt_of_not_le hpu
      obtain ⟨offset, v, hv⟩ := nextTag_cut_of_lt htag hpu hpt
      have hstep := (hr.before hmerges.before).wireStep_closed htag hw hn outer
      refine ⟨_, (m', v), ?_, .truncated (hcut.place.not_between hstep hpu hpt) offset⟩
      rw [mergeBody_of_merges (hcut.whole (Nat.le_of_lt hpu)), run_mergeBody, hv]

/-- A field that is cut off fails, if that is known of the fields of a group. -/
theorem curtailed_mergeOne_of_inner (hr : r.StandsIn input)
    (hplace : ExpectsTag input stack r.position) (htag : nextTag r = .ok (some tag) u)
    (inner : tag.wireType = .startGroup →
      ∀ m m' t, Merges options (m, { u with depth := u.depth + 1 }) (m', t) →
        CutMerges options input p (tag.number :: stack) m { u with depth := u.depth + 1 } m' t)
    (h : mergeOne options (mergeBody options) r tag (m, u) = .ok () (m', t)) :
    Curtailed Prod.snd (Prod.map id (cut p)) p (CutShort input p) u.position () (m', t)
      (mergeOne options (mergeBody options) (r.cut p) tag (m, u.cut p)) := by
  have hb := settled_mergeBody options
  have sb := steady_mergeBody options
  by_cases hw : tag.wireType = .startGroup
  · have hu : u.StandsIn input := hr.before (steady_nextTag _ _ _ htag)
    have hg (m : Message) : CutBuilds p (CutShort input p)
        (group options.depthLimit (mergeBody options) tag) m u :=
      cutBuilds_expecting fun _ => cutBuilds_entered
        (cutBuilds_mergeBody (r := { u with depth := u.depth + 1 }) hu (inner hw) m)
    exact curtailed_mergeOne (cutBuilds_mergeField (fun hne => absurd hw hne) hb sb hg m)
      (curtailed_skip hr hplace htag) h
  · have hg (m : Message) : CutBuilds p (·.isTruncation = true)
        (group options.depthLimit (mergeBody options) tag) m u :=
      cutBuilds_expecting fun hstart => absurd hstart hw
    have hskip : CutReads p (·.isTruncation = true) (skip options.depthLimit tag) u := by
      rw [skip, if_neg hw]
      exact (cutReads_wireValue (fun _ => rfl) tag.wireType u).bind fun _ _ _ => .pure _ _
    obtain ⟨v, hv⟩ := wireValue_of_skip hw (skip_of_mergeOne h)
    exact (curtailed_mergeOne (cutBuilds_mergeField (fun _ _ => rfl) hb sb hg m) hskip h).imp
      (cutShort_of_isTruncation hr hplace htag hv)

/-- Merging fields of input that is cut off. -/
theorem cutMerges_of_merges (h : Merges options (m, r) (m', t)) (hr : r.StandsIn input)
    (hplace : ExpectsTag input stack r.position) :
    CutMerges options input p stack m r m' t := by
  generalize hn : r.remaining = n
  -- the body of a group has fewer bytes than the field that holds it
  induction n using Nat.strongRecOn generalizing m r m' t stack with
  | ind n ih =>
    cases h with
    | nil =>
      refine ⟨hplace, fun _ => .nil _, fun hp hle => .inl ?_⟩
      obtain rfl : r.position = p := Nat.le_antisymm hp hle
      exact ⟨hplace, m, _, .nil _, rest_cut_eq_nil (Nat.le_refl _), rfl⟩
    | @cons _ _ u tag q _ htag hw hone hrest =>
      obtain ⟨m1, v⟩ := q
      have hlt : u.remaining < n := hn ▸ remaining_of_nextTag htag
      have hskip := skip_of_mergeOne hone
      have hbefore := (steady_nextTag _ _ _ htag).trans (steady_skip _ _ _ _ _ hskip)
      have hle : v.remaining ≤ u.remaining := (steady_skip _ _ _ _ _ hskip).remaining_le
      have hu : u.StandsIn input := hr.before (steady_nextTag _ _ _ htag)
      have hfield := curtailed_mergeOne_of_inner (p := p) hr hplace htag
        (fun hstart _ _ _ h => ih u.remaining hlt h hu
          (hplace.step (hr.wireStep_opened htag hstart stack)) rfl) hone
      have hcut := ih v.remaining (by omega) hrest (hr.before hbefore)
        (hr.expectsTag_skip hplace htag hskip).1 rfl
      have huv : u.position ≤ v.position := hfield.start_le
      have hvt : v.position ≤ t.position := hrest.before.position_le
      refine ⟨hcut.place, fun hp => ?_, fun hp hpt => ?_⟩
      · exact .cons (nextTag_cut_of_le htag (by omega)) hw (hfield.whole (Nat.le_trans hvt hp))
          (hcut.whole hp)
      · rcases Nat.eq_or_lt_of_le hp with rfl | hp
        · exact .inl ⟨hplace, m, _, .nil _, rest_cut_eq_nil (Nat.le_refl _), rfl⟩
        by_cases hpu : u.position ≤ p
        · have htag' := nextTag_cut_of_le htag hpu
          by_cases hpv : v.position ≤ p
          · have hone' := hfield.whole hpv
            refine (hcut.broken hpv hpt).imp ?_ ?_
            · rintro ⟨hp, m2, w, hw', he⟩
              exact ⟨hp, m2, w, .cons htag' hw hone' hw', he⟩
            · rintro ⟨e, he, hbody⟩
              refine ⟨e, he, fun group? => ?_⟩
              rw [mergeBody_cons htag' hw hone']
              exact hbody group?
          · obtain ⟨e, q, hq, he⟩ := hfield.broken hpu (Nat.lt_of_not_le hpv)
            refine .inr ⟨e, he, fun group? => ⟨q, ?_⟩⟩
            rw [run_mergeBody, htag']
            dsimp only
            rw [if_neg hw, hq]
        · have hpu : p < u.position := Nat.lt_of_not_le hpu
          obtain ⟨offset, w, hw'⟩ := nextTag_cut_of_lt htag hp hpu
          obtain ⟨stack', k, hstep, hk⟩ := hr.exists_wireStep htag hskip stack
          refine .inr ⟨_, .truncated (hplace.not_between hstep hp (by omega)) offset,
            fun group? => ⟨(m, w), ?_⟩⟩
          rw [run_mergeBody, hw']

theorem position_eq_length {bytes : Bytes} (h : Merges options (m, .new bytes) (m', t))
    (ht : t.rest = []) : t.position = bytes.length := by
  have hend := h.before.stop_eq
  rwa [stop_new, stop, remaining, ht, List.length_nil, Nat.add_zero] at hend

/-- A truncation is located in what is left of the input. -/
theorem le_of_decode_truncated {type : MessageType} {bytes : Bytes} {k offset : Nat}
    (h : decode options type (bytes.take k) = .error (.truncated offset)) : offset ≤ k := by
  rcases merge_of_decode_error h with ⟨hmissing, -⟩ | ⟨m, hm⟩
  · cases hmissing
  · cases (located_of_merge_error hm).1 with
    | truncated offset_le => exact Nat.le_trans offset_le (List.length_take_le k bytes)

/-- Of an input that decodes, what is left when it is cut off still decodes or is cut short. -/
theorem decode_take_cases {type : MessageType} {bytes : Bytes} {k : Nat}
    (hpartial : options.allowPartial = true) (h : decode options type bytes = .ok m)
    (hk : k ≤ bytes.length) :
    (ExpectsTag bytes [] k ∧ ∃ m', decode options type (bytes.take k) = .ok m') ∨
      ∃ e, CutShort bytes k e ∧ decode options type (bytes.take k) = .error e := by
  obtain ⟨t, hmerges, ht⟩ := merge_eq_ok.1 ((decode_partial hpartial).1 h)
  have hcut := cutMerges_of_merges (p := k) hmerges rfl (.zero bytes)
  have hstop : k ≤ t.position := position_eq_length hmerges ht ▸ hk
  rcases hcut.broken (Nat.zero_le k) hstop with ⟨hplace, m1, u, hu, he, -⟩ | ⟨e, he, hbody⟩
  · rw [cut_new] at hu
    exact .inl ⟨hplace, m1, (decode_partial hpartial).2 (merge_eq_ok.2 ⟨u, hu, he⟩)⟩
  · obtain ⟨q, hq⟩ := hbody none
    rw [cut_new] at hq
    refine .inr ⟨e, he, ?_⟩
    rw [decode, merge, hq]

/-- Among the places where a tag is expected, those between top-level fields are the ends of the raw
fields that the input is cut into. -/
theorem expectsTag_iff_of_decode {type : MessageType} {bytes : Bytes} {k : Nat}
    (h : decode options type bytes = .ok m) (hk : k ≤ bytes.length) :
    ExpectsTag bytes [] k ↔ ∃ n,
      k = (((RawField.split options.depthLimit bytes).1.take n).flatMap RawField.bytes).length := by
  obtain ⟨t, hmerges, ht⟩ := merge_eq_ok.1 (merge_of_decode h)
  obtain ⟨fields, hrun, -⟩ := exists_run_of_merges hmerges
  have hiff : ExpectsTag bytes [] k ↔
      ∃ n, k = 0 + ((fields.take n).flatMap RawField.bytes).length :=
    hrun.expectsTag_iff rfl (.zero bytes) (Nat.zero_le k) (position_eq_length hmerges ht ▸ hk)
  have hsplit : RawField.split options.depthLimit bytes = (fields, []) :=
    RawField.split_of_run hrun ht
  simpa only [Nat.zero_add, hsplit] using hiff

/-- An input that decodes is cut off somewhere. Between two top-level fields it still decodes. Where
a tag is expected inside a group that is open, the group is missing its end tag. Everywhere else the
input is truncated, at a place no further than the cut. -/
theorem decode_take {type : MessageType} {bytes : Bytes} {k : Nat}
    (hpartial : options.allowPartial = true) (h : decode options type bytes = .ok m)
    (hk : k ≤ bytes.length) :
    (ExpectsTag bytes [] k ↔ ∃ n, k =
      (((RawField.split options.depthLimit bytes).1.take n).flatMap RawField.bytes).length) ∧
    (ExpectsTag bytes [] k → ∃ m', decode options type (bytes.take k) = .ok m') ∧
    (∀ number outer, ExpectsTag bytes (number :: outer) k →
      decode options type (bytes.take k) = .error (.malformed k (.unclosedGroup number)) ∧
        (WireFault.unclosedGroup number).message = s!"group {number} is missing its end tag") ∧
    ((∀ stack, ¬ ExpectsTag bytes stack k) →
      ∃ offset ≤ k, decode options type (bytes.take k) = .error (.truncated offset)) := by
  refine ⟨expectsTag_iff_of_decode h hk, ?_⟩
  rcases decode_take_cases hpartial h hk with ⟨hplace, hdecode⟩ | ⟨e, he, hdecode⟩
  · refine ⟨fun _ => hdecode, fun number outer hopen => ?_, fun hinside => ?_⟩
    · cases hplace.stack_eq hopen
    · exact absurd hplace (hinside [])
  · refine ⟨fun hplace => ?_, fun number outer hopen => ?_, fun hinside => ?_⟩
    · cases he with
      | truncated inside => exact absurd hplace (inside [])
      | unclosed hopen => cases hplace.stack_eq hopen
    · cases he with
      | truncated inside => exact absurd hopen (inside _)
      | unclosed hopen' =>
        cases hopen.stack_eq hopen'
        exact ⟨hdecode, rfl⟩
    · cases he with
      | truncated inside offset => exact ⟨offset, le_of_decode_truncated hdecode, hdecode⟩
      | unclosed hopen => exact absurd hopen (hinside _)

/-- A number, and a group that holds another group with a number in it. -/
theorem decode_take_inner :
    let bytes : Bytes := [8, 5, 35, 43, 8, 1, 44, 36]
    (∃ m, decode { allowPartial := true } .inner bytes = .ok m) ∧
      (∃ m, decode { allowPartial := true } .inner (bytes.take 2) = .ok m) ∧
      decode { allowPartial := true } .inner (bytes.take 4) =
        .error (.malformed 4 (.unclosedGroup 5)) ∧
      ∃ offset ≤ 5, decode { allowPartial := true } .inner (bytes.take 5) =
        .error (.truncated offset) := by
  intro bytes
  have hdecode : ∃ m, decode { allowPartial := true } .inner bytes = .ok m := ⟨_, rfl⟩
  refine ⟨hdecode, ?_⟩
  obtain ⟨m, hm⟩ := hdecode
  have htag : nextTag (standing bytes 0) =
    .ok (some ⟨1, .varint, by decide⟩) ⟨[5, 35, 43, 8, 1, 44, 36], 1, 0⟩ := rfl
  have hopen : nextTag (standing bytes 2) =
    .ok (some ⟨4, .startGroup, by decide⟩) ⟨[43, 8, 1, 44, 36], 3, 0⟩ := rfl
  have hopen' : nextTag (standing bytes 3) =
    .ok (some ⟨5, .startGroup, by decide⟩) ⟨[8, 1, 44, 36], 4, 0⟩ := rfl
  have htag' : nextTag (standing bytes 4) =
    .ok (some ⟨1, .varint, by decide⟩) ⟨[1, 44, 36], 5, 0⟩ := rfl
  have hfirst : ExpectsTag bytes [] 2 :=
    (ExpectsTag.zero bytes).step (.value (t := ⟨[35, 43, 8, 1, 44, 36], 2, 0⟩) htag rfl)
  have hnested : ExpectsTag bytes [5, 4] 4 :=
    (hfirst.step (.opened hopen rfl)).step (.opened hopen' rfl)
  have hvalue : WireStep bytes ([5, 4], 4) ([5, 4], 6) :=
    .value (t := ⟨[44, 36], 6, 0⟩) htag' rfl
  refine ⟨(decode_take rfl hm (by decide)).2.1 hfirst,
    ((decode_take rfl hm (by decide)).2.2.1 5 [4] hnested).1,
    (decode_take rfl hm (by decide)).2.2.2 ?_⟩
  exact hnested.not_between hvalue (by decide) (by decide)

end Message

end Protobuf
