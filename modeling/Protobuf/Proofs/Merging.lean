import Protobuf.Proofs.Simulation

/-!
# The loop of merging

Merging reads one field after the other: the number of rounds plays no part
(`Message.mergeBody_round`), nor does the place where the input stands, and what stands behind the
fields of a region is merged as if it came alone, into what they left behind
(`Message.mergeBody_append`).
-/

namespace Protobuf

open Build

variable {options options' : DecodeOptions}

theorem Error.shift_zero (e : Error) : e.shift 0 = e := by
  cases e <;> simp [shift]

/-! ## Equal messages -/

theorem FieldKind.Like.eq {kind : FieldKind} {v v' : Value Message}
    (h : kind.Like (fun _ m m' => m' = m) v v') : v' = v := by
  cases kind with
  | scalar kind =>
    obtain ⟨s, rfl, rfl, -⟩ := h
    rfl
  | message type | group type =>
    obtain ⟨m, _, rfl, rfl, rfl⟩ := h
    rfl

/-- Equal messages stay equal if the settings agree on unknown fields. -/
def Likeness.same (h : options'.discardUnknown = options.discardUnknown) :
    Likeness options options' where
  message _ _ m m' := m' = m
  slot _ _ s s' := s' = s
  scalars _ ss ss' := ss' = ss
  values _ _ vs vs' := vs' = vs
  type_eq := congrArg Message.type
  new _ _ := rfl
  slot_of := by
    rintro d type m _ test i member rfl -
    rfl
  of_slot := by
    rintro d type m _ test i member s _ rfl - rfl
    rfl
  note := by
    rintro d type m _ tag bytes rfl - -
    simp only [DecodeOptions.note, h]
  plain _ := rfl
  optional hv := by rw [hv.eq]
  optionalMessage hs _ := by rw [hs]
  unchosen _ _ := rfl
  oneof _ hv := by rw [hv.eq]
  chosenMessage hs _ _ := by rw [hs]
  packedScalars hs := by rw [hs]
  setPackedScalars hs hss := by rw [hs, hss]
  push_scalar hss _ := by rw [hss]
  repeatedValues hs := by rw [hs]
  setRepeatedValues hs hvs := by rw [hs, hvs]
  push_value hvs hv := by rw [hvs, hv.eq]
  insert hs _ hv := by rw [hs, hv.eq]
  payload _ _ _ _ := rfl

/-- Equal messages stay equal. -/
abbrev Likeness.refl (options : DecodeOptions) : Likeness options options := .same rfl

namespace Comparison

/-- A reading beside one that has more bytes behind its region. -/
def extended (limit : Nat) (behind : Bytes) : Comparison := ⟨0, behind, limit, limit, Nat.le_refl _⟩

/-- A reading beside one that stands further on. -/
def shifted (limit offset : Nat) : Comparison := ⟨offset, [], limit, limit, Nat.le_refl _⟩

theorem reader_extended (limit : Nat) (behind : Bytes) (r : Reader) :
    (extended limit behind).reader r = { r with rest := r.rest ++ behind } := by
  simp [reader, extended]

theorem reader_shifted (limit offset : Nat) (r : Reader) :
    (shifted limit offset).reader r = { r with position := offset + r.position } := by
  simp [reader, shifted]

theorem not_excuses_shifted (limit offset : Nat) (e : Error) :
    ¬ (shifted limit offset).Excuses e := by
  rintro (h | ⟨h, -⟩)
  · exact h rfl
  · exact Nat.lt_irrefl _ h

/-- Builders that correspond at the same place do the same. -/
theorem Builds.eq {σ : Type} (limit : Nat) {x y : Build Reader σ Unit} {s : σ} {r : Reader}
    (h : (shifted limit 0).Builds r.remaining r.depth (fun s s' => s' = s) (fun _ _ => True) x y) :
    x (s, r) = y (s, r) := by
  have hreader : ∀ t, (shifted limit 0).reader t = t := by
    intro t
    rw [reader_shifted, Nat.zero_add]
  have ho := h s s r r rfl ⟨(hreader r).symm, Nat.le_refl _, rfl⟩
  rcases hx : x (s, r) with ⟨⟨⟩, t, u⟩ | ⟨e, t, u⟩
  · rw [hx] at ho
    obtain ⟨b, ⟨t', u'⟩, hy, -, ht, hu, -⟩ := ho
    rw [hreader] at hu
    dsimp only at ht hu
    rw [hy, ht, hu]
  · rw [hx] at ho
    rcases ho with ho | ⟨⟨t', u'⟩, hy, ht, hu⟩
    · exact absurd ho (not_excuses_shifted _ _ _)
    · rw [hreader] at hu
      dsimp only at ht hu
      rw [hy, ht, hu]
      exact congrArg (EStateM.Result.error · _) (Error.shift_zero e).symm

end Comparison

namespace Message

open Reader Comparison

theorem settled_mergeBody (options : DecodeOptions) (group? : Option Nat) :
    Settled (mergeBody options group?) :=
  Settled.source.bind fun _ => settled_mergeFields options _ group?

theorem steady_mergeBody (options : DecodeOptions) (group? : Option Nat) :
    Steady Prod.snd (mergeBody options group?) :=
  Steady.source.bind fun _ => steady_mergeFields options _ group?

/-- Merging a body is merging its first field and then the others. -/
theorem mergeBody_round (options : DecodeOptions) (group? : Option Nat) :
    mergeBody options group? =
      mergeRound (mergeOne options (mergeBody options)) (mergeBody options group?) group? := by
  funext ⟨m, r⟩
  rw [mergeBody, run_bind_of_ok (run_source m r), mergeFields_round]
  refine Comparison.Builds.eq options.depthLimit ?_
  have hrest : ∀ (n d : Nat) (c : Comparison), c.behind = [] → c.limit = options.depthLimit →
      c.limit' = options.depthLimit → n < r.remaining → ∀ group? type,
      c.Builds n d ((Likeness.refl options).message d type) (fun _ _ => True)
        (mergeFields options r.remaining group?) (mergeBody options group?) :=
    fun n d c hb hl hl' hn group? type =>
      builds_mergeFields_mergeBody _ hl hl' r.remaining hn group? (fun _ => hb) type
  refine builds_mergeRound (Likeness.refl options) (fun _ => rfl)
    ?_ fun hpos => hrest _ _ _ rfl rfl rfl (by omega) group? m.type
  intro m m' start r' tag hpos hm hd htag hr hw
  have hbodies : (shifted options.depthLimit 0).Bodies (Likeness.refl options)
      (r.remaining - 1) (mergeFields options r.remaining) (mergeBody options) := by
    rintro c' (rfl | rfl) group? d type -
    · exact hrest _ _ _ rfl rfl rfl (by omega) group? type
    · exact hrest _ _ _ rfl rfl rfl (by omega) group? type
  exact outcome_mergeOne hbodies (settled_mergeFields options r.remaining)
    (settled_mergeBody options) rfl rfl hm hd htag hr hw

/-! ## Fields one after the other -/

/-- From one message and place to another by merging fields. -/
inductive Merges (options : DecodeOptions) : Message × Reader → Message × Reader → Prop
  /-- No field is merged. -/
  | nil (p : Message × Reader) : Merges options p p
  /-- A field is merged, and then others are. -/
  | cons {m : Message} {r u : Reader} {tag : Tag} {p q : Message × Reader}
    (tag_eq : nextTag r = .ok (some tag) u) (not_end : tag.wireType ≠ .endGroup)
    (one : mergeOne options (mergeBody options) r tag (m, u) = .ok () p)
    (rest : Merges options p q) : Merges options (m, r) q

/-- Nothing is left in the region, or the end tag of the group comes next. -/
def Ends (group? : Option Nat) (r t : Reader) : Prop :=
  match group? with
  | none => r.rest = [] ∧ t = r
  | some number => ∃ tag, nextTag r = .ok (some tag) t ∧ tag.wireType = .endGroup ∧
      tag.number = number

theorem run_mergeRound (one : Reader → Tag → Build Reader Message Unit)
    (rest : Build Reader Message Unit) (group? : Option Nat) (m : Message) (r : Reader) :
    mergeRound one rest group? (m, r) =
      match nextTag r with
      | .ok none t =>
        match group? with
        | none => .ok () (m, t)
        | some number => .error (.malformed r.position (.unclosedGroup number)) (m, t)
      | .ok (some tag) t =>
        if tag.wireType = .endGroup then
          if group? = some tag.number then .ok () (m, t)
          else .error (.malformed r.position (.unexpectedEndGroup tag.number)) (m, t)
        else
          match one r tag (m, t) with
          | .ok _ p => rest p
          | .error e p => .error e p
      | .error e t => .error e (m, t) := by
  rw [mergeRound, run_bind_of_ok (run_source m r), run_bind, run_read]
  rcases nextTag r with ⟨_ | tag, t⟩ | ⟨e, t⟩
  · cases group? <;> rfl
  · dsimp only
    split
    · split <;> rfl
    · refine (run_bind _ _ _).trans ?_
      cases one r tag (m, t) <;> rfl
  · rfl

/-- What merging a body does, by the next tag. -/
theorem run_mergeBody (options : DecodeOptions) (group? : Option Nat) (m : Message) (r : Reader) :
    mergeBody options group? (m, r) =
      match nextTag r with
      | .ok none t =>
        match group? with
        | none => .ok () (m, t)
        | some number => .error (.malformed r.position (.unclosedGroup number)) (m, t)
      | .ok (some tag) t =>
        if tag.wireType = .endGroup then
          if group? = some tag.number then .ok () (m, t)
          else .error (.malformed r.position (.unexpectedEndGroup tag.number)) (m, t)
        else
          match mergeOne options (mergeBody options) r tag (m, t) with
          | .ok _ p => mergeBody options group? p
          | .error e p => .error e p
      | .error e t => .error e (m, t) :=
  (congrFun (mergeBody_round options group?) (m, r)).trans (run_mergeRound ..)

/-- After a field comes what is behind it. -/
theorem mergeBody_cons {m : Message} {r u : Reader} {tag : Tag} {p : Message × Reader}
    (htag : nextTag r = .ok (some tag) u) (hw : tag.wireType ≠ .endGroup)
    (hone : mergeOne options (mergeBody options) r tag (m, u) = .ok () p) (group? : Option Nat) :
    mergeBody options group? (m, r) = mergeBody options group? p := by
  rw [run_mergeBody, htag]
  dsimp only
  rw [if_neg hw, hone]

theorem mergeBody_of_merges {p q : Message × Reader} (h : Merges options p q)
    (group? : Option Nat) :
    mergeBody options group? p = mergeBody options group? q := by
  induction h with
  | nil p => rfl
  | cons htag hw hone _ ih => rw [mergeBody_cons htag hw hone, ih]

theorem mergeBody_of_ends {group? : Option Nat} {m : Message} {r t : Reader}
    (h : Ends group? r t) : mergeBody options group? (m, r) = .ok () (m, t) := by
  rw [run_mergeBody]
  cases group? with
  | none =>
    obtain ⟨he, rfl⟩ := h
    rw [nextTag_eq_none.2 ⟨he, rfl⟩]
  | some number =>
    obtain ⟨tag, htag, hw, rfl⟩ := h
    rw [htag]
    dsimp only
    rw [if_pos hw, if_pos rfl]

theorem mergeBody_of_rest_nil {m : Message} {r : Reader} (h : r.rest = []) :
    mergeBody options none (m, r) = .ok () (m, r) :=
  mergeBody_of_ends ⟨h, rfl⟩

/-- Merging a body succeeds exactly by merging fields up to its end. -/
theorem mergeBody_eq_ok {group? : Option Nat} {m m' : Message} {r t : Reader} :
    mergeBody options group? (m, r) = .ok () (m', t) ↔
      ∃ u, Merges options (m, r) (m', u) ∧ Ends group? u t := by
  constructor
  · intro h
    -- every field takes up bytes of the region
    generalize hn : r.remaining = n
    induction n using Nat.strongRecOn generalizing m r with
    | ind n ih =>
      rw [run_mergeBody] at h
      rcases htag : nextTag r with ⟨_ | tag, u⟩ | ⟨e, u⟩
      · rw [htag] at h
        cases group? with
        | none =>
          cases h
          obtain ⟨he, rfl⟩ := nextTag_eq_none.1 htag
          exact ⟨t, .nil _, he, rfl⟩
        | some number => cases h
      · rw [htag] at h
        dsimp only at h
        by_cases hw : tag.wireType = .endGroup
        · rw [if_pos hw] at h
          by_cases hg : group? = some tag.number
          · rw [if_pos hg] at h
            cases h
            exact ⟨r, .nil _, hg ▸ ⟨tag, htag, hw, rfl⟩⟩
          · rw [if_neg hg] at h
            cases h
        · rw [if_neg hw] at h
          rcases hone : mergeOne options (mergeBody options) r tag (m, u) with ⟨_, m1, v⟩ | ⟨e, p⟩
          · rw [hone] at h
            have hlt := remaining_of_nextTag htag
            have hle : v.remaining ≤ u.remaining :=
              (steady_mergeOne options (settled_mergeBody options) (steady_mergeBody options) r tag
                _ _ _ hone).remaining_le
            obtain ⟨w, hmerges, hends⟩ := ih v.remaining (by omega) h rfl
            exact ⟨w, .cons htag hw hone hmerges, hends⟩
          · rw [hone] at h
            cases h
      · rw [htag] at h
        cases h
  · rintro ⟨u, hmerges, hends⟩
    rw [mergeBody_of_merges hmerges, mergeBody_of_ends hends]

theorem Merges.trans {p q s : Message × Reader} (h : Merges options p q)
    (h' : Merges options q s) : Merges options p s := by
  induction h with
  | nil p => exact h'
  | cons htag hw hone _ ih => exact .cons htag hw hone (ih h')

theorem Merges.before {p q : Message × Reader} (h : Merges options p q) : p.2.Before q.2 := by
  induction h with
  | nil p => exact .refl _
  | cons htag hw hone _ ih =>
    have h1 := steady_nextTag _ _ _ htag
    have h2 := steady_mergeOne options (settled_mergeBody options) (steady_mergeBody options) _ _
      _ _ _ hone
    exact (h1.trans h2).trans ih

/-! ## Readers that stand elsewhere -/

/-- A field is merged alike wherever it stands and whatever comes behind it. -/
theorem mergeOne_reader {c : Comparison} (hl : c.limit = options.depthLimit)
    (hl' : c.limit' = options'.depthLimit)
    (hd : options'.discardUnknown = options.discardUnknown) {m m1 : Message} {r u v : Reader}
    {tag : Tag} (htag : nextTag r = .ok (some tag) u) (hw : tag.wireType ≠ .endGroup)
    (hone : mergeOne options (mergeBody options) r tag (m, u) = .ok () (m1, v)) :
    mergeOne options' (mergeBody options') (c.reader r) tag (m, c.reader u) =
      .ok () (m1, c.reader v) := by
  have hbodies : c.Bodies (Likeness.same hd) u.remaining (mergeBody options)
      (mergeBody options') := by
    rintro c' (rfl | rfl) group? d type hg
    · exact builds_mergeBody _ hl hl' group? hg type
    · exact builds_mergeBody (c := c.closed) _ hl hl' group? hg type
  have hu : u.depth = r.depth := (steady_nextTag _ _ _ htag).depth_eq
  have ho := outcome_mergeOne hbodies (settled_mergeBody options)
    (settled_mergeBody options') hl hl'
    (show (Likeness.same hd).message r.depth m.type m m from rfl) rfl htag
    ⟨rfl, Nat.le_refl _, hu⟩ hw
  rw [hone] at ho
  obtain ⟨_, ⟨m', v'⟩, hy, -, hm, hv, -⟩ := ho
  dsimp only at hm hv
  rw [hy, hm, hv]

theorem Merges.reader {c : Comparison} (hl : c.limit = options.depthLimit)
    (hl' : c.limit' = options'.depthLimit)
    (hd : options'.discardUnknown = options.discardUnknown) {p q : Message × Reader}
    (h : Merges options p q) : Merges options' (p.1, c.reader p.2) (q.1, c.reader q.2) := by
  induction h with
  | nil p => exact .nil _
  | cons htag hw hone _ ih =>
    exact .cons (nextTag_reader_of_some htag) hw (mergeOne_reader hl hl' hd htag hw hone) ih

/-- What stands behind the fields of a region does not matter to them, and is merged into what they
left behind. -/
theorem mergeBody_append {m m1 : Message} {r r1 : Reader}
    (h : mergeBody options none (m, r) = .ok () (m1, r1)) (group? : Option Nat) (bytes : Bytes) :
    mergeBody options group? (m, { r with rest := r.rest ++ bytes }) =
      mergeBody options group? (m1, { r1 with rest := bytes }) := by
  obtain ⟨u, hmerges, he, rfl⟩ := mergeBody_eq_ok.1 h
  have hx := mergeBody_of_merges (hmerges.reader (c := extended options.depthLimit bytes) rfl rfl
    (rfl : options.discardUnknown = options.discardUnknown)) group?
  rw [reader_extended, reader_extended, he, List.nil_append] at hx
  exact hx

/-- Merging does not depend on the place of the input, except for the offsets in errors. -/
theorem mergeBody_shift (options : DecodeOptions) (group? : Option Nat) (m : Message) (r : Reader)
    (offset : Nat) :
    mergeBody options group? (m, { r with position := offset + r.position }) =
      match mergeBody options group? (m, r) with
      | .ok _ (m, t) => .ok () (m, { t with position := offset + t.position })
      | .error e (m, t) =>
        .error (e.shift offset) (m, { t with position := offset + t.position }) := by
  have ho := builds_mergeBody (c := shifted options.depthLimit offset) (n := r.remaining)
    (d := r.depth) (Likeness.refl options) rfl rfl group? (fun _ => rfl) m.type m m r
    _ rfl ⟨rfl, Nat.le_refl _, rfl⟩
  rw [reader_shifted] at ho
  rcases hx : mergeBody options group? (m, r) with ⟨_, m1, t⟩ | ⟨e, m1, t⟩
  · rw [hx] at ho
    obtain ⟨_, ⟨m', t'⟩, hy, -, hm, ht, -⟩ := ho
    rw [reader_shifted] at ht
    dsimp only at hm ht
    rw [hy, hm, ht]
  · rw [hx] at ho
    rcases ho with ho | ⟨⟨m', t'⟩, hy, hm, ht⟩
    · exact absurd ho (not_excuses_shifted _ _ _)
    · rw [reader_shifted] at ht
      dsimp only at hm ht
      rw [hy, hm, ht]
      rfl

end Message

end Protobuf
