import Protobuf.Proofs.Concatenation
import Protobuf.Proofs.Truncation

/-!
# Fields that commute

Every top-level field of an input is merged as if it were the whole input, whatever stands in front
of it (`Message.mergesEach_of_merges`). In a type without oneofs, fields of different numbers belong
to different slots. So two neighbouring fields with different numbers can be exchanged, and the same
fields are set; only the order of what is unknown shows which of them came first
(`Message.merge_exchanged`).
-/

namespace Protobuf

open Build Reader

namespace MessageType

/-- The type has no oneof: each of its members is one field. -/
def HasNoOneof (type : MessageType) : Prop := type ≠ .requiredOneof ∧ type ≠ .oneofContainer

theorem HasNoOneof.length_labels {type : MessageType} (h : type.HasNoOneof) :
    ∀ member ∈ type.members, member.labels.length = 1 := by
  obtain ⟨h1, h2⟩ := h
  cases type with
  | requiredOneof => exact absurd rfl h1
  | oneofContainer => exact absurd rfl h2
  | _ => decide

/-- Fields of different numbers are different members. -/
theorem HasNoOneof.index_ne {type : MessageType} (h : type.HasNoOneof) {a b i j : Nat}
    {member member' : Member} (hi : Message.member? type (·.hasNumber a) = some (i, member))
    (hj : Message.member? type (·.hasNumber b) = some (j, member')) (hne : a ≠ b) : i ≠ j := by
  rintro rfl
  have hmember := Message.member?_eq_some hi
  obtain rfl : member' = member :=
    Option.some.inj ((Message.member?_eq_some hj).symm.trans hmember)
  obtain ⟨label, hlabel⟩ :=
    List.length_eq_one_iff.1 (h.length_labels member' (List.mem_of_getElem? hmember))
  have ha := Message.test_of_member? hi
  have hb := Message.test_of_member? hj
  simp only [Member.hasNumber, hlabel, List.any_cons, List.any_nil, Bool.or_false,
    decide_eq_true_eq] at ha hb
  exact hne (ha.symm.trans hb)

end MessageType

namespace Message

variable {options : DecodeOptions} {m m1 m2 m' : Message} {f g : RawField}

theorem wellTyped_of_merge {bytes : Bytes} (h : merge options bytes m = .ok () m1)
    (hm : m.WellTyped) : m1.type = m.type ∧ m1.WellTyped := by
  obtain ⟨t, hmerges, ht⟩ := merge_eq_ok.1 h
  obtain ⟨htype, hsound⟩ := sound_mergeBody (admits_true _)
    (show m.Sound (fun _ _ _ => True) (Reader.new bytes).depth from hm)
    (mergeBody_eq_ok.2 ⟨t, hmerges, show Ends none t t from ⟨ht, rfl⟩⟩)
  exact ⟨htype, hsound.wellTyped⟩

/-! ## One field as the whole input -/

/-- A field that is the whole input is merged. -/
def Alone (options : DecodeOptions) (f : RawField) (m m1 : Message) : Prop :=
  ∃ u v, nextTag (.new f.bytes) = .ok (some f.tag) u ∧ f.tag.wireType ≠ .endGroup ∧
    mergeOne options (mergeBody options) (.new f.bytes) f.tag (m, u) = .ok () (m1, v) ∧
    v.rest = []

theorem Alone.merge (h : Alone options f m m1) : merge options f.bytes m = .ok () m1 := by
  obtain ⟨u, v, htag, hw, hone, he⟩ := h
  exact merge_eq_ok.2 ⟨v, .cons htag hw hone (.nil _), he⟩

/-- A field that its member takes is merged by itself. -/
theorem alone_of_merge {tag : Tag} {i : Nat} {member : Member}
    (hi : member? m.type (·.hasNumber tag.number) = some (i, member))
    (htakes : member.takes tag = true) (hw : tag.wireType ≠ .endGroup) {header content : Bytes}
    (htag : tag.SpelledBy header) {s : Slot Message}
    (h : ∀ u t : Reader, u.depth = 0 → u.Consumes content t →
      member.merge options.depthLimit (mergeBody options) tag (m.slots.getD i member.initial, u) =
        .ok () (s, t)) :
    Alone options ⟨tag, header ++ content⟩ m { m with slots := m.slots.set i s } := by
  obtain ⟨hwhole, hend⟩ := consumes_whole (r := .new (header ++ content)) rfl
  obtain ⟨u, hu, ht⟩ := hwhole.split
  have hone := run_mergeOne_of_takes options (mergeBody options) (.new (header ++ content)) hi
    htakes u
  rw [h u _ hu.2.2 ht] at hone
  exact ⟨u, _, nextTag_eq_some_iff.2 ⟨header, htag, hu⟩, hw, hone, hend⟩

/-- Where the member of a field fails, merging fails, whatever stands behind the field. -/
theorem merge_of_merge_error (options : DecodeOptions) {tag : Tag} {i : Nat} {member : Member}
    (hi : member? m.type (·.hasNumber tag.number) = some (i, member))
    (htakes : member.takes tag = true) (hw : tag.wireType ≠ .endGroup) {header : Bytes}
    (htag : tag.SpelledBy header) (content behind : Bytes) :
    ∃ u t : Reader, u.depth = 0 ∧ u.Consumes content t ∧
      t.position = (header ++ content).length ∧
      ∀ {e : Error} {s : Slot Message} {v : Reader},
        member.merge options.depthLimit (mergeBody options) tag
            (m.slots.getD i member.initial, u) = .error e (s, v) →
          merge options (header ++ content ++ behind) m =
            .error e { m with slots := m.slots.set i s } := by
  let t : Reader := ⟨behind, (header ++ content).length, 0⟩
  have hr : (Reader.new (header ++ content ++ behind)).Consumes (header ++ content) t :=
    ⟨rfl, (Nat.zero_add _).symm, rfl⟩
  obtain ⟨u, hu, hrun⟩ := hr.split
  refine ⟨u, t, hu.2.2, hrun, rfl, ?_⟩
  intro e s v hv
  have hone := run_mergeOne_of_takes options (mergeBody options)
    (.new (header ++ content ++ behind)) hi htakes u
  rw [hv] at hone
  rw [merge, run_mergeBody, nextTag_eq_some_iff.2 ⟨header, htag, hu⟩]
  dsimp only
  rw [if_neg hw, hone]

/-- A field between others is merged alike where it is the whole input. -/
theorem alone_of_mergeOne {input : Bytes} {r u v : Reader} {tag : Tag} (hr : r.StandsIn input)
    (hplace : ExpectsTag input [] r.position) (hd : r.depth = 0)
    (htag : nextTag r = .ok (some tag) u) (hw : tag.wireType ≠ .endGroup)
    (hone : mergeOne options (mergeBody options) r tag (m, u) = .ok () (m1, v)) :
    Alone options ⟨tag, r.consumed v⟩ m m1 := by
  have hbefore : r.Before v := RawField.before_of_skip htag (skip_of_mergeOne hone)
  have hconsumes := hbefore.consumes_consumed
  -- the input ends behind the field
  have hcut : mergeBody options none (m, r.cut v.position) = .ok () (m1, v.cut v.position) := by
    have hwhole := (cutMerges_of_merges (p := v.position) (.cons htag hw hone (.nil _)) hr
      hplace).whole (Nat.le_refl _)
    exact mergeBody_eq_ok.2 ⟨_, hwhole, rest_cut_eq_nil (Nat.le_refl _), rfl⟩
  -- and begins with it
  have hmerge : merge options (r.consumed v) m = .ok () m1 := by
    have hshift : r.cut v.position =
        { Reader.new (r.consumed v) with
          position := r.position + (Reader.new (r.consumed v)).position } := by
      obtain ⟨rest, position, depth⟩ := r
      obtain rfl : depth = 0 := hd
      rfl
    rw [hshift, mergeBody_shift] at hcut
    rw [merge]
    rcases hrun : mergeBody options none (m, .new (r.consumed v)) with ⟨_, m2, t⟩ | ⟨e, m2, t⟩
    · rw [hrun] at hcut
      obtain ⟨rfl, -⟩ := Prod.mk.inj (EStateM.Result.ok.inj hcut).2
      rfl
    · rw [hrun] at hcut
      cases hcut
  obtain ⟨t, hmerges, ht⟩ := merge_eq_ok.1 hmerge
  let c : Comparison := ⟨r.position, v.rest, options.depthLimit, options.depthLimit, Nat.le_refl _⟩
  have hreader : c.reader (.new (r.consumed v)) = r := by
    obtain ⟨rest, position, depth⟩ := r
    obtain rfl : depth = 0 := hd
    have hrest := hconsumes.1
    dsimp only at hrest
    rw [Comparison.reader, Reader.new]
    dsimp only
    rw [← hrest, Nat.add_zero]
  cases hmerges with
  | nil =>
    have hlt := remaining_of_nextTag htag
    have hle : v.remaining ≤ u.remaining :=
      (steady_skip _ _ _ _ _ (skip_of_mergeOne hone)).remaining_le
    have hlen := hconsumes.length_add
    have hnil : r.consumed v = [] := ht
    rw [hnil, List.length_nil] at hlen
    omega
  | @cons _ _ u' tag' q _ htag' hw' hone' hrest =>
    obtain ⟨m2, v'⟩ := q
    have htag'' := Comparison.nextTag_reader_of_some (c := c) htag'
    rw [hreader, htag] at htag''
    cases htag''
    have hone'' := mergeOne_reader (c := c) rfl rfl
      (rfl : options.discardUnknown = options.discardUnknown) htag' hw' hone'
    rw [hreader, hone] at hone''
    obtain ⟨rfl, hv⟩ := Prod.mk.inj (EStateM.Result.ok.inj hone'').2
    have he : v.rest = v'.rest ++ v.rest := congrArg Reader.rest hv
    exact ⟨u', v', htag', hw, hone', List.self_eq_append_left.1 he⟩

/-- A field that is accepted changes one slot, for which only that slot matters. -/
theorem Alone.touches (h : Alone options f m m1) (ha : m.type.accepts f.tag = true) :
    ∃ i member s, member? m.type (·.hasNumber f.tag.number) = some (i, member) ∧
      m1 = { m with slots := m.slots.set i s } ∧
      ∀ m2, m2.type = m.type →
        m2.slots.getD i member.initial = m.slots.getD i member.initial →
        Alone options f m2 { m2 with slots := m2.slots.set i s } := by
  obtain ⟨u, v, htag, hw, hone, he⟩ := h
  obtain ⟨i, member, hf, htakes⟩ := exists_member?_of_accepts ha
  rw [run_mergeOne_of_takes _ _ _ hf htakes] at hone
  rcases hmerge : member.merge options.depthLimit (mergeBody options) f.tag
    (m.slots.getD i member.initial, u) with ⟨_, s, t⟩ | ⟨e, s, t⟩
  · rw [hmerge] at hone
    cases hone
    refine ⟨i, member, s, hf, rfl, fun m2 htype hslot => ⟨u, v, htag, hw, ?_, he⟩⟩
    rw [run_mergeOne_of_takes _ _ _ (htype ▸ hf) htakes, hslot, hmerge]
  · rw [hmerge] at hone
    cases hone

/-- A field that is not accepted is noted. -/
theorem Alone.notes (h : Alone options f m m1) (ha : ¬ m.type.accepts f.tag = true) :
    m1 = options.note f.bytes m ∧
      ∀ m2, m2.type = m.type → Alone options f m2 (options.note f.bytes m2) := by
  obtain ⟨u, v, htag, hw, hone, he⟩ := h
  have hskip := skip_of_mergeOne hone
  have hbytes : (Reader.new f.bytes).consumed v = f.bytes :=
    (RawField.before_of_skip htag hskip).consumes_consumed.eq_rest he
  have hkeep (m : Message) : keepUnknown options (.new f.bytes) f.tag (m, u) =
      .ok () (options.note f.bytes m, v) := by
    rw [Comparison.run_keepUnknown, hskip]
    dsimp only
    rw [hbytes]
  rw [run_mergeOne_of_not_accepts ha, hkeep] at hone
  cases hone
  refine ⟨rfl, fun m2 htype => ⟨u, v, htag, hw, ?_, he⟩⟩
  rw [run_mergeOne_of_not_accepts (htype ▸ ha), hkeep]

/-! ## Neighbours -/

/-- The messages have the same type and the same fields set. -/
def Agrees (m m' : Message) : Prop := m'.type = m.type ∧ m'.slots = m.slots

theorem agrees_note (options : DecodeOptions) (bytes : Bytes) (m : Message) :
    m.Agrees (options.note bytes m) := by
  unfold DecodeOptions.note
  split
  · exact ⟨rfl, rfl⟩
  · exact ⟨rfl, rfl⟩

theorem Alone.type_eq (h : Alone options f m m1) : m1.type = m.type := by
  by_cases ha : m.type.accepts f.tag = true
  · obtain ⟨i, member, s, -, rfl, -⟩ := h.touches ha
    rfl
  · rw [(h.notes ha).1]
    exact (agrees_note options f.bytes m).1

/-- What is merged into a field does not depend on what is unknown. -/
theorem Alone.of_agrees (h : Alone options f m m1) (hm : m.Agrees m') :
    ∃ m1', Alone options f m' m1' ∧ m1.Agrees m1' := by
  obtain ⟨htype, hslots⟩ := hm
  by_cases ha : m.type.accepts f.tag = true
  · obtain ⟨i, member, s, -, rfl, hother⟩ := h.touches ha
    exact ⟨_, hother m' htype (by rw [hslots]), htype, congrArg (List.set · i s) hslots⟩
  · obtain ⟨rfl, hother⟩ := h.notes ha
    obtain ⟨htype1, hslots1⟩ := agrees_note options f.bytes m
    obtain ⟨htype2, hslots2⟩ := agrees_note options f.bytes m'
    refine ⟨_, hother m' htype, ?_, ?_⟩
    · rw [htype2, htype, htype1]
    · rw [hslots2, hslots, hslots1]

/-- Two fields of different numbers set the same in either order. -/
theorem Alone.exchange (htype : m.type.HasNoOneof) (hf : Alone options f m m1)
    (hg : Alone options g m1 m2) (hne : f.tag.number ≠ g.tag.number) :
    ∃ m1' m2', Alone options g m m1' ∧ Alone options f m1' m2' ∧ m2.Agrees m2' := by
  by_cases haf : m.type.accepts f.tag = true
  · obtain ⟨i, member, s, hi, rfl, hf'⟩ := hf.touches haf
    by_cases hag : m.type.accepts g.tag = true
    · obtain ⟨j, member', s', hj, rfl, hg'⟩ := hg.touches hag
      have hij : i ≠ j := htype.index_ne hi hj hne
      have hgm := hg' m rfl (by simp [List.getD_eq_getElem?_getD, List.getElem?_set_ne hij])
      refine ⟨_, _, hgm, hf' _ rfl ?_, rfl, List.set_comm s' s hij.symm⟩
      simp [List.getD_eq_getElem?_getD, List.getElem?_set_ne hij.symm]
    · obtain ⟨rfl, hg'⟩ := hg.notes hag
      obtain ⟨htype1, hslots1⟩ := agrees_note options g.bytes m
      obtain ⟨htype2, hslots2⟩ :=
        agrees_note options g.bytes { m with slots := m.slots.set i s }
      refine ⟨_, _, hg' m rfl, hf' _ htype1 (by rw [hslots1]), ?_, ?_⟩
      · exact htype1.trans htype2.symm
      · exact (congrArg (List.set · i s) hslots1).trans hslots2.symm
  · obtain ⟨rfl, hf'⟩ := hf.notes haf
    obtain ⟨htype1, hslots1⟩ := agrees_note options f.bytes m
    obtain ⟨m1', hgm, htype2, hslots2⟩ := hg.of_agrees ⟨htype1.symm, hslots1.symm⟩
    obtain ⟨htype3, hslots3⟩ := agrees_note options f.bytes m1'
    exact ⟨m1', _, hgm, hf' m1' hgm.type_eq, htype3.trans htype2, hslots3.trans hslots2⟩

/-! ## Fields one after the other -/

/-- Fields are merged one after the other, each as the whole input. -/
inductive MergesEach (options : DecodeOptions) : Message → List RawField → Message → Prop
  | nil (m : Message) : MergesEach options m [] m
  | cons {m m1 m' : Message} {f : RawField} {fields : List RawField} (one : Alone options f m m1)
    (rest : MergesEach options m1 fields m') : MergesEach options m (f :: fields) m'

namespace MergesEach

variable {fs gs fields : List RawField}

theorem append (h : MergesEach options m fs m1) (h' : MergesEach options m1 gs m') :
    MergesEach options m (fs ++ gs) m' := by
  induction h with
  | nil m => exact h'
  | cons one _ ih => exact .cons one (ih h')

theorem of_append (h : MergesEach options m (fs ++ gs) m') :
    ∃ m1, MergesEach options m fs m1 ∧ MergesEach options m1 gs m' := by
  induction fs generalizing m with
  | nil => exact ⟨m, .nil m, h⟩
  | cons f fs ih =>
    cases h with
    | cons one rest =>
      obtain ⟨m1, hfs, hgs⟩ := ih rest
      exact ⟨m1, .cons one hfs, hgs⟩

theorem type_eq (h : MergesEach options m fields m') : m'.type = m.type := by
  induction h with
  | nil m => rfl
  | cons one _ ih => exact ih.trans one.type_eq

theorem of_agrees (h : MergesEach options m fields m1) (hm : m.Agrees m2) :
    ∃ m', MergesEach options m2 fields m' ∧ m1.Agrees m' := by
  induction h generalizing m2 with
  | nil m => exact ⟨m2, .nil m2, hm⟩
  | cons one _ ih =>
    obtain ⟨m3, hone, hm3⟩ := one.of_agrees hm
    obtain ⟨m', hrest, hm'⟩ := ih hm3
    exact ⟨m', .cons hone hrest, hm'⟩

/-- What is merged field by field is merged as one input. -/
theorem merge (h : MergesEach options m fields m') :
    merge options (fields.flatMap RawField.bytes) m = .ok () m' := by
  induction h with
  | nil m => exact merge_eq_ok.2 ⟨_, .nil _, rfl⟩
  | cons one _ ih => rw [List.flatMap_cons, merge_append one.merge, ih]

/-- A field moves behind others of different numbers. -/
theorem move (htype : m.type.HasNoOneof) (h : MergesEach options m (f :: gs) m')
    (hne : ∀ g ∈ gs, f.tag.number ≠ g.tag.number) :
    ∃ m1, MergesEach options m (gs ++ [f]) m1 ∧ m'.Agrees m1 := by
  induction gs generalizing m m' with
  | nil => exact ⟨m', h, rfl, rfl⟩
  | cons g gs ih =>
    obtain ⟨hg, hgs⟩ := List.forall_mem_cons.1 hne
    cases h with
    | cons hf h =>
      cases h with
      | cons hg' rest =>
        obtain ⟨m2, m3, hgm, hfm, hagrees⟩ := hf.exchange htype hg' hg
        obtain ⟨m4, hrest, hm4⟩ := rest.of_agrees hagrees
        obtain ⟨m5, hmoved, hm5⟩ := ih (hgm.type_eq ▸ htype) (.cons hfm hrest) hgs
        exact ⟨m5, .cons hgm hmoved, hm5.1.trans hm4.1, hm5.2.trans hm4.2⟩

/-- Two runs of fields with no number in common set the same in either order. -/
theorem exchange (htype : m.type.HasNoOneof) (h : MergesEach options m (fs ++ gs) m')
    (hne : ∀ f ∈ fs, ∀ g ∈ gs, f.tag.number ≠ g.tag.number) :
    ∃ m1, MergesEach options m (gs ++ fs) m1 ∧ m'.Agrees m1 := by
  induction fs generalizing m m' with
  | nil => exact ⟨m', by rwa [List.append_nil], rfl, rfl⟩
  | cons f fs ih =>
    obtain ⟨hf, hfs⟩ := List.forall_mem_cons.1 hne
    cases h with
    | cons one rest =>
      obtain ⟨m1, hrest, hm1⟩ := ih (one.type_eq ▸ htype) rest hfs
      obtain ⟨m2, hgs, hfs'⟩ := of_append hrest
      obtain ⟨m3, hmoved, hm3⟩ := move htype (.cons one hgs) hf
      obtain ⟨m4, hrest', hm4⟩ := hfs'.of_agrees hm3
      refine ⟨m4, ?_, hm4.1.trans hm1.1, hm4.2.trans hm1.2⟩
      rw [List.append_cons]
      exact hmoved.append hrest'

end MergesEach

/-- The fields of an input are merged one after the other, each as the whole input. -/
theorem mergesEach_of_merges {input : Bytes} {p q : Message × Reader}
    (h : Merges options p q) (hr : p.2.StandsIn input) (hplace : ExpectsTag input [] p.2.position)
    (hd : p.2.depth = 0) :
    ∃ fields, RawField.Run options.depthLimit p.2 fields q.2 ∧
      MergesEach options p.1 fields q.1 := by
  induction h with
  | nil p => exact ⟨[], .nil _, .nil _⟩
  | @cons m r u tag p q htag hw hone _ ih =>
    obtain ⟨m1, v⟩ := p
    have hskip := skip_of_mergeOne hone
    have hbefore : r.Before v := RawField.before_of_skip htag hskip
    obtain ⟨fields, hrun, hrest⟩ := ih (hr.before hbefore)
      (hr.expectsTag_skip hplace htag hskip).1 (hbefore.depth_eq.trans hd)
    exact ⟨_, .cons htag hw hskip hrun, .cons (alone_of_mergeOne hr hplace hd htag hw hone) hrest⟩

theorem mergesEach_of_merge {bytes : Bytes} (h : merge options bytes m = .ok () m') :
    (RawField.split options.depthLimit bytes).2 = [] ∧
      MergesEach options m (RawField.split options.depthLimit bytes).1 m' := by
  obtain ⟨t, hmerges, ht⟩ := merge_eq_ok.1 h
  obtain ⟨fields, hrun, heach⟩ :=
    mergesEach_of_merges hmerges (show (Reader.new bytes).StandsIn bytes from rfl) (.zero bytes) rfl
  rw [RawField.split_of_run hrun ht]
  exact ⟨rfl, heach⟩

theorem unknownBytes_append (type : MessageType) (fs gs : List RawField) :
    unknownBytes type (fs ++ gs) = unknownBytes type fs ++ unknownBytes type gs := by
  rw [unknownBytes, List.filter_append, List.flatMap_append]
  rfl

theorem unknownBytes_of_accepts {type : MessageType} {fields : List RawField}
    (h : ∀ f ∈ fields, type.accepts f.tag = true) : unknownBytes type fields = [] := by
  rw [unknownBytes, List.filter_eq_nil_iff.2 fun f hf => by simp [h f hf]]
  rfl

/-- Nothing becomes unknown but the fields that the type does not accept, in their order. -/
theorem MergesEach.unknown_eq {fields : List RawField} (h : MergesEach options m fields m') :
    m'.unknown =
      m.unknown ++ if options.discardUnknown then [] else unknownBytes m.type fields := by
  induction h with
  | nil m => cases options.discardUnknown <;> exact (List.append_nil _).symm
  | @cons m m1 m' f fields one _ ih =>
    rw [ih, one.type_eq]
    by_cases ha : m.type.accepts f.tag = true
    · obtain ⟨i, member, s, -, rfl, -⟩ := one.touches ha
      rw [unknownBytes_cons_of_accepts ha]
    · rw [(one.notes ha).1, unknownBytes_cons_of_not_accepts ha]
      cases hdiscard : options.discardUnknown <;>
        simp [DecodeOptions.note, hdiscard, appendUnknown, List.append_assoc]

/-- Two neighbouring runs of top-level fields with no number in common can be exchanged in an input
that is merged into a message of a type without oneofs. The same fields are set. The unknown fields
are the same as well if they are discarded or one of the runs has none; otherwise those of the two
runs have changed places. -/
theorem merge_exchanged {bytes : Bytes} {before fs gs after : List RawField}
    (hrequired : m.type ≠ .requiredOneof) (hcontainer : m.type ≠ .oneofContainer)
    (h : merge options bytes m = .ok () m')
    (hsplit : (RawField.split options.depthLimit bytes).1 = before ++ (fs ++ gs) ++ after)
    (hne : ∀ f ∈ fs, ∀ g ∈ gs, f.tag.number ≠ g.tag.number) :
    bytes = (before ++ (fs ++ gs) ++ after).flatMap RawField.bytes ∧
    ∃ m'', merge options ((before ++ (gs ++ fs) ++ after).flatMap RawField.bytes) m = .ok () m'' ∧
      m''.type = m'.type ∧ m''.slots = m'.slots ∧
      (options.discardUnknown = true ∨ (∀ f ∈ fs, m.type.accepts f.tag = true) ∨
        (∀ g ∈ gs, m.type.accepts g.tag = true) → m''.unknown = m'.unknown) ∧
      (options.discardUnknown = false →
        m'.unknown = m.unknown ++ (unknownBytes m.type before ++
          (unknownBytes m.type fs ++ unknownBytes m.type gs) ++ unknownBytes m.type after) ∧
        m''.unknown = m.unknown ++ (unknownBytes m.type before ++
          (unknownBytes m.type gs ++ unknownBytes m.type fs) ++ unknownBytes m.type after)) := by
  obtain ⟨hrest, heach⟩ := mergesEach_of_merge h
  have hbytes := RawField.flatMap_split options.depthLimit bytes
  rw [hsplit] at heach hbytes
  rw [hrest, List.append_nil] at hbytes
  have htype : m.type.HasNoOneof := ⟨hrequired, hcontainer⟩
  obtain ⟨m2, hfront, hback⟩ := heach.of_append
  obtain ⟨m1, hbefore, hruns⟩ := hfront.of_append
  obtain ⟨m3, hswapped, hm3⟩ := hruns.exchange (hbefore.type_eq ▸ htype) hne
  obtain ⟨m'', hafter, htype'', hslots''⟩ := hback.of_agrees hm3
  have heach'' := (hbefore.append hswapped).append hafter
  have hunknown := heach.unknown_eq
  have hunknown'' := heach''.unknown_eq
  simp only [unknownBytes_append] at hunknown hunknown''
  refine ⟨hbytes.symm, m'', heach''.merge, htype'', hslots'', ?_, fun hdiscard => ?_⟩
  · rintro (hdiscard | hfs | hgs)
    · rw [hunknown, hunknown'', hdiscard]
      rfl
    · rw [hunknown, hunknown'', unknownBytes_of_accepts hfs, List.nil_append, List.append_nil]
    · rw [hunknown, hunknown'', unknownBytes_of_accepts hgs, List.nil_append, List.append_nil]
  · rw [hdiscard] at hunknown hunknown''
    exact ⟨hunknown, hunknown''⟩

/-- Two unknown fields change places behind a known one. -/
theorem merge_exchanged_inner :
    ∃ m' m'', merge {} [8, 5, 24, 1, 32, 2] (new .inner) = .ok () m' ∧
      merge {} [8, 5, 32, 2, 24, 1] (new .inner) = .ok () m'' ∧ m''.slots = m'.slots ∧
      m'.unknown = [24, 1, 32, 2] ∧ m''.unknown = [32, 2, 24, 1] := by
  have hmerge : ∃ m', merge {} [8, 5, 24, 1, 32, 2] (new .inner) = .ok () m' := ⟨_, rfl⟩
  obtain ⟨m', hm'⟩ := hmerge
  have hsplit : (RawField.split ({} : DecodeOptions).depthLimit [8, 5, 24, 1, 32, 2]).1 =
      [⟨⟨1, .varint, by decide⟩, [8, 5]⟩] ++
        ([⟨⟨3, .varint, by decide⟩, [24, 1]⟩] ++ [⟨⟨4, .varint, by decide⟩, [32, 2]⟩]) ++ [] := by
    decide
  obtain ⟨-, m'', hm'', -, hslots, -, hunknown⟩ :=
    merge_exchanged (m := new .inner) (by decide) (by decide) hm' hsplit (by decide)
  obtain ⟨hkept, hkept'⟩ := hunknown rfl
  exact ⟨m', m'', hm', hm'', hslots, hkept, hkept'⟩

end Message

end Protobuf
