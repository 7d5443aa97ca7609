import Protobuf.Proofs.Likeness

/-!
# Mergings that correspond

Every reader of a field keeps a likeness, and so does every round of merging. By induction on the
rounds two mergings of corresponding readers into like messages correspond
(`Comparison.builds_mergeFields`).
-/

namespace Protobuf

open Build

namespace Comparison

variable {σ σ' α β : Type} {c : Comparison} {n d : Nat}

/-! ## Composite fields -/

theorem reads_nextTag (hb : c.behind = []) : c.Reads n d Eq Reader.nextTag Reader.nextTag := by
  rintro r _ ⟨rfl, hr, hd⟩
  rcases ht : Reader.nextTag r with ⟨_ | tag, u⟩ | ⟨e, u⟩
  · have hu := (Reader.nextTag_eq_none.1 ht).2
    rw [nextTag_reader_of_none ht hb, hu]
    exact Outcome.ok rfl ⟨rfl, hr, hd⟩
  · have hs := Reader.steady_nextTag _ _ _ ht
    rw [nextTag_reader_of_some ht]
    exact Outcome.ok rfl ⟨rfl, Nat.le_trans hs.remaining_le hr, hs.depth_eq.trans hd⟩
  · rcases nextTag_reader_of_error (c := c) ht with hx | hx
    · exact Or.inl hx
    · rw [hx]
      exact Outcome.error rfl

theorem builds_elements {R : List α → List β → Prop} {Q : α → β → Prop}
    {read : Tag → Reading Reader α} {read' : Tag → Reading Reader β} {tag : Tag}
    (hr : c.Reads n d Q (read tag) (read' tag))
    (push : ∀ as bs a b, R as bs → Q a b → R (as ++ [a]) (bs ++ [b])) (hb : c.behind = [])
    (rounds : Nat) :
    c.Builds n d R (fun _ _ => True) (Reader.elements read tag rounds)
      (Reader.elements read' tag rounds) := by
  induction rounds with
  | zero => exact .pure trivial
  | succ rounds ih =>
    rintro as bs r _ hs ⟨rfl, hn⟩
    rw [Reader.elements_succ, Reader.elements_succ, rest_reader, hb, List.append_nil]
    split
    · exact Outcome.ok trivial ⟨hs, rfl, hn⟩
    · refine Builds.bind (Builds.read hr) (fun a b hab => ?_) as bs r _ hs ⟨rfl, hn⟩
      exact (Builds.update fun as bs hs => push as bs a b hs hab).bind fun _ _ _ => ih

theorem builds_repeated {R : List α → List β → Prop} {Q : α → β → Prop} {element : WireType}
    {read : Tag → Reading Reader α} {read' : Tag → Reading Reader β} {tag : Tag}
    (hr : ∀ c' : Comparison, c' = c ∨ c' = c.closed → ∀ tag, tag.wireType = element →
      c'.Reads n d Q (read tag) (read' tag))
    (push : ∀ as bs a b, R as bs → Q a b → R (as ++ [a]) (bs ++ [b]))
    (ht : Reader.TakesRepeated element tag) :
    c.Builds n d R (fun _ _ => True) (Reader.repeated element read tag)
      (Reader.repeated element read' tag) := by
  unfold Reader.repeated
  by_cases hp : tag.wireType = .lengthDelimited ∧ element ≠ .lengthDelimited
  · rw [if_pos hp, if_pos hp]
    refine Builds.within (Builds.source.bind ?_)
    rintro r _ ⟨rfl, -⟩
    have hrem : (c.closed.reader r).remaining = r.remaining := remaining_reader r
    rw [hrem]
    exact builds_elements (hr _ (Or.inr rfl) _ rfl) push rfl _
  · rw [if_neg hp, if_neg hp]
    have hw : tag.wireType = element := by
      rcases ht with h | h
      · exact h
      · by_cases he : element = .lengthDelimited
        · rw [h, he]
        · exact absurd ⟨h, he⟩ hp
    exact (Builds.read (hr _ (Or.inl rfl) _ hw)).bind fun a b hab =>
      Builds.update fun as bs hs => push as bs a b hs hab

/-- What is read one level deeper. -/
theorem reads_entered {Q : α → β → Prop} {x : Reading Reader α} {y : Reading Reader β}
    (h : c.Reads n (d + 1) Q x y) :
    c.Reads n d Q
      (Reader.enter c.limit >>= fun _ => x >>= fun a => Reader.leave >>= fun _ => pure a)
      (Reader.enter c.limit' >>= fun _ => y >>= fun b => Reader.leave >>= fun _ => pure b) := by
  intro r t hr
  refine (reads_enter hr).bind fun _ _ u u' _ _ hu => (h u u' hu).bind fun a b v v' _ hab hv =>
    (reads_leave hv).bind fun _ _ w w' _ _ hw => Outcome.ok hab hw

/-- What is built one level deeper. -/
theorem builds_entered {R : σ → σ' → Prop} {x : Build Reader σ Unit} {y : Build Reader σ' Unit}
    (h : c.Builds n (d + 1) R (fun _ _ => True) x y) :
    c.Builds n d R (fun _ _ => True)
      (read (Reader.enter c.limit) >>= fun _ => x >>= fun _ => read Reader.leave)
      (read (Reader.enter c.limit') >>= fun _ => y >>= fun _ => read Reader.leave) := by
  intro s s' r t hs hr
  refine ((reads_enter hr).read hs).bind ?_
  rintro _ _ ⟨s, u⟩ ⟨s', u'⟩ - - ⟨hs, hu⟩
  refine (h s s' u u' hs hu).bind ?_
  rintro _ _ ⟨s, v⟩ ⟨s', v'⟩ - - ⟨hs, hv⟩
  exact ((reads_leave hv).read hs).mono (fun _ _ h => h) (fun _ _ h => h) fun _ _ _ => trivial

section

variable {κ κ' ν ν' : Type} {K : κ → κ' → Prop} {V : ν → ν' → Prop}
  {readKey : Tag → Reading Reader κ} {readKey' : Tag → Reading Reader κ'}
  {readValue : Tag → Reading Reader ν} {readValue' : Tag → Reading Reader ν'}
  {keyType valueType : WireType}
  (hk : Expects readKey (·.wireType = keyType)) (hk' : Expects readKey' (·.wireType = keyType))
  (hv : Expects readValue (·.wireType = valueType))
  (hv' : Expects readValue' (·.wireType = valueType))

include hk hk' hv hv'

theorem builds_entryFields (hb : c.behind = [])
    (rk : ∀ tag, tag.wireType = keyType → c.Reads n d K (readKey tag) (readKey' tag))
    (rv : ∀ tag, tag.wireType = valueType → c.Reads n d V (readValue tag) (readValue' tag))
    (rounds : Nat) :
    c.Builds n d (fun e e' => K e.1 e'.1 ∧ V e.2 e'.2) (fun _ _ => True)
      (Reader.entryFields c.limit readKey readValue rounds)
      (Reader.entryFields c.limit' readKey' readValue' rounds) := by
  induction rounds with
  | zero => exact .pure trivial
  | succ rounds ih =>
    rw [Reader.entryFields_succ hk hv, Reader.entryFields_succ hk' hv']
    refine (Builds.read (reads_nextTag hb)).bind ?_
    rintro (_ | tag) _ rfl
    · exact .pure trivial
    · have one : c.Builds n d (fun e e' => K e.1 e'.1 ∧ V e.2 e'.2) (fun _ _ => True)
          (Reader.entryField c.limit readKey readValue keyType valueType tag)
          (Reader.entryField c.limit' readKey' readValue' keyType valueType tag) := by
        unfold Reader.entryField
        by_cases h1 : tag.number = 1 ∧ tag.wireType = keyType
        · rw [if_pos h1, if_pos h1]
          exact (Builds.read (rk tag h1.2)).bind fun a b hab =>
            Builds.update fun e e' he => ⟨hab, he.2⟩
        · rw [if_neg h1, if_neg h1]
          by_cases h2 : tag.number = 2 ∧ tag.wireType = valueType
          · rw [if_pos h2, if_pos h2]
            exact (Builds.read (rv tag h2.2)).bind fun a b hab =>
              Builds.update fun e e' he => ⟨he.1, hab⟩
          · rw [if_neg h2, if_neg h2]
            intro e e' r t he hr
            exact ((reads_skip tag r t hr).read (R := fun e e' => K e.1 e'.1 ∧ V e.2 e'.2) he).mono
              (fun _ _ h => h) (fun _ _ h => h) fun _ _ _ => trivial
      exact one.bind fun _ _ _ => ih

theorem reads_mapEntry {z : κ × ν} {w : κ' × ν'} (hz : K z.1 w.1 ∧ V z.2 w.2)
    (rk : ∀ tag, tag.wireType = keyType → c.closed.Reads n (d + 1) K (readKey tag) (readKey' tag))
    (rv : ∀ tag, tag.wireType = valueType →
      c.closed.Reads n (d + 1) V (readValue tag) (readValue' tag))
    {tag : Tag} (ht : tag.wireType = .lengthDelimited) :
    c.Reads n d (fun e e' => K e.1 e'.1 ∧ V e.2 e'.2)
      (Reader.mapEntry c.limit z readKey readValue tag)
      (Reader.mapEntry c.limit' w readKey' readValue' tag) := by
  have body : c.Builds n (d + 1) (fun e e' => K e.1 e'.1 ∧ V e.2 e'.2) (fun _ _ => True)
      (Reader.within (Reader.entryBody c.limit readKey readValue))
      (Reader.within (Reader.entryBody c.limit' readKey' readValue')) := by
    refine Builds.within (Builds.source.bind ?_)
    rintro r _ ⟨rfl, -⟩
    have hrem : (c.closed.reader r).remaining = r.remaining := remaining_reader r
    rw [hrem]
    exact builds_entryFields hk hk' hv hv' rfl rk rv _
  intro r t hr
  rw [Reader.mapEntry, run_bind_of_ok (Reader.expect_self ht r), Reader.mapEntry,
    run_bind_of_ok (Reader.expect_self ht t)]
  exact reads_entered (body.alone hz) r t hr

end

/-! ## Messages -/

/-- The bodies of nested messages correspond inside their regions, and those of groups also where
more may stand behind them. -/
def Bodies {options options' : DecodeOptions} (c : Comparison) (L : Likeness options options')
    (n : Nat) (body body' : MergeBody) : Prop :=
  ∀ c' : Comparison, c' = c ∨ c' = c.closed → ∀ group? d type, (group? = none → c'.behind = []) →
    c'.Builds n d (L.message d type) (fun _ _ => True) (body group?) (body' group?)

section

variable {options options' : DecodeOptions} {L : Likeness options options'} {body body' : MergeBody}

theorem Bodies.closed (h : c.Bodies L n body body') : c.closed.Bodies L n body body' := by
  rintro c' (rfl | rfl)
  · exact h _ (Or.inr rfl)
  · exact h _ (Or.inr rfl)

variable (h : c.Bodies L n body body')

include h

theorem builds_message {type : MessageType} {tag : Tag} (ht : tag.wireType = .lengthDelimited) :
    c.Builds n d (L.message (d + 1) type) (fun _ _ => True) (Reader.message c.limit body tag)
      (Reader.message c.limit' body' tag) := by
  have hb := h c.closed (Or.inr rfl) none (d + 1) type fun _ => rfl
  intro m m' r t hm hr
  rw [Reader.message, run_bind_of_ok (read_eq_ok.2 ⟨Reader.expect_self ht r, rfl⟩),
    Reader.message, run_bind_of_ok (read_eq_ok.2 ⟨Reader.expect_self ht t, rfl⟩)]
  exact builds_entered (Builds.within hb) m m' r t hm hr

theorem builds_group {type : MessageType} {tag : Tag} (ht : tag.wireType = .startGroup) :
    c.Builds n d (L.message (d + 1) type) (fun _ _ => True) (Reader.group c.limit body tag)
      (Reader.group c.limit' body' tag) := by
  have hb := h c (Or.inl rfl) (some tag.number) (d + 1) type nofun
  intro m m' r t hm hr
  rw [Reader.group, run_bind_of_ok (read_eq_ok.2 ⟨Reader.expect_self ht r, rfl⟩),
    Reader.group, run_bind_of_ok (read_eq_ok.2 ⟨Reader.expect_self ht t, rfl⟩)]
  exact builds_entered hb m m' r t hm hr

theorem reads_value {kind : FieldKind} {tag : Tag} (ht : tag.wireType = kind.wireType) :
    c.Reads n d (kind.Like (L.message (d + 1))) (Reader.value c.limit body kind tag)
      (Reader.value c.limit' body' kind tag) := by
  cases kind with
  | scalar kind =>
    refine (reads_scalar ht).map ?_
    rintro s _ ⟨rfl, hs⟩
    exact ⟨s, rfl, rfl, hs⟩
  | message type =>
    exact ((builds_message h ht).alone (L.new _ type)).map fun m m' hm => ⟨m, m', rfl, rfl, hm⟩
  | group type =>
    exact ((builds_group h ht).alone (L.new _ type)).map fun m m' hm => ⟨m, m', rfl, rfl, hm⟩

omit h in
theorem builds_intoOptional {field : Field} {required : Bool} {type : MessageType}
    (hf : field.kind.holds type) {merge merge' : Tag → Build Reader Message Unit} {tag : Tag}
    (hm : c.Builds n d (L.message (d + 1) type) (fun _ _ => True) (merge tag) (merge' tag))
    {wireType : WireType} (ht : tag.wireType = wireType) :
    c.Builds n d (L.slot d (.optional field required)) (fun _ _ => True)
      (Reader.intoOptional type wireType merge tag)
      (Reader.intoOptional type wireType merge' tag) := by
  have hz : c.Builds n d (L.slot d (.optional field required)) (fun _ _ => True)
      (zoom (Slot.optionalMessage type) (fun _ m => .optional (some (.message m))) (merge tag))
      (zoom (Slot.optionalMessage type) (fun _ m => .optional (some (.message m))) (merge' tag)) :=
    hm.zoom (fun s s' hs => L.optionalMessage hs hf) fun _ _ m m' _ hm => by
      refine L.optional ?_
      rcases hf with hf | hf <;> rw [hf] <;> exact ⟨m, m', rfl, rfl, hm⟩
  intro s s' r t hs hr
  rw [Reader.intoOptional, run_bind_of_ok (read_eq_ok.2 ⟨Reader.expect_self ht r, rfl⟩),
    Reader.intoOptional, run_bind_of_ok (read_eq_ok.2 ⟨Reader.expect_self ht t, rfl⟩)]
  exact hz s s' r t hs hr

omit h in
theorem builds_intoChosen {fields : List Field} {field : Field} {type : MessageType}
    {merge merge' : Tag → Build Reader Message Unit} {tag : Tag}
    (hfind : fields.find? (·.number = tag.number) = some field) (hf : field.kind.holds type)
    (hm : c.Builds n d (L.message (d + 1) type) (fun _ _ => True) (merge tag) (merge' tag))
    {wireType : WireType} (ht : tag.wireType = wireType) :
    c.Builds n d (L.slot d (.oneof fields)) (fun _ _ => True)
      (Reader.intoChosen type wireType merge tag) (Reader.intoChosen type wireType merge' tag) := by
  intro s s' r t hs hr
  rw [Reader.intoChosen, run_bind_of_ok (read_eq_ok.2 ⟨Reader.expect_self ht r, rfl⟩),
    Reader.intoChosen, run_bind_of_ok (read_eq_ok.2 ⟨Reader.expect_self ht t, rfl⟩)]
  refine Builds.bind Builds.current (fun slot slot' hslot => ?_) s s' r t hs hr
  refine (Builds.put (L.unchosen d fields)).bind fun _ _ _ => ?_
  refine (Builds.read (hm.alone (L.chosenMessage hslot hfind hf))).bind fun m m' hm => ?_
  refine Builds.put (L.oneof hfind ?_)
  rcases hf with hf | hf <;> rw [hf] <;> exact ⟨m, m', rfl, rfl, hm⟩

theorem builds_optionalField {field : Field} {required : Bool} {tag : Tag}
    (ht : tag.wireType = field.kind.wireType) :
    c.Builds n d (L.slot d (.optional field required)) (fun _ _ => True)
      (Reader.optionalField c.limit body field.kind tag)
      (Reader.optionalField c.limit' body' field.kind tag) := by
  cases hk : field.kind with
  | scalar kind =>
    rw [hk] at ht
    refine (Builds.read (reads_scalar ht)).bind ?_
    rintro s _ ⟨rfl, hs⟩
    exact Builds.put (L.optional (by rw [hk]; exact ⟨s, rfl, rfl, hs⟩))
  | message type =>
    rw [hk] at ht
    exact builds_intoOptional (Or.inl hk) (builds_message h ht) ht
  | group type =>
    rw [hk] at ht
    exact builds_intoOptional (Or.inr hk) (builds_group h ht) ht

theorem builds_repeatedField {field : Field} {tag : Tag}
    (ht : Reader.takesRepeated field.kind tag = true) :
    c.Builds n d (L.values d field.kind) (fun _ _ => True)
      (Reader.repeatedField c.limit body field.kind tag)
      (Reader.repeatedField c.limit' body' field.kind tag) := by
  cases hk : field.kind with
  | scalar kind =>
    rw [hk] at ht
    refine builds_repeated (Q := (FieldKind.scalar kind).Like (L.message (d + 1))) ?_
      (fun _ _ _ _ hs hv => L.push_value hs hv) (by simpa [Reader.takesRepeated] using ht)
    rintro c' (rfl | rfl) tag htag
    · exact reads_value h htag
    · exact reads_value h.closed htag
  | message type =>
    have ht : tag.wireType = (FieldKind.message type).wireType := by
      simpa [hk, Reader.takesRepeated] using ht
    exact (Builds.read (reads_value h ht)).bind fun v v' hv =>
      Builds.update fun _ _ hs => L.push_value hs hv
  | group type =>
    have ht : tag.wireType = (FieldKind.group type).wireType := by
      simpa [hk, Reader.takesRepeated] using ht
    exact (Builds.read (reads_value h ht)).bind fun v v' hv =>
      Builds.update fun _ _ hs => L.push_value hs hv

theorem builds_oneofField {fields : List Field} {field : Field} {tag : Tag}
    (hfind : fields.find? (·.number = tag.number) = some field)
    (ht : tag.wireType = field.kind.wireType) :
    c.Builds n d (L.slot d (.oneof fields)) (fun _ _ => True)
      (Reader.oneofField c.limit body field.kind tag)
      (Reader.oneofField c.limit' body' field.kind tag) := by
  cases hk : field.kind with
  | scalar kind =>
    rw [hk] at ht
    refine (Builds.read (reads_scalar ht)).bind ?_
    rintro s _ ⟨rfl, hs⟩
    exact Builds.put (L.oneof hfind (by rw [hk]; exact ⟨s, rfl, rfl, hs⟩))
  | message type =>
    rw [hk] at ht
    exact builds_intoChosen hfind (Or.inl hk) (builds_message h ht) ht
  | group type =>
    rw [hk] at ht
    exact builds_intoChosen hfind (Or.inr hk) (builds_group h ht) ht

variable (hs : ∀ g, Settled (body g)) (hs' : ∀ g, Settled (body' g))

include hs hs'

theorem builds_merge {member : Member} {tag : Tag} (ht : member.takes tag = true) :
    c.Builds n d (L.slot d member) (fun _ _ => True) (member.merge c.limit body tag)
      (member.merge c.limit' body' tag) := by
  cases member with
  | plain number name kind =>
    refine (Builds.read (reads_scalar (by simpa [Member.takes] using ht))).bind ?_
    rintro s _ ⟨rfl, hs⟩
    exact Builds.put (L.plain hs)
  | optional field required => exact builds_optionalField h (by simpa [Member.takes] using ht)
  | packed number name kind =>
    refine Builds.zoom (T := L.scalars kind) ?_ (fun _ _ hs => L.packedScalars hs)
      fun _ _ _ _ hs hss => L.setPackedScalars hs hss
    refine builds_repeated (Q := fun s s' => s = s' ∧ s.kind = kind) (fun _ _ _ h => reads_scalar h)
      ?_ (by simpa [Member.takes] using ht)
    rintro ss ss' s _ hss ⟨rfl, hs⟩
    exact L.push_scalar hss hs
  | repeated field =>
    exact (builds_repeatedField h ht).zoom (fun _ _ hs => L.repeatedValues hs)
      fun _ _ _ _ hs hvs => L.setRepeatedValues hs hvs
  | map number name key kind =>
    have hz : key.zero = key.zero ∧ key.zero.kind = key := ⟨rfl, ScalarKind.kind_zero key⟩
    have hzv : kind.Like (L.message (d + 2)) kind.zero kind.zero := by
      cases kind with
      | scalar kind => exact ⟨_, rfl, rfl, ScalarKind.kind_zero kind⟩
      | message type | group type => exact ⟨_, _, rfl, rfl, L.new _ type⟩
    have he := reads_mapEntry (c := c) (n := n) (d := d) (z := (key.zero, kind.zero))
      (w := (key.zero, kind.zero)) (Reader.expects_scalar key) (Reader.expects_scalar key)
      (Reader.expects_value c.limit hs kind) (Reader.expects_value c.limit' hs' kind) ⟨hz, hzv⟩
      (fun _ => reads_scalar) (fun _ => reads_value h.closed)
      (by simpa [Member.takes] using ht)
    refine (Builds.read he).bind ?_
    rintro ⟨k, v⟩ ⟨_, v'⟩ ⟨⟨rfl, hk⟩, hv⟩
    exact Builds.update fun _ _ hs => L.insert hs hk hv
  | oneof fields =>
    cases hfind : fields.find? (·.number = tag.number) with
    | none =>
      rw [Member.merge_oneof_none hfind, Member.merge_oneof_none hfind]
      exact .pure trivial
    | some field =>
      rw [Member.merge_oneof hfind, Member.merge_oneof hfind]
      exact builds_oneofField h hfind (by simpa [Member.takes, hfind] using ht)
  | payload number name =>
    refine (Builds.read (reads_bytes (by simpa [Member.takes] using ht))).bind ?_
    rintro b _ rfl
    exact Builds.put (L.payload d number name b)

/-! ## Rounds of merging -/

theorem outcome_mergeField {type : MessageType} {m m' : Message} {r t : Reader} {tag : Tag}
    (hm : L.message d type m m') (hr : c.At n d r t) (ha : m.type.accepts tag = true) :
    c.Outcome (fun p q => L.message d type p.1 q.1 ∧ c.At n d p.2 q.2)
      (fun p q => L.message d type p.1 q.1 ∧ q.2 = c.reader p.2) (fun _ _ => True)
      (Message.mergeField c.limit body tag (m, r))
      (Message.mergeField c.limit' body' tag (m', t)) := by
  obtain ⟨i, member, hdeclared, htakes⟩ := Message.exists_declared?_of_accepts ha
  have hf := Message.member?_of_declared? hdeclared
  have hslot := builds_merge (n := n) (d := d) h hs hs' htakes _ _ r t (L.slot_of hm hf) hr
  have hz : c.Outcome (fun p q => L.message d type p.1 q.1 ∧ c.At n d p.2 q.2)
      (fun p q => L.message d type p.1 q.1 ∧ q.2 = c.reader p.2) (fun _ _ => True)
      (Message.atSlot i member (member.merge c.limit body tag) (m, r))
      (Message.atSlot i member (member.merge c.limit' body' tag) (m', t)) :=
    Outcome.zoom (E := fun r t => t = c.reader r) hslot fun _ _ hs => L.of_slot hm hf hs
  rw [Message.mergeField_of_declared? hdeclared,
    Message.mergeField_of_declared? (L.type_eq hm ▸ hdeclared)]
  exact Outcome.bind hz fun _ _ _ _ _ _ hp => Outcome.ok trivial hp

omit h hs hs' in
theorem consumed_reader {start r : Reader} (h : start.Before r) :
    (c.reader start).consumed (c.reader r) = start.consumed r := by
  obtain ⟨bytes, hb⟩ := h
  have hb' : (c.reader start).Consumes bytes (c.reader r) := by
    obtain ⟨h1, h2, h3⟩ := hb
    refine ⟨by rw [rest_reader, rest_reader, h1, List.append_assoc], ?_, h3⟩
    rw [position_reader, position_reader, h2, Nat.add_assoc]
  rw [hb.consumed_eq, hb'.consumed_eq]

omit h hs hs' in
/-- Keeping a field is skipping it and noting what was skipped. -/
theorem run_keepUnknown (options : DecodeOptions) (start : Reader) (tag : Tag) (m : Message)
    (r : Reader) :
    Message.keepUnknown options start tag (m, r) =
      match Reader.skip options.depthLimit tag r with
      | .ok _ u => .ok () (options.note (start.consumed u) m, u)
      | .error e u => .error e (m, u) := by
  rw [Message.keepUnknown, run_bind, run_read]
  unfold DecodeOptions.note
  cases Reader.skip options.depthLimit tag r with
  | ok a u => cases options.discardUnknown <;> rfl
  | error e u => rfl

omit h hs hs' in
theorem outcome_keepUnknown (hl : c.limit = options.depthLimit)
    (hl' : c.limit' = options'.depthLimit)
    {type : MessageType} {m m' : Message} {start r : Reader} {tag : Tag}
    (hm : L.message d type m m')
    (hd : start.depth = d) (htag : Reader.nextTag start = .ok (some tag) r)
    (hr : c.At n d r (c.reader r)) (hw : tag.wireType ≠ .endGroup)
    (ha : m.type.accepts tag = false) :
    c.Outcome (fun p q => L.message d type p.1 q.1 ∧ c.At n d p.2 q.2)
      (fun p q => L.message d type p.1 q.1 ∧ q.2 = c.reader p.2) (fun _ _ => True)
      (Message.keepUnknown options start tag (m, r))
      (Message.keepUnknown options' (c.reader start) tag (m', c.reader r)) := by
  have hskip := reads_skip tag r _ hr
  rw [run_keepUnknown, run_keepUnknown, ← hl, ← hl']
  rcases hx : Reader.skip c.limit tag r with ⟨a, u⟩ | ⟨e, u⟩
  · rw [hx] at hskip
    obtain ⟨b, _, hy, -, rfl, hu⟩ := hskip
    have hbefore : start.Before u :=
      (Reader.steady_nextTag _ _ _ htag).trans (Reader.steady_skip _ _ _ _ _ hx)
    rw [hy]
    refine Outcome.ok trivial ⟨?_, rfl, hu⟩
    dsimp only
    rw [consumed_reader hbefore]
    exact L.note hm ha
      ⟨start, r, u, hd, htag, hw, by rw [← hl, hx], hbefore.consumes_consumed⟩
  · rw [hx] at hskip
    rcases hskip with hskip | ⟨_, hy, rfl⟩
    · exact Or.inl hskip
    · rw [hy]
      exact Outcome.error ⟨hm, rfl⟩

theorem outcome_mergeOne (hl : c.limit = options.depthLimit) (hl' : c.limit' = options'.depthLimit)
    {type : MessageType} {m m' : Message} {start r : Reader} {tag : Tag}
    (hm : L.message d type m m')
    (hd : start.depth = d) (htag : Reader.nextTag start = .ok (some tag) r)
    (hr : c.At n d r (c.reader r)) (hw : tag.wireType ≠ .endGroup) :
    c.Outcome (fun p q => L.message d type p.1 q.1 ∧ c.At n d p.2 q.2)
      (fun p q => L.message d type p.1 q.1 ∧ q.2 = c.reader p.2) (fun _ _ => True)
      (Message.mergeOne options body start tag (m, r))
      (Message.mergeOne options' body' (c.reader start) tag (m', c.reader r)) := by
  rw [Message.mergeOne, run_bind_of_ok (run_current m r), Message.mergeOne,
    run_bind_of_ok (run_current m' _), L.type_eq hm, ← hl, ← hl']
  by_cases ha : m.type.accepts tag = true
  · rw [if_pos ha, if_pos ha]
    exact Outcome.bind (outcome_mergeField h hs hs' hm hr ha) fun _ _ _ _ _ _ hp =>
      Outcome.ok trivial hp
  · rw [if_neg ha, if_neg ha]
    exact outcome_keepUnknown hl hl' hm hd htag hr hw (by simpa using ha)

end

section

variable {options options' : DecodeOptions} (L : Likeness options options')

/-- Rounds of merging correspond if what is done with each field and with the fields behind it
does. -/
theorem builds_mergeRound {one one' : Reader → Tag → Build Reader Message Unit}
    {rest rest' : Build Reader Message Unit} {type : MessageType} {group? : Option Nat}
    (hg : group? = none → c.behind = [])
    (ho : ∀ m m' start r tag, 0 < n → L.message d type m m' → start.depth = d →
      Reader.nextTag start = .ok (some tag) r → c.At (n - 1) d r (c.reader r) →
      tag.wireType ≠ .endGroup →
      c.Outcome (fun p q => L.message d type p.1 q.1 ∧ c.At (n - 1) d p.2 q.2)
        (fun p q => L.message d type p.1 q.1 ∧ q.2 = c.reader p.2) (fun _ _ => True)
        (one start tag (m, r)) (one' (c.reader start) tag (m', c.reader r)))
    (hr : 0 < n → c.Builds (n - 1) d (L.message d type) (fun _ _ => True) rest rest') :
    c.Builds n d (L.message d type) (fun _ _ => True) (Message.mergeRound one rest group?)
      (Message.mergeRound one' rest' group?) := by
  rintro m m' r _ hm ⟨rfl, hn, hd⟩
  rw [Message.mergeRound, run_bind_of_ok (run_source m r), Message.mergeRound,
    run_bind_of_ok (run_source m' _), run_bind, run_bind, run_read, run_read]
  rcases ht : Reader.nextTag r with ⟨_ | tag, u⟩ | ⟨e, u⟩
  · obtain ⟨-, rfl⟩ := Reader.nextTag_eq_none.1 ht
    by_cases hb : c.behind = []
    · rw [nextTag_reader_of_none ht hb]
      cases group? with
      | none => exact Outcome.ok trivial ⟨hm, rfl, hn, hd⟩
      | some number => exact Outcome.error ⟨hm, rfl⟩
    · cases group? with
      | none => exact absurd (hg rfl) hb
      | some number => exact Or.inl (Or.inl hb)
  · rw [nextTag_reader_of_some ht]
    have hbefore := Reader.steady_nextTag _ _ _ ht
    have hlt := Reader.remaining_of_nextTag ht
    have hu : c.At (n - 1) d u (c.reader u) := ⟨rfl, by omega, hbefore.depth_eq.trans hd⟩
    dsimp only
    by_cases hw : tag.wireType = .endGroup
    · rw [if_pos hw, if_pos hw]
      by_cases hnum : group? = some tag.number
      · rw [if_pos hnum, if_pos hnum]
        exact Outcome.ok trivial ⟨hm, hu.mono (Nat.sub_le n 1)⟩
      · rw [if_neg hnum, if_neg hnum]
        exact Outcome.error ⟨hm, rfl⟩
    · rw [if_neg hw, if_neg hw]
      refine (ho m m' r u tag (by omega) hm hd ht hu hw).bind ?_
      rintro _ _ ⟨m, v⟩ ⟨m', v'⟩ - - ⟨hm, hv⟩
      exact (hr (by omega)).mono hm hv (by omega)
  · rcases nextTag_reader_of_error (c := c) ht with hx | hx
    · exact Or.inl hx
    · rw [hx]
      exact Outcome.error ⟨hm, rfl⟩

theorem builds_mergeFields (hl : c.limit = options.depthLimit)
    (hl' : c.limit' = options'.depthLimit)
    (rounds rounds' : Nat) (hn : n < rounds) (hn' : n + c.behind.length < rounds')
    (group? : Option Nat) (hg : group? = none → c.behind = []) (type : MessageType) :
    c.Builds n d (L.message d type) (fun _ _ => True) (Message.mergeFields options rounds group?)
      (Message.mergeFields options' rounds' group?) := by
  induction rounds generalizing c n d rounds' group? type with
  | zero => omega
  | succ rounds ih =>
    obtain ⟨rounds', rfl⟩ := Nat.exists_eq_succ_of_ne_zero (n := rounds') (by omega)
    rw [Message.mergeFields_round, Message.mergeFields_round]
    refine builds_mergeRound L hg ?_ fun hpos =>
      ih hl hl' rounds' (by omega) (by omega) group? hg type
    intro m m' start r tag hpos hm hd htag hr hw
    have hbodies : c.Bodies L (n - 1) (Message.mergeFields options rounds)
        (Message.mergeFields options' rounds') := by
      rintro c' (rfl | rfl) group? d type hg
      · exact ih hl hl' rounds' (by omega) (by omega) group? hg type
      · exact ih (c := c.closed) hl hl' rounds' (by omega) (by simp only [closed]; simp; omega)
          group? hg type
    exact outcome_mergeOne hbodies (Message.settled_mergeFields options rounds)
      (Message.settled_mergeFields options' rounds') hl hl' hm hd htag hr hw

variable (hl : c.limit = options.depthLimit) (hl' : c.limit' = options'.depthLimit)

include hl hl'

/-- Rounds that suffice for the unread bytes are as good as any. -/
theorem builds_mergeFields_mergeBody (rounds : Nat) (hn : n < rounds) (group? : Option Nat)
    (hg : group? = none → c.behind = []) (type : MessageType) :
    c.Builds n d (L.message d type) (fun _ _ => True) (Message.mergeFields options rounds group?)
      (Message.mergeBody options' group?) := by
  rintro m m' r _ hm ⟨rfl, hr, hd⟩
  have hrem := remaining_reader (c := c) r
  rw [Message.mergeBody, run_bind_of_ok (run_source m' _)]
  exact (builds_mergeFields (n := r.remaining) L hl hl' rounds _ (by omega) (by omega) group? hg
    type).mono hm ⟨rfl, Nat.le_refl _, hd⟩ hr

/-- Two mergings of corresponding readers into like messages correspond. -/
theorem builds_mergeBody (group? : Option Nat) (hg : group? = none → c.behind = [])
    (type : MessageType) :
    c.Builds n d (L.message d type) (fun _ _ => True) (Message.mergeBody options group?)
      (Message.mergeBody options' group?) := by
  rintro m m' r _ hm ⟨rfl, hr, hd⟩
  rw [Message.mergeBody, run_bind_of_ok (run_source m r)]
  exact (builds_mergeFields_mergeBody (n := r.remaining) L hl hl' _ (by omega) group? hg type).mono
    hm ⟨rfl, Nat.le_refl _, hd⟩ hr

end

end Comparison

end Protobuf
