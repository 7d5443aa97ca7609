import Protobuf.Message.Decoding
import Protobuf.Proofs.Running

/-!
# Where wire-type mismatches come from

A wire-type mismatch is found before anything is read: a reader of a field either refuses the tag
and leaves everything as it was, or it never ends in a mismatch. So a field is kept as unknown
exactly if the type of the message does not accept its tag, and the rounds of merging can be told
without any mismatch (`Message.mergeFields_round`).
-/

namespace Protobuf

open Build

variable {σ τ ρ α β : Type}

/-- The error is a wire-type mismatch. -/
def Error.isMismatch : Error → Bool
  | wireTypeMismatch .. => true
  | _ => false

@[simp] theorem Error.isMismatch_shift (base : Nat) (e : Error) :
    (e.shift base).isMismatch = e.isMismatch := by
  cases e <;> rfl

/-- The action never ends in a wire-type mismatch. -/
def Settled (x : EStateM Error σ α) : Prop := ∀ s e t, x s = .error e t → e.isMismatch = false

namespace Settled

theorem pure (a : α) : Settled (σ := σ) (pure a) := by
  intro s e t h
  simp at h

theorem throw {e : Error} (h : e.isMismatch = false) : Settled (σ := σ) (α := α) (throw e) := by
  intro s e' t h'
  simp only [run_throw, EStateM.Result.error.injEq] at h'
  rw [← h'.1, h]

theorem get : Settled (get : EStateM Error σ σ) := by
  intro s e t h
  simp at h

theorem set (s : σ) : Settled (set s : EStateM Error σ PUnit) := by
  intro s e t h
  simp at h

theorem modify (f : σ → σ) : Settled (modify f : EStateM Error σ PUnit) := by
  intro s e t h
  simp at h

theorem bind {x : EStateM Error σ α} {f : α → EStateM Error σ β} (hx : Settled x)
    (hf : ∀ a, Settled (f a)) : Settled (x >>= f) := by
  intro s e t h
  rcases bind_eq_error.1 h with h | ⟨a, u, -, h⟩
  · exact hx _ _ _ h
  · exact hf a _ _ _ h

theorem map {x : EStateM Error σ α} (f : α → β) (hx : Settled x) : Settled (f <$> x) := by
  rw [map_eq_bind]
  exact hx.bind fun _ => .pure _

theorem ite {c : Prop} [Decidable c] {x y : EStateM Error σ α} (hx : Settled x)
    (hy : Settled y) : Settled (if c then x else y) := by
  split
  · exact hx
  · exact hy

theorem source : Settled (source : Build ρ σ ρ) := by
  intro s e t h
  simp [Build.source] at h

theorem current : Settled (current : Build ρ σ σ) := by
  intro s e t h
  simp [Build.current] at h

theorem put (s : σ) : Settled (put s : Build ρ σ Unit) := by
  intro s e t h
  simp [Build.put] at h

theorem update (f : σ → σ) : Settled (update f : Build ρ σ Unit) := by
  intro s e t h
  simp [Build.update] at h

theorem read {x : Reading ρ α} (hx : Settled x) : Settled (read x : Build ρ σ α) := by
  rintro ⟨s, r⟩ e ⟨s', r'⟩ h
  exact hx _ _ _ (read_eq_error.1 h).1

theorem zoom {part : σ → τ} {put : σ → τ → σ} {x : Build ρ τ α} (hx : Settled x) :
    Settled (zoom part put x) := by
  rintro ⟨s, r⟩ e t h
  rw [run_zoom] at h
  cases hz : x (part s, r) with
  | ok a u => simp [hz] at h
  | error e' u =>
    have := hx _ _ _ hz
    grind

theorem alone {s : σ} {x : Build ρ σ Unit} (hx : Settled x) : Settled (alone s x) := by
  intro r e t h
  rw [run_alone] at h
  cases hz : x (s, r) with
  | ok a u => simp [hz] at h
  | error e' u =>
    have := hx _ _ _ hz
    grind

end Settled

/-! ## Readers without nesting -/

theorem Varint.isMismatch_of_decodeFrom {count : Nat} {value : UInt64} {bytes : Bytes} {e : Error}
    (h : decodeFrom count value bytes = .error e) : e.isMismatch = false := by
  induction bytes generalizing count value with
  | nil =>
    simp only [decodeFrom, Except.error.injEq] at h
    subst h
    split <;> rfl
  | cons byte rest ih =>
    simp only [decodeFrom] at h
    split at h
    · cases h
      rfl
    · split at h
      · cases h
      · exact ih h

theorem Tag.isMismatch_of_ofRaw {raw : Nat} {e : Error} (h : ofRaw raw = .error e) :
    e.isMismatch = false := by
  unfold ofRaw at h
  split at h
  · cases h
    rfl
  · split at h
    · cases h
    · cases h
      rfl

namespace Reader

theorem settled_rawVarint : Settled rawVarint := by
  refine Settled.get.bind fun r => ?_
  cases h : Varint.decode r.rest with
  | ok v => exact (Settled.set _).bind fun _ => .pure _
  | error e => exact .throw (by simpa using Varint.isMismatch_of_decodeFrom h)

theorem settled_word (width : Nat) : Settled (word width) := by
  refine Settled.get.bind fun r => .ite ?_ ?_
  · exact (Settled.throw rfl).bind fun _ => (Settled.set _).bind fun _ => .pure _
  · exact (Settled.set _).bind fun _ => .pure _

theorem settled_length : Settled length :=
  Settled.get.bind fun _ => settled_rawVarint.bind fun _ => Settled.get.bind fun _ =>
    .ite ((Settled.throw rfl).bind fun _ => .pure _) (.pure _)

theorem settled_delimited : Settled delimited :=
  settled_length.bind fun _ => Settled.get.bind fun _ => (Settled.set _).bind fun _ => .pure _

theorem settled_nextTag : Settled nextTag := by
  refine Settled.get.bind fun start => .ite (.pure _) (settled_rawVarint.bind fun raw => ?_)
  cases h : Tag.ofRaw raw.toNat with
  | ok tag => exact .pure _
  | error e => exact .throw (by simpa using Tag.isMismatch_of_ofRaw h)

theorem settled_wireValue (wireType : WireType) : Settled (wireValue wireType) := by
  cases wireType with
  | varint => exact .map _ settled_rawVarint
  | fixed64 => exact .map _ (settled_word 8)
  | fixed32 => exact .map _ (settled_word 4)
  | lengthDelimited => exact .map _ settled_delimited
  | startGroup | endGroup => exact Settled.get.bind fun _ => .throw rfl

theorem settled_enter (limit : Nat) : Settled (enter limit) :=
  (Settled.modify _).bind fun _ => Settled.get.bind fun _ => .ite (.throw rfl) (.pure _)

theorem settled_leave : Settled leave := .modify _

theorem settled_skipGroups (limit rounds : Nat) (stack : List Nat) :
    Settled (skipGroups limit rounds stack) := by
  induction rounds generalizing stack with
  | zero =>
    cases stack with
    | nil => exact .pure _
    | cons number outer => exact Settled.get.bind fun _ => .throw rfl
  | succ rounds ih =>
    cases stack with
    | nil => exact .pure _
    | cons number outer =>
      refine Settled.get.bind fun start => .ite ((Settled.throw rfl).bind fun _ => ?_) ?_
      all_goals
        refine settled_nextTag.bind fun tag? => ?_
        cases tag? with
        | none => exact .throw rfl
        | some tag =>
          dsimp only
          split
          · exact .ite (ih _) (.throw rfl)
          · exact ih _
          · exact (settled_wireValue _).bind fun _ => ih _

theorem settled_skip (limit : Nat) (tag : Tag) : Settled (skip limit tag) :=
  .ite (Settled.get.bind fun _ => settled_skipGroups limit _ _)
    ((settled_wireValue _).bind fun _ => .pure _)

theorem settled_within {body : Build Reader σ α} (hb : Settled body) : Settled (within body) := by
  refine Settled.bind settled_length.read fun count => ?_
  rintro ⟨s, outer⟩ e t h
  dsimp only at h
  cases hz : body (s, { outer with rest := outer.rest.take count }) with
  | ok a u =>
    rw [hz] at h
    dsimp only at h
    split at h
    · cases h
    · cases h
      rfl
  | error e' u =>
    rw [hz] at h
    cases h
    exact hb _ _ _ hz

end Reader

/-! ## Readers that take a tag -/

/-- A reader refuses the tags that it does not accept and leaves everything as it is; on the others
it never ends in a mismatch. -/
structure Expects (x : Tag → EStateM Error σ α) (accepts : Tag → Prop) : Prop where
  /-- A tag that is not accepted is refused. -/
  refuse : ∀ tag s, ¬ accepts tag → ∃ e, x tag s = .error e s ∧ e.isMismatch = true
  /-- A tag that is accepted is not. -/
  settled : ∀ tag, accepts tag → Settled (x tag)

theorem unlessMismatched_of_settled {x : EStateM Error σ α} (hx : Settled x) (position : σ → Nat) :
    unlessMismatched position x = some <$> x := by
  funext s
  rw [run_map, unlessMismatched]
  cases h : x s with
  | ok a t => rfl
  | error e t =>
    have he := hx _ _ _ h
    cases e <;> first | rfl | simp [Error.isMismatch] at he

theorem unlessMismatched_of_refused {x : EStateM Error σ α} {position : σ → Nat} {s : σ} {e : Error}
    (h : x s = .error e s) (he : e.isMismatch = true) :
    unlessMismatched position x s = .ok none s := by
  rw [unlessMismatched, h]
  cases e <;> simp_all [Error.isMismatch]

namespace Expects

variable {x : Tag → EStateM Error σ α} {accepts : Tag → Prop}

/-- Absorbing a mismatch is asking for the wire type first. -/
theorem unlessMismatched_eq [DecidablePred accepts] (hx : Expects x accepts) (position : σ → Nat)
    (tag : Tag) :
    unlessMismatched position (x tag) = if accepts tag then some <$> x tag else pure none := by
  split
  · rename_i h
    exact unlessMismatched_of_settled (hx.settled tag h) position
  · rename_i h
    funext s
    obtain ⟨e, hs, he⟩ := hx.refuse tag s h
    exact unlessMismatched_of_refused hs he

theorem map (f : α → β) (hx : Expects x accepts) : Expects (fun tag => f <$> x tag) accepts where
  refuse := by
    intro tag s h
    obtain ⟨e, hs, he⟩ := hx.refuse tag s h
    exact ⟨e, by rw [run_map, hs], he⟩
  settled := fun tag h => .map f (hx.settled tag h)

theorem congr {accepts' : Tag → Prop} (hx : Expects x accepts)
    (h : ∀ tag, accepts tag ↔ accepts' tag) : Expects x accepts' where
  refuse := fun tag s ha => hx.refuse tag s fun h' => ha ((h tag).1 h')
  settled := fun tag ha => hx.settled tag ((h tag).2 ha)

theorem bind {f : Tag → α → EStateM Error σ β} (hx : Expects x accepts)
    (hf : ∀ tag a, accepts tag → Settled (f tag a)) :
    Expects (fun tag => x tag >>= f tag) accepts where
  refuse := by
    intro tag s h
    obtain ⟨e, hs, he⟩ := hx.refuse tag s h
    exact ⟨e, run_bind_of_error hs, he⟩
  settled := fun tag h => (hx.settled tag h).bind fun a => hf tag a h

theorem read {x : Tag → Reading ρ α} (hx : Expects x accepts) :
    Expects (fun tag => (Build.read (x tag) : Build ρ σ α)) accepts where
  refuse := by
    rintro tag ⟨s, r⟩ h
    obtain ⟨e, hs, he⟩ := hx.refuse tag r h
    exact ⟨e, read_eq_error.2 ⟨hs, rfl⟩, he⟩
  settled := fun tag h => .read (hx.settled tag h)

theorem alone {x : Tag → Build ρ σ Unit} (s : σ) (hx : Expects x accepts) :
    Expects (fun tag => Build.alone s (x tag)) accepts where
  refuse := by
    intro tag r h
    obtain ⟨e, hs, he⟩ := hx.refuse tag (s, r) h
    exact ⟨e, by rw [run_alone, hs], he⟩
  settled := fun tag h => .alone (hx.settled tag h)

theorem zoom {x : Tag → Build ρ τ α} {part : σ → τ} {put : σ → τ → σ}
    (same : ∀ s, put s (part s) = s) (hx : Expects x accepts) :
    Expects (fun tag => Build.zoom part put (x tag)) accepts where
  refuse := by
    rintro tag ⟨s, r⟩ h
    obtain ⟨e, hs, he⟩ := hx.refuse tag (part s, r) h
    exact ⟨e, by rw [run_zoom, hs]; simp [same], he⟩
  settled := fun tag h => .zoom (hx.settled tag h)

end Expects

namespace Reader

theorem expects_expect (wireType : WireType) :
    Expects (expect · wireType) (·.wireType = wireType) where
  refuse := by
    intro tag s h
    refine ⟨.wireTypeMismatch s.position tag.number tag.wireType wireType, ?_, rfl⟩
    simp [expect, h, run_bind]
  settled := by
    intro tag h
    simp only [expect, h, ne_eq, not_true_eq_false, if_false]
    exact .pure _

theorem expects_scalar (kind : ScalarKind) :
    Expects (scalar kind) (·.wireType = kind.wireType) := by
  refine (expects_expect kind.wireType).bind fun tag _ _ => Settled.get.bind fun _ =>
    (settled_wireValue _).bind fun v => ?_
  cases kind.ofWire? v with
  | some s => exact .pure _
  | none => exact .throw rfl

theorem expects_bytes : Expects bytes (·.wireType = .lengthDelimited) :=
  (expects_expect .lengthDelimited).bind fun _ _ _ => settled_delimited

theorem settled_elements {read : Tag → Reading Reader α} {tag : Tag} (hr : Settled (read tag))
    (rounds : Nat) : Settled (elements read tag rounds) := by
  induction rounds with
  | zero => exact .pure _
  | succ rounds ih =>
    exact Settled.source.bind fun _ => .ite (.pure _) (hr.read.bind fun _ =>
      (Settled.update _).bind fun _ => ih)

/-- Single elements of a repeated field are accepted, and packed runs of them unless an element is
framed by its length. -/
abbrev TakesRepeated (element : WireType) (tag : Tag) : Prop :=
  tag.wireType = element ∨ tag.wireType = .lengthDelimited

theorem expects_repeated {element : WireType} {read : Tag → Reading Reader α}
    (hr : Expects read (·.wireType = element)) :
    Expects (repeated element read) (TakesRepeated element) where
  refuse := by
    rintro tag ⟨as, r⟩ h
    obtain ⟨e, hs, he⟩ := hr.refuse tag r fun hw => h (Or.inl hw)
    refine ⟨e, ?_, he⟩
    rw [repeated, if_neg fun hc => h (Or.inr hc.1)]
    exact run_bind_of_error (read_eq_error.2 ⟨hs, rfl⟩)
  settled := by
    intro tag h
    by_cases hp : tag.wireType = .lengthDelimited ∧ element ≠ .lengthDelimited
    · rw [repeated, if_pos hp]
      exact settled_within (Settled.source.bind fun _ => settled_elements (hr.settled _ rfl) _)
    · rw [repeated, if_neg hp]
      have hw : tag.wireType = element := by
        rcases h with h | h
        · exact h
        · by_cases he : element = .lengthDelimited
          · rw [h, he]
          · exact absurd ⟨h, he⟩ hp
      exact (hr.settled tag hw).read.bind fun _ => .update _

/-! ## Map entries -/

variable {κ ν : Type}

/-- Reads one field of a map entry, the wire types of key and value being known. -/
def entryField (limit : Nat) (readKey : Tag → Reading Reader κ) (readValue : Tag → Reading Reader ν)
    (keyType valueType : WireType) (tag : Tag) : Build Reader (κ × ν) Unit :=
  if tag.number = 1 ∧ tag.wireType = keyType then do
    let key ← Build.read (readKey tag)
    Build.update fun entry => (key, entry.2)
  else if tag.number = 2 ∧ tag.wireType = valueType then do
    let value ← Build.read (readValue tag)
    Build.update fun entry => (entry.1, value)
  else Build.read (skip limit tag)

section

variable {readKey : Tag → Reading Reader κ} {readValue : Tag → Reading Reader ν}
  {keyType valueType : WireType} (hk : Expects readKey (·.wireType = keyType))
  (hv : Expects readValue (·.wireType = valueType))

include hk hv

/-- The fields of a map entry are read one after the other. -/
theorem entryFields_succ (limit rounds : Nat) :
    entryFields limit readKey readValue (rounds + 1) = Build.read nextTag >>= fun tag? =>
      match tag? with
      | none => pure ()
      | some tag => entryField limit readKey readValue keyType valueType tag >>= fun _ =>
          entryFields limit readKey readValue rounds := by
  funext s
  rw [entryFields, run_bind, run_bind]
  rcases Build.read nextTag s with ⟨_ | tag, entry, r⟩ | ⟨e, t⟩
  · rfl
  · dsimp only [entryField]
    by_cases h1 : tag.number = 1
    · have h2 : ¬ (tag.number = 2 ∧ tag.wireType = valueType) := fun h => by omega
      rw [if_pos h1, hk.unlessMismatched_eq, run_bind, run_bind]
      by_cases hw : tag.wireType = keyType
      · rw [if_pos hw, if_pos ⟨h1, hw⟩, run_bind, run_read, run_read, run_map]
        cases readKey tag r <;> rfl
      · have hn : ¬ (tag.number = 1 ∧ tag.wireType = keyType) := fun h => hw h.2
        rw [if_neg hw, if_neg hn, if_neg h2]
        exact run_bind (Build.read (skip limit tag)) _ (entry, r)
    · have hn : ¬ (tag.number = 1 ∧ tag.wireType = keyType) := fun h => h1 h.1
      rw [if_neg h1, if_neg hn]
      by_cases h2 : tag.number = 2
      · rw [if_pos h2, hv.unlessMismatched_eq, run_bind, run_bind]
        by_cases hw : tag.wireType = valueType
        · rw [if_pos hw, if_pos ⟨h2, hw⟩, run_bind, run_read, run_read, run_map]
          cases readValue tag r <;> rfl
        · have hn : ¬ (tag.number = 2 ∧ tag.wireType = valueType) := fun h => hw h.2
          rw [if_neg hw, if_neg hn]
          exact run_bind (Build.read (skip limit tag)) _ (entry, r)
      · have hn : ¬ (tag.number = 2 ∧ tag.wireType = valueType) := fun h => h2 h.1
        rw [if_neg h2, if_neg hn]
  · rfl

theorem settled_entryField (limit : Nat) (tag : Tag) :
    Settled (entryField limit readKey readValue keyType valueType tag) := by
  unfold entryField
  split
  · rename_i h
    exact (hk.settled tag h.2).read.bind fun _ => .update _
  · split
    · rename_i h
      exact (hv.settled tag h.2).read.bind fun _ => .update _
    · exact (settled_skip limit tag).read

theorem settled_entryFields (limit rounds : Nat) :
    Settled (entryFields limit readKey readValue rounds) := by
  induction rounds with
  | zero => exact .pure _
  | succ rounds ih =>
    rw [entryFields_succ hk hv]
    refine settled_nextTag.read.bind fun tag? => ?_
    cases tag? with
    | none => exact .pure _
    | some tag => exact (settled_entryField hk hv limit tag).bind fun _ => ih

theorem expects_mapEntry (limit : Nat) (zero : κ × ν) :
    Expects (mapEntry limit zero readKey readValue) (·.wireType = .lengthDelimited) :=
  (expects_expect .lengthDelimited).bind fun _ _ _ => (settled_enter limit).bind fun _ =>
    (Settled.alone (settled_within (Settled.source.bind fun _ =>
      settled_entryFields hk hv limit _))).bind fun _ => settled_leave.bind fun _ => .pure _

end

/-! ## Messages -/

theorem expects_message (limit : Nat) {body : MergeBody} (hb : ∀ g, Settled (body g)) :
    Expects (message limit body) (·.wireType = .lengthDelimited) :=
  (expects_expect .lengthDelimited).read.bind fun _ _ _ => (settled_enter limit).read.bind fun _ =>
    (settled_within (hb none)).bind fun _ => settled_leave.read

theorem expects_group (limit : Nat) {body : MergeBody} (hb : ∀ g, Settled (body g)) :
    Expects (group limit body) (·.wireType = .startGroup) :=
  (expects_expect .startGroup).read.bind fun _ _ _ => (settled_enter limit).read.bind fun _ =>
    (hb _).bind fun _ => settled_leave.read

theorem expects_value (limit : Nat) {body : MergeBody} (hb : ∀ g, Settled (body g))
    (kind : FieldKind) : Expects (value limit body kind) (·.wireType = kind.wireType) := by
  cases kind with
  | scalar kind => exact (expects_scalar kind).map _
  | message type => exact ((expects_message limit hb).alone _).map _
  | group type => exact ((expects_group limit hb).alone _).map _

theorem expects_intoOptional (type : MessageType) {wireType : WireType}
    {merge : Tag → Build Reader Message Unit} (hm : Expects merge (·.wireType = wireType)) :
    Expects (intoOptional type wireType merge) (·.wireType = wireType) :=
  (expects_expect wireType).read.bind fun tag _ h => .zoom (hm.settled tag h)

theorem expects_intoChosen (type : MessageType) {wireType : WireType}
    {merge : Tag → Build Reader Message Unit} (hm : Expects merge (·.wireType = wireType)) :
    Expects (intoChosen type wireType merge) (·.wireType = wireType) :=
  (expects_expect wireType).read.bind fun tag _ h => Settled.current.bind fun _ =>
    (Settled.put _).bind fun _ => (Settled.alone (hm.settled tag h)).read.bind fun _ => .put _

/-- A repeated field with elements of some kind accepts the wire type of a tag. -/
def takesRepeated : FieldKind → Tag → Bool
  | .scalar kind, tag => TakesRepeated kind.wireType tag
  | kind, tag => tag.wireType = kind.wireType

section

variable (limit : Nat) {body : MergeBody} (hb : ∀ g, Settled (body g)) (kind : FieldKind)

include hb

theorem expects_optionalField :
    Expects (optionalField limit body kind) (·.wireType = kind.wireType) := by
  cases kind with
  | scalar kind => exact (expects_scalar kind).read.bind fun _ _ _ => .put _
  | message type => exact expects_intoOptional type (expects_message limit hb)
  | group type => exact expects_intoOptional type (expects_group limit hb)

theorem expects_repeatedField :
    Expects (repeatedField limit body kind) (takesRepeated kind · = true) := by
  have hv := expects_value limit hb kind
  cases kind with
  | scalar kind =>
    exact (expects_repeated hv).congr fun tag => by simp [takesRepeated, FieldKind.wireType]
  | message type =>
    exact (hv.read.bind fun _ _ _ => .update _).congr fun tag => by simp [takesRepeated]
  | group type =>
    exact (hv.read.bind fun _ _ _ => .update _).congr fun tag => by simp [takesRepeated]

theorem expects_oneofField :
    Expects (oneofField limit body kind) (·.wireType = kind.wireType) := by
  cases kind with
  | scalar kind => exact (expects_scalar kind).read.bind fun _ _ _ => .put _
  | message type => exact expects_intoChosen type (expects_message limit hb)
  | group type => exact expects_intoChosen type (expects_group limit hb)

end

end Reader

/-! ## Members -/

@[simp] theorem Slot.setPackedScalars_self (slot : Slot Message) :
    slot.setPackedScalars slot.packedScalars = slot := by
  cases slot <;> rfl

@[simp] theorem Slot.setRepeatedValues_self (slot : Slot Message) :
    slot.setRepeatedValues slot.repeatedValues = slot := by
  cases slot <;> rfl

namespace Member

/-- The member accepts the wire type of a tag that has one of its numbers. -/
def takes : Member → Tag → Bool
  | plain _ _ kind, tag => tag.wireType = kind.wireType
  | optional field _, tag => tag.wireType = field.kind.wireType
  | packed _ _ kind, tag => Reader.TakesRepeated kind.wireType tag
  | repeated field, tag => Reader.takesRepeated field.kind tag
  | map .., tag | payload .., tag => tag.wireType = .lengthDelimited
  | oneof fields, tag =>
    (fields.find? (·.number = tag.number)).all fun field => tag.wireType = field.kind.wireType

theorem merge_oneof {limit : Nat} {body : MergeBody} {fields : List Field} {tag : Tag}
    {field : Field} (hf : fields.find? (·.number = tag.number) = some field) :
    (oneof fields).merge limit body tag = Reader.oneofField limit body field.kind tag := by
  rw [merge, hf]

theorem merge_oneof_none {limit : Nat} {body : MergeBody} {fields : List Field} {tag : Tag}
    (hf : fields.find? (·.number = tag.number) = none) :
    (oneof fields).merge limit body tag = pure () := by
  rw [merge, hf]

/-- A member refuses the tags that it does not accept and stays as it is. -/
theorem expects_merge (limit : Nat) {body : MergeBody} (hb : ∀ g, Settled (body g))
    (member : Member) : Expects (member.merge limit body) (member.takes · = true) := by
  cases member with
  | plain number name kind =>
    exact ((Reader.expects_scalar kind).read.bind fun _ _ _ => .put _).congr fun tag => by
      simp [takes]
  | optional field required =>
    exact (Reader.expects_optionalField limit hb field.kind).congr fun tag => by simp [takes]
  | packed number name kind =>
    exact ((Reader.expects_repeated (Reader.expects_scalar kind)).zoom
      Slot.setPackedScalars_self).congr fun tag => by simp [takes]
  | repeated field =>
    exact (Reader.expects_repeatedField limit hb field.kind).zoom Slot.setRepeatedValues_self
  | map number name key kind =>
    exact ((Reader.expects_mapEntry (Reader.expects_scalar key) (Reader.expects_value limit hb kind)
      limit _).read.bind fun _ _ _ => .update _).congr fun tag => by simp [takes]
  | oneof fields =>
    constructor
    · intro tag s h
      cases hf : fields.find? (·.number = tag.number) with
      | none => simp [takes, hf] at h
      | some field =>
        have hw : tag.wireType ≠ field.kind.wireType := by simpa [takes, hf] using h
        rw [merge_oneof hf]
        exact (Reader.expects_oneofField limit hb field.kind).refuse tag s hw
    · intro tag h
      cases hf : fields.find? (·.number = tag.number) with
      | none =>
        rw [merge_oneof_none hf]
        exact .pure _
      | some field =>
        have hw : tag.wireType = field.kind.wireType := by simpa [takes, hf] using h
        rw [merge_oneof hf]
        exact (Reader.expects_oneofField limit hb field.kind).settled tag hw
  | payload number name =>
    exact (Reader.expects_bytes.read.bind fun _ _ _ => .put _).congr fun tag => by simp [takes]

end Member

/-! ## Rounds of merging -/

namespace MessageType

/-- The type declares the field of a tag and accepts its wire type. -/
def accepts (type : MessageType) (tag : Tag) : Bool :=
  match Message.member? type (·.hasNumber tag.number) with
  | none => false
  | some (_, member) => member.takes tag

theorem accepts_of_member? {type : MessageType} {tag : Tag} {i : Nat} {member : Member}
    (h : Message.member? type (·.hasNumber tag.number) = some (i, member)) :
    type.accepts tag = member.takes tag := by
  rw [accepts, h]

/-- A tag that is accepted has the wire type that belongs to its number. -/
theorem wireType?_of_accepts {type : MessageType} {tag : Tag} (h : type.accepts tag = true) :
    (type.wireType? tag.number).all (· = tag.wireType) = true := by
  unfold wireType?
  split
  · rename_i hnumber
    have hgroup : Message.member? .oneofContainer (·.hasNumber tag.number) =
        some (0, .oneof [⟨3, "Option3", .group .groupOption⟩, ⟨4, "option4", .scalar .int32⟩]) := by
      rw [hnumber]
      rfl
    rw [accepts_of_member? hgroup] at h
    simpa [Member.takes, hnumber, FieldKind.wireType, eq_comm] using h
  · rfl

end MessageType

namespace Message

open Reader

theorem set_getD_self (m : Message) (i : Nat) (slot : Slot Message) :
    { m with slots := m.slots.set i (m.slots.getD i slot) } = m := by
  obtain ⟨type, slots, unknown⟩ := m
  by_cases h : i < slots.length
  · simp [List.getD_eq_getElem?_getD, h]
  · simp [List.set_eq_of_length_le (Nat.le_of_not_lt h)]

theorem member?_of_declared? {type : MessageType} {tag : Tag} {found : Nat × Member}
    (h : declared? type tag = some found) : member? type (·.hasNumber tag.number) = some found := by
  unfold declared? at h
  split at h
  · exact h
  · cases h

theorem exists_member?_of_accepts {type : MessageType} {tag : Tag} (h : type.accepts tag = true) :
    ∃ i member, member? type (·.hasNumber tag.number) = some (i, member) ∧
      member.takes tag = true := by
  unfold MessageType.accepts at h
  cases hm : member? type (·.hasNumber tag.number) with
  | none => simp [hm] at h
  | some found => exact ⟨found.1, found.2, rfl, by simpa [hm] using h⟩

/-- Of a tag that is accepted, the number alone tells the member. -/
theorem declared?_of_accepts {type : MessageType} {tag : Tag} (h : type.accepts tag = true) :
    declared? type tag = member? type (·.hasNumber tag.number) := by
  rw [declared?, if_pos (MessageType.wireType?_of_accepts h)]

theorem exists_declared?_of_accepts {type : MessageType} {tag : Tag}
    (h : type.accepts tag = true) :
    ∃ i member, declared? type tag = some (i, member) ∧ member.takes tag = true := by
  rw [declared?_of_accepts h]
  exact exists_member?_of_accepts h

theorem mergeField_of_declared? {limit : Nat} {body : MergeBody} {tag : Tag} {m : Message}
    {i : Nat} {member : Member} (h : declared? m.type tag = some (i, member)) (r : Reader) :
    mergeField limit body tag (m, r) =
      (atSlot i member (member.merge limit body tag) >>= fun _ => pure true) (m, r) := by
  rw [mergeField, h]

theorem mergeField_of_not_declared {limit : Nat} {body : MergeBody} {tag : Tag} {m : Message}
    (h : declared? m.type tag = none) (r : Reader) :
    mergeField limit body tag (m, r) = .ok false (m, r) := by
  rw [mergeField, h]

/-- Merges the field of a tag if the type of the message accepts it, and keeps it as it is
otherwise. -/
def mergeOne (options : DecodeOptions) (body : MergeBody) (start : Reader) (tag : Tag) :
    Build Reader Message Unit := do
  let m ← current
  if m.type.accepts tag then
    let _ ← mergeField options.depthLimit body tag
  else keepUnknown options start tag

/-- A field that its member takes is merged into the member's slot. -/
theorem run_mergeOne_of_takes (options : DecodeOptions) (body : MergeBody) (start : Reader)
    {m : Message} {i : Nat} {member : Member} {tag : Tag}
    (hi : member? m.type (·.hasNumber tag.number) = some (i, member))
    (ht : member.takes tag = true) (r : Reader) :
    mergeOne options body start tag (m, r) =
      match member.merge options.depthLimit body tag (m.slots.getD i member.initial, r) with
      | .ok _ (s, t) => .ok () ({ m with slots := m.slots.set i s }, t)
      | .error e (s, t) => .error e ({ m with slots := m.slots.set i s }, t) := by
  have ha : m.type.accepts tag = true := by rw [MessageType.accepts_of_member? hi, ht]
  rw [mergeOne, run_bind_of_ok (run_current m r), if_pos ha, run_bind]
  rw [mergeField_of_declared? ((declared?_of_accepts ha).trans hi), run_bind, atSlot, run_zoom]
  rcases member.merge options.depthLimit body tag (m.slots.getD i member.initial, r) with
    ⟨_, s, t⟩ | ⟨e, s, t⟩ <;> rfl

/-- A field that is not accepted is kept as it is. -/
theorem run_mergeOne_of_not_accepts {options : DecodeOptions} {body : MergeBody} {start r : Reader}
    {m : Message} {tag : Tag} (ha : ¬ m.type.accepts tag = true) :
    mergeOne options body start tag (m, r) = keepUnknown options start tag (m, r) := by
  rw [mergeOne, run_bind_of_ok (run_current m r), if_neg ha]

/-- The fields of a region, or of the group with the given number, given what is to be done with
each field and with those behind it. -/
def mergeRound (one : Reader → Tag → Build Reader Message Unit) (rest : Build Reader Message Unit)
    (group? : Option Nat) : Build Reader Message Unit := do
  let start ← source
  match ← read nextTag with
  | none =>
    match group? with
    | none => pure ()
    | some number => throw (.malformed start.position (.unclosedGroup number))
  | some tag =>
    if tag.wireType = .endGroup then
      if group? = some tag.number then pure ()
      else throw (.malformed start.position (.unexpectedEndGroup tag.number))
    else
      one start tag
      rest

section

variable {body : MergeBody} (hb : ∀ g, Settled (body g)) (limit : Nat)

include hb

theorem expects_atSlot (i : Nat) (member : Member) :
    Expects (fun tag => atSlot i member (member.merge limit body tag) >>= fun _ => pure true)
      (member.takes · = true) := by
  have hz : Expects (fun tag => atSlot i member (member.merge limit body tag))
      (member.takes · = true) :=
    Expects.zoom (fun m => set_getD_self m i member.initial) (member.expects_merge limit hb)
  exact hz.bind fun _ _ _ => .pure _

variable {tag : Tag} {m : Message}

/-- Offering a field that the type accepts ends in no mismatch. -/
theorem unlessMismatched_of_accepts (h : m.type.accepts tag = true) (r : Reader) :
    unlessMismatched (·.2.position) (mergeField limit body tag) (m, r) =
      (some <$> mergeField limit body tag) (m, r) := by
  obtain ⟨i, member, hm, htakes⟩ := exists_declared?_of_accepts h
  have hs := (expects_atSlot hb limit i member).settled tag htakes
  have hu := congrFun (unlessMismatched_of_settled hs (·.2.position)) (m, r)
  simpa only [unlessMismatched, run_map, mergeField_of_declared? hm] using hu

/-- Offering a field that the type does not accept changes nothing. -/
theorem unlessMismatched_of_not_accepts (h : m.type.accepts tag = false) (r : Reader) :
    ∃ a, a ≠ some true ∧
      unlessMismatched (·.2.position) (mergeField limit body tag) (m, r) = .ok a (m, r) := by
  cases hm : declared? m.type tag with
  | none =>
    refine ⟨some false, by simp, ?_⟩
    rw [unlessMismatched, mergeField_of_not_declared hm]
  | some found =>
    obtain ⟨i, member⟩ := found
    rw [MessageType.accepts_of_member? (member?_of_declared? hm)] at h
    obtain ⟨e, he, hmis⟩ := (expects_atSlot hb limit i member).refuse tag (m, r)
      (Bool.eq_false_iff.1 h)
    refine ⟨none, by simp, unlessMismatched_of_refused ?_ hmis⟩
    rwa [mergeField_of_declared? hm]

end

theorem eq_true_of_mergeField {limit : Nat} {body : MergeBody} {tag : Tag} {m : Message} {a : Bool}
    {r : Reader} {t : Message × Reader}
    (h : m.type.accepts tag = true) (hok : mergeField limit body tag (m, r) = .ok a t) :
    a = true := by
  obtain ⟨i, member, hm, -⟩ := exists_declared?_of_accepts h
  rw [mergeField_of_declared? hm] at hok
  obtain ⟨_, u, -, hu⟩ := bind_eq_ok.1 hok
  simp only [run_pure, EStateM.Result.ok.injEq] at hu
  exact hu.1.symm

/-- Every round of merging asks the type of the message for its fields. -/
theorem mergeFields_succ_of_settled (options : DecodeOptions) (rounds : Nat)
    (hb : ∀ g, Settled (mergeFields options rounds g)) (group? : Option Nat) :
    mergeFields options (rounds + 1) group? =
      mergeRound (mergeOne options (mergeFields options rounds))
        (mergeFields options rounds group?) group? := by
  funext ⟨m, r⟩
  rw [mergeFields, mergeRound, run_bind, run_bind]
  simp only [run_source]
  rw [run_bind, run_bind]
  rcases read nextTag (m, r) with ⟨_ | tag, m', r'⟩ | ⟨e, t⟩
  · rfl
  · dsimp only
    by_cases hend : tag.wireType = .endGroup
    · rw [if_pos hend, if_pos hend]
    · rw [if_neg hend, if_neg hend, run_bind, run_bind, mergeOne,
        run_bind_of_ok (run_current m' r')]
      cases ha : m'.type.accepts tag with
      | true =>
        rw [unlessMismatched_of_accepts hb _ ha, run_map]
        cases hf : mergeField options.depthLimit (mergeFields options rounds) tag (m', r') with
        | ok a t =>
          have := eq_true_of_mergeField ha hf
          subst this
          simp only [if_true, run_bind, hf]
          simp
        | error e t =>
          simp only [if_true, run_bind, hf]
      | false =>
        obtain ⟨a, hne, hu⟩ := unlessMismatched_of_not_accepts hb options.depthLimit ha r'
        rw [hu]
        simp only [if_pos hne, Bool.false_eq_true, if_false]
        exact run_bind _ _ _
  · rfl

theorem settled_keepUnknown (options : DecodeOptions) (start : Reader) (tag : Tag) :
    Settled (keepUnknown options start tag) :=
  (settled_skip _ tag).read.bind fun _ =>
    .ite (Settled.source.bind fun _ => .update _) (.pure _)

theorem settled_mergeField {limit : Nat} {body : MergeBody} (hb : ∀ g, Settled (body g)) {tag : Tag}
    {m : Message} (h : m.type.accepts tag = true) {r : Reader} {e : Error} {t : Message × Reader}
    (he : mergeField limit body tag (m, r) = .error e t) : e.isMismatch = false := by
  obtain ⟨i, member, hm, htakes⟩ := exists_declared?_of_accepts h
  rw [mergeField_of_declared? hm] at he
  exact (expects_atSlot hb limit i member).settled tag htakes _ _ _ he

theorem settled_mergeOne (options : DecodeOptions) {body : MergeBody} (hb : ∀ g, Settled (body g))
    (start : Reader) (tag : Tag) : Settled (mergeOne options body start tag) := by
  rintro ⟨m, r⟩ e t h
  rw [mergeOne, run_bind_of_ok (run_current m r)] at h
  cases ha : m.type.accepts tag with
  | true =>
    simp only [ha, if_true] at h
    rcases bind_eq_error.1 h with h | ⟨a, u, -, h⟩
    · exact settled_mergeField hb ha h
    · simp at h
  | false =>
    simp only [ha, Bool.false_eq_true, if_false] at h
    exact settled_keepUnknown options start tag _ _ _ h

theorem settled_mergeRound {one : Reader → Tag → Build Reader Message Unit}
    {rest : Build Reader Message Unit} (ho : ∀ start tag, Settled (one start tag))
    (hr : Settled rest) (group? : Option Nat) : Settled (mergeRound one rest group?) := by
  refine Settled.source.bind fun start => settled_nextTag.read.bind fun tag? => ?_
  cases tag? with
  | none =>
    cases group? with
    | none => exact .pure _
    | some number => exact .throw rfl
  | some tag => exact .ite (.ite (.pure _) (.throw rfl)) ((ho start tag).bind fun _ => hr)

/-- Merging never ends in a wire-type mismatch. -/
theorem settled_mergeFields (options : DecodeOptions) (rounds : Nat) (group? : Option Nat) :
    Settled (mergeFields options rounds group?) := by
  induction rounds generalizing group? with
  | zero => exact .pure _
  | succ rounds ih =>
    rw [mergeFields_succ_of_settled options rounds ih]
    exact settled_mergeRound (settled_mergeOne options ih) (ih group?) group?

theorem mergeFields_round (options : DecodeOptions) (rounds : Nat) (group? : Option Nat) :
    mergeFields options (rounds + 1) group? =
      mergeRound (mergeOne options (mergeFields options rounds))
        (mergeFields options rounds group?) group? :=
  mergeFields_succ_of_settled options rounds (settled_mergeFields options rounds) group?

end Message

end Protobuf
