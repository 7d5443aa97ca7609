import Protobuf.Proofs.MapOrder
import Protobuf.Proofs.Merging

/-!
# Messages that fit their type

In a message that fits, every slot has the shape that its member declares, with values of the
declared type and maps by ascending key. What holds of a message and of all messages inside it is
said with `Message.Everywhere`; merging keeps that all messages fit (`Likeness.fitting`), so whether
some input can be merged does not depend on the message that it is merged into.
-/

namespace Protobuf

open Build

/-! ## One message -/

/-- The value is one of the kind. -/
def FieldKind.Fits : FieldKind → Value Message → Prop
  | scalar kind, .scalar s => s.kind = kind
  | message type, .message m | group type, .message m => m.type = type
  | _, _ => False

/-- The slot can belong to the member. -/
def Member.Fits : Member → Slot Message → Prop
  | plain _ _ kind, .plain s => s.kind = kind
  | optional field _, .optional v => ∀ x ∈ v, field.kind.Fits x
  | packed _ _ kind, .packed ss => ∀ s ∈ ss, s.kind = kind
  | repeated field, .repeated vs => ∀ v ∈ vs, field.kind.Fits v
  | map _ _ key kind, .map es => Ascending es ∧ ∀ e ∈ es, e.1.kind = key ∧ kind.Fits e.2
  | oneof fields, .oneof c =>
    ∀ e ∈ c, ∃ field, fields.find? (·.number = e.1) = some field ∧ field.kind.Fits e.2
  | payload _ _, .payload _ => True
  | _, _ => False

/-- The message has the slots that its type declares. -/
structure Message.Fits (m : Message) : Prop where
  /-- There is a slot for each member. -/
  length_eq : m.slots.length = m.type.members.length
  /-- Each slot can belong to its member. -/
  fits_slot : ∀ (i : Nat) (member : Member) (s : Slot Message),
    m.type.members[i]? = some member → m.slots[i]? = some s → member.Fits s

/-! ## Messages inside messages -/

/-- The messages that are read inside a slot, and how many levels deeper each of them is read. The
payload of an `Any` is not read. -/
def Slot.nested : Slot Message → List (Nat × Message)
  | plain _ | packed _ | payload _ => []
  | optional v => v.toList.flatMap fun v => v.children.map (1, ·)
  | repeated vs => vs.flatMap fun v => v.children.map (1, ·)
  | map es => es.flatMap fun e => e.2.children.map (2, ·)
  | oneof c => c.toList.flatMap fun e => e.2.children.map (1, ·)

namespace Message

/-- The messages that are read directly inside a message. -/
def nested (m : Message) : List (Nat × Message) := m.slots.flatMap Slot.nested

/-- A property of a message that is read where so many messages are open, and of all those that are
read inside it. -/
inductive Everywhere (P : Nat → Message → Prop) : Nat → Message → Prop
  /-- It holds of the message and, where they are read, of those inside. -/
  | intro {depth : Nat} {m : Message} (here : P depth m)
    (inside : ∀ c ∈ m.nested, Everywhere P (depth + c.1) c.2) : Everywhere P depth m

theorem Everywhere.here {P : Nat → Message → Prop} {depth : Nat} {m : Message}
    (h : m.Everywhere P depth) : P depth m := by
  cases h with
  | intro here _ => exact here

theorem Everywhere.inside {P : Nat → Message → Prop} {depth : Nat} {m : Message}
    (h : m.Everywhere P depth) {c : Nat × Message} (hc : c ∈ m.nested) :
    c.2.Everywhere P (depth + c.1) := by
  cases h with
  | intro _ inside => exact inside c hc

theorem Everywhere.imp {P Q : Nat → Message → Prop} (himp : ∀ d m, P d m → Q d m) {depth : Nat}
    {m : Message} (h : m.Everywhere P depth) : m.Everywhere Q depth := by
  induction h with
  | intro here _ ih => exact .intro (himp _ _ here) ih

end Message

/-! ## Parts of messages that fit -/

section

variable (U : Nat → MessageType → Bytes → Prop)

/-- The message and all those inside it fit their types, and their unknown fields are such as they
may be at the level where the message is read. -/
abbrev Message.Sound (depth : Nat) (m : Message) : Prop :=
  m.Everywhere (fun d m => m.Fits ∧ U d m.type m.unknown) depth

/-- The value is one of the kind, with a sound message. -/
def Value.Sound (depth : Nat) (kind : FieldKind) (v : Value Message) : Prop :=
  kind.Fits v ∧ ∀ m ∈ v.children, m.Sound U depth

/-- The slot can belong to the member, with sound messages. -/
def Slot.Sound (depth : Nat) (member : Member) (s : Slot Message) : Prop :=
  member.Fits s ∧ ∀ c ∈ s.nested, c.2.Sound U (depth + c.1)

end

theorem Member.fits_initial (member : Member) : member.Fits member.initial := by
  cases member with
  | plain number name kind => exact ScalarKind.kind_zero kind
  | optional field required => exact fun _ h => nomatch h
  | packed number name kind => exact List.forall_mem_nil _
  | repeated field => exact List.forall_mem_nil _
  | map number name key kind => exact ⟨List.Pairwise.nil, List.forall_mem_nil _⟩
  | oneof fields => exact fun _ h => nomatch h
  | payload number name => exact trivial

theorem Member.nested_initial (member : Member) :
    (member.initial : Slot Message).nested = [] := by
  cases member <;> rfl

namespace Message

variable {U : Nat → MessageType → Bytes → Prop} {d : Nat} {m : Message}

/-- A message is sound if its slots and its unknown fields are. -/
theorem sound_iff :
    m.Sound U d ↔ m.slots.length = m.type.members.length ∧
      (∀ (i : Nat) (member : Member) (s : Slot Message), m.type.members[i]? = some member →
        m.slots[i]? = some s → s.Sound U d member) ∧ U d m.type m.unknown := by
  constructor
  · intro h
    obtain ⟨⟨hlen, hfits⟩, hu⟩ := h.here
    refine ⟨hlen, fun i member s hi hs => ⟨hfits i member s hi hs, fun c hc => h.inside ?_⟩, hu⟩
    exact List.mem_flatMap.2 ⟨s, List.mem_of_getElem? hs, hc⟩
  · rintro ⟨hlen, hslots, hu⟩
    refine .intro ⟨⟨hlen, fun i member s hi hs => (hslots i member s hi hs).1⟩, hu⟩ fun c hc => ?_
    obtain ⟨s, hs, hc⟩ := List.mem_flatMap.1 hc
    obtain ⟨i, hs⟩ := List.mem_iff_getElem?.1 hs
    have hi : i < m.type.members.length := by
      rw [← hlen]
      exact (List.getElem?_eq_some_iff.1 hs).1
    exact (hslots i _ s (List.getElem?_eq_getElem hi) hs).2 c hc

theorem sound_new (hu : ∀ d type, U d type []) (d : Nat) (type : MessageType) :
    (new type).Sound U d := by
  refine sound_iff.2 ⟨List.length_map _, ?_, hu d type⟩
  intro i member s hi hs
  change (type.members.map Member.initial)[i]? = some s at hs
  change type.members[i]? = some member at hi
  rw [List.getElem?_map, hi] at hs
  cases hs
  refine ⟨member.fits_initial, ?_⟩
  rw [member.nested_initial]
  exact List.forall_mem_nil _

theorem member?_eq_some {type : MessageType} {test : Member → Bool} {i : Nat} {member : Member}
    (h : member? type test = some (i, member)) : type.members[i]? = some member := by
  simp only [member?, Option.bind_eq_bind, Option.pure_def, Option.bind_eq_some_iff,
    Option.some.injEq, Prod.mk.injEq] at h
  obtain ⟨j, -, member', hj, rfl, rfl⟩ := h
  exact hj

theorem Sound.slot {i : Nat} {member : Member} (h : m.Sound U d)
    (hi : m.type.members[i]? = some member) :
    (m.slots.getD i member.initial).Sound U d member := by
  obtain ⟨hlen, hslots, -⟩ := sound_iff.1 h
  have hlt : i < m.slots.length := by
    rw [hlen]
    exact (List.getElem?_eq_some_iff.1 hi).1
  refine hslots i member _ hi ?_
  rw [List.getD_eq_getElem?_getD, List.getElem?_eq_getElem hlt]
  rfl

theorem Sound.set {i : Nat} {member : Member} {s : Slot Message} (h : m.Sound U d)
    (hi : m.type.members[i]? = some member) (hs : s.Sound U d member) :
    Sound U d { m with slots := m.slots.set i s } := by
  obtain ⟨hlen, hslots, hu⟩ := sound_iff.1 h
  refine sound_iff.2 ⟨by rw [List.length_set, hlen], ?_, hu⟩
  intro j member' s' hj hs'
  change m.type.members[j]? = some member' at hj
  change (m.slots.set i s)[j]? = some s' at hs'
  rw [List.getElem?_set] at hs'
  split at hs'
  · rename_i hij
    subst hij
    rw [hi] at hj
    cases hj
    split at hs'
    · cases hs'
      exact hs
    · cases hs'
  · exact hslots j member' s' hj hs'

theorem Sound.unknown_append {bytes : Bytes} (h : m.Sound U d)
    (hu : U d m.type (m.unknown ++ bytes)) : (m.appendUnknown bytes).Sound U d := by
  obtain ⟨hlen, hslots, -⟩ := sound_iff.1 h
  exact sound_iff.2 ⟨hlen, hslots, hu⟩

end Message

/-! ## Merging keeps what fits -/

section

variable {U : Nat → MessageType → Bytes → Prop} {d : Nat}

theorem Value.Sound.of_like {kind : FieldKind} {v v' : Value Message}
    (h : kind.Like (fun type m m' => m.type = type ∧ m'.type = type ∧ m.Sound U d ∧ m'.Sound U d)
      v v') : v.Sound U d kind ∧ v'.Sound U d kind := by
  cases kind with
  | scalar kind =>
    obtain ⟨s, rfl, rfl, hs⟩ := h
    exact ⟨⟨hs, List.forall_mem_nil _⟩, hs, List.forall_mem_nil _⟩
  | message type | group type =>
    obtain ⟨m, m', rfl, rfl, hm, hm', h, h'⟩ := h
    refine ⟨⟨hm, fun c hc => ?_⟩, hm', fun c hc => ?_⟩
    · rw [List.mem_singleton.1 hc]
      exact h
    · rw [List.mem_singleton.1 hc]
      exact h'

namespace Slot.Sound

theorem optional {field : Field} {required : Bool} {v : Value Message}
    (h : v.Sound U (d + 1) field.kind) :
    (Slot.optional (some v)).Sound U d (.optional field required) := by
  refine ⟨fun x hx => ?_, fun c hc => ?_⟩
  · cases hx
    exact h.1
  · obtain ⟨v', hv', hc⟩ := List.mem_flatMap.1 hc
    cases Option.mem_toList.1 hv'
    obtain ⟨m, hm, rfl⟩ := List.mem_map.1 hc
    exact h.2 m hm

theorem unchosen {fields : List Field} : (Slot.oneof none).Sound U d (.oneof fields) :=
  ⟨(fun _ h => nomatch h), List.forall_mem_nil _⟩

theorem oneof {fields : List Field} {field : Field} {number : Nat} {v : Value Message}
    (hfind : fields.find? (·.number = number) = some field) (h : v.Sound U (d + 1) field.kind) :
    (Slot.oneof (some (number, v))).Sound U d (.oneof fields) := by
  refine ⟨fun e he => ?_, fun c hc => ?_⟩
  · cases he
    exact ⟨field, hfind, h.1⟩
  · obtain ⟨e, he, hc⟩ := List.mem_flatMap.1 hc
    cases Option.mem_toList.1 he
    obtain ⟨m, hm, rfl⟩ := List.mem_map.1 hc
    exact h.2 m hm

theorem optionalMessage (hu : ∀ d type, U d type []) {field : Field} {required : Bool}
    {type : MessageType} {s : Slot Message} (h : s.Sound U d (.optional field required))
    (hk : field.kind.holds type) :
    (s.optionalMessage type).type = type ∧ (s.optionalMessage type).Sound U (d + 1) := by
  have hnew := Message.sound_new hu (d + 1) type
  cases s with
  | optional v =>
    rcases v with _ | (s | m)
    · exact ⟨rfl, hnew⟩
    · exact ⟨rfl, hnew⟩
    · have hm := h.1 _ rfl
      refine ⟨?_, h.2 (1, m) (by simp [Slot.nested, Value.children])⟩
      rcases hk with hk | hk <;> rw [hk] at hm <;> exact hm
  | _ => exact ⟨rfl, hnew⟩

theorem chosenMessage (hu : ∀ d type, U d type []) {fields : List Field} {field : Field}
    {number : Nat} {type : MessageType} {s : Slot Message} (h : s.Sound U d (.oneof fields))
    (hfind : fields.find? (·.number = number) = some field) (hk : field.kind.holds type) :
    (s.chosenMessage number type).type = type ∧ (s.chosenMessage number type).Sound U (d + 1) := by
  have hnew := Message.sound_new hu (d + 1) type
  cases s with
  | oneof c =>
    rcases c with _ | ⟨n, s | m⟩
    · exact ⟨rfl, hnew⟩
    · exact ⟨rfl, hnew⟩
    · rw [Slot.chosenMessage]
      split
      · rename_i hn
        subst hn
        obtain ⟨field', hfind', hm⟩ := h.1 _ rfl
        rw [hfind] at hfind'
        cases hfind'
        refine ⟨?_, h.2 (1, m) (by simp [Slot.nested, Value.children])⟩
        rcases hk with hk | hk <;> rw [hk] at hm <;> exact hm
      · exact ⟨rfl, hnew⟩
  | _ => exact ⟨rfl, hnew⟩

theorem repeatedValues {field : Field} {s : Slot Message} (h : s.Sound U d (.repeated field)) :
    ∀ v ∈ s.repeatedValues, v.Sound U (d + 1) field.kind := by
  cases s with
  | repeated vs =>
    refine fun v hv => ⟨h.1 v hv, fun m hm => h.2 (1, m) ?_⟩
    exact List.mem_flatMap.2 ⟨v, hv, List.mem_map.2 ⟨m, hm, rfl⟩⟩
  | _ => exact List.forall_mem_nil _

theorem setRepeatedValues {field : Field} {s : Slot Message} {vs : List (Value Message)}
    (h : s.Sound U d (.repeated field)) (hvs : ∀ v ∈ vs, v.Sound U (d + 1) field.kind) :
    (s.setRepeatedValues vs).Sound U d (.repeated field) := by
  cases s with
  | repeated vs' =>
    refine ⟨fun v hv => (hvs v hv).1, fun c hc => ?_⟩
    obtain ⟨v, hv, hc⟩ := List.mem_flatMap.1 hc
    obtain ⟨m, hm, rfl⟩ := List.mem_map.1 hc
    exact (hvs v hv).2 m hm
  | _ => exact h

theorem packedScalars {number : Nat} {name : String} {kind : ScalarKind} {s : Slot Message}
    (h : s.Sound U d (.packed number name kind)) : ∀ x ∈ s.packedScalars, x.kind = kind := by
  cases s with
  | packed ss => exact h.1
  | _ => exact List.forall_mem_nil _

theorem setPackedScalars {number : Nat} {name : String} {kind : ScalarKind} {s : Slot Message}
    {ss : List Scalar} (h : s.Sound U d (.packed number name kind))
    (hss : ∀ x ∈ ss, x.kind = kind) :
    (s.setPackedScalars ss).Sound U d (.packed number name kind) := by
  cases s with
  | packed ss' => exact ⟨hss, List.forall_mem_nil _⟩
  | _ => exact h

theorem insert {number : Nat} {name : String} {key : ScalarKind} {kind : FieldKind}
    {s : Slot Message} {k : Scalar} {v : Value Message}
    (h : s.Sound U d (.map number name key kind)) (hk : k.kind = key)
    (hv : v.Sound U (d + 2) kind) :
    (Slot.map (insertEntry k v s.mapEntries)).Sound U d (.map number name key kind) := by
  have hold : Ascending s.mapEntries ∧ ∀ e ∈ s.mapEntries, e.1.kind = key ∧
      e.2.Sound U (d + 2) kind := by
    cases s with
    | map es =>
      refine ⟨h.1.1, fun e he => ⟨(h.1.2 e he).1, (h.1.2 e he).2, fun m hm => h.2 (2, m) ?_⟩⟩
      exact List.mem_flatMap.2 ⟨e, he, List.mem_map.2 ⟨m, hm, rfl⟩⟩
    | _ => exact ⟨List.Pairwise.nil, List.forall_mem_nil _⟩
  have hall : ∀ e ∈ insertEntry k v s.mapEntries, e.1.kind = key ∧ e.2.Sound U (d + 2) kind := by
    intro e he
    rcases mem_of_mem_insertEntry he with rfl | he
    · exact ⟨hk, hv⟩
    · exact hold.2 e he
  refine ⟨⟨hold.1.insertEntry hk fun e he => (hold.2 e he).1, fun e he => ?_⟩, fun c hc => ?_⟩
  · exact ⟨(hall e he).1, (hall e he).2.1⟩
  · obtain ⟨e, he, hc⟩ := List.mem_flatMap.1 hc
    obtain ⟨m, hm, rfl⟩ := List.mem_map.1 hc
    exact (hall e he).2.2 m hm

end Slot.Sound

/-- What unknown fields may be at each level: none at all, and one more field that the type does not
accept. -/
structure Admits (limit : Nat) (U : Nat → MessageType → Bytes → Prop) : Prop where
  /-- There may be no unknown fields. -/
  nil (depth : Nat) (type : MessageType) : U depth type []
  /-- There may be one more. -/
  append {depth : Nat} {type : MessageType} {unknown bytes : Bytes} {tag : Tag} :
    U depth type unknown → type.accepts tag = false → IsField limit depth tag bytes →
    U depth type (unknown ++ bytes)

theorem Admits.note {limit : Nat} (hu : Admits limit U) (options : DecodeOptions) {m : Message}
    {tag : Tag} {bytes : Bytes} (h : m.Sound U d) (ha : m.type.accepts tag = false)
    (hf : IsField limit d tag bytes) :
    (options.note bytes m).type = m.type ∧ (options.note bytes m).Sound U d := by
  unfold DecodeOptions.note
  split
  · exact ⟨rfl, h⟩
  · exact ⟨rfl, h.unknown_append (hu.append h.here.2 ha hf)⟩

/-- Merging into two sound messages of one type leaves two sound messages of that type. -/
def Likeness.fitting (options options' : DecodeOptions) (U : Nat → MessageType → Bytes → Prop)
    (hu : Admits options.depthLimit U) : Likeness options options' where
  message d type m m' := m.type = type ∧ m'.type = type ∧ m.Sound U d ∧ m'.Sound U d
  slot d member s s' := s.Sound U d member ∧ s'.Sound U d member
  scalars kind ss ss' := (∀ s ∈ ss, s.kind = kind) ∧ ∀ s ∈ ss', s.kind = kind
  values d kind vs vs' := (∀ v ∈ vs, v.Sound U (d + 1) kind) ∧ ∀ v ∈ vs', v.Sound U (d + 1) kind
  type_eq := by
    rintro d type m m' ⟨h, h', -⟩
    rw [h, h']
  new d type := ⟨rfl, rfl, Message.sound_new hu.nil d type, Message.sound_new hu.nil d type⟩
  slot_of := by
    rintro d type m m' test i member ⟨h, h', hm, hm'⟩ hi
    have hi := Message.member?_eq_some hi
    exact ⟨hm.slot hi, hm'.slot (by rw [h', ← h]; exact hi)⟩
  of_slot := by
    rintro d type m m' test i member s s' ⟨h, h', hm, hm'⟩ hi ⟨hs, hs'⟩
    have hi := Message.member?_eq_some hi
    exact ⟨h, h', hm.set hi hs, hm'.set (by rw [h', ← h]; exact hi) hs'⟩
  note := by
    rintro d type m m' tag bytes ⟨h, h', hm, hm'⟩ ha hf
    have ha' : m'.type.accepts tag = false := by rw [h', ← h]; exact ha
    obtain ⟨ht, hs⟩ := hu.note options hm ha hf
    obtain ⟨ht', hs'⟩ := hu.note options' hm' ha' hf
    exact ⟨ht.trans h, ht'.trans h', hs, hs'⟩
  plain hs := ⟨⟨hs, List.forall_mem_nil _⟩, hs, List.forall_mem_nil _⟩
  optional hv := ⟨.optional (Value.Sound.of_like hv).1, .optional (Value.Sound.of_like hv).2⟩
  optionalMessage hs hk :=
    have h := hs.1.optionalMessage hu.nil hk
    have h' := hs.2.optionalMessage hu.nil hk
    ⟨h.1, h'.1, h.2, h'.2⟩
  unchosen _ _ := ⟨Slot.Sound.unchosen, Slot.Sound.unchosen⟩
  oneof hf hv := ⟨.oneof hf (Value.Sound.of_like hv).1, .oneof hf (Value.Sound.of_like hv).2⟩
  chosenMessage hs hf hk :=
    have h := hs.1.chosenMessage hu.nil hf hk
    have h' := hs.2.chosenMessage hu.nil hf hk
    ⟨h.1, h'.1, h.2, h'.2⟩
  packedScalars hs := ⟨hs.1.packedScalars, hs.2.packedScalars⟩
  setPackedScalars hs hss := ⟨hs.1.setPackedScalars hss.1, hs.2.setPackedScalars hss.2⟩
  push_scalar := by
    rintro kind ss ss' s ⟨h, h'⟩ hs
    refine ⟨fun x hx => ?_, fun x hx => ?_⟩
    · rcases List.mem_append.1 hx with hx | hx
      · exact h x hx
      · rw [List.mem_singleton.1 hx, hs]
    · rcases List.mem_append.1 hx with hx | hx
      · exact h' x hx
      · rw [List.mem_singleton.1 hx, hs]
  repeatedValues hs := ⟨hs.1.repeatedValues, hs.2.repeatedValues⟩
  setRepeatedValues hs hvs := ⟨hs.1.setRepeatedValues hvs.1, hs.2.setRepeatedValues hvs.2⟩
  push_value := by
    rintro d kind vs vs' v v' ⟨h, h'⟩ hv
    obtain ⟨hv, hv'⟩ := Value.Sound.of_like hv
    refine ⟨fun x hx => ?_, fun x hx => ?_⟩
    · rcases List.mem_append.1 hx with hx | hx
      · exact h x hx
      · rw [List.mem_singleton.1 hx]
        exact hv
    · rcases List.mem_append.1 hx with hx | hx
      · exact h' x hx
      · rw [List.mem_singleton.1 hx]
        exact hv'
  insert hs hk hv :=
    ⟨hs.1.insert hk (Value.Sound.of_like hv).1, hs.2.insert hk (Value.Sound.of_like hv).2⟩
  payload _ _ _ _ := ⟨⟨trivial, List.forall_mem_nil _⟩, trivial, List.forall_mem_nil _⟩

end

/-! ## What the state of a message does not matter to -/

namespace Message

open Comparison

/-- The message and all those inside it fit their types; anything may be unknown. -/
def WellTyped (m : Message) : Prop := m.Sound (fun _ _ _ => True) 0

theorem Everywhere.at {P Q : Nat → Message → Prop} (h : ∀ d d' m, P d m → Q d' m) {d : Nat}
    {m : Message} (hm : m.Everywhere P d) (d' : Nat) : m.Everywhere Q d' := by
  induction hm generalizing d' with
  | intro here _ ih => exact .intro (h _ d' _ here) fun c hc => ih c hc (d' + c.1)

theorem WellTyped.sound {m : Message} (h : m.WellTyped) (d : Nat) :
    m.Sound (fun _ _ _ => True) d := by
  refine Everywhere.at (P := fun _ m => m.Fits ∧ True) (fun _ _ _ h => h) h d

theorem Sound.wellTyped {U : Nat → MessageType → Bytes → Prop} {d : Nat} {m : Message}
    (h : m.Sound U d) : m.WellTyped :=
  Everywhere.at (P := fun d m => m.Fits ∧ U d m.type m.unknown) (fun _ _ _ h => ⟨h.1, trivial⟩) h 0

theorem admits_true (limit : Nat) : Admits limit fun _ _ _ => True :=
  ⟨fun _ _ => trivial, fun _ _ _ => trivial⟩

theorem wellTyped_new (type : MessageType) : (new type).WellTyped :=
  sound_new (U := fun _ _ _ => True) (fun _ _ => trivial) 0 type

variable {options : DecodeOptions}

theorem sound_mergeBody {U : Nat → MessageType → Bytes → Prop} (hu : Admits options.depthLimit U)
    {group? : Option Nat} {m m1 : Message} {r t : Reader} (hm : m.Sound U r.depth)
    (h : mergeBody options group? (m, r) = .ok () (m1, t)) :
    m1.type = m.type ∧ m1.Sound U r.depth := by
  have ho := builds_mergeBody (c := shifted options.depthLimit 0) (n := r.remaining)
    (d := r.depth) (Likeness.fitting options options U hu) rfl rfl group?
    (fun _ => rfl) m.type m m r _ ⟨rfl, rfl, hm, hm⟩ ⟨rfl, Nat.le_refl _, rfl⟩
  rw [h] at ho
  obtain ⟨_, _, -, -, ⟨ht, -, hs, -⟩, -⟩ := ho
  exact ⟨ht, hs⟩

/-- What can be merged into one message can be merged into every message of its type. -/
theorem mergeBody_of_type_eq {group? : Option Nat} {m m' m1 : Message} {r t : Reader}
    (hm : m.WellTyped) (hm' : m'.WellTyped) (htype : m'.type = m.type)
    (h : mergeBody options group? (m, r) = .ok () (m1, t)) :
    ∃ m1', mergeBody options group? (m', r) = .ok () (m1', t) ∧ m1'.type = m.type ∧
      m1'.WellTyped := by
  have ho := builds_mergeBody (c := shifted options.depthLimit 0) (n := r.remaining)
    (d := r.depth) (Likeness.fitting options options _ (admits_true _))
    rfl rfl group? (fun _ => rfl) m.type m m' r _
    ⟨rfl, htype, hm.sound r.depth, hm'.sound r.depth⟩ ⟨rfl, Nat.le_refl _, rfl⟩
  rw [h, reader_shifted, Nat.zero_add] at ho
  obtain ⟨_, ⟨m1', t'⟩, hy, -, ⟨-, ht, -, hs⟩, ht', -⟩ := ho
  rw [reader_shifted, Nat.zero_add] at ht'
  dsimp only at ht'
  rw [ht'] at hy
  exact ⟨m1', hy, ht, hs.wellTyped⟩

end Message

end Protobuf
