import Protobuf.Proofs.Comparison

/-!
# Comparing two mergings

Two readings that correspond also build corresponding messages. What corresponding messages are is
left open: a likeness is any relation that the steps of merging keep, so that one comparison serves
equal messages, messages without their unknown fields and messages that only share their type.
-/

namespace Protobuf

open Build

variable {σ τ σ' τ' α β γ δ : Type}

/-- A field of a kind holds messages of a type. -/
def FieldKind.holds (kind : FieldKind) (type : MessageType) : Prop :=
  kind = .message type ∨ kind = .group type

/-- The bytes are one field with the given tag that can be skipped where so many messages are
open. -/
def IsField (limit depth : Nat) (tag : Tag) (bytes : Bytes) : Prop :=
  ∃ r t u, r.depth = depth ∧ Reader.nextTag r = .ok (some tag) t ∧ tag.wireType ≠ .endGroup ∧
    Reader.skip limit tag t = .ok () u ∧ r.Consumes bytes u

/-- Adds a field to the unknown ones unless they are to be discarded. -/
def DecodeOptions.note (options : DecodeOptions) (bytes : Bytes) (m : Message) : Message :=
  if options.discardUnknown then m else m.appendUnknown bytes

/-- Values of a kind, alike up to their messages. -/
def FieldKind.Like (message : MessageType → Message → Message → Prop) :
    FieldKind → Value Message → Value Message → Prop
  | scalar kind, v, v' => ∃ s, v = .scalar s ∧ v' = .scalar s ∧ s.kind = kind
  | .message type, v, v' | group type, v, v' =>
    ∃ m m', v = .message m ∧ v' = .message m' ∧ message type m m'

/-- When two messages, and two slots of a member, are alike where so many messages are open. Every
step of merging keeps this. -/
structure Likeness (options options' : DecodeOptions) where
  /-- Messages that stand where those of a type do are alike. -/
  message (depth : Nat) (type : MessageType) : Message → Message → Prop
  /-- Slots of a member are alike. -/
  slot (depth : Nat) (member : Member) : Slot Message → Slot Message → Prop
  /-- The scalars of packed fields are alike. -/
  scalars (kind : ScalarKind) : List Scalar → List Scalar → Prop
  /-- The values of repeated fields are alike. -/
  values (depth : Nat) (kind : FieldKind) : List (Value Message) → List (Value Message) → Prop
  type_eq {d type m m'} : message d type m m' → m'.type = m.type
  new (d type) : message d type (.new type) (.new type)
  slot_of {d type m m' test i member} : message d type m m' →
    Message.member? m.type test = some (i, member) →
    slot d member (m.slots.getD i member.initial) (m'.slots.getD i member.initial)
  of_slot {d type m m' test i member s s'} : message d type m m' →
    Message.member? m.type test = some (i, member) → slot d member s s' →
    message d type { m with slots := m.slots.set i s } { m' with slots := m'.slots.set i s' }
  note {d type m m' tag bytes} : message d type m m' → m.type.accepts tag = false →
    IsField options.depthLimit d tag bytes →
    message d type (options.note bytes m) (options'.note bytes m')
  plain {d number name kind s} : s.kind = kind →
    slot d (.plain number name kind) (.plain s) (.plain s)
  optional {d field required v v'} : field.kind.Like (message (d + 1)) v v' →
    slot d (.optional field required) (.optional (some v)) (.optional (some v'))
  optionalMessage {d field required type s s'} : slot d (.optional field required) s s' →
    field.kind.holds type → message (d + 1) type (s.optionalMessage type) (s'.optionalMessage type)
  unchosen (d fields) : slot d (.oneof fields) (.oneof none) (.oneof none)
  oneof {d fields field number v v'} : fields.find? (·.number = number) = some field →
    field.kind.Like (message (d + 1)) v v' →
    slot d (.oneof fields) (.oneof (some (number, v))) (.oneof (some (number, v')))
  chosenMessage {d fields field number type s s'} : slot d (.oneof fields) s s' →
    fields.find? (·.number = number) = some field → field.kind.holds type →
    message (d + 1) type (s.chosenMessage number type) (s'.chosenMessage number type)
  packedScalars {d number name kind s s'} : slot d (.packed number name kind) s s' →
    scalars kind s.packedScalars s'.packedScalars
  setPackedScalars {d number name kind s s' ss ss'} : slot d (.packed number name kind) s s' →
    scalars kind ss ss' →
    slot d (.packed number name kind) (s.setPackedScalars ss) (s'.setPackedScalars ss')
  push_scalar {kind ss ss' s} : scalars kind ss ss' → s.kind = kind →
    scalars kind (ss ++ [s]) (ss' ++ [s])
  repeatedValues {d field s s'} : slot d (.repeated field) s s' →
    values d field.kind s.repeatedValues s'.repeatedValues
  setRepeatedValues {d field s s' vs vs'} : slot d (.repeated field) s s' →
    values d field.kind vs vs' →
    slot d (.repeated field) (s.setRepeatedValues vs) (s'.setRepeatedValues vs')
  push_value {d kind vs vs' v v'} : values d kind vs vs' → kind.Like (message (d + 1)) v v' →
    values d kind (vs ++ [v]) (vs' ++ [v'])
  insert {d number name key kind s s' k v v'} : slot d (.map number name key kind) s s' →
    k.kind = key → kind.Like (message (d + 2)) v v' →
    slot d (.map number name key kind) (.map (insertEntry k v s.mapEntries))
      (.map (insertEntry k v' s'.mapEntries))
  payload (d number name bytes) :
    slot d (.payload number name) (.payload (.serialized bytes)) (.payload (.serialized bytes))

namespace Comparison

variable {c : Comparison}

/-- The builders correspond on readers with at most so many bytes left and so many messages open,
and on values that are related. -/
def Builds (c : Comparison) (n d : Nat) (R : σ → σ' → Prop) (Q : α → β → Prop)
    (x : Build Reader σ α) (y : Build Reader σ' β) : Prop :=
  ∀ s s' r t, R s s' → c.At n d r t →
    c.Outcome (fun p q => R p.1 q.1 ∧ c.At n d p.2 q.2)
      (fun p q => R p.1 q.1 ∧ q.2 = c.reader p.2) Q (x (s, r)) (y (s', t))

/-- Reading leaves the values that are built as they are. -/
theorem Outcome.read {S E : Reader → Reader → Prop} {R : σ → σ' → Prop} {Q : α → β → Prop}
    {x : Reading Reader α} {y : Reading Reader β} {r t : Reader} (h : c.Outcome S E Q (x r) (y t))
    {s : σ} {s' : σ'} (hs : R s s') :
    c.Outcome (fun p q => R p.1 q.1 ∧ S p.2 q.2) (fun p q => R p.1 q.1 ∧ E p.2 q.2) Q
      (read x (s, r)) (read y (s', t)) := by
  rw [run_read, run_read]
  cases hx : x r with
  | ok a u =>
    rw [hx] at h
    obtain ⟨b, u', hy, hq, hu⟩ := h
    rw [hy]
    exact Outcome.ok hq ⟨hs, hu⟩
  | error e u =>
    rw [hx] at h
    rcases h with h | ⟨u', hy, hu⟩
    · exact Or.inl h
    · rw [hy]
      exact Outcome.error ⟨hs, hu⟩

/-- What becomes of a part becomes of the whole that it is put back into. -/
theorem Outcome.zoom {S E : Reader → Reader → Prop} {R : σ → σ' → Prop} {R' : τ → τ' → Prop}
    {Q : α → β → Prop} {part : σ → τ} {part' : σ' → τ'} {put : σ → τ → σ} {put' : σ' → τ' → σ'}
    {x : Build Reader τ α} {y : Build Reader τ' β} {s : σ} {s' : σ'} {r t : Reader}
    (h : c.Outcome (fun p q => R' p.1 q.1 ∧ S p.2 q.2) (fun p q => R' p.1 q.1 ∧ E p.2 q.2) Q
      (x (part s, r)) (y (part' s', t)))
    (hput : ∀ u u', R' u u' → R (put s u) (put' s' u')) :
    c.Outcome (fun p q => R p.1 q.1 ∧ S p.2 q.2) (fun p q => R p.1 q.1 ∧ E p.2 q.2) Q
      (zoom part put x (s, r)) (zoom part' put' y (s', t)) := by
  rw [run_zoom, run_zoom]
  rcases hx : x (part s, r) with ⟨a, u, p⟩ | ⟨e, u, p⟩
  · rw [hx] at h
    obtain ⟨b, ⟨u', q⟩, hy, hq, hu, hp⟩ := h
    rw [hy]
    exact Outcome.ok hq ⟨hput u u' hu, hp⟩
  · rw [hx] at h
    rcases h with h | ⟨⟨u', q⟩, hy, hu, hp⟩
    · exact Or.inl h
    · rw [hy]
      exact Outcome.error ⟨hput u u' hu, hp⟩

namespace Builds

variable {n d : Nat} {R : σ → σ' → Prop} {P : γ → δ → Prop} {Q : α → β → Prop}

theorem pure {a : α} {b : β} (h : Q a b) : c.Builds n d R Q (pure a) (pure b) :=
  fun _ _ _ _ hs hr => Outcome.ok h ⟨hs, hr⟩

theorem throw (e : Error) : c.Builds n d R Q (throw e) (throw (e.shift c.offset)) :=
  fun _ _ _ _ hs hr => Outcome.error ⟨hs, hr.1⟩

theorem bind {x : Build Reader σ γ} {y : Build Reader σ' δ} {f : γ → Build Reader σ α}
    {g : δ → Build Reader σ' β} (hx : c.Builds n d R P x y)
    (hf : ∀ a b, P a b → c.Builds n d R Q (f a) (g b)) : c.Builds n d R Q (x >>= f) (y >>= g) := by
  intro s s' r t hs hr
  refine (hx s s' r t hs hr).bind ?_
  rintro a b ⟨u, p⟩ ⟨u', q⟩ - hab ⟨hu, hp⟩
  exact hf a b hab u u' p q hu hp

theorem read {x : Reading Reader α} {y : Reading Reader β} (h : c.Reads n d Q x y) :
    c.Builds n d R Q (read x) (read y) :=
  fun _ _ r t hs hr => (h r t hr).read hs

theorem source : c.Builds n d R (c.At n d) source source :=
  fun _ _ _ _ hs hr => Outcome.ok hr ⟨hs, hr⟩

theorem current : c.Builds n d R R current current :=
  fun _ _ _ _ hs hr => Outcome.ok hs ⟨hs, hr⟩

theorem put {s : σ} {s' : σ'} (h : R s s') :
    c.Builds n d R (fun _ _ => True) (put s) (put s') :=
  fun _ _ _ _ _ hr => Outcome.ok trivial ⟨h, hr⟩

theorem update {f : σ → σ} {g : σ' → σ'} (h : ∀ s s', R s s' → R (f s) (g s')) :
    c.Builds n d R (fun _ _ => True) (update f) (update g) :=
  fun s s' _ _ hs hr => Outcome.ok trivial ⟨h s s' hs, hr⟩

theorem mono {n' : Nat} {x : Build Reader σ α} {y : Build Reader σ' β} (h : c.Builds n' d R Q x y)
    {s : σ} {s' : σ'} {r t : Reader} (hs : R s s') (hr : c.At n' d r t) (hn : n' ≤ n) :
    c.Outcome (fun p q => R p.1 q.1 ∧ c.At n d p.2 q.2)
      (fun p q => R p.1 q.1 ∧ q.2 = c.reader p.2) Q (x (s, r)) (y (s', t)) :=
  (h s s' r t hs hr).mono (fun _ _ hp => ⟨hp.1, hp.2.mono hn⟩) (fun _ _ hp => hp) fun _ _ hq => hq

/-- Parts of related values are built. -/
theorem zoom {T : τ → τ' → Prop} {part : σ → τ} {part' : σ' → τ'} {put : σ → τ → σ}
    {put' : σ' → τ' → σ'} {x : Build Reader τ α} {y : Build Reader τ' β}
    (h : c.Builds n d T Q x y) (hpart : ∀ s s', R s s' → T (part s) (part' s'))
    (hput : ∀ s s' t t', R s s' → T t t' → R (put s t) (put' s' t')) :
    c.Builds n d R Q (zoom part put x) (zoom part' put' y) :=
  fun s s' r t hs hr =>
    Outcome.zoom (E := fun r t => t = c.reader r) (h _ _ r t (hpart s s' hs) hr)
      fun u u' => hput s s' u u' hs

/-- Values are built from related ones. -/
theorem alone {x : Build Reader σ Unit} {y : Build Reader σ' Unit}
    (h : c.Builds n d R (fun _ _ => True) x y) {s : σ} {s' : σ'} (hs : R s s') :
    c.Reads n d R (alone s x) (alone s' y) := by
  intro r t hr
  have ho := h s s' r t hs hr
  rw [run_alone, run_alone]
  rcases hx : x (s, r) with ⟨a, u, p⟩ | ⟨e, u, p⟩
  · rw [hx] at ho
    obtain ⟨b, ⟨u', q⟩, hy, -, hu, hp⟩ := ho
    rw [hy]
    exact Outcome.ok hu hp
  · rw [hx] at ho
    rcases ho with ho | ⟨⟨u', q⟩, hy, -, hp⟩
    · exact Or.inl ho
    · rw [hy]
      exact Outcome.error hp

/-- Inside a region neither reading sees what stands behind it. -/
theorem within {x : Build Reader σ α} {y : Build Reader σ' β} (h : c.closed.Builds n d R Q x y) :
    c.Builds n d R Q (Reader.within x) (Reader.within y) := by
  intro s s' r t hs hr
  refine (read reads_length s s' r t hs hr).bind ?_
  rintro count _ ⟨s, u⟩ ⟨s', _⟩ hl rfl ⟨hs, rfl, hu, hd⟩
  have hle := Reader.length_le (read_eq_ok.1 hl).1
  have hle' : count ≤ u.rest.length := hle
  have hregion : ({ c.reader u with rest := (c.reader u).rest.take count } : Reader) =
      c.closed.reader { u with rest := u.rest.take count } := by
    simp [reader, closed, List.take_append_of_le_length hle']
  have hdrop : (c.reader u).rest.drop count = u.rest.drop count ++ c.behind :=
    List.drop_append_of_le_length hle
  have hn : (u.rest.take count).length ≤ n := by
    rw [List.length_take]
    change u.rest.length ≤ n at hu
    omega
  have ho := h s s' _ _ hs (⟨rfl, hn, hd⟩ : c.closed.At n d { u with rest := u.rest.take count } _)
  dsimp only
  rw [hregion, hdrop]
  rcases hx : x (s, { u with rest := u.rest.take count }) with ⟨a, s1, v⟩ | ⟨e, s1, v⟩
  · rw [hx] at ho
    obtain ⟨b, ⟨s1', _⟩, hy, hq, hs1, rfl, hv, hvd⟩ := ho
    rw [hy]
    have hrest : (c.closed.reader v).rest = v.rest := List.append_nil _
    dsimp only
    rw [hrest]
    by_cases he : v.rest.isEmpty
    · rw [if_pos he, if_pos he]
      refine Outcome.ok hq ⟨hs1, rfl, ?_, hvd⟩
      change (u.rest.drop count).length ≤ n
      rw [List.length_drop]
      change u.rest.length ≤ n at hu
      omega
    · rw [if_neg he, if_neg he]
      by_cases hb : c.behind = []
      · rw [reader_closed c hb]
        exact Outcome.error ⟨hs1, rfl⟩
      · exact Or.inl (Or.inl hb)
  · rw [hx] at ho
    rcases ho with ho | ⟨⟨s1', _⟩, hy, hs1, rfl⟩
    · exact Or.inl ho.of_closed
    · rw [hy]
      refine Outcome.error ⟨hs1, ?_⟩
      simp [reader, closed, List.append_assoc]

end Builds

end Comparison

end Protobuf
