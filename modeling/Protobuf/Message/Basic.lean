import Protobuf.Schema.Catalogue

/-!
# Messages

A message has one slot for each member of its type, in the same order, and the bytes of the fields
that its type does not know. The slots hold messages in turn; `Message.fold` is the recursion over
them.
-/

namespace Protobuf

variable {M α β : Type}

/-- A single value of a field. -/
inductive Value (M : Type) where
  /-- A scalar. -/
  | scalar (scalar : Scalar)
  /-- A message. -/
  | message (message : M)
  deriving DecidableEq, Repr

/-- The message that an `Any` carries. -/
inductive Payload (M : Type) where
  /-- Bytes that nobody has decoded yet. -/
  | serialized (bytes : Bytes)
  /-- A message whose bytes nobody has asked for yet. -/
  | held (message : M)
  deriving DecidableEq, Repr

/-- The state of one member of a message. -/
inductive Slot (M : Type) where
  /-- The value of a scalar without presence. -/
  | plain (scalar : Scalar)
  /-- The value of an optional field, if it is set. -/
  | optional (value : Option (Value M))
  /-- The values of a packed field. -/
  | packed (scalars : List Scalar)
  /-- The values of a repeated field. -/
  | repeated (values : List (Value M))
  /-- The entries of a map field, by ascending key. -/
  | map (entries : List (Scalar × Value M))
  /-- The field of a oneof that is set, by number, with its value. -/
  | oneof (choice : Option (Nat × Value M))
  /-- What an `Any` carries. -/
  | payload (payload : Payload M)
  deriving DecidableEq, Repr

/-- A message of some type. -/
structure Message where
  /-- The message's type. -/
  type : MessageType
  /-- The state of each member of the type. -/
  slots : List (Slot Message)
  /-- The fields that the type does not know, as they were read. -/
  unknown : Bytes
  deriving Repr

/-- The slot of a member that was never set. -/
def Member.initial : Member → Slot M
  | plain _ _ kind => .plain kind.zero
  | optional _ _ => .optional none
  | packed _ _ _ => .packed []
  | repeated _ => .repeated []
  | map _ _ _ _ => .map []
  | oneof _ => .oneof none
  | payload _ _ => .payload (.serialized [])

/-- The message of a type with nothing set. -/
def Message.new (type : MessageType) : Message := ⟨type, type.members.map Member.initial, []⟩

instance : Inhabited Message := ⟨.new .empty⟩

/-- Appends bytes to the unknown fields. -/
def Message.appendUnknown (bytes : Bytes) (m : Message) : Message :=
  { m with unknown := m.unknown ++ bytes }

/-- Drops the unknown fields. -/
def Message.clearUnknown (m : Message) : Message := { m with unknown := [] }

/-! ## Messages inside slots -/

namespace Value

/-- Replaces the message. -/
def map (f : M → α) : Value M → Value α
  | scalar s => scalar s
  | message m => message (f m)

/-- The message, if the value is one. -/
def children : Value M → List M
  | scalar _ => []
  | message m => [m]

/-- Replaces the message by a function that may use what is known about it. -/
def pmap {P : M → Prop} (f : (m : M) → P m → α) :
    (v : Value M) → (∀ m ∈ v.children, P m) → Value α
  | scalar s, _ => scalar s
  | message m, h => message (f m (h m (by simp [children])))

theorem pmap_eq_map {P : M → Prop} (f : M → α) (v : Value M) (h : ∀ m ∈ v.children, P m) :
    v.pmap (fun m _ => f m) h = v.map f := by
  cases v <;> rfl

theorem children_map (f : M → α) (v : Value M) : (v.map f).children = v.children.map f := by
  cases v <;> rfl

theorem map_map (f : M → α) (g : α → β) (v : Value M) : (v.map f).map g = v.map (g ∘ f) := by
  cases v <;> rfl

theorem sizeOf_child [SizeOf M] {v : Value M} {m : M} (h : m ∈ v.children) :
    sizeOf m < sizeOf v := by
  cases v <;> simp_all [children]

end Value

namespace Payload

/-- Replaces the message. -/
def map (f : M → α) : Payload M → Payload α
  | serialized bytes => serialized bytes
  | held m => held (f m)

/-- The message, if it is held. -/
def children : Payload M → List M
  | serialized _ => []
  | held m => [m]

/-- The bytes, serializing a message that is held. -/
def bytes (encode : M → Bytes) : Payload M → Bytes
  | serialized bytes => bytes
  | held m => encode m

/-- Replaces the message by a function that may use what is known about it. -/
def pmap {P : M → Prop} (f : (m : M) → P m → α) :
    (p : Payload M) → (∀ m ∈ p.children, P m) → Payload α
  | serialized bytes, _ => serialized bytes
  | held m, h => held (f m (h m (by simp [children])))

theorem pmap_eq_map {P : M → Prop} (f : M → α) (p : Payload M) (h : ∀ m ∈ p.children, P m) :
    p.pmap (fun m _ => f m) h = p.map f := by
  cases p <;> rfl

theorem children_map (f : M → α) (p : Payload M) : (p.map f).children = p.children.map f := by
  cases p <;> rfl

theorem sizeOf_child [SizeOf M] {p : Payload M} {m : M} (h : m ∈ p.children) :
    sizeOf m < sizeOf p := by
  cases p <;> simp_all [children]

end Payload

namespace Slot

/-- Replaces every message. -/
def mapMessages (f : M → α) : Slot M → Slot α
  | plain s => plain s
  | optional v => optional (v.map (Value.map f))
  | packed ss => packed ss
  | repeated vs => repeated (vs.map (Value.map f))
  | map es => map (es.map fun e => (e.1, e.2.map f))
  | oneof c => oneof (c.map fun e => (e.1, e.2.map f))
  | payload p => payload (p.map f)

/-- The messages in the slot, in order. -/
def children : Slot M → List M
  | plain _ | packed _ => []
  | optional v => v.toList.flatMap Value.children
  | repeated vs => vs.flatMap Value.children
  | map es => es.flatMap fun e => e.2.children
  | oneof c => c.toList.flatMap fun e => e.2.children
  | payload p => p.children

/-- Replaces every message by a function that may use what is known about it. -/
def pmapMessages {P : M → Prop} (f : (m : M) → P m → α) :
    (s : Slot M) → (∀ m ∈ s.children, P m) → Slot α
  | plain s, _ => plain s
  | packed ss, _ => packed ss
  | optional none, _ => optional none
  | optional (some v), h => optional (some (v.pmap f (by simpa [children] using h)))
  | repeated vs, h =>
    repeated (vs.pmap (fun v hv => v.pmap f hv) fun v hv m hm =>
      h m (List.mem_flatMap.2 ⟨v, hv, hm⟩))
  | map es, h =>
    map (es.pmap (fun e he => (e.1, e.2.pmap f he)) fun e he m hm =>
      h m (List.mem_flatMap.2 ⟨e, he, hm⟩))
  | oneof none, _ => oneof none
  | oneof (some e), h => oneof (some (e.1, e.2.pmap f (by simpa [children] using h)))
  | payload p, h => payload (p.pmap f h)

theorem pmapMessages_eq_mapMessages {P : M → Prop} (f : M → α) (s : Slot M)
    (h : ∀ m ∈ s.children, P m) : s.pmapMessages (fun m _ => f m) h = s.mapMessages f := by
  cases s with
  | plain _ | packed _ => rfl
  | optional v =>
    cases v with
    | none => rfl
    | some v => simp [pmapMessages, mapMessages, Value.pmap_eq_map]
  | repeated vs => simp [pmapMessages, mapMessages, Value.pmap_eq_map, List.pmap_eq_map]
  | map es => simp [pmapMessages, mapMessages, Value.pmap_eq_map, List.pmap_eq_map]
  | oneof c =>
    cases c with
    | none => rfl
    | some e => simp [pmapMessages, mapMessages, Value.pmap_eq_map]
  | payload p => exact congrArg payload (Payload.pmap_eq_map f p h)

theorem mapMessages_congr {f g : M → α} {s : Slot M} (h : ∀ m ∈ s.children, f m = g m) :
    s.mapMessages f = s.mapMessages g := by
  have hfg : (fun (m : M) (_ : f m = g m) => f m) = fun m _ => g m := by
    funext m hm
    exact hm
  rw [← pmapMessages_eq_mapMessages f s h, hfg, pmapMessages_eq_mapMessages]

theorem mapMessages_id (s : Slot M) : s.mapMessages id = s := by
  have hid : (Value.map id : Value M → Value M) = id := by
    funext v
    cases v <;> rfl
  cases s with
  | payload p => cases p <;> rfl
  | _ => simp [mapMessages, hid]

theorem children_mapMessages (f : M → α) (s : Slot M) :
    (s.mapMessages f).children = s.children.map f := by
  cases s with
  | plain _ | packed _ => rfl
  | optional v => cases v <;> simp [mapMessages, children, Value.children_map]
  | repeated vs => simp [mapMessages, children, Value.children_map, List.flatMap_map,
      List.map_flatMap]
  | map es => simp [mapMessages, children, Value.children_map, List.flatMap_map, List.map_flatMap]
  | oneof c => cases c <;> simp [mapMessages, children, Value.children_map]
  | payload p => exact Payload.children_map f p

theorem sizeOf_child [SizeOf M] {s : Slot M} {m : M} (h : m ∈ s.children) :
    sizeOf m < sizeOf s := by
  cases s with
  | plain _ | packed _ => simp [children] at h
  | optional v =>
    cases v with
    | none => simp [children] at h
    | some v =>
      have := Value.sizeOf_child (v := v) (by simpa [children] using h)
      simp
      omega
  | repeated vs =>
    obtain ⟨v, hv, hm⟩ := List.mem_flatMap.1 h
    have := Value.sizeOf_child hm
    have := List.sizeOf_lt_of_mem hv
    simp
    omega
  | map es =>
    obtain ⟨⟨k, v⟩, hv, hm⟩ := List.mem_flatMap.1 h
    have := Value.sizeOf_child hm
    have := List.sizeOf_lt_of_mem hv
    simp at *
    omega
  | oneof c =>
    cases c with
    | none => simp [children] at h
    | some e =>
      obtain ⟨n, v⟩ := e
      have := Value.sizeOf_child (v := v) (by simpa [children] using h)
      simp
      omega
  | payload p =>
    have := Payload.sizeOf_child (p := p) h
    simp
    omega

end Slot

/-! ## Recursion -/

namespace Message

variable {α : Type}

/-- The messages directly inside a message, in order. -/
def children (m : Message) : List Message := m.slots.flatMap Slot.children

theorem sizeOf_slot_child {m c : Message} {s : Slot Message} (hs : s ∈ m.slots)
    (hc : c ∈ s.children) : sizeOf c < sizeOf m := by
  have := Slot.sizeOf_child hc
  have := List.sizeOf_lt_of_mem hs
  cases m
  simp at *
  omega

theorem sizeOf_child {m c : Message} (h : c ∈ m.children) : sizeOf c < sizeOf m := by
  obtain ⟨s, hs, hc⟩ := List.mem_flatMap.1 h
  exact sizeOf_slot_child hs hc

/-- What holds of a message when it holds of all messages directly inside it, holds of all. -/
theorem induction {P : Message → Prop} (step : ∀ m, (∀ c ∈ m.children, P c) → P m)
    (m : Message) : P m :=
  step m fun c h => have := sizeOf_child h; induction step c
termination_by sizeOf m

/-- Computes a result from a message's slots, in which every message stands beside its own
result. -/
def fold (combine : MessageType → List (Slot (Message × α)) → Bytes → α) (m : Message) : α :=
  combine m.type
    (m.slots.pmap (P := fun s => ∀ c ∈ s.children, sizeOf c < sizeOf m)
      (fun s hs => s.pmapMessages (fun c _ => (c, fold combine c)) hs)
      fun _ hs _ hc => sizeOf_slot_child hs hc) m.unknown
termination_by sizeOf m

theorem fold_eq (combine : MessageType → List (Slot (Message × α)) → Bytes → α) (m : Message) :
    m.fold combine =
      combine m.type (m.slots.map (Slot.mapMessages fun c => (c, c.fold combine))) m.unknown := by
  rw [fold]
  simp [Slot.pmapMessages_eq_mapMessages, List.pmap_eq_map]

end Message

end Protobuf
