import Mathlib.Data.List.Dedup
import Protobuf.Registry

/-!
# Histories of registrations

A program makes registries, clones their handles and registers and looks up types through them, in
any order. What a registry answers is decided by the types that were registered in it so far,
through whichever handle: the first one under a name keeps it
(`TypeRegistry.Store.answers_of_history`).
-/

namespace Protobuf

namespace TypeRegistry

open NamedTypes (fullName)

variable {τ : Type} [NamedTypes τ]

/-! ## One registry -/

section

variable [DecidableEq τ] {registry : TypeRegistry τ} {type : τ}

/-- A name that is taken stays as it is. -/
theorem register_of_find? {other : τ} (h : registry.find? (fullName type) = some other) :
    registry.register type = (registry, decide (other = type)) := by
  unfold register
  split
  · rename_i found hfound
    rw [h] at hfound
    obtain rfl := Option.some.inj hfound
    rfl
  · rename_i hfound
    rw [h] at hfound
    cases hfound

/-- A free name is given to the type. -/
theorem register_of_find?_eq_none (h : registry.find? (fullName type) = none) :
    (registry.register type).1.types = registry.types ++ [type] ∧
      (registry.register type).2 = true := by
  unfold register
  split
  · rename_i found hfound
    rw [h] at hfound
    cases hfound
  · exact ⟨rfl, rfl⟩

theorem register_snd_iff :
    (registry.register type).2 = true ↔
      ∀ other, registry.find? (fullName type) = some other → other = type := by
  cases h : registry.find? (fullName type) with
  | none => simp [(register_of_find?_eq_none h).2]
  | some other => simp [register_of_find? h]

/-- Only free names are given away. -/
theorem find?_register (name : String) :
    (registry.register type).1.find? name =
      (registry.find? name).or ([type].find? (fullName · = name)) := by
  cases h : registry.find? (fullName type) with
  | none => rw [find?, (register_of_find?_eq_none h).1, List.find?_append, find?]
  | some other =>
    rw [register_of_find? h]
    by_cases hname : fullName type = name
    · rw [← hname, h, Option.some_or]
    · rw [List.find?_cons_of_neg (by simpa using hname), List.find?_nil, Option.or_none]

theorem find?_registerAll (registry : TypeRegistry τ) (types : List τ) (name : String) :
    (registry.registerAll types).find? name =
      (registry.find? name).or (types.find? (fullName · = name)) := by
  induction types generalizing registry with
  | nil => exact (Option.or_none ..).symm
  | cons type types ih =>
    calc (registry.registerAll (type :: types)).find? name
        = ((registry.register type).1.registerAll types).find? name := rfl
      _ = (registry.find? name).or
            (([type].find? (fullName · = name)).or (types.find? (fullName · = name))) := by
        rw [ih, find?_register, Option.or_assoc]
      _ = (registry.find? name).or ((type :: types).find? (fullName · = name)) := by
        rw [← List.find?_append, List.singleton_append]

theorem registerAll_append (registry : TypeRegistry τ) (types types' : List τ) :
    registry.registerAll (types ++ types') = (registry.registerAll types).registerAll types' :=
  List.foldl_append

theorem registerAll_singleton (registry : TypeRegistry τ) (type : τ) :
    registry.registerAll [type] = (registry.register type).1 := rfl

end

/-- The type that comes first under a name. -/
def firstUnder (history : List τ) (name : String) : Option τ :=
  history.find? (fullName · = name)

theorem firstUnder_eq_none {history : List τ} {name : String} :
    firstUnder history name = none ↔ ∀ type ∈ history, fullName type ≠ name := by
  simp [firstUnder, List.find?_eq_none]

theorem mem_names {types : List τ} {name : String} :
    name ∈ types.map fullName ↔ (firstUnder types name).isSome = true := by
  simp [firstUnder, List.find?_isSome]

section

variable [DecidableEq τ] (history : List τ)

/-- A registry finds what was registered first. -/
theorem find?_of_history (name : String) :
    (empty.registerAll history).find? name = firstUnder history name :=
  find?_registerAll empty history name

theorem mem_types_of_history (name : String) :
    name ∈ (empty.registerAll history).types.map fullName ↔
      name ∈ history.map fullName := by
  rw [mem_names, mem_names]
  exact iff_of_eq (congrArg (Option.isSome · = true) (find?_of_history history name))

theorem size_of_history :
    (empty.registerAll history).size = (history.map fullName).dedup.length := by
  have hperm : ((empty.registerAll history).types.map fullName).Perm
      (history.map fullName).dedup := by
    refine (List.perm_ext_iff_of_nodup (empty.registerAll history).distinct
      (List.nodup_dedup _)).2 fun name => ?_
    rw [List.mem_dedup, mem_types_of_history]
  rw [size, ← hperm.length_eq, List.length_map]

end

theorem mem_names_iff {registry : TypeRegistry τ} {name : String} :
    name ∈ registry.names ↔ name ∈ registry.types.map fullName :=
  (List.mergeSort_perm _ _).mem_iff

/-- The names come in order, each of them once. -/
theorem ascending_names (registry : TypeRegistry τ) : registry.names.Pairwise (· < ·) := by
  have htrans : ∀ a b c : String, decide (a ≤ b) = true → decide (b ≤ c) = true →
      decide (a ≤ c) = true := fun a b c hab hbc =>
    decide_eq_true (String.le_trans (of_decide_eq_true hab) (of_decide_eq_true hbc))
  have htotal : ∀ a b : String, (decide (a ≤ b) || decide (b ≤ a)) = true := fun a b => by
    simpa using String.le_total a b
  have hsorted : registry.names.Pairwise (· ≤ ·) :=
    (List.pairwise_mergeSort htrans htotal _).imp of_decide_eq_true
  have hnodup : registry.names.Nodup := (List.mergeSort_perm _ _).nodup_iff.2 registry.distinct
  refine hsorted.imp₂ (fun a b hle hne => ?_) hnodup
  exact Std.lt_of_le_of_ne hle hne

/-! ## Programs -/

/-- How a registry is made. -/
inductive Origin (τ : Type) where
  /-- Without any type. -/
  | empty
  /-- With `Any`. -/
  | standard
  /-- With `Any` and the types of a catalogue. -/
  | catalogue (types : List τ)

namespace Origin

/-- The registry that is made. -/
def registry [DecidableEq τ] : Origin τ → TypeRegistry τ
  | empty => .empty
  | standard => .standard
  | catalogue types => TypeRegistry.standard.registerAll types

/-- The types that are registered on the way, in order. -/
def types : Origin τ → List τ
  | empty => []
  | standard => [NamedTypes.any]
  | catalogue types => NamedTypes.any :: types

theorem registry_eq [DecidableEq τ] (origin : Origin τ) :
    origin.registry = TypeRegistry.empty.registerAll origin.types := by
  cases origin <;> rfl

end Origin

/-- The registries of a program, and for each of its handles the place of the registry. -/
structure Store (τ : Type) [NamedTypes τ] where
  /-- The registries. -/
  pool : Pool τ
  /-- The places behind the handles. -/
  handles : List Nat

/-- What a registry can be asked. -/
inductive Question where
  /-- Which type a name or a type URL stands for. -/
  | lookup (url : String)
  /-- Whether a name or a type URL stands for a type. -/
  | isRegistered (url : String)
  /-- How many names are registered. -/
  | size
  /-- Which names are registered. -/
  | names

/-- What a program does with registries. A handle is known by its number. -/
inductive Operation (τ : Type) where
  /-- Makes a registry and a handle to it. -/
  | create (origin : Origin τ)
  /-- Clones a handle. -/
  | clone (handle : Nat)
  /-- Registers a type. -/
  | register (handle : Nat) (type : τ)
  /-- Asks for something. -/
  | ask (handle : Nat) (question : Question)

/-- What a program is told. -/
inductive Answer (τ : Type) where
  /-- The number of the new handle. -/
  | handle (handle : Nat)
  /-- Whether the name now stands for the type. -/
  | registered (added : Bool)
  /-- The type that was found. -/
  | found (type? : Option τ)
  /-- Whether a type was found. -/
  | known (found : Bool)
  /-- The number of names. -/
  | size (size : Nat)
  /-- The names. -/
  | names (names : List String)
  /-- There is no such handle. -/
  | noHandle

/-- What a registry answers. -/
def Question.answer (registry : TypeRegistry τ) : Question → Answer τ
  | lookup url => .found (registry.lookup? url)
  | isRegistered url => .known (registry.lookup? url).isSome
  | size => .size registry.size
  | names => .names registry.names

namespace Store

/-- No registries and no handles. -/
def start : Store τ := ⟨[], []⟩

/-- Every handle belongs to a registry. -/
def Valid (store : Store τ) : Prop := ∀ place ∈ store.handles, place < store.pool.length

theorem valid_start : (start : Store τ).Valid := fun _ h => absurd h List.not_mem_nil

variable {store : Store τ}

theorem Valid.lt (hv : store.Valid) {handle place : Nat}
    (h : store.handles[handle]? = some place) : place < store.pool.length :=
  hv place (List.mem_of_getElem? h)

/-! ### Places in the pool -/

theorem get_append (pool : Pool τ) (registry : TypeRegistry τ) (place : Nat) :
    Pool.get (pool ++ [registry]) place =
      if place = pool.length then registry else pool.get place := by
  simp only [Pool.get, List.getD_eq_getElem?_getD]
  split
  · rename_i he
    rw [he, List.getElem?_concat_length]
    rfl
  · rename_i hne
    by_cases hlt : place < pool.length
    · rw [List.getElem?_append_left hlt]
    · have hle : pool.length + 1 ≤ place := by omega
      rw [List.getElem?_eq_none (by simpa using hle), List.getElem?_eq_none (by omega)]

theorem get_set (pool : Pool τ) {place : Nat} (h : place < pool.length) (registry : TypeRegistry τ)
    (other : Nat) :
    Pool.get (pool.set place registry) other =
      if place = other then registry else pool.get other := by
  simp only [Pool.get, List.getD_eq_getElem?_getD, List.getElem?_set, if_pos h]
  split <;> rfl

theorem set_get_self (pool : Pool τ) {place : Nat} (h : place < pool.length) :
    pool.set place (pool.get place) = pool := by
  simp [Pool.get, List.getD_eq_getElem?_getD, h]

/-! ### Operations -/

/-- The types that an operation registers in the registry at a place. -/
def registers (store : Store τ) (place : Nat) : Operation τ → List τ
  | .create origin => if place = store.pool.length then origin.types else []
  | .register handle type => if store.handles[handle]? = some place then [type] else []
  | .clone _ | .ask _ _ => []

variable [DecidableEq τ]

/-- What a program is told, and the store afterwards. -/
def perform (store : Store τ) : Operation τ → Answer τ × Store τ
  | .create origin =>
    let (pool, place) := store.pool.add origin.registry
    (.handle store.handles.length, ⟨pool, store.handles ++ [place]⟩)
  | .clone handle =>
    match store.handles[handle]? with
    | some place => (.handle store.handles.length, ⟨store.pool, store.handles ++ [place]⟩)
    | none => (.noHandle, store)
  | .register handle type =>
    match store.handles[handle]? with
    | some place =>
      let (pool, added) := store.pool.register place type
      (.registered added, ⟨pool, store.handles⟩)
    | none => (.noHandle, store)
  | .ask handle question =>
    match store.handles[handle]? with
    | some place => (question.answer (store.pool.get place), store)
    | none => (.noHandle, store)

/-- The store after some operations. -/
def run (store : Store τ) (ops : List (Operation τ)) : Store τ :=
  ops.foldl (fun store op => (store.perform op).2) store

/-- The types that some operations register in the registry at a place, one after the other and
through whichever handle. -/
def history (store : Store τ) (place : Nat) : List (Operation τ) → List τ
  | [] => []
  | op :: ops => store.registers place op ++ (store.perform op).2.history place ops

/-! ### Steps -/

section

variable {handle place : Nat} (h : store.handles[handle]? = some place)

include h

theorem perform_clone :
    store.perform (.clone handle) =
      (.handle store.handles.length, ⟨store.pool, store.handles ++ [place]⟩) := by
  rw [perform, h]

theorem perform_register (type : τ) :
    store.perform (.register handle type) =
      (.registered ((store.pool.get place).register type).2,
        ⟨store.pool.set place ((store.pool.get place).register type).1, store.handles⟩) := by
  rw [perform, h]
  rfl

theorem perform_ask (question : Question) :
    store.perform (.ask handle question) = (question.answer (store.pool.get place), store) := by
  rw [perform, h]

end

/-- What an operation does to the store: nothing, or it adds a registry and a handle, or a handle to
a registry that is there, or it registers a type in such a registry. -/
inductive Step (store : Store τ) : Operation τ → Store τ → Prop
  /-- Nothing happens, and no type is registered. -/
  | stay {op : Operation τ} (idle : ∀ place, store.registers place op = []) : Step store op store
  /-- A registry is made. -/
  | create (origin : Origin τ) :
    Step store (.create origin)
      ⟨store.pool ++ [origin.registry], store.handles ++ [store.pool.length]⟩
  /-- A handle is cloned. -/
  | clone {handle place : Nat} (there : store.handles[handle]? = some place) :
    Step store (.clone handle) ⟨store.pool, store.handles ++ [place]⟩
  /-- A type is registered. -/
  | register {handle place : Nat} (there : store.handles[handle]? = some place)
    (type : τ) :
    Step store (.register handle type)
      ⟨store.pool.set place ((store.pool.get place).register type).1, store.handles⟩

theorem step_perform (store : Store τ) (op : Operation τ) : Step store op (store.perform op).2 := by
  cases op with
  | create origin => exact .create origin
  | clone handle =>
    cases h : store.handles[handle]? with
    | some place =>
      rw [perform_clone h]
      exact .clone h
    | none =>
      rw [perform, h]
      exact .stay fun _ => rfl
  | register handle type =>
    cases h : store.handles[handle]? with
    | some place =>
      rw [perform_register h]
      exact .register h type
    | none =>
      rw [perform, h]
      exact .stay fun place => by rw [registers, h, if_neg (Option.some_ne_none place).symm]
  | ask handle question =>
    cases h : store.handles[handle]? with
    | some place =>
      rw [perform_ask h]
      exact .stay fun _ => rfl
    | none =>
      rw [perform, h]
      exact .stay fun _ => rfl

/-- An operation changes a registry by what it registers there. -/
theorem get_perform (hv : store.Valid) (op : Operation τ) (place : Nat) :
    (store.perform op).2.pool.get place =
      (store.pool.get place).registerAll (store.registers place op) := by
  have hstep := store.step_perform op
  generalize (store.perform op).2 = after at hstep ⊢
  cases hstep with
  | stay idle =>
    rw [idle]
    rfl
  | create origin =>
    rw [get_append, registers]
    split
    · rename_i he
      have hnew : store.pool.get place = .empty := by
        simp [Pool.get, List.getD_eq_getElem?_getD, he]
      rw [hnew, origin.registry_eq]
    · rfl
  | clone there => rfl
  | register there type =>
    rename_i handle other
    rw [get_set _ (hv.lt there), registers, there]
    by_cases he : other = place
    · rw [if_pos he, if_pos (congrArg some he), he, registerAll_singleton]
    · rw [if_neg he, if_neg fun h => he (Option.some.inj h)]
      rfl

theorem valid_perform (hv : store.Valid) (op : Operation τ) : (store.perform op).2.Valid := by
  have hstep := store.step_perform op
  generalize (store.perform op).2 = after at hstep ⊢
  cases hstep with
  | stay idle => exact hv
  | create origin =>
    intro place hplace
    rw [List.length_append, List.length_singleton]
    rcases List.mem_append.1 hplace with hold | hnew
    · exact Nat.lt_succ_of_lt (hv place hold)
    · rw [List.mem_singleton.1 hnew]
      exact Nat.lt_succ_self _
  | clone there =>
    intro place hplace
    rcases List.mem_append.1 hplace with hold | hnew
    · exact hv place hold
    · rw [List.mem_singleton.1 hnew]
      exact hv.lt there
  | register there type =>
    intro place hplace
    rw [List.length_set]
    exact hv place hplace

/-- A handle belongs to its registry for good. -/
theorem handles_perform (op : Operation τ) {handle place : Nat}
    (h : store.handles[handle]? = some place) :
    (store.perform op).2.handles[handle]? = some place := by
  have hlt : handle < store.handles.length := (List.getElem?_eq_some_iff.1 h).1
  have hstep := store.step_perform op
  generalize (store.perform op).2 = after at hstep ⊢
  cases hstep with
  | stay idle => exact h
  | create origin => exact (List.getElem?_append_left hlt).trans h
  | clone there => exact (List.getElem?_append_left hlt).trans h
  | register there type => exact h

/-! ### Runs -/

theorem valid_run (hv : store.Valid) (ops : List (Operation τ)) : (store.run ops).Valid := by
  induction ops generalizing store with
  | nil => exact hv
  | cons op ops ih => exact ih (valid_perform hv op)

theorem handles_run (ops : List (Operation τ)) {handle place : Nat}
    (h : store.handles[handle]? = some place) : (store.run ops).handles[handle]? = some place := by
  induction ops generalizing store with
  | nil => exact h
  | cons op ops ih => exact ih (handles_perform op h)

/-- A registry is what was registered in it, in the order of the operations. -/
theorem get_run (hv : store.Valid) (ops : List (Operation τ)) (place : Nat) :
    (store.run ops).pool.get place =
      (store.pool.get place).registerAll (store.history place ops) := by
  induction ops generalizing store with
  | nil => rfl
  | cons op ops ih =>
    calc ((store.perform op).2.run ops).pool.get place
        = ((store.pool.get place).registerAll (store.registers place op)).registerAll
            ((store.perform op).2.history place ops) := by
          rw [ih (valid_perform hv op), get_perform hv]
      _ = (store.pool.get place).registerAll (store.history place (op :: ops)) :=
          (registerAll_append ..).symm

theorem get_run_start (ops : List (Operation τ)) (place : Nat) :
    (start.run ops).pool.get place = empty.registerAll (start.history place ops) :=
  get_run valid_start ops place

/-- What was found under a name is found there for good. -/
theorem lookup?_run (hv : store.Valid) (ops : List (Operation τ)) {place : Nat} {url : String}
    {type : τ} (h : (store.pool.get place).lookup? url = some type) :
    ((store.run ops).pool.get place).lookup? url = some type := by
  rw [lookup?] at h
  rw [lookup?, get_run hv, find?_registerAll, h, Option.some_or]

/-- A handle answers by what was registered so far in its registry, through any handle and from its
making on. The first type under a name keeps it: a registration tells whether its type is the first
one, and changes nothing if there was one already. A look-up finds the first type under what stands
behind the last slash, also under every URL that is built from the name, and goes on to find it
whatever is done next. The size is the number of different names, and they are listed in order. A
clone belongs to the same registry. -/
theorem answers_of_history (ops : List (Operation τ)) {handle place : Nat}
    (h : (start.run ops).handles[handle]? = some place) :
    let store := start.run ops
    let history := start.history place ops
    (∀ type, ∃ added after,
      store.perform (.register handle type) = (.registered added, after) ∧
      (added = true ↔ (∀ earlier ∈ history, fullName earlier ≠ fullName type) ∨
        firstUnder history (fullName type) = some type) ∧
      ((∃ earlier ∈ history, fullName earlier = fullName type) → after = store)) ∧
    (∀ url,
      store.perform (.ask handle (.lookup url)) =
        (.found (firstUnder history (TypeUrl.typeName url)), store) ∧
      store.perform (.ask handle (.isRegistered url)) =
        (.known (firstUnder history (TypeUrl.typeName url)).isSome, store)) ∧
    (∀ name, '/' ∉ name.toList →
      TypeUrl.typeName name = name ∧ ∀ front, TypeUrl.typeName (front ++ "/" ++ name) = name) ∧
    (∀ url type later, store.perform (.ask handle (.lookup url)) = (.found (some type), store) →
      (store.run later).perform (.ask handle (.lookup url)) =
        (.found (some type), store.run later)) ∧
    (∀ base name, name ∈ history.map fullName → '/' ∉ name.toList →
      ∃ type, firstUnder history name = some type ∧
        store.perform (.ask handle (.lookup (TypeUrl.build base name))) =
          (.found (some type), store)) ∧
    store.perform (.ask handle .size) =
      (.size (history.map fullName).dedup.length, store) ∧
    (∃ names, store.perform (.ask handle .names) = (.names names, store) ∧
      names.Pairwise (· < ·) ∧ ∀ name, name ∈ names ↔ name ∈ history.map fullName) ∧
    (∃ new after, store.perform (.clone handle) = (.handle new, after) ∧
      after.handles[new]? = some place) := by
  intro store history
  have hv : store.Valid := valid_run valid_start ops
  have hget : store.pool.get place = empty.registerAll history := get_run_start ops place
  have hfind (name : String) : (store.pool.get place).find? name = firstUnder history name := by
    rw [hget, find?_of_history]
  have hlookup (url : String) : store.perform (.ask handle (.lookup url)) =
      (.found (firstUnder history (TypeUrl.typeName url)), store) := by
    rw [perform_ask h, Question.answer, lookup?, hfind]
  refine ⟨fun type => ⟨_, _, perform_register h type, ?_, ?_⟩, fun url => ⟨hlookup url, ?_⟩,
    fun name hname => ⟨TypeUrl.typeName_of_not_mem hname, fun front => TypeUrl.typeName_slash front
      hname⟩, fun url type later hfound => ?_, fun base name hmem hname => ?_, ?_,
    ⟨_, perform_ask h _, ascending_names _, fun name => ?_⟩, ⟨_, _, perform_clone h, ?_⟩⟩
  · rw [register_snd_iff, hfind]
    cases hfirst : firstUnder history (fullName type) with
    | none => simpa using firstUnder_eq_none.1 hfirst
    | some other =>
      have hused : ¬ ∀ earlier ∈ history, fullName earlier ≠ fullName type := by
        rw [← firstUnder_eq_none, hfirst]
        exact Option.some_ne_none other
      simp [hused]
  · rintro ⟨earlier, hmem, hname⟩
    have hused : (firstUnder history (fullName type)).isSome = true :=
      mem_names.1 (List.mem_map.2 ⟨earlier, hmem, hname⟩)
    obtain ⟨other, hother⟩ := Option.isSome_iff_exists.1 hused
    rw [register_of_find? ((hfind _).trans hother), set_get_self _ (hv.lt h)]
  · rw [perform_ask h, Question.answer, lookup?, hfind]
  · rw [perform_ask h, Question.answer] at hfound
    have hfound : (store.pool.get place).lookup? url = some type :=
      Answer.found.inj (Prod.mk.inj hfound).1
    rw [perform_ask (handles_run later h), Question.answer, lookup?_run hv later hfound]
  · obtain ⟨type, htype⟩ := Option.isSome_iff_exists.1 (mem_names.1 hmem)
    refine ⟨type, htype, ?_⟩
    rw [hlookup, TypeUrl.typeName_build base name hname, htype]
  · rw [perform_ask h, Question.answer, hget, size_of_history]
  · rw [mem_names_iff, hget, mem_types_of_history]
  · exact List.getElem?_concat_length

/-- Two types with one name are registered through two handles of a registry: the first one of them
keeps the name. -/
theorem answers_of_history_clone :
    ∃ ops : List (Operation MessageType),
      ops = [.create (.catalogue [.duration]), .clone 0, .register 1 .durationImpostor,
        .register 0 .inner] ∧
      (start.run ops).handles[1]? = some 0 ∧
      start.history 0 ops = [.any, .duration, .durationImpostor, .inner] ∧
      (start.run ops).perform (.ask 1 (.lookup "example.com/google.protobuf.Duration")) =
        (.found (some .duration), start.run ops) ∧
      (start.run ops).perform (.ask 1 .size) = (.size 3, start.run ops) := by
  let ops : List (Operation MessageType) := [.create (.catalogue [.duration]), .clone 0,
    .register 1 .durationImpostor, .register 0 .inner]
  have hhandle : (start.run ops).handles[1]? = some 0 := rfl
  have hhistory : start.history 0 ops = [.any, .duration, .durationImpostor, .inner] := rfl
  obtain ⟨-, hask, hname, -, -, hsize, -⟩ := answers_of_history ops hhandle
  refine ⟨ops, rfl, hhandle, hhistory, ?_, ?_⟩
  · have hfound := (hask "example.com/google.protobuf.Duration").1
    have hbehind := (hname "google.protobuf.Duration" (by decide)).2 "example.com"
    rw [show "example.com/google.protobuf.Duration" =
      "example.com" ++ "/" ++ "google.protobuf.Duration" by decide, hbehind, hhistory] at hfound
    exact hfound
  · rw [hsize, hhistory]
    rfl

end Store

end TypeRegistry

end Protobuf
