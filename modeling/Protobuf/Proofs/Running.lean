import Protobuf.Reader

/-!
# Running actions

What an action of one of the building blocks does on a state, as equations that open a program one
step at a time, and the rule that a successful sequence is made of successful parts.
-/

namespace Protobuf

variable {σ τ ρ α β : Type}

/-! ## Sequences -/

@[simp] theorem run_pure (a : α) (s : σ) : (pure a : EStateM Error σ α) s = .ok a s := rfl

@[simp] theorem run_throw (e : Error) (s : σ) : (throw e : EStateM Error σ α) s = .error e s := rfl

@[simp] theorem run_get (s : σ) : (get : EStateM Error σ σ) s = .ok s s := rfl

@[simp] theorem run_set (t s : σ) : (set t : EStateM Error σ PUnit) s = .ok ⟨⟩ t := rfl

@[simp] theorem run_modify (f : σ → σ) (s : σ) :
    (modify f : EStateM Error σ PUnit) s = .ok ⟨⟩ (f s) := rfl

theorem run_bind (x : EStateM Error σ α) (f : α → EStateM Error σ β) (s : σ) :
    (x >>= f) s =
      match x s with
      | .ok a t => f a t
      | .error e t => .error e t := by
  simp only [bind, EStateM.bind]
  cases x s <;> rfl

theorem run_bind_of_ok {x : EStateM Error σ α} {f : α → EStateM Error σ β} {s t : σ} {a : α}
    (h : x s = .ok a t) : (x >>= f) s = f a t := by
  rw [run_bind, h]

theorem run_bind_of_error {x : EStateM Error σ α} {f : α → EStateM Error σ β} {s t : σ}
    {e : Error} (h : x s = .error e t) : (x >>= f) s = .error e t := by
  rw [run_bind, h]

/-- A sequence succeeds if and only if both parts do. -/
theorem bind_eq_ok {x : EStateM Error σ α} {f : α → EStateM Error σ β} {s u : σ} {b : β} :
    (x >>= f) s = .ok b u ↔ ∃ a t, x s = .ok a t ∧ f a t = .ok b u := by
  rw [run_bind]
  constructor
  · intro h
    cases hx : x s with
    | ok a t => exact ⟨a, t, rfl, by simpa [hx] using h⟩
    | error e t => simp [hx] at h
  · rintro ⟨a, t, hx, hf⟩
    rw [hx]
    exact hf

/-- A sequence fails if and only if one of the parts does. -/
theorem bind_eq_error {x : EStateM Error σ α} {f : α → EStateM Error σ β} {s u : σ} {e : Error} :
    (x >>= f) s = .error e u ↔
      x s = .error e u ∨ ∃ a t, x s = .ok a t ∧ f a t = .error e u := by
  rw [run_bind]
  constructor
  · intro h
    cases hx : x s with
    | ok a t => exact Or.inr ⟨a, t, rfl, by simpa [hx] using h⟩
    | error e' t => exact Or.inl (by simpa [hx] using h)
  · rintro (hx | ⟨a, t, hx, hf⟩)
    · rw [hx]
    · rw [hx]
      exact hf

theorem run_map (f : α → β) (x : EStateM Error σ α) (s : σ) :
    (f <$> x) s =
      match x s with
      | .ok a t => .ok (f a) t
      | .error e t => .error e t := by
  simp only [Functor.map, EStateM.map]
  cases x s <;> rfl

theorem map_eq_bind (f : α → β) (x : EStateM Error σ α) : f <$> x = x >>= fun a => pure (f a) := by
  funext s
  rw [run_map, run_bind]
  cases x s <;> rfl

theorem map_eq_ok {f : α → β} {x : EStateM Error σ α} {s t : σ} {b : β} :
    (f <$> x) s = .ok b t ↔ ∃ a, x s = .ok a t ∧ b = f a := by
  rw [run_map]
  cases x s with
  | ok a u =>
    constructor
    · intro h
      cases h
      exact ⟨a, rfl, rfl⟩
    · rintro ⟨_, h, rfl⟩
      cases h
      rfl
  | error e u => simp

/-! ## Reading while building -/

namespace Build

@[simp] theorem run_source (s : σ) (r : ρ) : (source : Build ρ σ ρ) (s, r) = .ok r (s, r) := rfl

@[simp] theorem run_current (s : σ) (r : ρ) : (current : Build ρ σ σ) (s, r) = .ok s (s, r) := rfl

@[simp] theorem run_put (t s : σ) (r : ρ) : (put t : Build ρ σ Unit) (s, r) = .ok () (t, r) := rfl

@[simp] theorem run_update (f : σ → σ) (s : σ) (r : ρ) :
    (update f : Build ρ σ Unit) (s, r) = .ok () (f s, r) := rfl

theorem run_read (x : Reading ρ α) (s : σ) (r : ρ) :
    read x (s, r) =
      match x r with
      | .ok a r => .ok a (s, r)
      | .error e r => .error e (s, r) := by
  cases h : x r <;> simp only [read, h]

theorem read_eq_ok {x : Reading ρ α} {s s' : σ} {r r' : ρ} {a : α} :
    read x (s, r) = .ok a (s', r') ↔ x r = .ok a r' ∧ s' = s := by
  rw [run_read]
  cases x r with
  | ok b t =>
    simp only [EStateM.Result.ok.injEq, Prod.mk.injEq]
    constructor
    · rintro ⟨rfl, rfl, rfl⟩
      exact ⟨⟨rfl, rfl⟩, rfl⟩
    · rintro ⟨⟨rfl, rfl⟩, rfl⟩
      exact ⟨rfl, rfl, rfl⟩
  | error e t => simp

theorem run_read_bind_of_ok {x : Reading ρ α} {f : α → Build ρ σ β} {s : σ} {r r' : ρ} {a : α}
    (h : x r = .ok a r') : (read x >>= f) (s, r) = f a (s, r') :=
  run_bind_of_ok (read_eq_ok.2 ⟨h, rfl⟩)

/-- A sequence succeeds if and only if what is read first and the rest do. -/
theorem read_bind_eq_ok {x : Reading ρ α} {f : α → Build ρ σ β} {s : σ} {r : ρ} {b : β}
    {t : σ × ρ} :
    (read x >>= f) (s, r) = .ok b t ↔ ∃ a q, x r = .ok a q ∧ f a (s, q) = .ok b t := by
  rw [run_bind, run_read]
  cases x r with
  | ok a q =>
    constructor
    · intro h
      exact ⟨a, q, rfl, h⟩
    · rintro ⟨a', q', hx, hf⟩
      cases hx
      exact hf
  | error e q => simp

theorem read_eq_error {x : Reading ρ α} {s s' : σ} {r r' : ρ} {e : Error} :
    read x (s, r) = .error e (s', r') ↔ x r = .error e r' ∧ s' = s := by
  rw [run_read]
  cases x r with
  | ok b t => simp
  | error f t =>
    simp only [EStateM.Result.error.injEq, Prod.mk.injEq]
    constructor
    · rintro ⟨rfl, rfl, rfl⟩
      exact ⟨⟨rfl, rfl⟩, rfl⟩
    · rintro ⟨⟨rfl, rfl⟩, rfl⟩
      exact ⟨rfl, rfl, rfl⟩

theorem run_zoom (part : σ → τ) (put : σ → τ → σ) (x : Build ρ τ α) (s : σ) (r : ρ) :
    zoom part put x (s, r) =
      match x (part s, r) with
      | .ok a (t, r) => .ok a (put s t, r)
      | .error e (t, r) => .error e (put s t, r) := by
  rw [zoom]
  cases x (part s, r) <;> rfl

theorem zoom_eq_ok {part : σ → τ} {put : σ → τ → σ} {x : Build ρ τ α} {s s' : σ} {r r' : ρ}
    {a : α} :
    zoom part put x (s, r) = .ok a (s', r') ↔
      ∃ t, x (part s, r) = .ok a (t, r') ∧ s' = put s t := by
  rw [run_zoom]
  rcases x (part s, r) with ⟨b, t, u⟩ | ⟨e, t, u⟩
  · simp
    grind
  · simp

theorem zoom_eq_error {part : σ → τ} {put : σ → τ → σ} {x : Build ρ τ α} {s s' : σ} {r r' : ρ}
    {e : Error} :
    zoom part put x (s, r) = .error e (s', r') ↔
      ∃ t, x (part s, r) = .error e (t, r') ∧ s' = put s t := by
  rw [run_zoom]
  rcases x (part s, r) with ⟨b, t, u⟩ | ⟨e', t, u⟩
  · simp
  · simp
    grind

theorem run_alone (s : σ) (x : Build ρ σ Unit) (r : ρ) :
    alone s x r =
      match x (s, r) with
      | .ok _ (s, r) => .ok s r
      | .error e (_, r) => .error e r := by
  rw [alone]
  cases x (s, r) <;> rfl

theorem alone_eq_ok {s s' : σ} {x : Build ρ σ Unit} {r r' : ρ} :
    alone s x r = .ok s' r' ↔ x (s, r) = .ok () (s', r') := by
  rw [run_alone]
  rcases x (s, r) with ⟨b, t, u⟩ | ⟨e, t, u⟩ <;> simp

end Build

end Protobuf
