import Protobuf.Error

/-!
# Building a value while reading

Reading keeps its state when it fails, and so does a value that is built on the way: after an error
one can still see what was read and what was built. A reader of `ρ` is an action on states `ρ`; a
builder of `σ` from `ρ` is an action on pairs.
-/

namespace Protobuf

/-- An action on a source `ρ` that may fail and leaves the source where it stopped. -/
abbrev Reading (ρ α : Type) := EStateM Error ρ α

/-- An action that reads from `ρ` while it builds a value of type `σ`. -/
abbrev Build (ρ σ α : Type) := EStateM Error (σ × ρ) α

variable {ρ σ τ α : Type}

namespace Build

/-- Reads without touching the value. -/
def read (x : Reading ρ α) : Build ρ σ α := fun (s, r) =>
  match x r with
  | .ok a r => .ok a (s, r)
  | .error e r => .error e (s, r)

/-- The source as it is now. -/
def source : Build ρ σ ρ := fun (s, r) => .ok r (s, r)

/-- The value as it is now. -/
def current : Build ρ σ σ := fun (s, r) => .ok s (s, r)

/-- Replaces the value. -/
def put (s : σ) : Build ρ σ Unit := fun (_, r) => .ok () (s, r)

/-- Changes the value. -/
def update (f : σ → σ) : Build ρ σ Unit := fun (s, r) => .ok () (f s, r)

/-- Builds a part of the value in place: after a failure, too, the part is put back as it is. -/
def zoom (part : σ → τ) (put : σ → τ → σ) (x : Build ρ τ α) : Build ρ σ α := fun (s, r) =>
  match x (part s, r) with
  | .ok a (t, r) => .ok a (put s t, r)
  | .error e (t, r) => .error e (put s t, r)

/-- Builds a value that starts as `s`; after a failure the value is lost. -/
def alone (s : σ) (x : Build ρ σ Unit) : Reading ρ σ := fun r =>
  match x (s, r) with
  | .ok _ (s, r) => .ok s r
  | .error e (_, r) => .error e r

end Build

/-- Turns a wire-type mismatch into `none`, as long as nothing was consumed before it. -/
def unlessMismatched (position : σ → Nat) (x : EStateM Error σ α) : EStateM Error σ (Option α) :=
  fun s =>
    match x s with
    | .ok a t => .ok (some a) t
    | .error (.wireTypeMismatch offset number actual expected) t =>
      if position t = position s then .ok none t
      else .error (.wireTypeMismatch offset number actual expected) t
    | .error e t => .error e t

end Protobuf
