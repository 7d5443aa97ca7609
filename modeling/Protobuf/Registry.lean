import Protobuf.Schema.Catalogue
import Protobuf.TypeUrl

/-!
# Registries of message types

A registry finds message types by their full name. The first type registered under a name keeps it.
Which types there are, and what they are called, is left open: a registry takes any type under any
name. Several handles may share one registry; a pool holds the registries and a handle is a place in
it.
-/

namespace Protobuf

/-- Message types that go by full names. -/
class NamedTypes (τ : Type) where
  /-- The full name of a type. Two types may have the same one. -/
  fullName : τ → String
  /-- The type of messages that hold a message of any type. -/
  any : τ

open NamedTypes (fullName)

/-- Message types under distinct names, in the order of their registration. -/
structure TypeRegistry (τ : Type) [NamedTypes τ] where
  /-- The registered types. -/
  types : List τ
  /-- No name is registered twice. -/
  distinct : (types.map fullName).Nodup
  deriving DecidableEq, Repr

namespace TypeRegistry

variable {τ : Type} [NamedTypes τ]

/-- The registry without any type. -/
def empty : TypeRegistry τ := ⟨[], by simp⟩

instance : Inhabited (TypeRegistry τ) := ⟨empty⟩

/-- The type registered under a name. -/
def find? (registry : TypeRegistry τ) (name : String) : Option τ :=
  registry.types.find? (fullName · = name)

/-- The type that a type URL or a plain name stands for. -/
def lookup? (registry : TypeRegistry τ) (url : String) : Option τ :=
  registry.find? (TypeUrl.typeName url)

/-- The registered names in ascending order. -/
def names (registry : TypeRegistry τ) : List String :=
  (registry.types.map fullName).mergeSort fun a b => a ≤ b

/-- How many names are registered. -/
def size (registry : TypeRegistry τ) : Nat := registry.types.length

/-- Registers a type, and tells whether its name now stands for it. -/
def register [DecidableEq τ] (registry : TypeRegistry τ) (type : τ) : TypeRegistry τ × Bool :=
  match h : registry.find? (fullName type) with
  | some other => (registry, other = type)
  | none =>
    (⟨registry.types ++ [type], by
      have fresh := List.find?_eq_none.1 h
      have := registry.distinct
      simp_all [List.nodup_append]⟩, true)

/-- Registers types one after the other; those whose name is taken are left out. -/
def registerAll [DecidableEq τ] (registry : TypeRegistry τ) (types : List τ) : TypeRegistry τ :=
  types.foldl (fun registry type => (registry.register type).1) registry

/-- The registry that knows `Any`. -/
def standard [DecidableEq τ] : TypeRegistry τ := empty.registerAll [NamedTypes.any]

/-! ## Shared registries -/

/-- Registries that are reached through handles. -/
abbrev Pool (τ : Type) [NamedTypes τ] := List (TypeRegistry τ)

namespace Pool

/-- The registry behind a handle. -/
def get (pool : Pool τ) (handle : Nat) : TypeRegistry τ := pool.getD handle empty

/-- Adds a registry and gives its handle. -/
def add (pool : Pool τ) (registry : TypeRegistry τ) : Pool τ × Nat :=
  (pool ++ [registry], pool.length)

/-- Registers a type through a handle, for all that share the registry. -/
def register [DecidableEq τ] (pool : Pool τ) (handle : Nat) (type : τ) : Pool τ × Bool :=
  let (registry, added) := (pool.get handle).register type
  (pool.set handle registry, added)

end Pool

end TypeRegistry

/-! ## The types of the catalogue -/

instance : NamedTypes MessageType := ⟨MessageType.fullName, .any⟩

/-- A registry of types from the catalogue. -/
abbrev Registry := TypeRegistry MessageType

namespace Registry

/-- The registry without any type. -/
abbrev empty : Registry := TypeRegistry.empty

/-- The registry that knows `Any`. -/
abbrev standard : Registry := TypeRegistry.standard

/-- Registries that are reached through handles. -/
abbrev Pool := TypeRegistry.Pool MessageType

end Registry

end Protobuf
