/-!
# Enumerations

The enumerations that fields of the catalogue use. A number without a name is a legal value.
-/

namespace Protobuf

/-- An enumeration with named numbers. -/
inductive EnumType where
  /-- `FOO` and `BAR`, without a name for zero. -/
  | fooBar
  /-- Colours, with a name for the unspecified one. -/
  | color
  /-- Zero, one and minus one. -/
  | sign
  deriving DecidableEq, Repr, Inhabited

namespace EnumType

/-- The names and their numbers. -/
def symbols : EnumType → List (String × Int32)
  | fooBar => [("FOO", 1), ("BAR", 2)]
  | color => [("COLOR_UNSPECIFIED", 0), ("RED", 1), ("GREEN", 2)]
  | sign => [("ZERO", 0), ("ONE", 1), ("MINUS", -1)]

/-- The name of a number. -/
def name? (type : EnumType) (value : Int32) : Option String :=
  (type.symbols.find? (·.2 = value)).map (·.1)

/-- The number that has a name. -/
def number? (type : EnumType) (name : String) : Option Int32 :=
  (type.symbols.find? (·.1 = name)).map (·.2)

/-- A number's name stands for that number. -/
theorem number?_of_name? {type : EnumType} {value : Int32} {name : String}
    (h : type.name? value = some name) : type.number? name = some value := by
  cases type <;>
    simp only [name?, symbols, List.find?] at h <;>
    (repeat' split at h) <;>
    simp_all [number?, symbols, List.find?] <;>
    (subst h; simp_all)

end EnumType

end Protobuf
