/-!
# Lines of text

Printed text is a sequence of lines: fields, and the ends of blocks. The indentation of a line is
the number of blocks that are open before it.
-/

namespace Protobuf.Text

/-- A line of text without its indentation. -/
inductive Line where
  /-- A field with a value. -/
  | field (label value : String)
  /-- The first line of a block. -/
  | opening (label : String)
  /-- The last line of a block. -/
  | closing
  deriving DecidableEq, Repr

namespace Line

/-- The line's characters. -/
def text : Line → String
  | field label value => label ++ ": " ++ value
  | opening label => label ++ " \x7b"
  | closing => "\x7d"

/-- How many blocks are open behind the line, given how many are before it. -/
def depthAfter (depth : Nat) : Line → Nat
  | field .. => depth
  | opening _ => depth + 1
  | closing => depth - 1

/-- How far the line is indented, given how many blocks are open before it. -/
def indentation (depth : Nat) : Line → Nat
  | closing => depth - 1
  | _ => depth

/-- A block around some lines. -/
def block (label : String) (body : List Line) : List Line := opening label :: body ++ [closing]

/-- The lines with two spaces for every open block in front, given how many are open before them. -/
def indented (depth : Nat) : List Line → List String
  | [] => []
  | line :: rest =>
    ("".pushn ' ' (2 * line.indentation depth) ++ line.text ++ "\n") ::
      indented (line.depthAfter depth) rest

/-- The lines as text. -/
def render (lines : List Line) : String := String.join (indented 0 lines)

/-- How many blocks are open behind the lines, given how many are before them. -/
def finalDepth (depth : Nat) (lines : List Line) : Nat := lines.foldl depthAfter depth

/-- The largest number of blocks that are open at once. -/
def maxDepth (depth : Nat) : List Line → Nat
  | [] => depth
  | line :: rest => max depth (maxDepth (line.depthAfter depth) rest)

theorem indented_append (depth : Nat) (a b : List Line) :
    indented depth (a ++ b) = indented depth a ++ indented (finalDepth depth a) b := by
  induction a generalizing depth with
  | nil => rfl
  | cons line a ih => simp [indented, finalDepth, ih]

end Line

end Protobuf.Text
