import Protobuf.Build
import Protobuf.Scalar
import Protobuf.Tag

/-!
# Reading the wire format

A reader holds the unread bytes of the region it is confined to. A nested reading is confined to the
bytes that its length prefix announces, and gives the bytes behind them back when it ends, also by
failing. Offsets in errors count from the start of the whole input.
-/

namespace Protobuf

/-- The settings of decoding. -/
structure DecodeOptions where
  /-- How deep messages and groups may nest. -/
  depthLimit : Nat := 100
  /-- Unknown fields are dropped. -/
  discardUnknown : Bool := false
  /-- Required fields may be missing. -/
  allowPartial : Bool := false
  deriving DecidableEq, Repr

/-- A place in binary input. -/
structure Reader where
  /-- The unread bytes of the current region. -/
  rest : Bytes
  /-- How many bytes of the input come before them. -/
  position : Nat
  /-- How many messages and groups are open. -/
  depth : Nat
  deriving DecidableEq, Repr

namespace Reader

/-- The start of some input. -/
def new (bytes : Bytes) : Reader := ⟨bytes, 0, 0⟩

/-- How many bytes are left in the current region. -/
def remaining (r : Reader) : Nat := r.rest.length

/-- The place some bytes further on. -/
def advance (r : Reader) (count : Nat) : Reader :=
  { r with rest := r.rest.drop count, position := r.position + count }

/-- The bytes from an earlier place of the same region up to a later one. -/
def consumed (start stop : Reader) : Bytes := start.rest.take (stop.position - start.position)

/-! ## Values without nesting -/

/-- Reads a varint. -/
def rawVarint : Reading Reader UInt64 := do
  let r ← get
  match Varint.decode r.rest with
  | .ok (value, count) =>
    set (r.advance count)
    pure value
  | .error e => throw (e.shift r.position)

/-- Reads a word of so many bytes. -/
def word (width : Nat) : Reading Reader Nat := do
  let r ← get
  if r.remaining < width then throw (.truncated (r.position + r.remaining))
  set (r.advance width)
  pure (Bytes.toNat (r.rest.take width))

/-- Reads a length prefix that the region can satisfy. -/
def length : Reading Reader Nat := do
  let start ← get
  let value ← rawVarint
  let r ← get
  if r.remaining < value.toNat then throw (.truncated start.position)
  pure value.toNat

/-- Reads bytes behind their length. -/
def delimited : Reading Reader Bytes := do
  let count ← length
  let r ← get
  set (r.advance count)
  pure (r.rest.take count)

/-- Reads the next tag; there is none at the end of the region. -/
def nextTag : Reading Reader (Option Tag) := do
  let start ← get
  if start.rest.isEmpty then pure none
  else
    let raw ← rawVarint
    match Tag.ofRaw raw.toNat with
    | .ok tag => pure (some tag)
    | .error e => throw (e.shift start.position)

/-- Fails unless a tag carries a wire type; consumes nothing. -/
def expect (tag : Tag) (wireType : WireType) : Reading Reader Unit := do
  if tag.wireType ≠ wireType then
    throw (.wireTypeMismatch (← get).position tag.number tag.wireType wireType)

/-- Reads a framed value. Groups are no such values. -/
def wireValue : WireType → Reading Reader WireValue
  | .varint => .varint <$> rawVarint
  | .fixed64 => (.fixed64 <| UInt64.ofNat ·) <$> word 8
  | .fixed32 => (.fixed32 <| UInt32.ofNat ·) <$> word 4
  | .lengthDelimited => .lengthDelimited <$> delimited
  | .startGroup | .endGroup => do throw (.malformed (← get).position .unmatchedEndGroup)

/-- Reads a scalar of a type, which the tag's wire type must fit. -/
def scalar (kind : ScalarKind) (tag : Tag) : Reading Reader Scalar := do
  expect tag kind.wireType
  let start ← get
  match kind.ofWire? (← wireValue kind.wireType) with
  | some s => pure s
  | none => throw (.malformed start.position .invalidUtf8)

/-- Reads the bytes of a field. -/
def bytes (tag : Tag) : Reading Reader Bytes := do
  expect tag .lengthDelimited
  delimited

/-! ## Nesting -/

/-- Opens a message or a group, within the limit. -/
def enter (limit : Nat) : Reading Reader Unit := do
  modify fun r => { r with depth := r.depth + 1 }
  if limit < (← get).depth then throw (.recursionLimit limit)

/-- Closes a message or a group. -/
def leave : Reading Reader Unit := modify fun r => { r with depth := r.depth - 1 }

/-- Confines an action to the bytes behind the next length prefix. -/
def within {σ α : Type} (body : Build Reader σ α) : Build Reader σ α := do
  let count ← Build.read length
  fun (s, outer) =>
    match body (s, { outer with rest := outer.rest.take count }) with
    | .ok a (s, r) =>
      if r.rest.isEmpty then .ok a (s, { r with rest := outer.rest.drop count })
      else .error (.malformed r.position .nestedEndedEarly) (s, r)
    | .error e (s, r) => .error e (s, { r with rest := r.rest ++ outer.rest.drop count })

/-! ## Skipping -/

/-- Skips fields until the groups of a stack, innermost first, are closed. Every round consumes a
tag, so the unread bytes bound the number of rounds. -/
def skipGroups (limit : Nat) : (rounds : Nat) → List Nat → Reading Reader Unit
  | _, [] => pure ()
  | 0, number :: _ => do throw (.malformed (← get).position (.unclosedGroup number))
  | rounds + 1, number :: outer => do
    let start ← get
    if limit < start.depth + (outer.length + 1) then throw (.recursionLimit limit)
    match ← nextTag with
    | none => throw (.malformed start.position (.unclosedGroup number))
    | some tag =>
      match tag.wireType with
      | .endGroup =>
        if tag.number = number then skipGroups limit rounds outer
        else throw (.malformed start.position (.mismatchedEndGroup tag.number number))
      | .startGroup => skipGroups limit rounds (tag.number :: number :: outer)
      | wireType =>
        let _ ← wireValue wireType
        skipGroups limit rounds (number :: outer)

/-- Skips the value that belongs to a tag. -/
def skip (limit : Nat) (tag : Tag) : Reading Reader Unit := do
  if tag.wireType = .startGroup then
    skipGroups limit ((← get).remaining + 1) [tag.number]
  else
    let _ ← wireValue tag.wireType

/-! ## Composite fields -/

variable {α κ ν : Type}

/-- Reads elements with one tag until the region ends. -/
def elements (read : Tag → Reading Reader α) (tag : Tag) :
    (rounds : Nat) → Build Reader (List α) Unit
  | 0 => pure ()
  | rounds + 1 => do
    if (← Build.source).rest.isEmpty then pure ()
    else
      let a ← Build.read (read tag)
      Build.update (· ++ [a])
      elements read tag rounds

/-- Reads one element of a repeated field, or a packed run of them. -/
def repeated (element : WireType) (read : Tag → Reading Reader α) (tag : Tag) :
    Build Reader (List α) Unit := do
  if tag.wireType = .lengthDelimited ∧ element ≠ .lengthDelimited then
    within do elements read (tag.withWireType element) ((← Build.source).remaining + 1)
  else
    let a ← Build.read (read tag)
    Build.update (· ++ [a])

/-- Reads the fields of a map entry until the region ends. A later key or value replaces an earlier
one; other fields, and those with the wrong wire type, are skipped. -/
def entryFields (limit : Nat) (readKey : Tag → Reading Reader κ)
    (readValue : Tag → Reading Reader ν) : (rounds : Nat) → Build Reader (κ × ν) Unit
  | 0 => pure ()
  | rounds + 1 => do
    match ← Build.read nextTag with
    | none => pure ()
    | some tag =>
      if tag.number = 1 then
        match ← Build.read (unlessMismatched position (readKey tag)) with
        | some key => Build.update fun entry => (key, entry.2)
        | none => Build.read (skip limit tag)
      else if tag.number = 2 then
        match ← Build.read (unlessMismatched position (readValue tag)) with
        | some value => Build.update fun entry => (entry.1, value)
        | none => Build.read (skip limit tag)
      else Build.read (skip limit tag)
      entryFields limit readKey readValue rounds

/-- Reads a map entry, of which the key and the value may be missing. -/
def mapEntry (limit : Nat) (zero : κ × ν) (readKey : Tag → Reading Reader κ)
    (readValue : Tag → Reading Reader ν) (tag : Tag) : Reading Reader (κ × ν) := do
  expect tag .lengthDelimited
  enter limit
  let entry ← Build.alone zero <| within do
    entryFields limit readKey readValue ((← Build.source).remaining + 1)
  leave
  pure entry

end Reader

end Protobuf
