import Protobuf.Reader

/-!
# Raw fields

Encoded bytes cut into their top-level fields, each with its tag, without knowing any type. Together
with what is left behind the last field that could be read, the fields are the bytes again.
-/

namespace Protobuf

/-- A field as it stands among other bytes. -/
structure RawField where
  /-- The field's tag. -/
  tag : Tag
  /-- The bytes of the field, tag included. -/
  bytes : Bytes
  deriving DecidableEq, Repr

namespace RawField

/-- Reads the next field, nested groups included; there is none at the end of the region. -/
def next (limit : Nat) : Reading Reader (Option RawField) := do
  let start ← get
  match ← Reader.nextTag with
  | none => return none
  | some tag =>
    Reader.skip limit tag
    return some ⟨tag, start.consumed (← get)⟩

/-- Reads fields up to the first one that breaks the wire format, and gives them with the bytes from
there on. Every round consumes a tag, so the unread bytes bound the number of rounds. -/
def scan (limit : Nat) : (rounds : Nat) → Reader → List RawField × Bytes
  | 0, r => ([], r.rest)
  | rounds + 1, r =>
    match next limit r with
    | .ok (some field) stop =>
      let (fields, rest) := scan limit rounds stop
      (field :: fields, rest)
    | _ => ([], r.rest)

/-- The fields at the front of some bytes, groups nesting up to a limit, and the bytes behind them
that are no field. -/
def split (limit : Nat) (bytes : Bytes) : List RawField × Bytes :=
  scan limit (bytes.length + 1) (.new bytes)

/-- The fields at the front of what a message keeps as unknown. Groups nest up to the limit that
decoding has where none is given. -/
def entries (unknown : Bytes) : List RawField := (split ({} : DecodeOptions).depthLimit unknown).1

/-- The bytes are nothing but fields. No group nests deeper than there are bytes. -/
def areFields (bytes : Bytes) : Bool := (split bytes.length bytes).2.isEmpty

end RawField

end Protobuf
