import Protobuf.Message.Required
import Protobuf.Reader

/-!
# Decoding messages

Input is merged into a message field by field. A field that the type does not declare, or that
arrives with a wire type the declaration does not accept, is kept as it is among the unknown fields.
What was merged before an error stays merged.
-/

namespace Protobuf

open Reader Build

/-- Inserts an entry into a map by ascending key, replacing the entry of the same key. -/
def insertEntry {ν : Type} (key : Scalar) (value : ν) :
    List (Scalar × ν) → List (Scalar × ν)
  | [] => [(key, value)]
  | e :: rest =>
    if key.lt e.1 then (key, value) :: e :: rest
    else if e.1.lt key then e :: insertEntry key value rest
    else (key, value) :: rest

/-- The value of a field that was never set. -/
def FieldKind.zero : FieldKind → Value Message
  | scalar kind => .scalar kind.zero
  | message type | group type => .message (.new type)

namespace Slot

/-- The message of an optional field, or a new one. -/
def optionalMessage (type : MessageType) : Slot Message → Message
  | .optional (some (.message m)) => m
  | _ => .new type

/-- The message of a oneof if the given field is set, or a new one. -/
def chosenMessage (number : Nat) (type : MessageType) : Slot Message → Message
  | .oneof (some (n, .message m)) => if n = number then m else .new type
  | _ => .new type

/-- The scalars of a packed field. -/
def packedScalars : Slot Message → List Scalar
  | .packed ss => ss
  | _ => []

/-- The values of a repeated field. -/
def repeatedValues : Slot Message → List (Value Message)
  | .repeated vs => vs
  | _ => []

/-- Replaces the scalars of a packed field. -/
def setPackedScalars : Slot Message → List Scalar → Slot Message
  | .packed _, ss => .packed ss
  | slot, _ => slot

/-- Replaces the values of a repeated field. -/
def setRepeatedValues : Slot Message → List (Value Message) → Slot Message
  | .repeated _, vs => .repeated vs
  | slot, _ => slot

/-- The entries of a map. -/
def mapEntries : Slot Message → List (Scalar × Value Message)
  | .map es => es
  | _ => []

end Slot

/-- How the fields of a message are merged up to the end of the region, or of the group with the
given number. -/
abbrev MergeBody := Option Nat → Build Reader Message Unit

namespace Reader

/-- Merges a message behind its length. -/
def message (limit : Nat) (body : MergeBody) (tag : Tag) : Build Reader Message Unit := do
  read (expect tag .lengthDelimited)
  read (enter limit)
  within (body none)
  read leave

/-- Merges a group up to its end tag. -/
def group (limit : Nat) (body : MergeBody) (tag : Tag) : Build Reader Message Unit := do
  read (expect tag .startGroup)
  read (enter limit)
  body (some tag.number)
  read leave

/-- Reads one value of a field; a message starts out new. -/
def value (limit : Nat) (body : MergeBody) : FieldKind → Tag → Reading Reader (Value Message)
  | .scalar kind, tag => .scalar <$> scalar kind tag
  | .message type, tag => .message <$> alone (.new type) (message limit body tag)
  | .group type, tag => .message <$> alone (.new type) (group limit body tag)

/-- Merges into the message of an optional field, which is created first. -/
def intoOptional (type : MessageType) (wireType : WireType)
    (merge : Tag → Build Reader Message Unit) (tag : Tag) : Build Reader (Slot Message) Unit := do
  read (expect tag wireType)
  zoom (Slot.optionalMessage type) (fun _ m => .optional (some (.message m))) (merge tag)

/-- Merges into the message of a oneof. The oneof is unset while the message is read. -/
def intoChosen (type : MessageType) (wireType : WireType)
    (merge : Tag → Build Reader Message Unit) (tag : Tag) : Build Reader (Slot Message) Unit := do
  read (expect tag wireType)
  let slot ← current
  put (Slot.oneof none)
  let m ← read (alone (slot.chosenMessage tag.number type) (merge tag))
  put (Slot.oneof (some (tag.number, .message m)))

/-- Merges a value of an optional field. -/
def optionalField (limit : Nat) (body : MergeBody) :
    FieldKind → Tag → Build Reader (Slot Message) Unit
  | .scalar kind, tag => do
    let s ← read (scalar kind tag)
    put (.optional (some (.scalar s)))
  | .message type, tag => intoOptional type .lengthDelimited (message limit body) tag
  | .group type, tag => intoOptional type .startGroup (group limit body) tag

/-- Merges values of a repeated field, which go behind those that are there. -/
def repeatedField (limit : Nat) (body : MergeBody) :
    FieldKind → Tag → Build Reader (List (Value Message)) Unit
  | .scalar kind, tag => repeated kind.wireType (value limit body (.scalar kind)) tag
  | kind, tag => do
    let v ← read (value limit body kind tag)
    update (· ++ [v])

/-- Merges a value of a field of a oneof, which then is the one that is set. -/
def oneofField (limit : Nat) (body : MergeBody) :
    FieldKind → Tag → Build Reader (Slot Message) Unit
  | .scalar kind, tag => do
    let s ← read (scalar kind tag)
    put (.oneof (some (tag.number, .scalar s)))
  | .message type, tag => intoChosen type .lengthDelimited (message limit body) tag
  | .group type, tag => intoChosen type .startGroup (group limit body) tag

end Reader

/-- Merges one field into the slot of the member that declares it. -/
def Member.merge (limit : Nat) (body : MergeBody) :
    Member → Tag → Build Reader (Slot Message) Unit
  | plain _ _ kind, tag => do
    let s ← read (scalar kind tag)
    put (.plain s)
  | optional field _, tag => optionalField limit body field.kind tag
  | packed _ _ kind, tag =>
    zoom Slot.packedScalars Slot.setPackedScalars <|
      Reader.repeated kind.wireType (scalar kind) tag
  | repeated field, tag =>
    zoom Slot.repeatedValues Slot.setRepeatedValues <| repeatedField limit body field.kind tag
  | map _ _ key kind, tag => do
    let (k, v) ← read <|
      mapEntry limit (key.zero, kind.zero) (scalar key) (value limit body kind) tag
    update fun slot => .map (insertEntry k v slot.mapEntries)
  | oneof fields, tag =>
    match fields.find? (·.number = tag.number) with
    | none => pure ()
    | some field => oneofField limit body field.kind tag
  | payload _ _, tag => do
    let b ← read (bytes tag)
    put (.payload (.serialized b))

namespace Message

/-- The place of a member among the slots and the member, if the type has one that satisfies a
test. -/
def member? (type : MessageType) (test : Member → Bool) : Option (Nat × Member) := do
  let i ← type.members.findIdx? test
  let member ← type.members[i]?
  pure (i, member)

/-- The place and the member of the field that a tag stands for, if the type declares one. -/
def declared? (type : MessageType) (tag : Tag) : Option (Nat × Member) :=
  if (type.wireType? tag.number).all (· = tag.wireType) then
    member? type (·.hasNumber tag.number)
  else none

/-- Acts on the slot of a member. -/
def atSlot {ρ α : Type} (i : Nat) (member : Member) (x : Build ρ (Slot Message) α) :
    Build ρ Message α :=
  zoom (fun m => m.slots.getD i member.initial)
    (fun m slot => { m with slots := m.slots.set i slot }) x

/-- Merges the field of a tag into a message, and tells whether the type declares it. -/
def mergeField (limit : Nat) (body : MergeBody) (tag : Tag) : Build Reader Message Bool :=
  fun (m, r) =>
    match declared? m.type tag with
    | none => .ok false (m, r)
    | some (i, member) => (do atSlot i member (member.merge limit body tag); pure true) (m, r)

/-- Keeps the field of a tag, which starts at an earlier place, as it is. -/
def keepUnknown (options : DecodeOptions) (start : Reader) (tag : Tag) :
    Build Reader Message Unit := do
  read (skip options.depthLimit tag)
  if !options.discardUnknown then
    let stop ← source
    update (appendUnknown (start.consumed stop))

/-- Merges fields up to the end of the region, or of the group with the given number. Every round
consumes a tag, so the unread bytes bound the number of rounds. -/
def mergeFields (options : DecodeOptions) : (rounds : Nat) → MergeBody
  | 0, _ => pure ()
  | rounds + 1, group? => do
    let start ← source
    match ← read nextTag with
    | none =>
      match group? with
      | none => pure ()
      | some number => throw (.malformed start.position (.unclosedGroup number))
    | some tag =>
      if tag.wireType = .endGroup then
        if group? = some tag.number then pure ()
        else throw (.malformed start.position (.unexpectedEndGroup tag.number))
      else
        let merged ← unlessMismatched (·.2.position) <|
          mergeField options.depthLimit (mergeFields options rounds) tag
        if merged ≠ some true then keepUnknown options start tag
        mergeFields options rounds group?

/-- Merges fields up to the end of the region, or of the group with the given number. -/
def mergeBody (options : DecodeOptions) : MergeBody := fun group? => do
  mergeFields options ((← source).remaining + 1) group?

/-- Merges a whole input into a message, without asking for required fields. -/
def merge (options : DecodeOptions) (bytes : Bytes) : EStateM Error Message Unit := fun m =>
  match mergeBody options none (m, .new bytes) with
  | .ok a (m, _) => .ok a m
  | .error e (m, _) => .error e m

/-- The message that some input spells. -/
def decode (options : DecodeOptions) (type : MessageType) (bytes : Bytes) : Except Error Message :=
  match merge options bytes (.new type) with
  | .error e _ => .error e
  | .ok _ m => m.checked options.allowPartial

end Message

end Protobuf
