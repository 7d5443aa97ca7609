import Protobuf.Message.Any
import Protobuf.Text.Scalar

/-!
# Parsing messages from text

Text is merged into a message field by field. A field that the type does not declare is an error, or
is skipped if the options say so. What was merged before an error stays merged.
-/

namespace Protobuf.Text

open Build

/-- The settings of parsing. -/
structure ParseOptions where
  /-- Fields that the type does not declare are skipped. -/
  ignoreUnknown : Bool := false
  /-- Extensions that the type does not declare are skipped. -/
  ignoreExtensions : Bool := false
  /-- How deep blocks may nest. -/
  depthLimit : Nat := 10
  /-- Required fields may be missing. -/
  allowPartial : Bool := false
  /-- The types that expanded payloads of `Any` may have. -/
  known? : Option Registry := none

/-! ## Blocks, lists and separators -/

namespace Scan

/-- Opens a block and gives the character that closes it. -/
def openBlock : Scan Char := do
  if ← tryChar '\x7b' then return '\x7d'
  else if ← tryChar '<' then return '>'
  else fail .expectedBlock

/-- Counts a block that was opened, within the limit. -/
def enter (limit : Nat) : Scan Unit := do
  modify fun c => { c with depth := c.depth + 1 }
  if limit < (← get).depth then throw (.textDepthLimit limit)

/-- Counts a block as closed. -/
def leave : Scan Unit := modify fun c => { c with depth := c.depth - 1 }

/-- Reads a separator behind a field, if there is one. -/
def separator : Scan Unit := do
  if !(← tryChar ',') then
    let _ ← tryChar ';'

/-- A block comes next after blanks. -/
def atBlock : Scan Bool := do
  let next ← peek
  return next = some (byte '\x7b') || next = some (byte '<')

/-- Reads the colon behind a field's name, if there is one, and remembers whether there is. -/
def colon : Scan Unit := do
  let sawColon ← tryChar ':'
  modify fun c => { c with sawColon }

/-- Tells whether a sequence of fields ends here: with the closing character of its block, which is
read then, or with the text. -/
def finished : Option Char → Scan Bool
  | some close => do
    if ← tryChar close then return true
    else if (← peek).isNone then fail (.expectedChar close)
    else return false
  | none => return (← peek).isNone

/-! ## Skipping -/

/-- Skips a scalar. -/
def skipScalar : Scan Unit := do
  if ← atString then
    let _ ← stringLiteral
  else
    let _ ← numberToken

mutual

/-- Skips a field's value. Every round consumes a byte, so the unread bytes bound the number of
rounds. -/
def skipValue (limit : Nat) : (rounds : Nat) → (sawColon : Bool) → Scan Unit
  | 0, _ => fail .expectedColonOrBlock
  | rounds + 1, sawColon => do
    if ← atBlock then skipBlock limit rounds
    else if sawColon then
      if (← peek) = some (byte '[') then
        expect '['
        if !(← tryChar ']') then skipElements limit rounds
      else skipScalar
    else fail .expectedColonOrBlock

/-- Skips a block. -/
def skipBlock (limit : Nat) : (rounds : Nat) → Scan Unit
  | 0 => fail .expectedBlock
  | rounds + 1 => do
    let close ← openBlock
    enter limit
    skipFields limit close rounds
    leave

/-- Skips the fields of a block up to the closing character. -/
def skipFields (limit : Nat) (close : Char) : (rounds : Nat) → Scan Unit
  | 0 => fail .expectedFieldName
  | rounds + 1 => do
    if !(← tryChar close) then
      let _ ← fieldName
      let sawColon ← tryChar ':'
      skipValue limit rounds sawColon
      separator
      skipFields limit close rounds

/-- Skips the elements of a list up to its end. -/
def skipElements (limit : Nat) : (rounds : Nat) → Scan Unit
  | 0 => fail (.expectedChar ',')
  | rounds + 1 => do
    if ← atBlock then skipBlock limit rounds else skipScalar
    if !(← tryChar ']') then
      expect ','
      skipElements limit rounds

end

/-! ## Composite fields -/

variable {α κ ν : Type}

/-- Reads the elements of a list up to its end. -/
def elements (read : Scan α) : (rounds : Nat) → Build Cursor (List α) Unit
  | 0 => pure ()
  | rounds + 1 => do
    let a ← Build.read read
    update (· ++ [a])
    if !(← Build.read (tryChar ']')) then
      Build.read (expect ',')
      elements read rounds

/-- Reads one element of a repeated field, or a list of them. -/
def repeated (read : Scan α) : Build Cursor (List α) Unit := do
  if ← Build.read (tryChar '[') then
    if !(← Build.read (tryChar ']')) then
      elements read ((← source).rest.length + 1)
  else
    let a ← Build.read read
    update (· ++ [a])

/-- Reads the fields of a map entry up to the closing character. -/
def entryFields (readKey : Scan κ) (readValue : Scan ν) (close : Char) :
    (rounds : Nat) → Build Cursor (κ × ν) Unit
  | 0 => pure ()
  | rounds + 1 => do
    if !(← read (tryChar close)) then
      let line ← read line
      let name ← read fieldName
      read colon
      if name = .plain "key" then
        let key ← read readKey
        update fun entry => (key, entry.2)
      else if name = .plain "value" then
        let value ← read readValue
        update fun entry => (entry.1, value)
      else throw (.unknownField name.display line)
      read separator
      entryFields readKey readValue close rounds

/-- Reads a map entry, of which the key and the value may be missing. -/
def mapEntry (limit : Nat) (zero : κ × ν) (readKey : Scan κ) (readValue : Scan ν) :
    Scan (κ × ν) := do
  let close ← openBlock
  enter limit
  let entry ← alone zero do
    entryFields readKey readValue close ((← source).rest.length + 1)
  leave
  return entry

end Scan

/-! ## Messages -/

/-- How the fields of a message are merged up to a closing character or the end of the text. -/
abbrev MergeBody := Option Char → Build Cursor Message Unit

/-- Merges a block into a message. -/
def block (limit : Nat) (body : MergeBody) : Build Cursor Message Unit := do
  let close ← read Scan.openBlock
  read (Scan.enter limit)
  body (some close)
  read Scan.leave

/-- Reads one value of a field; a message starts out new. -/
def value (limit : Nat) (body : MergeBody) : FieldKind → Scan (Value Message)
  | .scalar kind => .scalar <$> Scan.scalar kind
  | .message type | .group type => .message <$> alone (.new type) (block limit body)

/-- Merges one field into the slot of the member that has a field with the name. The message of a
oneof starts out new, that of an optional field is created first and kept. -/
def mergeMember (limit : Nat) (body : MergeBody) (name : String) :
    Member → Build Cursor (Slot Message) Unit
  | .plain _ _ kind => do
    let s ← read (Scan.scalar kind)
    put (.plain s)
  | .optional field _ =>
    match field.kind with
    | .scalar kind => do
      let s ← read (Scan.scalar kind)
      put (.optional (some (.scalar s)))
    | .message type | .group type =>
      zoom (Slot.optionalMessage type) (fun _ m => .optional (some (.message m)))
        (block limit body)
  | .packed _ _ kind =>
    zoom Slot.packedScalars (fun _ ss => .packed ss) (Scan.repeated (Scan.scalar kind))
  | .repeated field =>
    zoom Slot.repeatedValues (fun _ vs => .repeated vs)
      (Scan.repeated (value limit body field.kind))
  | .map _ _ key kind => do
    let (k, v) ← read <|
      Scan.mapEntry limit (key.zero, kind.zero) (Scan.scalar key) (value limit body kind)
    update fun slot => .map (insertEntry k v slot.mapEntries)
  | .oneof fields =>
    match fields.find? (·.name = name) with
    | none => pure ()
    | some field => do
      let v ← read (value limit body field.kind)
      put (.oneof (some (field.number, v)))
  | .payload _ _ => do
    let b ← read Scan.bytes
    put (.payload (.serialized b))

/-- Merges the field with a name into a message, and tells whether the type declares it. -/
def mergeField (limit : Nat) (body : MergeBody) (name : String) : Build Cursor Message Bool :=
  fun (m, c) =>
    match Message.member? m.type (·.hasName name) with
    | none => .ok false (m, c)
    | some (i, member) =>
      (do Message.atSlot i member (mergeMember limit body name member); pure true) (m, c)

/-- Replaces the URL and the payload of an `Any` by a block whose type the registry knows. -/
def mergeExpanded (options : ParseOptions) (body : MergeBody) (url : String) :
    Build Cursor Message Unit := do
  match options.known?.bind (·.lookup? url) with
  | none => throw (.typeNotRegistered url)
  | some type =>
    let m ← read (alone (.new type) (block options.depthLimit body))
    update fun any => Any.make url (.held m) any.unknown

/-- Merges the field that has a name of some form, and tells whether there is one. A URL in brackets
stands for the expanded payload of an `Any`, another bracketed name for an extension. -/
def mergeNamed (options : ParseOptions) (body : MergeBody) (name : FieldName) :
    Build Cursor Message Bool := do
  let m ← current
  match name with
  | .plain name => mergeField options.depthLimit body name
  | .number number =>
    match m.type.textName? number with
    | some name => mergeField options.depthLimit body name
    | none => pure false
  | .bracketed url =>
    if url.toList.contains '/' then
      if m.type = .any then
        mergeExpanded options body url
        pure true
      else pure false
    else mergeField options.depthLimit body name.display

/-- The options let a field with a name of some form be skipped. -/
def ParseOptions.ignores (options : ParseOptions) : FieldName → Bool
  | .bracketed _ => options.ignoreExtensions
  | _ => options.ignoreUnknown

/-- Merges fields up to a closing character or the end of the text. Every round consumes a name, so
the unread bytes bound the number of rounds. -/
def mergeFields (options : ParseOptions) : (rounds : Nat) → MergeBody
  | 0, _ => pure ()
  | rounds + 1, close? => do
    if !(← read (Scan.finished close?)) then
      let line ← read Scan.line
      let name ← read Scan.fieldName
      read Scan.colon
      if !(← mergeNamed options (mergeFields options rounds) name) then
        if !options.ignores name then throw (.unknownField name.display line)
        let c ← source
        read (Scan.skipValue options.depthLimit (2 * c.rest.length + 2) c.sawColon)
      read Scan.separator
      mergeFields options rounds close?

/-- Merges fields up to a closing character or the end of the text. -/
def mergeBody (options : ParseOptions) : MergeBody := fun close? => do
  mergeFields options ((← source).rest.length + 1) close?

end Protobuf.Text

namespace Protobuf.Message

/-- Merges text into a message; in the end no required field may be missing, unless the options
allow it. -/
def mergeText (options : Text.ParseOptions) (text : String) : EStateM Error Message Unit := fun m =>
  match Text.mergeBody options none (m, .new text) with
  | .error e (m, _) => .error e m
  | .ok _ (m, _) =>
    match m.checked options.allowPartial with
    | .ok _ => .ok () m
    | .error e => .error e m

/-- The message that some text spells. -/
def parse (options : Text.ParseOptions) (type : MessageType) (text : String) :
    Except Error Message :=
  match mergeText options text (.new type) with
  | .ok _ m => .ok m
  | .error e _ => .error e

end Protobuf.Message
