import Protobuf.FloatFormat.Text
import Protobuf.Message.Any
import Protobuf.Message.RawField
import Protobuf.Text.Line
import Protobuf.Text.Quoted

/-!
# Printing messages as text

Fields are printed in the order in which they are written, the unknown ones last and by number. What
cannot be known of an unknown field is guessed from its framing.
-/

namespace Protobuf.Text

/-- The settings of printing. -/
structure PrintOptions where
  /-- Unknown fields are printed. -/
  printUnknown : Bool := true
  /-- How deep unknown bytes may be guessed to be nested messages. -/
  unknownDepth : Nat := 10
  /-- Inside fewer blocks than this, the payload of an `Any` is printed as a message. -/
  anyDepth : Nat := 10
  /-- The types that payloads of `Any` may have. -/
  known? : Option Registry := none

/-- The text of a scalar. A value of an enumeration is printed by name if it has one. -/
def scalarText : Scalar → String
  | .int32 v | .sint32 v | .sfixed32 v => toString v.toInt
  | .int64 v | .sint64 v | .sfixed64 v => toString v.toInt
  | .uint32 v | .fixed32 v => toString v.toNat
  | .uint64 v | .fixed64 v => toString v.toNat
  | .float bits => FloatFormat.single.text bits.toNat
  | .double bits => FloatFormat.double.text bits.toNat
  | .bool v => if v then "true" else "false"
  | .enum type v => (type.name? v).getD (toString v.toInt)
  | .string s => quote (escapeString s)
  | .bytes b => quote (escapeBytes b)

/-! ## Unknown fields -/

/-- A word in hexadecimal, with all its leading zeros. -/
def hexText (width n : Nat) : String := "0x" ++ String.ofList (Bytes.hexDigits width n)

/-- The lines of an unknown value, given the lines of bytes that look like a message. -/
def unknownValueLines (nested? : Option (Bytes → List Line)) (label : String) :
    WireValue → List Line
  | .varint v => [.field label (toString v.toNat)]
  | .fixed32 v => [.field label (hexText 8 v.toNat)]
  | .fixed64 v => [.field label (hexText 16 v.toNat)]
  | .lengthDelimited bytes =>
    match nested? with
    | some lines =>
      if !bytes.isEmpty && RawField.areFields bytes then Line.block label (lines bytes)
      else [.field label (quote (escapeBytes bytes))]
    | none => [.field label (quote (escapeBytes bytes))]

/-- The lines of unknown fields, up to the first byte that breaks the wire format, inside open
groups that are listed with the innermost first. Groups that are open in the end are closed. Every
round consumes a tag, so the unread bytes bound the number of rounds. -/
def unknownFieldLines : (rounds depth : Nat) → (groups : List Nat) → Reader → List Line
  | 0, _, groups, _ => groups.map fun _ => .closing
  | rounds + 1, depth, groups, r =>
    let close := groups.map fun _ => Line.closing
    match Reader.nextTag r with
    | .ok (some tag) r =>
      let label := toString tag.number
      match tag.wireType with
      | .startGroup =>
        .opening label :: unknownFieldLines rounds depth (tag.number :: groups) r
      | .endGroup =>
        if groups.head? = some tag.number then
          .closing :: unknownFieldLines rounds depth groups.tail r
        else close
      | wireType =>
        match Reader.wireValue wireType r with
        | .ok value r =>
          let nested? :=
            if depth = 0 then none
            else some fun bytes => unknownFieldLines rounds (depth - 1) [] (.new bytes)
          unknownValueLines nested? label value ++ unknownFieldLines rounds depth groups r
        | .error _ _ => close
    | _ => close

/-- The lines of unknown fields. -/
def unknownLines (options : PrintOptions) (unknown : Bytes) : List Line :=
  if options.printUnknown then
    unknownFieldLines (unknown.length + 1) options.unknownDepth [] (.new unknown)
  else []

/-! ## Messages -/

variable {M : Type}

/-- The lines of a value, given the lines of a message. -/
def valueLines (body : M → List Line) (label : String) : FieldValue M → List Line
  | .scalar s => [.field label (scalarText s)]
  | .message m | .group m => Line.block label (body m)

/-- The lines of what is written with one tag, given the lines of a message that is a field's value
and of one that is a map's. -/
def visitLines (body entryBody : M → List Line) : Visit M → List Line
  | .field _ name value => valueLines body name value
  | .packed _ name scalars => scalars.map fun s => .field name (scalarText s)
  | .mapEntry _ name key value =>
    Line.block name (valueLines entryBody "key" (.scalar key) ++ valueLines entryBody "value" value)

/-- The lines of a message in which no payload of an `Any` is printed as a message. -/
def plainLines (options : PrintOptions) : Message → List Line :=
  Message.fold fun type slots unknown =>
    (type.visits (·.1.encode) slots).flatMap (visitLines (·.2) (·.2)) ++
      unknownLines options unknown

/-- The lines of a message in which payloads are printed as messages inside so many more blocks. -/
def messageLines (options : PrintOptions) (blocks : Nat) (m : Message) : List Line :=
  match blocks with
  | 0 => plainLines options m
  | blocks + 1 =>
    match if m.type = .any then Any.expanded? options.known? m else none with
    | some payload =>
      Line.block ("[" ++ Any.url m ++ "]") (messageLines options blocks payload) ++
        unknownLines options m.unknown
    | none =>
      m.visits.flatMap
          (visitLines (messageLines options blocks) (messageLines options (blocks - 1))) ++
        unknownLines options m.unknown
termination_by blocks

end Protobuf.Text

/-- A message as text. -/
def Protobuf.Message.print (options : Text.PrintOptions) (m : Message) : String :=
  Text.Line.render (Text.messageLines options options.anyDepth m)
