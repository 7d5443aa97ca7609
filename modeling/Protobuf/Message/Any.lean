import Protobuf.Message.Decoding
import Protobuf.Message.Encoding
import Protobuf.Registry

/-!
# Messages of any type

An `Any` carries a message of another type, as bytes or as the message itself, under a URL that
names the type. A payload is resolved when it is held as a message.
-/

namespace Protobuf.Any

/-- The type URL. -/
def url (any : Message) : String :=
  match any.slots with
  | .plain (.string url) :: _ => url
  | _ => ""

/-- What is carried. -/
def payload (any : Message) : Payload Message :=
  match any.slots with
  | [_, .payload payload] => payload
  | _ => .serialized []

/-- An `Any` with a URL, a payload and unknown fields. -/
def make (url : String) (payload : Payload Message) (unknown : Bytes) : Message :=
  ⟨.any, [.plain (.string url), .payload payload], unknown⟩

/-- An `Any` that carries bytes under a URL. -/
def ofBytes (url : String) (bytes : Bytes) : Message := make url (.serialized bytes) []

/-- An `Any` that carries a message under a URL of its type. -/
def pack (message : Message) (base : String) : Message :=
  make (TypeUrl.build base message.type.fullName) (.held message) []

/-- The name of the type carried. -/
def typeName (any : Message) : String := TypeUrl.typeName (url any)

/-- The bytes of the payload. -/
def value (any : Message) : Bytes := (payload any).bytes Message.toBytes

/-- The message carried, if the payload is resolved. -/
def held? (any : Message) : Option Message :=
  match payload any with
  | .held m => some m
  | .serialized _ => none

/-- The URL names a type. -/
def holds (any : Message) (type : MessageType) : Bool := typeName any = type.fullName

/-- The message carried, as one of a type. A resolved payload of another type with the same name is
read again from its bytes. -/
def unpack (any : Message) (type : MessageType) (allowPartial : Bool) : Except Error Message :=
  if !holds any type then .error (.typeMismatch type.fullName (typeName any))
  else
    match held? any with
    | some m =>
      if m.type = type then m.checked allowPartial
      else Message.decode { allowPartial } type (value any)
    | none => Message.decode { allowPartial } type (value any)

/-- Reads the payload as a message of the type that a registry knows for the URL, and tells whether
the payload is resolved. Nothing changes if it is not. -/
def resolve (registry : Registry) : EStateM Error Message Bool := fun any =>
  match payload any with
  | .held _ => .ok true any
  | .serialized bytes =>
    match registry.lookup? (url any) with
    | none => .ok false any
    | some type =>
      match Message.decode { allowPartial := true } type bytes with
      | .ok m => .ok true (make (url any) (.held m) any.unknown)
      | .error e => .error e any

/-- The message carried, resolved through a registry if need be and if there is one. -/
def expanded? (known? : Option Registry) (any : Message) : Option Message :=
  match payload any with
  | .held m => some m
  | .serialized bytes => do
    let registry ← known?
    let type ← registry.lookup? (url any)
    (Message.decode { allowPartial := true } type bytes).toOption

end Protobuf.Any
