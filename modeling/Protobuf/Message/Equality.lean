import Protobuf.FloatFormat.Basic
import Protobuf.Message.Visit

/-!
# Equality of messages

Messages of one type are equal if their fields and their unknown bytes are. Floating-point numbers
are compared as numbers: zero has no sign, and a NaN differs from everything. Two payloads of `Any`
are compared as messages if both are held and of one type, and by their bytes otherwise.
-/

namespace Protobuf

variable {M N : Type}

/-- The patterns stand for the same number. -/
def FloatFormat.sameNumber (format : FloatFormat) (a b : Nat) : Bool :=
  match format.value a, format.value b with
  | .nan, _ | _, .nan => false
  | .finite _ 0 _, .finite _ 0 _ => true
  | _, _ => a = b

/-- The scalars are equal. -/
def Scalar.equal : Scalar → Scalar → Bool
  | float a, float b => FloatFormat.single.sameNumber a.toNat b.toNat
  | double a, double b => FloatFormat.double.sameNumber a.toNat b.toNat
  | a, b => a = b

/-- Two lists have the same length, and elements at the same place are related. -/
def related {α β : Type} (relation : α → β → Bool) : List α → List β → Bool
  | [], [] => true
  | a :: as, b :: bs => relation a b && related relation as bs
  | _, _ => false

/-- The values are equal, given which messages are. -/
def Value.equal (same : M → N → Bool) : Value M → Value N → Bool
  | .scalar a, .scalar b => a.equal b
  | .message a, .message b => same a b
  | _, _ => false

/-- The payloads are equal, given how messages compare if they have one type, and their bytes. -/
def Payload.equal (compare? : M → N → Option Bool) (bytes : M → Bytes) (bytes' : N → Bytes) :
    Payload M → Payload N → Bool
  | .held a, .held b => (compare? a b).getD (bytes a = bytes' b)
  | a, b => a.bytes bytes = b.bytes bytes'

/-- The slots are equal, given how messages compare if they have one type, and their bytes. -/
def Slot.equal (compare? : M → N → Option Bool) (bytes : M → Bytes) (bytes' : N → Bytes) :
    Slot M → Slot N → Bool
  | .plain a, .plain b => a.equal b
  | .optional none, .optional none => true
  | .optional (some a), .optional (some b) => a.equal same b
  | .packed as, .packed bs => related Scalar.equal as bs
  | .repeated as, .repeated bs => related (Value.equal same) as bs
  | .map as, .map bs =>
    related (fun a b => a.1.equal b.1 && a.2.equal same b.2) as bs
  | .oneof none, .oneof none => true
  | .oneof (some (n, a)), .oneof (some (k, b)) => n = k && a.equal same b
  | .payload a, .payload b => a.equal compare? bytes bytes' b
  | _, _ => false
where
  /-- Messages of one type are equal. -/
  same (a : M) (b : N) : Bool := (compare? a b).getD false

namespace Message

/-- Whether two messages of one type are equal. Messages of different types cannot be compared. -/
def isEqual? : Message → Message → Option Bool :=
  fold fun type slots unknown other =>
    if type = other.type then
      some <|
        related (Slot.equal (fun a b => a.2 b) (·.1.encode) encode) slots other.slots &&
          unknown = other.unknown
    else none

/-- The messages have one type and are equal. -/
def equal (a b : Message) : Bool := (isEqual? a b).getD false

end Message

end Protobuf
