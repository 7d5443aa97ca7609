import Protobuf.CommandLine.Command
import Protobuf.DecimalInteger
import Protobuf.Utf8
import Protobuf.WhiteSpace
import Protobuf.ZigZag

/-!
# The program

What the program prints, and with which exit code it ends, for its arguments and its input, given
the libraries that it is built with. Log lines, which have to be asked for, are left out.
-/

namespace Protobuf.CommandLine

/-- Why a command fails. -/
inductive Failure where
  /-- There is no file under the path. -/
  | noFile (path : String)
  /-- Hexadecimal input is not even text. -/
  | notText (fault : Utf8.Fault)
  /-- Input is no hexadecimal text. -/
  | notHex (cause : String)
  /-- Input is no message. -/
  | notMessage (error : Error)
  /-- A value is no signed integer. -/
  | notSigned (value : String) (fault : DecimalInteger.Fault)
  /-- A value is no unsigned integer. -/
  | notUnsigned (value : String) (fault : DecimalInteger.Fault)
  deriving DecidableEq, Repr

/-- What failed, and why if there is more to tell. -/
def Failure.messages : Failure → List String
  | noFile path => ["Input path is not a file: " ++ path]
  | notText fault => ["Hex input is not valid UTF-8", fault.message]
  | notHex cause => ["Invalid hex input", cause]
  | notMessage error => ["Input is not a valid protobuf payload", error.message]
  | notSigned value fault => ["Not a 64-bit signed integer: " ++ value, fault.message]
  | notUnsigned value fault => ["Not a 64-bit unsigned integer: " ++ value, fault.message]

/-- The word of 64 bits whose varint is shown for a value. A negative value stands for its two's
complement, unless zigzag order is asked for. -/
def varintWord (value : String) (zigzag : Bool) : Except Failure UInt64 :=
  let signed := (Int64.ofInt <$> DecimalInteger.signed64 value).mapError (.notSigned value)
  if zigzag then ZigZag.encode64 <$> signed
  else if value.toList.head? = some '-' then Int64.toUInt64 <$> signed
  else (UInt64.ofNat <$> DecimalInteger.unsigned64 value).mapError (.notUnsigned value)

/-- The varint that is shown for a value. -/
def encodeVarint (value : String) (zigzag : Bool) : Except Failure Bytes :=
  Varint.toArray <$> varintWord value zigzag

/-- The file that a command reads, in place of standard input. -/
def Command.file? : Command → Option String
  | .decode arguments => arguments.file?
  | .varint .. => none

namespace Libraries

variable (libs : Libraries)

/-- The bytes that input stands for. -/
def payload (form : InputForm) (input : Bytes) : Except Failure Bytes :=
  match form with
  | .binary => .ok input
  | .hex => do
    let text ← (Utf8.decode input).mapError .notText
    (libs.decodeHex (withoutWhiteSpace text)).mapError .notHex

/-- The text of a message of unknown type. -/
def decodeInput (arguments : DecodeArguments) (input : Bytes) : Except Failure String := do
  let bytes ← libs.payload arguments.form input
  let m ← (Message.decode { depthLimit := arguments.depthLimit } .empty bytes).mapError .notMessage
  return m.print { unknownDepth := arguments.unknownDepth }

/-- Bytes in hexadecimal, with blanks between them. -/
def spacedHex (bytes : Bytes) : String :=
  " ".intercalate (bytes.map fun b => libs.encodeHex [b])

/-- How the program ends with something to print, or with a report of what failed. -/
def outcome : Except Failure String → Outcome
  | .ok text => ⟨0, text, ""⟩
  | .error failure => ⟨1, "", "Error: " ++ libs.report failure.messages ++ "\n"⟩

/-- What a command comes to, given its input unless there is no file to read. -/
def perform (input? : Option Bytes) : Command → Outcome
  | .decode arguments => libs.outcome <|
    match input? with
    | none => .error (.noFile (arguments.file?.getD ""))
    | some input => libs.decodeInput arguments input
  | .varint value zigzag => libs.outcome do
    let bytes ← encodeVarint value zigzag
    return libs.spacedHex bytes ++ "\n"

/-- What a run of the program comes to, given the contents of files and standard input. -/
def run (file? : String → Option Bytes) (stdin : Bytes) (args : List String) : Outcome :=
  match libs.arguments args with
  | .error outcome => outcome
  | .ok command => libs.perform (command.file?.elim (some stdin) file?) command

end Libraries

end Protobuf.CommandLine
