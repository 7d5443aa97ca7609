import Protobuf.Text.Printing

/-!
# Commands

The commands of the program with their arguments, how a run of the program ends, and what the
program takes from libraries.
-/

namespace Protobuf.CommandLine

/-- How the input of `decode` is written. -/
inductive InputForm where
  /-- The bytes themselves. -/
  | binary
  /-- Hexadecimal text. -/
  | hex
  deriving DecidableEq, Repr

/-- The arguments of `decode`, with their defaults. -/
structure DecodeArguments where
  /-- The file to read in place of standard input. -/
  file? : Option String := none
  /-- How the input is written. -/
  form : InputForm := .binary
  /-- How deep groups may nest. -/
  depthLimit : Nat := DecodeOptions.depthLimit {}
  /-- How deep unknown bytes may be guessed to be nested messages. -/
  unknownDepth : Nat := Text.PrintOptions.unknownDepth {}
  deriving DecidableEq, Repr

/-- What the program is asked to do. -/
inductive Command where
  /-- Print a binary message as text. -/
  | decode (arguments : DecodeArguments)
  /-- Show the varint of an integer, which is given as text, possibly in zigzag order. -/
  | varint (value : String) (zigzag : Bool)
  deriving DecidableEq, Repr

/-- How a run of the program ends. -/
structure Outcome where
  /-- The exit code. -/
  exitCode : UInt8
  /-- What goes to standard output. -/
  output : String
  /-- What goes to standard error. -/
  errors : String
  deriving DecidableEq, Repr

/-- What the program takes from libraries. -/
structure Libraries where
  /-- Reads the arguments of the program: the command that they select, or how the program ends
  without one, because they are not usable or only ask for help or the version. -/
  arguments : List String → Except Outcome Command
  /-- Writes bytes as hexadecimal digits. -/
  encodeHex : Bytes → String
  /-- Reads hexadecimal digits, or tells what is wrong with them. -/
  decodeHex : String → Except String Bytes
  /-- The report of an error, from the messages of the error and its causes, outermost first. -/
  report : List String → String

end Protobuf.CommandLine
