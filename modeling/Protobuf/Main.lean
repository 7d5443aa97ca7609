import Protobuf.CommandLine.Run

/-!
# The program

Reads the input that the command asks for, and prints what the command comes to.
-/

open Protobuf

/-- Everything that standard input holds. -/
partial def readAll (stream : IO.FS.Stream) (read : ByteArray) : IO ByteArray := do
  let bytes ← stream.read 65536
  if bytes.isEmpty then return read else readAll stream (read ++ bytes)

/-- The contents of a file, if there is one under the path. -/
def readFile? (path : String) : IO (Option Bytes) := do
  try
    return some (← IO.FS.readBinFile path).toList
  catch _ => return none

/-- The input of a command. -/
def input? (command : CommandLine.Command) : IO (Option Bytes) := do
  match command, command.file? with
  | .decode _, some path => readFile? path
  | .decode _, none => return some (← readAll (← IO.getStdin) .empty).toList
  | _, _ => return some []

/-- Runs the program. -/
def main (args : List String) : IO UInt32 := do
  let libs := CommandLine.Libraries.own
  let outcome ← match libs.arguments args with
    | .error outcome => pure outcome
    | .ok command => pure (libs.perform (← input? command) command)
  (← IO.getStdout).putStr outcome.output
  (← IO.getStderr).putStr outcome.errors
  return outcome.exitCode.toUInt32
