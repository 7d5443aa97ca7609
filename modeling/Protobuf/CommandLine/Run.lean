import Protobuf.CommandLine.Arguments
import Protobuf.CommandLine.Program
import Protobuf.HexText

/-!
# Running the program

Libraries of our own, with which the program is run: they read the arguments that the program
declares and hexadecimal digits, and report errors. What is said of the use of the program, where
its arguments are not usable or ask for help, is left out.
-/

namespace Protobuf

/-- The version of the library and of the program. -/
def version : String := "0.1.0"

namespace CommandLine

/-- The name of the program. -/
def programName : String := "protowire"

/-! ## Arguments -/

/-- The arguments of `decode` that were given. -/
structure DecodeSettings where
  /-- The file to read in place of standard input. -/
  file? : Option String := none
  /-- How the input is written. -/
  form? : Option InputForm := none
  /-- How deep groups may nest. -/
  depthLimit? : Option Nat := none
  /-- How deep unknown bytes may be guessed to be nested messages. -/
  unknownDepth? : Option Nat := none
  deriving DecidableEq, Repr

/-- The arguments with their defaults where none are given. -/
def DecodeSettings.arguments (settings : DecodeSettings) : DecodeArguments :=
  let defaults : DecodeArguments := {}
  { file? := settings.file?
    form := settings.form?.getD defaults.form
    depthLimit := settings.depthLimit?.getD defaults.depthLimit
    unknownDepth := settings.unknownDepth?.getD defaults.unknownDepth }

/-- The arguments of `varint` that were given. -/
structure VarintSettings where
  /-- The integer, as text. -/
  value? : Option String := none
  /-- The integer is taken in zigzag order. -/
  zigzag : Bool := false
  deriving DecidableEq, Repr

/-- The switches that every command has. -/
def commonSwitches {σ : Type} : List (Switch σ) :=
  [⟨"verbose", some 'v', .flag some⟩, ⟨"help", some 'h', .stop .help⟩,
    ⟨"version", some 'V', .stop .version⟩]

/-- A number for a limit. -/
def limit? (text : String) : Option Nat := (DecimalInteger.unsigned64 text).toOption

/-- A setting that is given now, if it was not given before. -/
def once {α : Type} (old? new? : Option α) : Option (Option α) :=
  if old?.isSome || new?.isNone then none else some new?

/-- The arguments of `decode`. -/
def decodeGrammar : Grammar DecodeSettings where
  switches :=
    [⟨"file", some 'f', .value fun text s =>
        (once s.file? (if text.isEmpty then none else some text)).map ({ s with file? := · })⟩,
      ⟨"input", none, .value fun text s =>
        (once s.form?
          (if text = "binary" then some .binary else if text = "hex" then some .hex else none)).map
          ({ s with form? := · })⟩,
      ⟨"depth-limit", none, .value fun text s =>
        (once s.depthLimit? (limit? text)).map ({ s with depthLimit? := · })⟩,
      ⟨"unknown-depth", none, .value fun text s =>
        (once s.unknownDepth? (limit? text)).map ({ s with unknownDepth? := · })⟩]
      ++ commonSwitches
  operand? := some fun _ _ => none

/-- The arguments of `varint`. -/
def varintGrammar : Grammar VarintSettings where
  switches :=
    ⟨"zigzag", none, .flag fun s => if s.zigzag then none else some { s with zigzag := true }⟩ ::
      commonSwitches
  operand? := some fun text s => (once s.value? (some text)).map ({ s with value? := · })

/-- The arguments in front of a command's name. -/
def programGrammar : Grammar Unit where
  switches := commonSwitches
  operand? := none

/-- How the program ends where its arguments stop it, possibly behind the name of a command. -/
def Stop.outcome (command? : Option String) : Stop → Outcome
  | misuse => ⟨2, "", ""⟩
  | version =>
    ⟨0, programName ++ (command?.map ("-" ++ ·)).getD "" ++ " " ++ Protobuf.version ++ "\n", ""⟩
  | help => ⟨0, "", ""⟩

/-- The settings that the arguments of a command give. -/
def Grammar.settings {σ : Type} (grammar : Grammar σ) (command? : Option String)
    (args : List String) (s : σ) : Except Outcome (σ × List String) :=
  (grammar.take none args s).mapError (Stop.outcome command?)

/-- The command that the arguments of `varint` give. Its value must be one of them. -/
def VarintSettings.command (settings : VarintSettings) : Except Outcome Command :=
  match settings.value? with
  | some value => .ok (.varint value settings.zigzag)
  | none => .error (Stop.misuse.outcome (some "varint"))

/-- The command that the arguments select. -/
def selected (args : List String) : Except Outcome Command := do
  let ((), rest) ← programGrammar.settings none args ()
  match rest with
  | "decode" :: rest =>
    let (settings, _) ← decodeGrammar.settings (some "decode") rest {}
    return .decode settings.arguments
  | "varint" :: rest =>
    let (settings, _) ← varintGrammar.settings (some "varint") rest {}
    settings.command
  | ["help"] | ["help", "decode"] | ["help", "varint"] | ["help", "help"] =>
    .error (Stop.help.outcome none)
  | _ => .error (Stop.misuse.outcome none)

/-! ## Running -/

/-- What failed, and what caused it. -/
def errorReport : List String → String
  | what :: cause :: _ => what ++ "\n\nCaused by:\n    " ++ cause
  | messages => String.join messages

/-- The libraries with which the program is run. -/
def Libraries.own : Libraries where
  arguments := selected
  encodeHex := Bytes.toHex
  decodeHex digits := (HexText.decode digits).mapError HexText.Fault.message
  report := errorReport

/-- What a run of the program comes to, given the contents of files and standard input. -/
def run : (file? : String → Option Bytes) → (stdin : Bytes) → (args : List String) → Outcome :=
  Libraries.own.run

end CommandLine

end Protobuf
