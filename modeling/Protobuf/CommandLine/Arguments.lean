/-!
# Command-line arguments

How options and operands are told apart. A long option stands behind two hyphens, with a value
behind an equals sign or in the next argument; short options share one hyphen, and the value of the
last one may follow it directly. Behind a bare `--` every argument is an operand. Arguments take
effect from left to right, and the first one that cannot decides the result.
-/

namespace Protobuf.CommandLine

/-- Why the arguments give no settings. -/
inductive Stop where
  /-- The arguments are not usable. -/
  | misuse
  /-- The version was asked for. -/
  | version
  /-- Help was asked for. -/
  | help
  deriving DecidableEq, Repr

variable {σ : Type}

/-- What an option does to settings. -/
inductive Effect (σ : Type) where
  /-- Changes the settings, unless it may not be given again. -/
  | flag (apply : σ → Option σ)
  /-- Changes the settings by a value, unless it may not be given again or with that value. -/
  | value (apply : String → σ → Option σ)
  /-- Ends the program at once. -/
  | stop (reason : Stop)

/-- An option with its names. -/
structure Switch (σ : Type) where
  /-- The name behind two hyphens. -/
  long : String
  /-- The letter behind one hyphen. -/
  short? : Option Char
  /-- What the option does. -/
  effect : Effect σ

/-- The arguments that a command takes. -/
structure Grammar (σ : Type) where
  /-- The options. -/
  switches : List (Switch σ)
  /-- What an operand does to settings. Without it the first operand ends the arguments. -/
  operand? : Option (String → σ → Option σ)

/-- An argument by its form. -/
inductive Argument where
  /-- Two hyphens and nothing else. -/
  | escape
  /-- A long option, possibly with a value. -/
  | long (name : String) (value? : Option String)
  /-- Short options, of which there is at least one. -/
  | short (letters : List Char)
  /-- Anything else. -/
  | plain (text : String)
  deriving DecidableEq, Repr

/-- The form of an argument. One hyphen alone is plain. -/
def Argument.ofString (text : String) : Argument :=
  match text.toList with
  | ['-', '-'] => .escape
  | '-' :: '-' :: rest =>
    let name := rest.takeWhile (· ≠ '=')
    .long (String.ofList name) <|
      if rest.contains '=' then some (String.ofList (rest.drop (name.length + 1))) else none
  | '-' :: letter :: rest => .short (letter :: rest)
  | _ => .plain text

/-- The settings after a change, which must be possible. -/
def changed (s? : Option σ) : Except Stop σ :=
  match s? with
  | some s => .ok s
  | none => .error .misuse

/-- What comes after an argument: the settings, and the option whose value must follow, if any. -/
abbrev Progress (σ : Type) := σ × Option (String → σ → Option σ)

namespace Grammar

variable (grammar : Grammar σ)

/-- What a switch does that satisfies a test, if there is one. -/
def effect? (test : Switch σ → Bool) : Option (Effect σ) :=
  (grammar.switches.find? test).map Switch.effect

/-- Takes a long option. -/
def takeLong (name : String) (value? : Option String) (s : σ) : Except Stop (Progress σ) :=
  match grammar.effect? (·.long = name), value? with
  | some (.flag apply), none => (·, none) <$> changed (apply s)
  | some (.value apply), some value => (·, none) <$> changed (apply value s)
  | some (.value apply), none => .ok (s, some apply)
  | some (.stop reason), none => .error reason
  | _, _ => .error .misuse

/-- Takes short options. A value behind its letter may have an equals sign in front. -/
def takeShort : List Char → σ → Except Stop (Progress σ)
  | [], s => .ok (s, none)
  | letter :: rest, s =>
    match grammar.effect? (·.short? = some letter) with
    | some (.flag apply) => do takeShort rest (← changed (apply s))
    | some (.value apply) =>
      match rest with
      | [] => .ok (s, some apply)
      | '=' :: value => (·, none) <$> changed (apply (String.ofList value) s)
      | value => (·, none) <$> changed (apply (String.ofList value) s)
    | some (.stop reason) => .error reason
    | none => .error .misuse

/-- Takes an operand. -/
def takeOperand (text : String) (s : σ) : Except Stop σ :=
  changed (grammar.operand?.bind fun apply => apply text s)

/-- Takes arguments from left to right, where the value of an option may have to come first. Gives
the settings and the arguments from the first operand on, if operands end the arguments. -/
def take (pending? : Option (String → σ → Option σ)) :
    List String → σ → Except Stop (σ × List String)
  | [], s => if pending?.isSome then .error .misuse else .ok (s, [])
  | arg :: rest, s =>
    match Argument.ofString arg, pending? with
    | .plain text, some apply => do take none rest (← changed (apply text s))
    | _, some _ => .error .misuse
    | .escape, none => (·, []) <$> rest.foldlM (fun s text => grammar.takeOperand text s) s
    | .long name value?, none => do
      let (s, pending?) ← grammar.takeLong name value? s
      take pending? rest s
    | .short letters, none => do
      let (s, pending?) ← grammar.takeShort letters s
      take pending? rest s
    | .plain text, none =>
      if grammar.operand?.isNone then .ok (s, arg :: rest)
      else do take none rest (← grammar.takeOperand text s)

end Grammar

end Protobuf.CommandLine
