import Protobuf.Proofs.Arguments
import Protobuf.Proofs.HexText
import Protobuf.Proofs.Text.Rendering

/-!
# Decoding on the command line

The command `decode` takes its input as bytes or as hexadecimal text, and comes to the same either
way, with any libraries that read arguments and hexadecimal digits as they are documented
(`CommandLine.run_decode`). It succeeds if and only if the input is nothing but fields, with groups
that nest no deeper than the limit, and then prints all of them.
-/

namespace Protobuf.CommandLine

variable {libs : Libraries} {args : List String} {s t : DecodeSettings}

/-- A message without fields is printed as its unknown fields. -/
theorem print_empty (options : Text.PrintOptions) (unknown : Bytes) :
    Message.print options ⟨.empty, [], unknown⟩ =
      Text.Line.render (Text.unknownLines options unknown) := by
  have hany : MessageType.empty ≠ .any := by decide
  rw [Message.print, Text.messageLines_eq fun h => absurd h hany]
  rfl

/-- The text of some bytes, for a limit and a number of guesses. -/
def decoded (limit cap : Nat) (bytes : Bytes) : Except Failure String :=
  (Message.print { unknownDepth := cap } <$>
    Message.decode { depthLimit := limit } .empty bytes).mapError .notMessage

/-- The bytes are decoded if and only if they are fields, and all of them are printed. -/
theorem outcome_decoded (libs : Libraries) (limit cap : Nat) (bytes : Bytes) :
    ((libs.outcome (decoded limit cap bytes)).exitCode = 0 ↔
      Phrase.fields.SpelledBy limit bytes) ∧
    ((libs.outcome (decoded limit cap bytes)).exitCode = 0 → ∃ lines,
      libs.outcome (decoded limit cap bytes) = ⟨0, Text.Line.render lines, ""⟩ ∧
      Text.Rendering cap none bytes lines none ∧ Text.ShowsAll bytes lines) := by
  by_cases hspelled : Phrase.fields.SpelledBy limit bytes
  · have hdecoded : decoded limit cap bytes =
        .ok (Text.Line.render (Text.unknownLines { unknownDepth := cap } bytes)) := by
      rw [decoded, (Message.decode_empty_eq_ok_iff rfl).2 ⟨hspelled, rfl⟩, ← print_empty]
      rfl
    have hprint : ({ unknownDepth := cap } : Text.PrintOptions).printUnknown = true := rfl
    rw [hdecoded]
    exact ⟨iff_of_true rfl hspelled, fun _ => ⟨_, rfl,
      (Text.unknownLines_eq_iff hprint).1 rfl, (Text.unknownLines_of_spelledBy hprint hspelled).1⟩⟩
  · cases hdecode : Message.decode { depthLimit := limit } .empty bytes with
    | ok m => exact absurd ((Message.decode_empty_eq_ok_iff rfl).1 hdecode).1 hspelled
    | error e =>
      have hdecoded : decoded limit cap bytes = .error (.notMessage e) := by
        rw [decoded, hdecode]
        rfl
      have hexit : ¬ (libs.outcome (decoded limit cap bytes)).exitCode = 0 := by
        rw [hdecoded]
        show ¬ (1 : UInt8) = 0
        decide
      exact ⟨iff_of_false hexit hspelled, fun h => absurd h hexit⟩

theorem run_of_gives (hreads : libs.ReadsArguments) (h : Gives args {} s)
    {file? : String → Option Bytes} {stdin input bytes : Bytes}
    (hinput : s.file?.elim (some stdin) file? = some input)
    (hpayload : libs.payload (s.form?.getD .binary) input = .ok bytes) :
    libs.run file? stdin ("decode" :: args) =
      libs.outcome (decoded (s.depthLimit?.getD 100) (s.unknownDepth?.getD 10) bytes) := by
  rw [Libraries.run, hreads.decode h]
  dsimp only [Command.file?, DecodeSettings.arguments]
  rw [hinput]
  dsimp only [Libraries.perform]
  rw [Libraries.decodeInput, hpayload, decoded]
  show libs.outcome ((Message.decode { depthLimit := s.depthLimit?.getD 100 } .empty bytes).mapError
    .notMessage >>= _) = _
  cases Message.decode { depthLimit := s.depthLimit?.getD 100 } .empty bytes <;> rfl

/-- Input that is given in hexadecimal comes to the same as the bytes that it spells, whatever the
cases of its digits and wherever there is white space between them. The program succeeds if and only
if the bytes are fields, with groups that nest within the limit. Then it prints their rendering, in
which every field is shown. -/
theorem run_decode (hreads : libs.ReadsArguments) (hdigits : libs.CodesHex) {hexArgs : List String}
    (hargs : Gives args {} s) (hform : s.form? ≠ some .hex) (hhexArgs : Gives hexArgs {} t)
    (hhex : t.form? = some .hex) (hlimit : t.depthLimit? = s.depthLimit?)
    (hcap : t.unknownDepth? = s.unknownDepth?) {file? hexFile? : String → Option Bytes}
    {stdin hexStdin bytes : Bytes} {text : String}
    (hinput : s.file?.elim (some stdin) file? = some bytes)
    (hhexInput : t.file?.elim (some hexStdin) hexFile? = some (Utf8.encode text))
    (htext : HexText.Spells text bytes) :
    libs.run hexFile? hexStdin ("decode" :: hexArgs) = libs.run file? stdin ("decode" :: args) ∧
    ((libs.run file? stdin ("decode" :: args)).exitCode = 0 ↔
      Phrase.fields.SpelledBy (s.depthLimit?.getD 100) bytes) ∧
    ((libs.run file? stdin ("decode" :: args)).exitCode = 0 → ∃ lines,
      libs.run file? stdin ("decode" :: args) = ⟨0, Text.Line.render lines, ""⟩ ∧
      Text.Rendering (s.unknownDepth?.getD 10) none bytes lines none ∧
      Text.ShowsAll bytes lines) := by
  have hbinary : s.form?.getD .binary = .binary := by
    cases hs : s.form? with
    | none => rfl
    | some form =>
      cases form with
      | binary => rfl
      | hex => exact absurd hs hform
  have hrun := run_of_gives hreads hargs hinput (by rw [hbinary]; rfl)
  have hhexRun := run_of_gives hreads hhexArgs hhexInput
    (by rw [hhex]; exact hdigits.payload_hex htext)
  rw [hlimit, hcap] at hhexRun
  rw [hrun, hhexRun]
  exact ⟨rfl, outcome_decoded libs _ _ bytes⟩

/-- A number and a group, in mixed cases and with white space in the middle of a byte. -/
theorem run_decode_group :
    Libraries.own.run (fun _ => none) (Utf8.encode "08 05\n0B0 c")
        ["decode", "--input=hex", "--depth-limit", "1"] =
      Libraries.own.run (fun _ => none) [8, 5, 11, 12] ["decode", "--depth-limit", "1"] ∧
    (Libraries.own.run (fun _ => none) [8, 5, 11, 12] ["decode", "--depth-limit", "1"]).exitCode =
      0 := by
  have hlimit (s : DecodeSettings) (hfirst : s.depthLimit? = none) :
      Gives ["--depth-limit", "1"] s { s with depthLimit? := some 1 } := by
    have harguments : ["--" ++ "depth-limit", toString 1] = ["--depth-limit", "1"] := by decide
    exact harguments ▸ .separate (.depthLimit (by decide) hfirst) (by decide) (.nil _)
  have hhex : Gives ["--input=hex", "--depth-limit", "1"] {}
      { form? := some .hex, depthLimit? := some 1 } := by
    have hargument : "--" ++ "input" ++ "=" ++ "hex" = "--input=hex" := by decide
    exact hargument ▸ .joined (.hex rfl) (hlimit _ rfl)
  have htext : HexText.Spells "08 05\n0B0 c" [8, 5, 11, 12] := by
    rw [HexText.Spells]
    decide
  obtain ⟨hsame, hexit, -⟩ := @run_decode Libraries.own _ _ _ readsArguments_own codesHex_own _
    (hlimit {} rfl) (by decide) hhex rfl rfl rfl (fun _ => none) (fun _ => none) _ _ _ _ rfl rfl
    htext
  exact ⟨hsame, hexit.2 (RawField.split_eq_nil_iff.1 (by decide))⟩

end Protobuf.CommandLine
