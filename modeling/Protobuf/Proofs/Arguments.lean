import Mathlib.Data.List.TakeWhile
import Protobuf.CommandLine.Run
import Protobuf.Proofs.Decimals

/-!
# The arguments of the commands

The program declares its arguments and leaves it to a library to read them. Of this library no more
is used than its documentation says of the declared arguments: how the options of `decode` and the
value of `varint` may be given, and that a hyphen in front of `--` starts an option
(`CommandLine.Libraries.ReadsArguments`).
-/

namespace Protobuf.CommandLine

/-! ## Ways to give arguments -/

/-- What the value of an option makes of the settings of `decode`. No option may be given twice. -/
inductive Sets : (name text : String) → DecodeSettings → DecodeSettings → Prop
  /-- The file to read. -/
  | file {path : String} {s : DecodeSettings} (nonempty : path ≠ "") (first : s.file? = none) :
    Sets "file" path s { s with file? := some path }
  /-- The input is the bytes themselves. -/
  | binary {s : DecodeSettings} (first : s.form? = none) :
    Sets "input" "binary" s { s with form? := some .binary }
  /-- The input is hexadecimal text. -/
  | hex {s : DecodeSettings} (first : s.form? = none) :
    Sets "input" "hex" s { s with form? := some .hex }
  /-- How deep groups may nest. -/
  | depthLimit {n : Nat} {s : DecodeSettings} (word : n < 2 ^ 64) (first : s.depthLimit? = none) :
    Sets "depth-limit" (toString n) s { s with depthLimit? := some n }
  /-- How often bytes may be guessed to be a message. -/
  | unknownDepth {n : Nat} {s : DecodeSettings} (word : n < 2 ^ 64)
    (first : s.unknownDepth? = none) :
    Sets "unknown-depth" (toString n) s { s with unknownDepth? := some n }

/-- Arguments of `decode` in any order, and the settings they lead to. The value of an option is an
argument of its own, or stands behind an equals sign. -/
inductive Gives : List String → DecodeSettings → DecodeSettings → Prop
  /-- No arguments. -/
  | nil (s : DecodeSettings) : Gives [] s s
  /-- An option, and its value as the next argument. -/
  | separate {name text : String} {args : List String} {s s' t : DecodeSettings}
    (sets : Sets name text s s') (plain : text.toList.head? ≠ some '-') (rest : Gives args s' t) :
    Gives (("--" ++ name) :: text :: args) s t
  /-- An option together with its value. -/
  | joined {name text : String} {args : List String} {s s' t : DecodeSettings}
    (sets : Sets name text s s') (rest : Gives args s' t) :
    Gives (("--" ++ name ++ "=" ++ text) :: args) s t

/-- Arguments of `varint` that hand over a value, with or without `--zigzag`, and behind `--` or
not. -/
inductive Hands (value : String) : (zigzag escaped : Bool) → List String → Prop where
  | plain : Hands value false false [value]
  | flagFirst : Hands value true false ["--zigzag", value]
  | flagLast : Hands value true false [value, "--zigzag"]
  | escaped : Hands value false true ["--", value]
  | flagEscaped : Hands value true true ["--zigzag", "--", value]

/-- What the documentation of the library says of the arguments that the program declares. -/
structure Libraries.ReadsArguments (libs : Libraries) : Prop where
  /-- The options of `decode` are read in any order, and those that are not given have their
  defaults. -/
  decode : ∀ {args : List String} {s : DecodeSettings}, Gives args {} s →
    libs.arguments ("decode" :: args) = .ok (.decode s.arguments)
  /-- What does not start with a hyphen is a value, and so is everything behind `--`. -/
  varint : ∀ {value : String} {zigzag escaped : Bool} {args : List String},
    Hands value zigzag escaped args → value.toList.head? ≠ some '-' ∨ escaped = true →
    libs.arguments ("varint" :: args) = .ok (.varint value zigzag)
  /-- In front of `--` a hyphen and a letter are an option, which is an error of usage unless it is
  declared. -/
  undeclared : ∀ {value : String} {zigzag : Bool} {args : List String} {letter : Char}
    {rest : List Char}, Hands value zigzag false args → value.toList = '-' :: letter :: rest →
    letter ∉ ['-', 'v', 'h', 'V'] →
    ∃ errors, libs.arguments ("varint" :: args) = .error ⟨2, "", errors⟩

/-! ## Forms of arguments -/

namespace Argument

variable {name text : String}

/-- Text that does not start with a hyphen is no option. -/
theorem ofString_plain (h : text.toList.head? ≠ some '-') : ofString text = .plain text := by
  unfold ofString
  split <;> simp_all

/-- A hyphen and a letter are a short option. -/
theorem ofString_short {letter : Char} {rest : List Char}
    (htext : text.toList = '-' :: letter :: rest) (hletter : letter ≠ '-') :
    ofString text = .short (letter :: rest) := by
  unfold ofString
  rw [htext]
  split <;> simp_all

/-- The name of an option that takes a value. -/
def IsOptionName (name : String) : Prop := name.toList ≠ [] ∧ '=' ∉ name.toList

theorem takeWhile_of_isOptionName (h : IsOptionName name) (rest : List Char) :
    (name.toList ++ '=' :: rest).takeWhile (· ≠ '=') = name.toList ∧
      name.toList.takeWhile (· ≠ '=') = name.toList := by
  have hall : ∀ c ∈ name.toList, decide (c ≠ '=') = true :=
    fun c hc => decide_eq_true fun heq => h.2 (heq ▸ hc)
  refine ⟨?_, List.takeWhile_eq_self_iff.2 hall⟩
  rw [List.takeWhile_append_of_pos hall, List.takeWhile_cons_of_neg (by simp), List.append_nil]

theorem ofString_hyphens {rest : List Char} (htext : text.toList = '-' :: '-' :: rest)
    (hne : rest ≠ []) :
    ofString text = .long (String.ofList (rest.takeWhile (· ≠ '=')))
      (if rest.contains '=' then
        some (String.ofList (rest.drop ((rest.takeWhile (· ≠ '=')).length + 1))) else none) := by
  obtain ⟨c, cs, rfl⟩ := List.exists_cons_of_ne_nil hne
  unfold ofString
  rw [htext]
  rfl

/-- Two hyphens stand in front of the name of a long option. -/
theorem ofString_long (h : IsOptionName name) : ofString ("--" ++ name) = .long name none := by
  have htext : ("--" ++ name).toList = '-' :: '-' :: name.toList := by
    rw [String.toList_append]
    rfl
  have hequals : ¬ name.toList.contains '=' = true := by
    rw [List.contains_iff_mem]
    exact h.2
  rw [ofString_hyphens htext h.1, (takeWhile_of_isOptionName h []).2, if_neg hequals,
    String.ofList_toList]

/-- A value may stand behind an equals sign. -/
theorem ofString_joined (h : IsOptionName name) (text : String) :
    ofString ("--" ++ name ++ "=" ++ text) = .long name (some text) := by
  have htext : ("--" ++ name ++ "=" ++ text).toList =
      '-' :: '-' :: (name.toList ++ '=' :: text.toList) := by
    simp [String.toList_append]
  have hequals : (name.toList ++ '=' :: text.toList).contains '=' = true := by
    rw [List.contains_iff_mem]
    exact List.mem_append_right _ List.mem_cons_self
  have hdrop : (name.toList ++ '=' :: text.toList).drop (name.toList.length + 1) = text.toList := by
    rw [List.drop_append]
    simp
  rw [ofString_hyphens htext (by simp), (takeWhile_of_isOptionName h _).1, if_pos hequals, hdrop,
    String.ofList_toList, String.ofList_toList]

end Argument

/-! ## Arguments of `decode` -/

section

variable {name text : String} {args : List String} {s s' t : DecodeSettings}

theorem limit?_toString {n : Nat} (h : n < 2 ^ 64) : limit? (toString n) = some n := by
  have hread : DecimalInteger.unsigned64 (toString (n : Int)) = .ok (n : Int).toNat :=
    DecimalInteger.unsigned64_toString (Int.natCast_nonneg n) (by omega)
  have htext : toString n = toString (n : Int) := rfl
  rw [limit?, htext, hread]
  rfl

theorem Sets.isOptionName (h : Sets name text s s') : Argument.IsOptionName name := by
  cases h <;> exact ⟨by decide, by decide⟩

/-- The option is one that takes a value, and sets what it says. -/
theorem Sets.exists_effect (h : Sets name text s s') :
    ∃ apply, decodeGrammar.effect? (·.long = name) = some (.value apply) ∧
      apply text s = some s' := by
  cases h with
  | file nonempty first =>
    refine ⟨_, rfl, ?_⟩
    have hempty : text.isEmpty = false := by
      rw [← Bool.not_eq_true, String.isEmpty_iff]
      exact nonempty
    simp [once, first, hempty]
  | binary first =>
    refine ⟨_, rfl, ?_⟩
    simp [once, first]
  | hex first =>
    refine ⟨_, rfl, ?_⟩
    simp [once, first]
  | depthLimit word first =>
    refine ⟨_, rfl, ?_⟩
    rw [limit?_toString word, once, first]
    rfl
  | unknownDepth word first =>
    refine ⟨_, rfl, ?_⟩
    rw [limit?_toString word, once, first]
    rfl

theorem take_separate (h : Sets name text s s') (plain : text.toList.head? ≠ some '-') :
    decodeGrammar.take none (("--" ++ name) :: text :: args) s =
      decodeGrammar.take none args s' := by
  obtain ⟨apply, heffect, hset⟩ := h.exists_effect
  have hvalue : decodeGrammar.take (some apply) (text :: args) s =
      decodeGrammar.take none args s' := by
    conv_lhs => unfold Grammar.take
    rw [Argument.ofString_plain plain]
    dsimp only
    rw [hset]
    rfl
  conv_lhs => unfold Grammar.take
  rw [Argument.ofString_long h.isOptionName]
  dsimp only
  unfold Grammar.takeLong
  rw [heffect]
  exact hvalue

theorem take_joined (h : Sets name text s s') :
    decodeGrammar.take none (("--" ++ name ++ "=" ++ text) :: args) s =
      decodeGrammar.take none args s' := by
  obtain ⟨apply, heffect, hset⟩ := h.exists_effect
  conv_lhs => unfold Grammar.take
  rw [Argument.ofString_joined h.isOptionName]
  dsimp only
  unfold Grammar.takeLong
  rw [heffect]
  dsimp only
  rw [hset]
  rfl

theorem take_of_gives (h : Gives args s t) : decodeGrammar.take none args s = .ok (t, []) := by
  induction h with
  | nil s => rfl
  | separate sets plain _ ih => rw [take_separate sets plain, ih]
  | joined sets _ ih => rw [take_joined sets, ih]

end

theorem selected_decode {args : List String} {s : DecodeSettings} (h : Gives args {} s) :
    selected ("decode" :: args) = .ok (.decode s.arguments) := by
  have hselect : selected ("decode" :: args) =
      (decodeGrammar.settings (some "decode") args {} >>= fun taken =>
        return .decode taken.1.arguments) := rfl
  rw [hselect, Grammar.settings, take_of_gives h]
  rfl

/-! ## Arguments of `varint` -/

section

variable {value : String} {zigzag escaped : Bool} {args rest : List String} {s : VarintSettings}

theorem selected_of_take (h : varintGrammar.take none args {} = .ok (s, rest))
    (hvalue : s.value? = some value) :
    selected ("varint" :: args) = .ok (.varint value s.zigzag) := by
  have hselect : selected ("varint" :: args) =
      (varintGrammar.settings (some "varint") args {} >>= fun taken => taken.1.command) := rfl
  rw [hselect, Grammar.settings, h]
  show s.command = _
  rw [VarintSettings.command, hvalue]

theorem take_plain (hvalue : Argument.ofString value = .plain value) (rest : List String) :
    varintGrammar.take none (value :: rest) { zigzag := zigzag } =
      varintGrammar.take none rest { value? := some value, zigzag := zigzag } := by
  conv_lhs => unfold Grammar.take
  rw [hvalue]
  rfl

/-- The command takes its value and its flag in either order. A value that is no option needs no
`--`. -/
theorem selected_varint (h : Hands value zigzag escaped args)
    (hvalue : value.toList.head? ≠ some '-' ∨ escaped = true) :
    selected ("varint" :: args) = .ok (.varint value zigzag) := by
  have hplain := hvalue.imp_left Argument.ofString_plain
  cases h with
  | plain => exact selected_of_take (take_plain (hplain.resolve_right (by decide)) []) rfl
  | flagFirst =>
    have htake : varintGrammar.take none ["--zigzag", value] {} =
        varintGrammar.take none [value] { zigzag := true } := rfl
    exact selected_of_take
      (htake.trans (take_plain (hplain.resolve_right (by decide)) [])) rfl
  | flagLast =>
    exact selected_of_take (take_plain (hplain.resolve_right (by decide)) ["--zigzag"]) rfl
  | escaped => rfl
  | flagEscaped => rfl

theorem take_undeclared {letter : Char} {letters : List Char}
    (htext : value.toList = '-' :: letter :: letters) (hletter : letter ∉ ['-', 'v', 'h', 'V'])
    (rest : List String) (s : VarintSettings) :
    varintGrammar.take none (value :: rest) s = .error .misuse := by
  simp only [List.mem_cons, List.not_mem_nil, or_false, not_or] at hletter
  obtain ⟨hhyphen, hv, hh, hV⟩ := hletter
  have heffect : varintGrammar.effect? (·.short? = some letter) = none := by
    simp [Grammar.effect?, varintGrammar, commonSwitches, Ne.symm hv, Ne.symm hh, Ne.symm hV]
  unfold Grammar.take
  rw [Argument.ofString_short htext hhyphen]
  show (varintGrammar.takeShort (letter :: letters) s >>= _) = _
  rw [Grammar.takeShort, heffect]
  rfl

theorem selected_undeclared {letter : Char} {letters : List Char}
    (h : Hands value zigzag false args) (htext : value.toList = '-' :: letter :: letters)
    (hletter : letter ∉ ['-', 'v', 'h', 'V']) :
    selected ("varint" :: args) = .error ⟨2, "", ""⟩ := by
  have hmisuse : varintGrammar.take none args {} = .error .misuse := by
    cases h with
    | plain => exact take_undeclared htext hletter [] _
    | flagFirst => exact take_undeclared htext hletter [] _
    | flagLast => exact take_undeclared htext hletter ["--zigzag"] _
  have hselect : selected ("varint" :: args) =
      (varintGrammar.settings (some "varint") args {} >>= _) := rfl
  rw [hselect, Grammar.settings, hmisuse]
  rfl

end

theorem readsArguments_own : Libraries.own.ReadsArguments where
  decode := selected_decode
  varint := selected_varint
  undeclared h htext hletter := ⟨"", selected_undeclared h htext hletter⟩

end Protobuf.CommandLine
