import Protobuf.Proofs.Arguments
import Protobuf.Proofs.CanonicalVarints
import Protobuf.Proofs.HexText

/-!
# The varint of a command-line argument

The command `varint` turns the decimal digits of an integer into the bytes of its shortest varint
and prints these in hexadecimal (`CommandLine.run_varint`). It does so for every integer that 64
bits hold, signed or not, and in zigzag order for every signed one, with any libraries that read
arguments and write hexadecimal digits as they are documented. A negative integer must stand behind
`--`, because its minus sign is taken for the hyphen of an option otherwise
(`CommandLine.run_varint_of_negative`).
-/

namespace Protobuf

/-- The bytes are a varint of the number, and no other varint of it is shorter. -/
structure Varint.Shortest (v : UInt64) (bytes : Bytes) : Prop where
  decode_eq : decode bytes = .ok (v, bytes.length)
  length_le : ∀ {other : Bytes} {k : Nat}, decode other = .ok (v, k) → bytes.length ≤ k

/-- The encoder writes the shortest varint. -/
theorem Varint.shortest_encode (v : UInt64) : Shortest v (encode v.toNat) := by
  have hdecode := decode_encode_append v []
  rw [List.append_nil] at hdecode
  exact ⟨length_encode _ ▸ hdecode, fun h => length_encode _ ▸ (size_le_of_decode h).1⟩

namespace CommandLine

/-- The word of 64 bits that stands for an integer, in zigzag order if that is asked for. -/
def wordOf (n : Int) (zigzag : Bool) : UInt64 :=
  if zigzag then ZigZag.encode64 (Int64.ofInt n) else UInt64.ofInt n

variable {n : Int} {zigzag escaped : Bool} {args : List String}

theorem toNat_wordOf_false (n : Int) : ((wordOf n false).toNat : Int) = n % 2 ^ 64 := by
  have hword : (wordOf n false).toNat = (n % 2 ^ 64).toNat := UInt64.toNat_ofInt n
  rw [hword]
  omega

theorem decode64_wordOf_true (hlow : -2 ^ 63 ≤ n) (hhigh : n < 2 ^ 63) :
    (ZigZag.decode64 (wordOf n true)).toInt = n := by
  have hword : wordOf n true = ZigZag.encode64 (Int64.ofInt n) := rfl
  rw [hword, ZigZag.decode64_encode64, Int64.toInt_ofInt_of_le hlow hhigh]

/-- Negative integers start with a hyphen, and the others do not. -/
theorem head?_toString : (toString n).toList.head? = some '-' ↔ n < 0 := by
  rcases Int.lt_or_le n 0 with hneg | hnonneg
  · rw [toList_toString_neg hneg]
    exact iff_of_true rfl hneg
  · refine iff_of_false (fun h => ?_) (Int.not_lt.2 hnonneg)
    lift n to Nat using hnonneg
    obtain ⟨c, cs, htext, hc, -⟩ := toList_toString_nat n
    rw [htext] at h
    exact absurd hc (by rw [Option.some.inj h]; decide)

theorem varintWord_toString (hlow : -2 ^ 63 ≤ n)
    (hhigh : n < if zigzag then 2 ^ 63 else 2 ^ 64) :
    varintWord (toString n) zigzag = .ok (wordOf n zigzag) := by
  cases zigzag with
  | true =>
    rw [varintWord, DecimalInteger.signed64_toString hlow hhigh]
    rfl
  | false =>
    have hhigh : n < 2 ^ 64 := hhigh
    rcases Int.lt_or_le n 0 with hneg | hnonneg
    · have hword : (Int64.ofInt n).toUInt64 = wordOf n false := Int64.toUInt64_ofInt n
      rw [varintWord, if_neg Bool.false_ne_true, if_pos (head?_toString.2 hneg),
        DecimalInteger.signed64_toString hlow (by omega), ← hword]
      rfl
    · have hword : UInt64.ofNat n.toNat = wordOf n false := by
        show _ = UInt64.ofInt n
        rw [UInt64.ofInt, Int.emod_eq_of_lt hnonneg hhigh]
      rw [varintWord, if_neg Bool.false_ne_true,
        if_neg fun h => absurd (head?_toString.1 h) (Int.not_lt.2 hnonneg),
        DecimalInteger.unsigned64_toString hnonneg hhigh, ← hword]
      rfl

/-- The command shows the shortest varint of every integer that 64 bits hold, on a line of
hexadecimal digits: in two's complement, or in zigzag order if that is asked for. Negative integers
stand behind `--`. -/
theorem run_varint {libs : Libraries} (hreads : libs.ReadsArguments) (hhex : libs.CodesHex)
    (file? : String → Option Bytes) (stdin : Bytes)
    (hargs : Hands (toString n) zigzag escaped args) (hsign : 0 ≤ n ∨ escaped = true)
    (hlow : -2 ^ 63 ≤ n) (hhigh : n < if zigzag then 2 ^ 63 else 2 ^ 64) :
    ∃ line bytes, libs.run file? stdin ("varint" :: args) = ⟨0, line, ""⟩ ∧
      HexText.IsLine line bytes ∧
      Varint.toSlice? Varint.maxLength (wordOf n zigzag).toNat = some bytes ∧
      Varint.Shortest (wordOf n zigzag) bytes ∧
      (zigzag = false → ((wordOf n zigzag).toNat : Int) = n % 2 ^ 64) ∧
      (zigzag = true → wordOf n zigzag = ZigZag.encode64 (Int64.ofInt n) ∧
        (ZigZag.decode64 (wordOf n zigzag)).toInt = n) := by
  have hvalue : (toString n).toList.head? ≠ some '-' ∨ escaped = true :=
    hsign.imp_left fun h heq => absurd (head?_toString.1 heq) (Int.not_lt.2 h)
  have hrun : libs.run file? stdin ("varint" :: args) =
      ⟨0, libs.spacedHex (Varint.encode (wordOf n zigzag).toNat) ++ "\n", ""⟩ := by
    rw [Libraries.run, hreads.varint hargs hvalue]
    dsimp only [Libraries.perform]
    rw [encodeVarint, varintWord_toString hlow hhigh, ← Varint.toArray_eq]
    rfl
  refine ⟨_, _, hrun, hhex.isLine_spacedHex _, Varint.toSlice?_maxLength _,
    Varint.shortest_encode _, fun h => ?_, fun h => ?_⟩
  · rw [h]
    exact toNat_wordOf_false n
  · subst h
    exact ⟨rfl, decode64_wordOf_true hlow hhigh⟩

theorem run_varint_minus_one :
    ∃ line bytes, Libraries.own.run (fun _ => none) [] ["varint", "--zigzag", "--", "-1"] =
        ⟨0, line, ""⟩ ∧
      HexText.IsLine line bytes ∧ Varint.Shortest 1 bytes := by
  have hargs : Hands (toString (-1 : Int)) true true ["--zigzag", "--", "-1"] := .flagEscaped
  obtain ⟨line, bytes, hrun, hline, -, hshortest, -⟩ := run_varint readsArguments_own codesHex_own
    (fun _ => none) [] hargs (.inr rfl) (by decide) (by decide)
  exact ⟨line, bytes, hrun, hline, hshortest⟩

/-- A minus sign in front of `--` is taken for the hyphen of an option, and there is no such
option. -/
theorem run_varint_of_negative {libs : Libraries} (hreads : libs.ReadsArguments)
    (file? : String → Option Bytes) (stdin : Bytes)
    (hargs : Hands (toString n) zigzag false args) (hn : n < 0) :
    (libs.run file? stdin ("varint" :: args)).exitCode = 2 := by
  have htext := toList_toString_neg hn
  cases hdigits : Nat.toDigits 10 n.natAbs with
  | nil => exact absurd hdigits Nat.toDigits_ne_nil
  | cons c cs =>
    have hc : c.isDigit = true := Nat.isDigit_of_mem_toDigits (n := n.natAbs) (by decide)
      (by decide) (hdigits ▸ List.mem_cons_self)
    have hletter : c ∉ ['-', 'v', 'h', 'V'] := by
      simp only [List.mem_cons, List.not_mem_nil, or_false]
      rintro (rfl | rfl | rfl | rfl) <;> exact absurd hc (by decide)
    rw [hdigits] at htext
    obtain ⟨errors, hstop⟩ := hreads.undeclared hargs htext hletter
    rw [Libraries.run, hstop]

/-- The first negative integer is not taken without `--`, whatever library reads the arguments as it
is documented. -/
theorem run_varint_plain_minus_one :
    -2 ^ 63 ≤ (-1 : Int) ∧ (-1 : Int) < 2 ^ 64 ∧ toString (-1 : Int) = "-1" ∧
    (∀ libs : Libraries, libs.ReadsArguments → ∀ file? stdin,
      (libs.run file? stdin ["varint", "-1"]).exitCode = 2) ∧
    Libraries.own.ReadsArguments ∧
    (Libraries.own.run (fun _ => none) [] ["varint", "-1"]).exitCode = 2 := by
  have hargs : Hands (toString (-1 : Int)) false false ["-1"] := .plain
  have hstop {libs : Libraries} (hreads : libs.ReadsArguments) (file? : String → Option Bytes)
      (stdin : Bytes) := run_varint_of_negative hreads file? stdin hargs (by decide)
  exact ⟨by decide, by decide, by decide, fun _ => hstop, readsArguments_own,
    hstop readsArguments_own _ _⟩

end CommandLine

end Protobuf
