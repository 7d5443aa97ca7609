import Protobuf.CommandLine.Run
import Protobuf.Proofs.ScalarRoundTrip

/-!
# Hexadecimal text

Text spells bytes by their digits, in lower or upper case, and white space between them has no
meaning (`HexText.Spells`). The program leaves it to a library to write digits and to read them; of
this library no more is used than that it writes digits in lower case and reads them in both cases
(`CommandLine.Libraries.CodesHex`). Then input that spells bytes stands for these bytes, and a line
of bytes that is printed spells them.
-/

namespace Protobuf

namespace HexText

/-- The hexadecimal digits in lower case. -/
def lowerDigits : List Char :=
  ['0', '1', '2', '3', '4', '5', '6', '7', '8', '9', 'a', 'b', 'c', 'd', 'e', 'f']

theorem hexDigit_mem (n : Nat) : Bytes.hexDigit n ∈ lowerDigits := by
  have all : ∀ m < 16, Nat.digitChar m ∈ lowerDigits := by decide
  exact all _ (Nat.mod_lt _ (by decide))

theorem of_mem_lowerDigits :
    ∀ c ∈ lowerDigits, isWhiteSpace c = false ∧ c.toLower = c ∧ c.toNat < 128 := by
  have all : lowerDigits.all
      (fun c => isWhiteSpace c = false ∧ c.toLower = c ∧ c.toNat < 128) = true := by decide
  exact fun c hc => of_decide_eq_true (List.all_eq_true.1 all c hc)

theorem toList_toHex_cons (b : UInt8) (rest : Bytes) :
    (Bytes.toHex (b :: rest)).toList =
      Bytes.hexDigit (b.toNat / 16) :: Bytes.hexDigit b.toNat :: (Bytes.toHex rest).toList := by
  simp [Bytes.toHex, Bytes.hexDigits]

theorem toList_toHex_singleton (b : UInt8) :
    (Bytes.toHex [b]).toList = [Bytes.hexDigit (b.toNat / 16), Bytes.hexDigit b.toNat] :=
  toList_toHex_cons b []

theorem mem_lowerDigits_of_mem_toHex {bytes : Bytes} :
    ∀ c ∈ (Bytes.toHex bytes).toList, c ∈ lowerDigits := by
  induction bytes with
  | nil => exact List.forall_mem_nil _
  | cons b rest ih =>
    rw [toList_toHex_cons]
    exact List.forall_mem_cons.2 ⟨hexDigit_mem _, List.forall_mem_cons.2 ⟨hexDigit_mem _, ih⟩⟩

/-- What is read of a digit in either case. -/
theorem digit_of_toLower {c : Char} {n : Nat} (h : c.toLower = Bytes.hexDigit n) :
    ∃ b, String.utf8EncodeChar c = [b] ∧ ∀ index, digit b index = .ok (n % 16) := by
  have all : ∀ m < 16, ∀ k < 128, (Char.ofNat k).toLower = Nat.digitChar m →
      ∃ b ∈ String.utf8EncodeChar (Char.ofNat k),
        String.utf8EncodeChar (Char.ofNat k) = [b] ∧ Bytes.hexValue? b = some m := by
    decide +kernel
  have hlt : c.toNat < 128 := by
    by_cases hupper : c.val ≥ 'A'.val ∧ c.val ≤ 'Z'.val
    · have hle : c.toNat ≤ 90 := hupper.2
      omega
    · have hsame : c.toLower = c := dif_neg hupper
      rw [← hsame, h]
      exact (of_mem_lowerDigits _ (hexDigit_mem n)).2.2
  rw [← Char.ofNat_toNat c] at h ⊢
  obtain ⟨b, -, hb, hvalue⟩ := all _ (Nat.mod_lt _ (by decide)) _ hlt h
  exact ⟨b, hb, fun index => by rw [digit, hvalue]⟩

/-- The digits of bytes, in any cases, are read in pairs. -/
theorem pairs_of_toLower {cs : List Char} {bytes : Bytes}
    (h : cs.map Char.toLower = (Bytes.toHex bytes).toList) :
    (cs.flatMap String.utf8EncodeChar).length = 2 * bytes.length ∧
      ∀ index, pairs index (cs.flatMap String.utf8EncodeChar) = .ok bytes := by
  induction bytes generalizing cs with
  | nil =>
    obtain rfl := List.map_eq_nil_iff.1 h
    exact ⟨rfl, fun _ => rfl⟩
  | cons b rest ih =>
    rw [toList_toHex_cons] at h
    obtain ⟨c, cs, rfl, hc, h⟩ := List.map_eq_cons_iff.1 h
    obtain ⟨c', cs, rfl, hc', h⟩ := List.map_eq_cons_iff.1 h
    obtain ⟨hlen, hpairs⟩ := ih h
    obtain ⟨high, hhigh, hdigit⟩ := digit_of_toLower hc
    obtain ⟨low, hlow, hdigit'⟩ := digit_of_toLower hc'
    have hb : 16 * (b.toNat / 16 % 16) + b.toNat % 16 = b.toNat := by
      have := b.toNat_lt
      omega
    have hcons : (c :: c' :: cs).flatMap String.utf8EncodeChar =
        high :: low :: cs.flatMap String.utf8EncodeChar := by
      simp [hhigh, hlow]
    rw [hcons]
    refine ⟨?_, fun index => ?_⟩
    · rw [List.length_cons, List.length_cons, hlen, List.length_cons]
      rfl
    · rw [pairs, hdigit, hdigit', hpairs]
      show Except.ok (UInt8.ofNat (16 * (b.toNat / 16 % 16) + b.toNat % 16) :: rest) = _
      rw [hb, UInt8.ofNat_toNat]

/-- Digits in any cases are read. -/
theorem decode_of_toLower {digits : String} {bytes : Bytes}
    (h : digits.toList.map Char.toLower = (Bytes.toHex bytes).toList) :
    decode digits = .ok bytes := by
  obtain ⟨hlen, hpairs⟩ := pairs_of_toLower h
  rw [decode]
  exact (if_neg (by rw [hlen]; omega)).trans (hpairs 0)

/-- The characters of the text are the digits of the bytes, each in either case, and white space
anywhere between them. -/
def Spells (text : String) (bytes : Bytes) : Prop :=
  (text.toList.filter (!isWhiteSpace ·)).map Char.toLower = (Bytes.toHex bytes).toList

/-- White space between the words of a line has no meaning. -/
theorem filter_intercalate (words : List (List Char)) :
    (List.intercalate [' '] words).filter (!isWhiteSpace ·) =
      words.flatten.filter (!isWhiteSpace ·) := by
  induction words with
  | nil => rfl
  | cons word words ih =>
    cases words with
    | nil => simp
    | cons next words =>
      have hblank : [' '].filter (!isWhiteSpace ·) = [] := by decide
      rw [List.intercalate_cons_cons, List.flatten_cons, List.filter_append, List.filter_append, ih,
        List.filter_append, hblank, List.append_nil]

theorem filter_toHex (bytes : Bytes) :
    (Bytes.toHex bytes).toList.filter (!isWhiteSpace ·) = (Bytes.toHex bytes).toList := by
  rw [List.filter_eq_self]
  intro c hc
  rw [(of_mem_lowerDigits c (mem_lowerDigits_of_mem_toHex c hc)).1, Bool.not_false]

theorem map_toLower_toHex (bytes : Bytes) :
    (Bytes.toHex bytes).toList.map Char.toLower = (Bytes.toHex bytes).toList := by
  rw [List.map_congr_left fun c hc =>
    (of_mem_lowerDigits c (mem_lowerDigits_of_mem_toHex c hc)).2.1]
  exact List.map_id _

/-- A line that spells bytes: for each of them a word of two lower-case digits, and one blank
between words. -/
structure IsLine (line : String) (bytes : Bytes) : Prop where
  exists_words : ∃ words : List String, line = " ".intercalate words ++ "\n" ∧
    words.length = bytes.length ∧
    ∀ word ∈ words, ∃ high ∈ lowerDigits, ∃ low ∈ lowerDigits, word.toList = [high, low]
  spells : Spells line bytes

end HexText

namespace CommandLine

open HexText

/-- What the documentation says of the hexadecimal digits of bytes. -/
structure Libraries.CodesHex (libs : Libraries) : Prop where
  /-- They are written in lower case, two for each byte, the higher one first. -/
  encodeHex_eq : ∀ bytes, libs.encodeHex bytes = Bytes.toHex bytes
  /-- They are read in both cases, which may be mixed. -/
  decodeHex_eq : ∀ {digits : String} {bytes : Bytes},
    digits.toList.map Char.toLower = (Bytes.toHex bytes).toList →
      libs.decodeHex digits = .ok bytes

theorem codesHex_own : Libraries.own.CodesHex where
  encodeHex_eq _ := rfl
  decodeHex_eq {digits bytes} h := by
    show (decode digits).mapError Fault.message = .ok bytes
    rw [decode_of_toLower h]
    rfl

namespace Libraries.CodesHex

variable {libs : Libraries} (hlibs : libs.CodesHex)

include hlibs

/-- A line of bytes with blanks between them spells these bytes. -/
theorem spells_spacedHex (bytes : Bytes) : Spells (libs.spacedHex bytes ++ "\n") bytes := by
  have hwords : ((bytes.map fun b => libs.encodeHex [b]).map String.toList).flatten =
      (Bytes.toHex bytes).toList := by
    rw [List.map_map, Bytes.toHex, String.toList_ofList, List.flatMap_def]
    congr 1
    refine List.map_congr_left fun b _ => ?_
    rw [Function.comp_apply, hlibs.encodeHex_eq]
    exact toList_toHex_singleton b
  have hend : "\n".toList.filter (!isWhiteSpace ·) = [] := by decide
  have hline : (libs.spacedHex bytes ++ "\n").toList.filter (!isWhiteSpace ·) =
      (Bytes.toHex bytes).toList := by
    rw [spacedHex, String.toList_append, String.toList_intercalate, List.filter_append, hend,
      List.append_nil]
    exact (filter_intercalate _).trans (by rw [hwords, filter_toHex])
  rw [Spells, hline, map_toLower_toHex]

theorem isLine_spacedHex (bytes : Bytes) : IsLine (libs.spacedHex bytes ++ "\n") bytes := by
  refine ⟨⟨_, rfl, List.length_map _, fun word hword => ?_⟩, hlibs.spells_spacedHex bytes⟩
  obtain ⟨b, -, rfl⟩ := List.mem_map.1 hword
  rw [hlibs.encodeHex_eq]
  exact ⟨_, hexDigit_mem _, _, hexDigit_mem _, toList_toHex_singleton b⟩

/-- Hexadecimal input stands for the bytes that it spells. -/
theorem payload_hex {text : String} {bytes : Bytes} (h : Spells text bytes) :
    libs.payload .hex (Utf8.encode text) = .ok bytes := by
  have hdigits : (withoutWhiteSpace text).toList.map Char.toLower =
      (Bytes.toHex bytes).toList := by
    rw [withoutWhiteSpace, String.toList_ofList]
    exact h
  rw [payload, Utf8.decode_encode]
  show (libs.decodeHex (withoutWhiteSpace text)).mapError Failure.notHex = _
  rw [hlibs.decodeHex_eq hdigits]
  rfl

end Libraries.CodesHex

end CommandLine

end Protobuf
