import Protobuf.Utf8

/-!
# Quoted text

How bytes and strings are written as string literals: control characters, quotes and the backslash
are escaped, and so are bytes beyond ASCII. In a string other characters stand for themselves.
-/

namespace Protobuf.Text

/-- The letter that stands for a byte behind a backslash, where there is one. -/
def escapeLetter? (b : UInt8) : Option Char :=
  match b.toNat with
  | 7 => some 'a'
  | 8 => some 'b'
  | 9 => some 't'
  | 10 => some 'n'
  | 11 => some 'v'
  | 12 => some 'f'
  | 13 => some 'r'
  | 34 => some '"'
  | 39 => some '\''
  | 92 => some '\\'
  | _ => none

/-- The three octal digits of a byte. -/
def octal (b : UInt8) : List Char :=
  [b.toNat / 64, b.toNat / 8 % 8, b.toNat % 8].map Nat.digitChar

/-- A byte as it is written inside quotes. -/
def escapeByte (b : UInt8) : List Char :=
  match escapeLetter? b with
  | some letter => ['\\', letter]
  | none =>
    if 32 ≤ b ∧ b ≤ 126 then [Char.ofNat b.toNat]
    else '\\' :: octal b

/-- A character as it is written inside quotes. -/
def escapeChar (c : Char) : List Char :=
  if c.toNat < 128 then escapeByte (UInt8.ofNat c.toNat) else [c]

/-- Bytes as they are written inside quotes. -/
def escapeBytes (bytes : Bytes) : String := String.ofList (bytes.flatMap escapeByte)

/-- A string as it is written inside quotes. -/
def escapeString (s : String) : String := String.ofList (s.toList.flatMap escapeChar)

/-- Text between quotes. -/
def quote (escaped : String) : String := "\"" ++ escaped ++ "\""

theorem printable_of_escapeLetter? {b : UInt8} {letter : Char}
    (h : escapeLetter? b = some letter) : 32 ≤ letter.toNat ∧ letter.toNat ≤ 126 := by
  unfold escapeLetter? at h
  split at h <;> simp only [Option.some.injEq, reduceCtorEq] at h <;> subst h <;> decide

theorem printable_digitChar :
    ∀ n < 8, 32 ≤ (Nat.digitChar n).toNat ∧ (Nat.digitChar n).toNat ≤ 126 := by
  decide

theorem toNat_ofNat_of_lt {n : Nat} (h : n < 256) : (Char.ofNat n).toNat = n := by
  have valid : n.isValidChar := Or.inl (by omega)
  rw [Char.ofNat, dif_pos valid]
  rfl

/-- What is written for a byte is printable ASCII. -/
theorem printable_of_mem_escapeByte {b : UInt8} {c : Char} (h : c ∈ escapeByte b) :
    32 ≤ c.toNat ∧ c.toNat ≤ 126 := by
  have := b.toNat_lt
  unfold escapeByte at h
  split at h
  · rename_i letter hletter
    simp only [List.mem_cons, List.not_mem_nil, or_false] at h
    rcases h with rfl | rfl
    · decide
    · exact printable_of_escapeLetter? hletter
  · split at h
    · rename_i hrange
      simp only [List.mem_singleton] at h
      rw [h, toNat_ofNat_of_lt this]
      exact ⟨UInt8.le_iff_toNat_le.1 hrange.1, UInt8.le_iff_toNat_le.1 hrange.2⟩
    · rcases List.mem_cons.1 h with rfl | h
      · decide
      · obtain ⟨n, hn, rfl⟩ := List.mem_map.1 h
        apply printable_digitChar
        simp only [List.mem_cons, List.not_mem_nil, or_false] at hn
        omega

end Protobuf.Text
