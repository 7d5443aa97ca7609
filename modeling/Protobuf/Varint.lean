import Protobuf.Bytes
import Protobuf.Error

/-!
# Variable-length integers

A varint carries seven bits in each byte, least significant group first, and the high bit of a byte
says that another one follows. Encoding gives the shortest form. Decoding also accepts padded forms
of at most ten bytes; bits past the 64th are dropped.
-/

namespace Protobuf.Varint

/-- No varint is longer than this. -/
def maxLength : Nat := 10

/-- The shortest varint of a number. -/
def encode (n : Nat) : Bytes :=
  if n < 128 then [UInt8.ofNat n] else UInt8.ofNat (128 + n % 128) :: encode (n / 128)
termination_by n

/-- The number of bytes of the shortest varint: one for each started group of seven significant
bits, and one for zero. -/
def size (n : Nat) : Nat := (Nat.log2 (n ||| 1) + 7) / 7

theorem encode_of_lt {n : Nat} (h : n < 128) : encode n = [UInt8.ofNat n] := by
  rw [encode, if_pos h]

theorem log2_or_one {n : Nat} (h : 0 < n) : (n ||| 1).log2 = n.log2 := by
  have half : (n ||| 1) / 2 = n / 2 := by
    have : (n ||| 1) >>> 1 = n >>> 1 := by simp [Nat.shiftRight_or_distrib]
    simpa [Nat.shiftRight_eq_div_pow] using this
  by_cases hn : 2 ≤ n
  · have : n ≤ n ||| 1 := Nat.left_le_or
    rw [Nat.log2_def, Nat.log2_def n, if_pos (by omega), if_pos hn, half]
  · have : n = 1 := by omega
    subst this
    rfl

theorem log2_div_128 {n : Nat} (h : 128 ≤ n) : n.log2 = (n / 128).log2 + 7 := by
  have step : ∀ m : Nat, 2 ≤ m → m.log2 = (m / 2).log2 + 1 := fun m hm => by
    rw [Nat.log2_def, if_pos hm]
  rw [step n (by omega), step (n / 2) (by omega), step (n / 2 / 2) (by omega),
    step (n / 2 / 2 / 2) (by omega), step (n / 2 / 2 / 2 / 2) (by omega),
    step (n / 2 / 2 / 2 / 2 / 2) (by omega), step (n / 2 / 2 / 2 / 2 / 2 / 2) (by omega)]
  simp only [Nat.div_div_eq_div_mul]

/-- The size formula counts the bytes that are written. -/
theorem length_encode (n : Nat) : (encode n).length = size n := by
  fun_induction encode n with
  | case1 n h =>
    have : n = 0 ∨ 0 < n := by omega
    unfold size
    rcases this with rfl | hn
    · rfl
    · have : n.log2 < 7 := (Nat.log2_lt (by omega)).2 (by simpa using h)
      rw [log2_or_one hn]
      simp
      omega
  | case2 n h ih =>
    rw [List.length_cons, ih, size, size, log2_or_one (by omega), log2_or_one (by omega),
      log2_div_128 (n := n) (by omega)]
    omega

/-! ## Filling a slice -/

/-- So many groups that others follow, and the last one. -/
def groups : (count : Nat) → (n : Nat) → Bytes
  | 0, n => [UInt8.ofNat n]
  | count + 1, n => UInt8.ofNat (128 + n % 128) :: groups count (n / 128)

/-- What is written to the front of a slice of so many bytes, if that much room is there. The number
of groups is known before the first one is written. -/
def toSlice? (room n : Nat) : Option Bytes :=
  if n < 128 then if 0 < room then some [UInt8.ofNat n] else none
  else if size n ≤ room then some (groups (size n - 1) n) else none

theorem size_of_lt {n : Nat} (h : n < 128) : size n = 1 := by
  rw [← length_encode, encode_of_lt h, List.length_singleton]

theorem size_of_le {n : Nat} (h : 128 ≤ n) : size n = size (n / 128) + 1 := by
  rw [← length_encode, encode, if_neg (by omega), List.length_cons, length_encode]

theorem size_pos (n : Nat) : 0 < size n := by
  unfold size
  omega

/-- As many groups as the size formula counts are the shortest varint. -/
theorem groups_size (n : Nat) : groups (size n - 1) n = encode n := by
  fun_induction encode n with
  | case1 n h => rw [size_of_lt h, groups]
  | case2 n h ih =>
    have hpos := size_pos (n / 128)
    obtain ⟨count, hcount⟩ : ∃ count, size (n / 128) = count + 1 := ⟨size (n / 128) - 1, by omega⟩
    rw [hcount, Nat.add_sub_cancel] at ih
    rw [size_of_le (by omega), hcount, Nat.add_sub_cancel, groups, ih]

/-- The shortest varint is written if it fits, and nothing otherwise. -/
theorem toSlice?_eq (room n : Nat) :
    toSlice? room n = if (encode n).length ≤ room then some (encode n) else none := by
  rw [length_encode]
  unfold toSlice?
  by_cases h : n < 128
  · rw [if_pos h, size_of_lt h, encode_of_lt h]
    rfl
  · rw [if_neg h, groups_size]

theorem size_toNat_le (v : UInt64) : size v.toNat ≤ maxLength := by
  have hlog : (v.toNat ||| 1).log2 < 64 := by
    by_cases hv : 0 < v.toNat
    · rw [log2_or_one hv]
      exact (Nat.log2_lt (by omega)).2 v.toNat_lt
    · have : v.toNat = 0 := by omega
      rw [this]
      decide
  unfold size maxLength
  omega

theorem toSlice?_maxLength (v : UInt64) : toSlice? maxLength v.toNat = some (encode v.toNat) := by
  rw [toSlice?_eq, length_encode, if_pos (size_toNat_le v)]

/-- What is written to a slice with room for every varint. -/
def toArray (v : UInt64) : Bytes :=
  (toSlice? maxLength v.toNat).get (by rw [toSlice?_maxLength]; rfl)

@[simp] theorem toArray_eq (v : UInt64) : toArray v = encode v.toNat := by
  rw [toArray, Option.get_of_eq_some _ (toSlice?_maxLength v)]

/-! ## Decoding -/

/-- The seven low bits of a byte in their place behind `count` other groups. Bits past the 64th are
dropped. -/
def shifted (count : Nat) (byte : UInt8) : UInt64 :=
  if 7 * count < 64 then (byte &&& 0x7f).toUInt64 <<< UInt64.ofNat (7 * count) else 0

/-- Reads groups into `value`, of which `count` are already in it. -/
def decodeFrom (count : Nat) (value : UInt64) : Bytes → Except Error (UInt64 × Nat)
  | [] => .error (if maxLength ≤ count then .malformed maxLength .varintTooLong
      else .truncated count)
  | byte :: rest =>
    if maxLength ≤ count then .error (.malformed maxLength .varintTooLong)
    else
      let value := value ||| shifted count byte
      if byte < 128 then .ok (value, count + 1)
      else decodeFrom (count + 1) value rest

/-- The varint at the front of `bytes` and its length. Offsets of errors count from that front. -/
def decode (bytes : Bytes) : Except Error (UInt64 × Nat) := decodeFrom 0 0 bytes

/-- A decoded varint takes up bytes of the input. -/
theorem length_of_decodeFrom {count k : Nat} {value v : UInt64} {bytes : Bytes}
    (h : decodeFrom count value bytes = .ok (v, k)) : count < k ∧ k ≤ count + bytes.length := by
  induction bytes generalizing count value with
  | nil => simp [decodeFrom] at h
  | cons byte rest ih =>
    simp only [decodeFrom] at h
    split at h
    · simp at h
    · split at h
      · simp only [Except.ok.injEq, Prod.mk.injEq] at h
        simp only [List.length_cons]
        omega
      · have := ih h
        simp only [List.length_cons]
        omega

theorem length_of_decode {bytes : Bytes} {v : UInt64} {k : Nat} (h : decode bytes = .ok (v, k)) :
    0 < k ∧ k ≤ bytes.length := by
  have := length_of_decodeFrom h
  omega

end Protobuf.Varint
