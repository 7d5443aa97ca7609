import Mathlib.Algebra.BigOperators.Fin
import Mathlib.Algebra.BigOperators.Intervals
import Mathlib.Tactic.Ring
import Protobuf.Proofs.Spelling
import Protobuf.Writer

/-!
# Canonical varints

A varint ends at the first byte below 128, which must be among the first ten, and decoding gives the
sum of the groups up to there (`Varint.decode_eq`). The encoder writes the shortest of the varints
that stand for a number, and only the numbers that need all ten bytes have another one of that
length (`Varint.decode_exact`).
-/

namespace Protobuf.Varint

open Finset

/-! ## The last group and the sum of the groups -/

/-- The index of the byte that ends the varint at the front of some bytes. -/
def lastIndex? (bytes : Bytes) : Option Nat := (bytes.take maxLength).findIdx? (· < 128)

/-- The sum of the groups in the first bytes, each of them seven bits higher than the one before. -/
def groupSum (bytes : Bytes) (count : Nat) : Nat :=
  ∑ i ∈ range count, (bytes.getD i 0).toNat % 128 * 2 ^ (7 * i)

theorem groupSum_cons (byte : UInt8) (rest : Bytes) (count : Nat) :
    groupSum (byte :: rest) (count + 1) = byte.toNat % 128 + 128 * groupSum rest count := by
  have hshift : ∀ i, (rest.getD i 0).toNat % 128 * 2 ^ (7 * (i + 1)) =
      128 * ((rest.getD i 0).toNat % 128 * 2 ^ (7 * i)) := fun i => by
    rw [two_pow_succ_group]
    ring
  have hsum : groupSum (byte :: rest) (count + 1) =
      (∑ i ∈ range count, (rest.getD i 0).toNat % 128 * 2 ^ (7 * (i + 1))) +
        byte.toNat % 128 * 2 ^ (7 * 0) := sum_range_succ' _ count
  rw [hsum, sum_congr rfl fun i _ => hshift i, ← mul_sum, Nat.mul_zero, Nat.pow_zero, Nat.mul_one,
    Nat.add_comm]
  rfl

/-- What is wrong with so many bytes if none of them ends a varint. -/
def unendedError (length : Nat) : Error :=
  if maxLength ≤ length then .malformed maxLength .varintTooLong else .truncated length

/-- Groups are read into a value up to the byte that ends the varint. -/
theorem decodeFrom_eq (bytes : Bytes) {count value : Nat} (hcount : count ≤ maxLength)
    (hvalue : value < 2 ^ (7 * count)) :
    decodeFrom count (UInt64.ofNat value) bytes =
      ((bytes.take (maxLength - count)).findIdx? (· < 128)).elim
        (.error (unendedError (count + bytes.length)))
        fun i => .ok (UInt64.ofNat (value + groupSum bytes (i + 1) <<< (7 * count)),
          count + i + 1) := by
  induction bytes generalizing count value with
  | nil =>
    rw [List.take_nil, List.findIdx?_nil]
    rfl
  | cons byte rest ih =>
    rcases Nat.lt_or_eq_of_le hcount with hlt | rfl
    · obtain ⟨left, hleft⟩ : ∃ left, maxLength - count = left + 1 :=
        ⟨maxLength - count - 1, by omega⟩
      have hrest : maxLength - (count + 1) = left := by omega
      rw [decodeFrom_cons hlt, ofNat_or_shifted hlt hvalue, hleft, List.take_succ_cons,
        List.findIdx?_cons]
      by_cases hlast : byte < 128
      · have hsum : groupSum (byte :: rest) 1 = byte.toNat % 128 := groupSum_cons byte rest 0
        rw [if_pos hlast, if_pos (decide_eq_true hlast), Option.elim_some, hsum]
      · rw [if_neg hlast, if_neg (by simpa using hlast), ih hlt (add_group_lt hvalue byte), hrest]
        cases (rest.take left).findIdx? (· < 128) with
        | some i =>
          rw [Option.map_some, Option.elim_some, Option.elim_some, groupSum_cons,
            add_shiftLeft_group, Nat.add_assoc count 1 i, Nat.add_comm 1 i]
        | none =>
          rw [Option.map_none, Option.elim_none, Option.elim_none, List.length_cons,
            Nat.succ_add_eq_add_succ]
    · rw [decodeFrom, if_pos (Nat.le_refl _), Nat.sub_self, List.take_zero, List.findIdx?_nil,
        Option.elim_none, unendedError, if_pos (Nat.le_add_right _ _)]

/-- What is decoded, for any bytes. -/
theorem decode_eq (bytes : Bytes) :
    decode bytes = (lastIndex? bytes).elim (.error (unendedError bytes.length))
      fun i => .ok (UInt64.ofNat (groupSum bytes (i + 1)), i + 1) := by
  have h := decodeFrom_eq bytes (Nat.zero_le maxLength) Nat.one_pos
  simp only [Nat.zero_add, Nat.sub_zero, Nat.mul_zero, Nat.shiftLeft_zero] at h
  exact h

theorem decode_eq_ok_iff_groupSum {bytes : Bytes} {v : UInt64} {k : Nat} :
    decode bytes = .ok (v, k) ↔
      ∃ i, lastIndex? bytes = some i ∧ k = i + 1 ∧ v.toNat = groupSum bytes k % 2 ^ 64 := by
  rw [decode_eq]
  cases lastIndex? bytes with
  | none => simp
  | some i =>
    rw [Option.elim_some, Except.ok.injEq, Prod.mk.injEq]
    constructor
    · rintro ⟨rfl, rfl⟩
      exact ⟨i, rfl, rfl, UInt64.toNat_ofNat'⟩
    · rintro ⟨_, hi, rfl, hv⟩
      cases hi
      exact ⟨UInt64.toNat_inj.1 (UInt64.toNat_ofNat'.trans hv.symm), rfl⟩

/-! ## The shortest varint -/

theorem lt_of_groups {bytes : Bytes} {n : Nat} (h : Groups bytes n) : n < 128 ^ bytes.length := by
  induction h with
  | last hlast => exact UInt8.lt_iff_toNat_lt.1 hlast
  | @more byte rest n hmore _ ih =>
    rw [List.length_cons, Nat.pow_succ]
    omega

/-- A number of so many groups needs no more bytes. -/
theorem size_le_of_lt {n k : Nat} (hk : 0 < k) (h : n < 128 ^ k) : size n ≤ k := by
  induction k generalizing n with
  | zero => omega
  | succ k ih =>
    by_cases hn : n < 128
    · rw [size_of_lt hn]
      exact Nat.le_add_left 1 k
    · rw [Nat.pow_succ] at h
      have hpos : 0 < k := Nat.pos_of_ne_zero fun hk => by
        rw [hk, Nat.pow_zero] at h
        omega
      rw [size_of_le (by omega)]
      exact Nat.succ_le_succ (ih hpos (by omega))

theorem length_pos_of_groups {bytes : Bytes} {n : Nat} (h : Groups bytes n) : 0 < bytes.length := by
  cases h <;> exact Nat.succ_pos _

/-- Groups that are not more than are needed are the shortest varint. -/
theorem eq_encode_of_groups {bytes : Bytes} {n : Nat} (h : Groups bytes n)
    (hlen : bytes.length = size n) : bytes = encode n := by
  induction h with
  | @last byte hlast =>
    rw [encode_of_lt (UInt8.lt_iff_toNat_lt.1 hlast), UInt8.ofNat_toNat]
  | @more byte rest n hmore others ih =>
    have hbyte : 128 ≤ byte.toNat := UInt8.le_iff_toNat_le.1 hmore
    have htop : byte.toNat < 256 := byte.toNat_lt
    have hrest := length_pos_of_groups others
    rw [List.length_cons] at hlen
    have hlarge : ¬ byte.toNat % 128 + 128 * n < 128 := fun hlt => by
      rw [size_of_lt hlt] at hlen
      omega
    have hdiv : (byte.toNat % 128 + 128 * n) / 128 = n := by omega
    have hmod : 128 + (byte.toNat % 128 + 128 * n) % 128 = byte.toNat := by omega
    rw [size_of_le (Nat.le_of_not_lt hlarge), hdiv] at hlen
    rw [encode, if_neg hlarge, hdiv, hmod, UInt8.ofNat_toNat, ← ih (by omega)]

/-- No byte before the last one ends a varint. -/
theorem findIdx?_take_of_groups {bytes : Bytes} {n : Nat} (h : Groups bytes n) {count : Nat}
    (hcount : count < bytes.length) : (bytes.take count).findIdx? (· < 128) = none := by
  induction h generalizing count with
  | last =>
    obtain rfl : count = 0 := Nat.lt_one_iff.1 hcount
    rfl
  | @more byte rest n hmore _ ih =>
    cases count with
    | zero => rfl
    | succ count =>
      have hbyte : ¬ (byte < 128) := UInt8.not_lt.2 hmore
      rw [List.take_succ_cons, List.findIdx?_cons, if_neg (by simpa using hbyte),
        ih (Nat.lt_of_succ_lt_succ hcount)]
      rfl

/-- The shortest varint is decoded, whatever stands behind it. -/
theorem decode_encode_append (v : UInt64) (more : Bytes) :
    decode (encode v.toNat ++ more) = .ok (v, size v.toNat) := by
  have hstands : StandsFor (encode v.toNat) v.toNat := spells_iff.1 (spells_encode v.toNat_lt)
  exact decode_eq_ok_iff.2 ⟨_, more, rfl, (length_encode _).symm, hstands⟩

/-- No varint of a number is shorter than what is written for it, and another one of that length
has ten bytes. -/
theorem size_le_of_decode {bytes : Bytes} {v : UInt64} {k : Nat} (h : decode bytes = .ok (v, k)) :
    size v.toNat ≤ k ∧ (k = size v.toNat → k < maxLength → bytes.take k = encode v.toNat) := by
  obtain ⟨front, rest, rfl, rfl, m, hgroups, -, hv⟩ := decode_eq_ok_iff.1 h
  have hlt := lt_of_groups hgroups
  have hle : v.toNat ≤ m := hv ▸ Nat.mod_le m _
  refine ⟨size_le_of_lt (length_pos_of_groups hgroups) (Nat.lt_of_le_of_lt hle hlt), ?_⟩
  intro hlen hshort
  have hnine : 128 ^ front.length ≤ 128 ^ 9 :=
    Nat.pow_le_pow_right (by decide) (Nat.le_of_lt_succ hshort)
  have hbound : (128 : Nat) ^ 9 < 2 ^ 64 := by decide
  have hm : v.toNat = m := hv.trans (Nat.mod_eq_of_lt (by omega))
  rw [List.take_left, hm]
  exact eq_encode_of_groups hgroups (by rw [hlen, hm])

/-- A varint that is cut off is found to be truncated where it ends. -/
theorem decode_take_encode (v : UInt64) {count : Nat} (hcount : count < size v.toNat) :
    decode ((encode v.toNat).take count) = .error (.truncated count) := by
  have hten : size v.toNat ≤ maxLength := size_le v.toNat_lt
  have hlen : ((encode v.toNat).take count).length = count := by
    rw [List.length_take, length_encode]
    omega
  have hlast : lastIndex? ((encode v.toNat).take count) = none := by
    rw [lastIndex?, List.take_of_length_le (by omega)]
    exact findIdx?_take_of_groups (groups_encode _) (by rwa [length_encode])
  rw [decode_eq, hlast, Option.elim_none, hlen, unendedError, if_neg (by omega)]

/-- Decoding is exact: it succeeds where a byte below 128 is among the first ten bytes, with the sum
of the groups up to that byte, of which 64 bits are kept; otherwise the varint is too long or the
bytes end before it does. Encoding is canonical: what is written for a number, to a slice or by a
writer, has the size that was computed, is decoded as that number whatever stands behind it, and is
found to be truncated if it is cut off. No varint of the number is shorter, and no other one of less
than ten bytes is as short. -/
theorem decode_exact :
    (∀ (d : Bytes) (v : UInt64) (k : Nat), decode d = .ok (v, k) ↔
      ∃ i, (d.take 10).findIdx? (· < 128) = some i ∧ k = i + 1 ∧
        v.toNat = (∑ j ∈ range k, (d.getD j 0).toNat % 128 * 2 ^ (7 * j)) % 2 ^ 64) ∧
    (∀ d : Bytes, (d.take 10).findIdx? (· < 128) = none →
      decode d = .error (if 10 ≤ d.length then .malformed 10 .varintTooLong
        else .truncated d.length)) ∧
    ∀ v : UInt64,
      let out := encode v.toNat
      out.length = size v.toNat ∧
      (∀ room, toSlice? room v.toNat = if size v.toNat ≤ room then some out else none) ∧
      (∀ w : Writer, w.varint v.toNat = w.append out) ∧
      (∀ s : Bytes, decode (out ++ s) = .ok (v, size v.toNat)) ∧
      (∀ (d : Bytes) (k : Nat), decode d = .ok (v, k) →
        size v.toNat ≤ k ∧ (k = size v.toNat → k < 10 → d.take k = out)) ∧
      ∀ count < size v.toNat, decode (out.take count) = .error (.truncated count) := by
  refine ⟨fun d v k => decode_eq_ok_iff_groupSum, fun d h => ?_,
    fun v => ⟨length_encode _, fun room => ?_, Writer.appends_varint v.toNat,
      decode_encode_append v, fun d k => size_le_of_decode,
      fun count => decode_take_encode v⟩⟩
  · have hlast : lastIndex? d = none := h
    rw [decode_eq, hlast]
    rfl
  · rw [toSlice?_eq, length_encode]

/-- The two bytes of 300, a zero in two bytes, a number of ten bytes with a second form, and bytes
without an end. -/
theorem decode_exact_padded :
    decode [0xac, 0x02] = .ok (300, 2) ∧ encode 300 = [0xac, 0x02] ∧
      decode [0xac] = .error (.truncated 1) ∧ decode [0x80, 0x00] = .ok (0, 2) ∧ size 0 ≤ 2 ∧
      decode (List.replicate 9 0xff ++ [0x03]) = .ok (UInt64.ofNat (2 ^ 64 - 1), 10) ∧
      decode (List.replicate 11 0x80) = .error (.malformed 10 .varintTooLong) := by
  obtain ⟨hok, herror, hcanonical⟩ := decode_exact
  obtain ⟨-, -, -, -, hshortest, hcut⟩ := hcanonical 300
  obtain ⟨-, -, -, -, hzero, -⟩ := hcanonical 0
  have htwo : decode [0xac, 0x02] = .ok (300, 2) := (hok _ 300 2).2 ⟨1, rfl, rfl, by decide⟩
  have hpadded : decode [0x80, 0x00] = .ok (0, 2) := (hok _ 0 2).2 ⟨1, rfl, rfl, by decide⟩
  have hencode : encode 300 = [0xac, 0x02] := ((hshortest _ 2 htwo).2 rfl (by decide)).symm
  have htruncated := hcut 1 (by decide)
  rw [show (300 : UInt64).toNat = 300 from rfl, hencode] at htruncated
  refine ⟨htwo, hencode, htruncated, hpadded, (hzero _ 2 hpadded).1, (hok _ _ 10).2 ?_,
    herror _ (by decide)⟩
  exact ⟨9, by decide, rfl, by decide⟩

end Protobuf.Varint
