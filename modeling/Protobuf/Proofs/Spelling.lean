import Mathlib.Algebra.Order.Ring.Nat
import Protobuf.Proofs.Success

/-!
# Bytes that spell a value

Some bytes spell a value for a reader if the reader takes exactly these bytes and gives that value,
whatever stands before and behind them. Numbers and lengths may be spelled in several ways, of which
the encoder chooses the shortest.
-/

namespace Protobuf

variable {α β : Type}

/-! ## Varints and tags -/

namespace Varint

/-- The bytes are a varint of the number, in any length. -/
def Spells (n : Nat) (bytes : Bytes) : Prop :=
  ∃ v : UInt64, v.toNat = n ∧ decode bytes = .ok (v, bytes.length)

theorem size_le {n : Nat} (h : n < 2 ^ 64) : size n ≤ maxLength :=
  UInt64.toNat_ofNat_of_lt h ▸ size_toNat_le (UInt64.ofNat n)

/-- The bytes carry the number in groups of seven bits, least significant group first, and the high
bit of a byte says that another group follows. -/
inductive Groups : Bytes → Nat → Prop
  /-- The last group. -/
  | last {byte : UInt8} (last : byte < 128) : Groups [byte] byte.toNat
  /-- A group that others follow. -/
  | more {byte : UInt8} {rest : Bytes} {n : Nat} (more : 128 ≤ byte) (others : Groups rest n) :
    Groups (byte :: rest) (byte.toNat % 128 + 128 * n)

/-- The bytes are a varint that stands for the number: it has at most ten groups, and bits past the
64th are dropped. -/
def StandsFor (bytes : Bytes) (n : Nat) : Prop :=
  ∃ m, Groups bytes m ∧ bytes.length ≤ maxLength ∧ n = m % 2 ^ 64

theorem decodeFrom_cons {count : Nat} {value : UInt64} {byte : UInt8} {rest : Bytes}
    (hc : count < maxLength) :
    decodeFrom count value (byte :: rest) =
      if byte < 128 then .ok (value ||| shifted count byte, count + 1)
      else decodeFrom (count + 1) (value ||| shifted count byte) rest := by
  rw [decodeFrom, if_neg (by omega)]

/-- A number below the place of a group is not touched by the group, so that it can be added as well
as set bit by bit. Of the sum 64 bits are kept. -/
theorem ofNat_or_shifted {count n : Nat} (hc : count < maxLength) (hn : n < 2 ^ (7 * count))
    (byte : UInt8) :
    UInt64.ofNat n ||| shifted count byte =
      UInt64.ofNat (n + (byte.toNat % 128) <<< (7 * count)) := by
  have hplace : 7 * count < 64 := by
    unfold maxLength at hc
    omega
  have hlow : (byte &&& 0x7f).toUInt64.toNat = byte.toNat % 128 := by
    rw [UInt8.toNat_toUInt64, UInt8.toNat_and]
    exact Nat.and_two_pow_sub_one_eq_mod _ 7
  have hshift : (UInt64.ofNat (7 * count)).toNat % 64 = 7 * count := by
    rw [UInt64.toNat_ofNat_of_lt' (by show _ < 2 ^ 64; omega), Nat.mod_eq_of_lt hplace]
  refine UInt64.toNat_inj.1 ?_
  rw [shifted, if_pos hplace, UInt64.toNat_or, UInt64.toNat_shiftLeft, hlow, hshift,
    UInt64.toNat_ofNat', UInt64.toNat_ofNat', ← Nat.or_mod_two_pow, Nat.or_comm,
    ← Nat.shiftLeft_add_eq_or_of_lt hn, Nat.add_comm]

/-- Every group has its place seven bits above the one before. -/
theorem two_pow_succ_group (count : Nat) : 2 ^ (7 * (count + 1)) = 128 * 2 ^ (7 * count) := by
  rw [Nat.mul_succ, Nat.pow_add, Nat.mul_comm]

/-- With a group more a number stays below the place of the next one. -/
theorem add_group_lt {count n : Nat} (hn : n < 2 ^ (7 * count)) (byte : UInt8) :
    n + (byte.toNat % 128) <<< (7 * count) < 2 ^ (7 * (count + 1)) := by
  have hlow : byte.toNat % 128 ≤ 127 := Nat.le_of_lt_succ (Nat.mod_lt _ (by decide))
  have hgroup := Nat.mul_le_mul_right (2 ^ (7 * count)) hlow
  rw [two_pow_succ_group, Nat.shiftLeft_eq]
  omega

/-- What stands behind a group counts for seven bits more. -/
theorem add_shiftLeft_group (count value low n : Nat) :
    value + low <<< (7 * count) + n <<< (7 * (count + 1)) =
      value + (low + 128 * n) <<< (7 * count) := by
  rw [Nat.shiftLeft_eq, Nat.shiftLeft_eq, Nat.shiftLeft_eq, two_pow_succ_group, Nat.add_mul,
    Nat.add_assoc, ← Nat.mul_assoc, Nat.mul_comm 128 n]

/-- A varint is decoded group by group. -/
theorem decodeFrom_of_groups {bytes : Bytes} {n : Nat} (h : Groups bytes n) {count value : Nat}
    (hlen : count + bytes.length ≤ maxLength) (hvalue : value < 2 ^ (7 * count)) :
    decodeFrom count (UInt64.ofNat value) bytes =
      .ok (UInt64.ofNat (value + n <<< (7 * count)), count + bytes.length) := by
  induction h generalizing count value with
  | @last byte hlast =>
    have hmod : byte.toNat % 128 = byte.toNat := Nat.mod_eq_of_lt (UInt8.lt_iff_toNat_lt.1 hlast)
    rw [List.length_singleton] at hlen
    rw [decodeFrom_cons (by omega), if_pos hlast, ofNat_or_shifted (by omega) hvalue, hmod]
    rfl
  | @more byte rest n hmore _ ih =>
    rw [List.length_cons] at hlen
    rw [decodeFrom_cons (by omega), if_neg (UInt8.not_lt.2 hmore),
      ofNat_or_shifted (by omega) hvalue, ih (by omega) (add_group_lt hvalue byte),
      add_shiftLeft_group, List.length_cons, Nat.add_assoc, Nat.add_comm 1]

/-- What is decoded is a varint at the front. -/
theorem groups_of_decodeFrom {bytes : Bytes} {count k : Nat} {value v : UInt64}
    (h : decodeFrom count value bytes = .ok (v, k)) :
    ∃ front rest n, bytes = front ++ rest ∧ k = count + front.length ∧ k ≤ maxLength ∧
      Groups front n := by
  induction bytes generalizing count value with
  | nil => simp [decodeFrom] at h
  | cons byte rest ih =>
    by_cases hc : count < maxLength
    · rw [decodeFrom_cons hc] at h
      by_cases hlast : byte < 128
      · rw [if_pos hlast] at h
        cases h
        exact ⟨[byte], rest, _, rfl, rfl, hc, .last hlast⟩
      · rw [if_neg hlast] at h
        obtain ⟨front, others, n, rfl, rfl, hlen, hn⟩ := ih h
        refine ⟨byte :: front, others, _, rfl, ?_, hlen, .more (UInt8.not_lt.1 hlast) hn⟩
        rw [List.length_cons]
        omega
    · rw [decodeFrom, if_pos (by omega)] at h
      cases h

/-- Decoding takes the varint at the front, and gives the number that it stands for. -/
theorem decode_eq_ok_iff {bytes : Bytes} {v : UInt64} {k : Nat} :
    decode bytes = .ok (v, k) ↔
      ∃ front rest, bytes = front ++ rest ∧ k = front.length ∧ StandsFor front v.toNat := by
  have hdecode (front rest : Bytes) (n : Nat) (hn : Groups front n)
      (hlen : front.length ≤ maxLength) :
      decode (front ++ rest) = .ok (UInt64.ofNat n, front.length) := by
    have hfront : decodeFrom 0 0 front = _ := decodeFrom_of_groups hn (by omega) Nat.one_pos
    simpa [decode] using decodeFrom_append hfront rest
  constructor
  · intro h
    obtain ⟨front, rest, n, rfl, rfl, hlen, hn⟩ := groups_of_decodeFrom h
    rw [Nat.zero_add] at h hlen
    rw [hdecode front rest n hn hlen] at h
    cases h
    exact ⟨front, rest, rfl, Nat.zero_add _, n, hn, hlen, by simp⟩
  · rintro ⟨front, rest, rfl, rfl, n, hn, hlen, hv⟩
    rw [hdecode front rest n hn hlen]
    have hv : UInt64.ofNat n = v := UInt64.toNat_inj.1 (by simp [hv])
    rw [hv]

/-- Decoding takes the varints that stand for a number, and no other bytes. -/
theorem spells_iff {n : Nat} {bytes : Bytes} : Spells n bytes ↔ StandsFor bytes n := by
  constructor
  · rintro ⟨v, rfl, hdecode⟩
    obtain ⟨front, rest, rfl, hlen, hstands⟩ := decode_eq_ok_iff.1 hdecode
    rw [List.length_append] at hlen
    have hrest : rest = [] := List.length_eq_zero_iff.1 (by omega)
    rwa [hrest, List.append_nil]
  · intro h
    have hlt : n < 2 ^ 64 := by
      obtain ⟨m, -, -, rfl⟩ := h
      exact Nat.mod_lt _ (by decide)
    have hv : (UInt64.ofNat n).toNat = n := UInt64.toNat_ofNat_of_lt' hlt
    exact ⟨UInt64.ofNat n, hv,
      decode_eq_ok_iff.2 ⟨bytes, [], (List.append_nil bytes).symm, rfl, hv.symm ▸ h⟩⟩

theorem groups_encode (n : Nat) : Groups (encode n) n := by
  fun_induction encode n with
  | case1 n hn =>
    have hb : (UInt8.ofNat n).toNat = n := by
      rw [UInt8.toNat_ofNat']
      omega
    have hlast : UInt8.ofNat n < 128 := by
      rw [UInt8.lt_iff_toNat_lt, hb]
      exact hn
    have hgroups := Groups.last hlast
    rwa [hb] at hgroups
  | case2 n hn ih =>
    have hb : (UInt8.ofNat (128 + n % 128)).toNat = 128 + n % 128 := by
      rw [UInt8.toNat_ofNat']
      omega
    have hmore : 128 ≤ UInt8.ofNat (128 + n % 128) := by
      rw [UInt8.le_iff_toNat_le, hb]
      exact Nat.le_add_right ..
    have hn : (UInt8.ofNat (128 + n % 128)).toNat % 128 + 128 * (n / 128) = n := by
      rw [hb]
      omega
    have hgroups := Groups.more hmore ih
    rwa [hn] at hgroups

theorem spells_encode {n : Nat} (h : n < 2 ^ 64) : Spells n (encode n) := by
  have hlen : (encode n).length ≤ maxLength := by
    rw [length_encode]
    exact size_le h
  exact spells_iff.2 ⟨n, groups_encode n, hlen, (Nat.mod_eq_of_lt h).symm⟩

end Varint

theorem Tag.ofRaw_rawOf {number : Nat} (wireType : WireType) (valid : ValidFieldNumber number) :
    ofRaw (rawOf number wireType) = .ok ⟨number, wireType, valid⟩ := by
  have hcode := wireType.code_le
  have hmod : rawOf number wireType % 8 = wireType.code := by
    unfold rawOf
    omega
  have hdiv : rawOf number wireType / 8 = number := by
    unfold rawOf
    omega
  unfold ofRaw
  rw [hmod, WireType.ofCode?_code]
  simp only [hdiv, dif_pos valid]

theorem Tag.rawOf_lt {number : Nat} (wireType : WireType) (valid : ValidFieldNumber number) :
    rawOf number wireType < 2 ^ 64 := by
  have hcode := wireType.code_le
  have hmax : number ≤ 2 ^ 29 - 1 := valid.2
  unfold rawOf
  omega

namespace Reader

/-! ## Taking bytes -/

theorem Consumes.split {r t : Reader} {a b : Bytes} (h : r.Consumes (a ++ b) t) :
    ∃ u, r.Consumes a u ∧ u.Consumes b t := by
  obtain ⟨h1, h2, h3⟩ := h
  refine ⟨⟨b ++ t.rest, r.position + a.length, r.depth⟩, ⟨by rw [h1, List.append_assoc], rfl, rfl⟩,
    rfl, ?_, h3⟩
  rw [h2, List.length_append, Nat.add_assoc]

theorem Consumes.eq_of_nil {r t : Reader} (h : r.Consumes [] t) : t = r := by
  obtain ⟨rest, position, depth⟩ := t
  obtain ⟨h1, h2, h3⟩ := h
  simp only [List.nil_append] at h1 h3
  simp only [List.length_nil, Nat.add_zero] at h2
  rw [← h1, h2, h3]

theorem Consumes.rest_take {r t : Reader} {bytes : Bytes} (h : r.Consumes bytes t) :
    r.rest.take bytes.length = bytes := by
  rw [h.1, List.take_left]

/-- Where so many messages are open, the action takes the bytes and gives the value, whatever stands
before and behind them. -/
def Takes (d : Nat) (x : Reading Reader α) (bytes : Bytes) (a : α) : Prop :=
  ∀ r t, r.depth = d → r.Consumes bytes t → x r = .ok a t

variable {d : Nat}

theorem Takes.pure (a : α) : Takes d (pure a) [] a := by
  intro r t _ h
  rw [h.eq_of_nil]
  rfl

theorem Takes.bind {x : Reading Reader α} {f : α → Reading Reader β} {bytes bytes' : Bytes} {a : α}
    {b : β} (hx : Takes d x bytes a) (hf : Takes d (f a) bytes' b) :
    Takes d (x >>= f) (bytes ++ bytes') b := by
  intro r t hd h
  obtain ⟨u, hu, ht⟩ := h.split
  rw [run_bind_of_ok (hx r u hd hu)]
  exact hf u t (hu.2.2.trans hd) ht

theorem Takes.map {x : Reading Reader α} {bytes : Bytes} {a : α} (f : α → β)
    (hx : Takes d x bytes a) : Takes d (f <$> x) bytes (f a) := by
  rw [map_eq_bind, ← List.append_nil bytes]
  exact hx.bind (.pure _)

theorem takes_rawVarint {bytes : Bytes} {v : UInt64}
    (h : Varint.decode bytes = .ok (v, bytes.length)) : Takes d rawVarint bytes v := by
  intro r t _ ht
  refine rawVarint_eq_ok.2 ⟨bytes.length, ?_, ht.eq_advance⟩
  rw [ht.1]
  exact Varint.decodeFrom_append h t.rest

theorem takes_nextTag {number : Nat} {wireType : WireType} {bytes : Bytes}
    (valid : ValidFieldNumber number) (h : Varint.Spells (Tag.rawOf number wireType) bytes) :
    Takes d nextTag bytes (some ⟨number, wireType, valid⟩) := by
  intro r t hd ht
  obtain ⟨v, hv, hdec⟩ := h
  exact nextTag_eq_some.2 ⟨v, takes_rawVarint hdec r t hd ht, by rw [hv, Tag.ofRaw_rawOf]⟩

theorem takes_word {bytes : Bytes} : Takes d (word bytes.length) bytes (Bytes.toNat bytes) := by
  intro r t _ ht
  have hlen := ht.length_add
  exact word_eq_ok.2 ⟨by omega, by rw [ht.rest_take], ht.eq_advance⟩

/-- A length is read if as many bytes follow it. -/
theorem length_of_spells {n : Nat} {bytes : Bytes} (h : Varint.Spells n bytes) {r t : Reader}
    (ht : r.Consumes bytes t) (hn : n ≤ t.remaining) : length r = .ok n t := by
  obtain ⟨v, hv, hdec⟩ := h
  exact length_eq_ok.2 ⟨v, takes_rawVarint hdec r t rfl ht, hv.symm, by rw [hv]; exact hn⟩

theorem takes_delimited {header bytes : Bytes} (h : Varint.Spells bytes.length header) :
    Takes d delimited (header ++ bytes) bytes := by
  intro r t _ ht
  obtain ⟨u, hu, ht⟩ := ht.split
  have hlen := ht.length_add
  have hl := length_of_spells h hu (by omega)
  exact delimited_eq_ok.2 ⟨bytes.length, u, hl, ht.rest_take.symm, ht.eq_advance⟩

/-- A body behind its length is confined to its bytes. -/
theorem within_of_spells {σ : Type} {body : Build Reader σ α} {header bytes : Bytes}
    (h : Varint.Spells bytes.length header) {s s' : σ} {r t : Reader} {a : α}
    (ht : r.Consumes (header ++ bytes) t)
    (hb : ∀ u, u.depth = r.depth → u.rest = bytes → body (s, u) =
      .ok a (s', u.advance bytes.length)) :
    within body (s, r) = .ok a (s', t) := by
  obtain ⟨u, hu, ht⟩ := ht.split
  have hlen := ht.length_add
  have hl := length_of_spells h hu (by omega)
  refine within_eq_ok.2 ⟨bytes.length, u, _, hl, hb _ hu.2.2 ht.rest_take, ?_, ?_⟩
  · simp [advance]
  · rw [ht.eq_advance]
    rfl

/-- A body behind its length is confined to its bytes. If it fails there, so does all of it,
whatever stands behind the body. -/
theorem exists_within_of_spells {σ : Type} {header bytes : Bytes}
    (h : Varint.Spells bytes.length header) {r t : Reader} (ht : r.Consumes (header ++ bytes) t) :
    ∃ u : Reader, u.depth = r.depth ∧ u.rest = bytes ∧ u.position + bytes.length = t.position ∧
      ∀ {body : Build Reader σ α} {s s' : σ} {e : Error} {v : Reader},
        body (s, u) = .error e (s', v) → ∃ v', within body (s, r) = .error e (s', v') := by
  obtain ⟨u, hu, ht⟩ := ht.split
  have hlen := ht.length_add
  have hl := length_of_spells h hu (by omega)
  refine ⟨{ u with rest := u.rest.take bytes.length }, hu.2.2, ht.rest_take, ht.2.1.symm, ?_⟩
  intro body s s' e v hv
  refine ⟨{ v with rest := v.rest ++ u.rest.drop bytes.length }, ?_⟩
  rw [run_within, hl]
  dsimp only
  rw [hv]

end Reader

end Protobuf
