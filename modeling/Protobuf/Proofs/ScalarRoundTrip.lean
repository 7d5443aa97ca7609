import Protobuf.Proofs.Spelling

/-!
# Reading scalars back

The bytes that are written for a scalar are read as that scalar: strings through UTF-8, signed
numbers through sign extension or the zigzag order, floating-point numbers bit by bit
(`Reader.takes_scalar`).
-/

namespace Protobuf

/-! ## Characters -/

namespace Utf8

theorem ofNat_toNat_of_lt {n : Nat} (h : n < 256) : (UInt8.ofNat n).toNat = n :=
  UInt8.toNat_ofNat_of_lt' h

theorem isContinuation_ofNat {n : Nat} (h : n < 64) :
    isContinuation (UInt8.ofNat (n + 128)) = true := by
  have hn : (UInt8.ofNat (n + 128)).toNat = n + 128 := ofNat_toNat_of_lt (by omega)
  unfold isContinuation
  rw [Bool.and_eq_true, decide_eq_true_eq, decide_eq_true_eq, UInt8.le_iff_toNat_le,
    UInt8.lt_iff_toNat_lt, hn]
  exact ⟨Nat.le_add_left _ _, by show n + 128 < 192; omega⟩

theorem low_ofNat {n : Nat} (h : n < 64) : low (UInt8.ofNat (n + 128)) = n := by
  unfold low
  rw [ofNat_toNat_of_lt (by omega)]
  omega

theorem Width.ofFirst_ofNat {n : Nat} (h : n < 256) :
    Width.ofFirst (UInt8.ofNat n) =
      if n < 0x80 then .one
      else if n < 0xC2 then .none
      else if n < 0xE0 then .two
      else if n < 0xF0 then .three
      else if n < 0xF5 then .four
      else .none := by
  unfold ofFirst
  simp only [UInt8.lt_iff_toNat_lt, ofNat_toNat_of_lt h]
  rfl

theorem fitsFirst_ofNat {a b : Nat} (ha : a < 256) (hb : b < 64) (h0 : a = 0xE0 → 32 ≤ b)
    (hd : a = 0xED → b < 32) (hf : a = 0xF0 → 16 ≤ b) (h4 : a = 0xF4 → b < 16) :
    fitsFirst (UInt8.ofNat a) (UInt8.ofNat (b + 128)) = true := by
  have heq : ∀ n : Nat, n < 256 → (UInt8.ofNat a = UInt8.ofNat n ↔ a = n) := by
    intro n hn
    rw [← UInt8.toNat_inj, ofNat_toNat_of_lt ha, ofNat_toNat_of_lt hn]
  have hb' : (UInt8.ofNat (b + 128)).toNat = b + 128 := ofNat_toNat_of_lt (by omega)
  have e0 := heq 0xE0 (by decide)
  have ed := heq 0xED (by decide)
  have ef := heq 0xF0 (by decide)
  have e4 := heq 0xF4 (by decide)
  unfold fitsFirst
  rw [isContinuation_ofNat hb, Bool.true_and]
  simp only [UInt8.le_iff_toNat_le, UInt8.lt_iff_toNat_lt, hb']
  split
  · rename_i he
    have := h0 (e0.1 he)
    exact decide_eq_true (show 160 ≤ b + 128 by omega)
  · split
    · rename_i he
      have := hd (ed.1 he)
      exact decide_eq_true (show b + 128 < 160 by omega)
    · split
      · rename_i he
        have := hf (ef.1 he)
        exact decide_eq_true (show 144 ≤ b + 128 by omega)
      · split
        · rename_i he
          have := h4 (e4.1 he)
          exact decide_eq_true (show b + 128 < 144 by omega)
        · rfl

section

variable {index : Nat} {a b c d : UInt8} {rest : Bytes}

theorem decodeFrom_one (ha : Width.ofFirst a = .one) :
    decodeFrom index (a :: rest) = (decodeFrom (index + 1) rest).map (Char.ofNat a.toNat :: ·) := by
  rw [decodeFrom.eq_def]
  dsimp only
  rw [ha]

theorem decodeFrom_two (ha : Width.ofFirst a = .two) (hb : isContinuation b = true) :
    decodeFrom index (a :: b :: rest) =
      (decodeFrom (index + 2) rest).map (Char.ofNat (a.toNat % 32 * 64 + low b) :: ·) := by
  rw [decodeFrom.eq_def]
  dsimp only
  rw [ha]
  exact if_pos hb

theorem decodeFrom_three (ha : Width.ofFirst a = .three) (hb : fitsFirst a b = true)
    (hc : isContinuation c = true) :
    decodeFrom index (a :: b :: c :: rest) =
      (decodeFrom (index + 3) rest).map
        (Char.ofNat ((a.toNat % 16 * 64 + low b) * 64 + low c) :: ·) := by
  rw [decodeFrom.eq_def]
  dsimp only
  rw [ha]
  dsimp only
  rw [if_pos hb]
  exact if_pos hc

theorem decodeFrom_four (ha : Width.ofFirst a = .four) (hb : fitsFirst a b = true)
    (hc : isContinuation c = true) (hd : isContinuation d = true) :
    decodeFrom index (a :: b :: c :: d :: rest) =
      (decodeFrom (index + 4) rest).map
        (Char.ofNat (((a.toNat % 8 * 64 + low b) * 64 + low c) * 64 + low d) :: ·) := by
  rw [decodeFrom.eq_def]
  dsimp only
  rw [ha]
  dsimp only
  rw [if_pos hb, if_pos hc]
  exact if_pos hd

end

/-- A character is read from its bytes. -/
theorem decodeFrom_encodeChar (index : Nat) (c : Char) (rest : Bytes) :
    ∃ width, decodeFrom index (String.utf8EncodeChar c ++ rest) =
      (decodeFrom (index + width) rest).map (c :: ·) := by
  have hc : Char.ofNat c.val.toNat = c := Char.ofNat_toNat c
  have hvalid : c.val.toNat < 0xD800 ∨ 0xDFFF < c.val.toNat ∧ c.val.toNat < 0x110000 := c.valid
  unfold String.utf8EncodeChar
  generalize c.val.toNat = v at hc hvalid ⊢
  dsimp only
  by_cases h1 : v ≤ 0x7F
  · have hw : Width.ofFirst (UInt8.ofNat v) = .one := by
      rw [Width.ofFirst_ofNat (by omega), if_pos (by omega)]
    refine ⟨1, ?_⟩
    rw [if_pos h1, List.singleton_append, decodeFrom_one hw, ofNat_toNat_of_lt (by omega), hc]
  · rw [if_neg h1]
    by_cases h2 : v ≤ 0x7FF
    · have ha : v / 64 % 0x20 + 0xC0 < 256 := by omega
      have hsum : (v / 64 % 0x20 + 0xC0) % 32 * 64 + v % 0x40 = v := by omega
      have hw : Width.ofFirst (UInt8.ofNat (v / 64 % 0x20 + 0xC0)) = .two := by
        rw [Width.ofFirst_ofNat ha, if_neg (by omega), if_neg (by omega), if_pos (by omega)]
      refine ⟨2, ?_⟩
      rw [if_pos h2, List.cons_append, List.singleton_append,
        decodeFrom_two hw (isContinuation_ofNat (by omega)), ofNat_toNat_of_lt ha,
        low_ofNat (by omega), hsum, hc]
    · rw [if_neg h2]
      by_cases h3 : v ≤ 0xFFFF
      · have ha : v / 4096 % 0x10 + 0xE0 < 256 := by omega
        have hsum : ((v / 4096 % 0x10 + 0xE0) % 16 * 64 + v / 64 % 0x40) * 64 + v % 0x40 = v := by
          omega
        have hfits : fitsFirst (UInt8.ofNat (v / 4096 % 0x10 + 0xE0))
            (UInt8.ofNat (v / 64 % 0x40 + 0x80)) = true :=
          fitsFirst_ofNat ha (by omega) (by omega) (by omega) (by omega) (by omega)
        have hw : Width.ofFirst (UInt8.ofNat (v / 4096 % 0x10 + 0xE0)) = .three := by
          rw [Width.ofFirst_ofNat ha, if_neg (by omega), if_neg (by omega), if_neg (by omega),
            if_pos (by omega)]
        refine ⟨3, ?_⟩
        rw [if_pos h3, List.cons_append, List.cons_append, List.singleton_append,
          decodeFrom_three hw hfits (isContinuation_ofNat (by omega)), ofNat_toNat_of_lt ha,
          low_ofNat (by omega), low_ofNat (by omega), hsum, hc]
      · have ha : v / 262144 % 0x08 + 0xF0 < 256 := by omega
        have hsum : (((v / 262144 % 0x08 + 0xF0) % 8 * 64 + v / 4096 % 0x40) * 64 +
            v / 64 % 0x40) * 64 + v % 0x40 = v := by
          omega
        have hfits : fitsFirst (UInt8.ofNat (v / 262144 % 0x08 + 0xF0))
            (UInt8.ofNat (v / 4096 % 0x40 + 0x80)) = true :=
          fitsFirst_ofNat ha (by omega) (by omega) (by omega) (by omega) (by omega)
        have hw : Width.ofFirst (UInt8.ofNat (v / 262144 % 0x08 + 0xF0)) = .four := by
          rw [Width.ofFirst_ofNat ha, if_neg (by omega), if_neg (by omega), if_neg (by omega),
            if_neg (by omega), if_pos (by omega)]
        refine ⟨4, ?_⟩
        rw [if_neg h3, List.cons_append, List.cons_append, List.cons_append, List.singleton_append,
          decodeFrom_four hw hfits (isContinuation_ofNat (by omega))
            (isContinuation_ofNat (by omega)), ofNat_toNat_of_lt ha, low_ofNat (by omega),
          low_ofNat (by omega), low_ofNat (by omega), hsum, hc]

theorem decodeFrom_encodeChars (index : Nat) (cs : List Char) :
    decodeFrom index (cs.flatMap String.utf8EncodeChar) = .ok cs := by
  induction cs generalizing index with
  | nil => rfl
  | cons c cs ih =>
    obtain ⟨width, hw⟩ := decodeFrom_encodeChar index c (cs.flatMap String.utf8EncodeChar)
    rw [List.flatMap_cons, hw, ih]
    rfl

/-- A string is read from its bytes. -/
theorem decode_encode (s : String) : decode (encode s) = .ok s := by
  rw [decode, encode, decodeFrom_encodeChars]
  exact congrArg Except.ok String.ofList_toList

end Utf8

/-! ## Numbers -/

theorem UInt64.toNat_ofInt (i : Int) : (UInt64.ofInt i).toNat = (i % 2 ^ 64).toNat := by
  have h : (i % 2 ^ 64).toNat < 2 ^ 64 := by omega
  exact UInt64.toNat_ofNat_of_lt' h

/-- As an unsigned word a signed one is counted from zero on. -/
theorem Int64.toNat_toUInt64 (v : Int64) : v.toUInt64.toNat = (v.toInt % 2 ^ 64).toNat := by
  have hbits : v.toUInt64.toNat = v.toBitVec.toNat := rfl
  have hint : v.toInt = v.toBitVec.toInt := rfl
  have hlt : v.toBitVec.toNat < 2 ^ 64 := v.toBitVec.isLt
  have hmod : ((v.toBitVec.toNat : Int).bmod (2 ^ 64)) % 2 ^ 64 =
      (v.toBitVec.toNat : Int) % 2 ^ 64 := Int.bmod_emod
  rw [hbits, hint, BitVec.toInt_eq_toNat_bmod, hmod]
  omega

/-- Sign extension to 64 bits is undone by dropping the high bits. -/
theorem Int32.ofNat_ofInt_toInt (v : Int32) : Int32.ofNat (UInt64.ofInt v.toInt).toNat = v := by
  have hlow : -2 ^ 31 ≤ v.toInt := v.le_toInt
  have hhigh : v.toInt < 2 ^ 31 := v.toInt_lt
  refine Int32.toInt_inj.1 ?_
  rw [Int32.toInt_ofNat', UInt64.toNat_ofInt, Int.toNat_of_nonneg (by omega)]
  show (v.toInt % 2 ^ 64).bmod (2 ^ 32) = v.toInt
  rw [Int.bmod_def]
  omega

theorem Int64.ofNat_toUInt64 (v : Int64) : Int64.ofNat v.toUInt64.toNat = v := by
  have hbits : v.toUInt64.toNat = v.toBitVec.toNat := rfl
  have hint : v.toInt = v.toBitVec.toInt := rfl
  refine Int64.toInt_inj.1 ?_
  rw [Int64.toInt_ofNat', hbits, hint, BitVec.toInt_eq_toNat_bmod]

namespace ZigZag

/-- Shifting a word by all its bits but one fills it with its sign. -/
theorem sshiftRight_sign {w : Nat} (x : BitVec (w + 1)) :
    x.sshiftRight w = if x.msb then BitVec.allOnes (w + 1) else 0#(w + 1) := by
  refine BitVec.eq_of_getLsbD_eq fun i hi => ?_
  have hbit : (x.sshiftRight w).getLsbD i = x.msb := by
    rw [BitVec.getLsbD_sshiftRight, decide_eq_false (by omega), Bool.not_false, Bool.true_and]
    split
    · have hindex : w + i = w + 1 - 1 := by omega
      rw [hindex, BitVec.msb_eq_getLsbD_last]
    · rfl
  rw [hbit]
  cases x.msb with
  | true => simp [hi]
  | false => simp

/-- A shift and a mask made of the sign give the place of a signed word. -/
theorem toNat_shiftLeft_xor {w : Nat} (x : BitVec (w + 1)) :
    ((x <<< 1) ^^^ x.sshiftRight w).toNat = encode x.toInt := by
  have hlt : x.toNat < 2 ^ (w + 1) := x.isLt
  have hpow : 2 ^ (w + 1) = 2 * 2 ^ w := by rw [Nat.pow_succ, Nat.mul_comm]
  have hshift : (x <<< 1).toNat = 2 * x.toNat % 2 ^ (w + 1) := by
    rw [BitVec.toNat_shiftLeft, Nat.shiftLeft_eq, Nat.pow_one, Nat.mul_comm]
  have hhalf : x.msb = decide (2 ^ w ≤ x.toNat) := x.msb_eq_decide
  rw [sshiftRight_sign, encode, BitVec.toInt_eq_msb_cond, hhalf]
  by_cases h : 2 ^ w ≤ x.toNat
  · have hmod : 2 * x.toNat % 2 ^ (w + 1) = 2 * x.toNat - 2 ^ (w + 1) := by
      rw [Nat.mod_eq_sub_mod (by omega), Nat.mod_eq_of_lt (by omega)]
    rw [decide_eq_true h, if_pos rfl, if_pos rfl, BitVec.xor_allOnes, BitVec.toNat_not, hshift,
      hmod, if_neg (by omega)]
    omega
  · rw [decide_eq_false h, if_neg Bool.false_ne_true, if_neg Bool.false_ne_true, BitVec.xor_zero,
      hshift, Nat.mod_eq_of_lt (by omega), if_pos (by omega)]
    omega

/-- A shift and a mask made of the last bit give the signed word at a place. -/
theorem toInt_shiftRight_xor {w : Nat} (x : BitVec (w + 1)) :
    ((x >>> 1) ^^^ -(x &&& 1)).toInt = decode x.toNat := by
  have hlt : x.toNat < 2 ^ (w + 1) := x.isLt
  have hpow : 2 ^ (w + 1) = 2 * 2 ^ w := by rw [Nat.pow_succ, Nat.mul_comm]
  have hshift : (x >>> 1).toNat = x.toNat / 2 := by
    rw [BitVec.toNat_ushiftRight, Nat.shiftRight_eq_div_pow, Nat.pow_one]
  have hone : (1#(w + 1)).toNat = 1 := by
    rw [BitVec.toNat_ofNat, Nat.mod_eq_of_lt (by have := Nat.two_pow_pos w; omega)]
  have hand : (x &&& 1#(w + 1)).toNat = x.toNat % 2 := by
    rw [BitVec.toNat_and, hone, Nat.and_one_is_mod]
  rw [decode]
  by_cases h : x.toNat % 2 = 0
  · have hzero : x &&& 1#(w + 1) = 0#(w + 1) := BitVec.eq_of_toNat_eq (by rw [hand, h]; rfl)
    show ((x >>> 1) ^^^ -(x &&& 1#(w + 1))).toInt = _
    rw [hzero, BitVec.neg_zero, BitVec.xor_zero, BitVec.toInt_eq_toNat_cond, hshift, if_pos h,
      if_pos (by omega)]
  · have hlast : x &&& 1#(w + 1) = 1#(w + 1) := BitVec.eq_of_toNat_eq (by rw [hand, hone]; omega)
    show ((x >>> 1) ^^^ -(x &&& 1#(w + 1))).toInt = _
    have hnot : (~~~(x >>> 1)).toNat = 2 ^ (w + 1) - 1 - x.toNat / 2 := by
      rw [BitVec.toNat_not, hshift]
    rw [hlast, BitVec.neg_one_eq_allOnes, BitVec.xor_allOnes, BitVec.toInt_eq_toNat_cond, hnot,
      if_neg h, if_neg (by omega)]
    omega

theorem toNat_encode32 (n : Int32) : (encode32 n).toNat = encode n.toInt :=
  toNat_shiftLeft_xor n.toBitVec

theorem toNat_encode64 (n : Int64) : (encode64 n).toNat = encode n.toInt :=
  toNat_shiftLeft_xor n.toBitVec

theorem toInt_decode32 (n : UInt32) : (decode32 n).toInt = decode n.toNat :=
  toInt_shiftRight_xor n.toBitVec

theorem toInt_decode64 (n : UInt64) : (decode64 n).toInt = decode n.toNat :=
  toInt_shiftRight_xor n.toBitVec

theorem decode32_encode32 (n : Int32) : decode32 (encode32 n) = n := by
  rw [← Int32.toInt_inj, toInt_decode32, toNat_encode32, decode_encode]

theorem decode64_encode64 (n : Int64) : decode64 (encode64 n) = n := by
  rw [← Int64.toInt_inj, toInt_decode64, toNat_encode64, decode_encode]

end ZigZag

/-- A scalar is the meaning of its framed form. -/
theorem Scalar.ofWire?_toWire (s : Scalar) : s.kind.ofWire? s.toWire = some s := by
  cases s with
  | int32 v => exact congrArg (some <| Scalar.int32 ·) (Int32.ofNat_ofInt_toInt v)
  | enum type v => exact congrArg (some <| Scalar.enum type ·) (Int32.ofNat_ofInt_toInt v)
  | int64 v => exact congrArg (some <| Scalar.int64 ·) (Int64.ofNat_toUInt64 v)
  | uint32 v => exact congrArg (some <| Scalar.uint32 ·) (UInt32.toUInt32_toUInt64 v)
  | sint32 v =>
    have hword : ZigZag.decode32 (ZigZag.encode32 v).toUInt64.toUInt32 = v := by
      rw [UInt32.toUInt32_toUInt64, ZigZag.decode32_encode32]
    exact congrArg (some <| Scalar.sint32 ·) hword
  | sint64 v => exact congrArg (some <| Scalar.sint64 ·) (ZigZag.decode64_encode64 v)
  | sfixed32 v => exact congrArg (some <| Scalar.sfixed32 ·) (Int32.toInt32_toUInt32 v)
  | sfixed64 v => exact congrArg (some <| Scalar.sfixed64 ·) (Int64.toInt64_toUInt64 v)
  | bool v => cases v <;> rfl
  | string v => simp only [kind, toWire, ScalarKind.ofWire?, Utf8.decode_encode]
  | _ => rfl

/-! ## Framed values -/

namespace Bytes

/-- Writing a word and reading it back keeps its low bytes. -/
theorem toNat_ofNat (width n : Nat) : toNat (ofNat width n) = n % 256 ^ width := by
  induction width generalizing n with
  | zero => simp [ofNat, toNat, Nat.mod_one]
  | succ width ih =>
    simp [ofNat, toNat, ih, Nat.pow_succ, Nat.mul_comm (256 ^ width), Nat.mod_mul]

/-- A word read from `k` bytes is below `256 ^ k`. -/
theorem toNat_lt (b : Bytes) : toNat b < 256 ^ b.length := by
  induction b with
  | nil => simp [toNat]
  | cons x rest ih =>
    have := x.toNat_lt
    simp only [toNat, List.length_cons, Nat.pow_succ]
    omega

end Bytes

namespace Reader

variable {d : Nat}

theorem takes_varint (v : UInt64) : Takes d rawVarint (Varint.encode v.toNat) v := by
  obtain ⟨w, hw, hdecode⟩ := Varint.spells_encode v.toNat_lt
  rw [UInt64.toNat_inj.1 hw] at hdecode
  exact takes_rawVarint hdecode

theorem takes_ofNat (width n : Nat) (h : n < 256 ^ width) :
    Takes d (word width) (Bytes.ofNat width n) n := by
  have hword : Takes d (word (Bytes.ofNat width n).length) (Bytes.ofNat width n)
      (Bytes.toNat (Bytes.ofNat width n)) := takes_word
  rwa [Bytes.length_ofNat, Bytes.toNat_ofNat, Nat.mod_eq_of_lt h] at hword

theorem takes_bytes {b : Bytes} (h : b.length < 2 ^ 64) :
    Takes d delimited (Varint.encode b.length ++ b) b :=
  takes_delimited (Varint.spells_encode h)

theorem takes_wireValue (v : WireValue) (h : v.encode.length < 2 ^ 64) :
    Takes d (wireValue v.wireType) v.encode v := by
  cases v with
  | varint v => exact (takes_varint v).map _
  | fixed64 v =>
    have hv := (takes_ofNat (d := d) 8 v.toNat v.toNat_lt).map (WireValue.fixed64 <| UInt64.ofNat ·)
    rwa [UInt64.ofNat_toNat] at hv
  | fixed32 v =>
    have hv := (takes_ofNat (d := d) 4 v.toNat v.toNat_lt).map (WireValue.fixed32 <| UInt32.ofNat ·)
    rwa [UInt32.ofNat_toNat] at hv
  | lengthDelimited b =>
    rw [WireValue.encode, List.length_append] at h
    exact (takes_bytes (by omega)).map _

/-- A scalar is read from its bytes. -/
theorem takes_scalar {kind : ScalarKind} {tag : Tag} {s : Scalar} (hk : s.kind = kind)
    (ht : tag.wireType = kind.wireType) (h : s.encode.length < 2 ^ 64) :
    Takes d (scalar kind tag) s.encode s := by
  intro r t hd hr
  refine scalar_eq_ok.2 ⟨ht, s.toWire, ?_, ?_⟩
  · have hw := takes_wireValue s.toWire h r t hd hr
    rwa [s.wireType_toWire, Scalar.wireType, hk] at hw
  · rw [← hk, s.ofWire?_toWire]

end Reader

end Protobuf
