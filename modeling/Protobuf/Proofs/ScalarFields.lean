import Protobuf.Proofs.BoundedWriter
import Protobuf.Proofs.Grammar
import Protobuf.Proofs.TwoPasses

/-!
# Scalar fields

What the operation for a scalar writes behind the tag of its field is read back as that tag and
that scalar, whatever follows, and no type of another framing reads anything there
(`Reader.scalar_written`). A raw number is a tag if and only if its low three bits and the others
are in range, and the tag packs into it again.
-/

namespace Protobuf

/-! ## Raw tags -/

namespace Tag

/-- A raw number is accepted if its code is assigned and its field number is valid. -/
theorem exists_ofRaw_iff {raw : Nat} :
    (∃ tag, ofRaw raw = .ok tag) ↔ raw % 8 ≤ 5 ∧ ValidFieldNumber (raw / 8) := by
  constructor
  · rintro ⟨tag, h⟩
    have hcode := tag.wireType.code_le
    obtain rfl := ofRaw_eq_ok.1 h
    have hmod : tag.raw % 8 = tag.wireType.code := by
      unfold raw rawOf
      omega
    have hdiv : tag.raw / 8 = tag.number := by
      unfold raw rawOf
      omega
    rw [hmod, hdiv]
    exact ⟨hcode, tag.valid⟩
  · rintro ⟨hcode, hnumber⟩
    have assigned : ∀ code < 6, (WireType.ofCode? code).isSome = true := by decide
    obtain ⟨wireType, hof⟩ := Option.isSome_iff_exists.1 (assigned _ (Nat.lt_succ_of_le hcode))
    have hwireType := WireType.code_of_ofCode? hof
    refine ⟨⟨raw / 8, wireType, hnumber⟩, ofRaw_eq_ok.2 ?_⟩
    show 8 * (raw / 8) + wireType.code = raw
    omega

/-- The raw number of a tag, packed in a word of 32 bits. -/
def pack (tag : Tag) : UInt32 :=
  (UInt32.ofNat tag.number <<< 3) ||| UInt32.ofNat tag.wireType.code

/-- No bits are lost by packing. -/
theorem toNat_pack (tag : Tag) : tag.pack.toNat = tag.raw := by
  have hcode : tag.wireType.code < 2 ^ 3 :=
    Nat.lt_succ_of_le (Nat.le_trans tag.wireType.code_le (by decide))
  have hnumber : tag.number ≤ 2 ^ 29 - 1 := tag.valid.2
  have hhigh : (UInt32.ofNat tag.number).toNat = tag.number :=
    UInt32.toNat_ofNat_of_lt' (by show tag.number < 2 ^ 32; omega)
  have hlow : (UInt32.ofNat tag.wireType.code).toNat = tag.wireType.code :=
    UInt32.toNat_ofNat_of_lt' (by show tag.wireType.code < 2 ^ 32; omega)
  have hshift : (UInt32.ofNat tag.number <<< 3).toNat = tag.number <<< 3 := by
    rw [UInt32.toNat_shiftLeft, hhigh]
    show tag.number <<< 3 % 2 ^ 32 = _
    rw [Nat.shiftLeft_eq]
    omega
  rw [pack, UInt32.toNat_or, hshift, hlow, ← Nat.shiftLeft_add_eq_or_of_lt hcode, raw, rawOf,
    Nat.shiftLeft_eq]
  omega

end Tag

/-! ## The operation for a scalar -/

namespace Writer

/-- A field is started and its value is written. -/
theorem appends_field {number : Nat} (valid : ValidFieldNumber number) (s : Scalar) :
    Appends (fun w => (w.startField number s.wireType).bind (Operation.ofScalar s).perform)
      (Tag.encode number s.wireType ++ s.encode) :=
  (appends_startField s.wireType valid).bind (appends_ofScalar s)

end Writer

namespace Reader

theorem scalar_of_ne {kind : ScalarKind} {tag : Tag} (h : tag.wireType ≠ kind.wireType)
    (r : Reader) : scalar kind tag r =
      .error (.wireTypeMismatch r.position tag.number tag.wireType kind.wireType) r := by
  simp [scalar, expect, h, run_bind]

theorem bytes_of_ne {tag : Tag} (h : tag.wireType ≠ .lengthDelimited) (r : Reader) :
    bytes tag r =
      .error (.wireTypeMismatch r.position tag.number tag.wireType .lengthDelimited) r := by
  simp [bytes, expect, h, run_bind]

/-- Every scalar that is written is read back. A writer with enough room appends the tag and the
value, and a reader at these bytes reads that tag and, as the type of the value, the value itself,
and stops exactly at what follows. Read as a type of another framing it fails, and the reader stays
in front of the value. A raw number of 64 bits is a tag if and only if its low three bits are at
most five and the others a field number, and the tag is packed into the same number. -/
theorem scalar_written {number : Nat} (valid : ValidFieldNumber number) (s : Scalar)
    (hs : s.encode.length < 2 ^ 64) :
    let field := Tag.encode number s.wireType ++ s.encode
    ((∀ w : Writer, field.length ≤ w.room →
        (w.startField number s.wireType).bind (Writer.Operation.ofScalar s).perform =
          some ⟨w.written ++ field, w.room - field.length⟩) ∧
      ∀ (more : Bytes) (r : Reader), r.rest = field ++ more →
        ∃ tag t, nextTag r = .ok (some tag) t ∧ tag.number = number ∧ tag.wireType = s.wireType ∧
          scalar s.kind tag t = .ok s ⟨more, r.position + field.length, r.depth⟩ ∧
          (∀ kind : ScalarKind, kind.wireType ≠ s.wireType → scalar kind tag t =
            .error (.wireTypeMismatch t.position number s.wireType kind.wireType) t) ∧
          (s.wireType ≠ .lengthDelimited → bytes tag t =
            .error (.wireTypeMismatch t.position number s.wireType .lengthDelimited) t)) ∧
    ∀ raw : UInt64,
      ((∃ tag, Tag.ofRaw raw.toNat = .ok tag) ↔
        (raw &&& 7).toNat ≤ 5 ∧ ValidFieldNumber (raw >>> 3).toNat) ∧
      ∀ tag, Tag.ofRaw raw.toNat = .ok tag → tag.raw = raw.toNat ∧ tag.pack.toUInt64 = raw := by
  intro field
  constructor
  · refine ⟨fun w hw => ?_, fun more r hr => ?_⟩
    · have happend := Writer.appends_field valid s w
      rwa [Writer.append, if_pos hw] at happend
    · have hr : r.rest = Tag.encode number s.wireType ++ (s.encode ++ more) := by
        rw [hr, List.append_assoc]
      let t : Reader :=
        ⟨s.encode ++ more, r.position + (Tag.encode number s.wireType).length, r.depth⟩
      have ht : r.Consumes (Tag.encode number s.wireType) t := ⟨hr, rfl, rfl⟩
      have htag := takes_nextTag valid
        (Varint.spells_encode (Tag.rawOf_lt s.wireType valid)) r t rfl ht
      refine ⟨⟨number, s.wireType, valid⟩, t, htag, rfl, rfl, ?_, fun kind hkind => ?_,
        fun hne => ?_⟩
      · refine takes_scalar rfl rfl hs t _ rfl ⟨rfl, ?_, rfl⟩
        rw [List.length_append, ← Nat.add_assoc]
      · exact scalar_of_ne hkind.symm t
      · exact bytes_of_ne hne t
  · intro raw
    -- A mask and a shift are the remainder and the quotient by which raw numbers are split.
    have hlow : (raw &&& 7).toNat = raw.toNat % 8 :=
      (UInt64.toNat_and raw 7).trans (Nat.and_two_pow_sub_one_eq_mod raw.toNat 3)
    have hhigh : (raw >>> 3).toNat = raw.toNat / 8 := by
      rw [UInt64.toNat_shiftRight, Nat.shiftRight_eq_div_pow]
      rfl
    constructor
    · rw [Tag.exists_ofRaw_iff, hlow, hhigh]
    · intro tag h
      have hraw := Tag.ofRaw_eq_ok.1 h
      refine ⟨hraw, UInt64.toNat_inj.1 ?_⟩
      rw [UInt32.toNat_toUInt64, tag.toNat_pack, hraw]

/-- The smallest zigzag number of 32 bits under the largest field number fills ten bytes, and is
read back in front of another byte, but not as a string. -/
theorem scalar_written_sint32 :
    let s : Scalar := .sint32 Int32.minValue
    ValidFieldNumber maxFieldNumber ∧ s.encode.length < 2 ^ 64 ∧
      ∃ w tag t, ((Writer.new 10).startField maxFieldNumber s.wireType).bind
          (Writer.Operation.ofScalar s).perform = some w ∧ w.used = 10 ∧
        nextTag (new (w.written ++ [7])) = .ok (some tag) t ∧ tag.number = maxFieldNumber ∧
        scalar .sint32 tag t = .ok s ⟨[7], 10, 0⟩ ∧
        scalar .string tag t =
          .error (.wireTypeMismatch t.position maxFieldNumber .varint .lengthDelimited) t := by
  intro s
  have valid : ValidFieldNumber maxFieldNumber := by decide
  have htag : (Tag.encode maxFieldNumber s.wireType).length = 5 := by
    rw [Tag.length_encode]
    decide
  have hvalue : s.encode.length = 5 := by
    rw [Scalar.length_encode]
    decide
  have hlen : (Tag.encode maxFieldNumber s.wireType ++ s.encode).length = 10 := by
    rw [List.length_append, htag, hvalue]
  obtain ⟨⟨hwrite, hread⟩, -⟩ := scalar_written valid s (by omega)
  generalize Tag.encode maxFieldNumber s.wireType ++ s.encode = field at hlen hwrite hread
  have hwritten := hwrite (.new 10) (Nat.le_of_eq hlen)
  rw [hlen, show (Writer.new 10).written ++ field = field from List.nil_append field] at hwritten
  obtain ⟨tag, t, hnext, hnumber, -, hscalar, hother, -⟩ := hread [7] (new (field ++ [7])) rfl
  rw [hlen] at hscalar
  exact ⟨valid, by omega, _, tag, t, hwritten, hlen, hnext, hnumber, hscalar,
    hother .string (by decide)⟩

end Reader

end Protobuf
