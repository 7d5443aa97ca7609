/-!
# ZigZag numbers

Signed numbers of small magnitude become small unsigned ones: `0, -1, 1, -2, …` are counted
`0, 1, 2, 3, …`. On words this takes a shift and a mask made of the sign.
-/

namespace Protobuf.ZigZag

/-- The place of a signed number in the order `0, -1, 1, -2, …`. -/
def encode (n : Int) : Nat := if 0 ≤ n then (2 * n).toNat else (-2 * n - 1).toNat

/-- The signed number at a place of the order `0, -1, 1, -2, …`. -/
def decode (n : Nat) : Int := if n % 2 = 0 then (n / 2 : Nat) else -((n / 2 : Nat) + 1)

@[simp] theorem decode_encode (n : Int) : decode (encode n) = n := by
  unfold decode encode
  split <;> split <;> omega

@[simp] theorem encode_decode (n : Nat) : encode (decode n) = n := by
  unfold decode encode
  split <;> split <;> omega

/-! ## Words -/

/-- The place of a word of 32 bits. -/
def encode32 (n : Int32) : UInt32 := ((n <<< 1) ^^^ (n >>> 31)).toUInt32

/-- The place of a word of 64 bits. -/
def encode64 (n : Int64) : UInt64 := ((n <<< 1) ^^^ (n >>> 63)).toUInt64

/-- The word of 32 bits at a place. -/
def decode32 (n : UInt32) : Int32 := (n >>> 1).toInt32 ^^^ -(n &&& 1).toInt32

/-- The word of 64 bits at a place. -/
def decode64 (n : UInt64) : Int64 := (n >>> 1).toInt64 ^^^ -(n &&& 1).toInt64

end Protobuf.ZigZag
