import Protobuf.Tag
import Protobuf.WireValue

/-!
# Bounded writers

A writer appends to a buffer whose size was fixed beforehand. Each operation appends the encoding of
its argument if it fits, and has no result otherwise.
-/

namespace Protobuf

/-- How bytes that need not lie together are read piece by piece. -/
structure Source (β : Type) where
  /-- How many bytes are left. -/
  remaining : β → Nat
  /-- The next piece. -/
  chunk : β → Bytes
  /-- Goes on by so many bytes. -/
  advance : β → Nat → β

namespace Source

/-- What is left of some pieces behind so many bytes. -/
def drop : List Bytes → Nat → List Bytes
  | pieces, 0 => pieces
  | [], _ + 1 => []
  | piece :: pieces, count + 1 =>
    if count + 1 < piece.length then piece.drop (count + 1) :: pieces
    else drop pieces (count + 1 - piece.length)

/-- Pieces of which some may be empty; those are passed over. -/
def ofPieces : Source (List Bytes) where
  remaining pieces := pieces.flatten.length
  chunk pieces := (pieces.find? (!·.isEmpty)).getD []
  advance := drop

end Source

/-- A buffer that is being filled. -/
structure Writer where
  /-- The bytes written so far. -/
  written : Bytes
  /-- How many bytes still fit. -/
  room : Nat
  deriving DecidableEq, Repr

namespace Writer

/-- An empty buffer of the given capacity. -/
def new (capacity : Nat) : Writer := ⟨[], capacity⟩

/-- How many bytes were written. -/
def used (w : Writer) : Nat := w.written.length

/-- Appends one byte. -/
def push (w : Writer) (byte : UInt8) : Option Writer :=
  if 0 < w.room then some ⟨w.written ++ [byte], w.room - 1⟩ else none

/-- Appends bytes as they are. -/
def append (w : Writer) (bytes : Bytes) : Option Writer :=
  if bytes.length ≤ w.room then some ⟨w.written ++ bytes, w.room - bytes.length⟩ else none

/-- Appends a varint in its shortest form. A single byte is pushed, and more of them are written to
the slice that is left. -/
def varint (w : Writer) (n : Nat) : Option Writer :=
  if n < 128 then w.push (UInt8.ofNat n)
  else (Varint.toSlice? w.room n).map fun bytes => ⟨w.written ++ bytes, w.room - bytes.length⟩

/-- Appends the tag of a field. -/
def tag (w : Writer) (number : Nat) (wireType : WireType) : Option Writer :=
  w.varint (Tag.rawOf number wireType)

/-- Appends the tag of a field whose number must be valid. -/
def startField (w : Writer) (number : Nat) (wireType : WireType) : Option Writer :=
  (Tag.ofNumber? number wireType).bind fun t => w.tag t.number t.wireType

/-- Appends bytes behind their length. -/
def delimited (w : Writer) (bytes : Bytes) : Option Writer :=
  (w.varint bytes.length).bind (·.append bytes)

/-- Appends what a source gives, piece by piece. A source gives something as long as something is
left of it, so what is left bounds the number of rounds. -/
def pull {β : Type} (source : Source β) : (rounds : Nat) → β → Writer → Option Writer
  | 0, _, w => some w
  | rounds + 1, b, w =>
    if source.remaining b = 0 then some w
    else
      let piece := source.chunk b
      (w.append piece).bind (pull source rounds (source.advance b piece.length))

/-- Appends what a source gives behind its length. -/
def buffer {β : Type} (source : Source β) (b : β) (w : Writer) : Option Writer :=
  (w.varint (source.remaining b)).bind (pull source (source.remaining b) b)

/-- Appends bytes that come in pieces behind their whole length. -/
def chunks (w : Writer) (pieces : List Bytes) : Option Writer := w.buffer .ofPieces pieces

/-! ## Every operation appends -/

/-- Appending in two steps is appending at once. -/
theorem append_append (w : Writer) (a b : Bytes) :
    (w.append a).bind (·.append b) = w.append (a ++ b) := by
  unfold append
  by_cases ha : a.length ≤ w.room
  · by_cases hb : b.length ≤ w.room - a.length
    · have hab : a.length + b.length ≤ w.room := by omega
      simp [ha, hb, hab]
      omega
    · have hab : ¬ a.length + b.length ≤ w.room := by omega
      simp [ha, hb, hab]
  · have hab : ¬ a.length + b.length ≤ w.room := by omega
    simp [ha, hab]

theorem append_eq_none {w : Writer} {bytes : Bytes} :
    w.append bytes = none ↔ w.room < bytes.length := by
  unfold append
  split
  · rename_i h
    simp only [reduceCtorEq, false_iff]
    omega
  · rename_i h
    simp only [true_iff]
    omega

/-- The operation appends certain bytes, or nothing where they do not fit. -/
def Appends (put : Writer → Option Writer) (bytes : Bytes) : Prop := ∀ w, put w = w.append bytes

theorem appends_append (bytes : Bytes) : Appends (·.append bytes) bytes := fun _ => rfl

/-- Doing nothing appends nothing. -/
theorem appends_some : Appends some [] := fun w => by simp [append]

/-- Operations in sequence append what they append in sequence. -/
theorem Appends.bind {p q : Writer → Option Writer} {a b : Bytes} (hp : Appends p a)
    (hq : Appends q b) : Appends (fun w => (p w).bind q) (a ++ b) := fun w => by
  change (p w).bind q = _
  rw [hp w, ← append_append]
  exact congrArg _ (funext hq)

theorem Appends.bind_some {p : Writer → Option Writer} {a : Bytes} (hp : Appends p a) :
    Appends (fun w => (p w).bind some) a := fun w => by
  simpa using hp w

theorem appends_push (byte : UInt8) : Appends (·.push byte) [byte] := fun _ => rfl

theorem appends_varint (n : Nat) : Appends (·.varint n) (Varint.encode n) := fun w => by
  show w.varint n = _
  unfold varint
  by_cases h : n < 128
  · rw [if_pos h, Varint.encode_of_lt h]
    rfl
  · rw [if_neg h, Varint.toSlice?_eq, append]
    split <;> rfl

theorem appends_tag (number : Nat) (wireType : WireType) :
    Appends (·.tag number wireType) (Tag.encode number wireType) :=
  appends_varint (Tag.rawOf number wireType)

theorem appends_startField {number : Nat} (wireType : WireType)
    (valid : ValidFieldNumber number) :
    Appends (·.startField number wireType) (Tag.encode number wireType) := by
  intro w
  show w.startField number wireType = _
  rw [startField, Tag.ofNumber?_of_valid valid]
  exact appends_tag number wireType w

theorem appends_delimited (bytes : Bytes) :
    Appends (·.delimited bytes) (Varint.encode bytes.length ++ bytes) :=
  (appends_varint _).bind (appends_append bytes)

/-- Writing things one by one appends what each of them appends. -/
theorem appends_foldlM {α : Type} {put : Writer → α → Option Writer} {bytes : α → Bytes}
    {xs : List α} (h : ∀ x ∈ xs, Appends (put · x) (bytes x)) :
    Appends (fun w => xs.foldlM put w) (xs.flatMap bytes) := by
  induction xs with
  | nil => exact appends_some
  | cons x xs ih =>
    simp only [List.foldlM_cons, List.flatMap_cons]
    exact (h x (by simp)).bind (ih fun y hy => h y (by simp [hy]))

end Writer

end Protobuf
