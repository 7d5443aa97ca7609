import Protobuf.Proofs.ScalarRoundTrip
import Protobuf.Writer.Operation

/-!
# Writing is exact

Every operation of a writer has a plain encoding, and appends exactly that if there is room for all
of it, whether it goes to the buffer as one byte, as a slice or piece by piece. A run of operations
therefore fills the buffer with their encodings and fails at the first one that does not fit
(`Writer.run_exact`).
-/

namespace Protobuf

/-! ## Sources -/

namespace Source

variable {β : Type} {source : Source β} {b b' : β} {pieces : List Bytes}

/-- From here on the source gives the pieces in order, each of which holds something, and counts
what is left of them. -/
inductive Yields (source : Source β) : β → List Bytes → Prop
  /-- Nothing is left. -/
  | done {b : β} (empty : source.remaining b = 0) : Yields source b []
  /-- A piece comes next. -/
  | piece {b : β} {others : List Bytes} (nonempty : source.chunk b ≠ [])
      (counted : source.remaining b = (source.chunk b).length +
        source.remaining (source.advance b (source.chunk b).length))
      (rest : Yields source (source.advance b (source.chunk b).length) others) :
      Yields source b (source.chunk b :: others)

theorem Yields.remaining_eq (h : source.Yields b pieces) :
    source.remaining b = pieces.flatten.length := by
  induction h with
  | done empty => exact empty
  | piece nonempty counted rest ih => rw [counted, ih, List.flatten_cons, List.length_append]

/-- States that give the same answers yield the same pieces. -/
theorem Yields.congr (h : source.Yields b pieces)
    (hremaining : source.remaining b' = source.remaining b)
    (hchunk : source.chunk b' = source.chunk b)
    (hadvance : ∀ count, 0 < count → source.advance b' count = source.advance b count) :
    source.Yields b' pieces := by
  cases h with
  | done empty => exact .done (hremaining.trans empty)
  | piece nonempty counted rest =>
    rw [← hadvance _ (List.length_pos_iff.2 nonempty), ← hchunk] at counted rest
    rw [← hchunk] at nonempty ⊢
    exact .piece nonempty (hremaining.trans counted) rest

/-- Pieces are given as they are, those that are empty left out. -/
theorem yields_ofPieces (pieces : List Bytes) :
    ofPieces.Yields pieces (pieces.filter (!·.isEmpty)) := by
  induction pieces with
  | nil => exact .done rfl
  | cons piece pieces ih =>
    cases piece with
    | nil =>
      refine ih.congr rfl rfl fun count hcount => ?_
      obtain ⟨count, rfl⟩ := Nat.exists_eq_succ_of_ne_zero (Nat.ne_of_gt hcount)
      rfl
    | cons byte bytes =>
      have hadvance : ofPieces.advance ((byte :: bytes) :: pieces) (byte :: bytes).length =
          pieces := by
        show drop ((byte :: bytes) :: pieces) (bytes.length + 1) = pieces
        rw [drop, List.length_cons, if_neg (Nat.lt_irrefl _), Nat.sub_self, drop]
      refine .piece (b := (byte :: bytes) :: pieces) (List.cons_ne_nil byte bytes) ?_ ?_
      · show ((byte :: bytes) ++ pieces.flatten).length =
          (byte :: bytes).length + ofPieces.remaining (ofPieces.advance _ (byte :: bytes).length)
        rw [hadvance, List.length_append]
        rfl
      · exact hadvance.symm ▸ ih

end Source

namespace Writer

section

variable {β : Type} {source : Source β} {b : β} {pieces : List Bytes}

/-- What a source gives is appended one piece behind the other. -/
theorem appends_pull (h : source.Yields b pieces) {rounds : Nat}
    (hrounds : source.remaining b ≤ rounds) : Appends (pull source rounds b) pieces.flatten := by
  induction h generalizing rounds with
  | done empty =>
    cases rounds with
    | zero => exact appends_some
    | succ rounds =>
      intro w
      rw [pull, if_pos empty]
      exact appends_some w
  | @piece b others nonempty counted rest ih =>
    -- The piece holds something, so a round is left for it and the others need fewer.
    have hpos : 0 < (source.chunk b).length := List.length_pos_iff.2 nonempty
    obtain ⟨rounds, rfl⟩ : ∃ n, rounds = n + 1 := ⟨rounds - 1, by omega⟩
    intro w
    rw [pull, if_neg (by omega), List.flatten_cons]
    exact (appends_append _).bind (ih (by omega)) w

/-- How the bytes are cut into pieces does not show. -/
theorem appends_buffer (h : source.Yields b pieces) :
    Appends (buffer source b) (Varint.encode pieces.flatten.length ++ pieces.flatten) := by
  intro w
  rw [buffer, h.remaining_eq]
  exact (appends_varint _).bind (appends_pull h (Nat.le_of_eq h.remaining_eq)) w

end

theorem appends_chunks (pieces : List Bytes) :
    Appends (·.chunks pieces) (Varint.encode pieces.flatten.length ++ pieces.flatten) := by
  have h := appends_buffer (Source.yields_ofPieces pieces)
  rwa [List.flatten_filter_not_isEmpty] at h

/-! ## Operations -/

namespace Operation

/-- The plain encoding of what is written: varints in their shortest form, words with the least
significant byte first, and bytes behind their length. -/
def encoding : Operation → Bytes
  | unknown raw => raw
  | startField number wireType => Varint.encode (8 * number + wireType.code)
  | tag t => Varint.encode (8 * t.number + t.wireType.code)
  | varint value => Varint.encode value.toNat
  | signed value => Varint.encode (value.toInt % 2 ^ 64).toNat
  | zigzag32 value => Varint.encode (ZigZag.encode value.toInt)
  | zigzag64 value => Varint.encode (ZigZag.encode value.toInt)
  | bool value => [if value then 1 else 0]
  | fixed32 value | float value => Bytes.ofNat 4 value.toNat
  | fixed64 value | double value => Bytes.ofNat 8 value.toNat
  | string value => Varint.encode (Utf8.encode value).length ++ Utf8.encode value
  | bytes value => Varint.encode value.length ++ value
  | chunks pieces => Varint.encode pieces.flatten.length ++ pieces.flatten

/-- A field that is started has a number that fields may have. -/
def Valid : Operation → Prop
  | startField number _ => ValidFieldNumber number
  | _ => True

end Operation

/-- Every operation appends its encoding. -/
theorem appends_perform {op : Operation} (valid : op.Valid) : Appends op.perform op.encoding := by
  cases op with
  | unknown raw => exact appends_append raw
  | startField number wireType => exact appends_startField wireType valid
  | tag t => exact appends_tag t.number t.wireType
  | varint value => exact appends_varint value.toNat
  | signed value =>
    rw [Operation.encoding, ← Int64.toNat_toUInt64]
    exact appends_varint value.toUInt64.toNat
  | zigzag32 value =>
    rw [Operation.encoding, ← ZigZag.toNat_encode32]
    exact appends_varint (ZigZag.encode32 value).toNat
  | zigzag64 value =>
    rw [Operation.encoding, ← ZigZag.toNat_encode64]
    exact appends_varint (ZigZag.encode64 value).toNat
  | bool value => exact appends_push (if value then 1 else 0)
  | fixed32 value | float value => exact appends_append (Bytes.ofNat 4 value.toNat)
  | fixed64 value | double value => exact appends_append (Bytes.ofNat 8 value.toNat)
  | string value => exact appends_delimited (Utf8.encode value)
  | bytes value => exact appends_delimited value
  | chunks pieces => exact appends_chunks pieces

/-- Operations one after the other append their encodings one behind the other. -/
theorem appends_run {ops : List Operation} (valid : ∀ op ∈ ops, op.Valid) :
    Appends (run ops) (ops.flatMap Operation.encoding) :=
  appends_foldlM fun op hop => appends_perform (valid op hop)

/-- A writer appends exactly, up to its capacity. As long as the encodings of all operations fit, no
operation fails, what was written are these encodings, and that and the room that is left make up
the capacity. The next operation fails if and only if it does not fit. Bytes that come in pieces
are written as if they lay together, whatever source gives them. -/
theorem run_exact (capacity : Nat) (ops : List Operation) (valid : ∀ op ∈ ops, op.Valid)
    (fits : (ops.flatMap Operation.encoding).length ≤ capacity) :
    ∃ w, run ops (new capacity) = some w ∧ w.used + w.room = capacity ∧
      w.written = ops.flatMap Operation.encoding ∧
      (∀ op : Operation, op.Valid →
        (op.perform w = none ↔ capacity < w.used + op.encoding.length)) ∧
      ∀ (β : Type) (source : Source β) (b : β) (pieces : List Bytes), source.Yields b pieces →
        w.buffer source b = w.delimited pieces.flatten := by
  obtain ⟨w, hrun, hwritten, hroom⟩ : ∃ w, run ops (new capacity) = some w ∧
      w.written = ops.flatMap Operation.encoding ∧ w.used + w.room = capacity := by
    refine ⟨⟨ops.flatMap Operation.encoding,
      capacity - (ops.flatMap Operation.encoding).length⟩, ?_, rfl, Nat.add_sub_cancel' fits⟩
    rw [appends_run valid, append, new, if_pos fits, List.nil_append]
  refine ⟨w, hrun, hroom, hwritten, fun op hop => ?_, fun β source b pieces h => ?_⟩
  · rw [appends_perform hop, append_eq_none]
    omega
  · exact (appends_buffer h w).trans (appends_delimited pieces.flatten w).symm

/-- Two fields take up twenty bytes: a negative number, which is ten bytes long, and two bytes in
pieces under the largest field number. Where three bytes are left a word of four does not fit. -/
theorem run_exact_twenty :
    let ops : List Operation := [.startField 16 .varint, .signed (-1),
      .startField maxFieldNumber .lengthDelimited, .chunks [[1], [], [2]]]
    (∀ op ∈ ops, op.Valid) ∧ (ops.flatMap Operation.encoding).length = 20 ∧
      ∃ w, run ops (new 23) = some w ∧ w.room = 3 ∧ (Operation.fixed32 1).perform w = none ∧
        w.buffer .ofPieces [[1], [], [2]] = w.delimited [1, 2] := by
  intro ops
  have valid : ∀ op ∈ ops, op.Valid := by
    simp [ops, Operation.Valid]
    decide
  have hlen : (ops.flatMap Operation.encoding).length = 20 := by
    simp [ops, Operation.encoding, Varint.length_encode]
    decide
  obtain ⟨w, hrun, hcapacity, hwritten, hnext, hbuffer⟩ := run_exact 23 ops valid (by omega)
  have hused : w.used = 20 := by rw [used, hwritten, hlen]
  refine ⟨valid, hlen, w, hrun, by omega, ?_, ?_⟩
  · refine (hnext (.fixed32 1) trivial).2 ?_
    rw [hused]
    decide
  · exact hbuffer _ .ofPieces _ [[1], [2]] (Source.yields_ofPieces [[1], [], [2]])

end Writer

end Protobuf
