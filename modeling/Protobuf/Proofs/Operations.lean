import Protobuf.Proofs.Failure

/-!
# Runs of a reader

A reader can be asked for one thing after the other, also after it failed. Whatever it is asked for,
it stays inside its region and never goes back (`Reader.run_consistent`).
-/

namespace Protobuf

open Build

namespace Reader

/-! ## Regions of an input -/

/-- The reader stands in a region of the input that ends after so many bytes. -/
structure Window (input : Bytes) (stop : Nat) (r : Reader) : Prop where
  position_le : r.position ≤ stop
  stop_le : stop ≤ input.length
  rest_eq : r.rest = (input.take stop).drop r.position

section

variable {input : Bytes} {stop : Nat} {r t u : Reader}

theorem window_new (input : Bytes) : Window input input.length (.new input) := by
  refine ⟨Nat.zero_le _, Nat.le_refl _, ?_⟩
  rw [List.take_length]
  rfl

theorem Window.position_add_remaining (h : Window input stop r) :
    r.position + r.remaining = stop := by
  have hlen := congrArg List.length h.rest_eq
  rw [List.length_drop, List.length_take_of_le h.stop_le] at hlen
  have hle := h.position_le
  rw [remaining]
  omega

theorem Window.of_reaches (h : Window input stop r) (hr : r.Reaches t) : Window input stop t := by
  obtain ⟨bytes, hrest, hposition, -⟩ := hr
  have hadd := h.position_add_remaining
  have hlen := congrArg List.length hrest
  rw [List.length_append] at hlen
  rw [remaining] at hadd
  refine ⟨by omega, h.stop_le, ?_⟩
  calc t.rest = r.rest.drop bytes.length := by rw [hrest, List.drop_left]
    _ = (input.take stop).drop t.position := by rw [h.rest_eq, List.drop_drop, hposition]

/-- The region behind a length lies inside the one where the length was read. -/
theorem Window.narrow (h : Window input stop r) {count : Nat} (hl : length r = .ok count u) :
    u.position + count ≤ stop ∧
      Window input (u.position + count) { u with rest := u.rest.take count } := by
  have hu : Window input stop u := h.of_reaches (steady_length r count u hl).reaches
  have hadd := hu.position_add_remaining
  have hcount := length_le hl
  have hstop : u.position + count ≤ stop := by omega
  refine ⟨hstop, Nat.le_add_right _ _, Nat.le_trans hstop h.stop_le, ?_⟩
  have htake : (input.take stop).take (u.position + count) = input.take (u.position + count) := by
    rw [List.take_take, Nat.min_eq_left hstop]
  show u.rest.take count = (input.take (u.position + count)).drop u.position
  rw [← htake, hu.rest_eq, List.take_drop]

end

/-! ## Closing what was opened -/

/-- Closes a message or a group if one is open. -/
def leaveOr (stuck : Reading Reader Unit) : Reading Reader Unit := fun r =>
  if 0 < r.depth then leave r else stuck r

section

variable {σ : Type} {limit : Nat} (stuck : Reading Reader Unit)

/-- After what has been opened and was steady, there is something to close. -/
theorem leaveOr_entered {x : Build Reader σ Unit} (hx : Steady Prod.snd x) :
    (read (enter limit) >>= fun _ => x >>= fun _ => read (leaveOr stuck)) =
      (read (enter limit) >>= fun _ => x >>= fun _ => read leave) := by
  funext ⟨s, r⟩
  by_cases hd : r.depth + 1 ≤ limit
  · have hread := read_eq_ok (s := s).2 ⟨enter_eq_ok.2 ⟨hd, rfl⟩, rfl⟩
    rw [run_bind_of_ok hread, run_bind_of_ok hread]
    rcases hr : x (s, { r with depth := r.depth + 1 }) with ⟨a, s', u⟩ | ⟨e, s', u⟩
    · rw [run_bind_of_ok hr, run_bind_of_ok hr, run_read, run_read]
      have hdepth : u.depth = r.depth + 1 := (hx _ _ _ hr).depth_eq
      rw [leaveOr, if_pos (by omega)]
    · rw [run_bind_of_error hr, run_bind_of_error hr]
  · have hread := read_eq_error (s := s).2 ⟨enter_of_limit_lt (Nat.lt_of_not_le hd), rfl⟩
    rw [run_bind_of_error hread, run_bind_of_error hread]

theorem mapEntry_leaveOr {κ ν : Type} {readKey : Tag → Reading Reader κ}
    {readValue : Tag → Reading Reader ν} (zero : κ × ν)
    (sb : Steady Prod.snd (entryBody limit readKey readValue)) (tag : Tag) :
    mapEntry limit zero readKey readValue tag =
      (expect tag .lengthDelimited >>= fun _ => enter limit >>= fun _ =>
        alone zero (within (entryBody limit readKey readValue)) >>= fun entry =>
          leaveOr stuck >>= fun _ => pure entry) := by
  refine congrArg _ (funext fun _ => funext fun r => ?_)
  by_cases hd : r.depth + 1 ≤ limit
  · have henter := enter_eq_ok.2 ⟨hd, rfl⟩
    rw [run_bind_of_ok henter, run_bind_of_ok henter]
    rcases hr : alone zero (within (entryBody limit readKey readValue))
      { r with depth := r.depth + 1 } with ⟨entry, u⟩ | ⟨e, u⟩
    · have hdepth : u.depth = r.depth + 1 := (Steady.alone (steady_within sb) _ _ _ hr).depth_eq
      have hleave : leaveOr stuck u = leave u := by rw [leaveOr, if_pos (by omega)]
      rw [run_bind_of_ok hr, run_bind_of_ok hr, run_bind, run_bind, hleave]
    · rw [run_bind_of_error hr, run_bind_of_error hr]
  · have henter := enter_of_limit_lt (Nat.lt_of_not_le hd)
    rw [run_bind_of_error henter, run_bind_of_error henter]

variable {body : MergeBody} (sb : ∀ g, Steady Prod.snd (body g))

include sb

theorem message_leaveOr (tag : Tag) :
    message limit body tag =
      (read (expect tag .lengthDelimited) >>= fun _ => read (enter limit) >>= fun _ =>
        within (body none) >>= fun _ => read (leaveOr stuck)) := by
  rw [leaveOr_entered stuck (steady_within (sb none))]
  rfl

theorem group_leaveOr (tag : Tag) :
    group limit body tag =
      (read (expect tag .startGroup) >>= fun _ => read (enter limit) >>= fun _ =>
        body (some tag.number) >>= fun _ => read (leaveOr stuck)) := by
  rw [leaveOr_entered stuck (sb _)]
  rfl

end

/-! ## Operations -/

/-- What a reader can be asked for. -/
inductive Operation where
  /-- The next tag. -/
  | nextTag
  /-- A varint. -/
  | rawVarint
  /-- Bytes behind their length. -/
  | delimited
  /-- To skip the value of a tag. -/
  | skip (tag : Tag)
  /-- To check the wire type of a tag. -/
  | expect (tag : Tag) (wireType : WireType)
  /-- A scalar of a type. -/
  | scalar (kind : ScalarKind) (tag : Tag)
  /-- The bytes of a field. -/
  | bytes (tag : Tag)
  /-- To merge a message behind its length. -/
  | message (m : Message) (tag : Tag)
  /-- To merge a group. -/
  | group (m : Message) (tag : Tag)
  /-- To merge into the message of an optional field. -/
  | optionalMessage (type : MessageType) (slot : Slot Message) (tag : Tag)
  /-- A map entry. -/
  | mapEntry (key : ScalarKind) (kind : FieldKind) (tag : Tag)
  /-- The elements of a repeated field, behind those that are there. -/
  | repeated (element : WireType) (kind : ScalarKind) (scalars : List Scalar) (tag : Tag)

namespace Operation

variable (options : DecodeOptions)

/-- The operation on a reader, its result left out. -/
def perform : Operation → Reading Reader Unit
  | nextTag => (fun _ => ()) <$> Reader.nextTag
  | rawVarint => (fun _ => ()) <$> Reader.rawVarint
  | delimited => (fun _ => ()) <$> Reader.delimited
  | skip tag => Reader.skip options.depthLimit tag
  | expect tag wireType => Reader.expect tag wireType
  | scalar kind tag => (fun _ => ()) <$> Reader.scalar kind tag
  | bytes tag => (fun _ => ()) <$> Reader.bytes tag
  | message m tag =>
    (fun _ => ()) <$> alone m (Reader.message options.depthLimit (Message.mergeBody options) tag)
  | group m tag =>
    (fun _ => ()) <$> alone m (Reader.group options.depthLimit (Message.mergeBody options) tag)
  | optionalMessage type slot tag =>
    (fun _ => ()) <$> alone slot (intoOptional type .lengthDelimited
      (Reader.message options.depthLimit (Message.mergeBody options)) tag)
  | mapEntry key kind tag =>
    (fun _ => ()) <$> Reader.mapEntry options.depthLimit (key.zero, kind.zero) (Reader.scalar key)
      (value options.depthLimit (Message.mergeBody options) kind) tag
  | repeated element kind scalars tag =>
    (fun _ => ()) <$> alone scalars (Reader.repeated element (Reader.scalar kind) tag)

theorem steady_perform (op : Operation) : Steady id (op.perform options) := by
  have sb := Message.steady_mergeBody options
  cases op with
  | nextTag => exact steady_nextTag.map _
  | rawVarint => exact steady_rawVarint.map _
  | delimited => exact steady_delimited.map _
  | skip tag => exact steady_skip _ tag
  | expect tag wireType => exact steady_expect tag wireType
  | scalar kind tag => exact (steady_scalar kind tag).map _
  | bytes tag => exact (steady_bytes tag).map _
  | message m tag => exact (Steady.alone (steady_message _ sb tag)).map _
  | group m tag => exact (Steady.alone (steady_group _ sb tag)).map _
  | optionalMessage type slot tag =>
    exact (Steady.alone (steady_intoOptional type _ (steady_message _ sb) tag)).map _
  | mapEntry key kind tag =>
    exact (steady_mapEntry (expects_scalar key)
      (expects_value _ (Message.settled_mergeBody options) kind) (steady_scalar key)
      (steady_value _ sb kind) _ _ tag).map _
  | repeated element kind scalars tag =>
    exact (Steady.alone (steady_repeated (steady_scalar kind) tag)).map _

theorem located_perform (n : Nat) (op : Operation) : Orderly id n (op.perform options) := by
  have hb := Message.behaves_mergeBody options n
  cases op with
  | nextTag => exact orderly_nextTag.map _ steady_nextTag
  | rawVarint => exact orderly_rawVarint.map _ steady_rawVarint
  | delimited => exact orderly_delimited.map _ steady_delimited
  | skip tag => exact orderly_skip _ tag
  | expect tag wireType => exact orderly_expect tag wireType
  | scalar kind tag => exact (orderly_scalar kind tag).map _ (steady_scalar kind tag)
  | bytes tag => exact (orderly_bytes tag).map _ (steady_bytes tag)
  | message m tag =>
    exact (Orderly.alone (orderly_message hb tag)).map _
      (Steady.alone (steady_message _ hb.steady tag))
  | group m tag =>
    exact (Orderly.alone (orderly_group hb tag)).map _
      (Steady.alone (steady_group _ hb.steady tag))
  | optionalMessage type slot tag =>
    exact (Orderly.alone (orderly_intoOptional type _ (orderly_message hb) tag)).map _
      (Steady.alone (steady_intoOptional type _ (steady_message _ hb.steady) tag))
  | mapEntry key kind tag =>
    have hk := expects_scalar key
    have hv := expects_value options.depthLimit hb.settled kind
    have sv := steady_value options.depthLimit hb.steady kind
    exact (orderly_mapEntry hk hv (steady_scalar key) sv (orderly_scalar key)
      (orderly_value hb kind) _ tag).map _
      (steady_mapEntry hk hv (steady_scalar key) sv _ _ tag)
  | repeated element kind scalars tag =>
    exact (Orderly.alone (orderly_repeated (orderly_scalar kind) (steady_scalar kind)
      (advances_scalar kind) tag)).map _
      (Steady.alone (steady_repeated (steady_scalar kind) tag))

/-- An operation that fails goes on from where it started, and no nested region ended early. -/
theorem orderly_perform (n : Nat) (op : Operation) (r : Reader) (e : Error) (t : Reader)
    (hn : r.remaining ≤ n) (h : op.perform options r = .error e t) :
    r.Reaches t ∧ ¬ e.EndedEarly := by
  obtain ⟨hreaches, he⟩ := located_perform options n op r e t hn h
  exact ⟨hreaches, he.not_endedEarly⟩

/-- The reader after the operation, whether it succeeded or failed. -/
def after (op : Operation) (r : Reader) : Reader :=
  match op.perform options r with
  | .ok _ t => t
  | .error _ t => t

theorem reaches_after (op : Operation) (r : Reader) : r.Reaches (op.after options r) := by
  unfold after
  cases h : op.perform options r with
  | ok a t => exact (steady_perform options op r a t h).reaches
  | error e t => exact (orderly_perform options r.remaining op r e t (Nat.le_refl _) h).1

end Operation

/-- The reader after some operations, each done whether or not those before it succeeded. -/
def run (options : DecodeOptions) (ops : List Operation) (r : Reader) : Reader :=
  ops.foldl (fun r op => op.after options r) r

theorem reaches_run (options : DecodeOptions) (ops : List Operation) (r : Reader) :
    r.Reaches (run options ops r) := by
  induction ops generalizing r with
  | nil => exact .refl r
  | cons op ops ih => exact (op.reaches_after options r).trans (ih (op.after options r))

/-- A reader of some input stays consistent, whatever was done before and is done next. It stands in
the input and does not go back, all of the input behind it is left, and as many messages are open as
before, or more of them after a failure. The same holds of any region inside the input, to which the
reader may be confined for a while, so it never looks out of the input. What is closed has always
been opened, and that a nested region ended early is never the reason for a failure. -/
theorem run_consistent (options : DecodeOptions) (input : Bytes) (before : List Operation)
    (next : Operation) :
    let r := run options before (.new input)
    let t := next.after options r
    (t.position ≤ input.length ∧ r.position ≤ t.position ∧
      t.position + t.remaining = input.length ∧ t.rest = input.drop t.position) ∧
    (∀ u, next.perform options r = .ok () u → u.depth = r.depth) ∧
    (∀ e u, next.perform options r = .error e u →
      r.depth ≤ u.depth ∧ ∀ offset, e ≠ .malformed offset .nestedEndedEarly) ∧
    (∀ stop r, Window input stop r → Window input stop (next.after options r)) ∧
    (∀ stop r count u, Window input stop r → length r = .ok count u →
      u.position + count ≤ stop ∧
        Window input (u.position + count) { u with rest := u.rest.take count }) ∧
    (∀ stuck tag,
      message options.depthLimit (Message.mergeBody options) tag =
        (read (expect tag .lengthDelimited) >>= fun _ =>
          read (enter options.depthLimit) >>= fun _ =>
          within (Message.mergeBody options none) >>= fun _ => read (leaveOr stuck)) ∧
      group options.depthLimit (Message.mergeBody options) tag =
        (read (expect tag .startGroup) >>= fun _ =>
          read (enter options.depthLimit) >>= fun _ =>
          Message.mergeBody options (some tag.number) >>= fun _ => read (leaveOr stuck)) ∧
      ∀ (key : ScalarKind) (kind : FieldKind) zero,
        mapEntry options.depthLimit zero (scalar key)
            (value options.depthLimit (Message.mergeBody options) kind) tag =
          (expect tag .lengthDelimited >>= fun _ => enter options.depthLimit >>= fun _ =>
            alone zero (within (entryBody options.depthLimit (scalar key)
              (value options.depthLimit (Message.mergeBody options) kind))) >>= fun entry =>
                leaveOr stuck >>= fun _ => pure entry)) := by
  intro r t
  have hr : Window input input.length r :=
    (window_new input).of_reaches (reaches_run options before _)
  have hreaches : r.Reaches t := next.reaches_after options r
  have ht : Window input input.length t := hr.of_reaches hreaches
  refine ⟨⟨ht.position_le, ?_, ht.position_add_remaining, ?_⟩, fun u hu => ?_, fun e u hu => ?_,
    fun stop r h => h.of_reaches (next.reaches_after options r),
    fun stop r count u h hl => h.narrow hl, fun stuck tag => ⟨?_, ?_, fun key kind zero => ?_⟩⟩
  · obtain ⟨bytes, -, hposition, -⟩ := hreaches
    omega
  · rw [ht.rest_eq, List.take_length]
  · exact (next.steady_perform options r () u hu).depth_eq
  · obtain ⟨⟨-, -, -, hdepth⟩, he⟩ :=
      next.orderly_perform options r.remaining r e u (Nat.le_refl _) hu
    exact ⟨hdepth, fun offset heq => he ⟨offset, heq⟩⟩
  · exact message_leaveOr stuck (Message.steady_mergeBody options) tag
  · exact group_leaveOr stuck (Message.steady_mergeBody options) tag
  · refine mapEntry_leaveOr stuck zero (Steady.source.bind fun r => ?_) tag
    exact steady_entryFields (expects_scalar key)
      (expects_value _ (Message.settled_mergeBody options) kind) (steady_scalar key)
      (steady_value _ (Message.steady_mergeBody options) kind) _ _

end Reader

end Protobuf
