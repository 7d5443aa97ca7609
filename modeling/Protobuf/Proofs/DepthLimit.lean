import Protobuf.Proofs.UnknownFields

/-!
# The nesting limit

The limit is checked before a message, a group or a map entry is opened, and before every field that
is skipped inside groups. So nothing inside them is read beyond the limit, and a lower limit makes
no other difference than that some inputs are given up (`Message.decode_depthLimit`).
-/

namespace Protobuf

open Build

namespace Reader

/-! ## Cutting off -/

section

variable {limit : Nat} {r : Reader}

theorem message_of_limit_lt (hd : limit < r.depth + 1) {tag : Tag}
    (hw : tag.wireType = .lengthDelimited) (body : MergeBody) (m : Message) :
    message limit body tag (m, r) =
      .error (.recursionLimit limit) (m, { r with depth := r.depth + 1 }) := by
  rw [message, run_bind_of_ok (read_eq_ok.2 ⟨expect_self hw r, rfl⟩)]
  exact run_bind_of_error (read_eq_error.2 ⟨enter_of_limit_lt hd, rfl⟩)

theorem group_of_limit_lt (hd : limit < r.depth + 1) {tag : Tag} (hw : tag.wireType = .startGroup)
    (body : MergeBody) (m : Message) :
    group limit body tag (m, r) =
      .error (.recursionLimit limit) (m, { r with depth := r.depth + 1 }) := by
  rw [group, run_bind_of_ok (read_eq_ok.2 ⟨expect_self hw r, rfl⟩)]
  exact run_bind_of_error (read_eq_error.2 ⟨enter_of_limit_lt hd, rfl⟩)

theorem mapEntry_of_limit_lt (hd : limit < r.depth + 1) {tag : Tag}
    (hw : tag.wireType = .lengthDelimited) {κ ν : Type} (zero : κ × ν)
    (readKey : Tag → Reading Reader κ) (readValue : Tag → Reading Reader ν) :
    mapEntry limit zero readKey readValue tag r =
      .error (.recursionLimit limit) { r with depth := r.depth + 1 } := by
  rw [mapEntry, run_bind_of_ok (expect_self hw r)]
  exact run_bind_of_error (enter_of_limit_lt hd)

/-- While groups are skipped, the open ones count as much as those that were entered. -/
theorem skipGroups_of_limit_lt {stack : List Nat} (hs : stack ≠ [])
    (hd : limit < r.depth + stack.length) (rounds : Nat) :
    skipGroups limit (rounds + 1) stack r = .error (.recursionLimit limit) r := by
  obtain ⟨number, outer, rfl⟩ := List.exists_cons_of_ne_nil hs
  rw [skipGroups_succ]
  exact if_pos hd

theorem skip_of_limit_lt (hd : limit < r.depth + 1) {tag : Tag} (hw : tag.wireType = .startGroup) :
    skip limit tag r = .error (.recursionLimit limit) r := by
  rw [skip, if_pos hw, run_bind_of_ok (run_get r)]
  exact skipGroups_of_limit_lt (List.cons_ne_nil _ _) hd _

end

/-! ## Bodies beyond the limit -/

/-- Merges a body where no more messages are open than the limit, and does something else beyond
it. -/
def capped (limit : Nat) (beyond body : MergeBody) : MergeBody := fun group? (m, r) =>
  if r.depth ≤ limit then body group? (m, r) else beyond group? (m, r)

theorem capped_of_le {limit : Nat} {r : Reader} (hd : r.depth ≤ limit) (beyond body : MergeBody)
    (group? : Option Nat) (m : Message) :
    capped limit beyond body group? (m, r) = body group? (m, r) :=
  if_pos hd

variable {σ α : Type} {limit : Nat}

/-- What follows an opening is run within the limit only. -/
theorem enter_congr {x y : Build Reader σ α}
    (h : ∀ s r, r.depth ≤ limit → x (s, r) = y (s, r)) :
    (read (enter limit) >>= fun _ => x) = (read (enter limit) >>= fun _ => y) := by
  funext ⟨s, r⟩
  by_cases hd : r.depth + 1 ≤ limit
  · have hread := read_eq_ok (s := s).2 ⟨enter_eq_ok.2 ⟨hd, rfl⟩, rfl⟩
    rw [run_bind_of_ok hread, run_bind_of_ok hread]
    exact h s _ hd
  · have hread := read_eq_error (s := s).2 ⟨enter_of_limit_lt (Nat.lt_of_not_le hd), rfl⟩
    rw [run_bind_of_error hread, run_bind_of_error hread]

/-- The region behind a length is read where as many messages are open as before it. -/
theorem within_congr {x y : Build Reader σ α} {s : σ} {r : Reader}
    (h : ∀ u, u.depth = r.depth → x (s, u) = y (s, u)) : within x (s, r) = within y (s, r) := by
  rw [run_within, run_within]
  rcases hl : length r with ⟨count, u⟩ | ⟨e, u⟩
  · have hu : u.depth = r.depth := (steady_length _ _ _ hl).depth_eq
    dsimp only
    rw [h { u with rest := u.rest.take count } hu]
  · rfl

variable (beyond body : MergeBody)

theorem message_capped : message limit (capped limit beyond body) = message limit body := by
  funext tag
  refine congrArg _ (funext fun _ => enter_congr fun m r hd => ?_)
  have hwithin : within (capped limit beyond body none) (m, r) = within (body none) (m, r) :=
    within_congr fun u hu => capped_of_le (hu ▸ hd) beyond body none m
  rw [run_bind, run_bind, hwithin]

theorem group_capped : group limit (capped limit beyond body) = group limit body := by
  funext tag
  refine congrArg _ (funext fun _ => enter_congr fun m r hd => ?_)
  rw [run_bind, run_bind, capped_of_le hd]

theorem value_capped (kind : FieldKind) :
    value limit (capped limit beyond body) kind = value limit body kind := by
  funext tag
  cases kind <;> simp only [value, message_capped, group_capped]

theorem optionalField_capped (kind : FieldKind) :
    optionalField limit (capped limit beyond body) kind = optionalField limit body kind := by
  funext tag
  cases kind <;> simp only [optionalField, message_capped, group_capped]

theorem oneofField_capped (kind : FieldKind) :
    oneofField limit (capped limit beyond body) kind = oneofField limit body kind := by
  funext tag
  cases kind <;> simp only [oneofField, message_capped, group_capped]

theorem repeatedField_capped (kind : FieldKind) :
    repeatedField limit (capped limit beyond body) kind = repeatedField limit body kind := by
  funext tag
  cases kind <;> simp only [repeatedField, value_capped]

theorem Member.merge_capped (member : Member) :
    member.merge limit (capped limit beyond body) = member.merge limit body := by
  funext tag
  cases member <;>
    simp only [Member.merge, value_capped, optionalField_capped, oneofField_capped,
      repeatedField_capped]

end Reader

namespace Message

open Reader Comparison

variable (options : DecodeOptions)

theorem mergeField_capped (limit : Nat) (beyond body : MergeBody) :
    mergeField limit (capped limit beyond body) = mergeField limit body := by
  funext tag ⟨m, r⟩
  simp only [mergeField, Member.merge_capped]

theorem mergeOne_capped (beyond body : MergeBody) :
    mergeOne options (capped options.depthLimit beyond body) = mergeOne options body := by
  funext start tag
  simp only [mergeOne, mergeField_capped]

/-- Merges fields, but does something else in place of every body that lies beyond the limit. -/
def mergeFieldsCapped (beyond : MergeBody) : (rounds : Nat) → MergeBody
  | 0, _ => pure ()
  | rounds + 1, group? =>
    mergeRound
      (mergeOne options (capped options.depthLimit beyond (mergeFieldsCapped beyond rounds)))
      (mergeFieldsCapped beyond rounds group?) group?

/-- No body beyond the limit is ever merged, so it does not matter what would be done there. -/
theorem mergeFieldsCapped_eq (beyond : MergeBody) (rounds : Nat) :
    mergeFieldsCapped options beyond rounds = mergeFields options rounds := by
  induction rounds with
  | zero => rfl
  | succ rounds ih =>
    funext group?
    rw [mergeFieldsCapped, mergeOne_capped, ih, mergeFields_round]

end Message

/-! ## A lower and a higher limit -/

namespace Comparison

/-- A reading beside one at the same place that may nest deeper. -/
def widened {limit limit' : Nat} (h : limit ≤ limit') : Comparison := ⟨0, [], limit, limit', h⟩

variable {limit limit' : Nat} (h : limit ≤ limit')

theorem reader_widened (r : Reader) : (widened h).reader r = r := by
  simp [reader, widened]

theorem eq_of_excuses_widened {e : Error} (he : (widened h).Excuses e) :
    e = .recursionLimit limit := by
  rcases he with he | ⟨-, rfl⟩
  · exact absurd rfl he
  · rfl

end Comparison

namespace Message

open Reader Comparison

variable (options : DecodeOptions) {limit : Nat}

/-- Under a higher limit a body is merged to the same end, unless the lower one gives it up. -/
theorem mergeBody_depthLimit (h : options.depthLimit ≤ limit) (group? : Option Nat) (m : Message)
    (r : Reader) :
    mergeBody options group? (m, r) = mergeBody { options with depthLimit := limit } group? (m, r) ∨
      ∃ p, mergeBody options group? (m, r) = .error (.recursionLimit options.depthLimit) p := by
  have ho := builds_mergeBody (c := widened h) (n := r.remaining) (d := r.depth)
    (.same rfl : Likeness options { options with depthLimit := limit }) rfl rfl group?
    (fun _ => rfl) m.type m m r r rfl
    ⟨(reader_widened h r).symm, Nat.le_refl _, rfl⟩
  rcases hx : mergeBody options group? (m, r) with ⟨⟨⟩, m1, t⟩ | ⟨e, m1, t⟩
  · rw [hx] at ho
    obtain ⟨⟨⟩, ⟨m2, t2⟩, hy, -, hm, ht, -⟩ := ho
    rw [reader_widened] at ht
    dsimp only at hm ht
    rw [hy, hm, ht]
    exact Or.inl rfl
  · rw [hx] at ho
    rcases ho with ho | ⟨⟨m2, t2⟩, hy, hm, ht⟩
    · rw [eq_of_excuses_widened h ho]
      exact Or.inr ⟨_, rfl⟩
    · rw [reader_widened] at ht
      dsimp only at hm ht
      refine Or.inl ?_
      rw [hy, hm, ht]
      exact congrArg (EStateM.Result.error · _) (Error.shift_zero e).symm

theorem decode_of_limit_le (h : options.depthLimit ≤ limit) (type : MessageType) (bytes : Bytes) :
    decode options type bytes = decode { options with depthLimit := limit } type bytes ∨
      decode options type bytes = .error (.recursionLimit options.depthLimit) := by
  unfold decode merge
  rcases mergeBody_depthLimit options h none (new type) (.new bytes) with heq | ⟨p, herr⟩
  · rw [heq]
    exact Or.inl rfl
  · rw [herr]
    exact Or.inr rfl

/-- The limit only cuts off. A higher one changes nothing where decoding was not given up for the
lower one; no body of a message or a group is merged beyond the limit; and where so many messages
are open that another one would be too many, messages, groups, map entries and groups that are
skipped are given up before anything inside them is read. -/
theorem decode_depthLimit (h : options.depthLimit ≤ limit) (type : MessageType) (bytes : Bytes) :
    (decode options type bytes = decode { options with depthLimit := limit } type bytes ∨
      decode options type bytes = .error (.recursionLimit options.depthLimit)) ∧
    (∀ m, decode options type bytes = .ok m →
      decode { options with depthLimit := limit } type bytes = .ok m) ∧
    (∀ beyond rounds, mergeFieldsCapped options beyond rounds = mergeFields options rounds) ∧
    (∀ r : Reader, options.depthLimit < r.depth + 1 → ∀ tag : Tag,
      (tag.wireType = .lengthDelimited → ∀ body m,
        message options.depthLimit body tag (m, r) =
          .error (.recursionLimit options.depthLimit) (m, { r with depth := r.depth + 1 })) ∧
      (tag.wireType = .startGroup → ∀ body m,
        group options.depthLimit body tag (m, r) =
          .error (.recursionLimit options.depthLimit) (m, { r with depth := r.depth + 1 })) ∧
      (tag.wireType = .lengthDelimited → ∀ (κ ν : Type) (zero : κ × ν) readKey readValue,
        mapEntry options.depthLimit zero readKey readValue tag r =
          .error (.recursionLimit options.depthLimit) { r with depth := r.depth + 1 }) ∧
      (tag.wireType = .startGroup →
        skip options.depthLimit tag r = .error (.recursionLimit options.depthLimit) r)) ∧
    (∀ (r : Reader) (stack : List Nat) (rounds : Nat), stack ≠ [] →
      options.depthLimit < r.depth + stack.length →
      skipGroups options.depthLimit (rounds + 1) stack r =
        .error (.recursionLimit options.depthLimit) r) := by
  refine ⟨decode_of_limit_le options h type bytes, fun m hm => ?_,
    mergeFieldsCapped_eq options, fun r hd tag => ⟨?_, ?_, ?_, ?_⟩, fun r stack rounds hs hd => ?_⟩
  · rcases decode_of_limit_le options h type bytes with heq | herr
    · rw [← heq, hm]
    · rw [hm] at herr
      cases herr
  · exact fun hw body m => message_of_limit_lt hd hw body m
  · exact fun hw body m => group_of_limit_lt hd hw body m
  · exact fun hw _ _ zero readKey readValue => mapEntry_of_limit_lt hd hw zero readKey readValue
  · exact fun hw => skip_of_limit_lt hd hw
  · exact skipGroups_of_limit_lt hs hd rounds

/-- Two groups that are not known, one inside the other, are given up under a limit of one and kept
under a limit of two. -/
theorem decode_depthLimit_groups :
    decode ⟨1, false, true⟩ .empty [11, 11, 12, 12] = .error (.recursionLimit 1) ∧
      decode ⟨2, false, true⟩ .empty [11, 11, 12, 12] =
        .ok ⟨.empty, [], [11, 11, 12, 12]⟩ ∧
      decode ⟨100, false, true⟩ .empty [11, 11, 12, 12] =
        .ok ⟨.empty, [], [11, 11, 12, 12]⟩ := by
  refine ⟨rfl, rfl, ?_⟩
  have h := decode_depthLimit ⟨2, false, true⟩ (show 2 ≤ 100 by decide) .empty [11, 11, 12, 12]
  exact h.2.1 _ rfl

end Message

end Protobuf
