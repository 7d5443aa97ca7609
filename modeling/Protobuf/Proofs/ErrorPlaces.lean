import Protobuf.Proofs.Failure

/-!
# Where decoding fails

Input is truncated, breaks the wire format or nests too deep, or a required field is missing:
decoding fails for no other reason, and the first two name a place inside the input
(`Message.decode_error_located`). A wire-type mismatch does not get out of the message that declares
the field, since it is found while message and input are still as they were.
-/

namespace Protobuf

open Build Reader

/-- A located error that is no wire-type mismatch tells of a place or of too deep nesting. -/
theorem Error.Located.eq_of_settled {stop : Nat} {e : Error} (h : e.Located stop)
    (hm : e.isMismatch = false) :
    (∃ offset ≤ stop, e = .truncated offset ∨ ∃ fault, e = .malformed offset fault) ∨
      ∃ limit, e = .recursionLimit limit := by
  cases h with
  | truncated offset_le => exact .inl ⟨_, offset_le, .inl rfl⟩
  | malformed offset_le fault_ne => exact .inl ⟨_, offset_le, .inr ⟨_, rfl⟩⟩
  | wireTypeMismatch => cases hm
  | recursionLimit limit => exact .inr ⟨limit, rfl⟩

namespace Message

variable {options : DecodeOptions} {type : MessageType} {bytes : Bytes} {e : Error}

theorem mergeBody_of_merge_error {m m' : Message} (h : merge options bytes m = .error e m') :
    ∃ t, mergeBody options none (m, .new bytes) = .error e (m', t) := by
  rw [merge] at h
  rcases hb : mergeBody options none (m, .new bytes) with ⟨_, m1, t⟩ | ⟨e', m1, t⟩
  · rw [hb] at h
    cases h
  · rw [hb] at h
    cases h
    exact ⟨t, rfl⟩

/-- Decoding fails because merging does or because required fields are missing. -/
theorem merge_of_decode_error (h : decode options type bytes = .error e) :
    (e = .missingRequired ∧ options.allowPartial = false) ∨
      ∃ m, merge options bytes (.new type) = .error e m := by
  rw [decode] at h
  cases hm : merge options bytes (.new type) with
  | error e' m =>
    rw [hm] at h
    cases h
    exact .inr ⟨m, rfl⟩
  | ok a m =>
    rw [hm] at h
    cases hp : options.allowPartial with
    | false => exact .inl ⟨error_of_checked h, rfl⟩
    | true =>
      simp only [checked, hp, Bool.true_or, if_true] at h
      cases h

/-- The error of merging some input lies inside the input. -/
theorem located_of_merge_error {m m' : Message} (h : merge options bytes m = .error e m') :
    e.Located bytes.length ∧ e.isMismatch = false := by
  obtain ⟨t, hbody⟩ := mergeBody_of_merge_error h
  obtain ⟨-, he⟩ := orderly_mergeBody options _ none _ _ _ (Nat.le_refl _) hbody
  exact ⟨stop_new bytes ▸ he, settled_mergeBody options none _ _ _ hbody⟩

/-- A field that is refused for its wire type leaves the message and the reader as they were. -/
theorem eq_of_mergeField_mismatch {limit : Nat} {body : MergeBody} (hb : ∀ g, Settled (body g))
    {tag : Tag} {p q : Message × Reader} (h : mergeField limit body tag p = .error e q)
    (he : e.isMismatch = true) : q = p := by
  obtain ⟨m, r⟩ := p
  cases hm : declared? m.type tag with
  | none =>
    rw [mergeField_of_not_declared hm] at h
    cases h
  | some found =>
    obtain ⟨i, member⟩ := found
    rw [mergeField_of_declared? hm] at h
    have hexpects := expects_atSlot hb limit i member
    by_cases ht : member.takes tag = true
    · have hsettled := hexpects.settled tag ht _ _ _ h
      rw [he] at hsettled
      cases hsettled
    · obtain ⟨e', hrefuse, -⟩ := hexpects.refuse tag (m, r) ht
      rw [hrefuse] at h
      cases h
      rfl

/-- Decoding fails because the input is truncated, malformed or too deep, or because a required
field is missing, and what is truncated or malformed is so at a place of the input. Merging fields
at whatever nesting never ends in a wire-type mismatch. Where merging one field does, the message
and the reader, its depth included, are what they were before. -/
theorem decode_error_located (options : DecodeOptions) (type : MessageType) (bytes : Bytes) :
    (∀ e, decode options type bytes = .error e →
      (∃ offset ≤ bytes.length, e = .truncated offset ∨ ∃ fault, e = .malformed offset fault) ∨
        (∃ limit, e = .recursionLimit limit) ∨
        (e = .missingRequired ∧ options.allowPartial = false)) ∧
    (∀ rounds group? m r e p, mergeFields options rounds group? (m, r) = .error e p →
      ∀ offset number actual expected, e ≠ .wireTypeMismatch offset number actual expected) ∧
    (∀ rounds tag m r offset number actual expected m' t,
      mergeField options.depthLimit (mergeFields options rounds) tag (m, r) =
        .error (.wireTypeMismatch offset number actual expected) (m', t) →
      m' = m ∧ t = r) := by
  refine ⟨fun e h => ?_, ?_, ?_⟩
  · rcases merge_of_decode_error h with hmissing | ⟨m, hm⟩
    · exact .inr (.inr hmissing)
    · obtain ⟨hlocated, hsettled⟩ := located_of_merge_error hm
      rcases hlocated.eq_of_settled hsettled with hplace | hlimit
      · exact .inl hplace
      · exact .inr (.inl hlimit)
  · rintro rounds group? m r _ p h offset number actual expected rfl
    cases settled_mergeFields options rounds group? _ _ _ h
  · intro rounds tag m r offset number actual expected m' t h
    have hq := eq_of_mergeField_mismatch (settled_mergeFields options rounds) h rfl
    exact ⟨congrArg Prod.fst hq, congrArg Prod.snd hq⟩

/-- A varint is cut off inside a nested message; a scalar comes where a message is declared. -/
theorem decode_error_located_requiredForeign :
    let body := mergeFields {} 3
    let m := new .requiredForeign
    let r : Reader := ⟨[0x08], 1, 2⟩
    let e := Error.wireTypeMismatch 1 1 .varint .lengthDelimited
    decode {} .requiredForeign [0x0a, 0x02, 0x08, 0x80] = .error (.truncated 4) ∧
      (∃ offset ≤ 4, Error.truncated 4 = .truncated offset) ∧
      mergeField 100 body ⟨1, .varint, by decide⟩ (m, r) = .error e (m, r) ∧
      ∀ m' t, mergeField 100 body ⟨1, .varint, by decide⟩ (m, r) = .error e (m', t) →
        m' = m ∧ t = r := by
  have h := decode_error_located {} .requiredForeign [0x0a, 0x02, 0x08, 0x80]
  have hdecode : decode {} .requiredForeign [0x0a, 0x02, 0x08, 0x80] = .error (.truncated 4) := rfl
  refine ⟨hdecode, ?_, rfl, fun m' t hmerge => h.2.2 _ _ _ _ _ _ _ _ m' t hmerge⟩
  rcases h.1 _ hdecode with ⟨offset, hle, heq | ⟨fault, heq⟩⟩ | ⟨limit, heq⟩ | ⟨heq, -⟩
  · exact ⟨offset, hle, heq⟩
  · cases heq
  · cases heq
  · cases heq

end Message

end Protobuf
