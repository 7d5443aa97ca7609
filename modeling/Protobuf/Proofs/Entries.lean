import Protobuf.Proofs.ForeignFields

/-!
# The entries of unknown fields

The unknown fields of a message are gone through under the default nesting limit, whatever limit the
message was decoded under. They are complete where decoding kept to the default limit
(`Message.entries_everywhere`); under a higher one they end before the first group that the default
limit does not allow (`Message.entries_of_decode`).
-/

namespace Protobuf

open Reader

/-! ## Cutting bytes that may not be fields to their end -/

namespace RawField

variable {limit limit' : Nat}

theorem Run.of_limit_le (hle : limit ≤ limit') {r t : Reader} {fields : List RawField}
    (h : Run limit r fields t) : Run limit' r fields t := by
  induction h with
  | nil r => exact .nil r
  | cons htag hw hskip _ ih => exact .cons htag hw (skip_of_limit_le hle hskip) ih

theorem next_eq_some {r v : Reader} {field : RawField} (h : next limit r = .ok (some field) v) :
    ∃ u, nextTag r = .ok (some field.tag) u ∧ field.tag.wireType ≠ .endGroup ∧
      skip limit field.tag u = .ok () v ∧ field.bytes = r.consumed v := by
  rw [next, run_bind_of_ok (run_get r)] at h
  obtain ⟨tag?, u, htag, h⟩ := bind_eq_ok.1 h
  cases tag? with
  | none => cases h
  | some tag =>
    obtain ⟨⟨⟩, w, hskip, h⟩ := bind_eq_ok.1 h
    rw [run_bind_of_ok (run_get w)] at h
    cases h
    refine ⟨u, htag, ?_, hskip, rfl⟩
    intro hw
    have hw : tag.wireType = .endGroup := hw
    obtain ⟨value, hvalue⟩ := wireValue_of_skip (by simp [hw]) hskip
    exact (wireType_of_wireValue hvalue).2 hw

/-- Bytes are cut up to some place, from where on the rest is left as it is. -/
theorem run_of_scan (limit rounds : Nat) (r : Reader) :
    ∃ t, Run limit r (scan limit rounds r).1 t ∧ t.rest = (scan limit rounds r).2 := by
  induction rounds generalizing r with
  | zero => exact ⟨r, .nil r, rfl⟩
  | succ rounds ih =>
    rw [scan]
    split
    · rename_i field v hnext
      obtain ⟨u, htag, hw, hskip, hbytes⟩ := next_eq_some hnext
      obtain ⟨t, hrun, ht⟩ := ih v
      obtain ⟨tag, bytes⟩ := field
      cases hbytes
      exact ⟨t, .cons htag hw hskip hrun, ht⟩
    · exact ⟨r, .nil r, rfl⟩

/-- The fields and what is left behind them are the bytes again. -/
theorem flatMap_split (limit : Nat) (bytes : Bytes) :
    (split limit bytes).1.flatMap RawField.bytes ++ (split limit bytes).2 = bytes := by
  obtain ⟨t, hrun, ht⟩ := run_of_scan limit (bytes.length + 1) (.new bytes)
  have hrest : bytes = (split limit bytes).1.flatMap RawField.bytes ++ t.rest := hrun.consumes.1
  rw [ht] at hrest
  exact hrest.symm

/-- The fields are all of the bytes if and only if the bytes are a run of fields. -/
theorem flatMap_split_eq_self {limit : Nat} {bytes : Bytes} :
    (split limit bytes).1.flatMap RawField.bytes = bytes ↔
      ∃ fields t, Run limit (.new bytes) fields t ∧ t.rest = [] := by
  constructor
  · intro h
    obtain ⟨t, hrun, ht⟩ := run_of_scan limit (bytes.length + 1) (.new bytes)
    refine ⟨_, t, hrun, ?_⟩
    have hsplit := flatMap_split limit bytes
    have hnil : (split limit bytes).2 = [] := by
      rw [h] at hsplit
      exact List.append_right_eq_self.1 hsplit
    exact ht.trans hnil
  · rintro ⟨fields, t, hrun, ht⟩
    rw [split_of_run hrun ht]
    exact hrun.consumes.eq_rest ht

theorem flatMap_entries_of_foreign {depth : Nat} {type : MessageType} {bytes : Bytes}
    (h : Foreign limit depth type bytes) (hle : limit ≤ ({} : DecodeOptions).depthLimit) :
    (entries bytes).flatMap RawField.bytes = bytes := by
  -- outside of messages there are more levels left
  have houtside : Foreign limit 0 type bytes := h.of_levels_le (Nat.sub_le limit depth)
  obtain ⟨fields, hbytes, hfields⟩ := houtside
  have hconsumes : (Reader.new bytes).Consumes (fields.flatMap RawField.bytes)
      ((Reader.new bytes).advance bytes.length) := by
    rw [hbytes]
    exact (consumes_whole rfl).1
  have hrun := run_of_forall_isField (fun field hf => (hfields field hf).2) hconsumes
  exact flatMap_split_eq_self.2 ⟨fields, _, hrun.of_limit_le hle, List.drop_length⟩

end RawField

/-! ## Entries of decoded messages -/

namespace Message

open RawField

variable {options : DecodeOptions} {bytes : Bytes} {m : Message}

/-- Under the default limit, or a lower one, the entries of all unknown fields at every level are
complete. -/
theorem entries_everywhere {type : MessageType} (h : decode options type bytes = .ok m)
    (hle : options.depthLimit ≤ ({} : DecodeOptions).depthLimit) :
    m.Everywhere (fun _ m => (entries m.unknown).flatMap RawField.bytes = m.unknown) 0 :=
  (sound_of_decode h).2.imp fun _ _ hm => flatMap_entries_of_foreign hm.2 hle

theorem run_of_decode {type : MessageType} (h : decode options type bytes = .ok m) :
    ∃ fields t, Run options.depthLimit (.new bytes) fields t ∧ t.rest = [] := by
  obtain ⟨t, hmerges, ht⟩ := merge_eq_ok.1 (merge_of_decode h)
  obtain ⟨fields, hrun, -⟩ := exists_run_of_merges hmerges
  exact ⟨fields, t, hrun, ht⟩

/-- A message without fields is decoded from exactly the bytes that are fields. -/
theorem decode_empty_eq_ok_iff {options : DecodeOptions}
    (hdiscard : options.discardUnknown = false) {bytes : Bytes} {m : Message} :
    decode options .empty bytes = .ok m ↔
      Phrase.fields.SpelledBy options.depthLimit bytes ∧ m = ⟨.empty, [], bytes⟩ := by
  constructor
  · intro h
    obtain ⟨fields, t, hrun, ht⟩ := run_of_decode h
    rw [decode_of_run hdiscard hrun ht] at h
    cases h
    have hspelled := hrun.spelledBy
    rw [hrun.consumes.eq_rest ht] at hspelled
    exact ⟨hspelled, rfl⟩
  · rintro ⟨hspelled, rfl⟩
    obtain ⟨hr, ht⟩ := consumes_whole (r := .new bytes) rfl
    obtain ⟨fields, hrun, -⟩ :=
      RawField.exists_run_of_spelledBy hspelled (Nat.le_refl options.depthLimit) hr
    exact decode_of_run hdiscard hrun ht

/-- A message without fields keeps its whole input. The entries of what it keeps are the front of
the input, and all of it exactly if the input can be decoded under the default limit. -/
theorem entries_of_decode (hdiscard : options.discardUnknown = false)
    (h : decode options .empty bytes = .ok m) :
    m.unknown = bytes ∧ (entries m.unknown).flatMap RawField.bytes <+: bytes ∧
      ((entries m.unknown).flatMap RawField.bytes = bytes ↔
        ∃ m', decode {} .empty bytes = .ok m') ∧
      (options.depthLimit ≤ ({} : DecodeOptions).depthLimit →
        (entries m.unknown).flatMap RawField.bytes = bytes) := by
  obtain ⟨fields, t, hrun, ht⟩ := run_of_decode h
  have hm : m.unknown = bytes := by
    rw [decode_of_run hdiscard hrun ht] at h
    cases h
    rfl
  rw [hm]
  refine ⟨rfl, ⟨_, flatMap_split _ bytes⟩, ?_, fun hle => ?_⟩
  · rw [entries, flatMap_split_eq_self]
    constructor
    · rintro ⟨fields', t', hrun', ht'⟩
      exact ⟨_, decode_of_run rfl hrun' ht'⟩
    · rintro ⟨m', hm'⟩
      exact run_of_decode hm'
  · exact flatMap_split_eq_self.2 ⟨fields, t, hrun.of_limit_le hle, ht⟩

/-- A number that is not declared and a group. -/
theorem entries_of_decode_group :
    decode { depthLimit := 1 } .empty [8, 5, 11, 8, 1, 12] =
        .ok ⟨.empty, [], [8, 5, 11, 8, 1, 12]⟩ ∧
      (entries [8, 5, 11, 8, 1, 12]).flatMap RawField.bytes = [8, 5, 11, 8, 1, 12] := by
  have hdecode : decode { depthLimit := 1 } .empty [8, 5, 11, 8, 1, 12] =
      .ok ⟨.empty, [], [8, 5, 11, 8, 1, 12]⟩ := by
    rw [decode]
    exact checked_empty false [8, 5, 11, 8, 1, 12]
  exact ⟨hdecode, (entries_of_decode rfl hdecode).2.2.2 (by decide)⟩

/-- Groups that nest one level deeper than the default limit allows. -/
def tooDeep : Bytes := List.replicate 101 11 ++ List.replicate 101 12

/-- Under a limit that is high enough groups are kept of which there is no entry. -/
theorem entries_tooDeep :
    ∃ m, decode { depthLimit := 101 } .empty tooDeep = .ok m ∧ m.unknown = tooDeep ∧
      entries m.unknown = [] := by
  have hsplit : split 101 tooDeep = ([⟨⟨1, .startGroup, by decide⟩, tooDeep⟩], []) := by
    decide +kernel
  have hall : (split 101 tooDeep).1.flatMap RawField.bytes = tooDeep := by
    rw [hsplit]
    exact List.append_nil tooDeep
  obtain ⟨fields, t, hrun, ht⟩ := flatMap_split_eq_self.1 hall
  refine ⟨_, decode_of_run rfl hrun ht, rfl, ?_⟩
  decide +kernel

end Message

end Protobuf
