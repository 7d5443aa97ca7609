import Protobuf.Proofs.Fitting
import Protobuf.Proofs.Grammar
import Protobuf.Proofs.UnknownFields

/-!
# Unknown fields that are read again

Whether some bytes are a field depends on no more than the levels that are left for groups
(`isField_iff`). So the unknown fields that were kept in a message, at any level, are kept again
when they are read as part of another input (`Message.merges_foreign`).
-/

namespace Protobuf

open Build

/-! ## Fields that a type does not accept -/

open Reader in
/-- A field is its tag and a value of the grammar. -/
theorem isField_iff {limit depth : Nat} {tag : Tag} {bytes : Bytes} :
    IsField limit depth tag bytes ↔ ∃ header value, tag.SpelledBy header ∧
      (Phrase.value tag).SpelledBy (limit - depth) value ∧ bytes = header ++ value := by
  constructor
  · rintro ⟨r, t, u, rfl, htag, -, hskip, hbytes⟩
    obtain ⟨header, hheader, hr⟩ := nextTag_eq_some_iff.1 htag
    obtain ⟨value, hvalue, ht⟩ := skip_eq_ok_iff.1 hskip
    rw [hr.2.2] at hvalue
    exact ⟨header, value, hheader, hvalue,
      hbytes.consumed_eq.symm.trans (hr.append ht).consumed_eq⟩
  · rintro ⟨header, value, hheader, hvalue, rfl⟩
    obtain ⟨hr, -⟩ := consumes_whole (r := ⟨header ++ value, 0, depth⟩) rfl
    obtain ⟨t, hheader', ht⟩ := hr.split
    have hdepth : t.depth = depth := hheader'.2.2
    have htag := nextTag_eq_some_iff.2 ⟨header, hheader, hheader'⟩
    have hskip := skip_eq_ok_iff.2 ⟨value, by rwa [hdepth], ht⟩
    exact ⟨_, t, _, rfl, htag, hvalue.not_end, hskip, hr⟩

/-- The bytes are fields that a type does not accept, each of which can be skipped where so many
messages are open. -/
def Foreign (limit depth : Nat) (type : MessageType) (bytes : Bytes) : Prop :=
  ∃ fields : List RawField, fields.flatMap RawField.bytes = bytes ∧
    ∀ field ∈ fields, type.accepts field.tag = false ∧ IsField limit depth field.tag field.bytes

theorem foreign_nil (limit depth : Nat) (type : MessageType) : Foreign limit depth type [] :=
  ⟨[], rfl, List.forall_mem_nil _⟩

theorem Foreign.append {limit depth : Nat} {type : MessageType} {bytes more : Bytes}
    (h : Foreign limit depth type bytes) (h' : Foreign limit depth type more) :
    Foreign limit depth type (bytes ++ more) := by
  obtain ⟨fields, rfl, hfields⟩ := h
  obtain ⟨others, rfl, hothers⟩ := h'
  refine ⟨fields ++ others, List.flatMap_append, fun field hf => ?_⟩
  rcases List.mem_append.1 hf with hf | hf
  · exact hfields field hf
  · exact hothers field hf

/-- Foreign fields are foreign wherever they may nest as deep. -/
theorem Foreign.of_levels_le {limit limit' depth depth' : Nat} {type : MessageType} {bytes : Bytes}
    (h : Foreign limit depth type bytes) (hle : limit - depth ≤ limit' - depth') :
    Foreign limit' depth' type bytes := by
  obtain ⟨fields, hbytes, hfields⟩ := h
  refine ⟨fields, hbytes, fun field hf => ⟨(hfields field hf).1, ?_⟩⟩
  obtain ⟨header, value, hheader, hvalue, heq⟩ := isField_iff.1 (hfields field hf).2
  exact isField_iff.2 ⟨header, value, hheader, hvalue.mono hle, heq⟩

/-- What becomes unknown when messages are merged is foreign at its level. -/
theorem admits_foreign (limit : Nat) : Admits limit (Foreign limit) where
  nil := foreign_nil limit
  append := by
    intro d type unknown bytes tag h ha hf
    exact h.append ⟨[⟨tag, bytes⟩], List.append_nil bytes, List.forall_mem_singleton.2 ⟨ha, hf⟩⟩

namespace RawField

open Reader

variable {limit : Nat} {r t : Reader}

theorem run_of_isField {tag : Tag} {bytes : Bytes} (h : IsField limit r.depth tag bytes)
    (hr : r.Consumes bytes t) : Run limit r [⟨tag, bytes⟩] t := by
  obtain ⟨header, value, hheader, hvalue, rfl⟩ := isField_iff.1 h
  have hconsumed : r.consumed t = header ++ value := hr.consumed_eq
  obtain ⟨u, hu, ht⟩ := hr.split
  have htag := nextTag_eq_some_iff.2 ⟨header, hheader, hu⟩
  have hskip := skip_eq_ok_iff.2 ⟨value, by rwa [hu.2.2], ht⟩
  rw [← hconsumed]
  exact .cons htag hvalue.not_end hskip (.nil t)

theorem run_of_forall_isField {fields : List RawField}
    (h : ∀ field ∈ fields, IsField limit r.depth field.tag field.bytes)
    (hr : r.Consumes (fields.flatMap RawField.bytes) t) : Run limit r fields t := by
  induction fields generalizing r with
  | nil =>
    rw [hr.eq_of_nil]
    exact .nil r
  | cons field fields ih =>
    obtain ⟨hfield, hfields⟩ := List.forall_mem_cons.1 h
    rw [List.flatMap_cons] at hr
    obtain ⟨u, hu, ht⟩ := hr.split
    have hd : u.depth = r.depth := hu.2.2
    exact (run_of_isField hfield hu).append (ih (by rw [hd]; exact hfields) ht)

end RawField

/-- Foreign fields are kept as they are. -/
theorem Message.merges_foreign {options : DecodeOptions} (hdiscard : options.discardUnknown = false)
    {m : Message} {bytes : Bytes} {r t : Reader}
    (h : Foreign options.depthLimit r.depth m.type bytes) (hr : r.Consumes bytes t) :
    Merges options (m, r) (m.appendUnknown bytes, t) := by
  obtain ⟨fields, rfl, hfields⟩ := h
  have hrun := RawField.run_of_forall_isField (fun field hf => (hfields field hf).2) hr
  exact merges_of_run hdiscard hrun fun field hf => (hfields field hf).1

/-- In a decoded message, all unknown fields are foreign. -/
theorem Message.sound_of_decode {options : DecodeOptions} {type : MessageType} {bytes : Bytes}
    {m : Message} (h : decode options type bytes = .ok m) :
    m.type = type ∧ m.Sound (Foreign options.depthLimit) 0 := by
  obtain ⟨t, hmerges, he⟩ := merge_eq_ok.1 (merge_of_decode h)
  have hbody := mergeBody_of_merges hmerges none
  rw [mergeBody_of_rest_nil he] at hbody
  have hnew : (new type).Sound (Foreign options.depthLimit) 0 :=
    sound_new (foreign_nil options.depthLimit) 0 type
  exact sound_mergeBody (admits_foreign options.depthLimit) hnew hbody

end Protobuf
