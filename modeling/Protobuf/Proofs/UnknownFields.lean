import Protobuf.Message.Encoding
import Protobuf.Proofs.Spans

/-!
# Unknown fields

Decoding keeps the bytes of the fields that a type does not accept, each as it came and in order,
and discarding them leaves the known fields as they are (`Message.unknown_preserved`).
-/

namespace Protobuf

open Build Reader

/-! ## Messages without unknown fields -/

namespace Message

/-- The message with no unknown fields, at any level. -/
def withoutUnknown : Message → Message :=
  fold fun type slots _ => ⟨type, slots.map (Slot.mapMessages (·.2)), []⟩

end Message

section

variable {α β γ : Type}

theorem Slot.mapMessages_mapMessages (f : α → β) (g : β → γ) (s : Slot α) :
    (s.mapMessages f).mapMessages g = s.mapMessages (g ∘ f) := by
  cases s with
  | plain _ | packed _ => rfl
  | optional v => cases v <;> simp [mapMessages, Value.map_map]
  | repeated vs => simp [mapMessages, Function.comp_def, Value.map_map]
  | map es => simp [mapMessages, Function.comp_def, Value.map_map]
  | oneof c => cases c <;> simp [mapMessages, Value.map_map]
  | payload p => cases p <;> rfl

theorem Member.initial_mapMessages (f : α → β) (member : Member) :
    (member.initial : Slot α).mapMessages f = member.initial := by
  cases member <;> rfl

theorem insertEntry_map (f : α → β) (key : Scalar) (value : α) (entries : List (Scalar × α)) :
    (insertEntry key value entries).map (fun e => (e.1, f e.2)) =
      insertEntry key (f value) (entries.map fun e => (e.1, f e.2)) := by
  induction entries with
  | nil => rfl
  | cons e rest ih =>
    simp only [insertEntry, List.map_cons]
    split
    · rfl
    · split
      · rw [List.map_cons, ih]
      · rfl

theorem FieldKind.Like.eq_map {f : Message → Message} {kind : FieldKind} {v v' : Value Message}
    (h : kind.Like (fun _ m m' => m' = f m) v v') : v' = v.map f := by
  cases kind with
  | scalar kind =>
    obtain ⟨s, rfl, rfl, -⟩ := h
    rfl
  | message type | group type =>
    obtain ⟨m, _, rfl, rfl, rfl⟩ := h
    rfl

end

namespace Message

theorem withoutUnknown_eq (m : Message) :
    m.withoutUnknown = ⟨m.type, m.slots.map (Slot.mapMessages withoutUnknown), []⟩ := by
  rw [withoutUnknown, fold_eq, List.map_map]
  congr 1
  refine List.map_congr_left fun s _ => ?_
  exact Slot.mapMessages_mapMessages _ _ s

theorem withoutUnknown_new (type : MessageType) : (new type).withoutUnknown = new type := by
  rw [withoutUnknown_eq]
  simp only [new, List.map_map]
  congr 1
  refine List.map_congr_left fun member _ => ?_
  exact member.initial_mapMessages _

end Message

namespace Slot

open Message

theorem optionalMessage_mapMessages (type : MessageType) (s : Slot Message) :
    (s.mapMessages withoutUnknown).optionalMessage type =
      (s.optionalMessage type).withoutUnknown := by
  have hnew := withoutUnknown_new type
  cases s with
  | optional v => rcases v with _ | (_ | _) <;> first | rfl | exact hnew.symm
  | _ => exact hnew.symm

theorem chosenMessage_mapMessages (number : Nat) (type : MessageType) (s : Slot Message) :
    (s.mapMessages withoutUnknown).chosenMessage number type =
      (s.chosenMessage number type).withoutUnknown := by
  have hnew := withoutUnknown_new type
  cases s with
  | oneof c =>
    rcases c with _ | ⟨n, _ | m⟩
    · exact hnew.symm
    · exact hnew.symm
    · simp only [mapMessages, Option.map_some, Value.map, chosenMessage]
      split
      · rfl
      · exact hnew.symm
  | _ => exact hnew.symm

theorem packedScalars_mapMessages (f : Message → Message) (s : Slot Message) :
    (s.mapMessages f).packedScalars = s.packedScalars := by
  cases s <;> rfl

theorem setPackedScalars_mapMessages (f : Message → Message) (s : Slot Message)
    (ss : List Scalar) :
    (s.mapMessages f).setPackedScalars ss = (s.setPackedScalars ss).mapMessages f := by
  cases s <;> rfl

theorem repeatedValues_mapMessages (f : Message → Message) (s : Slot Message) :
    (s.mapMessages f).repeatedValues = s.repeatedValues.map (Value.map f) := by
  cases s <;> rfl

theorem setRepeatedValues_mapMessages (f : Message → Message) (s : Slot Message)
    (vs : List (Value Message)) :
    (s.mapMessages f).setRepeatedValues (vs.map (Value.map f)) =
      (s.setRepeatedValues vs).mapMessages f := by
  cases s <;> rfl

theorem mapEntries_mapMessages (f : Message → Message) (s : Slot Message) :
    (s.mapMessages f).mapEntries = s.mapEntries.map fun e => (e.1, e.2.map f) := by
  cases s <;> rfl

end Slot

/-- Where unknown fields are discarded, merging gives the messages that it gives elsewhere, without
their unknown fields. -/
def Likeness.stripped (options : DecodeOptions) {options' : DecodeOptions}
    (h : options'.discardUnknown = true) :
    Likeness options options' where
  message _ _ m m' := m' = m.withoutUnknown
  slot _ _ s s' := s' = s.mapMessages Message.withoutUnknown
  scalars _ ss ss' := ss = ss'
  values _ _ vs vs' := vs' = vs.map (Value.map Message.withoutUnknown)
  type_eq := by
    rintro d type m _ rfl
    rw [Message.withoutUnknown_eq]
  new _ type := (Message.withoutUnknown_new type).symm
  slot_of := by
    rintro d type m _ test i member rfl -
    rw [Message.withoutUnknown_eq, List.getD_eq_getElem?_getD, List.getElem?_map,
      List.getD_eq_getElem?_getD]
    cases m.slots[i]? with
    | none => exact (member.initial_mapMessages _).symm
    | some s => rfl
  of_slot := by
    rintro d type m _ test i member s _ rfl - rfl
    rw [Message.withoutUnknown_eq, Message.withoutUnknown_eq]
    simp only [List.map_set]
  note := by
    rintro d type m _ tag bytes rfl - -
    simp only [DecodeOptions.note, h, if_true]
    split
    · rfl
    · rw [Message.withoutUnknown_eq, Message.withoutUnknown_eq]
      rfl
  plain _ := by rw [Slot.mapMessages]
  optional hv := by
    rw [hv.eq_map]
    rfl
  optionalMessage hs _ := by rw [hs, Slot.optionalMessage_mapMessages]
  unchosen _ _ := by rw [Slot.mapMessages, Option.map_none]
  oneof _ hv := by
    rw [hv.eq_map]
    rfl
  chosenMessage hs _ _ := by rw [hs, Slot.chosenMessage_mapMessages]
  packedScalars hs := by rw [hs, Slot.packedScalars_mapMessages]
  setPackedScalars hs hss := by rw [hs, ← hss, Slot.setPackedScalars_mapMessages]
  push_scalar hss _ := by rw [hss]
  repeatedValues hs := by rw [hs, Slot.repeatedValues_mapMessages]
  setRepeatedValues hs hvs := by rw [hs, hvs, Slot.setRepeatedValues_mapMessages]
  push_value hvs hv := by
    rw [hvs, hv.eq_map, List.map_append]
    rfl
  insert hs _ hv := by
    rw [hs, hv.eq_map, Slot.mapEntries_mapMessages, ← insertEntry_map]
    rfl
  payload _ _ _ _ := by rw [Slot.mapMessages, Payload.map]

/-! ## Unknown fields in decoding -/

namespace Message

open Reader Comparison

variable {options : DecodeOptions}

theorem appendUnknown_nil (m : Message) : m.appendUnknown [] = m := by
  obtain ⟨type, slots, unknown⟩ := m
  simp only [appendUnknown, List.append_nil]

theorem appendUnknown_appendUnknown (a b : Bytes) (m : Message) :
    (m.appendUnknown a).appendUnknown b = m.appendUnknown (a ++ b) := by
  simp only [appendUnknown, List.append_assoc]

/-- Fields that the type does not accept are merged by keeping their bytes. -/
theorem merges_of_run {m : Message} {r t : Reader} {fields : List RawField}
    (hdiscard : options.discardUnknown = false)
    (h : RawField.Run options.depthLimit r fields t)
    (hforeign : ∀ field ∈ fields, m.type.accepts field.tag = false) :
    Merges options (m, r) (m.appendUnknown (fields.flatMap RawField.bytes), t) := by
  induction h generalizing m with
  | nil r =>
    rw [List.flatMap_nil, appendUnknown_nil]
    exact .nil _
  | @cons r u v w tag fields htag hw hskip _ ih =>
    obtain ⟨hfirst, hforeign⟩ := List.forall_mem_cons.1 hforeign
    have hone : mergeOne options (mergeBody options) r tag (m, u) =
        .ok () (m.appendUnknown (r.consumed v), v) := by
      rw [mergeOne, run_bind_of_ok (run_current m u), hfirst, if_neg Bool.false_ne_true,
        run_keepUnknown, hskip]
      simp only [DecodeOptions.note, hdiscard, if_neg Bool.false_ne_true]
    have hrest := ih (m := m.appendUnknown (r.consumed v)) hforeign
    rw [appendUnknown_appendUnknown] at hrest
    exact .cons htag hw hone hrest

theorem decode_partial {type : MessageType} {bytes : Bytes} {m : Message}
    (hpartial : options.allowPartial = true) :
    decode options type bytes = .ok m ↔ merge options bytes (.new type) = .ok () m := by
  unfold decode
  cases merge options bytes (.new type) with
  | ok a m1 =>
    simp only [checked, hpartial, Bool.true_or, if_true]
    constructor
    · rintro ⟨⟩
      rfl
    · rintro ⟨⟩
      rfl
  | error e m1 =>
    constructor
    · rintro ⟨⟩
    · rintro ⟨⟩

theorem merge_of_decode {type : MessageType} {bytes : Bytes} {m : Message}
    (h : decode options type bytes = .ok m) :
    merge options bytes (.new type) = .ok () m := by
  unfold decode at h
  cases hmerge : merge options bytes (.new type) with
  | ok a m1 =>
    rw [hmerge] at h
    simp only [checked] at h
    split at h
    · cases h
      rfl
    · cases h
  | error e m1 =>
    rw [hmerge] at h
    cases h

/-- An input is merged exactly by merging fields until nothing is left. -/
theorem merge_eq_ok {m m' : Message} {bytes : Bytes} :
    merge options bytes m = .ok () m' ↔
      ∃ t, Merges options (m, .new bytes) (m', t) ∧ t.rest = [] := by
  unfold merge
  constructor
  · intro h
    rcases hbody : mergeBody options none (m, .new bytes) with ⟨_, m1, t⟩ | ⟨e, m1, t⟩
    · rw [hbody] at h
      cases h
      obtain ⟨u, hmerges, he, rfl⟩ := mergeBody_eq_ok.1 hbody
      exact ⟨t, hmerges, he⟩
    · rw [hbody] at h
      cases h
  · rintro ⟨t, hmerges, he⟩
    rw [mergeBody_of_merges hmerges, mergeBody_of_rest_nil he]

/-- Where unknown fields are discarded, an input gives the same message without them. -/
theorem merge_discard {options' : DecodeOptions} {m m' : Message} {bytes : Bytes}
    (h : merge options bytes m = .ok () m') (hlimit : options'.depthLimit = options.depthLimit)
    (hdiscard : options'.discardUnknown = true) :
    merge options' bytes m.withoutUnknown = .ok () m'.withoutUnknown := by
  obtain ⟨t, hmerges, he⟩ := merge_eq_ok.1 h
  have hbody : mergeBody options none (m, .new bytes) = .ok () (m', t) := by
    rw [mergeBody_of_merges hmerges, mergeBody_of_rest_nil he]
  have ho := builds_mergeBody (c := shifted options.depthLimit 0)
    (n := (Reader.new bytes).remaining)
    (d := 0) (Likeness.stripped options hdiscard) rfl hlimit.symm none (fun _ => rfl)
    m.type m m.withoutUnknown (.new bytes) _ rfl ⟨rfl, Nat.le_refl _, rfl⟩
  rw [hbody, reader_shifted, Nat.zero_add] at ho
  obtain ⟨_, ⟨m1, t1⟩, hbody', -, hm, -⟩ := ho
  have hm : m1 = m'.withoutUnknown := hm
  rw [merge, hbody', hm]

theorem checked_empty (allowPartial : Bool) (unknown : Bytes) :
    checked allowPartial ⟨.empty, [], unknown⟩ = .ok ⟨.empty, [], unknown⟩ := by
  have hinit : isInitialized ⟨.empty, [], unknown⟩ = true := by
    rw [isInitialized_eq]
    rfl
  rw [checked, hinit, Bool.or_true, if_pos rfl]

/-- A type without fields keeps any fields as they came. -/
theorem decode_of_run {bytes : Bytes} {t : Reader} {fields : List RawField}
    (hdiscard : options.discardUnknown = false)
    (h : RawField.Run options.depthLimit (.new bytes) fields t) (ht : t.rest = []) :
    decode options .empty bytes = .ok ⟨.empty, [], bytes⟩ := by
  have hbytes : fields.flatMap RawField.bytes = bytes := h.consumes.eq_rest ht
  have hmerges := merges_of_run (m := .new .empty) hdiscard h fun _ _ => rfl
  rw [hbytes] at hmerges
  rw [decode, merge_eq_ok.2 ⟨t, hmerges, ht⟩]
  exact checked_empty options.allowPartial bytes

/-- A type without fields gives any fields back as they came. -/
theorem serialize_of_run {bytes : Bytes} {t : Reader} {fields : List RawField}
    (hdiscard : options.discardUnknown = false)
    (h : RawField.Run options.depthLimit (.new bytes) fields t) (ht : t.rest = []) :
    ∃ e, decode options .empty bytes = .ok e ∧ e.serialize true = .ok bytes := by
  refine ⟨_, decode_of_run hdiscard h ht, ?_⟩
  rw [serialize, checked, Bool.true_or, if_pos rfl]
  show Except.ok (toBytes _) = _
  rw [toBytes_eq, encode_eq]
  rfl

/-- What a type does not accept among the fields of an input is kept, byte for byte and in order;
a type without fields keeps the whole input, and discarding the unknown fields changes nothing
else. -/
theorem unknown_preserved {limit : Nat} {type : MessageType} {bytes : Bytes} {m : Message}
    (h : decode ⟨limit, false, true⟩ type bytes = .ok m) :
    (∃ e, decode ⟨limit, false, true⟩ .empty bytes = .ok e ∧ e.serialize true = .ok bytes) ∧
    (∃ fields, RawField.split limit bytes = (fields, []) ∧
      fields.flatMap RawField.bytes = bytes ∧
      m.unknown = (fields.filter fun field => !type.accepts field.tag).flatMap RawField.bytes) ∧
    (decode ⟨limit, true, true⟩ type bytes = .ok m.withoutUnknown ∧
      m.withoutUnknown.unknown = []) := by
  have hmerge := (decode_partial rfl).1 h
  obtain ⟨t, hmerges, ht⟩ := merge_eq_ok.1 hmerge
  obtain ⟨fields, hrun, -, hunknown⟩ := exists_run_of_merges hmerges
  have hrun : RawField.Run limit (.new bytes) fields t := hrun
  refine ⟨serialize_of_run rfl hrun ht, ⟨fields, ?_, ?_, ?_⟩, ?_, ?_⟩
  · exact RawField.split_of_run hrun ht
  · exact hrun.consumes.eq_rest ht
  · exact hunknown rfl
  · have hdiscard : merge ⟨limit, true, true⟩ bytes (new type).withoutUnknown =
        .ok () m.withoutUnknown := merge_discard hmerge rfl rfl
    rw [withoutUnknown_new] at hdiscard
    exact (decode_partial rfl).2 hdiscard
  · rw [withoutUnknown_eq]

/-- Among the fields of an input are a padded number that is not declared, a string in the place of
a number and a group. -/
theorem unknown_preserved_inner :
    ∃ m, decode ⟨100, false, true⟩ .inner [24, 129, 128, 0, 8, 5, 10, 1, 7, 35, 8, 1, 36] = .ok m ∧
      m.unknown = [24, 129, 128, 0, 10, 1, 7, 35, 8, 1, 36] ∧
      (∃ e, decode ⟨100, false, true⟩ .empty [24, 129, 128, 0, 8, 5, 10, 1, 7, 35, 8, 1, 36] =
          .ok e ∧
        e.serialize true = .ok [24, 129, 128, 0, 8, 5, 10, 1, 7, 35, 8, 1, 36]) ∧
      decode ⟨100, true, true⟩ .inner [24, 129, 128, 0, 8, 5, 10, 1, 7, 35, 8, 1, 36] =
        .ok m.withoutUnknown := by
  refine ⟨_, rfl, rfl, ?_⟩
  have h := unknown_preserved (show decode ⟨100, false, true⟩ .inner
    [24, 129, 128, 0, 8, 5, 10, 1, 7, 35, 8, 1, 36] = .ok _ from rfl)
  exact ⟨h.1, h.2.2.1⟩

end Message

end Protobuf
