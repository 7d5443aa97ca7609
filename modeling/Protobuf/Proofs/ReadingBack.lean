import Protobuf.Proofs.Concatenation
import Protobuf.Proofs.ForeignFields
import Protobuf.Proofs.ScalarRoundTrip

/-!
# Reading back what was written for a member

What is written for a member of a message is merged into the slot that it was written for, if every
message inside is read back from its own bytes (`Message.merges_visits`). Only the payload of an
`Any` comes back in another form, namely in bytes.
-/

namespace Protobuf

open Build Reader

variable {M α : Type}

/-! ## Payloads in bytes -/

theorem Slot.serialized_mapMessages (f : M → α) (bytes : α → Bytes) (slot : Slot M) :
    (slot.mapMessages f).serialized bytes = (slot.serialized (bytes ∘ f)).mapMessages f := by
  cases slot with
  | payload p => cases p <;> rfl
  | _ => rfl

/-- The message with the payload of every `Any` in bytes. -/
def Message.inBytes : Message → Message :=
  fold fun type slots unknown =>
    ⟨type, slots.map fun slot => (slot.serialized (·.1.encode)).mapMessages (·.2), unknown⟩

/-- The slot with the payload of every `Any` in bytes. -/
def Slot.inBytes (slot : Slot Message) : Slot Message :=
  (slot.serialized Message.encode).mapMessages Message.inBytes

theorem Message.inBytes_eq (m : Message) :
    m.inBytes = ⟨m.type, m.slots.map Slot.inBytes, m.unknown⟩ := by
  rw [inBytes, fold_eq, List.map_map]
  congr 1
  refine List.map_congr_left fun slot _ => ?_
  show ((slot.mapMessages _).serialized _).mapMessages _ = _
  rw [Slot.serialized_mapMessages, Slot.mapMessages_mapMessages]
  rfl

/-- The form of the payloads makes no difference to the encoding. -/
theorem Message.encode_inBytes (m : Message) : m.inBytes.encode = m.encode := by
  induction m using induction with
  | step m ih =>
    have hslots : m.slots.map Slot.inBytes =
        (m.slots.map (Slot.serialized encode)).map (Slot.mapMessages inBytes) := by
      rw [List.map_map]
      rfl
    have hvisits : m.inBytes.visits = m.visits.map (Visit.map inBytes) := by
      rw [inBytes_eq, visits, hslots, MessageType.visits_mapMessages,
        MessageType.visits_serialized]
      rfl
    have hbytes : m.visits.map (Visit.encode (encode ∘ inBytes)) =
        m.visits.map (Visit.encode encode) :=
      List.map_congr_left fun v hv =>
        Visit.encode_congr fun c hc => ih c (children_of_mem_visits hv hc)
    rw [encode_eq, encode_eq, hvisits, List.flatMap_map, inBytes_eq]
    simp only [Visit.encode_map]
    rw [List.flatMap_def, hbytes, ← List.flatMap_def]

/-! ## The bytes behind a tag -/

/-- The bytes of a field behind its first tag. -/
def FieldValue.content (bytes : M → Bytes) (number : Nat) : FieldValue M → Bytes
  | scalar s => s.encode
  | message m => Varint.encode (bytes m).length ++ bytes m
  | group m => bytes m ++ Tag.encode number .endGroup

theorem FieldValue.encode_eq (bytes : M → Bytes) (number : Nat) (v : FieldValue M) :
    v.encode bytes number = Tag.encode number v.wireType ++ v.content bytes number := by
  cases v <;> rfl

theorem FieldKind.Fits.wireType_ofValue {kind : FieldKind} {v : Value Message} (h : kind.Fits v) :
    (FieldValue.ofValue kind v).wireType = kind.wireType := by
  cases kind <;> cases v <;> first | exact h.elim | rfl | skip
  rw [← show _ = _ from h]
  rfl

theorem Varint.length_encode_pos (n : Nat) : 0 < (encode n).length := by
  rw [length_encode, size]
  omega

theorem Scalar.length_encode_pos {s : Scalar} (h : s.wireType ≠ .lengthDelimited) :
    0 < s.encode.length := by
  rw [← s.wireType_toWire] at h
  unfold encode
  cases hw : s.toWire with
  | varint v => exact Varint.length_encode_pos _
  | fixed64 v => exact Nat.lt_of_lt_of_eq (by decide) (Bytes.length_ofNat 8 _).symm
  | fixed32 v => exact Nat.lt_of_lt_of_eq (by decide) (Bytes.length_ofNat 4 _).symm
  | lengthDelimited b =>
    rw [hw] at h
    exact absurd rfl h

namespace Reader

theorem takes_tag (d : Nat) {number : Nat} (wireType : WireType) (valid : ValidFieldNumber number) :
    Takes d nextTag (Tag.encode number wireType) (some ⟨number, wireType, valid⟩) :=
  takes_nextTag valid (Varint.spells_encode (Tag.rawOf_lt wireType valid))

end Reader

/-! ## Values -/

/-- Where so many messages are open, the message is read back from its bytes, if a length can count
them. -/
def Message.ReadsBack (options : DecodeOptions) (d : Nat) (m : Message) : Prop :=
  d ≤ options.depthLimit ∧ (m.encode.length < 2 ^ 64 →
    mergeBody options none (.new m.type, ⟨m.encode, 0, d⟩) =
      .ok () (m.inBytes, ⟨[], m.encode.length, d⟩))

section

variable {options : DecodeOptions} {d : Nat}

namespace Reader

theorem takes_message {m : Message} (h : m.ReadsBack options (d + 1)) {tag : Tag}
    (ht : tag.wireType = .lengthDelimited) (hlen : m.encode.length < 2 ^ 64) :
    Takes d (alone (.new m.type) (message options.depthLimit (Message.mergeBody options) tag))
      (Varint.encode m.encode.length ++ m.encode) m.inBytes := by
  intro r t hd hr
  obtain ⟨hlimit, hbody⟩ := h
  have hbody := hbody hlen
  rw [← hd] at hlimit hbody
  exact alone_eq_ok.2
    (Message.message_of_mergeBody ht (Varint.spells_encode hlen) hbody hlimit hr)

theorem takes_group {m : Message} (h : m.ReadsBack options (d + 1)) {tag : Tag}
    (ht : tag.wireType = .startGroup) (hlen : m.encode.length < 2 ^ 64) :
    Takes d (alone (.new m.type) (group options.depthLimit (Message.mergeBody options) tag))
      (m.encode ++ Tag.encode tag.number .endGroup) m.inBytes := by
  intro r t hd hr
  obtain ⟨hlimit, hbody⟩ := h
  have hbody := hbody hlen
  rw [← hd] at hlimit hbody
  have hstop := Varint.spells_encode (Tag.rawOf_lt .endGroup tag.valid)
  exact alone_eq_ok.2 (Message.group_of_mergeBody ht hstop hbody hlimit hr)

/-- A value is read back if its message is. -/
theorem takes_value {kind : FieldKind} {v : Value Message} (hv : kind.Fits v)
    (h : ∀ m ∈ v.children, m.ReadsBack options (d + 1)) {tag : Tag}
    (ht : tag.wireType = kind.wireType)
    (hlen : ((FieldValue.ofValue kind v).content Message.encode tag.number).length < 2 ^ 64) :
    Takes d (value options.depthLimit (Message.mergeBody options) kind tag)
      ((FieldValue.ofValue kind v).content Message.encode tag.number) (v.map Message.inBytes) := by
  cases kind with
  | scalar kind =>
    cases v with
    | scalar s => exact (takes_scalar hv ht hlen).map _
    | message m => exact hv.elim
  | message type =>
    cases v with
    | scalar s => exact hv.elim
    | message m =>
      have hlen : (Varint.encode m.encode.length ++ m.encode).length < 2 ^ 64 := hlen
      rw [List.length_append] at hlen
      have hm := takes_message (h m (List.mem_singleton_self m)) ht (by omega)
      rw [show m.type = type from hv] at hm
      exact hm.map _
  | group type =>
    cases v with
    | scalar s => exact hv.elim
    | message m =>
      have hlen : (m.encode ++ Tag.encode tag.number .endGroup).length < 2 ^ 64 := hlen
      rw [List.length_append] at hlen
      have hm := takes_group (h m (List.mem_singleton_self m)) ht (by omega)
      rw [show m.type = type from hv] at hm
      exact hm.map _

/-- Elements are read one after the other, from bytes that may be of any length. -/
theorem exists_elements {read : Tag → Reading Reader α} {tag : Tag} {items : List (α × Bytes)}
    (hitems : ∀ x ∈ items, Takes d (read tag) x.2 x.1 ∧ 0 < x.2.length) (as : List α) {r t : Reader}
    (hd : r.depth = d) (hr : r.Consumes (items.flatMap Prod.snd) t) {rounds : Nat}
    (hrounds : r.remaining < rounds) :
    ∃ rounds', t.remaining < rounds' ∧
      elements read tag rounds (as, r) = elements read tag rounds' (as ++ items.map Prod.fst, t) := by
  induction items generalizing as r rounds with
  | nil =>
    rw [← hr.eq_of_nil] at hrounds ⊢
    exact ⟨rounds, hrounds, by rw [List.map_nil, List.append_nil]⟩
  | cons x items ih =>
    obtain ⟨⟨hx, hpos⟩, hitems⟩ := List.forall_mem_cons.1 hitems
    obtain ⟨rounds, rfl⟩ := Nat.exists_eq_succ_of_ne_zero (n := rounds) (by omega)
    rw [List.flatMap_cons] at hr
    obtain ⟨u, hu, ht⟩ := hr.split
    have hlt := hu.length_add
    have hne : r.rest ≠ [] := by
      intro he
      have hzero : r.remaining = 0 := by rw [remaining, he, List.length_nil]
      omega
    obtain ⟨rounds', hrounds', hrest⟩ :=
      ih hitems (as ++ [x.1]) (hu.2.2.trans hd) ht (show u.remaining < rounds by omega)
    refine ⟨rounds', hrounds', ?_⟩
    rw [elements_succ, if_neg hne, run_bind_of_ok (read_eq_ok.2 ⟨hx r u hd hu, rfl⟩),
      run_bind_of_ok (run_update (· ++ [x.1]) as u), hrest, List.map_cons, List.append_assoc,
      List.singleton_append]

/-- Elements that fill the region are all that is read. -/
theorem elements_of_takes {read : Tag → Reading Reader α} {tag : Tag} {items : List (α × Bytes)}
    (hitems : ∀ x ∈ items, Takes d (read tag) x.2 x.1 ∧ 0 < x.2.length) (as : List α) {r t : Reader}
    (hd : r.depth = d) (hr : r.Consumes (items.flatMap Prod.snd) t) (hrest : t.rest = [])
    {rounds : Nat} (hrounds : r.remaining < rounds) :
    elements read tag rounds (as, r) = .ok () (as ++ items.map Prod.fst, t) := by
  obtain ⟨rounds', hrounds', helements⟩ := exists_elements hitems as hd hr hrounds
  obtain ⟨rounds', rfl⟩ := Nat.exists_eq_succ_of_ne_zero (n := rounds') (by omega)
  rw [helements, elements_succ, if_pos hrest]

/-- Elements are read from one run. -/
theorem repeated_of_takes {element : WireType} {read : Tag → Reading Reader α} {tag : Tag}
    (ht : tag.wireType = .lengthDelimited) (hw : element ≠ .lengthDelimited)
    {items : List (α × Bytes)} (hitems : ∀ x ∈ items,
      Takes d (read (tag.withWireType element)) x.2 x.1 ∧ 0 < x.2.length) (as : List α)
    {header : Bytes} (hlen : Varint.Spells (items.flatMap Prod.snd).length header) {r t : Reader}
    (hd : r.depth = d) (hr : r.Consumes (header ++ items.flatMap Prod.snd) t) :
    repeated element read tag (as, r) = .ok () (as ++ items.map Prod.fst, t) := by
  rw [repeated, if_pos ⟨ht, hw⟩]
  refine within_of_spells hlen hr ?_
  intro u hu hrest
  rw [run_bind_of_ok (run_source as u)]
  obtain ⟨hwhole, hend⟩ := consumes_whole hrest
  exact elements_of_takes hitems as (hu.trans hd) hwhole hend (Nat.lt_succ_self _)

/-- Scalars are read back from one run. -/
theorem repeated_of_scalars {kind : ScalarKind} {tag : Tag} (ht : tag.wireType = .lengthDelimited)
    (hw : kind.wireType ≠ .lengthDelimited) {ss : List Scalar} (hss : ∀ s ∈ ss, s.kind = kind)
    (hlen : (ss.flatMap Scalar.encode).length < 2 ^ 64) {as : List Scalar} {r t : Reader}
    (hr : r.Consumes
      (Varint.encode (ss.flatMap Scalar.encode).length ++ ss.flatMap Scalar.encode) t) :
    repeated kind.wireType (scalar kind) tag (as, r) = .ok () (as ++ ss, t) := by
  let items := ss.map fun s => (s, s.encode)
  have hbytes : items.flatMap Prod.snd = ss.flatMap Scalar.encode := List.flatMap_map ..
  have hvalues : items.map Prod.fst = ss := by
    rw [List.map_map]
    exact List.map_id ss
  rw [← hbytes] at hr
  have hitems : ∀ x ∈ items,
      Takes r.depth (scalar kind (tag.withWireType kind.wireType)) x.2 x.1 ∧ 0 < x.2.length := by
    intro x hx
    obtain ⟨s, hs, rfl⟩ := List.mem_map.1 hx
    have hmem : s.encode ∈ ss.map Scalar.encode := List.mem_map_of_mem hs
    have hle := (List.sublist_flatten_of_mem hmem).length_le
    rw [← List.flatMap_def] at hle
    refine ⟨takes_scalar (hss s hs) rfl (by omega), Scalar.length_encode_pos ?_⟩
    rw [Scalar.wireType, hss s hs]
    exact hw
  rw [repeated_of_takes ht hw hitems as (hbytes ▸ Varint.spells_encode hlen) rfl hr, hvalues]

section

variable {κ ν : Type} {readKey : Tag → Reading Reader κ} {readValue : Tag → Reading Reader ν}
  {keyType valueType : WireType} {limit : Nat} {tag : Tag} {r t : Reader}

theorem entryField_of_key (hn : tag.number = 1) (hw : tag.wireType = keyType) {key : κ}
    (h : readKey tag r = .ok key t) (entry : κ × ν) :
    entryField limit readKey readValue keyType valueType tag (entry, r) =
      .ok () ((key, entry.2), t) := by
  rw [entryField, if_pos ⟨hn, hw⟩]
  exact run_bind_of_ok (read_eq_ok.2 ⟨h, rfl⟩)

theorem entryField_of_value (hn : tag.number = 2) (hw : tag.wireType = valueType) {value : ν}
    (h : readValue tag r = .ok value t) (entry : κ × ν) :
    entryField limit readKey readValue keyType valueType tag (entry, r) =
      .ok () ((entry.1, value), t) := by
  rw [entryField, if_neg fun h => by omega, if_pos ⟨hn, hw⟩]
  exact run_bind_of_ok (read_eq_ok.2 ⟨h, rfl⟩)

end

/-- A map entry is read back if its key and its value are. -/
theorem takes_mapEntry {κ ν : Type} {readKey : Tag → Reading Reader κ}
    {readValue : Tag → Reading Reader ν} {keyType valueType : WireType}
    (hk : Expects readKey (·.wireType = keyType)) (hv : Expects readValue (·.wireType = valueType))
    {zero : κ × ν} {key : κ} {value : ν} {keyBytes valueBytes : Bytes}
    (hkey : ∀ tag : Tag, tag.number = 1 → tag.wireType = keyType →
      Takes (d + 1) (readKey tag) keyBytes key)
    (hvalue : ∀ tag : Tag, tag.number = 2 → tag.wireType = valueType →
      Takes (d + 1) (readValue tag) valueBytes value)
    {limit : Nat} (hd : d + 1 ≤ limit) {tag : Tag} (ht : tag.wireType = .lengthDelimited)
    {entry : Bytes} (he : entry =
      (Tag.encode 1 keyType ++ keyBytes) ++ (Tag.encode 2 valueType ++ valueBytes))
    (hlen : entry.length < 2 ^ 64) :
    Takes d (mapEntry limit zero readKey readValue tag) (Varint.encode entry.length ++ entry)
      (key, value) := by
  intro r t hr hcons
  refine mapEntry_eq_ok.2 ⟨ht, by omega, { t with depth := t.depth + 1 }, ?_, rfl⟩
  refine within_of_spells (Varint.spells_encode hlen) hcons.deeper ?_
  intro u hu hrest
  rw [entryBody, run_bind_of_ok (run_source zero u)]
  obtain ⟨hall, hend⟩ := consumes_whole hrest
  generalize u.advance entry.length = w at hall hend ⊢
  rw [he] at hall
  obtain ⟨x, hx, hw⟩ := hall.split
  obtain ⟨u', hu', hx⟩ := hx.split
  obtain ⟨x', hx', hw⟩ := hw.split
  have one : ValidFieldNumber 1 := by decide
  have two : ValidFieldNumber 2 := by decide
  have hud : u.depth = d + 1 := by rw [hu, hr]
  have htag1 := takes_tag (d + 1) keyType one u u' hud hu'
  have hread1 := hkey ⟨1, keyType, one⟩ rfl rfl u' x (hu'.2.2.trans hud) hx
  have hxd : x.depth = d + 1 := by rw [hx.2.2, hu'.2.2, hud]
  have htag2 := takes_tag (d + 1) valueType two x x' hxd hx'
  have hread2 := hvalue ⟨2, valueType, two⟩ rfl rfl x' w (hx'.2.2.trans hxd) hw
  have hlt1 := remaining_of_nextTag htag1
  have hlt2 := remaining_of_nextTag htag2
  have hle1 := hx.length_add
  obtain ⟨rounds, hrounds⟩ : ∃ rounds, u.remaining + 1 = rounds + 3 := ⟨u.remaining - 2, by omega⟩
  have hend' : nextTag w = .ok none w := nextTag_eq_none.2 ⟨hend, rfl⟩
  rw [hrounds, entryFields_succ hk hv, run_bind_of_ok (read_eq_ok.2 ⟨htag1, rfl⟩)]
  refine (run_bind_of_ok (entryField_of_key rfl rfl hread1 zero)).trans ?_
  rw [entryFields_succ hk hv, run_bind_of_ok (read_eq_ok.2 ⟨htag2, rfl⟩)]
  refine (run_bind_of_ok (entryField_of_value rfl rfl hread2 _)).trans ?_
  rw [entryFields_succ hk hv, run_bind_of_ok (read_eq_ok.2 ⟨hend', rfl⟩)]
  rfl

end Reader

end

/-! ## Values into slots -/

namespace Reader

section

variable {limit : Nat} {body : MergeBody} {kind : FieldKind} {tag : Tag} {v : Value Message}
  {r t : Reader} (ht : tag.wireType = kind.wireType) (h : value limit body kind tag r = .ok v t)

include ht h

theorem optionalField_of_value :
    optionalField limit body kind tag (.optional none, r) = .ok () (.optional (some v), t) := by
  cases kind with
  | scalar kind =>
    obtain ⟨s, hs, rfl⟩ := map_eq_ok.1 h
    exact run_bind_of_ok (read_eq_ok.2 ⟨hs, rfl⟩)
  | message type =>
    obtain ⟨m, hm, rfl⟩ := map_eq_ok.1 h
    have hm : message limit body tag (Slot.optionalMessage type (.optional none), r) =
        .ok () (m, t) := alone_eq_ok.1 hm
    refine (run_intoOptional ht).trans ?_
    rw [hm]
  | group type =>
    obtain ⟨m, hm, rfl⟩ := map_eq_ok.1 h
    have hm : group limit body tag (Slot.optionalMessage type (.optional none), r) =
        .ok () (m, t) := alone_eq_ok.1 hm
    refine (run_intoOptional ht).trans ?_
    rw [hm]

theorem oneofField_of_value :
    oneofField limit body kind tag (.oneof none, r) =
      .ok () (.oneof (some (tag.number, v)), t) := by
  cases kind with
  | scalar kind =>
    obtain ⟨s, hs, rfl⟩ := map_eq_ok.1 h
    exact run_bind_of_ok (read_eq_ok.2 ⟨hs, rfl⟩)
  | message type =>
    obtain ⟨m, hm, rfl⟩ := map_eq_ok.1 h
    have hm : message limit body tag (Slot.chosenMessage tag.number type (.oneof none), r) =
        .ok () (m, t) := alone_eq_ok.1 hm
    refine (run_intoChosen ht).trans ?_
    rw [hm]
  | group type =>
    obtain ⟨m, hm, rfl⟩ := map_eq_ok.1 h
    have hm : group limit body tag (Slot.chosenMessage tag.number type (.oneof none), r) =
        .ok () (m, t) := alone_eq_ok.1 hm
    refine (run_intoChosen ht).trans ?_
    rw [hm]

theorem repeatedField_of_value (vs : List (Value Message)) :
    repeatedField limit body kind tag (vs, r) = .ok () (vs ++ [v], t) := by
  have hread := read_eq_ok.2 ⟨h, (rfl : vs = vs)⟩
  cases kind with
  | scalar kind =>
    have hsingle : ¬ (tag.wireType = .lengthDelimited ∧ kind.wireType ≠ .lengthDelimited) := by
      rintro ⟨hw, hk⟩
      exact hk (ht.symm.trans hw)
    rw [repeatedField, repeated, if_neg hsingle]
    exact run_bind_of_ok hread
  | message type | group type => exact run_bind_of_ok hread

end

end Reader

/-! ## Members -/

namespace Message

/-- A member is found, at its place, by the number of each of its fields. -/
theorem member?_of_getElem? {type : MessageType} {i : Nat} {member : Member}
    (hi : type.members[i]? = some member) {label : Nat × String} (hl : label ∈ member.labels) :
    member? type (·.hasNumber label.1) = some (i, member) := by
  have hnodup : type.members.Nodup := by cases type <;> decide
  obtain ⟨j, hj⟩ := member?_of_mem_labels (List.mem_of_getElem? hi) hl
  have hjm := member?_eq_some hj
  obtain ⟨hjlt, hjm⟩ := List.getElem?_eq_some_iff.1 hjm
  obtain ⟨hilt, him⟩ := List.getElem?_eq_some_iff.1 hi
  have heq : j = i := (List.getElem_inj hnodup).1 (hjm.trans him.symm)
  rw [hj, heq]

section

variable {options : DecodeOptions} {m : Message} {i : Nat} {member : Member} {r t : Reader}

/-- A field that its member takes is merged into the member's slot. -/
theorem merges_field (hi : m.type.members[i]? = some member) {label : Nat × String}
    (hl : label ∈ member.labels) {wireType : WireType} (hw : wireType ≠ .endGroup)
    {content : Bytes} (hr : r.Consumes (Tag.encode label.1 wireType ++ content) t)
    {s : Slot Message}
    (htakes : ∀ tag : Tag, tag.number = label.1 → tag.wireType = wireType → member.takes tag = true)
    (h : ∀ (tag : Tag) (u : Reader), tag.number = label.1 → tag.wireType = wireType →
      u.depth = r.depth → u.Consumes content t →
      member.merge options.depthLimit (mergeBody options) tag (m.slots.getD i member.initial, u) =
        .ok () (s, t)) :
    Merges options (m, r) ({ m with slots := m.slots.set i s }, t) := by
  have valid : ValidFieldNumber label.1 :=
    MessageType.valid_of_mem_labels (List.mem_flatMap.2 ⟨member, List.mem_of_getElem? hi, hl⟩)
  have hmember := member?_of_getElem? hi hl
  obtain ⟨u, hu, ht⟩ := hr.split
  have htag := takes_tag r.depth wireType valid r u rfl hu
  have hone := run_mergeOne_of_takes options (mergeBody options) r
    (show member? m.type (·.hasNumber (⟨label.1, wireType, valid⟩ : Tag).number) = _ from hmember)
    (htakes ⟨label.1, wireType, valid⟩ rfl rfl) u
  rw [h ⟨label.1, wireType, valid⟩ u rfl rfl hu.2.2 ht] at hone
  exact .cons htag hw hone (.nil _)

theorem getD_of_getElem? {slots : List (Slot Message)} {s s' : Slot Message}
    (h : slots[i]? = some s) :
    slots.getD i s' = s := by
  rw [List.getD_eq_getElem?_getD, h, Option.getD_some]

theorem set_of_getElem? {s : Slot Message} (h : m.slots[i]? = some s) :
    { m with slots := m.slots.set i s } = m := by
  obtain ⟨type, slots, unknown⟩ := m
  obtain ⟨hlt, rfl⟩ := List.getElem?_eq_some_iff.1 h
  rw [List.set_getElem_self]

/-- A value is merged as its member merges what is read for it. -/
theorem merges_value (hi : m.type.members[i]? = some member) {field : Field}
    (hl : (field.number, field.name) ∈ member.labels) {v : Value Message}
    (hv : field.kind.Fits v) (hback : ∀ c ∈ v.children, c.ReadsBack options (r.depth + 1))
    (hr : r.Consumes ((FieldValue.ofValue field.kind v).encode encode field.number) t)
    (hlen : ((FieldValue.ofValue field.kind v).encode encode field.number).length < 2 ^ 64)
    {s : Slot Message}
    (htakes : ∀ tag : Tag, tag.number = field.number → tag.wireType = field.kind.wireType →
      member.takes tag = true)
    (h : ∀ (tag : Tag) (u : Reader), tag.number = field.number →
      tag.wireType = field.kind.wireType →
      value options.depthLimit (mergeBody options) field.kind tag u = .ok (v.map inBytes) t →
      member.merge options.depthLimit (mergeBody options) tag (m.slots.getD i member.initial, u) =
        .ok () (s, t)) :
    Merges options (m, r) ({ m with slots := m.slots.set i s }, t) := by
  rw [FieldValue.encode_eq, hv.wireType_ofValue] at hr hlen
  rw [List.length_append] at hlen
  refine merges_field hi hl field.kind.wireType_ne_endGroup hr htakes ?_
  intro tag u hn hw hd hu
  have hn : tag.number = field.number := hn
  rw [← hn] at hu hlen
  exact h tag u hn hw (takes_value hv hback hw (by omega) u t hd hu)

theorem takesRepeated_of_wireType {kind : FieldKind} {tag : Tag}
    (h : tag.wireType = kind.wireType) :
    takesRepeated kind tag = true := by
  cases kind with
  | scalar kind => exact decide_eq_true (Or.inl h)
  | message type | group type => exact decide_eq_true h

theorem merges_element {field : Field} (hi : m.type.members[i]? = some (.repeated field))
    {acc : List (Value Message)} (hs : m.slots[i]? = some (.repeated acc)) {v : Value Message}
    (hv : field.kind.Fits v) (hback : ∀ c ∈ v.children, c.ReadsBack options (r.depth + 1))
    (hr : r.Consumes ((FieldValue.ofValue field.kind v).encode encode field.number) t)
    (hlen : ((FieldValue.ofValue field.kind v).encode encode field.number).length < 2 ^ 64) :
    Merges options (m, r)
      ({ m with slots := m.slots.set i (.repeated (acc ++ [v.map inBytes])) }, t) := by
  refine merges_value hi (List.mem_singleton_self _) hv hback hr hlen
    (fun tag _ hw => takesRepeated_of_wireType hw) ?_
  intro tag u _ hw hread
  rw [getD_of_getElem? hs, Member.merge]
  exact zoom_eq_ok.2 ⟨_, repeatedField_of_value hw hread acc, rfl⟩

/-- The values of a repeated field are appended one by one. -/
theorem merges_repeated {field : Field} (hi : m.type.members[i]? = some (.repeated field))
    {acc vs : List (Value Message)} (hs : m.slots[i]? = some (.repeated acc))
    (hvs : ∀ v ∈ vs, field.kind.Fits v)
    (hback : ∀ v ∈ vs, ∀ c ∈ v.children, c.ReadsBack options (r.depth + 1))
    (hr : r.Consumes
      (vs.flatMap fun v => (FieldValue.ofValue field.kind v).encode encode field.number) t)
    (hlen : (vs.flatMap fun v =>
      (FieldValue.ofValue field.kind v).encode encode field.number).length < 2 ^ 64) :
    Merges options (m, r)
      ({ m with slots := m.slots.set i (.repeated (acc ++ vs.map (Value.map inBytes))) }, t) := by
  induction vs generalizing m r acc with
  | nil =>
    rw [List.map_nil, List.append_nil, set_of_getElem? hs, ← hr.eq_of_nil]
    exact .nil _
  | cons v vs ih =>
    obtain ⟨hv, hvs⟩ := List.forall_mem_cons.1 hvs
    obtain ⟨hvback, hback⟩ := List.forall_mem_cons.1 hback
    rw [List.flatMap_cons] at hr hlen
    rw [List.length_append] at hlen
    obtain ⟨u, hu, ht⟩ := hr.split
    have hfirst := merges_element hi hs hv hvback hu
      (Nat.lt_of_le_of_lt (Nat.le_add_right _ _) hlen)
    have hlt : i < m.slots.length := (List.getElem?_eq_some_iff.1 hs).1
    have hud : u.depth = r.depth := hu.2.2
    have hrest := ih (m := { m with slots := m.slots.set i (.repeated (acc ++ [v.map inBytes])) })
      hi (List.getElem?_set_self hlt) hvs (by rw [hud]; exact hback) ht (by omega)
    rw [List.set_set, List.append_assoc, List.singleton_append] at hrest
    exact hfirst.trans hrest

/-- An entry of a map is read back. -/
theorem takes_entry {d : Nat} (hd : d + 1 ≤ options.depthLimit) {number : Nat} {name : String}
    {key : ScalarKind} {kind : FieldKind} {k : Scalar} {v : Value Message} (hk : k.kind = key)
    (hv : kind.Fits v) (hback : ∀ c ∈ v.children, c.ReadsBack options (d + 2))
    (hlen : ((Visit.mapEntry number name k (.ofValue kind v)).encode encode).length < 2 ^ 64)
    {tag : Tag} (ht : tag.wireType = .lengthDelimited) :
    ∃ entry : Bytes, (Visit.mapEntry number name k (.ofValue kind v)).encode encode =
        Tag.encode number .lengthDelimited ++ (Varint.encode entry.length ++ entry) ∧
      Takes d (mapEntry options.depthLimit (key.zero, kind.zero) (scalar key)
        (value options.depthLimit (mergeBody options) kind) tag)
        (Varint.encode entry.length ++ entry) (k, v.map inBytes) := by
  have hentry :
      (FieldValue.scalar k).encode encode 1 ++ (FieldValue.ofValue kind v).encode encode 2 =
      (Tag.encode 1 key.wireType ++ k.encode) ++
        (Tag.encode 2 kind.wireType ++ (FieldValue.ofValue kind v).content encode 2) := by
    rw [FieldValue.encode_eq, FieldValue.encode_eq, hv.wireType_ofValue, FieldValue.wireType,
      Scalar.wireType, hk]
    rfl
  refine ⟨_, rfl, ?_⟩
  rw [Visit.encode, Visit.delimited, List.length_append, List.length_append] at hlen
  have hlen' := hlen
  rw [hentry] at hlen'
  simp only [List.length_append] at hlen'
  refine takes_mapEntry (expects_scalar key)
    (expects_value options.depthLimit (settled_mergeBody options) kind) ?_ ?_ hd ht hentry
    (by omega)
  · intro tag _ hw
    exact takes_scalar hk hw (by omega)
  · intro tag hn hw
    have hread := takes_value hv hback hw (by rw [hn]; omega)
    rwa [hn] at hread

/-- An entry of a map is inserted behind those with smaller keys. -/
theorem merges_entry {number : Nat} {name : String} {key : ScalarKind} {kind : FieldKind}
    (hi : m.type.members[i]? = some (.map number name key kind))
    {acc : List (Scalar × Value Message)} (hs : m.slots[i]? = some (.map acc)) {k : Scalar}
    {v : Value Message} (hk : k.kind = key) (hv : kind.Fits v)
    (hbehind : ∀ e ∈ acc, e.1.lt k = true) (hd : r.depth + 1 ≤ options.depthLimit)
    (hback : ∀ c ∈ v.children, c.ReadsBack options (r.depth + 2))
    (hr : r.Consumes ((Visit.mapEntry number name k (.ofValue kind v)).encode encode) t)
    (hlen : ((Visit.mapEntry number name k (.ofValue kind v)).encode encode).length < 2 ^ 64) :
    Merges options (m, r)
      ({ m with slots := m.slots.set i (.map (acc ++ [(k, v.map inBytes)])) }, t) := by
  refine merges_field hi (List.mem_singleton_self _)
    (by decide : WireType.lengthDelimited ≠ .endGroup) hr (fun tag _ hw => decide_eq_true hw) ?_
  intro tag w _ hw hwd hwt
  obtain ⟨entry, hentry, htakes⟩ := takes_entry (d := r.depth) hd hk hv hback hlen hw
  rw [List.append_cancel_left hentry] at hwt
  rw [getD_of_getElem? hs, Member.merge,
    run_bind_of_ok (read_eq_ok.2 ⟨htakes w t hwd hwt, rfl⟩)]
  show EStateM.Result.ok () (Slot.map (insertEntry k (v.map inBytes) acc), t) = _
  rw [insertEntry_of_forall_lt hbehind]

/-- The entries of a map are inserted one by one, each behind the others. -/
theorem merges_map {number : Nat} {name : String} {key : ScalarKind} {kind : FieldKind}
    (hi : m.type.members[i]? = some (.map number name key kind))
    {acc es : List (Scalar × Value Message)} (hs : m.slots[i]? = some (.map acc))
    (hes : ∀ e ∈ es, e.1.kind = key ∧ kind.Fits e.2) (hasc : Ascending es)
    (hacc : ∀ e ∈ es, ∀ e' ∈ acc, e'.1.lt e.1 = true)
    (hd : es ≠ [] → r.depth + 1 ≤ options.depthLimit)
    (hback : ∀ e ∈ es, ∀ c ∈ e.2.children, c.ReadsBack options (r.depth + 2))
    (hr : r.Consumes
      (es.flatMap fun e => (Visit.mapEntry number name e.1 (.ofValue kind e.2)).encode encode) t)
    (hlen : (es.flatMap fun e =>
      (Visit.mapEntry number name e.1 (.ofValue kind e.2)).encode encode).length < 2 ^ 64) :
    Merges options (m, r)
      ({ m with slots := m.slots.set i (.map (acc ++ es.map fun e => (e.1, e.2.map inBytes))) },
        t) := by
  induction es generalizing m r acc with
  | nil =>
    rw [List.map_nil, List.append_nil, set_of_getElem? hs, ← hr.eq_of_nil]
    exact .nil _
  | cons e es ih =>
    obtain ⟨k, v⟩ := e
    obtain ⟨⟨hk, hv⟩, hes⟩ := List.forall_mem_cons.1 hes
    obtain ⟨hlt, hasc⟩ := List.pairwise_cons.1 hasc
    obtain ⟨hbehind, hacc⟩ := List.forall_mem_cons.1 hacc
    obtain ⟨hvback, hback⟩ := List.forall_mem_cons.1 hback
    have hd := hd (List.cons_ne_nil _ _)
    rw [List.flatMap_cons] at hr hlen
    rw [List.length_append] at hlen
    obtain ⟨u, hu, ht⟩ := hr.split
    have hfirst := merges_entry hi hs hk hv hbehind hd hvback hu
      (Nat.lt_of_le_of_lt (Nat.le_add_right _ _) hlen)
    have hilt : i < m.slots.length := (List.getElem?_eq_some_iff.1 hs).1
    have hud : u.depth = r.depth := hu.2.2
    have hrest := ih (m := { m with slots := m.slots.set i (.map (acc ++ [(k, v.map inBytes)])) })
      hi (List.getElem?_set_self hilt) hes hasc ?_ (fun _ => by rw [hud]; exact hd)
      (by rw [hud]; exact hback) ht (by omega)
    · rw [List.set_set, List.append_assoc, List.singleton_append] at hrest
      exact hfirst.trans hrest
    · intro e he e' he'
      rcases List.mem_append.1 he' with he' | he'
      · exact hacc e he e' he'
      · rw [List.mem_singleton.1 he']
        exact hlt e he

/-- Nothing is written for a slot that is left as it was. -/
theorem merges_nothing {s : Slot Message} (hs : m.slots[i]? = some s) {bytes : Bytes}
    (hb : bytes = []) (hr : r.Consumes bytes t) :
    Merges options (m, r) ({ m with slots := m.slots.set i s }, t) := by
  rw [hb] at hr
  rw [set_of_getElem? hs, hr.eq_of_nil]
  exact .nil _

theorem merges_plain {number : Nat} {name : String} {kind : ScalarKind}
    (hi : m.type.members[i]? = some (.plain number name kind))
    (hs : m.slots[i]? = some (.plain kind.zero)) {x : Scalar} (hx : x.kind = kind)
    (hr : r.Consumes (((Member.plain number name kind).visits encode (.plain x)).flatMap
      (Visit.encode encode)) t)
    (hlen : (((Member.plain number name kind).visits encode (.plain x)).flatMap
      (Visit.encode encode)).length < 2 ^ 64) :
    Merges options (m, r) ({ m with slots := m.slots.set i (.plain x) }, t) := by
  rw [Member.visits] at hr hlen
  by_cases hz : x.isZero = true
  · have hzero : x = kind.zero := by
      rw [← hx]
      exact of_decide_eq_true hz
    rw [if_pos hz] at hr
    rw [hzero]
    exact merges_nothing hs rfl hr
  · rw [if_neg hz, List.flatMap_singleton, Visit.encode, FieldValue.encode_eq,
      FieldValue.wireType, Scalar.wireType, hx] at hr hlen
    rw [List.length_append] at hlen
    have hlen : (Tag.encode number kind.wireType).length + x.encode.length < 2 ^ 64 := hlen
    refine merges_field hi (List.mem_singleton_self _)
      (FieldKind.scalar kind).wireType_ne_endGroup hr
      (fun tag _ hw => decide_eq_true hw) ?_
    intro tag w _ hw hwd hwt
    exact run_bind_of_ok (read_eq_ok.2 ⟨takes_scalar hx hw (by omega) w t hwd hwt, rfl⟩)

theorem merges_optional {field : Field} {required : Bool}
    (hi : m.type.members[i]? = some (.optional field required))
    (hs : m.slots[i]? = some (.optional none)) {v : Value Message} (hv : field.kind.Fits v)
    (hback : ∀ c ∈ v.children, c.ReadsBack options (r.depth + 1))
    (hr : r.Consumes ((FieldValue.ofValue field.kind v).encode encode field.number) t)
    (hlen : ((FieldValue.ofValue field.kind v).encode encode field.number).length < 2 ^ 64) :
    Merges options (m, r)
      ({ m with slots := m.slots.set i (.optional (some (v.map inBytes))) }, t) := by
  refine merges_value hi (List.mem_singleton_self _) hv hback hr hlen
    (fun tag _ hw => decide_eq_true hw) ?_
  intro tag u _ hw hread
  rw [getD_of_getElem? hs, Member.merge]
  exact optionalField_of_value hw hread

theorem merges_oneof {fields : List Field} (hi : m.type.members[i]? = some (.oneof fields))
    (hs : m.slots[i]? = some (.oneof none)) {field : Field}
    (hfield : fields.find? (·.number = field.number) = some field) {v : Value Message}
    (hv : field.kind.Fits v) (hback : ∀ c ∈ v.children, c.ReadsBack options (r.depth + 1))
    (hr : r.Consumes ((FieldValue.ofValue field.kind v).encode encode field.number) t)
    (hlen : ((FieldValue.ofValue field.kind v).encode encode field.number).length < 2 ^ 64) :
    Merges options (m, r)
      ({ m with slots := m.slots.set i (.oneof (some (field.number, v.map inBytes))) }, t) := by
  have hl : (field.number, field.name) ∈ (Member.oneof fields).labels :=
    List.mem_map.2 ⟨field, List.mem_of_find?_eq_some hfield, rfl⟩
  refine merges_value hi hl hv hback hr hlen ?_ ?_
  · intro tag hn hw
    rw [Member.takes, hn, hfield]
    exact decide_eq_true hw
  · intro tag u hn hw hread
    have hfind : fields.find? (·.number = tag.number) = some field := by rw [hn, hfield]
    rw [getD_of_getElem? hs, Member.merge_oneof hfind, ← hn]
    exact oneofField_of_value hw hread

theorem merges_packed {number : Nat} {name : String} {kind : ScalarKind}
    (hi : m.type.members[i]? = some (.packed number name kind))
    (hs : m.slots[i]? = some (.packed [])) {ss : List Scalar} (hss : ∀ s ∈ ss, s.kind = kind)
    (hr : r.Consumes (((Member.packed number name kind).visits encode (.packed ss)).flatMap
      (Visit.encode encode)) t)
    (hlen : (((Member.packed number name kind).visits encode (.packed ss)).flatMap
      (Visit.encode encode)).length < 2 ^ 64) :
    Merges options (m, r) ({ m with slots := m.slots.set i (.packed ss) }, t) := by
  have hw : kind.wireType ≠ .lengthDelimited := by
    have all : ∀ type : MessageType, ∀ member ∈ type.members,
        (match member with
          | .packed _ _ kind => decide (kind.wireType ≠ .lengthDelimited)
          | _ => true) = true := by
      intro type
      cases type <;> decide
    exact of_decide_eq_true (all m.type _ (List.mem_of_getElem? hi))
  rw [Member.visits] at hr hlen
  cases ss with
  | nil => exact merges_nothing hs rfl hr
  | cons s ss =>
    rw [List.isEmpty_cons, if_neg Bool.false_ne_true, List.flatMap_singleton, Visit.encode,
      Visit.delimited] at hr hlen
    rw [List.length_append, List.length_append] at hlen
    refine merges_field hi (List.mem_singleton_self _)
      (by decide : WireType.lengthDelimited ≠ .endGroup) hr
      (fun tag _ hw => decide_eq_true (Or.inr hw)) ?_
    intro tag w _ ht hwd hwt
    rw [getD_of_getElem? hs, Member.merge]
    exact zoom_eq_ok.2 ⟨_, repeated_of_scalars ht hw hss (by omega) hwt, rfl⟩

theorem merges_payload {number : Nat} {name : String}
    (hi : m.type.members[i]? = some (.payload number name))
    (hs : m.slots[i]? = some (.payload (.serialized []))) {p : Payload Message}
    (hr : r.Consumes (((Member.payload number name).visits encode (.payload p)).flatMap
      (Visit.encode encode)) t)
    (hlen : (((Member.payload number name).visits encode (.payload p)).flatMap
      (Visit.encode encode)).length < 2 ^ 64) :
    Merges options (m, r)
      ({ m with slots := m.slots.set i (.payload (.serialized (p.bytes encode))) }, t) := by
  rw [Member.visits] at hr hlen
  generalize p.bytes encode = bytes at hr hlen ⊢
  cases bytes with
  | nil => exact merges_nothing hs rfl hr
  | cons b bytes =>
    rw [List.isEmpty_cons, if_neg Bool.false_ne_true, List.flatMap_singleton, Visit.encode,
      FieldValue.encode_eq] at hr hlen
    rw [List.length_append] at hlen
    have hlen : (Tag.encode number .lengthDelimited).length +
        (Varint.encode (b :: bytes).length ++ (b :: bytes)).length < 2 ^ 64 := hlen
    rw [List.length_append] at hlen
    refine merges_field hi (List.mem_singleton_self _)
      (by decide : WireType.lengthDelimited ≠ .endGroup) hr
      (fun tag _ hw => decide_eq_true hw) ?_
    intro tag w _ hw hwd hwt
    have hread : Reader.bytes tag w = .ok (b :: bytes) t :=
      bytes_eq_ok.2 ⟨hw, takes_bytes (d := r.depth) (by omega) w t hwd hwt⟩
    exact run_bind_of_ok (read_eq_ok.2 ⟨hread, rfl⟩)

/-- What is written for a member is merged into its slot, if every message inside is read back. -/
theorem merges_visits (hi : m.type.members[i]? = some member)
    (hs : m.slots[i]? = some member.initial) {s : Slot Message} (hfits : member.Fits s)
    (hback : ∀ c ∈ s.nested, c.2.ReadsBack options (r.depth + c.1))
    (hd : ∀ es, s = .map es → es ≠ [] → r.depth + 1 ≤ options.depthLimit)
    (hr : r.Consumes ((member.visits encode s).flatMap (Visit.encode encode)) t)
    (hlen : ((member.visits encode s).flatMap (Visit.encode encode)).length < 2 ^ 64) :
    Merges options (m, r) ({ m with slots := m.slots.set i s.inBytes }, t) := by
  cases member with
  | plain number name kind =>
    cases s with
    | plain x => exact merges_plain hi hs hfits hr hlen
    | _ => exact hfits.elim
  | optional field required =>
    cases s with
    | optional v =>
      cases v with
      | none => exact merges_nothing hs rfl hr
      | some v =>
        rw [Member.visits, List.flatMap_singleton] at hr hlen
        refine merges_optional hi hs (hfits v rfl) (fun c hc => hback (1, c) ?_) hr hlen
        exact List.mem_flatMap.2 ⟨v, List.mem_singleton_self v, List.mem_map.2 ⟨c, hc, rfl⟩⟩
    | _ => exact hfits.elim
  | packed number name kind =>
    cases s with
    | packed ss => exact merges_packed hi hs hfits hr hlen
    | _ => exact hfits.elim
  | repeated field =>
    cases s with
    | repeated vs =>
      rw [Member.visits, List.flatMap_map] at hr hlen
      refine merges_repeated hi hs hfits (fun v hv c hc => hback (1, c) ?_) hr hlen
      exact List.mem_flatMap.2 ⟨v, hv, List.mem_map.2 ⟨c, hc, rfl⟩⟩
    | _ => exact hfits.elim
  | map number name key kind =>
    cases s with
    | map es =>
      rw [Member.visits, List.flatMap_map] at hr hlen
      refine merges_map hi hs hfits.2 hfits.1 (fun _ _ => List.forall_mem_nil _) (hd es rfl)
        (fun e he c hc => hback (2, c) ?_) hr hlen
      exact List.mem_flatMap.2 ⟨e, he, List.mem_map.2 ⟨c, hc, rfl⟩⟩
    | _ => exact hfits.elim
  | oneof fields =>
    cases s with
    | oneof c =>
      cases c with
      | none => exact merges_nothing hs rfl hr
      | some e =>
        obtain ⟨number, v⟩ := e
        obtain ⟨field, hfield, hv⟩ := hfits (number, v) rfl
        have hn := List.find?_some hfield
        have hn : field.number = number := of_decide_eq_true hn
        subst hn
        rw [Member.visits, hfield, Option.map_some, Option.toList_some, List.flatMap_singleton]
          at hr hlen
        refine merges_oneof hi hs hfield hv (fun c hc => hback (1, c) ?_) hr hlen
        exact List.mem_flatMap.2 ⟨_, List.mem_singleton_self _, List.mem_map.2 ⟨c, hc, rfl⟩⟩
    | _ => exact hfits.elim
  | payload number name =>
    cases s with
    | payload p => exact merges_payload hi hs hr hlen
    | _ => exact hfits.elim

end

end Message

end Protobuf
