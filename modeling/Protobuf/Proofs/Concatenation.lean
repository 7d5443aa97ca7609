import Protobuf.Proofs.Fitting
import Protobuf.Proofs.Spelling

/-!
# Merging concatenated input

Merging two inputs one behind the other is merging them in sequence, for inputs that fail in the end
as well, and a message that a field holds by itself may come in two parts
(`Message.merge_append_and_merge_occurrences`).
-/

namespace Protobuf

open Build Reader

variable {options : DecodeOptions}

namespace Message

/-- Merging from where an earlier input was merged gives the same message and the same outcome,
errors being further on. -/
theorem merge_append {m m1 : Message} {a : Bytes} (h : merge options a m = .ok () m1) (b : Bytes) :
    merge options (a ++ b) m =
      match merge options b m1 with
      | .ok _ m2 => .ok () m2
      | .error e m2 => .error (e.shift a.length) m2 := by
  unfold merge at h
  rcases hx : mergeBody options none (m, .new a) with ⟨_, m', t⟩ | ⟨e, m', t⟩
  · rw [hx] at h
    cases h
    obtain ⟨_, hmerges, he, rfl⟩ := mergeBody_eq_ok.1 hx
    obtain ⟨bytes, hb⟩ := hmerges.before
    have hbytes : bytes = a := hb.eq_rest he
    have ht : ({ t with rest := b } : Reader) =
        { Reader.new b with position := a.length + (Reader.new b).position } := by
      obtain ⟨-, h2, h3⟩ := hb
      rw [hbytes] at h2
      simp only [Reader.new] at h2 h3 ⊢
      rw [h2, h3, Nat.zero_add, Nat.add_zero]
    have happend := mergeBody_append hx none b
    rw [ht, mergeBody_shift] at happend
    change mergeBody options none (m, .new (a ++ b)) = _ at happend
    unfold merge
    rw [happend]
    rcases mergeBody options none (m1, .new b) with ⟨_, m2, v⟩ | ⟨e, m2, v⟩ <;> rfl
  · rw [hx] at h
    cases h

end Message

/-! ## Fields that hold one message -/

/-- The member holds at most one value of the field. -/
inductive Member.Singular (field : Field) : Member → Prop
  /-- The field is a member by itself. -/
  | optional (required : Bool) : Singular field (.optional field required)
  /-- The field is one of a oneof. -/
  | oneof {fields : List Field} (find : fields.find? (·.number = field.number) = some field) :
    Singular field (.oneof fields)

/-- The bytes are one occurrence of a field with a body. Tags and lengths may be of any length. -/
inductive Occurrence (number : Nat) (body : Bytes) : FieldKind → Bytes → Prop
  /-- The body of a message comes behind its length. -/
  | message {type : MessageType} {tag length : Bytes}
    (spells_tag : Varint.Spells (Tag.rawOf number .lengthDelimited) tag)
    (spells_length : Varint.Spells body.length length) :
    Occurrence number body (.message type) (tag ++ (length ++ body))
  /-- The body of a group comes between two tags. -/
  | group {type : MessageType} {start stop : Bytes}
    (spells_start : Varint.Spells (Tag.rawOf number .startGroup) start)
    (spells_stop : Varint.Spells (Tag.rawOf number .endGroup) stop) :
    Occurrence number body (.group type) (start ++ (body ++ stop))

/-- The body can be read as a message of a type, where so many messages are open. -/
def MessageType.Reads (options : DecodeOptions) (depth : Nat) (type : MessageType) (body : Bytes) :
    Prop :=
  ∃ m t, Message.mergeBody options none (.new type, ⟨body, 0, depth⟩) = .ok () (m, t)

namespace Member

/-- The message that a slot holds for a field, or a new one. -/
def heldMessage (number : Nat) (type : MessageType) : Member → Slot Message → Message
  | oneof _, s => s.chosenMessage number type
  | _, s => s.optionalMessage type

/-- The slot that holds a message for a field. -/
def holding (number : Nat) (m : Message) : Member → Slot Message
  | oneof _ => .oneof (some (number, .message m))
  | _ => .optional (some (.message m))

/-- The slot after the message that was merged for a field has failed. -/
def failing (m : Message) : Member → Slot Message
  | oneof _ => .oneof none
  | _ => .optional (some (.message m))

theorem heldMessage_holding (number : Nat) (type : MessageType) (m : Message) (member : Member) :
    member.heldMessage number type (member.holding number m) = m := by
  cases member with
  | oneof fields => exact if_pos rfl
  | _ => rfl

end Member

/-- Merges the message of a field of a kind. -/
def Reader.nestedMessage (limit : Nat) (body : MergeBody) :
    FieldKind → Tag → Build Reader Message Unit
  | .group _ => group limit body
  | _ => message limit body

section

variable {type : MessageType} {wireType : WireType} {merge : Tag → Build Reader Message Unit}
  {tag : Tag} (ht : tag.wireType = wireType) {s : Slot Message} {r : Reader}

include ht

theorem Reader.run_intoOptional :
    intoOptional type wireType merge tag (s, r) =
      match merge tag (s.optionalMessage type, r) with
      | .ok _ (m, t) => .ok () (.optional (some (.message m)), t)
      | .error e (m, t) => .error e (.optional (some (.message m)), t) := by
  rw [intoOptional, run_bind_of_ok (read_eq_ok.2 ⟨expect_self ht r, rfl⟩), run_zoom]
  rcases merge tag (s.optionalMessage type, r) with ⟨_, m, t⟩ | ⟨e, m, t⟩ <;> rfl

theorem Reader.run_intoChosen :
    intoChosen type wireType merge tag (s, r) =
      match merge tag (s.chosenMessage tag.number type, r) with
      | .ok _ (m, t) => .ok () (.oneof (some (tag.number, .message m)), t)
      | .error e (_, t) => .error e (.oneof none, t) := by
  rw [intoChosen, run_bind_of_ok (read_eq_ok.2 ⟨expect_self ht r, rfl⟩),
    run_bind_of_ok (run_current s r), run_bind_of_ok (run_put (Slot.oneof none) s r), run_bind,
    run_read, run_alone]
  rcases merge tag (s.chosenMessage tag.number type, r) with ⟨_, m, t⟩ | ⟨e, m, t⟩ <;> rfl

end

/-- A field that holds one message merges in place. -/
theorem Member.run_merge_of_singular {limit : Nat} {body : MergeBody} {member : Member}
    {field : Field} {type : MessageType} (hs : member.Singular field) (hk : field.kind.holds type)
    {tag : Tag} (hn : tag.number = field.number) (ht : tag.wireType = field.kind.wireType)
    (s : Slot Message) (r : Reader) :
    member.merge limit body tag (s, r) =
      match nestedMessage limit body field.kind tag
        (member.heldMessage field.number type s, r) with
      | .ok _ (m, t) => .ok () (member.holding field.number m, t)
      | .error e (m, t) => .error e (member.failing m, t) := by
  cases hs with
  | optional required =>
    have heq : optionalField limit body field.kind tag =
        intoOptional type field.kind.wireType (nestedMessage limit body field.kind) tag := by
      rcases hk with hk | hk <;> rw [hk] <;> rfl
    rw [merge, heq, run_intoOptional ht]
    rfl
  | oneof find =>
    have heq : oneofField limit body field.kind tag =
        intoChosen type field.kind.wireType (nestedMessage limit body field.kind) tag := by
      rcases hk with hk | hk <;> rw [hk] <;> rfl
    rw [merge_oneof (hn ▸ find), heq, run_intoChosen ht, hn]
    rfl

namespace Message

theorem takes_of_singular {member : Member} {field : Field} (hs : member.Singular field) {tag : Tag}
    (hn : tag.number = field.number) (ht : tag.wireType = field.kind.wireType) :
    member.takes tag = true := by
  cases hs with
  | optional required => simpa [Member.takes] using ht
  | oneof find => simpa [Member.takes, hn, find] using ht

/-- A field that holds one message merges in place. -/
theorem run_mergeOne_of_singular (options : DecodeOptions) (body : MergeBody) (start : Reader)
    {m : Message} {i : Nat} {member : Member} {field : Field} {type : MessageType} {tag : Tag}
    (hi : member? m.type (·.hasNumber tag.number) = some (i, member))
    (hs : member.Singular field) (hk : field.kind.holds type)
    (hn : tag.number = field.number) (ht : tag.wireType = field.kind.wireType) (r : Reader) :
    mergeOne options body start tag (m, r) =
      match nestedMessage options.depthLimit body field.kind tag
        (member.heldMessage field.number type (m.slots.getD i member.initial), r) with
      | .ok _ (sub, t) =>
        .ok () ({ m with slots := m.slots.set i (member.holding field.number sub) }, t)
      | .error e (sub, t) =>
        .error e ({ m with slots := m.slots.set i (member.failing sub) }, t) := by
  rw [run_mergeOne_of_takes options body start hi (takes_of_singular hs hn ht) r,
    Member.run_merge_of_singular hs hk hn ht]
  rcases nestedMessage options.depthLimit body field.kind tag
    (member.heldMessage field.number type (m.slots.getD i member.initial), r) with
    ⟨_, sub, t⟩ | ⟨e, sub, t⟩ <;> rfl

/-- What is merged alone is merged alike in front of other bytes and further on. -/
theorem merges_of_mergeBody {m m1 : Message} {body : Bytes} {d : Nat} {t : Reader}
    (h : mergeBody options none (m, ⟨body, 0, d⟩) = .ok () (m1, t)) {u v : Reader}
    (hd : u.depth = d) (hu : u.Consumes body v) : Merges options (m, u) (m1, v) := by
  obtain ⟨_, hmerges, he, rfl⟩ := mergeBody_eq_ok.1 h
  obtain ⟨bytes, hb⟩ := hmerges.before
  have hbytes : bytes = body := hb.eq_rest he
  subst hbytes
  let c : Comparison := ⟨u.position, v.rest, options.depthLimit, options.depthLimit, Nat.le_refl _⟩
  have hx := hmerges.reader (c := c) rfl rfl (rfl : options.discardUnknown = options.discardUnknown)
  have hu' : c.reader ⟨bytes, 0, d⟩ = u := by
    obtain ⟨rest, position, depth⟩ := u
    simp only at hd
    rw [hd]
    exact congrArg (Reader.mk · _ _) hu.1.symm
  have hv' : c.reader t = v := by
    obtain ⟨rest, position, depth⟩ := v
    obtain ⟨-, hp, hdepth⟩ := hu
    obtain ⟨-, hp', hdepth'⟩ := hb
    simp only at hp hdepth hp' hdepth'
    simp only [Comparison.reader, c, he, hp, hp', hdepth, hdepth', hd, List.nil_append,
      Nat.zero_add]
  rw [hu', hv'] at hx
  exact hx

/-- Two bodies are merged alone one after the other as they are merged in one. -/
theorem mergeBody_of_mergeBody {m m1 m2 : Message} {a b : Bytes} {d : Nat} {t u : Reader}
    (ha : mergeBody options none (m, ⟨a, 0, d⟩) = .ok () (m1, t))
    (hb : mergeBody options none (m1, ⟨b, 0, d⟩) = .ok () (m2, u)) :
    mergeBody options none (m, ⟨a ++ b, 0, d⟩) = .ok () (m2, ⟨[], (a ++ b).length, d⟩) := by
  have first : Merges options (m, ⟨a ++ b, 0, d⟩) (m1, ⟨b, a.length, d⟩) :=
    merges_of_mergeBody ha rfl ⟨rfl, (Nat.zero_add _).symm, rfl⟩
  have second : Merges options (m1, ⟨b, a.length, d⟩) (m2, ⟨[], (a ++ b).length, d⟩) :=
    merges_of_mergeBody hb rfl ⟨(List.append_nil _).symm, List.length_append, rfl⟩
  rw [mergeBody_of_merges (first.trans second), mergeBody_of_rest_nil rfl]

/-- A message is read behind its length as its bytes are merged alone. -/
theorem message_of_mergeBody {tag : Tag} (ht : tag.wireType = .lengthDelimited)
    {sub sub' : Message} {header body : Bytes} {r t v : Reader}
    (hs : Varint.Spells body.length header)
    (hb : mergeBody options none (sub, ⟨body, 0, r.depth + 1⟩) = .ok () (sub', v))
    (hd : r.depth + 1 ≤ options.depthLimit) (hr : r.Consumes (header ++ body) t) :
    message options.depthLimit (mergeBody options) tag (sub, r) = .ok () (sub', t) := by
  refine message_eq_ok.2 ⟨ht, hd, { t with depth := t.depth + 1 }, ?_, rfl⟩
  refine within_of_spells hs hr.deeper ?_
  intro w hw hrest
  obtain ⟨hwbody, hend⟩ := consumes_whole hrest
  rw [mergeBody_of_merges (merges_of_mergeBody hb hw hwbody)]
  exact mergeBody_of_rest_nil hend

/-- A message is read up to the end tag of its group as its bytes are merged alone. -/
theorem group_of_mergeBody {tag : Tag} (ht : tag.wireType = .startGroup) {sub sub' : Message}
    {stop body : Bytes} {r t v : Reader} (hs : Varint.Spells (Tag.rawOf tag.number .endGroup) stop)
    (hb : mergeBody options none (sub, ⟨body, 0, r.depth + 1⟩) = .ok () (sub', v))
    (hd : r.depth + 1 ≤ options.depthLimit) (hr : r.Consumes (body ++ stop) t) :
    group options.depthLimit (mergeBody options) tag (sub, r) = .ok () (sub', t) := by
  obtain ⟨u, hu, ht'⟩ := hr.split
  refine group_eq_ok.2 ⟨ht, hd, { t with depth := t.depth + 1 }, ?_, rfl⟩
  rw [mergeBody_of_merges (merges_of_mergeBody hb rfl hu.deeper)]
  exact mergeBody_of_ends ⟨_, takes_nextTag tag.valid hs _ _ rfl ht'.deeper, rfl, rfl⟩

section

variable {m : Message} {i : Nat} {member : Member} {field : Field} {type : MessageType}
  (hi : member? m.type (·.hasNumber field.number) = some (i, member)) (hs : member.Singular field)
  (hk : field.kind.holds type) (valid : ValidFieldNumber field.number) {body bytes : Bytes}
  (ho : Occurrence field.number body field.kind bytes) {r t : Reader} (hr : r.Consumes bytes t)

include ho valid hr hk

/-- An occurrence of a field begins with the field's tag. -/
theorem nextTag_of_occurrence :
    ∃ u, nextTag r = .ok (some ⟨field.number, field.kind.wireType, valid⟩) u ∧
      ∃ rest, u.Consumes rest t ∧ u.depth = r.depth := by
  generalize hkind : field.kind = kind at *
  cases ho with
  | message htag hlen =>
    obtain ⟨u, hu, ht⟩ := hr.split
    exact ⟨u, takes_nextTag valid htag r u rfl hu, _, ht, hu.2.2⟩
  | group hstart hstop =>
    obtain ⟨u, hu, ht⟩ := hr.split
    exact ⟨u, takes_nextTag valid hstart r u rfl hu, _, ht, hu.2.2⟩

/-- The message of a field is merged from an occurrence as its body is merged alone. -/
theorem nestedMessage_of_occurrence {sub sub' : Message} {v : Reader}
    (hb : mergeBody options none (sub, ⟨body, 0, r.depth + 1⟩) = .ok () (sub', v))
    (hd : r.depth + 1 ≤ options.depthLimit) :
    ∃ u, nextTag r = .ok (some ⟨field.number, field.kind.wireType, valid⟩) u ∧
      nestedMessage options.depthLimit (mergeBody options) field.kind
        ⟨field.number, field.kind.wireType, valid⟩ (sub, u) = .ok () (sub', t) := by
  generalize hkind : field.kind = kind at *
  cases ho with
  | message htag hlen =>
    obtain ⟨u, hu, ht⟩ := hr.split
    have hdepth : u.depth = r.depth := hu.2.2
    rw [← hdepth] at hb hd
    exact ⟨u, takes_nextTag valid htag r u rfl hu, message_of_mergeBody rfl hlen hb hd ht⟩
  | group hstart hstop =>
    obtain ⟨u, hu, ht⟩ := hr.split
    have hdepth : u.depth = r.depth := hu.2.2
    rw [← hdepth] at hb hd
    exact ⟨u, takes_nextTag valid hstart r u rfl hu, group_of_mergeBody rfl hstop hb hd ht⟩

include hs hi

/-- Reading one occurrence of a field puts its body into the message that the field holds. -/
theorem merges_occurrence {sub' : Message} {v : Reader}
    (hb : mergeBody options none (member.heldMessage field.number type
      (m.slots.getD i member.initial), ⟨body, 0, r.depth + 1⟩) = .ok () (sub', v))
    (hd : r.depth + 1 ≤ options.depthLimit) :
    Merges options (m, r)
      ({ m with slots := m.slots.set i (member.holding field.number sub') }, t) := by
  obtain ⟨u, htag, hnested⟩ := nestedMessage_of_occurrence hk valid ho hr hb hd
  let tag : Tag := ⟨field.number, field.kind.wireType, valid⟩
  have hone := run_mergeOne_of_singular options (mergeBody options) r
    (show member? m.type (·.hasNumber tag.number) = _ from hi) hs hk rfl rfl u
  rw [hnested] at hone
  exact .cons htag field.kind.wireType_ne_endGroup hone (.nil _)

/-- Where no further message may be opened, an occurrence of the field fails. -/
theorem mergeBody_of_occurrence_of_limit (hd : options.depthLimit < r.depth + 1) :
    ∃ u, mergeBody options none (m, r) = .error (.recursionLimit options.depthLimit)
      ({ m with slots := m.slots.set i (member.failing (member.heldMessage field.number type
        (m.slots.getD i member.initial))) }, u) := by
  obtain ⟨u, htag, -, -, hu⟩ := nextTag_of_occurrence hk valid ho hr
  let tag : Tag := ⟨field.number, field.kind.wireType, valid⟩
  have hone := run_mergeOne_of_singular options (mergeBody options) r
    (show member? m.type (·.hasNumber tag.number) = _ from hi) hs hk rfl rfl u
  have henter := enter_of_limit_lt (r := u) (by rw [hu]; exact hd)
  have hnested : ∀ sub : Message, nestedMessage options.depthLimit (mergeBody options) field.kind
      ⟨field.number, field.kind.wireType, valid⟩ (sub, u) =
        .error (.recursionLimit options.depthLimit) (sub, { u with depth := u.depth + 1 }) := by
    intro sub
    rcases hk with hk | hk <;> simp only [hk]
    · refine (run_bind_of_ok (read_eq_ok.2 ⟨expect_self rfl u, rfl⟩)).trans ?_
      exact run_bind_of_error (read_eq_error.2 ⟨henter, rfl⟩)
    · refine (run_bind_of_ok (read_eq_ok.2 ⟨expect_self rfl u, rfl⟩)).trans ?_
      exact run_bind_of_error (read_eq_error.2 ⟨henter, rfl⟩)
  rw [hnested] at hone
  refine ⟨{ u with depth := u.depth + 1 }, ?_⟩
  rw [run_mergeBody, htag]
  dsimp only
  rw [if_neg field.kind.wireType_ne_endGroup, hone]

end

/-- The members of a type are found by the numbers of their fields. -/
theorem member?_of_mem_labels {type : MessageType} {member : Member} (hm : member ∈ type.members)
    {label : Nat × String} (hl : label ∈ member.labels) :
    ∃ i, member? type (·.hasNumber label.1) = some (i, member) := by
  have all : ∀ member ∈ type.members, ∀ label ∈ member.labels,
      (member? type (·.hasNumber label.1)).map (·.2) = some member := by
    cases type <;> decide
  obtain ⟨⟨i, member'⟩, hi, rfl⟩ := Option.map_eq_some_iff.1 (all member hm label hl)
  exact ⟨i, hi⟩

theorem mem_labels_of_singular {member : Member} {field : Field} (hs : member.Singular field) :
    (field.number, field.name) ∈ member.labels := by
  cases hs with
  | optional required => exact List.mem_singleton_self _
  | oneof find => exact List.mem_map.2 ⟨field, List.mem_of_find?_eq_some find, rfl⟩

theorem sound_heldMessage {U : Nat → MessageType → Bytes → Prop} (hu : ∀ d type, U d type [])
    {d : Nat} {member : Member} {field : Field} {type : MessageType} {s : Slot Message}
    (hs : member.Singular field) (hk : field.kind.holds type) (h : s.Sound U d member) :
    (member.heldMessage field.number type s).type = type ∧
      (member.heldMessage field.number type s).Sound U (d + 1) := by
  cases hs with
  | optional required => exact h.optionalMessage hu hk
  | oneof find => exact h.chosenMessage hu find hk

theorem merge_of_merges {m m' : Message} {bytes : Bytes} {t : Reader}
    (h : Merges options (m, .new bytes) (m', t)) (ht : t.rest = []) :
    merge options bytes m = .ok () m' := by
  rw [merge, mergeBody_of_merges h, mergeBody_of_rest_nil ht]

/-- A message that a field holds by itself may come in two parts. -/
theorem merge_occurrences {m : Message} (hm : m.WellTyped) {member : Member} {field : Field}
    {type : MessageType} (hmem : member ∈ m.type.members) (hs : member.Singular field)
    (hk : field.kind.holds type) {x y bx by' bxy : Bytes} (hx : type.Reads options 1 x)
    (hy : type.Reads options 1 y) (ox : Occurrence field.number x field.kind bx)
    (oy : Occurrence field.number y field.kind by')
    (oxy : Occurrence field.number (x ++ y) field.kind bxy) :
    merge options (bx ++ by') m = merge options bxy m ∧
      (0 < options.depthLimit → ∃ m', merge options bxy m = .ok () m') := by
  have hlabel := mem_labels_of_singular hs
  obtain ⟨i, hi⟩ := member?_of_mem_labels hmem hlabel
  have valid : ValidFieldNumber field.number :=
    MessageType.valid_of_mem_labels (List.mem_flatMap.2 ⟨member, hmem, hlabel⟩)
  have hr : (Reader.new (bx ++ by')).Consumes bx ⟨by', bx.length, 0⟩ :=
    ⟨rfl, (Nat.zero_add _).symm, rfl⟩
  have hrxy : (Reader.new bxy).Consumes bxy ⟨[], bxy.length, 0⟩ :=
    ⟨(List.append_nil _).symm, (Nat.zero_add _).symm, rfl⟩
  by_cases hd : 0 < options.depthLimit
  · have hmember := member?_eq_some hi
    have hslot : i < m.slots.length := by
      rw [hm.here.1.length_eq]
      exact (List.getElem?_eq_some_iff.1 hmember).1
    -- the two bodies are merged into what the field holds, one after the other
    obtain ⟨htype, hheld⟩ := sound_heldMessage (fun _ _ => trivial) hs hk
      (Sound.slot (U := fun _ _ _ => True) hm hmember)
    obtain ⟨_, _, hx⟩ := hx
    obtain ⟨m1, hx, htype1, hm1⟩ :=
      mergeBody_of_type_eq (wellTyped_new type) hheld.wellTyped htype hx
    obtain ⟨_, _, hy⟩ := hy
    obtain ⟨m2, hy, -, -⟩ := mergeBody_of_type_eq (wellTyped_new type) hm1 htype1 hy
    have hxy := mergeBody_of_mergeBody hx hy
    have first := merges_occurrence hi hs hk valid ox hr hx hd
    have hheld1 : member.heldMessage field.number type
        ((m.slots.set i (member.holding field.number m1)).getD i member.initial) = m1 := by
      rw [List.getD_eq_getElem?_getD, List.getElem?_set_self hslot]
      exact member.heldMessage_holding field.number type m1
    have second := merges_occurrence
      (m := { m with slots := m.slots.set i (member.holding field.number m1) }) hi hs hk valid oy
      (r := ⟨by', bx.length, 0⟩) (t := ⟨[], bx.length + by'.length, 0⟩)
      ⟨(List.append_nil _).symm, rfl, rfl⟩ (by rw [hheld1]; exact hy) hd
    have both := merge_of_merges (first.trans second) rfl
    have once := merge_of_merges (merges_occurrence hi hs hk valid oxy hrxy hxy hd) rfl
    rw [List.set_set] at both
    rw [both, once]
    exact ⟨rfl, fun _ => ⟨_, rfl⟩⟩
  · have hd : options.depthLimit < 0 + 1 := by omega
    obtain ⟨u, hu⟩ := mergeBody_of_occurrence_of_limit hi hs hk valid ox hr hd
    obtain ⟨v, hv⟩ := mergeBody_of_occurrence_of_limit hi hs hk valid oxy hrxy hd
    refine ⟨?_, fun h => absurd h (by omega)⟩
    rw [merge, hu, merge, hv]

/-- Merging two inputs one behind the other is merging them in sequence: the messages are the same,
and so are the outcomes, an error of the second input being further on. And two occurrences of a
field that holds one message do what one occurrence with both bodies does. -/
theorem merge_append_and_merge_occurrences (options : DecodeOptions) (m : Message) :
    (∀ (m1 : Message) (a b : Bytes), merge options a m = .ok () m1 →
      merge options (a ++ b) m =
        match merge options b m1 with
        | .ok _ m2 => .ok () m2
        | .error e m2 => .error (e.shift a.length) m2) ∧
    (∀ (member : Member) (field : Field) (type : MessageType) (x y bx by' bxy : Bytes),
      m.WellTyped → member ∈ m.type.members → member.Singular field → field.kind.holds type →
      type.Reads options 1 x → type.Reads options 1 y →
      Occurrence field.number x field.kind bx → Occurrence field.number y field.kind by' →
      Occurrence field.number (x ++ y) field.kind bxy →
      merge options (bx ++ by') m = merge options bxy m ∧
        (0 < options.depthLimit → ∃ m', merge options bxy m = .ok () m')) := by
  constructor
  · intro m1 a b h
    exact merge_append h b
  · intro member field type x y bx by' bxy hm hmem hs hk hx hy ox oy oxy
    exact merge_occurrences hm hmem hs hk hx hy ox oy oxy

/-- Two required numbers come in two parts of a message, and a second part breaks off. -/
theorem merge_append_and_merge_occurrences_requiredForeign :
    (∃ m1, merge {} [10, 2, 8, 1] (.new .requiredForeign) = .ok () m1 ∧
      merge {} [10, 9] m1 = .error (.truncated 1) m1 ∧
      merge {} ([10, 2, 8, 1] ++ [10, 9]) (.new .requiredForeign) = .error (.truncated 5) m1) ∧
    merge {} ([10, 2, 8, 1] ++ [10, 2, 16, 2]) (.new .requiredForeign) =
      merge {} [10, 4, 8, 1, 16, 2] (.new .requiredForeign) ∧
    ∃ m', merge {} [10, 4, 8, 1, 16, 2] (.new .requiredForeign) = .ok () m' := by
  have h := merge_append_and_merge_occurrences {} (.new .requiredForeign)
  constructor
  · refine ⟨_, rfl, rfl, ?_⟩
    exact h.1 _ [10, 2, 8, 1] [10, 9] rfl
  · have hx : MessageType.required.Reads {} 1 [8, 1] := ⟨_, _, rfl⟩
    have hy : MessageType.required.Reads {} 1 [16, 2] := ⟨_, _, rfl⟩
    have htag : Varint.Spells (Tag.rawOf 1 .lengthDelimited) [10] := ⟨10, rfl, rfl⟩
    have ox : Occurrence 1 [8, 1] (.message .required) [10, 2, 8, 1] :=
      @Occurrence.message 1 [8, 1] .required [10] [2] htag ⟨2, rfl, rfl⟩
    have oy : Occurrence 1 [16, 2] (.message .required) [10, 2, 16, 2] :=
      @Occurrence.message 1 [16, 2] .required [10] [2] htag ⟨2, rfl, rfl⟩
    have oxy : Occurrence 1 [8, 1, 16, 2] (.message .required) [10, 4, 8, 1, 16, 2] :=
      @Occurrence.message 1 [8, 1, 16, 2] .required [10] [4] htag ⟨4, rfl, rfl⟩
    have both := h.2 (.optionalMessage 1 "optional_message" .required)
      ⟨1, "optional_message", .message .required⟩ .required [8, 1] [16, 2] _ _ _ (wellTyped_new _)
      (.head _) (.optional false) (Or.inl rfl) hx hy ox oy oxy
    exact ⟨both.1, both.2 (by decide)⟩

end Message

end Protobuf
