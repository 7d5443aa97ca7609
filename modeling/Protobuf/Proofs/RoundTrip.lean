import Mathlib.Data.List.Forall2
import Protobuf.Message.Any
import Protobuf.Proofs.ReadingBack

/-!
# Round trip

A message is decoded from its own encoding, up to the form of the payload of an `Any`, if it does
not nest too deep (`Message.decode_encode`). Only messages of a type that contains itself can nest
too deep; all others survive encoding and decoding (`Message.round_trip`).
-/

namespace Protobuf

open Build Reader

/-! ## How deep messages nest -/

/-- The type of a message of the kind, if there is one. -/
def FieldKind.types : FieldKind → List MessageType
  | scalar _ => []
  | message type | group type => [type]

/-- The types of the messages that are read inside a slot of the member, and how many levels deeper
each of them is read. -/
def Member.nested : Member → List (Nat × MessageType)
  | plain _ _ _ | packed _ _ _ | payload _ _ => []
  | optional field _ | repeated field => field.kind.types.map (1, ·)
  | map _ _ _ kind => kind.types.map (2, ·)
  | oneof fields => fields.flatMap fun field => field.kind.types.map (1, ·)

theorem FieldKind.Fits.type_mem {kind : FieldKind} {v : Value Message} (h : kind.Fits v)
    {m : Message} (hm : m ∈ v.children) : m.type ∈ kind.types := by
  cases v with
  | scalar s => cases hm
  | message c =>
    rw [List.mem_singleton.1 hm]
    cases kind with
    | scalar kind => exact h.elim
    | message type | group type => exact List.mem_singleton.2 h

theorem Member.Fits.type_mem {member : Member} {s : Slot Message} (h : member.Fits s)
    {c : Nat × Message} (hc : c ∈ s.nested) : (c.1, c.2.type) ∈ member.nested := by
  cases s with
  | plain _ | packed _ | payload _ => cases hc
  | optional v =>
    obtain ⟨x, hx, hc⟩ := List.mem_flatMap.1 hc
    obtain ⟨m, hm, rfl⟩ := List.mem_map.1 hc
    cases member with
    | optional field required =>
      exact List.mem_map.2 ⟨_, (h x (Option.mem_toList.1 hx)).type_mem hm, rfl⟩
    | _ => exact h.elim
  | repeated vs =>
    obtain ⟨x, hx, hc⟩ := List.mem_flatMap.1 hc
    obtain ⟨m, hm, rfl⟩ := List.mem_map.1 hc
    cases member with
    | repeated field => exact List.mem_map.2 ⟨_, (h x hx).type_mem hm, rfl⟩
    | _ => exact h.elim
  | map es =>
    obtain ⟨e, he, hc⟩ := List.mem_flatMap.1 hc
    obtain ⟨m, hm, rfl⟩ := List.mem_map.1 hc
    cases member with
    | map number name key kind => exact List.mem_map.2 ⟨_, (h.2 e he).2.type_mem hm, rfl⟩
    | _ => exact h.elim
  | oneof choice =>
    obtain ⟨e, he, hc⟩ := List.mem_flatMap.1 hc
    obtain ⟨m, hm, rfl⟩ := List.mem_map.1 hc
    cases member with
    | oneof fields =>
      obtain ⟨field, hfield, hv⟩ := h e (Option.mem_toList.1 he)
      refine List.mem_flatMap.2 ⟨field, List.mem_of_find?_eq_some hfield, ?_⟩
      exact List.mem_map.2 ⟨_, hv.type_mem hm, rfl⟩
    | _ => exact h.elim

namespace MessageType

/-- How many levels deeper a message of the type can be read at most, if the type does not contain
itself. -/
def height : MessageType → Nat
  | requiredForeign => 2
  | requiredOneof | oneofContainer | scalars => 1
  | _ => 0

/-- What is inside a type that does not contain itself is less high, and it carries no messages of
any type. -/
theorem height_nested {type : MessageType} (ht : type ≠ .node) {member : Member}
    (hm : member ∈ type.members) {c : Nat × MessageType} (hc : c ∈ member.nested) :
    c.2 ≠ .node ∧ c.2 ≠ .any ∧ c.1 + c.2.height ≤ type.height := by
  have all : type ≠ .node → ∀ member ∈ type.members, ∀ c ∈ member.nested,
      c.2 ≠ .node ∧ c.2 ≠ .any ∧ c.1 + c.2.height ≤ type.height := by
    cases type <;> decide
  exact all ht member hm c hc

/-- An entry of a map is a level of its own. -/
theorem height_map {type : MessageType} (ht : type ≠ .node) {number : Nat} {name : String}
    {key : ScalarKind} {kind : FieldKind} (hm : Member.map number name key kind ∈ type.members) :
    1 ≤ type.height := by
  have all : type ≠ .node → ∀ member ∈ type.members,
      (match member with
        | .map _ _ _ _ => decide (1 ≤ type.height)
        | _ => true) = true := by
    cases type <;> decide
  exact of_decide_eq_true (all ht _ hm)

/-- Only an `Any` has a payload. -/
theorem eq_any_of_payload {type : MessageType} {number : Nat} {name : String}
    (hm : Member.payload number name ∈ type.members) : type = .any := by
  have all : ∀ member ∈ type.members,
      (match member with
        | .payload _ _ => decide (type = .any)
        | _ => true) = true := by
    cases type <;> decide
  exact of_decide_eq_true (all _ hm)

end MessageType

namespace Message

/-- No more levels than so many are open where the message is read, and within it. -/
def NestsWithin (limit depth : Nat) (m : Message) : Prop :=
  m.Everywhere (fun d m => d ≤ limit ∧ ∀ es, .map es ∈ m.slots → es ≠ [] → d + 1 ≤ limit) depth

theorem Fits.exists_member {m : Message} (h : m.Fits) {s : Slot Message} (hs : s ∈ m.slots) :
    ∃ member ∈ m.type.members, member.Fits s := by
  obtain ⟨i, hi⟩ := List.mem_iff_getElem?.1 hs
  have hlt : i < m.type.members.length := by
    rw [← h.length_eq]
    exact (List.getElem?_eq_some_iff.1 hi).1
  refine ⟨m.type.members[i], List.getElem_mem hlt, ?_⟩
  exact h.fits_slot i _ s (List.getElem?_eq_getElem hlt) hi

/-- A message of a type that does not contain itself nests no deeper than its type is high. -/
theorem Sound.nestsWithin {U : Nat → MessageType → Bytes → Prop} {limit d : Nat} {m : Message}
    (h : m.Sound U d) (ht : m.type ≠ .node) (hd : d + m.type.height ≤ limit) :
    m.NestsWithin limit d := by
  induction h with
  | @intro d m here _ ih =>
    obtain ⟨hfits, -⟩ := here
    refine .intro ⟨by omega, fun es hes hne => ?_⟩ fun c hc => ?_
    · obtain ⟨member, hmember, hs⟩ := hfits.exists_member hes
      cases member with
      | map number name key kind =>
        have := MessageType.height_map ht hmember
        omega
      | _ => exact hs.elim
    · obtain ⟨s, hs, hcs⟩ := List.mem_flatMap.1 hc
      obtain ⟨member, hmember, hs⟩ := hfits.exists_member hs
      obtain ⟨hnode, -, hheight⟩ := MessageType.height_nested ht hmember (hs.type_mem hcs)
      have hheight : c.1 + c.2.type.height ≤ m.type.height := hheight
      exact ih c hc hnode (by omega)

end Message

/-! ## Reading messages back -/

namespace Message

variable {options : DecodeOptions}

/-- What is written for the members of a type, one after the other, is merged into the slots that
were never set. -/
theorem merges_members {m : Message} {front members : List Member}
    (hmembers : m.type.members = front ++ members) {done slots : List (Slot Message)}
    (hdone : done.length = front.length) (hslots : m.slots = done ++ members.map Member.initial)
    (hfits : List.Forall₂ Member.Fits members slots) {r t : Reader}
    (hback : ∀ s ∈ slots, ∀ c ∈ s.nested, c.2.ReadsBack options (r.depth + c.1))
    (hd : ∀ es, .map es ∈ slots → es ≠ [] → r.depth + 1 ≤ options.depthLimit)
    (hr : r.Consumes ((members.zip slots).flatMap fun p =>
      (p.1.visits encode p.2).flatMap (Visit.encode encode)) t)
    (hlen : ((members.zip slots).flatMap fun p =>
      (p.1.visits encode p.2).flatMap (Visit.encode encode)).length < 2 ^ 64) :
    Merges options (m, r) ({ m with slots := done ++ slots.map Slot.inBytes }, t) := by
  induction hfits generalizing m front done r with
  | nil =>
    obtain ⟨type, _, unknown⟩ := m
    cases hslots
    rw [← hr.eq_of_nil]
    exact .nil _
  | @cons member s members slots hs _ ih =>
    obtain ⟨hsback, hback⟩ := List.forall_mem_cons.1 hback
    rw [List.zip_cons_cons, List.flatMap_cons] at hr hlen
    rw [List.length_append] at hlen
    obtain ⟨u, hu, ht⟩ := hr.split
    have hi : m.type.members[done.length]? = some member := by
      rw [hmembers, hdone, List.getElem?_append_right (Nat.le_refl _), Nat.sub_self,
        List.getElem?_cons_zero]
    have hinitial : m.slots[done.length]? = some member.initial := by
      rw [hslots, List.getElem?_append_right (Nat.le_refl _), Nat.sub_self, List.map_cons,
        List.getElem?_cons_zero]
    have hfirst := merges_visits hi hinitial hs hsback
      (fun es he hne => hd es (he ▸ List.mem_cons_self) hne) hu
      (Nat.lt_of_le_of_lt (Nat.le_add_right _ _) hlen)
    have hset : m.slots.set done.length s.inBytes =
        (done ++ [s.inBytes]) ++ members.map Member.initial := by
      rw [hslots, List.set_append_right _ _ (Nat.le_refl _), Nat.sub_self, List.map_cons,
        List.set_cons_zero, List.append_assoc, List.singleton_append]
    have hud : u.depth = r.depth := hu.2.2
    have hfront : m.type.members = (front ++ [member]) ++ members := by
      rw [List.append_assoc]
      exact hmembers
    have hlength : (done ++ [s.inBytes]).length = (front ++ [member]).length := by
      rw [List.length_append, List.length_append, hdone]
      rfl
    have hrest := ih (m := { m with slots := m.slots.set done.length s.inBytes }) hfront hlength
      hset
      (by rw [hud]; exact hback)
      (fun es he hne => by rw [hud]; exact hd es (List.mem_cons_of_mem _ he) hne) ht (by omega)
    rw [List.append_assoc, List.singleton_append] at hrest
    exact hfirst.trans hrest

theorem Fits.forall₂ {m : Message} (h : m.Fits) :
    List.Forall₂ Member.Fits m.type.members m.slots := by
  refine List.forall₂_iff_get.2 ⟨h.length_eq.symm, fun i hi hi' => ?_⟩
  exact h.fits_slot i _ _ (List.getElem?_eq_getElem hi) (List.getElem?_eq_getElem hi')

/-- The encoding of a message is merged into a new message, if every message inside is read back and
the unknown fields are foreign. -/
theorem merges_encode (hdiscard : options.discardUnknown = false) {m : Message} (hfits : m.Fits)
    {r t : Reader} (hforeign : Foreign options.depthLimit r.depth m.type m.unknown)
    (hback : ∀ c ∈ m.nested, c.2.ReadsBack options (r.depth + c.1))
    (hd : ∀ es, .map es ∈ m.slots → es ≠ [] → r.depth + 1 ≤ options.depthLimit)
    (hr : r.Consumes m.encode t) (hlen : m.encode.length < 2 ^ 64) :
    Merges options (.new m.type, r) (m.inBytes, t) := by
  have hbytes : m.encode = ((m.type.members.zip m.slots).flatMap fun p =>
      (p.1.visits encode p.2).flatMap (Visit.encode encode)) ++ m.unknown := by
    rw [encode_eq, visits, MessageType.visits, List.flatMap_assoc]
  rw [hbytes] at hr hlen
  rw [List.length_append] at hlen
  obtain ⟨u, hu, hunknown⟩ := hr.split
  have hslotback : ∀ s ∈ m.slots, ∀ c ∈ s.nested, c.2.ReadsBack options (r.depth + c.1) :=
    fun s hs c hc => hback c (List.mem_flatMap.2 ⟨s, hs, hc⟩)
  have hnone : ([] : List (Slot Message)).length = ([] : List Member).length := rfl
  have hslots := merges_members (m := .new m.type) (List.nil_append _).symm hnone rfl
    hfits.forall₂ hslotback hd hu (Nat.lt_of_le_of_lt (Nat.le_add_right _ _) hlen)
  rw [← hu.2.2] at hforeign
  have hrest := merges_foreign (m := { Message.new m.type with slots := m.slots.map Slot.inBytes })
    hdiscard hforeign hunknown
  rw [inBytes_eq]
  exact hslots.trans hrest

/-- A message is read back if all within it fit and have foreign unknown fields. -/
theorem readsBack (hdiscard : options.discardUnknown = false) {d : Nat} {m : Message}
    (h : m.Sound (Foreign options.depthLimit) d) (hn : m.NestsWithin options.depthLimit d) :
    m.ReadsBack options d := by
  induction h with
  | @intro d m here _ ih =>
    obtain ⟨hd, hmap⟩ := hn.here
    refine ⟨hd, fun hlen => ?_⟩
    have hall : (⟨m.encode, 0, d⟩ : Reader).Consumes m.encode ⟨[], m.encode.length, d⟩ :=
      ⟨(List.append_nil _).symm, (Nat.zero_add _).symm, rfl⟩
    have hmerges := merges_encode hdiscard here.1 here.2 (fun c hc => ih c hc (hn.inside hc)) hmap
      hall hlen
    rw [mergeBody_of_merges hmerges, mergeBody_of_rest_nil rfl]

/-- A message is decoded from its encoding. -/
theorem decode_encode (hdiscard : options.discardUnknown = false)
    (hpartial : options.allowPartial = true) {m : Message}
    (h : m.Sound (Foreign options.depthLimit) 0) (hn : m.NestsWithin options.depthLimit 0)
    (hlen : m.encode.length < 2 ^ 64) : decode options m.type m.encode = .ok m.inBytes := by
  have hbody := (readsBack hdiscard h hn).2 hlen
  obtain ⟨u, hmerges, hu, -⟩ := mergeBody_eq_ok.1 hbody
  exact (decode_partial hpartial).2 (merge_eq_ok.2 ⟨u, hmerges, hu⟩)

end Message

/-! ## Messages whose payloads are in bytes -/

theorem Slot.map_nested {s : Slot Message} (h : ∀ p, s ≠ .payload p) :
    s.nested.map Prod.snd = s.children := by
  have hsnd (level : Nat) : Prod.snd ∘ (fun m : Message => (level, m)) = id := rfl
  cases s with
  | payload p => exact absurd rfl (h p)
  | plain _ | packed _ => rfl
  | _ => simp only [nested, children, List.map_flatMap, List.map_map, hsnd, List.map_id]

theorem Slot.inBytes_of_nested {s : Slot Message} (hp : ∀ p, s ≠ .payload p)
    (h : ∀ c ∈ s.nested, c.2.inBytes = c.2) : s.inBytes = s := by
  have hs : s.serialized Message.encode = s := by
    cases s with
    | payload p => exact absurd rfl (hp p)
    | _ => rfl
  have hid : ∀ m ∈ s.children, m.inBytes = id m := by
    intro m hm
    rw [← map_nested hp] at hm
    obtain ⟨c, hc, rfl⟩ := List.mem_map.1 hm
    exact h c hc
  rw [inBytes, hs, mapMessages_congr hid, mapMessages_id]

namespace Message

/-- A message that is no `Any` and carries none has its payloads in bytes. -/
theorem Sound.inBytes_eq_self {U : Nat → MessageType → Bytes → Prop} {d : Nat} {m : Message}
    (h : m.Sound U d) (ht : m.type ≠ .node) (ha : m.type ≠ .any) : m.inBytes = m := by
  induction h with
  | @intro d m here _ ih =>
    have hslots : m.slots.map Slot.inBytes = m.slots := by
      refine (List.map_congr_left fun s hs => ?_).trans (List.map_id _)
      obtain ⟨member, hmember, hfits⟩ := here.1.exists_member hs
      refine Slot.inBytes_of_nested ?_ ?_
      · rintro p rfl
        cases member with
        | payload number name => exact ha (MessageType.eq_any_of_payload hmember)
        | _ => exact hfits.elim
      · intro c hc
        obtain ⟨hnode, hany, -⟩ := MessageType.height_nested ht hmember (hfits.type_mem hc)
        exact ih c (List.mem_flatMap.2 ⟨s, hs, hc⟩) hnode hany
    rw [inBytes_eq, hslots]
    cases m
    rfl

/-- An `Any` that fits has a URL and a payload. -/
theorem Fits.eq_make {m : Message} (h : m.Fits) (ha : m.type = .any) :
    ∃ url p, m = Any.make url p m.unknown := by
  obtain ⟨type, slots, unknown⟩ := m
  obtain rfl : type = .any := ha
  have hslots := h.forall₂
  cases hslots with
  | @cons _ s _ slots hs hslots =>
    cases hslots with
    | @cons _ p _ slots hp hslots =>
      cases hslots
      cases s with
      | plain x =>
        cases p with
        | payload p =>
          cases x with
          | string url => exact ⟨url, p, rfl⟩
          | _ => cases hs
        | _ => exact hp.elim
      | _ => exact hs.elim

end Message

namespace Any

theorem url_inBytes (any : Message) : url any.inBytes = url any := by
  rw [Message.inBytes_eq, url, url]
  cases any.slots with
  | nil => rfl
  | cons s slots =>
    cases s with
    | plain x => cases x <;> rfl
    | _ => rfl

theorem value_inBytes (any : Message) : value any.inBytes = value any := by
  have hbytes : Message.toBytes = Message.encode := funext Message.toBytes_eq
  rw [Message.inBytes_eq, value, value, payload, payload, hbytes]
  rcases any.slots with _ | ⟨s, _ | ⟨p, _ | _⟩⟩
  · rfl
  · rfl
  · cases p <;> rfl
  · cases p <;> rfl

end Any

/-! ## Messages that arise -/

namespace Message

/-- The two messages are the same; what an `Any` carries is compared in bytes. -/
def SameAs (m m' : Message) : Prop :=
  if m.type = .any then
    m'.type = .any ∧ Any.url m = Any.url m' ∧ Any.value m = Any.value m' ∧ m.unknown = m'.unknown
  else m = m'

theorem SameAs.symm {m m' : Message} (h : m.SameAs m') : m'.SameAs m := by
  unfold SameAs at h ⊢
  split at h
  · rename_i ha
    obtain ⟨ha', hurl, hvalue, hunknown⟩ := h
    rw [if_pos ha']
    exact ⟨ha, hurl.symm, hvalue.symm, hunknown.symm⟩
  · rename_i ha
    rw [← h, if_neg ha]

theorem SameAs.trans {m m' m'' : Message} (h : m.SameAs m') (h' : m'.SameAs m'') :
    m.SameAs m'' := by
  unfold SameAs at h h' ⊢
  split at h
  · rename_i ha
    obtain ⟨ha', hurl, hvalue, hunknown⟩ := h
    rw [if_pos ha'] at h'
    obtain ⟨ha'', hurl', hvalue', hunknown'⟩ := h'
    rw [if_pos ha]
    exact ⟨ha'', hurl.trans hurl', hvalue.trans hvalue', hunknown.trans hunknown'⟩
  · rename_i ha
    rw [← h, if_neg ha] at h'
    rw [if_neg ha, ← h']

theorem Sound.inBytes_sameAs {U : Nat → MessageType → Bytes → Prop} {d : Nat} {m : Message}
    (h : m.Sound U d) (ht : m.type ≠ .node) : m.inBytes.SameAs m := by
  by_cases ha : m.type = .any
  · have ha' : m.inBytes.type = .any := by rw [inBytes_eq, ha]
    rw [SameAs, if_pos ha']
    exact ⟨ha, Any.url_inBytes m, Any.value_inBytes m, by rw [inBytes_eq]⟩
  · rw [SameAs, h.inBytes_eq_self ht ha, if_neg ha]

/-- The message is one of the type that was built without unknown fields, or one that was
decoded. -/
def Arises (type : MessageType) (m : Message) : Prop :=
  (m.type = type ∧ m.Sound (fun _ _ unknown => unknown = []) 0) ∨
    ∃ bytes, decode { allowPartial := true } type bytes = .ok m

/-- In a message that arises, all unknown fields are foreign. -/
theorem Arises.sound {type : MessageType} {m : Message} (h : m.Arises type) :
    m.type = type ∧ m.Sound (Foreign 100) 0 := by
  rcases h with ⟨ht, hm⟩ | ⟨bytes, hdecode⟩
  · refine ⟨ht, hm.imp ?_⟩
    rintro d c ⟨hfits, hunknown⟩
    rw [hunknown]
    exact ⟨hfits, foreign_nil 100 d c.type⟩
  · exact sound_of_decode hdecode

theorem Arises.decode_encode {type : MessageType} (ht : type ≠ .node) {m : Message}
    (h : m.Arises type) (hlen : m.encode.length < 2 ^ 64) :
    decode { allowPartial := true } type m.encode = .ok m.inBytes := by
  obtain ⟨rfl, hm⟩ := h.sound
  have hheight : 0 + m.type.height ≤ 100 := by
    have all : ∀ type : MessageType, 0 + type.height ≤ 100 := by
      intro type
      cases type <;> decide
    exact all m.type
  exact Message.decode_encode rfl rfl hm (hm.nestsWithin ht hheight) hlen

/-- A message that arises is encoded. If its size is a number of 64 bits, as the sizes of buffers
are, the bytes are decoded to the same message, which has the same bytes again. No other message
that arises has them. -/
theorem round_trip {type : MessageType} (ht : type ≠ .node) {m : Message} (hm : m.Arises type)
    (hlen : m.encodedLen < 2 ^ 64) :
    ∃ bytes m', m.serialize true = .ok bytes ∧
      decode { allowPartial := true } type bytes = .ok m' ∧ m'.SameAs m ∧
      m'.serialize true = .ok bytes ∧
      ∀ n : Message, n.Arises type → n.serialize true = .ok bytes → n.SameAs m := by
  have hserialize : ∀ n : Message, n.serialize true = .ok n.encode := by
    intro n
    rw [serialize, checked, Bool.true_or, if_pos rfl]
    exact congrArg Except.ok n.toBytes_eq
  have hlen : m.encode.length < 2 ^ 64 := by
    rwa [encodedLen_eq] at hlen
  have hsame : ∀ n : Message, n.Arises type → n.inBytes.SameAs n := by
    intro n hn
    obtain ⟨htype, hsound⟩ := hn.sound
    exact hsound.inBytes_sameAs (htype ▸ ht)
  have hdecode := hm.decode_encode ht hlen
  refine ⟨m.encode, m.inBytes, hserialize m, hdecode, hsame m hm, ?_, ?_⟩
  · rw [hserialize, encode_inBytes]
  · intro n hn hbytes
    rw [hserialize] at hbytes
    have hbytes : n.encode = m.encode := Except.ok.inj hbytes
    have hdecode' := hn.decode_encode ht (hbytes ▸ hlen)
    rw [hbytes, hdecode] at hdecode'
    have heq : m.inBytes = n.inBytes := Except.ok.inj hdecode'
    have hn := (hsame n hn).symm
    rw [← heq] at hn
    exact hn.trans (hsame m hm)

/-- In an input, keys descend, and a number that is not declared stands before a padded one. -/
theorem round_trip_requiredForeign :
    ∃ m : Message, decode { allowPartial := true } .requiredForeign
        [34, 2, 8, 2, 34, 2, 8, 1, 10, 5, 16, 1, 8, 137, 0] = .ok m ∧ m.encodedLen < 2 ^ 64 ∧
      ∃ bytes m', m.serialize true = .ok bytes ∧
        decode { allowPartial := true } .requiredForeign bytes = .ok m' ∧ m'.SameAs m ∧
        m'.serialize true = .ok bytes := by
  have hlen : encodedLen ⟨.requiredForeign,
      [.optional (some (.message ⟨.required,
          [.optional (some (.scalar (.int32 9))), .optional none, .optional none], [16, 1]⟩)),
        .repeated [], .optional none,
        .map [(.int32 1, .message (.new .required)), (.int32 2, .message (.new .required))],
        .optional none], []⟩ < 2 ^ 64 := by
    simp [encode_eq, visits, MessageType.visits, MessageType.members, Member.requiredScalar,
      Member.optionalScalar, Member.optionalMessage, Message.new, Member.initial, Member.visits,
      Visit.encode, Visit.length_delimited, FieldValue.encode, FieldValue.ofValue,
      Tag.length_encode, Varint.length_encode, Scalar.length_encode]
    decide
  obtain ⟨bytes, m', hbytes, hm', hsame, hagain, -⟩ := round_trip (by decide) (Or.inr ⟨
    [34, 2, 8, 2, 34, 2, 8, 1, 10, 5, 16, 1, 8, 137, 0], rfl⟩ : Arises .requiredForeign _) hlen
  exact ⟨_, rfl, hlen, bytes, m', hbytes, hm', hsame, hagain⟩

end Message

end Protobuf
