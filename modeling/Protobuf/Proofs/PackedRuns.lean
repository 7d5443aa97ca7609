import Protobuf.Proofs.Commuting
import Protobuf.Proofs.RequiredFields

/-!
# Packed runs and single values

The numbers of a packed field may come in runs and one by one, with other fields between them: all of
them are kept in their order, and written in one run (`Message.decode_packed`). A run that ends
inside a number is an error, whatever stands behind it.
-/

namespace Protobuf

open Build Reader

/-! ## Cut varints -/

namespace Varint

/-- The bytes begin a varint, and others of it are missing. -/
def CutShort (bytes : Bytes) : Prop :=
  bytes ≠ [] ∧ ∃ missing n, missing ≠ [] ∧ StandsFor (bytes ++ missing) n

theorem Groups.more_of_append {a b : Bytes} {n : Nat} (h : Groups (a ++ b) n) (hb : b ≠ []) :
    ∀ byte ∈ a, 128 ≤ byte := by
  induction a generalizing n with
  | nil => exact List.forall_mem_nil _
  | cons byte a ih =>
    rw [List.cons_append] at h
    generalize hrest : a ++ b = rest at h
    cases h with
    | last _ => exact absurd (List.append_eq_nil_iff.1 hrest).2 hb
    | more hmore hothers =>
      subst hrest
      exact List.forall_mem_cons.2 ⟨hmore, ih hothers⟩

theorem decodeFrom_of_more {bytes : Bytes} (h : ∀ byte ∈ bytes, 128 ≤ byte) {count : Nat}
    {value : UInt64} (hlen : count + bytes.length < maxLength) :
    decodeFrom count value bytes = .error (.truncated (count + bytes.length)) := by
  induction bytes generalizing count value with
  | nil =>
    rw [List.length_nil, Nat.add_zero] at hlen ⊢
    rw [decodeFrom, if_neg (by omega)]
  | cons byte bytes ih =>
    obtain ⟨hbyte, hbytes⟩ := List.forall_mem_cons.1 h
    rw [List.length_cons] at hlen ⊢
    rw [decodeFrom_cons (by omega), if_neg (UInt8.not_lt.2 hbyte), ih hbytes (by omega),
      Nat.add_assoc, Nat.add_comm 1]

theorem decode_of_cutShort {bytes : Bytes} (h : CutShort bytes) :
    decode bytes = .error (.truncated bytes.length) := by
  obtain ⟨-, missing, n, hmissing, m, hgroups, hlen, -⟩ := h
  have hpos := List.length_pos_iff.2 hmissing
  rw [List.length_append] at hlen
  rw [decode, decodeFrom_of_more (hgroups.more_of_append hmissing) (by omega), Nat.zero_add]

end Varint

namespace Reader

theorem rawVarint_of_cutShort {r : Reader} (h : Varint.CutShort r.rest) :
    rawVarint r = .error (.truncated r.stop) r := by
  rw [rawVarint, run_bind_of_ok (run_get r), Varint.decode_of_cutShort h]
  rfl

theorem scalar_of_cutShort {kind : ScalarKind} (hk : kind.wireType = .varint) {tag : Tag}
    (ht : tag.wireType = .varint) {r : Reader} (h : Varint.CutShort r.rest) :
    scalar kind tag r = .error (.truncated r.stop) r := by
  rw [scalar, hk, run_bind_of_ok (expect_self ht r), run_bind_of_ok (run_get r)]
  refine run_bind_of_error ?_
  rw [wireValue, run_map, rawVarint_of_cutShort h]

end Reader

/-! ## What a packed field takes -/

namespace Member

variable {limit : Nat} {body : MergeBody} {number : Nat} {name : String} {kind : ScalarKind}
  {tag : Tag} {ss : List Scalar} {r t : Reader}

theorem takes_of_spelledBy {items : List (Scalar × Bytes)}
    (h : ∀ x ∈ items, x.1.kind = kind ∧ x.1.SpelledBy x.2) {d : Nat} :
    ∀ x ∈ items,
      Takes d (scalar kind (tag.withWireType kind.wireType)) x.2 x.1 ∧ 0 < x.2.length := by
  intro x hx
  obtain ⟨hk, hs⟩ := h x hx
  exact ⟨takes_scalar_of_spelledBy hk rfl hs, hs.length_pos⟩

/-- The scalars of a run go behind those that are there. -/
theorem merge_packed_of_run (hw : kind.wireType ≠ .lengthDelimited)
    (ht : tag.wireType = .lengthDelimited) {items : List (Scalar × Bytes)}
    (hitems : ∀ x ∈ items, x.1.kind = kind ∧ x.1.SpelledBy x.2) {header : Bytes}
    (hlen : Varint.StandsFor header (items.flatMap Prod.snd).length)
    (hr : r.Consumes (header ++ items.flatMap Prod.snd) t) :
    (packed number name kind).merge limit body tag (.packed ss, r) =
      .ok () (.packed (ss ++ items.map Prod.fst), t) := by
  have hrun : Reader.repeated kind.wireType (scalar kind) tag (ss, r) = _ :=
    repeated_of_takes ht hw (takes_of_spelledBy hitems) ss (Varint.spells_iff.2 hlen) rfl hr
  exact zoom_eq_ok.2 ⟨_, hrun, rfl⟩

/-- A scalar by itself goes behind those that are there. -/
theorem merge_packed_of_scalar (hw : kind.wireType ≠ .lengthDelimited)
    (ht : tag.wireType = kind.wireType) {s : Scalar} (hk : s.kind = kind) {bytes : Bytes}
    (hs : s.SpelledBy bytes) (hr : r.Consumes bytes t) :
    (packed number name kind).merge limit body tag (.packed ss, r) =
      .ok () (.packed (ss ++ [s]), t) := by
  have hread := takes_scalar_of_spelledBy hk ht hs r t rfl hr
  have hone : Reader.repeated kind.wireType (scalar kind) tag (ss, r) = .ok () (ss ++ [s], t) := by
    rw [Reader.repeated, if_neg fun h => hw (ht.symm.trans h.1),
      run_bind_of_ok (read_eq_ok.2 ⟨hread, rfl⟩)]
    rfl
  exact zoom_eq_ok.2 ⟨_, hone, rfl⟩

/-- A run that ends inside a scalar fails at its end. The scalars in front of that stay. -/
theorem merge_packed_of_cutShort (hk : kind.wireType = .varint)
    (ht : tag.wireType = .lengthDelimited) {items : List (Scalar × Bytes)}
    (hitems : ∀ x ∈ items, x.1.kind = kind ∧ x.1.SpelledBy x.2) {cut : Bytes}
    (hcut : Varint.CutShort cut) {header : Bytes}
    (hlen : Varint.StandsFor header (items.flatMap Prod.snd ++ cut).length)
    (hr : r.Consumes (header ++ (items.flatMap Prod.snd ++ cut)) t) :
    ∃ u, (packed number name kind).merge limit body tag (.packed ss, r) =
      .error (.truncated t.position) (.packed (ss ++ items.map Prod.fst), u) := by
  have hw : kind.wireType ≠ .lengthDelimited := by
    rw [hk]
    decide
  have hrun : ∃ u, Reader.repeated kind.wireType (scalar kind) tag (ss, r) =
      .error (.truncated t.position) (ss ++ items.map Prod.fst, u) := by
    rw [Reader.repeated, if_pos ⟨ht, hw⟩]
    obtain ⟨u, hd, hrest, hstop, hwithin⟩ := exists_within_of_spells (Varint.spells_iff.2 hlen) hr
    let v : Reader := ⟨cut, u.position + (items.flatMap Prod.snd).length, u.depth⟩
    obtain ⟨rounds, hrounds, helements⟩ := exists_elements (takes_of_spelledBy hitems) ss hd
      (t := v) ⟨hrest, rfl, rfl⟩ (Nat.lt_succ_self u.remaining)
    obtain ⟨rounds, rfl⟩ := Nat.exists_eq_succ_of_ne_zero (n := rounds) (by omega)
    have hscalar : scalar kind (tag.withWireType kind.wireType) v = _ :=
      scalar_of_cutShort hk hk hcut
    have hend : v.stop = t.position := by
      rw [← hstop, List.length_append, ← Nat.add_assoc]
      rfl
    rw [hend] at hscalar
    refine hwithin (v := v) ?_
    rw [run_bind_of_ok (run_source ss u), helements, elements_succ,
      if_neg (show v.rest ≠ [] from hcut.1)]
    exact run_bind_of_error (read_eq_error.2 ⟨hscalar, rfl⟩)
  obtain ⟨u, hrun⟩ := hrun
  exact ⟨u, zoom_eq_error.2 ⟨_, hrun, rfl⟩⟩

end Member

namespace Message

variable {options : DecodeOptions} {m m1 m' : Message} {f : RawField}

/-! ## Fields as the whole input -/

/-- What is merged by itself into one message is merged into every message of its type. -/
theorem Alone.of_type_eq (h : Alone options f m m1) (hm : m.WellTyped) (hm' : m'.WellTyped)
    (htype : m'.type = m.type) : ∃ m1', Alone options f m' m1' := by
  obtain ⟨u, v, htag, hw, hone, hv⟩ := h
  have hbody : mergeBody options none (m, .new f.bytes) = .ok () (m1, v) := by
    rw [mergeBody_cons htag hw hone, mergeBody_of_rest_nil hv]
  obtain ⟨m2, hbody', -⟩ := mergeBody_of_type_eq hm hm' htype hbody
  rw [run_mergeBody, htag] at hbody'
  dsimp only at hbody'
  rw [if_neg hw] at hbody'
  rcases hone' : mergeOne options (mergeBody options) (.new f.bytes) f.tag (m', u) with
    ⟨_, m1', v'⟩ | ⟨e, p⟩
  · -- the field ends at the same place in both
    have hsame := (skip_of_mergeOne hone).symm.trans (skip_of_mergeOne hone')
    cases hsame
    exact ⟨m1', u, v, htag, hw, hone', hv⟩
  · rw [hone'] at hbody'
    cases hbody'

/-- Behind fields that are merged one by one, a reader of the whole input stands in front of what
comes next. -/
theorem MergesEach.merges {fields : List RawField} (h : MergesEach options m fields m1)
    (more : Bytes) :
    Merges options (m, .new (fields.flatMap RawField.bytes ++ more))
      (m1, ⟨more, (fields.flatMap RawField.bytes).length, 0⟩) := by
  obtain ⟨t, hmerges, ht⟩ := merge_eq_ok.1 h.merge
  have hbody := mergeBody_eq_ok.2 ⟨t, hmerges, show Ends none t t from ⟨ht, rfl⟩⟩
  exact merges_of_mergeBody hbody rfl ⟨rfl, (Nat.zero_add _).symm, rfl⟩

/-! ## Fields of packed numbers -/

/-- The number of a varint as a scalar of 32 bits: higher bits are dropped. -/
def packedNumber (v : UInt64) : Scalar := .int32 v.toUInt32.toInt32

/-- Which numbers of the packed field of `Scalars` are in a field of the input. Tags, lengths and
numbers may be spelled in any length. -/
inductive Packs (options : DecodeOptions) : List UInt64 → RawField → Prop
  /-- A run of any length. -/
  | run {tag : Tag} {header length : Bytes} {items : List (UInt64 × Bytes)}
    (packed : tag.number = 16) (framing : tag.wireType = .lengthDelimited)
    (tagged : tag.SpelledBy header)
    (confined : Varint.StandsFor length (items.flatMap Prod.snd).length)
    (numbers : ∀ x ∈ items, Varint.StandsFor x.2 x.1.toNat) :
    Packs options (items.map Prod.fst) ⟨tag, header ++ (length ++ items.flatMap Prod.snd)⟩
  /-- A single number. -/
  | single {tag : Tag} {header bytes : Bytes} {v : UInt64} (packed : tag.number = 16)
    (framing : tag.wireType = .varint) (tagged : tag.SpelledBy header)
    (number : Varint.StandsFor bytes v.toNat) : Packs options [v] ⟨tag, header ++ bytes⟩
  /-- Another field, which by itself is merged into a new message. -/
  | other {f : RawField} {m : Message} (merged : Alone options f (.new .scalars) m)
    (foreign : ¬ (f.tag.number = 16 ∧
      (f.tag.wireType = .varint ∨ f.tag.wireType = .lengthDelimited))) : Packs options [] f

theorem spelledBy_packedNumber {v : UInt64} {bytes : Bytes}
    (h : Varint.StandsFor bytes v.toNat) : (packedNumber v).SpelledBy bytes :=
  ⟨.varint v, rfl, .varint h⟩

/-- The numbers of a run as scalars, with the same bytes. -/
theorem exists_scalars {items : List (UInt64 × Bytes)}
    (h : ∀ x ∈ items, Varint.StandsFor x.2 x.1.toNat) :
    ∃ scalars : List (Scalar × Bytes),
      scalars.flatMap Prod.snd = items.flatMap Prod.snd ∧
      scalars.map Prod.fst = (items.map Prod.fst).map packedNumber ∧
      ∀ x ∈ scalars, x.1.kind = .int32 ∧ x.1.SpelledBy x.2 := by
  refine ⟨items.map fun x => (packedNumber x.1, x.2), List.flatMap_map .., ?_, fun x hx => ?_⟩
  · rw [List.map_map, List.map_map]
    rfl
  · obtain ⟨y, hy, rfl⟩ := List.mem_map.1 hx
    exact ⟨rfl, spelledBy_packedNumber (h y hy)⟩

/-- What a packed field holds in a message of the type. -/
theorem member?_packed :
    member? .scalars (·.hasNumber 16) = some (15, .packed 16 "packed" .int32) :=
  rfl

/-- Another field leaves the packed one as it is. -/
theorem Alone.getElem?_packed (h : Alone options f m m1) (ht : m.type = .scalars)
    (foreign : ¬ (f.tag.number = 16 ∧
      (f.tag.wireType = .varint ∨ f.tag.wireType = .lengthDelimited))) :
    m1.slots[15]? = m.slots[15]? := by
  by_cases ha : m.type.accepts f.tag = true
  · obtain ⟨i, member, s, hi, rfl, -⟩ := h.touches ha
    rw [ht] at hi ha
    have hne : f.tag.number ≠ 16 := by
      intro hn
      rw [hn, member?_packed] at hi
      cases hi
      rw [MessageType.accepts_of_member? (hn ▸ member?_packed)] at ha
      exact foreign ⟨hn, of_decide_eq_true ha⟩
    have htype : MessageType.scalars.HasNoOneof := ⟨by decide, by decide⟩
    exact List.getElem?_set_ne (htype.index_ne hi member?_packed hne)
  · rw [(h.notes ha).1]
    exact congrArg (·[15]?) (agrees_note options f.bytes m).2

/-- A field adds its numbers behind those that are there, and is read up to its end. -/
theorem Packs.alone {vs : List UInt64} (h : Packs options vs f) (ht : m.type = .scalars)
    (hm : m.WellTyped) {ss : List Scalar} (hs : m.slots[15]? = some (.packed ss)) :
    ∃ m1, Alone options f m m1 ∧ m1.slots[15]? = some (.packed (ss ++ vs.map packedNumber)) := by
  have hlt : 15 < m.slots.length := (List.getElem?_eq_some_iff.1 hs).1
  have hmember : ∀ {tag : Tag}, tag.number = 16 →
      member? m.type (·.hasNumber tag.number) = some (15, .packed 16 "packed" .int32) := by
    intro tag hn
    rw [ht, hn]
    exact member?_packed
  cases h with
  | @run tag header length items hn hw htag hlen hnumbers =>
    obtain ⟨scalars, hbytes, hvalues, hscalars⟩ := exists_scalars hnumbers
    refine ⟨_, alone_of_merge (hmember hn) (decide_eq_true (Or.inr hw)) (by rw [hw]; decide) htag
      fun u t _ hu => ?_, List.getElem?_set_self hlt⟩
    rw [← hbytes] at hlen hu
    rw [getD_of_getElem? hs, ← hvalues]
    exact Member.merge_packed_of_run (by decide) hw hscalars hlen hu
  | @single tag header bytes v hn hw htag hnumber =>
    refine ⟨_, alone_of_merge (hmember hn) (decide_eq_true (Or.inl hw)) (by rw [hw]; decide) htag
      fun u t _ hu => ?_, List.getElem?_set_self hlt⟩
    rw [getD_of_getElem? hs]
    exact Member.merge_packed_of_scalar (by decide) hw rfl (spelledBy_packedNumber hnumber) hu
  | other merged foreign =>
    obtain ⟨m1, hm1⟩ := merged.of_type_eq (wellTyped_new .scalars) hm ht
    refine ⟨m1, hm1, ?_⟩
    rw [hm1.getElem?_packed ht foreign, hs, List.map_nil, List.append_nil]

/-- Fields add their numbers one after the other. -/
theorem mergesEach_of_packs {runs : List (List UInt64)} {fields : List RawField}
    (h : List.Forall₂ (Packs options) runs fields) (ht : m.type = .scalars) (hm : m.WellTyped)
    {ss : List Scalar} (hs : m.slots[15]? = some (.packed ss)) :
    ∃ m', MergesEach options m fields m' ∧ m'.type = .scalars ∧ m'.WellTyped ∧
      m'.slots[15]? = some (.packed (ss ++ runs.flatten.map packedNumber)) := by
  induction h generalizing m ss with
  | nil => exact ⟨m, .nil m, ht, hm, by rw [hs, List.flatten_nil, List.map_nil, List.append_nil]⟩
  | @cons vs f runs fields hf _ ih =>
    obtain ⟨m1, hone, hs1⟩ := hf.alone ht hm hs
    obtain ⟨m', hrest, ht', hm', hs'⟩ :=
      ih (hone.type_eq.trans ht) (wellTyped_of_merge hone.merge hm).2 hs1
    refine ⟨m', .cons hone hrest, ht', hm', ?_⟩
    rw [hs', List.flatten_cons, List.map_append, List.append_assoc]

end Message

/-! ## Writing one field -/

theorem flatMap_of_getElem? {α β : Type} {l : List α} {g : α → List β} {i : Nat} {a : α}
    (ha : l[i]? = some a) (hne : ∀ (j : Nat) (b : α), l[j]? = some b → j ≠ i → g b = []) :
    l.flatMap g = g a := by
  induction l generalizing i with
  | nil => cases ha
  | cons b l ih =>
    rw [List.flatMap_cons]
    cases i with
    | zero =>
      obtain rfl := Option.some.inj ha
      have hrest : l.flatMap g = [] := by
        refine List.flatMap_eq_nil_iff.2 fun c hc => ?_
        obtain ⟨j, hj⟩ := List.mem_iff_getElem?.1 hc
        exact hne (j + 1) c hj (Nat.succ_ne_zero j)
      rw [hrest, List.append_nil]
    | succ i =>
      rw [hne 0 b rfl (Nat.succ_ne_zero i).symm, List.nil_append]
      exact ih ha fun j c hc hj => hne (j + 1) c hc fun h => hj (Nat.succ.inj h)

/-- What is written with a number is written for the member with that number. -/
theorem MessageType.filter_visits {type : MessageType} {bytes : Message → Bytes}
    {slots : List (Slot Message)} {i number : Nat} {member : Member} {slot : Slot Message}
    (hmember : type.members[i]? = some member) (hslot : slots[i]? = some slot)
    (hother : ∀ (j : Nat) (other : Member), type.members[j]? = some other → j ≠ i →
      other.hasNumber number = false) :
    (type.visits bytes slots).filter (·.number = number) =
      (member.visits bytes slot).filter (·.number = number) := by
  have hi : (type.members.zip slots)[i]? = some (member, slot) :=
    List.getElem?_zip_eq_some.2 ⟨hmember, hslot⟩
  rw [visits, List.filter_flatMap]
  refine flatMap_of_getElem? hi fun j b hb hj => ?_
  obtain ⟨hb, -⟩ := List.getElem?_zip_eq_some.1 hb
  refine List.filter_eq_nil_iff.2 fun v hv hn => ?_
  have hnumber := Member.hasNumber_of_mem_visits hv
  rw [of_decide_eq_true hn, hother j b.1 hb hj] at hnumber
  cases hnumber

namespace Message

variable {options : DecodeOptions} {m : Message}

/-- The numbers of a packed field are written in one run, or not at all if there are none. -/
theorem filter_visits_packed (ht : m.type = .scalars) {ss : List Scalar}
    (hs : m.slots[15]? = some (.packed ss)) :
    m.visits.filter (·.number = 16) = if ss = [] then [] else [.packed 16 "packed" ss] := by
  have hother : ∀ (j : Nat) (other : Member), m.type.members[j]? = some other → j ≠ 15 →
      other.hasNumber 16 = false := by
    have all : ∀ j < MessageType.scalars.members.length, j ≠ 15 →
        (MessageType.scalars.members[j]?.all fun other => other.hasNumber 16 = false) = true := by
      decide
    intro j other hj hne
    rw [ht] at hj
    have hlt := (List.getElem?_eq_some_iff.1 hj).1
    have h := all j hlt hne
    rw [hj] at h
    exact of_decide_eq_true h
  have hmember : m.type.members[15]? = some (.packed 16 "packed" .int32) := by
    rw [ht]
    rfl
  rw [visits, MessageType.filter_visits hmember hs hother]
  cases ss <;> rfl

/-! ## Messages that require nothing -/

/-- If neither the type of a message nor any type inside it requires a field, nothing is missing. -/
theorem isInitialized_of_types (types : List MessageType)
    (h : ∀ type ∈ types, type ≠ .any ∧ ∀ member ∈ type.members,
      member.requirementMet (.optional none : Slot Message) = true ∧
        ∀ c ∈ member.nested, c.2 ∈ types)
    {U : Nat → MessageType → Bytes → Prop} {d : Nat} (hm : m.Sound U d) (ht : m.type ∈ types) :
    m.isInitialized = true := by
  induction hm with
  | @intro d m here _ ih =>
    obtain ⟨hany, hmembers⟩ := h m.type ht
    rw [isInitialized_eq, Bool.and_eq_true, List.all_eq_true, requiredSet_iff]
    refine ⟨?_, fun c hc => ?_⟩
    · rintro field ⟨i, hi, -⟩
      exact Bool.false_ne_true (hmembers _ (List.mem_of_getElem? hi)).1
    · obtain ⟨s, hs, hc⟩ := List.mem_flatMap.1 hc
      obtain ⟨member, hmember, hfits⟩ := here.1.exists_member hs
      have hpayload : ∀ p, s ≠ .payload p := by
        rintro p rfl
        cases member with
        | payload number name => exact hany (MessageType.eq_any_of_payload hmember)
        | _ => exact hfits.elim
      rw [← Slot.map_nested hpayload] at hc
      obtain ⟨c, hnested, rfl⟩ := List.mem_map.1 hc
      exact ih c (List.mem_flatMap.2 ⟨s, hs, hnested⟩)
        ((hmembers member hmember).2 _ (hfits.type_mem hnested))

theorem isInitialized_scalars (ht : m.type = .scalars) (hm : m.WellTyped) :
    m.isInitialized = true := by
  refine isInitialized_of_types [.scalars, .inner] ?_ (hm.sound 0) ?_
  · decide
  · rw [ht]
    decide

/-! ## Decoding packed fields -/

variable {runs : List (List UInt64)} {fields : List RawField}

/-- A run that ends inside a number cannot be merged, whatever stands behind it. The numbers in front
of that one are kept. -/
theorem merge_of_cutShort (ht : m.type = .scalars) {ss : List Scalar}
    (hs : m.slots[15]? = some (.packed ss)) {tag : Tag} (hn : tag.number = 16)
    (hw : tag.wireType = .lengthDelimited) {header length cut : Bytes}
    {items : List (UInt64 × Bytes)} (htag : tag.SpelledBy header)
    (hlen : Varint.StandsFor length (items.flatMap Prod.snd ++ cut).length)
    (hnumbers : ∀ x ∈ items, Varint.StandsFor x.2 x.1.toNat) (hcut : Varint.CutShort cut)
    (behind : Bytes) :
    merge options (header ++ (length ++ (items.flatMap Prod.snd ++ cut)) ++ behind) m =
      .error (.truncated (header ++ (length ++ (items.flatMap Prod.snd ++ cut))).length)
        { m with
          slots := m.slots.set 15 (.packed (ss ++ (items.map Prod.fst).map packedNumber)) } := by
  obtain ⟨scalars, hbytes, hvalues, hscalars⟩ := exists_scalars hnumbers
  have hmember : member? m.type (·.hasNumber tag.number) =
      some (15, .packed 16 "packed" .int32) := by
    rw [ht, hn]
    exact member?_packed
  rw [← hbytes] at hlen
  rw [← hbytes, ← hvalues]
  have hend : tag.wireType ≠ .endGroup := by
    rw [hw]
    decide
  obtain ⟨u, t, -, hu, ht, hmerge⟩ := merge_of_merge_error options hmember
    (decide_eq_true (Or.inr hw)) hend htag (length ++ (scalars.flatMap Prod.snd ++ cut)) behind
  obtain ⟨v, hv⟩ := Member.merge_packed_of_cutShort rfl hw hscalars hcut hlen hu
  rw [getD_of_getElem? hs] at hmerge
  rw [hmerge hv, ht]

/-- Packed runs and single numbers mix freely, with other fields between them. All numbers are
decoded, in their order and cut down to 32 bits, and each field is read up to its exact end. They are
written in one run, or not at all if there are none. And a run that ends inside a number fails at
its end, whatever stands behind it. -/
theorem decode_packed (h : List.Forall₂ (Packs options) runs fields) :
    (∃ i m, decode options .scalars (fields.flatMap RawField.bytes) = .ok m ∧
      member? .scalars (·.hasNumber 16) = some (i, .packed 16 "packed" .int32) ∧
      m.slots[i]? = some (.packed (runs.flatten.map packedNumber)) ∧
      (∀ front back, fields = front ++ back →
        ∃ m1, Merges options (.new .scalars, .new (fields.flatMap RawField.bytes))
          (m1, ⟨back.flatMap RawField.bytes, (front.flatMap RawField.bytes).length, 0⟩)) ∧
      m.serialize false = .ok (m.visits.flatMap (Visit.encode encode) ++ m.unknown) ∧
      m.visits.filter (·.number = 16) =
        if runs.flatten = [] then []
        else [.packed 16 "packed" (runs.flatten.map packedNumber)]) ∧
    ∀ (tag : Tag) (header length cut behind : Bytes) (items : List (UInt64 × Bytes)),
      tag.number = 16 → tag.wireType = .lengthDelimited → tag.SpelledBy header →
      Varint.StandsFor length (items.flatMap Prod.snd ++ cut).length →
      (∀ x ∈ items, Varint.StandsFor x.2 x.1.toNat) → Varint.CutShort cut →
      decode options .scalars (fields.flatMap RawField.bytes ++
          (header ++ (length ++ (items.flatMap Prod.snd ++ cut)) ++ behind)) =
        .error (.truncated (fields.flatMap RawField.bytes ++
          (header ++ (length ++ (items.flatMap Prod.snd ++ cut)))).length) := by
  obtain ⟨m, hmerges, ht, hm, hs⟩ := mergesEach_of_packs h rfl (wellTyped_new .scalars) rfl
  have hinit := isInitialized_scalars ht hm
  constructor
  · refine ⟨15, m, ?_, member?_packed, hs, ?_, ?_, ?_⟩
    · rw [decode, hmerges.merge]
      dsimp only
      rw [checked, hinit, Bool.or_true, if_pos rfl]
    · rintro front back rfl
      obtain ⟨m1, hfront, -⟩ := hmerges.of_append
      rw [List.flatMap_append]
      exact ⟨m1, hfront.merges _⟩
    · rw [serialize, checked, hinit, Bool.or_true, if_pos rfl, ← encode_eq]
      exact congrArg Except.ok (toBytes_eq m)
    · rw [filter_visits_packed ht hs, List.nil_append]
      simp only [List.map_eq_nil_iff]
  · intro tag header length cut behind items hn hw htag hlen hnumbers hcut
    rw [decode, merge_append hmerges.merge,
      merge_of_cutShort ht hs hn hw htag hlen hnumbers hcut behind]
    dsimp only
    rw [Error.shift, ← List.length_append]

/-- A run with a padded number, another field, a number of more than 32 bits, and an empty run. A
further run ends inside a number that goes on behind it. -/
theorem decode_packed_scalars :
    let bytes := [130, 1, 3, 5, 129, 0, 8, 1, 128, 1, 135, 128, 128, 128, 16, 130, 1, 0]
    (∃ m, decode {} .scalars bytes = .ok m ∧
      m.slots[15]? = some (.packed [.int32 5, .int32 1, .int32 7]) ∧
      m.visits.filter (·.number = 16) =
        [.packed 16 "packed" [.int32 5, .int32 1, .int32 7]]) ∧
    decode {} .scalars (bytes ++ [130, 1, 2, 5, 129, 0, 8, 1]) = .error (.truncated 23) := by
  have stands : ∀ {bytes : Bytes} {v : UInt64}, Varint.decode bytes = .ok (v, bytes.length) →
      Varint.StandsFor bytes v.toNat :=
    fun h => Varint.spells_iff.1 ⟨_, rfl, h⟩
  let packed : Tag := ⟨16, .lengthDelimited, by decide⟩
  let first : RawField := ⟨packed, [130, 1, 3, 5, 129, 0]⟩
  let second : RawField := ⟨⟨1, .varint, by decide⟩, [8, 1]⟩
  let third : RawField := ⟨⟨16, .varint, by decide⟩, [128, 1, 135, 128, 128, 128, 16]⟩
  let fourth : RawField := ⟨packed, [130, 1, 0]⟩
  have hfirst : Packs {} [5, 1] first :=
    @Packs.run {} packed [130, 1] [3] [(5, [5]), (1, [129, 0])] rfl rfl (stands (v := 130) rfl)
      (stands (v := 3) rfl)
      (List.forall_mem_cons.2 ⟨stands rfl, List.forall_mem_singleton.2 (stands rfl)⟩)
  have hsecond : Packs {} [] second := .other ⟨_, _, rfl, by decide, rfl, rfl⟩ (by decide)
  have hthird : Packs {} [4294967303] third :=
    @Packs.single {} ⟨16, .varint, by decide⟩ [128, 1] [135, 128, 128, 128, 16] 4294967303 rfl rfl
      (stands (v := 128) rfl) (stands rfl)
  have hfourth : Packs {} [] fourth :=
    @Packs.run {} packed [130, 1] [0] [] rfl rfl (stands (v := 130) rfl) (stands (v := 0) rfl)
      (List.forall_mem_nil _)
  obtain ⟨⟨i, m, hdecode, hi, hslot, -, -, hvisits⟩, hcut⟩ := decode_packed
    (List.Forall₂.cons hfirst (.cons hsecond (.cons hthird (.cons hfourth .nil))))
  cases hi
  have hshort : Varint.CutShort [129] := ⟨by decide, [0], 1, by decide, stands (v := 1) rfl⟩
  exact ⟨⟨m, hdecode, hslot, hvisits⟩,
    hcut packed [130, 1] [2] [129] [0, 8, 1] [(5, [5])] rfl rfl (stands (v := 130) rfl)
      (stands (v := 2) rfl) (List.forall_mem_singleton.2 (stands rfl)) hshort⟩

end Message

end Protobuf
