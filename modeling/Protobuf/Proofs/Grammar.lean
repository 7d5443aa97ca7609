import Protobuf.Proofs.RawFields
import Protobuf.Proofs.Spelling

/-!
# The grammar of fields

Which bytes are the value of a field, and which are fields one behind the other, told without a
reader: a group consists of fields and an end tag, and each group around a field takes up a level.
What can be skipped at some place is what the grammar allows there (`Reader.skip_eq_ok_iff`).
-/

namespace Protobuf

open Reader

/-! ## Tags and framed values -/

/-- The bytes are a varint of the tag. -/
def Tag.SpelledBy (tag : Tag) (bytes : Bytes) : Prop := Varint.StandsFor bytes tag.raw

/-- The bytes are a framed value. -/
inductive WireValue.SpelledBy : WireValue → Bytes → Prop
  /-- A varint of the number. -/
  | varint {value : UInt64} {bytes : Bytes} (number : Varint.StandsFor bytes value.toNat) :
    SpelledBy (.varint value) bytes
  /-- Eight bytes, least significant one first. -/
  | fixed64 {bytes : Bytes} (eight : bytes.length = 8) :
    SpelledBy (.fixed64 (UInt64.ofNat (Bytes.toNat bytes))) bytes
  /-- A varint of the length, and as many bytes. -/
  | lengthDelimited {header payload : Bytes} (length : Varint.StandsFor header payload.length) :
    SpelledBy (.lengthDelimited payload) (header ++ payload)
  /-- Four bytes, least significant one first. -/
  | fixed32 {bytes : Bytes} (four : bytes.length = 4) :
    SpelledBy (.fixed32 (UInt32.ofNat (Bytes.toNat bytes))) bytes

theorem Varint.StandsFor.length_pos {bytes : Bytes} {n : Nat} (h : StandsFor bytes n) :
    0 < bytes.length := by
  obtain ⟨m, hm, -⟩ := h
  cases hm <;> exact Nat.succ_pos _

theorem Tag.SpelledBy.length_pos {tag : Tag} {bytes : Bytes} (h : tag.SpelledBy bytes) :
    0 < bytes.length :=
  Varint.StandsFor.length_pos h

theorem WireValue.SpelledBy.length_pos {v : WireValue} {bytes : Bytes} (h : v.SpelledBy bytes) :
    0 < bytes.length := by
  cases h with
  | varint number => exact number.length_pos
  | fixed64 eight => omega
  | fixed32 four => omega
  | lengthDelimited length =>
    rw [List.length_append]
    exact Nat.add_pos_left length.length_pos _

/-- The bytes are the scalar without its tag. -/
def Scalar.SpelledBy (s : Scalar) (bytes : Bytes) : Prop :=
  ∃ v : WireValue, s.kind.ofWire? v = some s ∧ v.SpelledBy bytes

theorem Scalar.SpelledBy.length_pos {s : Scalar} {bytes : Bytes} (h : s.SpelledBy bytes) :
    0 < bytes.length := by
  obtain ⟨v, -, hbytes⟩ := h
  exact hbytes.length_pos

theorem Tag.ofRaw_eq_ok {raw : Nat} {tag : Tag} : ofRaw raw = .ok tag ↔ tag.raw = raw := by
  constructor
  · intro h
    unfold ofRaw at h
    split at h
    · cases h
    · rename_i wireType hcode
      split at h
      · cases h
        have hcode := WireType.code_of_ofCode? hcode
        change 8 * (raw / 8) + wireType.code = raw
        omega
      · cases h
  · rintro rfl
    exact ofRaw_rawOf tag.wireType tag.valid

namespace Reader

variable {r t : Reader}

theorem rawVarint_eq_ok_iff {v : UInt64} :
    rawVarint r = .ok v t ↔ ∃ bytes, Varint.StandsFor bytes v.toNat ∧ r.Consumes bytes t := by
  constructor
  · intro h
    obtain ⟨k, hk, rfl⟩ := rawVarint_eq_ok.1 h
    obtain ⟨front, rest, hrest, rfl, hfront⟩ := Varint.decode_eq_ok_iff.1 hk
    have hr := consumes_advance (r := r) (Varint.length_of_decode hk).2
    rw [hrest, List.take_left] at hr
    exact ⟨front, hfront, hr⟩
  · rintro ⟨bytes, hbytes, hr⟩
    have hdecode := Varint.decode_eq_ok_iff.2 ⟨bytes, t.rest, hr.1, rfl, hbytes⟩
    exact rawVarint_eq_ok.2 ⟨bytes.length, hdecode, hr.eq_advance⟩

/-- A tag is read where a varint of it stands. -/
theorem nextTag_eq_some_iff {tag : Tag} :
    nextTag r = .ok (some tag) t ↔ ∃ bytes, tag.SpelledBy bytes ∧ r.Consumes bytes t := by
  rw [nextTag_eq_some]
  constructor
  · rintro ⟨v, hv, htag⟩
    obtain ⟨bytes, hbytes, hr⟩ := rawVarint_eq_ok_iff.1 hv
    rw [← Tag.ofRaw_eq_ok.1 htag] at hbytes
    exact ⟨bytes, hbytes, hr⟩
  · rintro ⟨bytes, hbytes, hr⟩
    have hlt := Tag.rawOf_lt tag.wireType tag.valid
    have hv : (UInt64.ofNat tag.raw).toNat = tag.raw := UInt64.toNat_ofNat_of_lt hlt
    rw [Tag.SpelledBy, ← hv] at hbytes
    exact ⟨_, rawVarint_eq_ok_iff.2 ⟨bytes, hbytes, hr⟩, Tag.ofRaw_eq_ok.2 hv.symm⟩

theorem word_eq_ok_iff {width n : Nat} :
    word width r = .ok n t ↔
      ∃ bytes, bytes.length = width ∧ n = Bytes.toNat bytes ∧ r.Consumes bytes t := by
  constructor
  · intro h
    obtain ⟨hle, rfl, rfl⟩ := word_eq_ok.1 h
    exact ⟨_, List.length_take_of_le hle, rfl, consumes_advance hle⟩
  · rintro ⟨bytes, rfl, rfl, hr⟩
    exact takes_word r t rfl hr

theorem delimited_eq_ok_iff {payload : Bytes} :
    delimited r = .ok payload t ↔
      ∃ header, Varint.StandsFor header payload.length ∧ r.Consumes (header ++ payload) t := by
  constructor
  · intro h
    obtain ⟨n, u, hlength, rfl, rfl⟩ := delimited_eq_ok.1 h
    obtain ⟨v, hv, rfl, hle⟩ := length_eq_ok.1 hlength
    obtain ⟨header, hheader, hr⟩ := rawVarint_eq_ok_iff.1 hv
    have hlen : (u.rest.take v.toNat).length = v.toNat := List.length_take_of_le hle
    exact ⟨header, by rwa [hlen], hr.append (consumes_advance hle)⟩
  · rintro ⟨header, hheader, hr⟩
    exact takes_delimited (Varint.spells_iff.2 hheader) r t rfl hr

/-- A framed value is read where its bytes stand. -/
theorem wireValue_eq_ok_iff {wireType : WireType} {v : WireValue} :
    wireValue wireType r = .ok v t ↔
      v.wireType = wireType ∧ ∃ bytes, v.SpelledBy bytes ∧ r.Consumes bytes t := by
  constructor
  · intro h
    cases wireType with
    | varint =>
      obtain ⟨value, hvalue, rfl⟩ := map_eq_ok.1 h
      obtain ⟨bytes, hbytes, hr⟩ := rawVarint_eq_ok_iff.1 hvalue
      exact ⟨rfl, bytes, .varint hbytes, hr⟩
    | fixed64 =>
      obtain ⟨n, hn, rfl⟩ := map_eq_ok.1 h
      obtain ⟨bytes, hlen, rfl, hr⟩ := word_eq_ok_iff.1 hn
      exact ⟨rfl, bytes, .fixed64 hlen, hr⟩
    | fixed32 =>
      obtain ⟨n, hn, rfl⟩ := map_eq_ok.1 h
      obtain ⟨bytes, hlen, rfl, hr⟩ := word_eq_ok_iff.1 hn
      exact ⟨rfl, bytes, .fixed32 hlen, hr⟩
    | lengthDelimited =>
      obtain ⟨payload, hpayload, rfl⟩ := map_eq_ok.1 h
      obtain ⟨header, hheader, hr⟩ := delimited_eq_ok_iff.1 hpayload
      exact ⟨rfl, _, .lengthDelimited hheader, hr⟩
    | startGroup | endGroup => cases h
  · rintro ⟨rfl, bytes, hbytes, hr⟩
    cases hbytes with
    | varint hvalue => exact map_eq_ok.2 ⟨_, rawVarint_eq_ok_iff.2 ⟨_, hvalue, hr⟩, rfl⟩
    | fixed64 hlen => exact map_eq_ok.2 ⟨_, word_eq_ok_iff.2 ⟨_, hlen, rfl, hr⟩, rfl⟩
    | fixed32 hlen => exact map_eq_ok.2 ⟨_, word_eq_ok_iff.2 ⟨_, hlen, rfl, hr⟩, rfl⟩
    | lengthDelimited hheader =>
      exact map_eq_ok.2 ⟨_, delimited_eq_ok_iff.2 ⟨_, hheader, hr⟩, rfl⟩

/-- Only values of its framing have a meaning for a scalar type. -/
theorem wireType_of_ofWire? {kind : ScalarKind} {v : WireValue} {s : Scalar}
    (h : kind.ofWire? v = some s) : v.wireType = kind.wireType := by
  cases kind <;> cases v <;> first | rfl | cases h

/-- A scalar is read where its bytes stand. -/
theorem takes_scalar_of_spelledBy {d : Nat} {kind : ScalarKind} {s : Scalar} {tag : Tag}
    {bytes : Bytes} (hk : s.kind = kind) (ht : tag.wireType = kind.wireType)
    (h : s.SpelledBy bytes) : Takes d (scalar kind tag) bytes s := by
  obtain ⟨v, hv, hbytes⟩ := h
  rw [hk] at hv
  intro r t _ hr
  exact scalar_eq_ok.2
    ⟨ht, v, wireValue_eq_ok_iff.2 ⟨wireType_of_ofWire? hv, bytes, hbytes, hr⟩, hv⟩

/-- A tag at the front of a place is read there. -/
theorem exists_nextTag {tag : Tag} {header rest : Bytes} (h : tag.SpelledBy header)
    (hr : r.rest = header ++ rest) : ∃ t, nextTag r = .ok (some tag) t ∧ t.rest = rest :=
  ⟨⟨rest, r.position + header.length, r.depth⟩,
    nextTag_eq_some_iff.2 ⟨header, h, hr, rfl, rfl⟩, rfl⟩

/-- A framed value at the front of a place is read there. -/
theorem exists_wireValue {v : WireValue} {front rest : Bytes} (h : v.SpelledBy front)
    (hr : r.rest = front ++ rest) : ∃ t, wireValue v.wireType r = .ok v t ∧ t.rest = rest :=
  ⟨⟨rest, r.position + front.length, r.depth⟩,
    wireValue_eq_ok_iff.2 ⟨rfl, front, h, hr, rfl, rfl⟩, rfl⟩

end Reader

/-! ## Values and fields -/

/-- What some bytes can be taken for. -/
inductive Phrase where
  /-- The value behind a tag. -/
  | value (tag : Tag)
  /-- Fields one behind the other. -/
  | fields
  deriving DecidableEq, Repr

/-- The bytes are such a phrase, in which groups nest up to so many levels. -/
inductive Phrase.SpelledBy : Phrase → (levels : Nat) → Bytes → Prop
  /-- A value that is no group. -/
  | framed {tag : Tag} {v : WireValue} {levels : Nat} {bytes : Bytes}
    (framing : v.wireType = tag.wireType) (value : v.SpelledBy bytes) :
    SpelledBy (.value tag) levels bytes
  /-- The fields of a group and its end tag. -/
  | group {tag stop : Tag} {levels : Nat} {body header : Bytes}
    (opens : tag.wireType = .startGroup) (closes : stop.wireType = .endGroup)
    (same : stop.number = tag.number) (fields : SpelledBy .fields levels body)
    (end_tag : stop.SpelledBy header) : SpelledBy (.value tag) (levels + 1) (body ++ header)
  /-- No fields. -/
  | nil {levels : Nat} : SpelledBy .fields levels []
  /-- A tag, the value behind it and other fields. -/
  | cons {tag : Tag} {levels : Nat} {header value others : Bytes} (tagged : tag.SpelledBy header)
    (first : SpelledBy (.value tag) levels value) (rest : SpelledBy .fields levels others) :
    SpelledBy .fields levels (header ++ value ++ others)

namespace Phrase

variable {levels limit : Nat} {bytes : Bytes}

/-- No value stands behind an end tag. -/
theorem SpelledBy.not_end {tag : Tag} (h : (value tag).SpelledBy levels bytes) :
    tag.wireType ≠ .endGroup := by
  cases h with
  | @framed _ v _ _ framing _ =>
    rw [← framing]
    cases v <;> simp [WireValue.wireType]
  | group opens =>
    rw [opens]
    simp

theorem SpelledBy.mono {phrase : Phrase} (h : phrase.SpelledBy levels bytes) {levels' : Nat}
    (hle : levels ≤ levels') : phrase.SpelledBy levels' bytes := by
  induction h generalizing levels' with
  | framed framing value => exact .framed framing value
  | group opens closes same _ end_tag ih =>
    obtain ⟨levels', rfl⟩ := Nat.exists_eq_succ_of_ne_zero (n := levels') (by omega)
    exact .group opens closes same (ih (by omega)) end_tag
  | nil => exact .nil
  | cons tagged _ _ ihv ihf => exact .cons tagged (ihv hle) (ihf hle)

/-- From one place to another over such a phrase. -/
def Reads (limit : Nat) : Phrase → Reader → Reader → Prop
  | value tag, r, t => skip limit tag r = .ok () t
  | fields, r, t => ∃ fields, RawField.Run limit r fields t

/-- What the grammar allows is read. -/
theorem SpelledBy.reads {phrase : Phrase} (h : phrase.SpelledBy levels bytes) {r t : Reader}
    (hl : levels ≤ limit - r.depth) (hr : r.Consumes bytes t) : phrase.Reads limit r t := by
  induction h generalizing r t with
  | @framed tag v _ _ framing hv =>
    exact skip_of_wireValue (wireValue_eq_ok_iff.2 ⟨framing, _, hv, hr⟩)
  | @group tag stop levels body header opens closes same _ end_tag ih =>
    obtain ⟨u, hu, ht⟩ := hr.split
    have hd : (r.deepen 1).depth = r.depth + 1 := rfl
    obtain ⟨fields, hrun⟩ := ih (r := r.deepen 1) (t := u.deepen 1) (by omega) hu.deeper
    have hstop : nextTag (u.deepen 1) = .ok (some stop) (t.deepen 1) :=
      nextTag_eq_some_iff.2 ⟨header, end_tag, ht.deeper⟩
    exact RawField.skip_of_run opens (by omega) hrun hstop closes same
  | nil =>
    rw [hr.eq_of_nil]
    exact ⟨[], .nil r⟩
  | @cons tag levels header value others tagged first _ ihv ihf =>
    obtain ⟨v, hv, ht⟩ := hr.split
    obtain ⟨u, hu, huv⟩ := hv.split
    have hskip : skip limit tag u = .ok () v := ihv (by rw [hu.2.2]; exact hl) huv
    obtain ⟨fields, hrun⟩ := ihf (by rw [hv.2.2]; exact hl) ht
    exact ⟨_, .cons (nextTag_eq_some_iff.2 ⟨header, tagged, hu⟩) first.not_end hskip hrun⟩

/-- No more levels are used up than there are bytes. -/
theorem SpelledBy.of_length {phrase : Phrase} (h : phrase.SpelledBy levels bytes) :
    phrase.SpelledBy bytes.length bytes := by
  induction h with
  | framed framing value => exact .framed framing value
  | @group tag stop levels body header opens closes same _ end_tag ih =>
    have hpos := end_tag.length_pos
    have hgroup := SpelledBy.group opens closes same ih end_tag
    exact hgroup.mono (by rw [List.length_append]; omega)
  | nil => exact .nil
  | @cons tag levels header value others tagged _ _ ihv ihf =>
    refine .cons tagged (ihv.mono ?_) (ihf.mono ?_)
    · simp only [List.length_append]
      omega
    · simp only [List.length_append]
      omega

end Phrase

/-! ## What is skipped -/

namespace Reader

/-- From one place to another over the fields in a group, which are the given bytes, and over the
group's end tag. -/
def Closes (levels number : Nat) (body : Bytes) (r t : Reader) : Prop :=
  Phrase.fields.SpelledBy levels body ∧ ∃ (stop : Tag) (header : Bytes),
    stop.wireType = .endGroup ∧ stop.number = number ∧ stop.SpelledBy header ∧
      r.Consumes (body ++ header) t

variable {limit levels number : Nat} {outer : List Nat} {body : Bytes} {tag : Tag}
  {r t u v : Reader}

theorem closes_of_stop (htag : nextTag r = .ok (some tag) t) (hw : tag.wireType = .endGroup)
    (hn : tag.number = number) : Closes levels number [] r t := by
  obtain ⟨header, hheader, hr⟩ := nextTag_eq_some_iff.1 htag
  exact ⟨.nil, tag, header, hw, hn, hheader, hr⟩

/-- A field comes before what closes the group. -/
theorem Closes.cons {bytes : Bytes} (htag : nextTag r = .ok (some tag) u)
    (hvalue : (Phrase.value tag).SpelledBy levels bytes) (hv : u.Consumes bytes v)
    (h : Closes levels number body v t) : ∃ body', Closes levels number body' r t := by
  obtain ⟨hbody, stop, stopHeader, hw, hn, hstop, hr⟩ := h
  obtain ⟨header, hheader, hu⟩ := nextTag_eq_some_iff.1 htag
  refine ⟨header ++ bytes ++ body, .cons hheader hvalue hbody, stop, stopHeader, hw, hn, hstop, ?_⟩
  rw [List.append_assoc]
  exact (hu.append hv).append hr

/-- What closes a group makes a value of its start tag. -/
theorem Closes.spelledBy (hw : tag.wireType = .startGroup)
    (h : Closes levels tag.number body r t) :
    ∃ bytes, (Phrase.value tag).SpelledBy (levels + 1) bytes ∧ r.Consumes bytes t := by
  obtain ⟨hbody, stop, header, hstop, hn, hheader, hr⟩ := h
  exact ⟨_, .group hw hstop hn hbody hheader, hr⟩

theorem Closes.depth_eq (h : Closes levels number body r t) : t.depth = r.depth := by
  obtain ⟨-, stop, header, -, -, -, hr⟩ := h
  exact hr.2.2

/-- While groups are skipped, first the innermost one is closed and then the others are. -/
theorem closes_of_skipGroups {rounds : Nat}
    (h : skipGroups limit rounds (number :: outer) r = .ok () t) :
    r.depth + (outer.length + 1) ≤ limit ∧ ∃ body u rounds', rounds' < rounds ∧
      Closes (limit - (r.depth + (outer.length + 1))) number body r u ∧
      skipGroups limit rounds' outer u = .ok () t := by
  -- a group inside this one is closed in fewer rounds, and so is what comes behind it
  induction rounds using Nat.strongRecOn generalizing number outer r with
  | ind rounds ih =>
    cases rounds with
    | zero => cases h
    | succ rounds =>
      rw [skipGroups_succ] at h
      split at h
      · cases h
      · rename_i hd
        refine ⟨Nat.le_of_not_lt hd, ?_⟩
        obtain ⟨tag?, u, htag, h⟩ := bind_eq_ok.1 h
        cases tag? with
        | none => cases h
        | some tag =>
          have hu : u.depth = r.depth := (steady_nextTag _ _ _ htag).depth_eq
          cases hw : tag.wireType with
          | endGroup =>
            simp only [skipRound, hw] at h
            split at h
            · rename_i hn
              exact ⟨[], u, rounds, Nat.lt_succ_self _, closes_of_stop htag hw hn, h⟩
            · cases h
          | startGroup =>
            simp only [skipRound, hw] at h
            obtain ⟨hd', inner, v, rounds', hlt, hinner, h⟩ := ih rounds (Nat.lt_succ_self _) h
            obtain ⟨-, body, w, rounds'', hlt', hrest, h⟩ := ih rounds' (by omega) h
            rw [hinner.depth_eq, hu] at hrest
            obtain ⟨bytes, hvalue, hv⟩ := hinner.spelledBy hw
            have hle : limit - (u.depth + ((number :: outer).length + 1)) + 1 ≤
                limit - (r.depth + (outer.length + 1)) := by
              rw [List.length_cons] at hd' ⊢
              omega
            obtain ⟨body', hcloses⟩ := hrest.cons htag (hvalue.mono hle) hv
            exact ⟨body', w, rounds'', by omega, hcloses, h⟩
          | _ =>
            simp only [skipRound, hw] at h
            obtain ⟨value, v, hvalue, h⟩ := bind_eq_ok.1 h
            obtain ⟨hframing, bytes, hbytes, hv⟩ := wireValue_eq_ok_iff.1 hvalue
            obtain ⟨-, body, w, rounds', hlt, hrest, h⟩ := ih rounds (Nat.lt_succ_self _) h
            rw [hv.2.2, hu] at hrest
            obtain ⟨body', hcloses⟩ := hrest.cons htag (.framed (hframing.trans hw.symm) hbytes) hv
            exact ⟨body', w, rounds', by omega, hcloses, h⟩

theorem closes_of_skip (hw : tag.wireType = .startGroup) (h : skip limit tag r = .ok () t) :
    r.depth + 1 ≤ limit ∧ ∃ body, Closes (limit - (r.depth + 1)) tag.number body r t := by
  rw [skip, if_pos hw, run_bind_of_ok (run_get r)] at h
  obtain ⟨hd, body, u, rounds, -, hcloses, h⟩ := closes_of_skipGroups h
  rw [skipGroups_nil] at h
  cases h
  exact ⟨hd, body, hcloses⟩

/-- What can be skipped behind a tag is a value of the grammar. -/
theorem skip_eq_ok_iff :
    skip limit tag r = .ok () t ↔
      ∃ bytes, (Phrase.value tag).SpelledBy (limit - r.depth) bytes ∧ r.Consumes bytes t := by
  constructor
  · intro h
    by_cases hw : tag.wireType = .startGroup
    · obtain ⟨hd, body, hcloses⟩ := closes_of_skip hw h
      obtain ⟨bytes, hvalue, hr⟩ := hcloses.spelledBy hw
      exact ⟨bytes, hvalue.mono (by omega), hr⟩
    · obtain ⟨v, hv⟩ := wireValue_of_skip hw h
      obtain ⟨hframing, bytes, hbytes, hr⟩ := wireValue_eq_ok_iff.1 hv
      exact ⟨bytes, .framed hframing hbytes, hr⟩
  · rintro ⟨bytes, hvalue, hr⟩
    exact hvalue.reads (Nat.le_refl _) hr

/-- What is skipped under a limit is skipped under every higher one. -/
theorem skip_of_limit_le {limit' : Nat} (hle : limit ≤ limit') (h : skip limit tag r = .ok () t) :
    skip limit' tag r = .ok () t := by
  obtain ⟨bytes, hvalue, hr⟩ := skip_eq_ok_iff.1 h
  exact skip_eq_ok_iff.2 ⟨bytes, hvalue.mono (by omega), hr⟩

end Reader

namespace RawField

variable {limit : Nat} {r t : Reader}

theorem Run.spelledBy {fields : List RawField} (h : Run limit r fields t) :
    Phrase.fields.SpelledBy (limit - r.depth) (fields.flatMap RawField.bytes) := by
  induction h with
  | nil r => exact .nil
  | @cons r u v w tag fields htag hw hskip hrun ih =>
    obtain ⟨header, hheader, hu⟩ := nextTag_eq_some_iff.1 htag
    obtain ⟨value, hvalue, hv⟩ := skip_eq_ok_iff.1 hskip
    have hfield := hu.append hv
    rw [hfield.2.2] at ih
    rw [hu.2.2] at hvalue
    rw [List.flatMap_cons, hfield.consumed_eq]
    exact .cons hheader hvalue ih

/-- Fields of the grammar are a run of raw fields. -/
theorem exists_run_of_spelledBy {levels : Nat} {bytes : Bytes}
    (h : Phrase.fields.SpelledBy levels bytes) (hl : levels ≤ limit - r.depth)
    (hr : r.Consumes bytes t) :
    ∃ fields, Run limit r fields t ∧ fields.flatMap RawField.bytes = bytes := by
  obtain ⟨fields, hrun⟩ := h.reads hl hr
  exact ⟨fields, hrun, hrun.consumes.consumed_eq.symm.trans hr.consumed_eq⟩

end RawField

end Protobuf
