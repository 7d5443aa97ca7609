import Protobuf.Proofs.Entries
import Protobuf.Proofs.Text.UnknownLines

/-!
# Unknown fields as text

What unknown bytes look like as text, told by recursion over the fields in them
(`Text.Rendering`): a group is a block around its fields, and so is a payload that looks like a
message, as long as it may be guessed to be one. Printing goes over the same bytes with the open
groups on a stack and gives these lines (`Text.unknownFieldLines_eq_iff`). Of bytes that are nothing
but fields no field is left out (`Text.ShowsAll`).
-/

namespace Protobuf

open Reader

/-! ## Bytes that look like a message -/

/-- A message without fields is decoded from the bytes, if groups may nest as deep as they do. -/
def DecodesUnlimited (bytes : Bytes) : Prop :=
  ∃ limit m, Message.decode { depthLimit := limit } .empty bytes = .ok m

theorem decodesUnlimited_iff {bytes : Bytes} :
    DecodesUnlimited bytes ↔ ∃ levels, Phrase.fields.SpelledBy levels bytes := by
  constructor
  · rintro ⟨limit, m, h⟩
    exact ⟨limit, ((Message.decode_empty_eq_ok_iff rfl).1 h).1⟩
  · rintro ⟨levels, h⟩
    exact ⟨levels, _, (Message.decode_empty_eq_ok_iff rfl).2 ⟨h, rfl⟩⟩

namespace RawField

theorem split_eq_nil_iff {limit : Nat} {bytes : Bytes} :
    (split limit bytes).2 = [] ↔ Phrase.fields.SpelledBy limit bytes := by
  constructor
  · intro h
    obtain ⟨t, hrun, ht⟩ := run_of_scan limit (bytes.length + 1) (.new bytes)
    have hspelled := hrun.spelledBy
    rw [hrun.consumes.eq_rest (ht.trans h)] at hspelled
    exact hspelled
  · intro h
    obtain ⟨hr, ht⟩ := consumes_whole (r := .new bytes) rfl
    obtain ⟨fields, hrun, -⟩ := exists_run_of_spelledBy h (Nat.le_refl limit) hr
    rw [split_of_run hrun ht]

/-- Bytes are nothing but fields if they can be decoded without a limit. -/
theorem areFields_iff {bytes : Bytes} : areFields bytes = true ↔ DecodesUnlimited bytes := by
  rw [areFields, List.isEmpty_iff, split_eq_nil_iff, decodesUnlimited_iff]
  constructor
  · intro h
    exact ⟨_, h⟩
  · rintro ⟨levels, h⟩
    exact h.of_length

end RawField

namespace Text

/-! ## The rendering -/

/-- A number in hexadecimal, with zeros in front of it up to a width. -/
def paddedHex (width n : Nat) : String :=
  "0x" ++ String.ofList ((Nat.toDigits 16 n).leftpad width '0')

/-- A value on a line of its own. -/
def valueText : WireValue → String
  | .varint v => toString v.toNat
  | .fixed64 v => paddedHex 16 v.toNat
  | .fixed32 v => paddedHex 8 v.toNat
  | .lengthDelimited payload => quote (escapeBytes payload)

/-- The payload is shown as a message where so many guesses are left. -/
def LooksNested (cap : Nat) (payload : Bytes) : Prop :=
  0 < cap ∧ payload ≠ [] ∧ DecodesUnlimited payload

/-- Nothing more can be shown of the bytes inside of a group, or outside of groups. -/
inductive Stuck (group? : Option Nat) : Bytes → Prop
  /-- There is no tag. -/
  | noTag {bytes : Bytes}
    (none : ∀ (tag : Tag) (header rest : Bytes), bytes = header ++ rest → ¬ tag.SpelledBy header) :
    Stuck group? bytes
  /-- There is an end tag of no group or of another one. -/
  | unmatched {tag : Tag} {header rest : Bytes} (tagged : tag.SpelledBy header)
    (closes : tag.wireType = .endGroup) (other : group? ≠ some tag.number) :
    Stuck group? (header ++ rest)
  /-- There is a tag without a value. -/
  | noValue {tag : Tag} {header rest : Bytes} (tagged : tag.SpelledBy header)
    (not_start : tag.wireType ≠ .startGroup) (not_end : tag.wireType ≠ .endGroup)
    (none : ∀ (v : WireValue) (front behind : Bytes), rest = front ++ behind →
      v.wireType = tag.wireType → ¬ v.SpelledBy front) : Stuck group? (header ++ rest)

/-- The lines of bytes inside of a group, or outside of groups, and the bytes behind the group if
its end tag is there. Otherwise the lines end with the bytes, or before what cannot be shown. -/
inductive Rendering :
    (cap : Nat) → (group? : Option Nat) → Bytes → List Line → (behind? : Option Bytes) → Prop
  /-- Nothing more is shown. -/
  | stop {cap : Nat} {group? : Option Nat} {bytes : Bytes} (stuck : Stuck group? bytes) :
    Rendering cap group? bytes [] none
  /-- The group ends. -/
  | close {cap : Nat} {tag : Tag} {header rest : Bytes} (tagged : tag.SpelledBy header)
    (closes : tag.wireType = .endGroup) :
    Rendering cap (some tag.number) (header ++ rest) [] (some rest)
  /-- A value is shown on a line. -/
  | line {cap : Nat} {group? : Option Nat} {tag : Tag} {v : WireValue} {header front rest : Bytes}
    {lines : List Line} {behind? : Option Bytes} (tagged : tag.SpelledBy header)
    (framing : v.wireType = tag.wireType) (value : v.SpelledBy front)
    (plain : ∀ payload, v = .lengthDelimited payload → ¬ LooksNested cap payload)
    (others : Rendering cap group? rest lines behind?) :
    Rendering cap group? (header ++ (front ++ rest))
      (.field (toString tag.number) (valueText v) :: lines) behind?
  /-- A payload is shown as a block, with one guess less inside it. -/
  | nested {cap : Nat} {group? : Option Nat} {tag : Tag} {payload header front rest : Bytes}
    {inner lines : List Line} {behind? : Option Bytes} (tagged : tag.SpelledBy header)
    (framing : tag.wireType = .lengthDelimited)
    (value : (WireValue.lengthDelimited payload).SpelledBy front)
    (looks : LooksNested (cap + 1) payload) (inside : Rendering cap none payload inner none)
    (others : Rendering (cap + 1) group? rest lines behind?) :
    Rendering (cap + 1) group? (header ++ (front ++ rest))
      (Line.block (toString tag.number) inner ++ lines) behind?
  /-- A group is shown as a block. -/
  | group {cap : Nat} {group? : Option Nat} {tag : Tag} {header body rest : Bytes}
    {inner lines : List Line} {behind? : Option Bytes} (tagged : tag.SpelledBy header)
    (opens : tag.wireType = .startGroup)
    (inside : Rendering cap (some tag.number) body inner (some rest))
    (others : Rendering cap group? rest lines behind?) :
    Rendering cap group? (header ++ body) (Line.block (toString tag.number) inner ++ lines) behind?
  /-- A group in which something cannot be shown, or which does not end, is closed there. -/
  | unclosed {cap : Nat} {group? : Option Nat} {tag : Tag} {header body : Bytes}
    {inner : List Line} (tagged : tag.SpelledBy header) (opens : tag.wireType = .startGroup)
    (inside : Rendering cap (some tag.number) body inner none) :
    Rendering cap group? (header ++ body) (Line.block (toString tag.number) inner) none

/-! ## Lines of values -/

/-- Hexadecimal digits of a fixed number are padded ones. -/
theorem hexDigits_eq_leftpad {width n : Nat} (h : n < 16 ^ (width + 1)) :
    Bytes.hexDigits (width + 1) n = (Nat.toDigits 16 n).leftpad (width + 1) '0' := by
  induction width generalizing n with
  | zero =>
    have hn : n < 16 := by simpa using h
    rw [Nat.toDigits_of_lt_base hn, Bytes.hexDigits, Bytes.hexDigits, Bytes.hexDigit,
      Nat.mod_eq_of_lt hn]
    rfl
  | succ width ih =>
    have hdiv : n / 16 < 16 ^ (width + 1) := by
      rw [Nat.pow_succ] at h
      exact Nat.div_lt_of_lt_mul (by rwa [Nat.mul_comm])
    rw [Bytes.hexDigits, ih hdiv, Bytes.hexDigit]
    by_cases hn : n < 16
    · have hzero : n / 16 = 0 := Nat.div_eq_of_lt hn
      rw [hzero, Nat.toDigits_zero, Nat.toDigits_of_lt_base hn, Nat.mod_eq_of_lt hn]
      simp [List.leftpad, List.replicate_succ', List.append_assoc]
    · rw [Nat.toDigits_of_base_le (n := n) (by decide) (by omega)]
      simp [List.leftpad]

theorem hexText_eq_paddedHex {width n : Nat} (h : n < 16 ^ (width + 1)) :
    hexText (width + 1) n = paddedHex (width + 1) n := by
  rw [hexText, hexDigits_eq_leftpad h, paddedHex]

theorem unknownValueLines_of_plain {rounds cap : Nat} {label : String} {v : WireValue}
    (h : ∀ payload, v = .lengthDelimited payload → ¬ LooksNested cap payload) :
    unknownValueLines (nestedLines? rounds cap) label v = [.field label (valueText v)] := by
  cases v with
  | varint v => rfl
  | fixed64 v =>
    have hlt : v.toNat < 16 ^ (15 + 1) := v.toNat_lt
    rw [unknownValueLines, hexText_eq_paddedHex hlt, valueText]
  | fixed32 v =>
    have hlt : v.toNat < 16 ^ (7 + 1) := v.toNat_lt
    rw [unknownValueLines, hexText_eq_paddedHex hlt, valueText]
  | lengthDelimited payload =>
    have hplain := h payload rfl
    unfold nestedLines?
    by_cases hcap : cap = 0
    · rw [if_pos hcap]
      rfl
    · have hlooks : ¬ (!payload.isEmpty && RawField.areFields payload) = true := by
        rw [Bool.and_eq_true, RawField.areFields_iff, Bool.not_eq_true', List.isEmpty_eq_false_iff]
        exact fun hfields => hplain ⟨Nat.pos_of_ne_zero hcap, hfields⟩
      rw [if_neg hcap, unknownValueLines, if_neg hlooks]
      rfl

theorem unknownValueLines_of_looksNested {rounds cap : Nat} {label : String} {payload : Bytes}
    (h : LooksNested (cap + 1) payload) :
    unknownValueLines (nestedLines? rounds (cap + 1)) label (.lengthDelimited payload) =
      Line.block label (unknownFieldLines rounds cap [] (.new payload)) := by
  have hlooks : (!payload.isEmpty && RawField.areFields payload) = true := by
    rw [Bool.and_eq_true, RawField.areFields_iff, Bool.not_eq_true', List.isEmpty_eq_false_iff]
    exact h.2
  rw [nestedLines?, if_neg (Nat.succ_ne_zero cap), unknownValueLines, if_pos hlooks,
    Nat.add_sub_cancel]

/-! ## Printing with the open groups on a stack -/

section

variable {rounds cap : Nat} {groups : List Nat} {tag : Tag} {r t : Reader}
  (htag : nextTag r = .ok (some tag) t)

include htag

theorem unknownFieldLines_of_startGroup (hw : tag.wireType = .startGroup) :
    unknownFieldLines (rounds + 1) cap groups r =
      .opening (toString tag.number) :: unknownFieldLines rounds cap (tag.number :: groups) t := by
  rw [unknownFieldLines, htag]
  dsimp only
  rw [hw]

theorem unknownFieldLines_of_endGroup (hw : tag.wireType = .endGroup)
    (hg : groups.head? = some tag.number) :
    unknownFieldLines (rounds + 1) cap groups r =
      .closing :: unknownFieldLines rounds cap groups.tail t := by
  rw [unknownFieldLines, htag]
  dsimp only
  rw [hw]
  exact if_pos hg

theorem unknownFieldLines_of_wireValue {v : WireValue} {u : Reader}
    (hv : wireValue tag.wireType t = .ok v u) :
    unknownFieldLines (rounds + 1) cap groups r =
      unknownValueLines (nestedLines? rounds cap) (toString tag.number) v ++
        unknownFieldLines rounds cap groups u := by
  rw [unknownFieldLines, htag]
  dsimp only
  cases hw : tag.wireType with
  | startGroup | endGroup =>
    rw [hw] at hv
    cases hv
  | _ =>
    rw [hw] at hv
    dsimp only
    rw [hv]
    rfl

end

/-- Where nothing more can be shown, the open groups are closed. -/
theorem unknownFieldLines_of_stuck {rounds cap : Nat} {groups : List Nat} {r : Reader}
    (h : Stuck groups.head? r.rest) :
    unknownFieldLines rounds cap groups r = groups.map fun _ => .closing := by
  cases rounds with
  | zero => rfl
  | succ rounds =>
    rcases unknownFieldLines_cases rounds cap groups r with
      hstop | ⟨tag, t, htag, hrest⟩
    · exact hstop
    · exfalso
      generalize hbytes : r.rest = bytes at h
      obtain ⟨header, hheader, hr⟩ := nextTag_eq_some_iff.1 htag
      cases h with
      | noTag none => exact none tag header t.rest (hbytes.symm.trans hr.1) hheader
      | @unmatched tag' header' rest tagged closes other =>
        obtain ⟨u, htag', hu⟩ := exists_nextTag tagged hbytes
        cases htag.symm.trans htag'
        rcases hrest with ⟨hw, -⟩ | ⟨-, hg, -⟩ | ⟨v, u, hv, -⟩
        · simp [closes] at hw
        · exact other hg
        · exact (wireType_of_wireValue hv).2 closes
      | @noValue tag' header' rest tagged not_start not_end none =>
        obtain ⟨u, htag', hu⟩ := exists_nextTag tagged hbytes
        cases htag.symm.trans htag'
        rcases hrest with ⟨hw, -⟩ | ⟨hw, -⟩ | ⟨v, u, hv, -⟩
        · exact not_start hw
        · exact not_end hw
        · obtain ⟨hframing, front, hfront, ht⟩ := wireValue_eq_ok_iff.1 hv
          exact none v front u.rest (hu.symm.trans ht.1) hframing hfront

/-- What is printed while some groups are open, given the lines up to where the innermost one ends,
if it does. -/
def Prints (cap : Nat) (groups outer : List Nat) (lines : List Line) :
    Option Bytes → List Line → Prop
  | none, printed => printed = lines ++ groups.map fun _ => .closing
  | some behind, printed => ∃ t rounds, t.rest = behind ∧ behind.length < rounds ∧
      printed = lines ++ .closing :: unknownFieldLines rounds cap outer t

theorem Prints.append {cap : Nat} {groups outer : List Nat} {lines printed : List Line}
    {behind? : Option Bytes} (h : Prints cap groups outer lines behind? printed)
    (front : List Line) :
    Prints cap groups outer (front ++ lines) behind? (front ++ printed) := by
  cases behind? with
  | none => exact (congrArg (front ++ ·) h).trans (List.append_assoc ..).symm
  | some behind =>
    obtain ⟨t, rounds, ht, hlen, rfl⟩ := h
    exact ⟨t, rounds, ht, hlen, (List.append_assoc ..).symm⟩

/-- Printing gives the lines of the rendering, and then goes on behind the group or closes the open
groups. -/
theorem Rendering.prints {cap : Nat} {group? : Option Nat} {bytes : Bytes} {lines : List Line}
    {behind? : Option Bytes} (h : Rendering cap group? bytes lines behind?) {outer : List Nat}
    (hgroup : group? = none → outer = []) {r : Reader} (hr : r.rest = bytes) {rounds : Nat}
    (hrounds : bytes.length < rounds) :
    Prints cap (group?.toList ++ outer) outer lines behind?
      (unknownFieldLines rounds cap (group?.toList ++ outer) r) := by
  induction h generalizing outer r rounds with
  | @stop cap group? bytes stuck =>
    have hhead : (group?.toList ++ outer).head? = group? := by
      cases group? with
      | none => rw [hgroup rfl]; rfl
      | some number => rfl
    rw [← hhead, ← hr] at stuck
    exact unknownFieldLines_of_stuck stuck
  | @close cap tag header rest tagged closes =>
    have hpos := tagged.length_pos
    rw [List.length_append] at hrounds
    obtain ⟨rounds, rfl⟩ := Nat.exists_eq_succ_of_ne_zero (n := rounds) (by omega)
    obtain ⟨t, htag, ht⟩ := exists_nextTag tagged hr
    exact ⟨t, rounds, ht, by omega, unknownFieldLines_of_endGroup htag closes rfl⟩
  | @line cap group? tag v header front rest lines behind? tagged framing value plain _ ih =>
    have hpos := tagged.length_pos
    rw [List.length_append, List.length_append] at hrounds
    obtain ⟨rounds, rfl⟩ := Nat.exists_eq_succ_of_ne_zero (n := rounds) (by omega)
    obtain ⟨t, htag, ht⟩ := exists_nextTag tagged hr
    obtain ⟨u, hvalue, hu⟩ := exists_wireValue value ht
    rw [framing] at hvalue
    rw [unknownFieldLines_of_wireValue htag hvalue, unknownValueLines_of_plain plain]
    exact (ih hgroup hu (by omega)).append [_]
  | @nested cap group? tag payload header front rest inner lines behind? tagged framing value looks
      _ _ ihinside ih =>
    have hpos := tagged.length_pos
    have hlen : payload.length ≤ front.length := by
      cases value
      rw [List.length_append]
      omega
    rw [List.length_append, List.length_append] at hrounds
    obtain ⟨rounds, rfl⟩ := Nat.exists_eq_succ_of_ne_zero (n := rounds) (by omega)
    obtain ⟨t, htag, ht⟩ := exists_nextTag tagged hr
    obtain ⟨u, hvalue, hu⟩ := exists_wireValue value ht
    have hvalue : wireValue tag.wireType t = .ok (.lengthDelimited payload) u := by
      rw [framing]
      exact hvalue
    have hinner : unknownFieldLines rounds cap [] (.new payload) = inner ++ [] :=
      ihinside (fun _ => rfl) rfl (by omega)
    rw [unknownFieldLines_of_wireValue htag hvalue, unknownValueLines_of_looksNested looks, hinner,
      List.append_nil]
    exact (ih hgroup hu (by omega)).append _
  | @group cap group? tag header body rest inner lines behind? tagged opens _ _ ihinside ih =>
    have hpos := tagged.length_pos
    rw [List.length_append] at hrounds
    obtain ⟨rounds, rfl⟩ := Nat.exists_eq_succ_of_ne_zero (n := rounds) (by omega)
    obtain ⟨u, htag, hu⟩ := exists_nextTag tagged hr
    obtain ⟨t, rounds', ht, hrounds', hinner⟩ :=
      ihinside (fun h => absurd h (Option.some_ne_none _)) hu (show body.length < rounds by omega)
    rw [Option.toList_some, List.singleton_append] at hinner
    rw [unknownFieldLines_of_startGroup htag opens, hinner]
    have hprints := (ih hgroup ht hrounds').append (Line.block (toString tag.number) inner)
    simpa [Line.block] using hprints
  | @unclosed cap group? tag header body inner tagged opens _ ihinside =>
    have hpos := tagged.length_pos
    rw [List.length_append] at hrounds
    obtain ⟨rounds, rfl⟩ := Nat.exists_eq_succ_of_ne_zero (n := rounds) (by omega)
    obtain ⟨u, htag, hu⟩ := exists_nextTag tagged hr
    have hinner : unknownFieldLines rounds cap ([tag.number] ++ (group?.toList ++ outer)) u =
        inner ++ ([tag.number] ++ (group?.toList ++ outer)).map fun _ => .closing :=
      ihinside (fun h => absurd h (Option.some_ne_none _)) hu (by omega)
    rw [List.singleton_append] at hinner
    rw [unknownFieldLines_of_startGroup htag opens, hinner]
    simp [Prints, Line.block]

/-- The bytes have a rendering. What is behind a group is shorter. -/
def Renders (cap : Nat) (group? : Option Nat) (bytes : Bytes) : Prop :=
  ∃ lines behind?, Rendering cap group? bytes lines behind? ∧
    ∀ behind, behind? = some behind → group? ≠ none ∧ behind.length < bytes.length

section

variable {cap : Nat} {group? : Option Nat} {tag : Tag} {header rest : Bytes}

theorem renders_of_stuck {bytes : Bytes} (h : Stuck group? bytes) : Renders cap group? bytes :=
  ⟨[], none, .stop h, fun _ h => absurd h.symm (Option.some_ne_none _)⟩

theorem renders_endGroup (tagged : tag.SpelledBy header) (closes : tag.wireType = .endGroup) :
    Renders cap group? (header ++ rest) := by
  by_cases hgroup : group? = some tag.number
  · subst hgroup
    have hpos := tagged.length_pos
    refine ⟨[], some rest, .close tagged closes, fun behind h => ?_⟩
    cases h
    rw [List.length_append]
    exact ⟨Option.some_ne_none _, by omega⟩
  · exact renders_of_stuck (.unmatched tagged closes hgroup)

/-- A group has a rendering if all shorter bytes have one. -/
theorem renders_startGroup (tagged : tag.SpelledBy header) (opens : tag.wireType = .startGroup)
    (shorter : ∀ cap group? (bytes : Bytes), bytes.length < (header ++ rest).length →
      Renders cap group? bytes) : Renders cap group? (header ++ rest) := by
  have hpos := tagged.length_pos
  simp only [List.length_append] at shorter
  obtain ⟨inner, behind?, hinner, hbehind⟩ := shorter cap (some tag.number) rest (by omega)
  cases behind? with
  | none =>
    exact ⟨_, none, .unclosed tagged opens hinner, fun _ h => absurd h.symm (Option.some_ne_none _)⟩
  | some behind =>
    have hlt := (hbehind behind rfl).2
    obtain ⟨lines, behind?, hlines, hbehind⟩ := shorter cap group? behind (by omega)
    refine ⟨_, behind?, .group tagged opens hinner hlines, fun last hlast => ?_⟩
    obtain ⟨hgroup, hlen⟩ := hbehind last hlast
    rw [List.length_append]
    exact ⟨hgroup, by omega⟩

/-- A value has a rendering if all shorter bytes have one. -/
theorem renders_wireValue {v : WireValue} {front : Bytes} (tagged : tag.SpelledBy header)
    (framing : v.wireType = tag.wireType) (value : v.SpelledBy front)
    (shorter : ∀ cap group? (bytes : Bytes), bytes.length < (header ++ (front ++ rest)).length →
      Renders cap group? bytes) : Renders cap group? (header ++ (front ++ rest)) := by
  have hpos := tagged.length_pos
  simp only [List.length_append] at shorter
  obtain ⟨lines, behind?, hlines, hbehind⟩ := shorter cap group? rest (by omega)
  have hlt : ∀ last, behind? = some last →
      group? ≠ none ∧ last.length < (header ++ (front ++ rest)).length := by
    intro last hlast
    obtain ⟨hgroup, hlen⟩ := hbehind last hlast
    rw [List.length_append, List.length_append]
    exact ⟨hgroup, by omega⟩
  by_cases hnested : ∃ payload, v = .lengthDelimited payload ∧ LooksNested cap payload
  · obtain ⟨payload, rfl, hlooks⟩ := hnested
    have hlen : payload.length ≤ front.length := by
      cases value
      rw [List.length_append]
      omega
    obtain ⟨cap, rfl⟩ := Nat.exists_eq_succ_of_ne_zero (n := cap) (Nat.ne_of_gt hlooks.1)
    obtain ⟨inner, inner?, hinner, houter⟩ := shorter cap none payload (by omega)
    cases inner? with
    | none => exact ⟨_, behind?, .nested tagged framing.symm value hlooks hinner hlines, hlt⟩
    | some last => exact absurd rfl (houter last rfl).1
  · have hplain : ∀ payload, v = .lengthDelimited payload → ¬ LooksNested cap payload :=
      fun payload hv hlooks => hnested ⟨payload, hv, hlooks⟩
    exact ⟨_, behind?, .line tagged framing value hplain hlines, hlt⟩

end

/-- Any bytes have a rendering. -/
theorem exists_rendering (cap : Nat) (group? : Option Nat) (bytes : Bytes) :
    Renders cap group? bytes := by
  -- values, payloads and groups are all shorter than the bytes that hold them
  induction hn : bytes.length using Nat.strongRecOn generalizing cap group? bytes with
  | ind n ih =>
    subst hn
    have shorter : ∀ cap group? (b : Bytes), b.length < bytes.length → Renders cap group? b :=
      fun cap group? b hb => ih b.length hb cap group? b rfl
    by_cases htagged : ∃ (tag : Tag) (header rest : Bytes),
        bytes = header ++ rest ∧ tag.SpelledBy header
    · obtain ⟨tag, header, rest, rfl, hheader⟩ := htagged
      by_cases hs : tag.wireType = .startGroup
      · exact renders_startGroup hheader hs shorter
      by_cases he : tag.wireType = .endGroup
      · exact renders_endGroup hheader he
      by_cases hvalue : ∃ (v : WireValue) (front behind : Bytes),
          rest = front ++ behind ∧ v.wireType = tag.wireType ∧ v.SpelledBy front
      · obtain ⟨v, front, behind, rfl, hframing, hfront⟩ := hvalue
        exact renders_wireValue hheader hframing hfront shorter
      · refine renders_of_stuck (.noValue hheader hs he ?_)
        intro v front behind hrest hframing hfront
        exact hvalue ⟨v, front, behind, hrest, hframing, hfront⟩
    · refine renders_of_stuck (.noTag fun tag header rest hbytes hheader => ?_)
      exact htagged ⟨tag, header, rest, hbytes, hheader⟩

/-- What is printed of unknown bytes is their rendering. -/
theorem unknownFieldLines_eq_iff {cap : Nat} {bytes : Bytes} {lines : List Line} :
    unknownFieldLines (bytes.length + 1) cap [] (.new bytes) = lines ↔
      Rendering cap none bytes lines none := by
  have hprints : ∀ lines, Rendering cap none bytes lines none →
      unknownFieldLines (bytes.length + 1) cap [] (.new bytes) = lines := by
    intro lines h
    have hprinted : unknownFieldLines (bytes.length + 1) cap [] (.new bytes) = lines ++ [] :=
      h.prints (fun _ => rfl) rfl (Nat.lt_succ_self _)
    rw [hprinted, List.append_nil]
  constructor
  · rintro rfl
    obtain ⟨lines, behind?, h, hbehind⟩ := exists_rendering cap none bytes
    cases behind? with
    | none =>
      rw [hprints lines h]
      exact h
    | some behind => exact absurd rfl (hbehind behind rfl).1
  · exact hprints lines

/-! ## Bytes that are nothing but fields -/

/-- The lines come before those of what stands behind the bytes. -/
def Precedes (cap : Nat) (bytes : Bytes) (lines : List Line) : Prop :=
  ∀ group? rest more behind?, Rendering cap group? rest more behind? →
    Rendering cap group? (bytes ++ rest) (lines ++ more) behind?

theorem Precedes.append {cap : Nat} {a b : Bytes} {lines more : List Line}
    (h : Precedes cap a lines) (h' : Precedes cap b more) :
    Precedes cap (a ++ b) (lines ++ more) := by
  intro group? rest others behind? hrest
  rw [List.append_assoc, List.append_assoc]
  exact h _ _ _ _ (h' _ _ _ _ hrest)

/-- No tag stands at the end. -/
theorem rendering_nil (cap : Nat) : Rendering cap none [] [] none := by
  refine .stop (.noTag fun tag header rest h hheader => ?_)
  have hpos := hheader.length_pos
  rw [(List.append_eq_nil_iff.1 h.symm).1] at hpos
  exact Nat.lt_irrefl _ hpos

theorem Precedes.rendering {cap : Nat} {bytes : Bytes} {lines : List Line}
    (h : Precedes cap bytes lines) : Rendering cap none bytes lines none := by
  have hlines := h none [] [] none (rendering_nil cap)
  rwa [List.append_nil, List.append_nil] at hlines

/-- Every field has a line of its own, or a block around all of its own fields. -/
inductive ShowsAll : Bytes → List Line → Prop
  /-- There is no field. -/
  | nil : ShowsAll [] []
  /-- A value is on a line. -/
  | line {tag : Tag} {v : WireValue} {header front rest : Bytes} {text : String}
    {lines : List Line} (tagged : tag.SpelledBy header) (framing : v.wireType = tag.wireType)
    (value : v.SpelledBy front) (others : ShowsAll rest lines) :
    ShowsAll (header ++ front ++ rest) (.field (toString tag.number) text :: lines)
  /-- A payload is in a block. -/
  | nested {tag : Tag} {payload header front rest : Bytes} {inner lines : List Line}
    (tagged : tag.SpelledBy header) (framing : tag.wireType = .lengthDelimited)
    (value : (WireValue.lengthDelimited payload).SpelledBy front)
    (inside : ShowsAll payload inner) (others : ShowsAll rest lines) :
    ShowsAll (header ++ front ++ rest) (Line.block (toString tag.number) inner ++ lines)
  /-- A group is in a block. -/
  | group {tag stop : Tag} {header body stopHeader rest : Bytes} {inner lines : List Line}
    (tagged : tag.SpelledBy header) (opens : tag.wireType = .startGroup)
    (inside : ShowsAll body inner) (closes : stop.wireType = .endGroup)
    (same : stop.number = tag.number) (end_tag : stop.SpelledBy stopHeader)
    (others : ShowsAll rest lines) :
    ShowsAll (header ++ (body ++ stopHeader) ++ rest)
      (Line.block (toString tag.number) inner ++ lines)

/-- The bytes have lines that show all of their fields, whatever stands behind them. -/
def Shown (cap : Nat) (bytes : Bytes) : Prop :=
  ∃ lines, Precedes cap bytes lines ∧ ∀ rest more, ShowsAll rest more →
    ShowsAll (bytes ++ rest) (lines ++ more)

theorem Shown.append {cap : Nat} {a b : Bytes} (h : Shown cap a) (h' : Shown cap b) :
    Shown cap (a ++ b) := by
  obtain ⟨lines, hprecedes, hshows⟩ := h
  obtain ⟨more, hprecedes', hshows'⟩ := h'
  refine ⟨lines ++ more, hprecedes.append hprecedes', fun rest others hrest => ?_⟩
  rw [List.append_assoc, List.append_assoc]
  exact hshows _ _ (hshows' _ _ hrest)

/-- All fields are shown behind the tag of a value, and where there is no value. -/
def PhraseShown (cap : Nat) : Phrase → Bytes → Prop
  | .value tag, bytes => ∀ header, tag.SpelledBy header → Shown cap (header ++ bytes)
  | .fields, bytes => Shown cap bytes

/-- A value on a line, or a payload in which all fields are shown. -/
theorem shown_framed {cap : Nat} {tag : Tag} {v : WireValue} {header front : Bytes}
    (hinner : ∀ payload, LooksNested cap payload → Shown (cap - 1) payload)
    (hheader : tag.SpelledBy header) (hframing : v.wireType = tag.wireType)
    (hfront : v.SpelledBy front) : Shown cap (header ++ front) := by
  by_cases hnested : ∃ payload, v = .lengthDelimited payload ∧ LooksNested cap payload
  · obtain ⟨payload, rfl, hlooks⟩ := hnested
    obtain ⟨inner, hprecedes, hshows⟩ := hinner payload hlooks
    obtain ⟨cap, rfl⟩ := Nat.exists_eq_succ_of_ne_zero (n := cap) (Nat.ne_of_gt hlooks.1)
    refine ⟨Line.block (toString tag.number) inner, fun group? rest more behind? hrest => ?_,
      fun rest more hrest => ?_⟩
    · rw [List.append_assoc]
      exact .nested hheader hframing.symm hfront hlooks hprecedes.rendering hrest
    · have hall := hshows [] [] .nil
      rw [List.append_nil, List.append_nil] at hall
      exact .nested hheader hframing.symm hfront hall hrest
  · refine ⟨[.field (toString tag.number) (valueText v)], fun group? rest more behind? hrest => ?_,
      fun rest more hrest => .line hheader hframing hfront hrest⟩
    rw [List.append_assoc]
    exact .line hheader hframing hfront (fun payload hv hlooks => hnested ⟨payload, hv, hlooks⟩)
      hrest

theorem shown_of_spelledBy {cap : Nat} {phrase : Phrase} {levels : Nat} {bytes : Bytes}
    (h : phrase.SpelledBy levels bytes) : PhraseShown cap phrase bytes := by
  -- payloads are no parts of the phrase, but are shown with fewer guesses
  induction cap using Nat.strongRecOn generalizing phrase levels bytes with
  | ind cap ihcap =>
    have hinner : ∀ payload, LooksNested cap payload → Shown (cap - 1) payload := by
      rintro payload ⟨hcap, -, hdecodes⟩
      obtain ⟨levels, hpayload⟩ := decodesUnlimited_iff.1 hdecodes
      exact ihcap (cap - 1) (by omega) hpayload
    induction h with
    | framed framing value =>
      exact fun header hheader => shown_framed hinner hheader framing value
    | @group tag stop levels body header opens closes same _ end_tag ih =>
      obtain ⟨inner, hprecedes, hshows⟩ := ih
      refine fun start hstart => ⟨Line.block (toString tag.number) inner,
        fun group? rest more behind? hrest => ?_, fun rest more hrest => ?_⟩
      · have hclose : Rendering cap (some stop.number) (header ++ rest) [] (some rest) :=
          .close end_tag closes
        have hinside := hprecedes _ _ _ _ hclose
        rw [same, List.append_nil] at hinside
        rw [List.append_assoc, List.append_assoc]
        exact .group hstart opens hinside hrest
      · have hall := hshows [] [] .nil
        rw [List.append_nil, List.append_nil] at hall
        exact .group hstart opens hall closes same end_tag hrest
    | nil => exact ⟨[], fun _ _ _ _ hrest => hrest, fun _ _ hrest => hrest⟩
    | cons tagged _ _ ihvalue ihothers => exact (ihvalue _ tagged).append ihothers

theorem unknownLines_eq_iff {options : PrintOptions} (hprint : options.printUnknown = true)
    {bytes : Bytes} {lines : List Line} :
    unknownLines options bytes = lines ↔
      Rendering options.unknownDepth none bytes lines none := by
  rw [unknownLines, if_pos hprint]
  exact unknownFieldLines_eq_iff

/-- Every field of bytes that are nothing but fields is shown, and what stands behind them is shown
behind them as if it came alone. -/
theorem unknownLines_of_spelledBy {options : PrintOptions} (hprint : options.printUnknown = true)
    {levels : Nat} {bytes : Bytes} (h : Phrase.fields.SpelledBy levels bytes) :
    ShowsAll bytes (unknownLines options bytes) ∧ ∀ more,
      unknownLines options (bytes ++ more) =
        unknownLines options bytes ++ unknownLines options more := by
  obtain ⟨lines, hprecedes, hshows⟩ :=
    show Shown options.unknownDepth bytes from shown_of_spelledBy h
  have hlines : unknownLines options bytes = lines :=
    (unknownLines_eq_iff hprint).2 hprecedes.rendering
  have hall := hshows [] [] .nil
  rw [List.append_nil, List.append_nil] at hall
  rw [hlines]
  refine ⟨hall, fun more => (unknownLines_eq_iff hprint).2 ?_⟩
  exact hprecedes _ _ _ _ ((unknownLines_eq_iff hprint).1 rfl)

/-- What is printed of unknown bytes is their rendering. If a message without fields is decoded from
the bytes, without a limit, then each of their fields is shown, and what stands behind them is
printed behind them as if it came alone, however far the lines are indented. -/
theorem unknownLines_rendering (options : PrintOptions) (hprint : options.printUnknown = true)
    (bytes : Bytes) :
    (∀ lines, unknownLines options bytes = lines ↔
      Rendering options.unknownDepth none bytes lines none) ∧
    (DecodesUnlimited bytes →
      ShowsAll bytes (unknownLines options bytes) ∧
      ∀ more depth, String.join (Line.indented depth (unknownLines options (bytes ++ more))) =
        String.join (Line.indented depth (unknownLines options bytes)) ++
          String.join (Line.indented depth (unknownLines options more))) := by
  refine ⟨fun lines => unknownLines_eq_iff hprint, fun hdecodes => ?_⟩
  obtain ⟨levels, hspelled⟩ := decodesUnlimited_iff.1 hdecodes
  obtain ⟨hall, happend⟩ := unknownLines_of_spelledBy hprint hspelled
  refine ⟨hall, fun more depth => ?_⟩
  have hdepth := (numbered_unknownLines options bytes).finalDepth_eq depth
  rw [happend more, Line.indented_append, hdepth, String.join_append]

/-- A number, a group with a payload in it that is shown as a block, and behind them a group that
does not end. -/
theorem unknownLines_rendering_group :
    DecodesUnlimited [8, 5, 19, 26, 2, 8, 1, 20] ∧
      ShowsAll [8, 5, 19, 26, 2, 8, 1, 20] [.field "1" "5", .opening "2", .opening "3",
        .field "1" "1", .closing, .closing] ∧
      Line.render (unknownLines {} ([8, 5, 19, 26, 2, 8, 1, 20] ++ [11, 16, 7])) =
        "1: 5\n2 \x7b\n  3 \x7b\n    1: 1\n  \x7d\n\x7d\n1 \x7b\n  2: 7\n\x7d\n" := by
  have hdecodes : DecodesUnlimited [8, 5, 19, 26, 2, 8, 1, 20] :=
    RawField.areFields_iff.1 (by decide)
  obtain ⟨hall, happend⟩ :=
    (unknownLines_rendering {} rfl [8, 5, 19, 26, 2, 8, 1, 20]).2 hdecodes
  refine ⟨hdecodes, hall, (happend [11, 16, 7] 0).trans ?_⟩
  decide +kernel

end Text

end Protobuf
