import Mathlib.Logic.Relation
import Protobuf.Proofs.Failure
import Protobuf.Proofs.RawFields

/-!
# Where tags are expected

An input is walked through without knowing any type, from one tag to the next one, while the groups
that are open are kept on a stack. A tag is expected at the places where such a walk comes to
(`ExpectsTag`), and with the groups on its stack open: there is only one walk
(`WireStep.rightUnique`).
-/

namespace Protobuf

open Reader

/-- The reader that stands this many bytes behind the start of an input. -/
def Reader.standing (input : Bytes) (k : Nat) : Reader := ⟨input.drop k, k, 0⟩

/-- From one place where a tag is expected to the next one: over a tag and its value, or over a tag
that opens or closes a group. The numbers of the open groups come with the place, innermost
first. -/
inductive WireStep (input : Bytes) : List Nat × Nat → List Nat × Nat → Prop
  /-- A tag and its value. -/
  | value {stack : List Nat} {k : Nat} {tag : Tag} {u t : Reader} {v : WireValue}
    (tag_eq : nextTag (standing input k) = .ok (some tag) u)
    (value_eq : wireValue tag.wireType u = .ok v t) : WireStep input (stack, k) (stack, t.position)
  /-- A group opens. -/
  | opened {stack : List Nat} {k : Nat} {tag : Tag} {u : Reader}
    (tag_eq : nextTag (standing input k) = .ok (some tag) u)
    (wireType_eq : tag.wireType = .startGroup) :
    WireStep input (stack, k) (tag.number :: stack, u.position)
  /-- The innermost group closes. -/
  | closed {stack : List Nat} {k number : Nat} {tag : Tag} {u : Reader}
    (tag_eq : nextTag (standing input k) = .ok (some tag) u)
    (wireType_eq : tag.wireType = .endGroup) (number_eq : tag.number = number) :
    WireStep input (number :: stack, k) (stack, u.position)

/-- Some bytes behind the start of the input a tag is expected, while groups with these numbers are
open, innermost first. Where no group is open, the place is one between top-level fields. -/
def ExpectsTag (input : Bytes) (stack : List Nat) (k : Nat) : Prop :=
  Relation.ReflTransGen (WireStep input) ([], 0) (stack, k)

namespace Reader

variable {r t : Reader} {tag : Tag}

theorem position_lt_of_nextTag (h : nextTag r = .ok (some tag) t) : r.position < t.position := by
  obtain ⟨bytes, ⟨-, hposition, -⟩, hlength⟩ := consumes_of_nextTag h
  omega

theorem position_le_of_wireValue {wireType : WireType} {v : WireValue}
    (h : wireValue wireType r = .ok v t) : r.position ≤ t.position :=
  (steady_wireValue _ _ _ _ h).position_le

end Reader

/-! ## There is only one walk -/

variable {input : Bytes} {stack stack' : List Nat} {k k' p : Nat}

theorem WireStep.lt {a b : List Nat × Nat} (h : WireStep input a b) : a.2 < b.2 := by
  cases h with
  | value htag hv =>
    exact Nat.lt_of_lt_of_le (position_lt_of_nextTag htag) (position_le_of_wireValue hv)
  | opened htag | closed htag => exact position_lt_of_nextTag htag

theorem WireStep.rightUnique (input : Bytes) : Relator.RightUnique (WireStep input) := by
  intro a b c hb hc
  cases hb with
  | value htag hv =>
    obtain ⟨hstart, hend⟩ := wireType_of_wireValue hv
    cases hc with
    | value htag' hv' =>
      cases htag.symm.trans htag'
      cases hv.symm.trans hv'
      rfl
    | opened htag' hw =>
      cases htag.symm.trans htag'
      exact absurd hw hstart
    | closed htag' hw =>
      cases htag.symm.trans htag'
      exact absurd hw hend
  | opened htag hw =>
    cases hc with
    | value htag' hv =>
      cases htag.symm.trans htag'
      exact absurd hw (wireType_of_wireValue hv).1
    | opened htag' =>
      cases htag.symm.trans htag'
      rfl
    | closed htag' hw' =>
      cases htag.symm.trans htag'
      cases hw.symm.trans hw'
  | closed htag hw =>
    cases hc with
    | value htag' hv =>
      cases htag.symm.trans htag'
      exact absurd hw (wireType_of_wireValue hv).2
    | opened htag' hw' =>
      cases htag.symm.trans htag'
      cases hw.symm.trans hw'
    | closed htag' =>
      cases htag.symm.trans htag'
      rfl

theorem le_of_wireSteps {a b : List Nat × Nat}
    (h : Relation.ReflTransGen (WireStep input) a b) : a.2 ≤ b.2 := by
  induction h with
  | refl => exact Nat.le_refl _
  | tail _ hstep ih => exact Nat.le_trans ih (Nat.le_of_lt hstep.lt)

/-- Walking on leads to the same place only where nothing is walked. -/
theorem eq_of_wireSteps {a b : List Nat × Nat}
    (h : Relation.ReflTransGen (WireStep input) a b) (hle : b.2 ≤ a.2) : a = b := by
  rcases Relation.ReflTransGen.cases_head h with heq | ⟨c, hstep, hrest⟩
  · exact heq
  · have hlt := hstep.lt
    have hrest := le_of_wireSteps hrest
    omega

namespace ExpectsTag

theorem zero (input : Bytes) : ExpectsTag input [] 0 := .refl

theorem step (h : ExpectsTag input stack k) (hs : WireStep input (stack, k) (stack', k')) :
    ExpectsTag input stack' k' :=
  h.tail hs

theorem total (h : ExpectsTag input stack k) (h' : ExpectsTag input stack' k') :
    Relation.ReflTransGen (WireStep input) (stack, k) (stack', k') ∨
      Relation.ReflTransGen (WireStep input) (stack', k') (stack, k) :=
  Relation.ReflTransGen.total_of_right_unique (WireStep.rightUnique input) h h'

/-- Which groups are open depends on the place only. -/
theorem stack_eq (h : ExpectsTag input stack k) (h' : ExpectsTag input stack' k) :
    stack = stack' := by
  rcases h.total h' with hsteps | hsteps
  · exact congrArg Prod.fst (eq_of_wireSteps hsteps (Nat.le_refl _))
  · exact congrArg Prod.fst (eq_of_wireSteps hsteps (Nat.le_refl _)).symm

/-- No tag is expected in the midst of a step. -/
theorem not_between (h : ExpectsTag input stack k)
    (hs : WireStep input (stack, k) (stack', k')) (hlt : k < p) (hlt' : p < k')
    (other : List Nat) : ¬ ExpectsTag input other p := by
  intro hp
  rcases h.total hp with hsteps | hsteps
  · rcases Relation.ReflTransGen.cases_head hsteps with heq | ⟨c, hstep, hrest⟩
    · cases heq
      exact absurd hlt (Nat.lt_irrefl _)
    · cases WireStep.rightUnique input hstep hs
      exact absurd (le_of_wireSteps hrest) (Nat.not_le_of_lt hlt')
  · exact absurd (le_of_wireSteps hsteps) (Nat.not_le_of_lt hlt)

end ExpectsTag

/-! ## Readers on the walk -/

namespace Reader

/-- The reader's region reaches to the end of the input. -/
def StandsIn (input : Bytes) (r : Reader) : Prop := r.rest = input.drop r.position

variable {r t u : Reader} {tag : Tag}

theorem StandsIn.before (h : r.StandsIn input) (hb : r.Before t) : t.StandsIn input := by
  obtain ⟨bytes, hrest, hposition, -⟩ := hb
  have hdrop := congrArg (List.drop bytes.length) (hrest.symm.trans h)
  rwa [List.drop_left, List.drop_drop, ← hposition] at hdrop

/-- How many messages are open does not matter to the walk. -/
theorem StandsIn.eq_deepen (h : r.StandsIn input) :
    r = (standing input r.position).deepen r.depth := by
  obtain ⟨rest, position, depth⟩ := r
  have h : rest = input.drop position := h
  simp only [standing, deepen, h, Nat.zero_add]

theorem StandsIn.nextTag_standing (h : r.StandsIn input) (htag : nextTag r = .ok (some tag) u) :
    ∃ v, nextTag (standing input r.position) = .ok (some tag) v ∧ u = v.deepen r.depth := by
  rw [h.eq_deepen] at htag
  obtain ⟨v, hu, hv⟩ := ignoresDepth_nextTag _ _ _ _ htag
  exact ⟨v, hv, hu⟩

theorem StandsIn.wireStep_value (h : r.StandsIn input) (htag : nextTag r = .ok (some tag) u)
    {v : WireValue} (hv : wireValue tag.wireType u = .ok v t) (stack : List Nat) :
    WireStep input (stack, r.position) (stack, t.position) := by
  obtain ⟨u, hstanding, rfl⟩ := h.nextTag_standing htag
  obtain ⟨t, rfl, hvalue⟩ := ignoresDepth_wireValue _ _ _ _ _ hv
  show WireStep input (stack, r.position) (stack, t.position)
  exact .value hstanding hvalue

theorem StandsIn.wireStep_opened (h : r.StandsIn input) (htag : nextTag r = .ok (some tag) u)
    (hw : tag.wireType = .startGroup) (stack : List Nat) :
    WireStep input (stack, r.position) (tag.number :: stack, u.position) := by
  obtain ⟨u, hstanding, rfl⟩ := h.nextTag_standing htag
  show WireStep input (stack, r.position) (tag.number :: stack, u.position)
  exact .opened hstanding hw

theorem StandsIn.wireStep_closed (h : r.StandsIn input) (htag : nextTag r = .ok (some tag) u)
    (hw : tag.wireType = .endGroup) {number : Nat} (hn : tag.number = number)
    (stack : List Nat) : WireStep input (number :: stack, r.position) (stack, u.position) := by
  obtain ⟨u, hstanding, rfl⟩ := h.nextTag_standing htag
  show WireStep input (number :: stack, r.position) (stack, u.position)
  exact .closed hstanding hw hn

/-! ## Skipping follows the walk -/

variable {limit rounds number : Nat} {outer other : List Nat}

/-- Skipping what groups hold goes one step, and then goes on with the groups that are open. -/
theorem StandsIn.wireStep_skipGroups (hr : r.StandsIn input)
    (h : skipGroups limit (rounds + 1) (number :: stack) r = .ok () t) (outer : List Nat) :
    ∃ stack' u,
      WireStep input (number :: (stack ++ outer), r.position) (stack' ++ outer, u.position) ∧
        u.StandsIn input ∧ skipGroups limit rounds stack' u = .ok () t := by
  rw [skipGroups_succ] at h
  split at h
  · cases h
  · obtain ⟨tag?, u, htag, h⟩ := bind_eq_ok.1 h
    cases tag? with
    | none => cases h
    | some tag =>
      have hu : u.StandsIn input := hr.before (steady_nextTag _ _ _ htag)
      cases hw : tag.wireType with
      | endGroup =>
        simp only [skipRound, hw] at h
        split at h
        · exact ⟨stack, u, hr.wireStep_closed htag hw ‹_› _, hu, h⟩
        · cases h
      | startGroup =>
        simp only [skipRound, hw] at h
        exact ⟨tag.number :: number :: stack, u, hr.wireStep_opened htag hw _, hu, h⟩
      | varint | fixed64 | lengthDelimited | fixed32 =>
        simp only [skipRound, hw] at h
        obtain ⟨v, w, hv, h⟩ := bind_eq_ok.1 h
        rw [← hw] at hv
        exact ⟨number :: stack, w, hr.wireStep_value htag hv _,
          hu.before (steady_wireValue _ _ _ _ hv), h⟩

/-- While groups of a stack are skipped, tags are expected only where some of them are open; then
one is expected outside of them. -/
theorem StandsIn.expectsTag_skipGroups (hr : r.StandsIn input)
    (h : skipGroups limit rounds stack r = .ok () t)
    (hplace : ExpectsTag input (stack ++ outer) r.position) :
    ExpectsTag input outer t.position ∧ ∀ other k, ExpectsTag input other k → r.position ≤ k →
      k < t.position → ∃ number inner, other = number :: (inner ++ outer) := by
  induction rounds generalizing stack r with
  | zero =>
    cases stack with
    | nil =>
      cases h
      exact ⟨hplace, fun _ _ _ hle hlt => absurd hle (Nat.not_le_of_lt hlt)⟩
    | cons number stack => cases h
  | succ rounds ih =>
    cases stack with
    | nil =>
      cases h
      exact ⟨hplace, fun _ _ _ hle hlt => absurd hle (Nat.not_le_of_lt hlt)⟩
    | cons number stack =>
      obtain ⟨stack', u, hstep, hu, h⟩ := hr.wireStep_skipGroups h outer
      obtain ⟨hend, hinside⟩ := ih hu h (hplace.step hstep)
      refine ⟨hend, fun other k hk hle hlt => ?_⟩
      rcases Nat.eq_or_lt_of_le hle with rfl | hle
      · exact ⟨number, stack, hk.stack_eq hplace⟩
      · by_cases hku : k < u.position
        · exact absurd hk (hplace.not_between hstep hle hku other)
        · exact hinside other k hk (Nat.le_of_not_lt hku) hlt

/-- A skipped field leads from a place where a tag is expected to another one; between the two, tags
are expected only inside groups of the field. -/
theorem StandsIn.expectsTag_skip (hr : r.StandsIn input)
    (hplace : ExpectsTag input stack r.position) (htag : nextTag r = .ok (some tag) u)
    (h : skip limit tag u = .ok () t) :
    ExpectsTag input stack t.position ∧ ∀ other k, ExpectsTag input other k → r.position < k →
      k < t.position → ∃ number inner, other = number :: (inner ++ stack) := by
  by_cases hw : tag.wireType = .startGroup
  · rw [skip, if_pos hw, run_bind_of_ok (run_get u)] at h
    have hstep := hr.wireStep_opened htag hw stack
    have hu : u.StandsIn input := hr.before (steady_nextTag _ _ _ htag)
    have hplace' : ExpectsTag input ([tag.number] ++ stack) u.position := hplace.step hstep
    obtain ⟨hend, hinside⟩ := hu.expectsTag_skipGroups h hplace'
    refine ⟨hend, fun other k hk hlt => ?_⟩
    by_cases hku : k < u.position
    · exact absurd hk (hplace.not_between hstep hlt hku other)
    · exact hinside other k hk (Nat.le_of_not_lt hku)
  · obtain ⟨v, hv⟩ := wireValue_of_skip hw h
    have hstep := hr.wireStep_value htag hv stack
    exact ⟨hplace.step hstep,
      fun other k hk hlt hlt' => absurd hk (hplace.not_between hstep hlt hlt' other)⟩

/-- A field leads over its tag at least. -/
theorem StandsIn.exists_wireStep (hr : r.StandsIn input) (htag : nextTag r = .ok (some tag) u)
    (h : skip limit tag u = .ok () t) (stack : List Nat) :
    ∃ stack' k, WireStep input (stack, r.position) (stack', k) ∧ u.position ≤ k := by
  by_cases hw : tag.wireType = .startGroup
  · exact ⟨_, _, hr.wireStep_opened htag hw stack, Nat.le_refl _⟩
  · obtain ⟨v, hv⟩ := wireValue_of_skip hw h
    exact ⟨_, _, hr.wireStep_value htag hv stack, position_le_of_wireValue hv⟩

end Reader

/-- Between top-level fields, and nowhere else, a tag is expected while no group is open. -/
theorem RawField.Run.expectsTag_iff {limit : Nat} {r t : Reader} {fields : List RawField}
    (h : RawField.Run limit r fields t) (hr : r.StandsIn input)
    (hplace : ExpectsTag input [] r.position) (hle : r.position ≤ k) (hle' : k ≤ t.position) :
    ExpectsTag input [] k ↔
      ∃ n, k = r.position + ((fields.take n).flatMap RawField.bytes).length := by
  induction h with
  | nil r =>
    obtain rfl : r.position = k := Nat.le_antisymm hle hle'
    exact ⟨fun _ => ⟨0, rfl⟩, fun _ => hplace⟩
  | @cons r u v t tag fields htag _ hskip _ ih =>
    obtain ⟨hnext, hinside⟩ := hr.expectsTag_skip hplace htag hskip
    obtain ⟨bytes, hbytes⟩ := before_of_skip htag hskip
    have hposition : v.position = r.position + (r.consumed v).length := by
      rw [hbytes.consumed_eq]
      exact hbytes.2.1
    have hv : v.StandsIn input := hr.before ⟨bytes, hbytes⟩
    constructor
    · intro hk
      rcases Nat.eq_or_lt_of_le hle with rfl | hlt
      · exact ⟨0, rfl⟩
      · by_cases hkv : v.position ≤ k
        · obtain ⟨n, hn⟩ := (ih hv hnext hkv hle').1 hk
          refine ⟨n + 1, ?_⟩
          rw [List.take_succ_cons, List.flatMap_cons, List.length_append, ← Nat.add_assoc,
            ← hposition, hn]
        · obtain ⟨number, inner, heq⟩ := hinside [] k hk hlt (Nat.lt_of_not_le hkv)
          cases heq
    · rintro ⟨n, hn⟩
      cases n with
      | zero => exact hn ▸ hplace
      | succ n =>
        rw [List.take_succ_cons, List.flatMap_cons, List.length_append, ← Nat.add_assoc,
          ← hposition] at hn
        exact (ih hv hnext (hn ▸ Nat.le_add_right _ _) hle').2 ⟨n, hn⟩

end Protobuf
