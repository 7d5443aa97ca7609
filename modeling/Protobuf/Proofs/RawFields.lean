import Protobuf.Message.RawField
import Protobuf.Proofs.Success

/-!
# Skipping raw fields

Skipping keeps the numbers of the open groups on a stack. Here a run of skipped fields is a relation
of its own, in which a group is skipped by skipping the fields inside it one level deeper
(`Reader.skip_of_run`), and cutting some bytes into raw fields is such a run
(`RawField.split_of_run`).
-/

namespace Protobuf

variable {α β : Type}

namespace Reader

/-! ## More open messages -/

/-- The same place with more messages open. -/
def deepen (r : Reader) (count : Nat) : Reader := { r with depth := r.depth + count }

/-- The action does the same, also where it fails, however many messages are open. -/
def Uniform (x : Reading Reader α) : Prop :=
  ∀ (r : Reader) (count : Nat), x (r.deepen count) =
    match x r with
    | .ok a t => .ok a (t.deepen count)
    | .error e t => .error e (t.deepen count)

namespace Uniform

theorem pure (a : α) : Uniform (pure a) := fun _ _ => rfl

theorem throw (e : Error) : Uniform (α := α) (throw e) := fun _ _ => rfl

theorem bind {x : Reading Reader α} {f : α → Reading Reader β} (hx : Uniform x)
    (hf : ∀ a, Uniform (f a)) : Uniform (x >>= f) := by
  intro r count
  rw [run_bind, run_bind, hx r count]
  cases x r with
  | ok a t => exact hf a t count
  | error e t => rfl

theorem map {x : Reading Reader α} (hx : Uniform x) (f : α → β) : Uniform (f <$> x) := by
  rw [map_eq_bind]
  exact hx.bind fun _ => .pure _

theorem ite {c : Prop} [Decidable c] {x y : Reading Reader α} (hx : Uniform x)
    (hy : Uniform y) : Uniform (if c then x else y) := by
  split
  · exact hx
  · exact hy

/-- What is done with the place must not depend on how many messages are open there. -/
theorem get {f : Reader → Reading Reader α} (hf : ∀ r, Uniform (f r))
    (hdeepen : ∀ r count, f (r.deepen count) = f r) : Uniform (get >>= f) := by
  intro r count
  rw [run_bind_of_ok (run_get _), run_bind_of_ok (run_get r), hdeepen]
  exact hf r r count

variable {x : Reading Reader α} {r t : Reader} {a : α} {e : Error}

theorem ok (hx : Uniform x) (h : x r = .ok a t) (count : Nat) :
    x (r.deepen count) = .ok a (t.deepen count) := by
  rw [hx, h]

theorem error (hx : Uniform x) (h : x r = .error e t) (count : Nat) :
    x (r.deepen count) = .error e (t.deepen count) := by
  rw [hx, h]

end Uniform

theorem uniform_rawVarint : Uniform rawVarint := by
  intro r count
  rw [rawVarint, run_bind_of_ok (run_get _), run_bind_of_ok (run_get r), deepen]
  dsimp only
  cases Varint.decode r.rest <;> rfl

theorem uniform_word (width : Nat) : Uniform (word width) := by
  intro r count
  rw [word, run_bind_of_ok (run_get _), run_bind_of_ok (run_get r), deepen, remaining, remaining]
  dsimp only
  split <;> rfl

theorem uniform_length : Uniform length :=
  .get (fun _ => uniform_rawVarint.bind fun _ => .get (fun _ => .ite (.throw _) (.pure _))
    fun _ _ => rfl) fun _ _ => rfl

theorem uniform_delimited : Uniform delimited :=
  uniform_length.bind fun _ _ _ => rfl

theorem uniform_nextTag : Uniform nextTag := by
  refine .get (fun start => .ite (.pure _) (uniform_rawVarint.bind fun raw => ?_)) fun _ _ => rfl
  split
  · exact .pure _
  · exact .throw _

theorem uniform_wireValue (wireType : WireType) : Uniform (wireValue wireType) := by
  cases wireType with
  | varint => exact uniform_rawVarint.map _
  | fixed64 => exact (uniform_word 8).map _
  | fixed32 => exact (uniform_word 4).map _
  | lengthDelimited => exact uniform_delimited.map _
  | startGroup | endGroup => exact .get (fun _ => .throw _) fun _ _ => rfl

/-- Success of the action does not depend on how many messages are open. -/
def IgnoresDepth (x : Reading Reader α) : Prop :=
  ∀ (r : Reader) (count : Nat) (a : α) (t : Reader), x (r.deepen count) = .ok a t →
    ∃ u, t = u.deepen count ∧ x r = .ok a u

theorem Uniform.ignoresDepth {x : Reading Reader α} (hx : Uniform x) : IgnoresDepth x := by
  intro r count a t h
  rw [hx r count] at h
  cases hr : x r with
  | ok b u =>
    rw [hr] at h
    cases h
    exact ⟨u, rfl, rfl⟩
  | error e u =>
    rw [hr] at h
    cases h

theorem ignoresDepth_delimited : IgnoresDepth delimited := uniform_delimited.ignoresDepth

theorem ignoresDepth_nextTag : IgnoresDepth nextTag := uniform_nextTag.ignoresDepth

theorem ignoresDepth_wireValue (wireType : WireType) : IgnoresDepth (wireValue wireType) :=
  (uniform_wireValue wireType).ignoresDepth

/-! ## The stack of open groups -/

section

variable {limit number : Nat} {outer : List Nat} {rounds : Nat} {r u : Reader} {tag : Tag}
  (hd : r.depth + (outer.length + 1) ≤ limit) (htag : nextTag r = .ok (some tag) u)

include hd htag

theorem run_skipGroups :
    skipGroups limit (rounds + 1) (number :: outer) r =
      skipRound (skipGroups limit rounds) r number outer tag u := by
  rw [skipGroups_succ, if_neg (by omega), run_bind_of_ok htag]

/-- The end tag of the innermost group closes it. -/
theorem skipGroups_of_endGroup (hw : tag.wireType = .endGroup) (hn : tag.number = number) :
    skipGroups limit (rounds + 1) (number :: outer) r = skipGroups limit rounds outer u := by
  rw [run_skipGroups hd htag, skipRound, hw]
  exact congrFun (if_pos hn) u

theorem skipGroups_of_startGroup (hw : tag.wireType = .startGroup) :
    skipGroups limit (rounds + 1) (number :: outer) r =
      skipGroups limit rounds (tag.number :: number :: outer) u := by
  rw [run_skipGroups hd htag, skipRound, hw]

theorem skipGroups_of_wireValue {v : WireValue} {t : Reader}
    (hv : wireValue tag.wireType u = .ok v t) :
    skipGroups limit (rounds + 1) (number :: outer) r =
      skipGroups limit rounds (number :: outer) t := by
  rw [run_skipGroups hd htag, skipRound]
  cases hw : tag.wireType with
  | startGroup | endGroup =>
    rw [hw] at hv
    cases hv
  | _ =>
    rw [hw] at hv
    exact run_bind_of_ok hv

theorem skipGroups_of_mismatched (hw : tag.wireType = .endGroup) (hn : tag.number ≠ number) :
    skipGroups limit (rounds + 1) (number :: outer) r =
      .error (.malformed r.position (.mismatchedEndGroup tag.number number)) u := by
  rw [run_skipGroups hd htag, skipRound, hw]
  exact congrFun (if_neg hn) u

theorem skipGroups_of_wireValue_error (hs : tag.wireType ≠ .startGroup)
    (he : tag.wireType ≠ .endGroup) {e : Error} {t : Reader}
    (hv : wireValue tag.wireType u = .error e t) :
    skipGroups limit (rounds + 1) (number :: outer) r = .error e t := by
  rw [run_skipGroups hd htag, skipRound]
  cases hw : tag.wireType with
  | startGroup => exact absurd hw hs
  | endGroup => exact absurd hw he
  | _ =>
    rw [hw] at hv
    exact run_bind_of_error hv

omit htag in
theorem skipGroups_of_nextTag_none (hnone : nextTag r = .ok none u) :
    skipGroups limit (rounds + 1) (number :: outer) r =
      .error (.malformed r.position (.unclosedGroup number)) u := by
  rw [skipGroups_succ, if_neg (by omega), run_bind_of_ok hnone]
  rfl

omit htag in
theorem skipGroups_of_nextTag_error {e : Error} (herror : nextTag r = .error e u) :
    skipGroups limit (rounds + 1) (number :: outer) r = .error e u := by
  rw [skipGroups_succ, if_neg (by omega)]
  exact run_bind_of_error herror

end

theorem wireType_of_wireValue {wireType : WireType} {v : WireValue} {r t : Reader}
    (h : wireValue wireType r = .ok v t) : wireType ≠ .startGroup ∧ wireType ≠ .endGroup := by
  constructor
  · rintro rfl
    cases h
  · rintro rfl
    cases h

theorem skip_of_wireValue {limit : Nat} {tag : Tag} {v : WireValue} {r t : Reader}
    (h : wireValue tag.wireType r = .ok v t) : skip limit tag r = .ok () t := by
  rw [skip, if_neg (wireType_of_wireValue h).1, run_bind_of_ok h]
  rfl

/-- Some groups are skipped as they are while no others are open outside, with as many messages
open as there are others, and then the others are skipped. -/
theorem skipGroups_append (limit : Nat) (stack base : List Nat) {rounds rounds' : Nat}
    {r : Reader} (hr : r.remaining < rounds) (hr' : r.remaining < rounds') :
    (∃ u rounds'', skipGroups limit rounds stack (r.deepen base.length) =
        .ok () (u.deepen base.length) ∧ u.remaining < rounds'' ∧
      skipGroups limit rounds' (stack ++ base) r = skipGroups limit rounds'' base u) ∨
    (∃ e t u, skipGroups limit rounds stack (r.deepen base.length) = .error e t ∧
      skipGroups limit rounds' (stack ++ base) r = .error e u) := by
  induction rounds generalizing stack r rounds' with
  | zero => omega
  | succ rounds ih =>
    cases stack with
    | nil => exact .inl ⟨r, rounds', by rw [skipGroups_nil]; rfl, hr', rfl⟩
    | cons number outer =>
      obtain ⟨rounds', rfl⟩ := Nat.exists_eq_succ_of_ne_zero (n := rounds') (by omega)
      have hlength : (r.deepen base.length).depth + (outer.length + 1) =
          r.depth + ((outer ++ base).length + 1) := by
        rw [List.length_append, deepen]
        dsimp only
        omega
      by_cases hd : r.depth + ((outer ++ base).length + 1) ≤ limit
      · have hd' := hlength ▸ hd
        rcases htag : nextTag r with ⟨_ | tag, u⟩ | ⟨e, u⟩
        · exact .inr ⟨_, _, _, skipGroups_of_nextTag_none hd' (uniform_nextTag.ok htag _),
            skipGroups_of_nextTag_none hd htag⟩
        · have hlt := remaining_of_nextTag htag
          have hdeep := uniform_nextTag.ok htag base.length
          by_cases he : tag.wireType = .endGroup
          · by_cases hn : tag.number = number
            · rw [List.cons_append, skipGroups_of_endGroup hd' hdeep he hn,
                skipGroups_of_endGroup hd htag he hn]
              exact ih _ (by omega) (by omega)
            · exact .inr ⟨_, _, _, skipGroups_of_mismatched hd' hdeep he hn,
                skipGroups_of_mismatched hd htag he hn⟩
          by_cases hs : tag.wireType = .startGroup
          · rw [List.cons_append, skipGroups_of_startGroup hd' hdeep hs,
              skipGroups_of_startGroup hd htag hs, ← List.cons_append, ← List.cons_append]
            exact ih _ (by omega) (by omega)
          rcases hvalue : wireValue tag.wireType u with ⟨v, t⟩ | ⟨e, t⟩
          · have hle : t.remaining ≤ u.remaining := (steady_wireValue _ _ _ _ hvalue).remaining_le
            rw [List.cons_append,
              skipGroups_of_wireValue hd' hdeep ((uniform_wireValue _).ok hvalue base.length),
              skipGroups_of_wireValue hd htag hvalue, ← List.cons_append]
            exact ih _ (by omega) (by omega)
          · exact .inr ⟨_, _, _, skipGroups_of_wireValue_error hd' hdeep hs he
              ((uniform_wireValue _).error hvalue _),
              skipGroups_of_wireValue_error hd htag hs he hvalue⟩
        · exact .inr ⟨_, _, _, skipGroups_of_nextTag_error hd' (uniform_nextTag.error htag _),
            skipGroups_of_nextTag_error hd htag⟩
      · refine .inr ⟨.recursionLimit limit, r.deepen base.length, r, ?_, ?_⟩
        · rw [skipGroups_succ, if_pos (by omega)]
        · rw [List.cons_append, skipGroups_succ, if_pos (by omega)]

/-- Skipping a field that is no group is reading its value. -/
theorem wireValue_of_skip {limit : Nat} {tag : Tag} {r t : Reader} (hw : tag.wireType ≠ .startGroup)
    (h : skip limit tag r = .ok () t) : ∃ v, wireValue tag.wireType r = .ok v t := by
  rw [skip, if_neg hw] at h
  obtain ⟨v, u, hv, hu⟩ := bind_eq_ok.1 h
  cases hu
  exact ⟨v, hv⟩

end Reader

/-! ## Runs of fields -/

namespace RawField

open Reader

/-- From one place to another over raw fields. -/
inductive Run (limit : Nat) : Reader → List RawField → Reader → Prop
  /-- No field is skipped. -/
  | nil (r : Reader) : Run limit r [] r
  /-- A field is skipped, and then others are. -/
  | cons {r u v w : Reader} {tag : Tag} {fields : List RawField}
    (tag_eq : nextTag r = .ok (some tag) u) (not_end : tag.wireType ≠ .endGroup)
    (skip_eq : skip limit tag u = .ok () v) (rest : Run limit v fields w) :
    Run limit r (⟨tag, r.consumed v⟩ :: fields) w

variable {limit : Nat}

theorem before_of_skip {r u v : Reader} {tag : Tag} (htag : nextTag r = .ok (some tag) u)
    (hskip : skip limit tag u = .ok () v) : r.Before v :=
  (steady_nextTag _ _ _ htag).trans (steady_skip _ _ _ _ _ hskip)

/-- The fields of a run are its bytes. -/
theorem Run.consumes {r t : Reader} {fields : List RawField} (h : Run limit r fields t) :
    r.Consumes (fields.flatMap RawField.bytes) t := by
  induction h with
  | nil r => exact .nil r
  | cons htag _ hskip _ ih => exact (before_of_skip htag hskip).consumes_consumed.append ih

theorem Run.append {r t u : Reader} {fields fields' : List RawField} (h : Run limit r fields t)
    (h' : Run limit t fields' u) : Run limit r (fields ++ fields') u := by
  induction h with
  | nil r => exact h'
  | cons htag hw hskip _ ih => exact .cons htag hw hskip (ih h')

/-- The fields in a group are skipped while the group is open. -/
theorem skipGroups_of_run (number : Nat) (outer : List Nat) {r t : Reader} {fields : List RawField}
    (h : Run limit (r.deepen (outer.length + 1)) fields t)
    (hd : r.depth + (outer.length + 1) ≤ limit) {rounds : Nat} (hr : r.remaining < rounds) :
    ∃ u rounds', t = u.deepen (outer.length + 1) ∧ u.remaining < rounds' ∧
      skipGroups limit rounds (number :: outer) r =
        skipGroups limit rounds' (number :: outer) u := by
  generalize hdeep : r.deepen (outer.length + 1) = deep at h
  induction h generalizing r rounds with
  | nil deep => exact ⟨r, rounds, hdeep.symm, hr, rfl⟩
  | @cons _ u v w tag fields htag hw hskip _ ih =>
    subst hdeep
    obtain ⟨u, rfl, hu⟩ := ignoresDepth_nextTag _ _ _ _ htag
    have hlt := remaining_of_nextTag hu
    have hdu : u.depth = r.depth := (steady_nextTag _ _ _ hu).depth_eq
    obtain ⟨rounds, rfl⟩ := Nat.exists_eq_succ_of_ne_zero (n := rounds) (by omega)
    by_cases hg : tag.wireType = .startGroup
    · rw [skip, if_pos hg, run_bind_of_ok (run_get _)] at hskip
      obtain ⟨v, rounds', hok, hr', heq⟩ | ⟨e, _, _, herror, -⟩ :=
        skipGroups_append limit [tag.number] (number :: outer) (Nat.lt_succ_self u.remaining)
          (show u.remaining < rounds by omega)
      rotate_left
      · cases herror.symm.trans hskip
      cases hok.symm.trans hskip
      have hdv : v.depth = u.depth := by
        have := (steady_skipGroups _ _ _ _ _ _ hskip).depth_eq
        exact Nat.add_right_cancel this
      rw [skipGroups_of_startGroup hd hu hg]
      obtain ⟨x, rounds'', hx, hr'', heq'⟩ := ih (r := v) (by omega) hr' rfl
      exact ⟨x, rounds'', hx, hr'', heq.trans heq'⟩
    · obtain ⟨value, hvalue⟩ := wireValue_of_skip hg hskip
      obtain ⟨v, rfl, hv⟩ := ignoresDepth_wireValue _ _ _ _ _ hvalue
      have hbefore := steady_wireValue _ _ _ _ hv
      have hle : v.remaining ≤ u.remaining := hbefore.remaining_le
      have hdv : v.depth = u.depth := hbefore.depth_eq
      rw [skipGroups_of_wireValue hd hu hv]
      exact ih (r := v) (by omega) (by omega) rfl

/-- A group is skipped by skipping the fields inside it one level deeper, up to its end tag. -/
theorem skip_of_run {tag stop : Tag} (hw : tag.wireType = .startGroup) {r t u : Reader}
    {fields : List RawField} (hd : r.depth + 1 ≤ limit) (h : Run limit (r.deepen 1) fields t)
    (hstop : nextTag t = .ok (some stop) u) (hend : stop.wireType = .endGroup)
    (hn : stop.number = tag.number) :
    skip limit tag r = .ok () { u with depth := u.depth - 1 } := by
  obtain ⟨v, rounds, rfl, hr, heq⟩ := skipGroups_of_run tag.number [] h hd
    (Nat.lt_succ_self r.remaining)
  obtain ⟨w, rfl, hv⟩ := ignoresDepth_nextTag _ _ _ _ hstop
  have hdv : v.depth = r.depth := by
    have := h.consumes.2.2
    exact Nat.add_right_cancel this
  obtain ⟨rounds, rfl⟩ := Nat.exists_eq_succ_of_ne_zero (n := rounds) (by omega)
  rw [skip, if_pos hw, run_bind_of_ok (run_get r), heq,
    skipGroups_of_endGroup (by rw [hdv]; exact hd) hv hend hn, skipGroups_nil]
  rfl

/-! ## Cutting bytes -/

theorem next_of_skip {r u v : Reader} {tag : Tag} (htag : nextTag r = .ok (some tag) u)
    (hskip : skip limit tag u = .ok () v) :
    next limit r = .ok (some ⟨tag, r.consumed v⟩) v := by
  rw [next, run_bind_of_ok (run_get r), run_bind_of_ok htag]
  refine (run_bind_of_ok hskip).trans ?_
  rw [run_bind_of_ok (run_get v)]
  rfl

theorem scan_of_run {r t : Reader} {fields : List RawField} (h : Run limit r fields t)
    (ht : t.rest = []) {rounds : Nat} (hr : r.remaining < rounds) :
    scan limit rounds r = (fields, []) := by
  induction h generalizing rounds with
  | nil r =>
    obtain ⟨rounds, rfl⟩ := Nat.exists_eq_succ_of_ne_zero (n := rounds) (by omega)
    have hnext : next limit r = .ok none r := by
      rw [next, run_bind_of_ok (run_get r), run_bind_of_ok (nextTag_eq_none.2 ⟨ht, rfl⟩)]
      rfl
    rw [scan, hnext, ht]
  | @cons r u v _ _ _ htag _ hskip _ ih =>
    obtain ⟨rounds, rfl⟩ := Nat.exists_eq_succ_of_ne_zero (n := rounds) (by omega)
    have hlt := remaining_of_nextTag htag
    have hle : v.remaining ≤ u.remaining := (steady_skip _ _ _ _ _ hskip).remaining_le
    rw [scan, next_of_skip htag hskip]
    dsimp only
    rw [ih ht (by omega)]

/-- Bytes that a run of fields covers are cut into these fields. -/
theorem split_of_run {bytes : Bytes} {t : Reader} {fields : List RawField}
    (h : Run limit (.new bytes) fields t) (ht : t.rest = []) : split limit bytes = (fields, []) :=
  scan_of_run h ht (Nat.lt_succ_self _)

end RawField

end Protobuf
