import Protobuf.Proofs.Failure

/-!
# Input that is cut off

A reading is compared with the same reading of input that ends earlier. Up to where the input was
cut off both do the same (`Curtailed`); a reading that would have gone beyond fails. What is behind
a length fails with a truncation, since its length promises more than is left. Only groups have no
length, and how they fail is left open here.
-/

namespace Protobuf

open Build

variable {σ τ α β : Type}

namespace Reader

/-- The reader at the same place of input that is cut off at a place. -/
def cut (p : Nat) (r : Reader) : Reader := { r with rest := r.rest.take (p - r.position) }

theorem cut_new (p : Nat) (bytes : Bytes) : (new bytes).cut p = new (bytes.take p) := rfl

theorem remaining_cut (p : Nat) (r : Reader) :
    (r.cut p).remaining = min (p - r.position) r.remaining :=
  List.length_take

theorem advance_cut (p : Nat) (r : Reader) (count : Nat) :
    (r.cut p).advance count = (r.advance count).cut p := by
  simp [cut, advance, List.drop_take, Nat.sub_sub]

/-- At the place where it is cut off nothing is left of the input. -/
theorem rest_cut_eq_nil {p : Nat} {r : Reader} (h : p ≤ r.position) : (r.cut p).rest = [] := by
  rw [cut, Nat.sub_eq_zero_of_le h, List.take_zero]

theorem consumed_cut {p : Nat} {t : Reader} (h : t.position ≤ p) (start : Reader) :
    (start.cut p).consumed (t.cut p) = start.consumed t := by
  have hle : t.position - start.position ≤ p - start.position := Nat.sub_le_sub_right h _
  simp only [consumed, cut, List.take_take, Nat.min_eq_left hle]

end Reader

theorem Error.eq_truncated_of_isTruncation {e : Error} (h : e.isTruncation = true) :
    ∃ offset, e = .truncated offset := by
  cases e with
  | truncated offset => exact ⟨offset, rfl⟩
  | _ => cases h

/-- The result of a run on input that is cut off at `p`, given that the run starts at the place
`start` and on the whole input gives `a` and ends in `t`. If the input reaches that far, it does the
same there; if it does not, it fails with an error of a certain sort. -/
structure Curtailed (place : σ → Reader) (cut : σ → σ) (p : Nat) (E : Error → Prop) (start : Nat)
    (a : α) (t : σ) (result : EStateM.Result Error σ α) : Prop where
  start_le : start ≤ (place t).position
  whole : (place t).position ≤ p → result = .ok a (cut t)
  broken : start ≤ p → p < (place t).position → ∃ e u, result = .error e u ∧ E e

namespace Curtailed

variable {place : σ → Reader} {cut : σ → σ} {p start : Nat} {E : Error → Prop}

/-- A run whose first part ends at the place `mid`. -/
theorem of_mid {mid : Nat} {a : α} {t : σ} {result : EStateM.Result Error σ α} (hle : start ≤ mid)
    (hend : mid ≤ (place t).position)
    (h : mid ≤ p → Curtailed place cut p E mid a t result)
    (hbroken : start ≤ p → p < mid → ∃ e u, result = .error e u ∧ E e) :
    Curtailed place cut p E start a t result where
  start_le := Nat.le_trans hle hend
  whole hp := (h (Nat.le_trans hend hp)).whole hp
  broken hp hlt := by
    by_cases hmid : mid ≤ p
    · exact (h hmid).broken hmid hlt
    · exact hbroken hp (Nat.lt_of_not_le hmid)

theorem bind {a : α} {b : β} {s t u : σ} {x : EStateM Error σ α} {f : α → EStateM Error σ β}
    (hx : Curtailed place cut p E start a t (x s)) (hle : (place t).position ≤ (place u).position)
    (hf : (place t).position ≤ p →
      Curtailed place cut p E (place t).position b u (f a (cut t))) :
    Curtailed place cut p E start b u ((x >>= f) s) := by
  refine of_mid hx.start_le hle (fun hp => ?_) fun hp hlt => ?_
  · rw [run_bind_of_ok (hx.whole hp)]
    exact hf hp
  · obtain ⟨e, v, hv, he⟩ := hx.broken hp hlt
    exact ⟨e, v, run_bind_of_error hv, he⟩

/-- A run that fails only where the cut is inside its bytes. -/
theorem imp {E' : Error → Prop} {a : α} {t : σ} {result : EStateM.Result Error σ α}
    (h : Curtailed place cut p E start a t result)
    (himp : start ≤ p → p < (place t).position → ∀ e, E e → E' e) :
    Curtailed place cut p E' start a t result where
  start_le := h.start_le
  whole := h.whole
  broken hp hlt := by
    obtain ⟨e, u, hu, he⟩ := h.broken hp hlt
    exact ⟨e, u, hu, himp hp hlt e he⟩

end Curtailed

/-- Wherever the action succeeds from a state, cutting off the input has no other effect than to
make it fail if the input then is too short. -/
def Cuttable (place : σ → Reader) (cut : σ → σ) (p : Nat) (E : Error → Prop)
    (x : EStateM Error σ α) (s : σ) : Prop :=
  ∀ a t, x s = .ok a t → Curtailed place cut p E (place s).position a t (x (cut s))

/-- Cutting off the input of a reading. -/
abbrev CutReads (p : Nat) (E : Error → Prop) (x : Reading Reader α) (r : Reader) : Prop :=
  Cuttable id (Reader.cut p) p E x r

/-- Cutting off the input of a builder. -/
abbrev CutBuilds (p : Nat) (E : Error → Prop) (x : Build Reader σ α) (s : σ) (r : Reader) : Prop :=
  Cuttable Prod.snd (Prod.map id (Reader.cut p)) p E x (s, r)

namespace Cuttable

variable {place : σ → Reader} {cut : σ → σ} {p : Nat} {E : Error → Prop}

theorem bind {x : EStateM Error σ α} {f : α → EStateM Error σ β} {s : σ}
    (hx : Cuttable place cut p E x s)
    (hf : ∀ a t, x s = .ok a t → Cuttable place cut p E (f a) t) :
    Cuttable place cut p E (x >>= f) s := by
  intro b u h
  obtain ⟨a, t, ht, hu⟩ := bind_eq_ok.1 h
  have hrest := hf a t ht b u hu
  exact (hx a t ht).bind hrest.start_le fun _ => hrest

/-- An action that stays at its place and does not look at the input. -/
theorem of_still {x : EStateM Error σ α} {s : σ}
    (h : ∀ a t, x s = .ok a t →
      (place t).position = (place s).position ∧ x (cut s) = .ok a (cut t)) :
    Cuttable place cut p E x s := by
  intro a t ht
  obtain ⟨hposition, hcut⟩ := h a t ht
  refine ⟨Nat.le_of_eq hposition.symm, fun _ => hcut, fun hp hlt => ?_⟩
  rw [hposition] at hlt
  exact absurd hp (Nat.not_le_of_lt hlt)

theorem pure (a : α) (s : σ) : Cuttable place cut p E (pure a) s := by
  refine of_still fun b t h => ?_
  cases h
  exact ⟨rfl, rfl⟩

theorem map {x : EStateM Error σ α} (f : α → β) {s : σ} (hx : Cuttable place cut p E x s) :
    Cuttable place cut p E (f <$> x) s := by
  rw [map_eq_bind]
  exact hx.bind fun _ _ _ => .pure _ _

theorem ite {c : Prop} [Decidable c] {x y : EStateM Error σ α} {s : σ}
    (hx : c → Cuttable place cut p E x s) (hy : ¬ c → Cuttable place cut p E y s) :
    Cuttable place cut p E (if c then x else y) s := by
  split
  · exact hx ‹_›
  · exact hy ‹_›

theorem current (s : σ) (r : Reader) : CutBuilds p E (current : Build Reader σ σ) s r := by
  refine of_still fun b t h => ?_
  cases h
  exact ⟨rfl, rfl⟩

theorem put (s' s : σ) (r : Reader) : CutBuilds p E (put s' : Build Reader σ Unit) s r := by
  refine of_still fun b t h => ?_
  cases h
  exact ⟨rfl, rfl⟩

theorem update (f : σ → σ) (s : σ) (r : Reader) :
    CutBuilds p E (update f : Build Reader σ Unit) s r := by
  refine of_still fun b t h => ?_
  cases h
  exact ⟨rfl, rfl⟩

theorem read {x : Reading Reader α} {r : Reader} (hx : CutReads p E x r) (s : σ) :
    CutBuilds p E (read x : Build Reader σ α) s r := by
  rintro a ⟨s', t⟩ h
  obtain ⟨ht, rfl⟩ := read_eq_ok.1 h
  have hcut := hx a t ht
  refine ⟨hcut.start_le, fun hp => read_eq_ok.2 ⟨hcut.whole hp, rfl⟩, fun hp hlt => ?_⟩
  obtain ⟨e, u, hu, he⟩ := hcut.broken hp hlt
  exact ⟨e, (s', u), read_eq_error.2 ⟨hu, rfl⟩, he⟩

theorem zoom {part : σ → τ} {put : σ → τ → σ} {x : Build Reader τ α} {s : σ} {r : Reader}
    (hx : CutBuilds p E x (part s) r) : CutBuilds p E (zoom part put x) s r := by
  rintro a ⟨s', t⟩ h
  obtain ⟨s1, ht, rfl⟩ := zoom_eq_ok.1 h
  have hcut := hx a _ ht
  refine ⟨hcut.start_le, fun hp => zoom_eq_ok.2 ⟨s1, hcut.whole hp, rfl⟩, fun hp hlt => ?_⟩
  obtain ⟨e, ⟨s2, u⟩, hu, he⟩ := hcut.broken hp hlt
  exact ⟨e, (put s s2, u), zoom_eq_error.2 ⟨s2, hu, rfl⟩, he⟩

theorem alone {s : σ} {x : Build Reader σ Unit} {r : Reader} (hx : CutBuilds p E x s r) :
    CutReads p E (alone s x) r := by
  intro a t h
  have hcut := hx () _ (alone_eq_ok.1 h)
  refine ⟨hcut.start_le, fun hp => alone_eq_ok.2 (hcut.whole hp), fun hp hlt => ?_⟩
  obtain ⟨e, ⟨s', u⟩, hu, he⟩ := hcut.broken hp hlt
  refine ⟨e, u, ?_, he⟩
  have hu : x (s, r.cut p) = .error e (s', u) := hu
  show Build.alone s x (r.cut p) = .error e u
  rw [run_alone, hu]

end Cuttable

/-! ## Values without nesting -/

namespace Varint

variable {count n k : Nat} {value v : UInt64} {bytes : Bytes}

theorem decodeFrom_take_of_le (h : decodeFrom count value bytes = .ok (v, k)) (hn : k ≤ count + n) :
    decodeFrom count value (bytes.take n) = .ok (v, k) := by
  induction bytes generalizing count value n with
  | nil => cases h
  | cons byte rest ih =>
    have hk := (length_of_decodeFrom h).1
    obtain ⟨n, rfl⟩ := Nat.exists_eq_succ_of_ne_zero (n := n) (by omega)
    rw [List.take_succ_cons]
    simp only [decodeFrom] at h ⊢
    split at h
    · cases h
    · rename_i hc
      rw [if_neg hc]
      split at h
      · rename_i hb
        rw [if_pos hb, h]
      · rename_i hb
        rw [if_neg hb]
        exact ih h (by omega)

/-- A varint that is cut off is truncated where it was cut. -/
theorem decodeFrom_take_of_lt (h : decodeFrom count value bytes = .ok (v, k)) (hn : count + n < k) :
    decodeFrom count value (bytes.take n) = .error (.truncated (count + n)) := by
  induction bytes generalizing count value n with
  | nil => cases h
  | cons byte rest ih =>
    simp only [decodeFrom] at h
    split at h
    · cases h
    · rename_i hc
      cases n with
      | zero => rw [List.take_zero, decodeFrom, if_neg hc, Nat.add_zero]
      | succ n =>
        rw [List.take_succ_cons, decodeFrom, if_neg hc]
        split at h
        · cases h
          omega
        · rename_i hb
          rw [if_neg hb, ih h (by omega), Nat.add_assoc, Nat.add_comm 1 n]

end Varint

namespace Reader

variable {p : Nat} {E : Error → Prop}

section

variable (hE : ∀ offset, E (.truncated offset))

include hE

theorem cutReads_rawVarint (r : Reader) : CutReads p E rawVarint r := by
  intro v t h
  obtain ⟨k, hk, rfl⟩ := rawVarint_eq_ok.1 h
  refine ⟨Nat.le_add_right _ _, fun hp => ?_, fun hp hlt => ?_⟩
  · have hp : r.position + k ≤ p := hp
    refine rawVarint_eq_ok.2 ⟨k, ?_, (advance_cut p r k).symm⟩
    exact Varint.decodeFrom_take_of_le hk (by omega)
  · have hp : r.position ≤ p := hp
    have hlt : p < r.position + k := hlt
    have herror : Varint.decode (r.cut p).rest = .error (.truncated (0 + (p - r.position))) :=
      Varint.decodeFrom_take_of_lt hk (by omega)
    refine ⟨_, r.cut p, ?_, hE (r.position + (0 + (p - r.position)))⟩
    rw [rawVarint, run_bind_of_ok (run_get _), herror]
    rfl

theorem cutReads_word (width : Nat) (r : Reader) : CutReads p E (word width) r := by
  intro n t h
  obtain ⟨hle, rfl, rfl⟩ := word_eq_ok.1 h
  have hremaining := remaining_cut p r
  refine ⟨Nat.le_add_right _ _, fun hp => ?_, fun hp hlt => ?_⟩
  · have hp : r.position + width ≤ p := hp
    have htake : (r.cut p).rest.take width = r.rest.take width := by
      rw [cut, List.take_take, Nat.min_eq_left (by omega)]
    refine word_eq_ok.2 ⟨?_, by rw [htake], (advance_cut p r width).symm⟩
    rw [hremaining]
    omega
  · have hp : r.position ≤ p := hp
    have hlt : p < r.position + width := hlt
    have hshort : (r.cut p).remaining < width := by
      rw [hremaining]
      omega
    refine ⟨_, r.cut p, ?_, hE ((r.cut p).position + (r.cut p).remaining)⟩
    rw [word, run_bind_of_ok (run_get _), if_pos hshort]
    rfl

end

/-- A length is read if the bytes that it announces are left, too. -/
theorem length_cut_of_le {r u : Reader} {count : Nat} (h : length r = .ok count u)
    (hp : u.position + count ≤ p) : length (r.cut p) = .ok count (u.cut p) := by
  obtain ⟨v, hv, rfl, hle⟩ := length_eq_ok.1 h
  have hcut := cutReads_rawVarint (p := p) (E := fun _ => True) (fun _ => trivial) r v u hv
  refine length_eq_ok.2 ⟨v, hcut.whole (by simp only [id]; omega), rfl, ?_⟩
  rw [remaining_cut]
  omega

/-- A length that announces bytes behind the place where the input is cut off is truncated. -/
theorem length_cut_of_lt {r u : Reader} {count : Nat} (h : length r = .ok count u)
    (hr : r.position ≤ p) (hp : p < u.position + count) :
    ∃ offset t, length (r.cut p) = .error (.truncated offset) t := by
  obtain ⟨v, hv, rfl, hle⟩ := length_eq_ok.1 h
  have hcut := cutReads_rawVarint (p := p) (E := (·.isTruncation = true)) (fun _ => rfl) r v u hv
  rw [length, run_bind_of_ok (run_get _)]
  by_cases hu : u.position ≤ p
  · have hshort : (u.cut p).remaining < v.toNat := by
      rw [remaining_cut]
      omega
    rw [run_bind_of_ok (hcut.whole hu), run_bind_of_ok (run_get _), if_pos hshort]
    exact ⟨_, _, rfl⟩
  · obtain ⟨e, t, ht, he⟩ := hcut.broken hr (Nat.lt_of_not_le hu)
    obtain ⟨offset, rfl⟩ := Error.eq_truncated_of_isTruncation he
    exact ⟨offset, t, run_bind_of_error ht⟩

section

variable (hE : ∀ offset, E (.truncated offset))

include hE

theorem cutReads_delimited (r : Reader) : CutReads p E delimited r := by
  intro b t h
  obtain ⟨count, u, hl, rfl, rfl⟩ := delimited_eq_ok.1 h
  have hle : r.position ≤ u.position := (steady_length _ _ _ hl).position_le
  refine ⟨Nat.le_trans hle (Nat.le_add_right _ _), fun hp => ?_, fun hp hlt => ?_⟩
  · have hp : u.position + count ≤ p := hp
    have htake : (u.cut p).rest.take count = u.rest.take count := by
      rw [cut, List.take_take, Nat.min_eq_left (by omega)]
    exact delimited_eq_ok.2 ⟨count, u.cut p, length_cut_of_le hl hp, htake.symm,
      (advance_cut p u count).symm⟩
  · obtain ⟨offset, t, ht⟩ := length_cut_of_lt hl hp hlt
    exact ⟨_, t, run_bind_of_error ht, hE offset⟩

theorem cutReads_wireValue (wireType : WireType) (r : Reader) :
    CutReads p E (wireValue wireType) r := by
  cases wireType with
  | varint => exact (cutReads_rawVarint hE r).map _
  | fixed64 => exact (cutReads_word hE 8 r).map _
  | fixed32 => exact (cutReads_word hE 4 r).map _
  | lengthDelimited => exact (cutReads_delimited hE r).map _
  | startGroup | endGroup =>
    intro v t h
    cases h

/-- What is confined to its length is not touched where it is whole. -/
theorem cutBuilds_within {body : Build Reader σ α} (hb : Steady Prod.snd body) (s : σ)
    (r : Reader) : CutBuilds p E (within body) s r := by
  rintro a ⟨s', t⟩ h
  obtain ⟨count, u, v, hl, hv, he, rfl⟩ := within_eq_ok.1 h
  have hend := congrArg Reader.position (eq_advance_of_within hb (length_le hl) hv he)
  have hend : v.position = u.position + count := hend
  have hle : r.position ≤ u.position := (steady_length _ _ _ hl).position_le
  refine ⟨by simp only; omega, fun hp => ?_, fun hp hlt => ?_⟩
  · have hp : u.position + count ≤ p := hend ▸ hp
    have hregion : (u.cut p).rest.take count = u.rest.take count := by
      rw [cut, List.take_take, Nat.min_eq_left (by omega)]
    refine within_eq_ok.2 ⟨count, u.cut p, v, length_cut_of_le hl hp, ?_, he, ?_⟩
    · rw [hregion]
      exact hv
    · simp [cut, List.drop_take, hend, Nat.sub_sub]
  · obtain ⟨offset, t, ht⟩ := length_cut_of_lt hl hp (hend ▸ hlt)
    refine ⟨_, (s, t), ?_, hE offset⟩
    exact run_bind_of_error (read_eq_error.2 ⟨ht, rfl⟩)

end

/-! ## Fields -/

theorem cutReads_expect (tag : Tag) (wireType : WireType) (r : Reader) :
    CutReads p E (expect tag wireType) r := by
  refine .of_still fun a t h => ?_
  obtain ⟨hw, rfl⟩ := expect_eq_ok.1 h
  exact ⟨rfl, expect_self hw _⟩

/-- Behind a check of the wire type the tag carries that type. -/
theorem cutReads_expecting {tag : Tag} {wireType : WireType} {x : Reading Reader α} {r : Reader}
    (hx : tag.wireType = wireType → CutReads p E x r) :
    CutReads p E (expect tag wireType >>= fun _ => x) r :=
  (cutReads_expect tag wireType r).bind fun a t h => by
    obtain ⟨hw, rfl⟩ := expect_eq_ok.1 h
    exact hx hw

theorem cutBuilds_expecting {tag : Tag} {wireType : WireType} {x : Build Reader σ α} {s : σ}
    {r : Reader} (hx : tag.wireType = wireType → CutBuilds p E x s r) :
    CutBuilds p E (read (expect tag wireType) >>= fun _ => x) s r :=
  ((cutReads_expect tag wireType r).read s).bind fun a ⟨s', t⟩ h => by
    obtain ⟨ht, rfl⟩ := read_eq_ok.1 h
    obtain ⟨hw, rfl⟩ := expect_eq_ok.1 ht
    exact hx hw

theorem cutReads_enter (limit : Nat) (r : Reader) : CutReads p E (enter limit) r := by
  refine .of_still fun a t h => ?_
  obtain ⟨hd, rfl⟩ := enter_eq_ok.1 h
  exact ⟨rfl, enter_eq_ok.2 ⟨hd, rfl⟩⟩

theorem cutReads_leave (r : Reader) : CutReads p E leave r := by
  refine .of_still fun a u h => ?_
  cases h
  exact ⟨rfl, rfl⟩

/-- What is built one level deeper. -/
theorem cutBuilds_entered {limit : Nat} {x : Build Reader σ Unit} {s : σ} {r : Reader}
    (hx : CutBuilds p E x s { r with depth := r.depth + 1 }) :
    CutBuilds p E (read (enter limit) >>= fun _ => x >>= fun _ => read leave) s r := by
  refine ((cutReads_enter limit r).read s).bind fun a ⟨s', t⟩ h => ?_
  obtain ⟨ht, rfl⟩ := read_eq_ok.1 h
  obtain ⟨-, rfl⟩ := enter_eq_ok.1 ht
  exact hx.bind fun _ q _ => (cutReads_leave q.2).read q.1

theorem ne_startGroup_of_eq {tag : Tag} (h : tag.wireType = .lengthDelimited) :
    tag.wireType ≠ .startGroup := by
  rw [h]
  decide

section

variable {limit : Nat} {body : MergeBody} {tag : Tag}
  (hE : tag.wireType ≠ .startGroup → ∀ offset, E (.truncated offset))

include hE

theorem cutReads_scalar (kind : ScalarKind) (r : Reader) : CutReads p E (scalar kind tag) r := by
  refine cutReads_expecting fun hw => ?_
  have hkind : kind.wireType ≠ .startGroup := by
    cases kind <;> simp [ScalarKind.wireType]
  intro s t h
  rw [run_bind_of_ok (run_get r)] at h
  rw [run_bind_of_ok (run_get (r.cut p))]
  obtain ⟨v, u, hv, hs⟩ := bind_eq_ok.1 h
  have hcut := cutReads_wireValue (p := p) (hE (hw ▸ hkind)) kind.wireType r v u hv
  cases ho : kind.ofWire? v with
  | none =>
    rw [ho] at hs
    cases hs
  | some s' =>
    rw [ho] at hs
    cases hs
    refine hcut.bind (Nat.le_refl _) fun _ => ?_
    rw [ho]
    exact Cuttable.pure s t _ _ rfl

theorem cutReads_bytes (r : Reader) : CutReads p E (bytes tag) r :=
  cutReads_expecting fun hw => cutReads_delimited (hE (ne_startGroup_of_eq hw)) r

theorem cutBuilds_repeated {element : WireType} {read : Tag → Reading Reader α}
    (sr : ∀ tag, Steady id (read tag)) {r : Reader} (hr : CutReads p E (read tag) r)
    (as : List α) : CutBuilds p E (repeated element read tag) as r := by
  refine .ite (fun hpacked => ?_) fun _ => ?_
  · refine cutBuilds_within (hE (ne_startGroup_of_eq hpacked.1)) ?_ as r
    exact Steady.source.bind fun _ => steady_elements (sr _) _
  · exact (hr.read as).bind fun _ q _ => .update _ q.1 q.2

theorem cutReads_mapEntry {κ ν : Type} {readKey : Tag → Reading Reader κ}
    {readValue : Tag → Reading Reader ν} {keyType valueType : WireType}
    (hk : Expects readKey (·.wireType = keyType)) (hv : Expects readValue (·.wireType = valueType))
    (sk : ∀ tag, Steady id (readKey tag)) (sv : ∀ tag, Steady id (readValue tag)) (zero : κ × ν)
    (r : Reader) : CutReads p E (mapEntry limit zero readKey readValue tag) r := by
  have hsteady : Steady Prod.snd (entryBody limit readKey readValue) :=
    Steady.source.bind fun r => steady_entryFields hk hv sk sv limit (r.remaining + 1)
  refine cutReads_expecting fun hw => (cutReads_enter limit r).bind fun _ t h => ?_
  obtain ⟨-, rfl⟩ := enter_eq_ok.1 h
  have hwithin := cutBuilds_within (p := p) (hE (ne_startGroup_of_eq hw)) hsteady zero
    { r with depth := r.depth + 1 }
  exact hwithin.alone.bind fun _ u _ => (cutReads_leave u).bind fun _ _ _ => .pure _ _

variable (sb : ∀ g, Steady Prod.snd (body g))

include sb

theorem cutBuilds_message (m : Message) (r : Reader) :
    CutBuilds p E (message limit body tag) m r :=
  cutBuilds_expecting fun hw =>
    cutBuilds_entered (cutBuilds_within (hE (ne_startGroup_of_eq hw)) (sb none) m _)

variable {r : Reader} (hg : ∀ m, CutBuilds p E (group limit body tag) m r)

include hg

theorem cutReads_value (kind : FieldKind) : CutReads p E (value limit body kind tag) r := by
  cases kind with
  | scalar kind => exact (cutReads_scalar hE kind r).map _
  | message type => exact (Cuttable.alone (cutBuilds_message hE sb _ r)).map _
  | group type => exact (Cuttable.alone (hg _)).map _

omit hE sb hg in
theorem cutBuilds_intoOptional (type : MessageType) (wireType : WireType)
    {merge : Tag → Build Reader Message Unit} (hm : ∀ m, CutBuilds p E (merge tag) m r)
    (slot : Slot Message) : CutBuilds p E (intoOptional type wireType merge tag) slot r :=
  cutBuilds_expecting fun _ => .zoom (hm _)

omit hE sb hg in
theorem cutBuilds_intoChosen (type : MessageType) (wireType : WireType)
    {merge : Tag → Build Reader Message Unit} (hm : ∀ m, CutBuilds p E (merge tag) m r)
    (slot : Slot Message) : CutBuilds p E (intoChosen type wireType merge tag) slot r := by
  refine cutBuilds_expecting fun _ => (Cuttable.current slot r).bind fun slot' q h => ?_
  cases h
  refine (Cuttable.put _ slot r).bind fun _ q h => ?_
  cases h
  exact ((Cuttable.alone (hm _)).read _).bind fun _ q _ => .put _ q.1 q.2

theorem cutBuilds_optionalField (kind : FieldKind) (slot : Slot Message) :
    CutBuilds p E (optionalField limit body kind tag) slot r := by
  cases kind with
  | scalar kind => exact ((cutReads_scalar hE kind r).read slot).bind fun _ q _ => .put _ q.1 q.2
  | message type =>
    exact cutBuilds_intoOptional type _ (fun m => cutBuilds_message hE sb m r) slot
  | group type => exact cutBuilds_intoOptional type _ hg slot

theorem cutBuilds_oneofField (kind : FieldKind) (slot : Slot Message) :
    CutBuilds p E (oneofField limit body kind tag) slot r := by
  cases kind with
  | scalar kind => exact ((cutReads_scalar hE kind r).read slot).bind fun _ q _ => .put _ q.1 q.2
  | message type =>
    exact cutBuilds_intoChosen type _ (fun m => cutBuilds_message hE sb m r) slot
  | group type => exact cutBuilds_intoChosen type _ hg slot

theorem cutBuilds_repeatedField (kind : FieldKind) (vs : List (Value Message)) :
    CutBuilds p E (repeatedField limit body kind tag) vs r := by
  have hv := fun kind => cutReads_value hE sb hg kind
  cases kind with
  | scalar kind => exact cutBuilds_repeated hE (steady_value limit sb (.scalar kind)) (hv _) vs
  | message type => exact ((hv (.message type)).read vs).bind fun _ q _ => .update _ q.1 q.2
  | group type => exact ((hv (.group type)).read vs).bind fun _ q _ => .update _ q.1 q.2

variable (hb : ∀ g, Settled (body g))

include hb

theorem Member.cutBuilds_merge (member : Member) (slot : Slot Message) :
    CutBuilds p E (member.merge limit body tag) slot r := by
  cases member with
  | plain number name kind =>
    exact ((cutReads_scalar hE kind r).read slot).bind fun _ q _ => .put _ q.1 q.2
  | optional field required => exact cutBuilds_optionalField hE sb hg field.kind slot
  | packed number name kind =>
    exact .zoom (cutBuilds_repeated hE (steady_scalar kind) (cutReads_scalar hE kind r) _)
  | repeated field => exact .zoom (cutBuilds_repeatedField hE sb hg field.kind _)
  | map number name key kind =>
    have hentry : CutReads p E (mapEntry limit (key.zero, kind.zero) (scalar key)
        (value limit body kind) tag) r :=
      cutReads_mapEntry hE (expects_scalar key) (expects_value limit hb kind) (steady_scalar key)
        (steady_value limit sb kind) _ r
    exact (hentry.read slot).bind fun _ q _ => .update _ q.1 q.2
  | oneof fields =>
    cases hf : fields.find? (·.number = tag.number) with
    | none =>
      rw [Member.merge_oneof_none hf]
      exact .pure _ _
    | some field =>
      rw [Member.merge_oneof hf]
      exact cutBuilds_oneofField hE sb hg field.kind slot
  | payload number name =>
    exact ((cutReads_bytes hE r).read slot).bind fun _ q _ => .put _ q.1 q.2

end

end Reader

namespace Message

open Reader

variable {p : Nat} {E : Error → Prop} {options : DecodeOptions} {body : MergeBody} {tag : Tag}
  {r : Reader}

theorem cutBuilds_mergeField {limit : Nat}
    (hE : tag.wireType ≠ .startGroup → ∀ offset, E (.truncated offset))
    (hb : ∀ g, Settled (body g)) (sb : ∀ g, Steady Prod.snd (body g))
    (hg : ∀ m, CutBuilds p E (group limit body tag) m r) (m : Message) :
    CutBuilds p E (mergeField limit body tag) m r := by
  intro a t h
  cases hf : declared? m.type tag with
  | none =>
    refine Cuttable.of_still (fun b u hu => ?_) a t h
    rw [mergeField_of_not_declared hf] at hu
    cases hu
    exact ⟨rfl, mergeField_of_not_declared hf _⟩
  | some found =>
    obtain ⟨i, member⟩ := found
    have hmember : CutBuilds p E
        (atSlot i member (member.merge limit body tag) >>= fun _ => Pure.pure true) m r :=
      (Cuttable.zoom (Member.cutBuilds_merge hE sb hg hb member _)).bind fun _ _ _ => .pure _ _
    rw [mergeField_of_declared? hf] at h
    have hcut := hmember a t h
    rwa [show Prod.map id (Reader.cut p) (m, r) = (m, r.cut p) from rfl,
      ← mergeField_of_declared? hf] at hcut

/-- A field is merged, or kept as it is, if the input reaches to its end. -/
theorem curtailed_mergeOne {start : Reader} {m m' : Message} {t : Reader}
    (hf : CutBuilds p E (mergeField options.depthLimit body tag) m r)
    (hs : CutReads p E (skip options.depthLimit tag) r)
    (h : mergeOne options body start tag (m, r) = .ok () (m', t)) :
    Curtailed Prod.snd (Prod.map id (Reader.cut p)) p E r.position () (m', t)
      (mergeOne options body (start.cut p) tag (m, r.cut p)) := by
  rw [mergeOne, run_bind_of_ok (run_current m r)] at h
  rw [mergeOne, run_bind_of_ok (run_current m (r.cut p))]
  split
  · rename_i ha
    rw [if_pos ha] at h
    obtain ⟨a, q, hq, hpure⟩ := bind_eq_ok.1 h
    cases hpure
    exact (hf a _ hq).bind (Nat.le_refl _) fun _ => Cuttable.pure () (m', t) _ _ rfl
  · rename_i ha
    rw [if_neg ha, Comparison.run_keepUnknown] at h
    rw [Comparison.run_keepUnknown]
    cases hskip : skip options.depthLimit tag r with
    | error e u =>
      rw [hskip] at h
      cases h
    | ok a u =>
      rw [hskip] at h
      cases h
      have hcut := hs a t hskip
      refine ⟨hcut.start_le, fun hp => ?_, fun hp hlt => ?_⟩
      · rw [hcut.whole hp]
        rw [← consumed_cut hp start]
        rfl
      · obtain ⟨e, u, hu, he⟩ := hcut.broken hp hlt
        rw [hu]
        exact ⟨e, _, rfl, he⟩

end Message

end Protobuf
