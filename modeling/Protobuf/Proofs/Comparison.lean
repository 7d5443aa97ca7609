import Protobuf.Proofs.Success

/-!
# Comparing two readings

A reading is compared with a second one that stands further on in a longer input, may find more
bytes behind its region and may nest deeper. What the first one does, the second one does, too, with
the offsets of its errors moved; only where the first one runs into the end of its region or into
its limit, the second one may go on.
-/

namespace Protobuf

open Build

variable {σ τ σ' τ' α β γ δ : Type}

/-- What a second reading differs in from a first one. -/
structure Comparison where
  /-- How many bytes come before the first input. -/
  offset : Nat
  /-- What stands behind the region of the first reading. -/
  behind : Bytes
  /-- The nesting limit of the first reading. -/
  limit : Nat
  /-- The nesting limit of the second reading. -/
  limit' : Nat
  /-- The second limit is no lower than the first one. -/
  limit_le : limit ≤ limit'

namespace Comparison

/-- The second reader that stands where the first one does. -/
def reader (c : Comparison) (r : Reader) : Reader :=
  ⟨r.rest ++ c.behind, c.offset + r.position, r.depth⟩

/-- After this error of the first reading the second one may do anything. -/
def Excuses (c : Comparison) (e : Error) : Prop :=
  c.behind ≠ [] ∨ (c.limit < c.limit' ∧ e = .recursionLimit c.limit)

/-- The comparison inside a region, behind which neither reading looks. -/
def closed (c : Comparison) : Comparison := { c with behind := [] }

theorem Excuses.of_closed {c : Comparison} {e : Error} (h : c.closed.Excuses e) : c.Excuses e := by
  rcases h with h | h
  · exact absurd rfl h
  · exact Or.inr h

theorem reader_closed (c : Comparison) (h : c.behind = []) : c.closed = c := by
  obtain ⟨offset, behind, limit, limit', hle⟩ := c
  simp only at h
  subst h
  rfl

/-- The outcomes correspond: the second reading succeeds if the first one does, and fails alike if
the first one fails without an excuse. -/
def Outcome (c : Comparison) (S E : σ → τ → Prop) (Q : α → β → Prop) :
    EStateM.Result Error σ α → EStateM.Result Error τ β → Prop
  | .ok a s, y => ∃ b t, y = .ok b t ∧ Q a b ∧ S s t
  | .error e s, y => c.Excuses e ∨ ∃ t, y = .error (e.shift c.offset) t ∧ E s t

variable {c : Comparison}

theorem Outcome.ok {S E : σ → τ → Prop} {Q : α → β → Prop} {a : α} {b : β} {s : σ} {t : τ}
    (hq : Q a b) (hs : S s t) : c.Outcome S E Q (.ok a s) (.ok b t) :=
  ⟨b, t, rfl, hq, hs⟩

theorem Outcome.error {S E : σ → τ → Prop} {Q : α → β → Prop} {e : Error} {s : σ} {t : τ}
    (he : E s t) : c.Outcome S E Q (.error e s) (.error (e.shift c.offset) t) :=
  Or.inr ⟨t, rfl, he⟩

theorem Outcome.mono {S S' E E' : σ → τ → Prop} {Q Q' : α → β → Prop}
    {x : EStateM.Result Error σ α} {y : EStateM.Result Error τ β} (h : c.Outcome S E Q x y)
    (hs : ∀ s t, S s t → S' s t) (he : ∀ s t, E s t → E' s t) (hq : ∀ a b, Q a b → Q' a b) :
    c.Outcome S' E' Q' x y := by
  cases x with
  | ok a s =>
    obtain ⟨b, t, hy, hab, hst⟩ := h
    exact ⟨b, t, hy, hq _ _ hab, hs _ _ hst⟩
  | error e s =>
    rcases h with h | ⟨t, hy, hst⟩
    · exact Or.inl h
    · exact Or.inr ⟨t, hy, he _ _ hst⟩

/-- Corresponding actions, followed by corresponding actions. -/
theorem Outcome.bind {S T E : σ → τ → Prop} {P : γ → δ → Prop} {Q : α → β → Prop}
    {x : EStateM Error σ γ} {y : EStateM Error τ δ} {f : γ → EStateM Error σ α}
    {g : δ → EStateM Error τ β} {s : σ} {t : τ} (h : c.Outcome S E P (x s) (y t))
    (hf : ∀ a b s' t', x s = .ok a s' → P a b → S s' t' → c.Outcome T E Q (f a s') (g b t')) :
    c.Outcome T E Q ((x >>= f) s) ((y >>= g) t) := by
  rw [run_bind, run_bind]
  cases hx : x s with
  | ok a s' =>
    rw [hx] at h
    obtain ⟨b, t', hy, hab, hst⟩ := h
    rw [hy]
    exact hf a b s' t' hx hab hst
  | error e s' =>
    rw [hx] at h
    rcases h with h | ⟨t', hy, hst⟩
    · exact Or.inl h
    · rw [hy]
      exact Or.inr ⟨t', rfl, hst⟩

/-! ## Actions on readers -/

/-- The second reader stands where the first one does, with at most so many bytes left to read and
so many messages open. -/
def At (c : Comparison) (n d : Nat) (r t : Reader) : Prop :=
  t = c.reader r ∧ r.remaining ≤ n ∧ r.depth = d

/-- The actions correspond on readers with at most so many bytes left and so many messages open.
After a failure, too, the second reader stands where the first one does. -/
def Reads (c : Comparison) (n d : Nat) (Q : α → β → Prop) (x : Reading Reader α)
    (y : Reading Reader β) : Prop :=
  ∀ r t, c.At n d r t → c.Outcome (c.At n d) (fun r t => t = c.reader r) Q (x r) (y t)

theorem At.advance {n d count : Nat} {r : Reader} (hr : r.remaining ≤ n) (hd : r.depth = d)
    (h : count ≤ r.remaining) : c.At n d (r.advance count) (c.reader (r.advance count)) := by
  refine ⟨rfl, ?_, hd⟩
  have := (Reader.consumes_advance h).length_add
  omega

theorem At.mono {n n' d : Nat} {r t : Reader} (h : c.At n d r t) (hn : n ≤ n') : c.At n' d r t :=
  ⟨h.1, Nat.le_trans h.2.1 hn, h.2.2⟩

namespace Reads

variable {n d : Nat}

theorem pure {Q : α → β → Prop} {a : α} {b : β} (h : Q a b) : c.Reads n d Q (pure a) (pure b) :=
  fun _ _ hr => Outcome.ok h hr

theorem throw {Q : α → β → Prop} (e : Error) :
    c.Reads n d Q (throw e) (throw (e.shift c.offset)) :=
  fun _ _ hr => Outcome.error hr.1

theorem bind {P : γ → δ → Prop} {Q : α → β → Prop} {x : Reading Reader γ} {y : Reading Reader δ}
    {f : γ → Reading Reader α} {g : δ → Reading Reader β} (hx : c.Reads n d P x y)
    (hf : ∀ a b, P a b → c.Reads n d Q (f a) (g b)) : c.Reads n d Q (x >>= f) (y >>= g) := by
  intro r t hr
  refine (hx r t hr).bind ?_
  intro a b s u _ hab hs
  exact hf a b hab s u hs

theorem ite {Q : α → β → Prop} {p q : Prop} [Decidable p] [Decidable q] (hpq : p ↔ q)
    {x x' : Reading Reader α} {y y' : Reading Reader β} (hx : p → c.Reads n d Q x y)
    (hx' : ¬ p → c.Reads n d Q x' y') :
    c.Reads n d Q (if p then x else x') (if q then y else y') := by
  by_cases h : p
  · rw [if_pos h, if_pos (hpq.1 h)]
    exact hx h
  · rw [if_neg h, if_neg fun hq => h (hpq.2 hq)]
    exact hx' h

theorem map {P : α → β → Prop} {Q : γ → δ → Prop} {x : Reading Reader α} {y : Reading Reader β}
    {f : α → γ} {g : β → δ} (hx : c.Reads n d P x y) (hf : ∀ a b, P a b → Q (f a) (g b)) :
    c.Reads n d Q (f <$> x) (g <$> y) := by
  rw [map_eq_bind, map_eq_bind]
  exact hx.bind fun a b h => .pure (hf a b h)

/-- An action with equal results in both readings, moved to another reader. -/
theorem eq_ok {x y : Reading Reader α} {r t : Reader} {a : α}
    (hx : c.Reads r.remaining r.depth Eq x y) (h : x r = .ok a t) :
    y (c.reader r) = .ok a (c.reader t) := by
  have ho := hx r _ ⟨rfl, Nat.le_refl _, rfl⟩
  rw [h] at ho
  obtain ⟨b, u, hy, rfl, rfl, -⟩ := ho
  exact hy

end Reads

end Comparison

/-! ## Values without nesting -/

theorem Error.shift_shift (a b : Nat) (e : Error) : (e.shift b).shift a = e.shift (a + b) := by
  cases e <;> simp [shift, Nat.add_assoc]

namespace Comparison

variable {c : Comparison} {n d : Nat}

theorem rest_reader (r : Reader) : (c.reader r).rest = r.rest ++ c.behind := rfl

theorem position_reader (r : Reader) : (c.reader r).position = c.offset + r.position := rfl

theorem depth_reader (r : Reader) : (c.reader r).depth = r.depth := rfl

theorem remaining_reader (r : Reader) :
    (c.reader r).remaining = r.remaining + c.behind.length := by
  rw [Reader.remaining, rest_reader, List.length_append]
  rfl

theorem advance_reader {r : Reader} {count : Nat} (h : count ≤ r.remaining) :
    (c.reader r).advance count = c.reader (r.advance count) := by
  have h : count ≤ r.rest.length := h
  simp [reader, Reader.advance, List.drop_append_of_le_length h, Nat.add_assoc]

theorem reads_rawVarint : c.Reads n d Eq Reader.rawVarint Reader.rawVarint := by
  rintro r _ ⟨rfl, hr, hd⟩
  cases h : Varint.decode r.rest with
  | ok found =>
    obtain ⟨v, k⟩ := found
    have hlen := Varint.length_of_decode h
    have h1 : Reader.rawVarint r = .ok v (r.advance k) := Reader.rawVarint_eq_ok.2 ⟨k, h, rfl⟩
    have h2 : Reader.rawVarint (c.reader r) = .ok v ((c.reader r).advance k) :=
      Reader.rawVarint_eq_ok.2 ⟨k, Varint.decodeFrom_append h c.behind, rfl⟩
    rw [h1, h2, advance_reader hlen.2]
    exact Outcome.ok rfl (.advance hr hd hlen.2)
  | error e =>
    have h1 : Reader.rawVarint r = .error (e.shift r.position) r := by
      rw [Reader.rawVarint, run_bind_of_ok (run_get r), h]
      rfl
    rw [h1]
    by_cases hb : c.behind = []
    · have h2 : Reader.rawVarint (c.reader r) = .error ((e.shift r.position).shift c.offset)
          (c.reader r) := by
        rw [Reader.rawVarint, run_bind_of_ok (run_get _), rest_reader, hb, List.append_nil, h,
          Error.shift_shift]
        rfl
      rw [h2]
      exact Outcome.error rfl
    · exact Or.inl (Or.inl hb)

theorem reads_word (width : Nat) : c.Reads n d Eq (Reader.word width) (Reader.word width) := by
  rintro r _ ⟨rfl, hr, hd⟩
  by_cases hw : width ≤ r.remaining
  · have hw' : width ≤ (c.reader r).remaining := by
      rw [remaining_reader]
      omega
    have htake : (c.reader r).rest.take width = r.rest.take width :=
      List.take_append_of_le_length hw
    rw [Reader.word_eq_ok.2 ⟨hw, rfl, rfl⟩, Reader.word_eq_ok.2 ⟨hw', rfl, rfl⟩, htake,
      advance_reader hw]
    exact Outcome.ok rfl (.advance hr hd hw)
  · have herr : ∀ t : Reader, t.remaining < width →
        Reader.word width t = .error (.truncated (t.position + t.remaining)) t := by
      intro t ht
      rw [Reader.word, run_bind_of_ok (run_get t), if_pos ht]
      rfl
    rw [herr r (by omega)]
    by_cases hb : c.behind = []
    · have hrem : (c.reader r).remaining = r.remaining := by simp [remaining_reader, hb]
      rw [herr (c.reader r) (by omega), hrem, position_reader, Nat.add_assoc]
      exact Outcome.error rfl
    · exact Or.inl (Or.inl hb)

theorem reads_length : c.Reads n d Eq Reader.length Reader.length := by
  rintro r _ ⟨rfl, hr, hd⟩
  rw [Reader.length, run_bind_of_ok (run_get r), run_bind_of_ok (run_get (c.reader r))]
  refine (reads_rawVarint r _ ⟨rfl, hr, hd⟩).bind ?_
  rintro v _ u _ - rfl ⟨rfl, hu⟩
  rw [run_bind_of_ok (run_get u), run_bind_of_ok (run_get (c.reader u))]
  by_cases hv : u.remaining < v.toNat
  · rw [if_pos hv]
    by_cases hb : c.behind = []
    · rw [if_pos (by simpa [remaining_reader, hb] using hv)]
      exact Outcome.error rfl
    · exact Or.inl (Or.inl hb)
  · have hv' : ¬ (c.reader u).remaining < v.toNat := by
      rw [remaining_reader]
      omega
    rw [if_neg hv, if_neg hv']
    exact Outcome.ok rfl ⟨rfl, hu⟩

theorem reads_delimited : c.Reads n d Eq Reader.delimited Reader.delimited := by
  intro r t hr
  refine (reads_length r t hr).bind ?_
  rintro count _ u _ hl rfl ⟨rfl, hu, hd⟩
  have hle := Reader.length_le hl
  have htake : (c.reader u).rest.take count = u.rest.take count :=
    List.take_append_of_le_length hle
  change c.Outcome _ _ _ (.ok (u.rest.take count) (u.advance count))
    (.ok ((c.reader u).rest.take count) ((c.reader u).advance count))
  rw [htake, advance_reader hle]
  exact Outcome.ok rfl (.advance hu hd hle)

theorem nextTag_reader_of_some {r t : Reader} {tag : Tag}
    (h : Reader.nextTag r = .ok (some tag) t) :
    Reader.nextTag (c.reader r) = .ok (some tag) (c.reader t) := by
  obtain ⟨v, hv, htag⟩ := Reader.nextTag_eq_some.1 h
  exact Reader.nextTag_eq_some.2 ⟨v, reads_rawVarint.eq_ok hv, htag⟩

theorem nextTag_reader_of_none {r t : Reader} (h : Reader.nextTag r = .ok none t)
    (hb : c.behind = []) : Reader.nextTag (c.reader r) = .ok none (c.reader t) := by
  obtain ⟨he, rfl⟩ := Reader.nextTag_eq_none.1 h
  exact Reader.nextTag_eq_none.2 ⟨by rw [rest_reader, he, hb, List.nil_append], rfl⟩

theorem nextTag_reader_of_error {r t : Reader} {e : Error} (h : Reader.nextTag r = .error e t) :
    c.Excuses e ∨ Reader.nextTag (c.reader r) = .error (e.shift c.offset) (c.reader t) := by
  have hne : r.rest ≠ [] := by
    intro he
    rw [Reader.nextTag_eq_none.2 ⟨he, rfl⟩] at h
    cases h
  have hne' : (c.reader r).rest ≠ [] := by
    rw [rest_reader]
    simp [hne]
  have ho : c.Outcome (c.At r.remaining r.depth) (fun r t => t = c.reader r) Eq (Reader.nextTag r)
      (Reader.nextTag (c.reader r)) := by
    rw [Reader.nextTag, run_bind_of_ok (run_get r), run_bind_of_ok (run_get (c.reader r)),
      if_neg (by simpa using hne), if_neg (by simpa using hne')]
    refine (reads_rawVarint r _ ⟨rfl, Nat.le_refl _, rfl⟩).bind ?_
    rintro v _ u _ - rfl ⟨rfl, hu⟩
    cases Tag.ofRaw v.toNat with
    | ok tag => exact Outcome.ok rfl ⟨rfl, hu⟩
    | error e =>
      change c.Outcome _ _ _ (.error (e.shift r.position) u)
        (.error (e.shift (c.offset + r.position)) (c.reader u))
      rw [← Error.shift_shift]
      exact Outcome.error rfl
  rw [h] at ho
  rcases ho with ho | ⟨u, hu, rfl⟩
  · exact Or.inl ho
  · exact Or.inr hu

theorem reads_wireValue (wireType : WireType) :
    c.Reads n d Eq (Reader.wireValue wireType) (Reader.wireValue wireType) := by
  cases wireType with
  | varint => exact reads_rawVarint.map fun _ _ h => by rw [h]
  | fixed64 => exact (reads_word 8).map fun _ _ h => by rw [h]
  | fixed32 => exact (reads_word 4).map fun _ _ h => by rw [h]
  | lengthDelimited => exact reads_delimited.map fun _ _ h => by rw [h]
  | startGroup | endGroup =>
    rintro r _ ⟨rfl, -⟩
    exact Outcome.error rfl

end Comparison

theorem ScalarKind.kind_of_ofWire? {kind : ScalarKind} {v : WireValue} {s : Scalar}
    (h : kind.ofWire? v = some s) : s.kind = kind := by
  unfold ofWire? at h
  split at h
  case h_15 =>
    split at h
    · cases h
      rfl
    · cases h
  all_goals
    cases h
    try rfl

namespace Comparison

variable {c : Comparison} {n d : Nat}

theorem reads_scalar {kind : ScalarKind} {tag : Tag} (h : tag.wireType = kind.wireType) :
    c.Reads n d (fun s s' => s = s' ∧ s.kind = kind) (Reader.scalar kind tag)
      (Reader.scalar kind tag) := by
  rintro r _ ⟨rfl, hr⟩
  rw [Reader.scalar, run_bind_of_ok (Reader.expect_self h r),
    run_bind_of_ok (Reader.expect_self h (c.reader r)), run_bind_of_ok (run_get r),
    run_bind_of_ok (run_get (c.reader r))]
  refine (reads_wireValue kind.wireType r _ ⟨rfl, hr⟩).bind ?_
  rintro v _ u _ - rfl hu
  cases hs : kind.ofWire? v with
  | some s => exact Outcome.ok ⟨rfl, ScalarKind.kind_of_ofWire? hs⟩ hu
  | none => exact Outcome.error hu.1

theorem reads_bytes {tag : Tag} (h : tag.wireType = .lengthDelimited) :
    c.Reads n d Eq (Reader.bytes tag) (Reader.bytes tag) := by
  rintro r _ ⟨rfl, hr⟩
  rw [Reader.bytes, run_bind_of_ok (Reader.expect_self h r),
    run_bind_of_ok (Reader.expect_self h (c.reader r))]
  exact reads_delimited r _ ⟨rfl, hr⟩

/-! ## Nesting -/

theorem reads_enter {r t : Reader} (h : c.At n d r t) :
    c.Outcome (c.At n (d + 1)) (fun r t => t = c.reader r) Eq (Reader.enter c.limit r)
      (Reader.enter c.limit' t) := by
  obtain ⟨rfl, hr, rfl⟩ := h
  have hle := c.limit_le
  by_cases hd : r.depth + 1 ≤ c.limit
  · have hd' : (c.reader r).depth + 1 ≤ c.limit' := by
      rw [depth_reader]
      omega
    rw [Reader.enter_eq_ok.2 ⟨hd, rfl⟩, Reader.enter_eq_ok.2 ⟨hd', rfl⟩]
    exact Outcome.ok rfl ⟨rfl, hr, rfl⟩
  · rw [Reader.enter_of_limit_lt (by omega)]
    by_cases hl : c.limit < c.limit'
    · exact Or.inl (Or.inr ⟨hl, rfl⟩)
    · have heq : c.limit' = c.limit := by omega
      rw [heq, Reader.enter_of_limit_lt (r := c.reader r) (by rw [depth_reader]; omega)]
      exact Outcome.error rfl

theorem reads_leave {r t : Reader} (h : c.At n (d + 1) r t) :
    c.Outcome (c.At n d) (fun r t => t = c.reader r) Eq (Reader.leave r) (Reader.leave t) := by
  obtain ⟨rfl, hr, hd⟩ := h
  refine Outcome.ok rfl ⟨rfl, hr, ?_⟩
  change r.depth - 1 = d
  omega

theorem reads_skipRound {rest rest' : List Nat → Reading Reader Unit}
    (hr : ∀ stack, c.Reads n d Eq (rest stack) (rest' stack)) (start : Reader) (number : Nat)
    (outer : List Nat) (tag : Tag) :
    c.Reads n d Eq (Reader.skipRound rest start number outer tag)
      (Reader.skipRound rest' (c.reader start) number outer tag) := by
  unfold Reader.skipRound
  split
  · exact .ite Iff.rfl (fun _ => hr _) fun _ => .throw _
  · exact hr _
  · refine (reads_wireValue _).bind ?_
    rintro v _ rfl
    exact hr _

theorem reads_skipGroups (rounds rounds' : Nat) (stack : List Nat) (hn : n < rounds)
    (hn' : n + c.behind.length < rounds') :
    c.Reads n d Eq (Reader.skipGroups c.limit rounds stack)
      (Reader.skipGroups c.limit' rounds' stack) := by
  induction rounds generalizing n rounds' stack with
  | zero => omega
  | succ rounds ih =>
    obtain ⟨rounds', rfl⟩ := Nat.exists_eq_succ_of_ne_zero (n := rounds') (by omega)
    cases stack with
    | nil => exact .pure rfl
    | cons number outer =>
      rintro r _ ⟨rfl, hr, hdr⟩
      have hle := c.limit_le
      rw [Reader.skipGroups_succ, Reader.skipGroups_succ, depth_reader]
      by_cases hd : c.limit < r.depth + (outer.length + 1)
      · rw [if_pos hd]
        by_cases hl : c.limit < c.limit'
        · exact Or.inl (Or.inr ⟨hl, rfl⟩)
        · have heq : c.limit' = c.limit := by omega
          rw [heq, if_pos hd]
          exact Outcome.error rfl
      · rw [if_neg hd, if_neg (by omega), run_bind, run_bind]
        rcases ht : Reader.nextTag r with ⟨_ | tag, u⟩ | ⟨e, u⟩
        · -- the region ends here, but more may stand behind it
          by_cases hb : c.behind = []
          · rw [nextTag_reader_of_none ht hb]
            exact Outcome.error rfl
          · exact Or.inl (Or.inl hb)
        · rw [nextTag_reader_of_some ht]
          have hlt := Reader.remaining_of_nextTag ht
          have hdu : u.depth = r.depth := (Reader.steady_nextTag _ _ _ ht).depth_eq
          refine (reads_skipRound (n := n - 1) (fun stack => ih rounds' stack (by omega) (by omega))
            r number outer tag u _ ⟨rfl, by omega, hdu.trans hdr⟩).mono ?_ (fun _ _ h => h)
            (fun _ _ h => h)
          intro s t hs
          exact hs.mono (by omega)
        · rcases nextTag_reader_of_error (c := c) ht with hx | hx
          · exact Or.inl hx
          · rw [hx]
            exact Outcome.error rfl

theorem reads_skip (tag : Tag) :
    c.Reads n d Eq (Reader.skip c.limit tag) (Reader.skip c.limit' tag) := by
  rintro r _ ⟨rfl, hr, hd⟩
  by_cases hw : tag.wireType = .startGroup
  · rw [Reader.skip, if_pos hw, Reader.skip, if_pos hw, run_bind_of_ok (run_get r),
      run_bind_of_ok (run_get (c.reader r))]
    refine (reads_skipGroups (n := r.remaining) _ _ _ (by omega) ?_ r _
      ⟨rfl, Nat.le_refl _, hd⟩).mono ?_ (fun _ _ h => h) (fun _ _ h => h)
    · rw [remaining_reader]
      omega
    · intro s t hs
      exact hs.mono hr
  · rw [Reader.skip, if_neg hw, Reader.skip, if_neg hw]
    exact Reads.bind (reads_wireValue tag.wireType) (fun _ _ _ => .pure rfl) r _ ⟨rfl, hr, hd⟩

end Comparison

end Protobuf
