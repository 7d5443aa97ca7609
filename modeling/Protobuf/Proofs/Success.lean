import Protobuf.Proofs.Mismatch

/-!
# Successful reading

What each reader has done when it succeeds. A success consumes bytes from the front of the region,
moves the position over them and leaves the depth as it was.
-/

namespace Protobuf

open Build

variable {σ τ ρ α β : Type}

namespace Reader

/-- From one place to another over the given bytes, at the same depth. -/
def Consumes (r : Reader) (bytes : Bytes) (t : Reader) : Prop :=
  r.rest = bytes ++ t.rest ∧ t.position = r.position + bytes.length ∧ t.depth = r.depth

/-- The second place is reached from the first one by consuming bytes. -/
def Before (r t : Reader) : Prop := ∃ bytes, r.Consumes bytes t

theorem Consumes.nil (r : Reader) : r.Consumes [] r := ⟨rfl, rfl, rfl⟩

theorem Consumes.append {r t u : Reader} {a b : Bytes} (h : r.Consumes a t) (h' : t.Consumes b u) :
    r.Consumes (a ++ b) u := by
  obtain ⟨h1, h2, h3⟩ := h
  obtain ⟨h1', h2', h3'⟩ := h'
  refine ⟨by rw [h1, h1', List.append_assoc], ?_, by rw [h3', h3]⟩
  rw [h2', h2, List.length_append]
  omega

theorem Consumes.length_add {r t : Reader} {bytes : Bytes} (h : r.Consumes bytes t) :
    bytes.length + t.remaining = r.remaining := by
  rw [remaining, remaining, h.1, List.length_append]

theorem Consumes.eq_rest {r t : Reader} {bytes : Bytes} (h : r.Consumes bytes t)
    (ht : t.rest = []) : bytes = r.rest := by
  rw [h.1, ht, List.append_nil]

theorem Consumes.consumed_eq {r t : Reader} {bytes : Bytes} (h : r.Consumes bytes t) :
    r.consumed t = bytes := by
  obtain ⟨h1, h2, -⟩ := h
  rw [consumed, h1, h2]
  simp

theorem Consumes.eq_advance {r t : Reader} {bytes : Bytes} (h : r.Consumes bytes t) :
    t = r.advance bytes.length := by
  obtain ⟨rest, position, depth⟩ := t
  obtain ⟨h1, h2, h3⟩ := h
  simp only at h1 h2 h3
  simp [advance, h1, h2, h3]

theorem consumes_advance {r : Reader} {count : Nat} (h : count ≤ r.remaining) :
    r.Consumes (r.rest.take count) (r.advance count) := by
  have h : count ≤ r.rest.length := h
  refine ⟨by simp [advance], ?_, rfl⟩
  simp only [advance, List.length_take]
  omega

/-- A region is consumed as a whole. -/
theorem consumes_whole {r : Reader} {bytes : Bytes} (h : r.rest = bytes) :
    r.Consumes bytes (r.advance bytes.length) ∧ (r.advance bytes.length).rest = [] := by
  have hall := consumes_advance (r := r) (Nat.le_refl r.remaining)
  rw [remaining, h, List.take_length] at hall
  refine ⟨hall, ?_⟩
  rw [advance, h, List.drop_length]

theorem Before.refl (r : Reader) : r.Before r := ⟨[], .nil r⟩

theorem Before.trans {r t u : Reader} (h : r.Before t) (h' : t.Before u) : r.Before u := by
  obtain ⟨a, ha⟩ := h
  obtain ⟨b, hb⟩ := h'
  exact ⟨a ++ b, ha.append hb⟩

theorem Before.remaining_le {r t : Reader} (h : r.Before t) : t.remaining ≤ r.remaining := by
  obtain ⟨a, ha⟩ := h
  have := ha.length_add
  omega

theorem Before.depth_eq {r t : Reader} (h : r.Before t) : t.depth = r.depth := by
  obtain ⟨a, ha⟩ := h
  exact ha.2.2

theorem Before.consumes_consumed {r t : Reader} (h : r.Before t) :
    r.Consumes (r.consumed t) t := by
  obtain ⟨a, ha⟩ := h
  rw [ha.consumed_eq]
  exact ha

end Reader

/-- Every success of the action consumes bytes of the reader in its state. -/
def Steady (place : σ → Reader) (x : EStateM Error σ α) : Prop :=
  ∀ s a t, x s = .ok a t → (place s).Before (place t)

namespace Steady

variable {place : σ → Reader}

theorem pure (a : α) : Steady place (pure a) := by
  intro s b t h
  cases h
  exact .refl _

theorem throw (e : Error) : Steady (α := α) place (throw e) := by
  intro s b t h
  cases h

theorem bind {x : EStateM Error σ α} {f : α → EStateM Error σ β} (hx : Steady place x)
    (hf : ∀ a, Steady place (f a)) : Steady place (x >>= f) := by
  intro s b u h
  obtain ⟨a, t, ht, hu⟩ := bind_eq_ok.1 h
  exact (hx _ _ _ ht).trans (hf _ _ _ _ hu)

theorem ite {c : Prop} [Decidable c] {x y : EStateM Error σ α} (hx : Steady place x)
    (hy : Steady place y) : Steady place (if c then x else y) := by
  split
  · exact hx
  · exact hy

theorem map {x : EStateM Error σ α} (f : α → β) (hx : Steady place x) : Steady place (f <$> x) := by
  rw [map_eq_bind]
  exact hx.bind fun _ => .pure _

theorem get {place : Reader → Reader} : Steady place (get : Reading Reader Reader) := by
  intro s b t h
  cases h
  exact .refl _

theorem source : Steady Prod.snd (source : Build Reader σ Reader) := by
  intro s b t h
  cases h
  exact .refl _

theorem current : Steady Prod.snd (current : Build Reader σ σ) := by
  intro s b t h
  cases h
  exact .refl _

theorem put (s : σ) : Steady Prod.snd (put s : Build Reader σ Unit) := by
  intro s b t h
  cases h
  exact .refl _

theorem update (f : σ → σ) : Steady Prod.snd (update f : Build Reader σ Unit) := by
  intro s b t h
  cases h
  exact .refl _

theorem read {x : Reading Reader α} (hx : Steady id x) :
    Steady Prod.snd (read x : Build Reader σ α) := by
  rintro ⟨s, r⟩ a ⟨s', t⟩ h
  exact hx _ _ _ (read_eq_ok.1 h).1

theorem zoom {part : σ → τ} {put : σ → τ → σ} {x : Build Reader τ α} (hx : Steady Prod.snd x) :
    Steady Prod.snd (zoom part put x) := by
  rintro ⟨s, r⟩ a ⟨s', t⟩ h
  obtain ⟨u, hu, -⟩ := zoom_eq_ok.1 h
  exact hx _ _ _ hu

theorem alone {s : σ} {x : Build Reader σ Unit} (hx : Steady Prod.snd x) :
    Steady id (alone s x) := by
  intro r a t h
  exact hx _ _ _ (alone_eq_ok.1 h)

end Steady

/-! ## Values without nesting -/

theorem Varint.decodeFrom_append {count k : Nat} {value v : UInt64} {a : Bytes}
    (h : decodeFrom count value a = .ok (v, k)) (b : Bytes) :
    decodeFrom count value (a ++ b) = .ok (v, k) := by
  induction a generalizing count value with
  | nil => simp [decodeFrom] at h
  | cons byte rest ih =>
    simp only [decodeFrom] at h
    simp only [List.cons_append, decodeFrom]
    split at h
    · cases h
    · rename_i hc
      rw [if_neg hc]
      split at h
      · rename_i hb
        rw [if_pos hb, h]
      · rename_i hb
        rw [if_neg hb]
        exact ih h

namespace Reader

theorem rawVarint_eq_ok {r t : Reader} {v : UInt64} :
    rawVarint r = .ok v t ↔ ∃ k, Varint.decode r.rest = .ok (v, k) ∧ t = r.advance k := by
  rw [rawVarint, run_bind_of_ok (run_get r)]
  cases h : Varint.decode r.rest with
  | ok found =>
    obtain ⟨w, k⟩ := found
    change EStateM.Result.ok w (r.advance k) = .ok v t ↔ _
    constructor
    · intro hr
      cases hr
      exact ⟨k, rfl, rfl⟩
    · rintro ⟨k', hk, rfl⟩
      cases hk
      rfl
  | error e => simp

theorem word_eq_ok {width n : Nat} {r t : Reader} :
    word width r = .ok n t ↔
      width ≤ r.remaining ∧ n = Bytes.toNat (r.rest.take width) ∧ t = r.advance width := by
  rw [word, run_bind_of_ok (run_get r)]
  by_cases hw : r.remaining < width
  · rw [if_pos hw]
    simp only [run_bind, run_throw]
    constructor
    · intro h
      cases h
    · rintro ⟨h, -⟩
      omega
  · rw [if_neg hw]
    simp only [run_bind, run_set, run_pure, EStateM.Result.ok.injEq]
    constructor
    · rintro ⟨rfl, rfl⟩
      exact ⟨by omega, rfl, rfl⟩
    · rintro ⟨-, rfl, rfl⟩
      exact ⟨rfl, rfl⟩

theorem length_eq_ok {n : Nat} {r t : Reader} :
    length r = .ok n t ↔ ∃ v, rawVarint r = .ok v t ∧ n = v.toNat ∧ v.toNat ≤ t.remaining := by
  rw [length, run_bind_of_ok (run_get r), bind_eq_ok]
  constructor
  · rintro ⟨v, u, hv, hu⟩
    rw [run_bind_of_ok (run_get u)] at hu
    by_cases hr : u.remaining < v.toNat
    · rw [if_pos hr] at hu
      cases hu
    · rw [if_neg hr] at hu
      cases hu
      exact ⟨v, hv, rfl, by omega⟩
  · rintro ⟨v, hv, rfl, hle⟩
    refine ⟨v, t, hv, ?_⟩
    rw [run_bind_of_ok (run_get t), if_neg (by omega)]
    rfl

theorem delimited_eq_ok {b : Bytes} {r t : Reader} :
    delimited r = .ok b t ↔ ∃ n u, length r = .ok n u ∧ b = u.rest.take n ∧ t = u.advance n := by
  rw [delimited, bind_eq_ok]
  constructor
  · rintro ⟨n, u, hn, hu⟩
    cases hu
    exact ⟨n, u, hn, rfl, rfl⟩
  · rintro ⟨n, u, hn, rfl, rfl⟩
    exact ⟨n, u, hn, rfl⟩

theorem nextTag_eq_none {r t : Reader} : nextTag r = .ok none t ↔ r.rest = [] ∧ t = r := by
  rw [nextTag, run_bind_of_ok (run_get r)]
  by_cases he : r.rest = []
  · rw [if_pos (by simpa using he)]
    constructor
    · intro h
      cases h
      exact ⟨he, rfl⟩
    · rintro ⟨-, rfl⟩
      rfl
  · rw [if_neg (by simpa using he), bind_eq_ok]
    constructor
    · rintro ⟨v, u, -, hu⟩
      cases htag : Tag.ofRaw v.toNat <;> rw [htag] at hu <;> cases hu
    · rintro ⟨h, -⟩
      exact absurd h he

theorem nextTag_eq_some {tag : Tag} {r t : Reader} :
    nextTag r = .ok (some tag) t ↔ ∃ v, rawVarint r = .ok v t ∧ Tag.ofRaw v.toNat = .ok tag := by
  rw [nextTag, run_bind_of_ok (run_get r)]
  by_cases he : r.rest = []
  · rw [if_pos (by simpa using he)]
    constructor
    · intro h
      cases h
    · rintro ⟨v, hv, -⟩
      obtain ⟨k, hk, -⟩ := rawVarint_eq_ok.1 hv
      have := Varint.length_of_decode hk
      rw [he] at this
      simp only [List.length_nil] at this
      omega
  · rw [if_neg (by simpa using he), bind_eq_ok]
    constructor
    · rintro ⟨v, u, hv, hu⟩
      cases htag : Tag.ofRaw v.toNat with
      | ok tag' =>
        rw [htag] at hu
        cases hu
        exact ⟨v, hv, htag⟩
      | error e =>
        rw [htag] at hu
        cases hu
    · rintro ⟨v, hv, htag⟩
      exact ⟨v, t, hv, by rw [htag]; rfl⟩

theorem expect_eq_ok {tag : Tag} {wireType : WireType} {r t : Reader} :
    expect tag wireType r = .ok () t ↔ tag.wireType = wireType ∧ t = r := by
  unfold expect
  by_cases h : tag.wireType = wireType
  · rw [if_neg (by simpa using h)]
    constructor
    · intro h'
      cases h'
      exact ⟨h, rfl⟩
    · rintro ⟨-, rfl⟩
      rfl
  · rw [if_pos (by simpa using h)]
    constructor
    · intro h'
      cases h'
    · rintro ⟨h', -⟩
      exact absurd h' h

theorem expect_self {tag : Tag} {wireType : WireType} (h : tag.wireType = wireType) (r : Reader) :
    expect tag wireType r = .ok () r :=
  expect_eq_ok.2 ⟨h, rfl⟩

theorem scalar_eq_ok {kind : ScalarKind} {tag : Tag} {s : Scalar} {r t : Reader} :
    scalar kind tag r = .ok s t ↔ tag.wireType = kind.wireType ∧
      ∃ v, wireValue kind.wireType r = .ok v t ∧ kind.ofWire? v = some s := by
  rw [scalar, bind_eq_ok]
  constructor
  · rintro ⟨_, u, hu, h⟩
    obtain ⟨hw, rfl⟩ := expect_eq_ok.1 hu
    rw [run_bind_of_ok (run_get u)] at h
    obtain ⟨v, w, hv, h⟩ := bind_eq_ok.1 h
    cases ho : kind.ofWire? v with
    | none =>
      rw [ho] at h
      cases h
    | some s' =>
      rw [ho] at h
      cases h
      exact ⟨hw, v, hv, ho⟩
  · rintro ⟨hw, v, hv, ho⟩
    refine ⟨(), r, expect_self hw r, ?_⟩
    rw [run_bind_of_ok (run_get r), run_bind_of_ok hv, ho]
    rfl

theorem bytes_eq_ok {tag : Tag} {b : Bytes} {r t : Reader} :
    bytes tag r = .ok b t ↔ tag.wireType = .lengthDelimited ∧ delimited r = .ok b t := by
  rw [bytes, bind_eq_ok]
  constructor
  · rintro ⟨_, u, hu, h⟩
    obtain ⟨hw, rfl⟩ := expect_eq_ok.1 hu
    exact ⟨hw, h⟩
  · rintro ⟨hw, h⟩
    exact ⟨(), r, expect_self hw r, h⟩

/-! ## Consuming -/

theorem consumes_of_rawVarint {r t : Reader} {v : UInt64} (h : rawVarint r = .ok v t) :
    ∃ bytes, r.Consumes bytes t ∧ 0 < bytes.length := by
  obtain ⟨k, hk, rfl⟩ := rawVarint_eq_ok.1 h
  have hlen := Varint.length_of_decode hk
  refine ⟨r.rest.take k, consumes_advance hlen.2, ?_⟩
  rw [List.length_take]
  omega

theorem steady_rawVarint : Steady id rawVarint := by
  intro r v t h
  obtain ⟨bytes, hb, -⟩ := consumes_of_rawVarint h
  exact ⟨bytes, hb⟩

theorem steady_word (width : Nat) : Steady id (word width) := by
  intro r n t h
  obtain ⟨hle, -, rfl⟩ := word_eq_ok.1 h
  exact ⟨_, consumes_advance hle⟩

theorem steady_length : Steady id length := by
  intro r n t h
  obtain ⟨v, hv, -⟩ := length_eq_ok.1 h
  exact steady_rawVarint _ _ _ hv

theorem length_le {r t : Reader} {n : Nat} (h : length r = .ok n t) : n ≤ t.remaining := by
  obtain ⟨v, -, rfl, hle⟩ := length_eq_ok.1 h
  exact hle

theorem steady_delimited : Steady id delimited := by
  intro r b t h
  obtain ⟨n, u, hn, -, rfl⟩ := delimited_eq_ok.1 h
  exact (steady_length _ _ _ hn).trans ⟨_, consumes_advance (length_le hn)⟩

/-- A tag that was read took up bytes. -/
theorem consumes_of_nextTag {r t : Reader} {tag : Tag} (h : nextTag r = .ok (some tag) t) :
    ∃ bytes, r.Consumes bytes t ∧ 0 < bytes.length := by
  obtain ⟨v, hv, -⟩ := nextTag_eq_some.1 h
  exact consumes_of_rawVarint hv

theorem remaining_of_nextTag {r t : Reader} {tag : Tag} (h : nextTag r = .ok (some tag) t) :
    t.remaining < r.remaining := by
  obtain ⟨bytes, hb, hpos⟩ := consumes_of_nextTag h
  have := hb.length_add
  omega

theorem steady_nextTag : Steady id nextTag := by
  intro r tag? t h
  cases tag? with
  | none =>
    obtain ⟨-, rfl⟩ := nextTag_eq_none.1 h
    exact .refl _
  | some tag =>
    obtain ⟨bytes, hb, -⟩ := consumes_of_nextTag h
    exact ⟨bytes, hb⟩

theorem steady_expect (tag : Tag) (wireType : WireType) : Steady id (expect tag wireType) := by
  intro r _ t h
  obtain ⟨-, rfl⟩ := expect_eq_ok.1 h
  exact .refl _

theorem steady_wireValue (wireType : WireType) : Steady id (wireValue wireType) := by
  cases wireType with
  | varint => exact .map _ steady_rawVarint
  | fixed64 => exact .map _ (steady_word 8)
  | fixed32 => exact .map _ (steady_word 4)
  | lengthDelimited => exact .map _ steady_delimited
  | startGroup | endGroup => exact Steady.get.bind fun _ => .throw _

theorem steady_scalar (kind : ScalarKind) (tag : Tag) : Steady id (scalar kind tag) := by
  intro r s t h
  obtain ⟨-, v, hv, -⟩ := scalar_eq_ok.1 h
  exact steady_wireValue _ _ _ _ hv

theorem steady_bytes (tag : Tag) : Steady id (bytes tag) := by
  intro r b t h
  exact steady_delimited _ _ _ (bytes_eq_ok.1 h).2

/-! ## Nesting -/

theorem enter_eq_ok {limit : Nat} {r t : Reader} :
    enter limit r = .ok () t ↔ r.depth + 1 ≤ limit ∧ t = { r with depth := r.depth + 1 } := by
  rw [enter, run_bind_of_ok (run_modify _ r), run_bind_of_ok (run_get _)]
  by_cases h : limit < r.depth + 1
  · rw [if_pos h]
    constructor
    · intro h'
      cases h'
    · rintro ⟨h', -⟩
      omega
  · rw [if_neg h]
    constructor
    · intro h'
      cases h'
      exact ⟨by omega, rfl⟩
    · rintro ⟨-, rfl⟩
      rfl

theorem enter_of_limit_lt {limit : Nat} {r : Reader} (h : limit < r.depth + 1) :
    enter limit r = .error (.recursionLimit limit) { r with depth := r.depth + 1 } := by
  rw [enter, run_bind_of_ok (run_modify _ r), run_bind_of_ok (run_get _), if_pos h]
  rfl

theorem leave_eq_ok {r t : Reader} :
    leave r = .ok () t ↔ t = { r with depth := r.depth - 1 } := by
  rw [leave, run_modify]
  constructor
  · intro h
    cases h
    rfl
  · rintro rfl
    rfl

/-- What is left to read after leaving a level that was entered. -/
theorem Consumes.of_entered {r t : Reader} {bytes : Bytes}
    (h : Consumes { r with depth := r.depth + 1 } bytes t) :
    r.Consumes bytes { t with depth := t.depth - 1 } := by
  obtain ⟨h1, h2, h3⟩ := h
  refine ⟨h1, h2, ?_⟩
  change t.depth - 1 = r.depth
  rw [h3]
  exact Nat.add_sub_cancel ..

theorem Consumes.deeper {r t : Reader} {bytes : Bytes} (h : r.Consumes bytes t) :
    Consumes { r with depth := r.depth + 1 } bytes { t with depth := t.depth + 1 } := by
  obtain ⟨h1, h2, h3⟩ := h
  exact ⟨h1, h2, by simp only [h3]⟩

theorem Before.of_entered {r t : Reader} (h : Before { r with depth := r.depth + 1 } t) :
    r.Before { t with depth := t.depth - 1 } := by
  obtain ⟨bytes, hb⟩ := h
  exact ⟨bytes, hb.of_entered⟩

theorem run_within (body : Build Reader σ α) (s : σ) (r : Reader) :
    within body (s, r) =
      match length r with
      | .ok count u =>
        match body (s, { u with rest := u.rest.take count }) with
        | .ok a (s, v) =>
          if v.rest.isEmpty then .ok a (s, { v with rest := u.rest.drop count })
          else .error (.malformed v.position .nestedEndedEarly) (s, v)
        | .error e (s, v) => .error e (s, { v with rest := v.rest ++ u.rest.drop count })
      | .error e u => .error e (s, u) := by
  refine (run_bind _ _ _).trans ?_
  rw [run_read]
  cases length r <;> rfl

theorem within_eq_ok {body : Build Reader σ α} {s s' : σ} {r t : Reader} {a : α} :
    within body (s, r) = .ok a (s', t) ↔ ∃ count u v, length r = .ok count u ∧
      body (s, { u with rest := u.rest.take count }) = .ok a (s', v) ∧ v.rest = [] ∧
      t = { v with rest := u.rest.drop count } := by
  unfold within
  refine bind_eq_ok.trans ?_
  constructor
  · rintro ⟨count, ⟨s1, u⟩, h, hu⟩
    obtain ⟨hl, rfl⟩ := read_eq_ok.1 h
    refine ⟨count, u, ?_⟩
    dsimp only at hu
    cases hb : body (s1, { u with rest := u.rest.take count }) with
    | ok b w =>
      obtain ⟨s2, v⟩ := w
      rw [hb] at hu
      dsimp only at hu
      split at hu
      · rename_i he
        cases hu
        exact ⟨v, hl, rfl, by simpa using he, rfl⟩
      · cases hu
    | error e w =>
      rw [hb] at hu
      cases hu
  · rintro ⟨count, u, v, hl, hb, he, rfl⟩
    refine ⟨count, (s, u), read_eq_ok.2 ⟨hl, rfl⟩, ?_⟩
    dsimp only
    rw [hb]
    simp [he]

/-- A nested reading ends behind its region. -/
theorem eq_advance_of_within {body : Build Reader σ α} (hb : Steady Prod.snd body) {s s' : σ}
    {u v : Reader} {a : α} {count : Nat} (hle : count ≤ u.remaining)
    (h : body (s, { u with rest := u.rest.take count }) = .ok a (s', v)) (he : v.rest = []) :
    { v with rest := u.rest.drop count } = u.advance count := by
  obtain ⟨bytes, h1, h2, h3⟩ := hb _ _ _ h
  have hle : count ≤ u.rest.length := hle
  have hlen := congrArg List.length h1
  simp only [he, List.append_nil, List.length_take] at hlen
  simp only at h2 h3
  rw [advance, h2, h3, ← hlen, Nat.min_eq_left hle]

theorem steady_within {body : Build Reader σ α} (hb : Steady Prod.snd body) :
    Steady Prod.snd (within body) := by
  rintro ⟨s, r⟩ a ⟨s', t⟩ h
  obtain ⟨count, u, v, hl, hv, he, rfl⟩ := within_eq_ok.1 h
  rw [eq_advance_of_within hb (length_le hl) hv he]
  exact (steady_length _ _ _ hl).trans ⟨_, consumes_advance (length_le hl)⟩

theorem skipGroups_nil (limit rounds : Nat) : skipGroups limit rounds [] = pure () := by
  cases rounds <;> rfl

/-- What to do behind a tag while the groups of a stack are open, given what is to be done next. -/
def skipRound (rest : List Nat → Reading Reader Unit) (start : Reader) (number : Nat)
    (outer : List Nat) (tag : Tag) : Reading Reader Unit :=
  match tag.wireType with
  | .endGroup =>
    if tag.number = number then rest outer
    else throw (.malformed start.position (.mismatchedEndGroup tag.number number))
  | .startGroup => rest (tag.number :: number :: outer)
  | wireType => wireValue wireType >>= fun _ => rest (number :: outer)

theorem skipGroups_succ (limit rounds number : Nat) (outer : List Nat) (r : Reader) :
    skipGroups limit (rounds + 1) (number :: outer) r =
      if limit < r.depth + (outer.length + 1) then .error (.recursionLimit limit) r
      else (nextTag >>= fun tag? =>
        match tag? with
        | none => throw (.malformed r.position (.unclosedGroup number))
        | some tag => skipRound (skipGroups limit rounds) r number outer tag) r := by
  rw [skipGroups, run_bind_of_ok (run_get r)]
  split
  · rfl
  · rfl

theorem steady_skipRound {rest : List Nat → Reading Reader Unit}
    (hr : ∀ stack, Steady id (rest stack))
    (start : Reader) (number : Nat) (outer : List Nat) (tag : Tag) :
    Steady id (skipRound rest start number outer tag) := by
  unfold skipRound
  split
  · exact .ite (hr _) (.throw _)
  · exact hr _
  · exact (steady_wireValue _).bind fun _ => hr _

theorem steady_skipGroups (limit rounds : Nat) (stack : List Nat) :
    Steady id (skipGroups limit rounds stack) := by
  induction rounds generalizing stack with
  | zero =>
    cases stack with
    | nil => exact .pure _
    | cons number outer => exact Steady.get.bind fun _ => .throw _
  | succ rounds ih =>
    cases stack with
    | nil => exact .pure _
    | cons number outer =>
      intro r _ t h
      rw [skipGroups_succ] at h
      split at h
      · cases h
      · refine Steady.bind steady_nextTag (fun tag? => ?_) r _ t h
        cases tag? with
        | none => exact .throw _
        | some tag => exact steady_skipRound ih r number outer tag

theorem steady_skip (limit : Nat) (tag : Tag) : Steady id (skip limit tag) :=
  .ite (Steady.get.bind fun _ => steady_skipGroups limit _ _)
    ((steady_wireValue _).bind fun _ => .pure _)

/-! ## Composite fields -/

theorem elements_succ (read : Tag → Reading Reader α) (tag : Tag) (rounds : Nat) (as : List α)
    (r : Reader) :
    elements read tag (rounds + 1) (as, r) =
      if r.rest = [] then .ok () (as, r)
      else (Build.read (read tag) >>= fun a => update (· ++ [a]) >>= fun _ =>
        elements read tag rounds) (as, r) := by
  rw [elements, run_bind_of_ok (run_source as r)]
  simp only [List.isEmpty_iff]
  split
  · rfl
  · rfl

theorem steady_elements {read : Tag → Reading Reader α} {tag : Tag} (hr : Steady id (read tag))
    (rounds : Nat) : Steady Prod.snd (elements read tag rounds) := by
  induction rounds with
  | zero => exact .pure _
  | succ rounds ih =>
    exact Steady.source.bind fun _ => .ite (.pure _) (hr.read.bind fun _ =>
      (Steady.update _).bind fun _ => ih)

theorem steady_repeated {element : WireType} {read : Tag → Reading Reader α}
    (hr : ∀ tag, Steady id (read tag)) (tag : Tag) :
    Steady Prod.snd (repeated element read tag) :=
  .ite (steady_within (Steady.source.bind fun _ => steady_elements (hr _) _))
    ((hr tag).read.bind fun _ => .update _)

section

variable {κ ν : Type} {readKey : Tag → Reading Reader κ} {readValue : Tag → Reading Reader ν}
  {keyType valueType : WireType}

theorem steady_entryField (hk : ∀ tag, Steady id (readKey tag))
    (hv : ∀ tag, Steady id (readValue tag)) (limit : Nat) (tag : Tag) :
    Steady Prod.snd (entryField limit readKey readValue keyType valueType tag) :=
  .ite ((hk tag).read.bind fun _ => .update _)
    (.ite ((hv tag).read.bind fun _ => .update _) (steady_skip limit tag).read)

variable (hk : Expects readKey (·.wireType = keyType))
  (hv : Expects readValue (·.wireType = valueType))

include hk hv

theorem steady_entryFields (sk : ∀ tag, Steady id (readKey tag))
    (sv : ∀ tag, Steady id (readValue tag)) (limit rounds : Nat) :
    Steady Prod.snd (entryFields limit readKey readValue rounds) := by
  induction rounds with
  | zero => exact .pure _
  | succ rounds ih =>
    rw [entryFields_succ hk hv]
    refine steady_nextTag.read.bind fun tag? => ?_
    cases tag? with
    | none => exact .pure _
    | some tag => exact (steady_entryField sk sv limit tag).bind fun _ => ih

end

/-- The fields of the map entry in the current region. -/
abbrev entryBody {κ ν : Type} (limit : Nat) (readKey : Tag → Reading Reader κ)
    (readValue : Tag → Reading Reader ν) : Build Reader (κ × ν) Unit :=
  Build.source >>= fun r => entryFields limit readKey readValue (r.remaining + 1)

theorem mapEntry_eq_ok {κ ν : Type} {limit : Nat} {zero entry : κ × ν}
    {readKey : Tag → Reading Reader κ} {readValue : Tag → Reading Reader ν} {tag : Tag}
    {r t : Reader} :
    mapEntry limit zero readKey readValue tag r = .ok entry t ↔
      tag.wireType = .lengthDelimited ∧ r.depth + 1 ≤ limit ∧
      ∃ u, within (entryBody limit readKey readValue) (zero, { r with depth := r.depth + 1 }) =
        .ok () (entry, u) ∧ t = { u with depth := u.depth - 1 } := by
  rw [mapEntry, bind_eq_ok]
  constructor
  · rintro ⟨_, r1, h1, h⟩
    obtain ⟨hw, rfl⟩ := expect_eq_ok.1 h1
    obtain ⟨_, r2, h2, h⟩ := bind_eq_ok.1 h
    obtain ⟨hd, rfl⟩ := enter_eq_ok.1 h2
    obtain ⟨entry', u, h3, h⟩ := bind_eq_ok.1 h
    obtain ⟨_, r4, h4, h⟩ := bind_eq_ok.1 h
    cases leave_eq_ok.1 h4
    cases h
    exact ⟨hw, hd, u, alone_eq_ok.1 h3, rfl⟩
  · rintro ⟨hw, hd, u, hu, rfl⟩
    refine ⟨(), r, expect_self hw r, ?_⟩
    rw [run_bind_of_ok (enter_eq_ok.2 ⟨hd, rfl⟩), run_bind_of_ok (alone_eq_ok.2 hu),
      run_bind_of_ok (leave_eq_ok.2 rfl)]
    rfl

theorem steady_mapEntry {κ ν : Type} {readKey : Tag → Reading Reader κ}
    {readValue : Tag → Reading Reader ν} {keyType valueType : WireType}
    (hk : Expects readKey (·.wireType = keyType)) (hv : Expects readValue (·.wireType = valueType))
    (sk : ∀ tag, Steady id (readKey tag)) (sv : ∀ tag, Steady id (readValue tag)) (limit : Nat)
    (zero : κ × ν) (tag : Tag) : Steady id (mapEntry limit zero readKey readValue tag) := by
  intro r entry t h
  obtain ⟨-, -, u, hu, rfl⟩ := mapEntry_eq_ok.1 h
  have hs := steady_within (Steady.source.bind fun r => steady_entryFields hk hv sk sv limit
    (r.remaining + 1)) _ _ _ hu
  exact Before.of_entered hs

/-! ## Messages -/

theorem message_eq_ok {limit : Nat} {body : MergeBody} {tag : Tag} {m m' : Message}
    {r t : Reader} :
    message limit body tag (m, r) = .ok () (m', t) ↔
      tag.wireType = .lengthDelimited ∧ r.depth + 1 ≤ limit ∧
      ∃ u, within (body none) (m, { r with depth := r.depth + 1 }) = .ok () (m', u) ∧
        t = { u with depth := u.depth - 1 } := by
  rw [message, bind_eq_ok]
  constructor
  · rintro ⟨_, ⟨m1, r1⟩, h1, h⟩
    obtain ⟨he, rfl⟩ := read_eq_ok.1 h1
    obtain ⟨hw, rfl⟩ := expect_eq_ok.1 he
    obtain ⟨_, ⟨m2, r2⟩, h2, h⟩ := bind_eq_ok.1 h
    obtain ⟨hn, rfl⟩ := read_eq_ok.1 h2
    obtain ⟨hd, rfl⟩ := enter_eq_ok.1 hn
    obtain ⟨_, ⟨m3, u⟩, h3, h4⟩ := bind_eq_ok.1 h
    obtain ⟨hl, rfl⟩ := read_eq_ok.1 h4
    exact ⟨hw, hd, u, h3, leave_eq_ok.1 hl⟩
  · rintro ⟨hw, hd, u, hu, rfl⟩
    refine ⟨(), (m, r), read_eq_ok.2 ⟨expect_self hw r, rfl⟩, ?_⟩
    rw [run_bind_of_ok (read_eq_ok.2 ⟨enter_eq_ok.2 ⟨hd, rfl⟩, rfl⟩), run_bind_of_ok hu]
    exact read_eq_ok.2 ⟨leave_eq_ok.2 rfl, rfl⟩

theorem group_eq_ok {limit : Nat} {body : MergeBody} {tag : Tag} {m m' : Message} {r t : Reader} :
    group limit body tag (m, r) = .ok () (m', t) ↔
      tag.wireType = .startGroup ∧ r.depth + 1 ≤ limit ∧
      ∃ u, body (some tag.number) (m, { r with depth := r.depth + 1 }) = .ok () (m', u) ∧
        t = { u with depth := u.depth - 1 } := by
  rw [group, bind_eq_ok]
  constructor
  · rintro ⟨_, ⟨m1, r1⟩, h1, h⟩
    obtain ⟨he, rfl⟩ := read_eq_ok.1 h1
    obtain ⟨hw, rfl⟩ := expect_eq_ok.1 he
    obtain ⟨_, ⟨m2, r2⟩, h2, h⟩ := bind_eq_ok.1 h
    obtain ⟨hn, rfl⟩ := read_eq_ok.1 h2
    obtain ⟨hd, rfl⟩ := enter_eq_ok.1 hn
    obtain ⟨_, ⟨m3, u⟩, h3, h4⟩ := bind_eq_ok.1 h
    obtain ⟨hl, rfl⟩ := read_eq_ok.1 h4
    exact ⟨hw, hd, u, h3, leave_eq_ok.1 hl⟩
  · rintro ⟨hw, hd, u, hu, rfl⟩
    refine ⟨(), (m, r), read_eq_ok.2 ⟨expect_self hw r, rfl⟩, ?_⟩
    rw [run_bind_of_ok (read_eq_ok.2 ⟨enter_eq_ok.2 ⟨hd, rfl⟩, rfl⟩), run_bind_of_ok hu]
    exact read_eq_ok.2 ⟨leave_eq_ok.2 rfl, rfl⟩

section

variable (limit : Nat) {body : MergeBody} (hb : ∀ g, Settled (body g))
  (sb : ∀ g, Steady Prod.snd (body g))

include sb

theorem steady_message (tag : Tag) : Steady Prod.snd (message limit body tag) := by
  rintro ⟨m, r⟩ _ ⟨m', t⟩ h
  obtain ⟨-, -, u, hu, rfl⟩ := message_eq_ok.1 h
  exact Before.of_entered (steady_within (sb none) _ _ _ hu)

theorem steady_group (tag : Tag) : Steady Prod.snd (group limit body tag) := by
  rintro ⟨m, r⟩ _ ⟨m', t⟩ h
  obtain ⟨-, -, u, hu, rfl⟩ := group_eq_ok.1 h
  exact Before.of_entered (sb _ _ _ _ hu)

theorem steady_value (kind : FieldKind) (tag : Tag) : Steady id (value limit body kind tag) := by
  cases kind with
  | scalar kind => exact (steady_scalar kind tag).map _
  | message type => exact (Steady.alone (steady_message limit sb tag)).map _
  | group type => exact (Steady.alone (steady_group limit sb tag)).map _

omit sb in
theorem steady_intoOptional (type : MessageType) (wireType : WireType)
    {merge : Tag → Build Reader Message Unit} (hm : ∀ tag, Steady Prod.snd (merge tag))
    (tag : Tag) :
    Steady Prod.snd (intoOptional type wireType merge tag) :=
  (steady_expect tag wireType).read.bind fun _ => .zoom (hm tag)

omit sb in
theorem steady_intoChosen (type : MessageType) (wireType : WireType)
    {merge : Tag → Build Reader Message Unit} (hm : ∀ tag, Steady Prod.snd (merge tag))
    (tag : Tag) :
    Steady Prod.snd (intoChosen type wireType merge tag) :=
  (steady_expect tag wireType).read.bind fun _ => Steady.current.bind fun _ =>
    (Steady.put _).bind fun _ => (Steady.alone (hm tag)).read.bind fun _ => .put _

theorem steady_optionalField (kind : FieldKind) (tag : Tag) :
    Steady Prod.snd (optionalField limit body kind tag) := by
  cases kind with
  | scalar kind => exact (steady_scalar kind tag).read.bind fun _ => .put _
  | message type => exact steady_intoOptional type _ (steady_message limit sb) tag
  | group type => exact steady_intoOptional type _ (steady_group limit sb) tag

theorem steady_repeatedField (kind : FieldKind) (tag : Tag) :
    Steady Prod.snd (repeatedField limit body kind tag) := by
  have hv := steady_value limit sb kind
  cases kind with
  | scalar kind => exact steady_repeated hv tag
  | message type => exact (hv tag).read.bind fun _ => .update _
  | group type => exact (hv tag).read.bind fun _ => .update _

theorem steady_oneofField (kind : FieldKind) (tag : Tag) :
    Steady Prod.snd (oneofField limit body kind tag) := by
  cases kind with
  | scalar kind => exact (steady_scalar kind tag).read.bind fun _ => .put _
  | message type => exact steady_intoChosen type _ (steady_message limit sb) tag
  | group type => exact steady_intoChosen type _ (steady_group limit sb) tag

include hb

theorem Member.steady_merge (member : Member) (tag : Tag) :
    Steady Prod.snd (member.merge limit body tag) := by
  cases member with
  | plain number name kind => exact (steady_scalar kind tag).read.bind fun _ => .put _
  | optional field required => exact steady_optionalField limit sb field.kind tag
  | packed number name kind => exact .zoom (steady_repeated (steady_scalar kind) tag)
  | repeated field => exact .zoom (steady_repeatedField limit sb field.kind tag)
  | map number name key kind =>
    exact (steady_mapEntry (expects_scalar key) (expects_value limit hb kind) (steady_scalar key)
      (steady_value limit sb kind) limit _ tag).read.bind fun _ => .update _
  | oneof fields =>
    cases hf : fields.find? (·.number = tag.number) with
    | none =>
      rw [Member.merge_oneof_none hf]
      exact .pure _
    | some field =>
      rw [Member.merge_oneof hf]
      exact steady_oneofField limit sb field.kind tag
  | payload number name => exact (steady_bytes tag).read.bind fun _ => .put _

end

end Reader

namespace Message

open Reader

theorem steady_mergeField (limit : Nat) {body : MergeBody} (hb : ∀ g, Settled (body g))
    (sb : ∀ g, Steady Prod.snd (body g)) (tag : Tag) :
    Steady Prod.snd (mergeField limit body tag) := by
  rintro ⟨m, r⟩ a ⟨m', t⟩ h
  unfold mergeField at h
  dsimp only at h
  split at h
  · cases h
    exact .refl _
  · rename_i i member _
    exact Steady.bind (Steady.zoom (Member.steady_merge limit hb sb member tag))
      (fun _ => .pure true) _ _ _ h

theorem steady_keepUnknown (options : DecodeOptions) (start : Reader) (tag : Tag) :
    Steady Prod.snd (keepUnknown options start tag) :=
  (steady_skip _ tag).read.bind fun _ =>
    .ite (Steady.source.bind fun _ => .update _) (.pure _)

theorem steady_mergeOne (options : DecodeOptions) {body : MergeBody} (hb : ∀ g, Settled (body g))
    (sb : ∀ g, Steady Prod.snd (body g)) (start : Reader) (tag : Tag) :
    Steady Prod.snd (mergeOne options body start tag) :=
  Steady.current.bind fun _ => .ite ((steady_mergeField _ hb sb tag).bind fun _ => .pure _)
    (steady_keepUnknown options start tag)

theorem steady_mergeRound {one : Reader → Tag → Build Reader Message Unit}
    {rest : Build Reader Message Unit} (ho : ∀ start tag, Steady Prod.snd (one start tag))
    (hr : Steady Prod.snd rest) (group? : Option Nat) :
    Steady Prod.snd (mergeRound one rest group?) := by
  refine Steady.source.bind fun start => steady_nextTag.read.bind fun tag? => ?_
  cases tag? with
  | none =>
    cases group? with
    | none => exact .pure _
    | some number => exact .throw _
  | some tag => exact .ite (.ite (.pure _) (.throw _)) ((ho start tag).bind fun _ => hr)

theorem steady_mergeFields (options : DecodeOptions) (rounds : Nat) (group? : Option Nat) :
    Steady Prod.snd (mergeFields options rounds group?) := by
  induction rounds generalizing group? with
  | zero => exact .pure _
  | succ rounds ih =>
    rw [mergeFields_round]
    exact steady_mergeRound (steady_mergeOne options (settled_mergeFields options rounds) ih)
      (ih group?) group?

end Message

end Protobuf
