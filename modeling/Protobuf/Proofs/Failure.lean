import Protobuf.Proofs.Merging

/-!
# Reading that fails

A reader that fails stands somewhere behind the place where it started. What was put aside while a
nested region was read is there again, and no message was closed that had not been opened. The error
lies in the region that was read. Nested regions never end early: what is confined to a region and
succeeds has read all of it.
-/

namespace Protobuf

open Build

variable {σ τ α β : Type}

namespace Reader

/-- The second place lies behind some bytes of the first one's region, with no fewer messages
open. -/
def Reaches (r t : Reader) : Prop :=
  ∃ bytes, r.rest = bytes ++ t.rest ∧ t.position = r.position + bytes.length ∧ r.depth ≤ t.depth

theorem Reaches.refl (r : Reader) : r.Reaches r := ⟨[], rfl, rfl, Nat.le_refl _⟩

theorem Before.reaches {r t : Reader} (h : r.Before t) : r.Reaches t := by
  obtain ⟨bytes, hrest, hposition, hdepth⟩ := h
  exact ⟨bytes, hrest, hposition, Nat.le_of_eq hdepth.symm⟩

theorem Reaches.trans {r t u : Reader} (h : r.Reaches t) (h' : t.Reaches u) : r.Reaches u := by
  obtain ⟨a, hrest, hposition, hdepth⟩ := h
  obtain ⟨b, hrest', hposition', hdepth'⟩ := h'
  refine ⟨a ++ b, ?_, ?_, Nat.le_trans hdepth hdepth'⟩
  · rw [hrest, hrest', List.append_assoc]
  · rw [hposition', hposition, List.length_append, Nat.add_assoc]

/-- Where the region of the reader ends. -/
def stop (r : Reader) : Nat := r.position + r.remaining

theorem stop_new (bytes : Bytes) : (new bytes).stop = bytes.length := Nat.zero_add _

theorem position_le_stop (r : Reader) : r.position ≤ r.stop := Nat.le_add_right _ _

theorem Before.position_le {r t : Reader} (h : r.Before t) : r.position ≤ t.position := by
  obtain ⟨bytes, -, hposition, -⟩ := h
  omega

theorem Before.stop_eq {r t : Reader} (h : r.Before t) : t.stop = r.stop := by
  obtain ⟨bytes, hb⟩ := h
  have hadd := hb.length_add
  have hposition := hb.2.1
  unfold stop
  omega

theorem Reaches.of_entered {r t : Reader} (h : Reaches { r with depth := r.depth + 1 } t) :
    r.Reaches t := by
  obtain ⟨bytes, hrest, hposition, hdepth⟩ := h
  exact ⟨bytes, hrest, hposition, Nat.le_of_succ_le hdepth⟩

/-- What a region was narrowed by is put back behind it. -/
theorem Reaches.widen {u v : Reader} {count : Nat}
    (h : Reaches { u with rest := u.rest.take count } v) :
    u.Reaches { v with rest := v.rest ++ u.rest.drop count } := by
  obtain ⟨bytes, hrest, hposition, hdepth⟩ := h
  have hrest : u.rest.take count = bytes ++ v.rest := hrest
  refine ⟨bytes, ?_, hposition, hdepth⟩
  calc u.rest = u.rest.take count ++ u.rest.drop count := (List.take_append_drop count u.rest).symm
    _ = bytes ++ (v.rest ++ u.rest.drop count) := by rw [hrest, List.append_assoc]

end Reader

/-- The error says that a nested region ended early. -/
def Error.EndedEarly (e : Error) : Prop := ∃ offset, e = .malformed offset .nestedEndedEarly

/-- The error is one of reading a region that ends at a place, and lies before that place. It does
not say that a nested region ended early. -/
inductive Error.Located (stop : Nat) : Error → Prop
  /-- The region ends where more was announced. -/
  | truncated {offset : Nat} (offset_le : offset ≤ stop) : Located stop (.truncated offset)
  /-- The region breaks the wire format. -/
  | malformed {offset : Nat} {fault : WireFault} (offset_le : offset ≤ stop)
    (fault_ne : fault ≠ .nestedEndedEarly) : Located stop (.malformed offset fault)
  /-- A tag carries another wire type than its declaration. -/
  | wireTypeMismatch {offset : Nat} (offset_le : offset ≤ stop) (number : Nat)
    (actual expected : WireType) : Located stop (.wireTypeMismatch offset number actual expected)
  /-- The region nests deeper than allowed. -/
  | recursionLimit (limit : Nat) : Located stop (.recursionLimit limit)

namespace Error.Located

variable {stop stop' : Nat} {e : Error}

theorem mono (h : e.Located stop) (hle : stop ≤ stop') : e.Located stop' := by
  cases h with
  | truncated offset_le => exact .truncated (Nat.le_trans offset_le hle)
  | malformed offset_le fault_ne => exact .malformed (Nat.le_trans offset_le hle) fault_ne
  | wireTypeMismatch offset_le number actual expected =>
    exact .wireTypeMismatch (Nat.le_trans offset_le hle) number actual expected
  | recursionLimit limit => exact .recursionLimit limit

theorem shift (h : e.Located stop) (hm : e.isMismatch = false) (base : Nat) :
    (e.shift base).Located (base + stop) := by
  cases h with
  | truncated offset_le => exact .truncated (Nat.add_le_add_left offset_le base)
  | malformed offset_le fault_ne => exact .malformed (Nat.add_le_add_left offset_le base) fault_ne
  | wireTypeMismatch => cases hm
  | recursionLimit limit => exact .recursionLimit limit

theorem not_endedEarly (h : e.Located stop) : ¬ e.EndedEarly := by
  rintro ⟨offset, rfl⟩
  cases h with
  | malformed _ fault_ne => exact fault_ne rfl

end Error.Located

/-- With so many bytes left at most, every failure of the action leaves the reader at some place
further on, and the error lies in the reader's region. -/
def Orderly (place : σ → Reader) (n : Nat) (x : EStateM Error σ α) : Prop :=
  ∀ s e t, (place s).remaining ≤ n → x s = .error e t →
    (place s).Reaches (place t) ∧ e.Located (place s).stop

/-- Where the action succeeds, it has read the whole region. -/
def Exhausts (x : Build Reader σ α) : Prop :=
  ∀ s r a s' t, x (s, r) = .ok a (s', t) → t.rest = []

namespace Orderly

variable {place : σ → Reader} {n : Nat}

theorem of_ok {x : EStateM Error σ α} (h : ∀ s, ∃ a t, x s = .ok a t) : Orderly place n x := by
  intro s e t _ hx
  obtain ⟨a, u, hu⟩ := h s
  rw [hu] at hx
  cases hx

theorem pure (a : α) : Orderly place n (pure a) := of_ok fun s => ⟨a, s, rfl⟩

theorem throw {e : Error} (h : ∀ s, e.Located (place s).stop) :
    Orderly (α := α) place n (throw e) := by
  intro s e' t _ hx
  cases hx
  exact ⟨.refl _, h s⟩

theorem bind {x : EStateM Error σ α} {f : α → EStateM Error σ β} (hx : Orderly place n x)
    (sx : Steady place x) (hf : ∀ a, Orderly place n (f a)) : Orderly place n (x >>= f) := by
  intro s e u hn h
  rcases bind_eq_error.1 h with h | ⟨a, t, ht, hu⟩
  · exact hx s e u hn h
  · have hbefore := sx s a t ht
    have hle := hbefore.remaining_le
    obtain ⟨hreaches, he⟩ := hf a t e u (by omega) hu
    exact ⟨hbefore.reaches.trans hreaches, hbefore.stop_eq ▸ he⟩

theorem ite {c : Prop} [Decidable c] {x y : EStateM Error σ α} (hx : Orderly place n x)
    (hy : Orderly place n y) : Orderly place n (if c then x else y) := by
  split
  · exact hx
  · exact hy

theorem map {x : EStateM Error σ α} (f : α → β) (hx : Orderly place n x) (sx : Steady place x) :
    Orderly place n (f <$> x) := by
  rw [map_eq_bind]
  exact hx.bind sx fun _ => .pure _

theorem get {place : Reader → Reader} : Orderly place n (get : Reading Reader Reader) :=
  of_ok fun r => ⟨r, r, rfl⟩

theorem source : Orderly Prod.snd n (source : Build Reader σ Reader) :=
  of_ok fun s => ⟨s.2, s, rfl⟩

theorem current : Orderly Prod.snd n (current : Build Reader σ σ) :=
  of_ok fun s => ⟨s.1, s, rfl⟩

theorem put (s : σ) : Orderly Prod.snd n (put s : Build Reader σ Unit) :=
  of_ok fun p => ⟨(), (s, p.2), rfl⟩

theorem update (f : σ → σ) : Orderly Prod.snd n (update f : Build Reader σ Unit) :=
  of_ok fun p => ⟨(), (f p.1, p.2), rfl⟩

theorem read {x : Reading Reader α} (hx : Orderly id n x) :
    Orderly Prod.snd n (read x : Build Reader σ α) := by
  rintro ⟨s, r⟩ e ⟨s', t⟩ hn h
  exact hx r e t hn (read_eq_error.1 h).1

theorem zoom {part : σ → τ} {put : σ → τ → σ} {x : Build Reader τ α} (hx : Orderly Prod.snd n x) :
    Orderly Prod.snd n (zoom part put x) := by
  rintro ⟨s, r⟩ e ⟨s', t⟩ hn h
  rw [run_zoom] at h
  rcases hr : x (part s, r) with ⟨a, p, u⟩ | ⟨e', p, u⟩
  · rw [hr] at h
    cases h
  · rw [hr] at h
    cases h
    exact hx _ _ _ hn hr

theorem alone {s : σ} {x : Build Reader σ Unit} (hx : Orderly Prod.snd n x) :
    Orderly id n (alone s x) := by
  intro r e t hn h
  rw [run_alone] at h
  rcases hr : x (s, r) with ⟨a, p, u⟩ | ⟨e', p, u⟩
  · rw [hr] at h
    cases h
  · rw [hr] at h
    cases h
    exact hx (s, r) _ _ hn hr

end Orderly

/-! ## Values without nesting -/

theorem Varint.located_of_decodeFrom {count : Nat} {value : UInt64} {bytes : Bytes} {e : Error}
    (h : decodeFrom count value bytes = .error e) : e.Located (count + bytes.length) := by
  induction bytes generalizing count value with
  | nil =>
    simp only [decodeFrom, Except.error.injEq] at h
    subst h
    split
    · exact .malformed ‹_› (by simp)
    · exact .truncated (Nat.le_refl _)
  | cons byte rest ih =>
    simp only [decodeFrom] at h
    split at h
    · cases h
      exact .malformed (Nat.le_trans ‹_› (Nat.le_add_right ..)) (by simp)
    · split at h
      · cases h
      · refine (ih h).mono ?_
        rw [List.length_cons]
        omega

theorem Tag.located_of_ofRaw {raw : Nat} {e : Error} (h : ofRaw raw = .error e) :
    e.Located 0 := by
  unfold ofRaw at h
  split at h
  · cases h
    exact .malformed (Nat.le_refl _) (by simp)
  · split at h
    · cases h
    · cases h
      exact .malformed (Nat.le_refl _) (by simp)

namespace Reader

variable {n : Nat}

theorem orderly_rawVarint : Orderly id n rawVarint := by
  intro r e t _ h
  rw [rawVarint, run_bind_of_ok (run_get r)] at h
  cases hd : Varint.decode r.rest with
  | ok found =>
    rw [hd] at h
    cases h
  | error e' =>
    rw [hd] at h
    cases h
    have he := Varint.located_of_decodeFrom hd
    rw [Nat.zero_add] at he
    exact ⟨.refl r, he.shift (Varint.isMismatch_of_decodeFrom hd) r.position⟩

theorem orderly_word (width : Nat) : Orderly id n (word width) := by
  intro r e t _ h
  rw [word, run_bind_of_ok (run_get r)] at h
  split at h
  · cases h
    exact ⟨.refl r, .truncated (Nat.le_refl _)⟩
  · cases h

theorem length_eq_error {r t : Reader} {e : Error} (h : length r = .error e t) :
    rawVarint r = .error e t ∨ ∃ v, rawVarint r = .ok v t ∧ e = .truncated r.position := by
  rw [length, run_bind_of_ok (run_get r)] at h
  rcases bind_eq_error.1 h with h | ⟨v, u, hv, h⟩
  · exact Or.inl h
  · rw [run_bind_of_ok (run_get u)] at h
    split at h
    · cases h
      exact Or.inr ⟨v, hv, rfl⟩
    · cases h

theorem orderly_length : Orderly id n length := by
  intro r e t hn h
  rcases length_eq_error h with h | ⟨v, hv, rfl⟩
  · exact orderly_rawVarint r e t hn h
  · exact ⟨(steady_rawVarint r v t hv).reaches, .truncated r.position_le_stop⟩

theorem orderly_delimited : Orderly id n delimited := by
  refine orderly_length.bind steady_length fun _ => ?_
  exact .of_ok fun r => ⟨_, _, rfl⟩

theorem nextTag_eq_error {r t : Reader} {e : Error} (h : nextTag r = .error e t) :
    rawVarint r = .error e t ∨
      ∃ v e', rawVarint r = .ok v t ∧ Tag.ofRaw v.toNat = .error e' ∧ e = e'.shift r.position := by
  rw [nextTag, run_bind_of_ok (run_get r)] at h
  split at h
  · cases h
  · rcases bind_eq_error.1 h with h | ⟨v, u, hv, h⟩
    · exact Or.inl h
    · cases htag : Tag.ofRaw v.toNat with
      | ok tag =>
        rw [htag] at h
        cases h
      | error e' =>
        rw [htag] at h
        cases h
        exact Or.inr ⟨v, e', hv, htag, rfl⟩

theorem orderly_nextTag : Orderly id n nextTag := by
  intro r e t hn h
  rcases nextTag_eq_error h with h | ⟨v, e', hv, htag, rfl⟩
  · exact orderly_rawVarint r e t hn h
  · have he := (Tag.located_of_ofRaw htag).shift (Tag.isMismatch_of_ofRaw htag) r.position
    exact ⟨(steady_rawVarint r v t hv).reaches, he.mono r.position_le_stop⟩

theorem orderly_expect (tag : Tag) (wireType : WireType) : Orderly id n (expect tag wireType) := by
  intro r e t _ h
  unfold expect at h
  split at h
  · cases h
    exact ⟨.refl r, .wireTypeMismatch r.position_le_stop ..⟩
  · cases h

theorem orderly_wireValue (wireType : WireType) : Orderly id n (wireValue wireType) := by
  cases wireType with
  | varint => exact orderly_rawVarint.map _ steady_rawVarint
  | fixed64 => exact (orderly_word 8).map _ (steady_word 8)
  | fixed32 => exact (orderly_word 4).map _ (steady_word 4)
  | lengthDelimited => exact orderly_delimited.map _ steady_delimited
  | startGroup | endGroup =>
    intro r e t _ h
    cases h
    exact ⟨.refl r, .malformed r.position_le_stop (by simp)⟩

theorem orderly_scalar (kind : ScalarKind) (tag : Tag) : Orderly id n (scalar kind tag) := by
  refine (orderly_expect tag _).bind (steady_expect tag _) fun _ => ?_
  intro r e t hn h
  rw [run_bind_of_ok (run_get r)] at h
  rcases bind_eq_error.1 h with h | ⟨v, u, hv, h⟩
  · exact orderly_wireValue _ r e t hn h
  · cases ho : kind.ofWire? v with
    | some s =>
      rw [ho] at h
      cases h
    | none =>
      rw [ho] at h
      cases h
      exact ⟨(steady_wireValue _ r v _ hv).reaches, .malformed r.position_le_stop (by simp)⟩

theorem orderly_bytes (tag : Tag) : Orderly id n (bytes tag) :=
  (orderly_expect tag _).bind (steady_expect tag _) fun _ => orderly_delimited

/-! ## Nesting -/

/-- An action that is run one level deeper fails as it does there. -/
theorem orderly_entered {limit : Nat} {x : Build Reader σ Unit} (hx : Orderly Prod.snd n x) :
    Orderly Prod.snd n (read (enter limit) >>= fun _ => x >>= fun _ => read leave) := by
  rintro ⟨s, r⟩ e ⟨s', t⟩ hn h
  by_cases hd : r.depth + 1 ≤ limit
  · rw [run_bind_of_ok (read_eq_ok.2 ⟨enter_eq_ok.2 ⟨hd, rfl⟩, rfl⟩)] at h
    rcases bind_eq_error.1 h with h | ⟨_, u, -, hleave⟩
    · obtain ⟨hreaches, he⟩ := hx (s, { r with depth := r.depth + 1 }) _ _ hn h
      exact ⟨hreaches.of_entered, he⟩
    · cases hleave
  · rw [run_bind_of_error (read_eq_error.2 ⟨enter_of_limit_lt (Nat.lt_of_not_le hd), rfl⟩)] at h
    cases h
    exact ⟨Reaches.of_entered (.refl _), .recursionLimit limit⟩

theorem orderly_within {body : Build Reader σ α} (hb : Orderly Prod.snd n body)
    (he : Exhausts body) : Orderly Prod.snd n (within body) := by
  rintro ⟨s, r⟩ e ⟨s', t⟩ hn h
  rw [run_within] at h
  cases hl : length r with
  | error e' u =>
    rw [hl] at h
    cases h
    exact orderly_length r e t hn hl
  | ok count u =>
    rw [hl] at h
    dsimp only at h
    have hbefore := steady_length r count u hl
    have hle : u.remaining ≤ r.remaining := hbefore.remaining_le
    rcases hr : body (s, { u with rest := u.rest.take count }) with ⟨a, p, v⟩ | ⟨e', p, v⟩
    · rw [hr] at h
      dsimp only at h
      rw [he _ _ _ _ _ hr] at h
      cases h
    · rw [hr] at h
      cases h
      have hn : Reader.remaining { u with rest := u.rest.take count } ≤ n := by
        have htake := List.length_take_le' count u.rest
        simp only [remaining] at hle hn ⊢
        omega
      obtain ⟨hreaches, he⟩ := hb _ _ _ hn hr
      refine ⟨hbefore.reaches.trans hreaches.widen, he.mono ?_⟩
      have hstop := hbefore.stop_eq
      have htake := List.length_take_le' count u.rest
      simp only [id, stop, remaining] at hstop ⊢
      omega

/-! ## Skipping -/

theorem orderly_skipRound {rest : List Nat → Reading Reader Unit}
    (hr : ∀ stack, Orderly id n (rest stack)) {start : Reader} {number : Nat} {outer : List Nat}
    {tag : Tag} {r t : Reader} {e : Error} (hbefore : start.Before r) (hn : r.remaining ≤ n)
    (h : skipRound rest start number outer tag r = .error e t) :
    r.Reaches t ∧ e.Located start.stop := by
  rw [← hbefore.stop_eq]
  have hvalue := fun wireType => (orderly_wireValue wireType).bind (steady_wireValue wireType)
    (fun _ => hr (number :: outer)) r e t hn
  unfold skipRound at h
  cases hw : tag.wireType with
  | endGroup =>
    simp only [hw] at h
    split at h
    · exact hr _ r e t hn h
    · cases h
      exact ⟨.refl r, .malformed (hbefore.stop_eq ▸ start.position_le_stop) (by simp)⟩
  | startGroup =>
    simp only [hw] at h
    exact hr _ r e t hn h
  | varint | fixed64 | lengthDelimited | fixed32 =>
    simp only [hw] at h
    exact hvalue _ h

theorem orderly_skipGroups (limit rounds : Nat) (stack : List Nat) :
    Orderly id n (skipGroups limit rounds stack) := by
  induction rounds generalizing stack with
  | zero =>
    cases stack with
    | nil => exact .pure _
    | cons number outer =>
      intro r e t _ h
      cases h
      exact ⟨.refl r, .malformed r.position_le_stop (by simp)⟩
  | succ rounds ih =>
    cases stack with
    | nil => exact .pure _
    | cons number outer =>
      intro r e t hn h
      rw [skipGroups_succ] at h
      split at h
      · cases h
        exact ⟨.refl r, .recursionLimit limit⟩
      · rcases bind_eq_error.1 h with h | ⟨tag?, u, hu, h⟩
        · exact orderly_nextTag r e t hn h
        · have hbefore : r.Before u := steady_nextTag r tag? u hu
          cases tag? with
          | none =>
            cases h
            exact ⟨hbefore.reaches, .malformed r.position_le_stop (by simp)⟩
          | some tag =>
            obtain ⟨hreaches, he⟩ :=
              orderly_skipRound ih hbefore (Nat.le_trans hbefore.remaining_le hn) h
            exact ⟨hbefore.reaches.trans hreaches, he⟩

theorem orderly_skip (limit : Nat) (tag : Tag) : Orderly id n (skip limit tag) :=
  .ite (Orderly.get.bind .get fun _ => orderly_skipGroups _ _ _)
    ((orderly_wireValue _).bind (steady_wireValue _) fun _ => .pure _)

/-! ## Regions that are read to their end -/

/-- Where the action succeeds, fewer bytes are left. -/
def Advances (x : Reading Reader α) : Prop :=
  ∀ r a t, x r = .ok a t → t.remaining < r.remaining

theorem Advances.map {x : Reading Reader α} (f : α → β) (hx : Advances x) : Advances (f <$> x) := by
  intro r b t h
  obtain ⟨a, ha, -⟩ := map_eq_ok.1 h
  exact hx r a t ha

theorem advances_rawVarint : Advances rawVarint := by
  intro r v t h
  obtain ⟨k, hk, rfl⟩ := rawVarint_eq_ok.1 h
  have hlen := Varint.length_of_decode hk
  have hadd := (consumes_advance (r := r) hlen.2).length_add
  rw [List.length_take_of_le hlen.2] at hadd
  omega

theorem advances_word {width : Nat} (hw : 0 < width) : Advances (word width) := by
  intro r v t h
  obtain ⟨hle, -, rfl⟩ := word_eq_ok.1 h
  have hadd := (consumes_advance hle).length_add
  rw [List.length_take_of_le hle] at hadd
  omega

theorem advances_delimited : Advances delimited := by
  intro r b t h
  obtain ⟨count, u, hl, -, rfl⟩ := delimited_eq_ok.1 h
  obtain ⟨v, hv, -, -⟩ := length_eq_ok.1 hl
  have hlt := advances_rawVarint r v u hv
  have hle : (u.advance count).remaining ≤ u.remaining := by
    simp [remaining, advance]
  omega

theorem advances_wireValue (wireType : WireType) : Advances (wireValue wireType) := by
  cases wireType with
  | varint => exact advances_rawVarint.map _
  | fixed64 => exact (advances_word (by decide)).map _
  | fixed32 => exact (advances_word (by decide)).map _
  | lengthDelimited => exact advances_delimited.map _
  | startGroup | endGroup =>
    intro r v t h
    cases h

theorem advances_scalar (kind : ScalarKind) (tag : Tag) : Advances (scalar kind tag) := by
  intro r s t h
  obtain ⟨-, v, hv, -⟩ := scalar_eq_ok.1 h
  exact advances_wireValue _ r v t hv

theorem exhausts_elements {read : Tag → Reading Reader α} {tag : Tag} (ha : Advances (read tag)) :
    Exhausts (Build.source >>= fun r => elements read tag (r.remaining + 1)) := by
  have hrounds : ∀ (rounds : Nat) (as : List α) (r : Reader), r.remaining < rounds →
      ∀ a as' t, elements read tag rounds (as, r) = .ok a (as', t) → t.rest = [] := by
    intro rounds
    induction rounds with
    | zero => exact fun _ _ hr => absurd hr (Nat.not_lt_zero _)
    | succ rounds ih =>
      intro as r hr a as' t h
      rw [elements_succ] at h
      split at h
      · rename_i he
        cases h
        exact he
      · obtain ⟨b, ⟨as1, u⟩, hu, hrest⟩ := bind_eq_ok.1 h
        obtain ⟨hu, -⟩ := read_eq_ok.1 hu
        rw [run_bind_of_ok (run_update _ _ _)] at hrest
        have hlt := ha r b u hu
        exact ih _ u (by omega) a as' t hrest
  intro as r a as' t h
  rw [run_bind_of_ok (run_source as r)] at h
  exact hrounds _ as r (Nat.lt_succ_self _) a as' t h

theorem orderly_elements {read : Tag → Reading Reader α} {tag : Tag}
    (hr : Orderly id n (read tag)) (sr : Steady id (read tag)) (rounds : Nat) :
    Orderly Prod.snd n (elements read tag rounds) := by
  induction rounds with
  | zero => exact .pure _
  | succ rounds ih =>
    exact Orderly.source.bind .source fun _ => .ite (.pure _) (hr.read.bind sr.read fun _ =>
      (Orderly.update _).bind (.update _) fun _ => ih)

theorem orderly_repeated {element : WireType} {read : Tag → Reading Reader α}
    (hr : ∀ tag, Orderly id n (read tag)) (sr : ∀ tag, Steady id (read tag))
    (ha : ∀ tag, Advances (read tag)) (tag : Tag) :
    Orderly Prod.snd n (repeated element read tag) := by
  refine .ite (orderly_within ?_ (exhausts_elements (ha _))) ?_
  · exact Orderly.source.bind .source fun _ => orderly_elements (hr _) (sr _) _
  · exact (hr tag).read.bind (sr tag).read fun _ => .update _

section

variable {κ ν : Type} {readKey : Tag → Reading Reader κ} {readValue : Tag → Reading Reader ν}
  {keyType valueType : WireType} {limit : Nat} (hk : Expects readKey (·.wireType = keyType))
  (hv : Expects readValue (·.wireType = valueType)) (sk : ∀ tag, Steady id (readKey tag))
  (sv : ∀ tag, Steady id (readValue tag))

include hk hv sk sv

theorem exhausts_entryBody : Exhausts (entryBody limit readKey readValue) := by
  have hrounds : ∀ (rounds : Nat) (entry : κ × ν) (r : Reader), r.remaining < rounds →
      ∀ a entry' t, entryFields limit readKey readValue rounds (entry, r) = .ok a (entry', t) →
        t.rest = [] := by
    intro rounds
    induction rounds with
    | zero => exact fun _ _ hr => absurd hr (Nat.not_lt_zero _)
    | succ rounds ih =>
      intro entry r hr a entry' t h
      rw [entryFields_succ hk hv] at h
      obtain ⟨tag?, ⟨entry1, u⟩, hread, hrest⟩ := bind_eq_ok.1 h
      have hu : nextTag r = .ok tag? u := (read_eq_ok.1 hread).1
      cases tag? with
      | none =>
        cases hrest
        obtain ⟨he, rfl⟩ := nextTag_eq_none.1 hu
        exact he
      | some tag =>
        obtain ⟨b, ⟨entry2, v⟩, hfield, hrest⟩ := bind_eq_ok.1 hrest
        have hlt := remaining_of_nextTag hu
        have hle : v.remaining ≤ u.remaining :=
          (steady_entryField sk sv limit tag _ _ _ hfield).remaining_le
        exact ih entry2 v (by omega) a entry' t hrest
  intro entry r a entry' t h
  rw [entryBody, run_bind_of_ok (run_source entry r)] at h
  exact hrounds _ entry r (Nat.lt_succ_self _) a entry' t h

variable (ok : ∀ tag, Orderly id n (readKey tag)) (ov : ∀ tag, Orderly id n (readValue tag))

include ok ov

theorem orderly_entryFields (rounds : Nat) :
    Orderly Prod.snd n (entryFields limit readKey readValue rounds) := by
  induction rounds with
  | zero => exact .pure _
  | succ rounds ih =>
    rw [entryFields_succ hk hv]
    refine orderly_nextTag.read.bind steady_nextTag.read fun tag? => ?_
    cases tag? with
    | none => exact .pure _
    | some tag =>
      refine Orderly.bind ?_ (steady_entryField sk sv limit tag) fun _ => ih
      exact .ite ((ok tag).read.bind (sk tag).read fun _ => .update _)
        (.ite ((ov tag).read.bind (sv tag).read fun _ => .update _) (orderly_skip limit tag).read)

theorem orderly_mapEntry (zero : κ × ν) (tag : Tag) :
    Orderly id n (mapEntry limit zero readKey readValue tag) := by
  have hwithin : Orderly Prod.snd n (within (entryBody limit readKey readValue)) :=
    orderly_within (Orderly.source.bind .source fun r => orderly_entryFields hk hv sk sv ok ov _)
      (exhausts_entryBody hk hv sk sv)
  refine (orderly_expect tag _).bind (steady_expect tag _) fun _ => ?_
  -- the entry is read alone, which loses it on failure but keeps the reader
  intro r e t hn h
  by_cases hd : r.depth + 1 ≤ limit
  · rw [run_bind_of_ok (enter_eq_ok.2 ⟨hd, rfl⟩), run_bind, run_alone] at h
    rcases hr : within (entryBody limit readKey readValue)
      (zero, { r with depth := r.depth + 1 }) with ⟨a, p, u⟩ | ⟨e', p, u⟩
    · rw [hr] at h
      cases h
    · rw [hr] at h
      cases h
      obtain ⟨hreaches, he⟩ := hwithin _ _ _ hn hr
      exact ⟨hreaches.of_entered, he⟩
  · rw [run_bind_of_error (enter_of_limit_lt (Nat.lt_of_not_le hd))] at h
    cases h
    exact ⟨Reaches.of_entered (.refl _), .recursionLimit limit⟩

end

/-! ## Messages -/

/-- How a body behaves with so many bytes left at most. -/
structure Behaves (n : Nat) (body : MergeBody) : Prop where
  settled (group? : Option Nat) : Settled (body group?)
  steady (group? : Option Nat) : Steady Prod.snd (body group?)
  orderly (group? : Option Nat) : Orderly Prod.snd n (body group?)
  exhausts : Exhausts (body none)

section

variable {limit : Nat} {body : MergeBody} (hb : Behaves n body)

include hb

theorem orderly_message (tag : Tag) : Orderly Prod.snd n (message limit body tag) :=
  (orderly_expect tag _).read.bind (steady_expect tag _).read fun _ =>
    orderly_entered (orderly_within (hb.orderly none) hb.exhausts)

theorem orderly_group (tag : Tag) : Orderly Prod.snd n (group limit body tag) :=
  (orderly_expect tag _).read.bind (steady_expect tag _).read fun _ =>
    orderly_entered (hb.orderly _)

theorem orderly_value (kind : FieldKind) (tag : Tag) :
    Orderly id n (value limit body kind tag) := by
  cases kind with
  | scalar kind => exact (orderly_scalar kind tag).map _ (steady_scalar kind tag)
  | message type =>
    exact (Orderly.alone (orderly_message hb tag)).map _
      (Steady.alone (steady_message limit hb.steady tag))
  | group type =>
    exact (Orderly.alone (orderly_group hb tag)).map _
      (Steady.alone (steady_group limit hb.steady tag))

omit hb in
theorem orderly_intoOptional (type : MessageType) (wireType : WireType)
    {merge : Tag → Build Reader Message Unit} (hm : ∀ tag, Orderly Prod.snd n (merge tag))
    (tag : Tag) : Orderly Prod.snd n (intoOptional type wireType merge tag) :=
  (orderly_expect tag wireType).read.bind (steady_expect tag wireType).read fun _ => .zoom (hm tag)

omit hb in
theorem orderly_intoChosen (type : MessageType) (wireType : WireType)
    {merge : Tag → Build Reader Message Unit} (hm : ∀ tag, Orderly Prod.snd n (merge tag))
    (sm : ∀ tag, Steady Prod.snd (merge tag)) (tag : Tag) :
    Orderly Prod.snd n (intoChosen type wireType merge tag) :=
  (orderly_expect tag wireType).read.bind (steady_expect tag wireType).read fun _ =>
    Orderly.current.bind .current fun _ => (Orderly.put _).bind (.put _) fun _ =>
      (Orderly.alone (hm tag)).read.bind (Steady.alone (sm tag)).read fun _ => .put _

theorem orderly_optionalField (kind : FieldKind) (tag : Tag) :
    Orderly Prod.snd n (optionalField limit body kind tag) := by
  cases kind with
  | scalar kind =>
    exact (orderly_scalar kind tag).read.bind (steady_scalar kind tag).read fun _ => .put _
  | message type => exact orderly_intoOptional type _ (orderly_message hb) tag
  | group type => exact orderly_intoOptional type _ (orderly_group hb) tag

theorem orderly_oneofField (kind : FieldKind) (tag : Tag) :
    Orderly Prod.snd n (oneofField limit body kind tag) := by
  cases kind with
  | scalar kind =>
    exact (orderly_scalar kind tag).read.bind (steady_scalar kind tag).read fun _ => .put _
  | message type =>
    exact orderly_intoChosen type _ (orderly_message hb) (steady_message limit hb.steady) tag
  | group type =>
    exact orderly_intoChosen type _ (orderly_group hb) (steady_group limit hb.steady) tag

theorem orderly_repeatedField (kind : FieldKind) (tag : Tag) :
    Orderly Prod.snd n (repeatedField limit body kind tag) := by
  have hv : ∀ tag, Orderly id n (value limit body kind tag) := orderly_value hb kind
  have sv := steady_value limit hb.steady kind
  cases kind with
  | scalar kind => exact orderly_repeated hv sv (fun tag => (advances_scalar kind tag).map _) tag
  | message type => exact (hv tag).read.bind (sv tag).read fun _ => .update _
  | group type => exact (hv tag).read.bind (sv tag).read fun _ => .update _

theorem Member.orderly_merge (member : Member) (tag : Tag) :
    Orderly Prod.snd n (member.merge limit body tag) := by
  cases member with
  | plain number name kind =>
    exact (orderly_scalar kind tag).read.bind (steady_scalar kind tag).read fun _ => .put _
  | optional field required => exact orderly_optionalField hb field.kind tag
  | packed number name kind =>
    exact .zoom (orderly_repeated (orderly_scalar kind) (steady_scalar kind)
      (advances_scalar kind) tag)
  | repeated field => exact .zoom (orderly_repeatedField hb field.kind tag)
  | map number name key kind =>
    have hk := expects_scalar key
    have hv := expects_value limit hb.settled kind
    have sv := steady_value limit hb.steady kind
    have hentry := steady_mapEntry hk hv (steady_scalar key) sv limit (key.zero, kind.zero) tag
    exact (orderly_mapEntry hk hv (steady_scalar key) sv (orderly_scalar key)
      (orderly_value hb kind) _ tag).read.bind hentry.read fun _ => .update _
  | oneof fields =>
    cases hf : fields.find? (·.number = tag.number) with
    | none =>
      rw [Member.merge_oneof_none hf]
      exact .pure _
    | some field =>
      rw [Member.merge_oneof hf]
      exact orderly_oneofField hb field.kind tag
  | payload number name =>
    exact (orderly_bytes tag).read.bind (steady_bytes tag).read fun _ => .put _

end

end Reader

namespace Message

open Reader

variable {n : Nat} (options : DecodeOptions)

theorem orderly_mergeField (limit : Nat) {body : MergeBody} (hb : Behaves n body) (tag : Tag) :
    Orderly Prod.snd n (mergeField limit body tag) := by
  rintro ⟨m, r⟩ e ⟨m', t⟩ hn h
  unfold mergeField at h
  dsimp only at h
  split at h
  · cases h
  · rename_i i member _
    have hzoom : Orderly Prod.snd n (atSlot i member (member.merge limit body tag)) :=
      .zoom (Member.orderly_merge hb member tag)
    have szoom : Steady Prod.snd (atSlot i member (member.merge limit body tag)) :=
      .zoom (Member.steady_merge limit hb.settled hb.steady member tag)
    exact hzoom.bind szoom (fun _ => .pure true) _ _ _ hn h

theorem orderly_keepUnknown (start : Reader) (tag : Tag) :
    Orderly Prod.snd n (keepUnknown options start tag) :=
  (orderly_skip _ tag).read.bind (steady_skip _ tag).read fun _ =>
    .ite (Orderly.source.bind .source fun _ => .update _) (.pure _)

theorem orderly_mergeOne {body : MergeBody} (hb : Behaves n body) (start : Reader) (tag : Tag) :
    Orderly Prod.snd n (mergeOne options body start tag) :=
  Orderly.current.bind .current fun _ =>
    .ite ((orderly_mergeField _ hb tag).bind (steady_mergeField _ hb.settled hb.steady tag)
      fun _ => .pure _) (orderly_keepUnknown options start tag)

/-- A tag takes up a byte, so fields are merged with fewer bytes left. -/
theorem orderly_mergeRound {one : Reader → Tag → Build Reader Message Unit}
    {rest : Build Reader Message Unit} (so : ∀ start tag, Steady Prod.snd (one start tag))
    (ho : ∀ k < n, ∀ start tag, Orderly Prod.snd k (one start tag))
    (hr : ∀ k < n, Orderly Prod.snd k rest) (group? : Option Nat) :
    Orderly Prod.snd n (mergeRound one rest group?) := by
  rintro ⟨m, r⟩ e ⟨m', t⟩ hn h
  rw [run_mergeRound] at h
  rcases htag : nextTag r with ⟨_ | tag, u⟩ | ⟨e', u⟩
  · rw [htag] at h
    obtain ⟨-, rfl⟩ := nextTag_eq_none.1 htag
    cases group? with
    | none => cases h
    | some number =>
      cases h
      exact ⟨.refl _, .malformed (position_le_stop _) (by simp)⟩
  · rw [htag] at h
    dsimp only at h
    have hbefore : r.Before u := steady_nextTag r _ u htag
    have hlt : u.remaining < n := Nat.lt_of_lt_of_le (remaining_of_nextTag htag) hn
    split at h
    · split at h
      · cases h
      · cases h
        exact ⟨hbefore.reaches, .malformed r.position_le_stop (by simp)⟩
    · have hseq : (one r tag >>= fun _ => rest) (m, u) = .error e (m', t) := by
        rw [run_bind]
        cases hone : one r tag (m, u) with
        | ok a p => rwa [hone] at h
        | error e' p => rwa [hone] at h
      obtain ⟨hreaches, he⟩ :=
        (ho _ hlt r tag).bind (so r tag) (fun _ => hr _ hlt) _ _ _ (Nat.le_refl _) hseq
      exact ⟨hbefore.reaches.trans hreaches, hbefore.stop_eq ▸ he⟩
  · rw [htag] at h
    cases h
    exact orderly_nextTag r e t hn htag

theorem exhausts_mergeBody : Exhausts (mergeBody options none) := by
  intro m r a m' t h
  obtain ⟨u, -, he, rfl⟩ := mergeBody_eq_ok.1 h
  exact he

theorem orderly_mergeBody (n : Nat) (group? : Option Nat) :
    Orderly Prod.snd n (mergeBody options group?) := by
  induction n using Nat.strongRecOn generalizing group? with
  | ind n ih =>
    rw [mergeBody_round]
    refine orderly_mergeRound ?_ (fun k hk => ?_) (fun k hk => ih k hk group?) group?
    · exact steady_mergeOne options (settled_mergeBody options) (steady_mergeBody options)
    · have hb : Behaves k (mergeBody options) :=
        ⟨settled_mergeBody options, steady_mergeBody options, ih k hk, exhausts_mergeBody options⟩
      exact orderly_mergeOne options hb

theorem behaves_mergeBody (n : Nat) : Behaves n (mergeBody options) :=
  ⟨settled_mergeBody options, steady_mergeBody options, orderly_mergeBody options n,
    exhausts_mergeBody options⟩

end Message

end Protobuf
