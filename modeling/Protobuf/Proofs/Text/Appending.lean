import Protobuf.Proofs.Text.SkippedTexts

/-!
# Reading in a longer text

A text may go on: with a new line, behind whose blanks and comments the name of a field stands, if
there is anything at all (`Text.StartsLine`). Whatever is read in the shorter text is then read in
the longer one, with the same outcome (`Text.Carries`). The two places keep apart by the tail,
except at the end of the shorter text, where skipping blanks also takes those of the tail
(`Text.Cursor.Beyond`). Names, values and the ends of blocks are not read there
(`Text.Scan.Demands`), and what may follow a value but need not does not start like a name.

The positions and the line numbers of the two places may differ: those only stand in errors.
-/

namespace Protobuf

open Build

variable {σ τ ρ α β : Type}

namespace Text

/-! ## What is behind blanks -/

/-- The bytes behind blanks and comments. -/
def behindBlanks (inComment : Bool) : Bytes → Bytes
  | [] => []
  | b :: rest =>
    if b = byte '\n' then behindBlanks false rest
    else if inComment || isBlank b then behindBlanks inComment rest
    else if b = byte '#' then behindBlanks true rest
    else b :: rest

theorem Cursor.rest_skipBlanks (inComment : Bool) {c : Cursor} {bytes : Bytes}
    (h : c.rest = bytes) :
    (c.skipBlanks inComment bytes).rest = behindBlanks inComment bytes := by
  induction bytes generalizing inComment c with
  | nil => exact h
  | cons b bytes ih =>
    have hrest : (c.advance 1).rest = bytes := rest_advance_one h
    have hrest' : c.newline.rest = bytes := hrest
    unfold skipBlanks behindBlanks
    split
    · exact ih false hrest'
    · split
      · exact ih inComment hrest
      · split
        · exact ih true hrest
        · exact h

theorem Cursor.rest_settle (c : Cursor) : c.settle.rest = behindBlanks false c.rest :=
  rest_skipBlanks false rfl

theorem Cursor.depth_settle (c : Cursor) : c.settle.depth = c.depth :=
  (before_skipBlanks false rfl).2

theorem behindBlanks_behindBlanks (bytes : Bytes) :
    behindBlanks false (behindBlanks false bytes) = behindBlanks false bytes := by
  let c : Cursor := ⟨bytes, 0, 1, 0, 0, false⟩
  have hsettle : c.settle.settle.rest = c.settle.rest := by rw [Cursor.settle_settle]
  rwa [Cursor.rest_settle, Cursor.rest_settle] at hsettle

/-! ## The tail of a text -/

/-- The byte may start the name of a field. -/
def startsName (b : UInt8) : Bool := isNameByte b || b = byte '['

/-- The bytes may follow any text: they start a new line, and behind blanks and comments stands the
name of a field, if they do not end there. -/
structure StartsLine (tail : Bytes) : Prop where
  /-- A line break comes first. -/
  newline : ∀ b ∈ tail.head?, b = byte '\n'
  /-- A name comes behind blanks. -/
  name : ∀ b ∈ (behindBlanks false tail).head?, startsName b = true

theorem startsLine_nil : StartsLine [] where
  newline b hb := absurd hb (Option.not_mem_none b)
  name b hb := absurd hb (Option.not_mem_none b)

namespace StartsLine

variable {tail : Bytes} (htail : StartsLine tail)

include htail

/-- A comment ends before the tail. -/
theorem behindBlanks_eq (inComment : Bool) :
    behindBlanks inComment tail = behindBlanks false tail := by
  cases tail with
  | nil => rfl
  | cons b tail =>
    obtain rfl := htail.newline b rfl
    rfl

/-- Blanks are skipped up to the same byte, unless they reach up to the tail. -/
theorem behindBlanks_append (inComment : Bool) (bytes : Bytes) :
    (behindBlanks inComment bytes ≠ [] ∧
        behindBlanks inComment (bytes ++ tail) = behindBlanks inComment bytes ++ tail) ∨
      (behindBlanks inComment bytes = [] ∧
        behindBlanks inComment (bytes ++ tail) = behindBlanks false tail) := by
  induction bytes generalizing inComment with
  | nil => exact .inr ⟨rfl, htail.behindBlanks_eq inComment⟩
  | cons b bytes ih =>
    simp only [List.cons_append, behindBlanks]
    split
    · exact ih false
    · split
      · exact ih inComment
      · split
        · exact ih true
        · exact .inl ⟨List.cons_ne_nil b bytes, rfl⟩

/-- A test that no line break passes fails where the tail starts. -/
theorem head?_append_any {test : UInt8 → Bool} (htest : test (byte '\n') = false) (bytes : Bytes) :
    (bytes ++ tail).head?.any test = bytes.head?.any test := by
  cases bytes with
  | cons b bytes => rfl
  | nil =>
    cases tail with
    | nil => rfl
    | cons b tail =>
      obtain rfl := htail.newline b rfl
      exact htest

/-- What no line break passes ends before the tail, even if not all bytes are looked at. -/
theorem takeWhile_take_append {test : UInt8 → Bool} (htest : test (byte '\n') = false)
    (count : Nat) (bytes : Bytes) :
    ((bytes ++ tail).take count).takeWhile test = (bytes.take count).takeWhile test := by
  induction bytes generalizing count with
  | nil =>
    cases tail with
    | nil => rfl
    | cons b tail =>
      obtain rfl := htail.newline b rfl
      cases count with
      | zero => rfl
      | succ count =>
        rw [List.nil_append, List.take_succ_cons, List.take_nil,
          List.takeWhile_cons_of_neg (Bool.eq_false_iff.1 htest), List.takeWhile_nil]
  | cons b bytes ih =>
    cases count with
    | zero => rfl
    | succ count =>
      rw [List.cons_append, List.take_succ_cons, List.take_succ_cons, List.takeWhile_cons,
        List.takeWhile_cons, ih]

theorem takeWhile_append {test : UInt8 → Bool} (htest : test (byte '\n') = false) (bytes : Bytes) :
    (bytes ++ tail).takeWhile test = bytes.takeWhile test := by
  have h := htail.takeWhile_take_append htest (bytes ++ tail).length bytes
  rwa [List.take_length, List.take_of_length_le (by rw [List.length_append]; omega)] at h

/-- A number or a word ends before the tail. -/
theorem numberSpan_append (hexadecimal afterE : Bool) (bytes : Bytes) :
    Scan.numberSpan hexadecimal afterE (bytes ++ tail) =
      Scan.numberSpan hexadecimal afterE bytes := by
  induction bytes generalizing afterE with
  | nil =>
    cases tail with
    | nil => rfl
    | cons b tail =>
      obtain rfl := htail.newline b rfl
      cases hexadecimal <;> cases afterE <;> rfl
  | cons b bytes ih =>
    rw [List.cons_append, Scan.numberSpan, Scan.numberSpan, ih]

theorem startsHexadecimal_append (bytes : Bytes) :
    Scan.startsHexadecimal (bytes ++ tail) = Scan.startsHexadecimal bytes := by
  rcases bytes with _ | ⟨b, _ | ⟨b', bytes⟩⟩
  · cases tail with
    | nil => rfl
    | cons b tail =>
      obtain rfl := htail.newline b rfl
      rfl
  · cases tail with
    | nil => rfl
    | cons b' tail =>
      obtain rfl := htail.newline b' rfl
      rfl
  · rfl

end StartsLine

/-! ## Places in two texts -/

namespace Cursor

/-- Behind the bytes of the first place the second one has the tail. -/
structure Longer (tail : Bytes) (c e : Cursor) : Prop where
  /-- The tail comes last. -/
  rest : e.rest = c.rest ++ tail
  /-- As many blocks are open. -/
  depth : e.depth = c.depth
  /-- The same colon is remembered. -/
  sawColon : e.sawColon = c.sawColon

/-- Behind the bytes of the first place the second one has the tail, of which blanks may have been
skipped where there are no such bytes. -/
structure Beyond (tail : Bytes) (c e : Cursor) : Prop where
  /-- The tail comes last. -/
  rest : e.rest = c.rest ++ tail ∨
    c.rest = [] ∧ behindBlanks false e.rest = behindBlanks false tail
  /-- As many blocks are open. -/
  depth : e.depth = c.depth
  /-- The same colon is remembered. -/
  sawColon : e.sawColon = c.sawColon

variable {tail : Bytes} {c e : Cursor}

theorem Longer.beyond (h : c.Longer tail e) : c.Beyond tail e := ⟨.inl h.rest, h.depth, h.sawColon⟩

theorem Longer.advance (h : c.Longer tail e) {count : Nat} (hcount : count ≤ c.rest.length) :
    (c.advance count).Longer tail (e.advance count) := by
  refine ⟨?_, h.depth, h.sawColon⟩
  show e.rest.drop count = c.rest.drop count ++ tail
  rw [h.rest, List.drop_append_of_le_length hcount]

theorem Longer.head?_eq (h : c.Longer tail e) (hne : c.rest ≠ []) :
    e.rest.head? = c.rest.head? := by
  rw [h.rest, List.head?_append_of_ne_nil _ hne]

namespace Beyond

theorem longer (h : c.Beyond tail e) (hne : c.rest ≠ []) : c.Longer tail e :=
  ⟨h.rest.resolve_right fun hnil => hne hnil.1, h.depth, h.sawColon⟩

/-- The longer text is no shorter. -/
theorem length_le (h : c.Beyond tail e) : c.rest.length ≤ e.rest.length := by
  rcases h.rest with hrest | ⟨hnil, -⟩
  · rw [hrest, List.length_append]
    omega
  · rw [hnil, List.length_nil]
    omega

variable (htail : StartsLine tail)

include htail

/-- Behind blanks something is left of the shorter text, or what is left of the longer one is the
tail. -/
theorem settle_cases (h : c.Beyond tail e) :
    (c.settle.rest ≠ [] ∧ c.settle.Longer tail e.settle) ∨
      (c.settle.rest = [] ∧ e.settle.rest = behindBlanks false tail) := by
  rw [rest_settle c]
  rcases h.rest with hrest | ⟨hnil, hblanks⟩
  · refine (htail.behindBlanks_append false c.rest).imp (And.imp_right fun happend => ?_)
      (And.imp_right fun hskipped => ?_)
    · refine ⟨by rw [rest_settle, rest_settle, hrest, happend], ?_, ?_⟩
      · rw [depth_settle, depth_settle, h.depth]
      · rw [sawColon_settle, sawColon_settle, h.sawColon]
    · rw [rest_settle, hrest, hskipped]
  · refine .inr ⟨by rw [hnil]; rfl, ?_⟩
    rw [rest_settle, hblanks]

theorem settle (h : c.Beyond tail e) : c.settle.Beyond tail e.settle := by
  rcases h.settle_cases htail with ⟨-, hlonger⟩ | ⟨hnil, hrest⟩
  · exact hlonger.beyond
  · refine ⟨.inr ⟨hnil, ?_⟩, ?_, ?_⟩
    · rw [hrest, behindBlanks_behindBlanks]
    · rw [depth_settle, depth_settle, h.depth]
    · rw [sawColon_settle, sawColon_settle, h.sawColon]

theorem longer_settle (h : c.Beyond tail e) (hne : c.settle.rest ≠ []) :
    c.settle.Longer tail e.settle := by
  rcases h.settle_cases htail with ⟨-, hlonger⟩ | ⟨hnil, -⟩
  · exact hlonger
  · exact absurd hnil hne

/-- A byte with which no name starts comes next in both texts or in none. -/
theorem head?_settle_iff (h : c.Beyond tail e) {b : UInt8} (hb : startsName b = false) :
    e.settle.rest.head? = some b ↔ c.settle.rest.head? = some b := by
  rcases h.settle_cases htail with ⟨hne, hlonger⟩ | ⟨hnil, hrest⟩
  · rw [hlonger.head?_eq hne]
  · rw [hnil, hrest]
    refine ⟨fun hhead => ?_, fun hhead => absurd hhead (by simp)⟩
    rw [htail.name b hhead] at hb
    cases hb

end Beyond

end Cursor

/-! ## Actions in two texts -/

/-- From two states on, the second action succeeds where the first one does. The outcome is the same
then, and the states behind are related. -/
def Mirrors (R : σ → σ → Prop) (s t : σ) (x y : EStateM Error σ α) : Prop :=
  ∀ a s', x s = .ok a s' → ∃ t', y t = .ok a t' ∧ R s' t'

/-- From related states on, the second action succeeds where the first one does. -/
def Carries (R : σ → σ → Prop) (x y : EStateM Error σ α) : Prop :=
  ∀ s t, R s t → Mirrors R s t x y

/-- From related states on, the action does the same where it succeeds. -/
abbrev Persists (R : σ → σ → Prop) (x : EStateM Error σ α) : Prop := Carries R x x

/-- The same value is built at related places. -/
def alongside (R : ρ → ρ → Prop) (p q : σ × ρ) : Prop := p.1 = q.1 ∧ R p.2 q.2

namespace Mirrors

variable {R R' : σ → σ → Prop} {s t : σ}

theorem pure (h : R s t) (a : α) :
    Mirrors R s t (Pure.pure a : EStateM Error σ α) (Pure.pure a) := by
  intro _ _ hrun
  cases hrun
  exact ⟨t, rfl, h⟩

/-- What fails has nothing to be mirrored. -/
theorem of_error {x : EStateM Error σ α} {e : Error} {u : σ} (h : x s = .error e u)
    (y : EStateM Error σ α) : Mirrors R s t x y := by
  intro _ _ hrun
  rw [h] at hrun
  cases hrun

theorem mono {x y : EStateM Error σ α} (h : Mirrors R s t x y) (himp : ∀ s t, R s t → R' s t) :
    Mirrors R' s t x y := by
  intro a s' hrun
  obtain ⟨t', ht', hR⟩ := h a s' hrun
  exact ⟨t', ht', himp s' t' hR⟩

/-- What is done next may depend on what came before. -/
theorem bind {x y : EStateM Error σ α} {f g : α → EStateM Error σ β} (hx : Mirrors R s t x y)
    (hf : ∀ a s' t', x s = .ok a s' → R s' t' → Mirrors R' s' t' (f a) (g a)) :
    Mirrors R' s t (x >>= f) (y >>= g) := by
  intro b s'' hrun
  obtain ⟨a, s', hs', hnext⟩ := bind_eq_ok.1 hrun
  obtain ⟨t', ht', hR⟩ := hx a s' hs'
  obtain ⟨t'', ht'', hR'⟩ := hf a s' t' hs' hR b s'' hnext
  exact ⟨t'', (run_bind_of_ok ht').trans ht'', hR'⟩

theorem bind_carries {x y : EStateM Error σ α} {f g : α → EStateM Error σ β}
    (hx : Mirrors R s t x y) (hf : ∀ a, Carries R (f a) (g a)) :
    Mirrors R s t (x >>= f) (y >>= g) :=
  hx.bind fun a s' t' _ => hf a s' t'

theorem ite {p q : Prop} [Decidable p] [Decidable q] {x x' y y' : EStateM Error σ α} (hpq : q ↔ p)
    (hx : p → Mirrors R s t x x') (hy : ¬p → Mirrors R s t y y') :
    Mirrors R s t (if p then x else y) (if q then x' else y') := by
  by_cases hp : p
  · rw [if_pos hp, if_pos (hpq.2 hp)]
    exact hx hp
  · rw [if_neg hp, if_neg (mt hpq.1 hp)]
    exact hy hp

/-- What is done may depend on the states. -/
theorem get_bind {f g : σ → EStateM Error σ α} (h : Mirrors R s t (f s) (g t)) :
    Mirrors R s t (get >>= f) (get >>= g) := h

end Mirrors

namespace Mirrors

variable {R : ρ → ρ → Prop} {c e : ρ} {s : σ}

theorem read {x y : Reading ρ α} (h : Mirrors R c e x y) :
    Mirrors (alongside R) (s, c) (s, e) (read x : Build ρ σ α) (read y) := by
  rintro a ⟨s', c'⟩ hrun
  obtain ⟨hx, rfl⟩ := read_eq_ok.1 hrun
  obtain ⟨e', he', hR⟩ := h a c' hx
  exact ⟨(s', e'), read_eq_ok.2 ⟨he', rfl⟩, rfl, hR⟩

/-- What is done next may depend on what was read before. -/
theorem read_bind {R' : σ × ρ → σ × ρ → Prop} {x y : Reading ρ α} {f g : α → Build ρ σ β}
    (hx : Mirrors R c e x y)
    (hf : ∀ a c' e', x c = .ok a c' → R c' e' → Mirrors R' (s, c') (s, e') (f a) (g a)) :
    Mirrors R' (s, c) (s, e) (Build.read x >>= f) (Build.read y >>= g) := by
  refine hx.read.bind ?_
  rintro a ⟨s', c'⟩ ⟨_, e'⟩ hrun ⟨rfl, hR⟩
  obtain ⟨hx, rfl⟩ := read_eq_ok.1 hrun
  exact hf a c' e' hx hR

/-- What is done next may depend on what was built before. -/
theorem build_bind {R' : σ × ρ → σ × ρ → Prop} {x y : Build ρ σ α} {f g : α → Build ρ σ β}
    (hx : Mirrors (alongside R) (s, c) (s, e) x y)
    (hf : ∀ a s' c' e', x (s, c) = .ok a (s', c') → R c' e' →
      Mirrors R' (s', c') (s', e') (f a) (g a)) :
    Mirrors R' (s, c) (s, e) (x >>= f) (y >>= g) := by
  refine hx.bind ?_
  rintro a ⟨s', c'⟩ ⟨_, e'⟩ hrun ⟨rfl, hR⟩
  exact hf a s' c' e' hrun hR

theorem update (h : R c e) (f : σ → σ) :
    Mirrors (alongside R) (s, c) (s, e) (update f : Build ρ σ Unit) (update f) := by
  intro _ _ hrun
  cases hrun
  exact ⟨_, rfl, rfl, h⟩

/-- What is done may depend on the value, which is the same. -/
theorem current_bind {R' : σ × ρ → σ × ρ → Prop} {f g : σ → Build ρ σ α}
    (h : Mirrors R' (s, c) (s, e) (f s) (g s)) :
    Mirrors R' (s, c) (s, e) (Build.current >>= f) (Build.current >>= g) := h

/-- What is done may depend on the places. -/
theorem source_bind {R' : σ × ρ → σ × ρ → Prop} {f g : ρ → Build ρ σ α}
    (h : Mirrors R' (s, c) (s, e) (f c) (g e)) :
    Mirrors R' (s, c) (s, e) (Build.source >>= f) (Build.source >>= g) := h

theorem put (h : R c e) (t : σ) :
    Mirrors (alongside R) (s, c) (s, e) (put t : Build ρ σ Unit) (put t) := by
  intro _ _ hrun
  cases hrun
  exact ⟨_, rfl, rfl, h⟩

theorem update_bind {R' : σ × ρ → σ × ρ → Prop} {change : σ → σ} {f g : Unit → Build ρ σ α}
    (h : Mirrors R' (change s, c) (change s, e) (f ()) (g ())) :
    Mirrors R' (s, c) (s, e) (Build.update change >>= f) (Build.update change >>= g) := h

theorem zoom {part : σ → τ} {put : σ → τ → σ} {x y : Build ρ τ α}
    (h : Mirrors (alongside R) (part s, c) (part s, e) x y) :
    Mirrors (alongside R) (s, c) (s, e) (zoom part put x) (zoom part put y) := by
  rintro a ⟨s', c'⟩ hrun
  obtain ⟨t, ht, rfl⟩ := zoom_eq_ok.1 hrun
  obtain ⟨⟨_, e'⟩, he', rfl, hR⟩ := h a (t, c') ht
  exact ⟨(put s t, e'), zoom_eq_ok.2 ⟨t, he', rfl⟩, rfl, hR⟩

theorem alone {x y : Build ρ σ Unit} (h : Mirrors (alongside R) (s, c) (s, e) x y) :
    Mirrors R c e (alone s x) (alone s y) := by
  intro s' c' hrun
  obtain ⟨⟨_, e'⟩, he', rfl, hR⟩ := h () (s', c') (alone_eq_ok.1 hrun)
  exact ⟨e', alone_eq_ok.2 he', hR⟩

end Mirrors

namespace Mirrors

variable {R : Cursor → Cursor → Prop} {c e : Cursor}

theorem blanks_bind {f g : Unit → Scan α} (h : Mirrors R c.settle e.settle (f ()) (g ())) :
    Mirrors R c e (Scan.blanks >>= f) (Scan.blanks >>= g) := h

theorem peek_bind {f g : Option UInt8 → Scan α}
    (h : Mirrors R c.settle e.settle (f c.settle.rest.head?) (g e.settle.rest.head?)) :
    Mirrors R c e (Scan.peek >>= f) (Scan.peek >>= g) := h

/-- Both places move on by a byte. -/
theorem advance_one {tail : Bytes} (h : c.Longer tail e) (hne : c.rest ≠ []) :
    Mirrors (Cursor.Longer tail) c e (modify (·.advance 1) : Scan PUnit)
      (modify (·.advance 1)) := by
  intro _ d hrun
  cases hrun
  exact ⟨e.advance 1, rfl, h.advance (List.length_pos_of_ne_nil hne)⟩

end Mirrors

namespace Carries

variable {R : σ → σ → Prop}

theorem pure (a : α) : Carries R (Pure.pure a : EStateM Error σ α) (Pure.pure a) :=
  fun _ _ h => .pure h a

theorem bind {x y : EStateM Error σ α} {f g : α → EStateM Error σ β} (hx : Carries R x y)
    (hf : ∀ a, Carries R (f a) (g a)) : Carries R (x >>= f) (y >>= g) :=
  fun s t h => (hx s t h).bind fun a s' t' _ => hf a s' t'

theorem ite {p : Prop} [Decidable p] {x x' y y' : EStateM Error σ α} (hx : Carries R x x')
    (hy : Carries R y y') : Carries R (if p then x else y) (if p then x' else y') :=
  fun s t h => .ite .rfl (fun _ => hx s t h) fun _ => hy s t h

theorem map {x y : EStateM Error σ α} (f : α → β) (h : Carries R x y) :
    Carries R (f <$> x) (f <$> y) := by
  rw [map_eq_bind, map_eq_bind]
  exact h.bind fun _ => pure _

end Carries

namespace Scan

variable {tail : Bytes}

/-! ## What needs more text -/

/-- At the end of a text the action fails. -/
def Demands (x : Scan α) : Prop := ∀ c a d, x c = .ok a d → c.settle.rest ≠ []

theorem Demands.bind {x : Scan α} (hx : Demands x) (f : α → Scan β) : Demands (x >>= f) := by
  intro c b e h
  obtain ⟨a, d, hd, -⟩ := bind_eq_ok.1 h
  exact hx c a d hd

theorem Demands.map {x : Scan α} (f : α → β) (hx : Demands x) : Demands (f <$> x) := by
  rw [map_eq_bind]
  exact hx.bind _

theorem demands_of_shrinks {x : Scan α} (hsettles : Settles x) (hx : ∀ c, Shrinks c x) :
    Demands x := by
  intro c a d h hnil
  have hlt := hx c.settle a d ((hsettles c).trans h)
  rw [hnil, List.length_nil] at hlt
  exact Nat.not_lt_zero _ hlt

theorem demands_fieldName : Demands fieldName :=
  demands_of_shrinks settles_fieldName shrinks_fieldName

theorem demands_openBlock : Demands openBlock :=
  demands_of_shrinks settles_openBlock shrinks_openBlock

theorem demands_expect (char : Char) : Demands (expect char) :=
  demands_of_shrinks (settles_tryChar char).bind (shrinks_expect char)

theorem demands_numberToken : Demands numberToken := by
  intro c token d h hnil
  obtain ⟨b, hb, -⟩ := head_of_numberToken h
  rw [hnil] at hb
  cases hb

theorem demands_stringLiteral : Demands stringLiteral := by
  intro c b d h hnil
  rw [stringLiteral, run_bind_of_ok (run_atString c), hnil] at h
  cases h

/-- What needs more text is read where both texts have it. -/
theorem carries_of_demands (htail : StartsLine tail) {x y : Scan α} (hdemands : Demands x)
    (h : ∀ c e : Cursor, c.settle.rest ≠ [] → c.settle.Longer tail e.settle →
      Mirrors (Cursor.Beyond tail) c e x y) : Carries (Cursor.Beyond tail) x y := by
  intro c e hbeyond a d hrun
  have hne := hdemands c a d hrun
  exact h c e hne (hbeyond.longer_settle htail hne) a d hrun

/-! ## Tokens -/

theorem carries_fail (R : Cursor → Cursor → Prop) (fault : TextFault) (y : Scan α) :
    Carries R (fail fault) y :=
  fun _ _ _ => .of_error rfl y

section

variable (htail : StartsLine tail)

include htail

omit htail in
/-- Where there is more text, any character is found in both texts or in none. -/
theorem mirrors_tryChar {c e : Cursor} (h : c.settle.Longer tail e.settle)
    (hne : c.settle.rest ≠ []) (char : Char) :
    Mirrors (Cursor.Beyond tail) c e (tryChar char) (tryChar char) := by
  refine .peek_bind ?_
  rw [h.head?_eq hne]
  exact .ite .rfl (fun _ => (Mirrors.advance_one h hne).bind fun _ _ _ _ hd => .pure hd.beyond _)
    fun _ => .pure h.beyond _

/-- A character with which no name starts may be missing in both texts. -/
theorem persists_tryChar {char : Char} (hchar : startsName (byte char) = false) :
    Persists (Cursor.Beyond tail) (tryChar char) := by
  intro c e h
  rcases h.settle_cases htail with ⟨hne, hlonger⟩ | ⟨hnil, -⟩
  · exact mirrors_tryChar hlonger hne char
  · intro found d hrun
    have hmissing : c.settle.rest.head? ≠ some (byte char) := by
      rw [hnil]
      exact (Option.some_ne_none _).symm
    rw [tryChar_eq_false.2 ⟨hmissing, rfl⟩] at hrun
    cases hrun
    refine ⟨e.settle, tryChar_eq_false.2 ⟨?_, rfl⟩, h.settle htail⟩
    rwa [Ne, h.head?_settle_iff htail hchar]

theorem persists_expect (char : Char) : Persists (Cursor.Beyond tail) (expect char) :=
  carries_of_demands htail (demands_expect char) fun _ _ hne h =>
    (mirrors_tryChar h hne char).bind_carries fun _ => .ite (carries_fail _ _ _) (.pure ())

/-- Neither of two characters is the start of a name. -/
theorem persists_atOneOf {b b' : UInt8} (hb : startsName b = false) (hb' : startsName b' = false) :
    Persists (Cursor.Beyond tail) (do let next ← peek; return next = some b || next = some b') := by
  intro c e h found d hrun
  rw [run_bind_of_ok (run_peek c)] at hrun
  cases hrun
  refine ⟨e.settle, ?_, h.settle htail⟩
  rw [run_bind_of_ok (run_peek e), decide_eq_decide.2 (h.head?_settle_iff htail hb),
    decide_eq_decide.2 (h.head?_settle_iff htail hb')]
  rfl

theorem persists_atString : Persists (Cursor.Beyond tail) atString :=
  persists_atOneOf htail (by decide) (by decide)

theorem persists_atBlock : Persists (Cursor.Beyond tail) atBlock :=
  persists_atOneOf htail (by decide) (by decide)

/-- What no line break passes ends before the tail. -/
theorem persists_span {test : UInt8 → Bool} (htest : test (byte '\n') = false) :
    Persists (Cursor.Longer tail) (span test) := by
  intro c e h found d hrun
  cases hrun
  refine ⟨e.advance (c.rest.takeWhile test).length, ?_,
    h.advance (List.takeWhile_sublist test).length_le⟩
  have htake : e.rest.takeWhile test = c.rest.takeWhile test := by
    rw [h.rest, htail.takeWhile_append htest]
  show EStateM.Result.ok (e.rest.takeWhile test) (e.advance (e.rest.takeWhile test).length) = _
  rw [htake]

theorem mirrors_identifier {c e : Cursor} (h : c.settle.Longer tail e.settle) :
    Mirrors (Cursor.Longer tail) c e identifier identifier := by
  refine .blanks_bind (.get_bind (.ite ?_ (fun _ => ?_) fun _ => .pure h _))
  · rw [h.rest, htail.head?_append_any (by decide)]
  · exact (persists_span htail (by decide) _ _ h).bind fun _ _ _ _ h => .pure h _

theorem persists_fieldNumber : Persists (Cursor.Longer tail) fieldNumber := by
  rw [fieldNumber_eq]
  refine (persists_span htail (by decide)).bind fun digits c e h => ?_
  have hrange : ∀ value, Persists (Cursor.Longer tail) (do
      if value = 0 ∨ maxFieldNumber < value then fail (.fieldNumberRange (ofAscii digits))
      return .number value : Scan FieldName) :=
    fun value => .ite ((carries_fail _ _ _).bind fun _ => .pure _) (.pure _)
  refine .get_bind (.ite ?_ (fun _ => ?_) fun _ => hrange _ c e h)
  · rw [h.rest, htail.head?_append_any (by decide)]
  · exact ((carries_fail _ _ _).bind fun _ => hrange _) c e h

theorem persists_insideBrackets : Persists (Cursor.Beyond tail) (do
    blanks
    let name ← span fun b => isNameByte b || b = byte '.' || b = byte '/'
    if name.isEmpty then fail .emptyBracketedName
    expect ']'
    return .bracketed (ofAscii name) : Scan FieldName) := by
  refine carries_of_demands htail (fun c name d hrun hnil => ?_) fun c e _ h => .blanks_bind ?_
  · obtain ⟨_, u, hu, hnext⟩ := bind_eq_ok.1 hrun
    cases hu
    obtain ⟨found, v, hv, hlast⟩ := bind_eq_ok.1 hnext
    cases hv
    have hempty : c.settle.rest.takeWhile
        (fun b => isNameByte b || b = byte '.' || b = byte '/') = [] := by
      rw [hnil, List.takeWhile_nil]
    have hrest : (c.skipBlanks false c.rest).rest = c.settle.rest := rfl
    rw [hrest, hempty] at hlast
    cases hlast
  · refine (persists_span htail (by decide) _ _ h).bind fun name d d' _ hd => ?_
    have hend : Persists (Cursor.Beyond tail) (do
        expect ']'
        return .bracketed (ofAscii name) : Scan FieldName) :=
      (persists_expect htail _).bind fun _ => .pure _
    exact .ite .rfl (fun _ => ((carries_fail _ _ _).bind fun _ => hend) d d' hd.beyond)
      fun _ => hend d d' hd.beyond

theorem persists_fieldName : Persists (Cursor.Beyond tail) fieldName := by
  refine carries_of_demands htail demands_fieldName fun c e hne h => ?_
  have hhead : e.settle.rest.head? = c.settle.rest.head? := h.head?_eq hne
  refine .peek_bind ?_
  rw [hhead]
  refine .ite .rfl (fun _ => ?_) fun _ => .ite .rfl (fun _ => ?_) fun _ => ?_
  · exact (persists_fieldNumber htail _ _ h).mono fun _ _ h => h.beyond
  · exact (Mirrors.advance_one h hne).bind fun _ d d' _ hd =>
      persists_insideBrackets htail d d' hd.beyond
  · have hsettled : c.settle.settle.Longer tail e.settle.settle := by
      rwa [Cursor.settle_settle, Cursor.settle_settle]
    refine (mirrors_identifier htail hsettled).bind fun found d d' _ hd => ?_
    cases found with
    | some name => exact .pure hd.beyond _
    | none => exact carries_fail _ _ _ d d' hd.beyond

/-! ## Numbers and words -/

theorem mirrors_numberBody {c e : Cursor} (h : c.Longer tail e) (negative : Prop)
    [Decidable negative] :
    Mirrors (Cursor.Longer tail) c e
      (do
        let c ← get
        let body := numberSpan (startsHexadecimal c.rest) false c.rest
        set (c.advance body.length)
        if body.isEmpty then fail .expectedNumber
        return ofAscii (if negative then byte '-' :: body else body) : Scan String)
      (do
        let c ← get
        let body := numberSpan (startsHexadecimal c.rest) false c.rest
        set (c.advance body.length)
        if body.isEmpty then fail .expectedNumber
        return ofAscii (if negative then byte '-' :: body else body)) := by
  refine .get_bind ?_
  have hbody : numberSpan (startsHexadecimal e.rest) false e.rest =
      numberSpan (startsHexadecimal c.rest) false c.rest := by
    rw [h.rest, htail.startsHexadecimal_append, htail.numberSpan_append]
  dsimp only
  rw [hbody]
  have hset : Mirrors (Cursor.Longer tail) c e
      (set (c.advance (numberSpan (startsHexadecimal c.rest) false c.rest).length) : Scan PUnit)
      (set (e.advance (numberSpan (startsHexadecimal c.rest) false c.rest).length)) := by
    intro _ d hrun
    cases hrun
    exact ⟨_, rfl, h.advance (length_numberSpan_le _ _ _)⟩
  refine hset.bind fun _ d d' _ hd => ?_
  exact (Carries.ite ((carries_fail _ _ _).bind fun _ => .pure _) (.pure _) :
    Persists (Cursor.Longer tail) _) d d' hd

theorem persists_numberToken : Persists (Cursor.Beyond tail) numberToken := by
  refine carries_of_demands htail demands_numberToken fun c e hne h => ?_
  refine .blanks_bind (.get_bind ?_)
  dsimp only
  rw [h.head?_eq hne]
  refine .ite .rfl (fun _ => ?_) fun _ => (mirrors_numberBody htail h _).mono fun _ _ h => h.beyond
  exact (Mirrors.advance_one h hne).bind fun _ d d' _ hd =>
    (mirrors_numberBody htail hd _).mono fun _ _ h => h.beyond

/-! ## String literals -/

theorem persists_digits (base count : Nat) :
    Persists (Cursor.Longer tail) (digits base count) := by
  intro c e h found d hrun
  cases hrun
  have hdigits : ((e.rest.take count).map (digitValue? base)).takeWhile Option.isSome =
      ((c.rest.take count).map (digitValue? base)).takeWhile Option.isSome := by
    have hnewline : (Option.isSome ∘ digitValue? base) (byte '\n') = false := rfl
    rw [List.takeWhile_map, List.takeWhile_map, h.rest, htail.takeWhile_take_append hnewline]
  have hle := (List.takeWhile_sublist Option.isSome (l :=
    (c.rest.take count).map (digitValue? base))).length_le
  rw [List.length_map, List.length_take] at hle
  refine ⟨_, ?_, h.advance (Nat.le_trans hle (Nat.min_le_right _ _))⟩
  show EStateM.Result.ok _ (e.advance
    (((e.rest.take count).map (digitValue? base)).takeWhile Option.isSome).length) = _
  rw [hdigits]

omit htail in
theorem mirrors_anyByte {c e : Cursor} (h : c.Longer tail e) (hne : c.rest ≠ []) :
    Mirrors (Cursor.Longer tail) c e anyByte anyByte := by
  obtain ⟨b, bytes, hrest⟩ := List.exists_cons_of_ne_nil hne
  refine .get_bind ?_
  rw [h.rest, hrest]
  intro _ d hrun
  cases hrun
  exact ⟨e.advance 1, rfl, h.advance (List.length_pos_of_ne_nil hne)⟩

theorem persists_unicodeEscape (width : Nat) :
    Persists (Cursor.Longer tail) (unicodeEscape width) :=
  (persists_digits htail 16 width).bind fun _ => .ite (.pure _) (carries_fail _ _ _)

theorem persists_escape : Persists (Cursor.Longer tail) escape := by
  intro c e h
  by_cases hnil : c.rest = []
  · intro bytes d hrun
    rw [escape, run_bind_of_ok (anyByte_of_nil hnil)] at hrun
    cases hrun
  · refine (mirrors_anyByte h hnil).bind_carries fun next => ?_
    cases next with
    | none => exact carries_fail _ _ _
    | some b =>
      dsimp only
      cases letterEscape? b with
      | some value => exact .pure _
      | none =>
        cases digitValue? 8 b with
        | some first =>
          refine (persists_digits htail 8 2).bind fun _ => .ite ?_ (.pure _)
          exact (carries_fail _ _ _).bind fun _ => .pure _
        | none =>
          refine .ite ?_ (.ite (persists_unicodeEscape htail 4)
            (.ite (persists_unicodeEscape htail 8) (carries_fail _ _ _)))
          refine (persists_digits htail 16 2).bind fun _ => .ite ?_ (.pure _)
          exact (carries_fail _ _ _).bind fun _ => .pure _

/-- With more rounds no less is read. -/
theorem mirrors_literalBody (quote : UInt8) {rounds rounds' : Nat} (hrounds : rounds ≤ rounds')
    (s : Bytes) {c e : Cursor} (h : c.Longer tail e) :
    Mirrors (alongside (Cursor.Longer tail)) (s, c) (s, e) (literalBody quote rounds)
      (literalBody quote rounds') := by
  induction rounds generalizing rounds' s c e with
  | zero => exact .of_error rfl _
  | succ rounds ih =>
    obtain ⟨rounds', rfl⟩ : ∃ count, rounds' = count + 1 := ⟨rounds' - 1, by omega⟩
    by_cases hnil : c.rest = []
    · rintro _ p hrun
      obtain ⟨next, d, hd, hnext⟩ := read_bind_eq_ok.1 hrun
      rw [anyByte_of_nil hnil] at hd
      cases hd
      cases hnext
    · refine (mirrors_anyByte h hnil).read_bind fun next d d' _ hd => ?_
      cases next with
      | none => exact .of_error rfl _
      | some b =>
        refine .ite .rfl (fun _ => .of_error rfl _) fun _ =>
          .ite .rfl (fun _ => ?_) fun _ => .ite .rfl (fun _ => .pure ⟨rfl, hd⟩ ()) fun _ => ?_
        · refine (persists_escape htail d d' hd).read_bind fun bytes u u' _ hu => ?_
          exact .update_bind (ih (Nat.le_of_succ_le_succ hrounds) _ hu)
        · exact .update_bind (ih (Nat.le_of_succ_le_succ hrounds) _ hd)

omit htail in
theorem rest_ne_nil_of_atString {c d : Cursor} (h : atString c = .ok true d) : d.rest ≠ [] := by
  intro hnil
  rw [run_atString, EStateM.Result.ok.injEq] at h
  obtain ⟨hfound, rfl⟩ := h
  rw [hnil] at hfound
  cases hfound

/-- With rounds enough for the bytes of the shorter text all its literals are read. -/
theorem mirrors_literals {rounds rounds' : Nat} (hrounds : rounds ≤ rounds') (s : Bytes)
    {c e : Cursor} (h : c.Beyond tail e) (hlength : c.rest.length < rounds) :
    Mirrors (alongside (Cursor.Beyond tail)) (s, c) (s, e) (literals rounds)
      (literals rounds') := by
  induction rounds generalizing rounds' s c e with
  | zero => omega
  | succ rounds ih =>
    obtain ⟨rounds', rfl⟩ : ∃ count, rounds' = count + 1 := ⟨rounds' - 1, by omega⟩
    refine (persists_atString htail c e h).read_bind fun found d d' hfound hd => ?_
    have hle := moves_atString.length_le hfound
    refine .ite .rfl (fun htrue => ?_) fun _ => .pure ⟨rfl, hd⟩ ()
    rw [htrue] at hfound
    have hne := rest_ne_nil_of_atString hfound
    refine (mirrors_anyByte (hd.longer hne) hne).read_bind fun next u u' hnext hu => ?_
    cases next with
    | none => exact .pure ⟨rfl, hu.beyond⟩ ()
    | some quote =>
      have hlt := length_lt_of_anyByte hnext
      have hbytes := hu.beyond.length_le
      have hbody := mirrors_literalBody htail quote (Nat.succ_le_succ hbytes) s hu
      refine hbody.build_bind fun _ s' v v' hv hlonger => ?_
      have hmoves : v.rest.length ≤ u.rest.length :=
        ((moves_literalBody quote _ (s, u)).before hv).length_le
      exact ih (by omega) s' hlonger.beyond (by omega)

theorem persists_stringLiteral : Persists (Cursor.Beyond tail) stringLiteral := by
  refine (persists_atString htail).bind fun found => ?_
  have hliterals : Persists (Cursor.Beyond tail) (do
      let c ← get
      alone [] (literals (c.rest.length + 1)) : Scan Bytes) := by
    intro c e h
    have hrounds := Nat.succ_le_succ h.length_le
    exact .get_bind (.alone (mirrors_literals htail hrounds [] h (Nat.lt_succ_self _)))
  exact .ite ((carries_fail _ _ _).bind fun _ => hliterals) hliterals

end

end Scan

end Text

end Protobuf
