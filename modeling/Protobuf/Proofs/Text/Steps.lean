import Mathlib.Logic.Relation
import Protobuf.Proofs.Text.SkippedValues

/-!
# Steps over text

Whatever is read of a text, the cursor goes over it in small steps (`Text.Step`): over blanks and
comments, over marks of punctuation, over names, numbers and words, which are slices of the text,
and over the inside of a line behind a quote. Reading stops with an error where a walk of such steps
has ended, but for a raw newline in a literal, which is read and not counted (`Text.Stops`).
-/

namespace Protobuf

open Build Relation

variable {σ τ α β : Type}

/-- The error says that a newline was read inside a literal. -/
def TextFault.endsLine (fault : TextFault) : Bool :=
  fault = .newlineInString || fault = .unknownEscape (Text.byte '\n')

namespace Text

/-! ## Steps -/

/-- The byte opens a literal. -/
def isQuote (b : UInt8) : Bool := b = byte '"' || b = byte '\''

/-- The byte is a mark of punctuation. -/
def isMark (b : UInt8) : Bool := (Utf8.encode "\x7b\x7d<>[],;:").contains b

/-- One step over text. The slices that it takes, from one position to another, are as demanded. -/
inductive Step (slice : Nat → Nat → Prop) : Cursor → Cursor → Prop
  /-- Over blanks and comments. -/
  | blanks (c : Cursor) : Step slice c c.settle
  /-- Over a mark. -/
  | mark {c : Cursor} {b : UInt8} (hhead : c.rest.head? = some b) (hmark : isMark b = true) :
    Step slice c (c.advance 1)
  /-- Over a name, a number or a word, which is taken as a slice. -/
  | token {c : Cursor} {count : Nat} (hcount : count ≤ c.rest.length) (hpos : 0 < count)
    (hbytes : ∀ b ∈ c.rest.take count, isTokenByte b = true)
    (hslice : slice c.position (c.position + count)) : Step slice c (c.advance count)
  /-- Over an opening bracket, blanks and a name, which is taken as a slice and may be empty. -/
  | bracketed {c d : Cursor} {count : Nat} (hhead : c.rest.head? = some (byte '['))
    (hd : d = (c.advance 1).settle) (hcount : count ≤ d.rest.length)
    (hbytes : ∀ b ∈ d.rest.take count, isBracketedByte b = true)
    (hslice : slice d.position (d.position + count)) : Step slice c (d.advance count)
  /-- Over a quote and what stands behind it, within the line. -/
  | quoted {c : Cursor} {count : Nat} (hhead : c.rest.head?.any isQuote = true)
    (hcount : count ≤ c.rest.length) (hline : byte '\n' ∉ c.rest.take count) :
    Step slice c (c.advance count)
  /-- Over nothing; what the grammar remembers changes. -/
  | setting (c : Cursor) (depth : Nat) (sawColon : Bool) :
    Step slice c { c with depth, sawColon }

/-- Some steps over text. -/
abbrev Walk (slice : Nat → Nat → Prop) : Cursor → Cursor → Prop := ReflTransGen (Step slice)

/-- One step over a byte that ends no line. -/
def Along (c d : Cursor) : Prop :=
  ∃ b, c.rest.head? = some b ∧ b ≠ byte '\n' ∧ d = c.advance 1

/-- Reading that has set out at the first place stops with the error at the second one. -/
inductive Stops (S : Cursor → Cursor → Prop) (origin : Cursor) : Error → Cursor → Prop
  /-- The text does not go on as it has to. -/
  | malformed {d : Cursor} {fault : TextFault} (hwalk : ReflTransGen S origin d)
    (hline : fault.endsLine = false) :
    Stops S origin (.malformedText d.line (d.position - d.lineStart + 1) fault) d
  /-- A newline was read inside a literal. -/
  | newline {u d : Cursor} {fault : TextFault} (hwalk : ReflTransGen S origin u)
    (hhead : u.rest.head? = some (byte '\n')) (hd : d = u.advance 1)
    (hline : fault.endsLine = true) :
    Stops S origin (.malformedText d.line (d.position - d.lineStart + 1) fault) d
  /-- There is no field with a name that was read. -/
  | unknown {u v d : Cursor} {name : FieldName} (hwalk : ReflTransGen S origin u)
    (hsettled : u.settle = u) (hname : Scan.fieldName u = .ok name v)
    (hcolon : Scan.colon v = .ok () d) (hwalk' : ReflTransGen S origin d) :
    Stops S origin (.unknownField name.display u.line) d
  /-- A block lies too deep. -/
  | depth {d : Cursor} {limit : Nat} (hwalk : ReflTransGen S origin d) :
    Stops S origin (.textDepthLimit limit) d
  /-- The type of an expanded payload is not known. -/
  | type {d : Cursor} {url : String} (hwalk : ReflTransGen S origin d) :
    Stops S origin (.typeNotRegistered url) d

theorem Stops.imp {S S' : Cursor → Cursor → Prop} {c o d : Cursor} {e : Error}
    (h : Stops S c e d) (himp : ∀ u, ReflTransGen S c u → ReflTransGen S' o u) :
    Stops S' o e d := by
  cases h with
  | malformed hwalk hline => exact .malformed (himp _ hwalk) hline
  | newline hwalk hhead hd hline => exact .newline (himp _ hwalk) hhead hd hline
  | unknown hwalk hsettled hname hcolon hwalk' =>
    exact .unknown (himp _ hwalk) hsettled hname hcolon (himp _ hwalk')
  | depth hwalk => exact .depth (himp _ hwalk)
  | type hwalk => exact .type (himp _ hwalk)

/-! ## Actions that go step by step -/

/-- From the state on, the action goes on step by step. Where it has come to and where it stops is
seen from a place further up. -/
structure TracksFrom (S : Cursor → Cursor → Prop) (place : σ → Cursor) (origin : Cursor) (s : σ)
    (x : EStateM Error σ α) : Prop where
  walks : ∀ {a t}, x s = .ok a t → ReflTransGen S origin (place t)
  stops : ∀ {e t}, x s = .error e t → Stops S origin e (place t)

/-- From every state on, the action goes on step by step. -/
def Tracks (S : Cursor → Cursor → Prop) (place : σ → Cursor) (x : EStateM Error σ α) : Prop :=
  ∀ origin s, ReflTransGen S origin (place s) → TracksFrom S place origin s x

namespace TracksFrom

variable {S : Cursor → Cursor → Prop} {place : σ → Cursor} {origin : Cursor} {s t : σ}

theorem of_ok {x : EStateM Error σ α} {a : α} (h : x s = .ok a t)
    (hwalk : ReflTransGen S origin (place t)) : TracksFrom S place origin s x := by
  constructor
  · intro a' t' h'
    rw [h] at h'
    cases h'
    exact hwalk
  · intro e t' h'
    rw [h] at h'
    cases h'

theorem of_error {x : EStateM Error σ α} {e : Error} (h : x s = .error e t)
    (hstops : Stops S origin e (place t)) : TracksFrom S place origin s x := by
  constructor
  · intro a t' h'
    rw [h] at h'
    cases h'
  · intro e' t' h'
    rw [h] at h'
    cases h'
    exact hstops

theorem bind {x : EStateM Error σ α} {f : α → EStateM Error σ β}
    (hx : TracksFrom S place origin s x)
    (hf : ∀ a t, x s = .ok a t → TracksFrom S place origin t (f a)) :
    TracksFrom S place origin s (x >>= f) := by
  constructor
  · intro b u h
    obtain ⟨a, t, ht, hu⟩ := bind_eq_ok.1 h
    exact (hf a t ht).walks hu
  · intro e u h
    rcases bind_eq_error.1 h with h | ⟨a, t, ht, hu⟩
    · exact hx.stops h
    · exact (hf a t ht).stops hu

theorem ite {p : Prop} [Decidable p] {x y : EStateM Error σ α}
    (hx : p → TracksFrom S place origin s x) (hy : ¬p → TracksFrom S place origin s y) :
    TracksFrom S place origin s (if p then x else y) := by
  split
  · rename_i h
    exact hx h
  · rename_i h
    exact hy h

/-- What is done from one state on comes to what something else does from another one on. -/
theorem congr {x y : EStateM Error σ α} (hx : TracksFrom S place origin t x) (h : y s = x t) :
    TracksFrom S place origin s y :=
  ⟨fun hy => hx.walks (h.symm.trans hy), fun hy => hx.stops (h.symm.trans hy)⟩

theorem imp {S' : Cursor → Cursor → Prop} {origin' : Cursor} {x : EStateM Error σ α}
    (hx : TracksFrom S place origin s x)
    (h : ∀ u, ReflTransGen S origin u → ReflTransGen S' origin' u) :
    TracksFrom S' place origin' s x :=
  ⟨fun hrun => h _ (hx.walks hrun), fun hrun => (hx.stops hrun).imp h⟩

theorem read {x : Scan α} {s : σ} {c : Cursor} (hx : TracksFrom S id origin c x) :
    TracksFrom S Prod.snd origin (s, c) (Build.read x : Build Cursor σ α) := by
  constructor
  · rintro a ⟨s', d⟩ h
    exact hx.walks (read_eq_ok.1 h).1
  · rintro e ⟨s', d⟩ h
    exact hx.stops (read_eq_error.1 h).1

/-- What is done with what was read may use that it was. -/
theorem read_bind {x : Scan α} {f : α → Build Cursor σ β} {s : σ} {c : Cursor}
    (hx : TracksFrom S id origin c x)
    (hf : ∀ a d, x c = .ok a d → TracksFrom S Prod.snd origin (s, d) (f a)) :
    TracksFrom S Prod.snd origin (s, c) (Build.read x >>= f) := by
  refine hx.read.bind ?_
  rintro a ⟨_, d⟩ hd
  obtain ⟨hx, rfl⟩ := read_eq_ok.1 hd
  exact hf a d hx

end TracksFrom

namespace Tracks

variable {S : Cursor → Cursor → Prop} {place : σ → Cursor}

theorem pure (a : α) : Tracks S place (Pure.pure a : EStateM Error σ α) :=
  fun _ _ h => .of_ok rfl h

theorem bind {x : EStateM Error σ α} {f : α → EStateM Error σ β} (hx : Tracks S place x)
    (hf : ∀ a, Tracks S place (f a)) : Tracks S place (x >>= f) :=
  fun origin s h => (hx origin s h).bind fun a t ht => hf a origin t ((hx origin s h).walks ht)

theorem ite {p : Prop} [Decidable p] {x y : EStateM Error σ α} (hx : Tracks S place x)
    (hy : Tracks S place y) : Tracks S place (if p then x else y) :=
  fun origin s h => .ite (fun _ => hx origin s h) fun _ => hy origin s h

theorem map {x : EStateM Error σ α} (f : α → β) (hx : Tracks S place x) :
    Tracks S place (f <$> x) := by
  rw [map_eq_bind]
  exact hx.bind fun _ => .pure _

theorem get : Tracks S id (get : Scan Cursor) := fun _ _ h => .of_ok rfl h

theorem source : Tracks S Prod.snd (source : Build Cursor σ Cursor) := fun _ _ h => .of_ok rfl h

theorem current : Tracks S Prod.snd (current : Build Cursor σ σ) := fun _ _ h => .of_ok rfl h

theorem put (s : σ) : Tracks S Prod.snd (put s : Build Cursor σ Unit) :=
  fun _ _ h => .of_ok rfl h

theorem update (f : σ → σ) : Tracks S Prod.snd (update f : Build Cursor σ Unit) :=
  fun _ _ h => .of_ok rfl h

theorem read {x : Scan α} (hx : Tracks S id x) :
    Tracks S Prod.snd (read x : Build Cursor σ α) := fun origin s h => (hx origin s.2 h).read

theorem zoom {part : σ → τ} {put : σ → τ → σ} {x : Build Cursor τ α} (hx : Tracks S Prod.snd x) :
    Tracks S Prod.snd (zoom part put x) := by
  rintro origin ⟨s, c⟩ h
  have hpart := hx origin (part s, c) h
  have hrun := run_zoom part put x s c
  cases hx : x (part s, c) with
  | ok a p =>
    rw [hx] at hrun
    exact .of_ok hrun (hpart.walks hx)
  | error e p =>
    rw [hx] at hrun
    exact .of_error hrun (hpart.stops hx)

theorem alone {s : σ} {x : Build Cursor σ Unit} (hx : Tracks S Prod.snd x) :
    Tracks S id (alone s x) := by
  intro origin c h
  have hbuild := hx origin (s, c) h
  have hrun := run_alone s x c
  cases hx : x (s, c) with
  | ok a p =>
    rw [hx] at hrun
    exact .of_ok hrun (hbuild.walks hx)
  | error e p =>
    rw [hx] at hrun
    exact .of_error hrun (hbuild.stops hx)

end Tracks

theorem tracks_fail {S : Cursor → Cursor → Prop} {fault : TextFault}
    (h : fault.endsLine = false) : Tracks S id (Scan.fail fault : Scan α) :=
  fun _ _ hwalk => .of_error rfl (.malformed hwalk h)

end Text

end Protobuf
