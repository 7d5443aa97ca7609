import Protobuf.Proofs.Merging
import Protobuf.Text.Parsing

/-!
# What merging keeps

Errors leave behind what was built so far. A property of the value that is built is kept if the
value has it whenever an action stops, with or without an error (`Build.Keeps`). No input changes
the type of the message that it is merged into.
-/

namespace Protobuf

variable {ρ σ τ α β : Type}

namespace Build

/-- When the action stops, with or without an error, the value that is built has the property. -/
def Leaves (P : σ → Prop) (x : Build ρ σ α) (p : σ × ρ) : Prop :=
  match x p with
  | .ok _ q => P q.1
  | .error _ q => P q.1

/-- If the value that is built has the property, it has it after the action, too. -/
def Keeps (P : σ → Prop) (x : Build ρ σ α) : Prop := ∀ p, P p.1 → x.Leaves P p

namespace Leaves

variable {P : σ → Prop} {x : Build ρ σ α} {p q : σ × ρ}

theorem of_ok {a : α} (h : x.Leaves P p) (hx : x p = .ok a q) : P q.1 := by
  rwa [Leaves, hx] at h

theorem of_error {e : Error} (h : x.Leaves P p) (hx : x p = .error e q) : P q.1 := by
  rwa [Leaves, hx] at h

theorem imp {Q : σ → Prop} (h : x.Leaves P p) (himp : ∀ s, P s → Q s) : x.Leaves Q p := by
  rw [Leaves] at h ⊢
  cases hrun : x p with
  | ok a q =>
    rw [hrun] at h
    exact himp q.1 h
  | error e q =>
    rw [hrun] at h
    exact himp q.1 h

theorem bind {f : α → Build ρ σ β} (hx : x.Leaves P p)
    (hf : ∀ a q, x p = .ok a q → (f a).Leaves P q) : (x >>= f).Leaves P p := by
  rw [Leaves, run_bind]
  cases hrun : x p with
  | ok a q => exact hf a q hrun
  | error e q => exact hx.of_error hrun

theorem read (x : Reading ρ α) (h : P p.1) : (Build.read x).Leaves P p := by
  rw [Leaves, run_read]
  cases x p.2 <;> exact h

/-- What is done with what was read may use that it was. -/
theorem read_bind {x : Reading ρ α} {f : α → Build ρ σ β} {s : σ} {r : ρ} (h : P s)
    (hf : ∀ a r', x r = .ok a r' → (f a).Leaves P (s, r')) :
    (Build.read x >>= f).Leaves P (s, r) := by
  refine (Leaves.read x h).bind ?_
  rintro a ⟨_, r'⟩ hread
  obtain ⟨hx, rfl⟩ := read_eq_ok.1 hread
  exact hf a r' hx

end Leaves

namespace Keeps

variable {P : σ → Prop}

theorem pure (a : α) : Keeps P (Pure.pure a : Build ρ σ α) := fun _ h => h

theorem throw (e : Error) : Keeps P (MonadExcept.throw e : Build ρ σ α) := fun _ h => h

theorem read (x : Reading ρ α) : Keeps P (Build.read x : Build ρ σ α) := fun _ h => .read x h

theorem source : Keeps P (Build.source : Build ρ σ ρ) := fun _ h => h

theorem update {f : σ → σ} (h : ∀ s, P s → P (f s)) : Keeps P (Build.update f : Build ρ σ Unit) :=
  fun p hp => h p.1 hp

theorem put {s : σ} (h : P s) : Keeps P (Build.put s : Build ρ σ Unit) := fun _ _ => h

theorem bind {x : Build ρ σ α} {f : α → Build ρ σ β} (hx : x.Keeps P) (hf : ∀ a, (f a).Keeps P) :
    (x >>= f).Keeps P :=
  fun p hp => (hx p hp).bind fun a q hq => hf a q ((hx p hp).of_ok hq)

/-- What is done with the value as it is may use that it has the property. -/
theorem current {f : σ → Build ρ σ α} (h : ∀ s, P s → (f s).Keeps P) :
    (Build.current >>= f).Keeps P := fun p hp => h p.1 hp p hp

theorem read_bind {x : Reading ρ α} {f : α → Build ρ σ β}
    (h : ∀ r a r', x r = .ok a r' → (f a).Keeps P) : (Build.read x >>= f).Keeps P :=
  fun p hp => Leaves.read_bind hp fun a r' hx => h p.2 a r' hx (p.1, r') hp

/-- A part that is built in place comes back as one that the whole may have. -/
theorem zoom {part : σ → τ} {put : σ → τ → σ} {x : Build ρ τ α} {Q : σ → τ → Prop}
    (hpart : ∀ s, P s → Q s (part s)) (hx : ∀ s, P s → x.Keeps (Q s))
    (hput : ∀ s t, P s → Q s t → P (put s t)) : (Build.zoom part put x).Keeps P := by
  rintro ⟨s, r⟩ hs
  have hleaves := hx s hs (part s, r) (hpart s hs)
  rw [Leaves, run_zoom]
  cases hrun : x (part s, r) with
  | ok a q => exact hput s q.1 hs (hleaves.of_ok hrun)
  | error e q => exact hput s q.1 hs (hleaves.of_error hrun)

/-- Whatever is done, the trivial property is kept. -/
theorem trivial (x : Build ρ σ α) : x.Keeps fun _ => True := by
  intro p _
  rw [Leaves]
  split <;> exact True.intro

end Keeps

end Build

open Build

/-! ## Members of a message -/

namespace Message

variable {P : Message → Prop}

/-- Acting on a slot keeps what acting on it cannot change. -/
theorem keeps_atSlot {i : Nat} {member : Member} {x : Build ρ (Slot Message) α}
    (Q : Message → Slot Message → Prop)
    (hpart : ∀ m, P m → Q m (m.slots.getD i member.initial)) (hx : ∀ m, P m → x.Keeps (Q m))
    (hput : ∀ m s, P m → Q m s → P { m with slots := m.slots.set i s }) :
    (atSlot i member x).Keeps P :=
  .zoom hpart hx hput

end Message

/-! ## Merging text -/

namespace Text

variable {options : ParseOptions} {limit : Nat} {body : MergeBody} {P : Message → Prop}

theorem keeps_mergeField {name : String}
    (h : ∀ m, P m → ∀ i member, Message.member? m.type (·.hasName name) = some (i, member) →
      (Message.atSlot i member (mergeMember limit body name member)).Keeps P) :
    (mergeField limit body name).Keeps P := by
  rintro ⟨m, c⟩ hm
  rw [Leaves, mergeField]
  cases hmember : Message.member? m.type (·.hasName name) with
  | none => exact hm
  | some found => exact (h m hm found.1 found.2 hmember).bind (fun _ => .pure true) (m, c) hm

/-- Merges what stands behind the name of a field, or skips it. -/
def mergeBehind (options : ParseOptions) (body : MergeBody) (line : Nat) (name : FieldName) :
    Build Cursor Message Unit := do
  read Scan.colon
  if !(← mergeNamed options body name) then
    if !options.ignores name then throw (.unknownField name.display line)
    let c ← source
    read (Scan.skipValue options.depthLimit (2 * c.rest.length + 2) c.sawColon)
  read Scan.separator

/-- Fields are merged one after the other. -/
theorem mergeFields_succ (rounds : Nat) (close? : Option Char) :
    mergeFields options (rounds + 1) close? = (do
      if !(← read (Scan.finished close?)) then
        let line ← read Scan.line
        let name ← read Scan.fieldName
        mergeBehind options (mergeFields options rounds) line name
        mergeFields options rounds close?) := by
  simp only [mergeFields, mergeBehind, bind_assoc]
  refine bind_congr fun finished => ?_
  split
  · refine bind_congr fun line => bind_congr fun name => bind_congr fun _ =>
      bind_congr fun known => ?_
    split
    · split
      · rfl
      · simp only [bind_assoc]
    · rfl
  · rfl

theorem keeps_mergeBehind {line : Nat} {name : FieldName}
    (h : (mergeNamed options body name).Keeps P) :
    (mergeBehind options body line name).Keeps P := by
  refine .bind (.read _) fun _ => .bind h fun known => ?_
  split
  · split
    · exact .bind (.throw _) fun _ => .bind .source fun _ => .bind (.read _) fun _ => .read _
    · exact .bind .source fun _ => .bind (.read _) fun _ => .read _
  · exact .read _

theorem keeps_mergeFields
    (h : ∀ body, (∀ close?, (body close?).Keeps P) → ∀ name, (mergeNamed options body name).Keeps P)
    (rounds : Nat) (close? : Option Char) : (mergeFields options rounds close?).Keeps P := by
  induction rounds generalizing close? with
  | zero => exact .pure ()
  | succ rounds ih =>
    rw [mergeFields_succ]
    refine .bind (.read _) fun finished => ?_
    split
    · exact .bind (.read _) fun line => .bind (.read _) fun name =>
        .bind (keeps_mergeBehind (h _ ih name)) fun _ => ih close?
    · exact .pure ()

/-! ## Types of messages -/

variable {type : MessageType}

/-- The type of a message is kept, whatever is done in its slots. -/
theorem keeps_type_atSlot (i : Nat) (member : Member) (x : Build ρ (Slot Message) α) :
    (Message.atSlot i member x).Keeps (·.type = type) :=
  Message.keeps_atSlot (fun _ _ => True) (fun _ _ => True.intro) (fun _ _ => .trivial x)
    fun _ _ h _ => h

theorem keeps_type_mergeNamed (name : FieldName) :
    (mergeNamed options body name).Keeps (·.type = type) := by
  have hfield (name : String) : (mergeField options.depthLimit body name).Keeps (·.type = type) :=
    keeps_mergeField fun _ _ i member _ => keeps_type_atSlot i member _
  refine .current fun m hm => ?_
  cases name with
  | plain name => exact hfield name
  | number number =>
    dsimp only
    split
    · exact hfield _
    · exact .pure false
  | bracketed url =>
    dsimp only
    split
    · split
      · rename_i hany
        refine .bind ?_ fun _ => .pure true
        unfold mergeExpanded
        split
        · exact .throw _
        · exact .bind (.read _) fun c => .update fun _ _ => hany.symm.trans hm
      · exact .pure false
    · exact hfield _

/-- Text is merged up to its end, and no required field is missing then if the options ask for
them. -/
theorem mergeText_eq_ok {text : String} {m m' : Message} :
    Message.mergeText options text m = .ok () m' ↔
      (∃ c, mergeBody options none (m, .new text) = .ok () (m', c)) ∧
        m'.checked options.allowPartial = .ok m' := by
  rw [Message.mergeText]
  cases hrun : mergeBody options none (m, .new text) with
  | error e p => simp
  | ok _ p =>
    obtain ⟨m1, c⟩ := p
    dsimp only
    cases hchecked : m1.checked options.allowPartial with
    | ok m2 =>
      obtain rfl := Message.eq_of_checked hchecked
      constructor
      · intro h
        cases h
        exact ⟨⟨c, rfl⟩, hchecked⟩
      · rintro ⟨⟨_, h⟩, -⟩
        cases h
        rfl
    | error e =>
      constructor
      · intro h
        cases h
      · rintro ⟨⟨_, h⟩, hok⟩
        cases h
        rw [hchecked] at hok
        cases hok

/-- What is parsed is merged into a new message. -/
theorem mergeBody_of_parse {text : String} {m : Message}
    (h : Message.parse options type text = .ok m) :
    ∃ c, mergeBody options none (.new type, .new text) = .ok () (m, c) := by
  rw [Message.parse] at h
  cases hmerge : Message.mergeText options text (.new type) with
  | error e m1 =>
    rw [hmerge] at h
    cases h
  | ok a m1 =>
    rw [hmerge] at h
    cases h
    exact (mergeText_eq_ok.1 hmerge).1

/-- Parsing fails because merging does or because required fields are missing. -/
theorem mergeBody_of_parse_error {text : String} {e : Error}
    (h : Message.parse options type text = .error e) :
    e = .missingRequired ∨ ∃ p, mergeBody options none (.new type, .new text) = .error e p := by
  rw [Message.parse, Message.mergeText] at h
  cases hrun : mergeBody options none (.new type, .new text) with
  | error e' p =>
    rw [hrun] at h
    cases h
    exact .inr ⟨p, rfl⟩
  | ok a p =>
    rw [hrun] at h
    dsimp only at h
    cases hchecked : p.1.checked options.allowPartial with
    | error e' =>
      rw [hchecked] at h
      cases h
      exact .inl (Message.error_of_checked hchecked)
    | ok a =>
      rw [hchecked] at h
      cases h

end Text

end Protobuf
