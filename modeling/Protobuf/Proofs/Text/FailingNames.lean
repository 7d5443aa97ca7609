import Protobuf.Proofs.Text.Blocks
import Protobuf.Proofs.Text.Composition
import Protobuf.Proofs.Text.Turns
import Protobuf.Proofs.Text.UnknownNames

/-!
# Names that cannot be read

Names of fields stand among the fields of a message, of a map entry, and of a block that is skipped.
Wherever reading comes to a name (`Text.ComesToName`), at whatever nesting and whatever is ignored,
it stops there with the error if the name cannot be read (`Message.parse_error_of_comesToName`).
-/

namespace Protobuf

open Build Relation

variable {σ τ α β κ ν : Type}

namespace Text

/-! ## Failing at a place -/

/-- The action stops with the error at the place, whatever it has built until then. -/
def Fails (x : Build Cursor σ α) (p : σ × Cursor) (e : Error) (place : Cursor) : Prop :=
  ∃ s, x p = .error e (s, place)

section

variable {e : Error} {place : Cursor} {p q : σ × Cursor} {s : σ} {c d : Cursor}

theorem Fails.read {x : Scan α} (h : x c = .error e place) :
    Fails (Build.read x : Build Cursor σ α) (s, c) e place :=
  ⟨s, read_eq_error.2 ⟨h, rfl⟩⟩

theorem Fails.bind {x : Build Cursor σ α} {f : α → Build Cursor σ β} (h : Fails x p e place) :
    Fails (x >>= f) p e place := by
  obtain ⟨s, hs⟩ := h
  exact ⟨s, run_bind_of_error hs⟩

theorem Fails.of_eq {x y : Build Cursor σ α} (h : Fails x q e place) (heq : y p = x q) :
    Fails y p e place := by
  obtain ⟨s, hs⟩ := h
  exact ⟨s, heq.trans hs⟩

/-- What is read before makes no difference. -/
theorem Fails.behind {x : Scan α} {a : α} {f : α → Build Cursor σ β} (hx : x c = .ok a d)
    (h : Fails (f a) (s, d) e place) : Fails (Build.read x >>= f) (s, c) e place :=
  h.of_eq (run_read_bind_of_ok hx)

theorem Fails.update {g : σ → σ} {f : Unit → Build Cursor σ β}
    (h : Fails (f ()) (g s, c) e place) : Fails (Build.update g >>= f) (s, c) e place :=
  h.of_eq (run_bind_of_ok (run_update g s c))

theorem Fails.zoom {part : σ → τ} {put : σ → τ → σ} {x : Build Cursor τ α}
    (h : Fails x (part s, c) e place) : Fails (Build.zoom part put x) (s, c) e place := by
  obtain ⟨t, ht⟩ := h
  exact ⟨put s t, zoom_eq_error.2 ⟨t, ht, rfl⟩⟩

theorem Fails.atSlot {i : Nat} {member : Member} {m : Message} {x : Build Cursor (Slot Message) α}
    (h : Fails x (m.slots.getD i member.initial, c) e place) :
    Fails (Message.atSlot i member x) (m, c) e place := by
  obtain ⟨t, ht⟩ := h
  exact ⟨_, zoom_eq_error.2 ⟨t, ht, rfl⟩⟩

theorem Fails.alone {x : Build Cursor σ Unit} (h : Fails x (s, c) e place) :
    Build.alone s x c = .error e place := by
  obtain ⟨t, ht⟩ := h
  rw [run_alone, ht]

end

namespace Scan

/-- The name of a field starts at the place, but reading it stops with an error at another place. -/
structure FailsAt (c : Cursor) (e : Error) (place : Cursor) : Prop where
  starts : ∃ b, c.settle.rest.head? = some b ∧ startsName b = true
  fails : fieldName c = .error e place

variable {c d : Cursor} {e : Error} {place : Cursor} {close? : Option Char}

/-! ## Where names are read -/

theorem eq_settle_of_finished (h : finished close? c = .ok false d) : d = c.settle := by
  cases close? with
  | none => exact (finished_none_eq_ok h).1
  | some close =>
    obtain ⟨found, u, hu, hnext⟩ := bind_eq_ok.1 h
    cases found with
    | true => cases hnext
    | false =>
      obtain ⟨-, rfl⟩ := tryChar_eq_false.1 hu
      rw [if_neg Bool.false_ne_true, run_bind_of_ok (run_peek _)] at hnext
      split at hnext
      · cases hnext
      · cases hnext
        exact Cursor.settle_settle c

/-- In front of a name no block ends. -/
theorem tryChar_of_startsName (h : ∃ b, c.settle.rest.head? = some b ∧ startsName b = true)
    {close : Char} (hclose : EndsBlock close) : tryChar close c = .ok false c.settle := by
  obtain ⟨b, hhead, hb⟩ := h
  refine tryChar_eq_false.2 ⟨fun heq => ?_, rfl⟩
  rw [hhead] at heq
  rw [Option.some.inj heq, hclose.not_startsName] at hb
  cases hb

/-- In front of a name no sequence of fields ends. -/
theorem finished_of_startsName (hclose : ∀ close ∈ close?, EndsBlock close)
    (h : ∃ b, c.settle.rest.head? = some b ∧ startsName b = true) :
    finished close? c = .ok false c.settle := by
  cases close? with
  | none =>
    obtain ⟨b, hhead, -⟩ := h
    rw [finished, run_bind_of_ok (run_peek c), hhead]
    rfl
  | some close =>
    have hopen := tryChar_of_startsName h (hclose close rfl)
    obtain ⟨b, hhead, -⟩ := h
    rw [finished, run_bind_of_ok hopen, if_neg Bool.false_ne_true, run_bind_of_ok (run_peek _),
      Cursor.settle_settle, hhead]
    rfl

/-- Where the name of a field was read, no sequence of fields had ended. -/
theorem finished_of_names {close?' : Option Char} {name : FieldName} {line : Nat} {u v : Cursor}
    (hclose : ∀ close ∈ close?, EndsBlock close) (hu : finished close?' c = .ok false u)
    (hname : Names name line u v) : finished close? c = .ok false u := by
  obtain rfl := eq_settle_of_finished hu
  obtain ⟨w, hw, hv⟩ := hname
  obtain ⟨b, hb⟩ : ∃ b, c.settle.rest.head? = some b := by
    cases hhead : c.settle.rest.head? with
    | some b => exact ⟨b, rfl⟩
    | none =>
      have hdemands := demands_fieldName c.settle name v (fieldName_of_line hw hv)
      rw [Cursor.settle_settle, List.head?_eq_none_iff.1 hhead] at hdemands
      exact absurd rfl hdemands
  refine finished_of_startsName hclose ⟨b, hb, ?_⟩
  refine startsName_of_fieldName (fieldName_of_line hw hv) b ?_
  rwa [Cursor.settle_settle]

/-- Fields that are merged stop in front of a name that cannot be read. -/
theorem FailsAt.mergeBody (h : FailsAt c e place) (options : ParseOptions)
    (hclose : ∀ close ∈ close?, EndsBlock close) (m : Message) :
    mergeBody options close? (m, c) = .error e (m, place) := by
  have hname : fieldName c.settle = .error e place := (settles_fieldName c).trans h.fails
  refine (congrFun ((ends_mergeBody options).turns close?) (m, c)).trans ?_
  refine (run_read_bind_of_ok (finished_of_startsName hclose h.starts)).trans ?_
  refine (run_read_bind_of_ok (run_line c.settle)).trans (run_bind_of_error ?_)
  rw [Cursor.settle_settle]
  exact read_eq_error.2 ⟨hname, rfl⟩

/-- The fields of a map entry stop in front of a name that cannot be read. -/
theorem FailsAt.entryLoop (h : FailsAt c e place) {readKey : Scan κ} {readValue : Scan ν}
    (hkey : Moves id readKey) (hvalue : Moves id readValue) {close : Char}
    (hclose : EndsBlock close) (entry : κ × ν) :
    entryLoop readKey readValue close (entry, c) = .error e (entry, place) := by
  have hname : fieldName c.settle = .error e place := (settles_fieldName c).trans h.fails
  refine (congrFun ((ends_entryLoop hkey hvalue).turns close) (entry, c)).trans ?_
  refine (run_read_bind_of_ok (tryChar_of_startsName h.starts hclose)).trans ?_
  refine (run_read_bind_of_ok (run_line c.settle)).trans (run_bind_of_error ?_)
  rw [Cursor.settle_settle]
  exact read_eq_error.2 ⟨hname, rfl⟩

/-- Fields that are passed over stop in front of a name that cannot be read. -/
theorem FailsAt.passFields (h : FailsAt c e place) (limit : Nat) {close : Char}
    (hclose : EndsBlock close) : passFields limit close c = .error e place := by
  rw [passFields_eq, fieldsTurn, run_bind_of_ok (tryChar_of_startsName h.starts hclose)]
  exact run_bind_of_error ((settles_fieldName c).trans h.fails)

/-! ## What leads to a place -/

section

variable {limit : Nat} {body : MergeBody} {m : Message}

theorem Opens.endsBlock {close : Char} (h : Opens limit close c d) : EndsBlock close := by
  obtain ⟨u, hu, -⟩ := h
  exact (openBlock_eq_ok hu).1

theorem fails_block {close : Char} (hopen : Opens limit close c d)
    (h : Fails (body (some close)) (m, d) e place) :
    Fails (block limit body) (m, c) e place := by
  obtain ⟨u, hu, hd⟩ := hopen
  refine .behind hu ?_
  refine .behind hd ?_
  exact h.bind

theorem value_eq_error {kind : FieldKind} {type : MessageType} (hkind : kind.holds type)
    {close : Char} (hopen : Opens limit close c d)
    (h : Fails (body (some close)) (.new type, d) e place) :
    value limit body kind c = .error e place := by
  have halone := (fails_block hopen h).alone
  rcases hkind with rfl | rfl
  · rw [value, run_map, halone]
  · rw [value, run_map, halone]

/-- A list stops where one of its elements does. -/
theorem fails_listLoop {x : Scan α} (hx : Moves id x) (hsteps : ReflTransGen (NextElement x) c d)
    (h : x d = .error e place) (as : List α) : Fails (listLoop x) (as, c) e place := by
  have hturns : listLoop x = listTurn x (listLoop x) := (ends_listLoop hx).turns ()
  induction hsteps using ReflTransGen.head_induction_on generalizing as with
  | refl =>
    rw [hturns]
    exact (Fails.read h).bind
  | head hstep _ ih =>
    obtain ⟨a, u, v, hu, hv, hd⟩ := hstep
    rw [hturns]
    refine .behind hu ?_
    refine .update ?_
    refine .behind hv ?_
    rw [if_pos (by rfl)]
    exact .behind hd (ih _)

/-- The fields of a map entry stop where they come to something that stops. -/
theorem fails_entryLoop {readKey : Scan κ} {readValue : Scan ν} (hkey : Moves id readKey)
    (hvalue : Moves id readValue) {close : Char}
    (hsteps : ReflTransGen (NextEntryField readKey readValue close) c d)
    (h : ∀ entry, Fails (Scan.entryLoop readKey readValue close) (entry, d) e place)
    (entry : κ × ν) : Fails (Scan.entryLoop readKey readValue close) (entry, c) e place := by
  have hturns := (ends_entryLoop hkey hvalue).turns close
  induction hsteps using ReflTransGen.head_induction_on generalizing entry with
  | refl => exact h entry
  | head hstep _ ih =>
    obtain ⟨name, line, u, v, ⟨w, x, hw, ⟨y, hy, hx⟩, hu⟩, hread, hd⟩ := hstep
    rw [hturns]
    refine .behind hw ?_
    rw [if_pos (by rfl)]
    refine .behind hy ?_
    refine .behind hx ?_
    refine .behind hu ?_
    rcases hread with ⟨rfl, key, hv⟩ | ⟨rfl, value, hv⟩
    · rw [if_pos rfl]
      refine .behind hv ?_
      refine .update ?_
      exact .behind hd (ih _)
    · rw [if_neg (by decide), if_pos rfl]
      refine .behind hv ?_
      refine .update ?_
      exact .behind hd (ih _)

/-- The fields of a map entry stop where the value of one of them does. -/
theorem fails_entryLoop_value {readKey : Scan κ} {readValue : Scan ν} (hkey : Moves id readKey)
    (hvalue : Moves id readValue) {close : Char} {line : Nat}
    (hfield : EntryFieldAt close (.plain "value") line c d) (h : readValue d = .error e place)
    (entry : κ × ν) : Fails (Scan.entryLoop readKey readValue close) (entry, c) e place := by
  obtain ⟨u, v, hu, ⟨w, hw, hv⟩, hd⟩ := hfield
  rw [(ends_entryLoop hkey hvalue).turns close]
  refine .behind hu ?_
  rw [if_pos (by rfl)]
  refine .behind hw ?_
  refine .behind hv ?_
  refine .behind hd ?_
  rw [if_neg (by decide), if_pos rfl]
  exact (Fails.read h).bind

theorem mapEntry_eq_error {readKey : Scan κ} {readValue : Scan ν} {close : Char} {zero : κ × ν}
    (hopen : Opens limit close c d)
    (h : Fails (Scan.entryLoop readKey readValue close) (zero, d) e place) :
    mapEntry limit zero readKey readValue c = .error e place := by
  obtain ⟨u, hu, hd⟩ := hopen
  refine (run_bind_of_ok hu).trans ?_
  refine (run_bind_of_ok hd).trans ?_
  exact run_bind_of_error h.alone

end

/-! ## What leads to a place in skipped text -/

/-- The name of a field that is passed over starts at the first place. What stands behind it, and
behind a colon if there is one, starts at the second place. -/
def SkippedAt (close : Char) (sawColon : Bool) (c d : Cursor) : Prop :=
  ∃ u name v, Scan.tryChar close c = .ok false u ∧ fieldName u = .ok name v ∧
    Scan.tryChar ':' v = .ok sawColon d

/-- The value that is passed over is a block, and its fields up to a closing character start at the
place; or it is a list, and its elements start there. -/
inductive Holds (limit : Nat) (sawColon : Bool) (c : Cursor) : Option Char × Cursor → Prop
  /-- The fields of a block. -/
  | fields {close : Char} {d : Cursor} (hopen : Opens limit close c d) :
    Holds limit sawColon c (some close, d)
  /-- The elements of a list. -/
  | elements {d e : Cursor} (hsaw : sawColon = true) (hopen : Scan.tryChar '[' c = .ok true d)
    (hmore : Scan.tryChar ']' d = .ok false e) : Holds limit sawColon c (none, e)

/-- Passing over fields or elements from some place on comes to passing over fields or elements from
another place on. -/
inductive PassLeads (limit : Nat) : Option Char × Cursor → Option Char × Cursor → Prop
  /-- The next field of the block. -/
  | field {close : Char} {sawColon : Bool} {c d u v : Cursor}
    (hfield : SkippedAt close sawColon c d) (hvalue : passValue limit sawColon d = .ok () u)
    (hbehind : separator u = .ok () v) : PassLeads limit (some close, c) (some close, v)
  /-- What the value of the field holds. -/
  | value {close : Char} {sawColon : Bool} {c d : Cursor} {p : Option Char × Cursor}
    (hfield : SkippedAt close sawColon c d) (hholds : Holds limit sawColon d p) :
    PassLeads limit (some close, c) p
  /-- The next element of the list. -/
  | element {isBlock : Bool} {c d u v w : Cursor} (hblock : atBlock c = .ok isBlock u)
    (hvalue : (if isBlock then passBlock limit else skipScalar) u = .ok () v)
    (hmore : Scan.tryChar ']' v = .ok false w) (hcomma : expect ',' w = .ok () d) :
    PassLeads limit (none, c) (none, d)
  /-- The fields of an element that is a block. -/
  | block {close : Char} {c d : Cursor} (hopen : Opens limit close c d) :
    PassLeads limit (none, c) (some close, d)

section

variable {limit : Nat} {p q : Option Char × Cursor}

theorem Holds.endsBlock {sawColon : Bool} (h : Holds limit sawColon c p) :
    ∀ close ∈ p.1, EndsBlock close := by
  cases h with
  | fields hopen =>
    intro close hclose
    cases hclose
    exact hopen.endsBlock
  | elements _ _ _ => exact fun close hclose => absurd hclose (Option.not_mem_none close)

theorem PassLeads.endsBlock (h : PassLeads limit p q) (hp : ∀ close ∈ p.1, EndsBlock close) :
    ∀ close ∈ q.1, EndsBlock close := by
  cases h with
  | field _ _ _ => exact hp
  | value _ hholds => exact hholds.endsBlock
  | element _ _ _ _ => exact hp
  | block hopen =>
    intro close hclose
    cases hclose
    exact hopen.endsBlock

theorem passBlock_eq_error {close : Char} (hopen : Opens limit close c d)
    (h : passFields limit close d = .error e place) : passBlock limit c = .error e place := by
  obtain ⟨u, hu, hd⟩ := hopen
  rw [passBlock_eq, blockTurn, run_bind_of_ok hu, run_bind_of_ok hd]
  exact run_bind_of_error h

theorem Opens.atBlock {close : Char} (h : Opens limit close c d) :
    atBlock c = .ok true c.settle := by
  obtain ⟨u, hu, -⟩ := h
  rw [run_atBlock]
  rcases (openBlock_eq_ok hu).2 with hhead | hhead <;> rw [hhead] <;> rfl

theorem Opens.settle {close : Char} (h : Opens limit close c d) : Opens limit close c.settle d := by
  obtain ⟨u, hu, hd⟩ := h
  exact ⟨u, (settles_openBlock c).trans hu, hd⟩

/-- A value that is passed over stops where its fields or elements do. -/
theorem passValue_eq_error {sawColon : Bool} (hholds : Holds limit sawColon c p)
    (h : passLoop limit p.1 p.2 = .error e place) :
    passValue limit sawColon c = .error e place := by
  rw [passValue_eq, valueTurn]
  cases hholds with
  | fields hopen =>
    rw [run_bind_of_ok hopen.atBlock, if_pos rfl]
    exact passBlock_eq_error hopen.settle h
  | @elements u v hsaw hopen hmore =>
    have hhead := (tryChar_eq_true.1 hopen).1
    have hblock : atBlock c = .ok false c.settle := by
      rw [run_atBlock, hhead]
      rfl
    have hbracket : expect '[' c.settle = .ok () u := by
      rw [expect, run_bind_of_ok ((settles_tryChar '[' c).trans hopen)]
      rfl
    rw [run_bind_of_ok hblock, if_neg Bool.false_ne_true, hsaw, if_pos rfl,
      run_bind_of_ok (run_peek c.settle), Cursor.settle_settle, if_pos hhead,
      run_bind_of_ok hbracket, run_bind_of_ok hmore, if_pos (by rfl)]
    exact h

/-- Text that is passed over stops where it comes to something that stops. -/
theorem PassLeads.eq_error (h : PassLeads limit p q)
    (hq : passLoop limit q.1 q.2 = .error e place) : passLoop limit p.1 p.2 = .error e place := by
  cases h with
  | @field close sawColon c d u v hfield hvalue hbehind =>
    obtain ⟨w, name, x, hw, hx, hd⟩ := hfield
    show passFields limit close c = _
    rw [passFields_eq, fieldsTurn, run_bind_of_ok hw, if_pos (by rfl), run_bind_of_ok hx,
      run_bind_of_ok hd, run_bind_of_ok hvalue, run_bind_of_ok hbehind]
    exact hq
  | @value close sawColon c d q hfield hholds =>
    obtain ⟨w, name, x, hw, hx, hd⟩ := hfield
    show passFields limit close c = _
    rw [passFields_eq, fieldsTurn, run_bind_of_ok hw, if_pos (by rfl), run_bind_of_ok hx,
      run_bind_of_ok hd]
    exact run_bind_of_error (passValue_eq_error hholds hq)
  | @element isBlock c d u v w hblock hvalue hmore hcomma =>
    have hlist : (do
        if !(← Scan.tryChar ']') then
          expect ','
          passElements limit : Scan Unit) v = .error e place := by
      rw [run_bind_of_ok hmore, if_pos (by rfl), run_bind_of_ok hcomma]
      exact hq
    show passElements limit c = _
    rw [passElements_eq, elementsTurn, run_bind_of_ok hblock]
    cases isBlock with
    | true =>
      rw [if_pos rfl] at hvalue ⊢
      exact (run_bind_of_ok hvalue).trans hlist
    | false =>
      rw [if_neg Bool.false_ne_true] at hvalue ⊢
      exact (run_bind_of_ok hvalue).trans hlist
  | @block close c d hopen =>
    show passElements limit c = _
    rw [passElements_eq, elementsTurn, run_bind_of_ok hopen.atBlock, if_pos rfl]
    exact run_bind_of_error (passBlock_eq_error hopen.settle hq)

theorem endsBlock_of_passLeads (hsteps : ReflTransGen (PassLeads limit) p q)
    (hp : ∀ close ∈ p.1, EndsBlock close) : ∀ close ∈ q.1, EndsBlock close := by
  induction hsteps with
  | refl => exact hp
  | tail _ hstep ih => exact hstep.endsBlock ih

theorem passLoop_eq_error (hsteps : ReflTransGen (PassLeads limit) p q)
    (h : passLoop limit q.1 q.2 = .error e place) : passLoop limit p.1 p.2 = .error e place := by
  induction hsteps using ReflTransGen.head_induction_on with
  | refl => exact h
  | head hstep _ ih => exact hstep.eq_error ih

/-- A value that is passed over stops where it comes to a name that cannot be read. -/
theorem FailsAt.passValue (h : FailsAt d e place) {sawColon : Bool} {close : Char}
    (hholds : Holds limit sawColon c p)
    (hsteps : ReflTransGen (PassLeads limit) p (some close, d)) :
    passValue limit sawColon c = .error e place := by
  have hclose : EndsBlock close := endsBlock_of_passLeads hsteps hholds.endsBlock close rfl
  exact passValue_eq_error hholds (passLoop_eq_error hsteps (h.passFields limit hclose))

end

end Scan

/-! ## Members -/

section

variable {options : ParseOptions} {limit rounds : Nat} {body : MergeBody} {label : String}
  {member : Member} {s : Slot Message} {m m' : Message} {c d : Cursor} {e : Error} {place : Cursor}

/-- A member stops where the value that its field comes to does. -/
theorem ReadsAt.fails (hbody : ∀ close?, Moves Prod.snd (body close?)) {kind : FieldKind}
    (hread : ReadsAt limit body label member c kind d)
    (h : value limit body kind d = .error e place) :
    Fails (mergeMember limit body label member) (s, c) e place := by
  cases hread with
  | oneof hfind =>
    rw [mergeMember, hfind]
    exact (Fails.read h).bind
  | single halone =>
    rw [mergeMember]
    refine .zoom ?_
    refine .behind halone ?_
    rw [if_neg Bool.false_ne_true]
    exact (Fails.read h).bind
  | element hopen hmore hsteps =>
    rw [mergeMember]
    refine .zoom ?_
    refine .behind hopen ?_
    rw [if_pos rfl]
    refine .behind hmore ?_
    rw [if_pos (by rfl)]
    exact Scan.fails_listLoop (moves_value hbody _) hsteps h _
  | entry hopen hsteps hfield =>
    have hvalue : Moves id (value limit body kind) := moves_value hbody kind
    refine (Fails.read (Scan.mapEntry_eq_error hopen ?_)).bind
    refine Scan.fails_entryLoop (Scan.moves_scalar _) hvalue hsteps ?_ _
    exact Scan.fails_entryLoop_value (Scan.moves_scalar _) hvalue hfield h

/-- A member stops where the fields of the message inside do. -/
theorem Enters.fails (hbody : ∀ close?, Moves Prod.snd (body close?))
    (henters : Enters limit body label member s c m d)
    (h : ∀ close, Scan.EndsBlock close → Fails (body (some close)) (m, d) e place) :
    Fails (mergeMember limit body label member) (s, c) e place := by
  cases henters with
  | optional hkind hopen =>
    have hblock := Scan.fails_block hopen (h _ hopen.endsBlock)
    rw [mergeMember]
    rcases hkind with hkind | hkind
    · rw [hkind]
      exact .zoom hblock
    · rw [hkind]
      exact .zoom hblock
  | value hread hkind hopen =>
    exact hread.fails hbody (Scan.value_eq_error hkind hopen (h _ hopen.endsBlock))

/-! ## Messages -/

/-- With a round for each byte that is left, their number makes no difference. -/
theorem mergeFields_eq_mergeBody {close? : Option Char} (h : c.rest.length < rounds) :
    mergeFields options rounds close? (m, c) = mergeBody options close? (m, c) :=
  (proceeds_mergeTurn options).rounds moves_mergeFields mergeFields_succ rounds
    (c.rest.length + 1) close? (m, c) h (Nat.lt_succ_self _)

/-- The fields of a message stop where what is done behind the name of the first one does. -/
theorem fails_of_named {close? close?' : Option Char} {name : FieldName} {line : Nat}
    {u v : Cursor} (hclose : ∀ close ∈ close?, Scan.EndsBlock close)
    (hu : Scan.finished close?' c = .ok false u) (hname : Scan.Names name line u v)
    (h : Fails (do mergeBehind options (mergeBody options) line name; mergeBody options close?)
      (m, v) e place) : Fails (mergeBody options close?) (m, c) e place := by
  have hmore := Scan.finished_of_names hclose hu hname
  obtain ⟨w, hw, hv⟩ := hname
  rw [(ends_mergeBody options).turns close?]
  refine .behind hmore ?_
  rw [if_pos (by rfl)]
  refine .behind hw ?_
  exact .behind hv h

/-- The fields of a message stop where the first one does. -/
theorem fails_of_fieldAt {close? close?' : Option Char} {name : FieldName} {line : Nat}
    (hclose : ∀ close ∈ close?, Scan.EndsBlock close)
    (hfield : Scan.FieldAt close?' name line c d)
    (h : Fails (mergeNamed options (mergeBody options) name) (m, d) e place) :
    Fails (mergeBody options close?) (m, c) e place := by
  obtain ⟨u, v, hu, hname, hd⟩ := hfield
  refine fails_of_named hclose hu hname ?_
  refine .bind ?_
  exact .behind hd h.bind

/-- Wherever the fields behind the place end, merging them into the message stops at another place
with the error. -/
def FailsFrom (options : ParseOptions) (p : Message × Cursor) (e : Error) (place : Cursor) : Prop :=
  ∀ close?, (∀ close ∈ close?, Scan.EndsBlock close) → Fails (mergeBody options close?) p e place

theorem Scan.FieldAt.length_lt {close? : Option Char} {name : FieldName} {line : Nat}
    (h : Scan.FieldAt close? name line c d) : d.rest.length < c.rest.length := by
  obtain ⟨u, v, hu, ⟨w, hw, hv⟩, hd⟩ := h
  have hfinished := (Scan.moves_finished close?).length_le hu
  have hline := Scan.moves_line.length_le hw
  have hname := Scan.shrinks_fieldName w name v hv
  have hcolon := Scan.moves_colon.length_le hd
  omega

/-- A member whose field stands in front stops the fields of the message. -/
theorem failsFrom_of_memberAt {i : Nat} (hrounds : c.rest.length ≤ rounds)
    (hmember : MemberAt m c label i member d)
    (h : Fails (mergeMember options.depthLimit (mergeFields options rounds) label member)
      (m.slots.getD i member.initial, d) e place) : FailsFrom options (m, c) e place := by
  intro close? hclose
  obtain ⟨close?', name, line, hfield, hlabel, hfound⟩ := hmember
  have hlt := hfield.length_lt
  refine fails_of_fieldAt hclose hfield ?_
  refine .of_eq (x := mergeNamed options (mergeFields options rounds) name) (q := (m, d)) ?_ ?_
  · refine .of_eq ?_ (mergeNamed_of_label hlabel)
    refine .of_eq ?_ (mergeField_of_member hfound)
    exact h.atSlot.bind
  · refine (mergeNamed_congr (moves_mergeFields rounds) (fun close? m' u hu => ?_) name).symm
    exact mergeFields_eq_mergeBody (by omega)

theorem Leads.failsFrom {p q : Message × Cursor} (h : Leads options p q)
    (hq : FailsFrom options q e place) : FailsFrom options p e place := by
  cases h with
  | @next close?' name line rounds m m' c d u c' hrounds hmore hname hrun =>
    intro close? hclose
    refine fails_of_named hclose hmore hname ?_
    refine (hq close? hclose).of_eq (run_bind_of_ok (a := ()) ?_)
    refine (mergeBehind_congr moves_mergeBody (fun close? m v hv => ?_) line name).trans hrun
    have hlt : u.rest.length < c.rest.length := by
      obtain ⟨w, hw, hu⟩ := hname
      have hfinished := (Scan.moves_finished close?').length_le hmore
      have hline := Scan.moves_line.length_le hw
      have hname := Scan.shrinks_fieldName w name u hu
      omega
    exact (mergeFields_eq_mergeBody (by omega)).symm
  | @inside rounds i label member m m' c d c' hrounds hmember henters =>
    refine failsFrom_of_memberAt hrounds hmember ?_
    refine henters.fails (moves_mergeFields rounds) fun close hclose => ?_
    refine (hq (some close) (fun _ h => ?_)).of_eq (mergeFields_eq_mergeBody ?_)
    · cases h
      exact hclose
    · obtain ⟨close?', name, line, hfield, -, -⟩ := hmember
      have hlt := hfield.length_lt
      have hle := henters.length_le (moves_mergeFields rounds)
      omega
  | @expanded close?' url line type close m c d c' hfield hexpands hknown hopen =>
    intro close? hclose
    refine fails_of_fieldAt hclose hfield ?_
    refine .of_eq (.bind ?_) (mergeNamed_of_expands hexpands)
    rw [mergeExpanded, hknown]
    refine (Fails.read (Fails.alone (Scan.fails_block hopen (hq (some close) fun _ h => ?_)))).bind
    cases h
    exact hopen.endsBlock

/-! ## Places of names -/

/-- In front of a field of the message, which starts at the first place, or inside that field the
name of a field starts at the second place. The field may be a map entry, or be passed over. -/
inductive NameIn (options : ParseOptions) (m : Message) (c : Cursor) : Cursor → Prop
  /-- The name of the field itself. -/
  | field : NameIn options m c c
  /-- The name of a field of a map entry. -/
  | entry {rounds i number : Nat} {label mapName : String} {key : ScalarKind} {kind : FieldKind}
    {close : Char} {d u v : Cursor} (hrounds : c.rest.length ≤ rounds)
    (hmember : MemberAt m c label i (.map number mapName key kind) d)
    (hopen : Scan.Opens options.depthLimit close d u)
    (hsteps : ReflTransGen (Scan.NextEntryField (Scan.scalar key)
      (value options.depthLimit (mergeFields options rounds) kind) close) u v) :
    NameIn options m c v
  /-- The name of a field in a value that is passed over. -/
  | passed {close? : Option Char} {close : Char} {name : FieldName} {line : Nat} {d u : Cursor}
    {p : Option Char × Cursor} (hfield : Scan.FieldAt close? name line c d)
    (hdeclares : m.type.declares name = false) (hignores : options.ignores name = true)
    (hholds : Scan.Holds options.depthLimit d.sawColon d p)
    (hsteps : ReflTransGen (Scan.PassLeads options.depthLimit) p (some close, u)) :
    NameIn options m c u

/-- Merging fields into the message from the place on comes to the name of a field, which starts at
another place. -/
def ComesToName (options : ParseOptions) (p : Message × Cursor) (d : Cursor) : Prop :=
  ∃ m c, ReflTransGen (Leads options) p (m, c) ∧ NameIn options m c d

theorem NameIn.failsFrom (h : NameIn options m c d) (hfails : Scan.FailsAt d e place) :
    FailsFrom options (m, c) e place := by
  cases h with
  | field => exact fun close? hclose => ⟨m, hfails.mergeBody options hclose m⟩
  | @entry rounds i number label mapName key kind close d' u v hrounds hmember hopen hsteps =>
    refine failsFrom_of_memberAt hrounds hmember (Fails.read ?_).bind
    have hkey := Scan.moves_scalar key
    have hvalue : Moves id (value options.depthLimit (mergeFields options rounds) kind) :=
      moves_value (moves_mergeFields rounds) kind
    refine Scan.mapEntry_eq_error hopen ?_
    refine Scan.fails_entryLoop hkey hvalue hsteps (fun entry => ?_) _
    exact ⟨entry, hfails.entryLoop hkey hvalue hopen.endsBlock entry⟩
  | @passed close?' close name line d' u p hfield hdeclares hignores hholds hsteps =>
    intro close? hclose
    obtain ⟨u, v, hu, hname, hd⟩ := hfield
    refine fails_of_named hclose hu hname (.bind (.behind hd ?_))
    refine .of_eq ?_ (run_bind_of_ok (mergeNamed_of_undeclared hdeclares))
    rw [if_pos (by rfl), hignores, if_neg (by decide)]
    exact (Fails.read (hfails.passValue hholds hsteps)).bind

/-- Merging stops at each name it comes to that cannot be read. -/
theorem ComesToName.failsFrom {p : Message × Cursor} (h : ComesToName options p d)
    (hfails : Scan.FailsAt d e place) : FailsFrom options p e place := by
  obtain ⟨m, c, hsteps, hname⟩ := h
  induction hsteps using ReflTransGen.head_induction_on with
  | refl => exact hname.failsFrom hfails
  | head hstep _ ih => exact hstep.failsFrom ih

end

end Text

namespace Message

open Text

variable {options : ParseOptions} {type : MessageType} {text : String} {c place : Cursor}
  {e : Error}

/-- Parsing stops with the error at each name it comes to that cannot be read, whatever the options
ignore. -/
theorem parse_error_of_comesToName (h : ComesToName options (.new type, .new text) c)
    (hfails : Scan.FailsAt c e place) : parse options type text = .error e := by
  have hclose : ∀ close ∈ none, Scan.EndsBlock close :=
    fun close hmem => absurd hmem (Option.not_mem_none close)
  obtain ⟨m, hm⟩ := h.failsFrom hfails none hclose
  rw [parse, mergeText, hm]

end Message

end Protobuf
