import Protobuf.Proofs.Keeping
import Protobuf.Proofs.Spans
import Protobuf.Proofs.Text.SkippedValues
import Protobuf.Proofs.Text.UnknownNames

/-!
# Skipping what can be merged

Merging a field and skipping it follow the same text with two programs. What is merged into any
member is skipped up to the same place, but for one form: a list is only skipped behind a colon,
while repeated fields take lists without one (`Text.BareList`). So a text that is parsed as a
message of any type is passed over by a type without fields, unless merging comes to such a list
(`Message.parse_empty_of_parse`).
-/

namespace Protobuf

open Build Relation

variable {σ α κ ν : Type}

/-- The member is a field that is declared as repeated. -/
def Member.isRepeated : Member → Bool
  | packed .. | repeated _ => true
  | _ => false

namespace Text

/-! ## Lists without a colon -/

/-- A field that the message's type declares as repeated starts at the first place. A list opens at
the second one, with nothing but blanks and comments between the field's name and the list, so
without a colon. -/
def BareList (m : Message) (c d : Cursor) : Prop :=
  ∃ close? name line label i member u v, Scan.finished close? c = .ok false u ∧
    Scan.Names name line u v ∧ m.type.label? name = some label ∧
    Message.member? m.type (·.hasName label) = some (i, member) ∧ member.isRepeated = true ∧
    d = v.settle ∧ d.rest.head? = some (byte '[')

/-- Merging fields into the message from the place on comes to a list without a colon. -/
def ComesToBareList (options : ParseOptions) (p : Message × Cursor) (d : Cursor) : Prop :=
  ∃ m c, ReflTransGen (Leads options) p (m, c) ∧ BareList m c d

theorem ComesToBareList.head {options : ParseOptions} {p q : Message × Cursor} {d : Cursor}
    (hstep : Leads options p q) (h : ComesToBareList options q d) :
    ComesToBareList options p d := by
  obtain ⟨m, c, hsteps, hlist⟩ := h
  exact ⟨m, c, .head hstep hsteps, hlist⟩

/-! ## Values -/

/-- A value stands there: a scalar behind a colon, or a block that is passed over. -/
def ValueAt (lists : Cursor → Prop) (limit : Nat) (c c' : Cursor) : Prop :=
  (c.sawColon = true ∧ Scan.ScalarAt c c') ∨
    ((c.settle.rest.head? = some (byte '\x7b') ∨ c.settle.rest.head? = some (byte '<')) ∧
      Trails lists (Scan.passBlock limit) c.settle c')

/-- The value of a field is passed over, or nothing can be read behind it. -/
def Passed (lists : Cursor → Prop) (limit : Nat) (c c' : Cursor) : Prop :=
  Trails lists (Scan.passValue limit c.sawColon) c c' ∨ c'.Stuck

namespace Cursor

theorem sawColon_settle (c : Cursor) : c.settle.sawColon = c.sawColon := by
  have h : c.settle = c.settle.withColon c.sawColon := settle_withColon c c.sawColon
  calc c.settle.sawColon = (c.settle.withColon c.sawColon).sawColon := by rw [← h]
    _ = c.sawColon := rfl

end Cursor

namespace Scan

variable {lists : Cursor → Prop} {limit : Nat} {c c' d e : Cursor}

theorem passed_of_valueAt (h : ValueAt lists limit c c') : Passed lists limit c c' := by
  rw [Passed, passValue_eq]
  rcases h with ⟨hsaw, hstarts, hskip⟩ | ⟨hblock, htrails⟩
  · refine hskip.imp_left fun hskip => ?_
    have hne : ∀ b ∈ [byte '\x7b', byte '<', byte '['], c.settle.rest.head? ≠ some b := by
      intro b hb heq
      obtain ⟨hbrace, hangle, hbracket⟩ := hstarts b heq
      simp only [List.mem_cons, List.not_mem_nil, or_false] at hb
      rcases hb with hb | hb | hb
      · exact hbrace hb
      · exact hangle hb
      · exact hbracket hb
    refine .step ignores_atBlock (run_atBlock c) ?_
    rw [decide_eq_false (hne _ (by simp)), decide_eq_false (hne _ (by simp)), Bool.or_self,
      if_neg Bool.false_ne_true, hsaw, if_pos rfl]
    refine .step ignores_peek (run_peek _) ?_
    rw [Cursor.settle_settle, if_neg (hne _ (by simp))]
    exact .of_ok ignores_skipScalar hskip
  · refine .inl (.step ignores_atBlock (run_atBlock c) ?_)
    rw [if_pos (by simpa using hblock)]
    exact htrails

/-- The character ends a block. -/
def EndsBlock (close : Char) : Prop := close = '\x7d' ∨ close = '>'

theorem openBlock_eq_ok {close : Char} (h : openBlock c = .ok close d) :
    EndsBlock close ∧
      (c.settle.rest.head? = some (byte '\x7b') ∨ c.settle.rest.head? = some (byte '<')) := by
  obtain ⟨found, u, hu, hnext⟩ := bind_eq_ok.1 h
  cases found with
  | true =>
    cases hnext
    exact ⟨.inl rfl, .inl (tryChar_eq_true.1 hu).1⟩
  | false =>
    obtain ⟨-, rfl⟩ := tryChar_eq_false.1 hu
    obtain ⟨found, v, hv, hlast⟩ := bind_eq_ok.1 hnext
    cases found with
    | true =>
      cases hlast
      have hhead := (tryChar_eq_true.1 hv).1
      rw [Cursor.settle_settle] at hhead
      exact ⟨.inr rfl, .inr hhead⟩
    | false => cases hlast

theorem valueAt_of_block {close : Char} (hopen : openBlock c = .ok close d)
    (henter : enter limit d = .ok () e) (hfields : Trails lists (passFields limit close) e c') :
    ValueAt lists limit c c'.closed := by
  have hopen' : openBlock c.settle = .ok close d := (settles_openBlock c).trans hopen
  refine .inr ⟨(openBlock_eq_ok hopen).2, ?_⟩
  rw [passBlock_eq]
  refine .step ignores_openBlock hopen' (.step (ignores_enter limit) henter ?_)
  exact hfields.bind fun _ => .of_ok ignores_leave rfl

theorem valueAt_of_settle (h : ValueAt lists limit c.settle c') : ValueAt lists limit c c' := by
  rcases h with ⟨hsaw, hstarts, hskip⟩ | ⟨hblock, htrails⟩
  · rw [Cursor.sawColon_settle] at hsaw
    rw [Cursor.settle_settle] at hstarts hskip
    exact .inl ⟨hsaw, hstarts, hskip⟩
  · rw [Cursor.settle_settle] at hblock htrails
    exact .inr ⟨hblock, htrails⟩

/-! ## Lists -/

/-- Whatever is read from some of the places in texts of some length is a value. -/
structure ReadsValues (lists : Cursor → Prop) (limit length : Nat) (starts : Cursor → Prop)
    (x : Scan α) : Prop where
  /-- No bytes are made up. -/
  moves : Moves id x
  /-- What is read is a value. -/
  valueAt : ∀ {c c' : Cursor} {a : α}, starts c → c.rest.length ≤ length → x c = .ok a c' →
    ValueAt lists limit c c'

/-- An element is passed over, and what stands behind it, too. -/
theorem trails_element {f : Scan Unit} (h : ValueAt lists limit c d) (hstuck : ¬ d.Stuck)
    (hf : Trails lists f d c') :
    Trails lists (do
      if ← atBlock then passBlock limit else skipScalar
      f) c c' := by
  refine .step ignores_atBlock (run_atBlock c) ?_
  rcases h with ⟨-, hstarts, hskip⟩ | ⟨hblock, htrails⟩
  · have hscalar : ¬ (decide (c.settle.rest.head? = some (byte '\x7b')) ||
        decide (c.settle.rest.head? = some (byte '<'))) = true := by
      intro hblock
      rw [Bool.or_eq_true, decide_eq_true_eq, decide_eq_true_eq] at hblock
      rcases hblock with hblock | hblock
      · exact (hstarts _ hblock).1 rfl
      · exact (hstarts _ hblock).2.1 rfl
    rw [if_neg hscalar]
    exact .step ignores_skipScalar (hskip.resolve_right hstuck) hf
  · rw [if_pos (by simpa using hblock)]
    exact htrails.bind fun _ => hf

theorem trails_elements {length : Nat} {starts : Cursor → Prop} {x : Scan α}
    (hx : ReadsValues lists limit length starts x) (rounds : Nat) {l l' : List α}
    (hstarts : ∀ d, ReflTransGen (NextElement x) c d → starts d) (hlength : c.rest.length ≤ length)
    (hrounds : c.rest.length < rounds) (h : elements x rounds (l, c) = .ok () (l', c')) :
    Trails lists (passElements limit) c c' := by
  induction rounds generalizing c l with
  | zero => omega
  | succ rounds ih =>
    obtain ⟨a, d, hd, hupdate⟩ := read_bind_eq_ok.1 h
    rw [run_bind_of_ok (run_update _ l d)] at hupdate
    obtain ⟨found, u, hu, hlast⟩ := read_bind_eq_ok.1 hupdate
    have hle := hx.moves.length_le hd
    have htry := (moves_tryChar ']').length_le hu
    have hstuck : ¬ d.Stuck := by
      intro hstuck
      rw [tryChar_of_stuck hstuck (by decide)] at hu
      cases hu
      obtain ⟨_, v, hv, -⟩ := read_bind_eq_ok.1 hlast
      exact expect_of_stuck hstuck (by decide) v hv
    rw [passElements_eq]
    refine trails_element (hx.valueAt (hstarts c .refl) hlength hd) hstuck
      (.step (ignores_tryChar _) hu ?_)
    cases found with
    | true =>
      cases hlast
      exact .pure () _
    | false =>
      obtain ⟨_, v, hv, hloop⟩ := read_bind_eq_ok.1 hlast
      have hlt := shrinks_expect ',' u () v hv
      have hnext : NextElement x c v := ⟨a, d, u, hd, hu, hv⟩
      exact .step (ignores_expect _) hv
        (ih (fun e he => hstarts e (.head hnext he)) (by omega) (by omega) hloop)

theorem not_atBlock_of_bracket (h : c.rest.head? = some (byte '[')) :
    ¬ (decide (c.rest.head? = some (byte '\x7b')) ||
      decide (c.rest.head? = some (byte '<'))) = true := by
  rw [h]
  decide

/-- Without a colon a list is not skipped. -/
theorem givesUp_passValue {saw : Bool} (h : c.settle.rest.head? = some (byte '['))
    (hlist : lists (c.settle.withColon saw)) : GivesUp lists (passValue limit false) c := by
  refine ⟨c.settle.withColon saw, c.settle, hlist, ?_⟩
  rw [passValue_eq, valueTurn, run_bind_of_ok (run_atBlock c), if_neg (not_atBlock_of_bracket h)]
  rfl

/-- What is merged into a repeated field is passed over, where its values are read at places that
are known, and its list is one of those that are given up, if there is no colon. -/
theorem passed_of_repeated {length : Nat} {starts : Cursor → Prop} {x : Scan α}
    (hx : ReadsValues lists limit length starts x)
    (hsingle : ∀ d, tryChar '[' c = .ok false d → starts d)
    (helement : ∀ d e f, tryChar '[' c = .ok true d → tryChar ']' d = .ok false e →
      ReflTransGen (NextElement x) e f → starts f)
    (hlist : c.sawColon = false → c.settle.rest.head? = some (byte '[') →
      ∃ saw, lists (c.settle.withColon saw))
    {l l' : List α} (hlength : c.rest.length ≤ length)
    (h : repeated x (l, c) = .ok () (l', c')) : Passed lists limit c c' := by
  have hle := c.length_settle_le
  obtain ⟨found, d, hd, hnext⟩ := read_bind_eq_ok.1 h
  cases found with
  | false =>
    obtain rfl := (tryChar_eq_false.1 hd).2
    obtain ⟨a, u, hu, hlast⟩ := read_bind_eq_ok.1 hnext
    cases hlast
    exact passed_of_valueAt (valueAt_of_settle (hx.valueAt (hsingle _ hd) (by omega) hu))
  | true =>
    obtain ⟨hbracket, rfl⟩ := tryChar_eq_true.1 hd
    left
    cases hsaw : c.sawColon with
    | false =>
      intro saw
      obtain ⟨saw', hsaw'⟩ := hlist hsaw hbracket
      have hsettle : (c.withColon saw).settle = c.settle.withColon saw := c.settle_withColon saw
      have hgiven : lists ((c.withColon saw).settle.withColon saw') := by
        rw [hsettle]
        exact hsaw'
      refine .inr (givesUp_passValue ?_ hgiven)
      rw [hsettle]
      exact hbracket
    | true =>
      have hpeek := run_peek c.settle
      have hexpect : expect '[' c.settle = .ok () (c.settle.advance 1) := by
        have htry : tryChar '[' c.settle = .ok true (c.settle.advance 1) :=
          (settles_tryChar '[' c).trans hd
        exact run_bind_of_ok htry
      rw [Cursor.settle_settle] at hpeek
      rw [passValue_eq]
      refine .step ignores_atBlock (run_atBlock c) ?_
      rw [if_neg (not_atBlock_of_bracket hbracket), if_pos rfl]
      refine .step ignores_peek hpeek ?_
      rw [if_pos hbracket]
      refine .step (ignores_expect _) hexpect ?_
      obtain ⟨closed, u, hu, hlast⟩ := read_bind_eq_ok.1 hnext
      have hlt := (moves_tryChar ']').length_le hu
      refine .step (ignores_tryChar _) hu ?_
      cases closed with
      | true =>
        cases hlast
        exact .pure () _
      | false =>
        have hmore : u.rest.length ≤ length := by
          have hone := (moves_tryChar '[').length_le hd
          omega
        exact trails_elements hx _ (helement _ u · hd hu) hmore (Nat.lt_succ_self _) hlast

/-! ## Fields -/

theorem settles_fieldName : Settles fieldName := settles_peek.bind

/-- A name is read behind the blanks in front of it as it is in front of them. -/
theorem fieldName_of_line {line : Nat} {name : FieldName} (hline : Scan.line c = .ok line d)
    (hname : fieldName d = .ok name e) : fieldName c = .ok name e := by
  rw [run_line] at hline
  cases hline
  exact (settles_fieldName c).symm.trans hname

theorem colon_eq_ok (h : colon c = .ok () d) :
    ∃ saw u, tryChar ':' c = .ok saw u ∧ d = u.withColon saw := by
  obtain ⟨saw, u, hu, hnext⟩ := bind_eq_ok.1 h
  cases hnext
  exact ⟨saw, u, hu, rfl⟩

theorem EndsBlock.tryChar_of_stuck {close : Char} (h : EndsBlock close) (hstuck : c.Stuck) :
    tryChar close c = .ok false c := by
  rcases h with rfl | rfl
  · exact Scan.tryChar_of_stuck hstuck (by decide)
  · exact Scan.tryChar_of_stuck hstuck (by decide)

section

variable {name : FieldName} {u v w : Cursor}

/-- Behind a value that is passed over the fields go on. -/
theorem trails_behind {f : Scan Unit} (hpassed : Passed lists limit v w) (hstuck : ¬ w.Stuck)
    (hseparator : separator w = .ok () d) (hf : Trails lists f d c') :
    Trails lists (do
      passValue limit v.sawColon
      separator
      f) v c' :=
  (hpassed.resolve_right hstuck).bind fun _ => .step ignores_separator hseparator hf

/-- In a block fields are passed over one by one. -/
theorem trails_fields {close : Char} (hopen : tryChar close c = .ok false d)
    (hname : fieldName d = .ok name u) (hcolon : colon u = .ok () v)
    (hf : Trails lists (do
      passValue limit v.sawColon
      separator
      passFields limit close) v c') : Trails lists (passFields limit close) c c' := by
  obtain ⟨saw, t, ht, rfl⟩ := colon_eq_ok hcolon
  rw [passFields_eq]
  refine .step (ignores_tryChar close) hopen (.step ignores_fieldName hname ?_)
  refine .step (ignores_tryChar ':') ht ?_
  exact hf

theorem trails_fields_end {close : Char} (h : tryChar close c = .ok true c') :
    Trails lists (passFields limit close) c c' := by
  rw [passFields_eq]
  exact .step (ignores_tryChar close) h (.pure () c')

/-! ## Map entries -/

theorem entryFields_of_stuck {readKey : Scan κ} {readValue : Scan ν} {close : Char}
    (hclose : EndsBlock close) (hstuck : c.Stuck) {rounds : Nat} (hrounds : 0 < rounds)
    {entry : κ × ν} {p : (κ × ν) × Cursor} :
    entryFields readKey readValue close rounds (entry, c) ≠ .ok () p := by
  intro h
  obtain ⟨rounds, rfl⟩ := Nat.exists_eq_add_one_of_ne_zero (Nat.ne_of_gt hrounds)
  obtain ⟨ended, d, hd, hnext⟩ := read_bind_eq_ok.1 h
  rw [hclose.tryChar_of_stuck hstuck] at hd
  cases hd
  obtain ⟨line, u, hu, hnext⟩ := read_bind_eq_ok.1 hnext
  rw [run_line, hstuck.settle_eq] at hu
  cases hu
  obtain ⟨name, v, hv, -⟩ := read_bind_eq_ok.1 hnext
  exact fieldName_of_stuck hstuck name v hv

theorem trails_entryFields {length : Nat} {starts : Cursor → Prop} {readKey : Scan κ}
    {readValue : Scan ν} (hkey : ReadsValues lists limit length (fun _ => True) readKey)
    (hvalue : ReadsValues lists limit length starts readValue) {close : Char}
    (hclose : EndsBlock close) (rounds : Nat) {entry entry' : κ × ν}
    (hstarts : ∀ d e line, ReflTransGen (NextEntryField readKey readValue close) c d →
      EntryFieldAt close (.plain "value") line d e → starts e)
    (hlength : c.rest.length ≤ length) (hrounds : c.rest.length < rounds)
    (h : entryFields readKey readValue close rounds (entry, c) = .ok () (entry', c')) :
    Trails lists (passFields limit close) c c' := by
  induction rounds generalizing c entry with
  | zero => omega
  | succ rounds ih =>
    obtain ⟨ended, d, hd, hnext⟩ := read_bind_eq_ok.1 h
    have htry := (moves_tryChar close).length_le hd
    cases ended with
    | true =>
      cases hnext
      exact trails_fields_end hd
    | false =>
      obtain ⟨line, d', hline, hnext⟩ := read_bind_eq_ok.1 hnext
      obtain ⟨name, u, hu, hnext⟩ := read_bind_eq_ok.1 hnext
      obtain ⟨_, v, hv, hnext⟩ := read_bind_eq_ok.1 hnext
      have hfield : EntryFieldAt close name line c v := ⟨d, u, hd, ⟨d', hline, hu⟩, hv⟩
      have hu := fieldName_of_line hline hu
      have hname := shrinks_fieldName d name u hu
      have hcolon := moves_colon.length_le hv
      refine trails_fields hd hu hv ?_
      -- What stands behind the value of either field.
      have hbehind : ∀ {entry : κ × ν} {w : Cursor}, ValueAt lists limit v w →
          w.rest.length ≤ v.rest.length →
          (name = .plain "key" ∧ (∃ key, readKey v = .ok key w) ∨
            name = .plain "value" ∧ ∃ value, readValue v = .ok value w) → (do
            read separator
            entryFields readKey readValue close rounds : Build Cursor (κ × ν) Unit) (entry, w) =
              .ok () (entry', c') →
          Trails lists (do
            passValue limit v.sawColon
            separator
            passFields limit close) v c' := by
        intro entry w hw hle hread hrun
        obtain ⟨_, x, hx, hloop⟩ := read_bind_eq_ok.1 hrun
        have hseparator := moves_separator.length_le hx
        have hstep : NextEntryField readKey readValue close c x :=
          ⟨name, line, v, w, hfield, hread, hx⟩
        refine trails_behind (passed_of_valueAt hw) (fun hstuck => ?_) hx
          (ih (fun e f line he => hstarts e f line (.head hstep he)) (by omega) (by omega) hloop)
        rw [separator_of_stuck hstuck] at hx
        cases hx
        exact entryFields_of_stuck hclose hstuck (by omega) hloop
      by_cases hiskey : name = .plain "key"
      · rw [if_pos hiskey] at hnext
        obtain ⟨key, w, hw, hnext⟩ := read_bind_eq_ok.1 hnext
        rw [run_bind_of_ok (run_update _ entry w)] at hnext
        exact hbehind (hkey.valueAt trivial (by omega) hw) (hkey.moves.length_le hw)
          (.inl ⟨hiskey, key, hw⟩) hnext
      · rw [if_neg hiskey] at hnext
        by_cases hisvalue : name = .plain "value"
        · rw [if_pos hisvalue] at hnext
          obtain ⟨value, w, hw, hnext⟩ := read_bind_eq_ok.1 hnext
          rw [run_bind_of_ok (run_update _ entry w)] at hnext
          have hstart : starts v := hstarts c v line .refl (hisvalue ▸ hfield)
          exact hbehind (hvalue.valueAt hstart (by omega) hw) (hvalue.moves.length_le hw)
            (.inr ⟨hisvalue, value, hw⟩) hnext
        · rw [if_neg hisvalue] at hnext
          cases hnext

theorem valueAt_of_mapEntry {length : Nat} {starts : Cursor → Prop} {zero entry : κ × ν}
    {readKey : Scan κ} {readValue : Scan ν}
    (hkey : ReadsValues lists limit length (fun _ => True) readKey)
    (hvalue : ReadsValues lists limit length starts readValue)
    (hstarts : ∀ close d e f line, Opens limit close c d →
      ReflTransGen (NextEntryField readKey readValue close) d e →
      EntryFieldAt close (.plain "value") line e f → starts f)
    (hlength : c.rest.length ≤ length)
    (h : mapEntry limit zero readKey readValue c = .ok entry c') : ValueAt lists limit c c' := by
  obtain ⟨close, d, hd, hnext⟩ := bind_eq_ok.1 h
  obtain ⟨_, e, he, hnext⟩ := bind_eq_ok.1 hnext
  obtain ⟨entry', f, hf, hlast⟩ := bind_eq_ok.1 hnext
  cases hlast
  have hlt := length_lt_of_enter hd he
  have hrun := alone_eq_ok.1 hf
  rw [run_bind_of_ok (run_source _ e)] at hrun
  exact valueAt_of_block hd he (trails_entryFields hkey hvalue (openBlock_eq_ok hd).1 _
    (hstarts close e · · · ⟨d, hd, he⟩) (by omega) (Nat.lt_succ_self _) hrun)

end

end Scan

/-! ## Members -/

/-- In texts of less than some length, what is merged up to the end of a block is passed over, or
given up at one of the lists that belong to the message and the place where merging starts. -/
structure PassesBodies (inside : Message × Cursor → Cursor → Prop) (limit length : Nat)
    (body : MergeBody) : Prop where
  /-- No bytes are made up. -/
  moves : ∀ close?, Moves Prod.snd (body close?)
  /-- What is merged is passed over. -/
  trails : ∀ {close : Char} {m m' : Message} {c c' : Cursor}, Scan.EndsBlock close →
    c.rest.length < length → body (some close) (m, c) = .ok () (m', c') →
    Trails (inside (m, c)) (Scan.passFields limit close) c c'

section

variable {lists : Cursor → Prop} {inside : Message × Cursor → Cursor → Prop} {limit length : Nat}
  {body : MergeBody} {c c' : Cursor}

theorem readsValues_scalar {starts : Cursor → Prop} (kind : ScalarKind) :
    Scan.ReadsValues lists limit length starts (Scan.scalar kind) :=
  ⟨Scan.moves_scalar kind, fun _ _ h => .inl (Scan.scalarAt_of_scalar h)⟩

theorem valueAt_of_mergeBlock (hbody : PassesBodies inside limit length body)
    (hlength : c.rest.length ≤ length) {m m' : Message}
    (hinside : ∀ close d u, Scan.Opens limit close c d → inside (m, d) u → lists u)
    (h : block limit body (m, c) = .ok () (m', c')) : ValueAt lists limit c c' := by
  obtain ⟨close, d, hd, hnext⟩ := read_bind_eq_ok.1 h
  obtain ⟨_, e, he, hnext⟩ := read_bind_eq_ok.1 hnext
  obtain ⟨_, ⟨m', f⟩, hf, hlast⟩ := bind_eq_ok.1 hnext
  cases hlast
  have hlt := Scan.length_lt_of_enter hd he
  have htrails := hbody.trails (Scan.openBlock_eq_ok hd).1 (by omega) hf
  exact Scan.valueAt_of_block hd he (htrails.mono (hinside close e · ⟨d, hd, he⟩))

theorem readsValues_value (hbody : PassesBodies inside limit length body) (kind : FieldKind)
    {starts : Cursor → Prop}
    (hinside : ∀ type close c d u, starts c → kind.holds type → Scan.Opens limit close c d →
      inside (.new type, d) u → lists u) :
    Scan.ReadsValues lists limit length starts (value limit body kind) := by
  refine ⟨moves_value hbody.moves kind, fun {c c' v} hstart hlength h => ?_⟩
  cases kind with
  | scalar kind =>
    obtain ⟨s, hs, -⟩ := map_eq_ok.1 h
    exact .inl (Scan.scalarAt_of_scalar hs)
  | message type | group type =>
    obtain ⟨m, hm, -⟩ := map_eq_ok.1 h
    refine valueAt_of_mergeBlock hbody hlength (fun close d u => ?_) (alone_eq_ok.1 hm)
    exact hinside type close c d u hstart (by simp [FieldKind.holds])

/-- What is merged into a member that has a field with the name is passed over, or given up at one
of the lists inside the messages that merging enters, or at its own list. -/
theorem passed_of_mergeMember (hbody : PassesBodies inside limit length body)
    (hlength : c.rest.length ≤ length) {name : String} {member : Member}
    (hname : member.hasName name = true) {s s' : Slot Message}
    (henters : ∀ m d u, Enters limit body name member s c m d → inside (m, d) u → lists u)
    (hlist : member.isRepeated = true → c.sawColon = false →
      c.settle.rest.head? = some (byte '[') → ∃ saw, lists (c.settle.withColon saw))
    (h : mergeMember limit body name member (s, c) = .ok () (s', c')) :
    Passed lists limit c c' := by
  -- A value that is read where the member has one.
  have hvalue : ∀ kind, Scan.ReadsValues lists limit length
      (ReadsAt limit body name member c kind) (value limit body kind) := fun kind =>
    readsValues_value hbody kind fun type close d e u hread hholds hopen hu =>
      henters _ e u (.value hread hholds hopen) hu
  cases member with
  | plain number label kind =>
    obtain ⟨scalar, d, hd, hput⟩ := read_bind_eq_ok.1 h
    cases hput
    exact Scan.passed_of_valueAt (.inl (Scan.scalarAt_of_scalar hd))
  | optional field required =>
    rw [mergeMember] at h
    cases hkind : field.kind with
    | scalar kind =>
      rw [hkind] at h
      obtain ⟨scalar, d, hd, hput⟩ := read_bind_eq_ok.1 h
      cases hput
      exact Scan.passed_of_valueAt (.inl (Scan.scalarAt_of_scalar hd))
    | message type | group type =>
      rw [hkind] at h
      obtain ⟨m, hm, -⟩ := zoom_eq_ok.1 h
      have hholds : field.kind.holds type := by simp [FieldKind.holds, hkind]
      exact Scan.passed_of_valueAt (valueAt_of_mergeBlock hbody hlength
        (fun close d u hopen => henters _ d u (.optional hholds hopen)) hm)
  | packed number label kind =>
    rw [mergeMember] at h
    obtain ⟨scalars, hscalars, -⟩ := zoom_eq_ok.1 h
    have hscalar : Scan.ReadsValues lists limit length (fun _ => True) (Scan.scalar kind) :=
      readsValues_scalar kind
    exact Scan.passed_of_repeated hscalar (fun _ _ => trivial) (fun _ _ _ _ _ _ => trivial)
      (hlist rfl) hlength hscalars
  | repeated field =>
    rw [mergeMember] at h
    obtain ⟨values, hvalues, -⟩ := zoom_eq_ok.1 h
    exact Scan.passed_of_repeated (hvalue field.kind) (fun d => .single)
      (fun d e f hopen hmore => .element hopen hmore) (hlist rfl) hlength hvalues
  | map number label key kind =>
    obtain ⟨entry, d, hd, hupdate⟩ := read_bind_eq_ok.1 h
    cases hupdate
    exact Scan.passed_of_valueAt (Scan.valueAt_of_mapEntry (readsValues_scalar key) (hvalue kind)
      (fun close d e f line hopen hsteps hfield => .entry hopen hsteps hfield) hlength hd)
  | oneof fields =>
    rw [mergeMember] at h
    cases hfound : fields.find? (·.name = name) with
    | none =>
      obtain ⟨label, hlabel, hlabelName⟩ := List.any_eq_true.1 hname
      obtain ⟨field, hfield, rfl⟩ := List.mem_map.1 hlabel
      exact absurd hlabelName (List.find?_eq_none.1 hfound field hfield)
    | some field =>
      rw [hfound] at h
      obtain ⟨v, d, hd, hput⟩ := read_bind_eq_ok.1 h
      cases hput
      exact Scan.passed_of_valueAt ((hvalue field.kind).valueAt (.oneof hfound) hlength hd)
  | payload number label =>
    obtain ⟨b, d, hd, hput⟩ := read_bind_eq_ok.1 h
    cases hput
    obtain ⟨hsaw, hliteral⟩ := Scan.of_requireColon_bind hd
    exact Scan.passed_of_valueAt (.inl ⟨hsaw, Scan.scalarAt_of_stringLiteral hliteral⟩)

end

/-- A list behind the colon, or behind the name if there is none, of a field that is declared as
repeated. -/
theorem bareList_of_fieldAt {close? : Option Char} {name : FieldName} {line i : Nat}
    {label : String} {member : Member} {m : Message} {c d : Cursor}
    (hfield : Scan.FieldAt close? name line c d) (hlabel : m.type.label? name = some label)
    (hfound : Message.member? m.type (·.hasName label) = some (i, member))
    (hrepeated : member.isRepeated = true) (hsaw : d.sawColon = false)
    (hbracket : d.settle.rest.head? = some (byte '[')) :
    ∃ saw, BareList m c (d.settle.withColon saw) := by
  obtain ⟨u, v, hu, hv, hcolon⟩ := hfield
  obtain ⟨found, w, hw, rfl⟩ := Scan.colon_eq_ok hcolon
  obtain rfl : found = false := hsaw
  obtain rfl := (Scan.tryChar_eq_false.1 hw).2
  have hplace : ((v.settle.withColon false).settle).withColon v.sawColon = v.settle := by
    rw [Cursor.settle_withColon, Cursor.settle_settle, ← v.sawColon_settle]
    rfl
  refine ⟨v.sawColon, close?, name, line, label, i, member, u, v, hu, hv, hlabel, hfound, hrepeated,
    hplace, ?_⟩
  exact hbracket

section

variable {options : ParseOptions} {rounds length : Nat} {c d d' : Cursor}

/-- A field that the type declares is passed over, or given up at a list without a colon, and
another one is left unread. -/
theorem passed_of_mergeNamed
    (hbody : PassesBodies (ComesToBareList options) options.depthLimit length
      (mergeFields options rounds))
    (hlength : d.rest.length ≤ length) (hrounds : c.rest.length ≤ rounds) {close? : Option Char}
    {name : FieldName} {line : Nat} (hfield : Scan.FieldAt close? name line c d) {declared : Bool}
    {m m' : Message}
    (h : mergeNamed options (mergeFields options rounds) name (m, d) = .ok declared (m', d')) :
    if declared = true then Passed (ComesToBareList options (m, c)) options.depthLimit d d'
    else d' = d := by
  rcases mergeNamed_cases options (mergeFields options rounds) name m d with
    ⟨label, i, member, hlabel, hfound, hrun⟩ | ⟨url, rfl, hexpands, hrun⟩ | ⟨-, hrun⟩
  · rw [hrun] at h
    obtain ⟨_, ⟨m1, e⟩, hslot, hpure⟩ := bind_eq_ok.1 h
    cases hpure
    obtain ⟨s, hs, -⟩ := zoom_eq_ok.1 hslot
    have hmember : MemberAt m c label i member d := ⟨close?, name, line, hfield, hlabel, hfound⟩
    refine passed_of_mergeMember hbody hlength (Message.test_of_member? hfound)
      (fun m' e u henters hu => hu.head (.inside hrounds hmember henters))
      (fun hrepeated hsaw hbracket => ?_) hs
    obtain ⟨saw, hbare⟩ := bareList_of_fieldAt hfield hlabel hfound hrepeated hsaw hbracket
    exact ⟨saw, m, c, .refl, hbare⟩
  · rw [hrun] at h
    obtain ⟨_, ⟨m1, e⟩, hexpanded, hpure⟩ := bind_eq_ok.1 h
    cases hpure
    rw [mergeExpanded] at hexpanded
    cases hknown : options.known?.bind (·.lookup? url) with
    | none =>
      rw [hknown] at hexpanded
      cases hexpanded
    | some type =>
      rw [hknown] at hexpanded
      obtain ⟨payload, e, he, hupdate⟩ := read_bind_eq_ok.1 hexpanded
      cases hupdate
      exact Scan.passed_of_valueAt (valueAt_of_mergeBlock hbody hlength
        (fun close e u hopen hu => hu.head (.expanded hfield hexpands hknown hopen))
        (alone_eq_ok.1 he))
  · rw [hrun] at h
    cases h
    rfl

end

/-! ## Messages -/

variable {options : ParseOptions}

namespace Scan

/-- Passes over fields up to a closing character or the end of the text. -/
def passUntil (options : ParseOptions) : Option Char → Scan Unit
  | none => passText options.ignoringAll
  | some close => passFields options.depthLimit close

variable {lists : Cursor → Prop} {close? : Option Char} {c c' d e u v w : Cursor}

theorem trails_finished (h : finished close? c = .ok true c') :
    Trails lists (passUntil options close?) c c' := by
  cases close? with
  | none =>
    rw [passUntil, passText_eq]
    exact .step (ignores_peek.bind fun _ => .pure _) h (.pure () c')
  | some close =>
    obtain ⟨found, d, hd, hnext⟩ := bind_eq_ok.1 h
    cases found with
    | true =>
      cases hnext
      exact trails_fields_end hd
    | false =>
      obtain ⟨next, e, he, hlast⟩ := bind_eq_ok.1 hnext
      cases next <;> cases hlast

/-- What colon was remembered before is of no importance where the next one is read. -/
theorem colon_withColon (h : colon c = .ok () d) (saw : Bool) :
    colon (c.withColon saw) = .ok () d := by
  obtain ⟨found, u, hu, rfl⟩ := colon_eq_ok h
  have hrun : tryChar ':' (c.withColon saw) = .ok found (u.withColon saw) := by
    rw [ignores_tryChar ':' c saw, hu]
    rfl
  rw [colon, run_bind_of_ok hrun]
  rfl

/-- Fields are passed over one by one, up to whatever end. -/
theorem trails_until {line : Nat} {name : FieldName} (hfinished : finished close? c = .ok false d)
    (hline : Scan.line d = .ok line e) (hname : fieldName e = .ok name u)
    (hcolon : colon u = .ok () v)
    (hf : Trails lists (do
      passValue options.depthLimit v.sawColon
      separator
      passUntil options close?) v c') : Trails lists (passUntil options close?) c c' := by
  cases close? with
  | some close =>
    obtain ⟨found, t, ht, hnext⟩ := bind_eq_ok.1 hfinished
    cases found with
    | true => cases hnext
    | false =>
      obtain ⟨next, t', ht', hlast⟩ := bind_eq_ok.1 hnext
      rw [run_peek] at ht'
      cases ht'
      have hd : d = t.settle := by
        cases hhead : t.settle.rest.head? <;> rw [hhead] at hlast <;> cases hlast
        rfl
      subst hd
      have hsettled : fieldName t.settle = .ok name u := fieldName_of_line hline hname
      exact trails_fields ht ((settles_fieldName t).symm.trans hsettled) hcolon hf
  | none =>
    rw [passUntil, passText_eq]
    refine .step (ignores_peek.bind fun _ => .pure _) hfinished ?_
    refine .step ignores_line hline (.step ignores_fieldName hname ?_)
    intro saw
    have hrun : (do
        colon
        if !options.ignoringAll.ignores name then throw (.unknownField name.display line)
        passValue options.depthLimit (← get).sawColon
        separator
        passText options.ignoringAll : Scan Unit) (u.withColon saw) =
      (do
        passValue options.depthLimit v.sawColon
        separator
        passText options.ignoringAll : Scan Unit) (v.withColon v.sawColon) := by
      rw [run_bind_of_ok (colon_withColon hcolon saw), ParseOptions.ignores_ignoringAll]
      rfl
    rcases hf v.sawColon with ⟨b, saw', hb⟩ | ⟨t, t', ht, hlist⟩
    · exact .inl ⟨b, saw', hrun.trans hb⟩
    · exact .inr ⟨t, t', ht, hrun.trans hlist⟩

theorem finished_of_stuck (hclose : ∀ close ∈ close?, EndsBlock close) (h : c.Stuck) :
    finished close? c = .ok false c := by
  have hpeek : ∃ b, peek c = .ok (some b) c := by
    rw [run_peek, h.settle_eq]
    obtain ⟨b, hb, -⟩ := h
    exact ⟨b, by rw [hb]⟩
  obtain ⟨b, hpeek⟩ := hpeek
  cases close? with
  | none => exact run_bind_of_ok hpeek
  | some close =>
    rw [finished, run_bind_of_ok ((hclose close rfl).tryChar_of_stuck h)]
    exact run_bind_of_ok hpeek

end Scan

theorem mergeFields_of_stuck {rounds : Nat} {close? : Option Char}
    (hclose : ∀ close ∈ close?, Scan.EndsBlock close) (hrounds : 0 < rounds) {m : Message}
    {c : Cursor} (hstuck : c.Stuck) {p : Message × Cursor} :
    mergeFields options rounds close? (m, c) ≠ .ok () p := by
  intro h
  obtain ⟨rounds, rfl⟩ := Nat.exists_eq_add_one_of_ne_zero (Nat.ne_of_gt hrounds)
  obtain ⟨ended, d, hd, hnext⟩ := read_bind_eq_ok.1 h
  rw [Scan.finished_of_stuck hclose hstuck] at hd
  cases hd
  obtain ⟨line, u, hu, hnext⟩ := read_bind_eq_ok.1 hnext
  rw [Scan.run_line, hstuck.settle_eq] at hu
  cases hu
  obtain ⟨name, v, hv, -⟩ := read_bind_eq_ok.1 hnext
  exact Scan.fieldName_of_stuck hstuck name v hv

/-- What stands behind a name is passed over, whether the name is declared or not. -/
theorem passed_of_mergeBehind {rounds length : Nat}
    (hbody : PassesBodies (ComesToBareList options) options.depthLimit length
      (mergeFields options rounds))
    {close? : Option Char} {line : Nat} {name : FieldName} {m m' : Message} {c d e d' : Cursor}
    (hlength : e.rest.length ≤ length) (hrounds : c.rest.length ≤ rounds)
    (hmore : Scan.finished close? c = .ok false d) (hname : Scan.Names name line d e)
    (h : mergeBehind options (mergeFields options rounds) line name (m, e) = .ok () (m', d')) :
    ∃ v w, Scan.colon e = .ok () v ∧
      Passed (ComesToBareList options (m, c)) options.depthLimit v w ∧
      Scan.separator w = .ok () d' := by
  obtain ⟨_, v, hv, hnext⟩ := read_bind_eq_ok.1 h
  obtain ⟨declared, ⟨m1, w⟩, hw, hbehind⟩ := bind_eq_ok.1 hnext
  have hle := Scan.moves_colon.length_le hv
  have hfield : Scan.FieldAt close? name line c v := ⟨d, e, hmore, hname, hv⟩
  have hcases := passed_of_mergeNamed hbody (by omega) hrounds hfield hw
  refine ⟨v, ?_⟩
  cases declared with
  | true =>
    obtain ⟨hseparator, -⟩ := read_eq_ok.1 hbehind
    exact ⟨w, hv, hcases, hseparator⟩
  | false =>
    have hw : w = v := hcases
    rw [hw, Bool.not_false, if_pos rfl] at hbehind
    cases hignores : options.ignores name with
    | false =>
      rw [hignores] at hbehind
      cases hbehind
    | true =>
      rw [hignores] at hbehind
      obtain ⟨_, x, hx, hlast⟩ := read_bind_eq_ok.1 hbehind
      obtain ⟨hseparator, -⟩ := read_eq_ok.1 hlast
      exact ⟨x, hv, .inl (.of_ok (Scan.ignores_passValue _ _) hx), hseparator⟩

/-- What is merged is passed over up to the same place, or given up at a list without a colon to
which merging comes. -/
theorem trails_mergeFields (rounds : Nat) {close? : Option Char}
    (hclose : ∀ close ∈ close?, Scan.EndsBlock close) {m m' : Message} {c c' : Cursor}
    (hrounds : c.rest.length < rounds)
    (h : mergeFields options rounds close? (m, c) = .ok () (m', c')) :
    Trails (ComesToBareList options (m, c)) (Scan.passUntil options close?) c c' := by
  induction rounds generalizing close? m c m' c' with
  | zero => omega
  | succ rounds ih =>
    have hbody : PassesBodies (ComesToBareList options) options.depthLimit rounds
        (mergeFields options rounds) := by
      refine ⟨moves_mergeFields rounds, fun {close m m' c c'} hends hlt hrun => ?_⟩
      refine ih (fun close' (hclose' : close' ∈ some close) => ?_) hlt hrun
      obtain rfl := Option.some.inj hclose'
      exact hends
    rw [mergeFields_succ] at h
    obtain ⟨ended, d, hd, hnext⟩ := read_bind_eq_ok.1 h
    cases ended with
    | true =>
      cases hnext
      exact Scan.trails_finished hd
    | false =>
      obtain ⟨line, e, he, hnext⟩ := read_bind_eq_ok.1 hnext
      obtain ⟨name, u, hu, hnext⟩ := read_bind_eq_ok.1 hnext
      obtain ⟨_, ⟨m1, x⟩, hx, hloop⟩ := bind_eq_ok.1 hnext
      have hfinished := (Scan.moves_finished close?).length_le hd
      have hline := Scan.moves_line.length_le he
      have hname := Scan.shrinks_fieldName e name u hu
      have hbehind : x.rest.length ≤ u.rest.length :=
        ((moves_mergeBehind (moves_mergeFields rounds) line name (m, u)).before hx).length_le
      have hnames : Scan.Names name line d u := ⟨e, he, hu⟩
      have hstep : Leads options (m, c) (m1, x) := .next (by omega) hd hnames hx
      have hrest := (ih hclose (by omega) hloop).mono fun u hu => hu.head hstep
      obtain ⟨v, w, hv, hpassed, hseparator⟩ :=
        passed_of_mergeBehind hbody (by omega) (by omega) hd hnames hx
      refine Scan.trails_until hd he hu hv
        (Scan.trails_behind hpassed (fun hstuck => ?_) hseparator hrest)
      rw [Scan.separator_of_stuck hstuck] at hseparator
      cases hseparator
      exact mergeFields_of_stuck hclose (by omega) hstuck hloop

end Text

namespace Message

open Text

/-- A text that is parsed as a message of any type is passed over by a type without fields, where
all undeclared fields are ignored, up to the end or to a list without a colon. Merging comes to that
list behind the name of a field that is declared as repeated, in the message itself or in one that
it holds: repeated fields take such a list, but it is not skipped. -/
theorem parse_empty_of_parse (options : ParseOptions) (type : MessageType) (text : String)
    (m : Message) (h : parse options type text = .ok m) :
    parse options.ignoringAll .empty text = .ok (.new .empty) ∨
      ∃ c : Cursor, ComesToBareList options (.new type, .new text) c ∧
        parse options.ignoringAll .empty text =
          .error (.malformedText c.line (c.position - c.lineStart + 1) .expectedColonOrBlock) := by
  obtain ⟨c', hmerge⟩ := mergeBody_of_parse h
  rw [Text.mergeBody, run_bind_of_ok (run_source _ _)] at hmerge
  have htrails : Trails (ComesToBareList options (.new type, .new text))
      (Scan.passText options.ignoringAll) (.new text) c' :=
    trails_mergeFields _ (fun close hclose => absurd hclose (Option.not_mem_none close))
      (Nat.lt_succ_self _) hmerge
  rw [parse_empty]
  rcases htrails false with ⟨_, saw, hrun⟩ | ⟨c, d, hc, hrun⟩
  · have hrun : Scan.passText options.ignoringAll (.new text) = .ok _ (c'.withColon saw) := hrun
    rw [hrun]
    exact .inl rfl
  · have hrun : Scan.passText options.ignoringAll (.new text) = .error _ d := hrun
    rw [hrun]
    exact .inr ⟨c, hc, rfl⟩

/-- Behind a colon a list of blocks is skipped. -/
theorem parse_empty_of_parse_list :
    parse { allowPartial := true } .requiredForeign "repeated_message: [\x7b\x7d, < >] dummy: 7" =
        .ok ⟨.requiredForeign, [.optional none,
          .repeated [.message (.new .required), .message (.new .required)],
          .optional (some (.scalar (.int32 7))), .map [], .optional none], []⟩ ∧
      parse (ParseOptions.ignoringAll { allowPartial := true }) .empty
        "repeated_message: [\x7b\x7d, < >] dummy: 7" = .ok (.new .empty) := by
  have h : parse { allowPartial := true } .requiredForeign
      "repeated_message: [\x7b\x7d, < >] dummy: 7" =
        .ok ⟨.requiredForeign, [.optional none,
          .repeated [.message (.new .required), .message (.new .required)],
          .optional (some (.scalar (.int32 7))), .map [], .optional none], []⟩ := rfl
  refine ⟨h, ?_⟩
  rcases parse_empty_of_parse _ _ _ _ h with hskip | ⟨c, -, hlist⟩
  · exact hskip
  · cases hlist

/-- Without a colon the same list is merged where its field is declared, and not skipped. -/
theorem parse_bare_list :
    parse { allowPartial := true } .requiredForeign "repeated_message [\x7b\x7d]" =
        .ok ⟨.requiredForeign, [.optional none, .repeated [.message (.new .required)],
          .optional none, .map [], .optional none], []⟩ ∧
      parse (ParseOptions.ignoringAll { allowPartial := true }) .empty
        "repeated_message [\x7b\x7d]" = .error (.malformedText 1 18 .expectedColonOrBlock) :=
  ⟨rfl, rfl⟩

end Message

end Protobuf
