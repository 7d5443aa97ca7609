import Protobuf.Proofs.Text.Progress

/-!
# The nesting limit of text

Of two parsers that differ in their limits only, the one with the lower limit does what the other
one does, until it gives up because a block lies too deep (`Text.CutsOff`). Blocks are counted in
messages and groups, in expanded payloads, in map entries and in what is skipped. In all of them a
block that was opened and read is closed again, so closing never finds none open
(`Text.parse_depthLimit`).
-/

namespace Protobuf

open Build

variable {σ τ α β : Type}

namespace Text

/-! ## A lower and a higher limit -/

/-- From every state on, the first action does what the second one does, unless it gives up for its
limit. -/
def CutsOff (limit : Nat) (x y : EStateM Error σ α) : Prop :=
  ∀ s, x s = y s ∨ ∃ t, x s = .error (.textDepthLimit limit) t

namespace CutsOff

variable {limit : Nat}

theorem refl (x : EStateM Error σ α) : CutsOff limit x x := fun _ => .inl rfl

theorem bind {x y : EStateM Error σ α} {f g : α → EStateM Error σ β} (hx : CutsOff limit x y)
    (hf : ∀ a, CutsOff limit (f a) (g a)) : CutsOff limit (x >>= f) (y >>= g) := by
  intro s
  rcases hx s with h | ⟨t, h⟩
  · rw [run_bind, run_bind, ← h]
    cases x s with
    | ok a t => exact hf a t
    | error e t => exact .inl rfl
  · exact .inr ⟨t, run_bind_of_error h⟩

/-- What is done first does not depend on the limit. -/
theorem after (x : EStateM Error σ α) {f g : α → EStateM Error σ β}
    (hf : ∀ a, CutsOff limit (f a) (g a)) : CutsOff limit (x >>= f) (x >>= g) := (refl x).bind hf

theorem ite {p : Prop} [Decidable p] {x x' y y' : EStateM Error σ α} (hx : CutsOff limit x x')
    (hy : CutsOff limit y y') : CutsOff limit (if p then x else y) (if p then x' else y') := by
  split
  · exact hx
  · exact hy

theorem map {x y : EStateM Error σ α} (f : α → β) (h : CutsOff limit x y) :
    CutsOff limit (f <$> x) (f <$> y) := by
  rw [map_eq_bind, map_eq_bind]
  exact h.bind fun _ => refl _

theorem read {x y : Scan α} (h : CutsOff limit x y) :
    CutsOff limit (read x : Build Cursor σ α) (read y) := by
  rintro ⟨s, c⟩
  rw [run_read, run_read]
  rcases h c with h | ⟨d, h⟩
  · rw [h]
    exact .inl rfl
  · rw [h]
    exact .inr ⟨_, rfl⟩

theorem zoom {part : σ → τ} {put : σ → τ → σ} {x y : Build Cursor τ α} (h : CutsOff limit x y) :
    CutsOff limit (zoom part put x) (zoom part put y) := by
  rintro ⟨s, c⟩
  rw [run_zoom, run_zoom]
  rcases h (part s, c) with h | ⟨d, h⟩
  · rw [h]
    exact .inl rfl
  · rw [h]
    exact .inr ⟨_, rfl⟩

theorem alone {s : σ} {x y : Build Cursor σ Unit} (h : CutsOff limit x y) :
    CutsOff limit (alone s x) (alone s y) := by
  intro c
  rw [run_alone, run_alone]
  rcases h (s, c) with h | ⟨d, h⟩
  · rw [h]
    exact .inl rfl
  · rw [h]
    exact .inr ⟨_, rfl⟩

end CutsOff

namespace Scan

variable {limit limit' : Nat}

theorem cutsOff_enter (h : limit ≤ limit') : CutsOff limit (enter limit) (enter limit') := by
  intro c
  by_cases hd : c.depth + 1 ≤ limit
  · rw [enter_of_le hd, enter_of_le (Nat.le_trans hd h)]
    exact .inl rfl
  · exact .inr ⟨_, enter_of_limit_lt (Nat.lt_of_not_le hd)⟩

theorem cutsOff_skip (h : limit ≤ limit') (rounds : Nat) :
    (∀ sawColon, CutsOff limit (skipValue limit rounds sawColon)
      (skipValue limit' rounds sawColon)) ∧
    CutsOff limit (skipBlock limit rounds) (skipBlock limit' rounds) ∧
    (∀ close, CutsOff limit (skipFields limit close rounds) (skipFields limit' close rounds)) ∧
    CutsOff limit (skipElements limit rounds) (skipElements limit' rounds) := by
  induction rounds with
  | zero => exact ⟨fun _ => .refl _, .refl _, fun _ => .refl _, .refl _⟩
  | succ rounds ih =>
    obtain ⟨hvalue, hblock, hfields, helements⟩ := ih
    refine ⟨fun sawColon => ?_, ?_, fun close => ?_, ?_⟩
    · refine .after _ fun _ => .ite hblock (.ite ?_ (.refl _))
      exact .after _ fun _ => .ite (.after _ fun _ => .after _ fun _ =>
        .ite helements (.refl _)) (.refl _)
    · exact .after _ fun close => (cutsOff_enter h).bind fun _ =>
        (hfields close).bind fun _ => .refl _
    · exact .after _ fun _ => .ite (.after _ fun _ => .after _ fun sawColon =>
        (hvalue sawColon).bind fun _ => .after _ fun _ => hfields close) (.refl _)
    · have hrest : CutsOff limit (do
          if !(← tryChar ']') then
            expect ','
            skipElements limit rounds : Scan Unit) (do
          if !(← tryChar ']') then
            expect ','
            skipElements limit' rounds) :=
        .after _ fun _ => .ite (.after _ fun _ => helements) (.refl _)
      exact .after _ fun _ => .ite (hblock.bind fun _ => hrest) (.after _ fun _ => hrest)

theorem cutsOff_skipValue (h : limit ≤ limit') (rounds : Nat) (sawColon : Bool) :
    CutsOff limit (skipValue limit rounds sawColon) (skipValue limit' rounds sawColon) :=
  (cutsOff_skip h rounds).1 sawColon

theorem cutsOff_elements {x y : Scan α} (h : CutsOff limit x y) (rounds : Nat) :
    CutsOff limit (elements x rounds) (elements y rounds) := by
  induction rounds with
  | zero => exact .refl _
  | succ rounds ih =>
    exact (CutsOff.read h).bind fun _ => .after _ fun _ => .after _ fun _ =>
      .ite (.after _ fun _ => ih) (.refl _)

theorem cutsOff_repeated {x y : Scan α} (h : CutsOff limit x y) :
    CutsOff limit (repeated x) (repeated y) := by
  refine .after _ fun _ => .ite ?_ ((CutsOff.read h).bind fun _ => .refl _)
  exact .after _ fun _ => .ite (.after _ fun _ => cutsOff_elements h _) (.refl _)

variable {κ ν : Type}

theorem cutsOff_entryFields {readKey : Scan κ} {readValue readValue' : Scan ν}
    (hv : CutsOff limit readValue readValue') (close : Char) (rounds : Nat) :
    CutsOff limit (entryFields readKey readValue close rounds)
      (entryFields readKey readValue' close rounds) := by
  induction rounds with
  | zero => exact .refl _
  | succ rounds ih =>
    have hrest : CutsOff limit (do
        Build.read separator
        entryFields readKey readValue close rounds : Build Cursor (κ × ν) Unit) (do
        Build.read separator
        entryFields readKey readValue' close rounds) :=
      .after _ fun _ => ih
    refine .after _ fun _ => .ite (.after _ fun _ => .after _ fun _ => .after _ fun _ => ?_)
      (.refl _)
    refine .ite (.after _ fun _ => .after _ fun _ => hrest) (.ite ?_ (.after _ fun _ => hrest))
    exact (CutsOff.read hv).bind fun _ => .after _ fun _ => hrest

theorem cutsOff_mapEntry (h : limit ≤ limit') (zero : κ × ν) {readKey : Scan κ}
    {readValue readValue' : Scan ν} (hv : CutsOff limit readValue readValue') :
    CutsOff limit (mapEntry limit zero readKey readValue)
      (mapEntry limit' zero readKey readValue') := by
  refine .after _ fun close => (cutsOff_enter h).bind fun _ =>
    (CutsOff.alone ?_).bind fun _ => .refl _
  exact .after _ fun _ => cutsOff_entryFields hv close _

end Scan

section

variable {limit limit' : Nat} {body body' : MergeBody}

theorem cutsOff_block (h : limit ≤ limit')
    (hbody : ∀ close?, CutsOff limit (body close?) (body' close?)) :
    CutsOff limit (block limit body) (block limit' body') :=
  .after _ fun close => (CutsOff.read (Scan.cutsOff_enter h)).bind fun _ =>
    (hbody (some close)).bind fun _ => .refl _

theorem cutsOff_value (h : limit ≤ limit')
    (hbody : ∀ close?, CutsOff limit (body close?) (body' close?)) (kind : FieldKind) :
    CutsOff limit (value limit body kind) (value limit' body' kind) := by
  cases kind with
  | scalar kind => exact .refl _
  | message type | group type => exact (CutsOff.alone (cutsOff_block h hbody)).map _

theorem cutsOff_mergeMember (h : limit ≤ limit')
    (hbody : ∀ close?, CutsOff limit (body close?) (body' close?)) (name : String)
    (member : Member) :
    CutsOff limit (mergeMember limit body name member) (mergeMember limit' body' name member) := by
  have hvalue := cutsOff_value h hbody
  cases member with
  | plain number label kind => exact .refl _
  | optional field required =>
    rw [mergeMember, mergeMember]
    cases field.kind with
    | scalar kind => exact .refl _
    | message type | group type => exact .zoom (cutsOff_block h hbody)
  | packed number label kind =>
    rw [mergeMember, mergeMember]
    exact .refl _
  | repeated field =>
    rw [mergeMember, mergeMember]
    exact .zoom (Scan.cutsOff_repeated (hvalue field.kind))
  | map number label key kind =>
    exact (CutsOff.read (Scan.cutsOff_mapEntry h _ (hvalue kind))).bind fun _ => .refl _
  | oneof fields =>
    rw [mergeMember, mergeMember]
    cases fields.find? (·.name = name) with
    | none => exact .refl _
    | some field => exact (CutsOff.read (hvalue field.kind)).bind fun _ => .refl _
  | payload number label => exact .refl _

theorem cutsOff_mergeField (h : limit ≤ limit')
    (hbody : ∀ close?, CutsOff limit (body close?) (body' close?)) (name : String) :
    CutsOff limit (mergeField limit body name) (mergeField limit' body' name) := by
  rintro ⟨m, c⟩
  rw [mergeField, mergeField]
  cases Message.member? m.type (·.hasName name) with
  | none => exact .inl rfl
  | some found =>
    obtain ⟨i, member⟩ := found
    have hslot : CutsOff limit
        (do Message.atSlot i member (mergeMember limit body name member); pure true)
        (do Message.atSlot i member (mergeMember limit' body' name member); pure true) :=
      (CutsOff.zoom (cutsOff_mergeMember h hbody name member)).bind fun _ => .refl _
    exact hslot (m, c)

variable {options options' : ParseOptions}

theorem cutsOff_mergeNamed (h : options.depthLimit ≤ options'.depthLimit)
    (hknown : options'.known? = options.known?)
    (hbody : ∀ close?, CutsOff options.depthLimit (body close?) (body' close?))
    (name : FieldName) :
    CutsOff options.depthLimit (mergeNamed options body name) (mergeNamed options' body' name) := by
  refine .after _ fun m => ?_
  cases name with
  | plain name => exact cutsOff_mergeField h hbody name
  | number number =>
    dsimp only
    cases m.type.textName? number with
    | none => exact .refl _
    | some name => exact cutsOff_mergeField h hbody name
  | bracketed url =>
    have hexpanded : CutsOff options.depthLimit (mergeExpanded options body url)
        (mergeExpanded options' body' url) := by
      unfold mergeExpanded
      rw [hknown]
      cases options.known?.bind (·.lookup? url) with
      | none => exact .refl _
      | some type => exact (CutsOff.read (.alone (cutsOff_block h hbody))).bind fun _ => .refl _
    exact .ite (.ite (hexpanded.bind fun _ => .refl _) (.refl _)) (cutsOff_mergeField h hbody _)

end

variable {options : ParseOptions} {limit : Nat}

theorem cutsOff_mergeFields (h : options.depthLimit ≤ limit) (rounds : Nat)
    (close? : Option Char) :
    CutsOff options.depthLimit (mergeFields options rounds close?)
      (mergeFields { options with depthLimit := limit } rounds close?) := by
  induction rounds generalizing close? with
  | zero => exact .refl _
  | succ rounds ih =>
    have hrest : CutsOff options.depthLimit (do
        read Scan.separator
        mergeFields options rounds close? : Build Cursor Message Unit) (do
        read Scan.separator
        mergeFields { options with depthLimit := limit } rounds close?) :=
      .after _ fun _ => ih close?
    have hskip : CutsOff options.depthLimit (do
        let c ← source
        read (Scan.skipValue options.depthLimit (2 * c.rest.length + 2) c.sawColon)
        read Scan.separator
        mergeFields options rounds close? : Build Cursor Message Unit) (do
        let c ← source
        read (Scan.skipValue limit (2 * c.rest.length + 2) c.sawColon)
        read Scan.separator
        mergeFields { options with depthLimit := limit } rounds close?) :=
      .after _ fun _ => (CutsOff.read (Scan.cutsOff_skipValue h _ _)).bind fun _ => hrest
    refine .after _ fun _ => .ite ?_ (.refl _)
    refine .after _ fun line => .after _ fun name => .after _ fun _ => ?_
    let options' := { options with depthLimit := limit }
    have hlimit : options.depthLimit ≤ options'.depthLimit := h
    refine (cutsOff_mergeNamed hlimit rfl ih name).bind fun _ => .ite ?_ hrest
    cases name <;> exact .ite (.after _ fun _ => hskip) hskip

theorem cutsOff_mergeBody (h : options.depthLimit ≤ limit) (close? : Option Char) :
    CutsOff options.depthLimit (mergeBody options close?)
      (mergeBody { options with depthLimit := limit } close?) :=
  .after _ fun _ => cutsOff_mergeFields h _ close?

/-! ## Closing what was opened -/

namespace Scan

/-- Closes a block if one is open. -/
def leaveOr (stuck : Scan Unit) : Scan Unit := fun c => if 0 < c.depth then leave c else stuck c

theorem leaveOr_of_pos (stuck : Scan Unit) {c : Cursor} (h : 0 < c.depth) :
    leaveOr stuck c = leave c := if_pos h

/-- After a block has been opened and read there is one to close. -/
theorem enter_congr {limit : Nat} {x : Scan α} {f g : α → Scan β} (hx : Moves id x)
    (hfg : ∀ a d, 0 < d.depth → f a d = g a d) :
    (enter limit >>= fun _ => x >>= f) = (enter limit >>= fun _ => x >>= g) := by
  funext c
  by_cases hd : c.depth + 1 ≤ limit
  · rw [run_bind_of_ok (enter_of_le hd), run_bind_of_ok (enter_of_le hd)]
    cases h : x c.opened with
    | ok a d =>
      have hdepth : d.depth = c.depth + 1 := ((hx c.opened).before h).2
      rw [run_bind_of_ok h, run_bind_of_ok h]
      exact hfg a d (by omega)
    | error e d => rw [run_bind_of_error h, run_bind_of_error h]
  · have henter := enter_of_limit_lt (Nat.lt_of_not_le hd)
    rw [run_bind_of_error henter, run_bind_of_error henter]

variable (stuck : Scan Unit) (limit : Nat)

theorem skipBlock_leaveOr (rounds : Nat) :
    skipBlock limit (rounds + 1) =
      (openBlock >>= fun close => enter limit >>= fun _ => skipFields limit close rounds >>=
        fun _ => leaveOr stuck) := by
  refine congrArg (openBlock >>= ·) (funext fun close => ?_)
  exact enter_congr ((moves_skip limit rounds).2.2.1 close)
    fun _ d hd => (leaveOr_of_pos stuck hd).symm

theorem mapEntry_leaveOr {κ ν : Type} (zero : κ × ν) {readKey : Scan κ} {readValue : Scan ν}
    (hkey : Moves id readKey) (hvalue : Moves id readValue) :
    mapEntry limit zero readKey readValue =
      (openBlock >>= fun close => enter limit >>= fun _ =>
        alone zero (source >>= fun c =>
          entryFields readKey readValue close (c.rest.length + 1)) >>= fun entry =>
            leaveOr stuck >>= fun _ => pure entry) := by
  refine congrArg (openBlock >>= ·) (funext fun close => ?_)
  refine enter_congr (.alone ?_) fun entry d hd => ?_
  · exact Moves.source.bind fun _ => moves_entryFields hkey hvalue close _
  · rw [run_bind, run_bind, leaveOr_of_pos stuck hd]

end Scan

theorem block_leaveOr (stuck : Scan Unit) (limit : Nat) {body : MergeBody}
    (hbody : ∀ close?, Moves Prod.snd (body close?)) :
    block limit body =
      (read Scan.openBlock >>= fun close => read (Scan.enter limit) >>= fun _ =>
        body (some close) >>= fun _ => read (Scan.leaveOr stuck)) := by
  refine congrArg (read Scan.openBlock >>= ·) (funext fun close => funext fun (m, c) => ?_)
  by_cases hd : c.depth + 1 ≤ limit
  · have hread := read_eq_ok (s := m).2 ⟨Scan.enter_of_le hd, rfl⟩
    rw [run_bind_of_ok hread, run_bind_of_ok hread]
    cases h : body (some close) (m, c.opened) with
    | ok a p =>
      have hdepth : p.2.depth = c.depth + 1 := ((hbody (some close) _).before h).2
      have hleave := Scan.leaveOr_of_pos stuck (c := p.2) (by omega)
      rw [run_bind_of_ok h, run_bind_of_ok h, run_read, run_read, hleave]
    | error e p => rw [run_bind_of_error h, run_bind_of_error h]
  · have hread := read_eq_error (s := m).2 ⟨Scan.enter_of_limit_lt (Nat.lt_of_not_le hd), rfl⟩
    rw [run_bind_of_error hread, run_bind_of_error hread]

/-! ## Operations -/

/-- What a parser can be asked for. -/
inductive Operation where
  /-- A scalar of a type. -/
  | scalar (kind : ScalarKind)
  /-- To merge all fields up to the end of the text. -/
  | fields (m : Message)
  /-- To merge a block, of a message or a group. -/
  | block (m : Message)
  /-- A map entry, whose key and value are asked for in turn. -/
  | mapEntry (key value : Operation)
  /-- One element that is asked for, or a list of them. -/
  | repeated (element : Operation)
  /-- One thing, and another one if that succeeded. -/
  | both (first second : Operation)

namespace Operation

variable (options : ParseOptions)

/-- The operation on a text, its result left out. -/
def perform : Operation → Scan Unit
  | scalar kind => (fun _ => ()) <$> Scan.scalar kind
  | fields m => (fun _ => ()) <$> alone m (mergeBody options none)
  | block m => (fun _ => ()) <$> alone m (Text.block options.depthLimit (mergeBody options))
  | mapEntry key value =>
    (fun _ => ()) <$> Scan.mapEntry options.depthLimit ((), ()) key.perform value.perform
  | repeated element => (fun _ => ()) <$> alone [] (Scan.repeated element.perform)
  | both first second => do
    first.perform
    second.perform

theorem moves_perform (op : Operation) : Moves id (op.perform options) := by
  induction op with
  | scalar kind => exact (Scan.moves_scalar kind).map _
  | fields m => exact (Moves.alone (moves_mergeBody none)).map _
  | block m => exact (Moves.alone (moves_block moves_mergeBody)).map _
  | mapEntry key value hkey hvalue => exact (Scan.moves_mapEntry hkey hvalue).map _
  | repeated element helement => exact (Moves.alone (Scan.moves_repeated helement)).map _
  | both first second hfirst hsecond => exact hfirst.bind fun _ => hsecond

/-- The place after the operation, whether it succeeded or failed. -/
def after (op : Operation) (c : Cursor) : Cursor :=
  match op.perform options c with
  | .ok _ d => d
  | .error _ d => d

theorem reaches_after (op : Operation) (c : Cursor) : c.Reaches (op.after options c) := by
  unfold after
  cases h : op.perform options c with
  | ok a d => exact ((op.moves_perform options c).before h).reaches
  | error e d => exact (op.moves_perform options c).reaches h

end Operation

/-- The place after some operations, each done whether or not those before it succeeded. -/
def run (options : ParseOptions) (ops : List Operation) (c : Cursor) : Cursor :=
  ops.foldl (fun c op => op.after options c) c

theorem reaches_run (options : ParseOptions) (ops : List Operation) (c : Cursor) :
    c.Reaches (run options ops c) := by
  induction ops generalizing c with
  | nil => exact .refl c
  | cons op ops ih => exact (op.reaches_after options c).trans (ih (op.after options c))

end Text

namespace Message

open Text

variable (options : ParseOptions) {limit : Nat}

theorem mergeText_of_limit_le (h : options.depthLimit ≤ limit) (text : String) (m : Message) :
    mergeText options text m = mergeText { options with depthLimit := limit } text m ∨
      ∃ m', mergeText options text m = .error (.textDepthLimit options.depthLimit) m' := by
  unfold mergeText
  rcases cutsOff_mergeBody h none (m, .new text) with heq | ⟨⟨m', c⟩, herr⟩
  · rw [heq]
    exact .inl rfl
  · rw [herr]
    exact .inr ⟨m', rfl⟩

theorem parse_of_limit_le (h : options.depthLimit ≤ limit) (type : MessageType) (text : String) :
    parse options type text = parse { options with depthLimit := limit } type text ∨
      parse options type text = .error (.textDepthLimit options.depthLimit) := by
  unfold parse
  rcases mergeText_of_limit_le options h text (new type) with heq | ⟨m, herr⟩
  · rw [heq]
    exact .inl rfl
  · rw [herr]
    exact .inr rfl

/-- The limit only cuts off. Under a higher one a text is parsed to the same end, be it a message or
an error, unless the lower one gives it up; the same holds of text that is merged into any message.
Whatever a parser was asked for before, a success leaves as many blocks open as there were and a
failure no fewer. Where a block is closed, in messages and groups, in map entries and in what is
skipped, there is one open. -/
theorem parse_depthLimit (h : options.depthLimit ≤ limit) (type : MessageType) (text : String) :
    (parse options type text = parse { options with depthLimit := limit } type text ∨
      parse options type text = .error (.textDepthLimit options.depthLimit)) ∧
    (∀ m, mergeText options text m = mergeText { options with depthLimit := limit } text m ∨
      ∃ m', mergeText options text m = .error (.textDepthLimit options.depthLimit) m') ∧
    (∀ (before : List Operation) (next : Operation),
      let c := run options before (.new text)
      (∀ d, next.perform options c = .ok () d → d.depth = c.depth) ∧
      (∀ e d, next.perform options c = .error e d → c.depth ≤ d.depth)) ∧
    (∀ stuck,
      Text.block options.depthLimit (Text.mergeBody options) =
        (read Scan.openBlock >>= fun close => read (Scan.enter options.depthLimit) >>= fun _ =>
          Text.mergeBody options (some close) >>= fun _ => read (Scan.leaveOr stuck)) ∧
      (∀ (key value : Operation),
        Scan.mapEntry options.depthLimit ((), ()) (key.perform options) (value.perform options) =
          (Scan.openBlock >>= fun close => Scan.enter options.depthLimit >>= fun _ =>
            alone ((), ()) (source >>= fun c => Scan.entryFields (key.perform options)
              (value.perform options) close (c.rest.length + 1)) >>= fun entry =>
                Scan.leaveOr stuck >>= fun _ => pure entry)) ∧
      (∀ (key : ScalarKind) (kind : FieldKind) zero,
        Scan.mapEntry options.depthLimit zero (Scan.scalar key)
            (Text.value options.depthLimit (Text.mergeBody options) kind) =
          (Scan.openBlock >>= fun close => Scan.enter options.depthLimit >>= fun _ =>
            alone zero (source >>= fun c => Scan.entryFields (Scan.scalar key)
              (Text.value options.depthLimit (Text.mergeBody options) kind) close
                (c.rest.length + 1)) >>= fun entry =>
                  Scan.leaveOr stuck >>= fun _ => pure entry)) ∧
      ∀ rounds, Scan.skipBlock options.depthLimit (rounds + 1) =
        (Scan.openBlock >>= fun close => Scan.enter options.depthLimit >>= fun _ =>
          Scan.skipFields options.depthLimit close rounds >>= fun _ => Scan.leaveOr stuck)) := by
  refine ⟨parse_of_limit_le options h type text, mergeText_of_limit_le options h text,
    fun before next => ⟨fun d hd => ?_, fun e d hd => ?_⟩,
    fun stuck => ⟨?_, fun key value => ?_, fun key kind zero => ?_, fun rounds => ?_⟩⟩
  · exact ((next.moves_perform options _).before hd).2
  · exact ((next.moves_perform options _).reaches hd).2
  · exact block_leaveOr stuck _ moves_mergeBody
  · exact Scan.mapEntry_leaveOr stuck _ _ (key.moves_perform options) (value.moves_perform options)
  · exact Scan.mapEntry_leaveOr stuck _ zero (Scan.moves_scalar key)
      (moves_value moves_mergeBody kind)
  · exact Scan.skipBlock_leaveOr stuck _ rounds

/-- Two blocks that are skipped, one inside the other, are given up under a limit of one and parsed
under a limit of two. -/
theorem parse_depthLimit_skipped :
    parse ⟨true, false, 1, true, none⟩ .empty "1 < 1 \x7b \x7d >" = .error (.textDepthLimit 1) ∧
      parse ⟨true, false, 2, true, none⟩ .empty "1 < 1 \x7b \x7d >" = .ok (new .empty) ∧
      parse ⟨true, false, 10, true, none⟩ .empty "1 < 1 \x7b \x7d >" = .ok (new .empty) := by
  refine ⟨rfl, rfl, ?_⟩
  have h := parse_depthLimit ⟨true, false, 2, true, none⟩ (show 2 ≤ 10 by decide) .empty
    "1 < 1 \x7b \x7d >"
  rcases h.1 with heq | herr
  · exact heq.symm
  · cases herr

end Message

end Protobuf
