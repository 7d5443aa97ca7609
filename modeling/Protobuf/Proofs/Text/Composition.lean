import Protobuf.Proofs.Text.AppendedFields

/-!
# Texts one after the other

The fields of a text are merged in the same way where it goes on with a line break and another text
that can be merged (`Text.exists_mergeFields_tail`). What is left then is that other text: it is
merged in the same way wherever it stands, whatever colon is remembered there
(`Text.exists_mergeFields_elsewhere`). So merging two texts one after the other is merging one text,
which has them on lines of their own (`Message.mergeText_append`).
-/

namespace Protobuf

open Build

variable {σ α : Type}

namespace Text

/-! ## Members -/

/-- From places in texts of less than some length on, the second way merges the fields of a block
where the first one does. -/
structure MergesBoth (tail : Bytes) (length : Nat) (body body' : MergeBody) : Prop where
  /-- No bytes are made up. -/
  moves : ∀ close?, Moves Prod.snd (body close?)
  /-- The same is merged in both texts. -/
  mirrors : ∀ {close : Char} (m : Message) {c e : Cursor}, c.rest.length < length →
    c.Beyond tail e → Mirrors (alongside (Cursor.Beyond tail)) (m, c) (m, e)
      (body (some close)) (body' (some close))

section

variable {tail : Bytes} (htail : StartsLine tail) {limit length : Nat} {body body' : MergeBody}
  (hbody : MergesBoth tail length body body') {c e : Cursor}

include htail

theorem readsBoth_scalar (kind : ScalarKind) :
    Scan.ReadsBoth tail length (Scan.scalar kind) (Scan.scalar kind) :=
  ⟨Scan.moves_scalar kind, Scan.demands_scalar kind, fun _ h =>
    Scan.persists_scalar htail kind _ _ h⟩

include hbody

theorem mirrors_block (m : Message) (hlength : c.rest.length ≤ length) (h : c.Beyond tail e) :
    Mirrors (alongside (Cursor.Beyond tail)) (m, c) (m, e) (block limit body)
      (block limit body') := by
  refine (Scan.persists_openBlock htail c e h).read_bind fun close d d' hd hbeyond => ?_
  refine (Scan.persists_enter limit d d' hbeyond).read_bind fun _ u u' hu hbeyond => ?_
  have hlt := Scan.length_lt_of_enter hd hu
  refine (hbody.mirrors m (by omega) hbeyond).build_bind fun _ m' v v' _ hbeyond => ?_
  exact (Scan.persists_leave v v' hbeyond).read

theorem readsBoth_value (kind : FieldKind) :
    Scan.ReadsBoth tail length (value limit body kind) (value limit body' kind) := by
  refine ⟨moves_value hbody.moves kind, ?_, fun {c e} hlength h => ?_⟩
  · cases kind with
    | scalar kind => exact (Scan.demands_scalar kind).map _
    | message type | group type =>
      refine Scan.Demands.map _ fun c m d hrun => ?_
      obtain ⟨close, u, hu, -⟩ := read_bind_eq_ok.1 (alone_eq_ok.1 hrun)
      exact Scan.demands_openBlock c close u hu
  · cases kind with
    | scalar kind => exact (Scan.persists_scalar htail kind).map _ c e h
    | message type | group type =>
      rw [value, value, map_eq_bind, map_eq_bind]
      exact (mirrors_block htail hbody _ hlength h).alone.bind fun _ _ _ _ h => .pure h _

theorem mirrors_mergeMember (name : String) (member : Member) (s : Slot Message)
    (hlength : c.rest.length ≤ length) (h : c.Beyond tail e) :
    Mirrors (alongside (Cursor.Beyond tail)) (s, c) (s, e) (mergeMember limit body name member)
      (mergeMember limit body' name member) := by
  have hvalue (kind : FieldKind) : Scan.ReadsBoth tail length (value limit body kind)
      (value limit body' kind) := readsBoth_value htail hbody kind
  cases member with
  | plain number label kind =>
    exact (Scan.persists_scalar htail kind c e h).read_bind fun _ _ _ _ h => .put h _
  | optional field required =>
    rw [mergeMember, mergeMember]
    cases field.kind with
    | scalar kind =>
      exact (Scan.persists_scalar htail kind c e h).read_bind fun _ _ _ _ h => .put h _
    | message type | group type => exact .zoom (mirrors_block htail hbody _ hlength h)
  | packed number label kind =>
    rw [mergeMember, mergeMember]
    exact .zoom (Scan.mirrors_repeated htail (readsBoth_scalar htail kind) _ h hlength)
  | repeated field =>
    rw [mergeMember, mergeMember]
    exact .zoom (Scan.mirrors_repeated htail (hvalue field.kind) _ h hlength)
  | map number label key kind =>
    have hentry : Scan.ReadsBoth tail length
        (Scan.mapEntry limit (key.zero, kind.zero) (Scan.scalar key) (value limit body kind))
        (Scan.mapEntry limit (key.zero, kind.zero) (Scan.scalar key) (value limit body' kind)) :=
      Scan.readsBoth_mapEntry htail (readsBoth_scalar htail key) (hvalue kind)
    exact (hentry.mirrors hlength h).read_bind fun _ _ _ _ h => .update h _
  | oneof fields =>
    rw [mergeMember, mergeMember]
    cases fields.find? (·.name = name) with
    | none => exact .pure ⟨rfl, h⟩ ()
    | some field =>
      exact ((hvalue field.kind).mirrors hlength h).read_bind fun _ _ _ _ h => .put h _
  | payload number label =>
    exact (Scan.persists_bytes htail c e h).read_bind fun _ _ _ _ h => .put h _

variable {options : ParseOptions} (m : Message)

theorem mirrors_mergeField (name : String) (hlength : c.rest.length ≤ length)
    (h : c.Beyond tail e) :
    Mirrors (alongside (Cursor.Beyond tail)) (m, c) (m, e) (mergeField limit body name)
      (mergeField limit body' name) := by
  rw [Mirrors, mergeField, mergeField]
  cases Message.member? m.type (·.hasName name) with
  | none =>
    have hnone : Mirrors (alongside (Cursor.Beyond tail)) (m, c) (m, e)
        (pure false : Build Cursor Message Bool) (pure false) := .pure ⟨rfl, h⟩ false
    exact hnone
  | some found =>
    have hslot : Mirrors (alongside (Cursor.Beyond tail)) (m, c) (m, e)
        (do Message.atSlot found.1 found.2 (mergeMember limit body name found.2); pure true)
        (do Message.atSlot found.1 found.2 (mergeMember limit body' name found.2); pure true) :=
      (Mirrors.zoom (mirrors_mergeMember htail hbody name found.2 _ hlength h)).bind
        fun _ _ _ _ h => .pure h true
    exact hslot

theorem mirrors_mergeNamed (name : FieldName) (hlength : c.rest.length ≤ length)
    (h : c.Beyond tail e) :
    Mirrors (alongside (Cursor.Beyond tail)) (m, c) (m, e) (mergeNamed options body name)
      (mergeNamed options body' name) := by
  refine .current_bind ?_
  cases name with
  | plain name => exact mirrors_mergeField htail hbody m name hlength h
  | number number =>
    dsimp only
    cases m.type.textName? number with
    | none => exact .pure ⟨rfl, h⟩ false
    | some name => exact mirrors_mergeField htail hbody m name hlength h
  | bracketed url =>
    refine .ite .rfl (fun _ => .ite .rfl (fun _ => ?_) fun _ => .pure ⟨rfl, h⟩ false)
      fun _ => mirrors_mergeField htail hbody m _ hlength h
    refine Mirrors.build_bind (R := Cursor.Beyond tail) ?_ fun _ m' d d' _ hbeyond =>
      .pure ⟨rfl, hbeyond⟩ true
    unfold mergeExpanded
    cases options.known?.bind (·.lookup? url) with
    | none => exact .of_error rfl _
    | some type =>
      exact (mirrors_block htail hbody _ hlength h).alone.read_bind fun _ _ _ _ hbeyond =>
        .update hbeyond _

/-- The number of the line only stands in the error of a field that is not declared. -/
theorem mirrors_mergeBehind (line line' : Nat) (name : FieldName) (hlength : c.rest.length ≤ length)
    (h : c.Beyond tail e) :
    Mirrors (alongside (Cursor.Beyond tail)) (m, c) (m, e) (mergeBehind options body line name)
      (mergeBehind options body' line' name) := by
  refine (Scan.persists_colon htail c e h).read_bind fun _ d d' hd hbeyond => ?_
  have hcolon := Scan.moves_colon.length_le hd
  refine (mirrors_mergeNamed htail hbody m name (by omega) hbeyond).build_bind
    fun declared m' u u' _ hbeyond => ?_
  have hseparator : ∀ {v v' : Cursor}, v.Beyond tail v' →
      Mirrors (alongside (Cursor.Beyond tail)) (m', v) (m', v')
        (read Scan.separator : Build Cursor Message Unit) (read Scan.separator) :=
    fun hv => (Scan.persists_separator htail _ _ hv).read
  refine .ite .rfl (fun _ => .ite .rfl (fun _ => .of_error rfl _) fun _ => ?_)
    fun _ => hseparator hbeyond
  refine .source_bind ?_
  rw [hbeyond.sawColon]
  have hrounds : 2 * u.rest.length + 2 ≤ 2 * u'.rest.length + 2 := by
    have := hbeyond.length_le
    omega
  exact ((Scan.carries_skip htail options.depthLimit hrounds).1 u.sawColon u u' hbeyond).read_bind
    fun _ _ _ _ hv => hseparator hv

end

/-! ## Messages -/

variable {tail : Bytes} {options : ParseOptions}

/-- A text ends where the longer one does if the tail has only blanks and comments. -/
theorem Scan.persists_finished_none (htail : StartsLine tail)
    (hblank : behindBlanks false tail = []) :
    Persists (Cursor.Beyond tail) (Scan.finished none) := by
  intro c e h
  refine .peek_bind ?_
  have hnone : e.settle.rest.head?.isNone = c.settle.rest.head?.isNone := by
    rcases h.settle_cases htail with ⟨hne, hlonger⟩ | ⟨hnil, hrest⟩
    · rw [hlonger.head?_eq hne]
    · rw [hnil, hrest, hblank]
  rw [hnone]
  exact .pure (h.settle htail) _

/-- Fields up to the end of a block are merged in both texts, and so is a whole text behind which
only blanks and comments stand. -/
theorem mirrors_mergeFields (htail : StartsLine tail) {close? : Option Char}
    (hend : close? = none → behindBlanks false tail = []) {rounds rounds' : Nat}
    (hrounds : rounds ≤ rounds') (m : Message) {c e : Cursor} (hlength : c.rest.length < rounds)
    (h : c.Beyond tail e) :
    Mirrors (alongside (Cursor.Beyond tail)) (m, c) (m, e) (mergeFields options rounds close?)
      (mergeFields options rounds' close?) := by
  induction rounds generalizing rounds' close? m c e with
  | zero => omega
  | succ rounds ih =>
    obtain ⟨rounds', rfl⟩ : ∃ count, rounds' = count + 1 := ⟨rounds' - 1, by omega⟩
    have hle : rounds ≤ rounds' := Nat.le_of_succ_le_succ hrounds
    have hbody : MergesBoth tail rounds (mergeFields options rounds)
        (mergeFields options rounds') :=
      ⟨moves_mergeFields rounds, fun {close} m {c e} hlt h =>
        ih (fun hnone => absurd hnone (Option.some_ne_none close)) hle m hlt h⟩
    rw [mergeFields_succ, mergeFields_succ]
    have hfinished : Persists (Cursor.Beyond tail) (Scan.finished close?) := by
      cases close? with
      | none => exact Scan.persists_finished_none htail (hend rfl)
      | some close => exact Scan.persists_finished htail close
    refine (hfinished c e h).read_bind fun ended d d' hd hbeyond => ?_
    refine .ite .rfl (fun _ => .line_bind fun line line' => ?_) fun _ => .pure ⟨rfl, hbeyond⟩ ()
    refine (Scan.persists_fieldName htail _ _ (hbeyond.settle htail)).read_bind
      fun name u u' hu hbeyond => ?_
    have hlength' := (Scan.moves_finished close?).length_le hd
    have hsettle := d.length_settle_le
    have hname := Scan.shrinks_fieldName _ name u hu
    refine (mirrors_mergeBehind htail hbody m line line' name (by omega) hbeyond).build_bind
      fun _ m' v v' hv hbeyond => ?_
    have hbehind : v.rest.length ≤ u.rest.length :=
      ((moves_mergeBehind (moves_mergeFields rounds) line name (m, u)).before hv).length_le
    exact ih hend hle m' (by omega) hbeyond

theorem mergesBoth_mergeFields (htail : StartsLine tail) {rounds rounds' : Nat}
    (hrounds : rounds ≤ rounds') :
    MergesBoth tail rounds (mergeFields options rounds) (mergeFields options rounds') :=
  ⟨moves_mergeFields rounds, fun {close} m {_ _} hlength h => mirrors_mergeFields htail
    (fun hnone => absurd hnone (Option.some_ne_none close)) hrounds m hlength h⟩

/-- The start of a field's name is found where a field's name is read. -/
theorem Scan.startsName_of_fieldName {c d : Cursor} {name : FieldName}
    (h : Scan.fieldName c = .ok name d) : ∀ b ∈ c.settle.rest.head?, startsName b = true := by
  intro b hb
  have hhead : c.settle.rest.head? = some b := hb
  rw [startsName, isNameByte]
  by_cases hdigit : isDigit b = true
  · rw [hdigit, Bool.or_true, Bool.true_or]
  by_cases hbracket : b = byte '['
  · rw [decide_eq_true hbracket, Bool.or_true]
  -- Neither a number nor a bracket: the name is an identifier.
  rw [Scan.fieldName, run_bind_of_ok (Scan.run_peek c), hhead, Option.any_some, if_neg hdigit,
    if_neg (fun heq => hbracket (Option.some.inj heq))] at h
  by_cases hstart : isNameStart b = true
  · rw [hstart, Bool.true_or, Bool.true_or]
  have hnone : ¬ c.settle.settle.rest.head?.any isNameStart = true := by
    rwa [Cursor.settle_settle, hhead, Option.any_some]
  rw [run_bind_of_ok (Scan.identifier_of_head hnone)] at h
  cases h

theorem Scan.settles_finished (close? : Option Char) : Settles (Scan.finished close?) := by
  cases close? with
  | none => exact Scan.settles_peek.bind
  | some close => exact (Scan.settles_tryChar close).bind

theorem Scan.finished_none_eq_ok {c d : Cursor} {ended : Bool}
    (h : Scan.finished none c = .ok ended d) :
    d = c.settle ∧ (ended = true ↔ c.settle.rest = []) := by
  rw [Scan.finished, run_bind_of_ok (Scan.run_peek c)] at h
  cases h
  refine ⟨rfl, ?_⟩
  cases c.settle.rest <;> simp

/-- Blanks in front of fields make no difference. -/
theorem mergeFields_settle (rounds : Nat) (close? : Option Char) (m : Message) (c : Cursor) :
    mergeFields options (rounds + 1) close? (m, c.settle) =
      mergeFields options (rounds + 1) close? (m, c) := by
  rw [mergeFields_succ, run_bind, run_bind, run_read, run_read, Scan.settles_finished close? c]

/-- A colon that was remembered before makes no difference to the fields of a text. -/
theorem mergeFields_withColon {rounds : Nat} {m m' : Message} {c d : Cursor}
    (h : mergeFields options rounds none (m, c) = .ok () (m', d)) (saw : Bool) :
    ∃ d', mergeFields options rounds none (m, c.withColon saw) = .ok () (m', d') := by
  cases rounds with
  | zero =>
    cases h
    exact ⟨_, rfl⟩
  | succ rounds =>
    rw [mergeFields_succ] at h ⊢
    obtain ⟨ended, t, ht, hnext⟩ := read_bind_eq_ok.1 h
    have hfinished : Scan.finished none (c.withColon saw) = .ok ended (t.withColon saw) := by
      have hignores : IgnoresColon (Scan.finished none) :=
        Scan.ignores_peek.bind fun _ => .pure _
      rw [hignores c saw, ht]
      rfl
    cases ended with
    | true =>
      cases hnext
      exact ⟨_, read_bind_eq_ok.2 ⟨true, _, hfinished, rfl⟩⟩
    | false =>
      obtain ⟨line, u, hu, hnext⟩ := read_bind_eq_ok.1 hnext
      obtain ⟨name, v, hv, hnext⟩ := read_bind_eq_ok.1 hnext
      have hline : Scan.line (t.withColon saw) = .ok line (u.withColon saw) := by
        rw [Scan.ignores_line t saw, hu]
        rfl
      have hname : Scan.fieldName (u.withColon saw) = .ok name (v.withColon saw) := by
        rw [Scan.ignores_fieldName u saw, hv]
        rfl
      obtain ⟨_, p, hp, hloop⟩ := bind_eq_ok.1 hnext
      obtain ⟨_, w, hw, hbehind⟩ := read_bind_eq_ok.1 hp
      have hbehind' : mergeBehind options (mergeFields options rounds) line name
          (m, v.withColon saw) = .ok () p :=
        read_bind_eq_ok.2 ⟨(), w, Scan.colon_withColon hw saw, hbehind⟩
      exact ⟨d, read_bind_eq_ok.2 ⟨false, _, hfinished, read_bind_eq_ok.2 ⟨line, _, hline,
        read_bind_eq_ok.2 ⟨name, _, hname, bind_eq_ok.2 ⟨(), p, hbehind', hloop⟩⟩⟩⟩⟩

/-- Fields are merged in the same way wherever their text stands. -/
theorem exists_mergeFields_elsewhere {rounds rounds' : Nat} (hrounds : rounds ≤ rounds')
    {m m' : Message} {c d e : Cursor} (hlength : c.rest.length < rounds)
    (hrest : e.settle.rest = c.settle.rest) (hdepth : e.depth = c.depth)
    (h : mergeFields options rounds none (m, c) = .ok () (m', d)) :
    ∃ d', mergeFields options rounds' none (m, e) = .ok () (m', d') := by
  obtain ⟨rounds, rfl⟩ : ∃ count, rounds = count + 1 := ⟨rounds - 1, by omega⟩
  obtain ⟨rounds', rfl⟩ : ∃ count, rounds' = count + 1 := ⟨rounds' - 1, by omega⟩
  rw [← mergeFields_settle] at h
  obtain ⟨u, hu⟩ := mergeFields_withColon h e.sawColon
  have hlonger : (c.settle.withColon e.sawColon).Longer [] e.settle := by
    refine ⟨?_, ?_, e.sawColon_settle⟩
    · rw [hrest, List.append_nil]
      rfl
    · rw [Cursor.depth_settle, hdepth]
      exact c.depth_settle.symm
  have hsettle : (c.settle.withColon e.sawColon).rest.length ≤ c.rest.length := c.length_settle_le
  obtain ⟨⟨_, d'⟩, hd', rfl, -⟩ := mirrors_mergeFields startsLine_nil (fun _ => rfl) hrounds m
    (by omega) hlonger.beyond () (m', u) hu
  exact ⟨d', (mergeFields_settle rounds' none m e).symm.trans hd'⟩

/-- In the longer text the fields of the shorter one are merged first, and what is left is the
tail. -/
theorem exists_mergeFields_tail (htail : StartsLine tail) {rounds rounds' : Nat}
    (hrounds : rounds + tail.length ≤ rounds') {m m' : Message} {c d e : Cursor}
    (hlength : c.rest.length < rounds) (h : c.Beyond tail e)
    (hrun : mergeFields options rounds none (m, c) = .ok () (m', d)) :
    ∃ count e', tail.length < count ∧ e'.settle.rest = behindBlanks false tail ∧
      e'.depth = d.depth ∧
      mergeFields options rounds' none (m, e) = mergeFields options count none (m', e') := by
  induction rounds generalizing rounds' m c e with
  | zero => omega
  | succ rounds ih =>
    rw [mergeFields_succ] at hrun
    obtain ⟨ended, t, ht, hnext⟩ := read_bind_eq_ok.1 hrun
    obtain ⟨rfl, hended⟩ := Scan.finished_none_eq_ok ht
    rcases h.settle_cases htail with ⟨hne, hlonger⟩ | ⟨hnil, hrest⟩
    · obtain rfl : ended = false := Bool.eq_false_iff.2 (mt hended.1 hne)
      obtain ⟨rounds', rfl⟩ : ∃ count, rounds' = count + 1 := ⟨rounds' - 1, by omega⟩
      have hfinished : Scan.finished none e = .ok false e.settle := by
        rw [Scan.finished, run_bind_of_ok (Scan.run_peek e), hlonger.head?_eq hne]
        obtain ⟨b, bytes, hbytes⟩ := List.exists_cons_of_ne_nil hne
        rw [hbytes]
        rfl
      obtain ⟨line, u, hu, hnext⟩ := read_bind_eq_ok.1 hnext
      obtain ⟨name, v, hv, hnext⟩ := read_bind_eq_ok.1 hnext
      obtain ⟨_, ⟨m1, w⟩, hw, hloop⟩ := bind_eq_ok.1 hnext
      rw [Scan.run_line] at hu
      cases hu
      have hsettle := c.settle.length_settle_le
      have hsettle' := c.length_settle_le
      have hname := Scan.shrinks_fieldName _ name v hv
      have hbehind : w.rest.length ≤ v.rest.length :=
        ((moves_mergeBehind (moves_mergeFields rounds) _ name (m, v)).before hw).length_le
      obtain ⟨v', hv', hbeyond⟩ :=
        Scan.persists_fieldName htail _ _ (hlonger.beyond.settle htail) name v hv
      have hle : rounds ≤ rounds' := by omega
      have hbody : MergesBoth tail rounds (mergeFields options rounds)
          (mergeFields options rounds') := mergesBoth_mergeFields htail hle
      obtain ⟨⟨_, w'⟩, hw', rfl, hbeyond'⟩ := mirrors_mergeBehind htail hbody m _
        e.settle.settle.line name (by omega) hbeyond () (m1, w) hw
      have hrounds' : rounds + tail.length ≤ rounds' := by omega
      have hlength' : w.rest.length < rounds := by omega
      obtain ⟨count, e', hcount, hrest, hdepth, hsame⟩ := ih hrounds' hlength' hbeyond' hloop
      refine ⟨count, e', hcount, hrest, hdepth, ?_⟩
      rw [mergeFields_succ, run_read_bind_of_ok hfinished]
      refine (run_read_bind_of_ok (Scan.run_line e.settle)).trans ?_
      rw [run_read_bind_of_ok hv', run_bind_of_ok hw', hsame]
    · rw [hended.2 hnil] at hnext
      cases hnext
      exact ⟨rounds', e, by omega, hrest, h.depth.trans c.depth_settle.symm, rfl⟩

/-- What can be merged can be merged behind a line break. -/
theorem startsLine_of_mergeFields {rounds : Nat} {b : String} {m m' : Message} {d : Cursor}
    (h : mergeFields options (rounds + 1) none (m, .new b) = .ok () (m', d)) :
    StartsLine (byte '\n' :: Utf8.encode b) := by
  refine ⟨fun b' hb' => (Option.some.inj hb').symm, fun b' hb' => ?_⟩
  have hrest : (Cursor.new b).settle.rest = behindBlanks false (byte '\n' :: Utf8.encode b) :=
    Cursor.rest_settle (.new b)
  rw [← hrest] at hb'
  rw [mergeFields_succ] at h
  obtain ⟨ended, t, ht, hnext⟩ := read_bind_eq_ok.1 h
  obtain ⟨rfl, hended⟩ := Scan.finished_none_eq_ok ht
  cases ended with
  | true =>
    rw [hended.1 rfl] at hb'
    cases hb'
  | false =>
    obtain ⟨line, u, hu, hnext⟩ := read_bind_eq_ok.1 hnext
    obtain ⟨name, v, hv, -⟩ := read_bind_eq_ok.1 hnext
    refine Scan.startsName_of_fieldName (Scan.fieldName_of_line hu hv) b' ?_
    rwa [Cursor.settle_settle]

end Text

namespace Message

open Text

variable {options : ParseOptions}

/-- Where text is merged behind another text, on a line of its own, the outcome is the same as where
both are merged one after the other. -/
theorem mergeText_append {a b : String} {m m1 m2 : Message}
    (ha : mergeText options a m = .ok () m1) (hb : mergeText options b m1 = .ok () m2) :
    mergeText options (a ++ "\n" ++ b) m = .ok () m2 := by
  obtain ⟨⟨d, hd⟩, -⟩ := mergeText_eq_ok.1 ha
  obtain ⟨⟨d', hd'⟩, hchecked⟩ := mergeText_eq_ok.1 hb
  refine mergeText_eq_ok.2 ⟨?_, hchecked⟩
  have hd : Text.mergeFields options ((Utf8.encode a).length + 1) none (m, Cursor.new a) =
    .ok () (m1, d) := hd
  have hd' : Text.mergeFields options ((Utf8.encode b).length + 1) none (m1, Cursor.new b) =
    .ok () (m2, d') := hd'
  have htail := startsLine_of_mergeFields hd'
  have hrest : Utf8.encode (a ++ "\n" ++ b) = Utf8.encode a ++ byte '\n' :: Utf8.encode b := by
    rw [Utf8.encode_append, Utf8.encode_append, List.append_assoc]
    rfl
  have hbeyond : (Cursor.new a).Beyond (byte '\n' :: Utf8.encode b)
      (Cursor.new (a ++ "\n" ++ b)) := ⟨.inl hrest, rfl, rfl⟩
  have hrounds : (Utf8.encode a).length + 1 + (byte '\n' :: Utf8.encode b).length ≤
      (Utf8.encode (a ++ "\n" ++ b)).length + 1 := by
    rw [hrest, List.length_append]
    omega
  obtain ⟨count, e, hcount, hsettled, hdepth, hsame⟩ :=
    exists_mergeFields_tail htail hrounds (Nat.lt_succ_self _) hbeyond hd
  -- No block is open behind the first text, as at the start of the second one.
  have hclosed : e.depth = (Cursor.new b).depth :=
    hdepth.trans ((moves_mergeFields _ none (m, Cursor.new a)).before hd).2
  have hle : (Utf8.encode b).length + 1 ≤ count := Nat.le_of_lt hcount
  obtain ⟨d2, hd2⟩ := exists_mergeFields_elsewhere hle (Nat.lt_succ_self _)
    (hsettled.trans (Cursor.rest_settle (.new b)).symm) hclosed hd'
  exact ⟨d2, hsame.trans hd2⟩

/-- A list goes on, a message is kept and a number is replaced, and a comment ends with its line. -/
theorem mergeText_append_comment :
    mergeText { allowPartial := true } "repeated_message < > dummy: 1 optional_message < > # one"
        (.new .requiredForeign) =
      .ok () ⟨.requiredForeign, [.optional (some (.message (.new .required))),
        .repeated [.message (.new .required)], .optional (some (.scalar (.int32 1))), .map [],
        .optional none], []⟩ ∧
    mergeText { allowPartial := true } "repeated_message: [< >, < >]; dummy: 2"
        ⟨.requiredForeign, [.optional (some (.message (.new .required))),
          .repeated [.message (.new .required)], .optional (some (.scalar (.int32 1))), .map [],
          .optional none], []⟩ =
      .ok () ⟨.requiredForeign, [.optional (some (.message (.new .required))),
        .repeated (List.replicate 3 (.message (.new .required))),
        .optional (some (.scalar (.int32 2))), .map [], .optional none], []⟩ ∧
    mergeText { allowPartial := true }
        ("repeated_message < > dummy: 1 optional_message < > # one" ++ "\n" ++
          "repeated_message: [< >, < >]; dummy: 2") (.new .requiredForeign) =
      .ok () ⟨.requiredForeign, [.optional (some (.message (.new .required))),
        .repeated (List.replicate 3 (.message (.new .required))),
        .optional (some (.scalar (.int32 2))), .map [], .optional none], []⟩ :=
  ⟨rfl, rfl, mergeText_append rfl rfl⟩

end Message

end Protobuf
