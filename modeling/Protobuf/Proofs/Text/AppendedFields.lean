import Protobuf.Proofs.Text.Appending

/-!
# Values in a longer text

Scalars, blocks, lists and map entries of a text are read in the text that goes on behind them, and
what is skipped is skipped there. The rounds that are given for the longer text are no fewer. Where
a text ends no value is read, so it is not taken from the tail (`Text.Scan.ReadsBoth`).
-/

namespace Protobuf

open Build

variable {σ α β κ ν : Type}

namespace Text

/-- The number of the line only stands in errors. -/
theorem Mirrors.line_bind {R : σ × Cursor → σ × Cursor → Prop} {s : σ} {c e : Cursor}
    {f g : Nat → Build Cursor σ α}
    (h : ∀ line line', Mirrors R (s, c.settle) (s, e.settle) (f line) (g line')) :
    Mirrors R (s, c) (s, e) (Build.read Scan.line >>= f) (Build.read Scan.line >>= g) :=
  h c.settle.line e.settle.line

namespace Scan

variable {tail : Bytes}

/-! ## Scalars -/

theorem demands_requireColon_bind {f : Unit → Scan α} (hf : Demands (f ())) :
    Demands (requireColon >>= f) := by
  intro c a d h
  exact hf c a d (of_requireColon_bind h).2

theorem identifier_of_head {c : Cursor} (h : ¬ c.settle.rest.head?.any isNameStart = true) :
    identifier c = .ok none c.settle := by
  show (if c.settle.rest.head?.any isNameStart = true then _ else _ : Scan _) _ = _
  rw [if_neg h]
  rfl

theorem demands_identifier_bind {f : Option String → Scan α} (hf : Demands (f none)) :
    Demands (identifier >>= f) := by
  intro c a d h hnil
  have hhead : ¬ c.settle.rest.head?.any isNameStart = true := by
    rw [hnil]
    exact Bool.false_ne_true
  rw [run_bind_of_ok (identifier_of_head hhead)] at h
  refine hf c.settle a d h ?_
  rw [Cursor.settle_settle, hnil]

theorem demands_integer : Demands integer := demands_numberToken.bind _

theorem demands_double : Demands double := demands_requireColon_bind (demands_numberToken.bind _)

theorem demands_bytes : Demands bytes := demands_requireColon_bind demands_stringLiteral

theorem demands_scalar (kind : ScalarKind) : Demands (scalar kind) := by
  have hsigned : ∀ low high, Demands (signedInteger low high) :=
    fun _ _ => demands_requireColon_bind (demands_integer.bind _)
  have hunsigned : ∀ bound, Demands (unsignedInteger bound) :=
    fun _ => demands_requireColon_bind (demands_integer.bind _)
  cases kind with
  | int32 | sint32 | sfixed32 => exact ((hsigned _ _).map _).map _
  | int64 | sint64 | sfixed64 => exact ((hsigned _ _).map _).map _
  | uint32 | fixed32 => exact ((hunsigned _).map _).map _
  | uint64 | fixed64 => exact ((hunsigned _).map _).map _
  | float => exact (demands_double.bind _).map _
  | double => exact demands_double.map _
  | bool => exact (demands_requireColon_bind (demands_numberToken.bind _)).map _
  | enum type =>
    exact (demands_requireColon_bind (demands_identifier_bind (demands_integer.bind _))).map _
  | string => exact (demands_bytes.bind _).map _
  | bytes => exact demands_bytes.map _

/-- From places in texts of some length on, the second reader reads a value where the first one
does. -/
structure ReadsBoth (tail : Bytes) (length : Nat) (x y : Scan α) : Prop where
  /-- No bytes are made up. -/
  moves : Moves id x
  /-- There is no value at the end of a text. -/
  demands : Demands x
  /-- The same is read in both texts. -/
  mirrors : ∀ {c e : Cursor}, c.rest.length ≤ length → c.Beyond tail e →
    Mirrors (Cursor.Beyond tail) c e x y

section

variable (htail : StartsLine tail)

theorem persists_requireColon : Persists (Cursor.Beyond tail) requireColon := by
  intro c e h
  refine .get_bind (.ite ?_ (fun _ => .of_error rfl _) fun _ => .pure h ())
  rw [h.sawColon]

include htail

theorem persists_integer : Persists (Cursor.Beyond tail) integer := by
  refine (persists_numberToken htail).bind fun token => ?_
  cases integer? token with
  | some value => exact .pure _
  | none => exact carries_fail _ _ _

theorem persists_signedInteger (low high : Int) :
    Persists (Cursor.Beyond tail) (signedInteger low high) :=
  persists_requireColon.bind fun _ => (persists_integer htail).bind fun _ =>
    .ite ((carries_fail _ _ _).bind fun _ => .pure _) (.pure _)

theorem persists_unsignedInteger (bound : Nat) :
    Persists (Cursor.Beyond tail) (unsignedInteger bound) :=
  persists_requireColon.bind fun _ => (persists_integer htail).bind fun _ =>
    .ite ((carries_fail _ _ _).bind fun _ => .pure _) (.pure _)

theorem persists_double : Persists (Cursor.Beyond tail) double := by
  refine persists_requireColon.bind fun _ => (persists_numberToken htail).bind fun token => ?_
  cases double? token with
  | some bits => exact .pure _
  | none => exact carries_fail _ _ _

theorem persists_bool : Persists (Cursor.Beyond tail) bool := by
  refine persists_requireColon.bind fun _ => (persists_numberToken htail).bind fun token => ?_
  cases bool? token with
  | some value => exact .pure _
  | none => exact carries_fail _ _ _

theorem persists_bytes : Persists (Cursor.Beyond tail) bytes :=
  persists_requireColon.bind fun _ => persists_stringLiteral htail

theorem persists_string : Persists (Cursor.Beyond tail) string := by
  refine (persists_bytes htail).bind fun b => ?_
  cases Utf8.decode b with
  | ok s => exact .pure _
  | error e => exact carries_fail _ _ _

/-- A name or a number is needed. -/
theorem persists_enum (type : EnumType) : Persists (Cursor.Beyond tail) (enum type) := by
  refine persists_requireColon.bind fun _ => ?_
  refine carries_of_demands htail ?_ fun c e _ h => ?_
  · exact demands_identifier_bind (demands_integer.bind _)
  refine ((mirrors_identifier htail h).mono fun _ _ h => h.beyond).bind_carries fun name => ?_
  cases name with
  | some name =>
    dsimp only
    cases type.number? name with
    | some value => exact .pure _
    | none => exact carries_fail _ _ _
  | none =>
    exact (persists_integer htail).bind fun _ =>
      .ite ((carries_fail _ _ _).bind fun _ => .pure _) (.pure _)

theorem persists_scalar (kind : ScalarKind) :
    Persists (Cursor.Beyond tail) (scalar kind) := by
  cases kind with
  | int32 | sint32 | sfixed32 => exact ((persists_signedInteger htail _ _).map _).map _
  | int64 | sint64 | sfixed64 => exact ((persists_signedInteger htail _ _).map _).map _
  | uint32 | fixed32 => exact ((persists_unsignedInteger htail _).map _).map _
  | uint64 | fixed64 => exact ((persists_unsignedInteger htail _).map _).map _
  | float => exact ((persists_double htail).bind fun _ => .pure _).map _
  | double => exact (persists_double htail).map _
  | bool => exact (persists_bool htail).map _
  | enum type => exact (persists_enum htail type).map _
  | string => exact (persists_string htail).map _
  | bytes => exact (persists_bytes htail).map _

/-! ## Blocks and separators -/

theorem persists_openBlock : Persists (Cursor.Beyond tail) openBlock :=
  (persists_tryChar htail (by decide)).bind fun _ => .ite (.pure _) <|
    (persists_tryChar htail (by decide)).bind fun _ => .ite (.pure _) (carries_fail _ _ _)

omit htail in
theorem persists_enter (limit : Nat) :
    Persists (Cursor.Beyond tail) (enter limit) := by
  intro c e h _ d hrun
  by_cases hd : c.depth + 1 ≤ limit
  · rw [enter_of_le hd] at hrun
    cases hrun
    refine ⟨e.opened, enter_of_le (by rw [h.depth]; exact hd), h.rest, ?_, h.sawColon⟩
    exact congrArg (· + 1) h.depth
  · rw [enter_of_limit_lt (Nat.lt_of_not_le hd)] at hrun
    cases hrun

omit htail in
theorem persists_leave : Persists (Cursor.Beyond tail) leave := by
  intro c e h _ d hrun
  cases hrun
  exact ⟨e.closed, rfl, h.rest, congrArg (· - 1) h.depth, h.sawColon⟩

theorem persists_separator : Persists (Cursor.Beyond tail) separator :=
  (persists_tryChar htail (by decide)).bind fun _ =>
    .ite ((persists_tryChar htail (by decide)).bind fun _ => .pure _) (.pure _)

theorem persists_colon : Persists (Cursor.Beyond tail) colon := by
  refine (persists_tryChar htail (by decide)).bind fun sawColon c e h _ d hrun => ?_
  cases hrun
  exact ⟨_, rfl, h.rest, h.depth, rfl⟩

omit htail in
theorem demands_finished (close : Char) : Demands (finished (some close)) := by
  intro c found d hrun hnil
  have htry : tryChar close c = .ok false c.settle := by
    refine tryChar_eq_false.2 ⟨?_, rfl⟩
    rw [hnil]
    exact (Option.some_ne_none _).symm
  rw [finished, run_bind_of_ok htry] at hrun
  obtain ⟨next, u, hu, hlast⟩ := bind_eq_ok.1 hrun
  rw [run_peek, Cursor.settle_settle, hnil] at hu
  cases hu
  cases hlast

/-- A block does not end with the text. -/
theorem persists_finished (close : Char) :
    Persists (Cursor.Beyond tail) (finished (some close)) := by
  refine carries_of_demands htail (demands_finished close) fun c e hne h => ?_
  refine (mirrors_tryChar h hne close).bind fun found d d' hfound hd => ?_
  cases found with
  | true => exact .pure hd _
  | false =>
    obtain ⟨-, rfl⟩ := tryChar_eq_false.1 hfound
    rw [← c.settle_settle] at hne
    refine .peek_bind ?_
    rw [(hd.longer_settle htail hne).head?_eq hne]
    exact .ite .rfl (fun _ => .of_error rfl _) fun _ => .pure (hd.settle htail) _

/-! ## Skipping -/

omit htail in
theorem demands_skipScalar : Demands skipScalar := by
  intro c a d hrun
  rw [← c.settle_settle]
  rw [skipScalar, run_bind_of_ok (run_atString c)] at hrun
  split at hrun
  · exact demands_stringLiteral.bind _ _ _ _ hrun
  · exact demands_numberToken.bind _ _ _ _ hrun

theorem persists_skipScalar : Persists (Cursor.Beyond tail) skipScalar :=
  (persists_atString htail).bind fun _ =>
    .ite ((persists_stringLiteral htail).bind fun _ => .pure _)
      ((persists_numberToken htail).bind fun _ => .pure _)

omit htail in
theorem EndsBlock.not_startsName {close : Char} (h : EndsBlock close) :
    startsName (byte close) = false := by
  rcases h with rfl | rfl <;> decide

/-- Whether a list comes next is asked where something must come, so no name in brackets is taken
from the tail. -/
theorem carries_list {list list' scalar scalar' : Scan α} (hdemands : Demands scalar)
    (hscalar : Carries (Cursor.Beyond tail) scalar scalar')
    (hlist : Carries (Cursor.Beyond tail) list list') :
    Carries (Cursor.Beyond tail)
      (do if (← peek) = some (byte '[') then list else scalar)
      (do if (← peek) = some (byte '[') then list' else scalar') := by
  intro c e h
  refine .peek_bind ?_
  rcases h.settle_cases htail with ⟨hne, hlonger⟩ | ⟨hnil, -⟩
  · rw [hlonger.head?_eq hne]
    exact .ite .rfl (fun _ => hlist _ _ hlonger.beyond) fun _ => hscalar _ _ hlonger.beyond
  · intro a d hrun
    rw [hnil, List.head?_nil, if_neg (Option.some_ne_none _).symm] at hrun
    refine absurd ?_ (hdemands _ _ _ hrun)
    rw [Cursor.settle_settle, hnil]

/-- With more rounds no less is skipped. -/
theorem carries_skip (limit : Nat) {rounds rounds' : Nat} (hrounds : rounds ≤ rounds') :
    (∀ sawColon, Carries (Cursor.Beyond tail) (skipValue limit rounds sawColon)
      (skipValue limit rounds' sawColon)) ∧
    Carries (Cursor.Beyond tail) (skipBlock limit rounds) (skipBlock limit rounds') ∧
    (∀ close, EndsBlock close → Carries (Cursor.Beyond tail) (skipFields limit close rounds)
      (skipFields limit close rounds')) ∧
    Carries (Cursor.Beyond tail) (skipElements limit rounds) (skipElements limit rounds') := by
  induction rounds generalizing rounds' with
  | zero =>
    exact ⟨fun _ => carries_fail _ _ _, carries_fail _ _ _, fun _ _ => carries_fail _ _ _,
      carries_fail _ _ _⟩
  | succ rounds ih =>
    obtain ⟨rounds', rfl⟩ : ∃ count, rounds' = count + 1 := ⟨rounds' - 1, by omega⟩
    obtain ⟨hvalue, hblock, hfields, helements⟩ := ih (Nat.le_of_succ_le_succ hrounds)
    refine ⟨fun sawColon => ?_, ?_, fun close hclose => ?_, ?_⟩
    · refine (persists_atBlock htail).bind fun _ => .ite hblock (.ite ?_ (carries_fail _ _ _))
      refine carries_list htail demands_skipScalar (persists_skipScalar htail) ?_
      exact (persists_expect htail _).bind fun _ => (persists_tryChar htail (by decide)).bind
        fun _ => .ite helements (.pure _)
    · intro c e h
      refine (persists_openBlock htail c e h).bind fun close d d' hopen hd => ?_
      exact ((persists_enter limit).bind fun _ => (hfields close (openBlock_eq_ok hopen).1).bind
        fun _ => persists_leave) d d' hd
    · refine (persists_tryChar htail ?_).bind fun _ => .ite ?_ (.pure _)
      · exact hclose.not_startsName
      · exact (persists_fieldName htail).bind fun _ => (persists_tryChar htail (by decide)).bind
          fun sawColon => (hvalue sawColon).bind fun _ => (persists_separator htail).bind fun _ =>
            hfields close hclose
    · have hrest : Carries (Cursor.Beyond tail)
          (do
            if !(← tryChar ']') then
              expect ','
              skipElements limit rounds : Scan Unit)
          (do
            if !(← tryChar ']') then
              expect ','
              skipElements limit rounds') :=
        (persists_tryChar htail (by decide)).bind fun _ =>
          .ite ((persists_expect htail _).bind fun _ => helements) (.pure _)
      exact (persists_atBlock htail).bind fun _ =>
        .ite (hblock.bind fun _ => hrest) ((persists_skipScalar htail).bind fun _ => hrest)

/-! ## Lists and map entries -/

theorem mirrors_elements {length : Nat} {x y : Scan α} (hx : ReadsBoth tail length x y)
    {rounds rounds' : Nat} (hrounds : rounds ≤ rounds') (l : List α) {c e : Cursor}
    (h : c.Beyond tail e) (hlength : c.rest.length ≤ length) (hlt : c.rest.length < rounds) :
    Mirrors (alongside (Cursor.Beyond tail)) (l, c) (l, e) (elements x rounds)
      (elements y rounds') := by
  induction rounds generalizing rounds' l c e with
  | zero => omega
  | succ rounds ih =>
    obtain ⟨rounds', rfl⟩ : ∃ count, rounds' = count + 1 := ⟨rounds' - 1, by omega⟩
    refine (hx.mirrors hlength h).read_bind fun a d d' hd hbeyond => ?_
    have hle := hx.moves.length_le hd
    refine .update_bind ?_
    refine (persists_tryChar htail (by decide) _ _ hbeyond).read_bind
      fun found u u' hu hbeyond => ?_
    have htry := (moves_tryChar ']').length_le hu
    refine .ite .rfl (fun _ => ?_) fun _ => .pure ⟨rfl, hbeyond⟩ ()
    refine (persists_expect htail ',' u u' hbeyond).read_bind fun _ v v' hv hbeyond => ?_
    have hshrinks := shrinks_expect ',' u () v hv
    exact ih (Nat.le_of_succ_le_succ hrounds) _ hbeyond (by omega) (by omega)

/-- A field without an element does not end the text, so no element is taken from the tail. -/
theorem mirrors_repeated {length : Nat} {x y : Scan α} (hx : ReadsBoth tail length x y)
    (l : List α) {c e : Cursor} (h : c.Beyond tail e) (hlength : c.rest.length ≤ length) :
    Mirrors (alongside (Cursor.Beyond tail)) (l, c) (l, e) (repeated x) (repeated y) := by
  rcases h.settle_cases htail with ⟨hne, hlonger⟩ | ⟨hnil, -⟩
  · refine (mirrors_tryChar hlonger hne '[').read_bind fun found d d' hd hbeyond => ?_
    have hle := (moves_tryChar '[').length_le hd
    refine .ite .rfl (fun _ => ?_) fun _ => ?_
    · refine (persists_tryChar htail (by decide) d d' hbeyond).read_bind
        fun found u u' hu hbeyond => ?_
      have htry := (moves_tryChar ']').length_le hu
      refine .ite .rfl (fun _ => ?_) fun _ => .pure ⟨rfl, hbeyond⟩ ()
      exact mirrors_elements htail hx (Nat.succ_le_succ hbeyond.length_le) l hbeyond (by omega)
        (Nat.lt_succ_self _)
    · exact (hx.mirrors (by omega) hbeyond).read_bind fun a u u' _ hbeyond => .update hbeyond _
  · rintro _ p hrun
    obtain ⟨found, d, hd, hnext⟩ := read_bind_eq_ok.1 hrun
    cases found with
    | true =>
      have hhead := (tryChar_eq_true.1 hd).1
      rw [hnil] at hhead
      cases hhead
    | false =>
      obtain ⟨-, rfl⟩ := tryChar_eq_false.1 hd
      obtain ⟨a, u, hu, -⟩ := read_bind_eq_ok.1 hnext
      refine absurd ?_ (hx.demands _ _ _ hu)
      rw [Cursor.settle_settle, hnil]

theorem mirrors_entryFields {length : Nat} {readKey readKey' : Scan κ}
    {readValue readValue' : Scan ν} (hkey : ReadsBoth tail length readKey readKey')
    (hvalue : ReadsBoth tail length readValue readValue') {close : Char} (hclose : EndsBlock close)
    {rounds rounds' : Nat} (hrounds : rounds ≤ rounds') (entry : κ × ν) {c e : Cursor}
    (h : c.Beyond tail e) (hlength : c.rest.length ≤ length) (hlt : c.rest.length < rounds) :
    Mirrors (alongside (Cursor.Beyond tail)) (entry, c) (entry, e)
      (entryFields readKey readValue close rounds)
      (entryFields readKey' readValue' close rounds') := by
  induction rounds generalizing rounds' entry c e with
  | zero => omega
  | succ rounds ih =>
    obtain ⟨rounds', rfl⟩ : ∃ count, rounds' = count + 1 := ⟨rounds' - 1, by omega⟩
    refine (persists_tryChar htail hclose.not_startsName c e h).read_bind
      fun found d d' hd hbeyond => ?_
    have htry := (moves_tryChar close).length_le hd
    refine .ite .rfl (fun _ => ?_) fun _ => .pure ⟨rfl, hbeyond⟩ ()
    refine .line_bind fun line line' => ?_
    have hsettle := d.length_settle_le
    refine (persists_fieldName htail _ _ (hbeyond.settle htail)).read_bind
      fun name u u' hu hbeyond => ?_
    have hname := shrinks_fieldName _ name u hu
    refine (persists_colon htail u u' hbeyond).read_bind fun _ v v' hv hbeyond => ?_
    have hcolon := moves_colon.length_le hv
    have hbehind : ∀ (entry : κ × ν) {w w' : Cursor}, w.Beyond tail w' →
        w.rest.length ≤ v.rest.length →
        Mirrors (alongside (Cursor.Beyond tail)) (entry, w) (entry, w')
          (do
            Build.read separator
            entryFields readKey readValue close rounds)
          (do
            Build.read separator
            entryFields readKey' readValue' close rounds') := by
      intro entry w w' hw hle
      refine (persists_separator htail w w' hw).read_bind fun _ x x' hx hbeyond => ?_
      have hseparator := moves_separator.length_le hx
      exact ih (Nat.le_of_succ_le_succ hrounds) entry hbeyond (by omega) (by omega)
    refine .ite .rfl (fun _ => ?_) fun _ => .ite .rfl (fun _ => ?_) fun _ => .of_error rfl _
    · refine (hkey.mirrors (by omega) hbeyond).read_bind fun key w w' hw hbeyond => ?_
      exact .update_bind (hbehind _ hbeyond (hkey.moves.length_le hw))
    · refine (hvalue.mirrors (by omega) hbeyond).read_bind fun value w w' hw hbeyond => ?_
      exact .update_bind (hbehind _ hbeyond (hvalue.moves.length_le hw))

theorem readsBoth_mapEntry {limit length : Nat} {zero : κ × ν} {readKey readKey' : Scan κ}
    {readValue readValue' : Scan ν} (hkey : ReadsBoth tail length readKey readKey')
    (hvalue : ReadsBoth tail length readValue readValue') :
    ReadsBoth tail length (mapEntry limit zero readKey readValue)
      (mapEntry limit zero readKey' readValue') := by
  refine ⟨moves_mapEntry hkey.moves hvalue.moves, demands_openBlock.bind _,
    fun {c e} hlength h => ?_⟩
  refine (persists_openBlock htail c e h).bind fun close d d' hd hbeyond => ?_
  refine (persists_enter limit d d' hbeyond).bind fun _ u u' hu hbeyond => ?_
  have hlt := length_lt_of_enter hd hu
  refine (Mirrors.alone ?_).bind_carries fun entry => persists_leave.bind fun _ => .pure entry
  exact mirrors_entryFields htail hkey hvalue (openBlock_eq_ok hd).1
    (Nat.succ_le_succ hbeyond.length_le) zero hbeyond (by omega) (Nat.lt_succ_self _)

end

end Scan

end Text

end Protobuf
