import Protobuf.Proofs.Text.Skipping

/-!
# Turns of the loops over text

A turn of a loop over text either ends the loop or reads at least one byte before it goes on
(`Text.Proceeds`). The number of turns is therefore bounded by the bytes that are left, and a loop
with enough rounds satisfies its equation without rounds, which has one solution (`Text.Ends`). This
holds of the elements of a list, the fields of a map entry, the characters of a literal, literals in
a row, what is skipped, and the fields of a message.
-/

namespace Protobuf

open Build

variable {ι σ τ α β : Type}

namespace Text

/-- The turn goes on only behind a byte that it read. Two ways to go on that agree on all places
further on come to the same. -/
def Proceeds (place : σ → Cursor)
    (turn : (ι → EStateM Error σ α) → ι → EStateM Error σ α) : Prop :=
  ∀ (next next' : ι → EStateM Error σ α) (i : ι) (s : σ), (∀ j, Moves place (next j)) →
    (∀ j t, (place t).rest.length < (place s).rest.length → next j t = next' j t) →
      turn next i s = turn next' i s

namespace Proceeds

variable {place : σ → Cursor} {turn : (ι → EStateM Error σ α) → ι → EStateM Error σ α}

/-- With more rounds than bytes are left, their number makes no difference. -/
theorem rounds (hturn : Proceeds place turn) {loop : Nat → ι → EStateM Error σ α}
    (hmoves : ∀ n i, Moves place (loop n i)) (hsucc : ∀ n i, loop (n + 1) i = turn (loop n) i)
    (n n' : Nat) (i : ι) (s : σ) (h : (place s).rest.length < n)
    (h' : (place s).rest.length < n') :
    loop n i s = loop n' i s := by
  induction n generalizing n' i s with
  | zero => omega
  | succ n ih =>
    cases n' with
    | zero => omega
    | succ n' =>
      rw [hsucc, hsucc]
      exact hturn _ _ i s (hmoves n) fun j t ht => ih n' j t (by omega) (by omega)

/-- A loop that has a round for each byte that is left, and one more, goes on like itself. -/
theorem fixed (hturn : Proceeds place turn) (loop : Nat → ι → EStateM Error σ α)
    (whole : ι → EStateM Error σ α) (hmoves : ∀ n i, Moves place (loop n i))
    (hsucc : ∀ n i, loop (n + 1) i = turn (loop n) i)
    (hwhole : ∀ i s, whole i s = loop ((place s).rest.length + 1) i s) (i : ι) :
    whole i = turn whole i := by
  funext s
  rw [hwhole, hsucc]
  refine hturn _ _ i s (hmoves _) fun j t ht => ?_
  rw [hwhole]
  exact hturn.rounds hmoves hsucc _ _ j t ht (Nat.lt_succ_self _)

end Proceeds

/-- The loop goes on turn by turn, and each turn ends it or reads a byte. So it ends on every text:
nothing else goes on like that. -/
structure Ends (place : σ → Cursor) (turn : (ι → EStateM Error σ α) → ι → EStateM Error σ α)
    (loop : ι → EStateM Error σ α) : Prop where
  proceeds : Proceeds place turn
  turns : ∀ i, loop i = turn loop i
  unique : ∀ f : ι → EStateM Error σ α, (∀ i, f i = turn f i) → f = loop

theorem Proceeds.ends {place : σ → Cursor}
    {turn : (ι → EStateM Error σ α) → ι → EStateM Error σ α} {loop : ι → EStateM Error σ α}
    (hturn : Proceeds place turn) (hmoves : ∀ i, Moves place (loop i))
    (hturns : ∀ i, loop i = turn loop i) : Ends place turn loop := by
  refine ⟨hturn, hturns, fun f hf => ?_⟩
  have hagree : ∀ n i s, (place s).rest.length < n → f i s = loop i s := by
    intro n
    induction n with
    | zero => exact fun i s h => absurd h (Nat.not_lt_zero _)
    | succ n ih =>
      intro i s h
      rw [hf i, hturns i]
      exact (hturn loop f i s hmoves fun j t ht => (ih j t (by omega)).symm).symm
  funext i s
  exact hagree _ i s (Nat.lt_succ_self _)

theorem run_read_bind_congr {x : Scan α} {f g : α → Build Cursor σ β} {s : σ} {c : Cursor}
    (h : ∀ a d, x c = .ok a d → f a (s, d) = g a (s, d)) :
    (read x >>= f) (s, c) = (read x >>= g) (s, c) := by
  refine run_bind_congr ?_
  rintro a ⟨s', d⟩ hd
  obtain ⟨hx, rfl⟩ := read_eq_ok.1 hd
  exact h a d hx

theorem run_read_congr {x y : Scan α} {s : σ} {c : Cursor} (h : x c = y c) :
    (read x : Build Cursor σ α) (s, c) = read y (s, c) := by
  rw [run_read, run_read, h]

namespace Scan

/-! ## Lists -/

/-- What is done for an element of a list, given how the elements behind it are read. -/
def listTurn (read : Scan α) (next : Build Cursor (List α) Unit) :
    Build Cursor (List α) Unit := do
  let a ← Build.read read
  update (· ++ [a])
  if !(← Build.read (tryChar ']')) then
    Build.read (expect ',')
    next

/-- Reads the elements of a list up to its end. -/
def listLoop (read : Scan α) : Build Cursor (List α) Unit := do
  elements read ((← source).rest.length + 1)

theorem proceeds_listTurn {read : Scan α} (hread : Moves id read) :
    Proceeds Prod.snd fun next (_ : Unit) => listTurn read (next ()) := by
  rintro next next' - ⟨as, c⟩ - h
  refine run_read_bind_congr fun a d hd => run_bind_congr fun _ t ht => ?_
  cases ht
  refine run_read_bind_congr fun closed u hu => run_ite_congr (fun _ => ?_) fun _ => rfl
  refine run_read_bind_congr fun _ v hv => h () _ ?_
  have hlt := shrinks_expect ',' u _ v hv
  have hclosed := (moves_tryChar ']').length_le hu
  have hle := hread.length_le hd
  show v.rest.length < c.rest.length
  omega

theorem moves_listLoop {read : Scan α} (hread : Moves id read) : Moves Prod.snd (listLoop read) :=
  Moves.source.bind fun _ => moves_elements hread _

theorem ends_listLoop {read : Scan α} (hread : Moves id read) :
    Ends Prod.snd (fun next (_ : Unit) => listTurn read (next ())) fun _ => listLoop read :=
  (proceeds_listTurn hread).ends (fun _ => moves_listLoop hread)
    ((proceeds_listTurn hread).fixed (fun n _ => elements read n) (fun _ => listLoop read)
      (fun n _ => moves_elements hread n) (fun _ _ => rfl) fun _ _ => rfl)

/-! ## Map entries -/

section

variable {κ ν : Type} {readKey : Scan κ} {readValue : Scan ν}

/-- What is done for a field of a map entry, given how the fields behind it are read. -/
def entryTurn (readKey : Scan κ) (readValue : Scan ν)
    (next : Char → Build Cursor (κ × ν) Unit) (close : Char) : Build Cursor (κ × ν) Unit := do
  if !(← read (tryChar close)) then
    let line ← read line
    let name ← read fieldName
    read colon
    if name = .plain "key" then
      let key ← read readKey
      update fun entry => (key, entry.2)
    else if name = .plain "value" then
      let value ← read readValue
      update fun entry => (entry.1, value)
    else throw (.unknownField name.display line)
    read separator
    next close

/-- Reads the fields of a map entry up to the closing character. -/
def entryLoop (readKey : Scan κ) (readValue : Scan ν) (close : Char) :
    Build Cursor (κ × ν) Unit := do
  entryFields readKey readValue close ((← source).rest.length + 1)

theorem proceeds_entryTurn (hkey : Moves id readKey) (hvalue : Moves id readValue) :
    Proceeds Prod.snd (entryTurn readKey readValue) := by
  rintro next next' close ⟨entry, c⟩ - h
  refine run_read_bind_congr fun closed d hd => run_ite_congr (fun _ => ?_) fun _ => rfl
  have hclose := (moves_tryChar close).length_le hd
  refine run_read_bind_congr fun line u hu => run_read_bind_congr fun name v hv => ?_
  have hline := moves_line.length_le hu
  have hlt := shrinks_fieldName u name v hv
  have hbehind : ∀ (entry : κ × ν) (w : Cursor), w.rest.length ≤ v.rest.length →
      (do read separator; next close : Build Cursor (κ × ν) Unit) (entry, w) =
        (do read separator; next' close : Build Cursor (κ × ν) Unit) (entry, w) := by
    refine fun entry w hw => run_read_bind_congr fun _ x hx => h close _ ?_
    have hseparator := moves_separator.length_le hx
    show x.rest.length < c.rest.length
    omega
  refine run_read_bind_congr fun _ w hw => ?_
  have hcolon := moves_colon.length_le hw
  refine run_ite_congr (fun _ => ?_) fun _ => run_ite_congr (fun _ => ?_) fun _ => rfl
  · refine run_read_bind_congr fun key x hx => hbehind _ x ?_
    exact Nat.le_trans (hkey.length_le hx) hcolon
  · refine run_read_bind_congr fun value x hx => hbehind _ x ?_
    exact Nat.le_trans (hvalue.length_le hx) hcolon

theorem moves_entryLoop (hkey : Moves id readKey) (hvalue : Moves id readValue) (close : Char) :
    Moves Prod.snd (entryLoop readKey readValue close) :=
  Moves.source.bind fun _ => moves_entryFields hkey hvalue close _

theorem ends_entryLoop (hkey : Moves id readKey) (hvalue : Moves id readValue) :
    Ends Prod.snd (entryTurn readKey readValue) (entryLoop readKey readValue) :=
  (proceeds_entryTurn hkey hvalue).ends (moves_entryLoop hkey hvalue)
    ((proceeds_entryTurn hkey hvalue).fixed
      (fun n close => entryFields readKey readValue close n) (entryLoop readKey readValue)
      (fun n close => moves_entryFields hkey hvalue close n) (fun _ _ => rfl) fun _ _ => rfl)

end

/-! ## Literals -/

/-- What is done for a character of a literal, given how the characters behind it are read. -/
def literalTurn (next : UInt8 → Build Cursor Bytes Unit) (quote : UInt8) :
    Build Cursor Bytes Unit := do
  let b? ← Build.read anyByte
  b?.elim (Build.read (fail .unterminatedString)) fun b => do
    if b = byte '\n' then Build.read (fail .newlineInString)
    else if b = byte '\\' then
      let bytes ← Build.read escape
      Build.update (· ++ bytes)
      next quote
    else if b = quote then pure ()
    else
      Build.update (· ++ [b])
      next quote

/-- Reads a string literal up to its closing quote. -/
def literalLoop (quote : UInt8) : Build Cursor Bytes Unit := do
  literalBody quote ((← source).rest.length + 1)

/-- What is done for a literal, given how the literals behind it are read. -/
def literalsTurn (next : Build Cursor Bytes Unit) : Build Cursor Bytes Unit := do
  if ← Build.read atString then
    let quote? ← Build.read anyByte
    quote?.elim (pure ()) fun quote => do
      literalLoop quote
      next

/-- Reads string literals as long as one follows the other. -/
def literalsLoop : Build Cursor Bytes Unit := do
  literals ((← source).rest.length + 1)

theorem proceeds_literalTurn : Proceeds Prod.snd literalTurn := by
  rintro next next' quote ⟨bytes, c⟩ - h
  refine run_read_bind_congr fun b? d hd => ?_
  cases b? with
  | none => rfl
  | some b =>
    have hlt := length_lt_of_anyByte hd
    refine run_ite_congr (fun _ => rfl) fun _ => run_ite_congr (fun _ => ?_) fun _ =>
      run_ite_congr (fun _ => rfl) fun _ => h quote (_, d) hlt
    refine run_read_bind_congr fun more u hu => h quote (_, u) ?_
    exact Nat.lt_of_le_of_lt (moves_escape.length_le hu) hlt

theorem literalBody_succ (quote : UInt8) (rounds : Nat) :
    literalBody quote (rounds + 1) =
      literalTurn (fun quote => literalBody quote rounds) quote := by
  refine bind_congr fun b? => ?_
  cases b? <;> rfl

theorem moves_literalLoop (quote : UInt8) : Moves Prod.snd (literalLoop quote) :=
  Moves.source.bind fun _ => moves_literalBody quote _

theorem ends_literalLoop : Ends Prod.snd literalTurn literalLoop :=
  proceeds_literalTurn.ends moves_literalLoop
    (proceeds_literalTurn.fixed (fun n quote => literalBody quote n) literalLoop
      (fun n quote => moves_literalBody quote n) (fun n quote => literalBody_succ quote n)
      fun _ _ => rfl)

theorem proceeds_literalsTurn :
    Proceeds Prod.snd fun next (_ : Unit) => literalsTurn (next ()) := by
  rintro next next' - ⟨bytes, c⟩ - h
  refine run_read_bind_congr fun found d hd => run_ite_congr (fun _ => ?_) fun _ => rfl
  have hstring := moves_atString.length_le hd
  refine run_read_bind_congr fun quote? u hu => ?_
  cases quote? with
  | none => rfl
  | some quote =>
    have hlt := length_lt_of_anyByte hu
    refine run_bind_congr fun _ t ht => h () t ?_
    have hle := ((moves_literalLoop quote _).before ht).length_le
    show t.2.rest.length < c.rest.length
    exact Nat.lt_of_le_of_lt hle (Nat.lt_of_lt_of_le hlt hstring)

theorem literals_succ (rounds : Nat) : literals (rounds + 1) = literalsTurn (literals rounds) := by
  refine bind_congr fun found => ?_
  split
  · refine bind_congr fun quote? => ?_
    cases quote? <;> rfl
  · rfl

theorem moves_literalsLoop : Moves Prod.snd literalsLoop :=
  Moves.source.bind fun _ => moves_literals _

theorem ends_literalsLoop :
    Ends Prod.snd (fun next (_ : Unit) => literalsTurn (next ())) fun _ => literalsLoop :=
  proceeds_literalsTurn.ends (fun _ => moves_literalsLoop)
    (proceeds_literalsTurn.fixed (fun n _ => literals n) (fun _ => literalsLoop)
      (fun n _ => moves_literals n) (fun n _ => literals_succ n) fun _ _ => rfl)

/-! ## Skipping -/

/-- What is done for a field or an element that is skipped, given how those behind it are skipped:
the fields up to a closing character, or the elements up to the end of a list. -/
def skipTurn (limit : Nat) (next : Option Char → Scan Unit) (close? : Option Char) : Scan Unit :=
  let block := blockTurn limit fun close => next (some close)
  close?.elim (elementsTurn block (next none)) fun close =>
    fieldsTurn close (valueTurn block (next none)) (next (some close))

/-- Passes over the fields up to a closing character, or the elements up to the end of a list. -/
def passLoop (limit : Nat) (close? : Option Char) : Scan Unit :=
  close?.elim (passElements limit) (passFields limit)

theorem moves_blockTurn {limit : Nat} {fields : Char → Scan Unit}
    (hfields : ∀ close, Moves id (fields close)) : Moves id (blockTurn limit fields) :=
  moves_openBlock.bind fun close => moves_enter (hfields close) fun _ _ => ⟨(), rfl⟩

theorem moves_valueTurn {block elements : Scan Unit} (hblock : Moves id block)
    (helements : Moves id elements) (sawColon : Bool) :
    Moves id (valueTurn block elements sawColon) := by
  refine moves_atBlock.bind fun _ => .ite hblock (.ite ?_ (moves_fail _))
  refine moves_peek.bind fun _ => .ite ?_ moves_skipScalar
  exact (moves_expect _).bind fun _ => (moves_tryChar _).bind fun _ => .ite helements (.pure _)

theorem proceeds_skipTurn (limit : Nat) : Proceeds id (skipTurn limit) := by
  intro next next' close? c hmoves h
  have hblocks : Moves id (blockTurn limit fun close => next (some close)) :=
    moves_blockTurn fun close => hmoves (some close)
  have hblock : ∀ d : Cursor, d.rest.length ≤ c.rest.length →
      blockTurn limit (fun close => next (some close)) d =
        blockTurn limit (fun close => next' (some close)) d :=
    fun d hd => blockTurn_congr limit fun close u hu => h (some close) u (Nat.lt_of_lt_of_le hu hd)
  cases close? with
  | none => exact elementsTurn_congr hblocks hblock (h none)
  | some close =>
    refine fieldsTurn_congr (moves_valueTurn hblocks (hmoves none)) (fun sawColon d hd => ?_)
      (h (some close)) close
    exact valueTurn_congr (fun u hu => hblock u (Nat.le_trans hu (Nat.le_of_lt hd)))
      (fun u hu => h none u (Nat.lt_trans hu hd)) sawColon

theorem passLoop_eq (limit : Nat) (close? : Option Char) :
    passLoop limit close? = skipTurn limit (passLoop limit) close? := by
  have hblock : blockTurn limit (fun close => passLoop limit (some close)) = passBlock limit :=
    (passBlock_eq limit).symm
  cases close? with
  | none =>
    show passElements limit = elementsTurn (blockTurn limit _) (passElements limit)
    rw [hblock]
    exact passElements_eq limit
  | some close =>
    have hvalue : valueTurn (passBlock limit) (passElements limit) = passValue limit :=
      funext fun sawColon => (passValue_eq limit sawColon).symm
    show passFields limit close = fieldsTurn close (valueTurn (blockTurn limit _)
      (passElements limit)) (passFields limit close)
    rw [hblock, hvalue]
    exact passFields_eq limit close

theorem moves_passLoop (limit : Nat) (close? : Option Char) : Moves id (passLoop limit close?) := by
  cases close? with
  | none =>
    intro c
    have hmoves := (moves_skip limit (2 * c.rest.length + 2)).2.2.2 c
    exact ⟨fun h => hmoves.before h, fun h => hmoves.reaches h⟩
  | some close =>
    intro c
    have hmoves := (moves_skip limit (2 * c.rest.length + 1)).2.2.1 close c
    exact ⟨fun h => hmoves.before h, fun h => hmoves.reaches h⟩

theorem ends_passLoop (limit : Nat) : Ends id (skipTurn limit) (passLoop limit) :=
  (proceeds_skipTurn limit).ends (moves_passLoop limit) (passLoop_eq limit)

end Scan

/-! ## Fields -/

section

variable {options : ParseOptions} {limit : Nat} {body body' : MergeBody} {m : Message} {c : Cursor}

/-- What is done inside a block lies behind the byte that opens it. -/
theorem block_congr
    (h : ∀ close? m (d : Cursor), d.rest.length < c.rest.length →
      body close? (m, d) = body' close? (m, d)) :
    block limit body (m, c) = block limit body' (m, c) := by
  refine run_read_bind_congr fun close d hd => run_read_bind_congr fun _ u hu => ?_
  exact run_bind_congr_left (h _ m u (Scan.length_lt_of_enter hd hu)) fun _ _ _ => rfl

theorem value_congr
    (h : ∀ close? m (d : Cursor), d.rest.length < c.rest.length →
      body close? (m, d) = body' close? (m, d)) (kind : FieldKind) :
    value limit body kind c = value limit body' kind c := by
  cases kind with
  | scalar kind => rfl
  | message type | group type =>
    rw [value, value, run_map, run_map, run_alone, run_alone, block_congr h]

namespace Scan

theorem elements_congr {read read' : Scan α} (hmoves : Moves id read) {as : List α}
    (h : ∀ d : Cursor, d.rest.length ≤ c.rest.length → read d = read' d) (rounds : Nat) :
    elements read rounds (as, c) = elements read' rounds (as, c) := by
  induction rounds generalizing c as with
  | zero => rfl
  | succ rounds ih =>
    refine run_bind_congr_left (run_read_congr (h c (Nat.le_refl _))) ?_
    rintro a ⟨_, d⟩ hd
    have hle := hmoves.length_le (read_eq_ok.1 hd).1
    refine run_bind_congr fun _ t ht => ?_
    cases ht
    refine run_read_bind_congr fun closed u hu => run_ite_congr (fun _ => ?_) fun _ => rfl
    refine run_read_bind_congr fun _ v hv => ih fun w hw => h w ?_
    have hclosed := (moves_tryChar ']').length_le hu
    have hcomma := (moves_expect ',').length_le hv
    omega

theorem repeated_congr {read read' : Scan α} (hmoves : Moves id read) {as : List α}
    (h : ∀ d : Cursor, d.rest.length ≤ c.rest.length → read d = read' d) :
    repeated read (as, c) = repeated read' (as, c) := by
  refine run_read_bind_congr fun found d hd => ?_
  have hle := (moves_tryChar '[').length_le hd
  refine run_ite_congr (fun _ => ?_) fun _ => ?_
  · refine run_read_bind_congr fun closed u hu => run_ite_congr (fun _ => ?_) fun _ => rfl
    have hclosed := (moves_tryChar ']').length_le hu
    refine run_bind_congr fun _ t ht => ?_
    cases ht
    exact elements_congr hmoves (fun v hv => h v (by omega)) _
  · exact run_bind_congr_left (run_read_congr (h d hle)) fun _ _ _ => rfl

variable {κ ν : Type} {readKey : Scan κ} {readValue readValue' : Scan ν}

theorem entryFields_congr (hkey : Moves id readKey) (hvalue : Moves id readValue) {entry : κ × ν}
    (h : ∀ d : Cursor, d.rest.length ≤ c.rest.length → readValue d = readValue' d) (close : Char)
    (rounds : Nat) :
    entryFields readKey readValue close rounds (entry, c) =
      entryFields readKey readValue' close rounds (entry, c) := by
  induction rounds generalizing c entry with
  | zero => rfl
  | succ rounds ih =>
    refine run_read_bind_congr fun closed d hd => run_ite_congr (fun _ => ?_) fun _ => rfl
    refine run_read_bind_congr fun line u hu => run_read_bind_congr fun name v hv =>
      run_read_bind_congr fun _ w hw => ?_
    have hle : w.rest.length ≤ c.rest.length := by
      have hclose := (moves_tryChar close).length_le hd
      have hline := moves_line.length_le hu
      have hname := moves_fieldName.length_le hv
      have hcolon := moves_colon.length_le hw
      omega
    have hbehind : ∀ (entry : κ × ν) (x : Cursor), x.rest.length ≤ w.rest.length →
        (do Build.read separator; entryFields readKey readValue close rounds :
          Build Cursor (κ × ν) Unit) (entry, x) =
        (do Build.read separator; entryFields readKey readValue' close rounds :
          Build Cursor (κ × ν) Unit) (entry, x) := by
      refine fun entry x hx => run_read_bind_congr fun _ y hy => ih fun z hz => h z ?_
      have hseparator := moves_separator.length_le hy
      omega
    refine run_ite_congr (fun _ => ?_) fun _ => run_ite_congr (fun _ => ?_) fun _ => rfl
    · exact run_read_bind_congr fun key x hx => hbehind _ x (hkey.length_le hx)
    · refine run_bind_congr_left (run_read_congr (h w hle)) ?_
      rintro value ⟨_, x⟩ hread
      obtain ⟨hx, rfl⟩ := read_eq_ok.1 hread
      exact hbehind _ x (hvalue.length_le hx)

theorem mapEntry_congr (hkey : Moves id readKey) (hvalue : Moves id readValue) {zero : κ × ν}
    (h : ∀ d : Cursor, d.rest.length ≤ c.rest.length → readValue d = readValue' d) :
    mapEntry limit zero readKey readValue c = mapEntry limit zero readKey readValue' c := by
  refine run_bind_congr fun close d hd => run_bind_congr fun _ u hu => ?_
  have hlt := length_lt_of_enter hd hu
  refine run_bind_congr_left ?_ fun _ _ _ => rfl
  rw [run_alone, run_alone]
  have hfields : (do entryFields readKey readValue close ((← source).rest.length + 1) :
      Build Cursor (κ × ν) Unit) (zero, u) =
      (do entryFields readKey readValue' close ((← source).rest.length + 1) :
        Build Cursor (κ × ν) Unit) (zero, u) := by
    refine run_bind_congr fun _ t ht => ?_
    cases ht
    exact entryFields_congr hkey hvalue (fun v hv => h v (by omega)) close _
  rw [hfields]

end Scan

theorem mergeMember_congr (hbody : ∀ close?, Moves Prod.snd (body close?))
    (h : ∀ close? m (d : Cursor), d.rest.length < c.rest.length →
      body close? (m, d) = body' close? (m, d))
    (name : String) (member : Member) (slot : Slot Message) :
    mergeMember limit body name member (slot, c) =
      mergeMember limit body' name member (slot, c) := by
  have hvalue : ∀ kind (d : Cursor), d.rest.length ≤ c.rest.length →
      value limit body kind d = value limit body' kind d :=
    fun kind d hd => value_congr (fun close? m u hu => h close? m u (by omega)) kind
  cases member with
  | plain number label kind => rfl
  | optional field required =>
    rw [mergeMember, mergeMember]
    cases field.kind with
    | scalar kind => rfl
    | message type | group type =>
      show zoom _ _ _ _ = zoom _ _ _ _
      rw [run_zoom, run_zoom, block_congr h]
  | packed number label kind => rfl
  | repeated field =>
    rw [mergeMember, mergeMember, run_zoom, run_zoom,
      Scan.repeated_congr (moves_value hbody field.kind) (hvalue field.kind)]
  | map number label key kind =>
    exact run_bind_congr_left (run_read_congr (Scan.mapEntry_congr (Scan.moves_scalar key)
      (moves_value hbody kind) (hvalue kind))) fun _ _ _ => rfl
  | oneof fields =>
    rw [mergeMember, mergeMember]
    cases fields.find? (·.name = name) with
    | none => rfl
    | some field =>
      exact run_bind_congr_left (run_read_congr (hvalue field.kind c (Nat.le_refl _)))
        fun _ _ _ => rfl
  | payload number label => rfl

theorem mergeField_congr (hbody : ∀ close?, Moves Prod.snd (body close?))
    (h : ∀ close? m (d : Cursor), d.rest.length < c.rest.length →
      body close? (m, d) = body' close? (m, d)) (name : String) :
    mergeField limit body name (m, c) = mergeField limit body' name (m, c) := by
  rw [mergeField, mergeField]
  cases Message.member? m.type (·.hasName name) with
  | none => rfl
  | some found =>
    obtain ⟨i, member⟩ := found
    refine run_bind_congr_left ?_ fun _ _ _ => rfl
    show zoom _ _ _ _ = zoom _ _ _ _
    rw [run_zoom, run_zoom, mergeMember_congr hbody h]

theorem mergeNamed_congr (hbody : ∀ close?, Moves Prod.snd (body close?))
    (h : ∀ close? m (d : Cursor), d.rest.length < c.rest.length →
      body close? (m, d) = body' close? (m, d)) (name : FieldName) :
    mergeNamed options body name (m, c) = mergeNamed options body' name (m, c) := by
  rw [mergeNamed, mergeNamed, run_bind_of_ok (run_current m c), run_bind_of_ok (run_current m c)]
  cases name with
  | plain name => exact mergeField_congr hbody h name
  | number number =>
    dsimp only
    cases m.type.textName? number with
    | none => rfl
    | some name => exact mergeField_congr hbody h name
  | bracketed url =>
    refine run_ite_congr (fun _ => run_ite_congr (fun _ => ?_) fun _ => rfl)
      fun _ => mergeField_congr hbody h _
    refine run_bind_congr_left ?_ fun _ _ _ => rfl
    unfold mergeExpanded
    cases options.known?.bind (·.lookup? url) with
    | none => rfl
    | some type =>
      refine run_bind_congr_left (run_read_congr ?_) fun _ _ _ => rfl
      rw [run_alone, run_alone, block_congr h]

theorem mergeBehind_congr (hbody : ∀ close?, Moves Prod.snd (body close?))
    (h : ∀ close? m (d : Cursor), d.rest.length < c.rest.length →
      body close? (m, d) = body' close? (m, d)) (line : Nat) (name : FieldName) :
    mergeBehind options body line name (m, c) = mergeBehind options body' line name (m, c) := by
  refine run_read_bind_congr fun _ d hd => ?_
  have hle := Scan.moves_colon.length_le hd
  exact run_bind_congr_left
    (mergeNamed_congr hbody (fun close? m u hu => h close? m u (by omega)) name) fun _ _ _ => rfl

/-- What is done for a field of a message, given how the fields inside its block and those behind
it are merged. -/
def mergeTurn (options : ParseOptions) (next : MergeBody) : MergeBody := fun close? => do
  if !(← read (Scan.finished close?)) then
    let line ← read Scan.line
    let name ← read Scan.fieldName
    mergeBehind options next line name
    next close?

theorem proceeds_mergeTurn (options : ParseOptions) : Proceeds Prod.snd (mergeTurn options) := by
  rintro next next' close? ⟨m, c⟩ hmoves h
  refine run_read_bind_congr fun ended d hd => run_ite_congr (fun _ => ?_) fun _ => rfl
  refine run_read_bind_congr fun line u hu => run_read_bind_congr fun name v hv => ?_
  have hlt : v.rest.length < c.rest.length := by
    have hended := (Scan.moves_finished close?).length_le hd
    have hline := Scan.moves_line.length_le hu
    have hname := Scan.shrinks_fieldName u name v hv
    omega
  refine run_bind_congr_left (mergeBehind_congr hmoves (fun close? m w hw => ?_) line name)
    fun _ t ht => h close? t ?_
  · exact h close? (m, w) (Nat.lt_trans hw hlt)
  · have hle := ((moves_mergeBehind hmoves line name _).before ht).length_le
    exact Nat.lt_of_le_of_lt hle hlt

/-- Fields are merged one after the other, and those inside blocks like those outside. -/
theorem ends_mergeBody (options : ParseOptions) :
    Ends Prod.snd (mergeTurn options) (mergeBody options) :=
  (proceeds_mergeTurn options).ends moves_mergeBody
    ((proceeds_mergeTurn options).fixed (fun n => mergeFields options n) (mergeBody options)
      (fun n => moves_mergeFields n) mergeFields_succ fun _ _ => rfl)

end

end Text

end Protobuf
