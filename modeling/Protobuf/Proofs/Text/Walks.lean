import Protobuf.Proofs.Text.NestingLimit
import Protobuf.Proofs.Text.SkippedTexts
import Protobuf.Proofs.Text.Steps

/-!
# Walks over text

Every reader of text goes on step by step and stops with an error only behind such steps, from the
reader of one escape up to that of a message. So does everything that is asked of a parser
(`Text.Operation.tracks_perform`).
-/

namespace Protobuf

open Build Relation

variable {σ α β : Type}

namespace Text

/-! ## Literals -/

namespace Scan

variable {S : Cursor → Cursor → Prop} {origin c d : Cursor}

theorem advance_advance (c : Cursor) (count more : Nat) :
    (c.advance count).advance more = c.advance (count + more) := by
  show Cursor.mk ((c.rest.drop count).drop more) (c.position + count + more) _ _ _ _ = _
  rw [List.drop_drop, Nat.add_assoc]
  rfl

theorem along_advance {count : Nat} (hcount : count ≤ c.rest.length)
    (hline : byte '\n' ∉ c.rest.take count) : ReflTransGen Along c (c.advance count) := by
  induction count with
  | zero => exact .refl
  | succ count ih =>
    let last := c.rest.get ⟨count, hcount⟩
    have hlast : c.rest[count]? = some last := List.getElem?_eq_getElem hcount
    rw [List.take_add_one, hlast, Option.toList_some, List.mem_append, not_or] at hline
    refine (ih (Nat.le_of_lt hcount) hline.1).tail ⟨last, ?_, ?_, ?_⟩
    · show (c.rest.drop count).head? = _
      rw [List.head?_drop, hlast]
    · exact fun heq => hline.2 (List.mem_singleton.2 heq.symm)
    · exact (advance_advance c count 1).symm

theorem exists_count_of_along (h : ReflTransGen Along c d) :
    ∃ count ≤ c.rest.length, byte '\n' ∉ c.rest.take count ∧ d = c.advance count := by
  induction h with
  | refl => exact ⟨0, Nat.zero_le _, List.not_mem_nil, rfl⟩
  | tail _ hstep ih =>
    obtain ⟨count, hcount, hline, rfl⟩ := ih
    obtain ⟨b, hhead, hb, rfl⟩ := hstep
    have hget : c.rest[count]? = some b := by
      rw [← List.head?_drop]
      exact hhead
    obtain ⟨hlt, -⟩ := List.getElem?_eq_some_iff.1 hget
    refine ⟨count + 1, hlt, ?_, advance_advance c count 1⟩
    rw [List.take_add_one, hget, Option.toList_some, List.mem_append, not_or]
    exact ⟨hline, fun hmem => hb (List.mem_singleton.1 hmem).symm⟩

theorem digitValue?_newline (base : Nat) : digitValue? base (byte '\n') = none := by
  have hvalue : Bytes.hexValue? (byte '\n') = none := by decide
  rw [digitValue?, hvalue]
  rfl

/-- The bytes that are taken while something is found in them. -/
theorem isSome_of_mem_take {f : UInt8 → Option α} {bytes : Bytes} {b : UInt8}
    (h : b ∈ bytes.take ((bytes.map f).takeWhile Option.isSome).length) : (f b).isSome = true := by
  induction bytes with
  | nil => cases h
  | cons a bytes ih =>
    rw [List.map_cons] at h
    cases hf : f a with
    | none =>
      rw [hf, List.takeWhile_cons_of_neg Bool.false_ne_true] at h
      cases h
    | some value =>
      rw [hf, List.takeWhile_cons_of_pos rfl, List.length_cons, List.take_succ_cons] at h
      rcases List.mem_cons.1 h with rfl | h
      · rw [hf]
        rfl
      · exact ih h

/-- A digit in any base ends no line. -/
theorem tracks_digits (base count : Nat) : Tracks Along id (digits base count) := by
  intro origin c hwalk
  have hfound := (List.takeWhile_sublist Option.isSome (l :=
    (c.rest.take count).map (digitValue? base))).length_le
  rw [List.length_map] at hfound
  have hcount := hfound.trans (List.length_take_le count c.rest)
  have hle := hfound.trans (List.length_take_le' count c.rest)
  have hline : byte '\n' ∉ c.rest.take
      (((c.rest.take count).map (digitValue? base)).takeWhile Option.isSome).length := by
    intro hmem
    rw [← Nat.min_eq_left hcount, ← List.take_take] at hmem
    have hsome := isSome_of_mem_take hmem
    rw [digitValue?_newline] at hsome
    cases hsome
  exact .of_ok rfl (hwalk.trans (along_advance hle hline))

theorem tracks_unicodeEscape (width : Nat) : Tracks Along id (unicodeEscape width) :=
  (tracks_digits 16 width).bind fun _ => .ite (.pure _) (tracks_fail rfl)

/-- A newline starts no escape. -/
theorem escape_newline (h : c.rest.head? = some (byte '\n')) :
    escape c = fail (.unknownEscape (byte '\n')) (c.advance 1) := by
  rw [escape, run_bind_of_ok (anyByte_of_head h)]
  rfl

theorem tracks_escape : Tracks Along id escape := by
  intro origin c hwalk
  cases hhead : c.rest.head? with
  | none =>
    exact (tracks_fail rfl origin c hwalk).congr
      (run_bind_of_ok (anyByte_of_nil (List.head?_eq_none_iff.1 hhead)))
  | some b =>
    by_cases hb : b = byte '\n'
    · rw [hb] at hhead
      exact .of_error (escape_newline hhead) (.newline hwalk hhead rfl rfl)
    · have hstep : ReflTransGen Along origin (c.advance 1) := hwalk.tail ⟨b, hhead, hb, rfl⟩
      refine .congr ?_ (run_bind_of_ok (anyByte_of_head hhead))
      dsimp only
      split
      · exact Tracks.pure _ origin _ hstep
      · split
        · exact ((tracks_digits 8 2).bind fun _ => .ite
            ((tracks_fail rfl).bind fun _ => .pure _) (.pure _) : Tracks Along id _) origin _ hstep
        · refine (Tracks.ite ?_ (.ite (tracks_unicodeEscape 4) (.ite (tracks_unicodeEscape 8)
            (tracks_fail ?_))) : Tracks Along id _) origin _ hstep
          · exact (tracks_digits 16 2).bind fun _ => .ite
              ((tracks_fail rfl).bind fun _ => .pure _) (.pure _)
          · exact Bool.or_eq_false_iff.2
              ⟨rfl, decide_eq_false fun h => hb (TextFault.unknownEscape.inj h)⟩

theorem tracks_literalBody (quote : UInt8) (rounds : Nat) :
    Tracks Along Prod.snd (literalBody quote rounds) := by
  induction rounds with
  | zero => exact .read (tracks_fail rfl)
  | succ rounds ih =>
    rintro origin ⟨bytes, c⟩ hwalk
    cases hhead : c.rest.head? with
    | none =>
      exact (Tracks.read (tracks_fail rfl) origin (bytes, c) hwalk).congr
        (run_read_bind_of_ok (anyByte_of_nil (List.head?_eq_none_iff.1 hhead)))
    | some b =>
      by_cases hb : b = byte '\n'
      · rw [hb] at hhead
        exact .of_error (t := (bytes, c.advance 1))
          (run_read_bind_of_ok (anyByte_of_head hhead)) (.newline hwalk hhead rfl rfl)
      · have hstep : ReflTransGen Along origin (c.advance 1) := hwalk.tail ⟨b, hhead, hb, rfl⟩
        refine .congr (t := (bytes, c.advance 1)) ?_ (run_read_bind_of_ok (anyByte_of_head hhead))
        dsimp only
        rw [if_neg hb]
        refine (Tracks.ite ?_ (.ite (.pure _) ((Tracks.update _).bind fun _ => ih)) :
          Tracks Along Prod.snd _) origin _ hstep
        exact (Tracks.read tracks_escape).bind fun _ => (Tracks.update _).bind fun _ => ih

end Scan

/-! ## Tokens -/

/-- No demand on a slice. -/
def AnySlice (_ _ : Nat) : Prop := True

namespace Scan

variable {origin c d : Cursor}

theorem tracks_blanks : Tracks (Step AnySlice) id blanks :=
  fun _ c h => .of_ok rfl (h.tail (.blanks c))

theorem tracks_peek : Tracks (Step AnySlice) id peek :=
  tracks_blanks.bind fun _ => Tracks.get.bind fun _ => .pure _

theorem tracks_tryChar {char : Char} (h : isMark (byte char) = true) :
    Tracks (Step AnySlice) id (tryChar char) := by
  intro origin c hwalk
  have hpeek := tracks_peek origin c hwalk
  refine hpeek.bind fun next d hd => .ite (fun hnext => ?_) fun _ => .of_ok rfl (hpeek.walks hd)
  exact .of_ok rfl ((hpeek.walks hd).tail (.mark ((head?_of_peek hd).trans hnext) h))

theorem tracks_expect {char : Char} (h : isMark (byte char) = true) :
    Tracks (Step AnySlice) id (expect char) :=
  (tracks_tryChar h).bind fun _ => .ite (tracks_fail rfl) (.pure _)

/-! ### Literals -/

theorem ne_newline_of_isQuote {b : UInt8} (h : isQuote b = true) : b ≠ byte '\n' := by
  rintro rfl
  cases h

theorem isQuote_of_atString (h : atString c = .ok true d) :
    d = c.settle ∧ d.rest.head?.any isQuote = true := by
  rw [run_atString] at h
  obtain ⟨hfound, rfl⟩ := EStateM.Result.ok.inj h
  refine ⟨rfl, ?_⟩
  rcases Bool.or_eq_true_iff.1 hfound with hfound | hfound <;>
    rw [of_decide_eq_true hfound] <;> rfl

/-- What was read along a line from a quote on is one step. -/
theorem walk_of_along (hwalk : Walk AnySlice origin c) (hhead : c.rest.head?.any isQuote = true)
    {u : Cursor} (h : ReflTransGen Along c u) : Walk AnySlice origin u := by
  obtain ⟨count, hcount, hline, rfl⟩ := exists_count_of_along h
  exact hwalk.tail (.quoted hhead hcount hline)

theorem tracks_literals (rounds : Nat) : Tracks (Step AnySlice) Prod.snd (literals rounds) := by
  induction rounds with
  | zero => exact .pure _
  | succ rounds ih =>
    rintro origin ⟨bytes, c⟩ hwalk
    have hat := (tracks_peek.bind fun _ => Tracks.pure _ : Tracks _ id atString) origin c hwalk
    refine hat.read_bind fun found d hd => .ite (fun hfound => ?_) fun _ =>
      .of_ok rfl (hat.walks hd)
    rw [hfound] at hd
    obtain ⟨-, hquote⟩ := isQuote_of_atString hd
    have hwalk' : Walk AnySlice origin d := hat.walks hd
    cases hhead : d.rest.head? with
    | none =>
      rw [hhead] at hquote
      cases hquote
    | some quote =>
      have hne : quote ≠ byte '\n' := ne_newline_of_isQuote (by rwa [hhead] at hquote)
      have hbody := tracks_literalBody quote ((d.advance 1).rest.length + 1) d (bytes, d.advance 1)
        (.single ⟨quote, hhead, hne, rfl⟩)
      have hliteral := hbody.imp fun u => walk_of_along hwalk' hquote
      refine .congr (t := (bytes, d.advance 1)) ?_ (run_read_bind_of_ok (anyByte_of_head hhead))
      refine .congr (t := (bytes, d.advance 1)) ?_ (run_bind_of_ok (run_source bytes _))
      exact hliteral.bind fun _ t ht => ih origin t (hliteral.walks ht)

theorem tracks_atString : Tracks (Step AnySlice) id atString := tracks_peek.bind fun _ => .pure _

theorem tracks_stringLiteral : Tracks (Step AnySlice) id stringLiteral := by
  have hliterals : Tracks (Step AnySlice) id (do
      let c ← get
      alone [] (literals (c.rest.length + 1)) : Scan Bytes) :=
    Tracks.get.bind fun c => .alone (tracks_literals _)
  exact tracks_atString.bind fun _ => .ite ((tracks_fail rfl).bind fun _ => hliterals) hliterals

/-! ### Names -/

theorem isTokenByte_of_isNameByte {b : UInt8} (h : isNameByte b = true) : isTokenByte b = true := by
  rw [isTokenByte, h, Bool.true_or, Bool.true_or, Bool.true_or]

theorem isNameByte_of_isDigit {b : UInt8} (h : isDigit b = true) : isNameByte b = true := by
  rw [isNameByte, h, Bool.or_true]

theorem isNameByte_of_isNameStart {b : UInt8} (h : isNameStart b = true) :
    isNameByte b = true := by
  rw [isNameByte, h, Bool.true_or]

theorem take_length_takeWhile (test : UInt8 → Bool) (bytes : Bytes) :
    bytes.take (bytes.takeWhile test).length = bytes.takeWhile test :=
  (List.prefix_iff_eq_take.1 (List.takeWhile_prefix test)).symm

theorem length_takeWhile_pos {test : UInt8 → Bool} {bytes : Bytes}
    (h : bytes.head?.any test = true) : 0 < (bytes.takeWhile test).length := by
  cases bytes with
  | nil => cases h
  | cons b bytes =>
    have hb : test b = true := h
    rw [List.takeWhile_cons_of_pos hb, List.length_cons]
    exact Nat.succ_pos _

/-- A span that is not empty is a slice. -/
theorem tracksFrom_span {test : UInt8 → Bool} (hwalk : Walk AnySlice origin c)
    (hhead : c.rest.head?.any test = true) (htest : ∀ b, test b = true → isTokenByte b = true) :
    TracksFrom (Step AnySlice) id origin c (span test) := by
  refine .of_ok rfl (hwalk.tail (.token (List.takeWhile_sublist test).length_le
    (length_takeWhile_pos hhead) ?_ trivial))
  rw [take_length_takeWhile]
  exact fun b hb => htest b (List.mem_takeWhile_imp hb)

theorem tracks_identifier : Tracks (Step AnySlice) id identifier := by
  intro origin c hwalk
  refine (tracks_blanks origin c hwalk).bind fun _ d hd => ?_
  have hwalk' : Walk AnySlice origin d := (tracks_blanks origin c hwalk).walks hd
  refine .congr (t := d) (.ite (fun hhead => ?_) fun _ => Tracks.pure none origin d hwalk')
    (run_bind_of_ok (run_get d))
  have hspan : TracksFrom (Step AnySlice) id origin d (span isNameByte) := by
    refine tracksFrom_span hwalk' ?_ fun b => isTokenByte_of_isNameByte
    rw [Option.any_eq_true] at hhead ⊢
    obtain ⟨b, hb, hstart⟩ := hhead
    exact ⟨b, hb, isNameByte_of_isNameStart hstart⟩
  exact hspan.bind fun _ t ht => Tracks.pure _ origin t (hspan.walks ht)

theorem tracks_checkedNumber (digits : Bytes) : Tracks (Step AnySlice) id (do
    if (← get).rest.head?.any isNameByte then fail .invalidFieldNumber
    let value := decimalValue digits
    if value = 0 ∨ maxFieldNumber < value then fail (.fieldNumberRange (ofAscii digits))
    return .number value : Scan FieldName) := by
  have hrange : ∀ value, Tracks (Step AnySlice) id (do
      if value = 0 ∨ maxFieldNumber < value then fail (.fieldNumberRange (ofAscii digits))
      return .number value : Scan FieldName) :=
    fun value => .ite ((tracks_fail rfl).bind fun _ => .pure _) (.pure _)
  exact Tracks.get.bind fun _ => .ite ((tracks_fail rfl).bind fun _ => hrange _) (hrange _)

/-- From the bracket to the end of the name is one step. -/
theorem tracksFrom_bracketedName (hwalk : Walk AnySlice origin c)
    (hhead : c.rest.head? = some (byte '[')) :
    TracksFrom (Step AnySlice) id origin c bracketedName := by
  have hstep : Walk AnySlice origin ((c.advance 1).settle.advance
      ((c.advance 1).settle.rest.takeWhile isBracketedByte).length) := by
    refine hwalk.tail (.bracketed hhead rfl (List.takeWhile_sublist _).length_le ?_ trivial)
    rw [take_length_takeWhile]
    exact fun b hb => List.mem_takeWhile_imp hb
  have hend : ∀ name : Bytes, Tracks (Step AnySlice) id (do
      expect ']'
      return .bracketed (ofAscii name) : Scan FieldName) :=
    fun name => (tracks_expect rfl).bind fun _ => .pure _
  exact .congr (((Tracks.ite ((tracks_fail rfl).bind fun _ => hend _) (hend _)) :
    Tracks (Step AnySlice) id _) origin _ hstep) rfl

theorem tracks_fieldName : Tracks (Step AnySlice) id fieldName := by
  intro origin c hwalk
  have hpeek := tracks_peek origin c hwalk
  refine hpeek.bind fun next d hd => ?_
  have hwalk' : Walk AnySlice origin d := hpeek.walks hd
  refine .ite (fun hdigit => ?_) fun _ => .ite (fun hnext => ?_) fun _ => ?_
  · rw [← head?_of_peek hd] at hdigit
    have hspan := tracksFrom_span hwalk' hdigit
      fun b hb => isTokenByte_of_isNameByte (isNameByte_of_isDigit hb)
    rw [fieldNumber_eq]
    exact hspan.bind fun digits t ht => tracks_checkedNumber digits origin t (hspan.walks ht)
  · exact tracksFrom_bracketedName hwalk' ((head?_of_peek hd).trans hnext)
  · refine (tracks_identifier origin d hwalk').bind fun name t ht => ?_
    have hwalk'' := (tracks_identifier origin d hwalk').walks ht
    cases name with
    | some name => exact Tracks.pure _ origin t hwalk''
    | none => exact tracks_fail rfl origin t hwalk''

/-! ### Numbers and words -/

theorem isTokenByte_of_mem_numberSpan (hexadecimal afterE : Bool) (bytes : Bytes) :
    ∀ b ∈ bytes.take (numberSpan hexadecimal afterE bytes).length, isTokenByte b = true := by
  induction bytes generalizing afterE with
  | nil => exact List.forall_mem_nil _
  | cons a bytes ih =>
    unfold numberSpan
    split
    · rename_i ha
      rw [List.length_cons, List.take_succ_cons]
      refine List.forall_mem_cons.2 ⟨?_, ih _⟩
      rcases Bool.or_eq_true_iff.1 ha with ha | ha
      · rw [isTokenByte, ha, Bool.true_or, Bool.true_or]
      · obtain ⟨-, hsign⟩ := Bool.and_eq_true_iff.1 ha
        rw [isTokenByte, Bool.or_assoc, hsign, Bool.or_true]
    · exact List.forall_mem_nil _

/-- The rest of a number is read, where any bytes of tokens lead on. -/
theorem tracksFrom_numberBody (negative : Prop) [Decidable negative]
    (hwalk : ∀ count ≤ c.rest.length, (∀ b ∈ c.rest.take count, isTokenByte b = true) →
      Walk AnySlice origin (c.advance count)) :
    TracksFrom (Step AnySlice) id origin c (do
      let c ← get
      let body := numberSpan (startsHexadecimal c.rest) false c.rest
      set (c.advance body.length)
      if body.isEmpty then fail .expectedNumber
      return ofAscii (if negative then byte '-' :: body else body) : Scan String) := by
  have hend : ∀ body : Bytes, Tracks (Step AnySlice) id (do
      if body.isEmpty then fail .expectedNumber
      return ofAscii (if negative then byte '-' :: body else body) : Scan String) :=
    fun body => .ite ((tracks_fail rfl).bind fun _ => .pure _) (.pure _)
  exact .congr (hend _ origin _ (hwalk _ (length_numberSpan_le _ _ _)
    (isTokenByte_of_mem_numberSpan _ _ _))) rfl

/-- A sign and what stands behind it are one slice. -/
theorem tracks_numberToken : Tracks (Step AnySlice) id numberToken := by
  intro origin c hwalk
  have hblanks := tracks_blanks origin c hwalk
  refine hblanks.bind fun _ d hd => ?_
  have hwalk' : Walk AnySlice origin d := hblanks.walks hd
  refine .congr (t := d) (.ite (fun hminus => ?_) fun _ => ?_) (run_bind_of_ok (run_get d))
  · obtain ⟨bytes, hrest⟩ := List.head?_eq_some_iff.1 hminus
    have htail : (d.advance 1).rest = bytes := Cursor.rest_advance_one hrest
    refine .congr (t := d.advance 1) ?_ (run_bind_of_ok (run_modify _ d))
    refine tracksFrom_numberBody _ fun count hcount hbytes => ?_
    rw [htail] at hcount hbytes
    rw [advance_advance]
    refine hwalk'.tail (.token ?_ (by omega) ?_ trivial)
    · rw [hrest, List.length_cons]
      omega
    · rw [hrest, Nat.add_comm, List.take_succ_cons]
      exact List.forall_mem_cons.2 ⟨rfl, hbytes⟩
  · refine tracksFrom_numberBody _ fun count hcount hbytes => ?_
    cases count with
    | zero => exact hwalk'
    | succ count => exact hwalk'.tail (.token hcount (Nat.succ_pos _) hbytes trivial)

/-! ### Scalars -/

theorem tracks_requireColon : Tracks (Step AnySlice) id requireColon :=
  Tracks.get.bind fun _ => .ite (tracks_fail rfl) (.pure _)

theorem tracks_integer : Tracks (Step AnySlice) id integer := by
  refine tracks_numberToken.bind fun token => ?_
  cases integer? token with
  | some value => exact .pure _
  | none => exact tracks_fail rfl

theorem tracks_signedInteger (low high : Int) :
    Tracks (Step AnySlice) id (signedInteger low high) :=
  tracks_requireColon.bind fun _ => tracks_integer.bind fun _ =>
    .ite ((tracks_fail rfl).bind fun _ => .pure _) (.pure _)

theorem tracks_unsignedInteger (bound : Nat) :
    Tracks (Step AnySlice) id (unsignedInteger bound) :=
  tracks_requireColon.bind fun _ => tracks_integer.bind fun _ =>
    .ite ((tracks_fail rfl).bind fun _ => .pure _) (.pure _)

theorem tracks_double : Tracks (Step AnySlice) id double := by
  refine tracks_requireColon.bind fun _ => tracks_numberToken.bind fun token => ?_
  cases double? token with
  | some bits => exact .pure _
  | none => exact tracks_fail rfl

theorem tracks_bool : Tracks (Step AnySlice) id bool := by
  refine tracks_requireColon.bind fun _ => tracks_numberToken.bind fun token => ?_
  cases bool? token with
  | some value => exact .pure _
  | none => exact tracks_fail rfl

theorem tracks_bytes : Tracks (Step AnySlice) id bytes :=
  tracks_requireColon.bind fun _ => tracks_stringLiteral

theorem tracks_string : Tracks (Step AnySlice) id string := by
  refine tracks_bytes.bind fun b => ?_
  cases Utf8.decode b with
  | ok s => exact .pure _
  | error e => exact tracks_fail rfl

theorem tracks_enum (type : EnumType) : Tracks (Step AnySlice) id (enum type) := by
  refine tracks_requireColon.bind fun _ => tracks_identifier.bind fun name => ?_
  cases name with
  | some name =>
    dsimp only
    cases type.number? name with
    | some value => exact .pure _
    | none => exact tracks_fail rfl
  | none =>
    exact tracks_integer.bind fun _ => .ite ((tracks_fail rfl).bind fun _ => .pure _) (.pure _)

theorem tracks_scalar (kind : ScalarKind) : Tracks (Step AnySlice) id (scalar kind) := by
  cases kind with
  | int32 | sint32 | sfixed32 => exact ((tracks_signedInteger _ _).map _).map _
  | int64 | sint64 | sfixed64 => exact ((tracks_signedInteger _ _).map _).map _
  | uint32 | fixed32 => exact ((tracks_unsignedInteger _).map _).map _
  | uint64 | fixed64 => exact ((tracks_unsignedInteger _).map _).map _
  | float => exact (tracks_double.bind fun _ => .pure _).map _
  | double => exact tracks_double.map _
  | bool => exact tracks_bool.map _
  | enum type => exact (tracks_enum type).map _
  | string => exact tracks_string.map _
  | bytes => exact tracks_bytes.map _

/-! ### Blocks and what is skipped -/

theorem EndsBlock.isMark {close : Char} (h : EndsBlock close) : isMark (byte close) = true := by
  rcases h with rfl | rfl <;> rfl

theorem tracks_openBlock : Tracks (Step AnySlice) id openBlock :=
  (tracks_tryChar rfl).bind fun _ => .ite (.pure _) <|
    (tracks_tryChar rfl).bind fun _ => .ite (.pure _) (tracks_fail rfl)

/-- What is done behind the opening character may use which one closes the block. -/
theorem tracks_openBlock_bind {f : Char → Scan α}
    (hf : ∀ close, EndsBlock close → Tracks (Step AnySlice) id (f close)) :
    Tracks (Step AnySlice) id (openBlock >>= f) := fun origin c h =>
  (tracks_openBlock origin c h).bind fun close d hd =>
    hf close (openBlock_eq_ok hd).1 origin d ((tracks_openBlock origin c h).walks hd)

theorem tracks_enter (limit : Nat) : Tracks (Step AnySlice) id (enter limit) := by
  intro origin c hwalk
  have hstep : Walk AnySlice origin c.opened := hwalk.tail (.setting c (c.depth + 1) c.sawColon)
  by_cases hd : c.depth + 1 ≤ limit
  · exact .of_ok (enter_of_le hd) hstep
  · exact .of_error (enter_of_limit_lt (Nat.lt_of_not_le hd)) (.depth hstep)

theorem tracks_leave : Tracks (Step AnySlice) id leave :=
  fun _ c h => .of_ok rfl (h.tail (.setting c (c.depth - 1) c.sawColon))

theorem tracks_separator : Tracks (Step AnySlice) id separator :=
  (tracks_tryChar rfl).bind fun _ => .ite ((tracks_tryChar rfl).bind fun _ => .pure _) (.pure _)

theorem tracks_atBlock : Tracks (Step AnySlice) id atBlock := tracks_peek.bind fun _ => .pure _

theorem tracks_colon : Tracks (Step AnySlice) id colon :=
  (tracks_tryChar rfl).bind fun found _ c h => .of_ok rfl (h.tail (.setting c c.depth found))

theorem tracks_finished {close? : Option Char} (h : ∀ close ∈ close?, EndsBlock close) :
    Tracks (Step AnySlice) id (finished close?) := by
  cases close? with
  | none => exact tracks_peek.bind fun _ => .pure _
  | some close =>
    exact (tracks_tryChar (h close rfl).isMark).bind fun _ => .ite (.pure _) <|
      tracks_peek.bind fun _ => .ite (tracks_fail rfl) (.pure _)

theorem tracks_skipScalar : Tracks (Step AnySlice) id skipScalar :=
  tracks_atString.bind fun _ => .ite (tracks_stringLiteral.bind fun _ => .pure _)
    (tracks_numberToken.bind fun _ => .pure _)

theorem tracks_skip (limit rounds : Nat) :
    (∀ sawColon, Tracks (Step AnySlice) id (skipValue limit rounds sawColon)) ∧
      Tracks (Step AnySlice) id (skipBlock limit rounds) ∧
      (∀ close, EndsBlock close → Tracks (Step AnySlice) id (skipFields limit close rounds)) ∧
      Tracks (Step AnySlice) id (skipElements limit rounds) := by
  induction rounds with
  | zero =>
    exact ⟨fun _ => tracks_fail rfl, tracks_fail rfl, fun _ _ => tracks_fail rfl, tracks_fail rfl⟩
  | succ rounds ih =>
    obtain ⟨hvalue, hblock, hfields, helements⟩ := ih
    refine ⟨fun sawColon => ?_, ?_, fun close hclose => ?_, ?_⟩
    · refine tracks_atBlock.bind fun _ => .ite hblock (.ite ?_ (tracks_fail rfl))
      refine tracks_peek.bind fun _ => .ite ?_ tracks_skipScalar
      exact (tracks_expect rfl).bind fun _ => (tracks_tryChar rfl).bind fun _ =>
        .ite helements (.pure _)
    · exact tracks_openBlock_bind fun close hclose => (tracks_enter limit).bind fun _ =>
        (hfields close hclose).bind fun _ => tracks_leave
    · refine (tracks_tryChar hclose.isMark).bind fun _ => .ite ?_ (.pure _)
      exact tracks_fieldName.bind fun _ => (tracks_tryChar rfl).bind fun sawColon =>
        (hvalue sawColon).bind fun _ => tracks_separator.bind fun _ => hfields close hclose
    · have hrest : Tracks (Step AnySlice) id (do
          if !(← tryChar ']') then
            expect ','
            skipElements limit rounds : Scan Unit) :=
        (tracks_tryChar rfl).bind fun _ => .ite ((tracks_expect rfl).bind fun _ => helements)
          (.pure _)
      exact tracks_atBlock.bind fun _ =>
        .ite (hblock.bind fun _ => hrest) (tracks_skipScalar.bind fun _ => hrest)

/-! ### Lists and map entries -/

theorem tracks_elements {read : Scan α} (hread : Tracks (Step AnySlice) id read) (rounds : Nat) :
    Tracks (Step AnySlice) Prod.snd (elements read rounds) := by
  induction rounds with
  | zero => exact .pure _
  | succ rounds ih =>
    refine (Tracks.read hread).bind fun _ => (Tracks.update _).bind fun _ => ?_
    exact (Tracks.read (tracks_tryChar rfl)).bind fun _ =>
      .ite ((Tracks.read (tracks_expect rfl)).bind fun _ => ih) (.pure _)

theorem tracks_repeated {read : Scan α} (hread : Tracks (Step AnySlice) id read) :
    Tracks (Step AnySlice) Prod.snd (repeated read) := by
  refine (Tracks.read (tracks_tryChar rfl)).bind fun _ => .ite ?_ ?_
  · refine (Tracks.read (tracks_tryChar rfl)).bind fun _ => .ite ?_ (.pure _)
    exact Tracks.source.bind fun _ => tracks_elements hread _
  · exact (Tracks.read hread).bind fun _ => .update _

/-- A name that was read and the colon behind it, where the name is not known. -/
theorem tracksFrom_throw_unknown {u v : Cursor} {name : FieldName} (hwalk : Walk AnySlice origin u)
    (hsettled : u.settle = u) (hname : fieldName u = .ok name v) (hcolon : colon v = .ok () d)
    (s : σ) : TracksFrom (Step AnySlice) Prod.snd origin (s, d)
      (throw (.unknownField name.display u.line) : Build Cursor σ α) := by
  have hname' := (tracks_fieldName origin u hwalk).walks hname
  exact .of_error rfl (.unknown hwalk hsettled hname hcolon
    ((tracks_colon origin v hname').walks hcolon))

variable {κ ν : Type}

theorem tracks_entryFields {readKey : Scan κ} {readValue : Scan ν}
    (hkey : Tracks (Step AnySlice) id readKey) (hvalue : Tracks (Step AnySlice) id readValue)
    {close : Char} (hclose : EndsBlock close) (rounds : Nat) :
    Tracks (Step AnySlice) Prod.snd (entryFields readKey readValue close rounds) := by
  induction rounds with
  | zero => exact .pure _
  | succ rounds ih =>
    have hrest : Tracks (Step AnySlice) Prod.snd (do
        Build.read separator
        entryFields readKey readValue close rounds : Build Cursor (κ × ν) Unit) :=
      (Tracks.read tracks_separator).bind fun _ => ih
    refine (Tracks.read (tracks_tryChar hclose.isMark)).bind fun _ => .ite ?_ (.pure _)
    rintro origin ⟨entry, c⟩ hwalk
    have hwalk : Walk AnySlice origin c := hwalk
    refine .congr (t := (entry, c.settle)) ?_ (run_read_bind_of_ok (run_line c))
    have hline : Walk AnySlice origin c.settle := hwalk.tail (.blanks c)
    refine (tracks_fieldName origin _ hline).read_bind fun name v hv => ?_
    have hname := (tracks_fieldName origin _ hline).walks hv
    refine (tracks_colon origin v hname).read_bind fun _ d hd => ?_
    have hcolon := (tracks_colon origin v hname).walks hd
    refine .ite (fun _ => ?_) fun _ => .ite (fun _ => ?_) fun _ => ?_
    · exact ((Tracks.read hkey).bind fun _ => (Tracks.update _).bind fun _ => hrest) origin _ hcolon
    · exact ((Tracks.read hvalue).bind fun _ => (Tracks.update _).bind fun _ => hrest)
        origin _ hcolon
    · refine (tracksFrom_throw_unknown hline (Cursor.settle_settle c) hv hd entry).bind ?_
      rintro _ _ ht
      cases ht

theorem tracks_mapEntry {limit : Nat} {zero : κ × ν} {readKey : Scan κ} {readValue : Scan ν}
    (hkey : Tracks (Step AnySlice) id readKey) (hvalue : Tracks (Step AnySlice) id readValue) :
    Tracks (Step AnySlice) id (mapEntry limit zero readKey readValue) := by
  refine tracks_openBlock_bind fun close hclose => (tracks_enter limit).bind fun _ =>
    (Tracks.alone ?_).bind fun _ => tracks_leave.bind fun _ => .pure _
  exact Tracks.source.bind fun _ => tracks_entryFields hkey hvalue hclose _

end Scan

/-! ## Messages -/

/-- How fields are merged up to the end of the text or a character that closes a block goes on step
by step. -/
def TracksBody (body : MergeBody) : Prop :=
  ∀ close?, (∀ close ∈ close?, Scan.EndsBlock close) →
    Tracks (Step AnySlice) Prod.snd (body close?)

section

variable {limit : Nat} {body : MergeBody} {options : ParseOptions}

theorem tracks_block (hbody : TracksBody body) :
    Tracks (Step AnySlice) Prod.snd (block limit body) := by
  rintro origin ⟨m, c⟩ hwalk
  have hopen := Scan.tracks_openBlock origin c hwalk
  refine hopen.read_bind fun close d hd => ?_
  have hclose := (Scan.openBlock_eq_ok hd).1
  have hinside : Tracks (Step AnySlice) Prod.snd (body (some close)) :=
    hbody _ fun close' h => Option.some.inj h ▸ hclose
  exact ((Tracks.read (Scan.tracks_enter limit)).bind fun _ => hinside.bind fun _ =>
    .read Scan.tracks_leave) origin (m, d) (hopen.walks hd)

theorem tracks_value (hbody : TracksBody body) (kind : FieldKind) :
    Tracks (Step AnySlice) id (value limit body kind) := by
  cases kind with
  | scalar kind => exact (Scan.tracks_scalar kind).map _
  | message type | group type => exact (Tracks.alone (tracks_block hbody)).map _

theorem tracks_mergeMember (hbody : TracksBody body) (name : String) (member : Member) :
    Tracks (Step AnySlice) Prod.snd (mergeMember limit body name member) := by
  cases member with
  | plain number label kind =>
    exact (Tracks.read (Scan.tracks_scalar kind)).bind fun _ => .put _
  | optional field required =>
    rw [mergeMember]
    cases field.kind with
    | scalar kind => exact (Tracks.read (Scan.tracks_scalar kind)).bind fun _ => .put _
    | message type | group type => exact .zoom (tracks_block hbody)
  | packed number label kind =>
    rw [mergeMember]
    exact .zoom (Scan.tracks_repeated (Scan.tracks_scalar kind))
  | repeated field =>
    rw [mergeMember]
    exact .zoom (Scan.tracks_repeated (tracks_value hbody field.kind))
  | map number label key kind =>
    refine (Tracks.read (Scan.tracks_mapEntry (Scan.tracks_scalar key) ?_)).bind fun _ => .update _
    exact tracks_value hbody kind
  | oneof fields =>
    rw [mergeMember]
    cases fields.find? (·.name = name) with
    | none => exact .pure _
    | some field => exact (Tracks.read (tracks_value hbody field.kind)).bind fun _ => .put _
  | payload number label => exact (Tracks.read Scan.tracks_bytes).bind fun _ => .put _

theorem tracks_mergeField (hbody : TracksBody body) (name : String) :
    Tracks (Step AnySlice) Prod.snd (mergeField limit body name) := by
  rintro origin ⟨m, c⟩ hwalk
  cases hfound : Message.member? m.type (·.hasName name) with
  | none =>
    have hrun : mergeField limit body name (m, c) = .ok false (m, c) := by
      rw [mergeField, hfound]
    exact .of_ok hrun hwalk
  | some found =>
    obtain ⟨i, member⟩ := found
    have htracks : Tracks (Step AnySlice) Prod.snd
        (do Message.atSlot i member (mergeMember limit body name member); pure true :
          Build Cursor Message Bool) :=
      (Tracks.zoom (tracks_mergeMember hbody name member)).bind fun _ => .pure _
    refine (htracks origin (m, c) hwalk).congr ?_
    rw [mergeField, hfound]

theorem tracks_mergeNamed (options : ParseOptions) (hbody : TracksBody body) (name : FieldName) :
    Tracks (Step AnySlice) Prod.snd (mergeNamed options body name) := by
  refine Tracks.current.bind fun m => ?_
  cases name with
  | plain name => exact tracks_mergeField hbody name
  | number number =>
    dsimp only
    cases m.type.textName? number with
    | none => exact .pure _
    | some name => exact tracks_mergeField hbody name
  | bracketed url =>
    refine .ite (.ite (Tracks.bind ?_ fun _ => .pure _) (.pure _)) (tracks_mergeField hbody _)
    unfold mergeExpanded
    cases options.known?.bind (·.lookup? url) with
    | none => exact fun _ _ hwalk => .of_error rfl (.type hwalk)
    | some type => exact (Tracks.read (.alone (tracks_block hbody))).bind fun _ => .update _

/-- Where there is no field with a name, nothing was read behind it. -/
theorem eq_of_mergeNamed_eq_false {name : FieldName} {m : Message} {c : Cursor}
    {t : Message × Cursor} (h : mergeNamed options body name (m, c) = .ok false t) :
    t = (m, c) := by
  rcases mergeNamed_cases options body name m c with
    ⟨label, i, member, -, -, hrun⟩ | ⟨url, -, -, hrun⟩ | ⟨-, hrun⟩
  · obtain ⟨_, _, -, hpure⟩ := bind_eq_ok.1 (hrun.symm.trans h)
    cases hpure
  · obtain ⟨_, _, -, hpure⟩ := bind_eq_ok.1 (hrun.symm.trans h)
    cases hpure
  · rw [hrun] at h
    cases h
    rfl

/-- The name of a field is remembered until it is known whether there is one. -/
theorem tracksFrom_mergeBehind (options : ParseOptions) (hbody : TracksBody body)
    {origin u v : Cursor} {name : FieldName} (hwalk : Walk AnySlice origin u)
    (hsettled : u.settle = u) (hname : Scan.fieldName u = .ok name v) (m : Message) :
    TracksFrom (Step AnySlice) Prod.snd origin (m, v) (mergeBehind options body u.line name) := by
  have hname' := (Scan.tracks_fieldName origin u hwalk).walks hname
  have hskip : Tracks (Step AnySlice) Prod.snd (do
      let c ← source
      read (Scan.skipValue options.depthLimit (2 * c.rest.length + 2) c.sawColon)
      read Scan.separator : Build Cursor Message Unit) :=
    Tracks.source.bind fun _ => (Tracks.read ((Scan.tracks_skip _ _).1 _)).bind fun _ =>
      .read Scan.tracks_separator
  refine (Scan.tracks_colon origin v hname').read_bind fun _ d hd => ?_
  have hcolon := (Scan.tracks_colon origin v hname').walks hd
  have hnamed := tracks_mergeNamed options hbody name origin (m, d) hcolon
  refine hnamed.bind fun known t ht => ?_
  have hwalk' := hnamed.walks ht
  cases known with
  | true => exact Tracks.read Scan.tracks_separator origin t hwalk'
  | false =>
    obtain rfl := eq_of_mergeNamed_eq_false ht
    refine .ite (fun _ => .ite (fun _ => ?_) fun _ => hskip origin (m, d) hwalk')
      fun h => absurd rfl h
    refine (Scan.tracksFrom_throw_unknown hwalk hsettled hname hd m).bind ?_
    rintro _ _ hthrow
    cases hthrow

theorem tracks_mergeFields (rounds : Nat) : TracksBody (mergeFields options rounds) := by
  induction rounds with
  | zero => exact fun _ _ => .pure _
  | succ rounds ih =>
    intro close? hclose
    rw [mergeFields_succ]
    refine (Tracks.read (Scan.tracks_finished hclose)).bind fun _ => .ite ?_ (.pure _)
    rintro origin ⟨m, c⟩ hwalk
    have hwalk : Walk AnySlice origin c := hwalk
    refine .congr (t := (m, c.settle)) ?_ (run_read_bind_of_ok (Scan.run_line c))
    have hline : Walk AnySlice origin c.settle := hwalk.tail (.blanks c)
    refine (Scan.tracks_fieldName origin _ hline).read_bind fun name v hv => ?_
    have hbehind := tracksFrom_mergeBehind options ih hline
      (Cursor.settle_settle c) hv m
    exact hbehind.bind fun _ t ht => ih close? hclose origin t (hbehind.walks ht)

theorem tracks_mergeBody : TracksBody (mergeBody options) := fun close? hclose =>
  Tracks.source.bind fun _ => tracks_mergeFields _ close? hclose

end

theorem Operation.tracks_perform (options : ParseOptions) (op : Operation) :
    Tracks (Step AnySlice) id (op.perform options) := by
  induction op with
  | scalar kind => exact (Scan.tracks_scalar kind).map _
  | fields m => exact (Tracks.alone (tracks_mergeBody none fun _ h => absurd h
      (Option.not_mem_none _))).map _
  | block m => exact (Tracks.alone (tracks_block tracks_mergeBody)).map _
  | mapEntry key value hkey hvalue => exact (Scan.tracks_mapEntry hkey hvalue).map _
  | repeated element helement => exact (Tracks.alone (Scan.tracks_repeated helement)).map _
  | both first second hfirst hsecond => exact hfirst.bind fun _ => hsecond

end Text

end Protobuf
