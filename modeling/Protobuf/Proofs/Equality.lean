import Protobuf.Message.Equality
import Protobuf.Message.Fingerprint
import Protobuf.Proofs.DepthLimit
import Protobuf.Proofs.RoundTrip

/-!
# Equality and encoding

Messages are equal if they are once the payload of every `Any` is in bytes (`Message.equal_iff`),
provided that no number in them is a NaN or a negative zero and that every message carried by an
`Any` can be read back from its bytes. So two `Any`s are equal if they have the same URL, the same
payload in bytes and the same unknown fields, however their payloads are held (`Any.equal_iff`).
-/

namespace Protobuf

variable {M N α β γ : Type}

/-! ## Numbers that have one pattern -/

namespace FloatFormat

/-- The pattern stands for no NaN and for no negative zero. -/
def isOrdinary (format : FloatFormat) (bits : Nat) : Bool :=
  match format.value bits with
  | .nan => false
  | .finite true 0 _ => false
  | _ => true

variable {format : FloatFormat}

theorem fractions_pos : 0 < format.fractions := by
  rw [fractions, Nat.one_shiftLeft]
  exact Nat.two_pow_pos _

theorem signBit_eq : format.signBit = format.fractions * (1 <<< format.exponentBits) := by
  rw [signBit, Nat.shiftLeft_eq, Nat.one_shiftLeft]

/-- Only one pattern stands for zero without a sign. -/
theorem eq_zero_of_value {bits : Nat} {exponent : Int} (hbits : bits < 2 * format.signBit)
    (h : format.value bits = .finite false 0 exponent) : bits = 0 := by
  unfold value at h
  dsimp only at h
  split at h
  · split at h <;> cases h
  · split at h
    · rename_i hexponent
      obtain ⟨hsign, hfraction, -⟩ := FloatValue.finite.inj h
      have hsign : bits / format.signBit % 2 ≠ 1 := of_decide_eq_false hsign
      have hlt : bits / format.signBit < 2 := Nat.div_lt_of_lt_mul (by rwa [Nat.mul_comm])
      have hquotient : bits / format.signBit = 0 := by
        generalize bits / format.signBit = quotient at hsign hlt
        omega
      have hmultiple := Nat.div_add_mod (bits / format.fractions) (1 <<< format.exponentBits)
      rw [hexponent, Nat.div_div_eq_div_mul, ← signBit_eq, hquotient] at hmultiple
      have hparts := Nat.div_add_mod bits format.fractions
      rw [hfraction, ← hmultiple] at hparts
      simpa using hparts.symm
    · obtain ⟨-, hfraction, -⟩ := FloatValue.finite.inj h
      have hpos : 0 < format.fractions := fractions_pos
      omega

/-- Ordinary patterns stand for the same number only if they are the same. -/
theorem sameNumber_iff {a b : Nat} (ha : a < 2 * format.signBit) (hb : b < 2 * format.signBit)
    (hoa : format.isOrdinary a = true) (hob : format.isOrdinary b = true) :
    format.sameNumber a b = true ↔ a = b := by
  unfold isOrdinary at hoa hob
  unfold sameNumber
  split
  · rename_i hva
    rw [hva] at hoa
    cases hoa
  · rename_i hvb _
    rw [hvb] at hob
    cases hob
  · rename_i negative _ negative' _ hva hvb
    rw [hva] at hoa
    rw [hvb] at hob
    cases negative with
    | true => cases hoa
    | false =>
      cases negative' with
      | true => cases hob
      | false => simp [eq_zero_of_value ha hva, eq_zero_of_value hb hvb]
  · exact decide_eq_true_iff

end FloatFormat

namespace Scalar

/-- The scalar is no NaN and no negative zero. -/
def isOrdinary : Scalar → Bool
  | float bits => FloatFormat.single.isOrdinary bits.toNat
  | double bits => FloatFormat.double.isOrdinary bits.toNat
  | _ => true

/-- Ordinary scalars are equal only if they are the same. -/
theorem equal_iff {a b : Scalar} (ha : a.isOrdinary = true) (hb : b.isOrdinary = true) :
    a.equal b = true ↔ a = b := by
  unfold equal
  split
  · rename_i a b
    rw [FloatFormat.sameNumber_iff a.toNat_lt b.toNat_lt ha hb, UInt32.toNat_inj, float.injEq]
  · rename_i a b
    rw [FloatFormat.sameNumber_iff a.toNat_lt b.toNat_lt ha hb, UInt64.toNat_inj, double.injEq]
  · exact decide_eq_true_iff

end Scalar

/-! ## Comparing one level of a message -/

/-- Lists are related if what is made of their elements is the same. -/
theorem related_iff {relation : α → β → Bool} {f : α → γ} {g : β → γ} {as : List α} {bs : List β}
    (h : ∀ a ∈ as, ∀ b ∈ bs, (relation a b = true ↔ f a = g b)) :
    related relation as bs = true ↔ as.map f = bs.map g := by
  induction as generalizing bs with
  | nil => cases bs <;> simp [related]
  | cons a as ih =>
    cases bs with
    | nil => simp [related]
    | cons b bs =>
      have hhead := h a List.mem_cons_self b List.mem_cons_self
      have htail := ih fun a ha b hb =>
        h a (List.mem_cons_of_mem _ ha) b (List.mem_cons_of_mem _ hb)
      simp [related, hhead, htail]

theorem related_map (relation : β → γ → Bool) (f : α → β) (as : List α) (bs : List γ) :
    related relation (as.map f) bs = related (fun a b => relation (f a) b) as bs := by
  induction as generalizing bs with
  | nil => cases bs <;> rfl
  | cons a as ih => cases bs <;> simp [related, ih]

theorem Value.equal_map (f : M → α) (same : α → N → Bool) (v : Value M) (w : Value N) :
    (v.map f).equal same w = v.equal (fun m => same (f m)) w := by
  cases v <;> cases w <;> rfl

theorem Slot.equal_mapMessages (f : M → α) (compare? : α → N → Option Bool) (bytes : α → Bytes)
    (bytes' : N → Bytes) (s : Slot M) (t : Slot N) :
    Slot.equal compare? bytes bytes' (s.mapMessages f) t =
      Slot.equal (fun m => compare? (f m)) (bytes ∘ f) bytes' s t := by
  have hvalue (v : Value M) (w : Value N) :
      (v.map f).equal (Slot.equal.same compare?) w =
        v.equal (Slot.equal.same fun m => compare? (f m)) w :=
    Value.equal_map f _ v w
  cases s with
  | plain _ | packed _ => cases t <;> rfl
  | optional v =>
    cases t with
    | optional w =>
      cases v with
      | none => cases w <;> rfl
      | some v =>
        cases w with
        | none => rfl
        | some w => exact hvalue v w
    | _ => cases v <;> rfl
  | repeated vs =>
    cases t with
    | repeated ws => simp only [mapMessages, equal, related_map, hvalue]
    | _ => rfl
  | map es =>
    cases t with
    | map es' => simp only [mapMessages, equal, related_map, hvalue]
    | _ => rfl
  | oneof c =>
    cases t with
    | oneof d =>
      cases c with
      | none => cases d <;> rfl
      | some e =>
        cases d with
        | none => rfl
        | some e' => simp only [mapMessages, equal, Option.map_some, hvalue]
    | _ => cases c <;> rfl
  | payload p =>
    cases t with
    | payload q => cases p <;> cases q <;> rfl
    | _ => rfl

/-- Messages of one type are equal if their slots and their unknown fields are. -/
theorem Message.isEqual?_eq (m other : Message) :
    m.isEqual? other =
      if m.type = other.type then
        some (related (Slot.equal isEqual? encode encode) m.slots other.slots &&
          m.unknown = other.unknown)
      else none := by
  rw [isEqual?, fold_eq, related_map]
  simp only [Slot.equal_mapMessages]
  rfl

/-! ## Messages that are equal in bytes -/

/-- The scalar, if the value is one. -/
def Value.scalars : Value M → List Scalar
  | scalar s => [s]
  | message _ => []

/-- The scalars in the slot, those inside messages apart. -/
def Slot.scalars : Slot M → List Scalar
  | plain s => [s]
  | packed ss => ss
  | optional v => v.toList.flatMap Value.scalars
  | repeated vs => vs.flatMap Value.scalars
  | map es => es.flatMap fun e => e.1 :: e.2.scalars
  | oneof c => c.toList.flatMap fun e => e.2.scalars
  | payload _ => []

namespace Message

/-- Under some nesting limit, the message is read back from its bytes. -/
def IsReadable (m : Message) : Prop :=
  ∃ limit, decode { depthLimit := limit, allowPartial := true } m.type m.encode = .ok m.inBytes

theorem Arises.isReadable {type : MessageType} (ht : type ≠ .node) {m : Message}
    (h : m.Arises type) (hlen : m.encodedLen < 2 ^ 64) : m.IsReadable := by
  rw [encodedLen_eq] at hlen
  exact ⟨100, h.sound.1 ▸ h.decode_encode ht hlen⟩

/-- Messages of one type that are read back are the same in bytes if their bytes are. -/
theorem IsReadable.encode_eq_iff {m m' : Message} (h : m.IsReadable) (h' : m'.IsReadable)
    (ht : m.type = m'.type) : m.encode = m'.encode ↔ m.inBytes = m'.inBytes := by
  constructor
  · intro hbytes
    obtain ⟨limit, hm⟩ := h
    obtain ⟨limit', hm'⟩ := h'
    have hm := (decode_depthLimit _ (Nat.le_max_left limit limit') m.type m.encode).2.1 _ hm
    have hm' := (decode_depthLimit _ (Nat.le_max_right limit limit') m'.type m'.encode).2.1 _ hm'
    rw [← ht, ← hbytes, hm] at hm'
    exact Except.ok.inj hm'
  · intro hm
    rw [← encode_inBytes m, hm, encode_inBytes]

/-- In the message and in all those inside it, no number is a NaN or a negative zero, and what an
`Any` carries can be read back. -/
inductive Regular : Message → Prop
  /-- It holds of the message and of those directly inside. -/
  | intro {m : Message} (ordinary : ∀ s ∈ m.slots, ∀ x ∈ s.scalars, x.isOrdinary = true)
    (readable : ∀ c, .payload (.held c) ∈ m.slots → c.IsReadable)
    (inside : ∀ c ∈ m.children, Regular c) : Regular m

end Message

theorem Value.equal_iff {v w : Value Message} (hv : ∀ x ∈ v.scalars, x.isOrdinary = true)
    (hw : ∀ x ∈ w.scalars, x.isOrdinary = true)
    (h : ∀ c ∈ v.children, ∀ c' ∈ w.children, (c.equal c' = true ↔ c.inBytes = c'.inBytes)) :
    v.equal (Slot.equal.same Message.isEqual?) w = true ↔
      v.map Message.inBytes = w.map Message.inBytes := by
  cases v with
  | scalar s =>
    cases w with
    | scalar s' =>
      have hs := Scalar.equal_iff (hv s (List.mem_singleton_self s))
        (hw s' (List.mem_singleton_self s'))
      simpa [equal, map] using hs
    | message _ => simp [equal, map]
  | message m =>
    cases w with
    | scalar _ => simp [equal, map]
    | message m' =>
      have hm : Slot.equal.same Message.isEqual? m m' = true ↔ m.inBytes = m'.inBytes :=
        h m (List.mem_singleton_self m) m' (List.mem_singleton_self m')
      simpa [equal, map] using hm

theorem Value.related_equal_iff {vs ws : List (Value Message)}
    (hv : ∀ v ∈ vs, ∀ x ∈ v.scalars, x.isOrdinary = true)
    (hw : ∀ w ∈ ws, ∀ x ∈ w.scalars, x.isOrdinary = true)
    (h : ∀ v ∈ vs, ∀ w ∈ ws, ∀ c ∈ v.children, ∀ c' ∈ w.children,
      (c.equal c' = true ↔ c.inBytes = c'.inBytes)) :
    related (equal (Slot.equal.same Message.isEqual?)) vs ws = true ↔
      vs.map (map Message.inBytes) = ws.map (map Message.inBytes) :=
  related_iff fun v hvs w hws => equal_iff (hv v hvs) (hw w hws) (h v hvs w hws)

theorem Value.related_entries_iff {es es' : List (Scalar × Value Message)}
    (he : ∀ e ∈ es, ∀ x ∈ e.1 :: e.2.scalars, x.isOrdinary = true)
    (he' : ∀ e ∈ es', ∀ x ∈ e.1 :: e.2.scalars, x.isOrdinary = true)
    (h : ∀ e ∈ es, ∀ e' ∈ es', ∀ c ∈ e.2.children, ∀ c' ∈ e'.2.children,
      (c.equal c' = true ↔ c.inBytes = c'.inBytes)) :
    related (fun a b => a.1.equal b.1 && a.2.equal (Slot.equal.same Message.isEqual?) b.2)
        es es' = true ↔
      es.map (fun e => (e.1, e.2.map Message.inBytes)) =
        es'.map fun e => (e.1, e.2.map Message.inBytes) := by
  refine related_iff fun e hes e' hes' => ?_
  obtain ⟨hkey, hvalue⟩ := List.forall_mem_cons.1 (he e hes)
  obtain ⟨hkey', hvalue'⟩ := List.forall_mem_cons.1 (he' e' hes')
  rw [Bool.and_eq_true, Scalar.equal_iff hkey hkey', equal_iff hvalue hvalue' (h e hes e' hes'),
    Prod.mk.injEq]

/-- If one of two payloads is in bytes, their bytes are compared. -/
theorem Payload.equal_of_serialized {compare? : M → N → Option Bool} {bytes : M → Bytes}
    {bytes' : N → Bytes} {p : Payload M} {q : Payload N} (h : p.children = [] ∨ q.children = []) :
    p.equal compare? bytes bytes' q = true ↔ p.bytes bytes = q.bytes bytes' := by
  cases p with
  | serialized _ => cases q <;> exact decide_eq_true_iff
  | held m =>
    cases q with
    | serialized _ => exact decide_eq_true_iff
    | held m' => rcases h with h | h <;> cases h

open Message in
theorem Payload.equal_iff {p q : Payload Message}
    (hp : ∀ c ∈ p.children, c.IsReadable) (hq : ∀ c ∈ q.children, c.IsReadable)
    (h : ∀ c ∈ p.children, ∀ c' ∈ q.children, (c.equal c' = true ↔ c.inBytes = c'.inBytes)) :
    p.equal isEqual? encode encode q = true ↔ p.bytes encode = q.bytes encode := by
  cases p with
  | serialized _ => exact equal_of_serialized (Or.inl rfl)
  | held m =>
    cases q with
    | serialized _ => exact equal_of_serialized (Or.inr rfl)
    | held m' =>
      have hm := hp m (List.mem_singleton_self m)
      have hm' := hq m' (List.mem_singleton_self m')
      have hmm' := h m (List.mem_singleton_self m) m' (List.mem_singleton_self m')
      show (m.isEqual? m').getD (m.encode = m'.encode) = true ↔ m.encode = m'.encode
      by_cases ht : m.type = m'.type
      · refine Iff.trans ?_ (hmm'.trans (hm.encode_eq_iff hm' ht).symm)
        rw [Message.equal, isEqual?_eq, if_pos ht]
        rfl
      · rw [isEqual?_eq, if_neg ht]
        exact decide_eq_true_iff

open Message in
/-- Slots are equal if they are in bytes. -/
theorem Slot.equal_iff {s t : Slot Message} (hs : ∀ x ∈ s.scalars, x.isOrdinary = true)
    (ht : ∀ x ∈ t.scalars, x.isOrdinary = true)
    (hps : ∀ c, s = .payload (.held c) → c.IsReadable)
    (hpt : ∀ c, t = .payload (.held c) → c.IsReadable)
    (h : ∀ c ∈ s.children, ∀ c' ∈ t.children, (c.equal c' = true ↔ c.inBytes = c'.inBytes)) :
    Slot.equal isEqual? encode encode s t = true ↔ s.inBytes = t.inBytes := by
  cases s with
  | plain x =>
    cases t with
    | plain y =>
      have hxy := Scalar.equal_iff (hs x (List.mem_singleton_self x))
        (ht y (List.mem_singleton_self y))
      simpa [equal, inBytes, serialized, mapMessages] using hxy
    | _ => simp [equal, inBytes, serialized, mapMessages]
  | packed xs =>
    cases t with
    | packed ys =>
      have hxy : related Scalar.equal xs ys = true ↔ xs.map id = ys.map id :=
        related_iff fun x hx y hy => Scalar.equal_iff (hs x hx) (ht y hy)
      simpa [equal, inBytes, serialized, mapMessages] using hxy
    | _ => simp [equal, inBytes, serialized, mapMessages]
  | optional v =>
    cases t with
    | optional w =>
      cases v with
      | none => cases w <;> simp [equal, inBytes, serialized, mapMessages]
      | some v =>
        cases w with
        | none => simp [equal, inBytes, serialized, mapMessages]
        | some w =>
          have hvw := Value.equal_iff (v := v) (w := w)
            (by simpa [scalars] using hs) (by simpa [scalars] using ht)
            (by simpa [children] using h)
          simpa [equal, inBytes, serialized, mapMessages] using hvw
    | _ => cases v <;> simp [equal, inBytes, serialized, mapMessages]
  | repeated vs =>
    cases t with
    | repeated ws =>
      have hvw := Value.related_equal_iff
        (fun v hv x hx => hs x (List.mem_flatMap.2 ⟨v, hv, hx⟩))
        (fun w hw x hx => ht x (List.mem_flatMap.2 ⟨w, hw, hx⟩))
        fun v hv w hw c hc c' hc' =>
          h c (List.mem_flatMap.2 ⟨v, hv, hc⟩) c' (List.mem_flatMap.2 ⟨w, hw, hc'⟩)
      simpa [equal, inBytes, serialized, mapMessages] using hvw
    | _ => simp [equal, inBytes, serialized, mapMessages]
  | map es =>
    cases t with
    | map es' =>
      have hes := Value.related_entries_iff
        (fun e he x hx => hs x (List.mem_flatMap.2 ⟨e, he, hx⟩))
        (fun e he x hx => ht x (List.mem_flatMap.2 ⟨e, he, hx⟩))
        fun e he e' he' c hc c' hc' =>
          h c (List.mem_flatMap.2 ⟨e, he, hc⟩) c' (List.mem_flatMap.2 ⟨e', he', hc'⟩)
      simpa [equal, inBytes, serialized, mapMessages] using hes
    | _ => simp [equal, inBytes, serialized, mapMessages]
  | oneof c =>
    cases t with
    | oneof d =>
      cases c with
      | none => cases d <;> simp [equal, inBytes, serialized, mapMessages]
      | some e =>
        cases d with
        | none => simp [equal, inBytes, serialized, mapMessages]
        | some e' =>
          have hvalue := Value.equal_iff (v := e.2) (w := e'.2)
            (by simpa [scalars] using hs) (by simpa [scalars] using ht)
            (by simpa [children] using h)
          obtain ⟨n, v⟩ := e
          obtain ⟨n', v'⟩ := e'
          simpa [equal, inBytes, serialized, mapMessages] using fun _ => hvalue
    | _ => cases c <;> simp [equal, inBytes, serialized, mapMessages]
  | payload p =>
    cases t with
    | payload q =>
      have hpq := Payload.equal_iff (p := p) (q := q) ?_ ?_ h
      · simpa [equal, inBytes, serialized, mapMessages, Payload.map] using hpq
      · intro c hc
        cases p with
        | serialized _ => cases hc
        | held m => exact List.mem_singleton.1 hc ▸ hps m rfl
      · intro c hc
        cases q with
        | serialized _ => cases hc
        | held m => exact List.mem_singleton.1 hc ▸ hpt m rfl
    | _ => simp [equal, inBytes, serialized, mapMessages]

namespace Message

/-- Messages are equal if they are with all payloads in bytes. -/
theorem equal_iff {m m' : Message} (hm : m.Regular) (hm' : m'.Regular) :
    m.equal m' = true ↔ m.inBytes = m'.inBytes := by
  induction hm generalizing m' with
  | @intro m ordinary readable _ ih =>
    obtain ⟨ordinary', readable', inside'⟩ := hm'
    by_cases ht : m.type = m'.type
    · have hslots : related (Slot.equal isEqual? encode encode) m.slots m'.slots = true ↔
          m.slots.map Slot.inBytes = m'.slots.map Slot.inBytes := by
        refine related_iff fun s hs t ht => Slot.equal_iff (ordinary s hs) (ordinary' t ht) ?_ ?_ ?_
        · rintro c rfl
          exact readable c hs
        · rintro c rfl
          exact readable' c ht
        · intro c hc c' hc'
          exact ih c (List.mem_flatMap.2 ⟨s, hs, hc⟩)
            (inside' c' (List.mem_flatMap.2 ⟨t, ht, hc'⟩))
      rw [equal, isEqual?_eq, if_pos ht, inBytes_eq, inBytes_eq, mk.injEq]
      simp [ht, hslots]
    · rw [equal, isEqual?_eq, if_neg ht, inBytes_eq, inBytes_eq, mk.injEq]
      simp [ht]

end Message

/-! ## Messages of any type -/

namespace Any

open Message

/-- Two `Any`s are equal if their parts are. -/
theorem equal_make {url url' : String} {p q : Payload Message} {unknown unknown' : Bytes} :
    (make url p unknown).equal (make url' q unknown') = true ↔
      url = url' ∧ p.equal isEqual? encode encode q = true ∧ unknown = unknown' := by
  have htype : (make url p unknown).type = (make url' q unknown').type := rfl
  rw [Message.equal, isEqual?_eq, if_pos htype]
  simp only [make, related, Slot.equal, Scalar.equal, Option.getD_some, Bool.and_true,
    Bool.and_eq_true, decide_eq_true_iff, Scalar.string.injEq, and_assoc]
  exact and_congr Iff.rfl (and_congr Iff.rfl decide_eq_true_iff)

theorem value_make (url : String) (p : Payload Message) (unknown : Bytes) :
    value (make url p unknown) = p.bytes encode := by
  have hbytes : toBytes = encode := funext toBytes_eq
  rw [value, hbytes]
  rfl

/-- What a hash of an `Any` depends on: the URL, the payload in bytes and the unknown fields. -/
theorem fingerprint_make (url : String) (p : Payload Message) (unknown : Bytes) :
    (make url p unknown).fingerprint = Fingerprint.string url ++
      Fingerprint.bytes (p.bytes encode) ++ Fingerprint.bytes unknown := by
  rw [fingerprint, fold_eq]
  cases p <;>
    simp [make, MessageType.members, Member.fingerprint, Slot.mapMessages, Scalar.fingerprint,
      Payload.map, Payload.bytes]

theorem fits_make (url : String) (p : Payload Message) (unknown : Bytes) :
    (make url p unknown).Fits := by
  refine ⟨rfl, fun i member s hi hs => ?_⟩
  match i with
  | 0 =>
    cases hi
    cases hs
    exact rfl
  | 1 =>
    cases hi
    cases hs
    exact trivial

/-- The message is an `Any`. If it is resolved, the message that it carries is regular and can be
read back. -/
structure Comparable (any : Message) : Prop where
  /-- It is an `Any`. -/
  type_eq : any.type = .any
  /-- It has the slots of one. -/
  fits : any.Fits
  /-- What it carries is regular. -/
  regular : ∀ m, held? any = some m → m.Regular
  /-- What it carries can be read back. -/
  readable : ∀ m, held? any = some m → m.IsReadable

/-- An `Any` that carries a message that arises is comparable, if the message is regular. -/
theorem comparable_pack {m : Message} (ht : m.type ≠ .node) (h : m.Arises m.type)
    (hlen : m.encodedLen < 2 ^ 64) (hm : m.Regular) (base : String) : Comparable (pack m base) where
  type_eq := rfl
  fits := fits_make ..
  regular _ h := Option.some.inj h ▸ hm
  readable _ h' := Option.some.inj h' ▸ h.isReadable ht hlen

/-- An `Any` that carries bytes is comparable whatever they are. -/
theorem comparable_ofBytes (url : String) (bytes : Bytes) : Comparable (ofBytes url bytes) where
  type_eq := rfl
  fits := fits_make ..
  regular _ h := nomatch h
  readable _ h := nomatch h

theorem Comparable.equal_iff_parts {a b : Message} (ha : Comparable a) (hb : Comparable b) :
    a.equal b = true ↔ url a = url b ∧ value a = value b ∧ a.unknown = b.unknown := by
  obtain ⟨atype, afits, aregular, areadable⟩ := ha
  obtain ⟨btype, bfits, bregular, breadable⟩ := hb
  obtain ⟨u, p, hp⟩ := afits.eq_make atype
  obtain ⟨u', q, hq⟩ := bfits.eq_make btype
  have hheld : ∀ m ∈ p.children, held? a = some m := by
    intro m hm
    rw [hp]
    cases p with
    | serialized _ => cases hm
    | held c => exact congrArg some (List.mem_singleton.1 hm).symm
  have hheld' : ∀ m ∈ q.children, held? b = some m := by
    intro m hm
    rw [hq]
    cases q with
    | serialized _ => cases hm
    | held c => exact congrArg some (List.mem_singleton.1 hm).symm
  have hpayload : p.equal isEqual? encode encode q = true ↔ p.bytes encode = q.bytes encode :=
    Payload.equal_iff (fun c hc => areadable c (hheld c hc)) (fun c hc => breadable c (hheld' c hc))
      fun c hc c' hc' => Message.equal_iff (aregular c (hheld c hc)) (bregular c' (hheld' c' hc'))
  rw [hp, hq, equal_make, hpayload, value_make, value_make]
  exact Iff.rfl

/-- A message is encoded as its only number behind the tag. -/
theorem encode_inner_five :
    encode ⟨.inner, [.plain (.int32 5), .plain (.string "")], []⟩ = [8, 5] := by
  let m : Message := ⟨.inner, [.plain (.int32 5), .plain (.string "")], []⟩
  have hvisits : m.visits = [.field 1 "value" (.scalar (.int32 5))] := rfl
  have htag : Tag.encode 1 .varint = [8] := Varint.encode_of_lt (by decide)
  have hscalar : (Scalar.int32 5).encode = [5] := Varint.encode_of_lt (by decide)
  rw [encode_eq, hvisits]
  show Tag.encode 1 .varint ++ (Scalar.int32 5).encode ++ [] ++ [] = _
  rw [htag, hscalar]
  rfl

/-- An `Any` is equal to another one if they have the same URL, the same bytes and the same unknown
fields, whether their payloads are resolved or not. Then a hash does not tell them apart. So all
three laws of an equality hold. Wherever payloads are resolved, no number in them is a NaN or a
negative zero. -/
theorem equal_iff_encoded {a b c : Message} (ha : Comparable a) (hb : Comparable b)
    (hc : Comparable c) :
    (a.equal b = true ↔ url a = url b ∧ value a = value b ∧ a.unknown = b.unknown) ∧
      (a.equal b = true → a.fingerprint = b.fingerprint) ∧
      a.equal a = true ∧ (a.equal b = true → b.equal a = true) ∧
      (a.equal b = true → b.equal c = true → a.equal c = true) := by
  have hab := ha.equal_iff_parts hb
  refine ⟨hab, fun h => ?_, ?_, fun h => ?_, fun h h' => ?_⟩
  · obtain ⟨hurl, hvalue, hunknown⟩ := hab.1 h
    obtain ⟨u, p, hp⟩ := ha.fits.eq_make ha.type_eq
    obtain ⟨u', q, hq⟩ := hb.fits.eq_make hb.type_eq
    rw [hp, hq] at hurl hvalue
    rw [value_make, value_make] at hvalue
    have hurl : u = u' := hurl
    rw [hp, hq, fingerprint_make, fingerprint_make, hurl, hvalue, hunknown]
  · exact (ha.equal_iff_parts ha).2 ⟨rfl, rfl, rfl⟩
  · obtain ⟨hurl, hvalue, hunknown⟩ := hab.1 h
    exact (hb.equal_iff_parts ha).2 ⟨hurl.symm, hvalue.symm, hunknown.symm⟩
  · obtain ⟨hurl, hvalue, hunknown⟩ := hab.1 h
    obtain ⟨hurl', hvalue', hunknown'⟩ := (hb.equal_iff_parts hc).1 h'
    exact (ha.equal_iff_parts hc).2
      ⟨hurl.trans hurl', hvalue.trans hvalue', hunknown.trans hunknown'⟩

/-- A message that was packed, the same in bytes, and another one that differs. -/
theorem equal_iff_encoded_inner :
    ∃ m : Message, decode { allowPartial := true } .inner [8, 5] = .ok m ∧
      (pack m "").equal (ofBytes "/protowire_test.Inner" [8, 5]) = true ∧
      (pack m "").equal (ofBytes "/protowire_test.Inner" [8, 6]) = false := by
  let m : Message := ⟨.inner, [.plain (.int32 5), .plain (.string "")], []⟩
  have hdecode : decode { allowPartial := true } .inner [8, 5] = .ok m := rfl
  have hencode : m.encode = [8, 5] := encode_inner_five
  have hregular : m.Regular :=
    .intro (by decide) (fun c hc => by simp [m] at hc) fun c hc => nomatch hc
  have hpack : Comparable (pack m "") :=
    comparable_pack (by decide) (Or.inr ⟨[8, 5], hdecode⟩)
      (by rw [encodedLen_eq, hencode]; decide) hregular ""
  have hurl : url (pack m "") = "/protowire_test.Inner" := by decide
  have hvalue : value (pack m "") = [8, 5] := (value_make ..).trans hencode
  refine ⟨m, hdecode, ?_, ?_⟩
  · exact (equal_iff_encoded hpack (comparable_ofBytes _ [8, 5]) hpack).1.2 ⟨hurl, hvalue, rfl⟩
  · rw [← Bool.not_eq_true]
    intro h
    have hbytes := ((equal_iff_encoded hpack (comparable_ofBytes _ [8, 6]) hpack).1.1 h).2.1
    rw [hvalue] at hbytes
    cases hbytes

/-- A NaN in a resolved payload makes an `Any` differ from itself, and zeros of both signs make two
of them equal though their bytes are not and a hash tells them apart. -/
theorem equal_nestedRequired :
    ∃ nan zero minus : Message,
      decode { allowPartial := true } .nestedRequired [9, 0, 0, 0, 0, 0, 0, 0xF8, 0x7F] = .ok nan ∧
      decode { allowPartial := true } .nestedRequired [9, 0, 0, 0, 0, 0, 0, 0, 0] = .ok zero ∧
      decode { allowPartial := true } .nestedRequired [9, 0, 0, 0, 0, 0, 0, 0, 0x80] = .ok minus ∧
      (pack nan "").equal (pack nan "") = false ∧
      (pack zero "").equal (pack minus "") = true ∧
      value (pack zero "") ≠ value (pack minus "") ∧
      (pack zero "").fingerprint ≠ (pack minus "").fingerprint := by
  let number (bits : UInt64) : Message :=
    ⟨.nestedRequired, [.optional (some (.scalar (.double bits)))], []⟩
  have hequal (a b : UInt64) : (pack (number a) "").equal (pack (number b) "") =
      FloatFormat.double.sameNumber a.toNat b.toNat := by
    have htype : (number a).type = (number b).type := rfl
    have hheld : (number a).isEqual? (number b) =
        some (FloatFormat.double.sameNumber a.toNat b.toNat) := by
      rw [isEqual?_eq, if_pos htype]
      simp [number, related, Slot.equal, Value.equal, Scalar.equal]
    rw [Bool.eq_iff_iff, pack, pack, equal_make, Payload.equal, hheld]
    simp [number]
  have hencode (bits : UInt64) : (number bits).encode = 9 :: Bytes.ofNat 8 bits.toNat := by
    have hvisits : (number bits).visits =
        [.field 1 "required_double" (.scalar (.double bits))] := rfl
    have htag : Tag.encode 1 .fixed64 = [9] := Varint.encode_of_lt (by decide)
    rw [encode_eq, hvisits]
    show Tag.encode 1 .fixed64 ++ Bytes.ofNat 8 bits.toNat ++ [] ++ [] = _
    rw [htag, List.append_nil, List.append_nil]
    rfl
  have hbytes : (number 0).encode ≠ (number 0x8000000000000000).encode := by
    rw [hencode, hencode]
    decide
  refine ⟨number 0x7FF8000000000000, number 0, number 0x8000000000000000, rfl, rfl, rfl, ?_, ?_, ?_,
    ?_⟩
  · rw [hequal]
    decide
  · rw [hequal]
    decide
  · rw [pack, pack, value_make, value_make]
    exact hbytes
  · rw [pack, pack, fingerprint_make, fingerprint_make]
    show _ ++ Fingerprint.bytes (number 0).encode ++ _ ≠
      _ ++ Fingerprint.bytes (number 0x8000000000000000).encode ++ _
    rw [hencode, hencode]
    decide

end Any

end Protobuf
