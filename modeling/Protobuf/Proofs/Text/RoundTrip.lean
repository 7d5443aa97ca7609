import Protobuf.Proofs.RoundTrip
import Protobuf.Proofs.Text.Members

/-!
# Round trip through text

A message without unknown fields and floating-point numbers is parsed from its own text, up to the
form of the payload of an `Any`, if it does not nest too deep and no payload is printed as a message
(`Message.parse_print`). Messages of a type that does not contain itself never nest too deep.
-/

namespace Protobuf

open Build

namespace Text

/-! ## The lines of a message -/

theorem valueLines_map {M α : Type} (f : M → α) (body : α → List Line) (label : String)
    (v : FieldValue M) : valueLines body label (v.map f) = valueLines (body ∘ f) label v := by
  cases v <;> rfl

theorem visitLines_map {M α : Type} (f : M → α) (body entryBody : α → List Line) (v : Visit M) :
    visitLines body entryBody (v.map f) = visitLines (body ∘ f) (entryBody ∘ f) v := by
  cases v with
  | field number name value => exact valueLines_map f body name value
  | packed number name ss => rfl
  | mapEntry number name key value =>
    rw [Visit.map, visitLines, visitLines, valueLines_map]
    rfl

theorem plainLines_eq (print : PrintOptions) (m : Message) :
    plainLines print m =
      m.visits.flatMap (visitLines (plainLines print) (plainLines print)) ++
        unknownLines print m.unknown := by
  rw [plainLines, Message.fold_eq, MessageType.visits_mapMessages, List.flatMap_map]
  simp only [visitLines_map]
  rfl

/-- A payload that is not printed as a message is printed as bytes. -/
theorem messageLines_eq {print : PrintOptions} {m : Message}
    (h : m.type = .any → Any.expanded? print.known? m = none) (n : Nat) :
    messageLines print n m =
      m.visits.flatMap (visitLines (messageLines print (n - 1)) (messageLines print (n - 2))) ++
        unknownLines print m.unknown := by
  have hnone : (if m.type = .any then Any.expanded? print.known? m else none) = none := by
    split
    · rename_i ha
      exact h ha
    · rfl
  cases n with
  | zero =>
    have hplain : messageLines print 0 = plainLines print := by
      funext m
      rw [messageLines]
    rw [hplain]
    exact plainLines_eq print m
  | succ n =>
    rw [messageLines]
    simp only [hnone]
    rfl

theorem unknownLines_nil (print : PrintOptions) : unknownLines print [] = [] := by
  unfold unknownLines
  split
  · rfl
  · rfl

/-! ## Merging the lines of a message -/

variable {options : ParseOptions} {print : PrintOptions} {depth : Nat}

/-- What is printed for the members of a type, one after the other, is merged into the slots that
were never set. -/
theorem merges_members (lines : Nat → Message → List Line) {m : Message}
    {front members : List Member} (hmembers : m.type.members = front ++ members)
    {done slots : List (Slot Message)} (hdone : done.length = front.length)
    (hslots : m.slots = done ++ members.map Member.initial)
    (hfits : List.Forall₂ Member.Fits members slots)
    (hplain : ∀ v ∈ (members.zip slots).flatMap fun p => p.1.visits Message.encode p.2,
      ∀ x ∈ v.scalars, x.isFloating = false)
    (hback : ∀ s ∈ slots, ∀ c ∈ s.nested, Restores options (depth + c.1) (lines c.1 c.2) c.2)
    (hd : ∀ es, .map es ∈ slots → es ≠ [] → depth + 1 ≤ options.depthLimit) :
    Merges options depth
      (((members.zip slots).flatMap fun p => p.1.visits Message.encode p.2).flatMap
        (visitLines (lines 1) (lines 2))) m
      { m with slots := done ++ slots.map Slot.inBytes } := by
  induction hfits generalizing m front done with
  | nil =>
    obtain ⟨type, _, unknown⟩ := m
    cases hslots
    exact merges_nil
  | @cons member s members slots hs _ ih =>
    obtain ⟨hsback, hback⟩ := List.forall_mem_cons.1 hback
    rw [List.zip_cons_cons, List.flatMap_cons] at hplain ⊢
    obtain ⟨hsplain, hplain⟩ := List.forall_mem_append.1 hplain
    have hi : m.type.members[done.length]? = some member := by
      rw [hmembers, hdone, List.getElem?_append_right (Nat.le_refl _), Nat.sub_self,
        List.getElem?_cons_zero]
    have hinitial : m.slots[done.length]? = some member.initial := by
      rw [hslots, List.getElem?_append_right (Nat.le_refl _), Nat.sub_self, List.map_cons,
        List.getElem?_cons_zero]
    have hfirst := merges_visits hi hinitial hs hsplain hsback
      fun es he hne => hd es (he ▸ List.mem_cons_self) hne
    have hset : m.slots.set done.length s.inBytes =
        (done ++ [s.inBytes]) ++ members.map Member.initial := by
      rw [hslots, List.set_append_right _ _ (Nat.le_refl _), Nat.sub_self, List.map_cons,
        List.set_cons_zero, List.append_assoc, List.singleton_append]
    have hfront : m.type.members = (front ++ [member]) ++ members := by
      rw [List.append_assoc]
      exact hmembers
    have hlength : (done ++ [s.inBytes]).length = (front ++ [member]).length := by
      rw [List.length_append, List.length_append, hdone]
      rfl
    have hrest := ih (m := { m with slots := m.slots.set done.length s.inBytes }) hfront hlength
      hset hplain hback fun es he hne => hd es (List.mem_cons_of_mem _ he) hne
    rw [List.append_assoc, List.singleton_append] at hrest
    rw [List.flatMap_append]
    exact hfirst.append hrest

end Text

/-- No floating-point number is written for the message itself, and it is no `Any` whose payload is
printed as a message. -/
def Message.Printable (known? : Option Registry) (m : Message) : Prop :=
  (∀ v ∈ m.visits, ∀ x ∈ v.scalars, x.isFloating = false) ∧
    (m.type = .any → Any.expanded? known? m = none)

namespace Text

variable {options : ParseOptions} {print : PrintOptions} {depth : Nat}

/-- A message is read back from its lines if all within it fit and can be printed. -/
theorem restores {m : Message} (h : m.Sound (fun _ _ unknown => unknown = []) depth)
    (hn : m.NestsWithin options.depthLimit depth)
    (hp : m.Everywhere (fun _ c => c.Printable print.known?) depth) (n : Nat) :
    Restores options depth (messageLines print n m) m := by
  induction h generalizing n with
  | @intro depth m here _ ih =>
    obtain ⟨hfits, hunknown⟩ := here
    obtain ⟨hd, hmap⟩ := hn.here
    obtain ⟨hplain, hany⟩ := hp.here
    -- A message inside a map entry is two blocks deeper, and is printed as such.
    have hback : ∀ s ∈ m.slots, ∀ c ∈ s.nested,
        Restores options (depth + c.1) (messageLines print (n - c.1) c.2) c.2 := by
      intro s hs c hc
      have hmem : c ∈ m.nested := List.mem_flatMap.2 ⟨s, hs, hc⟩
      exact ih c hmem (hn.inside hmem) (hp.inside hmem) (n - c.1)
    have hnone : ([] : List (Slot Message)).length = ([] : List Member).length := rfl
    have hmerges := merges_members (fun level => messageLines print (n - level))
      (m := .new m.type) (List.nil_append _).symm hnone rfl hfits.forall₂ hplain hback hmap
    refine ⟨hd, ?_⟩
    rw [messageLines_eq hany, hunknown, unknownLines_nil, List.append_nil, Message.inBytes_eq,
      hunknown]
    exact hmerges

end Text

namespace Message

/-- A message without unknown fields is parsed from its text. -/
theorem parse_print {options : Text.ParseOptions} {print : Text.PrintOptions} {m : Message}
    (hpartial : options.allowPartial = true)
    (h : m.Sound (fun _ _ unknown => unknown = []) 0) (hn : m.NestsWithin options.depthLimit 0)
    (hp : m.Everywhere (fun _ c => c.Printable print.known?) 0) :
    parse options m.type (m.print print) = .ok m.inBytes := by
  obtain ⟨-, hmerges⟩ := Text.restores h hn hp print.anyDepth
  obtain ⟨c, hbody⟩ := hmerges.mergeBody
  have hchecked : m.inBytes.checked options.allowPartial = .ok m.inBytes := by
    rw [checked, hpartial, Bool.true_or]
    rfl
  rw [parse, mergeText, Message.print, hbody]
  dsimp only
  rw [hchecked]

/-! ## Messages of a type that does not contain itself -/

/-- No message inside is an `Any`. -/
theorem Sound.printable {U : Nat → MessageType → Bytes → Prop} {d : Nat} {m : Message}
    (h : m.Sound U d) (ht : m.type ≠ .node)
    (hplain : m.Everywhere (fun _ c => ∀ v ∈ c.visits, ∀ x ∈ v.scalars, x.isFloating = false) d)
    {known? : Option Registry} (hany : m.type = .any → Any.expanded? known? m = none) :
    m.Everywhere (fun _ c => c.Printable known?) d := by
  induction h with
  | @intro d m here _ ih =>
    refine .intro ⟨hplain.here, hany⟩ fun c hc => ?_
    obtain ⟨s, hs, hcs⟩ := List.mem_flatMap.1 hc
    obtain ⟨member, hmember, hfits⟩ := here.1.exists_member hs
    obtain ⟨hnode, hne, -⟩ := MessageType.height_nested ht hmember (hfits.type_mem hcs)
    exact ih c hc hnode (hplain.inside hc) fun ha => absurd ha hne

end Message

theorem Any.expanded?_none {m : Message} (h : Any.held? m = none) :
    Any.expanded? none m = none := by
  unfold Any.held? at h
  unfold Any.expanded?
  cases hp : Any.payload m with
  | held p =>
    rw [hp] at h
    cases h
  | serialized b => rfl

namespace Message

/-- A message with a serialized payload is as it is with its payload in bytes. -/
theorem Fits.inBytes_eq_self {m : Message} (h : m.Fits) (ha : m.type = .any)
    (hheld : Any.held? m = none) : m.inBytes = m := by
  obtain ⟨url, p, hm⟩ := h.eq_make ha
  rw [hm] at hheld ⊢
  rw [inBytes_eq]
  cases p with
  | serialized b => rfl
  | held p => cases hheld

/-- A message that was built without unknown fields and without floating-point numbers is parsed
from its text as it was. An `Any` has its payload in bytes and is printed without a registry. -/
theorem text_round_trip {m : Message} {print : Text.PrintOptions} (ht : m.type ≠ .node)
    (hm : m.Sound (fun _ _ unknown => unknown = []) 0)
    (hplain : m.Everywhere (fun _ c => ∀ v ∈ c.visits, ∀ x ∈ v.scalars, x.isFloating = false) 0)
    (hany : m.type = .any → Any.held? m = none ∧ print.known? = none) :
    parse { allowPartial := true } m.type (m.print print) = .ok m := by
  have hheight : 0 + m.type.height ≤ 10 := by
    have all : ∀ type : MessageType, 0 + type.height ≤ 10 := by
      intro type
      cases type <;> decide
    exact all m.type
  have hexpanded : m.type = .any → Any.expanded? print.known? m = none := by
    intro ha
    obtain ⟨hheld, hknown⟩ := hany ha
    rw [hknown]
    exact Any.expanded?_none hheld
  have hself : m.inBytes = m := by
    by_cases ha : m.type = .any
    · exact hm.here.1.inBytes_eq_self ha (hany ha).1
    · exact hm.inBytes_eq_self ht ha
  have hparse : parse { allowPartial := true } m.type (m.print print) = .ok m.inBytes :=
    parse_print rfl hm (hm.nestsWithin ht hheight) (hm.printable ht hplain hexpanded)
  rwa [hself] at hparse

/-- In the message, numbers are negative, required fields are missing, and an extension is set. -/
theorem text_round_trip_requiredForeign :
    ∃ m : Message, m = ⟨.requiredForeign, [.optional none, .repeated [],
        .optional (some (.scalar (.int32 (-5)))), .map [(.int32 (-7), .message (new .required))],
        .optional (some (.message (new .required)))], []⟩ ∧
      parse { allowPartial := true } m.type (m.print {}) = .ok m := by
  have hnew := sound_new (U := fun _ _ unknown => unknown = []) fun _ _ => rfl
  have hmessage : ∀ d, Value.Sound (fun _ _ unknown => unknown = []) d (.message .required)
      (.message (new .required)) := by
    refine fun d => ⟨rfl, fun c hc => ?_⟩
    rw [List.mem_singleton.1 hc]
    exact hnew d .required
  have hscalar : Value.Sound (fun _ _ unknown => unknown = []) 1 (.scalar .int32)
      (.scalar (.int32 (-5))) := ⟨rfl, List.forall_mem_nil _⟩
  have hempty : Slot.Sound (fun _ _ unknown => unknown = []) 0
      (.map 4 "map_message" .int32 (.message .required)) (.map []) :=
    ⟨Member.fits_initial (.map 4 "map_message" .int32 (.message .required)),
      List.forall_mem_nil _⟩
  have hentry := hempty.insert (k := .int32 (-7)) rfl (hmessage 2)
  have hsound := (((hnew 0 .requiredForeign).set (i := 2) rfl (.optional hscalar)).set (i := 3) rfl
    hentry).set (i := 4) rfl (.optional (hmessage 1))
  refine ⟨_, rfl, text_round_trip (by decide) hsound ?_ (fun ha => nomatch ha)⟩
  refine .intro (by decide) fun c hc => ?_
  have hc : c ∈ [(2, new .required), (1, new .required)] := hc
  simp only [List.mem_cons, List.not_mem_nil, or_false] at hc
  rcases hc with rfl | rfl
  · exact .intro (by decide) fun c hc => nomatch hc
  · exact .intro (by decide) fun c hc => nomatch hc

end Message

end Protobuf
