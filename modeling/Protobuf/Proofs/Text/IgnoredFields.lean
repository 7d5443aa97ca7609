import Protobuf.Proofs.Text.Skipping

/-!
# Ignoring undeclared fields

Where all undeclared fields are ignored, the value of one is read over and no message is changed
(`Text.mergeBehind_of_undeclared`). Merging text never adds to the unknown fields of a message, at
whatever level (`Text.withoutUnknown_of_parse`).
-/

namespace Protobuf

open Build

variable {σ α κ ν : Type}

namespace Text

variable {options : ParseOptions} {body : MergeBody} {name : FieldName} {m : Message} {c : Cursor}

/-- Where all undeclared fields are ignored, one of them is read over: no message is changed, with
or without an error. -/
theorem mergeBehind_of_undeclared (line : Nat) (h : m.type.declares name = false) :
    mergeBehind options.ignoringAll body line name (m, c) =
      read (do
        Scan.colon
        Scan.passValue options.depthLimit (← get).sawColon
        Scan.separator) (m, c) := by
  refine run_read_bind fun _ d _ => ?_
  rw [run_bind_of_ok (mergeNamed_of_undeclared h), ParseOptions.ignores_ignoringAll]
  exact run_read_bind fun _ _ _ => rfl

/-! ## What is left in messages -/

/-- What is read is a value without unknown fields, at any level. -/
def ReadsBare (x : Scan (Value Message)) : Prop :=
  ∀ c v d, x c = .ok v d → v.map Message.withoutUnknown = v

variable {limit : Nat}

theorem keeps_block {P : Message → Prop} (hbody : ∀ close?, (body close?).Keeps P) :
    (block limit body).Keeps P :=
  .bind (.read _) fun _ => .bind (.read _) fun _ => .bind (hbody _) fun _ => .read _

section

variable (hbody : ∀ close?, (body close?).Keeps fun m => m.withoutUnknown = m)
include hbody

theorem withoutUnknown_of_block {type : MessageType} {d : Cursor}
    (h : alone (.new type) (block limit body) c = .ok m d) : m.withoutUnknown = m :=
  (keeps_block hbody (.new type, c) (Message.withoutUnknown_new type)).of_ok (alone_eq_ok.1 h)

theorem readsBare_value (kind : FieldKind) : ReadsBare (value limit body kind) := by
  intro c v d h
  cases kind with
  | scalar kind =>
    obtain ⟨s, -, rfl⟩ := map_eq_ok.1 h
    rfl
  | message type | group type =>
    obtain ⟨m, hm, rfl⟩ := map_eq_ok.1 h
    rw [Value.map, withoutUnknown_of_block hbody hm]

end

theorem keeps_elements {x : Scan (Value Message)} (hx : ReadsBare x) (rounds : Nat) :
    (Scan.elements x rounds).Keeps fun vs => vs.map (Value.map Message.withoutUnknown) = vs := by
  induction rounds with
  | zero => exact .pure ()
  | succ rounds ih =>
    refine .read_bind fun c v d hv => .bind (.update fun vs hvs => ?_) fun _ => ?_
    · rw [List.map_append, hvs, List.map_singleton, hx c v d hv]
    · refine .bind (.read _) fun closed => ?_
      split
      · exact .bind (.read _) fun _ => ih
      · exact .pure ()

theorem keeps_repeated {x : Scan (Value Message)} (hx : ReadsBare x) :
    (Scan.repeated x).Keeps fun vs => vs.map (Value.map Message.withoutUnknown) = vs := by
  refine .bind (.read _) fun opened => ?_
  split
  · refine .bind (.read _) fun closed => ?_
    split
    · exact .bind .source fun _ => keeps_elements hx _
    · exact .pure ()
  · refine .read_bind fun c v d hv => .update fun vs hvs => ?_
    rw [List.map_append, hvs, List.map_singleton, hx c v d hv]

theorem keeps_entryFields {readKey : Scan Scalar} {readValue : Scan (Value Message)}
    (hvalue : ReadsBare readValue) (close : Char) (rounds : Nat) :
    (Scan.entryFields readKey readValue close rounds).Keeps
      fun entry => entry.2.map Message.withoutUnknown = entry.2 := by
  induction rounds with
  | zero => exact .pure ()
  | succ rounds ih =>
    refine .bind (.read _) fun closed => ?_
    split
    · refine .bind (.read _) fun line => .bind (.read _) fun name => .bind (.read _) fun _ => ?_
      have hrest : (do
          read Scan.separator
          Scan.entryFields readKey readValue close rounds :
            Build Cursor (Scalar × Value Message) Unit).Keeps
          fun entry => entry.2.map Message.withoutUnknown = entry.2 :=
        .bind (.read _) fun _ => ih
      dsimp only
      split
      · exact .bind (.read _) fun key => .bind (.update fun _ h => h) fun _ => hrest
      · split
        · exact .read_bind fun c v d hv => .bind (.update fun _ _ => hvalue c v d hv) fun _ => hrest
        · exact .bind (.throw _) fun _ => hrest
    · exact .pure ()

theorem bare_of_mapEntry {zero : Scalar × Value Message} {readKey : Scan Scalar}
    {readValue : Scan (Value Message)} (hvalue : ReadsBare readValue)
    (hzero : zero.2.map Message.withoutUnknown = zero.2) {entry : Scalar × Value Message}
    {d : Cursor} (h : Scan.mapEntry limit zero readKey readValue c = .ok entry d) :
    entry.2.map Message.withoutUnknown = entry.2 := by
  obtain ⟨close, u, -, hnext⟩ := bind_eq_ok.1 h
  obtain ⟨_, v, -, hnext⟩ := bind_eq_ok.1 hnext
  obtain ⟨entry', w, hentry, hleave⟩ := bind_eq_ok.1 hnext
  cases hleave
  have hkeeps : (do
      Scan.entryFields readKey readValue close ((← source).rest.length + 1) :
        Build Cursor (Scalar × Value Message) Unit).Keeps
      fun entry => entry.2.map Message.withoutUnknown = entry.2 :=
    .bind .source fun _ => keeps_entryFields hvalue close _
  exact (hkeeps (zero, v) hzero).of_ok (alone_eq_ok.1 hentry)

section

variable (hbody : ∀ close?, (body close?).Keeps fun m => m.withoutUnknown = m)
include hbody

theorem keeps_mergeMember (label : String) (member : Member) :
    (mergeMember limit body label member).Keeps
      fun s => s.mapMessages Message.withoutUnknown = s := by
  cases member with
  | plain number name kind => exact .bind (.read _) fun _ => .put rfl
  | optional field required =>
    rw [mergeMember]
    cases field.kind with
    | scalar kind => exact .bind (.read _) fun _ => .put rfl
    | message type | group type =>
      refine .zoom (Q := fun _ m => m.withoutUnknown = m) (fun s hs => ?_)
        (fun _ _ => keeps_block hbody) fun s m _ hm => ?_
      · rw [← Slot.optionalMessage_mapMessages, hs]
      · rw [Slot.mapMessages, Option.map_some, Value.map, hm]
  | packed number name kind =>
    rw [mergeMember]
    exact .zoom (Q := fun _ _ => True) (fun _ _ => trivial) (fun _ _ => .trivial _)
      fun _ _ _ _ => rfl
  | repeated field =>
    rw [mergeMember]
    refine .zoom (Q := fun _ vs => vs.map (Value.map Message.withoutUnknown) = vs) (fun s hs => ?_)
      (fun _ _ => keeps_repeated (readsBare_value hbody field.kind)) fun s vs _ hvs => ?_
    · rw [← Slot.repeatedValues_mapMessages, hs]
    · rw [Slot.mapMessages, hvs]
  | map number name key kind =>
    refine .read_bind fun c entry d hentry => .update fun s hs => ?_
    have hzero : (kind.zero : Value Message).map Message.withoutUnknown = kind.zero := by
      cases kind with
      | scalar kind => rfl
      | message type | group type =>
        exact congrArg Value.message (Message.withoutUnknown_new type)
    have hvalue := bare_of_mapEntry (readsBare_value hbody kind) hzero hentry
    rw [Slot.mapMessages, insertEntry_map, hvalue, ← Slot.mapEntries_mapMessages, hs]
  | oneof fields =>
    rw [mergeMember]
    cases fields.find? (·.name = label) with
    | none => exact .pure ()
    | some field =>
      refine .read_bind fun c v d hv => .put ?_
      rw [Slot.mapMessages, Option.map_some, readsBare_value hbody field.kind c v d hv]
  | payload number name => exact .bind (.read _) fun _ => .put rfl

theorem keeps_mergeField_bare (label : String) :
    (mergeField limit body label).Keeps fun m => m.withoutUnknown = m := by
  refine keeps_mergeField fun _ _ i member _ => Message.keeps_atSlot
    (fun _ s => s.mapMessages Message.withoutUnknown = s) (fun m hm => ?_)
    (fun _ _ => keeps_mergeMember hbody label member) fun m s hm hs => ?_
  · rw [Message.withoutUnknown_eq] at hm
    have hslots : m.slots.map (Slot.mapMessages Message.withoutUnknown) = m.slots :=
      congrArg Message.slots hm
    rw [List.getD_eq_getElem?_getD]
    cases hslot : m.slots[i]? with
    | none => exact member.initial_mapMessages _
    | some s =>
      have hmapped := congrArg (·[i]?) hslots
      simp only [List.getElem?_map, hslot, Option.map_some] at hmapped
      exact Option.some.inj hmapped
  · rw [Message.withoutUnknown_eq] at hm ⊢
    have hslots : m.slots.map (Slot.mapMessages Message.withoutUnknown) = m.slots :=
      congrArg Message.slots hm
    have hunknown : [] = m.unknown := congrArg Message.unknown hm
    show Message.mk m.type ((m.slots.set i s).map _) [] = ⟨m.type, m.slots.set i s, m.unknown⟩
    rw [List.map_set, hslots, hs, hunknown]

theorem keeps_mergeNamed_bare (name : FieldName) :
    (mergeNamed options body name).Keeps fun m => m.withoutUnknown = m := by
  refine .current fun m _ => ?_
  cases name with
  | plain name => exact keeps_mergeField_bare hbody name
  | number number =>
    dsimp only
    split
    · exact keeps_mergeField_bare hbody _
    · exact .pure false
  | bracketed url =>
    dsimp only
    split
    · split
      · refine .bind ?_ fun _ => .pure true
        unfold mergeExpanded
        split
        · exact .throw _
        · refine .read_bind fun c payload d hpayload => .update fun any hany => ?_
          have hunknown : [] = any.unknown := by
            rw [Message.withoutUnknown_eq] at hany
            exact congrArg Message.unknown hany
          rw [← hunknown, Message.withoutUnknown_eq]
          show Any.make url (.held payload.withoutUnknown) [] = _
          rw [withoutUnknown_of_block hbody hpayload]
      · exact .pure false
    · exact keeps_mergeField_bare hbody _

end

theorem keeps_mergeBody_bare (close? : Option Char) :
    (mergeBody options close?).Keeps fun m => m.withoutUnknown = m :=
  .bind .source fun _ => keeps_mergeFields (fun _ hbody => keeps_mergeNamed_bare hbody) _ _

/-- No message gets unknown fields from text, whatever is ignored. -/
theorem withoutUnknown_of_parse {type : MessageType} {text : String}
    (h : Message.parse options type text = .ok m) : m.withoutUnknown = m := by
  obtain ⟨c, hmerge⟩ := mergeBody_of_parse h
  have hkeeps : (mergeBody options none).Keeps fun m => m.withoutUnknown = m :=
    keeps_mergeBody_bare none
  exact (hkeeps (.new type, .new text) (Message.withoutUnknown_new type)).of_ok hmerge

end Text

end Protobuf
