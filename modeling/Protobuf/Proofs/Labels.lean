import Protobuf.Proofs.Keeping
import Protobuf.Proofs.Packing

/-!
# What an `Any` holds and what its URL says

The URL and the payload of an `Any` are written by different operations. A resolved payload has the
type that the URL names as long as nothing is merged into the URL while the payload is resolved
(`Any.Reached.label_eq`): such a field leaves the payload as it is, whatever type the new URL names.
-/

namespace Protobuf

open Build

namespace Any

/-- The message is an `Any`. If it is resolved, it holds a message of the type that its URL
names. -/
structure Labelled (any : Message) : Prop where
  /-- It is an `Any`. -/
  type_eq : any.type = .any
  /-- The URL names the type of the message that is held. -/
  label : ∀ m, held? any = some m → typeName any = m.type.fullName

/-- The message is an `Any` that is not resolved. -/
structure Unresolved (any : Message) : Prop where
  /-- It is an `Any`. -/
  type_eq : any.type = .any
  /-- It carries bytes. -/
  held?_eq : held? any = none

theorem Unresolved.labelled {any : Message} (h : Unresolved any) : Labelled any where
  type_eq := h.type_eq
  label m hm := by
    rw [h.held?_eq] at hm
    cases hm

/-! ## Members of an `Any` -/

theorem held?_set_zero (any : Message) (s : Slot Message) :
    held? { any with slots := any.slots.set 0 s } = held? any := by
  obtain ⟨type, slots, unknown⟩ := any
  match slots with
  | [] | [_] => rfl
  | [_, t] | _ :: t :: _ :: _ => cases t <;> rfl

theorem held?_set_one (any : Message) (bytes : Bytes) :
    held? { any with slots := any.slots.set 1 (.payload (.serialized bytes)) } = none := by
  obtain ⟨type, slots, unknown⟩ := any
  match slots with
  | [] | [_] | [_, _] | _ :: _ :: _ :: _ => rfl

/-- The field of a number is the URL or the payload. -/
theorem member?_number {number i : Nat} {member : Member}
    (h : Message.member? .any (·.hasNumber number) = some (i, member)) :
    (number = 1 ∧ i = 0 ∧ member = .plain 1 "type_url" .string) ∨
      (number ≠ 1 ∧ i = 1 ∧ member = .payload 2 "value") := by
  by_cases hurl : 1 = number
  · subst hurl
    cases h
    exact Or.inl ⟨rfl, rfl, rfl⟩
  · by_cases hvalue : 2 = number
    · subst hvalue
      cases h
      exact Or.inr ⟨by decide, rfl, rfl⟩
    · simp [Message.member?, MessageType.members, List.findIdx?_cons, Member.hasNumber,
        Member.labels, hurl, hvalue] at h

/-- The field of a name is the URL or the payload. -/
theorem member?_name {name : String} {i : Nat} {member : Member}
    (h : Message.member? .any (·.hasName name) = some (i, member)) :
    (name = "type_url" ∧ i = 0 ∧ member = .plain 1 "type_url" .string) ∨
      (name ≠ "type_url" ∧ i = 1 ∧ member = .payload 2 "value") := by
  by_cases hurl : "type_url" = name
  · subst hurl
    cases h
    exact Or.inl ⟨rfl, rfl, rfl⟩
  · by_cases hvalue : "value" = name
    · subst hvalue
      cases h
      exact Or.inr ⟨by decide, rfl, rfl⟩
    · simp [Message.member?, MessageType.members, List.findIdx?_cons, Member.hasName,
        Member.labels, hurl, hvalue] at h

section

variable {ρ : Type}

/-- While an `Any` is not resolved, its URL may be written. -/
theorem keeps_unresolved_url (member : Member) (x : Build ρ (Slot Message) Unit) :
    (Message.atSlot 0 member x).Keeps Unresolved := by
  refine Message.keeps_atSlot (fun _ _ => True) (fun _ _ => trivial) (fun _ _ => .trivial x) ?_
  intro any s h _
  exact ⟨h.type_eq, (held?_set_zero any s).trans h.held?_eq⟩

/-- A payload that is written is not resolved. -/
theorem keeps_payload {P : Message → Prop} (hP : ∀ any, Unresolved any → P any)
    (htype : ∀ any, P any → any.type = .any) (member : Member) (x : Reading ρ Bytes) :
    (Message.atSlot 1 member (do
      let b ← read x
      put (.payload (.serialized b)))).Keeps P := by
  refine Message.keeps_atSlot
    (fun any s => s = any.slots.getD 1 member.initial ∨ ∃ b, s = .payload (.serialized b))
    (fun _ _ => Or.inl rfl)
    (fun _ _ => .bind (.read x) fun b => .put (Or.inr ⟨b, rfl⟩)) ?_
  rintro any s h (rfl | ⟨b, rfl⟩)
  · rwa [Message.set_getD_self]
  · exact hP _ ⟨htype any h, held?_set_one any b⟩

end

/-- What is written into a payload keeps that an `Any` is labelled. -/
theorem keeps_labelled_payload {ρ : Type} (member : Member) (x : Reading ρ Bytes) :
    (Message.atSlot 1 member (do
      let b ← read x
      put (.payload (.serialized b)))).Keeps Labelled :=
  keeps_payload (fun _ h => h.labelled) (fun _ h => h.type_eq) member x

theorem keeps_unresolved_payload {ρ : Type} (member : Member) (x : Reading ρ Bytes) :
    (Message.atSlot 1 member (do
      let b ← read x
      put (.payload (.serialized b)))).Keeps Unresolved :=
  keeps_payload (fun _ h => h) (fun _ h => h.type_eq) member x

end Any

/-! ## Merging fields -/

namespace Message

open Any Reader

variable {options : DecodeOptions}

/-- A field with the tag is read as the URL of an `Any`. -/
def IsUrl (tag : Tag) : Prop := tag.number = 1 ∧ tag.wireType = .lengthDelimited

theorem keeps_mergeOne {body : MergeBody} {start : Reader} {tag : Tag} {P : Message → Prop}
    (htype : ∀ any, P any → any.type = .any)
    (hunknown : ∀ any bytes, P any → P (any.appendUnknown bytes))
    (hfield : ∀ i member, member? .any (·.hasNumber tag.number) = some (i, member) →
      member.takes tag = true →
      (atSlot i member (member.merge options.depthLimit body tag)).Keeps P) :
    (mergeOne options body start tag).Keeps P := by
  refine .current fun any hany => ?_
  split
  · rename_i haccepts
    rw [htype any hany] at haccepts
    obtain ⟨i, member, hmember, htakes⟩ := exists_declared?_of_accepts haccepts
    refine .bind ?_ fun _ => .pure ()
    rintro ⟨any, r⟩ h
    rw [Leaves, mergeField_of_declared? (htype any h ▸ hmember)]
    exact (hfield i member (member?_of_declared? hmember) htakes).bind (fun _ => .pure true)
      (any, r) h
  · unfold keepUnknown
    refine .bind (.read _) fun _ => ?_
    split
    · exact .bind .source fun stop => .update fun any h => hunknown any _ h
    · exact .pure ()

/-- A field that is no URL keeps that an `Any` is labelled. -/
theorem keeps_labelled_mergeOne {body : MergeBody} {start : Reader} {tag : Tag} (h : ¬ IsUrl tag) :
    (mergeOne options body start tag).Keeps Labelled := by
  refine keeps_mergeOne (fun _ h => h.type_eq) (fun _ _ h => ⟨h.type_eq, h.label⟩) ?_
  intro i member hmember htakes
  rcases member?_number hmember with ⟨hnumber, rfl, rfl⟩ | ⟨-, rfl, rfl⟩
  · exact absurd ⟨hnumber, of_decide_eq_true htakes⟩ h
  · exact keeps_labelled_payload _ (bytes tag)

/-- No field resolves the payload of an `Any`. -/
theorem keeps_unresolved_mergeOne {body : MergeBody} {start : Reader} {tag : Tag} :
    (mergeOne options body start tag).Keeps Unresolved := by
  refine keeps_mergeOne (fun _ h => h.type_eq) (fun _ _ h => ⟨h.type_eq, h.held?_eq⟩) ?_
  intro i member hmember _
  rcases member?_number hmember with ⟨-, rfl, rfl⟩ | ⟨-, rfl, rfl⟩
  · exact keeps_unresolved_url _ _
  · exact keeps_unresolved_payload _ (bytes tag)

/-- While fields are merged, there comes a URL though the payload is resolved. -/
inductive Relabels (options : DecodeOptions) : Message × Reader → Prop
  /-- It comes next. -/
  | here {m : Message} {r u : Reader} {tag : Tag} (htag : nextTag r = .ok (some tag) u)
    (hurl : IsUrl tag) (hheld : held? m ≠ none) : Relabels options (m, r)
  /-- It comes behind another field. -/
  | later {m : Message} {r u : Reader} {tag : Tag} {p : Message × Reader}
    (htag : nextTag r = .ok (some tag) u) (hw : tag.wireType ≠ .endGroup)
    (hone : mergeOne options (mergeBody options) r tag (m, u) = .ok () p)
    (h : Relabels options p) : Relabels options (m, r)

/-- An `Any` stays labelled, if no URL is merged into it while it is resolved. -/
theorem leaves_labelled_mergeBody {m : Message} {r : Reader} (h : Labelled m)
    (hrelabels : ¬ Relabels options (m, r)) :
    (mergeBody options none).Leaves Labelled (m, r) := by
  -- every field takes up bytes
  generalize hn : r.remaining = n
  induction n using Nat.strongRecOn generalizing m r with
  | ind n ih =>
    rw [Leaves, run_mergeBody]
    rcases htag : nextTag r with ⟨_ | tag, u⟩ | ⟨e, u⟩
    · exact h
    · dsimp only
      by_cases hw : tag.wireType = .endGroup
      · rw [if_pos hw]
        exact h
      · rw [if_neg hw]
        have hleaves : (mergeOne options (mergeBody options) r tag).Leaves Labelled (m, u) := by
          by_cases hurl : IsUrl tag
          · have hheld : held? m = none := by
              by_contra hheld
              exact hrelabels (.here htag hurl hheld)
            exact (keeps_unresolved_mergeOne (m, u) ⟨h.type_eq, hheld⟩).imp fun _ h => h.labelled
          · exact keeps_labelled_mergeOne hurl (m, u) h
        rcases hone : mergeOne options (mergeBody options) r tag (m, u) with ⟨_, m1, v⟩ | ⟨e, q⟩
        · have hlt := remaining_of_nextTag htag
          have hle : v.remaining ≤ u.remaining :=
            (steady_mergeOne options (settled_mergeBody options) (steady_mergeBody options) r tag
              _ _ _ hone).remaining_le
          exact ih v.remaining (by omega) (hleaves.of_ok hone)
            (fun hlater => hrelabels (.later htag hw hone hlater)) rfl
        · exact hleaves.of_error hone
    · exact h

/-- Fields do not resolve a payload, so a URL that is among them finds none. -/
theorem not_relabels_of_unresolved {m : Message} {r : Reader} (h : Unresolved m) :
    ¬ Relabels options (m, r) := by
  intro hrelabels
  generalize hp : (m, r) = p at hrelabels
  induction hrelabels generalizing m r with
  | here _ _ hheld =>
    cases hp
    exact hheld h.held?_eq
  | later _ _ hone _ ih =>
    cases hp
    exact ih ((keeps_unresolved_mergeOne _ h).of_ok hone) rfl

end Message

/-! ## Merging text -/

theorem TypeRegistry.fullName_of_lookup? {τ : Type} [NamedTypes τ] {registry : TypeRegistry τ}
    {url : String} {type : τ} (h : registry.lookup? url = some type) :
    TypeUrl.typeName url = NamedTypes.fullName type := by
  have hname := List.find?_some (show registry.types.find? _ = some type from h)
  exact (of_decide_eq_true hname).symm

namespace Text

open Any

variable {options : ParseOptions} {body : MergeBody} {name : FieldName}

/-- A field with the name is read as the URL of an `Any`. -/
def NamesUrl (name : FieldName) : Prop := name = .plain "type_url" ∨ name = .number 1

theorem textName?_any {number : Nat} {name : String}
    (h : MessageType.any.textName? number = some name) :
    (number = 1 ∧ name = "type_url") ∨ (number ≠ 1 ∧ name = "value") := by
  by_cases hurl : 1 = number
  · subst hurl
    cases h
    exact Or.inl ⟨rfl, rfl⟩
  · by_cases hvalue : 2 = number
    · subst hvalue
      cases h
      exact Or.inr ⟨by decide, rfl⟩
    · simp [MessageType.textName?, MessageType.textNumbers, MessageType.members, Member.labels,
        hurl, hvalue] at h

theorem display_bracketed_ne (url : String) : (FieldName.bracketed url).display ≠ "type_url" := by
  intro h
  have hchars := congrArg String.toList h
  rw [FieldName.display, String.toList_append, String.toList_append] at hchars
  cases hchars

theorem keeps_type_block {limit : Nat} {type : MessageType}
    (hbody : ∀ close?, (body close?).Keeps (·.type = type)) :
    (block limit body).Keeps (·.type = type) :=
  .bind (.read _) fun close => .bind (.read _) fun _ => .bind (hbody (some close)) fun _ => .read _

/-- A field that is no URL keeps that an `Any` is labelled: an expanded payload comes with the URL
under which its type is registered. -/
theorem keeps_labelled_mergeNamed (hbody : ∀ type close?, (body close?).Keeps (·.type = type))
    (h : ¬ NamesUrl name) : (mergeNamed options body name).Keeps Labelled := by
  have hfield (name : String) (hname : name ≠ "type_url") :
      (mergeField options.depthLimit body name).Keeps Labelled := by
    refine keeps_mergeField fun any hany i member hmember => ?_
    rw [hany.type_eq] at hmember
    rcases member?_name hmember with ⟨hurl, -⟩ | ⟨-, rfl, rfl⟩
    · exact absurd hurl hname
    · exact keeps_labelled_payload _ Scan.bytes
  refine .current fun any hany => ?_
  cases name with
  | plain name => exact hfield name fun hname => h (Or.inl (congrArg _ hname))
  | number number =>
    dsimp only
    split
    · rename_i name hname
      rw [hany.type_eq] at hname
      rcases textName?_any hname with ⟨hnumber, -⟩ | ⟨-, rfl⟩
      · exact absurd (Or.inr (congrArg _ hnumber)) h
      · exact hfield _ (by decide)
    · exact .pure false
  | bracketed url =>
    dsimp only
    split
    · split
      · refine .bind ?_ fun _ => .pure true
        unfold mergeExpanded
        split
        · exact .throw _
        · rename_i type hknown
          obtain ⟨registry, -, hlookup⟩ := Option.bind_eq_some_iff.1 hknown
          refine .read_bind fun c m c' hm => .update fun _ _ => ⟨rfl, ?_⟩
          intro m' hm'
          obtain rfl := Option.some.inj hm'
          have htype : m.type = type :=
            (keeps_type_block (hbody type) (.new type, c) rfl).of_ok (alone_eq_ok.1 hm)
          rw [htype]
          exact TypeRegistry.fullName_of_lookup? hlookup
      · exact .pure false
    · exact hfield _ (display_bracketed_ne url)

/-- While an `Any` is not resolved, its URL may be written. -/
theorem keeps_unresolved_mergeNamed (h : NamesUrl name) :
    (mergeNamed options body name).Keeps Unresolved := by
  have hfield (name : String) : (mergeField options.depthLimit body name).Keeps Unresolved := by
    refine keeps_mergeField fun any hany i member hmember => ?_
    rw [hany.type_eq] at hmember
    rcases member?_name hmember with ⟨-, rfl, rfl⟩ | ⟨-, rfl, rfl⟩
    · exact keeps_unresolved_url _ _
    · exact keeps_unresolved_payload _ Scan.bytes
  refine .current fun any hany => ?_
  rcases h with rfl | rfl
  · exact hfield _
  · dsimp only
    split
    · exact hfield _
    · exact .pure false

/-- While fields are merged from text, there comes a URL though the payload is resolved. -/
inductive Relabels (options : ParseOptions) : (rounds : Nat) → Message × Cursor → Prop
  /-- It comes next. -/
  | here {rounds line : Nat} {m : Message} {c c1 c2 c3 : Cursor} {name : FieldName}
    (hmore : Scan.finished none c = .ok false c1) (hline : Scan.line c1 = .ok line c2)
    (hname : Scan.fieldName c2 = .ok name c3) (hurl : NamesUrl name) (hheld : held? m ≠ none) :
    Relabels options (rounds + 1) (m, c)
  /-- It comes behind another field. -/
  | later {rounds line : Nat} {m : Message} {c c1 c2 c3 : Cursor} {name : FieldName}
    {p : Message × Cursor} (hmore : Scan.finished none c = .ok false c1)
    (hline : Scan.line c1 = .ok line c2) (hname : Scan.fieldName c2 = .ok name c3)
    (hbehind : mergeBehind options (mergeFields options rounds) line name (m, c3) = .ok () p)
    (h : Relabels options rounds p) : Relabels options (rounds + 1) (m, c)

/-- While a text is merged into an `Any`, there comes a URL though the payload is resolved. -/
def RelabelsBy (options : ParseOptions) (text : String) (any : Message) : Prop :=
  Relabels options ((Cursor.new text).rest.length + 1) (any, .new text)

/-- An `Any` stays labelled, if no URL is merged into it while it is resolved. -/
theorem leaves_labelled_mergeFields {rounds : Nat} {m : Message} {c : Cursor} (h : Labelled m)
    (hrelabels : ¬ Relabels options rounds (m, c)) :
    (mergeFields options rounds none).Leaves Labelled (m, c) := by
  induction rounds generalizing m c with
  | zero => exact h
  | succ rounds ih =>
    rw [mergeFields_succ]
    refine .read_bind h fun finished c1 hfinished => ?_
    cases finished with
    | true => exact h
    | false =>
      refine .read_bind h fun line c2 hline => .read_bind h fun name c3 hname => ?_
      have hbehind : (mergeBehind options (mergeFields options rounds) line name).Leaves Labelled
          (m, c3) := by
        by_cases hurl : NamesUrl name
        · have hheld : held? m = none := by
            by_contra hheld
            exact hrelabels (.here hfinished hline hname hurl hheld)
          exact (keeps_mergeBehind (keeps_unresolved_mergeNamed hurl) (m, c3)
            ⟨h.type_eq, hheld⟩).imp fun _ h => h.labelled
        · have hinner : ∀ type close?, (mergeFields options rounds close?).Keeps (·.type = type) :=
            fun type close? => keeps_mergeFields (fun _ _ => keeps_type_mergeNamed) rounds close?
          exact keeps_mergeBehind (keeps_labelled_mergeNamed hinner hurl) (m, c3) h
      refine hbehind.bind fun _ q hq => ih (hbehind.of_ok hq) fun hlater => ?_
      exact hrelabels (.later hfinished hline hname hq hlater)

end Text

/-! ## Operations -/

namespace Any

/-- What an `Any` is made from, and what is done with one. A copy is the same value. -/
inductive Operation where
  /-- Pack a message under a URL with some base. -/
  | pack (message : Message) (base : String)
  /-- Put bytes under a URL. -/
  | ofBytes (url : String) (bytes : Bytes)
  /-- Decode another one. -/
  | decode (options : DecodeOptions) (bytes : Bytes)
  /-- Merge bytes. -/
  | merge (options : DecodeOptions) (bytes : Bytes)
  /-- Parse another one. -/
  | parse (options : Text.ParseOptions) (text : String)
  /-- Merge text. -/
  | mergeText (options : Text.ParseOptions) (text : String)
  /-- Resolve the payload through a registry. -/
  | resolve (registry : Registry)

namespace Operation

/-- The `Any` after the operation. What was merged before an error stays merged; where another one
is not decoded or parsed, the first one stays. -/
def after : Operation → Message → Message
  | pack m base, _ => Any.pack m base
  | ofBytes url bytes, _ => Any.ofBytes url bytes
  | decode options bytes, any =>
    match Message.decode options .any bytes with
    | .ok other => other
    | .error _ => any
  | merge options bytes, any =>
    match Message.merge options bytes any with
    | .ok _ any | .error _ any => any
  | parse options text, any =>
    match Message.parse options .any text with
    | .ok other => other
    | .error _ => any
  | mergeText options text, any =>
    match Message.mergeText options text any with
    | .ok _ any | .error _ any => any
  | resolve registry, any =>
    match Any.resolve registry any with
    | .ok _ any | .error _ any => any

/-- During the operation, there comes a URL for an `Any` that is resolved already. -/
def Relabels : Operation → Message → Prop
  | merge options bytes, any => Message.Relabels options (any, .new bytes)
  | parse options text, _ => Text.RelabelsBy options text (.new .any)
  | mergeText options text, any => Text.RelabelsBy options text any
  | _, _ => False

end Operation

theorem unresolved_new : Unresolved (.new .any) := ⟨rfl, rfl⟩

theorem labelled_pack (m : Message) (base : String) : Labelled (pack m base) where
  type_eq := rfl
  label m' hm' := by
    obtain rfl := Option.some.inj hm'
    exact typeName_pack m base

theorem labelled_merge {options : DecodeOptions} {bytes : Bytes} {any : Message} (h : Labelled any)
    (hrelabels : ¬ Message.Relabels options (any, .new bytes)) :
    Labelled ((Operation.merge options bytes).after any) := by
  have hleaves := Message.leaves_labelled_mergeBody h hrelabels
  rw [Leaves] at hleaves
  rw [Operation.after, Message.merge]
  cases hrun : Message.mergeBody options none (any, .new bytes) with
  | ok _ q =>
    rw [hrun] at hleaves
    exact hleaves
  | error e q =>
    rw [hrun] at hleaves
    exact hleaves

theorem labelled_mergeText {options : Text.ParseOptions} {text : String} {any : Message}
    (h : Labelled any) (hrelabels : ¬ Text.RelabelsBy options text any) :
    Labelled ((Operation.mergeText options text).after any) := by
  have hleaves := Text.leaves_labelled_mergeFields h hrelabels
  have hrounds : Text.mergeBody options none (any, .new text) =
      Text.mergeFields options ((Text.Cursor.new text).rest.length + 1) none (any, .new text) :=
    run_bind_of_ok (run_source any _)
  rw [Leaves, ← hrounds] at hleaves
  rw [Operation.after, Message.mergeText]
  cases hrun : Text.mergeBody options none (any, .new text) with
  | ok _ q =>
    rw [hrun] at hleaves
    cases hchecked : q.1.checked options.allowPartial with
    | ok _ => simpa [hchecked] using hleaves
    | error _ => simpa [hchecked] using hleaves
  | error e q =>
    rw [hrun] at hleaves
    exact hleaves

/-- What a payload is resolved to has the type that is registered for the URL. -/
theorem labelled_resolve (registry : Registry) {any : Message} (h : Labelled any) :
    Labelled ((Operation.resolve registry).after any) := by
  rw [Operation.after, resolve]
  cases hpayload : payload any with
  | held m => exact h
  | serialized bytes =>
    dsimp only
    cases hlookup : registry.lookup? (url any) with
    | none => exact h
    | some type =>
      dsimp only
      cases hdecode : Message.decode { allowPartial := true } type bytes with
      | error e => exact h
      | ok m =>
        refine ⟨rfl, fun m' hm' => ?_⟩
        obtain rfl := Option.some.inj hm'
        have harises : m.Arises type := Or.inr ⟨bytes, hdecode⟩
        rw [harises.sound.1]
        exact TypeRegistry.fullName_of_lookup? hlookup

/-- An operation keeps that an `Any` is labelled, if there comes no URL while it is resolved. -/
theorem Operation.labelled_after {any : Message} (h : Labelled any) (op : Operation)
    (hrelabels : ¬ op.Relabels any) : Labelled (op.after any) := by
  cases op with
  | pack m base => exact labelled_pack m base
  | ofBytes url bytes => exact Unresolved.labelled ⟨rfl, rfl⟩
  | decode options bytes =>
    have hmerge : Labelled ((merge options bytes).after (.new .any)) :=
      labelled_merge unresolved_new.labelled (Message.not_relabels_of_unresolved unresolved_new)
    rw [after] at hmerge
    rw [after, Message.decode]
    cases hrun : Message.merge options bytes (.new .any) with
    | ok _ m =>
      rw [hrun] at hmerge
      cases hchecked : m.checked options.allowPartial with
      | ok m' =>
        obtain rfl := Message.eq_of_checked hchecked
        simpa [hchecked] using hmerge
      | error e => simpa [hchecked] using h
    | error e m => exact h
  | merge options bytes => exact labelled_merge h hrelabels
  | parse options text =>
    have hmerge := labelled_mergeText unresolved_new.labelled hrelabels
    rw [after] at hmerge
    rw [after, Message.parse]
    cases hrun : Message.mergeText options text (.new .any) with
    | ok _ m =>
      rw [hrun] at hmerge
      exact hmerge
    | error e m => exact h
  | mergeText options text => exact labelled_mergeText h hrelabels
  | resolve registry => exact labelled_resolve registry h

/-- An `Any` that comes from operations in which no URL comes while one is resolved. -/
inductive Reached : Message → Prop
  /-- The empty one. -/
  | new : Reached (.new .any)
  /-- One operation more. -/
  | step {any : Message} (h : Reached any) (op : Operation) (hrelabels : ¬ op.Relabels any) :
    Reached (op.after any)

theorem Reached.labelled {any : Message} (h : Reached any) : Labelled any := by
  induction h with
  | new => exact unresolved_new.labelled
  | step _ op hrelabels ih => exact op.labelled_after ih hrelabels

/-- The URL of an `Any` names the type of the message that is held, whatever the operations were
that it comes from, as long as no URL came for one that was resolved already. So no other type is
taken for the one that is held, and none is unpacked. -/
theorem Reached.label_eq {any m : Message} (h : Reached any) (hm : held? any = some m) :
    typeName any = m.type.fullName ∧
      (∀ type, holds any type = true → type.fullName = m.type.fullName) ∧
      ∀ type allowPartial m', unpack any type allowPartial = .ok m' →
        type.fullName = m.type.fullName := by
  have hlabel := h.labelled.label m hm
  have hholds : ∀ type, holds any type = true → type.fullName = m.type.fullName :=
    fun type htype => (of_decide_eq_true htype).symm.trans hlabel
  refine ⟨hlabel, hholds, fun type allowPartial m' hunpack => hholds type ?_⟩
  by_contra hnot
  rw [Bool.not_eq_true] at hnot
  rw [unpack, hnot] at hunpack
  cases hunpack

/-- Bytes are resolved, and then another field is merged. -/
theorem label_eq_inner :
    ∃ any m : Message,
      any = (Operation.merge {} [24, 1]).after ((Operation.resolve
        (Registry.empty.registerAll [.inner])).after (ofBytes "/protowire_test.Inner" [8, 5])) ∧
      held? any = some m ∧ typeName any = m.type.fullName := by
  let m : Message := ⟨.inner, [.plain (.int32 5), .plain (.string "")], []⟩
  have hbytes : Reached (ofBytes "/protowire_test.Inner" [8, 5]) :=
    .step .new (.ofBytes "/protowire_test.Inner" [8, 5]) id
  have hlookup : (Registry.empty.registerAll [.inner]).lookup? "/protowire_test.Inner" =
      some .inner := by decide +kernel
  have hresolve : (Operation.resolve (Registry.empty.registerAll [.inner])).after
      (ofBytes "/protowire_test.Inner" [8, 5]) = make "/protowire_test.Inner" (.held m) [] := by
    have hurl : url (ofBytes "/protowire_test.Inner" [8, 5]) = "/protowire_test.Inner" := rfl
    rw [Operation.after, resolve, hurl, hlookup]
    rfl
  have hresolved := Reached.step hbytes (.resolve (Registry.empty.registerAll [.inner])) id
  have hmerge : (Operation.merge {} [24, 1]).after (make "/protowire_test.Inner" (.held m) []) =
      make "/protowire_test.Inner" (.held m) [24, 1] := rfl
  rw [hresolve] at hresolved ⊢
  refine ⟨_, m, hmerge, rfl, ?_⟩
  have hreached := hresolved.step (.merge {} [24, 1]) ?_
  · rw [hmerge] at hreached
    exact (Reached.label_eq hreached rfl).1
  · rintro (⟨htag, hurl, -⟩ | ⟨htag, -, hone, hlater⟩)
    · cases htag
      exact absurd hurl.1 (by decide)
    · cases htag
      cases hone
      rcases hlater with ⟨htag, -, -⟩ | ⟨htag, -, -, -⟩ <;> cases htag

/-- A URL that is merged into an `Any` leaves the payload as it was resolved: a message of one type
is taken for one of another. -/
theorem label_overwritten :
    ∃ m any p : Message, Message.decode { allowPartial := true } .inner [8, 5] = .ok m ∧
      any = (Operation.merge {} (10 :: 24 :: Utf8.encode "google.protobuf.Duration")).after
        (pack m "type.googleapis.com") ∧
      held? any = some p ∧ p.type.fullName = "protowire_test.Inner" ∧
      typeName any = "google.protobuf.Duration" ∧ holds any .duration = true := by
  let m : Message := ⟨.inner, [.plain (.int32 5), .plain (.string "")], []⟩
  let any := (Operation.merge {} (10 :: 24 :: Utf8.encode "google.protobuf.Duration")).after
    (pack m "type.googleapis.com")
  have htype : (held? any).map (·.type) = some .inner := by decide +kernel
  obtain ⟨p, hheld, hp⟩ := Option.map_eq_some_iff.1 htype
  refine ⟨m, any, p, rfl, rfl, hheld, ?_, ?_, ?_⟩
  · rw [hp]
    rfl
  · decide +kernel
  · decide +kernel

end Any

end Protobuf
