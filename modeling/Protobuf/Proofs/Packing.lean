import Protobuf.Proofs.Equality

/-!
# Packing messages

A message that was packed into an `Any` can be had again from it, and from what is decoded from the
bytes of the `Any` (`Any.pack_round_trip`). The URL names the type whatever it starts with, the
payload is encoded when the `Any` is, and both forms of the payload are unpacked alike.
-/

namespace Protobuf

open Message

namespace MessageType

theorem not_mem_fullName (type : MessageType) : '/' ∉ type.fullName.toList := by
  cases type <;> decide +kernel

end MessageType

/-! ## Asking for required fields -/

namespace Message

variable {options : DecodeOptions}

/-- While fields are merged, nothing is required. -/
theorem mergeFields_allowPartial (allowPartial : Bool) (rounds : Nat) :
    mergeFields { options with allowPartial } rounds = mergeFields options rounds := by
  induction rounds with
  | zero => rfl
  | succ rounds ih =>
    have hkeep : keepUnknown { options with allowPartial } = keepUnknown options := rfl
    funext group?
    rw [mergeFields, mergeFields, ih, hkeep]

theorem merge_allowPartial (allowPartial : Bool) (bytes : Bytes) :
    merge { options with allowPartial } bytes = merge options bytes := by
  funext m
  simp only [merge, mergeBody, mergeFields_allowPartial]

/-- Decoding strictly is decoding and asking for the required fields. -/
theorem decode_checked {type : MessageType} {bytes : Bytes} {m : Message}
    (h : decode { options with allowPartial := true } type bytes = .ok m) :
    decode options type bytes = m.checked options.allowPartial := by
  rw [decode_partial rfl, merge_allowPartial] at h
  rw [decode, h]

end Message

/-! ## Packing and unpacking -/

namespace Any

theorem typeName_pack (m : Message) (base : String) : typeName (pack m base) = m.type.fullName :=
  TypeUrl.typeName_build base m.type.fullName m.type.not_mem_fullName

theorem holds_pack (m : Message) (base : String) : holds (pack m base) m.type = true :=
  decide_eq_true (typeName_pack m base)

/-- What an `Any` carries is not read when the `Any` is. -/
theorem arises_pack (m : Message) (base : String) : (pack m base).Arises .any :=
  Or.inl ⟨rfl, .intro ⟨fits_make .., rfl⟩ fun _ hc => nomatch hc⟩

theorem inBytes_make (url : String) (p : Payload Message) (unknown : Bytes) :
    (make url p unknown).inBytes = make url (.serialized (p.bytes encode)) unknown := by
  rw [inBytes_eq]
  rfl

/-- An `Any` that carries bytes lacks no required field. -/
theorem isInitialized_ofBytes (url : String) (bytes : Bytes) :
    (ofBytes url bytes).isInitialized = true := by
  rw [isInitialized_eq]
  rfl

theorem visits_make (url : String) (p : Payload Message) (unknown : Bytes) :
    (make url p unknown).visits =
      Member.visits encode (.plain 1 "type_url" .string) (.plain (.string url)) ++
        (Member.visits encode (.payload 2 "value") (.payload p) ++ []) := rfl

/-- An `Any` is at least as long as what it carries. -/
theorem length_value_le (url : String) (p : Payload Message) (unknown : Bytes) :
    (p.bytes encode).length ≤ (make url p unknown).encode.length := by
  have hpayload : (p.bytes encode).length ≤
      ((Member.visits encode (.payload 2 "value") (.payload p)).flatMap
        (Visit.encode encode)).length := by
    rw [Member.visits]
    split
    · rename_i h
      rw [List.isEmpty_iff.1 h]
      exact Nat.zero_le _
    · have hencode : Scalar.encode (.bytes (p.bytes encode)) =
          Varint.encode (p.bytes encode).length ++ p.bytes encode := rfl
      rw [List.flatMap_singleton, Visit.encode, FieldValue.encode, hencode]
      simp only [List.length_append]
      omega
  rw [encode_eq, visits_make]
  simp only [List.flatMap_append, List.length_append]
  omega

variable {type : MessageType} {m : Message}

/-- A message is packed under a URL that names its type. The `Any` is decoded from its bytes, and is
equal then. From both, a message is unpacked with the bytes of the one that was packed, and the same
one if it is no `Any`; strictly, it is unpacked if no required field is missing in it. -/
theorem pack_round_trip (ht : type ≠ .node) (hm : m.Arises type) (base : String)
    (hlen : (pack m base).encodedLen < 2 ^ 64) :
    holds (pack m base) type = true ∧
      ∃ bytes any m', (pack m base).serialize true = .ok bytes ∧
        (∀ allowPartial, decode { allowPartial } .any bytes = .ok any) ∧
        any.equal (pack m base) = true ∧ (pack m base).equal any = true ∧
        unpack (pack m base) type true = .ok m ∧ unpack any type true = .ok m' ∧
        m'.serialize true = m.serialize true ∧ (type ≠ .any → m' = m) ∧
        unpack (pack m base) type false =
          (if m.isInitialized then .ok m else .error .missingRequired) ∧
        unpack any type false =
          (if m'.isInitialized then .ok m' else .error .missingRequired) := by
  rw [encodedLen_eq] at hlen
  have hshort : m.encode.length < 2 ^ 64 :=
    Nat.lt_of_le_of_lt (length_value_le (TypeUrl.build base m.type.fullName) (.held m) []) hlen
  obtain ⟨rfl, hsound⟩ := hm.sound
  let any := ofBytes (TypeUrl.build base m.type.fullName) m.encode
  have hholds := holds_pack m base
  have hholds' : holds any m.type = true := hholds
  have hany : decode { allowPartial := true } .any (pack m base).encode = .ok any := by
    rw [(arises_pack m base).decode_encode (by decide) hlen, pack, inBytes_make]
    rfl
  have hdecode : decode { allowPartial := true } m.type m.encode = .ok m.inBytes :=
    hm.decode_encode ht hshort
  have hunpack (allowPartial : Bool) :
      unpack (pack m base) m.type allowPartial = m.checked allowPartial := by
    rw [unpack, hholds]
    simp [pack, make, held?, payload]
  have hunpack' (allowPartial : Bool) :
      unpack any m.type allowPartial = m.inBytes.checked allowPartial := by
    have hstrict : decode { allowPartial } m.type m.encode = m.inBytes.checked allowPartial :=
      decode_checked hdecode
    have hvalue : value any = m.encode := value_make ..
    rw [unpack, hholds', ← hstrict, ← hvalue]
    rfl
  refine ⟨hholds, (pack m base).encode, any, m.inBytes, ?_, fun allowPartial => ?_, ?_, ?_, ?_, ?_,
    ?_, hsound.inBytes_eq_self ht, ?_, ?_⟩
  · exact serialize_partial _
  · have hstrict : decode { allowPartial } .any (pack m base).encode = any.checked allowPartial :=
      decode_checked hany
    rw [hstrict, checked, isInitialized_ofBytes, Bool.or_true, if_pos rfl]
  · exact equal_make.2 ⟨rfl, (Payload.equal_of_serialized (Or.inl rfl)).2 rfl, rfl⟩
  · exact equal_make.2 ⟨rfl, (Payload.equal_of_serialized (Or.inr rfl)).2 rfl, rfl⟩
  · rw [hunpack]
    rfl
  · rw [hunpack']
    rfl
  · rw [serialize_partial, serialize_partial, encode_inBytes]
  · rw [hunpack]
    rfl
  · rw [hunpack']
    rfl

/-- A message that lacks its required field is packed under a base with slashes. -/
theorem pack_round_trip_nestedRequired :
    ∃ m : Message, decode { allowPartial := true } .nestedRequired [] = .ok m ∧
      (pack m "a//b/").encodedLen < 2 ^ 64 ∧ holds (pack m "a//b/") .nestedRequired = true ∧
      unpack (pack m "a//b/") .nestedRequired true = .ok m ∧
      unpack (pack m "a//b/") .nestedRequired false = .error .missingRequired := by
  let m := new .nestedRequired
  have hm : m.Arises .nestedRequired := Or.inr ⟨[], rfl⟩
  have hinit : m.isInitialized = false := by
    rw [isInitialized_eq]
    rfl
  have hvalue : m.encode = [] := by
    rw [encode_eq]
    rfl
  have hurl : Member.visits encode (.plain 1 "type_url" .string)
      (.plain (.string "a//b/protowire_test.TestRequiredOneof.NestedMessage")) =
      [.field 1 "type_url"
        (.scalar (.string "a//b/protowire_test.TestRequiredOneof.NestedMessage"))] := rfl
  have hpayload : Member.visits encode (.payload 2 "value") (.payload (.held m)) = [] := by
    rw [Member.visits, Payload.bytes, hvalue]
    rfl
  have hlen : (pack m "a//b/").encodedLen < 2 ^ 64 := by
    rw [encodedLen_eq, encode_eq]
    show ((Member.visits encode _ (.plain (.string (TypeUrl.build "a//b/" _))) ++
      (Member.visits encode _ (.payload (.held m)) ++ [])).flatMap (Visit.encode encode) ++
      []).length < _
    have hbuild : TypeUrl.build "a//b/" m.type.fullName =
        "a//b/protowire_test.TestRequiredOneof.NestedMessage" := by decide
    rw [hbuild, hurl, hpayload]
    simp [Visit.encode, FieldValue.encode, Tag.length_encode, Scalar.length_encode]
    decide
  obtain ⟨hholds, -, -, -, -, -, -, -, hunpack, -, -, -, hstrict, -⟩ :=
    pack_round_trip (by decide) hm "a//b/" hlen
  rw [hinit] at hstrict
  exact ⟨m, rfl, hlen, hholds, hunpack, hstrict⟩

end Any

end Protobuf
