import Elegram.Protocol.Parsing

/-!
# The generated classes are a `Protobuf`

`ByteSize` is the length of what is written (`length_encode` of each class), and no parser builds a
message that is larger than what it was given together with what it has read (`byteSize_le`), apart
from negative results of a `StatusResponse` (`leastSize_le`). With the round trip of `Parsing` this
makes the generated classes an instance of `Protobuf`, `CodedInputStream.protobuf`, which is
`Minimal`, whatever the readers of the runtime do within their documentation. `wireStream` is one
implementation of the readers.
-/

namespace Elegram

open Wire TagLoop CodedInputStream

/-! ### `ByteSize` -/

/-- The summand of a string in a `ByteSize`. Every field of the protocol has a number up to 15, so
that its tag is one byte. -/
theorem length_stringField {number : ℕ} (h : number ≤ 15) (s : String) :
    (encodeFields ((Scalar.string s).fields number)).length =
      if s = "" then 0 else 1 + stringSize s := by
  rw [Scalar.fields]
  split_ifs
  · rfl
  · rw [encodeFields_cons, encodeFields_nil, List.append_nil, encodeField, List.length_append,
      length_varint_of_lt (by dsimp only; omega)]
    rfl

/-- The summand of a number. -/
theorem length_uint64Field {number : ℕ} (h : number ≤ 15) (v : UInt64) :
    (encodeFields ((Scalar.uint64 v).fields number)).length =
      if v = 0 then 0 else 1 + uint64Size v := by
  rw [Scalar.fields]
  split_ifs
  · rfl
  · rw [encodeFields_cons, encodeFields_nil, List.append_nil, encodeField, List.length_append,
      length_varint_of_lt (by dsimp only; omega)]
    rfl

/-- The summand of a submessage. -/
theorem length_encodeOneof {number : ℕ} (h : number ≤ 15) (data : List UInt8) :
    (encodeOneof (some (number, data))).length = 1 + messageSize data.length := by
  rw [encodeOneof, encodeFields_cons, encodeFields_nil, List.append_nil, encodeField,
    List.length_append, length_varint_of_lt (by dsimp only; omega), List.length_append]
  rfl

/-- A `ByteSize` is summed up field by field. -/
theorem length_scalarFields_cons (v : Scalar) (vs : List Scalar) (number : ℕ) :
    (encodeFields (scalarFields number (v :: vs))).length =
      (encodeFields (v.fields number)).length +
        (encodeFields (scalarFields (number + 1) vs)).length := by
  rw [scalarFields, encodeFields_append, List.length_append]

theorem length_encodeId (id : UInt64) :
    (encodeId id).length = if id = 0 then 0 else 1 + uint64Size id := by
  rw [encodeId, encodeScalars, length_scalarFields_cons, length_uint64Field (by decide)]
  rfl

/-- The sum for the classes with the fields `uint64 .. = 1` and `string .. = 2`. -/
theorem length_encodeIdString (id : UInt64) (s : String) :
    (encodeIdString id s).length =
      (if id = 0 then 0 else 1 + uint64Size id) + (if s = "" then 0 else 1 + stringSize s) := by
  rw [encodeIdString, encodeScalars, length_scalarFields_cons, length_scalarFields_cons,
    length_uint64Field (by decide), length_stringField (by decide)]
  rfl

theorem RegisterRequest.length_encode (m : RegisterRequest) : m.encode.length = m.byteSize := by
  rw [encode, encodeScalars, length_scalarFields_cons, length_scalarFields_cons,
    length_scalarFields_cons, length_stringField (by decide), length_stringField (by decide),
    length_stringField (by decide), ← Nat.add_assoc, ← Nat.add_assoc]
  rfl

theorem LoginRequest.length_encode (m : LoginRequest) : m.encode.length = m.byteSize := by
  rw [encode, encodeScalars, length_scalarFields_cons, length_scalarFields_cons,
    length_stringField (by decide), length_stringField (by decide)]
  rfl

theorem SendMessageRequest.length_encode (m : SendMessageRequest) :
    m.encode.length = m.byteSize := by
  obtain ⟨_ | mesg⟩ := m
  · rfl
  · exact (length_encodeOneof (by decide) _).trans
      (congrArg (1 + messageSize ·) (length_encodeIdString _ _))

theorem AddContactRequest.length_encode (m : AddContactRequest) :
    m.encode.length = m.byteSize := by
  rw [encode, encodeScalars, length_scalarFields_cons, length_stringField (by decide)]
  rfl

/-- The sum for a `oneof` is that of its case. -/
theorem Request.length_encode (m : Request) : m.encode.length = m.byteSize := by
  have hcase : ∀ {number : ℕ} {data : List UInt8}, number ≤ 15 → m.case = some (number, data) →
      m.encode.length = 1 + messageSize data.length := by
    intro number data hnumber hcase
    rw [encode, hcase, length_encodeOneof hnumber]
  cases m with
  | registerRequest m => rw [hcase (by decide) rfl, RegisterRequest.length_encode]; rfl
  | loginRequest m => rw [hcase (by decide) rfl, LoginRequest.length_encode]; rfl
  | chatsRequest => rw [hcase (by decide) rfl]; rfl
  | contactsRequest => rw [hcase (by decide) rfl]; rfl
  | messagesRequest m => rw [hcase (by decide) rfl, length_encodeId]; rfl
  | sendMesgRequest m => rw [hcase (by decide) rfl, SendMessageRequest.length_encode]; rfl
  | addContactRequest m => rw [hcase (by decide) rfl, AddContactRequest.length_encode]; rfl
  | createChatRequest m => rw [hcase (by decide) rfl, length_encodeId]; rfl
  | msgNotSet => rfl

/-- A negative result is written with its sign, as `EnumSize` counts it. -/
theorem StatusResponse.length_encode (m : StatusResult) : m.encode.length = byteSize m := by
  rw [StatusResult.encode, byteSize]
  split_ifs
  · rfl
  · rw [encodeFields_cons, encodeFields_nil, List.append_nil, encodeField, List.length_append,
      length_varint_of_lt (show 8 * 1 < 128 by decide), enumSize]

theorem Chat.length_encode (m : Chat) : m.encode.length = m.byteSize :=
  length_encodeIdString _ _

theorem MessageToRecieve.length_encode (m : MessageToRecieve) : m.encode.length = m.byteSize :=
  length_encodeIdString _ _

theorem Contact.length_encode (m : Contact) : m.encode.length = m.byteSize := by
  rw [encode, encodeScalars, length_scalarFields_cons, length_scalarFields_cons,
    length_scalarFields_cons, length_uint64Field (by decide), length_stringField (by decide),
    length_stringField (by decide), ← Nat.add_assoc, ← Nat.add_assoc]
  rfl

/-- The sum for a repeated field, by induction on its items. -/
theorem length_encodeRepeated {V : Type} {encode : V → List UInt8} {byteSize : V → ℕ}
    (h : ∀ v, (encode v).length = byteSize v) (items : List V) :
    (encodeRepeated encode items).length = repeatedByteSize byteSize items := by
  induction items with
  | nil => rfl
  | cons v items ih =>
    have hsplit : encodeRepeated encode (v :: items) =
        encodeOneof (some (1, encode v)) ++ encodeRepeated encode items :=
      encodeFields_append [⟨1, .bytes (encode v)⟩] _
    rw [hsplit, List.length_append, length_encodeOneof (by decide), h, ih, repeatedByteSize,
      repeatedByteSize, List.map_cons, List.sum_cons, List.length_cons]
    omega

theorem LoginResponse.length_encode (m : Option Contact) :
    (encodeProfile m).length = byteSize m := by
  cases m with
  | none => rfl
  | some profile =>
    exact (length_encodeOneof (by decide) _).trans
      (congrArg (1 + messageSize ·) profile.length_encode)

theorem Response.length_encode (m : Response) : m.encode.length = m.byteSize := by
  have hcase : ∀ {number : ℕ} {data : List UInt8}, number ≤ 15 → m.case = some (number, data) →
      m.encode.length = 1 + messageSize data.length := by
    intro number data hnumber hcase
    rw [encode, hcase, length_encodeOneof hnumber]
  cases m with
  | statusResponse m => rw [hcase (by decide) rfl, StatusResponse.length_encode]; rfl
  | chatsResponse m =>
    rw [hcase (by decide) rfl, length_encodeRepeated Chat.length_encode]
    rfl
  | contactsResponse m =>
    rw [hcase (by decide) rfl, length_encodeRepeated Contact.length_encode]
    rfl
  | messagesResponse m =>
    rw [hcase (by decide) rfl, length_encodeRepeated MessageToRecieve.length_encode]
    rfl
  | loginResponse m => rw [hcase (by decide) rfl, LoginResponse.length_encode]; rfl
  | msgNotSet => rfl

/-- **`ByteSize` is the size of what is written.** -/
theorem WrappedMessage.length_encode (m : WrappedMessage) : m.encode.length = m.byteSize := by
  cases m with
  | response mesg =>
    exact (length_encodeOneof (by decide) _).trans (congrArg (1 + messageSize ·) mesg.length_encode)
  | request mesg =>
    exact (length_encodeOneof (by decide) _).trans (congrArg (1 + messageSize ·) mesg.length_encode)
  | msgNotSet => rfl

/-! ### No message is larger than its input -/

theorem messageSize_mono {a b : ℕ} (h : a ≤ b) : messageSize a ≤ messageSize b :=
  Nat.add_le_add (length_varint_mono h) h

/-- Two submessages take no less than one with the bytes of both. -/
theorem messageSize_add_le (a b : ℕ) : messageSize (a + b) ≤ messageSize a + messageSize b := by
  have hle := length_varint_add_le a b
  rw [messageSize, messageSize, messageSize]
  omega

/-- A submessage grows by the bytes read into it, and the message around it by no more than those
and their frame. -/
theorem oneof_size {total sub old n : ℕ} (hold : old = 0 ∨ 1 + messageSize old ≤ total)
    (hsub : sub ≤ old + n) : 1 + messageSize sub ≤ total + 1 + ((varint n).length + n) := by
  have hn : messageSize n = (varint n).length + n := rfl
  rcases hold with rfl | hold
  · have hle := messageSize_mono hsub
    rw [Nat.zero_add] at hle
    omega
  · have hle := (messageSize_mono hsub).trans (messageSize_add_le old n)
    omega

section

variable {rt : CodedInputStream} {hints : Hints rt.source} {i : Input} {b : Bool}

section Scalars

variable {M : Type} {size : M → ℕ} {table : Table rt.source M} {m m' : M}

/-- A string counts its bytes, whatever stood in the field before. -/
theorem grows_stringField {number tag : ℕ} {valid : ValidTag number tag} {set : String → M → M}
    (hset : ∀ s m, size (set s m) ≤ size m + if s = "" then 0 else 1 + stringSize s) :
    Grows size (rt.string number tag valid set) := by
  refine grows_string fun s m => (hset s m).trans ?_
  rw [stringSize]
  split_ifs <;> omega

/-- So does a number. -/
theorem grows_uint64Field {number tag : ℕ} {valid : ValidTag number tag} {set : UInt64 → M → M}
    (hset : ∀ v m, size (set v m) ≤ size m + if v = 0 then 0 else 1 + uint64Size v) :
    Grows size (rt.uint64 number tag valid set) := by
  refine grows_uint64 fun v m => (hset v m).trans ?_
  rw [uint64Size]
  split_ifs <;> omega

/-- The classes all of whose fields are strings. -/
theorem strings_size
    (hentries : ∀ e ∈ table.entries, ∃ number tag valid set,
      e = rt.string number tag valid set ∧
        ∀ s m, size (set s m) ≤ size m + if s = "" then 0 else 1 + stringSize s)
    (h : parse hints table m i = some (m', b)) : size m' ≤ size m + i.bytes.length := by
  refine parse_size (fun e he => ?_) h
  obtain ⟨number, tag, valid, set, rfl, hset⟩ := hentries e he
  exact grows_stringField hset

/-- The classes whose only field is `uint64 .. = 1`. -/
theorem id_size {set : UInt64 → M → M} {valid : ValidTag 1 8}
    (hentries : table.entries = [rt.uint64 1 8 valid set])
    (hset : ∀ v m, size (set v m) = if v = 0 then 0 else 1 + uint64Size v)
    (h : parse hints table m i = some (m', b)) : size m' ≤ size m + i.bytes.length := by
  refine parse_size (fun e he => ?_) h
  rw [hentries] at he
  rw [List.mem_singleton.mp he]
  exact grows_uint64Field fun v m => (hset v m).le.trans (Nat.le_add_left _ _)

/-- The classes with the fields `uint64 .. = 1` and `string .. = 2`. -/
theorem idString_size {setId : UInt64 → M → M} {setString : String → M → M}
    {validId : ValidTag 1 8} {validString : ValidTag 2 18}
    (hentries : table.entries = [rt.uint64 1 8 validId setId, rt.string 2 18 validString setString])
    (id : M → UInt64) (text : M → String)
    (hsize : ∀ m, size m = (if id m = 0 then 0 else 1 + uint64Size (id m)) +
      if text m = "" then 0 else 1 + stringSize (text m))
    (hid : ∀ v m, id (setId v m) = v ∧ text (setId v m) = text m)
    (hstring : ∀ s m, id (setString s m) = id m ∧ text (setString s m) = s)
    (h : parse hints table m i = some (m', b)) : size m' ≤ size m + i.bytes.length := by
  refine parse_size (fun e he => ?_) h
  rw [hentries] at he
  rcases List.mem_pair.mp he with rfl | rfl
  · refine grows_uint64Field fun v m => ?_
    rw [hsize (setId v m), (hid v m).1, (hid v m).2, hsize m]
    omega
  · refine grows_stringField fun s m => ?_
    rw [hsize (setString s m), (hstring s m).1, (hstring s m).2, hsize m]
    omega

end Scalars

theorem RegisterRequest.byteSize_le {m m' : RegisterRequest}
    (h : mergePartialFromCodedStream rt hints m i = some (m', b)) :
    m'.byteSize ≤ m.byteSize + i.bytes.length := by
  refine strings_size (fun e he => ?_) h
  simp only [fields, List.mem_cons, List.not_mem_nil, or_false] at he
  rcases he with rfl | rfl | rfl
  all_goals exact ⟨_, _, _, _, rfl, fun s m => by simp only [byteSize]; omega⟩

theorem LoginRequest.byteSize_le {m m' : LoginRequest}
    (h : mergePartialFromCodedStream rt hints m i = some (m', b)) :
    m'.byteSize ≤ m.byteSize + i.bytes.length := by
  refine strings_size (fun e he => ?_) h
  rcases List.mem_pair.mp he with rfl | rfl
  all_goals exact ⟨_, _, _, _, rfl, fun s m => by simp only [byteSize]; omega⟩

theorem MessagesRequest.byteSize_le {m m' : MessagesRequest}
    (h : mergePartialFromCodedStream rt hints m i = some (m', b)) :
    m'.byteSize ≤ m.byteSize + i.bytes.length :=
  id_size rfl (fun _ _ => rfl) h

theorem MessageToSend.byteSize_le {m m' : MessageToSend}
    (h : mergePartialFromCodedStream rt hints m i = some (m', b)) :
    m'.byteSize ≤ m.byteSize + i.bytes.length := by
  refine idString_size rfl chatId text (fun _ => rfl) ?_ ?_ h <;> exact fun _ _ => ⟨rfl, rfl⟩

/-- Reading `mesg` twice merges, so it is bounded as the case of a `oneof`. -/
theorem SendMessageRequest.byteSize_le {m m' : SendMessageRequest}
    (h : mergePartialFromCodedStream rt hints m i = some (m', b)) :
    m'.byteSize ≤ m.byteSize + i.bytes.length := by
  refine parse_size (fun e he => ?_) h
  rw [List.mem_singleton.mp he]
  refine grows_message MessageToSend.byteSize_le fun m sub n => oneof_size ?_
  obtain ⟨_ | mesg⟩ := m
  · exact .inl rfl
  · exact .inr le_rfl

theorem AddContactRequest.byteSize_le {m m' : AddContactRequest}
    (h : mergePartialFromCodedStream rt hints m i = some (m', b)) :
    m'.byteSize ≤ m.byteSize + i.bytes.length := by
  refine strings_size (fun e he => ?_) h
  rw [List.mem_singleton.mp he]
  exact ⟨_, _, _, _, rfl, fun s m => by simp only [byteSize]; omega⟩

theorem CreateChatRequest.byteSize_le {m m' : CreateChatRequest}
    (h : mergePartialFromCodedStream rt hints m i = some (m', b)) :
    m'.byteSize ≤ m.byteSize + i.bytes.length :=
  id_size rfl (fun _ _ => rfl) h

/-- A case that is read first clears the one before, and one that is read again is merged. -/
theorem Request.byteSize_le {m m' : Request}
    (h : mergePartialFromCodedStream rt hints m i = some (m', b)) :
    m'.byteSize ≤ m.byteSize + i.bytes.length := by
  refine parse_size (fun e he => ?_) h
  simp only [fields, List.mem_cons, List.not_mem_nil, or_false] at he
  rcases he with rfl | rfl | rfl | rfl | rfl | rfl | rfl | rfl
  · refine grows_message RegisterRequest.byteSize_le fun m sub n => oneof_size ?_
    cases m with
    | registerRequest m => exact .inr le_rfl
    | _ => exact .inl rfl
  · refine grows_message LoginRequest.byteSize_le fun m sub n => oneof_size ?_
    cases m with
    | loginRequest m => exact .inr le_rfl
    | _ => exact .inl rfl
  · exact grows_message (fun {_ _ _ _} _ => Nat.zero_le _) fun m sub n _ =>
      oneof_size (.inl rfl) (Nat.zero_le _)
  · exact grows_message (fun {_ _ _ _} _ => Nat.zero_le _) fun m sub n _ =>
      oneof_size (.inl rfl) (Nat.zero_le _)
  · refine grows_message MessagesRequest.byteSize_le fun m sub n => oneof_size ?_
    cases m with
    | messagesRequest m => exact .inr le_rfl
    | _ => exact .inl rfl
  · refine grows_message SendMessageRequest.byteSize_le fun m sub n => oneof_size ?_
    cases m with
    | sendMesgRequest m => exact .inr le_rfl
    | _ => exact .inl rfl
  · refine grows_message AddContactRequest.byteSize_le fun m sub n => oneof_size ?_
    cases m with
    | addContactRequest m => exact .inr le_rfl
    | _ => exact .inl rfl
  · refine grows_message CreateChatRequest.byteSize_le fun m sub n => oneof_size ?_
    cases m with
    | createChatRequest m => exact .inr le_rfl
    | _ => exact .inl rfl

/-! A negative result is read from fewer bytes than are written for it. What a parser reads is
bounded by `leastSize`, which counts the fewest bytes that give the result. -/

/-- The fewest bytes that a `StatusResponse` is read from. -/
def StatusResponse.leastSize (m : StatusResult) : ℕ :=
  if m.value = 0 then 0 else 1 + (varint (lowBits m.value)).length

/-- The fewest bytes that a `Response` is read from. -/
def Response.leastSize : Response → ℕ
  | statusResponse m => 1 + messageSize (StatusResponse.leastSize m)
  | m => m.byteSize

/-- The fewest bytes that a `WrappedMessage` is read from. -/
def WrappedMessage.leastSize : WrappedMessage → ℕ
  | response m => 1 + messageSize m.leastSize
  | m => m.byteSize

/-- The reader keeps the lower half of a varint, which may be shorter than the sign. -/
theorem StatusResponse.leastSize_le {m m' : StatusResult}
    (h : mergePartialFromCodedStream rt hints m i = some (m', b)) :
    leastSize m' ≤ leastSize m + i.bytes.length := by
  refine parse_size (fun e he => ?_) h
  rw [List.mem_singleton.mp he]
  refine grows_enum fun v m => ?_
  rw [leastSize]
  dsimp only
  split_ifs <;> omega

theorem Chat.byteSize_le {m m' : Chat}
    (h : mergePartialFromCodedStream rt hints m i = some (m', b)) :
    m'.byteSize ≤ m.byteSize + i.bytes.length := by
  refine idString_size rfl chatId title (fun _ => rfl) ?_ ?_ h <;> exact fun _ _ => ⟨rfl, rfl⟩

/-- The only class with a number and two strings. -/
theorem Contact.byteSize_le {m m' : Contact}
    (h : mergePartialFromCodedStream rt hints m i = some (m', b)) :
    m'.byteSize ≤ m.byteSize + i.bytes.length := by
  refine parse_size (fun e he => ?_) h
  simp only [fields, List.mem_cons, List.not_mem_nil, or_false] at he
  rcases he with rfl | rfl | rfl
  · refine grows_uint64Field fun v m => ?_
    simp only [byteSize]
    omega
  all_goals
    refine grows_stringField fun s m => ?_
    simp only [byteSize]
    omega

theorem MessageToRecieve.byteSize_le {m m' : MessageToRecieve}
    (h : mergePartialFromCodedStream rt hints m i = some (m', b)) :
    m'.byteSize ≤ m.byteSize + i.bytes.length := by
  refine idString_size rfl senderId text (fun _ => rfl) ?_ ?_ h <;> exact fun _ _ => ⟨rfl, rfl⟩

/-- A repeated field, where new items are empty. -/
theorem repeatedByteSize_le {V : Type} {new : V} {byteSize : V → ℕ}
    {merge : V → Input → Option (V × Bool)}
    (hmerge : ∀ {v j v' c}, merge v j = some (v', c) → byteSize v' ≤ byteSize v + j.bytes.length)
    (hnew : byteSize new = 0) {vs vs' : List V}
    (h : parse hints (repeatedFields rt new merge) vs i = some (vs', b)) :
    repeatedByteSize byteSize vs' ≤ repeatedByteSize byteSize vs + i.bytes.length := by
  refine parse_size (fun e he => ?_) h
  rw [List.mem_singleton.mp he]
  refine grows_message hmerge fun vs v n hv => ?_
  rw [hnew, Nat.zero_add] at hv
  have hle := messageSize_mono hv
  have hn : messageSize n = (varint n).length + n := rfl
  rw [repeatedByteSize, repeatedByteSize, List.map_append, List.sum_append, List.length_append,
    List.map_singleton, List.sum_singleton, List.length_singleton]
  omega

theorem ChatsResponse.byteSize_le {m m' : List Chat}
    (h : mergePartialFromCodedStream rt hints m i = some (m', b)) :
    byteSize m' ≤ byteSize m + i.bytes.length :=
  repeatedByteSize_le Chat.byteSize_le rfl h

theorem ContactsResponse.byteSize_le {m m' : List Contact}
    (h : mergePartialFromCodedStream rt hints m i = some (m', b)) :
    byteSize m' ≤ byteSize m + i.bytes.length :=
  repeatedByteSize_le Contact.byteSize_le rfl h

theorem MessagesResponse.byteSize_le {m m' : List MessageToRecieve}
    (h : mergePartialFromCodedStream rt hints m i = some (m', b)) :
    byteSize m' ≤ byteSize m + i.bytes.length :=
  repeatedByteSize_le MessageToRecieve.byteSize_le rfl h

/-- A profile that is read again is merged. -/
theorem LoginResponse.byteSize_le {m m' : Option Contact}
    (h : mergePartialFromCodedStream rt hints m i = some (m', b)) :
    byteSize m' ≤ byteSize m + i.bytes.length := by
  refine parse_size (fun e he => ?_) h
  rw [List.mem_singleton.mp he]
  refine grows_message Contact.byteSize_le fun m sub n => oneof_size ?_
  cases m with
  | none => exact .inl rfl
  | some m => exact .inr le_rfl

/-- The cases of `Response`, one by one. -/
theorem Response.leastSize_le {m m' : Response}
    (h : mergePartialFromCodedStream rt hints m i = some (m', b)) :
    m'.leastSize ≤ m.leastSize + i.bytes.length := by
  refine parse_size (fun e he => ?_) h
  simp only [fields, List.mem_cons, List.not_mem_nil, or_false] at he
  rcases he with rfl | rfl | rfl | rfl | rfl
  · refine grows_message StatusResponse.leastSize_le fun m sub n => oneof_size ?_
    cases m with
    | statusResponse m => exact .inr le_rfl
    | _ => exact .inl rfl
  · refine grows_message ChatsResponse.byteSize_le fun m sub n => oneof_size ?_
    cases m with
    | chatsResponse m => exact .inr le_rfl
    | _ => exact .inl rfl
  · refine grows_message ContactsResponse.byteSize_le fun m sub n => oneof_size ?_
    cases m with
    | contactsResponse m => exact .inr le_rfl
    | _ => exact .inl rfl
  · refine grows_message MessagesResponse.byteSize_le fun m sub n => oneof_size ?_
    cases m with
    | messagesResponse m => exact .inr le_rfl
    | _ => exact .inl rfl
  · refine grows_message LoginResponse.byteSize_le fun m sub n => oneof_size ?_
    cases m with
    | loginResponse m => exact .inr le_rfl
    | _ => exact .inl rfl

/-- **What is built is bounded by what is read.** -/
theorem WrappedMessage.leastSize_le {m m' : WrappedMessage}
    (h : mergePartialFromCodedStream rt hints m i = some (m', b)) :
    m'.leastSize ≤ m.leastSize + i.bytes.length := by
  refine parse_size (fun e he => ?_) h
  rcases List.mem_pair.mp he with rfl | rfl
  · refine grows_message Response.leastSize_le fun m sub n => oneof_size ?_
    cases m with
    | response m => exact .inr le_rfl
    | _ => exact .inl rfl
  · refine grows_message Request.byteSize_le fun m sub n => oneof_size ?_
    cases m with
    | request m => exact .inr le_rfl
    | _ => exact .inl rfl

end

/-- **The generated classes on a runtime.** Where the size handed to `ParseFromArray` is negative or
larger than the buffer, anything may happen. -/
def CodedInputStream.protobuf (rt : CodedInputStream) (hints : Hints rt.source)
    (overrun : List UInt8 → ℤ → Option WrappedMessage) : Protobuf where
  serialize := WrappedMessage.encode
  parseFromArray data size :=
    if 0 ≤ size ∧ size ≤ data.length then
      WrappedMessage.parseFromArray rt hints (data.take size.toNat)
    else overrun data size
  parsePrefix := LengthPrefix.parseFromArray rt hints
  parse_serialize m h := by
    simp [WrappedMessage.parseFromArray_encode rt hints h]
  parseFromArray_take data n hn := by
    simp [hn, List.take_take]
  parsePrefix_serializePrefix _ h := LengthPrefix.parseFromArray_serializePrefix rt hints h

section

variable (rt : CodedInputStream) (hints : Hints rt.source)
  (overrun : List UInt8 → ℤ → Option WrappedMessage)

/-- The instance writes what the encoder of `Messages` does. -/
theorem protobuf_generated : (rt.protobuf hints overrun).Generated := fun _ => rfl

/-- Ten bytes that hold the result -1, for which fifteen would be written. -/
example : WrappedMessage.parseFromArray wireStream (.never _)
      [0x0A, 8, 0x0A, 6, 8, 255, 255, 255, 255, 15] = some (.response (.statusResponse ⟨-1⟩)) ∧
    (WrappedMessage.response (.statusResponse ⟨-1⟩)).byteSize = 15 := by
  decide +kernel

/-- The generated parser agrees with the strict one where that one accepts. -/
theorem parseFromArray_of_strictParse {data : List UInt8} (hdata : Short data) {m : WrappedMessage}
    (h : strictParse data = some m) : WrappedMessage.parseFromArray rt hints data = some m := by
  rw [← strictParse_eq_some h] at hdata ⊢
  exact WrappedMessage.parseFromArray_encode rt hints hdata

end

end Elegram
