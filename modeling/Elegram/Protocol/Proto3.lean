import Elegram.Foundation.Wire
import Elegram.Protocol.Codec

/-!
# A protobuf runtime for the messages

`proto3` is an implementation of the parameter `Protobuf`: it writes exactly the bytes that the
generated classes write, and reads back exactly the byte strings that they write. (The generated
parsers also accept other encodings of the same messages, unknown fields and fields out of order;
here these are refused.) It shows that the assumptions of `Protobuf` and `Protobuf.Minimal` can be
met together, and it makes the frames of concrete messages computable.
-/

namespace Elegram

open Wire

/-! ### Requests -/

/-- The bytes of a `RegisterRequest`. -/
def RegisterRequest.encode (m : RegisterRequest) : List UInt8 :=
  encodeScalars [.string m.name, .string m.email, .string m.password]

/-- Reads the bytes that a `RegisterRequest` is written as. -/
def RegisterRequest.decode (data : List UInt8) : Option RegisterRequest :=
  match decodeScalars [.string, .string, .string] data with
  | some [.string name, .string email, .string password] => some ⟨name, email, password⟩
  | _ => none

/-- The bytes of a `LoginRequest`. -/
def LoginRequest.encode (m : LoginRequest) : List UInt8 :=
  encodeScalars [.string m.email, .string m.password]

def LoginRequest.decode (data : List UInt8) : Option LoginRequest :=
  match decodeScalars [.string, .string] data with
  | some [.string email, .string password] => some ⟨email, password⟩
  | _ => none

/-- The encoding of a message with the single field `uint64 .. = 1`. -/
def encodeId (id : UInt64) : List UInt8 := encodeScalars [.uint64 id]

/-- Reads what `encodeId` writes. -/
def decodeId (data : List UInt8) : Option UInt64 :=
  match decodeScalars [.uint64] data with
  | some [.uint64 id] => some id
  | _ => none

/-- The encoding of a message with the fields `uint64 .. = 1` and `string .. = 2`. -/
def encodeIdString (id : UInt64) (s : String) : List UInt8 := encodeScalars [.uint64 id, .string s]

/-- Reads what `encodeIdString` writes. -/
def decodeIdString (data : List UInt8) : Option (UInt64 × String) :=
  match decodeScalars [.uint64, .string] data with
  | some [.uint64 id, .string s] => some (id, s)
  | _ => none

def MessageToSend.encode (m : MessageToSend) : List UInt8 := encodeIdString m.chatId m.text

def MessageToSend.decode (data : List UInt8) : Option MessageToSend :=
  (decodeIdString data).map fun p => ⟨p.1, p.2⟩

/-- The bytes of a `SendMessageRequest`. A message that is there is written even if it is empty,
like the case of a `oneof`. -/
def SendMessageRequest.encode (m : SendMessageRequest) : List UInt8 :=
  encodeOneof (m.mesg.map fun mesg => (1, mesg.encode))

def SendMessageRequest.decode (data : List UInt8) : Option SendMessageRequest :=
  (decodeOneof data).bind fun c =>
    match c with
    | none => some ⟨none⟩
    | some (1, data) => (MessageToSend.decode data).map fun mesg => ⟨some mesg⟩
    | some _ => none

/-- The bytes of an `AddContactRequest`. -/
def AddContactRequest.encode (m : AddContactRequest) : List UInt8 := encodeScalars [.string m.email]

def AddContactRequest.decode (data : List UInt8) : Option AddContactRequest :=
  match decodeScalars [.string] data with
  | some [.string email] => some ⟨email⟩
  | _ => none

/-- The case of the `oneof` that is set, with its bytes. -/
def Request.case : Request → Option (ℕ × List UInt8)
  | .registerRequest m => some (1, m.encode)
  | .loginRequest m => some (2, m.encode)
  | .chatsRequest => some (3, [])
  | .contactsRequest => some (4, [])
  | .messagesRequest m => some (5, encodeId m.chatId)
  | .sendMesgRequest m => some (6, m.encode)
  | .addContactRequest m => some (7, m.encode)
  | .createChatRequest m => some (8, encodeId m.friendId)
  | .msgNotSet => none

/-- The bytes of a `Request`. -/
def Request.encode (r : Request) : List UInt8 := encodeOneof r.case

/-- Reads the bytes that a `Request` is written as. -/
def Request.decode (data : List UInt8) : Option Request :=
  (decodeOneof data).bind fun c =>
    match c with
    | none => some .msgNotSet
    | some (1, data) => (RegisterRequest.decode data).map .registerRequest
    | some (2, data) => (LoginRequest.decode data).map .loginRequest
    | some (3, []) => some .chatsRequest
    | some (4, []) => some .contactsRequest
    | some (5, data) => (decodeId data).map fun id => .messagesRequest ⟨id⟩
    | some (6, data) => (SendMessageRequest.decode data).map .sendMesgRequest
    | some (7, data) => (AddContactRequest.decode data).map .addContactRequest
    | some (8, data) => (decodeId data).map fun id => .createChatRequest ⟨id⟩
    | some _ => none

/-! ### Responses -/

/-- The bytes of a `StatusResponse`: the default is not written, and a negative result with its
sign. -/
def StatusResult.encode (m : StatusResult) : List UInt8 :=
  if m.value = 0 then [] else encodeFields [⟨1, .varint (signExtend m.value)⟩]

/-- Reads the bytes that a `StatusResponse` is written as. -/
def StatusResult.decode (data : List UInt8) : Option StatusResult :=
  match decodeFields data with
  | some [] => some .accepted
  | some [⟨1, .varint n⟩] => some ⟨Int32.ofInt n⟩
  | _ => none

def Chat.encode (m : Chat) : List UInt8 := encodeIdString m.chatId m.title

def Chat.decode (data : List UInt8) : Option Chat := (decodeIdString data).map fun p => ⟨p.1, p.2⟩

/-- The bytes of a `Contact`. -/
def Contact.encode (m : Contact) : List UInt8 :=
  encodeScalars [.uint64 m.userId, .string m.name, .string m.email]

def Contact.decode (data : List UInt8) : Option Contact :=
  match decodeScalars [.uint64, .string, .string] data with
  | some [.uint64 userId, .string name, .string email] => some ⟨userId, name, email⟩
  | _ => none

def MessageToRecieve.encode (m : MessageToRecieve) : List UInt8 := encodeIdString m.senderId m.text

def MessageToRecieve.decode (data : List UInt8) : Option MessageToRecieve :=
  (decodeIdString data).map fun p => ⟨p.1, p.2⟩

/-- The bytes of a `LoginResponse`. -/
def encodeProfile (profile : Option Contact) : List UInt8 :=
  encodeOneof (profile.map fun p => (1, p.encode))

/-- Reads what `encodeProfile` writes. -/
def decodeProfile (data : List UInt8) : Option (Option Contact) :=
  (decodeOneof data).bind fun c =>
    match c with
    | none => some none
    | some (1, data) => (Contact.decode data).map some
    | some _ => none

/-- The case of the `oneof` that is set, with its bytes. -/
def Response.case : Response → Option (ℕ × List UInt8)
  | .statusResponse result => some (1, result.encode)
  | .chatsResponse chats => some (2, encodeRepeated Chat.encode chats)
  | .contactsResponse contacts => some (3, encodeRepeated Contact.encode contacts)
  | .messagesResponse messages => some (4, encodeRepeated MessageToRecieve.encode messages)
  | .loginResponse profile => some (5, encodeProfile profile)
  | .msgNotSet => none

/-- The bytes of a `Response`. -/
def Response.encode (r : Response) : List UInt8 := encodeOneof r.case

/-- Reads the bytes that a `Response` is written as. -/
def Response.decode (data : List UInt8) : Option Response :=
  (decodeOneof data).bind fun c =>
    match c with
    | none => some .msgNotSet
    | some (1, data) => (StatusResult.decode data).map .statusResponse
    | some (2, data) => (decodeRepeated Chat.decode data).map .chatsResponse
    | some (3, data) => (decodeRepeated Contact.decode data).map .contactsResponse
    | some (4, data) => (decodeRepeated MessageToRecieve.decode data).map .messagesResponse
    | some (5, data) => (decodeProfile data).map .loginResponse
    | some _ => none

/-- The case of the `oneof` that is set, with its bytes. -/
def WrappedMessage.case : WrappedMessage → Option (ℕ × List UInt8)
  | .response mesg => some (1, mesg.encode)
  | .request mesg => some (2, mesg.encode)
  | .msgNotSet => none

/-- `SerializeToArray` of a `WrappedMessage`. -/
def WrappedMessage.encode (m : WrappedMessage) : List UInt8 := encodeOneof m.case

/-- Reads the bytes that a `WrappedMessage` is written as. -/
def WrappedMessage.decode (data : List UInt8) : Option WrappedMessage :=
  (decodeOneof data).bind fun c =>
    match c with
    | none => some .msgNotSet
    | some (1, data) => (Response.decode data).map .response
    | some (2, data) => (Request.decode data).map .request
    | some _ => none

/-! ### Round trips -/

theorem RegisterRequest.decode_encode {m : RegisterRequest} (h : m.encode.length < 2 ^ 64) :
    decode m.encode = some m := by
  have hvs := decodeScalars_encodeScalars
    [.string m.name, .string m.email, .string m.password] (by simp) h
  simp only [List.map, Scalar.kind] at hvs
  simp only [decode, encode, hvs]

theorem LoginRequest.decode_encode {m : LoginRequest} (h : m.encode.length < 2 ^ 64) :
    decode m.encode = some m := by
  have hvs := decodeScalars_encodeScalars [.string m.email, .string m.password] (by simp) h
  simp only [List.map, Scalar.kind] at hvs
  simp only [decode, encode, hvs]

theorem decodeId_encodeId {id : UInt64} (h : (encodeId id).length < 2 ^ 64) :
    decodeId (encodeId id) = some id := by
  have hvs := decodeScalars_encodeScalars [.uint64 id] (by simp) h
  simp only [List.map, Scalar.kind] at hvs
  simp only [decodeId, encodeId, hvs]

/-- The round trip of the classes with a number and a string. -/
theorem decodeIdString_encodeIdString {id : UInt64} {s : String}
    (h : (encodeIdString id s).length < 2 ^ 64) :
    decodeIdString (encodeIdString id s) = some (id, s) := by
  have hvs := decodeScalars_encodeScalars [.uint64 id, .string s] (by simp) h
  simp only [List.map, Scalar.kind] at hvs
  simp only [decodeIdString, encodeIdString, hvs]

theorem MessageToSend.decode_encode {m : MessageToSend} (h : m.encode.length < 2 ^ 64) :
    decode m.encode = some m := by
  rw [decode, encode, decodeIdString_encodeIdString h, Option.map_some]

/-- The round trip of a submessage rests on that of its class, whose bytes are fewer. -/
theorem SendMessageRequest.decode_encode {m : SendMessageRequest}
    (h : m.encode.length < 2 ^ 64) : decode m.encode = some m := by
  obtain ⟨_ | mesg⟩ := m
  · rfl
  · have hone := decodeOneof_encodeOneof (by decide) h
    have hmesg := MessageToSend.decode_encode (length_lt_of_encodeOneof h)
    simp only [decode, encode, Option.map_some, hone, Option.bind_some, hmesg]

theorem AddContactRequest.decode_encode {m : AddContactRequest} (h : m.encode.length < 2 ^ 64) :
    decode m.encode = some m := by
  have hvs := decodeScalars_encodeScalars [.string m.email] (by simp) h
  simp only [List.map, Scalar.kind] at hvs
  simp only [decode, encode, hvs]

/-- The round trip of a `oneof` rests on those of its cases. -/
theorem Request.decode_encode {r : Request} (h : r.encode.length < 2 ^ 64) :
    decode r.encode = some r := by
  have hone : ∀ {number : ℕ} {data : List UInt8}, r.case = some (number, data) → number < 2 ^ 29 →
      decodeOneof r.encode = some (some (number, data)) ∧ data.length < 2 ^ 64 := by
    intro number data hc hnum
    rw [encode, hc] at h ⊢
    exact ⟨decodeOneof_encodeOneof hnum h, length_lt_of_encodeOneof h⟩
  cases r with
  | registerRequest m =>
    obtain ⟨hone, hlen⟩ := hone rfl (by decide)
    simp [decode, hone, RegisterRequest.decode_encode hlen]
  | loginRequest m =>
    obtain ⟨hone, hlen⟩ := hone rfl (by decide)
    simp [decode, hone, LoginRequest.decode_encode hlen]
  | chatsRequest =>
    obtain ⟨hone, -⟩ := hone rfl (by decide)
    simp [decode, hone]
  | contactsRequest =>
    obtain ⟨hone, -⟩ := hone rfl (by decide)
    simp [decode, hone]
  | messagesRequest m =>
    obtain ⟨hone, hlen⟩ := hone rfl (by decide)
    simp [decode, hone, decodeId_encodeId hlen]
  | sendMesgRequest m =>
    obtain ⟨hone, hlen⟩ := hone rfl (by decide)
    simp [decode, hone, SendMessageRequest.decode_encode hlen]
  | addContactRequest m =>
    obtain ⟨hone, hlen⟩ := hone rfl (by decide)
    simp [decode, hone, AddContactRequest.decode_encode hlen]
  | createChatRequest m =>
    obtain ⟨hone, hlen⟩ := hone rfl (by decide)
    simp [decode, hone, decodeId_encodeId hlen]
  | msgNotSet => rfl

/-- Every `int` is read back, whether it is an enumerator or not. -/
theorem StatusResult.decode_encode {m : StatusResult} (h : m.encode.length < 2 ^ 64) :
    decode m.encode = some m := by
  obtain ⟨value⟩ := m
  rw [encode] at h ⊢
  split_ifs at h ⊢ with hvalue
  · obtain rfl : value = 0 := hvalue
    rfl
  · have hfields : ∀ f ∈ [(⟨1, .varint (signExtend value)⟩ : Field)], f.Bounded := by
      intro f hf
      rw [List.mem_singleton.mp hf]
      refine ⟨show 1 < 2 ^ 29 by decide, fun n hn => ?_⟩
      cases hn
      exact signExtend_lt value
    simp only [decode, decodeFields_encodeFields hfields h, ofInt_signExtend]

theorem Chat.decode_encode {m : Chat} (h : m.encode.length < 2 ^ 64) :
    decode m.encode = some m := by
  rw [decode, encode, decodeIdString_encodeIdString h, Option.map_some]

theorem Contact.decode_encode {m : Contact} (h : m.encode.length < 2 ^ 64) :
    decode m.encode = some m := by
  have hvs := decodeScalars_encodeScalars
    [.uint64 m.userId, .string m.name, .string m.email] (by simp) h
  simp only [List.map, Scalar.kind] at hvs
  simp only [decode, encode, hvs]

theorem MessageToRecieve.decode_encode {m : MessageToRecieve} (h : m.encode.length < 2 ^ 64) :
    decode m.encode = some m := by
  rw [decode, encode, decodeIdString_encodeIdString h, Option.map_some]

/-- The round trip of `LoginResponse`. -/
theorem decodeProfile_encodeProfile {profile : Option Contact}
    (h : (encodeProfile profile).length < 2 ^ 64) :
    decodeProfile (encodeProfile profile) = some profile := by
  cases profile with
  | none => rfl
  | some p =>
    have hone := decodeOneof_encodeOneof (by decide) h
    have hp := Contact.decode_encode (length_lt_of_encodeOneof h)
    simp only [decodeProfile, encodeProfile, Option.map_some, hone, Option.bind_some, hp]

/-- The round trip of `Response`, case by case. -/
theorem Response.decode_encode {r : Response} (h : r.encode.length < 2 ^ 64) :
    decode r.encode = some r := by
  have hone : ∀ {number : ℕ} {data : List UInt8}, r.case = some (number, data) → number < 2 ^ 29 →
      decodeOneof r.encode = some (some (number, data)) ∧ data.length < 2 ^ 64 := by
    intro number data hc hnum
    rw [encode, hc] at h ⊢
    exact ⟨decodeOneof_encodeOneof hnum h, length_lt_of_encodeOneof h⟩
  cases r with
  | statusResponse result =>
    obtain ⟨hone, hlen⟩ := hone rfl (by decide)
    simp [decode, hone, StatusResult.decode_encode hlen]
  | chatsResponse chats =>
    obtain ⟨hone, hlen⟩ := hone rfl (by decide)
    simp [decode, hone, decodeRepeated_encodeRepeated (fun _ => Chat.decode_encode) hlen]
  | contactsResponse contacts =>
    obtain ⟨hone, hlen⟩ := hone rfl (by decide)
    simp [decode, hone, decodeRepeated_encodeRepeated (fun _ => Contact.decode_encode) hlen]
  | messagesResponse messages =>
    obtain ⟨hone, hlen⟩ := hone rfl (by decide)
    simp [decode, hone,
      decodeRepeated_encodeRepeated (fun _ => MessageToRecieve.decode_encode) hlen]
  | loginResponse profile =>
    obtain ⟨hone, hlen⟩ := hone rfl (by decide)
    simp [decode, hone, decodeProfile_encodeProfile hlen]
  | msgNotSet => rfl

/-- **Round trip.** A message is read back from its bytes. -/
theorem WrappedMessage.decode_encode {m : WrappedMessage} (h : m.encode.length < 2 ^ 64) :
    decode m.encode = some m := by
  cases m with
  | response r =>
    have hone := decodeOneof_encodeOneof (by decide) h
    have hr := Response.decode_encode (length_lt_of_encodeOneof h)
    simp [decode, encode, case, hone, hr]
  | request r =>
    have hone := decodeOneof_encodeOneof (by decide) h
    have hr := Request.decode_encode (length_lt_of_encodeOneof h)
    simp [decode, encode, case, hone, hr]
  | msgNotSet => rfl

/-! ### The runtime -/

/-- The number whose little-endian bytes are given. -/
def littleEndian : List UInt8 → ℕ
  | [] => 0
  | b :: bs => b.toNat + 256 * littleEndian bs

/-- The eight bytes of a `fixed64` give its number. -/
theorem littleEndian_fixed64 (n : UInt64) : littleEndian (fixed64 n) = n.toNat := by
  have h := n.toNat_lt
  simp [littleEndian, fixed64, Nat.shiftRight_eq_div_pow]
  omega

/-- `LengthPrefix::ParseFromArray`, for what `serializePrefix` writes. -/
def decodePrefix : List UInt8 → Option UInt64
  | tag :: bs => if tag = 0x09 ∧ bs.length = 8 then some (UInt64.ofNat (littleEndian bs)) else none
  | [] => none

/-- A prefix is read back, unless it announces nothing. -/
theorem decodePrefix_serializePrefix {n : UInt64} (h : n ≠ 0) :
    decodePrefix (serializePrefix n) = some n := by
  rw [serializePrefix, if_neg h, decodePrefix, if_pos ⟨rfl, rfl⟩, littleEndian_fixed64,
    UInt64.ofNat_toNat]

/-- The message whose serialisation the bytes are. -/
def strictParse (data : List UInt8) : Option WrappedMessage :=
  (WrappedMessage.decode data).filter fun m => m.encode = data

theorem strictParse_eq_some {data : List UInt8} {m : WrappedMessage}
    (h : strictParse data = some m) : m.encode = data := by
  simpa using (Option.filter_eq_some_iff.mp h).2

/-- The strict reader accepts what is written. -/
theorem strictParse_encode {m : WrappedMessage} (h : m.encode.length < 2 ^ 64) :
    strictParse m.encode = some m := by
  simp [strictParse, WrappedMessage.decode_encode h]

/-- `ParseFromArray` with a strict reader: a size that is negative or reaches over the end of the
buffer is refused. -/
def strictParseFromArray (data : List UInt8) (size : ℤ) : Option WrappedMessage :=
  if 0 ≤ size ∧ size ≤ data.length then strictParse (data.take size.toNat) else none

/-- **An implementation of the protobuf runtime**, with the generated encoding. -/
def proto3 : Protobuf where
  serialize := WrappedMessage.encode
  parseFromArray := strictParseFromArray
  parsePrefix := decodePrefix
  parse_serialize m h := by
    have hs := strictParse_encode (h.trans (show 2 ^ 31 < 2 ^ 64 by decide))
    simp [strictParseFromArray, hs]
  parseFromArray_take data n hn := by
    simp [strictParseFromArray, hn, List.take_take]
  parsePrefix_serializePrefix _ h := decodePrefix_serializePrefix h

/-- What is parsed as a whole has just this serialisation. -/
theorem encode_of_proto3_parse {data : List UInt8} {m : WrappedMessage}
    (h : proto3.parse data = some m) : m.encode = data := by
  refine strictParse_eq_some ?_
  simpa [Protobuf.parse, proto3, strictParseFromArray] using h

/-- The strict reader builds no message from fewer bytes than are written for it. -/
theorem proto3_minimal : proto3.Minimal := fun _ m h =>
  (congrArg List.length (encode_of_proto3_parse h)).le.trans (Nat.le_add_right _ m.excess)

/-! ### Sizes -/

/-- The runtime writes the encoding of the generated classes. -/
def Protobuf.Generated (pb : Protobuf) : Prop := ∀ m, pb.serialize m = m.encode

theorem proto3_generated : proto3.Generated := fun _ => rfl

/-- One byte for the tag and ten for the number. -/
theorem StatusResult.length_encode_le (m : StatusResult) : m.encode.length ≤ 11 := by
  rw [encode]
  split_ifs
  · exact Nat.zero_le 11
  · have hten := length_varint_le (signExtend m.value)
    rw [encodeFields_cons, encodeFields_nil, List.append_nil, encodeField, List.length_append,
      length_varint_of_lt (show 8 * 1 < 128 by decide)]
    omega

/-- Only small messages have an excess. -/
theorem WrappedMessage.excess_eq_zero {m : WrappedMessage} (h : 15 < m.encode.length) :
    m.excess = 0 := by
  rw [excess.eq_def]
  split
  next result =>
    have hstatus := result.length_encode_le
    have hresponse : (Response.encode (.statusResponse result)).length =
        2 + result.encode.length :=
      length_encodeOneof_of_lt (by decide) (by omega)
    have hwrapped : (encode (.response (.statusResponse result))).length =
        2 + (Response.encode (.statusResponse result)).length :=
      length_encodeOneof_of_lt (by decide) (by omega)
    omega
  · rfl

/-- Whatever default values a request or a response consists of, the case of the `oneof` is
written. -/
theorem Protobuf.Generated.serialize_pos {pb : Protobuf} (h : pb.Generated) {m : WrappedMessage}
    (hm : m ≠ .msgNotSet) : 0 < (pb.serialize m).length := by
  rw [h m]
  refine List.length_pos_iff.mpr ?_
  cases m with
  | msgNotSet => exact absurd rfl hm
  | response r | request r =>
    rw [WrappedMessage.encode, WrappedMessage.case, encodeOneof, encodeFields_cons]
    exact List.append_ne_nil_of_left_ne_nil (encodeField_ne_nil _) _

end Elegram
