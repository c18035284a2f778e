import Elegram.Protocol.CodedInput
import Elegram.Protocol.Proto3

/-!
# The generated message classes

For each message of `messages.proto` the generated code has a parser,
`MergePartialFromCodedStream`, which merges what it reads into the message it is called on;
`MergeFrom`, which merges another message of the class; and `ByteSize`. They are written out here:
the parser of a class is the loop of `TagLoop` over the table of the class, and a table has one
entry for each case of the class's switch, with the tag that the case tests.

The classes whose only field is a `oneof` or a repeated field are represented by the values of that
field, as in `Messages`.
-/

namespace Elegram

open Wire TagLoop

section

variable (rt : CodedInputStream) (hints : Hints rt.source)

/-! ### Sizes of fields -/

/-- `WireFormatLite::StringSize`. -/
def stringSize (s : String) : ℕ := (delimited (utf8 s)).length

/-- `WireFormatLite::UInt64Size`. -/
def uint64Size (v : UInt64) : ℕ := (varint v.toNat).length

/-- `WireFormatLite::EnumSize`. -/
def enumSize (v : Int32) : ℕ := (varint (signExtend v)).length

/-- `WireFormatLite::MessageSizeNoVirtual` of a message with the given `ByteSize`. -/
def messageSize (byteSize : ℕ) : ℕ := (varint byteSize).length + byteSize

/-! ### Requests -/

/-- A new `RegisterRequest`: a string field is empty until it is set. -/
def RegisterRequest.default : RegisterRequest := { name := "", email := "", password := "" }

/-- The switch of `RegisterRequest`: the cases test the tags 10, 18 and 26. -/
def RegisterRequest.fields : Table rt.source RegisterRequest where
  entries := [
    rt.string 1 10 (by decide) fun name m => { m with name },
    rt.string 2 18 (by decide) fun email m => { m with email },
    rt.string 3 26 (by decide) fun password m => { m with password }]
  nodup := by simp [CodedInputStream.string]

def RegisterRequest.mergePartialFromCodedStream :
    RegisterRequest → Input → Option (RegisterRequest × Bool) :=
  parse hints (fields rt)

/-- `RegisterRequest::MergeFrom`: an empty string of the source changes nothing. -/
def RegisterRequest.mergeFrom (m source : RegisterRequest) : RegisterRequest where
  name := if source.name = "" then m.name else source.name
  email := if source.email = "" then m.email else source.email
  password := if source.password = "" then m.password else source.password

/-- `RegisterRequest::ByteSize`: an empty string takes no bytes, and a tag takes one. -/
def RegisterRequest.byteSize (m : RegisterRequest) : ℕ :=
  (if m.name = "" then 0 else 1 + stringSize m.name) +
    (if m.email = "" then 0 else 1 + stringSize m.email) +
    (if m.password = "" then 0 else 1 + stringSize m.password)

/-- A new `LoginRequest`. -/
def LoginRequest.default : LoginRequest := { email := "", password := "" }

/-- The switch of `LoginRequest`. -/
def LoginRequest.fields : Table rt.source LoginRequest where
  entries := [
    rt.string 1 10 (by decide) fun email m => { m with email },
    rt.string 2 18 (by decide) fun password m => { m with password }]
  nodup := by simp [CodedInputStream.string]

def LoginRequest.mergePartialFromCodedStream :
    LoginRequest → Input → Option (LoginRequest × Bool) :=
  parse hints (fields rt)

/-- `LoginRequest::MergeFrom`. -/
def LoginRequest.mergeFrom (m source : LoginRequest) : LoginRequest where
  email := if source.email = "" then m.email else source.email
  password := if source.password = "" then m.password else source.password

/-- `LoginRequest::ByteSize`. -/
def LoginRequest.byteSize (m : LoginRequest) : ℕ :=
  (if m.email = "" then 0 else 1 + stringSize m.email) +
    (if m.password = "" then 0 else 1 + stringSize m.password)

/-- `AllMyChatsRequest` and `AllMyContactsRequest` have no fields. -/
def noFields : Table rt.source Unit where
  entries := []
  nodup := List.nodup_nil

/-- All that is read is skipped. -/
def AllMyChatsRequest.mergePartialFromCodedStream : Unit → Input → Option (Unit × Bool) :=
  parse hints (noFields rt)

def AllMyContactsRequest.mergePartialFromCodedStream : Unit → Input → Option (Unit × Bool) :=
  parse hints (noFields rt)

def MessagesRequest.default : MessagesRequest := { chatId := 0 }

/-- The switch of `MessagesRequest`: one varint. -/
def MessagesRequest.fields : Table rt.source MessagesRequest where
  entries := [rt.uint64 1 8 (by decide) fun chatId m => { m with chatId }]
  nodup := List.nodup_singleton _

def MessagesRequest.mergePartialFromCodedStream :
    MessagesRequest → Input → Option (MessagesRequest × Bool) :=
  parse hints (fields rt)

/-- `MessagesRequest::MergeFrom`: a zero of the source changes nothing. -/
def MessagesRequest.mergeFrom (m source : MessagesRequest) : MessagesRequest where
  chatId := if source.chatId = 0 then m.chatId else source.chatId

/-- `MessagesRequest::ByteSize`: a zero takes no bytes. -/
def MessagesRequest.byteSize (m : MessagesRequest) : ℕ :=
  if m.chatId = 0 then 0 else 1 + uint64Size m.chatId

/-- The switch of `MessageToSend`: a varint and a string. -/
def MessageToSend.fields : Table rt.source MessageToSend where
  entries := [
    rt.uint64 1 8 (by decide) fun chatId m => { m with chatId },
    rt.string 2 18 (by decide) fun text m => { m with text }]
  nodup := by simp [CodedInputStream.string, CodedInputStream.uint64, CodedInputStream.primitive]

def MessageToSend.mergePartialFromCodedStream :
    MessageToSend → Input → Option (MessageToSend × Bool) :=
  parse hints (fields rt)

/-- `MessageToSend::MergeFrom`. -/
def MessageToSend.mergeFrom (m source : MessageToSend) : MessageToSend where
  chatId := if source.chatId = 0 then m.chatId else source.chatId
  text := if source.text = "" then m.text else source.text

/-- `MessageToSend::ByteSize`. -/
def MessageToSend.byteSize (m : MessageToSend) : ℕ :=
  (if m.chatId = 0 then 0 else 1 + uint64Size m.chatId) +
    (if m.text = "" then 0 else 1 + stringSize m.text)

/-- A new `SendMessageRequest`: `mesg_` is a null pointer. -/
def SendMessageRequest.default : SendMessageRequest := { mesg := none }

/-- `mutable_mesg()`: a new message if there is none. -/
def SendMessageRequest.mutableMesg (m : SendMessageRequest) : MessageToSend :=
  m.mesg.getD .default

/-- The switch of `SendMessageRequest`: a message read twice is merged into what is there. -/
def SendMessageRequest.fields : Table rt.source SendMessageRequest where
  entries := [rt.message false 1 10 (by decide) mutableMesg (fun mesg m => { m with mesg })
    (MessageToSend.mergePartialFromCodedStream rt hints)]
  nodup := List.nodup_singleton _

def SendMessageRequest.mergePartialFromCodedStream :
    SendMessageRequest → Input → Option (SendMessageRequest × Bool) :=
  parse hints (fields rt hints)

/-- `SendMessageRequest::MergeFrom`. -/
def SendMessageRequest.mergeFrom (m source : SendMessageRequest) : SendMessageRequest :=
  match source.mesg with
  | some mesg => { m with mesg := some (m.mutableMesg.mergeFrom mesg) }
  | none => m

/-- `SendMessageRequest::ByteSize`: a message that is there is counted even if it is empty. -/
def SendMessageRequest.byteSize (m : SendMessageRequest) : ℕ :=
  match m.mesg with
  | some mesg => 1 + messageSize mesg.byteSize
  | none => 0

def AddContactRequest.default : AddContactRequest := { email := "" }

/-- The switch of `AddContactRequest`. -/
def AddContactRequest.fields : Table rt.source AddContactRequest where
  entries := [rt.string 1 10 (by decide) fun email m => { m with email }]
  nodup := List.nodup_singleton _

def AddContactRequest.mergePartialFromCodedStream :
    AddContactRequest → Input → Option (AddContactRequest × Bool) :=
  parse hints (fields rt)

/-- `AddContactRequest::MergeFrom`. -/
def AddContactRequest.mergeFrom (m source : AddContactRequest) : AddContactRequest where
  email := if source.email = "" then m.email else source.email

/-- `AddContactRequest::ByteSize`. -/
def AddContactRequest.byteSize (m : AddContactRequest) : ℕ :=
  if m.email = "" then 0 else 1 + stringSize m.email

def CreateChatRequest.default : CreateChatRequest := { friendId := 0 }

/-- The switch of `CreateChatRequest`. -/
def CreateChatRequest.fields : Table rt.source CreateChatRequest where
  entries := [rt.uint64 1 8 (by decide) fun friendId m => { m with friendId }]
  nodup := List.nodup_singleton _

def CreateChatRequest.mergePartialFromCodedStream :
    CreateChatRequest → Input → Option (CreateChatRequest × Bool) :=
  parse hints (fields rt)

/-- `CreateChatRequest::MergeFrom`. -/
def CreateChatRequest.mergeFrom (m source : CreateChatRequest) : CreateChatRequest where
  friendId := if source.friendId = 0 then m.friendId else source.friendId

/-- `CreateChatRequest::ByteSize`. -/
def CreateChatRequest.byteSize (m : CreateChatRequest) : ℕ :=
  if m.friendId = 0 then 0 else 1 + uint64Size m.friendId

namespace Request

/-! The `mutable_..` accessors: where another case of the `oneof` is set, that one is cleared and a
new message takes its place. -/

/-- `mutable_register_request()`. -/
def mutableRegisterRequest : Request → RegisterRequest
  | registerRequest m => m
  | _ => .default

def mutableLoginRequest : Request → LoginRequest
  | loginRequest m => m
  | _ => .default

def mutableMessagesRequest : Request → MessagesRequest
  | messagesRequest m => m
  | _ => .default

def mutableSendMesgRequest : Request → SendMessageRequest
  | sendMesgRequest m => m
  | _ => .default

def mutableAddContactRequest : Request → AddContactRequest
  | addContactRequest m => m
  | _ => .default

def mutableCreateChatRequest : Request → CreateChatRequest
  | createChatRequest m => m
  | _ => .default

/-- The switch of `Request`: one case for each member of the `oneof`. -/
def fields : Table rt.source Request where
  entries := [
    rt.message false 1 10 (by decide) mutableRegisterRequest (fun m _ => registerRequest m)
      (RegisterRequest.mergePartialFromCodedStream rt hints),
    rt.message false 2 18 (by decide) mutableLoginRequest (fun m _ => loginRequest m)
      (LoginRequest.mergePartialFromCodedStream rt hints),
    rt.message false 3 26 (by decide) (fun _ => ()) (fun _ _ => chatsRequest)
      (AllMyChatsRequest.mergePartialFromCodedStream rt hints),
    rt.message false 4 34 (by decide) (fun _ => ()) (fun _ _ => contactsRequest)
      (AllMyContactsRequest.mergePartialFromCodedStream rt hints),
    rt.message false 5 42 (by decide) mutableMessagesRequest (fun m _ => messagesRequest m)
      (MessagesRequest.mergePartialFromCodedStream rt hints),
    rt.message false 6 50 (by decide) mutableSendMesgRequest (fun m _ => sendMesgRequest m)
      (SendMessageRequest.mergePartialFromCodedStream rt hints),
    rt.message false 7 58 (by decide) mutableAddContactRequest (fun m _ => addContactRequest m)
      (AddContactRequest.mergePartialFromCodedStream rt hints),
    rt.message false 8 66 (by decide) mutableCreateChatRequest (fun m _ => createChatRequest m)
      (CreateChatRequest.mergePartialFromCodedStream rt hints)]
  nodup := by simp [CodedInputStream.message]

def mergePartialFromCodedStream : Request → Input → Option (Request × Bool) :=
  parse hints (fields rt hints)

/-- `Request::MergeFrom`: the case of the source becomes the case of the message. -/
def mergeFrom (m : Request) : Request → Request
  | registerRequest source => registerRequest (m.mutableRegisterRequest.mergeFrom source)
  | loginRequest source => loginRequest (m.mutableLoginRequest.mergeFrom source)
  | chatsRequest => chatsRequest
  | contactsRequest => contactsRequest
  | messagesRequest source => messagesRequest (m.mutableMessagesRequest.mergeFrom source)
  | sendMesgRequest source => sendMesgRequest (m.mutableSendMesgRequest.mergeFrom source)
  | addContactRequest source => addContactRequest (m.mutableAddContactRequest.mergeFrom source)
  | createChatRequest source => createChatRequest (m.mutableCreateChatRequest.mergeFrom source)
  | msgNotSet => m

/-- `Request::ByteSize`: no case takes no bytes. -/
def byteSize : Request → ℕ
  | registerRequest m => 1 + messageSize m.byteSize
  | loginRequest m => 1 + messageSize m.byteSize
  | chatsRequest => 1 + messageSize 0
  | contactsRequest => 1 + messageSize 0
  | messagesRequest m => 1 + messageSize m.byteSize
  | sendMesgRequest m => 1 + messageSize m.byteSize
  | addContactRequest m => 1 + messageSize m.byteSize
  | createChatRequest m => 1 + messageSize m.byteSize
  | msgNotSet => 0

end Request

/-! ### Responses -/

namespace StatusResponse

/-- `set_result(static_cast<StatusResponse_RESULT>(value))`: whatever has been read is kept. -/
def fields : Table rt.source StatusResult where
  entries := [rt.enum 1 8 (by decide) fun value m => { m with value }]
  nodup := List.nodup_singleton _

def mergePartialFromCodedStream : StatusResult → Input → Option (StatusResult × Bool) :=
  parse hints (fields rt)

/-- `StatusResponse::MergeFrom`: zero is `ACCEPTED`, the default. -/
def mergeFrom (m source : StatusResult) : StatusResult where
  value := if source.value = 0 then m.value else source.value

/-- `StatusResponse::ByteSize`. -/
def byteSize (m : StatusResult) : ℕ := if m.value = 0 then 0 else 1 + enumSize m.value

end StatusResponse

def Chat.default : Chat := { chatId := 0, title := "" }

/-- The switch of `Chat`. -/
def Chat.fields : Table rt.source Chat where
  entries := [
    rt.uint64 1 8 (by decide) fun chatId m => { m with chatId },
    rt.string 2 18 (by decide) fun title m => { m with title }]
  nodup := by simp [CodedInputStream.string, CodedInputStream.uint64, CodedInputStream.primitive]

def Chat.mergePartialFromCodedStream : Chat → Input → Option (Chat × Bool) :=
  parse hints (fields rt)

/-- `Chat::MergeFrom`. -/
def Chat.mergeFrom (m source : Chat) : Chat where
  chatId := if source.chatId = 0 then m.chatId else source.chatId
  title := if source.title = "" then m.title else source.title

/-- `Chat::ByteSize`. -/
def Chat.byteSize (m : Chat) : ℕ :=
  (if m.chatId = 0 then 0 else 1 + uint64Size m.chatId) +
    (if m.title = "" then 0 else 1 + stringSize m.title)

def Contact.default : Contact := { userId := 0, name := "", email := "" }

/-- The switch of `Contact`. -/
def Contact.fields : Table rt.source Contact where
  entries := [
    rt.uint64 1 8 (by decide) fun userId m => { m with userId },
    rt.string 2 18 (by decide) fun name m => { m with name },
    rt.string 3 26 (by decide) fun email m => { m with email }]
  nodup := by simp [CodedInputStream.string, CodedInputStream.uint64, CodedInputStream.primitive]

def Contact.mergePartialFromCodedStream : Contact → Input → Option (Contact × Bool) :=
  parse hints (fields rt)

/-- `Contact::MergeFrom`. -/
def Contact.mergeFrom (m source : Contact) : Contact where
  userId := if source.userId = 0 then m.userId else source.userId
  name := if source.name = "" then m.name else source.name
  email := if source.email = "" then m.email else source.email

/-- `Contact::ByteSize`. -/
def Contact.byteSize (m : Contact) : ℕ :=
  (if m.userId = 0 then 0 else 1 + uint64Size m.userId) +
    (if m.name = "" then 0 else 1 + stringSize m.name) +
    (if m.email = "" then 0 else 1 + stringSize m.email)

def MessageToRecieve.default : MessageToRecieve := { senderId := 0, text := "" }

/-- The switch of `MessageToRecieve`. -/
def MessageToRecieve.fields : Table rt.source MessageToRecieve where
  entries := [
    rt.uint64 1 8 (by decide) fun senderId m => { m with senderId },
    rt.string 2 18 (by decide) fun text m => { m with text }]
  nodup := by simp [CodedInputStream.string, CodedInputStream.uint64, CodedInputStream.primitive]

def MessageToRecieve.mergePartialFromCodedStream :
    MessageToRecieve → Input → Option (MessageToRecieve × Bool) :=
  parse hints (fields rt)

/-- `MessageToRecieve::MergeFrom`. -/
def MessageToRecieve.mergeFrom (m source : MessageToRecieve) : MessageToRecieve where
  senderId := if source.senderId = 0 then m.senderId else source.senderId
  text := if source.text = "" then m.text else source.text

/-- `MessageToRecieve::ByteSize`. -/
def MessageToRecieve.byteSize (m : MessageToRecieve) : ℕ :=
  (if m.senderId = 0 then 0 else 1 + uint64Size m.senderId) +
    (if m.text = "" then 0 else 1 + stringSize m.text)

/-- The table of a class whose only field is `repeated .. = 1`. Each item goes into a new message
at the end. -/
def repeatedFields {V : Type} (new : V) (merge : V → Input → Option (V × Bool)) :
    Table rt.source (List V) where
  entries := [rt.message true 1 10 (by decide) (fun _ => new) (fun v vs => vs ++ [v]) merge]
  nodup := List.nodup_singleton _

/-- `ChatsResponse::MergePartialFromCodedStream`. -/
def ChatsResponse.mergePartialFromCodedStream : List Chat → Input → Option (List Chat × Bool) :=
  parse hints (repeatedFields rt .default (Chat.mergePartialFromCodedStream rt hints))

/-- `ContactsResponse::MergePartialFromCodedStream`. -/
def ContactsResponse.mergePartialFromCodedStream :
    List Contact → Input → Option (List Contact × Bool) :=
  parse hints (repeatedFields rt .default (Contact.mergePartialFromCodedStream rt hints))

/-- `MessagesResponse::MergePartialFromCodedStream`. -/
def MessagesResponse.mergePartialFromCodedStream :
    List MessageToRecieve → Input → Option (List MessageToRecieve × Bool) :=
  parse hints (repeatedFields rt .default (MessageToRecieve.mergePartialFromCodedStream rt hints))

/-- `ByteSize` of a class whose only field is `repeated .. = 1`. -/
def repeatedByteSize {V : Type} (byteSize : V → ℕ) (items : List V) : ℕ :=
  1 * items.length + (items.map fun v => messageSize (byteSize v)).sum

def ChatsResponse.byteSize : List Chat → ℕ := repeatedByteSize Chat.byteSize

def ContactsResponse.byteSize : List Contact → ℕ := repeatedByteSize Contact.byteSize

def MessagesResponse.byteSize : List MessageToRecieve → ℕ :=
  repeatedByteSize MessageToRecieve.byteSize

namespace LoginResponse

/-- `mutable_profile()`. -/
def mutableProfile (m : Option Contact) : Contact := m.getD .default

/-- The switch of `LoginResponse`. -/
def fields : Table rt.source (Option Contact) where
  entries := [rt.message false 1 10 (by decide) mutableProfile (fun profile _ => some profile)
    (Contact.mergePartialFromCodedStream rt hints)]
  nodup := List.nodup_singleton _

def mergePartialFromCodedStream : Option Contact → Input → Option (Option Contact × Bool) :=
  parse hints (fields rt hints)

/-- `LoginResponse::MergeFrom`: a profile is merged into the one that is there. -/
def mergeFrom (m : Option Contact) : Option Contact → Option Contact
  | some profile => some ((mutableProfile m).mergeFrom profile)
  | none => m

/-- `LoginResponse::ByteSize`. -/
def byteSize : Option Contact → ℕ
  | some profile => 1 + messageSize profile.byteSize
  | none => 0

end LoginResponse

namespace Response

/-- `mutable_status_response()`. -/
def mutableStatusResponse : Response → StatusResult
  | statusResponse result => result
  | _ => .accepted

def mutableChatsResponse : Response → List Chat
  | chatsResponse chats => chats
  | _ => []

def mutableContactsResponse : Response → List Contact
  | contactsResponse contacts => contacts
  | _ => []

def mutableMessagesResponse : Response → List MessageToRecieve
  | messagesResponse messages => messages
  | _ => []

def mutableLoginResponse : Response → Option Contact
  | loginResponse profile => profile
  | _ => none

/-- The switch of `Response`: one case for each member of the `oneof`. -/
def fields : Table rt.source Response where
  entries := [
    rt.message false 1 10 (by decide) mutableStatusResponse (fun m _ => statusResponse m)
      (StatusResponse.mergePartialFromCodedStream rt hints),
    rt.message false 2 18 (by decide) mutableChatsResponse (fun m _ => chatsResponse m)
      (ChatsResponse.mergePartialFromCodedStream rt hints),
    rt.message false 3 26 (by decide) mutableContactsResponse (fun m _ => contactsResponse m)
      (ContactsResponse.mergePartialFromCodedStream rt hints),
    rt.message false 4 34 (by decide) mutableMessagesResponse (fun m _ => messagesResponse m)
      (MessagesResponse.mergePartialFromCodedStream rt hints),
    rt.message false 5 42 (by decide) mutableLoginResponse (fun m _ => loginResponse m)
      (LoginResponse.mergePartialFromCodedStream rt hints)]
  nodup := by simp [CodedInputStream.message]

def mergePartialFromCodedStream : Response → Input → Option (Response × Bool) :=
  parse hints (fields rt hints)

/-- `Response::MergeFrom`: the items of a list are put behind those that are there. -/
def mergeFrom (m : Response) : Response → Response
  | statusResponse source =>
      statusResponse (StatusResponse.mergeFrom m.mutableStatusResponse source)
  | chatsResponse source => chatsResponse (m.mutableChatsResponse ++ source)
  | contactsResponse source => contactsResponse (m.mutableContactsResponse ++ source)
  | messagesResponse source => messagesResponse (m.mutableMessagesResponse ++ source)
  | loginResponse source => loginResponse (LoginResponse.mergeFrom m.mutableLoginResponse source)
  | msgNotSet => m

/-- `Response::ByteSize`. -/
def byteSize : Response → ℕ
  | statusResponse m => 1 + messageSize (StatusResponse.byteSize m)
  | chatsResponse m => 1 + messageSize (ChatsResponse.byteSize m)
  | contactsResponse m => 1 + messageSize (ContactsResponse.byteSize m)
  | messagesResponse m => 1 + messageSize (MessagesResponse.byteSize m)
  | loginResponse m => 1 + messageSize (LoginResponse.byteSize m)
  | msgNotSet => 0

end Response

/-! ### Frames -/

namespace WrappedMessage

def mutableResponse : WrappedMessage → Response
  | response mesg => mesg
  | _ => .msgNotSet

def mutableRequest : WrappedMessage → Request
  | request mesg => mesg
  | _ => .msgNotSet

/-- The switch of `WrappedMessage`. -/
def fields : Table rt.source WrappedMessage where
  entries := [
    rt.message false 1 10 (by decide) mutableResponse (fun m _ => response m)
      (Response.mergePartialFromCodedStream rt hints),
    rt.message false 2 18 (by decide) mutableRequest (fun m _ => request m)
      (Request.mergePartialFromCodedStream rt hints)]
  nodup := by simp [CodedInputStream.message]

def mergePartialFromCodedStream : WrappedMessage → Input → Option (WrappedMessage × Bool) :=
  parse hints (fields rt hints)

/-- `WrappedMessage::MergeFrom`. -/
def mergeFrom (m : WrappedMessage) : WrappedMessage → WrappedMessage
  | response source => response (m.mutableResponse.mergeFrom source)
  | request source => request (m.mutableRequest.mergeFrom source)
  | msgNotSet => m

/-- `WrappedMessage::ByteSize`, the number that a frame is announced with. -/
def byteSize : WrappedMessage → ℕ
  | response m => 1 + messageSize m.byteSize
  | request m => 1 + messageSize m.byteSize
  | msgNotSet => 0

end WrappedMessage

/-- The switch of `LengthPrefix`: the only `fixed64` of the protocol. -/
def LengthPrefix.fields : Table rt.source UInt64 where
  entries := [rt.fixed64 1 9 (by decide) fun length _ => length]
  nodup := List.nodup_singleton _

def LengthPrefix.mergePartialFromCodedStream : UInt64 → Input → Option (UInt64 × Bool) :=
  parse hints (fields rt)

/-- `ParseFromArray`: the message is cleared, the input is merged into it, and the parser must have
stopped at the end. -/
def parseFromArray {M : Type} (merge : M → Input → Option (M × Bool)) (clear : M)
    (data : List UInt8) : Option M :=
  (merge clear ⟨data, RECURSION_LIMIT⟩).bind fun p => if p.2 then some p.1 else none

/-- `ParseFromArray` of a `WrappedMessage`, as both parties call it on the bytes of a frame. -/
def WrappedMessage.parseFromArray : List UInt8 → Option WrappedMessage :=
  Elegram.parseFromArray (mergePartialFromCodedStream rt hints) msgNotSet

/-- `ParseFromArray` of a `LengthPrefix`, on the bytes in front of a frame. -/
def LengthPrefix.parseFromArray : List UInt8 → Option UInt64 :=
  Elegram.parseFromArray (mergePartialFromCodedStream rt hints) 0

end

end Elegram
