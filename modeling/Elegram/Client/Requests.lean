import Elegram.Client.Framing
import Elegram.Protocol.Proto3

/-!
# The client's requests

`MessageFactory` builds the requests of the client, and `Session::request` writes them: prefix and
message are serialised into `m_buffer`, which is then written to the socket as a whole. What the
buffer held before, be it an earlier request or a response, does not matter (`request_eq`).
-/

namespace Elegram

/-! ### The factory -/

namespace MessageFactory

/-- `MessageFactory::createLoginRequest`. -/
def createLoginRequest (email password : String) : Request :=
  .loginRequest { email := email, password := password }

def createRegisterRequest (name email password : String) : Request :=
  .registerRequest { name := name, email := email, password := password }

/-- `MessageFactory::createAllMyChatsRequest`: the case is set, to an empty message. -/
def createAllMyChatsRequest : Request := .chatsRequest

def createAllMyContactsRequest : Request := .contactsRequest

/-- `MessageFactory::createLoadMessagesRequest`. -/
def createLoadMessagesRequest (chatId : UInt64) : Request := .messagesRequest { chatId := chatId }

/-- `MessageFactory::createSendMessageRequest`. -/
def createSendMessageRequest (chatId : UInt64) (text : String) : Request :=
  .sendMesgRequest { mesg := some { chatId := chatId, text := text } }

def createAddContactRequest (email : String) : Request := .addContactRequest { email := email }

def createCreateChatRequest (friendId : UInt64) : Request :=
  .createChatRequest { friendId := friendId }

/-- The requests that the factory builds. -/
inductive Built : Request → Prop
  | login (email password : String) : Built (createLoginRequest email password)
  | register (name email password : String) : Built (createRegisterRequest name email password)
  | chats : Built createAllMyChatsRequest
  | contacts : Built createAllMyContactsRequest
  | loadMessages (chatId : UInt64) : Built (createLoadMessagesRequest chatId)
  | sendMessage (chatId : UInt64) (text : String) : Built (createSendMessageRequest chatId text)
  | addContact (email : String) : Built (createAddContactRequest email)
  | createChat (friendId : UInt64) : Built (createCreateChatRequest friendId)

end MessageFactory

/-! ### Writing -/

namespace Session

variable (pb : Protobuf)

/-- What `Session::request` writes when the socket is connected, and the session afterwards. The
size of the buffer is computed in `int`, where an overflow is undefined. -/
def request (request : Request) (s : Session) : Option (List UInt8 × Session) :=
  let mesg := WrappedMessage.request request
  let byteSize := toInt (pb.serialize mesg).length
  if byteSize + PREFIX_SIZE < 2 ^ 31 then
    (resize s.buffer (byteSize + PREFIX_SIZE)).map fun buffer =>
      let buffer := serializeInto 0 PREFIX_SIZE (serializePrefix (UInt64.ofInt byteSize)) buffer
      let buffer := serializeInto PREFIX_SIZE byteSize (pb.serialize mesg) buffer
      (buffer, { s with buffer := buffer })
  else none

variable {pb}

/-- A request of ordinary size is written as its frame. -/
theorem request_eq (hpb : pb.Generated) {r : Request}
    (hlt : (pb.serialize (.request r)).length < 2 ^ 31 - 9) (s : Session) :
    s.request pb r = some (pb.frame (.request r), { s with buffer := pb.frame (.request r) }) := by
  have h0 : 0 < (pb.serialize (.request r)).length := hpb.serialize_pos (fun h => by cases h)
  have hlt' : (pb.serialize (.request r)).length < 2 ^ 31 := by omega
  have hsize : toInt (pb.serialize (.request r)).length + PREFIX_SIZE < 2 ^ 31 := by
    rw [toInt_of_lt hlt', PREFIX_SIZE]
    omega
  have hnonneg : (0 : ℤ) ≤ (pb.serialize (.request r)).length + PREFIX_SIZE := by omega
  rw [request, if_pos hsize, toInt_of_lt hlt', resize, if_pos hnonneg]
  have hlen : (s.buffer.takeD ((pb.serialize (.request r)).length + PREFIX_SIZE : ℤ).toNat
      0).length = PREFIX_SIZE + (pb.serialize (.request r)).length := by
    rw [List.takeD_length]
    omega
  have hframe := Protobuf.serializeInto_frame h0 hlt' hlen
  simp only [Option.map_some, hframe]

end Session

end Elegram
