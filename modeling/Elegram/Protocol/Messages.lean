import Mathlib.Tactic.Common

/-!
# The messages of the protocol

The records of `messages.proto`, one Lean type for each message. A `oneof` is an inductive type
with one constructor for each case and `msgNotSet` for the message that has none of them set; a
submessage whose presence the program tests is an `Option`. Identifiers are `uint64` on the wire
and stay `UInt64` here.
-/

namespace Elegram

/-! ### Requests -/

structure RegisterRequest where
  name : String
  email : String
  password : String
  deriving DecidableEq, Repr

structure LoginRequest where
  email : String
  password : String
  deriving DecidableEq, Repr

structure MessagesRequest where
  chatId : UInt64
  deriving DecidableEq, Repr

structure MessageToSend where
  chatId : UInt64
  text : String
  deriving DecidableEq, Repr

/-- The default instance that the accessor of an absent submessage returns. -/
def MessageToSend.default : MessageToSend := { chatId := 0, text := "" }

/-- The message may be absent. -/
structure SendMessageRequest where
  mesg : Option MessageToSend
  deriving DecidableEq, Repr

structure AddContactRequest where
  email : String
  deriving DecidableEq, Repr

/-- The user to have a chat with. -/
structure CreateChatRequest where
  friendId : UInt64
  deriving DecidableEq, Repr

/-- The `oneof` of `Request`. -/
inductive Request
  | registerRequest (mesg : RegisterRequest)
  | loginRequest (mesg : LoginRequest)
  | chatsRequest
  | contactsRequest
  | messagesRequest (mesg : MessagesRequest)
  | sendMesgRequest (mesg : SendMessageRequest)
  | addContactRequest (mesg : AddContactRequest)
  | createChatRequest (mesg : CreateChatRequest)
  | msgNotSet
  deriving DecidableEq, Repr

/-! ### Responses -/

/-- `StatusResponse.RESULT`. The class keeps any `int` that a peer has sent. -/
structure StatusResult where
  value : Int32
  deriving DecidableEq, Repr

namespace StatusResult

/-- `StatusResponse_RESULT_ACCEPTED`, the default value. -/
def accepted : StatusResult := ⟨0⟩

/-- `StatusResponse_RESULT_REJECTED`. -/
def rejected : StatusResult := ⟨1⟩

end StatusResult

/-- A chat, with the title that it has for the receiver. -/
structure Chat where
  chatId : UInt64
  title : String
  deriving DecidableEq, Repr

/-- A contact of the receiver, or the profile of the receiver. -/
structure Contact where
  userId : UInt64
  name : String
  email : String
  deriving DecidableEq, Repr

/-- A message of a chat that the receiver has asked for. -/
structure MessageToRecieve where
  senderId : UInt64
  text : String
  deriving DecidableEq, Repr

/-- The `oneof` of `Response`. The profile of a login response is itself optional: a refused
login carries none. -/
inductive Response
  | statusResponse (result : StatusResult)
  | chatsResponse (chats : List Chat)
  | contactsResponse (contacts : List Contact)
  | messagesResponse (messages : List MessageToRecieve)
  | loginResponse (profile : Option Contact)
  | msgNotSet
  deriving DecidableEq, Repr

/-- What travels in one frame. -/
inductive WrappedMessage
  | response (mesg : Response)
  | request (mesg : Request)
  | msgNotSet
  deriving DecidableEq, Repr

end Elegram
