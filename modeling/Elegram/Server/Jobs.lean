import Elegram.Protocol.Messages

/-!
# Storage calls and request jobs

A request job is a function object that a worker thread runs. What it does to the rest of the
server is a sequence of operations: calls of the session's storage connection, reads and writes
of the session's login state, and `ClientSession::write`. `JobM` is the type of such programs:
each operation carries the continuation that receives its result, so that a machine can run a job
one operation at a time between the steps of other threads.

The jobs themselves are then written in the order of the source. The five jobs that answer only
logged-in users differ in the call they make and in the response they build; they share
`whenLoggedIn`.
-/

namespace Elegram

/-! ### The storage interface -/

/-- The functions of `AbstractStorageConnection`, with their arguments. -/
inductive StorageCall
  | registration (name email password : String)
  | login (email password : String)
  | sendMessage (senderId : UInt64) (mesg : MessageToSend)
  | addContact (userId : UInt64) (email : String)
  | createChat (userId : UInt64) (userName : String) (friendId : UInt64)
  | getChats (userId : UInt64)
  | getContacts (userId : UInt64)
  | getMessages (chatId : UInt64)
  deriving DecidableEq, Repr

/-- What `login` throws: `std::invalid_argument` for wrong credentials, and anything else. -/
inductive LoginError
  | invalidArgument
  | other
  deriving DecidableEq, Repr

/-- The result type of a storage function. Only `login` throws. -/
abbrev StorageCall.Result : StorageCall → Type
  | .registration .. | .sendMessage .. | .addContact .. | .createChat .. => Bool
  | .login .. => Except LoginError (UInt64 × String)
  | .getChats .. => List Chat
  | .getContacts .. => List Contact
  | .getMessages .. => List MessageToRecieve

/-- A storage whose database is down. -/
def StorageCall.failure : (c : StorageCall) → c.Result
  | .registration .. | .sendMessage .. | .addContact .. | .createChat .. => false
  | .login .. => .error .other
  | .getChats .. => []
  | .getContacts .. => []
  | .getMessages .. => []

/-- The profile of a client, kept in the session to save storage accesses. -/
structure ClientState where
  userId : UInt64
  userName : String
  email : String
  deriving DecidableEq, Repr

/-! ### Programs of a job -/

/-- A program over the operations that a job performs on its session. -/
inductive JobM (α : Type) : Type
  | pure (a : α)
  /-- A call of the storage connection. -/
  | call (c : StorageCall) (k : c.Result → JobM α)
  /-- `ClientSession::logged_in`. -/
  | loggedIn (k : Bool → JobM α)
  /-- `ClientSession::state`, which asserts that there is a state. -/
  | state (k : ClientState → JobM α)
  /-- `ClientSession::set_state`. -/
  | setState (st : ClientState) (k : JobM α)
  /-- `ClientSession::write`. -/
  | write (mesg : WrappedMessage) (k : JobM α)

namespace JobM

variable {α β : Type}

protected def bind : JobM α → (α → JobM β) → JobM β
  | .pure a, f => f a
  | .call c k, f => .call c fun r => (k r).bind f
  | .loggedIn k, f => .loggedIn fun b => (k b).bind f
  | .state k, f => .state fun st => (k st).bind f
  | .setState st k, f => .setState st (k.bind f)
  | .write mesg k, f => .write mesg (k.bind f)

instance : Monad JobM where
  pure := .pure
  bind := JobM.bind

end JobM

/-! ### The jobs -/

section Jobs

open JobM

/-- The operations as programs. -/
def storage (c : StorageCall) : JobM c.Result := .call c .pure

def loggedIn : JobM Bool := .loggedIn .pure

def state : JobM ClientState := .state .pure

/-- The state that the session keeps for its user is replaced. -/
def setState (st : ClientState) : JobM Unit := .setState st (.pure ())

def write (response : Response) : JobM Unit := .write (.response response) (.pure ())

/-- The `StatusResponse` that reports a boolean result. -/
def statusResponse (result : Bool) : Response :=
  .statusResponse (if result then .accepted else .rejected)

/-- `RegisterRequestJob`: the only request besides the login that needs none. -/
def registerRequestJob (mesg : RegisterRequest) : JobM Unit := do
  let registerRes ← storage (.registration mesg.name mesg.email mesg.password)
  write (statusResponse registerRes)

/-- Both `catch` blocks of the source leave the profile out of the response. -/
def loginRequestJob (mesg : LoginRequest) : JobM Unit := do
  match ← storage (.login mesg.email mesg.password) with
  | .ok (userId, userName) =>
      setState { userId := userId, userName := userName, email := mesg.email }
      let st ← state
      write (.loginResponse
        (some { userId := st.userId, name := st.userName, email := st.email }))
  | .error .invalidArgument => write (.loginResponse none)
  | .error .other => write (.loginResponse none)

/-- The common form of the other jobs: a session that has not logged in gets an empty response. -/
def whenLoggedIn (body : JobM Response) : JobM Unit := do
  if ← loggedIn then
    let response ← body
    write response
  else
    write .msgNotSet

/-- `ChatsRequestJob`. -/
def chatsRequestJob : JobM Unit := whenLoggedIn do
  let userId := (← state).userId
  let chats ← storage (.getChats userId)
  return .chatsResponse chats

def contactsRequestJob : JobM Unit := whenLoggedIn do
  let userId := (← state).userId
  let contacts ← storage (.getContacts userId)
  return .contactsResponse contacts

/-- `MessagesRequestJob`: the chat is not checked. -/
def messagesRequestJob (mesg : MessagesRequest) : JobM Unit := whenLoggedIn do
  let messages ← storage (.getMessages mesg.chatId)
  return .messagesResponse messages

/-- The accessor `mesg()` of a request without a message returns the default instance. -/
def sendMesgRequestJob (mesg : SendMessageRequest) : JobM Unit := whenLoggedIn do
  let sendRes ← storage (.sendMessage (← state).userId (mesg.mesg.getD .default))
  return statusResponse sendRes

def addContactRequestJob (mesg : AddContactRequest) : JobM Unit := whenLoggedIn do
  let sendRes ← storage (.addContact (← state).userId mesg.email)
  return statusResponse sendRes

/-- `CreateChatRequestJob`. -/
def createChatRequestJob (mesg : CreateChatRequest) : JobM Unit := whenLoggedIn do
  let userId := (← state).userId
  let userName := (← state).userName
  let isCreated ← storage (.createChat userId userName mesg.friendId)
  return statusResponse isCreated

/-- The job that `ParseCommandJob` posts for a request, if it supports the request. -/
def requestJob : Request → Option (JobM Unit)
  | .registerRequest mesg => some (registerRequestJob mesg)
  | .loginRequest mesg => some (loginRequestJob mesg)
  | .chatsRequest => some chatsRequestJob
  | .contactsRequest => some contactsRequestJob
  | .messagesRequest mesg => some (messagesRequestJob mesg)
  | .sendMesgRequest mesg => some (sendMesgRequestJob mesg)
  | .addContactRequest mesg => some (addContactRequestJob mesg)
  | .createChatRequest mesg => some (createChatRequestJob mesg)
  | .msgNotSet => none

end Jobs

end Elegram
