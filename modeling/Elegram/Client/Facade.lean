import Elegram.Client.Lists
import Elegram.Client.Requests
import Elegram.Foundation.Run

/-!
# The client behind its facade

`BackEndFacade`, `Backend`, its jobs and `Session`, at the level of whole frames. Qt delivers
signals synchronously: while the C++ code emits one, the handlers in QML run, and they may call the
facade again. A `Client` therefore carries the stack of what the C++ code still has to do when the
handlers return, and QML is in control in every state of the machine: it may call the facade, return
from its handlers, or, when nothing is on the stack, wait for the next event of the socket.

`log` is kept for the proofs: what has been written to and received from the socket, which callback
was given which response, and which signals were emitted. Requests are numbered, and a callback
carries the number of the request it was given with.
-/

namespace Elegram

open Transition

/-! ### Signals -/

/-- The signals of `Backend`. The facade forwards each of them to QML under a name of its own. -/
inductive Signal
  | loggedIn (status : Bool)
  | registered (status : Bool)
  | loadedChats
  | loadedContacts
  | loadedMessages
  | sendedMessage (status : Bool)
  | addedContact (isAdded : Bool)
  | loadedData
  | updatedConnectionSettings (statusMesg : String)
  | operationAborted (errorMessage : String)
  | showMessage (message : String)
  | chatCreated (isCreated : Bool)
  | disconnected
  deriving DecidableEq, Repr

/-- The handler that `BackEndFacade` connects to the signal calls `setAvailible(true)`. -/
def Signal.unlocks : Signal → Bool
  | .showMessage _ => false
  | _ => true

/-- The errors of a socket that `Session::onError` tells apart. -/
inductive SocketError
  | remoteHostClosedError
  | hostNotFoundError
  | connectionRefusedError
  | other (errorString : String)
  deriving DecidableEq, Repr

/-- What `onError` says about an error, unless the peer has closed the connection. -/
def SocketError.err : SocketError → Option String
  | .remoteHostClosedError => none
  | .hostNotFoundError =>
    some "The host was not found. Please check the host name and port settings."
  | .connectionRefusedError =>
    some ("The connection was refused by the peer. Make sure the Elegram server is running, " ++
      "and check that the host name and port settings are correct.")
  | .other errorString => some ("The following error occurred: " ++ errorString ++ ".")

/-! ### The state -/

/-- The jobs, each with a callback of its own. -/
inductive Job
  | login
  | register
  | loadChats
  | loadContacts
  | loadMessages
  | sendMessage
  | addContact
  | loadData
  | createChat
  deriving DecidableEq, Repr

/-- The callback of a job, and the number of the request that it was given with. -/
structure Callback where
  id : ℕ
  job : Job
  deriving DecidableEq, Repr

structure Client.Profile where
  userId : UInt64
  userName : String
  userEmail : String
  deriving DecidableEq, Repr

/-- The states of a socket that the code tells apart. -/
inductive SocketState
  | unconnected
  | connecting
  | connected
  deriving DecidableEq, Repr

/-- What the C++ code does when the handlers of a signal have returned. -/
inductive Continuation
  | done
  /-- The rest of `Session::connect` and of `Backend::updateConnectionSettings`. -/
  | connectToHost (ip port : String)
  /-- The rest of `BackEndFacade::updateConnectionSettings`. -/
  | setServer (ip port : String)
  deriving DecidableEq, Repr

/-- What is recorded. -/
inductive ClientAction
  | opened
  | closed
  | written (id : ℕ) (mesg : Request)
  /-- A frame has been received. -/
  | received
  /-- The callback given with the request `id` is called with the response. -/
  | answered (id : ℕ) (response : Response)
  /-- A signal is emitted, on behalf of a request if there is a number. -/
  | emitted (id : Option ℕ) (signal : Signal)
  deriving DecidableEq, Repr

structure Client where
  availible : Bool
  serverIp : String
  serverPort : String
  profile : Option Client.Profile
  lists : Lists
  socket : SocketState
  callback : Option Callback
  stack : List Continuation
  /-- The number of requests so far. -/
  requests : ℕ
  log : List ClientAction

namespace Client

/-- The constructor of `Backend` begins to connect, with the default settings. -/
def initial : Client where
  availible := true
  serverIp := "127.0.0.1"
  serverPort := "8000"
  profile := none
  lists := .initial
  socket := .connecting
  callback := none
  stack := []
  requests := 0
  log := []

def record (a : ClientAction) (c : Client) : Client := { c with log := c.log ++ [a] }

/-- Emits a signal. The handler of the facade runs first, and then those in QML. -/
def emit (id : Option ℕ) (signal : Signal) (k : Continuation) (c : Client) : Client :=
  { c with
    availible := signal.unlocks || c.availible
    stack := k :: c.stack
    log := c.log ++ [.emitted id signal] }

/-! ### Session -/

/-- `Session::request`; the frame that is written is that of `Session.request`. -/
def request (mesg : Request) (job : Job) (c : Client) : Client :=
  let id := c.requests
  let c := { c with requests := id + 1 }
  if c.socket = .connected then
    { c with callback := some { id := id, job := job } }.record (.written id mesg)
  else
    c.emit (some id)
      (.operationAborted "Not connected, can't send requests! Check connection settings.") .done

/-- Continues the C++ code. A socket that is already connecting ignores `connectToHost`. -/
def resume (k : Continuation) (c : Client) : Client :=
  match k with
  | .done => c
  | .connectToHost ip port =>
    let socket := if c.socket = .unconnected then .connecting else c.socket
    { c with socket := socket }.emit none (.updatedConnectionSettings "") (.setServer ip port)
  | .setServer ip port => { c with serverIp := ip, serverPort := port }

/-- The connection ends, and `onDisconnection` is called. -/
def disconnect (k : Continuation) (c : Client) : Client :=
  (({ c with socket := .unconnected } : Client).record .closed).emit none .disconnected k

/-- `QAbstractSocket::abort`. -/
def abort (k : Continuation) (c : Client) : Client :=
  if c.socket = .connected then c.disconnect k
  else ({ c with socket := .unconnected } : Client).resume k

/-! ### Jobs -/

/-- A status that reports success; `result()` of an absent status is not asked for. -/
def accepted (response : Response) : Bool := response = .statusResponse .accepted

def loginJob (id : ℕ) (response : Response) (c : Client) : Client :=
  match response with
  | .loginResponse (some profile) =>
    { c with profile := some {
        userId := profile.userId
        userName := profile.name
        userEmail := profile.email } }.emit id (.loggedIn true) .done
  | .loginResponse none => c.emit id (.loggedIn false) .done
  | _ => c.emit id (.loggedIn false) .done

/-- The jobs that only report whether the response is a success. -/
def statusJob (signal : Bool → Signal) (id : ℕ) (response : Response) (c : Client) : Client :=
  c.emit id (signal (accepted response)) .done

def registerJob : ℕ → Response → Client → Client := statusJob .registered

def sendMessageJob : ℕ → Response → Client → Client := statusJob .sendedMessage

def addContactJob : ℕ → Response → Client → Client := statusJob .addedContact

def createChatJob : ℕ → Response → Client → Client := statusJob .chatCreated

def loadChatsJob (id : ℕ) (response : Response) (c : Client) : Client :=
  let c := match response with
    | .chatsResponse chats => { c with lists := c.lists.setChats chats }
    | _ => c
  c.emit id .loadedChats .done

def loadContactsJob (id : ℕ) (response : Response) (c : Client) : Client :=
  let c := match response with
    | .contactsResponse contacts => { c with lists := c.lists.setContacts contacts }
    | _ => c
  c.emit id .loadedContacts .done

def loadMessagesJob (id : ℕ) (response : Response) (c : Client) : Client :=
  let c := match response with
    | .messagesResponse messages => { c with lists := c.lists.setMessages messages }
    | _ => c
  c.emit id .loadedMessages .done

/-- Contacts are followed by a request for the chats, with the same callback. -/
def loadDataJob (id : ℕ) (response : Response) (c : Client) : Client :=
  match response with
  | .contactsResponse contacts =>
    { c with lists := c.lists.setContacts contacts }.request
      MessageFactory.createAllMyChatsRequest .loadData
  | .chatsResponse chats =>
    { c with lists := c.lists.setChats chats }.emit id .loadedData .done
  | _ => c.emit id .loadedData .done

/-- `responseProcessingCallback`. -/
def responseProcessingCallback : Job → ℕ → Response → Client → Client
  | .login => loginJob
  | .register => registerJob
  | .loadChats => loadChatsJob
  | .loadContacts => loadContactsJob
  | .loadMessages => loadMessagesJob
  | .sendMessage => sendMessageJob
  | .addContact => addContactJob
  | .loadData => loadDataJob
  | .createChat => createChatJob

/-- `onReadyRead` for a frame that arrives as a whole: its body, if it parses, goes to
`processResponse`. Calling an empty callback throws. -/
def onReadyRead (body : Option WrappedMessage) (c : Client) : Option Client :=
  let c := c.record .received
  match body with
  | some (.response response) => c.callback.map fun callback =>
    (c.record (.answered callback.id response)).responseProcessingCallback callback.job callback.id
      response
  | some _ => some c
  | none => some (c.abort .done)

end Client

/-! ### The facade -/

/-- The operations of `BackEndFacade`. -/
inductive Operation
  | signin (email password : String)
  | signup (name email password : String)
  | sendMessage (chatId : UInt64) (message : String)
  | addContact (email : String)
  | loadChats
  | loadContacts
  | loadData
  | loadMessages (chatId : UInt64)
  | updateConnectionSettings (ip port : String)
  | createChat (friendId : UInt64)
  deriving DecidableEq, Repr

/-- What Qt thinks of an address (`QHostAddress::isNull`) and of a port (`QIntValidator`). -/
structure Qt where
  validAddress : String → Bool
  acceptablePort : String → Bool

/-- A Qt that accepts nothing but the default settings. -/
def Qt.default : Qt where
  validAddress := fun ip => ip = "127.0.0.1"
  acceptablePort := fun port => port = "8000"

namespace Client

variable (qt : Qt)

/-- `Session::connect` and `Backend::updateConnectionSettings`. -/
def updateConnectionSettings (ip port : String) (c : Client) : Client :=
  if ¬ qt.validAddress ip then
    c.emit none (.updatedConnectionSettings "Invalid ip address") .done
  else if ¬ qt.acceptablePort port then
    c.emit none (.updatedConnectionSettings "Invalid port") .done
  else c.abort (.connectToHost ip port)

/-- The operations of `Backend`, and the `exec` of their jobs. -/
def backend : Operation → Client → Client
  | .signin email password => request (MessageFactory.createLoginRequest email password) .login
  | .signup name email password =>
    request (MessageFactory.createRegisterRequest name email password) .register
  | .sendMessage chatId message =>
    request (MessageFactory.createSendMessageRequest chatId message) .sendMessage
  | .addContact email => request (MessageFactory.createAddContactRequest email) .addContact
  | .loadChats => request MessageFactory.createAllMyChatsRequest .loadChats
  | .loadContacts => request MessageFactory.createAllMyContactsRequest .loadContacts
  | .loadData => request MessageFactory.createAllMyContactsRequest .loadData
  | .loadMessages chatId =>
    request (MessageFactory.createLoadMessagesRequest chatId) .loadMessages
  | .updateConnectionSettings ip port => updateConnectionSettings qt ip port
  | .createChat friendId => request (MessageFactory.createCreateChatRequest friendId) .createChat

/-- An operation of the facade. -/
def operation (op : Operation) (c : Client) : Client :=
  if c.availible then { c with availible := false }.backend qt op else c

def setCurrentChatId (chatId : UInt64) (c : Client) : Client :=
  { c with lists := { c.lists with mesagesList := c.lists.mesagesList.setCurrentChatId chatId } }

/-- What MessagesWindow.qml does when it is completed and when it reloads. -/
def showMessages (chatId : UInt64) (c : Client) : Client :=
  if c.availible then (c.setCurrentChatId chatId).operation qt (.loadMessages chatId) else c

/-! ### The machine -/

inductive Event
  /-- QML calls an operation of the facade. -/
  | call (op : Operation)
  /-- QML calls `messagesList.setCurrentChatId`. -/
  | setCurrentChatId (chatId : UInt64)
  /-- MessagesWindow.qml does both. -/
  | showMessages (chatId : UInt64)
  /-- The handlers of the signal emitted last return. -/
  | ret
  /-- The socket has connected. -/
  | connected
  /-- The socket cannot connect. -/
  | failed (error : SocketError)
  /-- The connection is lost. -/
  | lost (error : SocketError)
  /-- A frame arrives. -/
  | frame (body : Option WrappedMessage)

/-- The socket cannot connect, and `onError` is called. -/
def onFailed (error : SocketError) (c : Client) : Client :=
  match error.err with
  | some err => ({ c with socket := .unconnected } : Client).emit none (.operationAborted err) .done
  | none => { c with socket := .unconnected }

/-- `onError`, and then `onDisconnection`. The only handler of `doOperationAborted`, in main.qml,
opens a popup, so nothing is called between the two. -/
def onLost (error : SocketError) (c : Client) : Client :=
  match error.err with
  | some err =>
    ({ c with availible := true }.record (.emitted none (.operationAborted err))).disconnect .done
  | none => c.disconnect .done

/-- Events of the socket are only handled when no handler is running. -/
def step (c : Client) : Event → Option Client
  | .call op => some (c.operation qt op)
  | .setCurrentChatId chatId => some (c.setCurrentChatId chatId)
  | .showMessages chatId => some (c.showMessages qt chatId)
  | .ret =>
    match c.stack with
    | k :: stack => some ({ c with stack := stack }.resume k)
    | [] => none
  | .connected =>
    if c.stack = [] ∧ c.socket = .connecting then
      some ((({ c with socket := .connected } : Client).record .opened).emit none
        (.showMessage "Connected!") .done)
    else none
  | .failed error =>
    if c.stack = [] ∧ c.socket = .connecting then some (c.onFailed error) else none
  | .lost error =>
    if c.stack = [] ∧ c.socket = .connected then some (c.onLost error) else none
  | .frame body =>
    if c.stack = [] ∧ c.socket = .connected then c.onReadyRead body else none

end Client

end Elegram
