import Elegram.Server.Jobs
import Elegram.Server.Schema

/-!
# The storage connection

The functions of `PostgresStorageConnection` as programs over the engine `postgres`. Inside the
`try` block of a function, exceptions are those of the monad `Txn`: opening the transaction, every
statement, every conversion of a field and the commit may throw. What the `catch` blocks make of
them is part of the function.

`hashPassword` is a parameter: the functions only compare its values.
-/

namespace Elegram

open ReadCommitted

/-- What is thrown inside a storage function. -/
inductive DbException
  | database
  | invalidArgument
  deriving DecidableEq, Repr

/-- The body of a `try` block. -/
abbrev Txn (α : Type) : Type := ExceptT DbException (Prog postgres) α

namespace Txn

/-- `pqxx::work txn(conn)`. -/
def work : Txn Unit :=
  ExceptT.mk (.attempt fun ok => .ret (if ok then .ok () else .error .database))

/-- `txn.exec`, of a prepared statement or of a text. -/
def query (st : Statement) : Txn (List st.Row) :=
  ExceptT.mk (.exec (E := postgres) st fun
    | some rows => .ret (.ok rows)
    | none => .ret (.error .database))

/-- A field of the first row of a result; there may be none, and its conversion may throw. -/
def field {ρ α : Type} (rows : List ρ) (column : ρ → α) : Txn α :=
  match rows.head? with
  | some row => ExceptT.mk (.attempt fun ok =>
      .ret (if ok then .ok (column row) else .error .database))
  | none => throw .database

/-- `txn.commit()`. -/
def commit : Txn Unit :=
  ExceptT.mk (.commit fun ok => .ret (if ok then .ok () else .error .database))

/-- A function whose `catch` blocks all return the same value. -/
def orReturn {α : Type} (a : α) (x : Txn α) : Prog postgres α := do
  match ← x.run with
  | .ok b => return b
  | .error _ => return a

end Txn

section Storage

open Txn

variable (hashPassword : String → List UInt8)

/-- `registration`: one insertion, and any exception gives `false`. -/
def registration (name email password : String) : Prog postgres Bool :=
  orReturn false do
    work
    let _ ← query (.registration name email (hashPassword password))
    commit
    return true

/-- The second condition of `login`. -/
def wrongPassword (r : List (PgInt × String × List UInt8)) (password : String) : Txn Bool := do
  if r.length = 1 then
    let hash ← field r fun row => row.2.2
    return hash != hashPassword password
  else
    return false

/-- `login` throws `std::invalid_argument` itself, and lets no other exception through unchanged
that the caller could tell apart. -/
def login (email password : String) : Prog postgres (Except LoginError (UInt64 × String)) := do
  let result ← ExceptT.run (m := Prog postgres) (ε := DbException) do
    work
    let r ← query (.selectByEmail email)
    if r.isEmpty then
      throw DbException.invalidArgument
    else if ← wrongPassword hashPassword r password then
      throw DbException.invalidArgument
    else
      let id ← field r fun row => row.1.toUInt64
      let name ← field r fun row => row.2.1
      return (id, name)
  match result with
  | .ok user => return .ok user
  | .error .invalidArgument => return .error .invalidArgument
  | .error .database => return .error .other

/-- `can_write` catches its exceptions itself. -/
def canWrite (senderId chatId : UInt64) : Txn Bool :=
  tryCatch
    (do
      let r ← query (.checkSenderAbleToWriteToChat senderId chatId)
      return !r.isEmpty)
    fun _ => return false

/-- `send_message`: a sender who may not write is refused by an exception of its own. -/
def sendMessage (senderId : UInt64) (mesg : MessageToSend) : Prog postgres Bool :=
  orReturn false do
    work
    if !(← canWrite senderId mesg.chatId) then
      throw DbException.invalidArgument
    else
      let _ ← query (.sendMessage senderId mesg.chatId mesg.text)
      commit
      return true

/-- `add_contact`: the contact is inserted in both directions. -/
def addContact (userId : UInt64) (email : String) : Prog postgres Bool :=
  orReturn false do
    work
    let req ← query (.getUserByEmail email)
    if req.isEmpty then
      return false
    else
      let contactId ← field req fun row => row.1.toUInt64
      let _ ← query (.addContact userId contactId)
      let _ ← query (.addContact contactId userId)
      commit
      return true

/-- `create_chat`: the check and the commit are not one step. -/
def createChat (userId : UInt64) (userName : String) (friendId : UInt64) : Prog postgres Bool :=
  orReturn false do
    work
    -- check that the chat does not exist
    let req ← query (.checkUsersHaveCommonChat userId friendId)
    if !req.isEmpty then
      return false
    else
      -- create the chat itself, get its id
      let createChatReq ← query .createChat
      let chatId ← field createChatReq PgInt.toUInt64
      -- generate its titles
      let friendInfoReq ← query (.getInfo friendId)
      let usersTitle := "Chat with " ++ (← field friendInfoReq fun row => row.1)
      let friendsTitle := "Chat with " ++ userName
      -- connect user and friend to this chat
      let _ ← query (.createChatConnection userId chatId usersTitle)
      let _ ← query (.createChatConnection friendId chatId friendsTitle)
      commit
      return true

/-! ### Reading -/

/-- The fields of one message of a response are set one after the other, until a conversion
throws. -/
def fillMessage {M : Type} : List (M → M) → M → Prog postgres (M × Bool)
  | [], m => .ret (m, true)
  | set :: sets, m => .attempt fun ok => if ok then fillMessage sets (set m) else .ret (m, false)

/-- The loop over the rows. The message that is being filled when a conversion throws stays in the
response. -/
def fillResponse {ρ M : Type} (empty : M) (setters : ρ → List (M → M)) :
    List ρ → List M → Prog postgres (List M)
  | [], filled => .ret filled
  | row :: rows, filled => do
    let (m, ok) ← fillMessage (setters row) empty
    if ok then fillResponse empty setters rows (filled ++ [m]) else return filled ++ [m]

/-- The common form of the functions that read. -/
def readRows {M : Type} (st : Statement) (empty : M) (setters : st.Row → List (M → M)) :
    Prog postgres (List M) := do
  let result ← ExceptT.run (m := Prog postgres) (ε := DbException) do
    work
    let r ← query st
    commit
    return r
  match result with
  | .ok rows => fillResponse empty setters rows []
  | .error _ => return []

def chatSetters (row : PgInt × String) : List (Chat → Chat) :=
  [fun chat => { chat with chatId := row.1.toUInt64 }, fun chat => { chat with title := row.2 }]

/-- `get_chats`. -/
def getChats (userId : UInt64) : Prog postgres (List Chat) :=
  readRows (.getChats userId) { chatId := 0, title := "" } chatSetters

def contactSetters (row : PgInt × String × String) : List (Contact → Contact) :=
  [fun contact => { contact with userId := row.1.toUInt64 },
    fun contact => { contact with name := row.2.1 },
    fun contact => { contact with email := row.2.2 }]

def getContacts (userId : UInt64) : Prog postgres (List Contact) :=
  readRows (.getContacts userId) { userId := 0, name := "", email := "" } contactSetters

def messageSetters (row : PgInt × String) : List (MessageToRecieve → MessageToRecieve) :=
  [fun mesg => { mesg with senderId := row.1.toUInt64 }, fun mesg => { mesg with text := row.2 }]

/-- `get_messages`: whoever asks gets the messages. -/
def getMessages (chatId : UInt64) : Prog postgres (List MessageToRecieve) :=
  readRows (.getMessages chatId) { senderId := 0, text := "" } messageSetters

/-- The program behind a call of the storage connection. -/
def storageProg : (c : StorageCall) → Prog postgres c.Result
  | .registration name email password => registration hashPassword name email password
  | .login email password => login hashPassword email password
  | .sendMessage senderId mesg => sendMessage senderId mesg
  | .addContact userId email => addContact userId email
  | .createChat userId userName friendId => createChat userId userName friendId
  | .getChats userId => getChats userId
  | .getContacts userId => getContacts userId
  | .getMessages chatId => getMessages chatId

end Storage

end Elegram
