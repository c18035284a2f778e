import Elegram.Protocol.Messages
import Mathlib.Logic.Function.Basic

/-!
# The lists of the client

`ChatsList`, `ContactsList` and `MessagesList` are created in `main` and live as long as the
program. The views show what they hold. `MessagesList` keeps the messages of every chat that has
been loaded and shows those of its current chat; `MessagesList.Shown` says so, and both of its
operations keep it.
-/

namespace Elegram

/-- `QString::fromUtf8` of a `c_str()`: the text ends in front of the first null character. -/
def fromCStr (s : String) : String := String.ofList (s.toList.takeWhile (· ≠ Char.ofNat 0))

/-! ### Chats -/

/-- An item of the list of chats. -/
structure ChatItem where
  id : UInt64
  title : String
  deriving DecidableEq, Repr

/-- The list of chats. -/
structure ChatsList where
  items : List ChatItem
  deriving DecidableEq, Repr

namespace ChatsList

def initial : ChatsList := { items := [] }

def setItems (items : List ChatItem) (_ : ChatsList) : ChatsList := { items := items }

end ChatsList

/-! ### Contacts -/

/-- An item of the list of contacts. -/
structure ContactItem where
  userId : UInt64
  name : String
  email : String
  deriving DecidableEq, Repr

/-- `idToItem` is the hash from identifiers to items. -/
structure ContactsList where
  items : List ContactItem
  idToItem : UInt64 → Option ContactItem

namespace ContactsList

def initial : ContactsList where
  items := []
  idToItem := fun _ => none

/-- The hash is filled in the order of the items, so that later ones replace earlier ones. -/
def fill (items : List ContactItem) : UInt64 → Option ContactItem :=
  items.foldl (fun hash item => Function.update hash item.userId (some item)) fun _ => none

def setItems (items : List ContactItem) (_ : ContactsList) : ContactsList where
  items := items
  idToItem := fill items

/-- The name that is shown with a message. -/
def getUserBy (senderId : UInt64) (l : ContactsList) : String :=
  match l.idToItem senderId with
  | some item => item.name
  | none => "Unknown user_id (not found among contacts)"

end ContactsList

/-! ### Messages -/

/-- An item of a list of messages. -/
structure MessageItem where
  senderId : UInt64
  text : String
  deriving DecidableEq, Repr

/-- `items` are the messages shown, if there are any to show. -/
structure MessagesList where
  mapToItems : UInt64 → Option (List MessageItem)
  currentChatId : UInt64
  items : Option (List MessageItem)

namespace MessagesList

def initial : MessagesList where
  mapToItems := fun _ => none
  currentChatId := 0
  items := none

/-- `size`, which the model takes for its `rowCount`. -/
def size (l : MessagesList) : ℕ := (l.items.map List.length).getD 0

/-- Another chat is shown from what has been loaded for it. -/
def setCurrentChatId (chatId : UInt64) (l : MessagesList) : MessagesList :=
  if l.currentChatId ≠ chatId then
    { l with currentChatId := chatId, items := l.mapToItems chatId }
  else l

/-- The items are filed under the current chat. -/
def setItems (items : List MessageItem) (l : MessagesList) : MessagesList :=
  { l with
    mapToItems := Function.update l.mapToItems l.currentChatId (some items)
    items := some items }

/-- What is shown is what has been loaded for the current chat. -/
def Shown (l : MessagesList) : Prop := l.items = l.mapToItems l.currentChatId

/-- Nothing is loaded and nothing is shown. -/
theorem shown_initial : initial.Shown := rfl

@[simp] theorem currentChatId_setCurrentChatId (chatId : UInt64) (l : MessagesList) :
    (l.setCurrentChatId chatId).currentChatId = chatId := by
  rw [setCurrentChatId]
  split_ifs with h
  · rfl
  · exact not_not.mp h

@[simp] theorem mapToItems_setCurrentChatId (chatId : UInt64) (l : MessagesList) :
    (l.setCurrentChatId chatId).mapToItems = l.mapToItems := by
  rw [setCurrentChatId]
  split_ifs <;> rfl

@[simp] theorem currentChatId_setItems (items : List MessageItem) (l : MessagesList) :
    (l.setItems items).currentChatId = l.currentChatId :=
  rfl

@[simp] theorem mapToItems_setItems (items : List MessageItem) (l : MessagesList) :
    (l.setItems items).mapToItems =
      Function.update l.mapToItems l.currentChatId (some items) :=
  rfl

/-- Another chat is shown as it was loaded. -/
theorem Shown.setCurrentChatId {l : MessagesList} (h : l.Shown) (chatId : UInt64) :
    (l.setCurrentChatId chatId).Shown := by
  rw [MessagesList.setCurrentChatId]
  split_ifs with hchat
  · rfl
  · exact h

/-- New items are shown and filed at once. -/
theorem Shown.setItems (items : List MessageItem) (l : MessagesList) :
    (l.setItems items).Shown := by
  rw [Shown, currentChatId_setItems, mapToItems_setItems, Function.update_self]
  rfl

end MessagesList

/-- The three lists. -/
structure Lists where
  chatsList : ChatsList
  contactsList : ContactsList
  mesagesList : MessagesList

namespace Lists

def initial : Lists where
  chatsList := .initial
  contactsList := .initial
  mesagesList := .initial

/-- `setChats` of `jobsutils`. -/
def setChats (chats : List Chat) (l : Lists) : Lists :=
  { l with chatsList := l.chatsList.setItems <| chats.map fun chat =>
      { id := chat.chatId, title := fromCStr chat.title } }

/-- `setContacts` of `jobsutils`. -/
def setContacts (contacts : List Contact) (l : Lists) : Lists :=
  { l with contactsList := l.contactsList.setItems <| contacts.map fun contact =>
      { userId := contact.userId, name := fromCStr contact.name, email := fromCStr contact.email } }

/-- The item that `LoadMessagesJob` makes of a message. -/
def messageItem (mesg : MessageToRecieve) : MessageItem :=
  { senderId := mesg.senderId, text := fromCStr mesg.text }

/-- What `LoadMessagesJob` does with the messages of a response. -/
def setMessages (messages : List MessageToRecieve) (l : Lists) : Lists :=
  { l with mesagesList := l.mesagesList.setItems (messages.map messageItem) }

end Lists

end Elegram
