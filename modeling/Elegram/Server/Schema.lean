import Elegram.Foundation.ReadCommitted
import Elegram.Protocol.Messages

/-!
# The database

The tables of `gen_schema.sql` and the prepared statements of `PostgresStorageConnection`, as an
engine in the sense of `ReadCommitted`. All statements are `SELECT`s and `INSERT`s, so tables only
grow.

Identifiers are `INTEGER` columns; of the values of this type only those from zero up can occur,
and a `uint64` parameter beyond them makes its statement fail. The primary keys of `Client` and
`Chat` are drawn from sequences, which count on even when the insertion fails. `Message.id` and
`Message.send_time` are left out, since no statement reads them.

String parameters are assumed to reach the database unchanged. `libpq` ends a text parameter at the
first U+0000, so this takes strings without that character.
-/

namespace Elegram

/-- The values of an `INTEGER` column that occur. -/
abbrev PgInt : Type := Fin (2 ^ 31)

namespace PgInt

/-- A `uint64` parameter of a statement; `none` is the error "out of range". -/
def ofUInt64? (x : UInt64) : Option PgInt :=
  if h : x.toNat < 2 ^ 31 then some ⟨x.toNat, h⟩ else none

/-- The conversion `as<uint64_t>()`. -/
def toUInt64 (i : PgInt) : UInt64 := UInt64.ofNat i.val

/-- An identifier that was returned is accepted as a parameter. -/
theorem ofUInt64?_toUInt64 (i : PgInt) : ofUInt64? i.toUInt64 = some i := by
  have hval : (UInt64.ofNat i.val).toNat = i.val := by
    rw [UInt64.toNat_ofNat']
    exact Nat.mod_eq_of_lt (Nat.lt_trans i.isLt (by decide))
  rw [ofUInt64?, dif_pos (show (toUInt64 i).toNat < 2 ^ 31 by rw [toUInt64, hval]; exact i.isLt)]
  exact congrArg some (Fin.ext hval)

/-- A parameter within the range is returned as it was. -/
theorem toUInt64_of_eq_some {x : UInt64} {i : PgInt} (h : ofUInt64? x = some i) :
    i.toUInt64 = x := by
  rw [ofUInt64?] at h
  split_ifs at h
  cases h
  exact UInt64.ofNat_toNat

theorem toUInt64_injective : Function.Injective toUInt64 := by
  intro i j h
  have hi := ofUInt64?_toUInt64 i
  rw [h, ofUInt64?_toUInt64] at hi
  exact (Option.some.inj hi).symm

end PgInt

/-! ### Tables -/

/-- A row of `Client`. -/
structure ClientRow where
  id : PgInt
  name : String
  email : String
  passwordHash : List UInt8
  deriving DecidableEq, Repr

/-- A row of `ClientToChat`. -/
structure ClientToChatRow where
  clientId : PgInt
  chatId : PgInt
  title : String
  deriving DecidableEq, Repr

/-- A row of `Message`, without the columns that no statement reads. -/
structure MessageRow where
  senderId : PgInt
  chatId : PgInt
  mesg : String
  deriving DecidableEq, Repr

/-- A row of `ClientToContact`. -/
structure ClientToContactRow where
  clientId : PgInt
  friendId : PgInt
  deriving DecidableEq, Repr

/-- The rows of the five tables, oldest first. A row of `Chat` is its identifier. -/
@[ext] structure Tables where
  client : List ClientRow
  chat : List PgInt
  clientToChat : List ClientToChatRow
  message : List MessageRow
  clientToContact : List ClientToContactRow
  deriving DecidableEq, Repr

namespace Tables

instance : Zero Tables := ⟨⟨[], [], [], [], []⟩⟩

instance : Add Tables := ⟨fun s t =>
  ⟨s.client ++ t.client, s.chat ++ t.chat, s.clientToChat ++ t.clientToChat,
    s.message ++ t.message, s.clientToContact ++ t.clientToContact⟩⟩

@[simp] theorem zero_client : (0 : Tables).client = [] := rfl
@[simp] theorem zero_chat : (0 : Tables).chat = [] := rfl
@[simp] theorem zero_clientToChat : (0 : Tables).clientToChat = [] := rfl
@[simp] theorem zero_message : (0 : Tables).message = [] := rfl
@[simp] theorem zero_clientToContact : (0 : Tables).clientToContact = [] := rfl

variable (s t : Tables)

@[simp] theorem add_client : (s + t).client = s.client ++ t.client := rfl
@[simp] theorem add_chat : (s + t).chat = s.chat ++ t.chat := rfl
@[simp] theorem add_clientToChat : (s + t).clientToChat = s.clientToChat ++ t.clientToChat := rfl
@[simp] theorem add_message : (s + t).message = s.message ++ t.message := rfl
@[simp] theorem add_clientToContact :
    (s + t).clientToContact = s.clientToContact ++ t.clientToContact := rfl

instance instAddMonoid : AddMonoid Tables where
  add_assoc a b c := by ext1 <;> simp
  zero_add a := by ext1 <;> simp
  add_zero a := by ext1 <;> simp
  nsmul := nsmulRec

end Tables

/-- The next numbers of the sequences behind `Client.id` and `Chat.id`. -/
structure Sequences where
  client : ℕ
  chat : ℕ
  deriving DecidableEq, Repr

/-- The sequences of an empty schema. -/
def Sequences.initial : Sequences := { client := 1, chat := 1 }

/-! ### Statements -/

/-- The statements that the storage connection executes, with their parameters. -/
inductive Statement
  | registration (name email : String) (passwordHash : List UInt8)
  /-- The query that `login` puts together. -/
  | selectByEmail (email : String)
  | sendMessage (senderId chatId : UInt64) (mesg : String)
  | addContact (clientId friendId : UInt64)
  | getUserByEmail (email : String)
  | getInfo (id : UInt64)
  | getContacts (clientId : UInt64)
  | getMessages (chatId : UInt64)
  | getChats (clientId : UInt64)
  | checkSenderAbleToWriteToChat (clientId chatId : UInt64)
  | checkUsersHaveCommonChat (userId friendId : UInt64)
  | createChat
  | createChatConnection (clientId chatId : UInt64) (title : String)
  deriving DecidableEq, Repr

/-- The columns of the rows that a statement returns. -/
abbrev Statement.Row : Statement → Type
  | .selectByEmail _ => PgInt × String × List UInt8
  | .getUserByEmail _ => PgInt × String
  | .getInfo _ => String × String
  | .getContacts _ => PgInt × String × String
  | .getMessages _ => PgInt × String
  | .getChats _ => PgInt × String
  | .createChat => PgInt
  | _ => Unit

namespace Tables

variable (t : Tables)

/-- The rows of `ClientToChat` of a client. -/
def memberships (clientId : PgInt) : List ClientToChatRow :=
  t.clientToChat.filter fun row => row.clientId = clientId

/-- The reference to `Client.id` is valid. -/
def isRegistered (id : PgInt) : Bool := t.client.any fun row => row.id = id

theorem isRegistered_of_mem {t : Tables} {row : ClientRow} (h : row ∈ t.client) :
    t.isRegistered row.id :=
  List.any_eq_true.mpr ⟨row, h, by simp⟩

/-- The reference to `Chat.id` is valid. -/
def hasChat (id : PgInt) : Bool := t.chat.any (· = id)

@[simp] theorem isRegistered_add (s t : Tables) (id : PgInt) :
    (s + t).isRegistered id = (s.isRegistered id || t.isRegistered id) := by
  simp [isRegistered]

@[simp] theorem hasChat_add (s t : Tables) (id : PgInt) :
    (s + t).hasChat id = (s.hasChat id || t.hasChat id) := by
  simp [hasChat]

/-- The client has a row for the chat. -/
def Member (client chat : PgInt) : Prop :=
  ∃ row ∈ t.clientToChat, row.clientId = client ∧ row.chatId = chat

/-- A member has a row in one of the two parts. -/
theorem member_add {s t : Tables} {client chat : PgInt} :
    (s + t).Member client chat ↔ s.Member client chat ∨ t.Member client chat := by
  simp only [Member, add_clientToChat, List.mem_append, or_and_right, exists_or]

/-- The join of `MyChats` and `FriendChat`. -/
def commonChats (userId friendId : PgInt) : List Unit :=
  (t.memberships userId).flatMap fun mine =>
    ((t.memberships friendId).filter fun row => mine.chatId = row.chatId).map fun _ => ()

/-- The join is empty if there is no chat of both. -/
theorem commonChats_eq_nil_iff {t : Tables} {userId friendId : PgInt} :
    t.commonChats userId friendId = [] ↔
      ∀ chat, ¬ (t.Member userId chat ∧ t.Member friendId chat) := by
  simp only [commonChats, memberships, List.flatMap_eq_nil_iff, List.map_eq_nil_iff,
    List.filter_eq_nil_iff, List.mem_filter, decide_eq_true_eq, Member]
  constructor
  · rintro h chat ⟨⟨mine, hmine, hid, hchat⟩, ⟨row, hrow, hid', hchat'⟩⟩
    exact h mine ⟨hmine, hid⟩ row ⟨hrow, hid'⟩ (hchat.trans hchat'.symm)
  · rintro h mine ⟨hmine, hid⟩ row ⟨hrow, hid'⟩ hsame
    exact h mine.chatId ⟨⟨mine, hmine, hid, rfl⟩, ⟨row, hrow, hid', hsame.symm⟩⟩

/-- The chats of a client, with their titles. -/
def chatsOf (clientId : PgInt) : List (PgInt × String) :=
  (t.memberships clientId).map fun row => (row.chatId, row.title)

/-- The messages of a chat, with their senders. -/
def messagesOf (chatId : PgInt) : List (PgInt × String) :=
  (t.message.filter fun row => row.chatId = chatId).map fun row => (row.senderId, row.mesg)

@[simp] theorem messagesOf_add (s t : Tables) (chatId : PgInt) :
    (s + t).messagesOf chatId = s.messagesOf chatId ++ t.messagesOf chatId := by
  simp [messagesOf]

/-- The join of `Client` and `Contacts`. -/
def contacts (clientId : PgInt) : List (PgInt × String × String) :=
  t.client.flatMap fun row =>
    (t.clientToContact.filter fun contact =>
      contact.clientId = clientId ∧ row.id = contact.friendId).map fun _ =>
        (row.id, row.name, row.email)

end Tables

namespace Statement

/-- A statement that returns rows and inserts none. -/
def select {ρ : Type} (seq : Sequences) (rows : Option (List ρ)) :
    Sequences × Option (List ρ × Tables) :=
  (seq, rows.map fun rows => (rows, 0))

/-- What PostgreSQL does with a statement when its transaction sees the tables `t`. The strings are
taken as the program has passed them, and a statement that fails has inserted nothing. -/
def exec : (st : Statement) → Tables → Sequences → Sequences × Option (List st.Row × Tables)
  | .registration name email passwordHash, t, seq =>
    if h : seq.client < 2 ^ 31 then
      ({ seq with client := seq.client + 1 },
        if t.client.any fun row => row.email = email then none
        else some ([],
          { (0 : Tables) with client := [⟨⟨seq.client, h⟩, name, email, passwordHash⟩] }))
    else (seq, none)
  | .selectByEmail email, t, seq =>
    select seq (some ((t.client.filter fun row => row.email = email).map fun row =>
      (row.id, row.name, row.passwordHash)))
  | .sendMessage senderId chatId mesg, t, seq =>
    (seq, do
      let sender ← PgInt.ofUInt64? senderId
      let chat ← PgInt.ofUInt64? chatId
      if t.isRegistered sender ∧ t.hasChat chat then
        some ([], { (0 : Tables) with message := [⟨sender, chat, mesg⟩] })
      else none)
  | .addContact clientId friendId, t, seq =>
    (seq, do
      let client ← PgInt.ofUInt64? clientId
      let friend ← PgInt.ofUInt64? friendId
      if t.isRegistered client ∧ t.isRegistered friend ∧ ⟨client, friend⟩ ∉ t.clientToContact then
        some ([], { (0 : Tables) with clientToContact := [⟨client, friend⟩] })
      else none)
  | .getUserByEmail email, t, seq =>
    select seq (some ((t.client.filter fun row => row.email = email).map fun row =>
      (row.id, row.name)))
  | .getInfo id, t, seq =>
    select seq ((PgInt.ofUInt64? id).map fun id =>
      (t.client.filter fun row => row.id = id).map fun row => (row.name, row.email))
  | .getContacts clientId, t, seq => select seq ((PgInt.ofUInt64? clientId).map t.contacts)
  | .getMessages chatId, t, seq => select seq ((PgInt.ofUInt64? chatId).map t.messagesOf)
  | .getChats clientId, t, seq => select seq ((PgInt.ofUInt64? clientId).map t.chatsOf)
  | .checkSenderAbleToWriteToChat clientId chatId, t, seq =>
    select seq (do
      let client ← PgInt.ofUInt64? clientId
      let chat ← PgInt.ofUInt64? chatId
      some (((t.memberships client).filter fun row => row.chatId = chat).map fun _ => ()))
  | .checkUsersHaveCommonChat userId friendId, t, seq =>
    select seq (do
      let user ← PgInt.ofUInt64? userId
      let friend ← PgInt.ofUInt64? friendId
      some (t.commonChats user friend))
  | .createChat, _, seq =>
    if h : seq.chat < 2 ^ 31 then
      ({ seq with chat := seq.chat + 1 },
        some ([⟨seq.chat, h⟩], { (0 : Tables) with chat := [⟨seq.chat, h⟩] }))
    else (seq, none)
  | .createChatConnection clientId chatId title, t, seq =>
    (seq, do
      let client ← PgInt.ofUInt64? clientId
      let chat ← PgInt.ofUInt64? chatId
      if t.isRegistered client ∧ t.hasChat chat then
        some ([], { (0 : Tables) with clientToChat := [⟨client, chat, title⟩] })
      else none)

/-- Uncommitted rows of two transactions that violate a `UNIQUE` constraint together: the later
insertion waits for the end of the other transaction. -/
def blocks (s t : Tables) : Bool :=
  s.client.any (fun row => t.client.any fun row' => row.email = row'.email) ||
    s.clientToContact.any fun row => t.clientToContact.any (· = row)

/-! What statements have done when they have succeeded. -/

section Succeeded

variable {t inserted : Tables} {seq : Sequences}

/-- Both parameters were in range, and the rows are those of the join. -/
theorem exec_checkUsersHaveCommonChat_some {userId friendId : UInt64} {rows : List Unit}
    (h : ((checkUsersHaveCommonChat userId friendId).exec t seq).2 = some (rows, inserted)) :
    ∃ a b, PgInt.ofUInt64? userId = some a ∧ PgInt.ofUInt64? friendId = some b ∧
      rows = t.commonChats a b ∧ inserted = 0 := by
  simp only [exec, select, Option.map_eq_some_iff, Option.bind_eq_bind, Option.bind_eq_some_iff,
    Option.some.injEq, Prod.mk.injEq] at h
  obtain ⟨_, ⟨a, ha, b, hb, rfl⟩, rfl, rfl⟩ := h
  exact ⟨a, b, ha, hb, rfl, rfl⟩

/-- The chat has the next number of the sequence. -/
theorem exec_createChat_some {rows : List PgInt}
    (h : (createChat.exec t seq).2 = some (rows, inserted)) :
    ∃ id : PgInt, id.val = seq.chat ∧ rows = [id] ∧
      inserted = { (0 : Tables) with chat := [id] } := by
  simp only [exec] at h
  split_ifs at h with hid
  cases h
  exact ⟨⟨seq.chat, hid⟩, rfl, rfl, rfl⟩

theorem exec_getInfo_some {id : UInt64} {rows : List (String × String)}
    (h : ((getInfo id).exec t seq).2 = some (rows, inserted)) : inserted = 0 := by
  simp only [exec, select, Option.map_eq_some_iff, Prod.mk.injEq] at h
  obtain ⟨_, -, -, rfl⟩ := h
  rfl

/-- The row has the parameters. -/
theorem exec_createChatConnection_some {clientId chatId : UInt64} {title : String}
    {rows : List Unit}
    (h : ((createChatConnection clientId chatId title).exec t seq).2 = some (rows, inserted)) :
    ∃ client chat, PgInt.ofUInt64? clientId = some client ∧ PgInt.ofUInt64? chatId = some chat ∧
      inserted = { (0 : Tables) with clientToChat := [⟨client, chat, title⟩] } := by
  simp only [exec, Option.bind_eq_bind, Option.bind_eq_some_iff] at h
  obtain ⟨client, hclient, chat, hchat, h⟩ := h
  split_ifs at h
  cases h
  exact ⟨client, chat, hclient, hchat, rfl⟩

/-- Nobody had the email, and the row has the next number of the sequence. -/
theorem exec_registration_some {name email : String} {passwordHash : List UInt8} {rows : List Unit}
    (h : ((registration name email passwordHash).exec t seq).2 = some (rows, inserted)) :
    ∃ id : PgInt, id.val = seq.client ∧ (∀ row ∈ t.client, row.email ≠ email) ∧
      inserted = { (0 : Tables) with client := [⟨id, name, email, passwordHash⟩] } := by
  simp only [exec] at h
  split_ifs at h with hid hemail
  cases h
  refine ⟨⟨seq.client, hid⟩, rfl, fun row hrow heq => hemail ?_, rfl⟩
  exact List.any_eq_true.mpr ⟨row, hrow, by simpa using heq⟩

theorem exec_selectByEmail_some {email : String} {rows : List (PgInt × String × List UInt8)}
    (h : ((selectByEmail email).exec t seq).2 = some (rows, inserted)) :
    rows = (t.client.filter fun row => row.email = email).map (fun row =>
      (row.id, row.name, row.passwordHash)) ∧ inserted = 0 := by
  simp only [exec, select, Option.map_some, Option.some.injEq, Prod.mk.injEq] at h
  exact ⟨h.1.symm, h.2.symm⟩

theorem exec_getUserByEmail_some {email : String} {rows : List (PgInt × String)}
    (h : ((getUserByEmail email).exec t seq).2 = some (rows, inserted)) :
    rows = (t.client.filter fun row => row.email = email).map (fun row => (row.id, row.name)) ∧
      inserted = 0 := by
  simp only [exec, select, Option.map_some, Option.some.injEq, Prod.mk.injEq] at h
  exact ⟨h.1.symm, h.2.symm⟩

/-- There is a row if the sender is a member. -/
theorem exec_checkSenderAbleToWriteToChat_some {clientId chatId : UInt64} {rows : List Unit}
    (h : ((checkSenderAbleToWriteToChat clientId chatId).exec t seq).2 = some (rows, inserted)) :
    ∃ client chat, PgInt.ofUInt64? clientId = some client ∧ PgInt.ofUInt64? chatId = some chat ∧
      (rows ≠ [] ↔ t.Member client chat) ∧ inserted = 0 := by
  simp only [exec, select, Option.map_eq_some_iff, Option.bind_eq_bind, Option.bind_eq_some_iff,
    Option.some.injEq, Prod.mk.injEq] at h
  obtain ⟨_, ⟨client, hclient, chat, hchat, rfl⟩, rfl, rfl⟩ := h
  refine ⟨client, chat, hclient, hchat, ?_, rfl⟩
  rw [← List.length_pos_iff_ne_nil, List.length_map, List.length_pos_iff_exists_mem]
  simp only [Tables.memberships, List.mem_filter, decide_eq_true_eq, Tables.Member]
  constructor
  · rintro ⟨row, ⟨hrow, hid⟩, hc⟩
    exact ⟨row, hrow, hid, hc⟩
  · rintro ⟨row, hrow, hid, hc⟩
    exact ⟨row, ⟨hrow, hid⟩, hc⟩

/-- Both references are valid, and the row has the parameters. -/
theorem exec_sendMessage_some {senderId chatId : UInt64} {mesg : String} {rows : List Unit}
    (h : ((sendMessage senderId chatId mesg).exec t seq).2 = some (rows, inserted)) :
    ∃ sender chat, PgInt.ofUInt64? senderId = some sender ∧ PgInt.ofUInt64? chatId = some chat ∧
      t.isRegistered sender ∧ t.hasChat chat ∧
      inserted = { (0 : Tables) with message := [⟨sender, chat, mesg⟩] } := by
  simp only [exec, Option.bind_eq_bind, Option.bind_eq_some_iff] at h
  obtain ⟨sender, hsender, chat, hchat, h⟩ := h
  split_ifs at h with hrefs
  cases h
  exact ⟨sender, chat, hsender, hchat, hrefs.1, hrefs.2, rfl⟩

/-- Both references are valid, and the row is a new one. -/
theorem exec_addContact_some {clientId friendId : UInt64} {rows : List Unit}
    (h : ((addContact clientId friendId).exec t seq).2 = some (rows, inserted)) :
    ∃ client friend, PgInt.ofUInt64? clientId = some client ∧
      PgInt.ofUInt64? friendId = some friend ∧ t.isRegistered client ∧ t.isRegistered friend ∧
      ⟨client, friend⟩ ∉ t.clientToContact ∧
      inserted = { (0 : Tables) with clientToContact := [⟨client, friend⟩] } := by
  simp only [exec, Option.bind_eq_bind, Option.bind_eq_some_iff] at h
  obtain ⟨client, hclient, friend, hfriend, h⟩ := h
  split_ifs at h with hrefs
  cases h
  exact ⟨client, friend, hclient, hfriend, hrefs.1, hrefs.2.1, hrefs.2.2, rfl⟩

variable (t seq) in
/-- What a statement inserts when it succeeds, with the sequences that it leaves. -/
inductive Inserts : Statement → Sequences → Tables → Prop
  | none {st : Statement} : Inserts st seq 0
  | registration {name email : String} {passwordHash : List UInt8} {id : PgInt}
      (hid : id.val = seq.client) (hnew : ∀ row ∈ t.client, row.email ≠ email) :
      Inserts (.registration name email passwordHash) { seq with client := seq.client + 1 }
        { (0 : Tables) with client := [⟨id, name, email, passwordHash⟩] }
  | sendMessage {senderId chatId : UInt64} {mesg : String} {sender chat : PgInt}
      (hsender : t.isRegistered sender) (hchat : t.hasChat chat) :
      Inserts (.sendMessage senderId chatId mesg) seq
        { (0 : Tables) with message := [⟨sender, chat, mesg⟩] }
  | addContact {clientId friendId : UInt64} {client friend : PgInt}
      (hclient : t.isRegistered client) (hfriend : t.isRegistered friend)
      (hnew : ⟨client, friend⟩ ∉ t.clientToContact) :
      Inserts (.addContact clientId friendId) seq
        { (0 : Tables) with clientToContact := [⟨client, friend⟩] }
  | createChat {id : PgInt} (hid : id.val = seq.chat) :
      Inserts .createChat { seq with chat := seq.chat + 1 } { (0 : Tables) with chat := [id] }
  | createChatConnection {clientId chatId : UInt64} {title : String} {client chat : PgInt}
      (hclient : t.isRegistered client) (hchat : t.hasChat chat) :
      Inserts (.createChatConnection clientId chatId title) seq
        { (0 : Tables) with clientToChat := [⟨client, chat, title⟩] }

/-- **What a statement does when it succeeds.** -/
theorem exec_inserts {st : Statement} {seq' : Sequences} {rows : List st.Row}
    (h : st.exec t seq = (seq', some (rows, inserted))) : st.Inserts t seq seq' inserted := by
  have hsucceeded := congrArg Prod.snd h
  have hseq : (st.exec t seq).1 = seq' := congrArg Prod.fst h
  cases st with
  | registration name email passwordHash =>
    obtain ⟨id, hid, hnew, rfl⟩ := exec_registration_some hsucceeded
    have hlt : seq.client < 2 ^ 31 := hid ▸ id.isLt
    simp only [exec, dif_pos hlt] at hseq
    subst hseq
    exact .registration hid hnew
  | sendMessage senderId chatId mesg =>
    obtain ⟨sender, chat, -, -, hsender, hchat, rfl⟩ := exec_sendMessage_some hsucceeded
    subst hseq
    exact .sendMessage hsender hchat
  | addContact clientId friendId =>
    obtain ⟨client, friend, -, -, hclient, hfriend, hnew, rfl⟩ := exec_addContact_some hsucceeded
    subst hseq
    exact .addContact hclient hfriend hnew
  | createChat =>
    obtain ⟨id, hid, -, rfl⟩ := exec_createChat_some (t := t) hsucceeded
    have hlt : seq.chat < 2 ^ 31 := hid ▸ id.isLt
    simp only [exec, dif_pos hlt] at hseq
    subst hseq
    exact .createChat hid
  | createChatConnection clientId chatId title =>
    simp only [exec, Option.bind_eq_bind, Option.bind_eq_some_iff] at hsucceeded
    obtain ⟨client, -, chat, -, hsucceeded⟩ := hsucceeded
    split_ifs at hsucceeded with hrefs
    cases hsucceeded
    subst hseq
    exact .createChatConnection hrefs.1 hrefs.2
  | _ =>
    simp only [exec, select, Option.map_eq_some_iff, Prod.mk.injEq] at hsucceeded
    obtain ⟨_, -, -, rfl⟩ := hsucceeded
    subst hseq
    exact .none

end Succeeded

/-- The insertion succeeds when both references are valid. -/
theorem exec_createChatConnection {clientId chatId : UInt64} {title : String} {client chat : PgInt}
    {t : Tables} (seq : Sequences) (hclient : PgInt.ofUInt64? clientId = some client)
    (hchat : PgInt.ofUInt64? chatId = some chat) (hreg : t.isRegistered client)
    (hhas : t.hasChat chat) :
    (createChatConnection clientId chatId title).exec t seq =
      (seq, some ([], { (0 : Tables) with clientToChat := [⟨client, chat, title⟩] })) := by
  simp only [exec, hclient, hchat, Option.bind_eq_bind, Option.bind_some, hreg, hhas, and_self,
    if_true]

end Statement

/-- The engine that the storage connections talk to. -/
abbrev postgres : ReadCommitted.Engine where
  Statement := Statement
  Row := Statement.Row
  Tables := Tables
  Sequences := Sequences
  monoid := Tables.instAddMonoid
  exec := Statement.exec
  blocks := Statement.blocks

end Elegram
