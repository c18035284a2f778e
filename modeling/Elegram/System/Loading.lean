import Elegram.Client.Steps
import Elegram.Server.ChatCreation
import Elegram.Server.Reading
import Elegram.Server.Sequential

/-!
# What a load leaves in the lists

A load, from the call of the facade to the last response, with nothing else going on: the client
makes a request, the server reads from the database for its session, and the client puts the
response in place of the items that it has. Frames travel as a whole. The response says nothing of
an error of the database, and the callback takes whatever has been filled in for the result.
`Spared` lists the failures that go unnoticed.
-/

namespace Elegram

open ReadCommitted Transition

/-! ### What is fetched -/

/-- What the client fetches for one of its lists. -/
inductive Fetch
  | chats
  | contacts
  | messages (chatId : UInt64)
  deriving DecidableEq, Repr

namespace Fetch

def request : Fetch → Request
  | .chats => MessageFactory.createAllMyChatsRequest
  | .contacts => MessageFactory.createAllMyContactsRequest
  | .messages chatId => MessageFactory.createLoadMessagesRequest chatId

/-! A row of the database becomes a message of the response, and this an item of the list. -/

abbrev Row : Fetch → Type
  | .chats | .messages _ => PgInt × String
  | .contacts => PgInt × String × String

abbrev Message : Fetch → Type
  | .chats => Chat
  | .contacts => Contact
  | .messages _ => MessageToRecieve

abbrev Item : Fetch → Type
  | .chats => ChatItem
  | .contacts => ContactItem
  | .messages _ => MessageItem

/-- What the database has for the user, or in the chat. No row has an identifier that is not one of
the database. -/
def rows (t : Tables) (user : ClientState) : (f : Fetch) → List f.Row
  | .chats => ((PgInt.ofUInt64? user.userId).map t.chatsOf).getD []
  | .contacts => ((PgInt.ofUInt64? user.userId).map t.contacts).getD []
  | .messages chatId => ((PgInt.ofUInt64? chatId).map t.messagesOf).getD []

/-- A message of which nothing has been filled in. -/
def empty : (f : Fetch) → f.Message
  | .chats => { chatId := 0, title := "" }
  | .contacts => { userId := 0, name := "", email := "" }
  | .messages _ => { senderId := 0, text := "" }

def setters : (f : Fetch) → f.Row → List (f.Message → f.Message)
  | .chats => chatSetters
  | .contacts => contactSetters
  | .messages _ => messageSetters

/-- The item that the client makes of a message. -/
def item : (f : Fetch) → f.Message → f.Item
  | .chats => fun chat => { id := chat.chatId, title := fromCStr chat.title }
  | .contacts => fun contact =>
    { userId := contact.userId, name := fromCStr contact.name, email := fromCStr contact.email }
  | .messages _ => Lists.messageItem

/-- The items of what the database has. -/
def stored (t : Tables) (user : ClientState) (f : Fetch) : List f.Item :=
  itemsOf f.empty f.setters f.item (f.rows t user)

/-- The items that the client shows; those of `MessagesList` are of its current chat. -/
def shown (l : Lists) : (f : Fetch) → List f.Item
  | .chats => l.chatsList.items
  | .contacts => l.contactsList.items
  | .messages _ => l.mesagesList.items.getD []

/-- The function of the storage that reads the rows. -/
def read (user : ClientState) : (f : Fetch) → Prog postgres (List f.Message)
  | .chats => getChats user.userId
  | .contacts => getContacts user.userId
  | .messages chatId => getMessages chatId

def response : (f : Fetch) → List f.Message → Response
  | .chats => .chatsResponse
  | .contacts => .contactsResponse
  | .messages _ => .messagesResponse

end Fetch

/-! ### Loads -/

/-- The operations that load. -/
inductive Load
  | loadChats
  | loadContacts
  | loadMessages (chatId : UInt64)
  | loadData
  deriving DecidableEq, Repr

namespace Load

def operation : Load → Operation
  | .loadChats => .loadChats
  | .loadContacts => .loadContacts
  | .loadMessages chatId => .loadMessages chatId
  | .loadData => .loadData

def fetches : Load → List Fetch
  | .loadChats => [.chats]
  | .loadContacts => [.contacts]
  | .loadMessages chatId => [.messages chatId]
  | .loadData => [.contacts, .chats]

end Load

/-- A client, the profile in its session, and the database. -/
structure Loading where
  client : Client
  user : ClientState
  tables : Tables
  sequences : Sequences

namespace Loading

/-- The client has a connection and the facade accepts a call. A handler may make it, but nothing
waits for the end of `abort`. -/
structure Ready (s : Loading) : Prop where
  availible : s.client.availible = true
  socket : s.client.socket = .connected
  stack : ∀ ip port, .connectToHost ip port ∉ s.client.stack

/-- The request that has just been written. -/
def pending (s : Loading) : Option Request :=
  match s.client.log.getLast? with
  | some (.written _ mesg) => some mesg
  | _ => none

section Exchange

variable (hashPassword : String → List UInt8) (qt : Qt) (ends : Request → ℕ → Choice)

/-- The server answers a request, and when the handlers have returned, the client receives what has
been written. The `n`-th action on the database ends as `ends mesg n` says. -/
def answer (mesg : Request) (s : Loading) : Option Loading := do
  let served ←
    SequentialServer.serve hashPassword s.tables s.sequences (some s.user) mesg (ends mesg)
  let client ← run (Client.step qt) s.client
    (List.replicate s.client.stack.length .ret ++ served.written.map fun mesg => .frame (some mesg))
  let user ← served.clientState
  some {
    client := client
    user := user
    tables := served.conn.tables
    sequences := served.conn.sequences }

/-- At most `n` requests are answered, until there is none. -/
def complete : ℕ → Loading → Option Loading
  | 0, s => if s.pending = none then some s else none
  | n + 1, s =>
    match s.pending with
    | none => some s
    | some mesg => (s.answer hashPassword qt ends mesg).bind (complete n)

/-- The facade is called, and the requests are answered. -/
def load (l : Load) (s : Loading) : Option Loading := do
  let client ← s.client.step qt (.call l.operation)
  complete hashPassword qt ends l.fetches.length { s with client := client }

end Exchange

/-- A list shows what the database has, in some order, or what it has shown before. -/
def Held (s s' : Loading) (f : Fetch) : Prop :=
  (f.shown s'.client.lists).Perm (f.stored s.tables s.user) ∨
    f.shown s'.client.lists = f.shown s.client.lists

/-- The chat whose messages are loaded, or which is the current one. -/
def chatId (s : Loading) : Load → UInt64
  | .loadMessages chatId => chatId
  | _ => s.client.lists.mesagesList.currentChatId

/-- Nothing that has been shown is lost. -/
structure Kept (l : Load) (s s' : Loading) : Prop where
  chats : s.Held s' .chats
  contacts : s.Held s' .contacts
  messages : s.Held s' (.messages (s.chatId l))

/-- The failures of the transaction do no harm to the list. -/
def Spared (ends : Request → ℕ → Choice) (s : Loading) (f : Fetch) : Prop :=
  Elegram.Spared f.empty f.setters f.item (f.rows s.tables s.user) (ends f.request)
    (f.shown s.client.lists)

/-! ### The exchange -/

section Exchange

variable {hashPassword : String → List UInt8} {qt : Qt} {ends : Request → ℕ → Choice}

variable (qt) in
/-- The handlers return. -/
theorem run_ret {c : Client} (hstack : ∀ ip port, .connectToHost ip port ∉ c.stack) :
    ∃ ip port, run (Client.step qt) c (List.replicate c.stack.length .ret) =
      some { c with serverIp := ip, serverPort := port, stack := [] } := by
  obtain ⟨availible, ip, port, profile, lists, socket, callback, stack, requests, log⟩ := c
  induction stack generalizing ip port with
  | nil => exact ⟨ip, port, rfl⟩
  | cons k stack ih =>
    have hrest : ∀ ip port, .connectToHost ip port ∉ stack :=
      fun ip port hmem => hstack ip port (List.mem_cons_of_mem _ hmem)
    cases k with
    | done => exact ih ip port hrest
    | setServer ip' port' => exact ih ip' port' hrest
    | connectToHost ip' port' => exact absurd (List.mem_cons_self ..) (hstack ip' port')

variable (qt) in
/-- A response reaches the callback. -/
theorem step_response {c : Client} {callback : Callback} (hstack : c.stack = [])
    (hsocket : c.socket = .connected) (hcallback : c.callback = some callback) (r : Response) :
    c.step qt (.frame (some (.response r))) = some (c.answeredBy callback r) := by
  have hready : (c.onReadyRead (some (.response r))).isSome :=
    Option.isSome_map.trans (Option.isSome_iff_exists.mpr ⟨callback, hcallback⟩)
  obtain ⟨c', hc'⟩ := Option.isSome_iff_exists.mp hready
  obtain ⟨callback', hcallback', rfl⟩ := Client.onReadyRead_response hstack hsocket hc'
  cases hcallback.symm.trans hcallback'
  rw [Client.step, if_pos ⟨hstack, hsocket⟩, hc']

/-- A request that makes a call is answered with the result. -/
theorem answer_eq {s : Loading} {mesg : Request} {op : StorageCall} {respond : op.Result → Response}
    {callback : Callback} (hcall : guardedCall s.user mesg = some ⟨op, respond⟩)
    (hsocket : s.client.socket = .connected) (hcallback : s.client.callback = some callback)
    (hstack : ∀ ip port, .connectToHost ip port ∉ s.client.stack) :
    let r := (storageProg hashPassword op).eval ⟨s.tables, s.sequences, some 0, ends mesg⟩
    ∃ ip port, s.answer hashPassword qt ends mesg = some {
      client := ({ s.client with serverIp := ip, serverPort := port, stack := [] } :
        Client).answeredBy callback (respond r.1)
      user := s.user
      tables := r.2.tables
      sequences := r.2.sequences } := by
  intro r
  obtain ⟨ip, port, hret⟩ := run_ret qt hstack
  refine ⟨ip, port, ?_⟩
  have hclient := step_response qt (c := { s.client with
    serverIp := ip, serverPort := port, stack := [] }) rfl hsocket hcallback (respond r.1)
  have hrun : run (Client.step qt) s.client (List.replicate s.client.stack.length .ret ++
      [.frame (some (.response (respond r.1)))]) = _ := run_concat hret hclient
  rw [answer, SequentialServer.serve_guarded hcall, Option.bind_eq_bind, Option.bind_some,
    afterCall, List.map_singleton, hrun]
  rfl

/-- A result of reading: its items are those of the rows, or the ones that the client has had,
exactly if the failures do no harm. -/
def Reads (f : Fetch) (t : Tables) (user : ClientState) (choices : ℕ → Choice)
    (r : List f.Message) : Prop :=
  ∀ before, ((r.map f.item).Perm (f.stored t user) ∨ r.map f.item = before) ↔
    Elegram.Spared f.empty f.setters f.item (f.rows t user) choices before

/-- Reading leaves the tables alone. -/
theorem read_ensures (f : Fetch) (user : ClientState) (t : Tables) (seq : Sequences)
    (choices : ℕ → Choice) :
    (f.read user).Ensures (fun r c => c.tables = t ∧ Reads f t user choices r)
      ⟨t, seq, some 0, choices⟩ := by
  cases f with
  | chats =>
    have hst : ∀ t seq, (Statement.getChats user.userId).exec t seq =
        Statement.select seq ((PgInt.ofUInt64? user.userId).map t.chatsOf) := fun _ _ => rfl
    exact ⟨(readRows_ensures _ _ hst).1.1, fun before => readRows_kept_iff hst _ _ _ before⟩
  | contacts =>
    have hst : ∀ t seq, (Statement.getContacts user.userId).exec t seq =
        Statement.select seq ((PgInt.ofUInt64? user.userId).map t.contacts) := fun _ _ => rfl
    exact ⟨(readRows_ensures _ _ hst).1.1, fun before => readRows_kept_iff hst _ _ _ before⟩
  | messages chatId =>
    have hst : ∀ t seq, (Statement.getMessages chatId).exec t seq =
        Statement.select seq ((PgInt.ofUInt64? chatId).map t.messagesOf) := fun _ _ => rfl
    exact ⟨(readRows_ensures _ _ hst).1.1, fun before => readRows_kept_iff hst _ _ _ before⟩

/-- What has become of a fetch: the response `r` has reached the callback. -/
structure Fetched (ends : Request → ℕ → Choice) (f : Fetch) (callback : Callback) (s s' : Loading)
    (r : List f.Message) : Prop where
  client : ∃ ip port, s'.client = ({ s.client with
    serverIp := ip, serverPort := port, stack := [] } : Client).answeredBy callback (f.response r)
  user : s'.user = s.user
  tables : s'.tables = s.tables
  reads : Reads f s.tables s.user (ends f.request) r

variable (hashPassword qt ends) in
theorem answer_fetch (f : Fetch) {s : Loading} {callback : Callback}
    (hsocket : s.client.socket = .connected) (hcallback : s.client.callback = some callback)
    (hstack : ∀ ip port, .connectToHost ip port ∉ s.client.stack) :
    ∃ s' r, s.answer hashPassword qt ends f.request = some s' ∧ Fetched ends f callback s s' r := by
  obtain ⟨htables, hreads⟩ := read_ensures f s.user s.tables s.sequences (ends f.request)
  have hanswer : ∃ ip port, s.answer hashPassword qt ends f.request = some {
      client := ({ s.client with serverIp := ip, serverPort := port, stack := [] } :
        Client).answeredBy callback
          (f.response ((f.read s.user).eval ⟨s.tables, s.sequences, some 0, ends f.request⟩).1)
      user := s.user
      tables := ((f.read s.user).eval ⟨s.tables, s.sequences, some 0, ends f.request⟩).2.tables
      sequences :=
        ((f.read s.user).eval ⟨s.tables, s.sequences, some 0, ends f.request⟩).2.sequences } := by
    cases f with
    | chats =>
      have hcall : guardedCall s.user Fetch.chats.request =
        some ⟨.getChats s.user.userId, .chatsResponse⟩ := rfl
      exact answer_eq hcall hsocket hcallback hstack
    | contacts =>
      have hcall : guardedCall s.user Fetch.contacts.request =
        some ⟨.getContacts s.user.userId, .contactsResponse⟩ := rfl
      exact answer_eq hcall hsocket hcallback hstack
    | messages chatId =>
      have hcall : guardedCall s.user (Fetch.messages chatId).request =
        some ⟨.getMessages chatId, .messagesResponse⟩ := rfl
      exact answer_eq hcall hsocket hcallback hstack
  obtain ⟨ip, port, h⟩ := hanswer
  exact ⟨_, _, h, ⟨ip, port, rfl⟩, rfl, htables, hreads⟩

/-! ### Loading -/

theorem pending_written {s : Loading} {log : List ClientAction} {id : ℕ} {mesg : Request}
    (h : s.client.log = log ++ [.written id mesg]) : s.pending = some mesg := by
  rw [pending, h, List.getLast?_concat]

theorem pending_emitted {s : Loading} {log : List ClientAction} {id : Option ℕ} {signal : Signal}
    (h : s.client.log = log ++ [.emitted id signal]) : s.pending = none := by
  rw [pending, h, List.getLast?_concat]

/-- The call writes the request. -/
theorem step_call {s : Loading} (hready : s.Ready) {op : Operation} {mesg : Request} {job : Job}
    (hop : op.request = some (mesg, job)) :
    s.client.step qt (.call op) = some { s.client with
      availible := false
      callback := some { id := s.client.requests, job := job }
      requests := s.client.requests + 1
      log := s.client.log ++ [.written s.client.requests mesg] } := by
  rw [Client.step, Client.operation, if_pos hready.availible, Client.backend_eq, hop]
  simp only [Client.request, hready.socket, if_true, Client.record]

variable {f : Fetch} {callback : Callback} {s s' : Loading} {r : List f.Message}

theorem Fetched.lists (h : Fetched ends f callback s s' r) :
    s'.client.lists = callback.job.store (f.response r) s.client.lists := by
  obtain ⟨ip, port, hclient⟩ := h.client
  rw [hclient, Client.answeredBy]
  cases callback.job.reaction (f.response r) <;> rfl

/-- A response that is followed by a signal is the last one. -/
theorem Fetched.pending_of_signal (h : Fetched ends f callback s s' r) {signal : Signal}
    (hsignal : callback.job.reaction (f.response r) = some signal) : s'.pending = none := by
  obtain ⟨ip, port, hclient⟩ := h.client
  rw [Client.answeredBy, hsignal] at hclient
  have hlog : s'.client.log = s.client.log ++ [.received, .answered callback.id (f.response r)] ++
      [.emitted callback.id signal] := by
    rw [hclient, List.append_assoc]
    rfl
  exact pending_emitted hlog

/-- The contacts of `loadData` are followed by a request for the chats. -/
theorem Fetched.chained (h : Fetched ends f callback s s' r)
    (hnone : callback.job.reaction (f.response r) = none) :
    s'.pending = some Fetch.chats.request ∧ s'.client.socket = s.client.socket ∧
      s'.client.callback = some { id := s.client.requests, job := .loadData } ∧
      s'.client.stack = [] := by
  obtain ⟨ip, port, hclient⟩ := h.client
  rw [Client.answeredBy, hnone] at hclient
  have hlog : s'.client.log = s.client.log ++ [.received, .answered callback.id (f.response r)] ++
      [.written s.client.requests Fetch.chats.request] := by
    rw [hclient, List.append_assoc]
    rfl
  refine ⟨pending_written hlog, ?_, ?_, ?_⟩ <;> rw [hclient] <;> rfl

variable (hashPassword qt ends) in
theorem load_eq (hready : s.Ready) {l : Load} {mesg : Request} {job : Job}
    (hop : l.operation.request = some (mesg, job)) :
    ∃ s₁ : Loading, s.load hashPassword qt ends l =
        complete hashPassword qt ends l.fetches.length s₁ ∧
      s₁.pending = some mesg ∧ s₁.client.socket = .connected ∧
      s₁.client.callback = some { id := s.client.requests, job := job } ∧
      s₁.client.stack = s.client.stack ∧ s₁.client.lists = s.client.lists ∧
      s₁.user = s.user ∧ s₁.tables = s.tables := by
  rw [load, step_call hready hop]
  exact ⟨_, rfl, pending_written rfl, hready.socket, rfl, rfl, rfl, rfl, rfl⟩

variable (hashPassword qt ends) in
/-- A load that consists of one fetch. -/
theorem load_single (hready : s.Ready) {l : Load} {job : Job} {signal : Signal}
    (hfetches : l.fetches = [f]) (hop : l.operation.request = some (f.request, job))
    (hsignal : ∀ r, job.reaction (f.response r) = some signal) :
    ∃ s' r, s.load hashPassword qt ends l = some s' ∧
      s'.client.lists = job.store (f.response r) s.client.lists ∧
      Reads f s.tables s.user (ends f.request) r := by
  obtain ⟨s₁, hload, hpending, hsocket, hcallback, hstack, hlists, huser, htables⟩ :=
    load_eq hashPassword qt ends hready hop
  obtain ⟨s', r, hanswer, hfetched⟩ := answer_fetch hashPassword qt ends f hsocket hcallback
    (by rw [hstack]; exact hready.stack)
  refine ⟨s', r, ?_, ?_, ?_⟩
  · rw [hload, hfetches]
    simp only [List.length_singleton, complete, hpending, hanswer, Option.bind_some,
      hfetched.pending_of_signal (hsignal r), if_true]
  · rw [hfetched.lists, hlists]
  · rw [← huser, ← htables]
    exact hfetched.reads

variable (hashPassword qt ends) in
/-- `loadData` consists of two fetches. -/
theorem load_loadData (hready : s.Ready) :
    ∃ s' contacts chats, s.load hashPassword qt ends .loadData = some s' ∧
      s'.client.lists = (s.client.lists.setContacts contacts).setChats chats ∧
      Reads .contacts s.tables s.user (ends Fetch.contacts.request) contacts ∧
      Reads .chats s.tables s.user (ends Fetch.chats.request) chats := by
  obtain ⟨s₁, hload, hpending₁, hsocket₁, hcallback₁, hstack₁, hlists₁, huser₁, htables₁⟩ :=
    load_eq hashPassword qt ends (l := .loadData) hready rfl
  obtain ⟨s₂, contacts, hanswer₁, hfetched₁⟩ := answer_fetch hashPassword qt ends .contacts hsocket₁
    hcallback₁ (by rw [hstack₁]; exact hready.stack)
  obtain ⟨hpending₂, hsocket₂, hcallback₂, hstack₂⟩ := hfetched₁.chained rfl
  obtain ⟨s', chats, hanswer₂, hfetched₂⟩ := answer_fetch hashPassword qt ends .chats
    (hsocket₂.trans hsocket₁) hcallback₂ (by rw [hstack₂]; exact fun _ _ => List.not_mem_nil)
  have hreads₁ := hfetched₁.reads
  have hreads₂ := hfetched₂.reads
  rw [hfetched₁.tables, hfetched₁.user, huser₁, htables₁] at hreads₂
  rw [huser₁, htables₁] at hreads₁
  refine ⟨s', contacts, chats, ?_, ?_, hreads₁, hreads₂⟩
  · have hlast : s'.pending = none := hfetched₂.pending_of_signal rfl
    have hpending₁ : s₁.pending = some Fetch.contacts.request := hpending₁
    rw [hload]
    simp only [Load.fetches, List.length_cons, List.length_nil, complete, hpending₁, hanswer₁,
      Option.bind_some, hpending₂, hanswer₂, hlast, if_true]
  · rw [hfetched₂.lists, hfetched₁.lists, hlists₁]
    rfl

variable (hashPassword qt ends) in
/-- **Loads.** A load completes. Each of the lists shows what it has shown before or what the
database has, exactly if the failures do no harm to the lists that are loaded. -/
theorem load_kept_iff (hready : s.Ready) (l : Load) :
    ∃ s', s.load hashPassword qt ends l = some s' ∧
      (s.Kept l s' ↔ ∀ f ∈ l.fetches, s.Spared ends f) := by
  cases l with
  | loadChats =>
    obtain ⟨s', r, hload, hlists, hreads⟩ :=
      load_single hashPassword qt ends (f := .chats) (l := .loadChats) hready rfl rfl fun _ => rfl
    have hheld : s.Held s' .chats ↔ s.Spared ends .chats := by
      rw [Held, hlists]
      exact hreads _
    rw [Load.fetches, List.forall_mem_singleton, ← hheld]
    exact ⟨s', hload, Kept.chats,
      fun h => ⟨h, .inr (by rw [hlists]; rfl), .inr (by rw [hlists]; rfl)⟩⟩
  | loadContacts =>
    obtain ⟨s', r, hload, hlists, hreads⟩ := load_single hashPassword qt ends (f := .contacts)
      (l := .loadContacts) hready rfl rfl fun _ => rfl
    have hheld : s.Held s' .contacts ↔ s.Spared ends .contacts := by
      rw [Held, hlists]
      exact hreads _
    rw [Load.fetches, List.forall_mem_singleton, ← hheld]
    exact ⟨s', hload, Kept.contacts,
      fun h => ⟨.inr (by rw [hlists]; rfl), h, .inr (by rw [hlists]; rfl)⟩⟩
  | loadMessages chatId =>
    obtain ⟨s', r, hload, hlists, hreads⟩ := load_single hashPassword qt ends
      (f := .messages chatId) (l := .loadMessages chatId) hready rfl rfl fun _ => rfl
    have hheld : s.Held s' (.messages chatId) ↔ s.Spared ends (.messages chatId) := by
      rw [Held, hlists]
      exact hreads _
    rw [Load.fetches, List.forall_mem_singleton, ← hheld]
    exact ⟨s', hload, Kept.messages,
      fun h => ⟨.inr (by rw [hlists]; rfl), .inr (by rw [hlists]; rfl), h⟩⟩
  | loadData =>
    obtain ⟨s', contacts, chats, hload, hlists, hcontacts, hchats⟩ :=
      load_loadData hashPassword qt ends hready
    have hheld₁ : s.Held s' .contacts ↔ s.Spared ends .contacts := by
      rw [Held, hlists]
      exact hcontacts _
    have hheld₂ : s.Held s' .chats ↔ s.Spared ends .chats := by
      rw [Held, hlists]
      exact hchats _
    rw [Load.fetches, List.forall_mem_cons, List.forall_mem_singleton, ← hheld₁, ← hheld₂]
    exact ⟨s', hload, fun h => ⟨h.contacts, h.chats⟩,
      fun h => ⟨h.2, h.1, .inr (by rw [hlists]; rfl)⟩⟩

end Exchange

/-! A client shows the only chat of its user. -/

/-- The first of two clients has created a chat with the second, and has loaded it. -/
def oneChat : Loading where
  client := { Client.initial with
    socket := .connected
    lists := Lists.initial.setChats [{ chatId := 1, title := "Chat with Bob" }] }
  user := { userId := 1, userName := "Ada", email := "a" }
  tables := ((createChat 1 "Ada" 2).eval
    ⟨twoStrangers, { client := 3, chat := 1 }, some 0, fun _ => .proceed .stored⟩).2.tables
  sequences := { client := 3, chat := 2 }

theorem oneChat_ready : oneChat.Ready := ⟨rfl, rfl, fun _ _ => List.not_mem_nil⟩

theorem load_kept_oneChat :
    ∃ s', oneChat.load (fun _ => []) .default (fun _ _ => .fail) .loadData = some s' ∧
      (oneChat.Kept .loadData s' ↔
        ∀ f ∈ [Fetch.contacts, Fetch.chats], oneChat.Spared (fun _ _ => .fail) f) :=
  load_kept_iff _ _ _ oneChat_ready .loadData

/-- The transaction cannot be opened, and the chat is no longer shown. -/
theorem not_kept_oneChat :
    oneChat.Ready ∧ Fetch.shown oneChat.client.lists .chats =
        Fetch.stored oneChat.tables oneChat.user .chats ∧
      ∃ s', oneChat.load (fun _ => []) .default (fun _ _ => .fail) .loadChats = some s' ∧
        Fetch.shown s'.client.lists .chats = [] ∧ ¬ oneChat.Kept .loadChats s' := by
  refine ⟨oneChat_ready, by decide, _, rfl, rfl, fun h => ?_⟩
  rcases h.chats with hperm | heq
  · exact absurd hperm (by decide)
  · exact absurd heq (by decide)

end Loading

end Elegram
