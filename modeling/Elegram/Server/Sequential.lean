import Elegram.Server.StorageRules
import Elegram.Foundation.Run

/-!
# The server, one request at a time

The jobs of all sessions, run one after the other on the database. `JobM.serve` runs a job to its
end; its storage calls run the programs of the storage connection, each in a transaction of its
own. `serve_change` is the only place where jobs and storage functions are looked into: it lists
what a request can do to the session and to the database.
-/

namespace Elegram

open ReadCommitted Transition

variable (hashPassword : String → List UInt8)

/-- A session and the database at the end of a job, with the messages that it has written. -/
structure Served where
  clientState : Option ClientState
  conn : Conn postgres
  written : List WrappedMessage

/-- A job that runs to its end with nothing else going on; `none` when the assertion in `state`
fails. -/
def JobM.serve : JobM Unit → Option ClientState → Conn postgres → Option Served
  | .pure _, st, conn => some ⟨st, conn, []⟩
  | .call op k, st, conn =>
    let r := (storageProg hashPassword op).eval { conn with own := some 0 }
    (k r.1).serve st r.2
  | .loggedIn k, st, conn => (k st.isSome).serve st conn
  | .state k, st, conn => st.bind fun st' => (k st').serve st conn
  | .setState st k, _, conn => k.serve (some st) conn
  | .write mesg k, st, conn =>
    (k.serve st conn).map fun served => { served with written := mesg :: served.written }

/-- The database and the login states of the sessions. -/
structure SequentialServer where
  tables : Tables
  sequences : Sequences
  sessions : List (Option ClientState)

namespace SequentialServer

/-- The empty schema, and nobody connected. -/
def initial : SequentialServer where
  tables := 0
  sequences := .initial
  sessions := []

inductive Event
  | connect
  /-- The `i`-th session sends a request; the `n`-th action on the database ends as `choices n`
  says. -/
  | request (i : ℕ) (request : Request) (choices : ℕ → Choice)

/-- What becomes of a request of a session in the state `st`. -/
def serve (tables : Tables) (sequences : Sequences) (st : Option ClientState) (request : Request)
    (choices : ℕ → Choice) : Option Served :=
  (requestJob request).bind fun job =>
    job.serve hashPassword st ⟨tables, sequences, some 0, choices⟩

def step (s : SequentialServer) : Event → Option SequentialServer
  | .connect => some { s with sessions := s.sessions ++ [none] }
  | .request i request choices => do
    let st ← s.sessions[i]?
    let served ← serve hashPassword s.tables s.sequences st request choices
    some {
      tables := served.conn.tables
      sequences := served.conn.sequences
      sessions := s.sessions.set i served.clientState }

end SequentialServer

/-! ### What a request can do -/

variable {hashPassword}

/-- The change that a request brings about: a new client, message, pair of contacts or chat, a
login, or nothing. -/
inductive Change (hashPassword : String → List UInt8) (tables : Tables) (sequences : Sequences)
    (st : Option ClientState) (choices : ℕ → Choice) :
    Request → Option ClientState → Tables → Sequences → Prop
  | nothing {request : Request} {seq : Sequences} (hle : sequences.Le seq) :
      Change hashPassword tables sequences st choices request st tables seq
  | registered {mesg : RegisterRequest} {id : PgInt}
      (hemail : ∀ row ∈ tables.client, row.email ≠ mesg.email) (hid : id.val = sequences.client) :
      Change hashPassword tables sequences st choices (.registerRequest mesg) st
        (tables + { (0 : Tables) with
          client := [⟨id, mesg.name, mesg.email, hashPassword mesg.password⟩] })
        { sequences with client := sequences.client + 1 }
  | loggedIn {mesg : LoginRequest} {row : ClientRow} {seq : Sequences} (hle : sequences.Le seq)
      (hrow : row ∈ tables.client) (hemail : row.email = mesg.email) :
      Change hashPassword tables sequences st choices (.loginRequest mesg)
        (some { userId := row.id.toUInt64, userName := row.name, email := mesg.email }) tables seq
  | sent {mesg : SendMessageRequest} {user : ClientState} {sender chat : PgInt} {text : String}
      (hst : st = some user) (hsender : PgInt.ofUInt64? user.userId = some sender)
      (hcan : tables.CanSend sender chat) :
      Change hashPassword tables sequences st choices (.sendMesgRequest mesg) st
        (tables + { (0 : Tables) with message := [⟨sender, chat, text⟩] }) sequences
  | addedContact {mesg : AddContactRequest} {contacts : List ClientToContactRow} :
      Change hashPassword tables sequences st choices (.addContactRequest mesg) st
        (tables + { (0 : Tables) with clientToContact := contacts }) sequences
  | createdChat {mesg : CreateChatRequest} {user : ClientState} {a b chat : PgInt}
      {row : ClientRow} (hst : st = some user) (ha : PgInt.ofUInt64? user.userId = some a)
      (hb : PgInt.ofUInt64? mesg.friendId = some b) (hcalm : Calm 9 choices)
      (hcan : tables.CanChat a b) (hrow : row ∈ tables.client) (hid : row.id = b)
      (hchat : chat.val = sequences.chat) :
      Change hashPassword tables sequences st choices (.createChatRequest mesg) st
        (tables + chatRows a b chat user.userName row.name)
        { sequences with chat := sequences.chat + 1 }

section Serve

variable {tables : Tables} {sequences : Sequences} {st : Option ClientState}
  {choices : ℕ → Choice}

theorem serve_call {op : StorageCall} {k : op.Result → JobM Unit} {conn : Conn postgres} :
    (JobM.call op k).serve hashPassword st conn =
      (k ((storageProg hashPassword op).eval { conn with own := some 0 }).1).serve hashPassword st
        ((storageProg hashPassword op).eval { conn with own := some 0 }).2 := rfl

/-- The session and the database after one storage call and the response to it. -/
def afterCall (hashPassword : String → List UInt8) (tables : Tables) (sequences : Sequences)
    (choices : ℕ → Choice) (op : StorageCall) (respond : op.Result → Response)
    (st : Option ClientState) : Served :=
  let r := (storageProg hashPassword op).eval ⟨tables, sequences, some 0, choices⟩
  ⟨st, r.2, [.response (respond r.1)]⟩

/-- The call that a request of a user makes, apart from registration and login, and the response
to its result. -/
def guardedCall (user : ClientState) :
    Request → Option ((op : StorageCall) × (op.Result → Response))
  | .chatsRequest => some ⟨.getChats user.userId, .chatsResponse⟩
  | .contactsRequest => some ⟨.getContacts user.userId, .contactsResponse⟩
  | .messagesRequest mesg => some ⟨.getMessages mesg.chatId, .messagesResponse⟩
  | .sendMesgRequest mesg =>
    some ⟨.sendMessage user.userId (mesg.mesg.getD .default), statusResponse⟩
  | .addContactRequest mesg => some ⟨.addContact user.userId mesg.email, statusResponse⟩
  | .createChatRequest mesg =>
    some ⟨.createChat user.userId user.userName mesg.friendId, statusResponse⟩
  | _ => none

namespace SequentialServer

theorem serve_registerRequest (mesg : RegisterRequest) :
    serve hashPassword tables sequences st (.registerRequest mesg) choices =
      some (afterCall hashPassword tables sequences choices
        (.registration mesg.name mesg.email mesg.password) statusResponse st) := rfl

theorem serve_guarded {request : Request} {user : ClientState} {op : StorageCall}
    {respond : op.Result → Response} (h : guardedCall user request = some ⟨op, respond⟩) :
    serve hashPassword tables sequences (some user) request choices =
      some (afterCall hashPassword tables sequences choices op respond (some user)) := by
  cases request <;> cases h <;> rfl

/-- A request that is served is a registration or a login, comes without a profile, or makes its
call. -/
theorem serve_cases {request : Request} {served : Served}
    (h : serve hashPassword tables sequences st request choices = some served) :
    (∃ mesg, request = .registerRequest mesg) ∨ (∃ mesg, request = .loginRequest mesg) ∨
    (st = none ∧ served = ⟨none, ⟨tables, sequences, some 0, choices⟩, [.response .msgNotSet]⟩) ∨
    ∃ user op respond, st = some user ∧ guardedCall user request = some ⟨op, respond⟩ ∧
      served = afterCall hashPassword tables sequences choices op respond (some user) := by
  cases request with
  | registerRequest mesg => exact .inl ⟨mesg, rfl⟩
  | loginRequest mesg => exact .inr (.inl ⟨mesg, rfl⟩)
  | msgNotSet => cases h
  | _ =>
    refine .inr (.inr ?_)
    cases st with
    | none =>
      cases h
      exact .inl ⟨rfl, rfl⟩
    | some user =>
      cases h
      exact .inr ⟨user, _, _, rfl, rfl, rfl⟩

/-- The login job after its storage call. -/
theorem loginRequestJob_eq (mesg : LoginRequest) :
    ∃ k, loginRequestJob mesg = .call (.login mesg.email mesg.password) k ∧
      (∀ error, k (.error error) = write (.loginResponse none)) ∧
      ∀ user, k (.ok user) =
        .setState { userId := user.1, userName := user.2, email := mesg.email } (.state fun st =>
          write (.loginResponse (some ⟨st.userId, st.userName, st.email⟩))) :=
  ⟨_, rfl, fun error => (by cases error <;> rfl), fun _ => rfl⟩

/-- The session and the database after a login with the given result. -/
def afterLogin (email : String) (st : Option ClientState) :
    Except LoginError (UInt64 × String) × Conn postgres → Served
  | (.ok (userId, userName), conn) =>
    ⟨some ⟨userId, userName, email⟩, conn,
      [.response (.loginResponse (some ⟨userId, userName, email⟩))]⟩
  | (.error _, conn) => ⟨st, conn, [.response (.loginResponse none)]⟩

theorem serve_loginRequest (mesg : LoginRequest) :
    serve hashPassword tables sequences st (.loginRequest mesg) choices =
      some (afterLogin mesg.email st
        ((storageProg hashPassword (.login mesg.email mesg.password)).eval
          ⟨tables, sequences, some 0, choices⟩)) := by
  obtain ⟨k, hk, herror, hok⟩ := loginRequestJob_eq mesg
  rw [serve, requestJob, Option.bind_some, hk, serve_call]
  generalize (storageProg hashPassword (.login mesg.email mesg.password)).eval _ = r
  obtain ⟨result, conn⟩ := r
  cases result with
  | error error => rw [herror]; rfl
  | ok user => rw [hok]; rfl

/-- **What a request does.** -/
theorem serve_change {request : Request} {served : Served}
    (h : serve hashPassword tables sequences st request choices = some served) :
    Change hashPassword tables sequences st choices request served.clientState
      served.conn.tables served.conn.sequences := by
  have hsame : ∀ {request : Request} {conn : Conn postgres}, Unchanged tables sequences conn →
      Change hashPassword tables sequences st choices request st conn.tables conn.sequences := by
    intro request conn hconn
    rw [hconn.1]
    exact .nothing hconn.2
  rcases serve_cases h with
    ⟨mesg, rfl⟩ | ⟨mesg, rfl⟩ | ⟨rfl, rfl⟩ | ⟨user, op, respond, rfl, hop, rfl⟩
  · cases h
    rcases storageProg_ensures hashPassword tables sequences choices
      (.registration mesg.name mesg.email mesg.password) with
      ⟨-, hrefused⟩ | ⟨-, hemail, id, hid, htables, hseq⟩
    · exact hsame hrefused.1
    · rw [htables, hseq]
      exact .registered hemail hid
  · rw [serve_loginRequest] at h
    obtain ⟨⟨htables, hseq⟩, huser, -⟩ := storageProg_ensures hashPassword tables sequences choices
      (.login mesg.email mesg.password)
    generalize (storageProg hashPassword (.login mesg.email mesg.password)).eval _ = r at *
    obtain ⟨result, conn⟩ := r
    cases result with
    | error error =>
      cases h
      exact hsame ⟨htables, hseq ▸ .refl _⟩
    | ok user =>
      obtain ⟨row, hrow, hemail, rfl⟩ := huser _ rfl
      cases h
      dsimp only [afterLogin] at htables hseq ⊢
      rw [htables]
      exact .loggedIn (hseq ▸ .refl _) hrow hemail
  · exact .nothing (.refl _)
  · have hpost := storageProg_ensures hashPassword tables sequences choices op
    cases request with
    | chatsRequest | contactsRequest | messagesRequest =>
      cases hop
      exact hsame hpost.1
    | sendMesgRequest mesg =>
      cases hop
      rcases hpost with ⟨-, hrefused⟩ | ⟨-, sender, chat, hsender, -, hcan, htables, hseq⟩
      · exact hsame hrefused.1
      · rw [afterCall, htables, hseq]
        exact .sent rfl hsender hcan
    | addContactRequest mesg =>
      cases hop
      rcases hpost with ⟨-, hconn⟩ | ⟨-, ⟨contacts, htables⟩, hseq⟩
      · exact hsame hconn
      · rw [afterCall, htables, hseq]
        exact .addedContact
    | createChatRequest mesg =>
      cases hop
      rcases hpost with ⟨-, hrefused⟩ |
        ⟨-, hcalm, -, a, b, chat, row, ha, hb, hcan, hrow, hid, hchat, htables, hseq⟩
      · exact hsame hrefused.1
      · rw [afterCall, htables, hseq]
        exact .createdChat rfl ha hb hcalm hcan hrow hid hchat
    | registerRequest | loginRequest | msgNotSet => cases hop

end SequentialServer

end Serve

/-! ### Well-formed databases -/

/-- What the keys, the references and the hashing of passwords guarantee. -/
structure Tables.WellFormed (hashPassword : String → List UInt8) (t : Tables) (seq : Sequences) :
    Prop where
  clientIds : (t.client.map ClientRow.id).Nodup
  emails : (t.client.map ClientRow.email).Nodup
  hashes : ∀ row ∈ t.client, ∃ password, row.passwordHash = hashPassword password
  clients : ∀ row ∈ t.client, row.id.val < seq.client
  chats : ∀ chat ∈ t.chat, 0 < chat.val ∧ chat.val < seq.chat
  /-- Every chat has a member. -/
  member : ∀ chat ∈ t.chat, ∃ row ∈ t.clientToChat, row.chatId = chat
  memberships : ∀ row ∈ t.clientToChat, row.chatId ∈ t.chat ∧ t.isRegistered row.clientId
  messages : ∀ row ∈ t.message, row.chatId ∈ t.chat
  nextChat : 0 < seq.chat

section WellFormed

variable {t : Tables} {seq seq' : Sequences}

theorem Tables.WellFormed.mono (h : t.WellFormed hashPassword seq) (hle : seq.Le seq') :
    t.WellFormed hashPassword seq' :=
  { h with
    clients := fun row hrow => Nat.lt_of_lt_of_le (h.clients row hrow) hle.1
    chats := fun chat hchat =>
      ⟨(h.chats chat hchat).1, Nat.lt_of_lt_of_le (h.chats chat hchat).2 hle.2⟩
    nextChat := Nat.lt_of_lt_of_le h.nextChat hle.2 }

theorem Tables.mem_of_isRegistered {id : PgInt} (h : t.isRegistered id) :
    ∃ row ∈ t.client, row.id = id := by
  simpa [Tables.isRegistered] using h

theorem Tables.hasChat_iff {chat : PgInt} : t.hasChat chat ↔ chat ∈ t.chat := by
  simp [Tables.hasChat]

theorem Tables.WellFormed.accounts_eq (h : t.WellFormed hashPassword seq) {row : ClientRow}
    (hrow : row ∈ t.client) : t.accounts row.email = [row] := by
  have hcount : (t.accounts row.email).length = 1 := by
    have hone := List.count_eq_one_of_mem h.emails (List.mem_map_of_mem hrow)
    rwa [List.count_eq_countP, List.countP_map, List.countP_eq_length_filter] at hone
  obtain ⟨row', hrow'⟩ := List.length_eq_one_iff.mp hcount
  have hmem : row ∈ t.accounts row.email := List.mem_filter.mpr ⟨hrow, by simp⟩
  rw [hrow', List.mem_singleton] at hmem
  rw [hrow', ← hmem]

theorem Tables.WellFormed.addClient (h : t.WellFormed hashPassword seq) {id : PgInt}
    {name email password : String} (hemail : ∀ row ∈ t.client, row.email ≠ email)
    (hid : id.val = seq.client) :
    (t + { (0 : Tables) with client := [⟨id, name, email, hashPassword password⟩] }).WellFormed
      hashPassword { seq with client := seq.client + 1 } where
  clientIds := by
    simp only [add_client, List.map_append, List.map_cons, List.map_nil]
    refine List.nodup_append.mpr ⟨h.clientIds, List.nodup_singleton _, ?_⟩
    intro old hold new hnew heq
    obtain ⟨row, hrow, rfl⟩ := List.mem_map.mp hold
    have hlt := h.clients row hrow
    rw [heq, List.mem_singleton.mp hnew, hid] at hlt
    exact Nat.lt_irrefl _ hlt
  emails := by
    simp only [add_client, List.map_append, List.map_cons, List.map_nil]
    refine List.nodup_append.mpr ⟨h.emails, List.nodup_singleton _, ?_⟩
    intro old hold new hnew heq
    obtain ⟨row, hrow, rfl⟩ := List.mem_map.mp hold
    exact hemail row hrow (heq.trans (List.mem_singleton.mp hnew))
  hashes row hrow := by
    rcases List.mem_append.mp hrow with hrow | hrow
    · exact h.hashes row hrow
    · rw [List.mem_singleton.mp hrow]
      exact ⟨password, rfl⟩
  clients row hrow := by
    rcases List.mem_append.mp hrow with hrow | hrow
    · exact Nat.lt_succ_of_lt (h.clients row hrow)
    · rw [List.mem_singleton.mp hrow, hid]
      exact Nat.lt_succ_self _
  chats chat hchat := h.chats chat (by simpa using hchat)
  member chat hchat := by simpa using h.member chat (by simpa using hchat)
  memberships row hrow := by
    have hold := h.memberships row (by simpa using hrow)
    exact ⟨by simpa using hold.1, by simp [hold.2]⟩
  messages row hrow := by simpa using h.messages row (by simpa using hrow)
  nextChat := h.nextChat

theorem Tables.WellFormed.addMessage (h : t.WellFormed hashPassword seq) {sender chat : PgInt}
    {text : String} (hchat : t.hasChat chat) :
    (t + { (0 : Tables) with message := [⟨sender, chat, text⟩] }).WellFormed hashPassword seq where
  clientIds := by simpa using h.clientIds
  emails := by simpa using h.emails
  hashes := by simpa using h.hashes
  clients := by simpa using h.clients
  chats := by simpa using h.chats
  member := by simpa using h.member
  memberships row hrow := by
    have hold := h.memberships row (by simpa using hrow)
    exact ⟨by simpa using hold.1, by simp [hold.2]⟩
  messages row hrow := by
    rcases List.mem_append.mp hrow with hrow | hrow
    · simpa using h.messages row hrow
    · rw [List.mem_singleton.mp hrow]
      simpa using hasChat_iff.mp hchat
  nextChat := h.nextChat

theorem Tables.WellFormed.addContacts (h : t.WellFormed hashPassword seq)
    (contacts : List ClientToContactRow) :
    (t + { (0 : Tables) with clientToContact := contacts }).WellFormed hashPassword seq where
  clientIds := by simpa using h.clientIds
  emails := by simpa using h.emails
  hashes := by simpa using h.hashes
  clients := by simpa using h.clients
  chats := by simpa using h.chats
  member := by simpa using h.member
  memberships row hrow := by
    have hold := h.memberships row (by simpa using hrow)
    exact ⟨by simpa using hold.1, by simp [hold.2]⟩
  messages := by simpa using h.messages
  nextChat := h.nextChat

theorem Tables.WellFormed.addChat (h : t.WellFormed hashPassword seq) {a b chat : PgInt}
    {aName bName : String} (ha : t.isRegistered a) (hb : t.isRegistered b)
    (hchat : chat.val = seq.chat) :
    (t + chatRows a b chat aName bName).WellFormed hashPassword
      { seq with chat := seq.chat + 1 } where
  clientIds := by simpa [chatRows] using h.clientIds
  emails := by simpa [chatRows] using h.emails
  hashes := by simpa [chatRows] using h.hashes
  clients := by simpa [chatRows] using h.clients
  chats c hc := by
    rcases List.mem_append.mp hc with hc | hc
    · exact ⟨(h.chats c hc).1, Nat.lt_succ_of_lt (h.chats c hc).2⟩
    · rw [List.mem_singleton.mp hc, hchat]
      exact ⟨h.nextChat, Nat.lt_succ_self _⟩
  member c hc := by
    rcases List.mem_append.mp hc with hc | hc
    · obtain ⟨row, hrow, hid⟩ := h.member c hc
      exact ⟨row, List.mem_append_left _ hrow, hid⟩
    · rw [List.mem_singleton.mp hc]
      exact ⟨_, List.mem_append_right _ (List.mem_cons_self ..), rfl⟩
  memberships row hrow := by
    rcases List.mem_append.mp hrow with hrow | hrow
    · have hold := h.memberships row hrow
      exact ⟨List.mem_append_left _ hold.1, by simp [hold.2]⟩
    · simp only [chatRows, List.mem_cons, List.not_mem_nil, or_false] at hrow
      rcases hrow with rfl | rfl
      · exact ⟨by simp [chatRows], by simp [ha]⟩
      · exact ⟨by simp [chatRows], by simp [hb]⟩
  messages row hrow := by
    have hold := h.messages row (by simpa [chatRows] using hrow)
    exact List.mem_append_left _ hold
  nextChat := Nat.succ_pos _

/-- A request keeps the database well-formed. -/
theorem Change.wellFormed {st st' : Option ClientState} {choices : ℕ → Choice} {request : Request}
    {t' : Tables} (h : t.WellFormed hashPassword seq)
    (hchange : Change hashPassword t seq st choices request st' t' seq') :
    t'.WellFormed hashPassword seq' := by
  cases hchange with
  | nothing hle => exact h.mono hle
  | registered hemail hid => exact h.addClient hemail hid
  | loggedIn hle => exact h.mono hle
  | sent _ _ hcan => exact h.addMessage hcan.2.2
  | addedContact => exact h.addContacts _
  | createdChat _ _ _ _ hcan _ _ hchat => exact h.addChat hcan.2.1 hcan.2.2 hchat

/-- Rows of `Client` stay. -/
theorem Change.client_subset {st st' : Option ClientState} {choices : ℕ → Choice}
    {request : Request} {t' : Tables}
    (hchange : Change hashPassword t seq st choices request st' t' seq') :
    t.client ⊆ t'.client := by
  cases hchange <;> simp [chatRows]

/-- The profile of a session is that of a client. -/
def Profile (t : Tables) (user : ClientState) : Prop :=
  ∃ row ∈ t.client, user = { userId := row.id.toUInt64, userName := row.name, email := row.email }

/-- A request keeps profiles up to date. -/
theorem Change.profile {st st' : Option ClientState} {choices : ℕ → Choice} {request : Request}
    {t' : Tables} (hchange : Change hashPassword t seq st choices request st' t' seq')
    (h : ∀ user, st = some user → Profile t user) : ∀ user, st' = some user → Profile t' user := by
  have hkeep : ∀ user, Profile t user → Profile t' user :=
    fun user ⟨row, hrow, huser⟩ => ⟨row, hchange.client_subset hrow, huser⟩
  cases hchange with
  | @loggedIn mesg row _ _ hrow hemail =>
    intro user huser
    cases huser
    exact ⟨row, hrow, by rw [hemail]⟩
  | _ => exact fun user huser => hkeep user (h user huser)

end WellFormed

namespace SequentialServer

/-- The invariant of the server. -/
structure WellFormed (hashPassword : String → List UInt8) (s : SequentialServer) : Prop where
  tables : s.tables.WellFormed hashPassword s.sequences
  sessions : ∀ user, some user ∈ s.sessions → Profile s.tables user

theorem initial_wellFormed : WellFormed hashPassword initial where
  tables :=
    { clientIds := List.nodup_nil
      emails := List.nodup_nil
      hashes := by simp [initial]
      clients := by simp [initial]
      chats := by simp [initial]
      member := by simp [initial]
      memberships := by simp [initial]
      messages := by simp [initial]
      nextChat := by decide }
  sessions := by simp [initial]

/-- What a step does. -/
theorem step_request {s s' : SequentialServer} {i : ℕ} {request : Request} {choices : ℕ → Choice}
    (h : s.step hashPassword (.request i request choices) = some s') :
    ∃ st served, s.sessions[i]? = some st ∧
      serve hashPassword s.tables s.sequences st request choices = some served ∧
      s' = ⟨served.conn.tables, served.conn.sequences, s.sessions.set i served.clientState⟩ := by
  simp only [step, Option.bind_eq_bind, Option.bind_eq_some_iff, Option.some.injEq] at h
  obtain ⟨st, hst, served, hserved, rfl⟩ := h
  exact ⟨st, served, hst, hserved, rfl⟩

theorem step_of_serve {s : SequentialServer} {i : ℕ} {request : Request} {choices : ℕ → Choice}
    {st : Option ClientState} {served : Served} (hst : s.sessions[i]? = some st)
    (h : serve hashPassword s.tables s.sequences st request choices = some served) :
    s.step hashPassword (.request i request choices) = some
      ⟨served.conn.tables, served.conn.sequences, s.sessions.set i served.clientState⟩ := by
  simp only [step, hst, h, Option.bind_eq_bind, Option.bind_some]

theorem WellFormed.of_step {s s' : SequentialServer} {e : Event} (h : s.WellFormed hashPassword)
    (hstep : s.step hashPassword e = some s') : s'.WellFormed hashPassword := by
  cases e with
  | connect =>
    cases hstep
    exact ⟨h.tables, fun user huser => h.sessions user (by simpa using huser)⟩
  | request i request choices =>
    obtain ⟨st, served, hst, hserved, rfl⟩ := step_request hstep
    have hchange := serve_change hserved
    refine ⟨hchange.wellFormed h.tables, fun user huser => ?_⟩
    have hkeep : ∀ user, Profile s.tables user → Profile served.conn.tables user :=
      fun user ⟨row, hrow, huser⟩ => ⟨row, hchange.client_subset hrow, huser⟩
    rcases List.mem_or_eq_of_mem_set huser with huser | huser
    · exact hkeep user (h.sessions user huser)
    · exact hchange.profile (fun user huser => h.sessions user
        (List.mem_of_getElem? (hst.trans (congrArg some huser)))) user huser.symm

theorem reachable_wellFormed {s : SequentialServer}
    (h : Reachable (step hashPassword) initial s) : s.WellFormed hashPassword :=
  h.invariant (fun _ _ _ hs hstep => hs.of_step hstep) initial_wellFormed

end SequentialServer

end Elegram
