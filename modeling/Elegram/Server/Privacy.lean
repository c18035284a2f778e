import Elegram.Server.Sequential

/-!
# Who can read what

`get_messages` does not look at `ClientToChat`, and `MessagesRequestJob` passes on whatever chat
the client asks for. Every other request keeps the messages of foreign chats secret, in the sense
of two runs: databases that differ only in such messages give the same responses
(`Private.blind`). `private_iff` tells exactly which requests are private in this sense.
-/

namespace Elegram

open ReadCommitted Transition

variable {hashPassword : String → List UInt8}

/-- The statement reads messages of allowed chats only. -/
def Statement.Reads (allowed : PgInt → Prop) : Statement → Prop
  | .getMessages chatId => ∀ chat, PgInt.ofUInt64? chatId = some chat → allowed chat
  | _ => True

/-- The same of a storage call. -/
def StorageCall.Reads (allowed : PgInt → Prop) : StorageCall → Prop
  | .getMessages chatId => ∀ chat, PgInt.ofUInt64? chatId = some chat → allowed chat
  | _ => True

/-- The storage functions read the messages of a chat only when they are asked for them. -/
theorem StorageCall.Executes.reads {allowed : PgInt → Prop} {op : StorageCall} {st : Statement}
    (h : op.Executes st) (hop : op.Reads allowed) : st.Reads allowed := by
  cases st with
  | getMessages chatId =>
    cases op with
    | getMessages chatId' =>
      cases h
      exact hop
    | _ => cases h
  | _ => exact trivial

/-! ### What a user may see -/

namespace Tables

/-- The user has a row for the chat in `ClientToChat`. -/
def MemberOf (t : Tables) (userId : UInt64) (chat : PgInt) : Prop :=
  ∃ row ∈ t.clientToChat, row.clientId.toUInt64 = userId ∧ row.chatId = chat

instance (t : Tables) (userId : UInt64) : DecidablePred (t.MemberOf userId) := fun _ =>
  inferInstanceAs (Decidable (∃ row ∈ t.clientToChat, _))

/-- The two databases differ only in messages of chats that the user is not a member of. -/
structure SameView (userId : UInt64) (s t : Tables) : Prop where
  client : s.client = t.client
  chat : s.chat = t.chat
  clientToChat : s.clientToChat = t.clientToChat
  clientToContact : s.clientToContact = t.clientToContact
  message : (s.message.filter fun row => s.MemberOf userId row.chatId) =
    t.message.filter fun row => s.MemberOf userId row.chatId

variable {s t : Tables} {userId : UInt64}

theorem SameView.messagesOf_eq (h : SameView userId s t) {chat : PgInt}
    (hmember : s.MemberOf userId chat) : s.messagesOf chat = t.messagesOf chat := by
  -- the rows of one chat are among those of all chats of the user
  have hfilter : ∀ rows : List MessageRow, (rows.filter fun row => row.chatId = chat) =
      (rows.filter fun row => s.MemberOf userId row.chatId).filter
        fun row => row.chatId = chat := by
    intro rows
    rw [List.filter_filter]
    refine List.filter_congr fun row _ => ?_
    by_cases hrow : row.chatId = chat <;> simp [hrow, hmember]
  rw [messagesOf, messagesOf, hfilter, h.message, ← hfilter]

/-- A chat that does not exist has no messages. -/
theorem WellFormed.messagesOf_eq_nil {seq : Sequences} (h : t.WellFormed hashPassword seq)
    {chat : PgInt} (hchat : chat ∉ t.chat) : t.messagesOf chat = [] := by
  rw [messagesOf, List.map_eq_nil_iff, List.filter_eq_nil_iff]
  intro row hrow hid
  exact hchat (of_decide_eq_true hid ▸ h.messages row hrow)

/-- Only one statement reads the table of messages. -/
theorem exec_eq_of_message {st : Statement} (hst : ∀ chatId, st ≠ .getMessages chatId)
    {client : List ClientRow} {chat : List PgInt} {clientToChat : List ClientToChatRow}
    {message message' : List MessageRow} {clientToContact : List ClientToContactRow}
    (seq : Sequences) :
    st.exec ⟨client, chat, clientToChat, message, clientToContact⟩ seq =
      st.exec ⟨client, chat, clientToChat, message', clientToContact⟩ seq := by
  cases st with
  | getMessages chatId => exact absurd rfl (hst chatId)
  | _ => rfl

/-- Statements that read only chats of the user, or chats that do not exist, cannot tell the two
databases apart. -/
theorem SameView.alike {seq seq' : Sequences} (h : SameView userId s t)
    (hs : s.WellFormed hashPassword seq) (ht : t.WellFormed hashPassword seq') :
    Prog.Alike postgres (Statement.Reads fun chat => chat ∈ s.chat → s.MemberOf userId chat)
      s t := by
  intro st own sequences hst
  change st.exec (s + own) sequences = st.exec (t + own) sequences
  by_cases hget : ∃ chatId, st = .getMessages chatId
  · obtain ⟨chatId, rfl⟩ := hget
    have hmessages : ∀ chat, PgInt.ofUInt64? chatId = some chat →
        s.messagesOf chat = t.messagesOf chat := by
      intro chat hchat
      by_cases hexists : chat ∈ s.chat
      · exact h.messagesOf_eq (hst chat hchat hexists)
      · rw [hs.messagesOf_eq_nil hexists, ht.messagesOf_eq_nil (h.chat ▸ hexists)]
    simp only [Statement.exec]
    cases hchat : PgInt.ofUInt64? chatId with
    | none => rfl
    | some chat =>
      simp only [Option.map_some, messagesOf_add, hmessages chat hchat]
  · have hst' : ∀ chatId, st ≠ .getMessages chatId := fun chatId heq => hget ⟨chatId, heq⟩
    obtain ⟨client, chat, clientToChat, message, clientToContact⟩ := s
    obtain ⟨client', chat', clientToChat', message', clientToContact'⟩ := t
    obtain ⟨rfl, rfl, rfl, rfl, -⟩ := h
    exact exec_eq_of_message hst' sequences

end Tables

/-! ### Private requests -/

/-- The message shows a row, or the part of it that was read before an error. -/
def MessageRow.ShownAs (row : MessageRow) (mesg : MessageToRecieve) : Prop :=
  ∃ k, mesg = partialMessage { senderId := 0, text := "" }
    (messageSetters (row.senderId, row.mesg)) k

namespace SequentialServer

/-- **Privacy.** The request of the user shows messages of his chats only; and it gets the same
response in every state of the database that differs from this one in messages of foreign chats
only. -/
structure Private (hashPassword : String → List UInt8) (s : SequentialServer) (user : ClientState)
    (request : Request) : Prop where
  own : ∀ choices served messages,
    serve hashPassword s.tables s.sequences (some user) request choices = some served →
    .response (.messagesResponse messages) ∈ served.written →
    ∀ mesg ∈ messages, ∃ row ∈ s.tables.message,
      s.tables.MemberOf user.userId row.chatId ∧ row.ShownAs mesg
  blind : ∀ s', Reachable (step hashPassword) initial s' →
    s.tables.SameView user.userId s'.tables → s.sequences = s'.sequences → ∀ choices,
    (serve hashPassword s.tables s.sequences (some user) request choices).map Served.written =
      (serve hashPassword s'.tables s'.sequences (some user) request choices).map Served.written

/-- The request does not ask for the messages of an existing chat that the user is not a member
of. -/
def Allowed (s : SequentialServer) (user : ClientState) (request : Request) : Prop :=
  ∀ mesg chat, request = .messagesRequest mesg → PgInt.ofUInt64? mesg.chatId = some chat →
    chat ∈ s.tables.chat → s.tables.MemberOf user.userId chat

variable {s s' : SequentialServer} {user : ClientState} {request : Request}

/-- Messages come from `get_messages` alone. -/
theorem messagesResponse_of_serve {t : Tables} {seq : Sequences} {choices : ℕ → Choice}
    {served : Served} {messages : List MessageToRecieve}
    (h : serve hashPassword t seq (some user) request choices = some served)
    (hmem : .response (.messagesResponse messages) ∈ served.written) :
    ∃ mesg, request = .messagesRequest mesg ∧ ∃ conn,
      (StorageCall.getMessages mesg.chatId).Post hashPassword t seq choices messages conn := by
  have hstatus : ∀ ok, statusResponse ok ≠ .messagesResponse messages :=
    fun ok heq => by simp [statusResponse] at heq
  rcases serve_cases h with ⟨mesg, rfl⟩ | ⟨mesg, rfl⟩ | ⟨hst, -⟩ | ⟨user', op, respond, -, hop, rfl⟩
  · cases h
    simp only [List.mem_singleton, WrappedMessage.response.injEq] at hmem
    exact absurd hmem.symm (hstatus _)
  · rw [serve_loginRequest] at h
    generalize (storageProg hashPassword (.login mesg.email mesg.password)).eval _ = r at h
    obtain ⟨_ | _, conn⟩ := r <;> cases h <;> simp [afterLogin] at hmem
  · cases hst
  · simp only [afterCall, List.mem_singleton, WrappedMessage.response.injEq] at hmem
    cases request with
    | messagesRequest mesg =>
      cases hop
      cases hmem
      exact ⟨mesg, rfl, _,
        storageProg_ensures hashPassword t seq choices (.getMessages mesg.chatId)⟩
    | sendMesgRequest | addContactRequest | createChatRequest =>
      cases hop
      exact absurd hmem.symm (hstatus _)
    | chatsRequest | contactsRequest =>
      cases hop
      cases hmem
    | _ => cases hop

theorem Allowed.own (hwf : s.WellFormed hashPassword) (h : s.Allowed user request)
    {choices : ℕ → Choice} {served : Served} {messages : List MessageToRecieve}
    (hserve : serve hashPassword s.tables s.sequences (some user) request choices = some served)
    (hmem : .response (.messagesResponse messages) ∈ served.written) :
    ∀ mesg ∈ messages, ∃ row ∈ s.tables.message,
      s.tables.MemberOf user.userId row.chatId ∧ row.ShownAs mesg := by
  obtain ⟨request, rfl, conn, -, hread, -⟩ := messagesResponse_of_serve hserve hmem
  rcases hread with rfl | ⟨stored, rows, hstored, hperm, hfilled⟩
  · simp
  · obtain ⟨chat, hchat, rfl⟩ := Option.map_eq_some_iff.mp hstored
    -- what was read is a row of the chat that was asked for
    have hrow : ∀ row ∈ rows, ∀ k, ∃ row' ∈ s.tables.message,
        s.tables.MemberOf user.userId row'.chatId ∧ row'.ShownAs
          (partialMessage { senderId := 0, text := "" } (messageSetters row) k) := by
      intro row hrow k
      obtain ⟨row', hrow', rfl⟩ := List.mem_map.mp (hperm.subset hrow)
      obtain ⟨hrow', hid⟩ := List.mem_filter.mp hrow'
      have hid : row'.chatId = chat := of_decide_eq_true hid
      refine ⟨row', hrow', h request _ rfl (hid ▸ hchat) (hwf.tables.messages row' hrow'), k, rfl⟩
    have hfull : ∀ row, fullMessage { senderId := 0, text := "" } (messageSetters row) =
        partialMessage { senderId := 0, text := "" } (messageSetters row) 2 := fun _ => rfl
    intro mesg hmesg
    rcases hfilled with rfl | ⟨done, row, rest, k, rfl, rfl⟩
    · obtain ⟨row, hmem, rfl⟩ := List.mem_map.mp hmesg
      rw [hfull]
      exact hrow row hmem 2
    · rcases List.mem_append.mp hmesg with hmesg | hmesg
      · obtain ⟨row', hmem, rfl⟩ := List.mem_map.mp hmesg
        rw [hfull]
        exact hrow row' (List.mem_append_left _ hmem) 2
      · rw [List.mem_singleton.mp hmesg]
        exact hrow row (by simp) k

/-- The response to a request depends on what the statements of its call read. -/
theorem Allowed.blind (hwf : s.WellFormed hashPassword) (hwf' : s'.WellFormed hashPassword)
    (h : s.Allowed user request) (hview : s.tables.SameView user.userId s'.tables)
    (hseq : s.sequences = s'.sequences) (choices : ℕ → Choice) :
    (serve hashPassword s.tables s.sequences (some user) request choices).map Served.written =
      (serve hashPassword s'.tables s'.sequences (some user) request choices).map
        Served.written := by
  have halike := hview.alike hwf.tables hwf'.tables
  have heval : ∀ op : StorageCall,
      op.Reads (fun chat => chat ∈ s.tables.chat → s.tables.MemberOf user.userId chat) →
      ((storageProg hashPassword op).eval ⟨s.tables, s.sequences, some 0, choices⟩).1 =
        ((storageProg hashPassword op).eval ⟨s'.tables, s'.sequences, some 0, choices⟩).1 := by
    intro op hop
    rw [← hseq]
    exact ((storageProg_uses op).mono fun _ h => h.reads hop).eval_eq halike _ _ _
  have hcall : ∀ (op : StorageCall) (respond : op.Result → Response),
      op.Reads (fun chat => chat ∈ s.tables.chat → s.tables.MemberOf user.userId chat) →
      (afterCall hashPassword s.tables s.sequences choices op respond (some user)).written =
        (afterCall hashPassword s'.tables s'.sequences choices op respond (some user)).written := by
    intro op respond hop
    rw [afterCall, afterCall, heval op hop]
  cases request with
  | registerRequest mesg =>
    rw [serve_registerRequest, serve_registerRequest, Option.map_some, Option.map_some, hcall]
    exact trivial
  | loginRequest mesg =>
    have hlogin := heval (.login mesg.email mesg.password) trivial
    rw [serve_loginRequest, serve_loginRequest, Option.map_some, Option.map_some]
    generalize (storageProg hashPassword (.login mesg.email mesg.password)).eval _ = r at hlogin ⊢
    generalize (storageProg hashPassword (.login mesg.email mesg.password)).eval _ = r' at hlogin ⊢
    obtain ⟨result, conn⟩ := r
    obtain ⟨result', conn'⟩ := r'
    cases (show result = result' from hlogin)
    cases result <;> rfl
  | msgNotSet => rfl
  | messagesRequest mesg =>
    exact congrArg some (hcall (.getMessages mesg.chatId) .messagesResponse
      fun chat hchat hexists => h mesg chat rfl hchat hexists)
  | chatsRequest => exact congrArg some (hcall (.getChats user.userId) .chatsResponse trivial)
  | contactsRequest =>
    exact congrArg some (hcall (.getContacts user.userId) .contactsResponse trivial)
  | sendMesgRequest mesg =>
    exact congrArg some (hcall (.sendMessage user.userId (mesg.mesg.getD .default)) statusResponse
      trivial)
  | addContactRequest mesg =>
    exact congrArg some (hcall (.addContact user.userId mesg.email) statusResponse trivial)
  | createChatRequest mesg =>
    exact congrArg some (hcall (.createChat user.userId user.userName mesg.friendId) statusResponse
      trivial)

/-! ### Foreign messages -/

/-- The database fails none of the actions to come. -/
def calm : ℕ → Choice := fun _ => .proceed .stored

theorem calm_calm (n : ℕ) : Calm n calm := fun _ _ h => by cases h

/-- A client with a password that is known to him can log in. -/
theorem serve_login_ok {t : Tables} {seq : Sequences} (hwf : t.WellFormed hashPassword seq)
    {row : ClientRow} (hrow : row ∈ t.client) {password : String}
    (hhash : row.passwordHash = hashPassword password) (st : Option ClientState) :
    ∃ served, serve hashPassword t seq st (.loginRequest ⟨row.email, password⟩) calm =
        some served ∧ served.clientState = some ⟨row.id.toUInt64, row.name, row.email⟩ ∧
      served.conn.tables = t ∧ served.conn.sequences = seq := by
  obtain ⟨⟨htables, hseq⟩, -, hok⟩ := storageProg_ensures hashPassword t seq calm
    (.login row.email password)
  have hresult := hok row (calm_calm 5) (hwf.accounts_eq hrow) hhash
  refine ⟨_, serve_loginRequest _, ?_⟩
  generalize (storageProg hashPassword (.login row.email password)).eval _ = r at *
  obtain ⟨result, conn⟩ := r
  cases (show result = _ from hresult)
  exact ⟨rfl, htables, hseq⟩

variable (hashPassword) in
/-- A member of a chat can send a message to it. -/
theorem serve_sendMesg_ok {t : Tables} (seq : Sequences) {sender chat : PgInt}
    (hcan : t.CanSend sender chat) {userId : UInt64} (huser : userId = sender.toUInt64)
    (userName email text : String) :
    ∃ served, serve hashPassword t seq (some ⟨userId, userName, email⟩)
        (.sendMesgRequest ⟨some ⟨chat.toUInt64, text⟩⟩) calm = some served ∧
      served.conn.tables = t + { (0 : Tables) with message := [⟨sender, chat, text⟩] } ∧
      served.conn.sequences = seq := by
  refine ⟨_, rfl, ?_⟩
  have hsender : PgInt.ofUInt64? userId = some sender := huser ▸ PgInt.ofUInt64?_toUInt64 sender
  have hpost := storageProg_ensures hashPassword t seq calm
    (.sendMessage userId ⟨chat.toUInt64, text⟩)
  rcases hpost with ⟨-, -, hno⟩ | ⟨-, sender', chat', hsender', hchat', -, htables, hseq⟩
  · exact absurd ⟨calm_calm 4, sender, chat, hsender, PgInt.ofUInt64?_toUInt64 chat, hcan⟩ hno
  · cases hsender.symm.trans hsender'
    cases (PgInt.ofUInt64?_toUInt64 chat).symm.trans hchat'
    exact ⟨htables, hseq⟩

/-- Somebody can send a message to a chat: one of its members connects, logs in and does. -/
theorem exists_reachable_message (hs : Reachable (step hashPassword) initial s) {chat : PgInt}
    (hchat : chat ∈ s.tables.chat) :
    ∃ s' sender, Reachable (step hashPassword) initial s' ∧ s'.sequences = s.sequences ∧
      s'.tables = s.tables + { (0 : Tables) with message := [⟨sender, chat, ""⟩] } := by
  have hwf := (reachable_wellFormed hs).tables
  obtain ⟨member, hmember, rfl⟩ := hwf.member chat hchat
  obtain ⟨row, hrow, hid⟩ := Tables.mem_of_isRegistered (hwf.memberships member hmember).2
  obtain ⟨password, hhash⟩ := hwf.hashes row hrow
  obtain ⟨login, hlogin, hstate, htables, hseq⟩ := serve_login_ok hwf hrow hhash none
  have hcan : login.conn.tables.CanSend member.clientId member.chatId := by
    rw [htables]
    exact ⟨⟨member, hmember, rfl, rfl⟩, (hwf.memberships member hmember).2,
      Tables.hasChat_iff.mpr hchat⟩
  obtain ⟨sent, hsent, htables', hseq'⟩ := serve_sendMesg_ok hashPassword login.conn.sequences hcan
    (show row.id.toUInt64 = _ by rw [hid]) row.name row.email ""
  have hconnect : s.step hashPassword .connect =
    some { s with sessions := s.sessions ++ [none] } := rfl
  have hlast : (s.sessions ++ [none])[s.sessions.length]? = some none := by simp
  have hlogged :
      ((s.sessions ++ [none]).set s.sessions.length login.clientState)[s.sessions.length]? =
        some (some ⟨row.id.toUInt64, row.name, row.email⟩) := by
    simp [hstate]
  have hreach := ((hs.concat hconnect).concat (step_of_serve hlast hlogin)).concat
    (step_of_serve hlogged hsent)
  exact ⟨_, member.clientId, hreach, hseq'.trans hseq, by rw [htables', htables]⟩

variable (hashPassword user) in
/-- The messages of a chat, when nothing fails. -/
theorem serve_messagesRequest_length (t : Tables) (seq : Sequences) {mesg : MessagesRequest}
    {chat : PgInt} (hchat : PgInt.ofUInt64? mesg.chatId = some chat) :
    ∃ messages, (serve hashPassword t seq (some user) (.messagesRequest mesg) calm).map
      Served.written = some [.response (.messagesResponse messages)] ∧
      messages.length = (t.messagesOf chat).length := by
  obtain ⟨-, -, hall⟩ := storageProg_ensures hashPassword t seq calm (.getMessages mesg.chatId)
  refine ⟨_, rfl, ?_⟩
  have hperm := hall (t.messagesOf chat) calm_calm (by simp only [hchat, Option.map_some])
  rw [hperm.length_eq, List.length_map]

/-- **What a user can read.** A request of a logged-in user is private exactly when it does not
ask for the messages of an existing chat that the user is not a member of. -/
theorem private_iff (hs : Reachable (step hashPassword) initial s) (user : ClientState)
    (request : Request) :
    s.Private hashPassword user request ↔ s.Allowed user request := by
  have hwf := reachable_wellFormed hs
  refine ⟨fun h mesg chat hrequest hchat hexists => ?_, fun h => ⟨?_, ?_⟩⟩
  · subst hrequest
    by_contra hforeign
    obtain ⟨s', sender, hs', hseq, htables⟩ := exists_reachable_message hs hexists
    have hview : s.tables.SameView user.userId s'.tables := by
      rw [htables]
      refine ⟨by simp, by simp, by simp, by simp, ?_⟩
      simp [hforeign]
    have heq := h.blind s' hs' hview hseq.symm calm
    obtain ⟨messages, hmessages, hlen⟩ := serve_messagesRequest_length hashPassword user s.tables
      s.sequences hchat
    obtain ⟨messages', hmessages', hlen'⟩ := serve_messagesRequest_length hashPassword user
      s'.tables s'.sequences hchat
    rw [hmessages, hmessages'] at heq
    cases heq
    rw [htables, hlen] at hlen'
    simp [Tables.messagesOf] at hlen'
  · exact fun choices served messages hserve hmem => h.own hwf hserve hmem
  · exact fun s' hs' hview hseq choices =>
      h.blind hwf (reachable_wellFormed hs') hview hseq choices

/-- Three clients register. The first starts a chat with the second and writes to it. The third
logs in. -/
def foreignChat : List Event :=
  [.connect, .request 0 (.registerRequest ⟨"", "a", ""⟩) calm,
    .request 0 (.registerRequest ⟨"", "b", ""⟩) calm,
    .request 0 (.registerRequest ⟨"", "c", ""⟩) calm, .request 0 (.loginRequest ⟨"a", ""⟩) calm,
    .request 0 (.createChatRequest ⟨2⟩) calm,
    .request 0 (.sendMesgRequest ⟨some ⟨1, "secret"⟩⟩) calm, .connect,
    .request 1 (.loginRequest ⟨"c", ""⟩) calm]

/-- The sessions, the rows of `ClientToChat` and the messages at the end, and the response to the
third client when he asks for the messages of the chat. -/
theorem run_foreignChat : (run (step fun _ => []) initial foreignChat).map (fun s =>
    (s.sessions, s.tables.clientToChat.map (fun row => (row.clientId, row.chatId)),
      s.tables.message, (serve (fun _ => []) s.tables s.sequences (some ⟨3, "", "c"⟩)
        (.messagesRequest ⟨1⟩) calm).map Served.written)) =
    some ([some ⟨1, "", "a"⟩, some ⟨3, "", "c"⟩], [(1, 1), (2, 1)], [⟨1, 1, "secret"⟩],
      some [.response (.messagesResponse [⟨1, "secret"⟩])]) := rfl

/-- The first client may read the chat. -/
theorem private_foreignChat : ∃ s, run (step fun _ => []) initial foreignChat = some s ∧
    s.Private (fun _ => []) ⟨1, "", "a"⟩ (.messagesRequest ⟨1⟩) := by
  obtain ⟨s, hs, hrows⟩ := Option.map_eq_some_iff.mp run_foreignChat
  simp only [Prod.mk.injEq] at hrows
  refine ⟨s, hs, (private_iff ⟨_, hs⟩ _ _).mpr fun mesg chat hrequest hchat _ => ?_⟩
  cases hrequest
  cases (PgInt.ofUInt64?_toUInt64 1).symm.trans hchat
  have hmem : ((1 : PgInt), (1 : PgInt)) ∈ s.tables.clientToChat.map
      fun row => (row.clientId, row.chatId) := by
    rw [hrows.2.1]
    exact List.mem_cons_self ..
  obtain ⟨row, hrow, hids⟩ := List.mem_map.mp hmem
  rw [Prod.mk.injEq] at hids
  exact ⟨row, hrow, by rw [hids.1]; rfl, hids.2⟩

/-- The third client reads it, too. -/
theorem not_private_foreignChat : ∃ s, run (step fun _ => []) initial foreignChat = some s ∧
    s.sessions[1]? = some (some ⟨3, "", "c"⟩) ∧
    ¬ s.Private (fun _ => []) ⟨3, "", "c"⟩ (.messagesRequest ⟨1⟩) := by
  obtain ⟨s, hs, hrows⟩ := Option.map_eq_some_iff.mp run_foreignChat
  simp only [Prod.mk.injEq] at hrows
  obtain ⟨hsessions, hmembers, -, hwritten⟩ := hrows
  refine ⟨s, hs, by rw [hsessions]; rfl, fun h => ?_⟩
  obtain ⟨served, hserve, hresponse⟩ := Option.map_eq_some_iff.mp hwritten
  obtain ⟨row, -, ⟨member, hmember, hid, -⟩, -⟩ := h.own calm served [⟨1, "secret"⟩] hserve
    (by rw [hresponse]; exact List.mem_singleton_self _) ⟨1, "secret"⟩ (List.mem_singleton_self _)
  -- the members of all chats are the first two clients
  have hmem := List.mem_map_of_mem (f := fun row : ClientToChatRow => (row.clientId, row.chatId))
    hmember
  rw [hmembers] at hmem
  have hthree : member.clientId = 3 := PgInt.toUInt64_injective hid
  simp [hthree] at hmem

end SequentialServer

end Elegram
