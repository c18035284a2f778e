import Elegram.Client.Facade

/-!
# What a step of the client does

`Moves` lists what an event can do to the connection, the lock and the lists, whichever operation or
job it goes through, and `step_moves` says that there is nothing else. Invariants of the client are
proved from `Moves`, one case for each kind of step. A handler of MessagesWindow.qml may have
changed the current chat before.
-/

namespace Elegram

open Transition

/-! ### Operations and jobs -/

/-- The request of an operation and the job that makes it. -/
def Operation.request : Operation → Option (Request × Job)
  | .signin email password => some (MessageFactory.createLoginRequest email password, .login)
  | .signup name email password =>
    some (MessageFactory.createRegisterRequest name email password, .register)
  | .sendMessage chatId message =>
    some (MessageFactory.createSendMessageRequest chatId message, .sendMessage)
  | .addContact email => some (MessageFactory.createAddContactRequest email, .addContact)
  | .loadChats => some (MessageFactory.createAllMyChatsRequest, .loadChats)
  | .loadContacts => some (MessageFactory.createAllMyContactsRequest, .loadContacts)
  | .loadData => some (MessageFactory.createAllMyContactsRequest, .loadData)
  | .loadMessages chatId => some (MessageFactory.createLoadMessagesRequest chatId, .loadMessages)
  | .updateConnectionSettings .. => none
  | .createChat friendId => some (MessageFactory.createCreateChatRequest friendId, .createChat)

namespace Job

/-- What the job leaves in the lists. -/
def store : Job → Response → Lists → Lists
  | .loadChats, .chatsResponse chats, l => l.setChats chats
  | .loadContacts, .contactsResponse contacts, l => l.setContacts contacts
  | .loadMessages, .messagesResponse messages, l => l.setMessages messages
  | .loadData, .contactsResponse contacts, l => l.setContacts contacts
  | .loadData, .chatsResponse chats, l => l.setChats chats
  | _, _, l => l

/-- The profile after the job. -/
def profile : Job → Response → Option Client.Profile → Option Client.Profile
  | .login, .loginResponse (some contact), _ =>
    some { userId := contact.userId, userName := contact.name, userEmail := contact.email }
  | _, _, p => p

/-- The signal that the job emits at its end, unless another request follows. -/
def reaction : Job → Response → Option Signal
  | .login, .loginResponse profile => some (.loggedIn profile.isSome)
  | .login, _ => some (.loggedIn false)
  | .register, r => some (.registered (Client.accepted r))
  | .loadChats, _ => some .loadedChats
  | .loadContacts, _ => some .loadedContacts
  | .loadMessages, _ => some .loadedMessages
  | .sendMessage, r => some (.sendedMessage (Client.accepted r))
  | .addContact, r => some (.addedContact (Client.accepted r))
  | .loadData, .contactsResponse _ => none
  | .loadData, _ => some .loadedData
  | .createChat, r => some (.chatCreated (Client.accepted r))

theorem currentChatId_store (job : Job) (r : Response) (l : Lists) :
    (job.store r l).mesagesList.currentChatId = l.mesagesList.currentChatId := by
  cases job <;> cases r <;> rfl

theorem reaction_unlocks {job : Job} {r : Response} {signal : Signal}
    (h : job.reaction r = some signal) : signal.unlocks = true := by
  cases job <;> cases r <;> simp only [reaction, Option.some_inj, reduceCtorEq] at h <;>
    rw [← h] <;> rfl

theorem reaction_eq_none {job : Job} {r : Response} (h : job.reaction r = none) :
    job = .loadData ∧ ∃ contacts, r = .contactsResponse contacts := by
  cases job <;> cases r <;> simp_all [reaction]

end Job

namespace Client

/-- The lists and the profile after a response. -/
def store (job : Job) (r : Response) (c : Client) : Client :=
  { c with profile := job.profile r c.profile, lists := job.store r c.lists }

/-- A job stores the response, and then emits a signal or requests the chats. -/
theorem responseProcessingCallback_eq (job : Job) (id : ℕ) (r : Response) (c : Client) :
    c.responseProcessingCallback job id r =
      match job.reaction r with
      | some signal => (c.store job r).emit id signal .done
      | none => (c.store job r).request MessageFactory.createAllMyChatsRequest .loadData := by
  cases job with
  | login =>
    cases r with
    | loginResponse profile => cases profile <;> rfl
    | _ => rfl
  | _ => cases r <;> rfl

/-- The operations either make a request or change the connection. -/
theorem backend_eq (qt : Qt) (op : Operation) (c : Client) :
    c.backend qt op =
      match op, op.request with
      | _, some (mesg, job) => c.request mesg job
      | .updateConnectionSettings ip port, none => c.updateConnectionSettings qt ip port
      | _, none => c := by
  cases op <;> rfl

/-! ### Moves -/

/-- Nothing waits for the end of `abort` while there is a connection. -/
def Suspended (socket : SocketState) (stack : List Continuation) : Prop :=
  socket = .connected → ∀ ip port, .connectToHost ip port ∉ stack

/-- QML calls the operation; MessagesWindow.qml has set the current chat before. -/
def Calls (c : Client) (op : Operation) (e : Event) : Prop :=
  e = .call op ∨ ∃ chatId, e = .showMessages chatId ∧ op = .loadMessages chatId ∧
    c.lists.mesagesList.currentChatId = chatId

/-- What a request is refused with. -/
def notConnected : String := "Not connected, can't send requests! Check connection settings."

/-- What an event can do. -/
inductive Moves (c : Client) : Event → Client → Prop
  /-- Nothing happens to the connection. -/
  | quiet {e : Event} (ip port : String) (socket : SocketState) (stack : List Continuation)
      (hsocket : socket = c.socket ∨ c.socket ≠ .connected ∧ socket ≠ .connected)
      (hstack : Suspended c.socket c.stack → Suspended socket stack) :
      Moves c e { c with serverIp := ip, serverPort := port, socket := socket, stack := stack }
  /-- A request is refused, as there is no connection. -/
  | refused {e : Event} {op : Operation} {mesg : Request} {job : Job} (stack : List Continuation)
      (he : c.Calls op e) (hop : op.request = some (mesg, job))
      (havailible : c.availible = true) (hsocket : c.socket ≠ .connected) :
      Moves c e { c with
        stack := stack
        requests := c.requests + 1
        log := c.log ++ [.emitted (some c.requests) (.operationAborted notConnected)] }
  /-- The connection settings have been dealt with, or the socket cannot connect. -/
  | told {e : Event} (signal : Signal) (socket : SocketState) (stack : List Continuation)
      (hsignal : signal.unlocks = true)
      (hsocket : c.availible = true ∧ socket = c.socket ∨
        c.socket ≠ .connected ∧ socket ≠ .connected)
      (hstack : Suspended c.socket c.stack → Suspended socket stack) :
      Moves c e { c with
        availible := true
        socket := socket
        stack := stack
        log := c.log ++ [.emitted none signal] }
  /-- A request is written. -/
  | written {e : Event} {op : Operation} {mesg : Request} {job : Job}
      (he : c.Calls op e) (hop : op.request = some (mesg, job))
      (havailible : c.availible = true) (hsocket : c.socket = .connected) :
      Moves c e { c with
        availible := false
        callback := some { id := c.requests, job := job }
        requests := c.requests + 1
        log := c.log ++ [.written c.requests mesg] }
  /-- The connection opens. -/
  | opened (hstack : c.stack = []) (hsocket : c.socket = .connecting) :
      Moves c .connected { c with
        socket := .connected
        stack := [.done]
        log := c.log ++ [.opened, .emitted none (.showMessage "Connected!")] }
  /-- The connection ends, perhaps after an error or a frame that does not parse. -/
  | closed {e : Event} (stack : List Continuation) (before : List ClientAction)
      (hsocket : c.socket = .connected)
      (he : ∀ r, e ≠ .frame (some (.response r)))
      (hbefore : before = [] ∨ before = [.received] ∨
        ∃ err, before = [.emitted none (.operationAborted err)]) :
      Moves c e { c with
        availible := true
        socket := .unconnected
        stack := stack
        log := c.log ++ before ++ [.closed, .emitted none .disconnected] }
  /-- A response reaches a callback, which emits a signal. -/
  | answered {r : Response} {callback : Callback} {signal : Signal}
      (hstack : c.stack = []) (hsocket : c.socket = .connected)
      (hcallback : c.callback = some callback)
      (hsignal : callback.job.reaction r = some signal) :
      Moves c (.frame (some (.response r))) { c.store callback.job r with
        availible := true
        stack := [.done]
        log := c.log ++ [.received, .answered callback.id r, .emitted callback.id signal] }
  /-- A response reaches a callback, which makes another request. -/
  | chained {r : Response} {callback : Callback}
      (hstack : c.stack = []) (hsocket : c.socket = .connected)
      (hcallback : c.callback = some callback) (hnone : callback.job.reaction r = none) :
      Moves c (.frame (some (.response r))) { c.store callback.job r with
        callback := some { id := c.requests, job := .loadData }
        requests := c.requests + 1
        log := c.log ++ [.received, .answered callback.id r,
          .written c.requests MessageFactory.createAllMyChatsRequest] }
  /-- A message without a response is ignored. -/
  | ignored {mesg : WrappedMessage} (hmesg : ∀ r, mesg ≠ .response r)
      (hstack : c.stack = []) (hsocket : c.socket = .connected) :
      Moves c (.frame (some mesg)) { c with log := c.log ++ [.received] }

variable {qt : Qt} {c : Client} {e : Event}

/-- Nothing but `opened` leads to a connection. -/
theorem connected_of_kept {socket socket' : SocketState}
    (h : socket' = socket ∨ socket ≠ .connected ∧ socket' ≠ .connected)
    (hconnected : socket' = .connected) : socket = .connected :=
  h.elim (fun heq => heq ▸ hconnected) fun hne => absurd hconnected hne.2

theorem suspended_of_ne {socket : SocketState} (h : socket ≠ .connected)
    (stack : List Continuation) : Suspended socket stack :=
  fun hsocket => absurd hsocket h

/-- Any other continuation may be put on the stack. -/
theorem Suspended.cons {socket : SocketState} {stack : List Continuation} {k : Continuation}
    (h : Suspended socket stack) (hk : ∀ ip port, k ≠ .connectToHost ip port) :
    Suspended socket (k :: stack) := by
  intro hsocket ip port hmem
  rcases List.mem_cons.mp hmem with heq | hmem
  · exact hk ip port heq.symm
  · exact h hsocket ip port hmem

/-- A connection is closed with a signal. -/
theorem disconnect_moves (hsocket : c.socket = .connected)
    (he : ∀ r, e ≠ .frame (some (.response r))) (k : Continuation) :
    Moves c e (c.disconnect k) := by
  have h := Moves.closed (k :: c.stack) [] hsocket he (.inl rfl)
  rw [List.append_nil] at h
  convert h using 1
  simp [disconnect, record, emit, Signal.unlocks]

/-- What is left of an `abort` runs where there is no connection. -/
theorem resume_moves (stack : List Continuation) (k : Continuation)
    (hk : ∀ ip port, k = .connectToHost ip port → c.socket ≠ .connected)
    (hstack : Suspended c.socket c.stack → Suspended c.socket stack) :
    Moves c e (({ c with stack := stack } : Client).resume k) := by
  cases k with
  | done => exact .quiet c.serverIp c.serverPort c.socket stack (.inl rfl) hstack
  | connectToHost ip port =>
    have hsocket := hk ip port rfl
    have hne : (if c.socket = .unconnected then SocketState.connecting else c.socket) ≠
        .connected := by
      split_ifs
      · decide
      · exact hsocket
    exact .told (.updatedConnectionSettings "") _ (.setServer ip port :: stack) rfl
      (.inr ⟨hsocket, hne⟩) fun _ => suspended_of_ne hne _
  | setServer ip port => exact .quiet ip port c.socket stack (.inl rfl) hstack

/-- A request is written, or refused where there is no connection. -/
theorem request_moves {op : Operation} {mesg : Request} {job : Job}
    (he : c.Calls op e) (hop : op.request = some (mesg, job)) (havailible : c.availible = true) :
    Moves c e (({ c with availible := false } : Client).request mesg job) := by
  by_cases hsocket : c.socket = .connected
  · have h := Moves.written he hop havailible hsocket
    convert h using 1
    simp [request, hsocket, record]
  · have h := Moves.refused (.done :: c.stack) he hop havailible hsocket
    convert h using 1
    simp [request, hsocket, emit, Signal.unlocks, havailible, notConnected]

/-- The settings are refused, or the socket is aborted first. -/
theorem updateConnectionSettings_moves (he : ∀ r, e ≠ .frame (some (.response r)))
    (ip port : String) (havailible : c.availible = true) :
    Moves c e (({ c with availible := false } : Client).updateConnectionSettings qt ip port) := by
  have hkeep : ∀ k : Continuation, (∀ ip port, k ≠ .connectToHost ip port) →
      Suspended c.socket c.stack → Suspended c.socket (k :: c.stack) :=
    fun k hk h => h.cons hk
  rw [updateConnectionSettings]
  by_cases haddress : ¬ qt.validAddress ip
  · rw [if_pos haddress]
    exact .told (.updatedConnectionSettings "Invalid ip address") c.socket (.done :: c.stack) rfl
      (.inl ⟨havailible, rfl⟩) (hkeep .done nofun)
  rw [if_neg haddress]
  by_cases hport : ¬ qt.acceptablePort port
  · rw [if_pos hport]
    exact .told (.updatedConnectionSettings "Invalid port") c.socket (.done :: c.stack) rfl
      (.inl ⟨havailible, rfl⟩) (hkeep .done nofun)
  · rw [if_neg hport, abort]
    split_ifs with hsocket
    · exact disconnect_moves (c := c) hsocket he (.connectToHost ip port)
    · exact .told (.updatedConnectionSettings "") .connecting (.setServer ip port :: c.stack) rfl
        (.inr ⟨hsocket, by decide⟩) fun _ => suspended_of_ne (by decide) _

/-- An operation on a locked facade does nothing. -/
theorem operation_moves {op : Operation} (he : c.Calls op e) :
    Moves c e (c.operation qt op) := by
  rw [operation]
  split_ifs with havailible
  · rw [backend_eq]
    cases hop : op.request with
    | some p => exact request_moves he hop havailible
    | none =>
      cases op with
      | updateConnectionSettings ip port =>
        refine updateConnectionSettings_moves (fun r => ?_) ip port havailible
        rcases he with rfl | ⟨_, rfl, -, -⟩ <;> exact nofun
      | _ => cases hop
  · exact .quiet c.serverIp c.serverPort c.socket c.stack (.inl rfl) id

theorem onFailed_moves (error : SocketError)
    (hsocket : c.socket = .connecting) : Moves c e (c.onFailed error) := by
  have hne : c.socket ≠ .connected := by
    rw [hsocket]
    decide
  rw [onFailed]
  cases error.err with
  | none =>
    exact .quiet c.serverIp c.serverPort .unconnected c.stack (.inr ⟨hne, by decide⟩)
      fun _ => suspended_of_ne (by decide) _
  | some err =>
    exact .told (.operationAborted err) .unconnected (.done :: c.stack) rfl
      (.inr ⟨hne, by decide⟩) fun _ => suspended_of_ne (by decide) _

/-- A lost connection is closed as well, after the error has been told. -/
theorem onLost_moves (error : SocketError) (hsocket : c.socket = .connected)
    (he : ∀ r, e ≠ .frame (some (.response r))) : Moves c e (c.onLost error) := by
  rw [onLost]
  cases error.err with
  | none => exact disconnect_moves hsocket he .done
  | some err =>
    have h := Moves.closed (.done :: c.stack) [.emitted none (.operationAborted err)] hsocket he
      (.inr (.inr ⟨err, rfl⟩))
    convert h using 1
    simp [disconnect, record, emit, Signal.unlocks]

/-- The client after a response. -/
def answeredBy (callback : Callback) (r : Response) (c : Client) : Client :=
  match callback.job.reaction r with
  | some signal =>
    { c.store callback.job r with
      availible := true
      stack := [.done]
      log := c.log ++ [.received, .answered callback.id r, .emitted callback.id signal] }
  | none =>
    { c.store callback.job r with
      callback := some { id := c.requests, job := .loadData }
      requests := c.requests + 1
      log := c.log ++ [.received, .answered callback.id r,
        .written c.requests MessageFactory.createAllMyChatsRequest] }

/-- A response without a callback is undefined. -/
theorem onReadyRead_response {r : Response} {c' : Client} (hstack : c.stack = [])
    (hsocket : c.socket = .connected) (h : c.onReadyRead (some (.response r)) = some c') :
    ∃ callback, c.callback = some callback ∧ c' = c.answeredBy callback r := by
  obtain ⟨callback, hcallback, rfl⟩ := Option.map_eq_some_iff.mp h
  refine ⟨callback, hcallback, ?_⟩
  rw [responseProcessingCallback_eq, answeredBy]
  cases hsignal : callback.job.reaction r with
  | some signal => simp [store, record, emit, hstack, Job.reaction_unlocks hsignal]
  | none => simp [store, record, request, hsocket]

/-- A frame that does not parse closes the connection, and a response is handed to the callback. -/
theorem onReadyRead_moves {body : Option WrappedMessage} {c' : Client} (hstack : c.stack = [])
    (hsocket : c.socket = .connected) (h : c.onReadyRead body = some c') :
    Moves c (.frame body) c' := by
  cases body with
  | none =>
    cases h
    have h := Moves.closed (e := .frame none) [.done] [.received] hsocket nofun (.inr (.inl rfl))
    convert h using 1
    simp [abort, hsocket, hstack, disconnect, record, emit, Signal.unlocks]
  | some mesg =>
    cases mesg with
    | response r =>
      obtain ⟨callback, hcallback, rfl⟩ := onReadyRead_response hstack hsocket h
      rw [answeredBy]
      cases hsignal : callback.job.reaction r with
      | some signal => exact .answered hstack hsocket hcallback hsignal
      | none => exact .chained hstack hsocket hcallback hsignal
    | request _ | msgNotSet =>
      cases h
      exact .ignored nofun hstack hsocket

/-- **Steps.** Every step is a move, up to a change of the current chat. -/
theorem step_moves {c' : Client} (hsuspended : Suspended c.socket c.stack)
    (h : c.step qt e = some c') :
    Moves c e c' ∨ ∃ chatId, (e = .setCurrentChatId chatId ∨
        e = .showMessages chatId ∧ c.availible = true) ∧
      Moves (c.setCurrentChatId chatId) e c' := by
  cases e with
  | call op =>
    cases h
    exact .inl (operation_moves (.inl rfl))
  | setCurrentChatId chatId =>
    cases h
    exact .inr ⟨chatId, .inl rfl, .quiet c.serverIp c.serverPort c.socket c.stack (.inl rfl) id⟩
  | showMessages chatId =>
    cases h
    rw [showMessages]
    split_ifs with havailible
    · exact .inr ⟨chatId, .inr ⟨rfl, havailible⟩, operation_moves (.inr ⟨chatId, rfl, rfl,
        MessagesList.currentChatId_setCurrentChatId ..⟩)⟩
    · exact .inl (.quiet c.serverIp c.serverPort c.socket c.stack (.inl rfl) id)
  | ret =>
    rw [step] at h
    cases hstack : c.stack with
    | nil =>
      rw [hstack] at h
      cases h
    | cons k stack =>
      rw [hstack] at h
      cases h
      refine .inl (resume_moves stack k (fun ip port hk hsocket => ?_) fun hs => ?_)
      · refine hsuspended hsocket ip port ?_
        rw [hstack, hk]
        exact List.mem_cons_self ..
      · intro hsocket ip port hmem
        refine hs hsocket ip port ?_
        rw [hstack]
        exact List.mem_cons_of_mem _ hmem
  | connected =>
    rw [step] at h
    split_ifs at h with hidle
    cases h
    have h := Moves.opened hidle.1 hidle.2
    left
    convert h using 1
    simp [record, emit, Signal.unlocks, hidle.1]
  | failed error =>
    rw [step] at h
    split_ifs at h with hidle
    cases h
    exact .inl (onFailed_moves error hidle.2)
  | lost error =>
    rw [step] at h
    split_ifs at h with hidle
    cases h
    exact .inl (onLost_moves error hidle.2 nofun)
  | frame body =>
    rw [step] at h
    split_ifs at h with hidle
    exact .inl (onReadyRead_moves hidle.1 hidle.2 h)

/-! ### The stack -/

/-- No move leaves a suspended call to `connectToHost` with a connection. -/
theorem Moves.suspended {c' : Client} (h : Moves c e c') (hc : Suspended c.socket c.stack) :
    Suspended c'.socket c'.stack := by
  cases h with
  | quiet _ _ _ _ _ hstack | told _ _ _ _ _ hstack => exact hstack hc
  | refused _ _ _ _ hsocket => exact suspended_of_ne hsocket _
  | written | chained | ignored => exact hc
  | opened | answered => exact fun _ _ _ hmem => by cases List.mem_singleton.mp hmem
  | closed => exact suspended_of_ne SocketState.noConfusion _

theorem step_suspended {c' : Client} (hc : Suspended c.socket c.stack)
    (h : c.step qt e = some c') : Suspended c'.socket c'.stack := by
  rcases step_moves hc h with hm | ⟨chatId, -, hm⟩
  · exact hm.suspended hc
  · exact hm.suspended (c := c.setCurrentChatId chatId) hc

theorem initial_suspended : Suspended initial.socket initial.stack :=
  suspended_of_ne (by decide) _

/-! ### The lists -/

@[simp] theorem lists_record (a : ClientAction) (c : Client) : (c.record a).lists = c.lists := rfl

@[simp] theorem lists_emit (id : Option ℕ) (signal : Signal) (k : Continuation) (c : Client) :
    (c.emit id signal k).lists = c.lists :=
  rfl

@[simp] theorem lists_request (mesg : Request) (job : Job) (c : Client) :
    (c.request mesg job).lists = c.lists := by
  rw [request]
  split_ifs <;> rfl

@[simp] theorem lists_resume (k : Continuation) (c : Client) : (c.resume k).lists = c.lists := by
  cases k <;> rfl

@[simp] theorem lists_disconnect (k : Continuation) (c : Client) :
    (c.disconnect k).lists = c.lists :=
  rfl

@[simp] theorem lists_abort (k : Continuation) (c : Client) : (c.abort k).lists = c.lists := by
  rw [abort]
  split_ifs
  · rfl
  · rw [lists_resume]

@[simp] theorem lists_operation (op : Operation) (c : Client) :
    (c.operation qt op).lists = c.lists := by
  rw [operation]
  split_ifs
  · cases op with
    | updateConnectionSettings ip port =>
      rw [backend, updateConnectionSettings]
      split_ifs <;> simp only [lists_abort, lists_emit]
    | _ => exact lists_request ..
  · rfl

@[simp] theorem lists_onFailed (error : SocketError) (c : Client) :
    (c.onFailed error).lists = c.lists := by
  rw [onFailed]
  cases error.err <;> rfl

@[simp] theorem lists_onLost (error : SocketError) (c : Client) :
    (c.onLost error).lists = c.lists := by
  rw [onLost]
  cases error.err <;> rfl

@[simp] theorem lists_responseProcessingCallback (job : Job) (id : ℕ) (r : Response) (c : Client) :
    (c.responseProcessingCallback job id r).lists = job.store r c.lists := by
  rw [responseProcessingCallback_eq]
  cases job.reaction r with
  | some signal => rfl
  | none => exact lists_request ..

/-- The lists after an event. -/
def listsAfter (c : Client) : Event → Lists
  | .setCurrentChatId chatId => (c.setCurrentChatId chatId).lists
  | .showMessages chatId => if c.availible then (c.setCurrentChatId chatId).lists else c.lists
  | .frame (some (.response r)) =>
    (c.callback.map fun callback => callback.job.store r c.lists).getD c.lists
  | _ => c.lists

/-- **The lists** change with a response and with the current chat. -/
theorem lists_step {e : Event} {d : Client} (h : c.step qt e = some d) :
    d.lists = c.listsAfter e := by
  cases e with
  | call op =>
    cases h
    exact lists_operation op c
  | setCurrentChatId chatId =>
    cases h
    rfl
  | showMessages chatId =>
    cases h
    rw [showMessages, listsAfter]
    split_ifs with havailible
    · exact lists_operation ..
    · rfl
  | ret =>
    rw [step] at h
    cases hstack : c.stack with
    | nil =>
      rw [hstack] at h
      cases h
    | cons k stack =>
      rw [hstack] at h
      cases h
      exact lists_resume k _
  | connected =>
    rw [step] at h
    split_ifs at h
    cases h
    rfl
  | failed error =>
    rw [step] at h
    split_ifs at h
    cases h
    exact lists_onFailed error c
  | lost error =>
    rw [step] at h
    split_ifs at h
    cases h
    exact lists_onLost error c
  | frame body =>
    rw [step] at h
    split_ifs at h
    match body with
    | none =>
      cases h
      exact lists_abort _ _
    | some (.response r) =>
      obtain ⟨callback, hcallback, rfl⟩ := Option.map_eq_some_iff.mp h
      have hcallback' : c.callback = some callback := hcallback
      rw [lists_responseProcessingCallback, listsAfter, hcallback']
      rfl
    | some (.request _) | some .msgNotSet =>
      cases h
      rfl

end Client

end Elegram
