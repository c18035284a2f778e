import Elegram.Client.Steps

/-!
# What the previous user leaves behind

The lists outlive sessions, and a login clears none of them. Two runs of the client are compared
whose events differ at most in the responses received before `v` signs in. The rest of the program
does not look at the lists, so the two runs can only differ in them, and they do not exactly if no
job that fills a list has been answered before: `forgets_iff`. For the other direction the
responses are replaced by ones that fill the lists with nothing but a given identifier.
-/

namespace Elegram

open Transition

namespace Job

/-- The job puts what it is answered into a list. -/
def Fills : Job → Prop
  | .loadChats | .loadContacts | .loadMessages | .loadData => True
  | _ => False

instance : DecidablePred Fills
  | .loadChats | .loadContacts | .loadMessages | .loadData => .isTrue trivial
  | .login | .register | .sendMessage | .addContact | .createChat => .isFalse id

/-- Any other job leaves the lists alone. -/
theorem store_of_not_fills {job : Job} (h : ¬ job.Fills) (r : Response) (l : Lists) :
    job.store r l = l := by
  cases job with
  | loadChats | loadContacts | loadMessages | loadData => exact absurd trivial h
  | _ => rfl

/-- Any other job ends with its answer. -/
theorem reaction_ne_none {job : Job} (h : ¬ job.Fills) (r : Response) : job.reaction r ≠ none := by
  intro hnone
  rw [(reaction_eq_none hnone).1] at h
  exact h trivial

end Job

namespace Client

/-! ### Two runs -/

/-- The events are the same, up to the contents of a response. -/
def Event.Alike (e e' : Event) : Prop :=
  e' = e ∨ ∃ r r', e = .frame (some (.response r)) ∧ e' = .frame (some (.response r'))

/-- The two clients differ at most in the lists, the profile and what is recorded. -/
structure Alike (c c' : Client) : Prop where
  availible : c'.availible = c.availible
  serverIp : c'.serverIp = c.serverIp
  serverPort : c'.serverPort = c.serverPort
  socket : c'.socket = c.socket
  callback : c'.callback = c.callback
  stack : c'.stack = c.stack
  requests : c'.requests = c.requests

variable {qt : Qt} {c c' : Client}

theorem Alike.refl (c : Client) : Alike c c := ⟨rfl, rfl, rfl, rfl, rfl, rfl, rfl⟩

theorem Alike.record (h : Alike c c') (a a' : ClientAction) :
    Alike (c.record a) (c'.record a') :=
  ⟨h.availible, h.serverIp, h.serverPort, h.socket, h.callback, h.stack, h.requests⟩

/-- Signals are alike if both unlock the facade or neither does. -/
theorem Alike.emit (h : Alike c c') (id id' : Option ℕ) {signal signal' : Signal}
    (hsignal : signal'.unlocks = signal.unlocks) (k : Continuation) :
    Alike (c.emit id signal k) (c'.emit id' signal' k) := by
  refine ⟨?_, h.serverIp, h.serverPort, h.socket, h.callback, ?_, h.requests⟩
  · rw [Client.emit, Client.emit, hsignal, h.availible]
  · rw [Client.emit, Client.emit, h.stack]

theorem Alike.setSocket (h : Alike c c') (socket : SocketState) :
    Alike { c with socket := socket } { c' with socket := socket } :=
  ⟨h.availible, h.serverIp, h.serverPort, rfl, h.callback, h.stack, h.requests⟩

theorem Alike.setAvailible (h : Alike c c') (b : Bool) :
    Alike { c with availible := b } { c' with availible := b } :=
  ⟨rfl, h.serverIp, h.serverPort, h.socket, h.callback, h.stack, h.requests⟩

theorem Alike.setStack (h : Alike c c') (stack : List Continuation) :
    Alike { c with stack := stack } { c' with stack := stack } :=
  ⟨h.availible, h.serverIp, h.serverPort, h.socket, h.callback, rfl, h.requests⟩

theorem Alike.store (h : Alike c c') (job : Job) (r r' : Response) :
    Alike (c.store job r) (c'.store job r') :=
  ⟨h.availible, h.serverIp, h.serverPort, h.socket, h.callback, h.stack, h.requests⟩

theorem Alike.setCurrentChatId (h : Alike c c') (chatId : UInt64) :
    Alike (c.setCurrentChatId chatId) (c'.setCurrentChatId chatId) :=
  ⟨h.availible, h.serverIp, h.serverPort, h.socket, h.callback, h.stack, h.requests⟩

/-- A request depends on the socket alone, and its number on how many there were. -/
theorem Alike.request (h : Alike c c') (mesg : Request) (job : Job) :
    Alike (c.request mesg job) (c'.request mesg job) := by
  have hnext : Alike { c with requests := c.requests + 1 }
      { c' with requests := c'.requests + 1 } :=
    ⟨h.availible, h.serverIp, h.serverPort, h.socket, h.callback, h.stack,
      congrArg (· + 1) h.requests⟩
  by_cases hsocket : c.socket = .connected
  · have hsocket' : c'.socket = .connected := h.socket.trans hsocket
    rw [Client.request, Client.request, if_pos hsocket, if_pos hsocket', h.requests]
    have hcalled : Alike
        { c with requests := c.requests + 1, callback := some { id := c.requests, job := job } }
        { c' with requests := c.requests + 1, callback := some { id := c.requests, job := job } } :=
      ⟨h.availible, h.serverIp, h.serverPort, h.socket, rfl, h.stack, rfl⟩
    exact hcalled.record _ _
  · have hsocket' : ¬ c'.socket = .connected := fun h' => hsocket (h.socket.symm.trans h')
    rw [Client.request, Client.request, if_neg hsocket, if_neg hsocket']
    exact hnext.emit _ _ rfl _

/-- What is left to do depends on the socket alone. -/
theorem Alike.resume (h : Alike c c') (k : Continuation) :
    Alike (c.resume k) (c'.resume k) := by
  cases k with
  | done => exact h
  | connectToHost ip port =>
    rw [Client.resume, Client.resume, h.socket]
    exact (h.setSocket _).emit _ _ rfl _
  | setServer ip port =>
    exact ⟨h.availible, rfl, rfl, h.socket, h.callback, h.stack, h.requests⟩

theorem Alike.disconnect (h : Alike c c') (k : Continuation) :
    Alike (c.disconnect k) (c'.disconnect k) :=
  ((h.setSocket .unconnected).record _ _).emit _ _ rfl k

theorem Alike.abort (h : Alike c c') (k : Continuation) : Alike (c.abort k) (c'.abort k) := by
  rw [Client.abort, Client.abort, h.socket]
  split_ifs with hsocket
  · exact h.disconnect k
  · exact (h.setSocket .unconnected).resume k

/-- An operation depends on the lock, and on the socket if it is a request. -/
theorem Alike.operation (h : Alike c c') (op : Operation) :
    Alike (c.operation qt op) (c'.operation qt op) := by
  rw [Client.operation, Client.operation, h.availible]
  split_ifs with havailible
  · have hlocked := h.setAvailible false
    rw [backend_eq, backend_eq]
    cases hop : op.request with
    | some p => exact hlocked.request _ _
    | none =>
      cases op with
      | updateConnectionSettings ip port =>
        simp only [updateConnectionSettings]
        split_ifs with haddress hport
        · exact hlocked.abort _
        · exact hlocked.emit _ _ rfl _
        · exact hlocked.emit _ _ rfl _
      | _ => cases hop
  · exact h

theorem Alike.showMessages (h : Alike c c') (chatId : UInt64) :
    Alike (c.showMessages qt chatId) (c'.showMessages qt chatId) := by
  rw [Client.showMessages, Client.showMessages, h.availible]
  split_ifs with havailible
  · exact (h.setCurrentChatId chatId).operation _
  · exact h

/-- The error alone decides what is told. -/
theorem Alike.onFailed (h : Alike c c') (error : SocketError) :
    Alike (c.onFailed error) (c'.onFailed error) := by
  rw [Client.onFailed, Client.onFailed]
  cases error.err with
  | none => exact h.setSocket _
  | some err => exact (h.setSocket _).emit _ _ rfl _

theorem Alike.onLost (h : Alike c c') (error : SocketError) :
    Alike (c.onLost error) (c'.onLost error) := by
  rw [Client.onLost, Client.onLost]
  cases error.err with
  | none => exact h.disconnect _
  | some err => exact ((h.setAvailible true).record _ _).disconnect _

/-- A job ends in the same way, whatever it is answered, unless it asks for the chats next. -/
theorem Alike.responseProcessingCallback (h : Alike c c') (job : Job) (id : ℕ) {r r' : Response}
    (hr : job.reaction r' = none ↔ job.reaction r = none) :
    Alike (c.responseProcessingCallback job id r) (c'.responseProcessingCallback job id r') := by
  rw [responseProcessingCallback_eq, responseProcessingCallback_eq]
  cases hsignal : job.reaction r with
  | none =>
    rw [hr.mpr hsignal]
    exact (h.store job r r').request _ _
  | some signal =>
    cases hsignal' : job.reaction r' with
    | none =>
      rw [hr.mp hsignal'] at hsignal
      cases hsignal
    | some signal' =>
      refine (h.store job r r').emit _ _ ?_ _
      rw [Job.reaction_unlocks hsignal, Job.reaction_unlocks hsignal']

theorem Alike.idle (h : Alike c c') (socket : SocketState) :
    (c'.stack = [] ∧ c'.socket = socket) ↔ (c.stack = [] ∧ c.socket = socket) := by
  rw [h.stack, h.socket]

/-- The same event, or a response that the job treats in the same way. -/
def Matches (c : Client) (e e' : Event) : Prop :=
  e' = e ∨ ∃ r r', e = .frame (some (.response r)) ∧ e' = .frame (some (.response r')) ∧
    ∀ callback, c.callback = some callback →
      (callback.job.reaction r' = none ↔ callback.job.reaction r = none)

/-- **Two steps.** What a client does next does not depend on its lists. -/
theorem Alike.step (h : Alike c c') {e e' : Event} (he : c.Matches e e') {d : Client}
    (hd : c.step qt e = some d) : ∃ d', c'.step qt e' = some d' ∧ Alike d d' := by
  rcases he with rfl | ⟨r, r', rfl, rfl, hr⟩
  · cases e' with
    | call op =>
      cases hd
      exact ⟨_, rfl, h.operation op⟩
    | setCurrentChatId chatId =>
      cases hd
      exact ⟨_, rfl, h.setCurrentChatId chatId⟩
    | showMessages chatId =>
      cases hd
      exact ⟨_, rfl, h.showMessages chatId⟩
    | ret =>
      rw [Client.step] at hd ⊢
      rw [h.stack]
      cases hstack : c.stack with
      | nil =>
        rw [hstack] at hd
        cases hd
      | cons k stack =>
        rw [hstack] at hd
        cases hd
        exact ⟨_, rfl, (h.setStack stack).resume k⟩
    | connected =>
      rw [Client.step] at hd ⊢
      simp only [h.idle]
      split_ifs at hd ⊢ with hidle
      cases hd
      exact ⟨_, rfl, ((h.setSocket _).record _ _).emit _ _ rfl _⟩
    | failed error =>
      rw [Client.step] at hd ⊢
      simp only [h.idle]
      split_ifs at hd ⊢ with hidle
      cases hd
      exact ⟨_, rfl, h.onFailed error⟩
    | lost error =>
      rw [Client.step] at hd ⊢
      simp only [h.idle]
      split_ifs at hd ⊢ with hidle
      cases hd
      exact ⟨_, rfl, h.onLost error⟩
    | frame body =>
      rw [Client.step] at hd ⊢
      simp only [h.idle]
      split_ifs at hd ⊢ with hidle
      cases body with
      | none =>
        cases hd
        exact ⟨_, rfl, (h.record _ _).abort _⟩
      | some mesg =>
        cases mesg with
        | response r =>
          obtain ⟨callback, hcallback, rfl⟩ := Option.map_eq_some_iff.mp hd
          have hcallback' : c'.callback = some callback := h.callback.trans hcallback
          refine ⟨_, Option.map_eq_some_iff.mpr ⟨callback, hcallback', rfl⟩, ?_⟩
          exact ((h.record _ _).record _ _).responseProcessingCallback _ _ Iff.rfl
        | request | msgNotSet =>
          cases hd
          exact ⟨_, rfl, h.record _ _⟩
  · rw [Client.step] at hd ⊢
    simp only [h.idle]
    split_ifs at hd ⊢ with hidle
    obtain ⟨callback, hcallback, rfl⟩ := Option.map_eq_some_iff.mp hd
    have hcallback' : c'.callback = some callback := h.callback.trans hcallback
    refine ⟨_, Option.map_eq_some_iff.mpr ⟨callback, hcallback', rfl⟩, ?_⟩
    exact ((h.record _ _).record _ _).responseProcessingCallback _ _ (hr callback hcallback)

/-! ### The lists of two runs -/

/-- The job that the event answers. -/
def jobAnswered (c : Client) : Event → Option Job
  | .frame (some (.response _)) => c.callback.map Callback.job
  | _ => none

/-- No job that fills a list is answered. -/
def Untouched (c : Client) (e : Event) : Prop := ∀ job ∈ c.jobAnswered e, ¬ job.Fills

instance (c : Client) (e : Event) : Decidable (c.Untouched e) :=
  inferInstanceAs (Decidable (∀ job ∈ c.jobAnswered e, ¬ job.Fills))

/-- A response answers the job of the callback. -/
theorem untouched_response {r : Response} : c.Untouched (.frame (some (.response r))) ↔
    ∀ callback, c.callback = some callback → ¬ callback.job.Fills := by
  simp only [Untouched, jobAnswered, Option.mem_def, Option.map_eq_some_iff, forall_exists_index,
    and_imp, forall_apply_eq_imp_iff₂]

/-- The two clients differ at most in the profile and what is recorded. -/
structure SameLists (c c' : Client) : Prop where
  alike : Alike c c'
  lists : c'.lists = c.lists

theorem SameLists.setCurrentChatId (h : SameLists c c') (chatId : UInt64) :
    (c'.setCurrentChatId chatId).lists = (c.setCurrentChatId chatId).lists := by
  rw [Client.setCurrentChatId, Client.setCurrentChatId, h.lists]

/-- The lists after an event depend on the lists, the lock and the callback. -/
theorem SameLists.listsAfter (h : SameLists c c') (e : Event) :
    c'.listsAfter e = c.listsAfter e := by
  cases e with
  | setCurrentChatId chatId => exact h.setCurrentChatId chatId
  | showMessages chatId =>
    rw [Client.listsAfter, Client.listsAfter, h.alike.availible, h.setCurrentChatId, h.lists]
  | frame body =>
    cases body with
    | none => exact h.lists
    | some mesg =>
      cases mesg with
      | response r => rw [Client.listsAfter, Client.listsAfter, h.alike.callback, h.lists]
      | request | msgNotSet => exact h.lists
  | _ => exact h.lists

/-- The same event keeps the same lists. -/
theorem SameLists.step (h : SameLists c c') {e : Event} {d : Client} (hd : c.step qt e = some d) :
    ∃ d', c'.step qt e = some d' ∧ SameLists d d' := by
  obtain ⟨d', hd', halike⟩ := h.alike.step (.inl rfl) hd
  refine ⟨d', hd', halike, ?_⟩
  rw [lists_step hd', lists_step hd, h.listsAfter]

/-- The same events keep the same lists. -/
theorem SameLists.run (h : SameLists c c') {es : List Event} {d : Client}
    (hd : Transition.run (Client.step qt) c es = some d) :
    ∃ d', Transition.run (Client.step qt) c' es = some d' ∧ SameLists d d' := by
  induction es generalizing c c' with
  | nil =>
    cases hd
    exact ⟨c', rfl, h⟩
  | cons e es ih =>
    rw [run_cons, Option.bind_eq_some_iff] at hd
    obtain ⟨c₁, hc₁, hd⟩ := hd
    obtain ⟨c₁', hc₁', h₁⟩ := h.step hc₁
    obtain ⟨d', hd', h'⟩ := ih h₁ hd
    exact ⟨d', by rw [run_cons_of_step hc₁', hd'], h'⟩

/-- Responses that reach no such job may be replaced. -/
theorem SameLists.step_of_untouched (h : SameLists c c') {e e' : Event} (he : e.Alike e')
    (hfree : c.Untouched e) {d : Client} (hd : c.step qt e = some d) :
    ∃ d', c'.step qt e' = some d' ∧ SameLists d d' := by
  rcases he with rfl | ⟨r, r', rfl, rfl⟩
  · exact h.step hd
  · have hfree' := untouched_response.mp hfree
    have hreaction : ∀ callback, c.callback = some callback →
        (callback.job.reaction r' = none ↔ callback.job.reaction r = none) := by
      intro callback hcallback
      have hfills := hfree' callback hcallback
      exact iff_of_false (Job.reaction_ne_none hfills r') (Job.reaction_ne_none hfills r)
    obtain ⟨d', hd', halike⟩ := h.alike.step (.inr ⟨r, r', rfl, rfl, hreaction⟩) hd
    refine ⟨d', hd', halike, ?_⟩
    rw [lists_step hd', lists_step hd, Client.listsAfter, Client.listsAfter, h.alike.callback,
      h.lists]
    cases hcallback : c.callback with
    | none => rfl
    | some callback =>
      simp only [Option.map_some, Option.getD_some, Job.store_of_not_fills (hfree' _ hcallback)]

/-- Two runs that differ in such responses alone end with the same lists, by induction on the
events. -/
theorem SameLists.run_of_untouched (h : SameLists c c') {es es' : List Event}
    (hes : List.Forall₂ Event.Alike es es') (hfree : EachStep (Client.step qt) Untouched c es)
    {d : Client} (hd : Transition.run (Client.step qt) c es = some d) :
    ∃ d', Transition.run (Client.step qt) c' es' = some d' ∧ SameLists d d' := by
  induction hes generalizing c c' with
  | nil =>
    cases hd
    exact ⟨c', rfl, h⟩
  | @cons e e' es es' he _ ih =>
    rw [run_cons, Option.bind_eq_some_iff] at hd
    obtain ⟨c₁, hc₁, hd⟩ := hd
    obtain ⟨hfree₁, hfree⟩ := hfree c₁ hc₁
    obtain ⟨c₁', hc₁', h₁⟩ := h.step_of_untouched he hfree₁ hc₁
    obtain ⟨d', hd', h'⟩ := ih h₁ hfree hd
    exact ⟨d', by rw [run_cons_of_step hc₁', hd'], h'⟩

/-! ### Lists filled with one identifier -/

/-- Responses with nothing but the identifier `x`. -/
def fillingChats (x : UInt64) : List Chat := [{ chatId := x, title := "" }]

def fillingContacts (x : UInt64) : List Contact := [{ userId := x, name := "", email := "" }]

def fillingMessages (x : UInt64) : List MessageToRecieve := [{ senderId := x, text := "" }]

end Client

/-- What the job is answered instead. -/
def Job.filling (x : UInt64) : Job → Response → Response
  | .loadChats, _ => .chatsResponse (Client.fillingChats x)
  | .loadContacts, _ => .contactsResponse (Client.fillingContacts x)
  | .loadMessages, _ => .messagesResponse (Client.fillingMessages x)
  | .loadData, .contactsResponse _ => .contactsResponse (Client.fillingContacts x)
  | .loadData, _ => .chatsResponse (Client.fillingChats x)
  | _, r => r

/-- The replacement is followed by another request if the response was. -/
theorem Job.reaction_filling (x : UInt64) (job : Job) (r : Response) :
    job.reaction (job.filling x r) = none ↔ job.reaction r = none := by
  cases job with
  | loadData => cases r <;> simp only [filling, reaction, reduceCtorEq]
  | _ => rfl

namespace Lists

/-- Everything in the lists has the identifier `x`. -/
structure Filled (x : UInt64) (l : Lists) : Prop where
  chats : ∀ item ∈ l.chatsList.items, item.id = x
  contacts : ∀ item ∈ l.contactsList.items, item.userId = x
  messages : ∀ chatId items, l.mesagesList.mapToItems chatId = some items →
    ∀ item ∈ items, item.senderId = x

/-- There is something in the lists. -/
def Touched (l : Lists) : Prop :=
  (∃ item, item ∈ l.chatsList.items) ∨ (∃ item, item ∈ l.contactsList.items) ∨
    ∃ chatId items item, l.mesagesList.mapToItems chatId = some items ∧ item ∈ items

/-- The lists are empty at first. -/
theorem filled_initial (x : UInt64) : initial.Filled x := ⟨nofun, nofun, nofun⟩

/-- Lists with something in them are filled with one identifier at most. -/
theorem Touched.eq {l : Lists} (h : l.Touched) {x y : UInt64} (hx : l.Filled x)
    (hy : l.Filled y) : x = y := by
  rcases h with ⟨item, hmem⟩ | ⟨item, hmem⟩ | ⟨chatId, items, item, hitems, hmem⟩
  · exact (hx.chats item hmem).symm.trans (hy.chats item hmem)
  · exact (hx.contacts item hmem).symm.trans (hy.contacts item hmem)
  · exact (hx.messages _ _ hitems item hmem).symm.trans (hy.messages _ _ hitems item hmem)

/-! Filling a list keeps the others as they are. -/

theorem Filled.setChats {x : UInt64} {l : Lists} (h : l.Filled x) :
    (l.setChats (Client.fillingChats x)).Filled x := by
  refine ⟨fun item hmem => ?_, h.contacts, h.messages⟩
  rw [List.mem_singleton.mp hmem]

theorem Filled.setContacts {x : UInt64} {l : Lists} (h : l.Filled x) :
    (l.setContacts (Client.fillingContacts x)).Filled x := by
  refine ⟨h.chats, fun item hmem => ?_, h.messages⟩
  rw [List.mem_singleton.mp hmem]

theorem Filled.setMessages {x : UInt64} {l : Lists} (h : l.Filled x) :
    (l.setMessages (Client.fillingMessages x)).Filled x := by
  refine ⟨h.chats, h.contacts, fun chatId items hitems item hmem => ?_⟩
  rw [Lists.setMessages, MessagesList.mapToItems_setItems, Function.update_apply] at hitems
  split_ifs at hitems with hchat
  · cases hitems
    rw [List.mem_singleton.mp hmem, messageItem]
  · exact h.messages _ _ hitems item hmem

/-- An answer to a job that fills a list leaves something in it. -/
theorem touched_store (x : UInt64) (l : Lists) {job : Job} (h : job.Fills) (r : Response) :
    (job.store (job.filling x r) l).Touched := by
  have hchats : (l.setChats (Client.fillingChats x)).Touched :=
    .inl ⟨_, List.mem_singleton_self _⟩
  have hcontacts : (l.setContacts (Client.fillingContacts x)).Touched :=
    .inr (.inl ⟨_, List.mem_singleton_self _⟩)
  cases job with
  | loadChats => exact hchats
  | loadContacts => exact hcontacts
  | loadMessages =>
    refine .inr (.inr ⟨l.mesagesList.currentChatId,
      (Client.fillingMessages x).map messageItem, _, ?_, List.mem_singleton_self _⟩)
    exact Function.update_self ..
  | loadData =>
    cases r with
    | contactsResponse _ => exact hcontacts
    | _ => exact hchats
  | _ => exact h.elim

/-- What is in the lists is replaced, never taken away. -/
theorem Touched.store {l : Lists} (h : l.Touched) (x : UInt64) (job : Job) (r : Response) :
    (job.store (job.filling x r) l).Touched := by
  by_cases hfills : job.Fills
  · exact touched_store x l hfills r
  · rw [Job.store_of_not_fills hfills]
    exact h

/-- The answers put nothing but the identifier into the lists. -/
theorem Filled.store {x : UInt64} {l : Lists} (h : l.Filled x) (job : Job) (r : Response) :
    (job.store (job.filling x r) l).Filled x := by
  cases job with
  | loadChats => exact h.setChats
  | loadContacts => exact h.setContacts
  | loadMessages => exact h.setMessages
  | loadData =>
    cases r with
    | contactsResponse _ => exact h.setContacts
    | _ => exact h.setChats
  | _ => exact h

end Lists

namespace Client

variable {qt : Qt} {c c' : Client}

/-- The same event with another answer. -/
def filling (x : UInt64) (c : Client) : Event → Event
  | .frame (some (.response r)) => .frame <| some <| .response <|
    (c.callback.map fun callback => callback.job.filling x r).getD r
  | e => e

theorem filling_alike (x : UInt64) (c : Client) (e : Event) : e.Alike (c.filling x e) := by
  cases e with
  | frame body =>
    match body with
    | some (.response r) => exact .inr ⟨r, _, rfl, rfl⟩
    | none | some (.request _) | some .msgNotSet => exact .inl rfl
  | _ => exact .inl rfl

theorem filling_matches (x : UInt64) (c : Client) (e : Event) : c.Matches e (c.filling x e) := by
  cases e with
  | frame body =>
    match body with
    | some (.response r) =>
      refine .inr ⟨r, _, rfl, rfl, fun callback hcallback => ?_⟩
      rw [hcallback]
      exact Job.reaction_filling x callback.job r
    | none | some (.request _) | some .msgNotSet => exact .inl rfl
  | _ => exact .inl rfl

theorem filled_listsAfter {x : UInt64} (hc : c'.lists.Filled x)
    (hcallback : c'.callback = c.callback) (e : Event) :
    (c'.listsAfter (c.filling x e)).Filled x := by
  have hset : ∀ chatId, (c'.setCurrentChatId chatId).lists.Filled x := by
    intro chatId
    refine ⟨hc.chats, hc.contacts, ?_⟩
    rw [Client.setCurrentChatId, MessagesList.mapToItems_setCurrentChatId]
    exact hc.messages
  cases e with
  | setCurrentChatId chatId => exact hset chatId
  | showMessages chatId =>
    change (c'.listsAfter (.showMessages chatId)).Filled x
    rw [listsAfter]
    split_ifs
    · exact hset chatId
    · exact hc
  | frame body =>
    cases body with
    | none => exact hc
    | some mesg =>
      cases mesg with
      | response r =>
        rw [filling, listsAfter, hcallback]
        cases c.callback with
        | none => exact hc
        | some callback => exact hc.store callback.job r
      | request | msgNotSet => exact hc
  | _ => exact hc

theorem touched_listsAfter (x : UInt64) (hcallback : c'.callback = c.callback) {e : Event}
    (h : c'.lists.Touched ∨ ¬ c.Untouched e) :
    (c'.listsAfter (c.filling x e)).Touched := by
  have hset : ∀ chatId, c'.lists.Touched → (c'.setCurrentChatId chatId).lists.Touched := by
    intro chatId htouched
    rw [Lists.Touched, Client.setCurrentChatId, MessagesList.mapToItems_setCurrentChatId]
    exact htouched
  have hkept : c.jobAnswered e = none → c'.lists.Touched := by
    intro hnone
    refine h.resolve_right (not_not.mpr fun job hjob => ?_)
    rw [hnone] at hjob
    cases hjob
  cases e with
  | frame body =>
    cases body with
    | none => exact hkept rfl
    | some mesg =>
      cases mesg with
      | response r =>
        rw [filling, listsAfter, hcallback]
        cases hnone : c.callback with
        | none =>
          refine h.resolve_right (not_not.mpr (untouched_response.mpr fun callback hsome => ?_))
          rw [hnone] at hsome
          cases hsome
        | some callback =>
          rcases h with htouched | hfills
          · exact htouched.store x callback.job r
          · refine Lists.touched_store x c'.lists (not_not.mp fun hnot => hfills ?_) r
            refine untouched_response.mpr fun callback' hsome => ?_
            rw [hnone, Option.some_inj] at hsome
            rw [← hsome]
            exact hnot
      | request | msgNotSet => exact hkept rfl
  | setCurrentChatId chatId => exact hset chatId (hkept rfl)
  | showMessages chatId =>
    have htouched := hkept rfl
    change (c'.listsAfter (.showMessages chatId)).Touched
    rw [listsAfter]
    split_ifs
    · exact hset chatId htouched
    · exact htouched
  | _ => exact hkept rfl

/-- A run whose responses have been replaced. Once a job that fills a list has been answered, there
is something in the lists, and it has the identifier `x`. -/
theorem exists_filling (x : UInt64) {es : List Event} {d : Client}
    (hd : run (step qt) c es = some d) (h : Alike c c') (hfilled : c'.lists.Filled x) :
    ∃ es' d', List.Forall₂ Event.Alike es es' ∧ run (step qt) c' es' = some d' ∧ Alike d d' ∧
      d'.lists.Filled x ∧
      (c'.lists.Touched ∨ ¬ EachStep (step qt) Untouched c es → d'.lists.Touched) := by
  induction es generalizing c c' with
  | nil =>
    cases hd
    exact ⟨[], c', .nil, rfl, h, hfilled, fun ht => ht.resolve_right (not_not.mpr trivial)⟩
  | cons e es ih =>
    rw [run_cons, Option.bind_eq_some_iff] at hd
    obtain ⟨c₁, hc₁, hd⟩ := hd
    obtain ⟨c₁', hc₁', h₁⟩ := h.step (filling_matches x c e) hc₁
    have hfilled₁ : c₁'.lists.Filled x := by
      rw [lists_step hc₁']
      exact filled_listsAfter hfilled h.callback e
    obtain ⟨es', d', hes, hd', h', hfilled', htouched⟩ := ih hd h₁ hfilled₁
    refine ⟨c.filling x e :: es', d', .cons (filling_alike x c e) hes,
      by rw [run_cons_of_step hc₁', hd'], h', hfilled', fun ht => htouched ?_⟩
    by_cases hfree : c.Untouched e
    · rcases ht with ht | hnot
      · left
        rw [lists_step hc₁']
        exact touched_listsAfter x h.callback (.inl ht)
      · exact .inr fun hes => hnot ((eachStep_cons hc₁ es).mpr ⟨hfree, hes⟩)
    · left
      rw [lists_step hc₁']
      exact touched_listsAfter x h.callback (.inr hfree)

/-! ### The next user -/

/-- The answer that signs `v` in. -/
def signsIn (v : Contact) : Event := .frame (some (.response (.loginResponse (some v))))

/-- A login is about to be answered. -/
structure AwaitsLogin (c : Client) : Prop where
  stack : c.stack = []
  socket : c.socket = .connected
  job : ∃ id, c.callback = some { id := id, job := .login }

/-- The lists from the login of `v` on do not depend on what has been received in the run `es`
before. -/
def Forgets (qt : Qt) (es : List Event) (v : Contact) : Prop :=
  ∀ es' c c', List.Forall₂ Event.Alike es es' → run (step qt) initial es = some c →
    run (step qt) initial es' = some c' → c.AwaitsLogin → c'.AwaitsLogin →
    ∀ fs d d', run (step qt) c (signsIn v :: fs) = some d →
      run (step qt) c' (signsIn v :: fs) = some d' → d'.lists = d.lists

theorem AwaitsLogin.exists_step (h : c.AwaitsLogin) (qt : Qt) (v : Contact) :
    ∃ d, c.step qt (signsIn v) = some d ∧ d.lists = c.lists := by
  obtain ⟨id, hid⟩ := h.job
  have hidle : c.stack = [] ∧ c.socket = .connected := ⟨h.stack, h.socket⟩
  have hcallback : (c.record .received).callback = some { id := id, job := .login } := hid
  have hstep : ∃ d, c.step qt (signsIn v) = some d := by
    rw [signsIn, step, if_pos hidle]
    exact ⟨_, Option.map_eq_some_iff.mpr ⟨_, hcallback, rfl⟩⟩
  obtain ⟨d, hd⟩ := hstep
  refine ⟨d, hd, ?_⟩
  rw [lists_step hd, signsIn, listsAfter, hid]
  rfl

/-- **Leftovers.** The lists from the login of `v` on are independent of what has been received
before exactly if no job that fills a list has been answered. -/
theorem forgets_iff (qt : Qt) {es : List Event} {c : Client} (v : Contact)
    (hrun : run (step qt) initial es = some c) (hc : c.AwaitsLogin) :
    Forgets qt es v ↔ EachStep (step qt) Untouched initial es := by
  constructor
  · intro h
    by_contra hnot
    -- two runs with different identifiers in the lists, of which neither need be the given one
    obtain ⟨es₁, c₁, hes₁, hrun₁, hc₁, hfilled₁, htouched₁⟩ :=
      exists_filling 1 hrun (.refl initial) (Lists.filled_initial 1)
    obtain ⟨es₂, c₂, hes₂, hrun₂, hc₂, hfilled₂, -⟩ :=
      exists_filling 2 hrun (.refl initial) (Lists.filled_initial 2)
    have hawaits : ∀ {c'}, Alike c c' → c'.AwaitsLogin := fun h =>
      ⟨h.stack.trans hc.stack, h.socket.trans hc.socket, by rw [h.callback]; exact hc.job⟩
    obtain ⟨d, hd, hlists⟩ := hc.exists_step qt v
    obtain ⟨d₁, hd₁, hlists₁⟩ := (hawaits hc₁).exists_step qt v
    obtain ⟨d₂, hd₂, hlists₂⟩ := (hawaits hc₂).exists_step qt v
    have hsame₁ : c₁.lists = c.lists := by
      have heq := h es₁ c c₁ hes₁ hrun hrun₁ hc (hawaits hc₁) [] d d₁
        (run_cons_of_step hd []) (run_cons_of_step hd₁ [])
      rw [← hlists₁, heq, hlists]
    have hsame₂ : c₂.lists = c.lists := by
      have heq := h es₂ c c₂ hes₂ hrun hrun₂ hc (hawaits hc₂) [] d d₂
        (run_cons_of_step hd []) (run_cons_of_step hd₂ [])
      rw [← hlists₂, heq, hlists]
    have htouched : c₁.lists.Touched := htouched₁ (.inr hnot)
    rw [hsame₁, ← hsame₂] at htouched hfilled₁
    exact absurd (htouched.eq hfilled₁ hfilled₂) (by decide)
  · intro hfree es' c₀ c' hes hrun₀ hrun' _ _ fs d d' hd hd'
    obtain ⟨c₁, hc₁, hsame⟩ := SameLists.run_of_untouched ⟨.refl initial, rfl⟩ hes hfree hrun₀
    rw [hrun', Option.some_inj] at hc₁
    subst hc₁
    obtain ⟨d₁, hd₁, hlast⟩ := hsame.run hd
    rw [hd', Option.some_inj] at hd₁
    subst hd₁
    exact hlast.lists

/-- User 1 signs in and out of the way: the connection is lost, and somebody else asks to sign
in. -/
def nextUser (loaded : List Event) : List Event :=
  [.connected, .ret, .call (.signin "u" "p"), signsIn { userId := 1, name := "u", email := "u" },
    .ret] ++ loaded ++
  [.lost .remoteHostClosedError, .ret, .call (.updateConnectionSettings "127.0.0.1" "8000"), .ret,
    .connected, .ret, .call (.signin "v" "p")]

/-- The contacts of user 1 are asked for in between, and there is one. -/
def contactLoaded (contact : Contact) : List Event :=
  nextUser [.call .loadContacts, .frame (some (.response (.contactsResponse [contact]))), .ret]

theorem awaitsLogin_of_decide (es : List Event)
    (h : (run (step Qt.default) initial es).map (fun c => (c.stack, c.socket,
      c.callback.map Callback.job)) = some ([], .connected, some .login)) :
    ∃ c, run (step Qt.default) initial es = some c ∧ c.AwaitsLogin := by
  obtain ⟨c, hrun, heq⟩ := Option.map_eq_some_iff.mp h
  simp only [Prod.mk.injEq, Option.map_eq_some_iff] at heq
  obtain ⟨hstack, hsocket, callback, hcallback, hjob⟩ := heq
  exact ⟨c, hrun, hstack, hsocket, callback.id, by rw [hcallback, ← hjob]⟩

/-- User 2 sees the contact of user 1. -/
theorem not_forgets_contactLoaded :
    (∃ c, run (step Qt.default) initial
        (contactLoaded { userId := 7, name := "w", email := "w" }) = some c ∧
      c.AwaitsLogin ∧ c.profile.map Profile.userId = some 1) ∧
    ¬ Forgets Qt.default (contactLoaded { userId := 7, name := "w", email := "w" })
      { userId := 2, name := "v", email := "v" } := by
  obtain ⟨c, hrun, hc⟩ := awaitsLogin_of_decide
    (contactLoaded { userId := 7, name := "w", email := "w" }) (by decide)
  obtain ⟨c', hrun', hc'⟩ := awaitsLogin_of_decide
    (contactLoaded { userId := 8, name := "x", email := "x" }) (by decide)
  have hprofile : (run (step Qt.default) initial
      (contactLoaded { userId := 7, name := "w", email := "w" })).map
        (fun c => c.profile.map Profile.userId) = some (some 1) := by
    decide
  rw [hrun] at hprofile
  refine ⟨⟨c, hrun, hc, Option.some_inj.mp hprofile⟩, fun h => ?_⟩
  obtain ⟨d, hd, hlists⟩ := hc.exists_step Qt.default
    { userId := 2, name := "v", email := "v" }
  obtain ⟨d', hd', hlists'⟩ := hc'.exists_step Qt.default
    { userId := 2, name := "v", email := "v" }
  have halike : List.Forall₂ Event.Alike (contactLoaded { userId := 7, name := "w", email := "w" })
      (contactLoaded { userId := 8, name := "x", email := "x" }) := by
    have hsame : ∀ es : List Event, List.Forall₂ Event.Alike es es :=
      fun es => List.forall₂_same.mpr fun _ _ => .inl rfl
    refine List.rel_append (List.rel_append (hsame _) (.cons (.inl rfl) (.cons ?_ (hsame _))))
      (hsame _)
    exact .inr ⟨_, _, rfl, rfl⟩
  have heq := h _ c c' halike hrun hrun' hc hc' [] d d' (run_cons_of_step hd [])
    (run_cons_of_step hd' [])
  rw [hlists, hlists'] at heq
  have hitems : ∀ contact c, run (step Qt.default) initial (contactLoaded contact) = some c →
      c.lists.contactsList.items.map ContactItem.userId = [contact.userId] := by
    intro contact c hc
    cases hc
    rfl
  have hids := (hitems _ c' hrun').symm.trans
    ((congrArg (fun l => l.contactsList.items.map ContactItem.userId) heq).trans (hitems _ c hrun))
  exact absurd hids (by decide)

/-- Nobody's lists have been loaded. -/
theorem forgets_nextUser :
    Forgets Qt.default (nextUser []) { userId := 2, name := "v", email := "v" } := by
  obtain ⟨c, hrun, hc⟩ := awaitsLogin_of_decide (nextUser []) (by decide)
  exact (forgets_iff Qt.default _ hrun hc).mpr (by decide)

end Client

end Elegram
