import Elegram.Client.Conversation

/-!
# What becomes of a request

Each request of the client has a number, and the log tells what is done about it: it is written,
its response is given to a callback, a signal is emitted on its behalf. `Client.Fate` lists all that
can come of this. A request is refused with a signal, or written once; then it is owed its answer,
or lost with its connection, or answered once, which one signal of its own job reports, unless the
job goes on to request the chats. `fate_of_run` says that there is nothing else, whatever order
things happen in.

Which job is a request's own is not in the log. `MadeIn` finds it in the run, in the step that has
made the request: in what the event asked the client for, and in the callback that was given.
-/

namespace Elegram

open Transition

/-- The action is about the request `id`. -/
def ClientAction.isAbout (id : ℕ) : ClientAction → Bool
  | .written id' _ | .answered id' _ => id' = id
  | .emitted id' _ => id' = some id
  | .opened | .closed | .received => false

namespace Client

/-- What has been done about the request `id`, in order. -/
def actionsOf (id : ℕ) (log : List ClientAction) : List ClientAction :=
  log.filter (ClientAction.isAbout id)

theorem actionsOf_append (id : ℕ) (log news : List ClientAction) :
    actionsOf id (log ++ news) = actionsOf id log ++ actionsOf id news :=
  List.filter_append ..

/-- Nothing has been done about the request. -/
theorem actionsOf_eq_nil {id : ℕ} {news : List ClientAction}
    (h : ∀ a ∈ news, a.isAbout id = false) : actionsOf id news = [] := by
  refine List.filter_eq_nil_iff.mpr fun a ha => ?_
  rw [h a ha]
  exact Bool.false_ne_true

/-! ### The job of a request -/

/-- What makes the client request something: QML calls an operation of the open facade, or the
contacts reach the callback of `LoadDataJob`. -/
inductive Prompts (c : Client) : Event → Request → Job → Prop
  | operation {op : Operation} {mesg : Request} {job : Job} (havailible : c.availible = true)
      (hop : op.request = some (mesg, job)) : Prompts c (.call op) mesg job
  | messages {chatId : UInt64} (havailible : c.availible = true) :
      Prompts c (.showMessages chatId) (MessageFactory.createLoadMessagesRequest chatId)
        .loadMessages
  | contacts {id : ℕ} {contacts : List Contact}
      (hcallback : c.callback = some { id := id, job := .loadData }) :
      Prompts c (.frame (some (.response (.contactsResponse contacts))))
        MessageFactory.createAllMyChatsRequest .loadData

/-- The step makes the next request, on behalf of the job, with a connection or without one. With a
connection the callback of the job is put into the slot. -/
structure Issues (c : Client) (e : Event) (c' : Client) (mesg : Request) (job : Job)
    (connected : Bool) : Prop where
  prompts : c.Prompts e mesg job
  next : c'.requests = c.requests + 1
  socket : connected = true ↔ c.socket = .connected
  callback : connected = true → c'.callback = some { id := c.requests, job := job }

/-- A step of the run makes the request `id`. -/
def MadeIn (qt : Qt) (es : List Event) (id : ℕ) (mesg : Request) (job : Job) (connected : Bool) :
    Prop :=
  ∃ before e after c c', es = before ++ e :: after ∧ run (step qt) initial before = some c ∧
    c.step qt e = some c' ∧ c.requests = id ∧ c.Issues e c' mesg job connected

theorem Calls.prompts {c : Client} {op : Operation} {e : Event} {mesg : Request} {job : Job}
    (h : c.Calls op e) (havailible : c.availible = true) (hop : op.request = some (mesg, job)) :
    c.Prompts e mesg job := by
  rcases h with rfl | ⟨chatId, rfl, rfl, -⟩
  · exact .operation havailible hop
  · cases hop
    exact .messages havailible

theorem Prompts.unique {c : Client} {e : Event} {mesg mesg' : Request} {job job' : Job}
    (h : c.Prompts e mesg job) (h' : c.Prompts e mesg' job') : mesg = mesg' ∧ job = job' := by
  cases h with
  | operation _ hop =>
    cases h' with
    | operation _ hop' =>
      rw [hop] at hop'
      exact Prod.mk.inj (Option.some_inj.mp hop')
  | messages => cases h'; exact ⟨rfl, rfl⟩
  | contacts => cases h'; exact ⟨rfl, rfl⟩

/-- The current chat has no part in it. -/
theorem Prompts.of_setCurrentChatId {c : Client} {chatId : UInt64} {e : Event} {mesg : Request}
    {job : Job} (h : (c.setCurrentChatId chatId).Prompts e mesg job) : c.Prompts e mesg job := by
  cases h with
  | operation havailible hop => exact .operation havailible hop
  | messages havailible => exact .messages havailible
  | contacts hcallback => exact .contacts hcallback

theorem Issues.of_setCurrentChatId {c c' : Client} {chatId : UInt64} {e : Event} {mesg : Request}
    {job : Job} {b : Bool} (h : (c.setCurrentChatId chatId).Issues e c' mesg job b) :
    c.Issues e c' mesg job b :=
  ⟨h.prompts.of_setCurrentChatId, h.next, h.socket, h.callback⟩

theorem Issues.unique {c c' d' : Client} {e : Event} {mesg mesg' : Request} {job job' : Job}
    {b b' : Bool} (h : c.Issues e c' mesg job b) (h' : c.Issues e d' mesg' job' b') :
    mesg = mesg' ∧ job = job' ∧ b = b' := by
  obtain ⟨hmesg, hjob⟩ := h.prompts.unique h'.prompts
  exact ⟨hmesg, hjob, Bool.eq_iff_iff.mpr (h.socket.trans h'.socket.symm)⟩

theorem Moves.requests_le {c c' : Client} {e : Event} (h : Moves c e c') :
    c.requests ≤ c'.requests := by
  cases h with
  | refused | written | chained => exact Nat.le_succ _
  | _ => exact Nat.le_refl _

/-- Requests are numbered upwards. -/
theorem requests_le_of_run {qt : Qt} {es : List Event} {c c' : Client}
    (hc : Suspended c.socket c.stack) (h : run (step qt) c es = some c') :
    c.requests ≤ c'.requests := by
  have hstep : ∀ (d : Client) (e : Event) (d' : Client),
      Suspended d.socket d.stack ∧ c.requests ≤ d.requests → d.step qt e = some d' →
        Suspended d'.socket d'.stack ∧ c.requests ≤ d'.requests := by
    rintro d e d' ⟨hd, hle⟩ hd'
    refine ⟨step_suspended hd hd', hle.trans ?_⟩
    rcases step_moves hd hd' with hm | ⟨chatId, -, hm⟩
    · exact hm.requests_le
    · exact hm.requests_le (c := d.setCurrentChatId chatId)
  exact (invariant_of_run hstep ⟨hc, Nat.le_refl _⟩ h).2

/-- Of two steps of a run that make requests of the same number, neither comes before the other. -/
theorem Issues.unique_of_run {qt : Qt} {before as after after' : List Event} {e e' : Event}
    {c c' d d' : Client} {mesg mesg' : Request} {job job' : Job} {b b' : Bool}
    (hc : run (step qt) initial before = some c) (hc' : c.step qt e = some c')
    (hd : run (step qt) initial (before ++ as) = some d) (has : e :: after = as ++ e' :: after')
    (h : c.Issues e c' mesg job b) (h' : d.Issues e' d' mesg' job' b')
    (hid : c.requests = d.requests) : mesg = mesg' ∧ job = job' ∧ b = b' := by
  cases as with
  | nil =>
    rw [List.nil_append, List.cons.injEq] at has
    obtain ⟨rfl, -⟩ := has
    rw [List.append_nil, hc, Option.some_inj] at hd
    subst hd
    exact h.unique h'
  | cons a as =>
    rw [List.cons_append, List.cons.injEq] at has
    obtain ⟨rfl, -⟩ := has
    rw [run_append, hc, Option.bind_some, run_cons_of_step hc'] at hd
    have hsuspended := invariant_of_run (fun _ _ _ hs h => step_suspended hs h)
      initial_suspended hc
    have hle := requests_le_of_run (step_suspended hsuspended hc') hd
    have hnext := h.next
    omega

/-- **No request number is used twice.** -/
theorem MadeIn.unique {qt : Qt} {es : List Event} {id : ℕ} {mesg mesg' : Request} {job job' : Job}
    {b b' : Bool} (h : MadeIn qt es id mesg job b) (h' : MadeIn qt es id mesg' job' b') :
    mesg = mesg' ∧ job = job' ∧ b = b' := by
  obtain ⟨before, e, after, c, c', hes, hc, hc', hid, hissues⟩ := h
  obtain ⟨before', e', after', d, d', hes', hd, hd', hid', hissues'⟩ := h'
  rcases List.append_eq_append_iff.mp (hes.symm.trans hes') with ⟨as, rfl, has⟩ | ⟨as, rfl, has⟩
  · exact hissues.unique_of_run hc hc' hd has hissues' (hid.trans hid'.symm)
  · obtain ⟨hmesg, hjob, hb⟩ :=
      hissues'.unique_of_run hd hd' hc has hissues (hid'.trans hid.symm)
    exact ⟨hmesg.symm, hjob.symm, hb.symm⟩

/-- A run that goes on has made the same requests and perhaps others. -/
theorem MadeIn.append {qt : Qt} {es : List Event} {id : ℕ} {mesg : Request} {job : Job} {b : Bool}
    (h : MadeIn qt es id mesg job b) (fs : List Event) : MadeIn qt (es ++ fs) id mesg job b := by
  obtain ⟨before, e, after, c, c', rfl, h⟩ := h
  exact ⟨before, e, after ++ fs, c, c', by simp, h⟩

/-! ### Fates -/

/-- Which requests have been made, by number: the message, the job and whether there was a
connection. -/
abbrev Ledger := ℕ → Request → Job → Bool → Prop

/-- What has been done about a request that is not owed an answer. -/
inductive Settled (made : Ledger) (log : List ClientAction) (requests id : ℕ) : Prop
  /-- It has not been made. -/
  | unmade (h : requests ≤ id) (hactions : actionsOf id log = [])
  /-- There was no connection, which a signal has said. -/
  | refused (h : id < requests) {mesg : Request} {job : Job} (hmade : made id mesg job false)
      (hactions : actionsOf id log = [.emitted (some id) (.operationAborted notConnected)])
  /-- It has been written, and the connection has ended before its answer. -/
  | lost (h : id < requests) {mesg : Request} {job : Job} (hmade : made id mesg job true)
      (hactions : actionsOf id log = [.written id mesg])
      (hclosed : ∃ before after, log = before ++ .closed :: after ∧ .written id mesg ∈ before)
  /-- It has been written, answered and reported by the job that has made it. -/
  | reported (h : id < requests) {mesg : Request} {job : Job} (hmade : made id mesg job true)
      (r : Response) (signal : Signal) (hsignal : job.reaction r = some signal)
      (hactions : actionsOf id log =
        [.written id mesg, .answered id r, .emitted (some id) signal])
  /-- It has been written and answered with the contacts, and `LoadDataJob` has requested the
  chats. -/
  | followed (h : id < requests) {mesg : Request} (hmade : made id mesg .loadData true)
      (contacts : List Contact) (next : ℕ)
      (hchats : made next MessageFactory.createAllMyChatsRequest .loadData true)
      (hactions : actionsOf id log = [.written id mesg, .answered id (.contactsResponse contacts)])
      (hnext : [.answered id (.contactsResponse contacts),
        .written next MessageFactory.createAllMyChatsRequest] <:+: log)

/-- What becomes of the request `id`. -/
inductive Fate (c : Client) (made : Ledger) (id : ℕ) : Prop
  /-- It has been written, the server owes its answer, and the callback of its job waits for it. -/
  | owed (h : id < c.requests) {mesg : Request} {job : Job} (hmade : made id mesg job true)
      (hcallback : c.callback = some { id := id, job := job })
      (howed : (exchange c.log).owed = [(id, mesg)])
      (hactions : actionsOf id c.log = [.written id mesg])
  | settled (hne : ∀ p ∈ (exchange c.log).owed, p.1 ≠ id) (h : Settled made c.log c.requests id)

variable {made made' : Ledger}

/-- What is settled remains so, whatever else happens. -/
theorem Settled.mono {log news : List ClientAction} {requests requests' id : ℕ}
    (h : Settled made log requests id)
    (hmade : ∀ id mesg job b, made id mesg job b → made' id mesg job b)
    (hnews : actionsOf id news = []) (hle : requests ≤ requests')
    (hunmade : requests ≤ id → requests' ≤ id) : Settled made' (log ++ news) requests' id := by
  have hsame : actionsOf id (log ++ news) = actionsOf id log := by
    rw [actionsOf_append, hnews, List.append_nil]
  cases h with
  | unmade h hactions => exact .unmade (hunmade h) (hsame.trans hactions)
  | refused h hm hactions =>
    exact .refused (h.trans_le hle) (hmade _ _ _ _ hm) (hsame.trans hactions)
  | lost h hm hactions hclosed =>
    refine .lost (h.trans_le hle) (hmade _ _ _ _ hm) (hsame.trans hactions) ?_
    obtain ⟨before, after, rfl, hmem⟩ := hclosed
    exact ⟨before, after ++ news, by simp, hmem⟩
  | reported h hm r signal hsignal hactions =>
    exact .reported (h.trans_le hle) (hmade _ _ _ _ hm) r signal hsignal (hsame.trans hactions)
  | followed h hm contacts next hchats hactions hnext =>
    exact .followed (h.trans_le hle) (hmade _ _ _ _ hm) contacts next (hmade _ _ _ _ hchats)
      (hsame.trans hactions) (hnext.trans (List.infix_append_left ..))

/-! ### Moves -/

/-- A move that is not about the request, and after which the same requests are owed. -/
theorem Fate.keep {c c' : Client} {id : ℕ} (h : c.Fate made id)
    (hmade : ∀ id mesg job b, made id mesg job b → made' id mesg job b) {news : List ClientAction}
    (hlog : c'.log = c.log ++ news) (hnews : actionsOf id news = [])
    (hcallback : c'.callback = c.callback) (hle : c.requests ≤ c'.requests)
    (hunmade : c.requests ≤ id → c'.requests ≤ id)
    (howed : (exchange c'.log).owed = (exchange c.log).owed) : c'.Fate made' id := by
  cases h with
  | owed h hm hcallback' howed' hactions =>
    refine .owed (h.trans_le hle) (hmade _ _ _ _ hm) (hcallback.trans hcallback')
      (howed.trans howed') ?_
    rw [hlog, actionsOf_append, hnews, List.append_nil, hactions]
  | settled hne h =>
    refine .settled (howed ▸ hne) ?_
    rw [hlog]
    exact h.mono hmade hnews hle hunmade

/-- The next request has not been made. -/
theorem Fate.actionsOf_requests {c : Client} (h : c.Fate made c.requests) :
    actionsOf c.requests c.log = [] := by
  cases h with
  | owed h => exact absurd h (Nat.lt_irrefl _)
  | settled _ h =>
    cases h with
    | unmade _ hactions => exact hactions
    | refused h | lost h | reported h | followed h => exact absurd h (Nat.lt_irrefl _)

/-- A move that writes the next request while none is owed an answer. -/
theorem Fate.write {c c' : Client} {id : ℕ} (h : c.Fate made id)
    (hmade : ∀ id mesg job b, made id mesg job b → made' id mesg job b) {news : List ClientAction}
    {mesg : Request} {job : Job} (hnext : made' c.requests mesg job true)
    (hcallback : c'.callback = some { id := c.requests, job := job })
    (hfree : ∀ p ∈ (exchange c.log).owed, p.1 ≠ id)
    (hlog : c'.log = c.log ++ news ++ [.written c.requests mesg]) (hnews : actionsOf id news = [])
    (hrequests : c'.requests = c.requests + 1)
    (howed : (exchange c'.log).owed = [(c.requests, mesg)]) : c'.Fate made' id := by
  by_cases hid : id = c.requests
  · subst hid
    refine .owed (hrequests ▸ Nat.lt_succ_self _) hnext hcallback howed ?_
    rw [hlog, actionsOf_append, actionsOf_append, h.actionsOf_requests, hnews]
    simp [actionsOf, ClientAction.isAbout]
  · cases h with
    | @owed _ mesg' _ _ _ howed' =>
      exact absurd rfl (hfree (id, mesg') (howed' ▸ List.mem_singleton_self _))
    | settled hne h =>
      refine .settled (fun p hp => ?_) ?_
      · rw [howed, List.mem_singleton] at hp
        rw [hp]
        exact Ne.symm hid
      · rw [hlog, hrequests, List.append_assoc]
        refine h.mono hmade ?_ (Nat.le_succ _) fun hle => Nat.lt_of_le_of_ne hle (Ne.symm hid)
        rw [actionsOf_append, hnews, List.nil_append]
        refine actionsOf_eq_nil fun a ha => ?_
        rw [List.mem_singleton.mp ha]
        exact decide_eq_false (Ne.symm hid)

/-- A move that refuses the next request. -/
theorem Fate.refuse {c c' : Client} {id : ℕ} (h : c.Fate made id)
    (hmade : ∀ id mesg job b, made id mesg job b → made' id mesg job b) {mesg : Request} {job : Job}
    (hnext : made' c.requests mesg job false) (hfree : (exchange c.log).owed = [])
    (hlog : c'.log = c.log ++ [.emitted (some c.requests) (.operationAborted notConnected)])
    (hcallback : c'.callback = c.callback) (hrequests : c'.requests = c.requests + 1) :
    c'.Fate made' id := by
  have hsame : (exchange c'.log).owed = (exchange c.log).owed := by
    rw [hlog]
    exact congrArg Exchange.owed (exchange_concat ..)
  by_cases hid : id = c.requests
  · subst hid
    refine .settled (fun p hp => ?_) (.refused (hrequests ▸ Nat.lt_succ_self _) hnext ?_)
    · rw [hsame, hfree] at hp
      cases hp
    · rw [hlog, actionsOf_append, h.actionsOf_requests]
      simp [actionsOf, ClientAction.isAbout]
  · refine h.keep hmade hlog (actionsOf_eq_nil fun a ha => ?_) hcallback
      (hrequests ▸ Nat.le_succ _) (fun hle => ?_) hsame
    · rw [List.mem_singleton.mp ha]
      exact decide_eq_false fun heq => hid (Option.some_inj.mp heq).symm
    · rw [hrequests]
      exact Nat.lt_of_le_of_ne hle (Ne.symm hid)

/-- A move that closes the connection. What was owed an answer is lost. -/
theorem Fate.close {c c' : Client} {id : ℕ} (h : c.Fate made id)
    (hmade : ∀ id mesg job b, made id mesg job b → made' id mesg job b)
    {before : List ClientAction}
    (hlog : c'.log = c.log ++ before ++ [.closed, .emitted none .disconnected])
    (hbefore : actionsOf id before = []) (hrequests : c'.requests = c.requests) :
    c'.Fate made' id := by
  have hnone : actionsOf id (before ++ [.closed, .emitted none .disconnected]) = [] := by
    rw [actionsOf_append, hbefore]
    rfl
  have hclosed : (exchange c'.log).owed = [] := by
    rw [hlog, exchange_append]
    rfl
  refine .settled (fun p hp => ?_) ?_
  · rw [hclosed] at hp
    cases hp
  rw [hlog, hrequests]
  cases h with
  | @owed hlt mesg _ hmesg _ _ hactions =>
    have hmem : .written id mesg ∈ c.log :=
      List.mem_of_mem_filter (hactions ▸ List.mem_singleton_self _)
    refine .lost hlt (hmade _ _ _ _ hmesg) ?_
      ⟨c.log ++ before, [.emitted none .disconnected], rfl, List.mem_append_left _ hmem⟩
    rw [List.append_assoc, actionsOf_append, hnone, List.append_nil, hactions]
  | settled _ h =>
    rw [List.append_assoc]
    exact h.mono hmade hnone (Nat.le_refl _) fun h => h

/-- The request that is owed an answer was made by the job whose callback is in the slot. -/
theorem Fate.owed_slot {c : Client} {callback : Callback} (h : c.Fate made callback.id)
    (hcallback : c.callback = some callback) {mesg : Request}
    (howed : (exchange c.log).owed = [(callback.id, mesg)]) :
    ∃ mesg, callback.id < c.requests ∧ made callback.id mesg callback.job true ∧
      actionsOf callback.id c.log = [.written callback.id mesg] := by
  cases h with
  | settled hne => exact absurd rfl (hne _ (howed ▸ List.mem_singleton_self _))
  | @owed hlt mesg' job hmesg hslot _ hactions =>
    have hjob : job = callback.job :=
      congrArg Callback.job (Option.some_inj.mp (hslot.symm.trans hcallback))
    exact ⟨mesg', hlt, hjob ▸ hmesg, hactions⟩

/-- A move that answers a request, which its job reports. -/
theorem Fate.report {c c' : Client} {id : ℕ} (h : ∀ id, c.Fate made id)
    (hmade : ∀ id mesg job b, made id mesg job b → made' id mesg job b) {callback : Callback}
    (hcallback : c.callback = some callback) {mesg : Request}
    (howed : (exchange c.log).owed = [(callback.id, mesg)]) {r : Response} {signal : Signal}
    (hsignal : callback.job.reaction r = some signal)
    (hlog : c'.log =
      c.log ++ [.received, .answered callback.id r, .emitted callback.id signal])
    (hrequests : c'.requests = c.requests) : c'.Fate made' id := by
  have hnone : (exchange c'.log).owed = [] := by
    have hexchange := exchange_append (c.log ++ [.received, .answered callback.id r])
      [.emitted callback.id signal]
    rw [exchange_answered howed r, List.append_assoc] at hexchange
    rw [hlog]
    exact congrArg Exchange.owed hexchange
  refine .settled (fun p hp => ?_) ?_
  · rw [hnone] at hp
    cases hp
  rw [hlog, hrequests]
  by_cases hid : id = callback.id
  · subst hid
    obtain ⟨mesg', hlt, hmesg, hactions⟩ := (h callback.id).owed_slot hcallback howed
    refine .reported hlt (hmade _ _ _ _ hmesg) r signal hsignal ?_
    rw [actionsOf_append, hactions]
    simp [actionsOf, ClientAction.isAbout]
  · cases h id with
    | @owed _ mesg' _ _ _ howed' =>
      rw [howed, List.singleton_inj] at howed'
      exact absurd (Prod.mk.inj howed').1.symm hid
    | settled _ h =>
      refine h.mono hmade (actionsOf_eq_nil fun a ha => ?_) (Nat.le_refl _) fun h => h
      rcases List.mem_cons.mp ha with rfl | ha
      · rfl
      · rcases List.mem_pair.mp ha with rfl | rfl
        · exact decide_eq_false (Ne.symm hid)
        · exact decide_eq_false fun heq => hid (Option.some_inj.mp heq).symm

/-- A move that answers a request of `LoadDataJob` with the contacts, which requests the chats. -/
theorem Fate.follow {c c' : Client} {id : ℕ} (h : ∀ id, c.Fate made id)
    (hmade : ∀ id mesg job b, made id mesg job b → made' id mesg job b) {callback : Callback}
    (hcallback : c.callback = some callback) (hjob : callback.job = .loadData) {mesg : Request}
    (howed : (exchange c.log).owed = [(callback.id, mesg)]) {contacts : List Contact}
    (hchats : made' c.requests MessageFactory.createAllMyChatsRequest .loadData true)
    (hcallback' : c'.callback = some { id := c.requests, job := .loadData })
    (hlog : c'.log = c.log ++ [.received, .answered callback.id (.contactsResponse contacts),
      .written c.requests MessageFactory.createAllMyChatsRequest])
    (hrequests : c'.requests = c.requests + 1) : c'.Fate made' id := by
  have hnext : (exchange c'.log).owed =
      [(c.requests, MessageFactory.createAllMyChatsRequest)] := by
    have hexchange := exchange_append
      (c.log ++ [.received, .answered callback.id (.contactsResponse contacts)])
      [.written c.requests MessageFactory.createAllMyChatsRequest]
    rw [exchange_answered howed, List.append_assoc] at hexchange
    rw [hlog]
    exact congrArg Exchange.owed hexchange
  by_cases hid : id = callback.id
  · subst hid
    obtain ⟨mesg', hlt, hmesg, hactions⟩ := (h callback.id).owed_slot hcallback howed
    rw [hjob] at hmesg
    refine .settled (fun p hp => ?_) ?_
    · rw [hnext, List.mem_singleton] at hp
      rw [hp]
      exact hlt.ne'
    rw [hlog, hrequests]
    refine .followed (Nat.lt_succ_of_lt hlt) (hmade _ _ _ _ hmesg) contacts c.requests hchats ?_
      ⟨c.log ++ [.received], [], by simp⟩
    rw [actionsOf_append, hactions]
    simp [actionsOf, ClientAction.isAbout, hlt.ne']
  · have hnews : actionsOf id [.received, .answered callback.id (.contactsResponse contacts)] =
        [] := by
      refine actionsOf_eq_nil fun a ha => ?_
      rcases List.mem_pair.mp ha with rfl | rfl
      · rfl
      · exact decide_eq_false (Ne.symm hid)
    refine (h id).write hmade hchats hcallback' (fun p hp => ?_) (hlog.trans ?_) hnews hrequests
      hnext
    · rw [howed, List.mem_singleton] at hp
      rw [hp]
      exact Ne.symm hid
    · simp

variable {qt : Qt}

/-- **Moves**, one by one. -/
theorem Moves.fate {c c' : Client} {e : Event} (hm : Moves c e c') (hc : c.InTurn)
    (he : c.Answers e) (hmade : ∀ id mesg job b, made id mesg job b → made' id mesg job b)
    (hissues : ∀ {mesg job b}, c.Issues e c' mesg job b → made' c.requests mesg job b)
    (h : ∀ id, c.Fate made id) (id : ℕ) : c'.Fate made' id := by
  cases hm with
  | quiet =>
    exact (h id).keep hmade (List.append_nil _).symm rfl rfl (Nat.le_refl _) (fun h => h) rfl
  | told =>
    exact (h id).keep hmade rfl rfl rfl (Nat.le_refl _) (fun h => h)
      (congrArg Exchange.owed (exchange_concat ..) :)
  | @refused _ op mesg job _ hcalls hop havailible hsocket =>
    have hmesg : made' c.requests mesg job false :=
      hissues ⟨hcalls.prompts havailible hop, rfl, by simp [hsocket], nofun⟩
    exact (h id).refuse hmade hmesg (hc.free havailible) rfl rfl rfl
  | @written _ op mesg job hcalls hop havailible hsocket =>
    have howed := hc.free havailible
    have hmesg : made' c.requests mesg job true :=
      hissues ⟨hcalls.prompts havailible hop, rfl, iff_of_true rfl hsocket, fun _ => rfl⟩
    have hlog : c.log ++ [.written c.requests mesg] =
        c.log ++ [] ++ [.written c.requests mesg] := by
      rw [List.append_nil]
    refine (h id).write hmade hmesg rfl ?_ hlog rfl rfl ?_
    · rw [howed]
      exact fun _ hp => absurd hp List.not_mem_nil
    · rw [exchange_concat]
      simp only [Exchange.next, howed, List.nil_append]
  | opened _ hsocket =>
    have howed := hc.free (hc.free_of_ne (by rw [hsocket]; decide))
    refine (h id).keep hmade rfl rfl rfl (Nat.le_refl _) (fun h => h) ?_
    rw [exchange_append, howed]
    rfl
  | closed _ before _ _ hbefore =>
    refine (h id).close hmade rfl ?_ rfl
    rcases hbefore with rfl | rfl | ⟨err, rfl⟩ <;> rfl
  | answered _ _ hcallback hsignal =>
    obtain ⟨-, mesg, -, howed⟩ := hc.owed_of_answers he hcallback
    exact Fate.report h hmade hcallback howed hsignal rfl rfl
  | @chained r callback _ hsocket hcallback hnone =>
    obtain ⟨-, mesg, -, howed⟩ := hc.owed_of_answers he hcallback
    obtain ⟨hjob, contacts, rfl⟩ := Job.reaction_eq_none hnone
    have hslot : c.callback = some { id := callback.id, job := .loadData } := by
      rw [hcallback, ← hjob]
    have hchats : made' c.requests MessageFactory.createAllMyChatsRequest .loadData true :=
      hissues ⟨.contacts hslot, rfl, iff_of_true rfl hsocket, fun _ => rfl⟩
    exact Fate.follow h hmade hcallback hjob howed hchats rfl rfl rfl
  | ignored hmesg =>
    obtain ⟨⟨r, hr⟩, -⟩ := he _ rfl
    exact absurd (Option.some_inj.mp hr) (hmesg r)

theorem initial_fate (id : ℕ) : initial.Fate made id :=
  .settled (fun _ hp => absurd hp List.not_mem_nil) (.unmade (Nat.zero_le _) rfl)

/-- The current chat is nothing that a request is about. -/
theorem Fate.setCurrentChatId {c : Client} {id : ℕ} (h : c.Fate made id) (chatId : UInt64) :
    (c.setCurrentChatId chatId).Fate made id := by
  cases h with
  | owed h hmade hcallback howed hactions => exact .owed h hmade hcallback howed hactions
  | settled hne h => exact .settled hne h

/-- A step adds the request that it makes to the ledger. -/
theorem step_fate (es : List Event) (c : Client) (e : Event) (c' : Client)
    (hrun : run (step qt) initial es = some c)
    (hc : c.Converses ∧ ∀ id, c.Fate (MadeIn qt es) id) (h : c.step qt e = some c')
    (he : c.Answers e) : c'.Converses ∧ ∀ id, c'.Fate (MadeIn qt (es ++ [e])) id := by
  have hmade : ∀ id mesg job b, MadeIn qt es id mesg job b → MadeIn qt (es ++ [e]) id mesg job b :=
    fun _ _ _ _ hm => hm.append [e]
  have hissues : ∀ {mesg job b}, c.Issues e c' mesg job b →
      MadeIn qt (es ++ [e]) c.requests mesg job b :=
    fun hi => ⟨es, e, [], c, c', rfl, hrun, h, rfl, hi⟩
  refine ⟨step_converses c e c' hc.1 h he, ?_⟩
  rcases step_moves hc.1.1 h with hm | ⟨chatId, -, hm⟩
  · exact hm.fate hc.1.2 he hmade hissues hc.2
  · exact hm.fate (hc.1.setCurrentChatId chatId).2 he hmade
      (fun hi => hissues hi.of_setCurrentChatId) fun id => (hc.2 id).setCurrentChatId chatId

/-- **Fates.** With a server that answers each request once, whatever QML calls and whenever the
connection ends, each request is refused with one signal, as there is no connection, or written once
and then owed its answer, lost with its connection, or answered once and either reported with one
signal of the job that has made it or, for the contacts of `loadData`, followed by the request for
the chats. A request is made by one job. -/
theorem fate_of_run {es : List Event} {c : Client}
    (hes : EachStep (step qt) Answers initial es) (hrun : run (step qt) initial es = some c)
    (id : ℕ) : c.Fate (MadeIn qt es) id ∧ ∀ mesg job b mesg' job' b',
      MadeIn qt es id mesg job b → MadeIn qt es id mesg' job' b' →
        mesg = mesg' ∧ job = job' ∧ b = b' :=
  ⟨(history_of_eachStep step_fate ⟨initial_converses, initial_fate⟩ hes hrun).2 id,
    fun _ _ _ _ _ _ h h' => h.unique h'⟩

/-- The chats that follow the contacts have been reported. -/
theorem fate_dataLoaded : ∃ c, run (step Qt.default) initial dataLoaded = some c ∧
    (∀ id < 3, c.Fate (MadeIn Qt.default dataLoaded) id) ∧ actionsOf 1 c.log =
      [.written 1 MessageFactory.createAllMyChatsRequest, .answered 1 (.chatsResponse []),
        .emitted (some 1) .loadedData] := by
  have hrun : (run (step Qt.default) initial dataLoaded).map (fun c => actionsOf 1 c.log) =
      some [.written 1 MessageFactory.createAllMyChatsRequest, .answered 1 (.chatsResponse []),
        .emitted (some 1) .loadedData] := by
    decide
  obtain ⟨c, hc, hactions⟩ := Option.map_eq_some_iff.mp hrun
  exact ⟨c, hc, fun id _ => (fate_of_run eachStep_dataLoaded hc id).1, hactions⟩

end Client

end Elegram
