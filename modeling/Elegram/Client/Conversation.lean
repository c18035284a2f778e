import Elegram.Client.Steps

/-!
# Requests and answers

A server answers the requests of a connection in order, with one response each. `exchange` reads off
the log which requests it still owes an answer to and how the others were answered. The lock of the
facade is all that keeps the client from writing a request while an answer is owed, and there is a
single slot for callbacks. `InTurn` links the three: an open facade owes nothing, and a locked one
waits for the answer to the one request whose callback is in the slot.
-/

namespace Elegram

open Transition

/-! ### What the server owes -/

/-- The requests of a connection that have not been answered, and the answers that were given. -/
structure Exchange where
  owed : List (ℕ × Request)
  answers : List (Request × Response)
  deriving DecidableEq, Repr

namespace Exchange

def initial : Exchange where
  owed := []
  answers := []

/-- A response answers the first request that is owed an answer. Nothing is owed on a new
connection. -/
def next (x : Exchange) : ClientAction → Exchange
  | .opened | .closed => { x with owed := [] }
  | .written id mesg => { x with owed := x.owed ++ [(id, mesg)] }
  | .answered _ response =>
    match x.owed with
    | [] => x
    | (_, mesg) :: owed => { owed := owed, answers := x.answers ++ [(mesg, response)] }
  | .received | .emitted .. => x

end Exchange

namespace Client

def exchange (log : List ClientAction) : Exchange := log.foldl Exchange.next .initial

/-- The action is in order when so much is owed: a request is only written when no answer is owed,
and a response goes to the callback given with the request it answers. -/
def Proper (owed : List (ℕ × Request)) : ClientAction → Prop
  | .written .. => owed = []
  | .answered id _ => ∃ mesg, owed.head? = some (id, mesg)
  | .opened | .closed | .received | .emitted .. => True

/-- Every action of the log is in order when it is taken. -/
def Orderly (log : List ClientAction) : Prop :=
  ∀ before a, before ++ [a] <+: log → Proper (exchange before).owed a

/-- The server answers each request of the connection with one response, in order. -/
def Answers (c : Client) (e : Event) : Prop :=
  ∀ body, e = .frame body → (∃ r, body = some (.response r)) ∧ (exchange c.log).owed ≠ []

theorem exchange_concat (log : List ClientAction) (a : ClientAction) :
    exchange (log ++ [a]) = (exchange log).next a :=
  List.foldl_concat ..

theorem exchange_append (log : List ClientAction) (as : List ClientAction) :
    exchange (log ++ as) = as.foldl Exchange.next (exchange log) :=
  List.foldl_append ..

theorem Orderly.concat {log : List ClientAction} {a : ClientAction} (h : Orderly log)
    (ha : Proper (exchange log).owed a) : Orderly (log ++ [a]) := by
  intro before b hprefix
  rcases List.prefix_concat_iff.mp hprefix with heq | hprefix
  · obtain ⟨rfl, hb⟩ := List.append_inj' heq rfl
    obtain rfl := List.singleton_inj.mp hb
    exact ha
  · exact h before b hprefix

/-! ### Turns -/

/-- The job makes requests like this one. Which job has made a request is told by its callback. -/
def MayMake (job : Job) (mesg : Request) : Prop :=
  (∃ op : Operation, op.request = some (mesg, job)) ∨
    job = .loadData ∧ mesg = MessageFactory.createAllMyChatsRequest

/-- An open facade owes nothing. A locked one waits for one answer, for which the callback is
there. -/
structure InTurn (c : Client) : Prop where
  orderly : Orderly c.log
  free : c.availible = true → (exchange c.log).owed = []
  locked : c.availible = false → c.socket = .connected ∧
    ∃ callback mesg, c.callback = some callback ∧ MayMake callback.job mesg ∧
      (exchange c.log).owed = [(callback.id, mesg)]

theorem orderly_nil : Orderly [] := by
  intro before a hprefix
  have hlen := hprefix.length_le
  rw [List.length_append, List.length_singleton, List.length_nil] at hlen
  omega

/-- Actions that are always in order. -/
theorem Orderly.append {log : List ClientAction} (h : Orderly log) {as : List ClientAction}
    (has : ∀ a ∈ as, ∀ owed, Proper owed a) : Orderly (log ++ as) := by
  induction as generalizing log with
  | nil => rwa [List.append_nil]
  | cons a as ih =>
    have hfirst := h.concat (has a (List.mem_cons_self ..) _)
    have hrest := ih hfirst fun b hb => has b (List.mem_cons_of_mem _ hb)
    rwa [List.append_assoc] at hrest

/-- Without a connection the facade is open. -/
theorem InTurn.free_of_ne {c : Client} (hc : c.InTurn) (h : c.socket ≠ .connected) :
    c.availible = true := by
  by_contra hlocked
  exact h (hc.locked (Bool.eq_false_iff.mpr hlocked)).1

/-- The server owes the answer to the request of the callback. -/
theorem InTurn.owed_of_answers {c : Client} (hc : c.InTurn) {body : Option WrappedMessage}
    (he : c.Answers (.frame body)) {callback : Callback} (hcallback : c.callback = some callback) :
    c.availible = false ∧ ∃ mesg, MayMake callback.job mesg ∧
      (exchange c.log).owed = [(callback.id, mesg)] := by
  have hlocked : c.availible = false := by
    by_contra havailible
    exact (he body rfl).2 (hc.free (Bool.not_eq_false _ ▸ havailible))
  obtain ⟨-, callback', mesg, hcallback', hmakes, howed⟩ := hc.locked hlocked
  obtain rfl := Option.some_inj.mp (hcallback'.symm.trans hcallback)
  exact ⟨hlocked, mesg, hmakes, howed⟩

/-- What is owed after an answer. -/
theorem exchange_answered {log : List ClientAction} {id : ℕ} {mesg : Request}
    (howed : (exchange log).owed = [(id, mesg)]) (r : Response) :
    exchange (log ++ [.received, .answered id r]) =
      { owed := [], answers := (exchange log).answers ++ [(mesg, r)] } := by
  rw [exchange_append, List.foldl_cons, List.foldl_cons, List.foldl_nil]
  simp only [Exchange.next, howed]

theorem Orderly.answered {log : List ClientAction} {id : ℕ} {mesg : Request} (h : Orderly log)
    (howed : (exchange log).owed = [(id, mesg)]) (r : Response) :
    Orderly (log ++ [.received, .answered id r]) := by
  have hreceived := h.concat (a := .received) trivial
  have hanswered := hreceived.concat (a := .answered id r) ⟨mesg, by
    rw [exchange_concat]
    exact congrArg List.head? howed⟩
  rwa [List.append_assoc] at hanswered

/-- A move of a client with an answering server. -/
theorem Moves.inTurn {c c' : Client} {e : Event} (h : Moves c e c') (hc : c.InTurn)
    (he : c.Answers e) : c'.InTurn := by
  cases h with
  | quiet _ _ _ _ hsocket _ =>
    refine ⟨hc.orderly, hc.free, fun hlocked => ?_⟩
    obtain ⟨hconnected, hcallback⟩ := hc.locked hlocked
    rcases hsocket with hsame | ⟨hne, -⟩
    · exact ⟨hsame.trans hconnected, hcallback⟩
    · exact absurd hconnected hne
  | refused _ _ _ havailible _ =>
    refine ⟨hc.orderly.concat trivial, fun _ => ?_, fun hlocked => ?_⟩
    · rw [exchange_concat]
      exact hc.free havailible
    · rw [havailible] at hlocked
      cases hlocked
  | told _ _ _ _ hsocket _ =>
    have havailible : c.availible = true := hsocket.elim And.left fun h => hc.free_of_ne h.1
    refine ⟨hc.orderly.concat trivial, fun _ => ?_, nofun⟩
    rw [exchange_concat]
    exact hc.free havailible
  | @written _ op mesg job _ hop havailible hsocket =>
    have howed := hc.free havailible
    refine ⟨hc.orderly.concat howed, nofun, fun _ => ⟨hsocket, _, mesg, rfl, .inl ⟨op, hop⟩, ?_⟩⟩
    rw [exchange_concat]
    simp only [Exchange.next, howed, List.nil_append]
  | opened _ hsocket =>
    have havailible := hc.free_of_ne (by rw [hsocket]; decide)
    refine ⟨hc.orderly.append fun a ha owed => ?_, fun _ => ?_, fun hlocked => ?_⟩
    · rcases List.mem_pair.mp ha with rfl | rfl <;> trivial
    · rw [exchange_append]
      rfl
    · rw [havailible] at hlocked
      cases hlocked
  | closed _ before _ _ hbefore =>
    refine ⟨(hc.orderly.append fun a ha owed => ?_).append fun a ha owed => ?_, fun _ => ?_, nofun⟩
    · rcases hbefore with rfl | rfl | ⟨err, rfl⟩
      · exact absurd ha List.not_mem_nil
      · rw [List.mem_singleton.mp ha]
        trivial
      · rw [List.mem_singleton.mp ha]
        trivial
    · rcases List.mem_pair.mp ha with rfl | rfl <;> trivial
    · rw [exchange_append]
      rfl
  | @answered r callback signal _ _ hcallback _ =>
    obtain ⟨-, mesg, -, howed⟩ := hc.owed_of_answers he hcallback
    have horderly := (hc.orderly.answered howed r).concat (a := .emitted callback.id signal) trivial
    have hexchange := exchange_answered howed r
    refine ⟨by rwa [List.append_assoc] at horderly, fun _ => ?_, nofun⟩
    have hsplit : c.log ++ [.received, .answered callback.id r, .emitted callback.id signal] =
        c.log ++ [.received, .answered callback.id r] ++ [.emitted callback.id signal] := by simp
    rw [hsplit, exchange_concat, hexchange]
    rfl
  | @chained r callback _ hsocket hcallback hnone =>
    obtain ⟨hlocked, mesg, -, howed⟩ := hc.owed_of_answers he hcallback
    have hexchange := exchange_answered howed r
    have horderly := (hc.orderly.answered howed r).concat
      (a := .written c.requests MessageFactory.createAllMyChatsRequest) (by rw [hexchange]; rfl)
    have hsplit : c.log ++ [.received, .answered callback.id r,
          .written c.requests MessageFactory.createAllMyChatsRequest] =
        c.log ++ [.received, .answered callback.id r] ++
          [.written c.requests MessageFactory.createAllMyChatsRequest] := by simp
    refine ⟨by rwa [List.append_assoc] at horderly, fun havailible => ?_, fun _ =>
      ⟨hsocket, _, _, rfl, .inr ⟨rfl, rfl⟩, ?_⟩⟩
    · have havailible : c.availible = true := havailible
      rw [hlocked] at havailible
      cases havailible
    · rw [hsplit, exchange_concat, hexchange]
      rfl
  | ignored hmesg =>
    obtain ⟨⟨r, hr⟩, -⟩ := he _ rfl
    exact absurd (Option.some_inj.mp hr) (hmesg r)

/-- What a step of a client with an answering server does to the conversation and to what the client
shows. -/
inductive Turn (c : Client) (e : Event) (c' : Client) : Prop
  /-- Nothing is asked or answered; what was owed may be lost with the connection. -/
  | idle (hlists : c'.lists = c.lists)
      (hanswers : (exchange c'.log).answers = (exchange c.log).answers)
      (howed : (exchange c'.log).owed = (exchange c.log).owed ∨ (exchange c'.log).owed = [])
  | asked {op : Operation} {mesg : Request} {job : Job} (hcalls : c.Calls op e)
      (hop : op.request = some (mesg, job)) (hlists : c'.lists = c.lists)
      (hanswers : (exchange c'.log).answers = (exchange c.log).answers)
      (howed : (exchange c'.log).owed = [(c.requests, mesg)])
  /-- A job that makes such requests gets the response. -/
  | answered {r : Response} {job : Job} {id : ℕ} {mesg : Request}
      (howed : (exchange c.log).owed = [(id, mesg)]) (hmakes : MayMake job mesg)
      (hlists : c'.lists = job.store r c.lists)
      (hanswers : (exchange c'.log).answers = (exchange c.log).answers ++ [(mesg, r)])
      (hnext : (exchange c'.log).owed = [] ∨
        (exchange c'.log).owed = [(c.requests, MessageFactory.createAllMyChatsRequest)])

theorem Moves.turn {c c' : Client} {e : Event} (h : Moves c e c') (hc : c.InTurn)
    (he : c.Answers e) : Turn c e c' := by
  cases h with
  | quiet => exact .idle rfl rfl (.inl rfl)
  | refused | told =>
    refine .idle rfl ?_ (.inl ?_)
    · exact (congrArg Exchange.answers (exchange_concat c.log _) :)
    · exact (congrArg Exchange.owed (exchange_concat c.log _) :)
  | written hcalls hop havailible _ =>
    refine .asked hcalls hop rfl ?_ ?_
    · exact (congrArg Exchange.answers (exchange_concat c.log _) :)
    · rw [exchange_concat]
      simp only [Exchange.next, hc.free havailible, List.nil_append]
  | opened =>
    have hexchange := exchange_append c.log [.opened, .emitted none (.showMessage "Connected!")]
    exact .idle rfl (congrArg Exchange.answers hexchange :)
      (.inr (congrArg Exchange.owed hexchange :))
  | closed _ before _ _ hbefore =>
    have hbefore : exchange (c.log ++ before) = exchange c.log := by
      rcases hbefore with rfl | rfl | ⟨err, rfl⟩
      · rw [List.append_nil]
      · exact exchange_concat ..
      · exact exchange_concat ..
    have hexchange := exchange_append (c.log ++ before) [.closed, .emitted none .disconnected]
    rw [hbefore] at hexchange
    exact .idle rfl (congrArg Exchange.answers hexchange :)
      (.inr (congrArg Exchange.owed hexchange :))
  | @answered r callback signal _ _ hcallback _ =>
    obtain ⟨-, mesg, hmakes, howed⟩ := hc.owed_of_answers he hcallback
    have hexchange := exchange_append (c.log ++ [.received, .answered callback.id r])
      [.emitted callback.id signal]
    rw [exchange_answered howed r, List.append_assoc] at hexchange
    exact .answered howed hmakes rfl (congrArg Exchange.answers hexchange :)
      (.inl (congrArg Exchange.owed hexchange :))
  | @chained r callback _ _ hcallback _ =>
    obtain ⟨-, mesg, hmakes, howed⟩ := hc.owed_of_answers he hcallback
    have hexchange := exchange_append (c.log ++ [.received, .answered callback.id r])
      [.written c.requests MessageFactory.createAllMyChatsRequest]
    rw [exchange_answered howed r, List.append_assoc] at hexchange
    exact .answered howed hmakes rfl (congrArg Exchange.answers hexchange :)
      (.inr (congrArg Exchange.owed hexchange :))
  | ignored hmesg =>
    obtain ⟨⟨r, hr⟩, -⟩ := he _ rfl
    exact absurd (Option.some_inj.mp hr) (hmesg r)

variable {qt : Qt}

/-- A client that takes turns with the server, and whose steps are moves. -/
def Converses (c : Client) : Prop := Suspended c.socket c.stack ∧ c.InTurn

theorem Converses.setCurrentChatId {c : Client} (h : c.Converses) (chatId : UInt64) :
    (c.setCurrentChatId chatId).Converses :=
  ⟨h.1, h.2.orderly, h.2.free, h.2.locked⟩

theorem step_converses (c : Client) (e : Event) (c' : Client) (hc : c.Converses)
    (h : c.step qt e = some c') (he : c.Answers e) : c'.Converses := by
  obtain ⟨hsuspended, hturn⟩ := hc
  refine ⟨step_suspended hsuspended h, ?_⟩
  rcases step_moves hsuspended h with hm | ⟨chatId, -, hm⟩
  · exact hm.inTurn hturn he
  · exact hm.inTurn (Converses.setCurrentChatId ⟨hsuspended, hturn⟩ chatId).2 he

theorem initial_converses : initial.Converses :=
  ⟨initial_suspended, orderly_nil, fun _ => rfl, nofun⟩

/-- A response that arrives while an answer is owed reaches the callback. -/
theorem InTurn.exists_step {c : Client} (hc : c.InTurn) (hstack : c.stack = [])
    (hsocket : c.socket = .connected) (howed : (exchange c.log).owed ≠ []) (r : Response) :
    ∃ id mesg c', (exchange c.log).owed = [(id, mesg)] ∧
      c.step qt (.frame (some (.response r))) = some c' ∧
      c.log ++ [.received, .answered id r] <+: c'.log := by
  have hlocked : c.availible = false := by
    by_contra havailible
    exact howed (hc.free (Bool.not_eq_false _ ▸ havailible))
  obtain ⟨-, callback, mesg, hcallback, -, howed⟩ := hc.locked hlocked
  have hcalled : (c.record .received).callback = some callback := hcallback
  refine ⟨callback.id, mesg, ((c.record .received).record (.answered callback.id r)
    ).responseProcessingCallback callback.job callback.id r, howed, ?_, ?_⟩
  · rw [step, if_pos ⟨hstack, hsocket⟩, onReadyRead, hcalled,
      Option.map_some]
  · rw [responseProcessingCallback_eq]
    cases callback.job.reaction r with
    | some signal =>
      exact ⟨[.emitted callback.id signal], by simp [store, record, emit]⟩
    | none =>
      refine ⟨[.written c.requests MessageFactory.createAllMyChatsRequest], ?_⟩
      simp [store, record, request, hsocket]

/-- **Turns.** With a server that answers each request once, whatever QML calls and whenever the
connection ends, no request is written while an answer is owed on the connection, every response
goes to the callback given with the request it answers, and a response to a request that is owed an
answer does reach this callback. -/
theorem orderly_of_run {es : List Event} {c : Client}
    (hes : EachStep (step qt) Answers initial es) (hrun : run (step qt) initial es = some c) :
    Orderly c.log ∧ ∀ r, c.stack = [] → c.socket = .connected → (exchange c.log).owed ≠ [] →
      ∃ id mesg c', (exchange c.log).owed = [(id, mesg)] ∧
        c.step qt (.frame (some (.response r))) = some c' ∧
        c.log ++ [.received, .answered id r] <+: c'.log := by
  obtain ⟨-, hturn⟩ := invariant_of_eachStep step_converses initial_converses hes hrun
  exact ⟨hturn.orderly, fun r hstack hsocket howed => hturn.exists_step hstack hsocket howed r⟩

/-- The data are loaded, and QML asks for the chats as soon as they are there. -/
def dataLoaded : List Event :=
  [.connected, .ret, .call .loadData, .frame (some (.response (.contactsResponse []))),
    .frame (some (.response (.chatsResponse []))), .call .loadChats, .ret]

theorem eachStep_dataLoaded : EachStep (step Qt.default) Answers initial dataLoaded := by
  have hfree : ∀ (c : Client) (e : Event), (∀ body, e ≠ .frame body) → c.Answers e :=
    fun _ _ he body heq => absurd heq (he body)
  rw [dataLoaded, eachStep_cons rfl, eachStep_cons rfl, eachStep_cons rfl, eachStep_cons rfl,
    eachStep_cons rfl, eachStep_cons rfl, eachStep_cons rfl]
  refine ⟨hfree _ _ nofun, hfree _ _ nofun, hfree _ _ nofun, ?_, ?_, hfree _ _ nofun,
    hfree _ _ nofun, trivial⟩
  · rintro _ ⟨⟩
    exact ⟨⟨_, rfl⟩, by decide⟩
  · rintro _ ⟨⟩
    exact ⟨⟨_, rfl⟩, by decide⟩

/-- Three requests are written in turn. -/
theorem orderly_dataLoaded : ∃ c, run (step Qt.default) initial dataLoaded = some c ∧
    (exchange c.log).owed = [(2, MessageFactory.createAllMyChatsRequest)] ∧ Orderly c.log := by
  have hrun : (run (step Qt.default) initial dataLoaded).map (fun c => (exchange c.log).owed) =
      some [(2, MessageFactory.createAllMyChatsRequest)] := by
    decide
  obtain ⟨c, hc, howed⟩ := Option.map_eq_some_iff.mp hrun
  exact ⟨c, hc, howed, (orderly_of_run eachStep_dataLoaded hc).1⟩

end Client

end Elegram
