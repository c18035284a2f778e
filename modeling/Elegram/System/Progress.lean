import Elegram.Foundation.Progress
import Elegram.System.Answers
import Mathlib.Tactic.Abel

/-!
# Every request in flight is answered

The client returns from its handlers and reads what arrives, the sessions go on with their work and
the database with its transactions; everything else comes from outside (`System.Event.Internal`).
Left to itself, the system comes to rest, in whatever order its parts go on (`step_less`). What is
left to do is measured by the ranks of jobs and programs: a request stands for the job that it
starts, and a job for the storage function that it calls.

A system at rest has nothing on its way (`AtRest.idle`). With an open connection, the requests that
were in flight have been answered then.
-/

namespace Elegram

open ReadCommitted Transition

/-! ### The work of a session -/

section Work

variable (hashPassword : String → List UInt8)

/-- How much a job has to do, with the storage function that it calls. -/
noncomputable def JobM.rank : JobM Unit → Ordinal.{0}
  | .pure _ => 0
  | .call c k => max (storageBody hashPassword c).rank (⨆ r, (k r).rank + 1) + 1
  | .loggedIn k => ⨆ b, (k b).rank + 1
  | .state k => ⨆ st, (k st).rank + 1
  | .setState _ k => k.rank + 1
  | .write _ k => k.rank + 1

/-- How much is left to do when the job waits for a storage function. -/
noncomputable def Phase.rank : Phase → Ordinal.{0}
  | .running job => job.rank hashPassword
  | .waiting _ _ k => ⨆ r, (k r).rank hashPassword + 1

/-- How much a request that has not been read stands for. -/
noncomputable def Request.rank (request : Request) : Ordinal.{0} :=
  match requestJob request with
  | some job => job.rank hashPassword + 1
  | none => 0

/-- What is left to do for the requests that the session has. -/
noncomputable def Serving.work (v : Serving) : Transition.Work :=
  Work.ofList (fun p => {p.2.rank hashPassword}) v.inbox +
    Work.ofList (fun task => {task.phase.rank hashPassword}) v.task.toList

end Work

namespace Serving

variable {hashPassword : String → List UInt8} {v v' : Serving}

@[simp] theorem work_fresh : fresh.work hashPassword = 0 := by simp [work, fresh]

@[simp] theorem work_delivered : v.delivered.work hashPassword = v.work hashPassword := rfl

@[simp] theorem work_receive (id : ℕ) (request : Request) :
    (v.receive id request).work hashPassword =
      v.work hashPassword + {request.rank hashPassword} := by
  simp only [work, receive, Work.ofList_append, Work.ofList_cons, Work.ofList_nil, add_zero]
  exact add_right_comm ..

/-- A session whose task goes on with less to do. -/
theorem work_less_of_task {u : Serving} {task : Task} (htask : v.task = some task)
    (hinbox : u.inbox = v.inbox)
    (hless : ∀ task', u.task = some task' →
      task'.phase.rank hashPassword < task.phase.rank hashPassword) :
    Work.Less (u.work hashPassword) (v.work hashPassword) := by
  rw [work, work, hinbox, htask]
  refine Work.Less.add_left ?_ _
  rw [Option.toList_some, Work.ofList_cons, Work.ofList_nil, add_zero]
  refine Work.less_singleton fun o ho => ?_
  cases hu : u.task with
  | none =>
    rw [hu] at ho
    exact absurd ho (Multiset.notMem_zero o)
  | some task' =>
    rw [hu, Option.toList_some, Work.ofList_cons, Work.ofList_nil, add_zero] at ho
    rw [Multiset.mem_singleton.mp ho]
    exact hless task' hu

/-- A session that a job is posted for. -/
theorem task_post {id : ℕ} {request : Request} {job : JobM Unit} {task : Task}
    (h : (v.post id request job).task = some task) : task.phase = .running job := by
  cases job with
  | pure => cases h
  | _ =>
    cases h
    rfl

theorem work_less_of_post {u : Serving} {id : ℕ} {request : Request} {job : JobM Unit}
    {task : Task} (htask : v.task = some task) (hinbox : u.inbox = v.inbox)
    (hless : job.rank hashPassword < task.phase.rank hashPassword) :
    Work.Less ((u.post id request job).work hashPassword) (v.work hashPassword) := by
  refine work_less_of_task htask hinbox fun task' htask' => ?_
  rw [task_post htask']
  exact hless

theorem work_less_of_take (hv : v.take = some v') :
    Work.Less (v'.work hashPassword) (v.work hashPassword) := by
  rw [take] at hv
  split at hv
  · next id request inbox htask hinbox =>
    obtain ⟨job, hjob, rfl⟩ := Option.map_eq_some_iff.mp hv
    have hrank : job.rank hashPassword < request.rank hashPassword := by
      rw [Request.rank, hjob]
      exact lt_add_one _
    have hwork : v.work hashPassword = Work.ofList (fun p => {p.2.rank hashPassword}) inbox +
        {request.rank hashPassword} := by
      rw [work, htask, hinbox, Work.ofList_cons, Option.toList_none, Work.ofList_nil, add_zero,
        add_comm]
    rw [hwork, work]
    refine Work.Less.add_left (Work.less_singleton fun o ho => ?_) _
    cases htask' : (({ v with inbox := inbox, before := v.clientState } : Serving).post id request
        job).task with
    | none =>
      rw [htask'] at ho
      exact absurd ho (Multiset.notMem_zero o)
    | some task =>
      rw [htask', Option.toList_some, Work.ofList_cons, Work.ofList_nil, add_zero] at ho
      rw [Multiset.mem_singleton.mp ho, task_post htask']
      exact hrank
  · cases hv

theorem work_less_of_resume {returned : ℕ → Option ((c : StorageCall) × c.Result)}
    (hv : v.resume returned = some v') :
    Work.Less (v'.work hashPassword) (v.work hashPassword) := by
  rw [resume] at hv
  split at hv
  · next id request t c k htask =>
    split at hv
    · split_ifs at hv with hc
      cases hv
      exact work_less_of_post htask rfl
        (Ordinal.lt_iSup_add_one (fun r => (k r).rank hashPassword) _)
    · cases hv
  · cases hv

theorem work_less_of_operate (hv : v.operate = some (.alone v')) :
    Work.Less (v'.work hashPassword) (v.work hashPassword) := by
  rw [operate] at hv
  split at hv
  · next id request job htask =>
    cases job with
    | pure | call => cases hv
    | loggedIn k =>
      cases hv
      exact work_less_of_post htask rfl
        (Ordinal.lt_iSup_add_one (fun b => (k b).rank hashPassword) _)
    | state k =>
      obtain ⟨st, -, heq⟩ := Option.map_eq_some_iff.mp hv
      cases heq
      exact work_less_of_post htask rfl
        (Ordinal.lt_iSup_add_one (fun st => (k st).rank hashPassword) _)
    | setState st k =>
      cases hv
      exact work_less_of_post htask rfl (lt_add_one _)
    | write mesg k =>
      cases hv
      exact work_less_of_post htask rfl (lt_add_one _)
  · cases hv

variable (hashPassword) in
/-- A storage call: the session waits, and the storage function begins. -/
theorem work_less_of_calls {id : ℕ} {c : StorageCall} {w : ℕ → Serving}
    (hv : v.operate = some (.calls id c w)) (t : ℕ) :
    Work.Less ((w t).work hashPassword + {(storageBody hashPassword c).rank})
      (v.work hashPassword) := by
  rw [operate] at hv
  split at hv
  · next id' request job htask =>
    cases job with
    | call c' k =>
      cases hv
      rw [work, work, htask, add_assoc]
      refine Work.Less.add_left ?_ _
      simp only [Option.toList_some, Work.ofList_cons, Work.ofList_nil, add_zero]
      refine Work.less_singleton fun o ho => ?_
      have hlt : ∀ {o}, o ≤ max (storageBody hashPassword c).rank
          (⨆ r, (k r).rank hashPassword + 1) → o < (JobM.call c k).rank hashPassword :=
        fun hle => Order.lt_add_one_iff.mpr hle
      rcases Multiset.mem_add.mp ho with ho | ho
      · rw [Multiset.mem_singleton.mp ho]
        exact hlt (le_max_right _ _)
      · rw [Multiset.mem_singleton.mp ho]
        exact hlt (le_max_left _ _)
    | state k =>
      obtain ⟨_, -, heq⟩ := Option.map_eq_some_iff.mp hv
      cases heq
    | _ => cases hv
  · cases hv

end Serving

/-! ### The work of the client and of the system -/

/-- What is left to do when the handlers have returned. -/
def Continuation.rank : Continuation → Ordinal.{0}
  | .done | .setServer .. => 1
  | .connectToHost .. => 2

section Work

variable (hashPassword : String → List UInt8)

/-- What is left to do when the answer arrives: a signal, or a request for the chats and, for its
answer, a signal. -/
noncomputable def Request.answerRank (request : Request) : Ordinal.{0} :=
  if request = MessageFactory.createAllMyContactsRequest then
    max (MessageFactory.createAllMyChatsRequest.rank hashPassword) 2 + 1
  else 2

noncomputable def Client.work (c : Client) : Transition.Work :=
  Work.ofList (fun k => {k.rank}) c.stack +
    Work.ofList (fun p => {p.2.answerRank hashPassword}) (Client.exchange c.log).owed

/-- What is left to do in the system. -/
noncomputable def System.work (s : System hashPassword) : Transition.Work :=
  s.client.work hashPassword + Work.ofList (Serving.work hashPassword) s.sessions +
    s.database.machine.work

end Work

/-- The event is the doing of the system, in which handlers return, and no user or connection is
involved. -/
def System.Event.Internal : System.Event → Prop
  | .client .ret | .deliver | .take _ | .operate _ | .resume _ | .database (.act ..) => True
  | .client _ | .database (.call _) => False

theorem Request.two_le_answerRank (hashPassword : String → List UInt8) (request : Request) :
    2 ≤ request.answerRank hashPassword := by
  rw [answerRank]
  split_ifs
  · exact (le_max_right _ _).trans (lt_add_one _).le
  · exact le_rfl

/-- Contacts are the response to a request for contacts only. -/
theorem Request.Suits.eq_contactsRequest {request : Request} {b : Bool} {contacts : List Contact}
    (h : request.Suits b (.contactsResponse contacts)) :
    request = MessageFactory.createAllMyContactsRequest := by
  rcases h with ⟨-, -, hempty⟩ | ⟨-, hexpects⟩
  · cases hempty
  · cases request with
    | contactsRequest => rfl
    | _ => exact hexpects.elim

namespace System

open Client

variable {hashPassword : String → List UInt8} {qt : Qt} {s s' : System hashPassword}

variable (hashPassword) in
/-- The client goes on when the handlers return. -/
theorem ret_less {c c' : Client} (h : c.step qt .ret = some c') : ∃ news, c'.log = c.log ++ news ∧
    (∀ sessions, news.foldl transmit sessions = sessions) ∧
    Work.Less (c'.work hashPassword) (c.work hashPassword) := by
  rw [Client.step] at h
  split at h
  · next k stack hstack =>
    cases h
    have hless : ∀ w : Transition.Work, (∀ a ∈ w, a < k.rank) →
        Work.Less (w + Work.ofList (fun k => {k.rank}) stack +
          Work.ofList (fun p => {p.2.answerRank hashPassword}) (exchange c.log).owed)
          (c.work hashPassword) := by
      intro w hw
      rw [Client.work, hstack, Work.ofList_cons]
      exact ((Work.less_singleton hw).add_right _).add_right _
    cases k with
    | done =>
      refine ⟨[], (List.append_nil _).symm, fun _ => rfl, ?_⟩
      simpa [Client.work, Client.resume] using hless 0 (by simp)
    | setServer ip port =>
      refine ⟨[], (List.append_nil _).symm, fun _ => rfl, ?_⟩
      simpa [Client.work, Client.resume] using hless 0 (by simp)
    | connectToHost ip port =>
      refine ⟨[.emitted none (.updatedConnectionSettings "")], rfl, fun _ => rfl, ?_⟩
      have howed : (exchange (c.log ++
          [.emitted none (.updatedConnectionSettings "")])).owed = (exchange c.log).owed := by
        rw [exchange_concat]
        rfl
      have hwork : Client.work hashPassword
          (({ c with stack := stack } : Client).resume (.connectToHost ip port)) =
            {1} + Work.ofList (fun k => {k.rank}) stack +
              Work.ofList (fun p => {p.2.answerRank hashPassword}) (exchange c.log).owed := by
        rw [← howed]
        simp [Client.work, Client.resume, Client.emit, Continuation.rank]
      rw [hwork]
      refine hless {1} fun a ha => ?_
      rw [Multiset.mem_singleton.mp ha]
      exact one_lt_two
  · cases h

/-- What a response leaves to do. -/
theorem Delivered.less (hs : s.Answering) (hd : s.Delivered s') :
    Work.Less s'.work s.work := by
  cases hd with
  | @mk front v reply r callback called hsessions hreply hmesg hcalled hanswer hpending howed hid
      hmakes hstack hsocket hcallback =>
    rw [← hid] at howed
    have hexchange := exchange_answered howed r
    have hbefore : s.work = {reply.request.answerRank hashPassword} +
        (Work.ofList (Serving.work hashPassword) front + v.work hashPassword) +
        s.database.machine.work := by
      rw [System.work, Client.work, hstack, howed, hsessions]
      simp
    rw [hbefore, answeredBy]
    cases hsignal : callback.job.reaction r with
    | some signal =>
      have howed' : (exchange (s.client.log ++ [.received, .answered callback.id r,
          .emitted callback.id signal])).owed = [] := by
        have heq := exchange_append (s.client.log ++ [.received, .answered callback.id r])
          [.emitted callback.id signal]
        rw [hexchange, List.append_assoc] at heq
        exact (congrArg Exchange.owed heq :)
      have hafter : (({ s with sessions := front ++ [v.delivered] } : System hashPassword).follow
          { s.client.store callback.job r with
            availible := true
            stack := [.done]
            log := s.client.log ++ [.received, .answered callback.id r,
              .emitted callback.id signal] }).work =
          {1} + (Work.ofList (Serving.work hashPassword) front + v.work hashPassword) +
            s.database.machine.work := by
        rw [System.work, System.follow, Client.work, howed', List.drop_left]
        simp [transmit, Continuation.rank]
      dsimp only at hafter ⊢
      rw [hafter]
      refine ((Work.less_singleton fun a ha => ?_).add_right _).add_right _
      rw [Multiset.mem_singleton.mp ha]
      exact one_lt_two.trans_le (Request.two_le_answerRank hashPassword reply.request)
    | none =>
      -- the contacts are there, and the chats are requested
      obtain ⟨-, contacts, rfl⟩ := Job.reaction_eq_none hsignal
      have hmem : v ∈ s.sessions := by
        rw [hsessions]
        exact List.mem_append_right _ (List.mem_singleton_self _)
      obtain ⟨r', hmesg', hsuits⟩ :=
        (hs.sessions v hmem).outbox reply (List.mem_of_mem_head? hreply)
      rw [hmesg] at hmesg'
      cases hmesg'
      have hrequest := hsuits.eq_contactsRequest
      have howed' : (exchange (s.client.log ++ [.received, .answered callback.id
          (.contactsResponse contacts), .written s.client.requests
            MessageFactory.createAllMyChatsRequest])).owed =
          [(s.client.requests, MessageFactory.createAllMyChatsRequest)] := by
        have heq := exchange_append
          (s.client.log ++ [.received, .answered callback.id (.contactsResponse contacts)])
          [.written s.client.requests MessageFactory.createAllMyChatsRequest]
        rw [hexchange, List.append_assoc] at heq
        exact (congrArg Exchange.owed heq :)
      have hafter : (({ s with sessions := front ++ [v.delivered] } : System hashPassword).follow
          { s.client.store callback.job (.contactsResponse contacts) with
            callback := some { id := s.client.requests, job := .loadData }
            requests := s.client.requests + 1
            log := s.client.log ++ [.received, .answered callback.id (.contactsResponse contacts),
              .written s.client.requests MessageFactory.createAllMyChatsRequest] }).work =
          {2} + {MessageFactory.createAllMyChatsRequest.rank hashPassword} +
            (Work.ofList (Serving.work hashPassword) front + v.work hashPassword) +
              s.database.machine.work := by
        have hchats : MessageFactory.createAllMyChatsRequest.answerRank hashPassword = 2 :=
          if_neg (by decide)
        rw [System.work, System.follow, Client.work, howed', List.drop_left, List.foldl_cons,
          List.foldl_cons, List.foldl_cons, List.foldl_nil, transmit, transmit, transmit,
          List.modifyLast_concat]
        · have hnone : (s.client.store callback.job (.contactsResponse contacts)).stack = [] :=
            hstack
          simp only [hnone, Work.ofList_nil, Work.ofList_cons, Work.ofList_append, hchats,
            Serving.work_receive, Serving.work_delivered, add_zero, zero_add]
          abel
        all_goals simp
      dsimp only at hafter ⊢
      rw [hafter]
      refine ((Work.Less.add_right (Work.less_singleton fun a ha => ?_) _)).add_right _
      rw [hrequest, Request.answerRank, if_pos rfl, Order.lt_add_one_iff]
      rcases Multiset.mem_add.mp ha with ha | ha
      · rw [Multiset.mem_singleton.mp ha]
        exact le_max_right _ _
      · rw [Multiset.mem_singleton.mp ha]
        exact le_max_left _ _

/-- A session that goes on by itself. -/
theorem setSession_less {k : ℕ} {v v' : Serving} (hv : s.sessions[k]? = some v)
    (hless : Work.Less (v'.work hashPassword) (v.work hashPassword)) :
    Work.Less (s.setSession k v').work s.work := by
  obtain ⟨rest, hwork, hset⟩ := Work.exists_ofList_set (f := Serving.work hashPassword) hv
  rw [System.work, System.work, setSession, hwork, hset]
  exact ((hless.add_left rest).add_left _).add_right _

/-- **Progress.** What the system does by itself leaves less to do. -/
theorem step_less {e : Event} (hs : s.Answering) (he : e.Internal)
    (hstep : s.step qt e = some s') : Work.Less s'.work s.work := by
  cases e with
  | client e =>
    obtain ⟨-, c, hc, rfl⟩ := step_client hstep
    cases e with
    | ret =>
      obtain ⟨news, hlog, hnone, hless⟩ := ret_less hashPassword hc
      have hfollow : (s.follow c).sessions = s.sessions := by
        rw [System.follow, hlog, List.drop_left, hnone]
      rw [System.work, System.work, hfollow]
      exact (hless.add_right _).add_right _
    | _ => exact he.elim
  | deliver => exact (hs.linked.delivered hstep).less hs
  | take k =>
    simp only [step, Option.bind_eq_bind, Option.bind_eq_some_iff, Option.some_inj] at hstep
    obtain ⟨v, hv, v', hv', rfl⟩ := hstep
    exact setSession_less hv (Serving.work_less_of_take hv')
  | resume k =>
    simp only [step, Option.bind_eq_bind, Option.bind_eq_some_iff, Option.some_inj] at hstep
    obtain ⟨v, hv, v', hv', rfl⟩ := hstep
    exact setSession_less hv (Serving.work_less_of_resume hv')
  | operate k =>
    simp only [step, Option.bind_eq_bind, Option.bind_eq_some_iff] at hstep
    obtain ⟨v, hv, operated, hoperated, hstep⟩ := hstep
    cases operated with
    | alone v' =>
      cases hstep
      exact setSession_less hv (Serving.work_less_of_operate hoperated)
    | calls id c w =>
      cases hstep
      have hless := Serving.work_less_of_calls hashPassword hoperated
        s.database.calls
      obtain ⟨rest, hwork, hset⟩ := Work.exists_ofList_set (f := Serving.work hashPassword) hv
      have hcall : (s.database.call c).machine.work =
          s.database.machine.work + {(storageBody hashPassword c).rank} := by
        simp [Machine.work, Database.call]
      rw [System.work, System.work, setSession, hcall, hwork, hset]
      have hsum := ((hless.add_left rest).add_left (s.client.work hashPassword)).add_right
        s.database.machine.work
      convert hsum using 1
      abel
  | database e =>
    obtain ⟨d, hd, rfl⟩ := Option.map_eq_some_iff.mp hstep
    cases e with
    | call c => exact he.elim
    | act i choice => exact (Machine.work_less_of_act (Database.step_eq_some hd)).add_left _

/-! ### At rest -/

end System

namespace Database

variable {hashPassword : String → List UInt8} {d : Database hashPassword}

theorem exists_step {e : Machine.Event StorageCall} {m : StorageMachine}
    (h : d.machine.step (storageBody hashPassword) e = some m) : ∃ d', d.step e = some d' := by
  rw [step]
  split
  · exact ⟨_, rfl⟩
  · next hnone =>
    rw [h] at hnone
    cases hnone

/-- A storage function that has not returned can go on. -/
theorem exists_step_act {t : ℕ} {txn : Transaction postgres StorageCall
      ((op : StorageCall) × op.Result)} (ht : d.machine.txns[t]? = some txn)
    (hprog : ∀ r, txn.prog ≠ .ret r) : ∃ d', d.step (.act t .fail) = some d' := by
  obtain ⟨m, hm⟩ := Machine.exists_step_act (storageBody hashPassword)
    (schemaConstraint.respected_of_reachable ⟨d.events, d.reached⟩) ht hprog
  exact exists_step hm

/-- A storage function returns what it has been called for. -/
theorem returned_of_label {t : ℕ} {c : StorageCall} (hlabel : d.label t = some c)
    (hret : ∀ txn ∈ d.machine.txns, ∃ r, txn.prog = .ret r) :
    ∃ result, d.returned t = some ⟨c, result⟩ := by
  obtain ⟨txn, htxn, rfl⟩ := Option.map_eq_some_iff.mp hlabel
  obtain ⟨⟨op, result⟩, hprog⟩ := hret txn (List.mem_of_getElem? htxn)
  obtain ⟨rfl, -⟩ := StorageMachine.outcome_of_run d.reached htxn hprog
  refine ⟨result, ?_⟩
  rw [returned, htxn, Option.map_some, hprog]

end Database

namespace Serving

variable {v : Serving}

/-- A job that has not ended goes on. -/
theorem exists_operate {Q : Response → Prop} {id : ℕ} {request : Request} {job : JobM Unit}
    (htask : v.task = some ⟨id, request, .running job⟩) (hjob : job.Delivers Q v.clientState) :
    ∃ operated, v.operate = some operated := by
  rw [operate, htask]
  cases job with
  | pure => exact hjob.elim
  | state k =>
    obtain ⟨st, hst, -⟩ := hjob
    exact ⟨.alone (v.post id request (k st)), by rw [hst]; rfl⟩
  | _ => exact ⟨_, rfl⟩

theorem exists_resume {returned : ℕ → Option ((c : StorageCall) × c.Result)} {id : ℕ}
    {request : Request} {t : ℕ} {c : StorageCall} {k : c.Result → JobM Unit} {result : c.Result}
    (htask : v.task = some ⟨id, request, .waiting t c k⟩)
    (hreturned : returned t = some ⟨c, result⟩) : ∃ v', v.resume returned = some v' := by
  refine ⟨v.post id request (k result), ?_⟩
  rw [resume, htask]
  simp only [hreturned, dite_true]

theorem exists_take {p : ℕ × Request} {inbox : List (ℕ × Request)} (htask : v.task = none)
    (hinbox : v.inbox = p :: inbox) (hjob : (requestJob p.2).isSome) : ∃ v', v.take = some v' := by
  obtain ⟨job, hjob⟩ := Option.isSome_iff_exists.mp hjob
  rw [take, htask, hinbox]
  simp only [hjob, Option.map_some]
  exact ⟨_, rfl⟩

end Serving

namespace System

open Client

variable {hashPassword : String → List UInt8} {qt : Qt} {s s' : System hashPassword}

/-- Nothing is on its way: no handler runs, the facade is open and owed no answer, the sessions have
nothing to do and all storage functions have returned. -/
structure Idle (s : System hashPassword) : Prop where
  stack : s.client.stack = []
  availible : s.client.availible = true
  owed : (exchange s.client.log).owed = []
  sessions : ∀ v ∈ s.sessions, v.inbox = [] ∧ v.task = none
  returned : ∀ txn ∈ s.database.machine.txns, ∃ r, txn.prog = .ret r

theorem stack_of_atRest (hrest : AtRest (step qt) Event.Internal s) : s.client.stack = [] := by
  cases hstack : s.client.stack with
  | nil => rfl
  | cons k stack =>
    have hnone := hrest (.client .ret) trivial
    simp [step, Client.step, hstack] at hnone

theorem returned_of_atRest (hrest : AtRest (step qt) Event.Internal s) :
    ∀ txn ∈ s.database.machine.txns, ∃ r, txn.prog = .ret r := by
  intro txn hmem
  by_contra hprog
  rw [not_exists] at hprog
  obtain ⟨t, ht⟩ := List.getElem?_of_mem hmem
  obtain ⟨d, hd⟩ := s.database.exists_step_act ht hprog
  have hnone := hrest (.database (.act t .fail)) trivial
  rw [step, hd] at hnone
  cases hnone

theorem task_of_atRest (hs : s.Answering) (hrest : AtRest (step qt) Event.Internal s) {v : Serving}
    (hv : v ∈ s.sessions) : v.task = none := by
  obtain ⟨k, hk⟩ := List.getElem?_of_mem hv
  cases htask : v.task with
  | none => rfl
  | some task =>
    obtain ⟨id, request, phase⟩ := task
    cases phase with
    | running job =>
      obtain ⟨operated, hoperated⟩ :=
        Serving.exists_operate htask ((hs.sessions v hv).task _ _ _ htask)
      have hnone := hrest (.operate k) trivial
      cases operated <;> simp [step, hk, hoperated] at hnone
    | waiting t c k' =>
      obtain ⟨-, hlabel, -⟩ := (hs.linked.stages v hv).task _ _ _ htask
      obtain ⟨result, hreturned⟩ := Database.returned_of_label hlabel (returned_of_atRest hrest)
      obtain ⟨v', hv'⟩ := Serving.exists_resume htask hreturned
      have hnone := hrest (.resume k) trivial
      simp [step, hk, hv'] at hnone

theorem inbox_of_atRest (hs : s.Answering) (hrest : AtRest (step qt) Event.Internal s) {v : Serving}
    (hv : v ∈ s.sessions) : v.inbox = [] := by
  obtain ⟨k, hk⟩ := List.getElem?_of_mem hv
  cases hinbox : v.inbox with
  | nil => rfl
  | cons p inbox =>
    obtain ⟨v', hv'⟩ := Serving.exists_take (task_of_atRest hs hrest hv) hinbox
      ((hs.sessions v hv).inbox p (hinbox ▸ List.mem_cons_self ..))
    have hnone := hrest (.take k) trivial
    simp [step, hk, hv'] at hnone

/-- **Rest.** A system that has nothing to do by itself has nothing on its way. -/
theorem idle_of_atRest (hs : s.Answering) (hrest : AtRest (step qt) Event.Internal s) :
    s.Idle := by
  have hstack := stack_of_atRest hrest
  have havailible : s.client.availible = true := by
    by_contra hlocked
    obtain ⟨hsocket, callback, mesg, hcallback, -, howed⟩ :=
      hs.linked.converses.2.locked (Bool.eq_false_iff.mpr hlocked)
    obtain ⟨front, v, hsessions, hpending⟩ := hs.linked.live hsocket
    have hv : v ∈ s.sessions := by
      rw [hsessions]
      exact List.mem_append_right _ (List.mem_singleton_self _)
    -- the answer is there, and can be delivered
    rw [howed, Serving.pending, inbox_of_atRest hs hrest hv, task_of_atRest hs hrest hv] at hpending
    obtain ⟨reply, houtbox, -⟩ : ∃ a, v.outbox = [a] ∧ a.id = callback.id ∧ a.request = mesg := by
      simpa using hpending
    obtain ⟨r, hmesg, -⟩ := (hs.sessions v hv).outbox reply
      (houtbox ▸ List.mem_singleton_self reply)
    have hreads : ∃ id mesg c', (exchange s.client.log).owed = [(id, mesg)] ∧
        s.client.step qt (.frame (some (.response r))) = some c' ∧
        s.client.log ++ [.received, .answered id r] <+: c'.log :=
      hs.linked.converses.2.exists_step hstack hsocket (howed ▸ List.cons_ne_nil _ _) r
    obtain ⟨_, _, c, -, hc, -⟩ := hreads
    have hnone := hrest .deliver trivial
    simp [step, hsessions, houtbox, hmesg, hc] at hnone
  exact ⟨hstack, havailible, hs.linked.converses.2.free havailible, fun v hv =>
    ⟨inbox_of_atRest hs hrest hv, task_of_atRest hs hrest hv⟩, returned_of_atRest hrest⟩

/-! ### Answers -/

/-- The request is owed its answer or has been given one. -/
def Pending (s : System hashPassword) (p : ℕ × Request) : Prop :=
  p ∈ (exchange s.client.log).owed ∨ ∃ r, .answered p.1 r ∈ s.client.log

/-- An open connection stays open, and no request in flight gets lost. -/
structure Carries (s s' : System hashPassword) : Prop where
  socket : s.client.socket = .connected → s'.client.socket = .connected
  pending : ∀ p, s.Pending p → s'.Pending p

/-- Returning from a handler leaves the connection as it is. -/
theorem ret_owed {c c' : Client} (h : c.step qt .ret = some c') :
    (c.socket = .connected → c'.socket = .connected) ∧
      (exchange c'.log).owed = (exchange c.log).owed ∧ c.log <+: c'.log := by
  rw [Client.step] at h
  split at h
  · next k stack hstack =>
    cases h
    cases k with
    | done | setServer => exact ⟨id, rfl, List.prefix_rfl⟩
    | connectToHost ip port =>
      refine ⟨fun hsocket => ?_, ?_, List.prefix_append _ _⟩
      · simp [Client.resume, emit, hsocket]
      · exact (congrArg Exchange.owed (exchange_concat ..) :)
  · cases h

theorem Delivered.carries (hd : s.Delivered s') : s.Carries s' := by
  cases hd with
  | @mk front v reply r callback called hsessions hreply hmesg hcalled hanswer hpending howed hid
      hmakes hstack hsocket hcallback =>
    obtain ⟨a, hlog, -⟩ := log_answeredBy s.client callback r
    have hsame : (s.client.answeredBy callback r).socket = s.client.socket := by
      rw [answeredBy]
      cases callback.job.reaction r <;> rfl
    refine ⟨fun _ => hsame.trans hsocket, fun p hp => .inr ?_⟩
    change ∃ r', .answered p.1 r' ∈ (s.client.answeredBy callback r).log
    rw [hlog]
    rcases hp with hmem | ⟨r', hmem⟩
    · rw [howed, List.mem_singleton] at hmem
      refine ⟨r, ?_⟩
      rw [hmem, ← hid]
      simp
    · exact ⟨r', by simp [hmem]⟩

theorem step_carries {e : Event} (hs : s.Linked) (he : e.Internal)
    (hstep : s.step qt e = some s') : s.Carries s' := by
  cases hs.step_cases hstep with
  | @client e c hbody hc =>
    cases e with
    | ret =>
      obtain ⟨hsocket, howed, hlog⟩ := ret_owed hc
      refine ⟨hsocket, fun p hp => ?_⟩
      change p ∈ (exchange c.log).owed ∨ ∃ r, .answered p.1 r ∈ c.log
      rw [howed]
      exact hp.imp_right fun ⟨r, hmem⟩ => ⟨r, hlog.subset hmem⟩
    | _ => exact he.elim
  | delivered hd => exact hd.carries
  | served | database => exact ⟨id, fun _ => id⟩

theorem run_carries {es : List Event} (hs : s.Answering) (hes : ∀ e ∈ es, e.Internal)
    (hrun : run (step qt) s es = some s') : s'.Answering ∧ s.Carries s' := by
  induction es generalizing s with
  | nil =>
    cases hrun
    exact ⟨hs, id, fun _ => id⟩
  | cons e es ih =>
    rw [run_cons, Option.bind_eq_some_iff] at hrun
    obtain ⟨s₁, h₁, hrun⟩ := hrun
    have hfirst := step_carries hs.linked (hes e (List.mem_cons_self ..)) h₁
    obtain ⟨hs', hrest⟩ := ih (step_answering hs h₁)
      (fun e he => hes e (List.mem_cons_of_mem _ he)) hrun
    exact ⟨hs', fun h => hrest.socket (hfirst.socket h), fun p hp =>
      hrest.pending p (hfirst.pending p hp)⟩

/-- **Answers.** From every state that can be reached, no infinite schedule of what the system does
by itself can be carried out, and the schedules that cannot be continued lead to states in which
the facade is open and nothing is on its way; if the connection was open, the requests in flight
have been answered. -/
theorem reachable_answers (h : Reachable (step qt) initial s) :
    (∀ es : ℕ → Event, (∀ n, (es n).Internal) →
      ∃ n, run (step qt) s ((List.range n).map es) = none) ∧
    (∃ es s', (∀ e ∈ es, Event.Internal e) ∧ run (step qt) s es = some s' ∧
      AtRest (step qt) Event.Internal s') ∧
    ∀ es s', (∀ e ∈ es, Event.Internal e) → run (step qt) s es = some s' →
      AtRest (step qt) Event.Internal s' → s'.Idle ∧ (s.client.socket = .connected →
        s'.client.socket = .connected ∧
          ∀ p ∈ (exchange s.client.log).owed, ∃ r, .answered p.1 r ∈ s'.client.log) := by
  have hs := reachable_answering h
  have hstep : ∀ (s : System hashPassword) e s', s.Answering → e.Internal →
      s.step qt e = some s' → s'.Answering ∧ Work.Less s'.work s.work :=
    fun s e s' hs he hstep => ⟨step_answering hs hstep, step_less hs he hstep⟩
  refine ⟨exists_run_eq_none Work.wellFounded_less hstep hs,
    exists_atRest Work.wellFounded_less hstep hs, fun es s' hes hrun hrest => ?_⟩
  obtain ⟨hs', hcarries⟩ := run_carries hs hes hrun
  have hidle := idle_of_atRest hs' hrest
  refine ⟨hidle, fun hsocket => ⟨hcarries.socket hsocket, fun p hp => ?_⟩⟩
  rcases hcarries.pending p (.inl hp) with howed | hanswered
  · rw [hidle.owed] at howed
    cases howed
  · exact hanswered

/-- A registration in flight. -/
def registering : List Event :=
  [.client .connected, .client .ret, .client (.call (.signup "u" "e" "p"))]

/-- Left to itself, the system answers it. -/
theorem answers_registering : ∃ s : System fun _ => [],
    run (step Qt.default) initial registering = some s ∧ ∃ es s',
      run (step Qt.default) s es = some s' ∧ s'.Idle ∧ ∃ r, .answered 0 r ∈ s'.client.log := by
  have hrun : (run (step Qt.default) (initial : System fun _ => []) registering).map
      (fun s => (s.client.socket, (exchange s.client.log).owed)) =
        some (.connected, [(0, MessageFactory.createRegisterRequest "u" "e" "p")]) := by
    decide
  obtain ⟨s, hs, heq⟩ := Option.map_eq_some_iff.mp hrun
  obtain ⟨hsocket, howed⟩ := Prod.mk.inj heq
  obtain ⟨-, ⟨es, s', hes, hrun', hrest⟩, hanswers⟩ := reachable_answers ⟨registering, hs⟩
  obtain ⟨hidle, hanswered⟩ := hanswers es s' hes hrun' hrest
  refine ⟨s, hs, es, s', hrun', hidle, (hanswered hsocket).2
    (0, MessageFactory.createRegisterRequest "u" "e" "p") ?_⟩
  rw [howed]
  exact List.mem_singleton_self _

end System

end Elegram
