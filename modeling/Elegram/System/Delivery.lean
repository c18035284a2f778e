import Elegram.Client.Conversation
import Elegram.Server.Serving
import Elegram.Server.StorageMachine
import Mathlib.Data.List.ModifyLast

/-!
# A client, its sessions and the database

A client connects to the server, loses the connection and connects again: the server has a session
for each of its connections, and the last one serves the open connection, if there is one. The
sessions of lost connections go on with what they have read. The calls of all sessions, and those of
other clients, which come at any time, are interleaved statement by statement in the database.

Frames travel as a whole, in order, and until the connection is lost. `System.reachable_linked` says
that the requests on their way, in work or on their way back on the open connection are those that
the client is owed an answer to, and that each request is in one place.
-/

namespace Elegram

open ReadCommitted Transition

/-! ### The database -/

/-- The storage machine after the events of a run. -/
structure Database (hashPassword : String → List UInt8) where
  events : List (Machine.Event StorageCall)
  machine : StorageMachine
  reached : run (Machine.step (storageBody hashPassword)) (Machine.initial .initial) events =
    some machine

namespace Database

variable {hashPassword : String → List UInt8}

def initial : Database hashPassword where
  events := []
  machine := Machine.initial .initial
  reached := rfl

def step (d : Database hashPassword) (e : Machine.Event StorageCall) :
    Option (Database hashPassword) :=
  match h : d.machine.step (storageBody hashPassword) e with
  | some m => some
      { events := d.events ++ [e]
        machine := m
        reached := run_concat d.reached h }
  | none => none

/-- The number of calls so far, which is the index of the next one. -/
def calls (d : Database hashPassword) : ℕ := d.machine.txns.length

/-- What the `t`-th call has returned. -/
def returned (d : Database hashPassword) (t : ℕ) : Option ((op : StorageCall) × op.Result) :=
  match d.machine.txns[t]?.map Transaction.prog with
  | some (.ret r) => some r
  | _ => none

/-- The function that the `t`-th call has called. -/
def label (d : Database hashPassword) (t : ℕ) : Option StorageCall :=
  d.machine.txns[t]?.map Transaction.label

/-- What the `t`-th call has committed. -/
def committedBy (d : Database hashPassword) (t : ℕ) : List (Commit postgres StorageCall) :=
  StorageMachine.committedBy hashPassword d.events t

/-- Calls that have returned stay as they are. -/
structure Extends (d d' : Database hashPassword) : Prop where
  returned : ∀ t r, d.returned t = some r → d'.returned t = some r
  label : ∀ t op, d.label t = some op → d'.label t = some op

theorem Extends.refl (d : Database hashPassword) : d.Extends d := ⟨fun _ _ h => h, fun _ _ h => h⟩

/-- The database follows the storage machine. -/
theorem step_eq_some {d d' : Database hashPassword} {e : Machine.Event StorageCall}
    (h : d.step e = some d') :
    d.machine.step (storageBody hashPassword) e = some d'.machine := by
  rw [step] at h
  split at h
  · cases h
    assumption
  · cases h

theorem returned_eq_some {d : Database hashPassword} {t : ℕ} {r : (op : StorageCall) × op.Result}
    (h : d.returned t = some r) : ∃ txn, d.machine.txns[t]? = some txn ∧ txn.prog = .ret r := by
  rw [returned] at h
  split at h
  · next heq =>
    obtain ⟨txn, htxn, hprog⟩ := Option.map_eq_some_iff.mp heq
    cases h
    exact ⟨txn, htxn, hprog⟩
  · cases h

/-- A call that has returned is not resumed. -/
theorem step_extends {d d' : Database hashPassword} {e : Machine.Event StorageCall}
    (h : d.step e = some d') : d.Extends d' := by
  have hstep := step_eq_some h
  refine ⟨fun t r hr => ?_, fun t op hop => ?_⟩
  · obtain ⟨txn, htxn, hprog⟩ := returned_eq_some hr
    have hrun : run (Machine.step (storageBody hashPassword)) d.machine [e] = some d'.machine :=
      run_cons_of_step hstep []
    rw [returned, Machine.getElem?_of_returned htxn hprog hrun, Option.map_some, hprog]
  · obtain ⟨txn, htxn, hlabel⟩ := Option.map_eq_some_iff.mp hop
    rw [label]
    generalize d'.machine = m at hstep
    cases e with
    | call l =>
      cases hstep
      rw [List.getElem?_append_left (List.getElem?_eq_some_iff.mp htxn).1, htxn, Option.map_some,
        hlabel]
    | act i choice =>
      obtain ⟨txn', eff, htxn', -, -, rfl⟩ := Machine.step_act hstep
      by_cases hi : i = t
      · rw [hi, htxn] at htxn'
        cases htxn'
        rw [hi, List.getElem?_set_self (List.getElem?_eq_some_iff.mp htxn).1, Option.map_some,
          hlabel]
      · rw [List.getElem?_set_ne hi, htxn, Option.map_some, hlabel]

/-- The storage call `c`, which is the next one. -/
def call (c : StorageCall) (d : Database hashPassword) : Database hashPassword where
  events := d.events ++ [.call c]
  machine := { d.machine with
    txns := d.machine.txns ++ [{
      label := c
      prog := storageBody hashPassword c
      own := some 0
      history := [] }] }
  reached := run_concat d.reached rfl

theorem step_call (c : StorageCall) (d : Database hashPassword) :
    d.step (.call c) = some (d.call c) :=
  rfl

theorem label_call (c : StorageCall) (d : Database hashPassword) :
    (d.call c).label d.calls = some c := by
  rw [label, call, calls, List.getElem?_concat_length, Option.map_some]

/-- The result of a call that decides tells what it has committed. -/
theorem decided_of_outcome {op : StorageCall} (hop : op.Decides) {result : op.Result}
    {history : List (Entry postgres)} {committed : Option Tables}
    (h : op.Outcome hashPassword True result history committed) :
    committed.isSome = op.succeeded result := by
  have hdecided : ∀ {Q : List (Entry postgres) → Prop} {b : Bool},
      Decided Q b history committed → committed.isSome = b := by
    rintro Q b (⟨rfl, -, rfl⟩ | ⟨rfl, rfl⟩) <;> rfl
  cases op with
  | registration | sendMessage | addContact | createChat => exact hdecided h
  | login | getChats | getContacts | getMessages => exact hop.elim

/-- What a call has committed is what it has decided. -/
theorem committedBy_of_returned {d : Database hashPassword} {t : ℕ} {op : StorageCall}
    {result : op.Result} (h : d.returned t = some ⟨op, result⟩) (hop : op.Decides) :
    (d.committedBy t).length = if op.succeeded result then 1 else 0 := by
  obtain ⟨txn, htxn, hprog⟩ := returned_eq_some h
  obtain ⟨-, committed, houtcome, hcommitted⟩ :=
    StorageMachine.outcome_of_run d.reached htxn hprog
  rw [committedBy, hcommitted, ← decided_of_outcome hop houtcome]
  cases committed <;> rfl

/-- A call commits at most once, and under its own name. -/
theorem committedBy_of_label {d : Database hashPassword} {t : ℕ} {op : StorageCall}
    (h : d.label t = some op) :
    (d.committedBy t).length ≤ 1 ∧ ∀ commit ∈ d.committedBy t, commit.label = op := by
  obtain ⟨txn, htxn, rfl⟩ := Option.map_eq_some_iff.mp h
  obtain ⟨committed, -, hcommitted⟩ := Machine.settles_of_run True
    (storageBody_settles True txn.label) (.inl trivial) (.inl trivial) d.reached htxn
  rw [committedBy, StorageMachine.committedBy, hcommitted]
  cases committed with
  | none => exact ⟨Nat.zero_le _, fun _ hmem => (by cases hmem)⟩
  | some rows => exact ⟨Nat.le_refl _, fun commit hmem => by rw [List.mem_singleton.mp hmem]⟩

end Database

/-! ### The system -/

/-- `started` tells which storage call has been made for which request, for the statements only. -/
structure System (hashPassword : String → List UInt8) where
  client : Client
  sessions : List Serving
  database : Database hashPassword
  started : List (ℕ × ℕ)

/-- What happens between the client and the server when the client acts. -/
def transmit (sessions : List Serving) : ClientAction → List Serving
  | .opened => sessions ++ [.fresh]
  | .written id mesg => sessions.modifyLast (Serving.receive id mesg)
  | _ => sessions

namespace System

variable {hashPassword : String → List UInt8}

def initial : System hashPassword where
  client := .initial
  sessions := []
  database := .initial
  started := []

/-- What can happen next. -/
inductive Event
  /-- QML, the rest of a signal, or the socket, without a frame. -/
  | client (e : Client.Event)
  /-- The client reads the next frame. -/
  | deliver
  /-- The `k`-th session reads the next request. -/
  | take (k : ℕ)
  /-- The job of the `k`-th session performs an operation. -/
  | operate (k : ℕ)
  /-- The storage function that the `k`-th session has called has returned. -/
  | resume (k : ℕ)
  /-- The database goes on, or another client calls a storage function. -/
  | database (e : Machine.Event StorageCall)

/-- The client moves on; what it writes is on its way. -/
def follow (c : Client) (s : System hashPassword) : System hashPassword :=
  { s with
    client := c
    sessions := (c.log.drop s.client.log.length).foldl transmit s.sessions }

def setSession (k : ℕ) (v : Serving) (s : System hashPassword) : System hashPassword :=
  { s with sessions := s.sessions.set k v }

variable (qt : Qt)

def step (s : System hashPassword) : Event → Option (System hashPassword)
  | .client (.frame _) => none
  | .client e => (s.client.step qt e).map s.follow
  | .deliver => do
    let v ← s.sessions.getLast?
    let reply ← v.outbox.head?
    let c ← s.client.step qt (.frame (some reply.mesg))
    some ({ s with sessions := s.sessions.modifyLast Serving.delivered }.follow c)
  | .take k => do
    let v ← s.sessions[k]?
    let v' ← v.take
    some (s.setSession k v')
  | .operate k => do
    let v ← s.sessions[k]?
    match ← v.operate with
    | .alone v' => some (s.setSession k v')
    | .calls id c v' =>
      some { s.setSession k (v' s.database.calls) with
        database := s.database.call c
        started := s.started ++ [(id, s.database.calls)] }
  | .resume k => do
    let v ← s.sessions[k]?
    let v' ← v.resume s.database.returned
    some (s.setSession k v')
  | .database e => (s.database.step e).map fun d => { s with database := d }

end System

/-! ### What is known of a request -/

/-- The storage calls that have been made for a request. -/
def callsOf (started : List (ℕ × ℕ)) (id : ℕ) : List ℕ :=
  (started.filter fun p => p.1 = id).map Prod.snd

/-- A call is the last one of its request. -/
theorem callsOf_concat_self (started : List (ℕ × ℕ)) (id t : ℕ) :
    callsOf (started ++ [(id, t)]) id = callsOf started id ++ [t] := by
  simp [callsOf]

theorem callsOf_concat_of_ne (started : List (ℕ × ℕ)) {id id' : ℕ} (h : id ≠ id') (t : ℕ) :
    callsOf (started ++ [(id, t)]) id' = callsOf started id' := by
  simp [callsOf, h]

theorem mem_callsOf {started : List (ℕ × ℕ)} {id t : ℕ} (h : t ∈ callsOf started id) :
    (id, t) ∈ started := by
  obtain ⟨p, hmem, rfl⟩ := List.mem_map.mp h
  obtain ⟨hmem, hid⟩ := List.mem_filter.mp hmem
  rw [← of_decide_eq_true hid]
  exact hmem

section Stages

variable {hashPassword : String → List UInt8} {started started' : List (ℕ × ℕ)}
  {d d' : Database hashPassword}

/-- No storage call has been made for the request, or one which has returned. -/
def Resolved (started : List (ℕ × ℕ)) (d : Database hashPassword) (id : ℕ) (request : Request) :
    Called → Prop
  | none => callsOf started id = []
  | some r => request.Asks r.1 ∧ ∃ t, callsOf started id = [t] ∧ d.returned t = some r

/-- A request remains resolved. -/
theorem Resolved.mono {id : ℕ} {request : Request} {called : Called}
    (h : Resolved started d id request called)
    (hcalls : callsOf started' id = callsOf started id) (hd : d.Extends d') :
    Resolved started' d' id request called := by
  cases called with
  | none => exact hcalls.trans h
  | some r =>
    obtain ⟨hasks, t, ht, hr⟩ := h
    exact ⟨hasks, t, hcalls.trans ht, hd.returned t r hr⟩

theorem Resolved.once {id : ℕ} {request : Request} {called : Called}
    (h : Resolved started d id request called) : (callsOf started id).length ≤ 1 := by
  cases called with
  | none =>
    rw [show callsOf started id = [] from h]
    exact Nat.zero_le _
  | some r =>
    obtain ⟨-, t, ht, -⟩ := h
    rw [ht]
    exact Nat.le_refl _

/-- A job on its way to its answer. -/
def Phase.Sound (started : List (ℕ × ℕ)) (d : Database hashPassword) (id : ℕ) (request : Request)
    (before st : Option ClientState) : Phase → Prop
  | .running job => ∃ called, Resolved started d id request called ∧
      job.Ends request.Asks (Answer request before) st called
  | .waiting t c k => callsOf started id = [t] ∧ d.label t = some c ∧ request.Asks c ∧
      ∀ r, (k r).Ends request.Asks (Answer request before) st (some ⟨c, r⟩)

/-- A phase remains sound while the database goes on. -/
theorem Phase.Sound.mono {id : ℕ} {request : Request} {before st : Option ClientState}
    {phase : Phase} (h : phase.Sound started d id request before st)
    (hcalls : callsOf started' id = callsOf started id) (hd : d.Extends d') :
    phase.Sound started' d' id request before st := by
  cases phase with
  | running job =>
    obtain ⟨called, hcalled, hends⟩ := h
    exact ⟨called, hcalled.mono hcalls hd, hends⟩
  | waiting t c k =>
    obtain ⟨ht, hlabel, hasks, hends⟩ := h
    exact ⟨hcalls.trans ht, hd.label t c hlabel, hasks, hends⟩

namespace Serving

variable {v v' : Serving}

/-- A session without a request. -/
theorem eq_of_pending_nil (h : v.pending = []) : v.inbox = [] ∧ v.task = none ∧ v.outbox = [] := by
  simp only [pending, List.append_eq_nil_iff, List.map_eq_nil_iff, Option.toList_eq_nil_iff] at h
  exact ⟨h.2, h.1.2, h.1.1⟩

theorem pending_receive (id : ℕ) (request : Request) (v : Serving) :
    (v.receive id request).pending = v.pending ++ [(id, request)] :=
  (List.append_assoc ..).symm

theorem pending_delivered {reply : Reply} (h : v.outbox.head? = some reply) :
    v.pending = (reply.id, reply.request) :: v.delivered.pending := by
  rw [List.head?_eq_some_iff] at h
  obtain ⟨rest, h⟩ := h
  simp only [pending, delivered, h, List.map_cons, List.tail_cons, List.cons_append]

theorem mem_pending_inbox {p : ℕ × Request} (h : p ∈ v.inbox) : p ∈ v.pending :=
  List.mem_append_right _ h

theorem mem_pending_task {id : ℕ} {request : Request} {phase : Phase}
    (h : v.task = some ⟨id, request, phase⟩) : (id, request) ∈ v.pending := by
  refine List.mem_append_left _ (List.mem_append_right _ ?_)
  rw [h]
  exact List.mem_singleton_self _

theorem mem_pending_outbox {reply : Reply} (h : reply ∈ v.outbox) :
    (reply.id, reply.request) ∈ v.pending :=
  List.mem_append_left _ (List.mem_append_left _ (List.mem_map_of_mem h))

/-- The login state after the requests whose answers the client has read. -/
def base (v : Serving) : Option ClientState :=
  if v.task.isNone ∧ v.outbox = [] then v.clientState else v.before

theorem base_of_idle (htask : v.task = none) (houtbox : v.outbox = []) :
    v.base = v.clientState :=
  if_pos ⟨Option.isNone_iff_eq_none.mpr htask, houtbox⟩

theorem base_of_pending_nil (h : v.pending = []) : v.base = v.clientState :=
  base_of_idle (eq_of_pending_nil h).2.1 (eq_of_pending_nil h).2.2

/-- A session with a request that it has read. -/
theorem base_of_busy {p : ℕ × Request} (h : v.pending = [p]) (hinbox : v.inbox = []) :
    v.base = v.before := by
  refine if_neg fun ⟨htask, houtbox⟩ => ?_
  rw [pending, hinbox, houtbox, Option.isNone_iff_eq_none.mp htask] at h
  cases h

theorem base_receive (id : ℕ) (request : Request) (v : Serving) :
    (v.receive id request).base = v.base :=
  rfl

/-- A session has at most one request of the client: it waits to be read, is in work, or has been
answered. -/
structure Stage (started : List (ℕ × ℕ)) (d : Database hashPassword) (v : Serving) : Prop where
  single : v.pending.length ≤ 1
  inbox : ∀ p ∈ v.inbox, callsOf started p.1 = []
  task : ∀ id request phase, v.task = some ⟨id, request, phase⟩ →
    phase.Sound started d id request v.before v.clientState
  outbox : ∀ reply ∈ v.outbox, ∃ called r, reply.mesg = .response r ∧
    Resolved started d reply.id reply.request called ∧
      Answer reply.request v.before v.clientState called r

/-- So does what is known of a session. -/
theorem Stage.mono (h : v.Stage started d)
    (hcalls : ∀ p ∈ v.pending, callsOf started' p.1 = callsOf started p.1) (hd : d.Extends d') :
    v.Stage started' d' where
  single := h.single
  inbox p hmem := (hcalls p (mem_pending_inbox hmem)).trans (h.inbox p hmem)
  task id request phase htask :=
    (h.task id request phase htask).mono (hcalls (id, request) (mem_pending_task htask)) hd
  outbox reply hmem := by
    obtain ⟨called, r, hmesg, hcalled, hanswer⟩ := h.outbox reply hmem
    exact ⟨called, r, hmesg, hcalled.mono (hcalls (reply.id, reply.request)
      (mem_pending_outbox hmem)) hd, hanswer⟩

/-- At most one storage call is made for a request. -/
theorem Stage.once (h : v.Stage started d) {p : ℕ × Request} (hp : p ∈ v.pending) :
    (callsOf started p.1).length ≤ 1 := by
  rcases List.mem_append.mp hp with hp | hp
  · rcases List.mem_append.mp hp with hp | hp
    · obtain ⟨reply, hmem, rfl⟩ := List.mem_map.mp hp
      obtain ⟨called, r, -, hcalled, -⟩ := h.outbox reply hmem
      exact hcalled.once
    · obtain ⟨⟨id, request, phase⟩, hmem, rfl⟩ := List.mem_map.mp hp
      have hsound := h.task id request phase (Option.mem_toList.mp hmem)
      cases phase with
      | running job =>
        obtain ⟨called, hcalled, -⟩ := hsound
        exact hcalled.once
      | waiting t c k => exact (congrArg List.length hsound.1).le
  · rw [h.inbox p hp]
    exact Nat.zero_le _

theorem stage_of_pending_nil (h : v.pending = []) : v.Stage started d := by
  obtain ⟨hinbox, htask, houtbox⟩ := eq_of_pending_nil h
  refine ⟨by rw [h]; exact Nat.zero_le _, ?_, ?_, ?_⟩
  · rw [hinbox]
    exact fun _ hmem => absurd hmem List.not_mem_nil
  · rw [htask]
    rintro _ _ _ ⟨⟩
  · rw [houtbox]
    exact fun _ hmem => absurd hmem List.not_mem_nil

theorem stage_receive (h : v.pending = []) {id : ℕ} (hcalls : callsOf started id = [])
    (request : Request) : (v.receive id request).Stage started d := by
  obtain ⟨hinbox, htask, houtbox⟩ := eq_of_pending_nil h
  refine ⟨by rw [pending_receive, h]; exact Nat.le_refl _, fun p hmem => ?_, ?_, ?_⟩
  · rw [receive, hinbox] at hmem
    rw [List.mem_singleton.mp hmem]
    exact hcalls
  · rw [receive, htask]
    rintro _ _ _ ⟨⟩
  · rw [receive, houtbox]
    exact fun _ hmem => absurd hmem List.not_mem_nil

/-! ### What a session does -/

/-- A session that is the only place of the request `(id, request)`. -/
structure Alone (v : Serving) (id : ℕ) (request : Request) : Prop where
  pending : v.pending = [(id, request)]
  base : v.base = v.before
  inbox : v.inbox = []
  outbox : v.outbox = []

/-- A session with a task has nothing else. -/
theorem Stage.alone (h : v.Stage started d) {id : ℕ} {request : Request} {phase : Phase}
    (htask : v.task = some ⟨id, request, phase⟩) : v.Alone id request := by
  have hsingle := h.single
  simp only [pending, htask, Option.toList_some, List.map_singleton, List.length_append,
    List.length_map, List.length_singleton] at hsingle
  have hinbox : v.inbox = [] := List.length_eq_zero_iff.mp (by omega)
  have houtbox : v.outbox = [] := List.length_eq_zero_iff.mp (by omega)
  have hpending : v.pending = [(id, request)] := by
    rw [Serving.pending, htask, hinbox, houtbox]
    rfl
  exact ⟨hpending, base_of_busy hpending hinbox, hinbox, houtbox⟩

/-- What a session may do with a request: its requests stay the same, and so does the user whom the
client knows of. -/
structure Proceeds (started : List (ℕ × ℕ)) (d : Database hashPassword) (v v' : Serving) :
    Prop where
  stage : v'.Stage started d
  pending : v'.pending = v.pending
  base : v'.base = v.base

/-- A job that does not end at once stays posted. -/
theorem post_of_ends {A : StorageCall → Prop} {Q : Option ClientState → Called → Response → Prop}
    {st : Option ClientState} {called : Called} {job : JobM Unit} (h : job.Ends A Q st called)
    (id : ℕ) (request : Request) (v : Serving) :
    v.post id request job =
      { v with task := some { id := id, request := request, phase := .running job } } := by
  cases job with
  | pure => exact h.elim
  | _ => rfl

/-- A session that has a task from now on. -/
theorem Proceeds.of_phase {id : ℕ} {request : Request} {u : Serving}
    (hpending : v.pending = [(id, request)]) (hbase : v.base = u.before) (hinbox : u.inbox = [])
    (houtbox : u.outbox = []) {phase : Phase}
    (hsound : phase.Sound started d id request u.before u.clientState) :
    v.Proceeds started d { u with task := some ⟨id, request, phase⟩ } := by
  have hsame : ({ u with task := some ⟨id, request, phase⟩ } : Serving).pending =
      [(id, request)] := by
    rw [Serving.pending, hinbox, houtbox]
    rfl
  refine ⟨⟨by rw [hsame]; rfl, ?_, ?_, ?_⟩, hsame.trans hpending.symm,
    (base_of_busy hsame hinbox).trans hbase.symm⟩
  · rw [hinbox]
    exact fun _ hmem => absurd hmem List.not_mem_nil
  · rintro _ _ _ ⟨⟩
    exact hsound
  · rw [houtbox]
    exact fun _ hmem => absurd hmem List.not_mem_nil

/-- A session that runs a job. -/
theorem Proceeds.of_job {id : ℕ} {request : Request} {u : Serving}
    (hpending : v.pending = [(id, request)]) (hbase : v.base = u.before) (hinbox : u.inbox = [])
    (houtbox : u.outbox = []) {job : JobM Unit} {called : Called}
    (hcalled : Resolved started d id request called)
    (hends : job.Ends request.Asks (Answer request u.before) u.clientState called) :
    v.Proceeds started d (u.post id request job) := by
  rw [post_of_ends hends]
  exact .of_phase hpending hbase hinbox houtbox ⟨called, hcalled, hends⟩

/-- A session may take a request, for which it has made no call yet. -/
theorem Stage.take (h : v.Stage started d) (hv : v.take = some v') :
    v.Proceeds started d v' := by
  rw [Serving.take] at hv
  split at hv
  · next id request inbox htask hinbox =>
    obtain ⟨job, hjob, rfl⟩ := Option.map_eq_some_iff.mp hv
    have hsingle := h.single
    simp only [pending, htask, hinbox, Option.toList_none, List.map_nil, List.append_nil,
      List.length_append, List.length_map, List.length_cons] at hsingle
    have hempty : inbox = [] := List.length_eq_zero_iff.mp (by omega)
    have houtbox : v.outbox = [] := List.length_eq_zero_iff.mp (by omega)
    have hpending : v.pending = [(id, request)] := by
      rw [pending, htask, hinbox, hempty, houtbox]
      rfl
    have hcalled : Resolved started d id request none :=
      h.inbox (id, request) (by rw [hinbox]; exact List.mem_cons_self ..)
    exact .of_job (u := { v with inbox := inbox, before := v.clientState }) hpending
      (base_of_idle htask houtbox) hempty houtbox hcalled (requestJob_ends hjob v.clientState)
  · cases hv

/-- A session may be resumed, with the result of its call. -/
theorem Stage.resume (h : v.Stage started d) (hv : v.resume d.returned = some v') :
    v.Proceeds started d v' := by
  rw [Serving.resume] at hv
  split at hv
  · next id request t c k htask =>
    obtain ⟨ht, -, hasks, hends⟩ := h.task _ _ _ htask
    have halone := h.alone htask
    split at hv
    · next c' result hreturned =>
      split_ifs at hv with hc
      cases hc
      cases hv
      have hcalled : Resolved started d id request (some ⟨c, result⟩) := ⟨hasks, t, ht, hreturned⟩
      exact .of_job halone.pending halone.base halone.inbox halone.outbox hcalled (hends result)
    · cases hv
  · cases hv

/-- An operation on the session itself. -/
theorem Stage.operate (h : v.Stage started d) (hv : v.operate = some (.alone v')) :
    v.Proceeds started d v' := by
  rw [Serving.operate] at hv
  split at hv
  · next id request job htask =>
    obtain ⟨called, hcalled, hends⟩ := h.task _ _ _ htask
    obtain ⟨hpending, hbase, hinbox, houtbox⟩ := h.alone htask
    cases job with
    | pure | call => cases hv
    | loggedIn k =>
      cases hv
      exact .of_job hpending hbase hinbox houtbox hcalled hends
    | state k =>
      obtain ⟨st, hst, heq⟩ := Option.map_eq_some_iff.mp hv
      cases heq
      exact .of_job hpending hbase hinbox houtbox hcalled (hends st hst)
    | setState st k =>
      cases hv
      exact .of_job (u := { v with clientState := some st }) hpending hbase hinbox houtbox hcalled
        hends
    | write mesg k =>
      cases hv
      obtain ⟨⟨r, rfl, hanswer⟩, rfl⟩ := hends
      have hposted : (({ v with outbox := v.outbox ++ [⟨id, request, .response r⟩] } : Serving).post
          id request (.pure ())).pending = [(id, request)] := by
        rw [pending, post, hinbox, houtbox]
        rfl
      refine ⟨⟨by rw [hposted]; rfl, fun p hmem => h.inbox p hmem,
        fun _ _ _ htask => (by cases htask), fun reply hmem => ?_⟩,
        hposted.trans hpending.symm, (base_of_busy hposted hinbox).trans hbase.symm⟩
      rw [post, houtbox, List.nil_append, List.mem_singleton] at hmem
      rw [hmem]
      exact ⟨called, r, rfl, hcalled, hanswer⟩
  · cases hv

/-- A storage call. -/
theorem Stage.calls (h : v.Stage started d) {id : ℕ} {c : StorageCall} {w : ℕ → Serving}
    (hv : v.operate = some (.calls id c w)) :
    v.Proceeds (started ++ [(id, d.calls)]) (d.call c) (w d.calls) ∧
      ∃ request, (id, request) ∈ v.pending ∧ request.Asks c := by
  rw [Serving.operate] at hv
  split at hv
  · next id' request job htask =>
    obtain ⟨called, hcalled, hends⟩ := h.task _ _ _ htask
    obtain ⟨hpending, hbase, hinbox, houtbox⟩ := h.alone htask
    cases job with
    | call c' k =>
      cases hv
      obtain ⟨rfl, hasks, hends⟩ := hends
      refine ⟨.of_phase hpending hbase hinbox houtbox
        ⟨?_, Database.label_call c d, hasks, hends⟩, request, mem_pending_task htask, hasks⟩
      have hnone : callsOf started id = [] := hcalled
      rw [callsOf_concat_self, hnone, List.nil_append]
    | state k =>
      obtain ⟨_, -, heq⟩ := Option.map_eq_some_iff.mp hv
      cases heq
    | _ => cases hv
  · cases hv

end Serving

end Stages

/-! ### Requests are in one place -/

namespace System

open Client

variable {hashPassword : String → List UInt8} {s s' : System hashPassword}

/-- No two sessions have a request in common. -/
def Apart (sessions : List Serving) : Prop :=
  sessions.Pairwise fun u v => ∀ p ∈ u.pending, ∀ q ∈ v.pending, p.1 ≠ q.1

/-- The invariant of the system. The client waits for the last session only, and the sessions work
on different requests. -/
structure Linked (s : System hashPassword) : Prop where
  converses : s.client.Converses
  stages : ∀ v ∈ s.sessions, v.Stage s.started s.database
  /-- The last session has the requests that the client is owed an answer to. -/
  live : s.client.socket = .connected →
    ∃ front v, s.sessions = front ++ [v] ∧ v.pending = (exchange s.client.log).owed
  written : ∀ v ∈ s.sessions, ∀ p ∈ v.pending,
    p.1 < s.client.requests ∧ .written p.1 p.2 ∈ s.client.log
  apart : Apart s.sessions
  started : ∀ p ∈ s.started, p.1 < s.client.requests ∧ ∃ request op,
    .written p.1 request ∈ s.client.log ∧ s.database.label p.2 = some op ∧ request.Asks op
  once : ∀ id, (callsOf s.started id).length ≤ 1

/-- The request is on no connection any more. -/
def Settled (s : System hashPassword) (id : ℕ) : Prop :=
  id < s.client.requests ∧ ∀ v ∈ s.sessions, ∀ p ∈ v.pending, p.1 ≠ id

/-- Nothing happens to what has been settled. -/
structure Leads (s s' : System hashPassword) : Prop where
  database : s.database.Extends s'.database
  settled : ∀ id, s.Settled id →
    s'.Settled id ∧ callsOf s'.started id = callsOf s.started id

/-- No call has been made for the next request. -/
theorem Linked.callsOf_next (h : s.Linked) : callsOf s.started s.client.requests = [] := by
  refine List.eq_nil_iff_forall_not_mem.mpr fun t hmem => ?_
  exact absurd (h.started _ (mem_callsOf hmem)).1 (Nat.lt_irrefl _)

/-- The client acts, and its sessions get or lose requests. -/
theorem Linked.act (h : s.Linked) {c : Client} {sessions : List Serving} (hconverses : c.Converses)
    (hstages : ∀ v ∈ sessions, v.Stage s.started s.database)
    (hlive : c.socket = .connected →
      ∃ front v, sessions = front ++ [v] ∧ v.pending = (exchange c.log).owed)
    (hrequests : s.client.requests ≤ c.requests) (hlog : s.client.log <+: c.log)
    (hwritten : ∀ v ∈ sessions, ∀ p ∈ v.pending, (∃ u ∈ s.sessions, p ∈ u.pending) ∨
      s.client.requests ≤ p.1 ∧ p.1 < c.requests ∧ .written p.1 p.2 ∈ c.log)
    (hapart : Apart sessions) :
    ({ s with client := c, sessions := sessions } : System hashPassword).Linked ∧
      s.Leads { s with client := c, sessions := sessions } := by
  refine ⟨⟨hconverses, hstages, hlive, fun v hv p hp => ?_, hapart, fun p hp => ?_, h.once⟩,
    .refl _, fun id hid => ⟨⟨hid.1.trans_le hrequests, fun v hv p hp => ?_⟩, rfl⟩⟩
  · rcases hwritten v hv p hp with ⟨u, hu, hpu⟩ | ⟨-, hlt, hmem⟩
    · obtain ⟨hlt, hmem⟩ := h.written u hu p hpu
      exact ⟨hlt.trans_le hrequests, hlog.subset hmem⟩
    · exact ⟨hlt, hmem⟩
  · obtain ⟨hlt, request, op, hmem, hlabel, hasks⟩ := h.started p hp
    exact ⟨hlt.trans_le hrequests, request, op, hlog.subset hmem, hlabel, hasks⟩
  · rcases hwritten v hv p hp with ⟨u, hu, hpu⟩ | ⟨hle, -, -⟩
    · exact hid.2 u hu p hpu
    · exact (hid.1.trans_le hle).ne'

theorem Apart.concat {front : List Serving} {v v' : Serving} (h : Apart (front ++ [v]))
    (hv : ∀ q ∈ v'.pending, q ∈ v.pending ∨ ∀ u ∈ front, ∀ p ∈ u.pending, p.1 ≠ q.1) :
    Apart (front ++ [v']) := by
  obtain ⟨hfront, -, hlast⟩ := List.pairwise_append.mp h
  refine List.pairwise_append.mpr ⟨hfront, List.pairwise_singleton _ _, fun u hu w hw => ?_⟩
  rw [List.mem_singleton.mp hw]
  intro p hp q hq
  rcases hv q hq with hmem | hne
  · exact hlast u hu v (List.mem_singleton_self _) p hp q hmem
  · exact hne u hu p hp

theorem Apart.ne {sessions : List Serving} (h : Apart sessions) {i j : ℕ} {u v : Serving}
    (hu : sessions[i]? = some u) (hv : sessions[j]? = some v) (hne : i ≠ j) :
    ∀ p ∈ u.pending, ∀ q ∈ v.pending, p.1 ≠ q.1 := by
  obtain ⟨hi, rfl⟩ := List.getElem?_eq_some_iff.mp hu
  obtain ⟨hj, rfl⟩ := List.getElem?_eq_some_iff.mp hv
  have hpairs := List.pairwise_iff_getElem.mp h
  rcases Nat.lt_or_gt_of_ne hne with hlt | hlt
  · exact hpairs i j hi hj hlt
  · exact fun p hp q hq heq => hpairs j i hj hi hlt q hq p hp heq.symm

/-- A session with other work for the same requests. -/
theorem Apart.set {sessions : List Serving} (h : Apart sessions) {k : ℕ} {v v' : Serving}
    (hv : sessions[k]? = some v) (hpending : v'.pending = v.pending) :
    Apart (sessions.set k v') := by
  refine List.pairwise_iff_getElem.mpr fun i j hi hj hlt => ?_
  have hget : ∀ (i : ℕ) (hi : i < (sessions.set k v').length), ∃ u, sessions[i]? = some u ∧
      ((sessions.set k v').get ⟨i, hi⟩).pending = u.pending := by
    intro i hi
    rw [List.length_set] at hi
    by_cases hik : k = i
    · refine ⟨v, hik ▸ hv, ?_⟩
      simp [hik, hpending]
    · exact ⟨sessions.get ⟨i, hi⟩, List.getElem?_eq_getElem hi, by simp [List.getElem_set_ne hik]⟩
  obtain ⟨u, hu, hupending⟩ := hget i hi
  obtain ⟨w, hw, hwpending⟩ := hget j hj
  rw [List.get_eq_getElem] at hupending hwpending
  rw [hupending, hwpending]
  exact h.ne hu hw hlt.ne

/-- A session moves on; it may have made a storage call. -/
theorem Linked.serve (h : s.Linked) {k : ℕ} {v v' : Serving} {started : List (ℕ × ℕ)}
    {d : Database hashPassword} (hv : s.sessions[k]? = some v) (hv' : v.Proceeds started d v')
    (hd : s.database.Extends d)
    (hcalls : ∀ id, (∀ p ∈ v.pending, p.1 ≠ id) → callsOf started id = callsOf s.started id)
    (hstarted : ∀ p ∈ started, p ∈ s.started ∨ ∃ request op, (p.1, request) ∈ v.pending ∧
      d.label p.2 = some op ∧ request.Asks op) :
    ({ s.setSession k v' with database := d, started := started } : System hashPassword).Linked ∧
      s.Leads { s.setSession k v' with database := d, started := started } := by
  have hmem := List.mem_of_getElem? hv
  -- the requests of the sessions are the same as before
  have hget : ∀ u ∈ s.sessions.set k v', ∃ w ∈ s.sessions, u.pending = w.pending := by
    intro u hu
    rcases List.mem_or_eq_of_mem_set hu with hu | rfl
    · exact ⟨u, hu, rfl⟩
    · exact ⟨v, hmem, hv'.pending⟩
  refine ⟨⟨h.converses, fun u hu => ?_, fun hsocket => ?_, fun u hu p hp => ?_,
    h.apart.set hv hv'.pending, fun p hp => ?_, fun id => ?_⟩, hd,
    fun id hid => ⟨⟨hid.1, fun u hu => ?_⟩, ?_⟩⟩
  · obtain ⟨i, hi⟩ := List.mem_iff_getElem?.mp hu
    by_cases hk : k = i
    · rw [setSession, ← hk, List.getElem?_set_self (List.getElem?_eq_some_iff.mp hv).1] at hi
      cases hi
      exact hv'.stage
    · rw [setSession, List.getElem?_set_ne hk] at hi
      refine (h.stages u (List.mem_of_getElem? hi)).mono (fun p hp => hcalls p.1 ?_) hd
      exact fun q hq => h.apart.ne hv hi hk q hq p hp
  · obtain ⟨front, w, hsessions, howed⟩ := h.live hsocket
    rcases Nat.lt_or_ge k front.length with hlt | hge
    · refine ⟨front.set k v', w, ?_, howed⟩
      change s.sessions.set k v' = front.set k v' ++ [w]
      rw [hsessions, List.set_append_left _ _ hlt]
    · rw [hsessions, List.getElem?_append_right hge] at hv
      obtain ⟨hk, hw⟩ := List.getElem?_eq_some_iff.mp hv
      have hk : k - front.length = 0 := by
        rw [List.length_singleton] at hk
        omega
      simp only [hk, List.getElem_cons_zero] at hw
      refine ⟨front, v', ?_, hv'.pending.trans ((congrArg Serving.pending hw).symm.trans howed)⟩
      change s.sessions.set k v' = front ++ [v']
      rw [hsessions, List.set_append_right _ _ hge, hk, List.set_cons_zero]
  · obtain ⟨w, hw, heq⟩ := hget u hu
    exact h.written w hw p (heq ▸ hp)
  · rcases hstarted p hp with hp | ⟨request, op, hpending, hlabel, hasks⟩
    · obtain ⟨hlt, request, op, hwritten, hlabel, hasks⟩ := h.started p hp
      exact ⟨hlt, request, op, hwritten, hd.label _ _ hlabel, hasks⟩
    · obtain ⟨hlt, hwritten⟩ := h.written v hmem _ hpending
      exact ⟨hlt, request, op, hwritten, hlabel, hasks⟩
  · by_cases hid : ∀ p ∈ v.pending, p.1 ≠ id
    · exact (congrArg List.length (hcalls id hid)).trans_le (h.once id)
    · simp only [not_forall, not_not] at hid
      obtain ⟨p, hp, rfl⟩ := hid
      exact hv'.stage.once (hv'.pending ▸ hp)
  · obtain ⟨w, hw, heq⟩ := hget u hu
    rw [heq]
    exact hid.2 w hw
  · exact hcalls id (hid.2 v hmem)

/-! ### The client acts -/

/-- The last session has a request less, and perhaps the next one. -/
theorem Linked.replaceLast (h : s.Linked) {front : List Serving} {v v' : Serving}
    (hsessions : s.sessions = front ++ [v]) {c : Client} (hconverses : c.Converses)
    (hstage : v'.Stage s.started s.database) (howed : v'.pending = (exchange c.log).owed)
    (hrequests : s.client.requests ≤ c.requests) (hlog : s.client.log <+: c.log)
    (hnext : ∀ p ∈ v'.pending, p.1 = s.client.requests ∧ p.1 < c.requests ∧
      .written p.1 p.2 ∈ c.log) :
    ({ s with client := c, sessions := front ++ [v'] } : System hashPassword).Linked ∧
      s.Leads { s with client := c, sessions := front ++ [v'] } := by
  have hfront : ∀ u ∈ front, u ∈ s.sessions := by
    intro u hu
    rw [hsessions]
    exact List.mem_append_left _ hu
  refine h.act hconverses (fun u hu => ?_) (fun _ => ⟨front, v', rfl, howed⟩) hrequests hlog
    (fun u hu p hp => ?_) (Apart.concat (hsessions ▸ h.apart) fun q hq => .inr fun u hu p hp => ?_)
  · rcases List.mem_append.mp hu with hu | hu
    · exact h.stages u (hfront u hu)
    · rw [List.mem_singleton.mp hu]
      exact hstage
  · rcases List.mem_append.mp hu with hu | hu
    · exact .inl ⟨u, hfront u hu, hp⟩
    · rw [List.mem_singleton.mp hu] at hp
      obtain ⟨heq, hlt, hmem⟩ := hnext p hp
      exact .inr ⟨heq.ge, hlt, hmem⟩
  · rw [(hnext q hq).1]
    exact (h.written u (hfront u hu) p hp).1.ne

/-- A move without a frame. -/
theorem Linked.follow (h : s.Linked) {e : Client.Event} {c : Client} (hm : s.client.Moves e c)
    (he : ∀ body, e ≠ .frame body) (hconverses : c.Converses) :
    (s.follow c).Linked ∧ s.Leads (s.follow c) := by
  have hturn := h.converses.2
  -- what the client has recorded, and the sessions after that
  have hfollow : ∀ {news}, c.log = s.client.log ++ news →
      s.follow c = { s with client := c, sessions := news.foldl transmit s.sessions } := by
    intro news hlog
    rw [System.follow, hlog, List.drop_left]
  have hextends : ∀ {news}, c.log = s.client.log ++ news → s.client.log <+: c.log :=
    fun hlog => ⟨_, hlog.symm⟩
  have hsame : ∀ {news}, c.log = s.client.log ++ news →
      news.foldl transmit s.sessions = s.sessions →
      s.client.requests ≤ c.requests →
      (c.socket = .connected → s.client.socket = .connected ∧
        (exchange c.log).owed = (exchange s.client.log).owed) →
      (s.follow c).Linked ∧ s.Leads (s.follow c) := by
    intro news hlog hnews hrequests hlive
    rw [hfollow hlog, hnews]
    refine h.act hconverses h.stages (fun hsocket => ?_) hrequests (hextends hlog)
      (fun v hv p hp => .inl ⟨v, hv, hp⟩) h.apart
    obtain ⟨hconnected, howed⟩ := hlive hsocket
    rw [howed]
    exact h.live hconnected
  cases hm with
  | quiet _ _ _ _ hsocket _ =>
    refine hsame (List.append_nil _).symm rfl (Nat.le_refl _) fun hconnected => ⟨?_, rfl⟩
    exact connected_of_kept hsocket hconnected
  | refused _ _ _ _ hsocket =>
    exact hsame rfl rfl (Nat.le_succ _) fun hconnected => absurd hconnected hsocket
  | told _ _ _ _ hsocket _ =>
    refine hsame rfl rfl (Nat.le_refl _) fun hconnected => ⟨?_, ?_⟩
    · exact connected_of_kept (hsocket.imp_left And.right) hconnected
    · rw [exchange_concat]
      rfl
  | @written _ op mesg job _ _ havailible hsocket =>
    obtain ⟨front, v, hsessions, howed⟩ := h.live hsocket
    rw [hturn.free havailible] at howed
    have hnext : (exchange (s.client.log ++ [.written s.client.requests mesg])).owed =
        [(s.client.requests, mesg)] := by
      rw [exchange_concat, Exchange.next, hturn.free havailible, List.nil_append]
    have hpending := v.pending_receive s.client.requests mesg
    rw [howed, List.nil_append] at hpending
    rw [hfollow rfl, hsessions, List.foldl_cons, List.foldl_nil, transmit, List.modifyLast_concat]
    refine h.replaceLast hsessions hconverses (Serving.stage_receive howed h.callsOf_next mesg)
      (hpending.trans hnext.symm) (Nat.le_succ _) (hextends rfl) fun p hp => ?_
    rw [hpending, List.mem_singleton] at hp
    rw [hp]
    exact ⟨rfl, Nat.lt_succ_self _, List.mem_append_right _ (List.mem_singleton_self _)⟩
  | opened =>
    rw [hfollow rfl]
    refine h.act hconverses (fun u hu => ?_) (fun _ => ⟨s.sessions, .fresh, rfl, ?_⟩)
      (Nat.le_refl _) (hextends rfl) (fun u hu p hp => ?_) ?_
    · rcases List.mem_append.mp hu with hu | hu
      · exact h.stages u hu
      · rw [List.mem_singleton.mp hu]
        exact Serving.stage_of_pending_nil rfl
    · rw [exchange_append]
      rfl
    · rcases List.mem_append.mp hu with hu | hu
      · exact .inl ⟨u, hu, hp⟩
      · rw [List.mem_singleton.mp hu] at hp
        exact absurd hp List.not_mem_nil
    · refine List.pairwise_append.mpr ⟨h.apart, List.pairwise_singleton _ _, fun u _ w hw => ?_⟩
      rw [List.mem_singleton.mp hw]
      exact fun _ _ _ hq => absurd hq List.not_mem_nil
  | closed _ before _ _ hbefore =>
    refine hsame (List.append_assoc ..) ?_ (Nat.le_refl _) fun hsocket => (by cases hsocket)
    rcases hbefore with rfl | rfl | ⟨err, rfl⟩ <;> rfl
  | answered | chained => exact absurd rfl (he _)
  | ignored => exact absurd rfl (he _)

/-- A response reaches the client: it answers the request of the callback, which is the only one on
the connection. -/
inductive Delivered (s : System hashPassword) : System hashPassword → Prop
  | mk {front : List Serving} {v : Serving} {reply : Reply} {r : Response} {callback : Callback}
      {called : Called} (hsessions : s.sessions = front ++ [v])
      (hreply : v.outbox.head? = some reply) (hmesg : reply.mesg = .response r)
      (hcalled : Resolved s.started s.database reply.id reply.request called)
      (hanswer : Answer reply.request v.before v.clientState called r)
      (hpending : v.pending = [(reply.id, reply.request)])
      (howed : (exchange s.client.log).owed = [(reply.id, reply.request)])
      (hid : callback.id = reply.id) (hmakes : MayMake callback.job reply.request)
      (hstack : s.client.stack = []) (hsocket : s.client.socket = .connected)
      (hcallback : s.client.callback = some callback) :
      Delivered s (({ s with sessions := front ++ [v.delivered] } : System hashPassword).follow
        (s.client.answeredBy callback r))

/-- The client reads the answer to its own request. -/
theorem Linked.delivered (h : s.Linked) {qt : Qt} (hstep : s.step qt .deliver = some s') :
    s.Delivered s' := by
  simp only [step, Option.bind_eq_bind, Option.bind_eq_some_iff, Option.some_inj] at hstep
  obtain ⟨v, hv, reply, hreply, c, hc, rfl⟩ := hstep
  obtain ⟨front, hsessions⟩ := List.getLast?_eq_some_iff.mp hv
  have hmem : v ∈ s.sessions := by
    rw [hsessions]
    exact List.mem_append_right _ (List.mem_singleton_self _)
  obtain ⟨called, r, hmesg, hcalled, hanswer⟩ :=
    (h.stages v hmem).outbox reply (List.mem_of_mem_head? hreply)
  rw [hmesg, Client.step] at hc
  split_ifs at hc with hidle
  obtain ⟨callback, hcallback, rfl⟩ := onReadyRead_response hidle.1 hidle.2 hc
  obtain ⟨front', v', hsessions', howed⟩ := h.live hidle.2
  obtain ⟨-, hlast⟩ := List.append_inj' (hsessions.symm.trans hsessions') rfl
  obtain rfl := List.singleton_inj.mp hlast
  -- what is owed is in the outbox
  have hpending := Serving.pending_delivered hreply
  have hnext : v.delivered.pending = [] := by
    have hsingle := (h.stages v hmem).single
    rw [hpending, List.length_cons] at hsingle
    exact List.length_eq_zero_iff.mp (by omega)
  rw [hnext] at hpending
  rw [hpending] at howed
  have hlocked : s.client.availible = false := by
    by_contra havailible
    rw [h.converses.2.free (Bool.not_eq_false _ ▸ havailible)] at howed
    cases howed
  obtain ⟨-, callback', mesg, hcallback', hmakes, howed'⟩ := h.converses.2.locked hlocked
  obtain rfl := Option.some_inj.mp (hcallback'.symm.trans hcallback)
  rw [howed', List.singleton_inj, Prod.mk.injEq] at howed
  obtain ⟨hid, rfl⟩ := howed
  rw [hsessions, List.modifyLast_concat]
  exact .mk hsessions hreply hmesg hcalled hanswer hpending (hid ▸ howed') hid.symm hmakes hidle.1
    hidle.2 hcallback

/-- A delivery keeps the invariant. -/
theorem Delivered.linked (h : s.Linked) (hd : s.Delivered s') : s'.Linked ∧ s.Leads s' := by
  cases hd with
  | @mk front v reply r callback called hsessions hreply hmesg hcalled hanswer hpending howed hid
      hmakes hstack hsocket hcallback =>
    have hanswers : s.client.Answers (.frame (some (.response r))) := by
      rintro body ⟨⟩
      exact ⟨⟨r, rfl⟩, by rw [howed]; exact List.cons_ne_nil _ _⟩
    have hnone : v.delivered.pending = [] := by
      have heq := Serving.pending_delivered hreply
      rw [hpending] at heq
      exact (List.cons.inj heq).2.symm
    rw [hid.symm] at howed
    have hexchange := exchange_answered howed r
    rw [answeredBy]
    cases hsignal : callback.job.reaction r with
    | some signal =>
      have hm := Moves.answered hstack hsocket hcallback hsignal
      have hconverses : Converses _ :=
        ⟨hm.suspended h.converses.1, hm.inTurn h.converses.2 hanswers⟩
      have hlog : s.client.log ++ [.received, .answered callback.id r,
          .emitted callback.id signal] = s.client.log ++ [.received, .answered callback.id r] ++
            [.emitted callback.id signal] := by
        simp
      dsimp only [System.follow]
      rw [List.drop_left]
      refine h.replaceLast hsessions hconverses (Serving.stage_of_pending_nil hnone) ?_
        (Nat.le_refl _) (List.prefix_append _ _) fun p hp => ?_
      · rw [hnone, hlog, exchange_concat, hexchange]
        rfl
      · rw [hnone] at hp
        exact absurd hp List.not_mem_nil
    | none =>
      have hm := Moves.chained hstack hsocket hcallback hsignal
      have hconverses : Converses _ :=
        ⟨hm.suspended h.converses.1, hm.inTurn h.converses.2 hanswers⟩
      have hlog : s.client.log ++ [.received, .answered callback.id r,
          .written s.client.requests MessageFactory.createAllMyChatsRequest] =
            s.client.log ++ [.received, .answered callback.id r] ++
              [.written s.client.requests MessageFactory.createAllMyChatsRequest] := by
        simp
      have hnext := v.delivered.pending_receive s.client.requests
        MessageFactory.createAllMyChatsRequest
      rw [hnone, List.nil_append] at hnext
      dsimp only [System.follow]
      rw [List.drop_left, List.foldl_cons, List.foldl_cons, List.foldl_cons, List.foldl_nil,
        transmit, transmit, transmit, List.modifyLast_concat]
      · refine h.replaceLast hsessions hconverses
          (Serving.stage_receive hnone h.callsOf_next _) ?_ (Nat.le_succ _)
          (List.prefix_append _ _) fun p hp => ?_
        · rw [hnext, hlog, exchange_concat, hexchange]
          rfl
        · rw [hnext, List.mem_singleton] at hp
          rw [hp]
          exact ⟨rfl, Nat.lt_succ_self _, by simp⟩
      all_goals simp

/-! ### Every step -/

variable {qt : Qt}

/-- The events of the client without a frame. -/
theorem Linked.client (h : s.Linked) {e : Client.Event} {c : Client} (he : ∀ body, e ≠ .frame body)
    (hc : s.client.step qt e = some c) : (s.follow c).Linked ∧ s.Leads (s.follow c) := by
  have hanswers : s.client.Answers e := fun body heq => absurd heq (he body)
  have hconverses := step_converses s.client e c h.converses hc hanswers
  rcases step_moves h.converses.1 hc with hm | ⟨chatId, -, hm⟩
  · exact h.follow hm he hconverses
  · -- the current chat is nothing that the invariant speaks of
    have hset : ({ s with client := s.client.setCurrentChatId chatId } :
        System hashPassword).Linked :=
      ⟨h.converses.setCurrentChatId chatId, h.stages, h.live, h.written, h.apart, h.started, h.once⟩
    obtain ⟨hlinked, hleads⟩ := hset.follow hm he hconverses
    exact ⟨hlinked, hleads.database, hleads.settled⟩

theorem step_client {e : Client.Event} (h : s.step qt (.client e) = some s') :
    (∀ body, e ≠ .frame body) ∧ ∃ c, s.client.step qt e = some c ∧ s' = s.follow c := by
  cases e with
  | frame body => cases h
  | _ =>
    simp only [step, Option.map_eq_some_iff] at h
    obtain ⟨c, hc, rfl⟩ := h
    exact ⟨nofun, c, hc, rfl⟩

/-- What a step does: the client acts, a response reaches it, a session moves on, or the database
does. -/
inductive Steps (qt : Qt) (s : System hashPassword) : Event → System hashPassword → Prop
  | client {e : Client.Event} {c : Client} (he : ∀ body, e ≠ .frame body)
      (hc : s.client.step qt e = some c) : Steps qt s (.client e) (s.follow c)
  | delivered {s' : System hashPassword} (hd : s.Delivered s') : Steps qt s .deliver s'
  | served {e : Event} {k : ℕ} {v v' : Serving} {started : List (ℕ × ℕ)}
      {d : Database hashPassword} (hv : s.sessions[k]? = some v) (hv' : v.Proceeds started d v')
      (hd : s.database.Extends d)
      (hcalls : ∀ id, (∀ p ∈ v.pending, p.1 ≠ id) → callsOf started id = callsOf s.started id)
      (hstarted : ∀ p ∈ started, p ∈ s.started ∨ ∃ request op, (p.1, request) ∈ v.pending ∧
        d.label p.2 = some op ∧ request.Asks op) :
      Steps qt s e { s.setSession k v' with database := d, started := started }
  | database {e : Event} {d : Database hashPassword} (hd : s.database.Extends d) :
      Steps qt s e { s with database := d }

/-- A session moves on by itself. -/
theorem Steps.alone {e : Event} {k : ℕ} {v v' : Serving} (hv : s.sessions[k]? = some v)
    (hv' : v.Proceeds s.started s.database v') : s.Steps qt e (s.setSession k v') :=
  .served hv hv' (.refl _) (fun _ _ => rfl) fun _ hp => .inl hp

/-- What one step of the system is for one of its parts. -/
theorem Linked.step_cases {e : Event} (h : s.Linked) (hstep : s.step qt e = some s') :
    s.Steps qt e s' := by
  cases e with
  | client e =>
    obtain ⟨he, c, hc, rfl⟩ := step_client hstep
    exact .client he hc
  | deliver => exact .delivered (h.delivered hstep)
  | take k =>
    simp only [step, Option.bind_eq_bind, Option.bind_eq_some_iff, Option.some_inj] at hstep
    obtain ⟨v, hv, v', hv', rfl⟩ := hstep
    exact .alone hv ((h.stages v (List.mem_of_getElem? hv)).take hv')
  | resume k =>
    simp only [step, Option.bind_eq_bind, Option.bind_eq_some_iff, Option.some_inj] at hstep
    obtain ⟨v, hv, v', hv', rfl⟩ := hstep
    exact .alone hv ((h.stages v (List.mem_of_getElem? hv)).resume hv')
  | operate k =>
    simp only [step, Option.bind_eq_bind, Option.bind_eq_some_iff] at hstep
    obtain ⟨v, hv, operated, hoperated, hstep⟩ := hstep
    have hstage := h.stages v (List.mem_of_getElem? hv)
    cases operated with
    | alone v' =>
      cases hstep
      exact .alone hv (hstage.operate hoperated)
    | calls id c w =>
      cases hstep
      obtain ⟨hproceeds, request, hmem, hasks⟩ := hstage.calls hoperated
      refine .served hv hproceeds (Database.step_extends (Database.step_call c s.database))
        (fun id' hne => callsOf_concat_of_ne _ (hne _ hmem) _) fun p hp => ?_
      rcases List.mem_append.mp hp with hp | hp
      · exact .inl hp
      · rw [List.mem_singleton.mp hp]
        exact .inr ⟨request, c, hmem, Database.label_call c s.database, hasks⟩
  | database e =>
    obtain ⟨d, hd, rfl⟩ := Option.map_eq_some_iff.mp hstep
    exact .database (Database.step_extends hd)

/-- The database goes on. -/
theorem Linked.database (h : s.Linked) {d : Database hashPassword} (hd : s.database.Extends d) :
    ({ s with database := d } : System hashPassword).Linked ∧ s.Leads { s with database := d } := by
  refine ⟨⟨h.converses, fun v hv => (h.stages v hv).mono (fun _ _ => rfl) hd, h.live, h.written,
    h.apart, fun p hp => ?_, h.once⟩, hd, fun id hid => ⟨hid, rfl⟩⟩
  obtain ⟨hlt, request, op, hmem, hlabel, hasks⟩ := h.started p hp
  exact ⟨hlt, request, op, hmem, hd.label _ _ hlabel, hasks⟩

/-- **Steps** keep the invariant. -/
theorem step_linked {e : Event} (h : s.Linked) (hstep : s.step qt e = some s') :
    s'.Linked ∧ s.Leads s' := by
  cases h.step_cases hstep with
  | client he hc => exact h.client he hc
  | delivered hd => exact hd.linked h
  | served hv hv' hd hcalls hstarted => exact h.serve hv hv' hd hcalls hstarted
  | database hd => exact h.database hd

/-- Nothing has been written at first. -/
theorem initial_linked : (initial : System hashPassword).Linked where
  converses := initial_converses
  stages _ hv := absurd hv List.not_mem_nil
  live h := nomatch h
  written _ hv := absurd hv List.not_mem_nil
  apart := List.Pairwise.nil
  started _ hp := absurd hp List.not_mem_nil
  once _ := Nat.zero_le _

/-- **Delivery.** In every run, the requests on the open connection are those that the client is
owed an answer to, and no request is in two places. -/
theorem reachable_linked (h : Reachable (step qt) initial s) : s.Linked :=
  h.invariant (fun _ _ _ hs hstep => (step_linked hs hstep).1) initial_linked

end System

end Elegram
