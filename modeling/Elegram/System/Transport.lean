import Elegram.System.Delivery
import Elegram.System.Frames

/-!
# The system, byte by byte

`System` moves whole frames between the client and its sessions. A `ByteSystem` moves bytes: the
client reads and writes through its framing layer `Session`, the handlers of `ClientSession` read
and write on the other side, chunks arrive as the network likes, reads and writes may fail, and a
handler or a job may end the process. `Link.Serves` says when a session with the bytes around it is
at the same point as a session between whole frames, and `Serves.step` that every handler and job
keeps it there or moves both.
-/

namespace Elegram

open ReadCommitted Transition

/-! ### Connections -/

/-- A connection of the client: the session that serves it, the storage call that its worker waits
for, and the bytes on their way to the session and back. -/
structure Link where
  session : ClientSession
  waiting : Option ℕ
  up : List UInt8
  down : List UInt8

/-- The frames that a session has handed to `async_write`. -/
def framesWritten (trace : List Action) : List UInt8 :=
  trace.flatMap fun
    | .writeStarted _ frame => frame
    | _ => []

/-- The storage function `c` returns `result`. -/
def returning (c : StorageCall) (result : c.Result) (c' : StorageCall) : c'.Result :=
  if h : c = c' then h ▸ result else c'.failure

namespace Link

/-- A connection that the server has yet to accept. -/
def opened : Link where
  session := .fresh
  waiting := none
  up := []
  down := []

/-- The client writes. -/
def receive (data : List UInt8) (l : Link) : Link := { l with up := l.up ++ data }

/-- The client has received `n` bytes. -/
def read (n : ℕ) (l : Link) : Link := { l with down := l.down.drop n }

def connection (l : Link) : Connection where
  session := l.session
  stream := l.up
  unread := l.up

/-- The link after a handler or a job. What the session writes is on its way. -/
def after (l : Link) (c : Connection) : Link :=
  { l with
    session := c.session
    up := c.unread
    down := l.down ++ framesWritten (c.session.trace.drop l.session.trace.length) }

variable (P : Platform)

def handle (l : Link) (e : PeerEvent) : Option (Except Crash Link) :=
  (l.connection.handle P e).map (Except.map l.after)

/-- The storage function that the `i`-th entry is about to call, or has called. -/
def call (l : Link) (i : ℕ) : Option StorageCall :=
  match l.session.outstanding[i]? with
  | some (.requestJob _ (.call c _)) => some c
  | _ => none

/-- The handlers, and the operations of a job but for its storage call. -/
def step (l : Link) : PeerEvent → Option (Except Crash Link)
  | .run i ret => if l.call i = none then l.handle P (.run i ret) else none
  | e => l.handle P e

end Link

/-! ### The client's side -/

/-- The framing layer of the client and its connections, of which only the last one may be open. -/
structure Transport where
  framing : Session
  links : List Link

namespace Transport

def initial : Transport where
  framing := NetworkSession.constructed.session
  links := []

/-- What the client does to its socket. -/
def act (pb : Protobuf) (t : Transport) : ClientAction → Option Transport
  | .opened => some
      { framing := { t.framing with sock := { connected := true, incoming := [] } }
        links := t.links ++ [.opened] }
  | .closed => some
      { t with framing := { t.framing with sock := { t.framing.sock with connected := false } } }
  | .written _ mesg => do
    let (data, framing) ← t.framing.request pb mesg
    some { framing := framing, links := t.links.modifyLast (Link.receive data) }
  | _ => some t

def acts (pb : Protobuf) (t : Transport) (news : List ClientAction) : Option Transport :=
  news.foldlM (act pb) t

end Transport

/-! ### The system -/

/-- What the storage function `c` has returned as the `t`-th call. -/
def Database.result {hashPassword : String → List UInt8} (d : Database hashPassword) (t : ℕ)
    (c : StorageCall) : Option c.Result :=
  match d.returned t with
  | some ⟨c', result⟩ => if h : c' = c then some (h ▸ result) else none
  | none => none

theorem Database.returned_of_result {hashPassword : String → List UInt8}
    {d : Database hashPassword} {t : ℕ} {c : StorageCall} {result : c.Result}
    (h : d.result t c = some result) : d.returned t = some ⟨c, result⟩ := by
  rw [Database.result] at h
  split at h
  · next c' result' hreturned =>
    split_ifs at h with hc
    cases hc
    cases h
    exact hreturned
  · cases h

/-- `terminated` tells whether an exception has ended the server. -/
structure ByteSystem (hashPassword : String → List UInt8) where
  client : Client
  transport : Transport
  database : Database hashPassword
  terminated : Bool

namespace ByteSystem

variable {hashPassword : String → List UInt8}

def initial : ByteSystem hashPassword where
  client := .initial
  transport := .initial
  database := .initial
  terminated := false

inductive Event
  /-- QML, the rest of a signal, or the socket, without data. -/
  | client (e : Client.Event)
  /-- The next `n` bytes reach the client, and `onReadyRead` runs. -/
  | readyRead (n : ℕ)
  /-- The server accepts the `k`-th connection. -/
  | accept (k : ℕ)
  /-- A handler or a job of the `k`-th session runs, as in `Link.step`. -/
  | peer (k : ℕ) (e : PeerEvent)
  /-- The job that is the `i`-th entry of the `k`-th session calls a storage function. -/
  | call (k i : ℕ)
  /-- The storage function has returned to it. -/
  | resume (k i : ℕ)
  /-- The database goes on, or another client calls a storage function. -/
  | database (e : Machine.Event StorageCall)

def setLink (k : ℕ) (l : Link) (s : ByteSystem hashPassword) : ByteSystem hashPassword :=
  { s with transport := { s.transport with links := s.transport.links.set k l } }

/-- What a handler or a job of the `k`-th session leaves, or its exception. -/
def settle (k : ℕ) (r : Except Crash Link) (s : ByteSystem hashPassword) :
    ByteSystem hashPassword :=
  match r with
  | .ok l => s.setLink k l
  | .error _ => { s with terminated := true }

variable (P : Platform)

/-- The client moves on, and does to its socket what it has recorded. -/
def follow (s : ByteSystem hashPassword) (c : Client) : Option (ByteSystem hashPassword) :=
  (s.transport.acts P.pb (c.log.drop s.client.log.length)).map fun t =>
    { s with client := c, transport := t }

variable (qt : Qt)

/-- The slot has handed over a response, or closed the connection, or neither. -/
def react (framing : Session) (s : ByteSystem hashPassword) : Option (ByteSystem hashPassword) :=
  match framing.callbacks with
  | [] =>
    if framing.sock.connected then some s
    else (s.client.step qt (.frame none)).bind (s.follow P)
  | [response] => (s.client.step qt (.frame (some (.response response)))).bind (s.follow P)
  | _ => none

/-- Data is only received when no handler is running. -/
def onReadyRead (n : ℕ) (s : ByteSystem hashPassword) : Option (ByteSystem hashPassword) := do
  let l ← s.transport.links.getLast?
  if s.client.stack = [] ∧ s.transport.framing.sock.connected ∧ 0 < n ∧ n ≤ l.down.length then do
    let framing ← s.transport.framing.readyRead P.pb (l.down.take n)
    let transport : Transport :=
      { framing := { framing with callbacks := [] }
        links := s.transport.links.modifyLast (Link.read n) }
    ({ s with transport := transport } : ByteSystem hashPassword).react P qt framing
  else none

def step (s : ByteSystem hashPassword) (e : Event) : Option (ByteSystem hashPassword) :=
  if s.terminated then none
  else
    match e with
    | .client (.frame _) => none
    | .client e => (s.client.step qt e).bind (s.follow P)
    | .readyRead n => s.onReadyRead P qt n
    | .accept k => do
      let l ← s.transport.links[k]?
      let r ← l.session.handle P .start
      some (s.settle k (r.map fun session => { l with session := session }))
    | .peer k e => do
      let l ← s.transport.links[k]?
      let r ← l.step P e
      some (s.settle k r)
    | .call k i => do
      let l ← s.transport.links[k]?
      let c ← l.call i
      if l.waiting = none then
        some { s.setLink k { l with waiting := some s.database.calls } with
          database := s.database.call c }
      else none
    | .resume k i => do
      let l ← s.transport.links[k]?
      let c ← l.call i
      let t ← l.waiting
      let result ← s.database.result t c
      let r ← ({ l with waiting := none } : Link).handle P (.run i (returning c result))
      some (s.settle k r)
    | .database e => (s.database.step e).map fun d => { s with database := d }

end ByteSystem

/-! ### A session and its bytes -/

/-- The frames of replies, one after the other. -/
def replyFrames (pb : Protobuf) (replies : List Reply) : List UInt8 :=
  replies.flatMap fun reply => pb.frame reply.mesg

/-- The size of the message is an `int`. -/
def FitsInt (pb : Protobuf) (mesg : WrappedMessage) : Prop := (pb.serialize mesg).length < 2 ^ 31

/-- The response that the job is about to write, if any, is short. -/
def Item.WritesShort (pb : Protobuf) : Item → Prop
  | .requestJob _ (.write mesg _) => FitsInt pb mesg
  | _ => True

instance (pb : Protobuf) : DecidablePred (Item.WritesShort pb)
  | .requestJob _ (.write mesg _) =>
    inferInstanceAs (Decidable ((pb.serialize mesg).length < 2 ^ 31))
  | .requestJob _ (.pure _) | .requestJob _ (.call ..) | .requestJob _ (.loggedIn _)
  | .requestJob _ (.state _) | .requestJob _ (.setState ..) | .readPrefix | .readMessage _
  | .parseCommandJob _ | .write _ => .isTrue trivial

/-- The session has not stopped. It may not have been started. -/
def ClientSession.Live (s : ClientSession) : Prop := s.stopped = false ∨ s = .fresh

namespace Link

open ClientSession

variable (P : Platform)

/-- The job of the session is that of the task. -/
def Works (l : Link) (v : Serving) : Prop :=
  match l.session.outstanding with
  | [.requestJob request job] => ∃ id, match l.waiting with
    | none => v.task = some ⟨id, request, .running job⟩
    | some t => ∃ c k, job = .call c k ∧ v.task = some ⟨id, request, .waiting t c k⟩
  | _ => l.waiting = none ∧ v.task = none

/-- The session has got as far as `v`. -/
structure Agrees (l : Link) (v : Serving) : Prop where
  clientState : v.clientState = l.session.clientState
  before : l.connection.Before P (v.inbox.map Prod.snd)
  works : l.Works v

/-- The session does the work of `v`, as long as it lives. -/
structure Serves (l : Link) (v : Serving) : Prop where
  holds : l.session.Holds
  identified : l.session.Identified
  sendable : ∀ r ∈ dispatched l.session.trace ++ v.inbox.map Prod.snd, Sendable P.pb r
  agrees : l.session.Live → l.Agrees P v

/-- What the session has written are the replies. -/
def Adds (pb : Protobuf) (l l' : Link) (v v' : Serving) : Prop :=
  ∃ replies, v'.outbox = v.outbox ++ replies ∧ l'.down = l.down ++ replyFrames pb replies ∧
    ∀ reply ∈ replies, FitsInt pb reply.mesg

/-- A response that is written is short. -/
def WritesShort (l : Link) : PeerEvent → Prop
  | .run i _ => ∀ item ∈ l.session.outstanding[i]?, item.WritesShort P.pb
  | _ => True

instance (l : Link) : DecidablePred (l.WritesShort P)
  | .run i _ =>
    inferInstanceAs (Decidable (∀ item ∈ l.session.outstanding[i]?, item.WritesShort P.pb))
  | .readDone _ | .readFailed .. | .sent .. => .isTrue trivial

variable {P} {l l' : Link} {v v' : Serving}

theorem Adds.same (pb : Protobuf) (hdown : l'.down = l.down) (houtbox : v'.outbox = v.outbox) :
    Adds pb l l' v v' :=
  ⟨[], by rw [houtbox, List.append_nil], by rw [hdown, replyFrames, List.flatMap_nil,
    List.append_nil], fun _ h => absurd h List.not_mem_nil⟩

theorem call_eq_some {i : ℕ} {c : StorageCall} (h : l.call i = some c) :
    ∃ request k, l.session.outstanding[i]? = some (.requestJob request (.call c k)) := by
  rw [call] at h
  split at h
  · next request c' k hitem =>
    cases h
    exact ⟨request, k, hitem⟩
  · cases h

end Link

namespace ClientSession

variable {P : Platform} {s s' : ClientSession} {item : Item} {o : Outcome}

/-- The only entry of a session that holds its token. -/
theorem Holds.of_getElem? (hs : s.Holds) {i : ℕ} (h : s.outstanding[i]? = some item) :
    i = 0 ∧ s.outstanding = [item] ∧ s.stopped = false := by
  cases hs with
  | unstarted hfresh =>
    rw [hfresh] at h
    cases h
  | halted _ hout _ =>
    rw [hout] at h
    cases h
  | token item' hstop hout _ _ _ =>
    rw [hout] at h ⊢
    cases i with
    | zero =>
      cases h
      exact ⟨rfl, rfl, hstop⟩
    | succ i => cases h

/-- An operation of a job, which goes on or ends with its write. -/
theorem Moves.operation {request : Request} {job : JobM Unit} {ret : (c : StorageCall) → c.Result}
    (hm : Moves P s (.requestJob request job) (.run ret) s') (hjob : ∀ c k, job ≠ .call c k) :
    s'.stopped = s.stopped ∧
      ((∃ job', s'.outstanding = [.requestJob request job'] ∧ s'.trace = s.trace) ∨
        ∃ mesg frame, s'.outstanding = [.write frame] ∧ job = .write mesg (.pure ()) ∧
          s'.trace = s.trace ++ [.writeStarted mesg frame] ∧ FrameOf P mesg frame) := by
  cases hm with
  | ioFailed _ hitem _ => rcases hitem with h | ⟨n, h⟩ | ⟨frame, h⟩ <;> cases h
  | @called _ c k => exact absurd rfl (hjob c k)
  | loggedIn | state _ | setState => exact ⟨rfl, .inl ⟨_, rfl, rfl⟩⟩
  | @wrote _ mesg _ frame _ hframe => exact ⟨rfl, .inr ⟨mesg, frame, rfl, rfl, rfl, hframe⟩⟩

theorem not_live_halted {s : ClientSession} {buffer : List UInt8} : ¬ (s.halted buffer).Live := by
  rintro (h | h)
  · cases h
  · have htrace := congrArg ClientSession.trace h
    simp [halted, fresh] at htrace

/-- What a handler does: it stops the session, starts the next read or job, or dispatches. -/
inductive Handled (s s' : ClientSession) : Prop
  | stopped (hlive : ¬ s'.Live) (htrace : s'.trace = s.trace ++ [.stopped])
  | next {item : Item} {a : Action} (hstopped : s'.stopped = s.stopped)
      (hstate : s'.clientState = s.clientState) (hout : s'.outstanding = [item])
      (hitem : ∀ request job, item ≠ .requestJob request job) (htrace : s'.trace = s.trace ++ [a])
      (hdispatched : ∀ request, a ≠ .dispatched request)
      (hwritten : ∀ mesg frame, a ≠ .writeStarted mesg frame)
  | dispatched {request : Request} {job : JobM Unit} (hstopped : s'.stopped = s.stopped)
      (hstate : s'.clientState = s.clientState) (hjob : requestJob request = some job)
      (hout : s'.outstanding = [.requestJob request job])
      (htrace : s'.trace = s.trace ++ [.dispatched request])

theorem Moves.handled (hm : Moves P s item o s')
    (hitem : ∀ request job, item ≠ .requestJob request job) : Handled s s' := by
  cases hm with
  | ioFailed buffer _ _ | refused _ => exact .stopped not_live_halted rfl
  | prefixRead _ _ _ _ | messageRead _ | sent _ =>
    exact .next rfl rfl rfl (fun _ _ h => by cases h) rfl (fun _ h => by cases h)
      fun _ _ h => by cases h
  | dispatched _ hjob => exact .dispatched rfl rfl hjob rfl rfl
  | called | loggedIn | state _ | setState | wrote _ _ => exact absurd rfl (hitem _ _)

theorem Moves.eq_of_call {request : Request} {c : StorageCall} {k : c.Result → JobM Unit}
    {ret : (c : StorageCall) → c.Result}
    (hm : Moves P s (.requestJob request (.call c k)) (.run ret) s') :
    s' = s.advance s.readBuffer (.requestJob request (k (ret c))) (.called c (ret c)) := by
  cases hm with
  | ioFailed _ hitem _ => rcases hitem with h | ⟨n, h⟩ | ⟨frame, h⟩ <;> cases h
  | called => rfl

/-- A job only runs. -/
theorem Moves.exists_run {request : Request} {job : JobM Unit}
    (hm : Moves P s (.requestJob request job) o s') : ∃ ret, o = .run ret := by
  cases hm with
  | ioFailed _ hitem _ => rcases hitem with h | ⟨n, h⟩ | ⟨frame, h⟩ <;> cases h
  | called | loggedIn | state _ | setState | wrote _ _ => exact ⟨_, rfl⟩

theorem event_run {c : Connection} {e : PeerEvent} {ret : (c : StorageCall) → c.Result}
    {unread : List UInt8} (h : c.event e = some (.item 0 (.run ret), unread)) :
    e = .run 0 ret := by
  cases e with
  | run i ret' =>
    cases h
    rfl
  | sent i err => cases h
  | readDone i | readFailed i bytes =>
    simp only [Connection.event, Option.bind_eq_bind, Option.bind_eq_some_iff] at h
    obtain ⟨_, -, _, -, h⟩ := h
    split_ifs at h
    cases h

theorem Answers.exists_response {request : Request} {mesg : WrappedMessage}
    (h : Answers request mesg) : ∃ r, mesg = .response r := by
  cases request with
  | registerRequest _ | loginRequest _ =>
    obtain ⟨_, rfl⟩ := h
    exact ⟨_, rfl⟩
  | msgNotSet => exact absurd h id
  | _ =>
    rcases h with rfl | ⟨_, rfl⟩
    · exact ⟨_, rfl⟩
    · exact ⟨_, rfl⟩

end ClientSession

namespace Serving

variable {v v' : Serving}

theorem task_of_writesOnce {Q : WrappedMessage → Prop} {job : JobM Unit} (h : job.WritesOnce Q)
    (id : ℕ) (request : Request) (v : Serving) :
    (v.post id request job).task = some ⟨id, request, .running job⟩ := by
  cases h <;> rfl

theorem operate_alone (h : v.operate = some (.alone v')) : v'.inbox = v.inbox := by
  rw [operate] at h
  split at h
  · next id request job htask =>
    cases job with
    | pure _ | call _ _ => cases h
    | state k =>
      obtain ⟨st, -, heq⟩ := Option.map_eq_some_iff.mp h
      cases heq
      rfl
    | loggedIn k | setState st k | write mesg k =>
      cases h
      rfl
  · cases h

theorem operate_calls {id : ℕ} {c : StorageCall} {w : ℕ → Serving}
    (h : v.operate = some (.calls id c w)) :
    ∃ request k, v.task = some ⟨id, request, .running (.call c k)⟩ := by
  rw [operate] at h
  split at h
  · next id' request job htask =>
    cases job with
    | call c' k =>
      cases h
      exact ⟨request, k, htask⟩
    | state k =>
      obtain ⟨st, -, heq⟩ := Option.map_eq_some_iff.mp h
      cases heq
    | pure _ | loggedIn _ | setState _ _ | write _ _ => cases h
  · cases h

end Serving

/-- The client writes another frame. -/
theorem Connection.Before.concat {P : Platform} {c : Connection} {rest : List Request}
    (h : c.Before P rest) (r : Request) :
    ({ c with unread := c.unread ++ P.pb.frame (.request r) } : Connection).Before P
      (rest ++ [r]) := by
  have hframes : ∀ rs, requestFrames P.pb rs ++ P.pb.frame (.request r) =
      requestFrames P.pb (rs ++ [r]) := by
    intro rs
    rw [requestFrames, requestFrames, List.flatMap_append, List.flatMap_singleton]
  have hplain : ∀ {unread}, unread = requestFrames P.pb rest →
      unread ++ P.pb.frame (.request r) = requestFrames P.pb (rest ++ [r]) :=
    fun heq => by rw [heq, hframes]
  obtain ⟨⟨stopped, clientState, readBuffer, outstanding, trace⟩, stream, unread⟩ := c
  rcases outstanding with _ | ⟨item, _ | ⟨item', items⟩⟩
  · exact hplain h
  · cases item with
    | readMessage n =>
      obtain ⟨r', rest', rfl, hn, hunread⟩ := h
      refine ⟨r', rest' ++ [r], rfl, hn, ?_⟩
      rw [hunread, List.append_assoc, hframes]
    | parseCommandJob body =>
      obtain ⟨r', rest', rfl, hbody, hunread⟩ := h
      refine ⟨r', rest' ++ [r], rfl, hbody, ?_⟩
      rw [hunread, hframes]
    | readPrefix | requestJob _ _ | write _ => exact hplain h
  · cases item <;> exact hplain h

namespace Link

open ClientSession

variable {P : Platform} {l l' : Link} {v v' : Serving}

theorem Works.idle (h : l.Works v) {item : Item} (hout : l.session.outstanding = [item])
    (hitem : ∀ request job, item ≠ .requestJob request job) : l.waiting = none ∧ v.task = none := by
  rw [Works, hout] at h
  split at h
  · next request job heq => exact absurd (List.singleton_inj.mp heq) (hitem request job)
  · exact h

theorem works_of_idle {item : Item} (hout : l.session.outstanding = [item])
    (hitem : ∀ request job, item ≠ .requestJob request job) (hwaiting : l.waiting = none)
    (htask : v.task = none) : l.Works v := by
  rw [Works, hout]
  split
  · next request job heq => exact absurd (List.singleton_inj.mp heq) (hitem request job)
  · exact ⟨hwaiting, htask⟩

/-- A job that is not at its storage call. -/
theorem Works.running (h : l.Works v) {request : Request} {job : JobM Unit}
    (hout : l.session.outstanding = [.requestJob request job]) (hcall : l.call 0 = none) :
    l.waiting = none ∧ ∃ id, v.task = some ⟨id, request, .running job⟩ := by
  rw [Works, hout] at h
  obtain ⟨id, h⟩ := h
  cases hwaiting : l.waiting with
  | none =>
    rw [hwaiting] at h
    exact ⟨rfl, id, h⟩
  | some t =>
    rw [hwaiting] at h
    obtain ⟨c, k, rfl, -⟩ := h
    rw [call, hout] at hcall
    cases hcall

theorem Serves.live (h : l.Serves P v) (hstop : l.session.stopped = false) : l.Agrees P v :=
  h.agrees (.inl hstop)

/-- No handler and no job of the session ends the process. -/
theorem Serves.not_crash (hP : 2 ^ 31 + 8 ≤ P.memory) (hpb : P.pb.Generated) (h : l.Serves P v)
    {e : PeerEvent} (hshort : l.WritesShort P e) (crash : Crash) :
    l.connection.handle P e ≠ some (.error crash) := by
  intro hcrash
  simp only [Connection.handle, Option.bind_eq_bind, Option.bind_eq_some_iff, Prod.exists] at hcrash
  obtain ⟨e', unread, he, r, hr, hcrash⟩ := hcrash
  cases r with
  | ok session => cases hcrash
  | error crash' =>
    obtain ⟨item, o, hout, hstop, rfl, hc⟩ := handle_crashes h.holds hr
    obtain ⟨i, o', heq, hup⟩ := Connection.event_eq_some he
    cases heq
    cases hc with
    | announced hdata hparse hsize =>
      -- the prefix is that of a request of the client
      have hbefore := (h.live hstop).before
      rw [Connection.Before, show l.connection.session.outstanding = _ from hout] at hbefore
      obtain ⟨r, rest, hrest, rfl, -⟩ := Connection.exists_frame
        (fun r hr => h.sendable r (List.mem_append_right _ hr)) hpb hdata (hbefore.symm.trans hup)
      have hsend : Sendable P.pb r := h.sendable r (List.mem_append_right _ (by
        rw [hrest]
        exact List.mem_cons_self ..))
      obtain ⟨hne, -, -⟩ := Connection.Sendable.size hpb hsend
      rw [P.pb.parsePrefix_serializePrefix _ hne, Option.some_inj] at hparse
      rw [← hparse] at hsize
      exact absurd (Connection.size_le hP hpb hsend) (not_le.mpr hsize)
    | state _ => exact h.identified.inOrder.not_assertionFailed h.holds _ hr
    | @response request mesg k ret hsize =>
      obtain rfl := event_run he
      have hlt : (P.pb.serialize mesg).length < 2 ^ 31 :=
        hshort (.requestJob request (.write mesg k)) (by rw [hout]; rfl)
      rw [Connection.writeSize_of_lt hlt, PREFIX_SIZE] at hsize
      omega

/-- The frames that the session has yet to act upon, before and after a step. -/
theorem Serves.splits (hpb : P.pb.Generated) (h : l.Serves P v) {e : PeerEvent} {c : Connection}
    (hstop : l.session.stopped = false) (hhandle : l.connection.handle P e = some (.ok c)) :
    ∃ rest, dispatched l.session.trace ++ v.inbox.map Prod.snd =
        dispatched c.session.trace ++ rest ∧ (c.session.stopped = false → c.Before P rest) :=
  Connection.Splits.of_step hpb h.sendable ⟨_, rfl, fun _ => (h.live hstop).before⟩ h.holds
    (Connection.step_eq_some.mpr hhandle)

/-- A link after a handler or a job, when the frames that have not been acted upon are those of
`v'`. -/
theorem Serves.of_moves (hpb : P.pb.Generated) (h : l.Serves P v) {e : PeerEvent} {c : Connection}
    {item : Item} {o : Outcome} (hout : l.session.outstanding = [item])
    (hstop : l.session.stopped = false) (hm : Moves P l.session item o c.session)
    (hhandle : l.connection.handle P e = some (.ok c))
    (hsession : l'.session = c.session) (hup : l'.up = c.unread)
    (hinbox : dispatched l.session.trace ++ v.inbox.map Prod.snd =
      dispatched c.session.trace ++ v'.inbox.map Prod.snd)
    (hworks : c.session.Live → c.session.stopped = false ∧
      v'.clientState = c.session.clientState ∧ l'.Works v') :
    l'.Serves P v' := by
  obtain ⟨hne, -, hjob⟩ := h.holds.of_token hstop hout
  obtain ⟨rest, hsplit, hbefore⟩ := h.splits hpb hstop hhandle
  obtain rfl := List.append_cancel_left (hinbox.symm.trans hsplit)
  obtain ⟨session, waiting, up, down⟩ := l'
  obtain rfl : session = c.session := hsession
  obtain rfl : up = c.unread := hup
  refine ⟨hm.holds hstop hne hjob, hm.identified h.identified hout, hinbox ▸ h.sendable,
    fun hlive => ?_⟩
  obtain ⟨hrunning, hstate, hworks⟩ := hworks hlive
  exact ⟨hstate, hbefore hrunning, hworks⟩

/-- An action that is no write puts nothing on the way. -/
theorem down_after {c : Connection} {a : Action} (htrace : c.session.trace = l.session.trace ++ [a])
    (ha : ∀ mesg frame, a ≠ .writeStarted mesg frame) : (l.after c).down = l.down := by
  rw [Link.after, htrace, List.drop_left]
  cases a with
  | writeStarted mesg frame => exact absurd rfl (ha mesg frame)
  | _ => exact List.append_nil _

/-- A job performs an operation. -/
theorem Serves.operate (hpb : P.pb.Generated) (h : l.Serves P v) {e : PeerEvent} {c : Connection}
    {request : Request} {job : JobM Unit} {ret : (c : StorageCall) → c.Result}
    (hout : l.session.outstanding = [.requestJob request job]) (hcall : l.call 0 = none)
    (hstop : l.session.stopped = false)
    (hm : Moves P l.session (.requestJob request job) (.run ret) c.session)
    (hhandle : l.connection.handle P e = some (.ok c))
    (hshort : ∀ mesg k, job = .write mesg k → FitsInt P.pb mesg) :
    ∃ v', v.operate = some (.alone v') ∧ (l.after c).Serves P v' ∧
      Adds P.pb l (l.after c) v v' := by
  have hagrees := h.live hstop
  obtain ⟨hwaiting, id, htask⟩ := hagrees.works.running hout hcall
  obtain ⟨v', hoperate, hstate, hgoes⟩ :=
    Serving.operate_of_moves hm hagrees.clientState htask
  have hoperate : v.operate = some (.alone v') := by
    rcases hoperate with hoperate | ⟨c', w, t, hoperate, -⟩
    · exact hoperate
    · obtain ⟨request', k, htask'⟩ := Serving.operate_calls hoperate
      rw [htask] at htask'
      cases htask'
      rw [call, hout] at hcall
      cases hcall
  have hjob : ∀ c k, job ≠ .call c k := by
    rintro c k rfl
    rw [call, hout] at hcall
    cases hcall
  have hinbox := Serving.operate_alone hoperate
  obtain ⟨hne, -, hwrites⟩ := h.holds.of_token hstop hout
  obtain ⟨hstopped, hmoves⟩ := hm.operation hjob
  rcases hmoves with ⟨job', hout', htrace⟩ | ⟨mesg, frame, hout', rfl, htrace, hframe⟩
  · -- the job goes on
    have htask' : v'.task = some ⟨id, request, .running job'⟩ ∧ v'.outbox = v.outbox := by
      rcases hgoes with ⟨job'', hout'', htask', houtbox⟩ | ⟨_, _, hout'', -⟩
      · rw [hout'] at hout''
        cases hout''
        refine ⟨?_, houtbox⟩
        have hholds := hm.holds hstop hne hwrites
        obtain ⟨-, -, hwrites'⟩ := hholds.of_token (hstopped.trans hstop) hout'
        rw [htask', Serving.task_of_writesOnce (hwrites' _ _ rfl)]
      · rw [hout'] at hout''
        cases hout''
    refine ⟨v', hoperate, h.of_moves hpb hout hstop hm hhandle rfl rfl (by rw [hinbox, htrace])
      fun _ => ⟨hstopped.trans hstop, hstate, ?_⟩, .same _ ?_ htask'.2⟩
    · rw [Works, show (l.after c).session.outstanding = _ from hout']
      refine ⟨id, ?_⟩
      rw [show (l.after c).waiting = none from hwaiting]
      exact htask'.1
    · rw [Link.after, htrace, List.drop_length]
      exact List.append_nil _
  · -- the job ends with its write
    have hmesg := hshort mesg _ rfl
    have hpos : 0 < (P.pb.serialize mesg).length := by
      cases hwrites request _ rfl with
      | write hanswers =>
        obtain ⟨r, rfl⟩ := ClientSession.Answers.exists_response hanswers
        exact hpb.serialize_pos fun h => by cases h
    have hv := hoperate
    rw [Serving.operate, htask] at hv
    cases hv
    refine ⟨_, hoperate, h.of_moves hpb hout hstop hm hhandle rfl rfl ?_
      fun _ => ⟨hstopped.trans hstop, hstate, ?_⟩, [⟨id, request, mesg⟩], rfl, ?_, ?_⟩
    · rw [htrace, Connection.dispatched_concat fun _ h => by cases h]
      rfl
    · rw [Works, show (l.after c).session.outstanding = _ from hout']
      exact ⟨hwaiting, rfl⟩
    · rw [Link.after, htrace, List.drop_left, hframe hpos hmesg]
      rfl
    · rintro reply hreply
      rw [List.mem_singleton.mp hreply]
      exact hmesg

/-- A handler or an operation of a job is a move of the token. -/
theorem step_eq_some {e : PeerEvent} {r : Except Crash Link} (h : l.step P e = some r) :
    l.handle P e = some r ∧ ∀ i ret, e = .run i ret → l.call i = none := by
  cases e with
  | run i ret =>
    rw [step] at h
    split_ifs at h with hcall
    refine ⟨h, fun i' ret' heq => ?_⟩
    cases heq
    exact hcall
  | readDone i | readFailed i bytes | sent i err => exact ⟨h, fun _ _ heq => (by cases heq)⟩

/-- **Sessions.** A handler or an operation of a job keeps the session where it is, reads the next
request, or performs an operation of the task. -/
theorem Serves.step (hP : 2 ^ 31 + 8 ≤ P.memory) (hpb : P.pb.Generated) (h : l.Serves P v)
    {e : PeerEvent} {r : Except Crash Link} (hshort : l.WritesShort P e)
    (hstep : l.step P e = some r) :
    ∃ l' v', r = .ok l' ∧ (v' = v ∨ v.take = some v' ∨ v.operate = some (.alone v')) ∧
      l'.Serves P v' ∧ Adds P.pb l l' v v' := by
  obtain ⟨hhandle, hcall⟩ := step_eq_some hstep
  rw [handle, Option.map_eq_some_iff] at hhandle
  obtain ⟨result, hhandle, rfl⟩ := hhandle
  cases result with
  | error crash => exact absurd hhandle (h.not_crash hP hpb hshort crash)
  | ok c =>
    obtain ⟨item, o, hout, hstop, hm, -, -, unread, hevent, -⟩ :=
      Connection.handle_ok h.holds hhandle
    have hout : l.session.outstanding = [item] := hout
    have hagrees := h.live hstop
    refine ⟨l.after c, ?_⟩
    by_cases hjob : ∃ request job, item = .requestJob request job
    · obtain ⟨request, job, rfl⟩ := hjob
      obtain ⟨ret, rfl⟩ := hm.exists_run
      obtain rfl := event_run hevent
      obtain ⟨v', hoperate, hserves, hadds⟩ := h.operate hpb hout (hcall 0 ret rfl) hstop hm
        hhandle fun mesg k heq =>
          hshort (.requestJob request (.write mesg k)) (by rw [hout, heq]; rfl)
      exact ⟨v', rfl, .inr (.inr hoperate), hserves, hadds⟩
    · have hitem : ∀ request job, item ≠ .requestJob request job :=
        fun request job heq => hjob ⟨request, job, heq⟩
      obtain ⟨hwaiting, htask⟩ := hagrees.works.idle hout hitem
      cases hm.handled hitem with
      | stopped hlive htrace =>
        refine ⟨v, rfl, .inl rfl, h.of_moves hpb hout hstop hm hhandle rfl rfl ?_
            fun hl => absurd hl hlive,
          .same _ (down_after htrace fun _ _ h => by cases h) rfl⟩
        rw [htrace, Connection.dispatched_concat fun _ h => by cases h]
        rfl
      | next hstopped hstate hout' hitem' htrace hdispatched hwritten =>
        refine ⟨v, rfl, .inl rfl, h.of_moves hpb hout hstop hm hhandle rfl rfl ?_ fun _ =>
          ⟨hstopped.trans hstop, hagrees.clientState.trans hstate.symm, ?_⟩,
          .same _ (down_after htrace hwritten) rfl⟩
        · rw [htrace, Connection.dispatched_concat hdispatched]
          rfl
        · exact works_of_idle hout' hitem' hwaiting htask
      | @dispatched request job hstopped hstate hrequest hout' htrace =>
        obtain ⟨rest, hsplit, -⟩ := h.splits hpb hstop hhandle
        rw [htrace, Connection.dispatched_dispatched rfl, List.append_assoc] at hsplit
        obtain ⟨⟨id, r⟩, inbox, hinbox, rfl, -⟩ :=
          List.map_eq_cons_iff.mp (List.append_cancel_left hsplit)
        have htake : v.take = some (({ v with inbox := inbox, before := v.clientState } :
            Serving).post id r job) := by
          rw [Serving.take, htask, hinbox]
          dsimp only
          rw [hrequest]
          rfl
        refine ⟨_, rfl, .inr (.inl htake), h.of_moves hpb hout hstop hm hhandle rfl rfl ?_ fun _ =>
          ⟨hstopped.trans hstop, hagrees.clientState.trans hstate.symm, ?_⟩,
          .same _ (down_after htrace fun _ _ h => by cases h) rfl⟩
        · rw [htrace, Connection.dispatched_dispatched rfl, hinbox, List.append_assoc]
          rfl
        · rw [Works, show (l.after c).session.outstanding = _ from hout']
          refine ⟨id, ?_⟩
          rw [show (l.after c).waiting = none from hwaiting]
          exact Serving.task_of_writesOnce (requestJob_writesOnce hrequest) id r _

/-- The storage function is called. -/
theorem Serves.call (h : l.Serves P v) {i : ℕ} {c : StorageCall} (hcall : l.call i = some c)
    (hwaiting : l.waiting = none) :
    ∃ id w, v.operate = some (.calls id c w) ∧
      ∀ t, ({ l with waiting := some t } : Link).Serves P (w t) ∧ (w t).outbox = v.outbox := by
  obtain ⟨request, k, hitem⟩ := call_eq_some hcall
  obtain ⟨-, hout, hstop⟩ := h.holds.of_getElem? hitem
  have hagrees := h.live hstop
  have hworks := hagrees.works
  rw [Works, hout] at hworks
  obtain ⟨id, hworks⟩ := hworks
  rw [hwaiting] at hworks
  refine ⟨id, fun t => { v with task := some ⟨id, request, .waiting t c k⟩ }, ?_,
    fun t => ⟨?_, rfl⟩⟩
  · rw [Serving.operate, hworks]
  · refine ⟨h.holds, h.identified, h.sendable, fun _ =>
      ⟨hagrees.clientState, hagrees.before, ?_⟩⟩
    rw [Works, show ({ l with waiting := some t } : Link).session.outstanding = _ from hout]
    exact ⟨id, c, k, rfl, rfl⟩

/-- The storage function returns. -/
theorem Serves.resume (hP : 2 ^ 31 + 8 ≤ P.memory) (hpb : P.pb.Generated) (h : l.Serves P v)
    {i t : ℕ} {c : StorageCall} (hcall : l.call i = some c) (hwaiting : l.waiting = some t)
    {hashPassword : String → List UInt8} {d : Database hashPassword} {result : c.Result}
    (hresult : d.result t c = some result) {r : Except Crash Link}
    (hhandle : ({ l with waiting := none } : Link).handle P (.run i (returning c result)) =
      some r) :
    ∃ l' v', r = .ok l' ∧ v.resume d.returned = some v' ∧ l'.Serves P v' ∧
      Adds P.pb l l' v v' := by
  obtain ⟨request, k, hitem⟩ := call_eq_some hcall
  obtain ⟨rfl, hout, hstop⟩ := h.holds.of_getElem? hitem
  have hagrees := h.live hstop
  have hworks := hagrees.works
  rw [Works, hout] at hworks
  obtain ⟨id, hworks⟩ := hworks
  rw [hwaiting] at hworks
  obtain ⟨c', k', heq, htask⟩ := hworks
  cases heq
  have hresume : v.resume d.returned = some (v.post id request (k result)) := by
    rw [Serving.resume, htask]
    dsimp only
    rw [Database.returned_of_result hresult]
    exact dif_pos rfl
  rw [handle, Option.map_eq_some_iff] at hhandle
  obtain ⟨outcome, hhandle, rfl⟩ := hhandle
  have hhandle : l.connection.handle P (.run 0 (returning c result)) = some outcome := hhandle
  cases outcome with
  | error crash =>
    have hshort : l.WritesShort P (.run 0 (returning c result)) := by
      intro item hwrite
      obtain rfl := Option.some_inj.mp (hitem.symm.trans hwrite)
      trivial
    exact absurd hhandle (h.not_crash hP hpb hshort crash)
  | ok c₁ =>
    obtain ⟨item, o, hout', -, hm, -, -, unread, hevent, -⟩ :=
      Connection.handle_ok h.holds hhandle
    obtain rfl := List.singleton_inj.mp (hout.symm.trans hout')
    cases hevent
    have hsession := hm.eq_of_call
    have hret : returning c result c = result := by
      rw [returning, dif_pos rfl]
    rw [hret] at hsession
    obtain ⟨-, -, hwrites⟩ := h.holds.of_token hstop hout
    have htrace : c₁.session.trace = l.session.trace ++ [.called c result] := by
      rw [hsession]
      rfl
    have hwrites' : (k result).WritesOnce (Answers request) := by
      cases hwrites request _ rfl with
      | call hk => exact hk result
    refine ⟨_, _, rfl, hresume, h.of_moves hpb hout hstop hm hhandle rfl rfl ?_ fun _ =>
      ⟨?_, ?_, ?_⟩, .same _ (down_after (l := { l with waiting := none }) htrace
        fun _ _ h => by cases h) rfl⟩
    · rw [htrace, Connection.dispatched_concat fun _ h => by cases h]
      rfl
    · rw [hsession]
      exact hstop
    · rw [hsession]
      exact hagrees.clientState
    · have hout₁ : c₁.session.outstanding = [.requestJob request (k result)] := by
        rw [hsession]
        rfl
      rw [Works, show (({ l with waiting := none } : Link).after c₁).session.outstanding = _
        from hout₁]
      exact ⟨id, Serving.task_of_writesOnce hwrites' id request v⟩

/-- The server accepts the connection. -/
theorem Serves.accept (h : l.Serves P v) {r : Except Crash ClientSession}
    (hstart : l.session.handle P .start = some r) :
    ∃ session, r = .ok session ∧ ({ l with session := session } : Link).Serves P v := by
  obtain ⟨hfresh, rfl⟩ := h.holds.eq_begun hstart
  obtain ⟨hstate, hbefore, hworks⟩ := h.agrees (.inr hfresh)
  refine ⟨begun, rfl, begun_holds, begun_identified, ?_, fun _ => ⟨?_, ?_, ?_⟩⟩
  · have hsend := h.sendable
    rw [hfresh] at hsend
    exact hsend
  · rw [hstate, hfresh]
    rfl
  · have hout : l.connection.session.outstanding = [] := by
      rw [connection, hfresh]
      rfl
    rw [Connection.Before, hout] at hbefore
    exact hbefore
  · rw [Works, hfresh] at hworks
    exact hworks

theorem serves_opened : opened.Serves P .fresh := by
  refine ⟨.unstarted rfl,
    identified_of_trace rfl (by simp [opened, fresh]) (by simp [opened, fresh]),
    fun r hr => absurd hr List.not_mem_nil, fun _ => ⟨rfl, rfl, rfl, rfl⟩⟩

/-- The client has written a request. -/
theorem Serves.receive (h : l.Serves P v) {id : ℕ} {mesg : Request} (hsend : Sendable P.pb mesg) :
    (l.receive (P.pb.frame (.request mesg))).Serves P (v.receive id mesg) := by
  have hinbox : (v.receive id mesg).inbox.map Prod.snd = v.inbox.map Prod.snd ++ [mesg] := by
    rw [Serving.receive, List.map_append]
    rfl
  refine ⟨h.holds, h.identified, fun r hr => ?_, fun hlive => ?_⟩
  · rw [hinbox, ← List.append_assoc] at hr
    rcases List.mem_append.mp hr with hr | hr
    · exact h.sendable r hr
    · rw [List.mem_singleton.mp hr]
      exact hsend
  · obtain ⟨hstate, hbefore, hworks⟩ := h.agrees hlive
    refine ⟨hstate, ?_, hworks⟩
    rw [hinbox]
    exact hbefore.concat mesg

theorem Serves.delivered (h : l.Serves P v) (n : ℕ) : (l.read n).Serves P v.delivered :=
  ⟨h.holds, h.identified, h.sendable, fun hlive =>
    ⟨(h.agrees hlive).clientState, (h.agrees hlive).before, (h.agrees hlive).works⟩⟩

theorem Serves.read (h : l.Serves P v) (n : ℕ) : (l.read n).Serves P v :=
  ⟨h.holds, h.identified, h.sendable, fun hlive =>
    ⟨(h.agrees hlive).clientState, (h.agrees hlive).before, (h.agrees hlive).works⟩⟩

end Link

end Elegram
