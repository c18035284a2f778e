import Elegram.Client.NetworkSession
import Elegram.Server.Server

/-!
# The two frame codecs

Client and server each have a writer and a reader of frames of their own. A request is written by
`Session::request` and read by the handlers of `ClientSession`, a response is written by
`do_async_write` and read by `readPrefix` and `readMessage`. This module composes them.

For the requests the invariant `Connection.Splits` says where in the list of frames a session is. It
is kept by every event (`Splits.of_step`), and only reads and writes that fail stop the session
(`Splits.running`). For the responses `recovered_iff` is the exact statement: a response comes
back if its serialisation has less than two gigabytes.
-/

namespace Elegram

open Transition

/-- The frames of requests, one after the other. -/
def requestFrames (pb : Protobuf) (requests : List Request) : List UInt8 :=
  requests.flatMap fun r => pb.frame (.request r)

/-- The request can be built and its size is an `int`, together with that of the prefix. -/
def Sendable (pb : Protobuf) (r : Request) : Prop :=
  MessageFactory.Built r ∧ (pb.serialize (.request r)).length < 2 ^ 31 - 9

theorem MessageFactory.Built.exists_job {r : Request} (h : Built r) :
    ∃ job, requestJob r = some job := by
  cases h <;> exact ⟨_, rfl⟩

/-! ### Requests, written by the client -/

namespace NetworkSession

variable {pb : Protobuf}

/-- The requests among the events of a connection. -/
def requestsOf (es : List Event) : List Request :=
  es.filterMap fun
    | .request mesg _ => some mesg
    | _ => none

theorem step_local {s s' : NetworkSession} {e : Event} (he : e.Local)
    (hstep : s.step pb e = some s') (hconn : s'.session.sock.connected = true) :
    s.session.sock.connected = true := by
  by_contra hnot
  cases e with
  | connected | disconnected => exact he
  | request mesg callback =>
    rw [NetworkSession.step, if_neg hnot] at hstep
    cases hstep
    exact hnot hconn
  | readyRead chunk =>
    rw [NetworkSession.step, if_neg hnot] at hstep
    cases hstep
    exact hnot hconn

theorem sent_of_step (hpb : pb.Generated) {s s' : NetworkSession} {e : Event} (he : e.Local)
    (hsend : ∀ r ∈ requestsOf [e], Sendable pb r) (hstep : s.step pb e = some s')
    (hconn : s'.session.sock.connected = true) :
    s'.sent = s.sent ++ requestFrames pb (requestsOf [e]) := by
  have hbefore := step_local he hstep hconn
  cases e with
  | connected | disconnected => cases he
  | request mesg callback =>
    have hlt := (hsend mesg (List.mem_singleton_self _)).2
    rw [NetworkSession.step, if_pos hbefore, Session.request_eq hpb hlt] at hstep
    cases hstep
    simp [requestFrames, requestsOf]
  | readyRead chunk =>
    rw [NetworkSession.step, if_pos hbefore] at hstep
    obtain ⟨session, -, hstep⟩ := Option.bind_eq_some_iff.mp hstep
    obtain ⟨invoked, -, heq⟩ := Option.bind_eq_some_iff.mp hstep
    cases heq
    simp [requestFrames, requestsOf]

/-- **What the client writes.** -/
theorem sent_of_run (hpb : pb.Generated) {s s' : NetworkSession} {es : List Event}
    (hes : ∀ e ∈ es, e.Local) (hsend : ∀ r ∈ requestsOf es, Sendable pb r)
    (hrun : run (NetworkSession.step pb) s es = some s')
    (hconn : s'.session.sock.connected = true) :
    s.session.sock.connected = true ∧ s'.sent = s.sent ++ requestFrames pb (requestsOf es) := by
  induction es generalizing s with
  | nil =>
    cases hrun
    exact ⟨hconn, by simp [requestFrames, requestsOf]⟩
  | cons e es ih =>
    rw [run_cons, Option.bind_eq_some_iff] at hrun
    obtain ⟨s₁, hstep, hrun⟩ := hrun
    have hsplit : requestsOf (e :: es) = requestsOf [e] ++ requestsOf es := by
      rw [requestsOf, requestsOf, requestsOf, ← List.filterMap_append, List.singleton_append]
    rw [hsplit] at hsend ⊢
    obtain ⟨hconn₁, hrest⟩ := ih (fun e' he' => hes e' (List.mem_cons_of_mem _ he'))
      (fun r hr => hsend r (List.mem_append_right _ hr)) hrun
    have he := hes e (List.mem_cons_self ..)
    have hfirst :=
      sent_of_step hpb he (fun r hr => hsend r (List.mem_append_left _ hr)) hstep hconn₁
    refine ⟨step_local he hstep hconn₁, ?_⟩
    rw [hrest, hfirst, List.append_assoc, requestFrames, requestFrames, requestFrames,
      List.flatMap_append]

/-- A connected client can send every list of requests. -/
theorem exists_run_requests (hpb : pb.Generated) {requests : List Request}
    (hsend : ∀ r ∈ requests, Sendable pb r) (callback : ℕ) {s : NetworkSession}
    (hconn : s.session.sock.connected = true) :
    ∃ s', run (NetworkSession.step pb) s (requests.map fun r => .request r callback) = some s' ∧
      s'.session.sock.connected = true := by
  induction requests generalizing s with
  | nil => exact ⟨s, rfl, hconn⟩
  | cons r requests ih =>
    have hstep : s.step pb (.request r callback) = some { s with
        session := { s.session with buffer := pb.frame (.request r) }
        callback := some callback
        sent := s.sent ++ pb.frame (.request r) } := by
      rw [NetworkSession.step, if_pos hconn,
        Session.request_eq hpb (hsend r (List.mem_cons_self ..)).2]
      rfl
    rw [List.map_cons, run_cons_of_step hstep]
    exact ih (fun r' hr' => hsend r' (List.mem_cons_of_mem _ hr')) hconn

theorem requestsOf_map (requests : List Request) (callback : ℕ) :
    requestsOf (requests.map fun r => .request r callback) = requests := by
  rw [requestsOf, List.filterMap_map]
  exact List.filterMap_some

end NetworkSession

/-! ### Requests, read by the server -/

/-- The read or write of the event fails. -/
def PeerEvent.Fails : PeerEvent → Prop
  | .readFailed .. => True
  | .sent _ err => err = true
  | .readDone _ | .run .. => False

namespace Connection

open ClientSession

variable (P : Platform)

/-- The session of a peer that has just connected and sends `stream`. -/
def accepted (stream : List UInt8) : Connection :=
  { session := begun, stream := stream, unread := stream }

def step (c : Connection) (e : PeerEvent) : Option Connection := (c.handle P e).bind Except.toOption

/-- Where a session is when the frames of `rest` have not been acted upon: in front of them, or
inside the first one. -/
def Before (c : Connection) (rest : List Request) : Prop :=
  match c.session.outstanding with
  | [.readMessage n] => ∃ r rest', rest = r :: rest' ∧ n = P.pb.byteSize (.request r) ∧
      c.unread = P.pb.serialize (.request r) ++ requestFrames P.pb rest'
  | [.parseCommandJob body] => ∃ r rest', rest = r :: rest' ∧
      body = P.pb.serialize (.request r) ∧ c.unread = requestFrames P.pb rest'
  | _ => c.unread = requestFrames P.pb rest

/-- The requests that have been dispatched are the first ones of the list, and a running session has
read exactly their frames and is in front of or inside the next one. -/
def Splits (requests : List Request) (c : Connection) : Prop :=
  ∃ rest, requests = dispatched c.session.trace ++ rest ∧
    (c.session.stopped = false → c.Before P rest)

variable {P}

theorem requestFrames_cons (pb : Protobuf) (r : Request) (rest : List Request) :
    requestFrames pb (r :: rest) =
      serializePrefix (pb.byteSize (.request r)) ++
        (pb.serialize (.request r) ++ requestFrames pb rest) := by
  rw [requestFrames, List.flatMap_cons, Protobuf.frame, List.append_assoc]
  rfl

/-- What is known of the size of a request. -/
theorem Sendable.size (hpb : P.pb.Generated) {r : Request} (h : Sendable P.pb r) :
    P.pb.byteSize (.request r) ≠ 0 ∧
      (P.pb.byteSize (.request r)).toNat = (P.pb.serialize (.request r)).length ∧
      (serializePrefix (P.pb.byteSize (.request r))).length = PREFIX_SIZE := by
  have hlt : (P.pb.serialize (.request r)).length < 2 ^ 64 := h.2.trans (by decide)
  have hne := Protobuf.byteSize_ne (hpb.serialize_pos fun h => by cases h) hlt
  exact ⟨hne, Protobuf.toNat_byteSize hlt, length_serializePrefix hne⟩

/-- The frame that begins where a session reads a prefix. -/
theorem exists_frame {rest : List Request} {data unread : List UInt8}
    (hsend : ∀ r ∈ rest, Sendable P.pb r) (hpb : P.pb.Generated)
    (hdata : data.length = PREFIX_SIZE) (h : requestFrames P.pb rest = data ++ unread) :
    ∃ r rest', rest = r :: rest' ∧ data = serializePrefix (P.pb.byteSize (.request r)) ∧
      unread = P.pb.serialize (.request r) ++ requestFrames P.pb rest' := by
  cases rest with
  | nil =>
    obtain ⟨rfl, -⟩ := List.append_eq_nil_iff.mp h.symm
    cases hdata
  | cons r rest =>
    obtain ⟨-, -, hlen⟩ := Sendable.size hpb (hsend r (List.mem_cons_self ..))
    rw [requestFrames_cons] at h
    obtain ⟨hhead, htail⟩ := List.append_inj h (hlen.trans hdata.symm)
    exact ⟨r, rest, rfl, hhead.symm, htail.symm⟩

theorem step_eq_some {c c' : Connection} {e : PeerEvent} :
    c.step P e = some c' ↔ c.handle P e = some (.ok c') := by
  rw [step, Option.bind_eq_some_iff]
  constructor
  · rintro ⟨r, hr, hok⟩
    cases r with
    | error crash => cases hok
    | ok d =>
      cases hok
      exact hr
  · exact fun h => ⟨_, h, rfl⟩

theorem dispatched_dispatched {trace : List Action} {served : List Request}
    (h : ClientSession.dispatched trace = served) (r : Request) :
    ClientSession.dispatched (trace ++ [.dispatched r]) = served ++ [r] := by
  rw [← h, ClientSession.dispatched, ClientSession.dispatched, List.filterMap_append]
  rfl

/-- **Splitting.** Every event keeps the place in the frames. -/
theorem Splits.of_step (hpb : P.pb.Generated) {requests : List Request}
    (hsend : ∀ r ∈ requests, Sendable P.pb r) {c c' : Connection} {e : PeerEvent}
    (hc : c.Splits P requests) (hholds : c.session.Holds) (h : c.step P e = some c') :
    c'.Splits P requests := by
  obtain ⟨item, o, hout, hstop, hm, -, hunread, -⟩ := handle_ok hholds (step_eq_some.mp h)
  obtain ⟨rest, hsplit, hbefore⟩ := hc
  obtain ⟨-, hneeds, -⟩ := hholds.of_token hstop hout
  have hrest : ∀ r ∈ rest, Sendable P.pb r := fun r hr => hsend r (by
    rw [hsplit]
    exact List.mem_append_right _ hr)
  have hbefore := hbefore hstop
  rw [Before, hout] at hbefore
  obtain ⟨session, stream, unread⟩ := c
  obtain ⟨session', stream', unread'⟩ := c'
  dsimp only at hm hunread hbefore hsplit hneeds ⊢
  have hplain : ∀ {a : Action}, (∀ r, a ≠ .dispatched r) → dispatched (session.trace ++ [a]) =
      dispatched session.trace := fun ha => dispatched_concat ha
  cases hm with
  | ioFailed buffer _ _ | refused _ =>
    refine ⟨rest, ?_, fun h => by cases h⟩
    change requests = dispatched (session.trace ++ [.stopped]) ++ rest
    rwa [hplain fun _ h => by cases h]
  | @prefixRead data buffer n hdata hparse _ _ =>
    change unread = requestFrames P.pb rest at hbefore
    obtain ⟨r, rest', rfl, rfl, hafter⟩ := exists_frame hrest hpb hdata (hbefore.symm.trans hunread)
    obtain ⟨hne, -, -⟩ := Sendable.size hpb (hrest r (List.mem_cons_self ..))
    rw [P.pb.parsePrefix_serializePrefix _ hne, Option.some_inj] at hparse
    refine ⟨r :: rest', ?_, fun _ => ⟨r, rest', rfl, hparse.symm, hafter⟩⟩
    change requests = dispatched (session.trace ++ [.readStarted n.toNat]) ++ (r :: rest')
    rwa [hplain fun _ h => by cases h]
  | @messageRead data n hdata =>
    obtain ⟨r, rest', rfl, rfl, hafter⟩ := hbefore
    obtain ⟨-, hlen, -⟩ := Sendable.size hpb (hrest r (List.mem_cons_self ..))
    obtain ⟨hbody, htail⟩ :=
      List.append_inj (hafter.symm.trans hunread) (hlen.symm.trans hdata.symm)
    refine ⟨r :: rest', ?_, fun _ => ⟨r, rest', rfl, hbody.symm, htail.symm⟩⟩
    change requests = dispatched (session.trace ++ [.jobPosted]) ++ (r :: rest')
    rwa [hplain fun _ h => by cases h]
  | @dispatched body ret request job hparse hjob =>
    obtain ⟨r, rest', rfl, rfl, hafter⟩ := hbefore
    have hlt : (P.pb.serialize (.request r)).length < 2 ^ 31 := by
      have hsize := (hrest r (List.mem_cons_self ..)).2
      omega
    change session.readBuffer = _ at hneeds
    rw [parseBuffer, hneeds, toInt_of_lt hlt, P.pb.parse_serialize _ hlt] at hparse
    cases hparse
    refine ⟨rest', ?_, fun _ => ?_⟩
    · change requests = dispatched (session.trace ++ [.dispatched request]) ++ rest'
      rw [dispatched_dispatched rfl, hsplit, List.append_assoc]
      rfl
    · change unread' = _
      exact hunread.symm.trans hafter
  | called =>
    refine ⟨rest, ?_, fun _ => hunread.symm.trans hbefore⟩
    change requests = dispatched (session.trace ++ [_]) ++ rest
    rwa [hplain fun _ h => by cases h]
  | loggedIn | state _ | setState => exact ⟨rest, hsplit, fun _ => hunread.symm.trans hbefore⟩
  | wrote _ _ =>
    refine ⟨rest, ?_, fun _ => hunread.symm.trans hbefore⟩
    change requests = dispatched (session.trace ++ [_]) ++ rest
    rwa [hplain fun _ h => by cases h]
  | sent _ =>
    refine ⟨rest, ?_, fun _ => hunread.symm.trans hbefore⟩
    change requests = dispatched (session.trace ++ [_]) ++ rest
    rwa [hplain fun _ h => by cases h]

end Connection

/-! ### Steps that go on -/

namespace ClientSession

variable {P : Platform} {s : ClientSession}

theorem ok_bind {α β : Type} (a : α) (f : α → Except Crash β) :
    (Except.ok a >>= f) = f a :=
  rfl

/-- The buffer that `do_async_write` hands to `async_write`. -/
def writtenBuffer (P : Platform) (mesg : WrappedMessage) (buffer : List UInt8) : List UInt8 :=
  let byteSize := toInt (P.pb.serialize mesg).length
  serializeInto PREFIX_SIZE byteSize (P.pb.serialize mesg)
    (serializeInto 0 PREFIX_SIZE (serializePrefix (UInt64.ofInt byteSize))
      (buffer.takeD (writeSize P mesg) 0))

theorem doAsyncWrite_of_resize {mesg : WrappedMessage} {buffer : List UInt8}
    (hstop : s.stopped = false)
    (hresize : s.resizeBuffer P
      ((toInt (P.pb.serialize mesg).length + PREFIX_SIZE) % 2 ^ 64).toNat =
        .ok { s with readBuffer := buffer }) :
    ∃ frame, frame = serializeInto PREFIX_SIZE (toInt (P.pb.serialize mesg).length)
        (P.pb.serialize mesg) (serializeInto 0 PREFIX_SIZE
          (serializePrefix (UInt64.ofInt (toInt (P.pb.serialize mesg).length))) buffer) ∧
      s.doAsyncWrite P mesg =
        .ok (({ s with readBuffer := frame }.log
          (.writeStarted mesg frame)).add (.write frame)) := by
  rw [doAsyncWrite, if_neg (by rw [hstop]; exact Bool.false_ne_true)]
  generalize toInt (P.pb.serialize mesg).length = byteSize at hresize ⊢
  dsimp only
  rw [hresize]
  exact ⟨_, rfl, (ok_bind _ _).trans (by dsimp only)⟩

theorem doAsyncWrite_of_le {mesg : WrappedMessage} (hstop : s.stopped = false)
    (hsize : writeSize P mesg ≤ P.memory) :
    ∃ frame, frame = writtenBuffer P mesg s.readBuffer ∧ s.doAsyncWrite P mesg =
      .ok (({ s with readBuffer := frame }.log (.writeStarted mesg frame)).add (.write frame)) :=
  doAsyncWrite_of_resize hstop (resizeBuffer_of_le hsize)

end ClientSession

namespace Connection

open ClientSession

variable {P : Platform}

/-- The buffers of a real platform hold every frame with a size that is an `int`. -/
theorem size_le (hP : 2 ^ 31 + 8 ≤ P.memory) (hpb : P.pb.Generated) {r : Request}
    (h : Sendable P.pb r) : (P.pb.byteSize (.request r)).toNat ≤ P.memory := by
  obtain ⟨-, hlen, -⟩ := Sendable.size hpb h
  have hlt := h.2
  omega

/-- **Only failures stop a session.** -/
theorem Splits.running (hP : 2 ^ 31 + 8 ≤ P.memory) (hpb : P.pb.Generated)
    {requests : List Request} (hsend : ∀ r ∈ requests, Sendable P.pb r) {c c' : Connection}
    {e : PeerEvent} (hc : c.Splits P requests) (hholds : c.session.Holds)
    (h : c.step P e = some c') (he : ¬ e.Fails) : c'.session.stopped = false := by
  obtain ⟨item, o, hout, hstop, hm, -, hunread, unread, hevent, hstep⟩ :=
    handle_ok hholds (step_eq_some.mp h)
  obtain ⟨rest, hsplit, hbefore⟩ := hc
  obtain ⟨-, hneeds, -⟩ := hholds.of_token hstop hout
  have hrest : ∀ r ∈ rest, Sendable P.pb r := fun r hr => hsend r (by
    rw [hsplit]
    exact List.mem_append_right _ hr)
  have hbefore := hbefore hstop
  rw [Before, hout] at hbefore
  generalize c'.session = session' at hm hstep ⊢
  cases e with
  | readFailed i bytes => exact absurd trivial he
  | readDone i =>
    simp only [event, Option.bind_eq_bind, Option.bind_eq_some_iff] at hevent
    obtain ⟨item', hitem', size, hsize, hevent⟩ := hevent
    split_ifs at hevent with hle
    cases hevent
    rw [hout, List.getElem?_cons_zero, Option.some_inj] at hitem'
    subst hitem'
    cases item with
    | readPrefix =>
      cases hsize
      have hdata : (c.unread.take PREFIX_SIZE).length = PREFIX_SIZE := by
        rw [List.length_take]
        omega
      obtain ⟨r, rest', rfl, hhead, -⟩ :=
        exists_frame hrest hpb hdata (hbefore.symm.trans hunread)
      obtain ⟨hne, -, -⟩ := Sendable.size hpb (hrest r (List.mem_cons_self ..))
      obtain ⟨buffer, -, hgoes⟩ := step_readPrefix hstop hout hneeds hne
        (size_le hP hpb (hrest r (List.mem_cons_self ..)))
      rw [hhead, hgoes, Option.some_inj] at hstep
      rw [← hstep]
      exact hstop
    | readMessage n =>
      cases hsize
      have hdata : (c.unread.take n.toNat).length = n.toNat := by
        rw [List.length_take]
        omega
      rw [step_readMessage hstop hout hneeds hdata, Option.some_inj] at hstep
      rw [← hstep]
      exact hstop
    | parseCommandJob | requestJob | write => cases hsize
  | run i ret =>
    cases hevent
    cases item with
    | parseCommandJob body =>
      obtain ⟨r, rest', rfl, rfl, -⟩ := hbefore
      have hsendable := hrest r (List.mem_cons_self ..)
      have hlt : (P.pb.serialize (.request r)).length < 2 ^ 31 := by
        have hsize := hsendable.2
        omega
      have hparse : c.session.parseBuffer P = some (.request r) := by
        change c.session.readBuffer = _ at hneeds
        rw [parseBuffer, hneeds, toInt_of_lt hlt, P.pb.parse_serialize _ hlt]
      obtain ⟨job, hjob⟩ := hsendable.1.exists_job
      rw [step_parseCommandJob _ hout hparse hjob, Option.some_inj] at hstep
      rw [← hstep]
      exact hstop
    | requestJob request job =>
      cases hm with
      | ioFailed _ hitem _ =>
        rcases hitem with h | ⟨_, h⟩ | ⟨_, h⟩ <;> cases h
      | called | loggedIn | state _ | setState | wrote _ _ => exact hstop
    | readPrefix | readMessage | write =>
      rw [step_token hout] at hstep
      cases hstep
  | sent i err =>
    cases hevent
    cases err with
    | true => exact absurd rfl he
    | false =>
      cases item with
      | write frame =>
        rw [step_write hstop hout, Option.some_inj] at hstep
        rw [← hstep]
        exact hstop
      | readPrefix | readMessage | parseCommandJob | requestJob =>
        rw [step_token hout] at hstep
        cases hstep

/-! ### A run through all frames -/

theorem step_readDone {c : Connection} {item : Item} {data rest : List UInt8} {s' : ClientSession}
    (hout : c.session.outstanding = [item]) (hsize : item.size = some data.length)
    (hunread : c.unread = data ++ rest)
    (hstep : c.session.step P (.item 0 (.read false data)) = some s') :
    c.step P (.readDone 0) = some { c with session := s', unread := rest } := by
  rw [ClientSession.step_eq_some] at hstep
  have hle : data.length ≤ c.unread.length := by
    rw [hunread, List.length_append]
    omega
  rw [step_eq_some, handle, event, hout, List.getElem?_cons_zero]
  simp only [Option.bind_eq_bind, Option.bind_some, hsize, if_pos hle]
  rw [hunread, List.take_left' rfl, List.drop_left' rfl, hstep]
  rfl

theorem step_run {c : Connection} {ret : (c : StorageCall) → c.Result} {s' : ClientSession}
    (hstep : c.session.step P (.item 0 (.run ret)) = some s') :
    c.step P (.run 0 ret) = some { c with session := s' } := by
  rw [ClientSession.step_eq_some] at hstep
  rw [step_eq_some, handle, event, Option.bind_eq_bind, Option.bind_some]
  dsimp only
  rw [hstep]
  rfl

theorem step_sent {c : Connection} {err : Bool} {s' : ClientSession}
    (hstep : c.session.step P (.item 0 (.sent err)) = some s') :
    c.step P (.sent 0 err) = some { c with session := s' } := by
  rw [ClientSession.step_eq_some] at hstep
  rw [step_eq_some, handle, event, Option.bind_eq_bind, Option.bind_some]
  dsimp only
  rw [hstep]
  rfl

/-- What a request is answered with before any login, when the storage fails. -/
def refusal : Request → Response
  | .registerRequest _ => .statusResponse .rejected
  | .loginRequest _ => .loginResponse none
  | _ => .msgNotSet

theorem size_refusal (hpb : P.pb.Generated) (r : Request) :
    (P.pb.serialize (.response (refusal r))).length < 2 ^ 31 := by
  rw [hpb]
  have hsmall : refusal r = .statusResponse .rejected ∨ refusal r = .loginResponse none ∨
      refusal r = .msgNotSet := by
    cases r <;> simp [refusal]
  rcases hsmall with h | h | h <;> rw [h] <;> decide

/-- The first operation of a job, after which only the refusal is left to be written. -/
theorem exists_refusal {s : ClientSession} {r : Request} {job : JobM Unit}
    (hjob : requestJob r = some job) (hout : s.outstanding = [.requestJob r job])
    (hstate : s.clientState = none) :
    ∃ trace, dispatched trace = dispatched s.trace ∧
      s.step P (.item 0 (.run StorageCall.failure)) = some { s with
        outstanding := [.requestJob r (.write (.response (refusal r)) (.pure ()))]
        trace := trace } := by
  obtain ⟨stopped, state, buffer, outstanding, trace⟩ := s
  obtain rfl : state = none := hstate
  cases r with
  | registerRequest mesg =>
    cases hjob
    refine ⟨trace ++ [.called (.registration mesg.name mesg.email mesg.password) false],
      dispatched_concat fun _ h => (by cases h), ?_⟩
    rw [step_token hout]
    rfl
  | loginRequest mesg =>
    cases hjob
    refine ⟨trace ++ [.called (.login mesg.email mesg.password) (.error .other)],
      dispatched_concat fun _ h => (by cases h), ?_⟩
    rw [step_token hout]
    rfl
  | chatsRequest | contactsRequest | messagesRequest mesg | sendMesgRequest mesg
  | addContactRequest mesg | createChatRequest mesg =>
    cases hjob
    refine ⟨trace, rfl, ?_⟩
    rw [step_token hout]
    rfl
  | msgNotSet => cases hjob

theorem writeSize_of_lt {mesg : WrappedMessage} (hlt : (P.pb.serialize mesg).length < 2 ^ 31) :
    writeSize P mesg = PREFIX_SIZE + (P.pb.serialize mesg).length := by
  rw [writeSize, toInt_of_lt hlt, PREFIX_SIZE]
  omega

/-- A response of ordinary size is written. -/
theorem step_writeResponse (hP : 2 ^ 31 + 8 ≤ P.memory) {s : ClientSession} {request : Request}
    {r : Response} (ret : (c : StorageCall) → c.Result) (hstop : s.stopped = false)
    (hout : s.outstanding = [.requestJob request (.write (.response r) (.pure ()))])
    (hlt : (P.pb.serialize (.response r)).length < 2 ^ 31) :
    ∃ frame, s.step P (.item 0 (.run ret)) =
      some (s.advance frame (.write frame) (.writeStarted (.response r) frame)) := by
  have hsize : writeSize P (.response r) ≤ P.memory := by
    rw [writeSize_of_lt hlt, PREFIX_SIZE]
    omega
  obtain ⟨frame, -, hwrite⟩ := doAsyncWrite_of_le (s := { s with outstanding := [] }) hstop hsize
  refine ⟨frame, ?_⟩
  rw [step_token hout, handleItem, runJob, hwrite]
  simp only [add, log, advance, List.nil_append]
  rfl

/-- A session that has not logged in and has dispatched `served`, with its token and what is unread
of its stream. -/
structure Runs (c : Connection) (item : Item) (served : List Request) (unread : List UInt8) :
    Prop where
  running : c.session.stopped = false
  outstanding : c.session.outstanding = [item]
  needs : Needs c.session.readBuffer item
  loggedOut : c.session.clientState = none
  dispatched : dispatched c.session.trace = served
  unread : c.unread = unread

/-- A token that is handed on. -/
theorem Runs.advance {c : Connection} {item item' : Item} {served served' : List Request}
    {unread unread' : List UInt8} {a : Action} (h : Runs c item served unread)
    (buffer : List UInt8) (hneeds : Needs buffer item')
    (hserved : ClientSession.dispatched (c.session.trace ++ [a]) = served') :
    Runs ⟨c.session.advance buffer item' a, c.stream, unread'⟩ item' served' unread' :=
  ⟨h.running, rfl, hneeds, h.loggedOut, hserved, rfl⟩

/-- One frame is read and answered. -/
theorem exists_run_frame (hP : 2 ^ 31 + 8 ≤ P.memory) (hpb : P.pb.Generated) {r : Request}
    {served rest : List Request} (hsend : Sendable P.pb r) {c : Connection}
    (hc : Runs c .readPrefix served (requestFrames P.pb (r :: rest))) :
    ∃ es c', run (step P) c es = some c' ∧ (∀ e ∈ es, ¬ e.Fails) ∧
      Runs c' .readPrefix (served ++ [r]) (requestFrames P.pb rest) := by
  obtain ⟨hne, hlen, hhead⟩ := Sendable.size hpb hsend
  obtain ⟨job, hjob⟩ := hsend.1.exists_job
  have hlt : (P.pb.serialize (.request r)).length < 2 ^ 31 := by
    have hsize := hsend.2
    omega
  have hsame : ∀ {c : Connection} {item : Item} {served : List Request} {unread : List UInt8}
      (a : Action), Runs c item served unread → (∀ r, a ≠ .dispatched r) →
      ClientSession.dispatched (c.session.trace ++ [a]) = served := fun a h ha =>
    (dispatched_concat ha).trans h.dispatched
  rw [requestFrames_cons] at hc
  -- the prefix
  obtain ⟨buffer, hbuffer, hstep⟩ :=
    step_readPrefix hc.running hc.outstanding hc.needs hne (size_le hP hpb hsend)
  have h₁ := step_readDone hc.outstanding (by rw [hhead]; rfl) hc.unread hstep
  have hc₁ : Runs ⟨_, _, P.pb.serialize (.request r) ++ requestFrames P.pb rest⟩
      (.readMessage (P.pb.byteSize (.request r))) served _ :=
    hc.advance buffer hbuffer (hsame (.readStarted (P.pb.byteSize (.request r)).toNat) hc
      (fun _ heq => (by cases heq)))
  generalize (⟨_, _, _⟩ : Connection) = c₁ at h₁ hc₁
  -- the message
  have hstep := step_readMessage (P := P) hc₁.running hc₁.outstanding hc₁.needs hlen.symm
  have h₂ := step_readDone hc₁.outstanding (by rw [← hlen]; rfl) hc₁.unread hstep
  have hc₂ : Runs ⟨_, _, requestFrames P.pb rest⟩
      (.parseCommandJob (P.pb.serialize (.request r))) served _ :=
    hc₁.advance _ rfl (hsame .jobPosted hc₁ (fun _ heq => (by cases heq)))
  generalize (⟨_, _, _⟩ : Connection) = c₂ at h₂ hc₂
  -- the parse job
  have hparse : c₂.session.parseBuffer P = some (.request r) := by
    have hbuffer : c₂.session.readBuffer = P.pb.serialize (.request r) := hc₂.needs
    rw [parseBuffer, hbuffer, toInt_of_lt hlt, P.pb.parse_serialize _ hlt]
  have h₃ := step_run (step_parseCommandJob StorageCall.failure hc₂.outstanding hparse hjob)
  have hc₃ : Runs ⟨_, _, requestFrames P.pb rest⟩ (.requestJob r job) (served ++ [r]) _ :=
    hc₂.advance c₂.session.readBuffer trivial (dispatched_dispatched hc₂.dispatched r)
  rw [hc₂.unread] at h₃
  generalize (⟨_, _, _⟩ : Connection) = c₃ at h₃ hc₃
  -- the request job
  obtain ⟨trace, htrace, hstep⟩ := exists_refusal (P := P) hjob hc₃.outstanding hc₃.loggedOut
  have h₄ := step_run hstep
  have hc₄ : Runs { c₃ with session := { c₃.session with
      outstanding := [.requestJob r (.write (.response (refusal r)) (.pure ()))]
      trace := trace } } _ (served ++ [r]) (requestFrames P.pb rest) :=
    ⟨hc₃.running, rfl, trivial, hc₃.loggedOut, htrace.trans hc₃.dispatched, hc₃.unread⟩
  generalize ({ c₃ with session := _ } : Connection) = c₄ at h₄ hc₄
  obtain ⟨frame, hstep⟩ := step_writeResponse hP StorageCall.failure hc₄.running
    hc₄.outstanding (size_refusal hpb r)
  have h₅ := step_run hstep
  have hc₅ : Runs ⟨_, _, requestFrames P.pb rest⟩ (.write frame) (served ++ [r]) _ :=
    hc₄.advance _ rfl (hsame (.writeStarted (.response (refusal r)) frame) hc₄
      (fun _ heq => (by cases heq)))
  rw [hc₄.unread] at h₅
  generalize (⟨_, _, _⟩ : Connection) = c₅ at h₅ hc₅
  -- the end of the write
  have h₆ := step_sent (step_write (P := P) hc₅.running hc₅.outstanding)
  have hc₆ : Runs ⟨_, _, requestFrames P.pb rest⟩ .readPrefix (served ++ [r]) _ :=
    hc₅.advance (c₅.session.readBuffer.takeD PREFIX_SIZE 0) (List.takeD_length ..)
      (hsame (.readStarted PREFIX_SIZE) hc₅ (fun _ heq => (by cases heq)))
  rw [hc₅.unread] at h₆
  refine ⟨[.readDone 0, .readDone 0, .run 0 StorageCall.failure, .run 0 StorageCall.failure,
    .run 0 StorageCall.failure, .sent 0 false], _, ?_, ?_, hc₆⟩
  · rw [run_cons_of_step h₁, run_cons_of_step h₂, run_cons_of_step h₃, run_cons_of_step h₄,
      run_cons_of_step h₅, run_cons_of_step h₆, run_nil]
  · simp [PeerEvent.Fails]

/-- All frames are read and answered. -/
theorem exists_run_frames (hP : 2 ^ 31 + 8 ≤ P.memory) (hpb : P.pb.Generated)
    {requests served : List Request} (hsend : ∀ r ∈ requests, Sendable P.pb r) {c : Connection}
    (hc : Runs c .readPrefix served (requestFrames P.pb requests)) :
    ∃ es c', run (step P) c es = some c' ∧ (∀ e ∈ es, ¬ e.Fails) ∧
      Runs c' .readPrefix (served ++ requests) [] := by
  induction requests generalizing served c with
  | nil => exact ⟨[], c, rfl, fun _ h => (by cases h), by rwa [List.append_nil]⟩
  | cons r requests ih =>
    obtain ⟨es₁, c₁, hrun₁, hes₁, hc₁⟩ :=
      exists_run_frame hP hpb (hsend r (List.mem_cons_self ..)) hc
    obtain ⟨es₂, c₂, hrun₂, hes₂, hc₂⟩ :=
      ih (fun r' hr' => hsend r' (List.mem_cons_of_mem _ hr')) hc₁
    refine ⟨es₁ ++ es₂, c₂, ?_, fun e he => ?_, ?_⟩
    · rw [run_append, hrun₁, Option.bind_some, hrun₂]
    · exact (List.mem_append.mp he).elim (hes₁ e) (hes₂ e)
    · rwa [List.append_assoc] at hc₂

/-- The read loop takes the stream apart into the frames of the requests, and reads nothing else. -/
structure Delivers (P : Platform) (requests : List Request) (stream : List UInt8) : Prop where
  /-- Whatever happens, what has been dispatched are the first requests, and what has been read are
  their frames and the part of the next one that is being handled. -/
  splits : ∀ es c, run (step P) (accepted stream) es = some c → c.Splits P requests
  /-- Only reads and writes that fail stop the session. -/
  running : ∀ es c, (∀ e ∈ es, ¬ e.Fails) → run (step P) (accepted stream) es = some c →
    c.session.stopped = false
  /-- In front of the next prefix, all has been read exactly if all has been dispatched. -/
  complete : ∀ es c, run (step P) (accepted stream) es = some c → c.session.stopped = false →
    c.session.outstanding = [.readPrefix] →
      (c.unread = [] ↔ dispatched c.session.trace = requests)
  /-- All is dispatched unless something fails. -/
  reaches : ∃ es c, run (step P) (accepted stream) es = some c ∧ (∀ e ∈ es, ¬ e.Fails) ∧
    c.session.stopped = false ∧ dispatched c.session.trace = requests ∧ c.unread = []

theorem requestFrames_eq_nil {requests : List Request}
    (hpb : P.pb.Generated) (hsend : ∀ r ∈ requests, Sendable P.pb r) :
    requestFrames P.pb requests = [] ↔ requests = [] := by
  constructor
  · intro h
    cases requests with
    | nil => rfl
    | cons r requests =>
      obtain ⟨-, -, hlen⟩ := Sendable.size hpb (hsend r (List.mem_cons_self ..))
      rw [requestFrames_cons, List.append_eq_nil_iff] at h
      rw [h.1] at hlen
      cases hlen
  · rintro rfl
    rfl

/-- A session keeps its place in every run. -/
theorem splits_of_run (hpb : P.pb.Generated) {requests : List Request}
    (hsend : ∀ r ∈ requests, Sendable P.pb r) {c c' : Connection} {es : List PeerEvent}
    (hc : c.Splits P requests ∧ c.session.Holds) (hrun : run (step P) c es = some c') :
    c'.Splits P requests ∧ c'.session.Holds := by
  refine invariant_of_run (I := fun c => c.Splits P requests ∧ c.session.Holds)
    (fun c e c' hc hstep => ?_) hc hrun
  obtain ⟨item, o, -, -, -, -, -, unread, -, hsession⟩ := handle_ok hc.2 (step_eq_some.mp hstep)
  exact ⟨hc.1.of_step hpb hsend hc.2 hstep, step_holds _ _ _ hc.2 hsession⟩

theorem running_of_run (hP : 2 ^ 31 + 8 ≤ P.memory) (hpb : P.pb.Generated)
    {requests : List Request} (hsend : ∀ r ∈ requests, Sendable P.pb r) {c c' : Connection}
    {es : List PeerEvent} (hes : ∀ e ∈ es, ¬ e.Fails)
    (hc : c.Splits P requests ∧ c.session.Holds) (hstop : c.session.stopped = false)
    (hrun : run (step P) c es = some c') : c'.session.stopped = false := by
  induction es generalizing c with
  | nil =>
    cases hrun
    exact hstop
  | cons e es ih =>
    rw [run_cons, Option.bind_eq_some_iff] at hrun
    obtain ⟨c₁, hstep, hrun⟩ := hrun
    have hc₁ : c₁.Splits P requests ∧ c₁.session.Holds :=
      splits_of_run hpb hsend hc (run_cons_of_step hstep [])
    have hstop₁ := hc.1.running hP hpb hsend hc.2 hstep (hes e (List.mem_cons_self ..))
    exact ih (fun e' he' => hes e' (List.mem_cons_of_mem _ he')) hc₁ hstop₁ hrun

/-- **Requests.** The frames of requests are taken apart into the requests. -/
theorem delivers_requestFrames (hP : 2 ^ 31 + 8 ≤ P.memory) (hpb : P.pb.Generated)
    {requests : List Request} (hsend : ∀ r ∈ requests, Sendable P.pb r) :
    Delivers P requests (requestFrames P.pb requests) := by
  have hstart : (accepted (requestFrames P.pb requests)).Splits P requests ∧ begun.Holds :=
    ⟨⟨requests, rfl, fun _ => rfl⟩, begun_holds⟩
  refine ⟨fun es c h => (splits_of_run hpb hsend hstart h).1,
    fun es c hes h => running_of_run hP hpb hsend hes hstart rfl h, fun es c h hstop hout => ?_, ?_⟩
  · obtain ⟨⟨rest, hsplit, hbefore⟩, -⟩ := splits_of_run hpb hsend hstart h
    have hunread := hbefore hstop
    rw [Before, hout] at hunread
    have hrest := requestFrames_eq_nil hpb fun r hr => hsend r (by
      rw [hsplit]
      exact List.mem_append_right _ hr)
    rw [hunread, hrest, hsplit, List.self_eq_append_right]
  · obtain ⟨es, c, hrun, hes, hc⟩ := exists_run_frames hP hpb hsend
      (c := accepted (requestFrames P.pb requests))
      ⟨rfl, rfl, rfl, rfl, rfl, rfl⟩
    exact ⟨es, c, hrun, hes, hc.running, hc.dispatched, hc.unread⟩

end Connection

/-! ### Responses -/

namespace ClientSession

variable (P : Platform)

/-- What `do_async_write` produces for the response is read back by the client, byte for byte,
whatever follows it in the stream. -/
def Recovered (r : Response) (s : ClientSession) : Prop :=
  ∃ s' frame, s.doAsyncWrite P (.response r) = .ok s' ∧
    s'.outstanding = s.outstanding ++ [.write frame] ∧ PREFIX_SIZE ≤ frame.length ∧
    ∀ (client : Session) rest, client.sock.incoming = frame ++ rest → ∃ client₁ client₂,
      client.readPrefix P.pb = some ((frame.length - PREFIX_SIZE : ℤ), client₁) ∧
      client₁.sock.incoming = frame.drop PREFIX_SIZE ++ rest ∧
      client₁.readMessage P.pb (frame.length - PREFIX_SIZE) = some (some (.response r), client₂) ∧
      client₂.sock.incoming = rest

variable {P} {s : ClientSession} {mesg : WrappedMessage}

theorem doAsyncWrite_ok_iff (hstop : s.stopped = false) {s' : ClientSession}
    (h : s.doAsyncWrite P mesg = .ok s') : writeSize P mesg ≤ P.memory := by
  rw [doAsyncWrite, hstop, if_neg Bool.false_ne_true] at h
  obtain ⟨t, hr, -⟩ := bind_ok h
  exact (resizeBuffer_ok hr).1

/-- A message of two gigabytes or more is not serialised, and its announced size is smaller. -/
theorem length_writtenBuffer (hlarge : 2 ^ 31 ≤ (P.pb.serialize mesg).length)
    (hsize : writeSize P mesg ≤ P.memory) (buffer : List UInt8) :
    (writtenBuffer P mesg buffer).length ≤ 2 ^ 31 + 8 := by
  have hint : toInt (P.pb.serialize mesg).length < 2 ^ 31 := toInt_lt _
  have hlow : -2 ^ 31 ≤ toInt (P.pb.serialize mesg).length := by
    rw [toInt, Int.bmod_def]
    split_ifs <;> omega
  have hmax := P.memory_le.trans_lt P.maxSize_lt
  have hwrite : writeSize P mesg ≤ 2 ^ 31 + 8 := by
    rw [writeSize, PREFIX_SIZE] at hsize ⊢
    omega
  rw [writtenBuffer, serializeInto, if_neg (by omega), serializeInto]
  split_ifs with hprefix
  · rw [store, List.length_append, List.length_append, List.length_take, List.length_drop,
      List.takeD_length]
    rw [PREFIX_SIZE] at hprefix
    omega
  · rw [List.takeD_length]
    exact hwrite

/-- **Responses.** Whatever the buffer held before, a response is read back exactly if its
serialisation has less than two gigabytes. -/
theorem recovered_iff (hP : 2 ^ 31 + 8 ≤ P.memory) (hpb : P.pb.Generated) (hmin : P.pb.Minimal)
    (hstop : s.stopped = false) (r : Response) :
    s.Recovered P r ↔ (P.pb.serialize (.response r)).length < 2 ^ 31 := by
  have hpos : 0 < (P.pb.serialize (.response r)).length := hpb.serialize_pos fun h => by cases h
  constructor
  · rintro ⟨s', frame, hwrite, hout, hlen, hback⟩
    by_contra hlarge
    have hsize := doAsyncWrite_ok_iff hstop hwrite
    obtain ⟨frame', hframe', hwrite'⟩ := doAsyncWrite_of_le hstop hsize
    obtain rfl := Except.ok.inj (hwrite.symm.trans hwrite')
    have heq : frame' = frame :=
      Item.write.inj (List.singleton_inj.mp (List.append_cancel_left hout))
    have hsmall := length_writtenBuffer (not_lt.mp hlarge) hsize s.readBuffer
    rw [← hframe', heq] at hsmall
    -- the client would have to parse the response from fewer bytes than it has
    obtain ⟨client₁, client₂, -, -, hread, -⟩ :=
      hback { Session.initial with sock := { connected := true, incoming := frame } } []
        (List.append_nil _).symm
    obtain ⟨-, hparse, -, -⟩ := Session.readMessage_some hread
    have hexcess := WrappedMessage.excess_eq_zero (m := .response r) (by rw [← hpb]; omega)
    have hle := hmin _ _ hparse.symm
    rw [hexcess, List.length_take, PREFIX_SIZE] at hle
    rw [PREFIX_SIZE] at hlen
    omega
  · intro hlt
    have hlt' : (P.pb.serialize (.response r)).length < 2 ^ 64 := hlt.trans (by decide)
    have hsize := Connection.writeSize_of_lt hlt
    have hmax : writeSize P (.response r) ≤ P.memory := by
      rw [hsize, PREFIX_SIZE]
      omega
    obtain ⟨frame, hwritten, hwrite⟩ := doAsyncWrite_of_le hstop hmax
    have hframe : frame = P.pb.frame (.response r) := by
      rw [hwritten, writtenBuffer, toInt_of_lt hlt]
      exact Protobuf.serializeInto_frame hpos hlt (by rw [List.takeD_length, hsize])
    have hne := Protobuf.byteSize_ne hpos hlt'
    have hhead := length_serializePrefix hne
    have hlen := Protobuf.length_frame hpos hlt'
    refine ⟨_, frame, hwrite, rfl, ?_, fun client rest hin => ?_⟩
    · rw [hframe, hlen]
      omega
    rw [hframe] at hin ⊢
    have hbody : ((P.pb.frame (.response r)).length : ℤ) - PREFIX_SIZE =
        (P.pb.serialize (.response r)).length := by
      rw [hlen]
      omega
    have hdrop : (P.pb.frame (.response r)).drop PREFIX_SIZE = P.pb.serialize (.response r) := by
      rw [Protobuf.frame, List.drop_left' hhead]
    have havail : PREFIX_SIZE ≤ client.sock.incoming.length := by
      rw [hin, List.length_append, hlen]
      omega
    rw [hbody, hdrop]
    have htake : client.sock.incoming.take PREFIX_SIZE =
        serializePrefix (P.pb.byteSize (.response r)) := by
      rw [hin, Protobuf.frame, List.append_assoc, List.take_left' hhead]
    have htail : client.prefixTaken.sock.incoming = P.pb.serialize (.response r) ++ rest := by
      rw [Session.prefixTaken, hin, Protobuf.frame, List.append_assoc, List.drop_left' hhead]
    have hprefix := Session.readPrefix_eq P.pb havail
    rw [htake, P.pb.parsePrefix_serializePrefix _ hne] at hprefix
    dsimp only at hprefix
    rw [Protobuf.toNat_byteSize hlt', toQInt64_of_lt (hlt.trans (by decide))] at hprefix
    obtain ⟨⟨m, client₂⟩, hread⟩ :=
      Option.isSome_iff_exists.mp (Session.readMessage_isSome hlt client.prefixTaken)
    obtain ⟨-, hm, hsock, -⟩ := Session.readMessage_some hread
    rw [htail, Int.toNat_natCast, List.take_left' rfl, P.pb.parse_serialize' hlt] at hm
    subst hm
    refine ⟨_, client₂, hprefix, htail, hread, ?_⟩
    rw [hsock, htail, Int.toNat_natCast]
    exact List.drop_left' rfl

end ClientSession

/-! ### Both directions -/

open NetworkSession Connection

/-- **The two codecs.** What the client writes for the requests of a connection is taken apart by
the server into these requests, and a response is read back by the client exactly if its
serialisation has less than two gigabytes. -/
theorem codecs_iff {P : Platform} (hP : 2 ^ 31 + 8 ≤ P.memory) (hpb : P.pb.Generated)
    (hmin : P.pb.Minimal) :
    (∀ (s s' : NetworkSession) (es : List NetworkSession.Event), (∀ e ∈ es, e.Local) →
      (∀ r ∈ requestsOf es, Sendable P.pb r) →
      run (NetworkSession.step P.pb) s.connect es = some s' → s'.session.sock.connected = true →
        Delivers P (requestsOf es) s'.sent) ∧
    (∀ (s : NetworkSession) (requests : List Request) (callback : ℕ),
      (∀ r ∈ requests, Sendable P.pb r) →
        ∃ s', run (NetworkSession.step P.pb) s.connect
            (requests.map fun r => .request r callback) = some s' ∧
          Delivers P requests s'.sent) ∧
    ∀ (s : ClientSession) (r : Response), s.stopped = false →
      (s.Recovered P r ↔ (P.pb.serialize (.response r)).length < 2 ^ 31) := by
  have hdelivers : ∀ (s s' : NetworkSession) (es : List NetworkSession.Event),
      (∀ e ∈ es, e.Local) → (∀ r ∈ requestsOf es, Sendable P.pb r) →
      run (NetworkSession.step P.pb) s.connect es = some s' → s'.session.sock.connected = true →
        Delivers P (requestsOf es) s'.sent := by
    intro s s' es hes hsend hrun hconn
    obtain ⟨-, hsent⟩ := sent_of_run hpb hes hsend hrun hconn
    rw [hsent]
    exact delivers_requestFrames hP hpb hsend
  refine ⟨hdelivers, fun s requests callback hsend => ?_,
    fun s r hstop => ClientSession.recovered_iff hP hpb hmin hstop r⟩
  obtain ⟨s', hrun, hconn⟩ := exists_run_requests hpb hsend callback (s := s.connect) rfl
  have hlocal : ∀ e ∈ requests.map fun r => NetworkSession.Event.request r callback, e.Local := by
    intro e he
    obtain ⟨r, -, rfl⟩ := List.mem_map.mp he
    trivial
  have hmap := requestsOf_map requests callback
  refine ⟨s', hrun, ?_⟩
  have h := hdelivers s s' _ hlocal (by rwa [hmap]) hrun hconn
  rwa [hmap] at h

theorem Platform.proto3_memory : 2 ^ 31 + 8 ≤ Platform.proto3.memory := by decide

/-- A login with empty credentials and a request for the chats, and the empty response. -/
theorem codecs_defaults :
    (∃ s', run (NetworkSession.step proto3) constructed.connect
        [.request (MessageFactory.createLoginRequest "" "") 0,
          .request MessageFactory.createAllMyChatsRequest 0] = some s' ∧
      Delivers Platform.proto3
        [MessageFactory.createLoginRequest "" "", MessageFactory.createAllMyChatsRequest]
        s'.sent) ∧
    ClientSession.begun.Recovered Platform.proto3 .msgNotSet := by
  obtain ⟨-, hrequests, hresponses⟩ :=
    codecs_iff (P := Platform.proto3) Platform.proto3_memory proto3_generated proto3_minimal
  refine ⟨hrequests constructed [MessageFactory.createLoginRequest "" "",
    MessageFactory.createAllMyChatsRequest] 0 fun r hr => ?_,
    (hresponses ClientSession.begun .msgNotSet rfl).mpr (by decide)⟩
  rcases List.mem_pair.mp hr with rfl | rfl
  · exact ⟨.login "" "", by decide⟩
  · exact ⟨.chats, by decide⟩

/-- The answer to a request for the messages of a large chat. -/
def largeChat : Response :=
  .messagesResponse (List.replicate (2 ^ 27) { senderId := 1, text := "sixteen letters." })

theorem length_largeChat : 2 ^ 31 ≤ (WrappedMessage.response largeChat).encode.length := by
  have htext : ∀ count, ∀ m ∈ List.replicate count (⟨1, "sixteen letters."⟩ : MessageToRecieve),
      16 ≤ m.encode.length := by
    intro count m hm
    rw [List.eq_of_mem_replicate hm]
    decide
  rw [largeChat]
  generalize hcount : (2 : ℕ) ^ 27 = count
  by_contra hsmall
  have hsmall := Wire.length_lt_of_encodeOneof (Wire.length_lt_of_encodeOneof (not_le.mp hsmall))
  have hle := Wire.mul_le_length_encodeRepeated (htext count)
  rw [List.length_replicate] at hle
  have hlt := lt_of_le_of_lt hle hsmall
  omega

/-- The messages of a large chat are not read back. -/
theorem not_recovered_largeChat : ¬ ClientSession.begun.Recovered Platform.proto3 largeChat := by
  intro h
  rw [ClientSession.recovered_iff Platform.proto3_memory proto3_generated proto3_minimal rfl] at h
  exact absurd h (not_lt.mpr length_largeChat)

end Elegram
