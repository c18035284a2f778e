import Elegram.Server.Session
import Mathlib.Data.List.Forall2

/-!
# One thing at a time

Every handler and every job of a session ends by starting exactly one successor or by stopping
the session. So the entry of `outstanding` is a token that is handed on, and the invariant
`Invariant` says where it is and what the session has done when it is there.

`step_moves` is the only place where handlers are unfolded: from a state that satisfies the
invariant, an event moves the token along one of the constructors of `Moves`.
-/

namespace Elegram

open Transition

/-! ### Jobs write once -/

/-- On every path the program writes one message that satisfies `Q`, as its last operation. -/
inductive JobM.WritesOnce (Q : WrappedMessage → Prop) : JobM Unit → Prop
  | call {c : StorageCall} {k : c.Result → JobM Unit} (h : ∀ r, WritesOnce Q (k r)) :
      WritesOnce Q (.call c k)
  | loggedIn {k : Bool → JobM Unit} (h : ∀ b, WritesOnce Q (k b)) : WritesOnce Q (.loggedIn k)
  | state {k : ClientState → JobM Unit} (h : ∀ st, WritesOnce Q (k st)) : WritesOnce Q (.state k)
  | setState {st : ClientState} {k : JobM Unit} (h : WritesOnce Q k) : WritesOnce Q (.setState st k)
  | write {mesg : WrappedMessage} (h : Q mesg) : WritesOnce Q (.write mesg (.pure ()))

/-- The responses that answer a request. -/
def Answers : Request → WrappedMessage → Prop
  | .registerRequest _, m => ∃ result, m = .response (.statusResponse result)
  | .loginRequest _, m => ∃ profile, m = .response (.loginResponse profile)
  | .chatsRequest, m => m = .response .msgNotSet ∨ ∃ chats, m = .response (.chatsResponse chats)
  | .contactsRequest, m =>
      m = .response .msgNotSet ∨ ∃ contacts, m = .response (.contactsResponse contacts)
  | .messagesRequest _, m =>
      m = .response .msgNotSet ∨ ∃ messages, m = .response (.messagesResponse messages)
  | .sendMesgRequest _, m | .addContactRequest _, m | .createChatRequest _, m =>
      m = .response .msgNotSet ∨ ∃ result, m = .response (.statusResponse result)
  | .msgNotSet, _ => False

/-- A job that requires a login answers with an empty response otherwise. -/
theorem whenLoggedIn_writesOnce {Q : WrappedMessage → Prop} {body : JobM Response}
    (hbody : (body >>= write).WritesOnce Q) (hempty : Q (.response .msgNotSet)) :
    (whenLoggedIn body).WritesOnce Q := by
  refine .loggedIn fun b => ?_
  cases b with
  | false => exact .write hempty
  | true => exact hbody

/-- The job of a request writes one answer to it. -/
theorem requestJob_writesOnce {request : Request} {job : JobM Unit}
    (h : requestJob request = some job) : job.WritesOnce (Answers request) := by
  cases request with
  | registerRequest mesg =>
    cases h
    exact .call fun _ => .write ⟨_, rfl⟩
  | loginRequest mesg =>
    cases h
    refine .call fun result => ?_
    match result with
    | .ok _ => exact .setState (.state fun _ => .write ⟨_, rfl⟩)
    | .error .invalidArgument => exact .write ⟨_, rfl⟩
    | .error .other => exact .write ⟨_, rfl⟩
  | chatsRequest | contactsRequest =>
    cases h
    exact whenLoggedIn_writesOnce (.state fun _ => .call fun _ => .write (.inr ⟨_, rfl⟩))
      (.inl rfl)
  | messagesRequest mesg =>
    cases h
    exact whenLoggedIn_writesOnce (.call fun _ => .write (.inr ⟨_, rfl⟩)) (.inl rfl)
  | sendMesgRequest mesg | addContactRequest mesg =>
    cases h
    exact whenLoggedIn_writesOnce (.state fun _ => .call fun _ => .write (.inr ⟨_, rfl⟩))
      (.inl rfl)
  | createChatRequest mesg =>
    cases h
    exact whenLoggedIn_writesOnce
      (.state fun _ => .state fun _ => .call fun _ => .write (.inr ⟨_, rfl⟩)) (.inl rfl)
  | msgNotSet => cases h

/-! ### The token moves -/

namespace ClientSession

/-- The session drops its token and stops. -/
def halted (buffer : List UInt8) (s : ClientSession) : ClientSession :=
  { s with
    stopped := true, readBuffer := buffer, outstanding := [], trace := s.trace ++ [.stopped] }

/-- The session hands its token on to `item`, which is recorded as `a`. -/
def advance (buffer : List UInt8) (item : Item) (a : Action) (s : ClientSession) : ClientSession :=
  { s with readBuffer := buffer, outstanding := [item], trace := s.trace ++ [a] }

variable (P : Platform)

/-- The frame that `do_async_write` builds is well formed for a message of ordinary size. -/
def FrameOf (mesg : WrappedMessage) (frame : List UInt8) : Prop :=
  0 < (P.pb.serialize mesg).length → (P.pb.serialize mesg).length < 2 ^ 31 →
    frame = P.pb.frame mesg

/-- The size to which `do_async_write` resizes the buffer. -/
def writeSize (mesg : WrappedMessage) : ℕ :=
  ((toInt (P.pb.serialize mesg).length + PREFIX_SIZE) % 2 ^ 64).toNat

/-- What an event does to a session whose token is `item`. -/
inductive Moves (s : ClientSession) : Item → Outcome → ClientSession → Prop
  /-- A read or write fails, or the prefix does not parse. -/
  | ioFailed {item : Item} {o : Outcome} (buffer : List UInt8)
      (hitem : item = .readPrefix ∨ (∃ n, item = .readMessage n) ∨ ∃ frame, item = .write frame)
      (hread : ∀ data, item = .readPrefix → o = .read false data → data.length = PREFIX_SIZE →
        P.pb.parsePrefix data = none) :
      Moves s item o (s.halted buffer)
  | prefixRead {data buffer : List UInt8} {n : UInt64} (hdata : data.length = PREFIX_SIZE)
      (hparse : P.pb.parsePrefix data = some n) (hsize : n.toNat ≤ P.memory)
      (hbuffer : buffer.length = n.toNat) :
      Moves s .readPrefix (.read false data)
        (s.advance buffer (.readMessage n) (.readStarted n.toNat))
  | messageRead {data : List UInt8} {n : UInt64} (hdata : data.length = n.toNat) :
      Moves s (.readMessage n) (.read false data)
        (s.advance data (.parseCommandJob data) .jobPosted)
  /-- The buffer holds no request that the server supports. -/
  | refused {body : List UInt8} {ret : (c : StorageCall) → c.Result}
      (h : ∀ request job, s.parseBuffer P = some (.request request) →
        requestJob request ≠ some job) :
      Moves s (.parseCommandJob body) (.run ret) (s.halted s.readBuffer)
  | dispatched {body : List UInt8} {ret : (c : StorageCall) → c.Result} {request : Request}
      {job : JobM Unit} (hparse : s.parseBuffer P = some (.request request))
      (hjob : requestJob request = some job) :
      Moves s (.parseCommandJob body) (.run ret)
        (s.advance s.readBuffer (.requestJob request job) (.dispatched request))
  | called {request : Request} {c : StorageCall} {k : c.Result → JobM Unit}
      {ret : (c : StorageCall) → c.Result} :
      Moves s (.requestJob request (.call c k)) (.run ret)
        (s.advance s.readBuffer (.requestJob request (k (ret c))) (.called c (ret c)))
  | loggedIn {request : Request} {k : Bool → JobM Unit} {ret : (c : StorageCall) → c.Result} :
      Moves s (.requestJob request (.loggedIn k)) (.run ret)
        { s with outstanding := [.requestJob request (k s.clientState.isSome)] }
  | state {request : Request} {k : ClientState → JobM Unit} {ret : (c : StorageCall) → c.Result}
      {st : ClientState} (h : s.clientState = some st) :
      Moves s (.requestJob request (.state k)) (.run ret)
        { s with outstanding := [.requestJob request (k st)] }
  | setState {request : Request} {st : ClientState} {k : JobM Unit}
      {ret : (c : StorageCall) → c.Result} :
      Moves s (.requestJob request (.setState st k)) (.run ret)
        { s with clientState := some st, outstanding := [.requestJob request k] }
  | wrote {request : Request} {mesg : WrappedMessage} {ret : (c : StorageCall) → c.Result}
      {frame : List UInt8} (hsize : writeSize P mesg ≤ P.memory) (hframe : FrameOf P mesg frame) :
      Moves s (.requestJob request (.write mesg (.pure ()))) (.run ret)
        (s.advance frame (.write frame) (.writeStarted mesg frame))
  | sent {frame buffer : List UInt8} (hbuffer : buffer.length = PREFIX_SIZE) :
      Moves s (.write frame) (.sent false)
        (s.advance buffer .readPrefix (.readStarted PREFIX_SIZE))

/-- The exception with which a resize to a size beyond `P.memory` ends the process. -/
def tooLarge (size : ℕ) : Crash := if P.maxSize < size then .lengthError else .badAlloc

theorem tooLarge_ne (size : ℕ) : tooLarge P size ≠ .assertionFailed := by
  rw [tooLarge]
  split_ifs <;> exact nofun

/-- How an event ends the process. -/
inductive Crashes (s : ClientSession) : Item → Outcome → Crash → Prop
  | announced {data : List UInt8} {n : UInt64} (hdata : data.length = PREFIX_SIZE)
      (hparse : P.pb.parsePrefix data = some n) (hsize : P.memory < n.toNat) {c : Crash}
      (hc : c = tooLarge P n.toNat) : Crashes s .readPrefix (.read false data) c
  | state {request : Request} {k : ClientState → JobM Unit} {ret : (c : StorageCall) → c.Result}
      (h : s.clientState = none) :
      Crashes s (.requestJob request (.state k)) (.run ret) .assertionFailed
  | response {request : Request} {mesg : WrappedMessage} {k : JobM Unit}
      {ret : (c : StorageCall) → c.Result} (hsize : P.memory < writeSize P mesg) {c : Crash}
      (hc : c = tooLarge P (writeSize P mesg)) :
      Crashes s (.requestJob request (.write mesg k)) (.run ret) c

/-- What the buffer holds while `item` is outstanding: room for the bytes that are being read,
or the bytes that are to be parsed or written. -/
def Needs (buffer : List UInt8) : Item → Prop
  | .readPrefix => buffer.length = PREFIX_SIZE
  | .readMessage n => buffer.length = n.toNat
  | .parseCommandJob body => buffer = body
  | .requestJob _ _ => True
  | .write frame => buffer = frame

/-- The token of the session: at most one entry, none when the session has stopped, and the job
of a token still has its one message to write. -/
inductive Holds (s : ClientSession) : Prop
  | unstarted (h : s = fresh)
  | halted (hstop : s.stopped = true) (hout : s.outstanding = []) (htrace : s.trace ≠ [])
  | token (item : Item) (hstop : s.stopped = false) (hout : s.outstanding = [item])
      (htrace : s.trace ≠ []) (hbuffer : Needs s.readBuffer item)
      (hjob : ∀ request job, item = .requestJob request job → job.WritesOnce (Answers request))

/-! ### One lemma for each handler -/

variable {P}

section Handlers

variable {s s' : ClientSession}

theorem bind_ok {α β : Type} {x : Except Crash α} {f : α → Except Crash β} {b : β}
    (h : x >>= f = .ok b) : ∃ a, x = .ok a ∧ f a = .ok b := by
  cases x with
  | error c => cases h
  | ok a => exact ⟨a, rfl, h⟩

theorem bind_error {α β : Type} {x : Except Crash α} {f : α → Except Crash β} {c : Crash}
    (hf : ∀ a d, f a ≠ .error d) (h : x >>= f = .error c) : x = .error c := by
  cases x with
  | error d =>
    cases h
    rfl
  | ok a => exact absurd h (hf a c)

theorem stop_stopped (s : ClientSession) : s.stop.stopped = true := by
  rw [stop]
  split_ifs with h
  · exact h
  · rfl

/-- A buffer has been resized within the memory. -/
theorem resizeBuffer_ok {size : ℕ} (h : s.resizeBuffer P size = .ok s') :
    size ≤ P.memory ∧ s' = { s with readBuffer := s.readBuffer.takeD size 0 } := by
  rw [resizeBuffer] at h
  split_ifs at h with hmax hsize
  cases h
  exact ⟨not_lt.mp hsize, rfl⟩

theorem resizeBuffer_of_le {size : ℕ} (h : size ≤ P.memory) :
    s.resizeBuffer P size = .ok { s with readBuffer := s.readBuffer.takeD size 0 } := by
  rw [resizeBuffer, if_neg (not_lt.mpr (h.trans P.memory_le)), if_neg (not_lt.mpr h)]

/-- A session that runs and has nothing outstanding stops with that. -/
theorem stop_of_running (hstop : s.stopped = false) (hout : s.outstanding = []) :
    s.stop = s.halted s.readBuffer := by
  rw [stop, hstop, if_neg Bool.false_ne_true, log, ClientSession.halted, hout]

/-- The token is handed on to the next prefix. -/
theorem doAsyncReadPrefix_of_running (hstop : s.stopped = false) (hout : s.outstanding = []) :
    s.doAsyncReadPrefix P = .ok (s.advance (s.readBuffer.takeD PREFIX_SIZE 0) .readPrefix
      (.readStarted PREFIX_SIZE)) := by
  rw [doAsyncReadPrefix, hstop, if_neg Bool.false_ne_true, resizeBuffer_of_le P.prefix_le]
  simp [log, add, advance, bind, Except.bind, hout]

/-- The token is handed on to the body, for which there is a buffer. -/
theorem doAsyncReadMessage_ok {n : UInt64} (hstop : s.stopped = false)
    (hout : s.outstanding = []) (h : s.doAsyncReadMessage P n = .ok s') :
    n.toNat ≤ P.memory ∧
      s' = s.advance (s.readBuffer.takeD n.toNat 0) (.readMessage n) (.readStarted n.toNat) := by
  rw [doAsyncReadMessage, hstop, if_neg Bool.false_ne_true] at h
  obtain ⟨t, hr, h⟩ := bind_ok h
  obtain ⟨hsize, rfl⟩ := resizeBuffer_ok hr
  cases h
  refine ⟨hsize, ?_⟩
  simp only [log, add, advance, hout, List.nil_append]

/-- After a prefix the session reads what it announces, or stops. -/
theorem onReadPrefix_ok {err : Bool} {bytes : ℕ} (hstop : s.stopped = false)
    (hout : s.outstanding = []) (h : s.onReadPrefix P err bytes = .ok s') :
    (s' = s.halted s.readBuffer ∧ (err = false → bytes = PREFIX_SIZE →
        P.pb.parsePrefix (s.readBuffer.take bytes) = none)) ∨
      err = false ∧ bytes = PREFIX_SIZE ∧ ∃ n, P.pb.parsePrefix (s.readBuffer.take bytes) = some n ∧
        n.toNat ≤ P.memory ∧
        s' = s.advance (s.readBuffer.takeD n.toNat 0) (.readMessage n) (.readStarted n.toNat) := by
  have hhalt := stop_of_running hstop hout
  cases err with
  | true =>
    simp only [onReadPrefix, if_true, hhalt, ClientSession.halted, Except.ok.injEq] at h
    exact .inl ⟨h.symm, fun h => by cases h⟩
  | false =>
    simp only [onReadPrefix, Bool.false_eq_true, if_false, hstop] at h
    split_ifs at h with hbytes
    · cases hp : P.pb.parsePrefix (s.readBuffer.take bytes) with
      | none =>
        simp only [hp, Except.ok.injEq] at h
        exact .inl ⟨h.symm.trans hhalt, fun _ _ => rfl⟩
      | some n =>
        simp only [hp] at h
        exact .inr ⟨rfl, hbytes, n, rfl, doAsyncReadMessage_ok hstop hout h⟩
    · cases h
      exact .inl ⟨hhalt, fun _ hlen => absurd hlen hbytes⟩

/-- After a body the session posts a job, or stops. -/
theorem onReadMessage_eq (err : Bool) (readed : ℕ) (n : UInt64) (hstop : s.stopped = false)
    (hout : s.outstanding = []) :
    s.onReadMessage err readed n = s.halted s.readBuffer ∨
      err = false ∧ readed = n.toNat ∧ s.onReadMessage err readed n =
        s.advance s.readBuffer (.parseCommandJob s.readBuffer) .jobPosted := by
  have hhalt := stop_of_running hstop hout
  cases err with
  | true =>
    left
    simp [onReadMessage, hhalt, ClientSession.halted]
  | false =>
    by_cases hreaded : readed = n.toNat
    · right
      simp [onReadMessage, hstop, hreaded, log, add, advance, hout]
    · left
      simp [onReadMessage, hstop, hreaded, hhalt]

/-- After a write the session reads the next prefix, or stops. -/
theorem onWrite_ok {err : Bool} (hstop : s.stopped = false) (hout : s.outstanding = [])
    (h : s.onWrite P err = .ok s') :
    s' = s.halted s.readBuffer ∨ err = false ∧
      s' = s.advance (s.readBuffer.takeD PREFIX_SIZE 0) .readPrefix (.readStarted PREFIX_SIZE) := by
  have hhalt := stop_of_running hstop hout
  cases err with
  | true =>
    simp only [onWrite, if_true, hhalt, ClientSession.halted, Except.ok.injEq] at h
    exact .inl h.symm
  | false =>
    simp only [onWrite, Bool.false_eq_true, if_false, hstop,
      doAsyncReadPrefix_of_running hstop hout, Except.ok.injEq] at h
    exact .inr ⟨rfl, h.symm⟩

theorem receive_all {data : List UInt8} (h : data.length = s.readBuffer.length) :
    s.receive data = { s with readBuffer := data } := by
  simp [receive, store, h]

/-- The token is handed on to the write of the frame. -/
theorem doAsyncWrite_ok {mesg : WrappedMessage} (hstop : s.stopped = false)
    (hout : s.outstanding = []) (h : s.doAsyncWrite P mesg = .ok s') :
    writeSize P mesg ≤ P.memory ∧ ∃ frame, FrameOf P mesg frame ∧
      s' = s.advance frame (.write frame) (.writeStarted mesg frame) := by
  rw [doAsyncWrite, hstop, if_neg Bool.false_ne_true] at h
  obtain ⟨t, hr, h⟩ := bind_ok h
  obtain ⟨hsize, rfl⟩ := resizeBuffer_ok hr
  cases h
  refine ⟨hsize, _, fun h0 hlt => ?_, by simp only [log, add, advance, hout, List.nil_append]; rfl⟩
  rw [toInt_of_lt hlt]
  refine Protobuf.serializeInto_frame h0 hlt ?_
  have h9 : PREFIX_SIZE = 9 := rfl
  rw [List.takeD_length]
  omega

end Handlers

/-! ### Every step is a move -/

theorem post_of_writesOnce {Q : WrappedMessage → Prop} {request : Request} {job : JobM Unit}
    (h : job.WritesOnce Q) (s : ClientSession) :
    s.post request job = s.add (.requestJob request job) := by
  cases h <;> rfl

/-- A step of a job keeps the token or hands it on to the write. -/
theorem runJob_moves {s t s' : ClientSession} {request : Request} {job : JobM Unit}
    {ret : (c : StorageCall) → c.Result} (hstop : s.stopped = false)
    (ht : t = { s with outstanding := [] }) (hjob : job.WritesOnce (Answers request))
    (h : t.runJob P request job ret = .ok s') :
    Moves P s (.requestJob request job) (.run ret) s' := by
  cases hjob with
  | call hk =>
    rw [runJob, post_of_writesOnce (hk _)] at h
    cases h
    subst ht
    exact .called
  | loggedIn hk =>
    rw [runJob, post_of_writesOnce (hk _)] at h
    cases h
    subst ht
    exact .loggedIn
  | state hk =>
    cases hst : t.clientState with
    | none =>
      simp only [runJob, hst] at h
      cases h
    | some st =>
      simp only [runJob, hst, post_of_writesOnce (hk _)] at h
      cases h
      subst ht
      exact .state hst
  | setState hk =>
    rw [runJob, post_of_writesOnce hk] at h
    cases h
    subst ht
    exact .setState
  | write hmesg =>
    rw [runJob] at h
    obtain ⟨u, hu, h⟩ := bind_ok h
    have htstop : t.stopped = false := by rw [ht, hstop]
    obtain ⟨hsize, frame, hframe, rfl⟩ := doAsyncWrite_ok htstop (by rw [ht]) hu
    cases h
    subst ht
    exact .wrote hsize hframe

/-- A request is handed on to its job, and anything else stops the session. -/
theorem parseCommandJob_moves {s t : ClientSession} {body : List UInt8}
    {ret : (c : StorageCall) → c.Result} (hstop : s.stopped = false)
    (ht : t = { s with outstanding := [] }) :
    Moves P s (.parseCommandJob body) (.run ret) (t.parseCommandJob P) := by
  subst ht
  have hhalt := stop_of_running (s := { s with outstanding := [] }) hstop rfl
  have hparse : ({ s with outstanding := [] } : ClientSession).parseBuffer P = s.parseBuffer P :=
    rfl
  rw [parseCommandJob, hparse]
  match hp : s.parseBuffer P with
  | some (.request request) =>
    cases hj : requestJob request with
    | some job =>
      simp only [hj, post_of_writesOnce (requestJob_writesOnce hj)]
      exact .dispatched hp hj
    | none =>
      simp only [hj, hhalt]
      refine .refused fun request' job hr hjob => ?_
      rw [hp] at hr
      cases hr
      rw [hj] at hjob
      cases hjob
  | some (.response _) | some .msgNotSet | none =>
    simp only [hhalt]
    refine .refused fun request job hr _ => ?_
    rw [hp] at hr
    cases hr

/-- The handlers, one by one. -/
theorem handleItem_moves {s t s' : ClientSession} {item : Item} {o : Outcome}
    (hstop : s.stopped = false) (ht : t = { s with outstanding := [] })
    (hbuffer : Needs s.readBuffer item)
    (hjob : ∀ request job, item = .requestJob request job → job.WritesOnce (Answers request))
    (h : t.handleItem P item o = some (.ok s')) : Moves P s item o s' := by
  have htstop : ∀ data, (t.receive data).stopped = false := fun _ => by rw [ht]; exact hstop
  have htout : ∀ data, (t.receive data).outstanding = [] := fun _ => by rw [ht]; rfl
  have hall : ∀ data, data.length = s.readBuffer.length →
      t.receive data = { t with readBuffer := data } :=
    fun data hdata => receive_all (by rw [hdata, ht])
  cases item with
  | readPrefix =>
    cases o with
    | read err data =>
      rw [handleItem] at h
      split_ifs at h with hlen
      rcases onReadPrefix_ok (htstop data) (htout data) (Option.some.inj h) with
        ⟨rfl, hfail⟩ | ⟨rfl, hbytes, n, hparse, hsize, rfl⟩
      · have hnone : ∀ data', Outcome.read err data = .read false data' →
            data'.length = PREFIX_SIZE → P.pb.parsePrefix data' = none := by
          intro data' heq hdata
          cases heq
          rw [hall data (hdata.trans hbuffer.symm), List.take_length] at hfail
          exact hfail rfl hdata
        subst ht
        exact .ioFailed _ (.inl rfl) fun data' _ => hnone data'
      · rw [hall data (hbytes.trans hbuffer.symm)] at hparse ⊢
        rw [List.take_length] at hparse
        subst ht
        exact .prefixRead hbytes hparse hsize (List.takeD_length ..)
    | run ret | sent err => cases h
  | readMessage n =>
    cases o with
    | read err data =>
      rw [handleItem] at h
      split_ifs at h with hlen
      cases h
      rcases onReadMessage_eq err data.length n (htstop data) (htout data) with
        heq | ⟨rfl, hsize, heq⟩
      · rw [heq]
        subst ht
        exact .ioFailed _ (.inr (.inl ⟨n, rfl⟩)) fun _ h => by cases h
      · rw [heq, hall data (hsize.trans hbuffer.symm)]
        subst ht
        exact .messageRead hsize
    | run ret | sent err => cases h
  | parseCommandJob body =>
    cases o with
    | run ret =>
      cases h
      exact parseCommandJob_moves hstop ht
    | read err data | sent err => cases h
  | requestJob request job =>
    cases o with
    | run ret => exact runJob_moves hstop ht (hjob _ _ rfl) (Option.some.inj h)
    | read err data | sent err => cases h
  | write frame =>
    cases o with
    | sent err =>
      have htstop' : t.stopped = false := by rw [ht]; exact hstop
      rcases onWrite_ok htstop' (by rw [ht]) (Option.some.inj h) with rfl | ⟨rfl, rfl⟩
      · subst ht
        exact .ioFailed _ (.inr (.inr ⟨frame, rfl⟩)) fun _ h => by cases h
      · subst ht
        exact .sent (List.takeD_length ..)
    | read err data | run ret => cases h

/-- The first state of a session that has been started. -/
def begun : ClientSession :=
  { fresh with
    stopped := false, readBuffer := List.takeD PREFIX_SIZE [] 0, outstanding := [.readPrefix]
    trace := [.started, .readStarted PREFIX_SIZE] }

theorem start_fresh : fresh.start P = .ok begun := by
  rw [start, doAsyncReadPrefix_of_running rfl rfl]
  rfl

/-- A step is an event that does not end the process. -/
theorem step_eq_some {s s' : ClientSession} {e : Event} :
    s.step P e = some s' ↔ s.handle P e = some (.ok s') := by
  rw [step, Option.bind_eq_some_iff]
  constructor
  · rintro ⟨r, hr, hok⟩
    cases r with
    | error c => cases hok
    | ok t =>
      cases hok
      exact hr
  · exact fun h => ⟨_, h, rfl⟩

/-- A session is started once, when it is fresh. -/
theorem Holds.eq_begun {s : ClientSession} {r : Except Crash ClientSession} (hs : s.Holds)
    (h : s.handle P .start = some r) : s = fresh ∧ r = .ok begun := by
  rw [handle] at h
  split_ifs at h with htrace
  have hnil := List.isEmpty_iff.mp htrace
  cases hs with
  | unstarted hfresh =>
    subst hfresh
    rw [start_fresh] at h
    exact ⟨rfl, (Option.some.inj h).symm⟩
  | halted _ _ hne => exact absurd hnil hne
  | token item _ _ hne _ _ => exact absurd hnil hne

/-- Every completion is that of the token. -/
theorem Holds.handleItem {s : ClientSession} {i : ℕ} {o : Outcome}
    {r : Except Crash ClientSession} (hs : s.Holds) (h : s.handle P (.item i o) = some r) :
    ∃ item, s.outstanding = [item] ∧ s.stopped = false ∧ i = 0 ∧ Needs s.readBuffer item ∧
      (∀ request job, item = .requestJob request job → job.WritesOnce (Answers request)) ∧
      { s with outstanding := [] }.handleItem P item o = some r := by
  rw [handle, Option.bind_eq_some_iff] at h
  obtain ⟨item, hget, h⟩ := h
  cases hs with
  | unstarted hfresh =>
    subst hfresh
    cases hget
  | halted _ hout _ =>
    rw [hout] at hget
    cases hget
  | token item' hstop hout _ hbuffer hjob =>
    rw [hout] at hget
    cases i with
    | succ i => cases hget
    | zero =>
      cases hget
      have hremove : s.remove 0 = { s with outstanding := [] } := by
        rw [remove, hout]
        rfl
      rw [hremove] at h
      exact ⟨item, hout, hstop, rfl, hbuffer, hjob, h⟩

/-- **One step.** A session starts, or moves its token. -/
theorem step_moves {s s' : ClientSession} {e : Event} (hs : s.Holds)
    (h : s.step P e = some s') :
    (s = fresh ∧ e = .start ∧ s' = begun) ∨
      ∃ item o, s.outstanding = [item] ∧ s.stopped = false ∧ e = .item 0 o ∧
        Moves P s item o s' := by
  rw [step_eq_some] at h
  cases e with
  | start =>
    obtain ⟨hfresh, hbegun⟩ := hs.eq_begun h
    exact .inl ⟨hfresh, rfl, Except.ok.inj hbegun⟩
  | item i o =>
    obtain ⟨item, hout, hstop, rfl, hbuffer, hjob, h⟩ := hs.handleItem h
    exact .inr ⟨item, o, hout, hstop, rfl, handleItem_moves hstop rfl hbuffer hjob h⟩

/-! ### Steps that go on -/

section Forward

variable {s : ClientSession}

/-- The next step of a session is a step of its token. -/
theorem step_token {item : Item} (hout : s.outstanding = [item]) (o : Outcome) :
    s.step P (.item 0 o) =
      (({ s with outstanding := [] } : ClientSession).handleItem P item o).bind
        Except.toOption := by
  have hremove : s.remove 0 = { s with outstanding := [] } := by
    rw [remove, hout]
    rfl
  rw [step, handle, hout]
  change ((s.remove 0).handleItem P item o).bind _ = _
  rw [hremove]

theorem step_readPrefix {n : UInt64} (hstop : s.stopped = false)
    (hout : s.outstanding = [.readPrefix]) (hbuffer : s.readBuffer.length = PREFIX_SIZE)
    (hn : n ≠ 0) (hle : n.toNat ≤ P.memory) :
    ∃ buffer, buffer.length = n.toNat ∧
      s.step P (.item 0 (.read false (serializePrefix n))) =
        some (s.advance buffer (.readMessage n) (.readStarted n.toNat)) := by
  have hlen : (serializePrefix n).length = PREFIX_SIZE := length_serializePrefix hn
  refine ⟨(serializePrefix n).takeD n.toNat 0, List.takeD_length .., ?_⟩
  rw [step_token hout, handleItem, if_pos hlen.le, receive_all (by rw [hlen]; exact hbuffer.symm)]
  obtain ⟨stopped, state, buffer, outstanding, trace⟩ := s
  obtain rfl : stopped = false := hstop
  simp only [onReadPrefix, Bool.false_eq_true, if_false, hlen, if_true]
  rw [← hlen, List.take_length, P.pb.parsePrefix_serializePrefix n hn]
  simp only [doAsyncReadMessage, Bool.false_eq_true, if_false, resizeBuffer_of_le hle]
  rfl

theorem step_readMessage {n : UInt64} {body : List UInt8} (hstop : s.stopped = false)
    (hout : s.outstanding = [.readMessage n]) (hbuffer : s.readBuffer.length = n.toNat)
    (hbody : body.length = n.toNat) :
    s.step P (.item 0 (.read false body)) =
      some (s.advance body (.parseCommandJob body) .jobPosted) := by
  rw [step_token hout, handleItem, if_pos hbody.le, receive_all (by rw [hbody]; exact hbuffer.symm)]
  obtain ⟨stopped, state, buffer, outstanding, trace⟩ := s
  obtain rfl : stopped = false := hstop
  simp only [onReadMessage, Bool.false_eq_true, if_false, hbody, if_true]
  rfl

theorem step_parseCommandJob {body : List UInt8} {r : Request} {job : JobM Unit}
    (ret : (c : StorageCall) → c.Result) (hout : s.outstanding = [.parseCommandJob body])
    (hparse : s.parseBuffer P = some (.request r)) (hjob : requestJob r = some job) :
    s.step P (.item 0 (.run ret)) =
      some (s.advance s.readBuffer (.requestJob r job) (.dispatched r)) := by
  rw [step_token hout, handleItem, parseCommandJob]
  have hparse' : ({ s with outstanding := [] } : ClientSession).parseBuffer P =
    some (.request r) := hparse
  simp only [hparse', hjob]
  have hwrites := requestJob_writesOnce hjob
  cases hwrites <;> rfl

theorem step_write {frame : List UInt8} (hstop : s.stopped = false)
    (hout : s.outstanding = [.write frame]) :
    s.step P (.item 0 (.sent false)) = some (s.advance (s.readBuffer.takeD PREFIX_SIZE 0)
      .readPrefix (.readStarted PREFIX_SIZE)) := by
  rw [step_token hout, handleItem, onWrite]
  obtain ⟨stopped, state, buffer, outstanding, trace⟩ := s
  obtain rfl : stopped = false := hstop
  simp only [Bool.false_eq_true, if_false]
  rw [doAsyncReadPrefix_of_running rfl rfl]
  rfl

end Forward

/-! ### Crashes -/

theorem resizeBuffer_error {s : ClientSession} {size : ℕ} {c : Crash}
    (h : s.resizeBuffer P size = .error c) : c = tooLarge P size ∧ P.memory < size := by
  rw [resizeBuffer] at h
  split_ifs at h with hmax hsize
  · cases h
    exact ⟨(if_pos hmax).symm, P.memory_le.trans_lt hmax⟩
  · cases h
    exact ⟨(if_neg hmax).symm, hsize⟩

/-- A prefix ends the process when there is no memory for what it announces. -/
theorem onReadPrefix_error {s : ClientSession} {err : Bool} {bytes : ℕ} {c : Crash}
    (hstop : s.stopped = false) (h : s.onReadPrefix P err bytes = .error c) :
    err = false ∧ bytes = PREFIX_SIZE ∧ ∃ n, P.pb.parsePrefix (s.readBuffer.take bytes) = some n ∧
      P.memory < n.toNat ∧ c = tooLarge P n.toNat := by
  cases err with
  | true =>
    simp only [onReadPrefix, if_true, stop_stopped] at h
    cases h
  | false =>
    simp only [onReadPrefix, Bool.false_eq_true, if_false, hstop] at h
    split_ifs at h with hbytes
    cases hp : P.pb.parsePrefix (s.readBuffer.take bytes) with
    | none =>
      simp only [hp] at h
      cases h
    | some n =>
      simp only [hp, doAsyncReadMessage, hstop, Bool.false_eq_true, if_false] at h
      obtain ⟨rfl, hsize⟩ := resizeBuffer_error (bind_error (fun _ _ h => by cases h) h)
      exact ⟨rfl, hbytes, n, rfl, hsize, rfl⟩

/-- A response ends the process when there is no memory for its frame. -/
theorem doAsyncWrite_error {s : ClientSession} {mesg : WrappedMessage} {c : Crash}
    (hstop : s.stopped = false) (h : s.doAsyncWrite P mesg = .error c) :
    c = tooLarge P (writeSize P mesg) ∧ P.memory < writeSize P mesg := by
  rw [doAsyncWrite, hstop, if_neg Bool.false_ne_true] at h
  have hresize : s.resizeBuffer P (writeSize P mesg) = .error c :=
    bind_error (fun _ _ h => by cases h) h
  exact resizeBuffer_error hresize

theorem runJob_crashes {s t : ClientSession} {request : Request} {job : JobM Unit}
    {ret : (c : StorageCall) → c.Result} {c : Crash} (hstop : s.stopped = false)
    (ht : t = { s with outstanding := [] }) (h : t.runJob P request job ret = .error c) :
    Crashes P s (.requestJob request job) (.run ret) c := by
  have htstop : t.stopped = false := by rw [ht, hstop]
  cases job with
  | pure _ | call _ _ | loggedIn _ | setState _ _ => cases h
  | state k =>
    cases hst : t.clientState with
    | some st =>
      simp only [runJob, hst] at h
      cases h
    | none =>
      simp only [runJob, hst] at h
      cases h
      exact .state (by rw [ht] at hst; exact hst)
  | write mesg k =>
    obtain ⟨hc, hsize⟩ := doAsyncWrite_error htstop (bind_error (fun _ _ h => by cases h) h)
    exact .response hsize hc

/-- There is always memory for a prefix. -/
theorem onWrite_ne_error {s : ClientSession} {err : Bool} {c : Crash} (hstop : s.stopped = false)
    (hout : s.outstanding = []) : s.onWrite P err ≠ .error c := by
  intro h
  cases err with
  | true =>
    simp only [onWrite, if_true, stop_stopped] at h
    cases h
  | false =>
    simp only [onWrite, Bool.false_eq_true, if_false, hstop,
      doAsyncReadPrefix_of_running hstop hout] at h
    cases h

/-- The handlers, one by one, once more. -/
theorem handleItem_crashes {s t : ClientSession} {item : Item} {o : Outcome} {c : Crash}
    (hstop : s.stopped = false) (ht : t = { s with outstanding := [] })
    (hbuffer : Needs s.readBuffer item) (h : t.handleItem P item o = some (.error c)) :
    Crashes P s item o c := by
  have htstop : t.stopped = false := by rw [ht]; exact hstop
  cases item with
  | readPrefix =>
    cases o with
    | read err data =>
      rw [handleItem] at h
      split_ifs at h with hlen
      obtain ⟨rfl, hbytes, n, hparse, hsize, hc⟩ :=
        onReadPrefix_error (s := t.receive data) htstop (Option.some.inj h)
      have hfull : data.length = t.readBuffer.length := by rw [hbytes, ht, ← hbuffer]
      rw [receive_all hfull, List.take_length] at hparse
      exact .announced hbytes hparse hsize hc
    | run ret | sent err => cases h
  | readMessage n =>
    cases o with
    | read err data =>
      rw [handleItem] at h
      split_ifs at h
      cases h
    | run ret | sent err => cases h
  | parseCommandJob body => cases o <;> cases h
  | requestJob request job =>
    cases o with
    | run ret => exact runJob_crashes hstop ht (Option.some.inj h)
    | read err data | sent err => cases h
  | write frame =>
    cases o with
    | sent err =>
      exact absurd (Option.some.inj h) (onWrite_ne_error htstop (by rw [ht]))
    | read err data | run ret => cases h

/-- **Crashes.** The three ways in which an event ends the process. -/
theorem handle_crashes {s : ClientSession} {e : Event} {c : Crash} (hs : s.Holds)
    (h : s.handle P e = some (.error c)) :
    ∃ item o, s.outstanding = [item] ∧ s.stopped = false ∧ e = .item 0 o ∧
      Crashes P s item o c := by
  cases e with
  | start => cases (hs.eq_begun h).2
  | item i o =>
    obtain ⟨item, hout, hstop, rfl, hbuffer, -, h⟩ := hs.handleItem h
    exact ⟨item, o, hout, hstop, rfl, handleItem_crashes hstop rfl hbuffer h⟩

/-! ### The token stays -/

/-- A move keeps the token in one place. -/
theorem Moves.holds {s s' : ClientSession} {item : Item} {o : Outcome} (hm : Moves P s item o s')
    (hstop : s.stopped = false) (hne : s.trace ≠ [])
    (hjob : ∀ request job, item = .requestJob request job → job.WritesOnce (Answers request)) :
    s'.Holds := by
  have happ : ∀ a, s.trace ++ [a] ≠ [] := fun a => by simp
  have hio : ∀ {item : Item}, (∀ request job, item ≠ .requestJob request job) →
      ∀ request job, item = .requestJob request job → job.WritesOnce (Answers request) :=
    fun h request job heq => absurd heq (h request job)
  cases hm with
  | ioFailed buffer _ _ | refused _ => exact .halted rfl rfl (happ _)
  | prefixRead _ _ _ hbuffer =>
    exact .token _ hstop rfl (happ _) hbuffer (hio fun _ _ h => by cases h)
  | messageRead _ => exact .token _ hstop rfl (happ _) rfl (hio fun _ _ h => by cases h)
  | dispatched _ hreq =>
    refine .token _ hstop rfl (happ _) trivial fun request job heq => ?_
    cases heq
    exact requestJob_writesOnce hreq
  | called =>
    refine .token _ hstop rfl (happ _) trivial fun request job heq => ?_
    cases heq
    cases hjob _ _ rfl with
    | call hk => exact hk _
  | loggedIn =>
    refine .token _ hstop rfl hne trivial fun request job heq => ?_
    cases heq
    cases hjob _ _ rfl with
    | loggedIn hk => exact hk _
  | state _ =>
    refine .token _ hstop rfl hne trivial fun request job heq => ?_
    cases heq
    cases hjob _ _ rfl with
    | state hk => exact hk _
  | setState =>
    refine .token _ hstop rfl hne trivial fun request job heq => ?_
    cases heq
    cases hjob _ _ rfl with
    | setState hk => exact hk
  | wrote _ _ => exact .token _ hstop rfl (happ _) rfl (hio fun _ _ h => by cases h)
  | sent hbuffer => exact .token _ hstop rfl (happ _) hbuffer (hio fun _ _ h => by cases h)

theorem begun_holds : begun.Holds :=
  .token .readPrefix rfl rfl (by decide) rfl fun _ _ h => by cases h

/-- What is known of a session whose token is `item`. -/
theorem Holds.of_token {s : ClientSession} {item : Item} (hs : s.Holds)
    (hstop : s.stopped = false) (hout : s.outstanding = [item]) :
    s.trace ≠ [] ∧ Needs s.readBuffer item ∧
      ∀ request job, item = .requestJob request job → job.WritesOnce (Answers request) := by
  cases hs with
  | unstarted hfresh =>
    subst hfresh
    cases hout
  | halted hstop' _ _ =>
    rw [hstop] at hstop'
    cases hstop'
  | token item' _ hout' hne hbuffer hjob =>
    rw [hout] at hout'
    cases hout'
    exact ⟨hne, hbuffer, hjob⟩

/-- So does every step. -/
theorem step_holds (s : ClientSession) (e : Event) (s' : ClientSession) (hs : s.Holds)
    (h : s.step P e = some s') : s'.Holds := by
  rcases step_moves hs h with ⟨-, -, rfl⟩ | ⟨item, o, hout, hstop, -, hm⟩
  · exact begun_holds
  · obtain ⟨hne, -, hjob⟩ := hs.of_token hstop hout
    exact hm.holds hstop hne hjob

/-! ### The history of a session -/

/-- The requests whose jobs have been posted. -/
def dispatched (trace : List Action) : List Request :=
  trace.filterMap fun
    | .dispatched request => some request
    | _ => none

/-- The messages that have been handed to `async_write`. -/
def written (trace : List Action) : List WrappedMessage :=
  trace.filterMap fun
    | .writeStarted mesg _ => some mesg
    | _ => none

/-- The requests whose jobs are outstanding. -/
def running (s : ClientSession) : List Request :=
  s.outstanding.filterMap fun
    | .requestJob request _ => some request
    | _ => none

/-- What the trace says about the past of the session. -/
structure History (P : Platform) (s : ClientSession) : Prop where
  /-- Each dispatched request has been answered by one message, in order, except for the one
  whose job is outstanding. -/
  responses : ∃ answered, dispatched s.trace = answered ++ s.running ∧
    List.Forall₂ Answers answered (written s.trace)
  /-- A message is written as its frame. -/
  frames : ∀ mesg frame, .writeStarted mesg frame ∈ s.trace → FrameOf P mesg frame
  unstopped : s.stopped = false → .stopped ∉ s.trace
  /-- Nothing is started after the session has stopped. -/
  quiet : ∀ pre post, s.trace = pre ++ .stopped :: post → post = []

/-- An entry of a trace that has just grown is the new one, or an old one. -/
theorem trace_concat {trace pre post : List Action} {a b : Action}
    (h : trace ++ [a] = pre ++ b :: post) :
    (post = [] ∧ b = a ∧ pre = trace) ∨
      ∃ post', post = post' ++ [a] ∧ trace = pre ++ b :: post' := by
  rcases List.eq_nil_or_concat post with rfl | ⟨post', c, rfl⟩
  · obtain ⟨hpre, hb⟩ := List.append_inj' h rfl
    exact .inl ⟨rfl, (List.cons.inj hb).1.symm, hpre.symm⟩
  · rw [List.concat_eq_append, ← List.cons_append, ← List.append_assoc] at h
    obtain ⟨htrace, hc⟩ := List.append_inj' h rfl
    cases hc
    exact .inr ⟨post', List.concat_eq_append, htrace⟩

/-- An action of a session that has not stopped is the last one. -/
theorem quiet_concat {trace : List Action} (h : .stopped ∉ trace) (a : Action)
    {pre post : List Action} (heq : trace ++ [a] = pre ++ .stopped :: post) : post = [] := by
  rcases trace_concat heq with ⟨hpost, -, -⟩ | ⟨post', -, htrace⟩
  · exact hpost
  · exact absurd (by rw [htrace]; simp) h

/-- An action that is no request, no message and no stop adds nothing to the history. -/
def Action.Plain : Action → Prop
  | .dispatched _ | .writeStarted _ _ | .stopped => False
  | _ => True

/-- Such an action may be added. -/
theorem History.concat_plain {s s' : ClientSession} {a : Action} (hs : History P s)
    (ha : Action.Plain a) (hstop : s.stopped = false) (htrace : s'.trace = s.trace ++ [a])
    (hrun : s'.running = s.running) : History P s' := by
  have hnot := hs.unstopped hstop
  have hd : dispatched s'.trace = dispatched s.trace := by
    rw [htrace, dispatched, List.filterMap_append]
    cases a <;> first | exact absurd ha id | simp [dispatched]
  have hw : written s'.trace = written s.trace := by
    rw [htrace, written, List.filterMap_append]
    cases a <;> first | exact absurd ha id | simp [written]
  refine ⟨by rw [hd, hw, hrun]; exact hs.responses, fun mesg frame hmem => ?_, fun _ hmem => ?_,
    fun pre post heq => quiet_concat hnot a (htrace ▸ heq)⟩
  · rw [htrace, List.mem_append, List.mem_singleton] at hmem
    rcases hmem with hmem | rfl
    · exact hs.frames mesg frame hmem
    · exact absurd ha id
  · rw [htrace, List.mem_append, List.mem_singleton] at hmem
    rcases hmem with hmem | rfl
    · exact hnot hmem
    · exact absurd ha id

/-- A session stops without owing an answer to a job. -/
theorem History.halted {s : ClientSession} (hs : History P s) (hstop : s.stopped = false)
    (hrun : s.running = []) (buffer : List UInt8) : History P (s.halted buffer) := by
  have hnot := hs.unstopped hstop
  refine ⟨?_, fun mesg frame hmem => ?_, fun h => (by cases h), fun pre post heq =>
    quiet_concat hnot _ heq⟩
  · obtain ⟨answered, hd, hw⟩ := hs.responses
    refine ⟨answered, ?_, ?_⟩
    · rw [hrun] at hd
      simpa [dispatched, ClientSession.halted, running] using hd
    · simpa [written, ClientSession.halted] using hw
  · simp only [ClientSession.halted, List.mem_append, List.mem_singleton, reduceCtorEq,
      or_false] at hmem
    exact hs.frames mesg frame hmem

/-- What a request job has to show for itself when it writes. -/
theorem answers_of_writesOnce {request : Request} {mesg : WrappedMessage} {k : JobM Unit}
    (h : (JobM.write mesg k).WritesOnce (Answers request)) : Answers request mesg := by
  cases h with
  | write hmesg => exact hmesg

/-- A move adds to the history what its token stood for. -/
theorem Moves.history {s s' : ClientSession} {item : Item} {o : Outcome}
    (hm : Moves P s item o s') (hs : History P s) (hstop : s.stopped = false)
    (hout : s.outstanding = [item])
    (hjob : ∀ request job, item = .requestJob request job → job.WritesOnce (Answers request)) :
    History P s' := by
  have hrun : s.running = [item].filterMap fun
      | .requestJob request _ => some request
      | _ => none := by rw [running, hout]
  have hsilent : ∀ {t : ClientSession}, t.trace = s.trace → t.stopped = s.stopped →
      t.running = s.running → History P t := by
    intro t htrace htstop htrun
    obtain ⟨hresp, hframes, hun, hquiet⟩ := hs
    exact ⟨by rw [htrace, htrun]; exact hresp, by rw [htrace]; exact hframes,
      by rw [htrace, htstop]; exact hun, by rw [htrace]; exact hquiet⟩
  cases hm with
  | ioFailed buffer hitem _ =>
    refine hs.halted hstop ?_ buffer
    rcases hitem with rfl | ⟨n, rfl⟩ | ⟨frame, rfl⟩ <;> exact hrun
  | refused _ => exact hs.halted hstop hrun _
  | prefixRead _ _ _ _ | messageRead _ | sent _ | called =>
    refine hs.concat_plain ?_ hstop rfl hrun.symm
    trivial
  | loggedIn | state _ | setState => exact hsilent rfl rfl hrun.symm
  | @dispatched body ret request job _ _ =>
    have hnot := hs.unstopped hstop
    obtain ⟨answered, hd, hw⟩ := hs.responses
    rw [hrun] at hd
    refine ⟨⟨answered, ?_, ?_⟩, fun mesg frame hmem => ?_, fun _ hmem => ?_,
      fun pre post heq => quiet_concat hnot _ heq⟩
    · simp [advance, ClientSession.dispatched, running] at hd ⊢
      exact hd
    · simpa [advance, written] using hw
    · exact hs.frames mesg frame (by simpa [advance] using hmem)
    · exact hnot (by simpa [advance] using hmem)
  | @wrote request mesg ret frame _ hframe =>
    have hnot := hs.unstopped hstop
    obtain ⟨answered, hd, hw⟩ := hs.responses
    rw [hrun] at hd
    refine ⟨⟨answered ++ [request], ?_, ?_⟩, fun mesg' frame' hmem => ?_, fun _ hmem => ?_,
      fun pre post heq => quiet_concat hnot _ heq⟩
    · simp [advance, ClientSession.dispatched, running] at hd ⊢
      exact hd
    · have hone : List.Forall₂ Answers [request] [mesg] :=
        .cons (answers_of_writesOnce (hjob _ _ rfl)) .nil
      have happ := List.rel_append hw hone
      simpa [advance, written] using happ
    · simp only [advance, List.mem_append, List.mem_singleton, Action.writeStarted.injEq] at hmem
      rcases hmem with hmem | ⟨rfl, rfl⟩
      · exact hs.frames mesg' frame' hmem
      · exact hframe
    · exact hnot (by simpa [advance] using hmem)

/-- Everything that holds in a reachable state of a session. -/
structure Exclusive (P : Platform) (s : ClientSession) : Prop where
  /-- At most one thing is outstanding, and exactly one while the session runs. -/
  atMostOne : s.outstanding.length ≤ 1
  exactlyOne : s.stopped = false → s.outstanding.length = 1
  /-- The buffer holds what the outstanding item needs. -/
  buffer : ∀ item ∈ s.outstanding, Needs s.readBuffer item
  history : History P s

/-- What the invariant says, in the terms of the result. -/
theorem Holds.exclusive {s : ClientSession} (hs : s.Holds) (hh : History P s) :
    s.Exclusive P := by
  cases hs with
  | unstarted h =>
    subst h
    exact ⟨Nat.zero_le _, fun h => (by cases h), fun _ h => (by cases h), hh⟩
  | halted hstop hout _ =>
    refine ⟨by simp [hout], fun h => ?_, fun item hmem => ?_, hh⟩
    · rw [hstop] at h
      cases h
    · rw [hout] at hmem
      cases hmem
  | token item _ hout _ hbuffer _ =>
    refine ⟨by simp [hout], fun _ => by simp [hout], fun item' hmem => ?_, hh⟩
    rw [hout, List.mem_singleton] at hmem
    rw [hmem]
    exact hbuffer

theorem fresh_history : History P fresh where
  responses := ⟨[], rfl, .nil⟩
  frames _ _ h := by cases h
  unstopped h := by cases h
  quiet pre post h := by simp [fresh] at h

theorem begun_history : History P begun where
  responses := ⟨[], rfl, .nil⟩
  frames _ _ h := by simp [begun] at h
  unstopped _ h := by simp [begun] at h
  quiet pre post h := by
    have h' : [.started] ++ [.readStarted PREFIX_SIZE] = pre ++ .stopped :: post := h
    exact quiet_concat (by simp) _ h'

/-- The invariant of a session. -/
theorem step_holds_history (s : ClientSession) (e : Event) (s' : ClientSession)
    (hs : s.Holds ∧ History P s) (h : s.step P e = some s') : s'.Holds ∧ History P s' := by
  refine ⟨step_holds s e s' hs.1 h, ?_⟩
  rcases step_moves hs.1 h with ⟨-, -, rfl⟩ | ⟨item, o, hout, hstop, -, hm⟩
  · exact begun_history
  · obtain ⟨-, -, hjob⟩ := hs.1.of_token hstop hout
    exact hm.history hs.2 hstop hout hjob

/-- The invariant holds in every state that a session can reach. -/
theorem reachable_holds {s : ClientSession} (h : Reachable (step P) fresh s) :
    s.Holds ∧ History P s :=
  h.invariant step_holds_history ⟨.unstarted rfl, fresh_history⟩

/-- **One thing at a time.** In every state that a session can reach, at most one read, job or
write is outstanding, exactly one while it runs; the buffer is kept for it; and the requests are
answered one by one, in order, until the session stops. -/
theorem reachable_exclusive {s : ClientSession} (h : Reachable (step P) fresh s) :
    s.Exclusive P :=
  (reachable_holds h).1.exclusive (reachable_holds h).2

/-- A request for the chats, before any login, up to the response. -/
def chatsBeforeLogin : List Event :=
  [.start, .item 0 (.read false [9, 4, 0, 0, 0, 0, 0, 0, 0]),
    .item 0 (.read false [0x12, 0x02, 0x1A, 0x00]), .item 0 (.run StorageCall.failure),
    .item 0 (.run StorageCall.failure), .item 0 (.run StorageCall.failure)]

/-- The request is refused, with an empty response. -/
theorem exclusive_chatsBeforeLogin :
    ∃ s, run (step Platform.proto3) fresh chatsBeforeLogin = some s ∧
      written s.trace = [.response .msgNotSet] ∧ s.Exclusive Platform.proto3 := by
  have hrun : ((run (step Platform.proto3) fresh chatsBeforeLogin).map fun s => written s.trace) =
      some [.response .msgNotSet] := by decide
  obtain ⟨s, hs, hw⟩ := Option.map_eq_some_iff.mp hrun
  exact ⟨s, hs, hw, reachable_exclusive ⟨_, hs⟩⟩

end ClientSession

end Elegram
