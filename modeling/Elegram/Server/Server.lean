import Elegram.Server.Identity

/-!
# The server and its peers

`ElegramServer` holds the connections that have been accepted. A connection is a session together
with its peer, and of a peer only the byte stream matters that it sends before its connection
ends: reads take their bytes from it, in order. The connection may end inside any read; which
reads fail, how writes end, what the storage returns and in which order the sessions move is up to
the events.

An exception that escapes from a handler or a job terminates the process, and with it all
sessions. `always_sound_iff` says exactly when this happens, and that until then every session
has acted upon nothing but the well-formed request frames at the beginning of its stream.
-/

namespace Elegram

open Transition

variable (P : Platform)

/-! ### Connections -/

/-- A session and its peer. `stream` is everything the peer sends, `unread` what the session has
not read of it. -/
structure Connection where
  session : ClientSession
  stream : List UInt8
  unread : List UInt8

/-- The number of bytes that a pending read waits for. -/
def Item.size : Item → Option ℕ
  | .readPrefix => some PREFIX_SIZE
  | .readMessage mesgSize => some mesgSize.toNat
  | _ => none

/-- What happens to an outstanding item of a connected session. -/
inductive PeerEvent
  /-- A read gets all its bytes. -/
  | readDone (i : ℕ)
  /-- A read ends with an error, after some of its bytes. -/
  | readFailed (i bytes : ℕ)
  | run (i : ℕ) (ret : (c : StorageCall) → c.Result)
  | sent (i : ℕ) (err : Bool)

namespace Connection

/-- The event of the session, and what is unread after it. -/
def event (c : Connection) : PeerEvent → Option (ClientSession.Event × List UInt8)
  | .readDone i => do
    let size ← (← c.session.outstanding[i]?).size
    if size ≤ c.unread.length then
      some (.item i (.read false (c.unread.take size)), c.unread.drop size)
    else none
  | .readFailed i bytes => do
    let size ← (← c.session.outstanding[i]?).size
    if bytes ≤ size then
      some (.item i (.read true (c.unread.take bytes)), c.unread.drop bytes)
    else none
  | .run i ret => some (.item i (.run ret), c.unread)
  | .sent i err => some (.item i (.sent err), c.unread)

def handle (c : Connection) (e : PeerEvent) : Option (Except Crash Connection) := do
  let (e, unread) ← c.event e
  let result ← c.session.handle P e
  some (result.map fun session => { c with session := session, unread := unread })

end Connection

/-! ### The server -/

structure ElegramServer where
  connections : List Connection
  terminated : Bool

namespace ElegramServer

def initial : ElegramServer where
  connections := []
  terminated := false

inductive Event
  /-- A peer that will send `stream` connects. -/
  | accept (stream : List UInt8)
  | peer (i : ℕ) (e : PeerEvent)

/-- `handle_accept` starts the session. -/
def handleAccept (stream : List UInt8) (s : ElegramServer) : ElegramServer :=
  match ClientSession.fresh.start P with
  | .ok session =>
    { s with connections := s.connections ++
        [{ session := session, stream := stream, unread := stream }] }
  | .error _ => { s with terminated := true }

def step (s : ElegramServer) (e : Event) : Option ElegramServer :=
  if s.terminated then none
  else
    match e with
    | .accept stream => some (s.handleAccept P stream)
    | .peer i e => do
      let c ← s.connections[i]?
      match ← c.handle P e with
      | .ok c => some { s with connections := s.connections.set i c }
      | .error _ => some { s with terminated := true }

end ElegramServer

/-! ### Well-formed streams -/

/-- The body of a well-formed request frame. No protobuf message has two gigabytes. -/
def IsRequest (body : List UInt8) (request : Request) : Prop :=
  body.length < 2 ^ 31 ∧ P.pb.parse body = some (.request request) ∧ (requestJob request).isSome

/-- The bytes are a sequence of well-formed request frames, with these requests. -/
inductive Carries : List UInt8 → List Request → Prop
  | nil : Carries [] []
  | concat {bytes head body : List UInt8} {requests : List Request} {request : Request}
      {n : UInt64} (h : Carries bytes requests) (hhead : head.length = PREFIX_SIZE)
      (hparse : P.pb.parsePrefix head = some n) (hbody : body.length = n.toNat)
      (hrequest : IsRequest P body request) :
      Carries (bytes ++ (head ++ body)) (requests ++ [request])

variable {P}

/-- A stream is split into frames in one way only. -/
theorem Carries.unique {bytes bytes' : List UInt8} {requests : List Request}
    (h : Carries P bytes requests) (h' : Carries P bytes' requests) {rest rest' : List UInt8}
    (heq : bytes ++ rest = bytes' ++ rest') : bytes = bytes' := by
  induction h generalizing bytes' rest rest' with
  | nil =>
    generalize hr : ([] : List Request) = requests at h'
    cases h' with
    | nil => rfl
    | concat _ _ _ _ _ => simp at hr
  | @concat bytes head body requests request n _ hhead hparse hbody _ ih =>
    generalize hr : requests ++ [request] = requests' at h'
    cases h' with
    | nil => simp at hr
    | @concat bytes' head' body' requests' request' n' h' hhead' hparse' hbody' _ =>
      obtain ⟨rfl, -⟩ := List.append_inj' hr rfl
      simp only [List.append_assoc] at heq
      have hbytes := ih h' heq
      rw [hbytes] at heq ⊢
      have htail := List.append_cancel_left heq
      obtain ⟨hheads, hbodies⟩ := List.append_inj htail (hhead.trans hhead'.symm)
      subst hheads
      rw [hparse] at hparse'
      cases hparse'
      rw [(List.append_inj hbodies (hbody.trans hbody'.symm)).1]

/-- The last frame of a stream. -/
theorem Carries.of_concat {bytes : List UInt8} {requests : List Request} {request : Request}
    (h : Carries P bytes (requests ++ [request])) :
    ∃ bytes' head body n, bytes = bytes' ++ (head ++ body) ∧ Carries P bytes' requests ∧
      head.length = PREFIX_SIZE ∧ P.pb.parsePrefix head = some n ∧ body.length = n.toNat ∧
      IsRequest P body request := by
  generalize hr : requests ++ [request] = requests' at h
  cases h with
  | nil => simp at hr
  | concat h hhead hparse hbody hrequest =>
    obtain ⟨rfl, hlast⟩ := List.append_inj' hr rfl
    cases hlast
    exact ⟨_, _, _, _, rfl, h, hhead, hparse, hbody, hrequest⟩

/-! ### Soundness of a connection -/

/-- The storage calls that the job of a request may make. -/
def Request.Asks : Request → StorageCall → Prop
  | .registerRequest mesg, c => c = .registration mesg.name mesg.email mesg.password
  | .loginRequest mesg, c => c = .login mesg.email mesg.password
  | .chatsRequest, c => ∃ userId, c = .getChats userId
  | .contactsRequest, c => ∃ userId, c = .getContacts userId
  | .messagesRequest mesg, c => c = .getMessages mesg.chatId
  | .sendMesgRequest mesg, c => ∃ userId, c = .sendMessage userId (mesg.mesg.getD .default)
  | .addContactRequest mesg, c => ∃ userId, c = .addContact userId mesg.email
  | .createChatRequest mesg, c => ∃ userId userName, c = .createChat userId userName mesg.friendId
  | .msgNotSet, _ => False

/-- All storage calls of the program satisfy `Q`. -/
def JobM.CallsOnly (Q : StorageCall → Prop) : JobM Unit → Prop
  | .pure _ => True
  | .call c k => Q c ∧ ∀ r, (k r).CallsOnly Q
  | .loggedIn k => ∀ b, (k b).CallsOnly Q
  | .state k => ∀ st, (k st).CallsOnly Q
  | .setState _ k => k.CallsOnly Q
  | .write _ k => k.CallsOnly Q

namespace Connection

open ClientSession

variable (P)

/-- Where a running session is in its stream, when `rest` follows the frames it has handled: at
the beginning of `rest`, or inside the frame there. -/
def Position (c : Connection) (rest : List UInt8) : Prop :=
  match c.session.outstanding with
  | [.readMessage n] => ∃ head, rest = head ++ c.unread ∧ head.length = PREFIX_SIZE ∧
      P.pb.parsePrefix head = some n
  | [.parseCommandJob body] => ∃ head n, rest = head ++ body ++ c.unread ∧
      head.length = PREFIX_SIZE ∧ P.pb.parsePrefix head = some n ∧ body.length = n.toNat
  | _ => rest = c.unread

/-- The session has acted upon well-formed request frames only. -/
structure Sound (c : Connection) : Prop where
  /-- The requests that were dispatched are those of well-formed frames at the beginning of the
  stream, and a session that has read more than these frames and the next one has stopped. -/
  frames : ∃ bytes rest, c.stream = bytes ++ rest ∧
    Carries P bytes (dispatched c.session.trace) ∧
    (c.session.stopped = false → c.Position P rest)
  /-- Every storage call was made for the request dispatched last. -/
  calls : ∀ pre call r post, c.session.trace = pre ++ .called call r :: post →
    ∃ request, (dispatched pre).getLast? = some request ∧ request.Asks call

/-- What is known of a connection besides its soundness. -/
structure Invariant (c : Connection) : Prop where
  holds : c.session.Holds
  history : History P c.session
  identified : c.session.Identified
  asks : ∀ request job, c.session.outstanding = [.requestJob request job] →
    job.CallsOnly request.Asks
  sound : c.Sound P

end Connection

/-- The bytes that an outcome takes from the stream. -/
def ClientSession.Outcome.data : ClientSession.Outcome → List UInt8
  | .read _ data => data
  | _ => []

namespace Connection

open ClientSession

theorem event_eq_some {c : Connection} {e : PeerEvent} {e' : ClientSession.Event}
    {unread : List UInt8} (h : c.event e = some (e', unread)) :
    ∃ i o, e' = .item i o ∧ c.unread = o.data ++ unread := by
  cases e with
  | readDone i =>
    simp only [event, Option.bind_eq_bind, Option.bind_eq_some_iff] at h
    obtain ⟨item, -, size, -, h⟩ := h
    split_ifs at h
    cases h
    exact ⟨i, _, rfl, (List.take_append_drop _ _).symm⟩
  | readFailed i bytes =>
    simp only [event, Option.bind_eq_bind, Option.bind_eq_some_iff] at h
    obtain ⟨item, -, size, -, h⟩ := h
    split_ifs at h
    cases h
    exact ⟨i, _, rfl, (List.take_append_drop _ _).symm⟩
  | run i ret =>
    cases h
    exact ⟨i, _, rfl, rfl⟩
  | sent i err =>
    cases h
    exact ⟨i, _, rfl, rfl⟩

/-- A step of a connection is a move of its session that takes its bytes from the stream. -/
theorem handle_ok {c c' : Connection} {e : PeerEvent} (hc : c.session.Holds)
    (h : c.handle P e = some (.ok c')) :
    ∃ item o, c.session.outstanding = [item] ∧ c.session.stopped = false ∧
      Moves P c.session item o c'.session ∧ c'.stream = c.stream ∧
      c.unread = o.data ++ c'.unread ∧ ∃ unread, c.event e = some (.item 0 o, unread) ∧
      c.session.step P (.item 0 o) = some c'.session := by
  simp only [handle, Option.bind_eq_bind, Option.bind_eq_some_iff, Prod.exists] at h
  obtain ⟨e', unread, he, r, hr, h⟩ := h
  obtain ⟨i, o, rfl, hunread⟩ := event_eq_some he
  cases r with
  | error crash => cases h
  | ok session =>
    cases h
    have hstep := step_eq_some.mpr hr
    rcases step_moves hc hstep with ⟨-, hstart, -⟩ | ⟨item, o', hout, hstop, heq, hm⟩
    · cases hstart
    · cases heq
      exact ⟨item, o, hout, hstop, hm, rfl, hunread, unread, he, hstep⟩

/-- The calls of a trace that grows. -/
theorem Sound.calls_concat {c : Connection} (hc : c.Sound P) {trace : List Action} {a : Action}
    (htrace : trace = c.session.trace ++ [a])
    (ha : ∀ call r, a = .called call r →
      ∃ request, (dispatched c.session.trace).getLast? = some request ∧ request.Asks call) :
    ∀ pre call r post, trace = pre ++ .called call r :: post →
      ∃ request, (dispatched pre).getLast? = some request ∧ request.Asks call := by
  intro pre call r post heq
  rw [htrace] at heq
  rcases trace_concat heq with ⟨-, hb, rfl⟩ | ⟨post', -, hold⟩
  · exact ha call r hb.symm
  · exact hc.calls pre call r post' hold

/-- An action that is no dispatch adds no request. -/
theorem dispatched_concat {trace : List Action} {a : Action}
    (ha : ∀ request, a ≠ .dispatched request) :
    dispatched (trace ++ [a]) = dispatched trace := by
  cases a with
  | dispatched request => exact absurd rfl (ha request)
  | _ => simp [dispatched]

/-- A parsed buffer is well formed if it is small. -/
theorem isRequest_of_parseBuffer {s : ClientSession} {request : Request} {job : JobM Unit}
    (hsmall : s.readBuffer.length < 2 ^ 31) (hparse : s.parseBuffer P = some (.request request))
    (hjob : requestJob request = some job) : IsRequest P s.readBuffer request := by
  refine ⟨hsmall, ?_, by rw [hjob]; rfl⟩
  rw [parseBuffer, toInt_of_lt hsmall] at hparse
  exact hparse

theorem Sound.of_moves {c c' : Connection} {item : Item} {o : Outcome} (hc : c.Sound P)
    (hasks : ∀ request job, item = .requestJob request job →
      (dispatched c.session.trace).getLast? = some request ∧ job.CallsOnly request.Asks)
    (hneeds : Needs c.session.readBuffer item)
    (hm : Moves P c.session item o c'.session) (hout : c.session.outstanding = [item])
    (hstop : c.session.stopped = false) (hstream : c'.stream = c.stream)
    (hunread : c.unread = o.data ++ c'.unread)
    (hsmall : ∀ body request, item = .parseCommandJob body →
      c.session.parseBuffer P = some (.request request) → (requestJob request).isSome →
      body.length < 2 ^ 31) :
    c'.Sound P := by
  obtain ⟨bytes, rest, hsplit, hcarries, hpos⟩ := hc.frames
  have hpos := hpos hstop
  rw [Position, hout] at hpos
  rw [← hstream] at hsplit
  generalize hs' : c'.session = s' at hm
  have hframes : ∀ {rest'}, rest' = rest → dispatched s'.trace = dispatched c.session.trace →
      (s'.stopped = false → c'.Position P rest') → ∃ bytes rest, c'.stream = bytes ++ rest ∧
        Carries P bytes (dispatched c'.session.trace) ∧
        (c'.session.stopped = false → c'.Position P rest) := by
    rintro rest' rfl hd hp
    exact ⟨bytes, rest', hsplit, by rw [hs', hd]; exact hcarries, by rw [hs']; exact hp⟩
  have hcalls : ∀ {a}, s'.trace = c.session.trace ++ [a] → (∀ call r, a = .called call r →
      ∃ request, (dispatched c.session.trace).getLast? = some request ∧ request.Asks call) →
      ∀ pre call r post, c'.session.trace = pre ++ .called call r :: post →
        ∃ request, (dispatched pre).getLast? = some request ∧ request.Asks call :=
    fun ht ha => hc.calls_concat (by rw [hs', ht]) ha
  cases hm with
  | ioFailed buffer _ _ | refused _ =>
    exact ⟨hframes rfl (dispatched_concat (by simp)) (fun h => by cases h),
      hcalls rfl (fun _ _ h => by cases h)⟩
  | prefixRead hdata hparse _ _ =>
    refine ⟨hframes rfl (dispatched_concat (by simp)) fun _ => ?_,
      hcalls rfl (fun _ _ h => by cases h)⟩
    rw [Position, hs']
    exact ⟨_, Eq.trans hpos hunread, hdata, hparse⟩
  | @messageRead data n hdata =>
    refine ⟨hframes rfl (dispatched_concat (by simp)) fun _ => ?_,
      hcalls rfl (fun _ _ h => by cases h)⟩
    obtain ⟨head, hrest, hhead, hparse⟩ := hpos
    rw [Position, hs']
    exact ⟨head, n, by rw [hrest, hunread, List.append_assoc]; rfl, hhead, hparse, hdata⟩
  | @dispatched body ret request job hparse hjob =>
    obtain ⟨head, n, hrest, hhead, hn, hbody⟩ := hpos
    have hbuffer : c.session.readBuffer = body := hneeds
    have hlt := hsmall body request rfl hparse (by rw [hjob]; rfl)
    have hrequest := isRequest_of_parseBuffer (by rw [hbuffer]; exact hlt) hparse hjob
    rw [hbuffer] at hrequest
    refine ⟨⟨bytes ++ (head ++ body), c.unread, ?_, ?_, fun _ => ?_⟩,
      hcalls rfl (fun _ _ h => by cases h)⟩
    · rw [hsplit, hrest, List.append_assoc bytes]
    · rw [hs', advance]
      simpa [ClientSession.dispatched] using hcarries.concat hhead hn hbody hrequest
    · rw [Position, hs']
      exact hunread
  | @called request call k ret =>
    obtain ⟨hlast, hask, -⟩ := hasks request _ rfl
    refine ⟨hframes rfl (dispatched_concat (by simp)) fun _ => ?_, hcalls rfl fun _ _ h => ?_⟩
    · rw [Position, hs']
      exact Eq.trans hpos hunread
    · cases h
      exact ⟨request, hlast, hask⟩
  | loggedIn | state _ | setState =>
    refine ⟨hframes rfl rfl fun _ => ?_, by rw [hs']; exact hc.calls⟩
    rw [Position, hs']
    exact Eq.trans hpos hunread
  | wrote _ _ | sent _ =>
    refine ⟨hframes rfl (dispatched_concat (by simp)) fun _ => ?_,
      hcalls rfl (fun _ _ h => by cases h)⟩
    rw [Position, hs']
    exact Eq.trans hpos hunread

variable (P)

/-- The steps that do no harm. A connection in the state `c` does none of these: it reads a prefix
that announces more bytes than there is memory for a buffer; it parses a body of two gigabytes or
more, of whose size a cast to `int` leaves the size of a supported request; it writes a response
for whose buffer there is no memory. -/
def Harmless (c : Connection) (e : PeerEvent) : Prop :=
  ∀ item o unread, c.session.outstanding = [item] → c.event e = some (.item 0 o, unread) →
    match item, o with
    | .readPrefix, .read false data =>
        ∀ n, data.length = PREFIX_SIZE → P.pb.parsePrefix data = some n → n.toNat ≤ P.memory
    | .parseCommandJob body, .run _ =>
        2 ^ 31 ≤ body.length → ∀ request,
          P.pb.parseFromArray body (toInt body.length) = some (.request request) →
            requestJob request = none
    | .requestJob _ (.write mesg _), .run _ => writeSize P mesg ≤ P.memory
    | _, _ => True

variable {P}

/-- A harmless step ends no process. -/
theorem Invariant.not_crash {c : Connection} {e : PeerEvent} (hc : c.Invariant P)
    (hharm : c.Harmless P e) (crash : Crash) : c.handle P e ≠ some (.error crash) := by
  intro h
  simp only [handle, Option.bind_eq_bind, Option.bind_eq_some_iff, Prod.exists] at h
  obtain ⟨e', unread, he, r, hr, h⟩ := h
  cases r with
  | ok session => cases h
  | error crash' =>
    obtain ⟨item, o, hout, hstop, rfl, hcrash⟩ := handle_crashes hc.holds hr
    have hno := hharm item o unread hout he
    cases hcrash with
    | announced hdata hparse hsize => exact absurd (hno _ hdata hparse) (not_le.mpr hsize)
    | state _ => exact hc.identified.inOrder.not_assertionFailed hc.holds _ hr
    | response hsize => exact absurd hno (not_le.mpr hsize)

end Connection

/-! ### The server stays up -/

namespace ElegramServer

/-- The server runs, and every session has acted upon well-formed request frames only. -/
structure Sound (P : Platform) (s : ElegramServer) : Prop where
  up : s.terminated = false
  connections : ∀ c ∈ s.connections, c.Sound P

structure Invariant (P : Platform) (s : ElegramServer) : Prop where
  up : s.terminated = false
  connections : ∀ c ∈ s.connections, c.Invariant P

/-- The steps that do no harm, see `Connection.Harmless`. -/
def Harmless (P : Platform) (s : ElegramServer) : Event → Prop
  | .accept _ => True
  | .peer i e => ∀ c, s.connections[i]? = some c → c.Harmless P e

theorem Invariant.sound {s : ElegramServer} (hs : s.Invariant P) : s.Sound P :=
  ⟨hs.up, fun c hc => (hs.connections c hc).sound⟩

theorem initial_invariant : initial.Invariant P := ⟨rfl, fun _ hc => by cases hc⟩

end ElegramServer

end Elegram
