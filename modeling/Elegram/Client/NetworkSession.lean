import Elegram.Client.Reassembly
import Elegram.Client.Requests

/-!
# One session, several connections

`Session` of the client is constructed once and reconnects whenever the user changes the connection
settings or the connection is lost. `connect` aborts and reopens the socket; it touches neither
`m_bytesReaded` and `m_messageSize` nor `m_callback`. `clean_iff` says what this means for the new
connection: the session behaves like a new one exactly if the old connection did not end between a
prefix and its body and no request had been sent; if the new connection begins with a request, then
exactly if the old one did not end between a prefix and its body.

One direction is a simulation: `SameFraming` relates sessions that differ in the contents of the
buffer and, between two frames, in the length announced last. The other one is a frame that the new
session delivers and the old one does not (`exists_lost`).
-/

namespace Elegram

open Transition

/-! ### The machine -/

/-- A `Session` with `m_callback`, for which a number stands. `invoked` and `sent` record the
invocations of callbacks and, for the current connection, the bytes written. -/
structure NetworkSession where
  session : Session
  callback : Option ℕ
  invoked : List (ℕ × Response)
  sent : List UInt8
  deriving DecidableEq

namespace NetworkSession

variable (pb : Protobuf)

inductive Event
  /-- `Session::connect` has been called, and the connection is there. -/
  | connected
  | disconnected
  | request (mesg : Request) (callback : ℕ)
  /-- Bytes arrive, and `onReadyRead` runs. -/
  | readyRead (chunk : List UInt8)

/-- A constructed session. -/
def constructed : NetworkSession where
  session := { Session.initial with sock := { connected := false, incoming := [] } }
  callback := none
  invoked := []
  sent := []

def connect (s : NetworkSession) : NetworkSession :=
  { s with session := { s.session with sock := { connected := true, incoming := [] } }, sent := [] }

/-- The invocations of `m_callback`; an empty one throws. -/
def invoke : Option ℕ → List Response → Option (List (ℕ × Response))
  | some callback, responses => some (responses.map fun response => (callback, response))
  | none, [] => some []
  | none, _ :: _ => none

/-- Requests are only sent, and bytes only arrive, over a connection. The step is undefined where
the source is. -/
def step (s : NetworkSession) : Event → Option NetworkSession
  | .connected => some s.connect
  | .disconnected =>
    some { s with session := { s.session with sock := { s.session.sock with connected := false } } }
  | .request mesg callback =>
    if s.session.sock.connected then do
      let (data, session) ← s.session.request pb mesg
      some { s with session := session, callback := some callback, sent := s.sent ++ data }
    else some s
  | .readyRead chunk =>
    if s.session.sock.connected then do
      let session ← s.session.readyRead pb chunk
      let invoked ← invoke s.callback session.callbacks
      some { s with
        session := { session with callbacks := [] }, invoked := s.invoked ++ invoked }
    else some s

/-- The callbacks invoked when the events have happened, or when the program has ended. -/
def invocations (s : NetworkSession) : List Event → List (ℕ × Response)
  | [] => s.invoked
  | e :: es =>
    match s.step pb e with
    | none => s.invoked
    | some s' => s'.invocations es

/-- What happens while a connection lasts. -/
def Event.Local : Event → Prop
  | .request .. | .readyRead _ => True
  | .connected | .disconnected => False

/-- On a new connection, the session does what a new session does. -/
def Clean (s : NetworkSession) (es : List Event) : Prop :=
  ({ s with invoked := [] }.connect).invocations pb es = constructed.connect.invocations pb es

end NetworkSession

/-! ### Two sessions -/

namespace Session

variable {pb : Protobuf}

/-- The sessions differ at most in the contents of their buffers and, between two frames, in the
announced length. -/
structure SameFraming (s t : Session) : Prop where
  sock : s.sock = t.sock
  bytesReaded : s.bytesReaded = t.bytesReaded
  messageSize : s.bytesReaded ≠ 0 → s.messageSize = t.messageSize
  callbacks : s.callbacks = t.callbacks

/-- Where one message can be read, so can the other. -/
theorem readMessage_isSome_congr {m : ℤ} {s t : Session} (h : s.sock = t.sock)
    (hs : (readMessage pb m s).isSome) : (readMessage pb m t).isSome := by
  obtain ⟨⟨r, s'⟩, hread⟩ := Option.isSome_iff_exists.mp hs
  simp only [readMessage, Option.bind_eq_bind, Option.bind_eq_some_iff, Prod.exists] at hread
  obtain ⟨buffer, hresize, readed, buffer', sock', hread, hrest⟩ := hread
  have hneg : ¬ readed < 0 := by
    intro hneg
    rw [if_pos hneg] at hrest
    cases hrest
  obtain ⟨hm, hroom⟩ := QTcpSocket.read_some hread hneg
  rw [QTcpSocket.read_of_nonneg hm hroom] at hread
  cases hread
  -- the buffers have the same size
  rw [resize] at hresize
  split_ifs at hresize with hsize
  cases hresize
  rw [List.takeD_length, h] at hroom
  simp only [readMessage, resize, if_pos hsize, Option.bind_eq_bind, Option.bind_some]
  rw [QTcpSocket.read_of_nonneg hm (by rwa [List.takeD_length])]
  simp only [Option.bind_some]
  rw [if_neg (by omega)]
  rfl

/-- A load depends on the socket and on the announced length. -/
theorem loadMesg_congr {s t s' : Session} (hsock : s.sock = t.sock)
    (hsize : s.messageSize = t.messageSize) (hcb : s.callbacks = t.callbacks)
    (h : loadMesg pb s = some s') :
    ∃ t', loadMesg pb t = some t' ∧ s'.sock = t'.sock ∧ s'.callbacks = t'.callbacks := by
  simp only [loadMesg, Option.bind_eq_bind, Option.bind_eq_some_iff, Prod.exists] at h
  obtain ⟨r, s₁, hread, h⟩ := h
  rw [hsize] at hread
  have hsome := readMessage_isSome_congr hsock (Option.isSome_of_mem hread)
  obtain ⟨⟨r', t₁⟩, hread'⟩ := Option.isSome_iff_exists.mp hsome
  obtain ⟨-, hr, hsock₁, hcb₁⟩ := readMessage_some hread
  obtain ⟨-, hr', hsock₂, hcb₂⟩ := readMessage_some hread'
  rw [hsock] at hr hsock₁
  have heq : r' = r := hr'.trans hr.symm
  subst heq
  have hsock' : s₁.sock = t₁.sock := hsock₁.trans hsock₂.symm
  have hcb' : s₁.callbacks = t₁.callbacks := by rw [hcb₁, hcb₂, hcb]
  simp only [loadMesg, Option.bind_eq_bind, hread', Option.bind_some]
  cases r' with
  | none =>
    cases h
    exact ⟨_, rfl, by rw [hsock'], hcb'⟩
  | some message =>
    cases h
    cases message with
    | response mesg => exact ⟨_, rfl, hsock', by simp only [processResponse, hcb']⟩
    | request mesg => exact ⟨_, rfl, hsock', hcb'⟩
    | msgNotSet => exact ⟨_, rfl, hsock', hcb'⟩

theorem SameFraming.symm {s t : Session} (h : SameFraming s t) : SameFraming t s where
  sock := h.sock.symm
  bytesReaded := h.bytesReaded.symm
  messageSize := fun hne => (h.messageSize (by rwa [h.bytesReaded])).symm
  callbacks := h.callbacks.symm

theorem SameFraming.refl (s : Session) : SameFraming s s := ⟨rfl, rfl, fun _ => rfl, rfl⟩

theorem SameFraming.reset {s t : Session} (h : SameFraming s t) :
    SameFraming { s with bytesReaded := 0 } { t with bytesReaded := 0 } :=
  ⟨h.sock, rfl, fun hne => absurd rfl hne, h.callbacks⟩

/-- A load in the same phase, after which the next frame begins. -/
theorem SameFraming.load {s t s' : Session} (h : SameFraming s t)
    (hsize : s.messageSize = t.messageSize)
    (hload : (loadMesg pb s).bind (fun s' => some { s' with bytesReaded := 0 }) = some s') :
    ∃ t', (loadMesg pb t).bind (fun t' => some { t' with bytesReaded := 0 }) = some t' ∧
      SameFraming s' t' := by
  obtain ⟨s₁, hs₁, heq⟩ := Option.bind_eq_some_iff.mp hload
  cases heq
  obtain ⟨t₁, ht₁, hsock, hcb⟩ := loadMesg_congr h.sock hsize h.callbacks hs₁
  refine ⟨{ t₁ with bytesReaded := 0 }, by rw [ht₁, Option.bind_some], hsock, rfl,
    fun hne => absurd rfl hne, hcb⟩

/-- **Same framing, same slot.** -/
theorem SameFraming.onReadyRead {s t s' : Session} (h : SameFraming s t)
    (hs : s.onReadyRead pb = some s') :
    ∃ t', t.onReadyRead pb = some t' ∧ SameFraming s' t' := by
  by_cases h₁ : s.bytesReaded < PREFIX_SIZE ∧ s.sock.bytesAvailable ≥ PREFIX_SIZE
  · have h₁' : t.bytesReaded < PREFIX_SIZE ∧ t.sock.bytesAvailable ≥ PREFIX_SIZE := by
      rwa [← h.bytesReaded, ← h.sock]
    have havail : PREFIX_SIZE ≤ s.sock.incoming.length := by
      have hge := h₁.2
      rw [QTcpSocket.bytesAvailable] at hge
      omega
    refine ⟨s', ?_, .refl s'⟩
    rw [Session.onReadyRead, if_pos h₁, Option.bind_eq_bind,
      readPrefix_eq pb (s := { s with bytesReaded := 0 }) havail, Option.bind_some] at hs
    rw [Session.onReadyRead, if_pos h₁', Option.bind_eq_bind,
      readPrefix_eq pb (s := { t with bytesReaded := 0 }) (by rwa [← h.sock]), Option.bind_some]
    -- the sessions that have taken the prefix are equal
    obtain ⟨sock, buffer, bytesReaded, messageSize, callbacks⟩ := s
    obtain ⟨sock', buffer', bytesReaded', messageSize', callbacks'⟩ := t
    obtain ⟨rfl, rfl, -, rfl⟩ := h
    exact hs
  · have h₁' : ¬ (t.bytesReaded < PREFIX_SIZE ∧ t.sock.bytesAvailable ≥ PREFIX_SIZE) := by
      rwa [← h.bytesReaded, ← h.sock]
    rw [Session.onReadyRead, if_neg h₁] at hs
    rw [Session.onReadyRead, if_neg h₁']
    by_cases h9 : s.bytesReaded = PREFIX_SIZE
    · have hsize := h.messageSize (by rw [h9]; decide)
      rw [← h.bytesReaded, ← h.sock, ← hsize]
      split_ifs at hs ⊢ with hload
      · exact h.load hsize hs
      · cases hs
        exact ⟨{ t with bytesReaded := 0 }, by rw [h.sock, hsize], h.reset⟩
    · rw [if_neg fun hc => h9 hc.1] at hs
      rw [if_neg fun hc => h9 (h.bytesReaded.trans hc.1)]
      cases hs
      exact ⟨_, rfl, h.reset⟩

/-- Between two events, no bytes or those of a prefix count as read. -/
theorem bytesReaded_of_onReadyRead {s s' : Session} (h : s.onReadyRead pb = some s') :
    s'.bytesReaded = 0 ∨ s'.bytesReaded = PREFIX_SIZE := by
  rw [Session.onReadyRead] at h
  split_ifs at h with h₁ h₂
  · have havail : PREFIX_SIZE ≤ s.sock.incoming.length := by
      have hge := h₁.2
      rw [QTcpSocket.bytesAvailable] at hge
      omega
    rw [Option.bind_eq_bind, readPrefix_eq pb (s := { s with bytesReaded := 0 }) havail,
      Option.bind_some] at h
    dsimp only at h
    split_ifs at h
    · cases h
      exact .inl rfl
    · obtain ⟨_, -, heq⟩ := Option.bind_eq_some_iff.mp h
      cases heq
      exact .inl rfl
    · cases h
      exact .inr rfl
  · obtain ⟨_, -, heq⟩ := Option.bind_eq_some_iff.mp h
    cases heq
    exact .inl rfl
  · cases h
    exact .inl rfl

/-- A request can be written from both sessions. -/
theorem request_congr {r : Request} {s t s' : Session} {data : List UInt8}
    (hs : s.request pb r = some (data, s')) :
    s' = { s with buffer := data } ∧
      ∃ data', t.request pb r = some (data', { t with buffer := data' }) := by
  simp only [request] at hs ⊢
  split_ifs at hs ⊢ with hsize
  obtain ⟨buffer, hresize, hdata⟩ := Option.map_eq_some_iff.mp hs
  rw [resize] at hresize
  split_ifs at hresize with hpos
  simp only [Prod.mk.injEq] at hdata
  obtain ⟨rfl, rfl⟩ := hdata
  refine ⟨rfl, ?_⟩
  rw [resize, if_pos hpos, Option.map_some]
  exact ⟨_, rfl⟩

/-! ### A frame that gets lost -/

variable (pb) in
/-- A frame that arrives as a whole at the beginning of a connection is delivered. -/
theorem readyRead_frame {s : Session} {r : Response} (h0 : s.bytesReaded = 0)
    (hin : s.sock.incoming = []) (hpos : 0 < (pb.serialize (.response r)).length)
    (hlt : (pb.serialize (.response r)).length < 2 ^ 31) :
    ∃ s', s.readyRead pb (pb.frame (.response r)) = some s' ∧
      s'.callbacks = s.callbacks ++ [r] := by
  have hlt' : (pb.serialize (.response r)).length < 2 ^ 64 := hlt.trans (by decide)
  have hsize := Protobuf.toNat_byteSize hlt'
  have hne := Protobuf.byteSize_ne hpos hlt'
  rw [readyRead]
  have harrive : (s.arrive (pb.frame (.response r))).sock.incoming =
      serializePrefix (pb.byteSize (.response r)) ++ pb.serialize (.response r) := by
    rw [arrive, hin, List.nil_append, Protobuf.frame]
  have h0' : (s.arrive (pb.frame (.response r))).bytesReaded = 0 := h0
  have hcb' : (s.arrive (pb.frame (.response r))).callbacks = s.callbacks := rfl
  generalize s.arrive (pb.frame (.response r)) = t at harrive h0' hcb' ⊢
  have hslot := onReadyRead_prefix pb hne (by omega) h0' harrive
  rw [if_pos hsize.symm] at hslot
  have hbody : t.prefixTaken.sock.incoming = pb.serialize (.response r) := by
    rw [prefixTaken, harrive, List.drop_left' (length_serializePrefix hne)]
  obtain ⟨s', hload, -, hcb⟩ := loadMesg_response
    (s := { t.prefixTaken with messageSize := (pb.byteSize (.response r)).toNat }) hbody hlt
    (by rw [hsize])
  refine ⟨{ s' with bytesReaded := 0 }, ?_, ?_⟩
  · rw [hslot, hload, Option.bind_some]
  · rw [← hcb']
    exact hcb

/-- Whatever length a session is left with, there is a frame that it does not deliver. -/
theorem exists_lost (hpb : pb.Generated) (hmin : pb.Minimal) (size : ℤ) :
    ∃ r, (pb.serialize (.response r)).length < 2 ^ 31 ∧ ∀ s s' : Session,
      s.bytesReaded = PREFIX_SIZE → s.messageSize = size → s.sock.incoming = [] →
      s.callbacks = [] → s.readyRead pb (pb.frame (.response r)) = some s' → r ∉ s'.callbacks := by
  by_cases hsize : size ≤ 11
  · -- the message is longer than what is taken for it
    let r : Response := .chatsResponse [⟨1, ""⟩, ⟨1, ""⟩, ⟨1, ""⟩]
    have hlen : (pb.serialize (.response r)).length = 16 := by
      rw [hpb]
      decide
    refine ⟨r, by omega, fun s s' h9 hs hin hcb hread => ?_⟩
    have hframe : (pb.frame (.response r)).length = _ := Protobuf.length_frame (by omega) (by omega)
    generalize pb.frame (.response r) = chunk at hframe hread
    have havail : (s.arrive chunk).messageSize ≤ (s.arrive chunk).sock.incoming.length := by
      change s.messageSize ≤ _
      simp only [arrive, List.length_append, hframe]
      omega
    have h9' : (s.arrive chunk).bytesReaded = PREFIX_SIZE := h9
    rw [readyRead, onReadyRead_body h9' havail] at hread
    obtain ⟨s₁, hload, heq⟩ := Option.bind_eq_some_iff.mp hread
    cases heq
    have hcb' : (s.arrive chunk).callbacks = [] := hcb
    obtain ⟨-, hsame | ⟨mesg, hparse, hnew⟩⟩ := loadMesg_parses hload
    · change r ∉ s₁.callbacks
      rw [hsame, hcb']
      exact List.not_mem_nil
    · change r ∉ s₁.callbacks
      rw [hnew, hcb', List.nil_append, List.mem_singleton]
      rintro rfl
      have hle := hmin _ _ hparse
      rw [List.length_take, hlen] at hle
      change _ ≤ min s.messageSize.toNat _ at hle
      omega
  · -- the message is too short to be looked at
    have hlen : (pb.serialize (.response .msgNotSet)).length = 2 := by
      rw [hpb]
      decide
    refine ⟨.msgNotSet, by omega, fun s s' h9 hs hin hcb hread => ?_⟩
    have hframe : (pb.frame (.response .msgNotSet)).length = _ :=
      Protobuf.length_frame (by omega) (by omega)
    generalize pb.frame (.response .msgNotSet) = chunk at hframe hread
    have havail : ((s.arrive chunk).sock.incoming.length : ℤ) < (s.arrive chunk).messageSize := by
      change _ < s.messageSize
      simp only [arrive, hin, List.nil_append, hframe, hlen, PREFIX_SIZE]
      omega
    have h9' : (s.arrive chunk).bytesReaded = PREFIX_SIZE := h9
    rw [readyRead, onReadyRead_body_incomplete h9' havail] at hread
    cases hread
    change _ ∉ s.callbacks
    rw [hcb]
    exact List.not_mem_nil

end Session

namespace NetworkSession

variable {pb : Protobuf}

/-! ### The simulation -/

/-- What the callbacks depend on is the same. -/
structure Similar (s t : NetworkSession) : Prop where
  framing : s.session.SameFraming t.session
  callback : s.callback = t.callback
  invoked : s.invoked = t.invoked

theorem Similar.symm {s t : NetworkSession} (h : Similar s t) : Similar t s :=
  ⟨h.framing.symm, h.callback.symm, h.invoked.symm⟩

theorem Similar.step {s t s' : NetworkSession} {e : Event} (h : Similar s t)
    (hs : s.step pb e = some s') : ∃ t', t.step pb e = some t' ∧ Similar s' t' := by
  have hsock := h.framing.sock
  cases e with
  | connected =>
    cases hs
    exact ⟨_, rfl, ⟨rfl, h.framing.bytesReaded, h.framing.messageSize, h.framing.callbacks⟩,
      h.callback, h.invoked⟩
  | disconnected =>
    cases hs
    exact ⟨_, rfl, ⟨by rw [hsock], h.framing.bytesReaded, h.framing.messageSize,
      h.framing.callbacks⟩, h.callback, h.invoked⟩
  | request mesg callback =>
    simp only [NetworkSession.step, ← hsock] at hs ⊢
    split_ifs at hs ⊢ with hconn
    · obtain ⟨⟨data, session⟩, hrequest, heq⟩ := Option.bind_eq_some_iff.mp hs
      cases heq
      obtain ⟨rfl, data', hrequest'⟩ := Session.request_congr (t := t.session) hrequest
      rw [hrequest', Option.bind_eq_bind, Option.bind_some]
      exact ⟨_, rfl, ⟨hsock, h.framing.bytesReaded, h.framing.messageSize, h.framing.callbacks⟩,
        rfl, h.invoked⟩
    · cases hs
      exact ⟨_, rfl, h⟩
  | readyRead chunk =>
    simp only [NetworkSession.step, ← hsock] at hs ⊢
    split_ifs at hs ⊢ with hconn
    · obtain ⟨session, hread, hs⟩ := Option.bind_eq_some_iff.mp hs
      obtain ⟨invoked, hinvoked, heq⟩ := Option.bind_eq_some_iff.mp hs
      cases heq
      have harrive : (s.session.arrive chunk).SameFraming (t.session.arrive chunk) :=
        ⟨by rw [Session.arrive, Session.arrive, hsock], h.framing.bytesReaded,
          h.framing.messageSize, h.framing.callbacks⟩
      obtain ⟨session', hread', hframing⟩ := harrive.onReadyRead hread
      rw [Session.readyRead, hread', Option.bind_eq_bind, Option.bind_some, ← hframing.callbacks]
      rw [h.callback] at hinvoked
      rw [hinvoked]
      exact ⟨_, rfl, ⟨hframing.sock, hframing.bytesReaded, hframing.messageSize, rfl⟩, h.callback,
        congrArg (· ++ invoked) h.invoked⟩
    · cases hs
      exact ⟨_, rfl, h⟩

/-- **Similar sessions invoke the same callbacks.** -/
theorem Similar.invocations {s t : NetworkSession} (h : Similar s t) (es : List Event) :
    s.invocations pb es = t.invocations pb es := by
  induction es generalizing s t with
  | nil => exact h.invoked
  | cons e es ih =>
    rw [NetworkSession.invocations, NetworkSession.invocations]
    cases hs : s.step pb e with
    | some s' =>
      obtain ⟨t', ht, h'⟩ := h.step hs
      rw [ht]
      exact ih h'
    | none =>
      cases ht : t.step pb e with
      | none => exact h.invoked
      | some t' =>
        obtain ⟨s', hs', -⟩ := h.symm.step ht
        rw [hs] at hs'
        cases hs'

/-- Between two events, no callback is due, and no bytes or those of a prefix count as read. -/
structure BetweenEvents (s : NetworkSession) : Prop where
  callbacks : s.session.callbacks = []
  bytesReaded : s.session.bytesReaded = 0 ∨ s.session.bytesReaded = PREFIX_SIZE

theorem BetweenEvents.of_step {s s' : NetworkSession} {e : Event} (h : BetweenEvents s)
    (hstep : s.step pb e = some s') : BetweenEvents s' := by
  cases e with
  | connected =>
    cases hstep
    exact ⟨h.callbacks, h.bytesReaded⟩
  | disconnected =>
    cases hstep
    exact ⟨h.callbacks, h.bytesReaded⟩
  | request mesg callback =>
    rw [NetworkSession.step] at hstep
    split_ifs at hstep
    · obtain ⟨⟨data, session⟩, hrequest, heq⟩ := Option.bind_eq_some_iff.mp hstep
      cases heq
      obtain ⟨rfl, -⟩ := Session.request_congr (t := s.session) hrequest
      exact ⟨h.callbacks, h.bytesReaded⟩
    · cases hstep
      exact h
  | readyRead chunk =>
    rw [NetworkSession.step] at hstep
    split_ifs at hstep
    · obtain ⟨session, hread, hstep⟩ := Option.bind_eq_some_iff.mp hstep
      obtain ⟨invoked, -, heq⟩ := Option.bind_eq_some_iff.mp hstep
      have hphase := Session.bytesReaded_of_onReadyRead hread
      cases heq
      exact ⟨rfl, hphase⟩
    · cases hstep
      exact h

theorem reachable_betweenEvents {s : NetworkSession}
    (h : Reachable (NetworkSession.step pb) constructed s) : BetweenEvents s :=
  h.invariant (fun _ _ _ hs hstep => hs.of_step hstep) ⟨rfl, .inl rfl⟩

/-- A session between two frames is like a new one but for its callback. -/
theorem similar_constructed {s : NetworkSession} (h : BetweenEvents s)
    (h0 : s.session.bytesReaded = 0) (callback : Option ℕ) :
    Similar { ({ s with invoked := [] } : NetworkSession).connect with callback := callback }
      { constructed.connect with callback := callback } :=
  ⟨⟨rfl, h0, fun hne => absurd h0 hne, h.callbacks⟩, rfl, rfl⟩

/-! ### New connections -/

/-- A request is written and its callback stored. -/
theorem step_request (hpb : pb.Generated) (s : NetworkSession) (callback : ℕ) :
    ∃ s', s.connect.step pb (.request MessageFactory.createAllMyChatsRequest callback) = some s' ∧
      Similar s' { s.connect with callback := some callback } := by
  have hlt : (pb.serialize (.request MessageFactory.createAllMyChatsRequest)).length <
      2 ^ 31 - 9 := by
    rw [hpb]
    decide
  have hconn : s.connect.session.sock.connected = true := rfl
  rw [NetworkSession.step, if_pos hconn, Session.request_eq hpb hlt]
  exact ⟨_, rfl, ⟨rfl, rfl, fun _ => rfl, rfl⟩, rfl, rfl⟩

variable (pb) in
/-- A request makes the previous callback irrelevant. -/
theorem invocations_request {s : NetworkSession} (hconn : s.session.sock.connected = true)
    (mesg : Request) (callback : ℕ) (other : Option ℕ) (es : List Event) :
    s.invocations pb (.request mesg callback :: es) =
      ({ s with callback := other } : NetworkSession).invocations pb
        (.request mesg callback :: es) := by
  have hstep : s.step pb (.request mesg callback) =
      ({ s with callback := other } : NetworkSession).step pb (.request mesg callback) := by
    rw [NetworkSession.step, if_pos hconn, NetworkSession.step, if_pos hconn]
  rw [invocations, invocations, hstep]

/-- A frame that arrives between two frames reaches the callback, or throws where there is none. -/
theorem step_readyRead (hpb : pb.Generated) {s : NetworkSession}
    (hconn : s.session.sock = { connected := true, incoming := [] })
    (h0 : s.session.bytesReaded = 0) (hcb : s.session.callbacks = []) {r : Response}
    (hlt : (pb.serialize (.response r)).length < 2 ^ 31) :
    (s.step pb (.readyRead (pb.frame (.response r)))).map NetworkSession.invoked =
      s.callback.map fun callback => s.invoked ++ [(callback, r)] := by
  obtain ⟨session, hread, hnew⟩ := Session.readyRead_frame pb h0 (by rw [hconn])
    (hpb.serialize_pos fun h => by cases h) hlt
  rw [hcb, List.nil_append] at hnew
  rw [NetworkSession.step, if_pos (by rw [hconn]), hread, Option.bind_eq_bind, Option.bind_some,
    hnew]
  cases s.callback <;> rfl

/-- A response that the slot does not hand over is not invoked. -/
theorem not_mem_of_readyRead {s : NetworkSession} {chunk : List UInt8} {r : Response}
    (hconn : s.session.sock.connected = true) (hinvoked : s.invoked = [])
    (hlost : ∀ session, s.session.readyRead pb chunk = some session → r ∉ session.callbacks)
    (callback : ℕ) :
    (callback, r) ∉ ((s.step pb (.readyRead chunk)).map NetworkSession.invoked).getD s.invoked := by
  rw [NetworkSession.step, if_pos hconn]
  cases hread : s.session.readyRead pb chunk with
  | none => simp [hinvoked]
  | some session =>
    have hnot := hlost session hread
    rw [Option.bind_eq_bind, Option.bind_some]
    cases hinvoke : invoke s.callback session.callbacks with
    | none => simp [hinvoked]
    | some invoked =>
      have hresponses : ∀ x ∈ invoked, x.2 ∈ session.callbacks := by
        intro x hx
        cases hs : s.callback with
        | some callback =>
          rw [hs, invoke, Option.some_inj] at hinvoke
          rw [← hinvoke] at hx
          obtain ⟨response, hresponse, rfl⟩ := List.mem_map.mp hx
          exact hresponse
        | none =>
          cases hresponses : session.callbacks with
          | nil =>
            rw [hs, hresponses, invoke, Option.some_inj] at hinvoke
            rw [← hinvoke] at hx
            cases hx
          | cons response responses =>
            rw [hs, hresponses] at hinvoke
            cases hinvoke
      intro hmem
      change (callback, r) ∈ s.invoked ++ invoked at hmem
      rw [hinvoked, List.nil_append] at hmem
      exact hnot (hresponses _ hmem)

theorem invocations_single (s : NetworkSession) (e : Event) :
    s.invocations pb [e] = ((s.step pb e).map NetworkSession.invoked).getD s.invoked := by
  rw [invocations]
  cases s.step pb e <;> rfl

/-- A session that has read a prefix loses a response of the new connection. -/
theorem not_clean_of_prefix (hpb : pb.Generated) (hmin : pb.Minimal) {s : NetworkSession}
    (hs : BetweenEvents s) (h9 : s.session.bytesReaded = PREFIX_SIZE) :
    ∃ r, ¬ s.Clean pb [.request MessageFactory.createAllMyChatsRequest 0,
      .readyRead (pb.frame (.response r))] := by
  obtain ⟨r, hlt, hlost⟩ := Session.exists_lost hpb hmin s.session.messageSize
  obtain ⟨s₁, hrequest, hs₁⟩ := step_request hpb { s with invoked := [] } 0
  obtain ⟨t₁, hrequest', ht₁⟩ := step_request hpb constructed 0
  refine ⟨r, fun hclean => ?_⟩
  rw [Clean, invocations, invocations, hrequest, hrequest'] at hclean
  dsimp only at hclean
  -- the new session delivers the response
  have hnew := step_readyRead (s := { constructed.connect with callback := some 0 }) hpb rfl rfl rfl
    hlt
  rw [ht₁.invocations, invocations_single, invocations_single, hnew] at hclean
  change _ = [(0, r)] at hclean
  -- but not the old one
  have hphase : s₁.session.bytesReaded = PREFIX_SIZE := hs₁.framing.bytesReaded.trans h9
  have hsize : s₁.session.messageSize = s.session.messageSize :=
    hs₁.framing.messageSize (by rw [hphase]; decide)
  refine not_mem_of_readyRead (by rw [hs₁.framing.sock]; rfl) hs₁.invoked
    (fun session hread => hlost _ session hphase hsize (by rw [hs₁.framing.sock]; rfl)
      (hs₁.framing.callbacks.trans hs.callbacks) hread) 0 ?_
  exact hclean ▸ List.mem_singleton_self _

/-- A session with a callback invokes it for a response that nobody has asked for. -/
theorem not_clean_of_callback (hpb : pb.Generated) {s : NetworkSession} (hs : BetweenEvents s)
    (h0 : s.session.bytesReaded = 0) {callback : ℕ} (hcallback : s.callback = some callback) :
    ¬ s.Clean pb [.readyRead (pb.frame (.response .msgNotSet))] := by
  have hlt : (pb.serialize (.response .msgNotSet)).length < 2 ^ 31 := by
    rw [hpb]
    decide
  intro hclean
  have hold := step_readyRead (s := ({ s with invoked := [] } : NetworkSession).connect) hpb rfl h0
    hs.callbacks hlt
  have hnew := step_readyRead (s := constructed.connect) hpb rfl rfl rfl hlt
  rw [Clean, invocations_single, invocations_single, hold, hnew] at hclean
  change ((s.callback).map fun callback => [] ++ [(callback, Response.msgNotSet)]).getD [] = []
    at hclean
  rw [hcallback] at hclean
  cases hclean

/-- **New connections.** Let a session be reached over any connections, requests and chunks. On a
new connection it invokes the same callbacks as a new session, whatever happens there, exactly if it
has not stopped between a prefix and its body and no request has been sent; and, if the first thing
that happens there is a request, exactly if it has not stopped between a prefix and its body. -/
theorem clean_iff (hpb : pb.Generated) (hmin : pb.Minimal) {s : NetworkSession}
    (h : Reachable (NetworkSession.step pb) constructed s) :
    ((∀ es, (∀ e ∈ es, e.Local) → s.Clean pb es) ↔
      s.session.bytesReaded ≠ PREFIX_SIZE ∧ s.callback = none) ∧
    ((∀ mesg callback es, (∀ e ∈ es, e.Local) → s.Clean pb (.request mesg callback :: es)) ↔
      s.session.bytesReaded ≠ PREFIX_SIZE) := by
  have hs := reachable_betweenEvents h
  have hfirst : ∀ r, ∀ e ∈ [Event.readyRead (pb.frame (.response r))], e.Local := by
    intro r e he
    rw [List.mem_singleton.mp he]
    trivial
  refine ⟨⟨fun hclean => ?_, fun ⟨h9, hcallback⟩ es hes => ?_⟩,
    fun hclean h9 => ?_, fun h9 mesg callback es hes => ?_⟩
  · have h9 : s.session.bytesReaded ≠ PREFIX_SIZE := by
      intro h9
      obtain ⟨r, hbad⟩ := not_clean_of_prefix hpb hmin hs h9
      refine hbad (hclean _ fun e he => ?_)
      rcases List.mem_cons.mp he with rfl | he
      · trivial
      · exact hfirst r e he
    refine ⟨h9, ?_⟩
    cases hcallback : s.callback with
    | none => rfl
    | some callback =>
      have h0 := hs.bytesReaded.resolve_right h9
      exact absurd (hclean _ (hfirst _)) (not_clean_of_callback hpb hs h0 hcallback)
  · have hsimilar := similar_constructed hs (hs.bytesReaded.resolve_right h9) none
    rw [Clean]
    have hsame : ({ ({ s with invoked := [] } : NetworkSession).connect with callback := none } :
        NetworkSession) = ({ s with invoked := [] } : NetworkSession).connect := by
      rw [connect, ← hcallback]
    rw [hsame] at hsimilar
    exact hsimilar.invocations es
  · obtain ⟨r, hbad⟩ := not_clean_of_prefix hpb hmin hs h9
    exact hbad (hclean _ _ _ (hfirst r))
  · have hsimilar := similar_constructed hs (hs.bytesReaded.resolve_right h9) none
    have hsame := invocations_request pb (s := ({ s with invoked := [] } :
      NetworkSession).connect) rfl mesg callback none es
    rw [Clean, hsame]
    exact hsimilar.invocations _

/-- A response of which only the prefix and two of four bytes arrive before the connection ends. -/
def cutInBody : List Event :=
  [.connected, .request (MessageFactory.createLoginRequest "a" "b") 0,
    .readyRead ((proto3.frame (.response (.statusResponse .accepted))).take 11), .disconnected]

/-- A request for the chats, and its response. -/
def loadChats : List Event :=
  [.request MessageFactory.createAllMyChatsRequest 1,
    .readyRead (proto3.frame (.response (.chatsResponse [])))]

theorem not_clean_cutInBody : ∃ s, run (step proto3) constructed cutInBody = some s ∧
    ({ s with invoked := [] } : NetworkSession).connect.invocations proto3 loadChats = [] ∧
    constructed.connect.invocations proto3 loadChats = [(1, .chatsResponse [])] ∧
    (∀ e ∈ loadChats, e.Local) ∧ ¬ s.Clean proto3 loadChats := by
  have hrun : (run (step proto3) constructed cutInBody).map (fun s =>
      ({ s with invoked := [] } : NetworkSession).connect.invocations proto3 loadChats) =
      some [] := by decide +kernel
  have hnew : constructed.connect.invocations proto3 loadChats = [(1, .chatsResponse [])] := by
    decide +kernel
  obtain ⟨s, hs, hold⟩ := Option.map_eq_some_iff.mp hrun
  refine ⟨s, hs, hold, hnew, fun e he => ?_, fun hclean => ?_⟩
  · simp only [loadChats, List.mem_cons, List.not_mem_nil, or_false] at he
    rcases he with rfl | rfl <;> trivial
  · rw [Clean, hold, hnew] at hclean
    cases hclean

/-- The same response, one byte shorter than its prefix. -/
def cutInPrefix : List Event :=
  [.connected, .request (MessageFactory.createLoginRequest "a" "b") 0,
    .readyRead ((proto3.frame (.response (.statusResponse .accepted))).take 8), .disconnected]

theorem clean_cutInPrefix : ∃ s, run (step proto3) constructed cutInPrefix = some s ∧
    s.session.bytesReaded = 0 ∧
    ((∀ es, (∀ e ∈ es, e.Local) → s.Clean proto3 es) ↔
      s.session.bytesReaded ≠ PREFIX_SIZE ∧ s.callback = none) ∧
    ((∀ mesg callback es, (∀ e ∈ es, e.Local) →
      s.Clean proto3 (.request mesg callback :: es)) ↔ s.session.bytesReaded ≠ PREFIX_SIZE) := by
  have hrun : (run (step proto3) constructed cutInPrefix).map (fun s => s.session.bytesReaded) =
      some 0 := by decide +kernel
  obtain ⟨s, hs, h0⟩ := Option.map_eq_some_iff.mp hrun
  exact ⟨s, hs, h0, clean_iff proto3_generated proto3_minimal ⟨cutInPrefix, hs⟩⟩

end NetworkSession

end Elegram
