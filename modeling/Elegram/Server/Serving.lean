import Elegram.Server.Server

/-!
# A session between whole frames

What a `ClientSession` does when its reads and writes transfer whole frames: it takes a request,
runs the job that `ParseCommandJob` posts for it, one operation at a time, and puts what the job
writes on the way back. A storage call is made and returns in two steps, as other work may be done
in between. `operate_of_moves` says that this is what the session does to its login state and to its
job.

Each job makes at most one storage call and ends with its only write. `requestJob_ends` says what it
has written by then.
-/

namespace Elegram

/-! ### The session -/

/-- What a worker thread does for a session. -/
inductive Phase
  | running (job : JobM Unit)
  /-- The storage function has been called as the `t`-th one. -/
  | waiting (t : ℕ) (c : StorageCall) (k : c.Result → JobM Unit)

/-- The work for a request. Requests are numbered by the client, for the statements only. -/
structure Task where
  id : ℕ
  request : Request
  phase : Phase

/-- A message on the way back, with the request that it answers. -/
structure Reply where
  id : ℕ
  request : Request
  mesg : WrappedMessage

/-- A session and the frames on the way to and from it. `before` is the login state when the last
request was taken, for the statements only. -/
structure Serving where
  clientState : Option ClientState
  before : Option ClientState
  inbox : List (ℕ × Request)
  task : Option Task
  outbox : List Reply

/-- What an operation of a job does outside of its session. -/
inductive Operated
  | alone (v : Serving)
  /-- A storage function is called, for the request `id`. -/
  | calls (id : ℕ) (c : StorageCall) (v : ℕ → Serving)

namespace Serving

def fresh : Serving where
  clientState := none
  before := none
  inbox := []
  task := none
  outbox := []

/-- A frame of the client is on its way. -/
def receive (id : ℕ) (request : Request) (v : Serving) : Serving :=
  { v with inbox := v.inbox ++ [(id, request)] }

/-- The client has read a frame. -/
def delivered (v : Serving) : Serving := { v with outbox := v.outbox.tail }

/-- A job that still has something to do stays posted. -/
def post (id : ℕ) (request : Request) (job : JobM Unit) (v : Serving) : Serving :=
  { v with task := match job with
    | .pure _ => none
    | job => some { id := id, request := request, phase := .running job } }

/-- The next request is read and parsed. -/
def take (v : Serving) : Option Serving :=
  match v.task, v.inbox with
  | none, (id, request) :: inbox =>
    (requestJob request).map fun job =>
      ({ v with inbox := inbox, before := v.clientState } : Serving).post id request job
  | _, _ => none

/-- One operation of the job. -/
def operate (v : Serving) : Option Operated :=
  match v.task with
  | some ⟨id, request, .running job⟩ =>
    match job with
    | .pure _ => none
    | .call c k => some (.calls id c fun t =>
        { v with task := some { id := id, request := request, phase := .waiting t c k } })
    | .loggedIn k => some (.alone (v.post id request (k v.clientState.isSome)))
    | .state k => v.clientState.map fun st => .alone (v.post id request (k st))
    | .setState st k =>
      some (.alone (({ v with clientState := some st } : Serving).post id request k))
    | .write mesg k =>
      let reply : Reply := { id := id, request := request, mesg := mesg }
      some (.alone (({ v with outbox := v.outbox ++ [reply] } : Serving).post id request k))
  | _ => none

/-- The storage function has returned. -/
def resume (returned : ℕ → Option ((c : StorageCall) × c.Result)) (v : Serving) : Option Serving :=
  match v.task with
  | some ⟨id, request, .waiting t c k⟩ =>
    match returned t with
    | some ⟨c', result⟩ => if h : c' = c then some (v.post id request (k (h ▸ result))) else none
    | none => none
  | _ => none

/-- The requests that have not been answered yet, as far as the client knows. -/
def pending (v : Serving) : List (ℕ × Request) :=
  v.outbox.map (fun reply => (reply.id, reply.request)) ++
    v.task.toList.map (fun task => (task.id, task.request)) ++ v.inbox

/-- **Operations.** When the session moves on with a job, its login state and what remains of the
job are those after `operate`, or after `resume` if a storage function has been called. -/
theorem operate_of_moves {P : Platform} {s s' : ClientSession} {request : Request}
    {job : JobM Unit} {ret : (c : StorageCall) → c.Result} {v : Serving} {id : ℕ}
    (hm : ClientSession.Moves P s (.requestJob request job) (.run ret) s')
    (hstate : v.clientState = s.clientState)
    (htask : v.task = some ⟨id, request, .running job⟩) :
    ∃ v', (v.operate = some (.alone v') ∨ ∃ c w t, v.operate = some (.calls id c w) ∧
        (w t).resume (fun _ => some ⟨c, ret c⟩) = some v') ∧
      v'.clientState = s'.clientState ∧
      ((∃ job', s'.outstanding = [.requestJob request job'] ∧
          v'.task = (v.post id request job').task ∧ v'.outbox = v.outbox) ∨
        ∃ mesg frame, s'.outstanding = [.write frame] ∧ ClientSession.FrameOf P mesg frame ∧
          v'.task = none ∧ v'.outbox = v.outbox ++ [⟨id, request, mesg⟩]) := by
  cases hm with
  | ioFailed _ hitem _ => rcases hitem with h | ⟨n, h⟩ | ⟨frame, h⟩ <;> cases h
  | @called _ c k =>
    refine ⟨v.post id request (k (ret c)), .inr ⟨c, fun t =>
      { v with task := some ⟨id, request, .waiting t c k⟩ }, 0, ?_, ?_⟩, hstate,
      .inl ⟨_, rfl, rfl, rfl⟩⟩
    · rw [operate, htask]
    · simp only [resume, dite_true]
      rfl
  | @loggedIn _ k =>
    refine ⟨v.post id request (k v.clientState.isSome), .inl ?_, hstate, .inl ⟨_, rfl, ?_, rfl⟩⟩
    · rw [operate, htask]
    · rw [hstate]
  | @state _ k _ st hst =>
    refine ⟨v.post id request (k st), .inl ?_, hstate, .inl ⟨_, rfl, rfl, rfl⟩⟩
    rw [operate, htask]
    simp only [hstate, hst, Option.map_some]
  | @setState _ st =>
    refine ⟨({ v with clientState := some st } : Serving).post id request _, .inl ?_, rfl,
      .inl ⟨_, rfl, rfl, rfl⟩⟩
    rw [operate, htask]
  | @wrote _ mesg _ frame _ hframe =>
    refine ⟨({ v with outbox := v.outbox ++ [⟨id, request, mesg⟩] } : Serving).post id request
      (.pure ()), .inl ?_, hstate, .inr ⟨mesg, frame, rfl, hframe, rfl, rfl⟩⟩
    rw [operate, htask]

end Serving

/-! ### How jobs end -/

/-- The call has reported success. -/
def StorageCall.succeeded : (c : StorageCall) → c.Result → Bool
  | .registration .., result | .sendMessage .., result | .addContact .., result
  | .createChat .., result => result
  | .login .., _ | .getChats .., _ | .getContacts .., _ | .getMessages .., _ => false

/-- What a job may know about its storage call, made or not. -/
abbrev Called : Type := Option ((c : StorageCall) × c.Result)

def Called.succeeded (called : Called) : Bool := called.any fun r => r.1.succeeded r.2

/-- The requests that stand for a transaction. -/
def Request.Changes : Request → Prop
  | .registerRequest _ | .sendMesgRequest _ | .addContactRequest _ | .createChatRequest _ => True
  | _ => False

/-- The response to a request. -/
structure Answer (request : Request) (before after : Option ClientState) (called : Called)
    (response : Response) : Prop where
  /-- A status tells whether the call has succeeded. -/
  status : request.Changes → (response = .statusResponse .accepted ↔ called.succeeded = true)
  /-- A profile is that of the user who is logged in then. -/
  profile : ∀ contact, response = .loginResponse (some contact) →
    after.map ClientState.userId = some contact.userId ∧ ∃ mesg, request = .loginRequest mesg
  /-- Without a profile the login state stays as it is. -/
  refused : (∀ contact, response ≠ .loginResponse (some contact)) → after = before

/-- The job makes at most one call, which satisfies `A`, and ends with a write. The response
satisfies `Q`, with the login state and the call at that time. -/
def JobM.Ends (A : StorageCall → Prop) (Q : Option ClientState → Called → Response → Prop) :
    Option ClientState → Called → JobM Unit → Prop
  | _, _, .pure _ => False
  | st, called, .call c k => called = none ∧ A c ∧ ∀ r, (k r).Ends A Q st (some ⟨c, r⟩)
  | st, called, .loggedIn k => (k st.isSome).Ends A Q st called
  | st, called, .state k => ∀ st', st = some st' → (k st').Ends A Q st called
  | _, called, .setState st k => k.Ends A Q (some st) called
  | st, called, .write mesg k => (∃ r, mesg = .response r ∧ Q st called r) ∧ k = .pure ()

theorem statusResponse_eq_accepted {result : Bool} :
    statusResponse result = .statusResponse .accepted ↔ result = true := by
  cases result <;> decide

/-- An answer that is no profile, and has no effect on the login state. -/
theorem Answer.plain {request : Request} {st : Option ClientState} {called : Called}
    {response : Response}
    (hstatus : request.Changes →
      (response = .statusResponse .accepted ↔ called.succeeded = true))
    (hprofile : ∀ profile, response ≠ .loginResponse profile) :
    Answer request st st called response :=
  ⟨hstatus, fun _ h => absurd h (hprofile _), fun _ => rfl⟩

theorem whenLoggedIn_ends {A : StorageCall → Prop} {request : Request}
    {st : Option ClientState} {body : JobM Response}
    (hbody : (body >>= write).Ends A (Answer request st) st none) :
    (whenLoggedIn body).Ends A (Answer request st) st none := by
  change (if st.isSome then body >>= write else write .msgNotSet : JobM Unit).Ends _ _ _ _
  split_ifs
  · exact hbody
  · exact ⟨⟨_, rfl, .plain (fun _ => by simp [Called.succeeded]) nofun⟩, rfl⟩

/-- **Jobs.** -/
theorem requestJob_ends {request : Request} {job : JobM Unit} (h : requestJob request = some job)
    (st : Option ClientState) : job.Ends request.Asks (Answer request st) st none := by
  cases request with
  | registerRequest mesg =>
    cases h
    refine ⟨rfl, rfl, fun result => ⟨⟨_, rfl, .plain
      (fun _ => statusResponse_eq_accepted) ?_⟩, rfl⟩⟩
    cases result <;> nofun
  | loginRequest mesg =>
    cases h
    refine ⟨rfl, rfl, fun result => ?_⟩
    match result with
    | .ok (userId, userName) =>
      rintro st' ⟨⟩
      refine ⟨⟨_, rfl, nofun, ?_, fun hno => absurd rfl (hno _)⟩, rfl⟩
      rintro contact ⟨⟩
      exact ⟨rfl, mesg, rfl⟩
    | .error .invalidArgument | .error .other =>
      exact ⟨⟨_, rfl, nofun, nofun, fun _ => rfl⟩, rfl⟩
  | chatsRequest | contactsRequest =>
    cases h
    exact whenLoggedIn_ends fun st' _ => ⟨rfl, ⟨_, rfl⟩, fun _ =>
      ⟨⟨_, rfl, .plain nofun nofun⟩, rfl⟩⟩
  | messagesRequest mesg =>
    cases h
    exact whenLoggedIn_ends ⟨rfl, rfl, fun _ =>
      ⟨⟨_, rfl, .plain nofun nofun⟩, rfl⟩⟩
  | sendMesgRequest mesg | addContactRequest mesg =>
    cases h
    refine whenLoggedIn_ends fun st' _ => ⟨rfl, ⟨_, rfl⟩, fun result => ⟨⟨_, rfl, .plain
      (fun _ => statusResponse_eq_accepted) ?_⟩, rfl⟩⟩
    cases result <;> nofun
  | createChatRequest mesg =>
    cases h
    refine whenLoggedIn_ends fun st' _ st'' _ => ⟨rfl, ⟨_, _, rfl⟩, fun result => ⟨⟨_, rfl, .plain
      (fun _ => statusResponse_eq_accepted) ?_⟩, rfl⟩⟩
    cases result <;> nofun
  | msgNotSet => cases h

end Elegram
