import Elegram.Server.Token

/-!
# Requests act with the identity of the last login

`lastLogin` reads off the trace whom the session has proved to be: the profile of the last `login`
that returned. A job is in order (`JobM.ActsAs`) when each of its storage calls is made for that
profile. The invariant `Identified` says that the cached state is that profile, except between the
return of `login` and `set_state`, and that the outstanding job is in order.
-/

namespace Elegram

open Transition

/-! ### Identities in a trace -/

/-- The profile that an action proves. -/
def Action.login : Action → Option ClientState
  | .called (.login email _) (.ok (userId, userName)) =>
      some { userId := userId, userName := userName, email := email }
  | _ => none

theorem Action.eq_of_login {a : Action} (h : a.login.isSome) :
    ∃ email password user, a = .called (.login email password) (.ok user) := by
  unfold Action.login at h
  split at h
  · exact ⟨_, _, _, rfl⟩
  · cases h

/-- The profile proved by the last login that returned normally. -/
def lastLogin (trace : List Action) : Option ClientState := trace.reverse.findSome? Action.login

theorem lastLogin_concat (trace : List Action) (a : Action) :
    lastLogin (trace ++ [a]) = a.login.or (lastLogin trace) := by
  rw [lastLogin, List.reverse_append, List.reverse_singleton, List.singleton_append,
    List.findSome?_cons]
  cases a.login <;> rfl

theorem lastLogin_concat_of_none (trace : List Action) {a : Action} (h : a.login = none) :
    lastLogin (trace ++ [a]) = lastLogin trace := by
  rw [lastLogin_concat, h, Option.none_or]

/-- A storage call that is made for the profile `who`. Registration and login are open to
everyone, and `get_messages` to every profile. -/
def StorageCall.MadeFor (who : Option ClientState) : StorageCall → Prop
  | .registration .. | .login .. => True
  | .sendMessage senderId _ => who.map ClientState.userId = some senderId
  | .addContact userId _ => who.map ClientState.userId = some userId
  | .createChat userId userName _ =>
      who.map (fun st => (st.userId, st.userName)) = some (userId, userName)
  | .getChats userId => who.map ClientState.userId = some userId
  | .getContacts userId => who.map ClientState.userId = some userId
  | .getMessages _ => who.isSome

/-- The program runs in order in a session whose state is `st` when `who` was the last to log
in: storage calls are made for `who`, the state is only asked for when there is one, and it is
`who`, unless a login has just returned (`returned`). Then the next thing is to store it. -/
def JobM.ActsAs : Bool → Option ClientState → Option ClientState → JobM Unit → Prop
  | returned, st, who, .pure _ => returned = false ∧ st = who
  | returned, st, who, .call c k => returned = false ∧ st = who ∧ c.MadeFor who ∧
      ∀ r, (k r).ActsAs (Action.login (.called c r)).isSome st ((Action.login (.called c r)).or who)
  | returned, st, who, .loggedIn k =>
      returned = false ∧ st = who ∧ (k st.isSome).ActsAs false st who
  | returned, st, who, .state k =>
      returned = false ∧ st = who ∧ ∃ st', st = some st' ∧ (k st').ActsAs false st who
  | returned, _, who, .setState st' k =>
      returned = true ∧ who = some st' ∧ k.ActsAs false (some st') who
  | returned, st, who, .write _ k => returned = false ∧ st = who ∧ k.ActsAs false st who

/-- A guarded body is only run for a profile. -/
theorem whenLoggedIn_actsAs {body : JobM Response} {who : Option ClientState}
    (hbody : ∀ st, who = some st → (body >>= write).ActsAs false who who) :
    (whenLoggedIn body).ActsAs false who who := by
  refine ⟨rfl, rfl, ?_⟩
  cases who with
  | none => exact ⟨rfl, rfl, rfl, rfl⟩
  | some st => exact hbody st rfl

/-- The jobs are in order when they are posted. -/
theorem requestJob_actsAs {request : Request} {job : JobM Unit} (h : requestJob request = some job)
    (who : Option ClientState) : job.ActsAs false who who := by
  -- what remains of a job when its storage call has returned
  have hwrite : ∀ (st : Option ClientState) (response : Response),
      JobM.ActsAs false st st (write response) := fun _ _ => ⟨rfl, rfl, rfl, rfl⟩
  cases request with
  | registerRequest mesg =>
    cases h
    exact ⟨rfl, rfl, trivial, fun _ => hwrite _ _⟩
  | loginRequest mesg =>
    cases h
    refine ⟨rfl, rfl, trivial, fun result => ?_⟩
    match result with
    | .ok (userId, userName) => exact ⟨rfl, rfl, rfl, rfl, _, rfl, hwrite _ _⟩
    | .error .invalidArgument => exact hwrite _ _
    | .error .other => exact hwrite _ _
  | chatsRequest | contactsRequest =>
    cases h
    refine whenLoggedIn_actsAs fun st hst => ?_
    subst hst
    exact ⟨rfl, rfl, st, rfl, rfl, rfl, rfl, fun _ => hwrite _ _⟩
  | messagesRequest mesg =>
    cases h
    refine whenLoggedIn_actsAs fun st hst => ?_
    subst hst
    exact ⟨rfl, rfl, rfl, fun _ => hwrite _ _⟩
  | sendMesgRequest mesg | addContactRequest mesg =>
    cases h
    refine whenLoggedIn_actsAs fun st hst => ?_
    subst hst
    exact ⟨rfl, rfl, st, rfl, rfl, rfl, rfl, fun _ => hwrite _ _⟩
  | createChatRequest mesg =>
    cases h
    refine whenLoggedIn_actsAs fun st hst => ?_
    subst hst
    exact ⟨rfl, rfl, st, rfl, rfl, rfl, st, rfl, rfl, rfl, rfl, fun _ => hwrite _ _⟩
  | msgNotSet => cases h

/-! ### The invariant -/

/-- The requests that only a session with a profile may make. -/
def Request.Guarded : Request → Prop
  | .registerRequest _ | .loginRequest _ => False
  | _ => True

/-- In a session without a profile the program does nothing but write the empty response. -/
def JobM.Refuses : JobM Unit → Prop
  | .loggedIn k => (k false).Refuses
  | .write mesg _ => mesg = .response .msgNotSet
  | _ => False

theorem requestJob_refuses {request : Request} {job : JobM Unit} (hreq : request.Guarded)
    (h : requestJob request = some job) : job.Refuses := by
  cases request with
  | registerRequest _ | loginRequest _ => exact absurd hreq id
  | msgNotSet => cases h
  | chatsRequest | contactsRequest | messagesRequest _ | sendMesgRequest _ | addContactRequest _
  | createChatRequest _ =>
    cases h
    exact rfl

namespace ClientSession

variable {P : Platform}

/-- A login has returned and its profile is not yet stored. -/
def LoginReturned (s : ClientSession) : Prop :=
  ∃ pre email password user, s.trace = pre ++ [.called (.login email password) (.ok user)] ∧
    s.clientState = lastLogin pre

/-- The state of the session is the profile that it has proved, up to the `setState` that follows
a login, and its job is in order. -/
def InOrder (s : ClientSession) : Prop :=
  match s.outstanding with
  | [.requestJob _ job] => ∃ returned, job.ActsAs returned s.clientState (lastLogin s.trace) ∧
      (returned = true → s.LoginReturned)
  | _ => s.clientState = lastLogin s.trace

/-- Before the first login a guarded request is answered at once, by an empty response. -/
structure Refused (s : ClientSession) : Prop where
  answer : ∀ pre request post, s.trace = pre ++ .dispatched request :: post →
    lastLogin pre = none → request.Guarded →
      post = [] ∨ ∃ frame post', post = .writeStarted (.response .msgNotSet) frame :: post'
  job : ∀ pre request, s.trace = pre ++ [.dispatched request] → lastLogin pre = none →
    request.Guarded → ∃ job, s.outstanding = [.requestJob request job] ∧ job.Refuses

/-- Every storage call of the session has been made for the profile that the session had proved
when it made the call. -/
def CallsInOrder (s : ClientSession) : Prop :=
  ∀ pre c r post, s.trace = pre ++ .called c r :: post → c.MadeFor (lastLogin pre)

structure Identified (s : ClientSession) : Prop where
  inOrder : s.InOrder
  calls : s.CallsInOrder
  refused : s.Refused

theorem CallsInOrder.concat {s s' : ClientSession} {a : Action} (hs : s.CallsInOrder)
    (ha : ∀ c r, a = .called c r → c.MadeFor (lastLogin s.trace))
    (htrace : s'.trace = s.trace ++ [a]) : s'.CallsInOrder := by
  intro pre c r post heq
  rw [htrace] at heq
  rcases trace_concat heq with ⟨-, hb, rfl⟩ | ⟨post', -, hold⟩
  · exact ha c r hb.symm
  · exact hs pre c r post' hold

theorem Refused.concat {s s' : ClientSession} {a : Action} (hs : s.Refused)
    (hlast : ∀ pre request, s.trace = pre ++ [.dispatched request] → lastLogin pre = none →
      request.Guarded → ∃ frame, a = .writeStarted (.response .msgNotSet) frame)
    (hnew : ∀ request, a = .dispatched request → lastLogin s.trace = none → request.Guarded →
      ∃ job, s'.outstanding = [.requestJob request job] ∧ job.Refuses)
    (htrace : s'.trace = s.trace ++ [a]) : s'.Refused := by
  constructor
  · intro pre request post heq hnone hreq
    rw [htrace] at heq
    rcases trace_concat heq with ⟨hpost, -, -⟩ | ⟨post', rfl, hold⟩
    · exact .inl hpost
    · right
      rcases hs.answer pre request post' hold hnone hreq with rfl | ⟨frame, post'', rfl⟩
      · obtain ⟨frame, rfl⟩ := hlast pre request hold hnone hreq
        exact ⟨frame, [], rfl⟩
      · exact ⟨frame, post'' ++ [a], rfl⟩
  · intro pre request heq hnone hreq
    rw [htrace] at heq
    rcases trace_concat heq with ⟨-, hb, rfl⟩ | ⟨post', hpost, -⟩
    · exact hnew request hb.symm hnone hreq
    · simp at hpost

/-- A step that is not taken by a request job does not follow a dispatch. -/
theorem Refused.concat_of_item {s s' : ClientSession} {item : Item} {a : Action} (hs : s.Refused)
    (hout : s.outstanding = [item]) (hitem : ∀ request job, item ≠ .requestJob request job)
    (hnew : ∀ request, a = .dispatched request → lastLogin s.trace = none → request.Guarded →
      ∃ job, s'.outstanding = [.requestJob request job] ∧ job.Refuses)
    (htrace : s'.trace = s.trace ++ [a]) : s'.Refused := by
  refine hs.concat (fun pre request heq hnone hreq => ?_) hnew htrace
  obtain ⟨job, hjob, -⟩ := hs.job pre request heq hnone hreq
  rw [hout] at hjob
  exact absurd (List.cons.inj hjob).1 (hitem request job)

theorem Moves.identified {s s' : ClientSession} {item : Item} {o : Outcome}
    (hm : Moves P s item o s') (hs : s.Identified) (hout : s.outstanding = [item]) :
    s'.Identified := by
  obtain ⟨hin, hcalls, href⟩ := hs
  rw [InOrder, hout] at hin
  -- the request job that follows a dispatch in a session without a profile
  have hrefuses : ∀ {request job}, item = .requestJob request job → ∀ pre request',
      s.trace = pre ++ [.dispatched request'] → lastLogin pre = none → request'.Guarded →
      request' = request ∧ job.Refuses ∧ lastLogin s.trace = none := by
    intro request job hitem pre request' heq hnone hreq
    obtain ⟨job', hjob, hrefuse⟩ := href.job pre request' heq hnone hreq
    rw [hout, hitem] at hjob
    cases hjob
    refine ⟨rfl, hrefuse, ?_⟩
    rw [heq, lastLogin_concat_of_none _ rfl, hnone]
  cases hm with
  | ioFailed buffer hitem _ =>
    have hstate : s.clientState = lastLogin s.trace := by
      rcases hitem with rfl | ⟨n, rfl⟩ | ⟨frame, rfl⟩ <;> exact hin
    have hne : ∀ request job, item ≠ .requestJob request job := by
      rintro request job rfl
      rcases hitem with h | ⟨n, h⟩ | ⟨frame, h⟩ <;> cases h
    exact ⟨hstate.trans (lastLogin_concat_of_none _ rfl).symm,
      hcalls.concat (fun _ _ h => by cases h) rfl,
      href.concat_of_item hout hne (fun _ h => by cases h) rfl⟩
  | refused _ | prefixRead _ _ _ _ | messageRead _ | sent _ =>
    exact ⟨Eq.trans hin (lastLogin_concat_of_none _ rfl).symm,
      hcalls.concat (fun _ _ h => by cases h) rfl,
      href.concat_of_item hout (fun _ _ h => by cases h) (fun _ h => by cases h) rfl⟩
  | dispatched _ hjob =>
    refine ⟨?_, hcalls.concat (fun _ _ h => by cases h) rfl,
      href.concat_of_item hout (fun _ _ h => by cases h) (fun request h _ hreq => ?_) rfl⟩
    · refine ⟨false, ?_, fun h => by cases h⟩
      change JobM.ActsAs false s.clientState (lastLogin (s.trace ++ [_])) _
      rw [lastLogin_concat_of_none _ rfl, show s.clientState = lastLogin s.trace from hin]
      exact requestJob_actsAs hjob _
    · cases h
      exact ⟨_, rfl, requestJob_refuses hreq hjob⟩
  | @called request c k ret =>
    obtain ⟨returned, ⟨-, hst, hmade, hk⟩, -⟩ := hin
    refine ⟨⟨(Action.login (.called c (ret c))).isSome, ?_, fun hlogin => ?_⟩,
      hcalls.concat (fun c r h => ?_) rfl,
      href.concat (fun pre request' heq hnone hreq => ?_) (fun _ h => by cases h) rfl⟩
    · change JobM.ActsAs _ s.clientState (lastLogin (s.trace ++ [_])) _
      rw [lastLogin_concat]
      exact hk _
    · obtain ⟨email, password, user, ha⟩ := Action.eq_of_login hlogin
      exact ⟨s.trace, email, password, user, by rw [← ha]; rfl, hst⟩
    · cases h
      exact hmade
    · exact absurd (hrefuses rfl pre request' heq hnone hreq).2.1 id
  | loggedIn =>
    obtain ⟨returned, ⟨-, hst, hk⟩, -⟩ := hin
    refine ⟨⟨false, hk, fun h => by cases h⟩, hcalls, href.answer,
      fun pre request' heq hnone hreq => ?_⟩
    obtain ⟨rfl, hrefuse, hlast⟩ := hrefuses rfl pre request' heq hnone hreq
    refine ⟨_, rfl, ?_⟩
    rw [hst, hlast]
    exact hrefuse
  | state hst =>
    obtain ⟨returned, ⟨-, -, st', hst', hk⟩, -⟩ := hin
    rw [hst] at hst'
    cases hst'
    exact ⟨⟨false, hk, fun h => by cases h⟩, hcalls, href.answer, fun pre request' heq hnone hreq =>
      absurd (hrefuses rfl pre request' heq hnone hreq).2.1 id⟩
  | setState =>
    obtain ⟨returned, ⟨-, -, hk⟩, -⟩ := hin
    exact ⟨⟨false, hk, fun h => by cases h⟩, hcalls, href.answer, fun pre request' heq hnone hreq =>
      absurd (hrefuses rfl pre request' heq hnone hreq).2.1 id⟩
  | @wrote request mesg ret frame _ _ =>
    obtain ⟨returned, ⟨-, hst, -⟩, -⟩ := hin
    refine ⟨Eq.trans hst (lastLogin_concat_of_none _ rfl).symm,
      hcalls.concat (fun _ _ h => by cases h) rfl, href.concat (fun pre request' heq hnone hreq =>
      ?_) (fun _ h => by cases h) rfl⟩
    obtain ⟨-, hrefuse, -⟩ := hrefuses rfl pre request' heq hnone hreq
    exact ⟨frame, by rw [show mesg = .response .msgNotSet from hrefuse]⟩

/-- A session that has only started has identified nobody. -/
theorem identified_of_trace {s : ClientSession} (hin : s.InOrder)
    (hcall : ∀ c r, .called c r ∉ s.trace) (hdisp : ∀ request, .dispatched request ∉ s.trace) :
    s.Identified where
  inOrder := hin
  calls pre c r post h := absurd (by rw [h]; simp) (hcall c r)
  refused :=
    { answer := fun pre request post h => absurd (by rw [h]; simp) (hdisp request)
      job := fun pre request h => absurd (by rw [h]; simp) (hdisp request) }

theorem begun_identified : begun.Identified :=
  identified_of_trace rfl (by simp [begun]) (by simp [begun])

theorem step_identified (s : ClientSession) (e : Event) (s' : ClientSession)
    (hs : s.Holds ∧ s.Identified) (h : s.step P e = some s') : s'.Holds ∧ s'.Identified := by
  refine ⟨step_holds s e s' hs.1 h, ?_⟩
  rcases step_moves hs.1 h with ⟨-, -, rfl⟩ | ⟨item, o, hout, hstop, -, hm⟩
  · exact begun_identified
  · exact hm.identified hs.2 hout

theorem reachable_identified {s : ClientSession} (h : Reachable (step P) fresh s) :
    s.Holds ∧ s.Identified :=
  h.invariant step_identified
    ⟨.unstarted rfl, identified_of_trace rfl (by simp [fresh]) (by simp [fresh])⟩

theorem InOrder.clientState {s : ClientSession} (h : s.InOrder) :
    s.clientState = lastLogin s.trace ∨ s.LoginReturned := by
  rw [InOrder] at h
  split at h
  · rename_i request job hout
    obtain ⟨returned, hacts, hret⟩ := h
    cases job with
    | setState st k => exact .inr (hret hacts.1)
    | pure _ => exact .inl hacts.2
    | call _ _ | loggedIn _ | state _ | write _ _ => exact .inl hacts.2.1
  · exact .inl h

/-- The assertion in `state` holds for a job that is in order. -/
theorem InOrder.not_assertionFailed {s : ClientSession} (hs : s.Holds) (h : s.InOrder)
    (e : Event) : s.handle P e ≠ some (.error .assertionFailed) := by
  intro hcrash
  obtain ⟨item, o, hout, -, -, hc⟩ := handle_crashes hs hcrash
  cases hc with
  | announced _ _ _ hc | response _ hc => exact tooLarge_ne P _ hc.symm
  | state hnone =>
    rw [InOrder, hout] at h
    obtain ⟨-, ⟨-, -, st, hst, -⟩, -⟩ := h
    rw [hnone] at hst
    cases hst

/-- What a session does with the identity that it has proved. -/
structure Honest (P : Platform) (s : ClientSession) : Prop where
  /-- Storage calls are made for the profile that the last successful login returned. -/
  calls : ∀ pre c r post, s.trace = pre ++ .called c r :: post → c.MadeFor (lastLogin pre)
  /-- The state is the profile of the last successful login. Only when a login has this moment
  returned, it is still the one before. -/
  identity : s.clientState = lastLogin s.trace ∨ s.LoginReturned
  /-- A login that throws leaves the state alone. -/
  failedLogin : ∀ pre email password e,
    s.trace = pre ++ [.called (.login email password) (.error e)] → s.clientState = lastLogin pre
  /-- Before the first login the answer to a guarded request is the next thing that happens, and
  it is empty. -/
  refused : ∀ pre request post, s.trace = pre ++ .dispatched request :: post →
    lastLogin pre = none → request.Guarded →
      post = [] ∨ ∃ frame post', post = .writeStarted (.response .msgNotSet) frame :: post'
  asserted : ∀ e, s.handle P e ≠ some (.error .assertionFailed)

theorem Identified.failedLogin {s : ClientSession} (hs : s.Identified) {pre : List Action}
    {email password : String} {e : LoginError}
    (htrace : s.trace = pre ++ [.called (.login email password) (.error e)]) :
    s.clientState = lastLogin pre := by
  rcases hs.inOrder.clientState with h | ⟨pre', email', password', user, htrace', -⟩
  · rw [h, htrace, lastLogin_concat_of_none _ rfl]
  · rw [htrace] at htrace'
    cases (List.append_inj' htrace' rfl).2

/-- **Identity.** In every state that a session can reach, its storage calls have been made for
the profile it had proved, its state is that profile, and the assertion about it holds. -/
theorem reachable_honest {s : ClientSession} (h : Reachable (step P) fresh s) : s.Honest P := by
  obtain ⟨hs, hid⟩ := reachable_identified h
  exact ⟨hid.calls, hid.inOrder.clientState, fun _ _ _ _ => hid.failedLogin, hid.refused.answer,
    hid.inOrder.not_assertionFailed hs⟩

/-- The storage of an example: a login succeeds, everything else fails. -/
def oneUser : (c : StorageCall) → c.Result
  | .login .. => .ok (7, "Ann")
  | c => c.failure

/-- A login and then the request for the chats, up to its storage call. -/
def chatsAfterLogin : List Event :=
  [.start, .item 0 (.read false [9, 4, 0, 0, 0, 0, 0, 0, 0]),
    .item 0 (.read false [0x12, 0x02, 0x12, 0x00])] ++
  List.replicate 5 (.item 0 (.run oneUser)) ++
  [.item 0 (.sent false), .item 0 (.read false [9, 4, 0, 0, 0, 0, 0, 0, 0]),
    .item 0 (.read false [0x12, 0x02, 0x1A, 0x00])] ++
  List.replicate 4 (.item 0 (.run oneUser))

/-- The calls that a trace contains. -/
def calls (trace : List Action) : List StorageCall :=
  trace.filterMap fun
    | .called c _ => some c
    | _ => none

theorem honest_chatsAfterLogin :
    ∃ s, run (step Platform.proto3) fresh chatsAfterLogin = some s ∧
      calls s.trace = [.login "" "", .getChats 7] ∧ s.Honest Platform.proto3 := by
  have hrun : ((run (step Platform.proto3) fresh chatsAfterLogin).map fun s => calls s.trace) =
      some [.login "" "", .getChats 7] := by decide
  obtain ⟨s, hs, hc⟩ := Option.map_eq_some_iff.mp hrun
  exact ⟨s, hs, hc, reachable_honest ⟨_, hs⟩⟩

end ClientSession

end Elegram
