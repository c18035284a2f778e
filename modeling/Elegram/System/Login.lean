import Elegram.System.Delivery

/-!
# Who is logged in

The client keeps the profile of its user in `Backend`, and the server the state of a client in its
session. A login changes both, the server's first. A new connection has a new session, in which
nobody is logged in, but the profile of the client outlives the connection: `always_agree_iff` says
that the two sides agree exactly as long as no connection is opened with a profile.
-/

namespace Elegram

open Transition

namespace System

open Client

variable {hashPassword : String → List UInt8} {qt : Qt} {s s' : System hashPassword}

/-! ### Agreement -/

/-- When the client has a connection and no request in flight, its profile is that of the user whom
the session of the connection has logged in. -/
def Agree (s : System hashPassword) : Prop :=
  s.client.socket = .connected → (exchange s.client.log).owed = [] →
    ∀ v, s.sessions.getLast? = some v →
      s.client.profile.map Client.Profile.userId = v.clientState.map ClientState.userId

/-- A connection is only opened when nobody is logged in on the client. -/
def OpensLoggedOut (s : System hashPassword) (e : Event) : Prop :=
  e = .client .connected → s.client.profile = none

/-- The profile is that of the user who was logged in before the request in flight. -/
def Agreed (s : System hashPassword) : Prop :=
  s.Linked ∧ (s.client.socket = .connected → ∀ v, s.sessions.getLast? = some v →
    s.client.profile.map Client.Profile.userId = v.base.map ClientState.userId)

theorem Agreed.agree (h : s.Agreed) : s.Agree := by
  intro hsocket howed v hv
  obtain ⟨front, v', hsessions, hpending⟩ := h.1.live hsocket
  rw [hsessions, List.getLast?_concat, Option.some_inj] at hv
  subst hv
  rw [← Serving.base_of_pending_nil (hpending.trans howed)]
  refine h.2 hsocket v' ?_
  rw [hsessions, List.getLast?_concat]

theorem initial_agreed : (initial : System hashPassword).Agreed :=
  ⟨initial_linked, fun h => nomatch h⟩

/-! ### The server -/

/-- A session that moves on for the same user. -/
theorem Agreed.serve (h : s.Agreed) {k : ℕ} {v v' : Serving} (hv : s.sessions[k]? = some v)
    (hbase : v'.base = v.base) (hlinked : s'.Linked) (hclient : s'.client = s.client)
    (hsessions : s'.sessions = s.sessions.set k v') : s'.Agreed := by
  refine ⟨hlinked, fun hsocket w hw => ?_⟩
  rw [hclient] at hsocket ⊢
  rw [hsessions, List.getLast?_eq_getElem?, List.length_set] at hw
  by_cases hk : k = s.sessions.length - 1
  · rw [← hk, List.getElem?_set_self (List.getElem?_eq_some_iff.mp hv).1] at hw
    cases hw
    rw [hbase]
    refine h.2 hsocket v ?_
    rw [List.getLast?_eq_getElem?, ← hk, hv]
  · rw [List.getElem?_set_ne hk] at hw
    exact h.2 hsocket w (by rw [List.getLast?_eq_getElem?, hw])

/-! ### The client -/

/-- Without a new connection, the last session is that of the same user. -/
theorem base_transmit {news : List ClientAction} (hnews : .opened ∉ news)
    (sessions : List Serving) :
    (news.foldl transmit sessions).getLast?.map Serving.base =
      sessions.getLast?.map Serving.base := by
  induction news generalizing sessions with
  | nil => rfl
  | cons a news ih =>
    rw [List.foldl_cons, ih fun hmem => hnews (List.mem_cons_of_mem _ hmem)]
    cases a with
    | opened => exact absurd (List.mem_cons_self ..) hnews
    | written id mesg =>
      rw [transmit]
      rcases List.eq_nil_or_concat sessions with rfl | ⟨front, v, rfl⟩
      · rfl
      · rw [List.concat_eq_append, List.modifyLast_concat, List.getLast?_concat,
          List.getLast?_concat, Option.map_some, Option.map_some, Serving.base_receive]
    | _ => rfl

/-- Without a frame, the profile stays as it is, and only `connected` opens a connection. -/
theorem moves_profile {c c' : Client} {e : Client.Event} (hm : c.Moves e c')
    (he : ∀ body, e ≠ .frame body) : c'.profile = c.profile ∧ ∃ news, c'.log = c.log ++ news ∧
      (e = .connected ∧ news = [.opened, .emitted none (.showMessage "Connected!")] ∨
        .opened ∉ news ∧ (c'.socket = .connected → c.socket = .connected)) := by
  cases hm with
  | quiet _ _ _ _ hsocket _ =>
    refine ⟨rfl, [], (List.append_nil _).symm, .inr ⟨List.not_mem_nil, fun hconnected => ?_⟩⟩
    exact connected_of_kept hsocket hconnected
  | refused => exact ⟨rfl, _, rfl, .inr ⟨by simp, id⟩⟩
  | told _ _ _ _ hsocket _ =>
    refine ⟨rfl, _, rfl, .inr ⟨by simp, fun hconnected => ?_⟩⟩
    exact connected_of_kept (hsocket.imp_left And.right) hconnected
  | written => exact ⟨rfl, _, rfl, .inr ⟨by simp, id⟩⟩
  | opened => exact ⟨rfl, _, rfl, .inl ⟨rfl, rfl⟩⟩
  | closed _ before _ _ hbefore =>
    refine ⟨rfl, _, List.append_assoc .., .inr ⟨?_, nofun⟩⟩
    rcases hbefore with rfl | rfl | ⟨err, rfl⟩ <;> simp
  | answered | chained => exact absurd rfl (he _)
  | ignored => exact absurd rfl (he _)

theorem step_profile {c c' : Client} {e : Client.Event} (hc : Suspended c.socket c.stack)
    (he : ∀ body, e ≠ .frame body) (h : c.step qt e = some c') :
    c'.profile = c.profile ∧ ∃ news, c'.log = c.log ++ news ∧
      (e = .connected ∧ news = [.opened, .emitted none (.showMessage "Connected!")] ∨
        .opened ∉ news ∧ (c'.socket = .connected → c.socket = .connected)) := by
  rcases step_moves hc h with hm | ⟨chatId, -, hm⟩
  · exact moves_profile hm he
  · exact moves_profile (c := c.setCurrentChatId chatId) hm he

theorem Agreed.client (h : s.Agreed) {e : Client.Event} {c : Client}
    (he : ∀ body, e ≠ .frame body) (hc : s.client.step qt e = some c)
    (hfresh : s.OpensLoggedOut (.client e)) : (s.follow c).Agreed := by
  refine ⟨(h.1.client he hc).1, fun hsocket v hv => ?_⟩
  obtain ⟨hprofile, news, hlog, hnews⟩ := step_profile h.1.converses.1 he hc
  rw [System.follow, hlog, List.drop_left] at hv
  change c.profile.map Client.Profile.userId = _
  rw [hprofile]
  rcases hnews with ⟨rfl, rfl⟩ | ⟨hnews, hconnected⟩
  · have hlast : (s.sessions ++ [Serving.fresh]).getLast? = some v := hv
    rw [List.getLast?_concat, Option.some_inj] at hlast
    rw [← hlast, hfresh rfl]
    rfl
  · have hbase := base_transmit hnews s.sessions
    dsimp only at hv
    rw [hv, Option.map_some] at hbase
    obtain ⟨w, hw, hwbase⟩ := Option.map_eq_some_iff.mp hbase.symm
    rw [← hwbase]
    exact h.2 (hconnected hsocket) w hw

/-- A response without a profile. -/
theorem profile_of_ne {r : Response} (hr : ∀ contact, r ≠ .loginResponse (some contact)) (job : Job)
    (profile : Option Client.Profile) : job.profile r profile = profile := by
  match job, r with
  | .login, .loginResponse (some contact) => exact absurd rfl (hr contact)
  | .login, .loginResponse none | .login, .statusResponse _ | .login, .chatsResponse _
  | .login, .contactsResponse _ | .login, .messagesResponse _ | .login, .msgNotSet => rfl
  | .register, _ | .loadChats, _ | .loadContacts, _ | .loadMessages, _ | .sendMessage, _
  | .addContact, _ | .loadData, _ | .createChat, _ => rfl

/-- The client follows the server: its profile is the login state with which the request has been
answered. -/
theorem profile_of_answer {job : Job} {request : Request} {before after : Option ClientState}
    {called : Called} {r : Response} (hmakes : MayMake job request)
    (h : Answer request before after called r) {profile : Option Client.Profile}
    (hprofile : profile.map Client.Profile.userId = before.map ClientState.userId) :
    (job.profile r profile).map Client.Profile.userId = after.map ClientState.userId := by
  by_cases hr : ∃ contact, r = .loginResponse (some contact)
  · obtain ⟨contact, rfl⟩ := hr
    obtain ⟨hafter, mesg, rfl⟩ := h.profile contact rfl
    have hjob : job = .login := by
      rcases hmakes with ⟨op, hop⟩ | ⟨-, hmesg⟩
      · cases op <;> cases hop
        rfl
      · cases hmesg
    rw [hjob, hafter]
    rfl
  · have hne : ∀ contact, r ≠ .loginResponse (some contact) :=
      fun contact heq => hr ⟨contact, heq⟩
    rw [profile_of_ne hne, h.refused hne, hprofile]

theorem Agreed.delivered (h : s.Agreed) (hd : s.Delivered s') : s'.Agreed := by
  refine ⟨(hd.linked h.1).1, ?_⟩
  cases hd with
  | @mk front v reply r callback called hsessions hreply hmesg hcalled hanswer hpending howed hid
      hmakes hstack hsocket hcallback =>
    have hlast : s.sessions.getLast? = some v := by rw [hsessions, List.getLast?_concat]
    have hbase : v.base = v.before := by
      refine if_neg fun ⟨_, houtbox⟩ => ?_
      rw [houtbox] at hreply
      cases hreply
    have hprofile := h.2 hsocket v hlast
    rw [hbase] at hprofile
    have hafter := profile_of_answer hmakes hanswer hprofile
    have hdelivered : v.delivered.base = v.clientState := by
      have hnone := Serving.pending_delivered hreply
      rw [hpending] at hnone
      exact Serving.base_of_pending_nil (List.cons.inj hnone).2.symm
    intro _ w hw
    have hnews : ∃ news, (s.client.answeredBy callback r).log = s.client.log ++ news ∧
        .opened ∉ news ∧
        (s.client.answeredBy callback r).profile = callback.job.profile r s.client.profile := by
      rw [answeredBy]
      cases callback.job.reaction r <;> exact ⟨_, rfl, by simp, rfl⟩
    obtain ⟨news, hlog, hopened, hnext⟩ := hnews
    rw [System.follow, hlog, List.drop_left] at hw
    have hsame := base_transmit hopened (front ++ [v.delivered])
    dsimp only at hw
    rw [hw, List.getLast?_concat, Option.map_some, Option.map_some, Option.some_inj] at hsame
    change (s.client.answeredBy callback r).profile.map Client.Profile.userId = _
    rw [hnext, hafter, hsame, hdelivered]

/-! ### Runs -/

theorem step_agreed {e : Event} (h : s.Agreed) (hstep : s.step qt e = some s')
    (hfresh : s.OpensLoggedOut e) : s'.Agreed := by
  have hlinked := (step_linked h.1 hstep).1
  cases h.1.step_cases hstep with
  | client he hc => exact h.client he hc hfresh
  | delivered hd => exact h.delivered hd
  | served hv hv' => exact h.serve hv hv'.base hlinked rfl rfl
  | database => exact ⟨hlinked, h.2⟩

/-- A new connection of a client with a profile: nobody is logged in in the new session. -/
theorem step_disagreed {e : Event} (hstep : s.step qt e = some s')
    (hfresh : ¬ s.OpensLoggedOut e) : ¬ s'.Agree := by
  obtain ⟨rfl, hsome⟩ := Classical.not_imp.mp hfresh
  obtain ⟨-, c, hc, rfl⟩ := step_client hstep
  rw [Client.step] at hc
  split_ifs at hc with hidle
  rw [Option.some_inj] at hc
  have hlog : c.log = s.client.log ++ [.opened, .emitted none (.showMessage "Connected!")] := by
    rw [← hc]
    simp [record, emit]
  have hsocket : c.socket = .connected := by rw [← hc]; rfl
  have hprofile : c.profile = s.client.profile := by rw [← hc]; rfl
  have howed : (exchange c.log).owed = [] := by
    rw [hlog, exchange_append]
    rfl
  have hlast : (s.follow c).sessions.getLast? = some .fresh := by
    rw [System.follow, hlog, List.drop_left]
    exact List.getLast?_concat
  intro hagree
  have hnone : c.profile.map Client.Profile.userId = none := hagree hsocket howed .fresh hlast
  rw [hprofile] at hnone
  exact hsome (Option.map_eq_none_iff.mp hnone)

/-- **Logins.** Whenever the client has a connection and no request in flight, the two sides agree
on the user, if and only if every connection is opened with nobody logged in on the client. -/
theorem always_agree_iff (qt : Qt) (es : List Event) :
    Always (step qt) Agree (initial : System hashPassword) es ↔
      EachStep (step qt) OpensLoggedOut (initial : System hashPassword) es :=
  always_iff_eachStep (I := Agreed) (P := Agree) (fun _ h => h.agree)
    (fun _ _ _ h hstep hfresh => step_agreed h hstep hfresh)
    (fun _ _ _ _ hstep hfresh => step_disagreed hstep hfresh) initial_agreed

/-- The `k`-th storage call, of `n` actions, for the request that the first session reads next. -/
def calls (k n : ℕ) : List Event :=
  [.take 0, .operate 0] ++ List.replicate n (.database (.act k (.proceed .stored))) ++ [.resume 0]

/-- A user registers and signs in, the connection is lost, and the client connects again. -/
def reconnected : List Event :=
  [.client .connected, .client .ret, .client (.call (.signup "u" "e" "p"))] ++ calls 0 3 ++
  [.operate 0, .deliver, .client .ret, .client (.call (.signin "e" "p"))] ++ calls 1 5 ++
  [.operate 0, .operate 0, .operate 0, .deliver, .client .ret,
    .client (.lost .remoteHostClosedError), .client .ret,
    .client (.call (.updateConnectionSettings "127.0.0.1" "8000")), .client .ret,
    .client .connected]

/-- The client has the profile of user 1, and nobody is logged in in its session. -/
theorem not_always_agree_reconnected :
    (run (step Qt.default) (initial : System fun _ => []) reconnected).map
      (fun s => (s.client.socket, (exchange s.client.log).owed,
        s.client.profile.map Client.Profile.userId,
        s.sessions.getLast?.map fun v => v.clientState.map ClientState.userId)) =
      some (.connected, [], some 1, some none) ∧
    ¬ Always (step Qt.default) Agree (initial : System fun _ => []) reconnected := by
  have hrun : (run (step Qt.default) (initial : System fun _ => []) reconnected).map
      (fun s => (s.client.socket, (exchange s.client.log).owed,
        s.client.profile.map Client.Profile.userId,
        s.sessions.getLast?.map fun v => v.clientState.map ClientState.userId)) =
      some (.connected, [], some 1, some none) := by
    decide +kernel
  refine ⟨hrun, fun h => ?_⟩
  obtain ⟨s, hs, heq⟩ := Option.map_eq_some_iff.mp hrun
  simp only [Prod.mk.injEq, Option.map_eq_some_iff] at heq
  obtain ⟨hsocket, howed, hprofile, v, hv, hnone⟩ := heq
  have hagree := always_iff_prefixes.mp h reconnected [] (List.append_nil _).symm s hs hsocket howed
    v hv
  rw [hnone] at hagree
  obtain ⟨profile, hsome, -⟩ := hprofile
  rw [hsome] at hagree
  cases hagree

end System

end Elegram
