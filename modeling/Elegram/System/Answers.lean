import Elegram.Server.Identity
import Elegram.System.Login

/-!
# Which response a request gets

A job answers with the message that its request asks for. The jobs behind `whenLoggedIn` answer
with an empty response when nobody is logged in. The client sees why: `logged` reads off its log
whether it has been given a profile on the open connection, and `reachable_suited` says that the
empty responses are those to guarded requests that are made without one.
-/

namespace Elegram

open Transition

/-! ### Requests and their responses -/

namespace Request

/-- The kind of response that the request asks for. -/
def Expects : Request → Response → Prop
  | .registerRequest _, .statusResponse _ => True
  | .loginRequest _, .loginResponse _ => True
  | .chatsRequest, .chatsResponse _ => True
  | .contactsRequest, .contactsResponse _ => True
  | .messagesRequest _, .messagesResponse _ => True
  | .sendMesgRequest _, .statusResponse _ => True
  | .addContactRequest _, .statusResponse _ => True
  | .createChatRequest _, .statusResponse _ => True
  | _, _ => False

/-- What a session responds, in which somebody is logged in or nobody is. -/
def Suits (request : Request) (logged : Bool) (r : Response) : Prop :=
  request.Guarded ∧ logged = false ∧ r = .msgNotSet ∨
    (request.Guarded → logged = true) ∧ request.Expects r

theorem Expects.ne_msgNotSet {request : Request} {r : Response} (h : request.Expects r) :
    r ≠ .msgNotSet := by
  rintro rfl
  cases request <;> exact h

/-- The response is empty exactly when the request is refused. -/
theorem Suits.msgNotSet_iff {request : Request} {logged : Bool} {r : Response}
    (h : request.Suits logged r) : r = .msgNotSet ↔ request.Guarded ∧ logged = false := by
  rcases h with ⟨hguarded, hnone, hr⟩ | ⟨hlogged, hexpects⟩
  · exact iff_of_true hr ⟨hguarded, hnone⟩
  · refine iff_of_false hexpects.ne_msgNotSet fun ⟨hguarded, hnone⟩ => ?_
    rw [hlogged hguarded] at hnone
    cases hnone

end Request

/-! ### Jobs -/

namespace JobM

/-- The job ends with a response that satisfies `Q`, and only asks for the state of a client who is
logged in. -/
def Delivers (Q : Response → Prop) : Option ClientState → JobM Unit → Prop
  | _, .pure _ => False
  | st, .call _ k => ∀ r, (k r).Delivers Q st
  | st, .loggedIn k => (k st.isSome).Delivers Q st
  | st, .state k => ∃ st', st = some st' ∧ (k st').Delivers Q st
  | _, .setState st k => k.Delivers Q (some st)
  | _, .write mesg k => (∃ r, mesg = .response r ∧ Q r) ∧ k = .pure ()

theorem delivers_whenLoggedIn {Q : Response → Prop} {st : Option ClientState}
    {body : JobM Response} (hsome : ∀ st', st = some st' → (body >>= Elegram.write).Delivers Q st)
    (hnone : st = none → Q .msgNotSet) : (whenLoggedIn body).Delivers Q st := by
  change (if st.isSome then body >>= Elegram.write
    else Elegram.write .msgNotSet : JobM Unit).Delivers Q st
  cases st with
  | none => exact ⟨⟨_, rfl, hnone rfl⟩, rfl⟩
  | some st' => exact hsome st' rfl

end JobM

/-- **Jobs.** Each job ends with a response to its request. -/
theorem requestJob_delivers {request : Request} {job : JobM Unit}
    (h : requestJob request = some job) (st : Option ClientState) :
    job.Delivers (request.Suits st.isSome) st := by
  have hopen : ∀ {r}, ¬ request.Guarded → request.Expects r → request.Suits st.isSome r :=
    fun hopen hr => .inr ⟨fun hguarded => absurd hguarded hopen, hr⟩
  have hlogged : ∀ {r st'}, st = some st' → request.Expects r → request.Suits st.isSome r :=
    fun hst hr => .inr ⟨fun _ => by rw [hst, Option.isSome_some], hr⟩
  have hrefused : request.Guarded → st = none → request.Suits st.isSome .msgNotSet :=
    fun hguarded hst => .inl ⟨hguarded, by rw [hst, Option.isSome_none], rfl⟩
  cases request with
  | registerRequest mesg =>
    cases h
    exact fun result => ⟨⟨_, rfl, hopen id trivial⟩, rfl⟩
  | loginRequest mesg =>
    cases h
    intro result
    match result with
    | .ok (userId, userName) => exact ⟨_, rfl, ⟨_, rfl, hopen id trivial⟩, rfl⟩
    | .error .invalidArgument | .error .other => exact ⟨⟨_, rfl, hopen id trivial⟩, rfl⟩
  | messagesRequest mesg =>
    cases h
    exact JobM.delivers_whenLoggedIn (fun st' hst _ => ⟨⟨_, rfl, hlogged hst trivial⟩, rfl⟩)
      (hrefused trivial)
  | chatsRequest | contactsRequest | sendMesgRequest mesg | addContactRequest mesg =>
    cases h
    exact JobM.delivers_whenLoggedIn
      (fun st' hst => ⟨st', hst, fun _ => ⟨⟨_, rfl, hlogged hst trivial⟩, rfl⟩⟩)
      (hrefused trivial)
  | createChatRequest mesg =>
    cases h
    exact JobM.delivers_whenLoggedIn
      (fun st' hst => ⟨st', hst, st', hst, fun _ => ⟨⟨_, rfl, hlogged hst trivial⟩, rfl⟩⟩)
      (hrefused trivial)
  | msgNotSet => cases h

/-! ### Sessions -/

/-- A job on its way to its response. -/
def Phase.Delivers (Q : Response → Prop) (st : Option ClientState) : Phase → Prop
  | .running job => job.Delivers Q st
  | .waiting _ _ k => ∀ r, (k r).Delivers Q st

namespace Serving

variable {v v' : Serving}

/-- The task of a session and its responses suit the login state in which they began. -/
structure Responsive (v : Serving) : Prop where
  inbox : ∀ p ∈ v.inbox, (requestJob p.2).isSome
  task : ∀ id request phase, v.task = some ⟨id, request, phase⟩ →
    phase.Delivers (request.Suits v.before.isSome) v.clientState
  outbox : ∀ reply ∈ v.outbox, ∃ r, reply.mesg = .response r ∧
    reply.request.Suits v.before.isSome r

theorem fresh_responsive : fresh.Responsive :=
  ⟨fun _ h => absurd h List.not_mem_nil, fun _ _ _ h => (by cases h),
    fun _ h => absurd h List.not_mem_nil⟩

theorem Responsive.receive (h : v.Responsive) {request : Request}
    (hjob : (requestJob request).isSome) (id : ℕ) : (v.receive id request).Responsive := by
  refine ⟨fun p hp => ?_, h.task, h.outbox⟩
  rcases List.mem_append.mp hp with hp | hp
  · exact h.inbox p hp
  · rw [List.mem_singleton.mp hp]
    exact hjob

theorem Responsive.delivered (h : v.Responsive) : v.delivered.Responsive :=
  ⟨h.inbox, h.task, fun reply hmem => h.outbox reply (List.mem_of_mem_tail hmem)⟩

/-- A session that a job is posted for. -/
theorem responsive_post {u : Serving} {request : Request} {job : JobM Unit}
    (hinbox : ∀ p ∈ u.inbox, (requestJob p.2).isSome)
    (houtbox : ∀ reply ∈ u.outbox, ∃ r, reply.mesg = .response r ∧
      reply.request.Suits u.before.isSome r)
    (hjob : job = .pure () ∨ job.Delivers (request.Suits u.before.isSome) u.clientState) (id : ℕ) :
    (u.post id request job).Responsive := by
  refine ⟨hinbox, ?_, houtbox⟩
  rintro _ _ _ htask
  rcases hjob with rfl | hjob
  · cases htask
  · cases job with
    | pure => exact hjob.elim
    | _ =>
      cases htask
      exact hjob

/-- When a request is read, the response to the one before has been. -/
theorem Stage.outbox_of_take {hashPassword : String → List UInt8} {started : List (ℕ × ℕ)}
    {d : Database hashPassword} (h : v.Stage started d) (hv : v.take = some v') :
    v.outbox = [] := by
  rw [Serving.take] at hv
  split at hv
  · next id request inbox htask hinbox =>
    have hsingle := h.single
    simp only [pending, htask, hinbox, List.length_append, List.length_map, List.length_cons]
      at hsingle
    exact List.length_eq_zero_iff.mp (by omega)
  · cases hv

theorem Responsive.take (h : v.Responsive) (houtbox : v.outbox = []) (hv : v.take = some v') :
    v'.Responsive := by
  rw [Serving.take] at hv
  split at hv
  · next id request inbox htask hinbox =>
    obtain ⟨job, hjob, rfl⟩ := Option.map_eq_some_iff.mp hv
    refine responsive_post (u := { v with inbox := inbox, before := v.clientState })
      (fun p hp => h.inbox p (hinbox ▸ List.mem_cons_of_mem _ hp)) ?_
      (.inr (requestJob_delivers hjob v.clientState)) id
    rw [houtbox]
    exact fun _ hmem => absurd hmem List.not_mem_nil
  · cases hv

theorem Responsive.resume (h : v.Responsive) {returned : ℕ → Option ((c : StorageCall) × c.Result)}
    (hv : v.resume returned = some v') : v'.Responsive := by
  rw [Serving.resume] at hv
  split at hv
  · next id request t c k htask =>
    split at hv
    · split_ifs at hv with hc
      cases hv
      exact responsive_post h.inbox h.outbox (.inr (h.task _ _ _ htask _)) id
    · cases hv
  · cases hv

theorem Responsive.operate (h : v.Responsive) (hv : v.operate = some (.alone v')) :
    v'.Responsive := by
  rw [Serving.operate] at hv
  split at hv
  · next id request job htask =>
    have hjob := h.task _ _ _ htask
    cases job with
    | pure | call => cases hv
    | loggedIn k =>
      cases hv
      have hjob : (k v.clientState.isSome).Delivers _ _ := hjob
      exact responsive_post h.inbox h.outbox (.inr hjob) id
    | state k =>
      obtain ⟨st, hst, hjob⟩ := hjob
      rw [hst] at hv
      cases hv
      exact responsive_post h.inbox h.outbox (.inr hjob) id
    | setState st k =>
      cases hv
      exact responsive_post (u := { v with clientState := some st }) h.inbox h.outbox (.inr hjob) id
    | write mesg k =>
      cases hv
      obtain ⟨⟨r, rfl, hr⟩, rfl⟩ := hjob
      refine responsive_post (u := { v with outbox := v.outbox ++ [⟨id, request, .response r⟩] })
        h.inbox (fun reply hmem => ?_) (.inl rfl) id
      rcases List.mem_append.mp hmem with hmem | hmem
      · exact h.outbox reply hmem
      · rw [List.mem_singleton.mp hmem]
        exact ⟨r, rfl, hr⟩
  · cases hv

/-- A session that has called a storage function. -/
theorem Responsive.calls (h : v.Responsive) {id : ℕ} {c : StorageCall} {w : ℕ → Serving}
    (hv : v.operate = some (.calls id c w)) (t : ℕ) : (w t).Responsive := by
  rw [Serving.operate] at hv
  split at hv
  · next id' request job htask =>
    have hjob := h.task _ _ _ htask
    cases job with
    | call c' k =>
      cases hv
      refine ⟨h.inbox, ?_, h.outbox⟩
      rintro _ _ _ htask
      cases htask
      exact hjob
    | state k =>
      obtain ⟨_, -, heq⟩ := Option.map_eq_some_iff.mp hv
      cases heq
    | _ => cases hv
  · cases hv

/-- The user whom the client knows of while a response is on its way. -/
theorem base_of_reply {reply : Reply}
    (hreply : v.outbox.head? = some reply) : v.base = v.before := by
  refine if_neg fun ⟨_, houtbox⟩ => ?_
  rw [houtbox] at hreply
  cases hreply

/-- The user whom the client knows of when it has the response. -/
theorem base_delivered {reply : Reply}
    (hreply : v.outbox.head? = some reply) (hpending : v.pending = [(reply.id, reply.request)]) :
    v.delivered.base = v.clientState := by
  have hnone := pending_delivered hreply
  rw [hpending] at hnone
  exact base_of_pending_nil (List.cons.inj hnone).2.symm

end Serving

/-! ### What the client knows -/

/-- The client has been given a profile on the open connection. -/
def logged (log : List ClientAction) : Bool :=
  log.foldl (fun b a => match a with
    | .opened => false
    | .answered _ (.loginResponse (some _)) => true
    | _ => b) false

theorem logged_append {log news : List ClientAction} (hopened : .opened ∉ news)
    (hanswered : ∀ id r, .answered id r ∉ news) : logged (log ++ news) = logged log := by
  rw [logged, List.foldl_append]
  change news.foldl _ (logged log) = logged log
  induction news with
  | nil => rfl
  | cons a news ih =>
    rw [List.mem_cons, not_or] at hopened
    rw [List.foldl_cons]
    cases a with
    | opened => exact absurd rfl hopened.1
    | answered id r => exact absurd (List.mem_cons_self ..) (hanswered id r)
    | _ => exact ih hopened.2 fun id r hmem => hanswered id r (List.mem_cons_of_mem _ hmem)

theorem logged_opened (log : List ClientAction) (signal : Signal) :
    logged (log ++ [.opened, .emitted none signal]) = false := by
  rw [logged, List.foldl_append]
  rfl

theorem logged_received (log : List ClientAction) :
    logged (log ++ [.received]) = logged log :=
  logged_append (by simp) (by simp)

/-- The client knows of a login from the answer. -/
theorem logged_of_answer {request : Request} {before after : Option ClientState} {called : Called}
    {r : Response} (h : Answer request before after called r) {log : List ClientAction}
    (hbefore : before.isSome = logged log) (id : ℕ) :
    after.isSome = logged (log ++ [.answered id r]) := by
  rw [logged, List.foldl_concat]
  by_cases hr : ∃ contact, r = .loginResponse (some contact)
  · obtain ⟨contact, rfl⟩ := hr
    obtain ⟨st, rfl, -⟩ := Option.map_eq_some_iff.mp (h.profile contact rfl).1
    rfl
  · have hne : ∀ contact, r ≠ .loginResponse (some contact) :=
      fun contact heq => hr ⟨contact, heq⟩
    rw [h.refused hne, hbefore]
    match r with
    | .loginResponse (some contact) => exact absurd rfl (hne contact)
    | .loginResponse none | .statusResponse _ | .chatsResponse _ | .contactsResponse _
    | .messagesResponse _ | .msgNotSet => rfl

/-- The answer suits the request, and what the client knew. -/
def Suited (before : List ClientAction) : ClientAction → Prop
  | .answered id r => ∃ mesg, (Client.exchange before).owed = [(id, mesg)] ∧
      mesg.Suits (logged before) r
  | _ => True

/-- Every answer of the log suits. -/
def AllSuited (log : List ClientAction) : Prop :=
  ∀ before a, before ++ [a] <+: log → Suited before a

theorem AllSuited.concat {log : List ClientAction} {a : ClientAction} (h : AllSuited log)
    (ha : Suited log a) : AllSuited (log ++ [a]) := by
  intro before b hprefix
  rcases List.prefix_concat_iff.mp hprefix with heq | hprefix
  · obtain ⟨rfl, hb⟩ := List.append_inj' heq rfl
    obtain rfl := List.singleton_inj.mp hb
    exact ha
  · exact h before b hprefix

theorem AllSuited.append {log : List ClientAction} (h : AllSuited log) {as : List ClientAction}
    (has : ∀ id r, .answered id r ∉ as) : AllSuited (log ++ as) := by
  induction as generalizing log with
  | nil => rwa [List.append_nil]
  | cons a as ih =>
    have hfirst : AllSuited (log ++ [a]) := by
      refine h.concat ?_
      cases a with
      | answered id r => exact absurd (List.mem_cons_self ..) (has id r)
      | _ => trivial
    have hrest := ih hfirst fun id r hmem => has id r (List.mem_cons_of_mem _ hmem)
    rwa [List.append_assoc] at hrest

/-! ### The system -/

/-- What is on its way stays responsive. -/
theorem responsive_transmit {news : List ClientAction} {sessions : List Serving}
    (hnews : ∀ id mesg, .written id mesg ∈ news → (requestJob mesg).isSome)
    (h : ∀ v ∈ sessions, v.Responsive) : ∀ v ∈ news.foldl transmit sessions, v.Responsive := by
  induction news generalizing sessions with
  | nil => exact h
  | cons a news ih =>
    refine ih (fun id mesg hmem => hnews id mesg (List.mem_cons_of_mem _ hmem)) ?_
    cases a with
    | opened =>
      intro v hv
      rcases List.mem_append.mp hv with hv | hv
      · exact h v hv
      · rw [List.mem_singleton.mp hv]
        exact Serving.fresh_responsive
    | written id mesg =>
      have hjob := hnews id mesg (List.mem_cons_self ..)
      rcases List.eq_nil_or_concat sessions with rfl | ⟨front, v, rfl⟩
      · exact h
      · rw [List.concat_eq_append] at h ⊢
        rw [transmit, List.modifyLast_concat]
        intro w hw
        rcases List.mem_append.mp hw with hw | hw
        · exact h w (List.mem_append_left _ hw)
        · rw [List.mem_singleton.mp hw]
          exact (h v (List.mem_append_right _ (List.mem_singleton_self _))).receive hjob id
    | _ => exact h

namespace System

open Client

variable {hashPassword : String → List UInt8} {qt : Qt} {s s' : System hashPassword}

theorem isSome_requestJob {op : Operation} {mesg : Request} {job : Job}
    (h : op.request = some (mesg, job)) : (requestJob mesg).isSome := by
  cases op <;> cases h <;> rfl

/-- Without a frame the client is given no response, and what it writes is a request of an
operation. -/
theorem moves_unanswered {c c' : Client} {e : Client.Event} (hm : c.Moves e c')
    (he : ∀ body, e ≠ .frame body) : ∃ news, c'.log = c.log ++ news ∧
      (∀ id r, .answered id r ∉ news) ∧
      (∀ id mesg, .written id mesg ∈ news → (requestJob mesg).isSome) ∧
      ((∃ signal, news = [.opened, .emitted none signal]) ∨
        .opened ∉ news ∧ (c'.socket = .connected → c.socket = .connected)) := by
  cases hm with
  | quiet _ _ _ _ hsocket _ =>
    refine ⟨[], (List.append_nil _).symm, by simp, by simp, .inr ⟨by simp, fun h => ?_⟩⟩
    exact connected_of_kept hsocket h
  | refused => exact ⟨_, rfl, by simp, by simp, .inr ⟨by simp, id⟩⟩
  | told _ _ _ _ hsocket _ =>
    refine ⟨_, rfl, by simp, by simp, .inr ⟨by simp, fun h => ?_⟩⟩
    exact connected_of_kept (hsocket.imp_left And.right) h
  | written _ hop =>
    refine ⟨_, rfl, by simp, fun id mesg hmem => ?_, .inr ⟨by simp, id⟩⟩
    cases List.mem_singleton.mp hmem
    exact isSome_requestJob hop
  | opened => exact ⟨_, rfl, by simp, by simp, .inl ⟨_, rfl⟩⟩
  | closed _ before _ _ hbefore =>
    refine ⟨_, List.append_assoc .., ?_, ?_, .inr ⟨?_, nofun⟩⟩ <;>
      rcases hbefore with rfl | rfl | ⟨err, rfl⟩ <;> simp
  | answered | chained => exact absurd rfl (he _)
  | ignored => exact absurd rfl (he _)

/-- The sessions are responsive, every answer suits, and the client knows whether it is logged in on
its connection. -/
structure Answering (s : System hashPassword) : Prop where
  linked : s.Linked
  sessions : ∀ v ∈ s.sessions, v.Responsive
  suited : AllSuited s.client.log
  known : s.client.socket = .connected → ∀ v, s.sessions.getLast? = some v →
    v.base.isSome = logged s.client.log

theorem initial_answering : (initial : System hashPassword).Answering where
  linked := initial_linked
  sessions _ hv := absurd hv List.not_mem_nil
  suited before a h := by
    have hlen := h.length_le
    rw [List.length_append, List.length_singleton] at hlen
    exact absurd hlen (Nat.not_succ_le_zero _)
  known h := nomatch h

theorem Answering.client (h : s.Answering) {e : Client.Event} {c : Client}
    (he : ∀ body, e ≠ .frame body) (hc : s.client.step qt e = some c) :
    (s.follow c).Answering := by
  have hnews : ∃ news, c.log = s.client.log ++ news ∧ (∀ id r, .answered id r ∉ news) ∧
      (∀ id mesg, .written id mesg ∈ news → (requestJob mesg).isSome) ∧
      ((∃ signal, news = [.opened, .emitted none signal]) ∨
        .opened ∉ news ∧ (c.socket = .connected → s.client.socket = .connected)) := by
    rcases step_moves h.linked.converses.1 hc with hm | ⟨chatId, -, hm⟩
    · exact moves_unanswered hm he
    · exact moves_unanswered (c := s.client.setCurrentChatId chatId) hm he
  obtain ⟨news, hlog, hanswered, hwritten, hopened⟩ := hnews
  have hfollow : (s.follow c).sessions = news.foldl transmit s.sessions := by
    rw [System.follow, hlog, List.drop_left]
  refine ⟨(h.linked.client he hc).1, ?_, ?_, fun hsocket v hv => ?_⟩
  · rw [hfollow]
    exact responsive_transmit hwritten h.sessions
  · change AllSuited c.log
    rw [hlog]
    exact h.suited.append hanswered
  · change v.base.isSome = logged c.log
    rw [hfollow] at hv
    rw [hlog]
    rcases hopened with ⟨signal, rfl⟩ | ⟨hopened, hconnected⟩
    · have hlast : (s.sessions ++ [Serving.fresh]).getLast? = some v := hv
      rw [List.getLast?_concat, Option.some_inj] at hlast
      rw [← hlast, logged_opened]
      rfl
    · have hbase := base_transmit hopened s.sessions
      rw [hv, Option.map_some] at hbase
      obtain ⟨w, hw, hwbase⟩ := Option.map_eq_some_iff.mp hbase.symm
      rw [← hwbase, logged_append hopened hanswered]
      exact h.known (hconnected hsocket) w hw

/-- What a response adds to the log. -/
theorem log_answeredBy (c : Client) (callback : Callback) (r : Response) : ∃ a,
    (c.answeredBy callback r).log = c.log ++ [.received] ++ [.answered callback.id r] ++ [a] ∧
      a ≠ .opened ∧ (∀ id r', a ≠ .answered id r') ∧
      ∀ id mesg, a = .written id mesg → (requestJob mesg).isSome := by
  rw [answeredBy]
  cases callback.job.reaction r with
  | some signal =>
    exact ⟨.emitted callback.id signal, by simp, fun h => (by cases h), fun _ _ h => (by cases h),
      fun _ _ h => (by cases h)⟩
  | none =>
    refine ⟨.written c.requests MessageFactory.createAllMyChatsRequest, by simp,
      fun h => (by cases h), fun _ _ h => (by cases h), fun _ _ h => ?_⟩
    cases h
    rfl

theorem Answering.delivered (h : s.Answering) (hd : s.Delivered s') : s'.Answering := by
  have hlinked := (hd.linked h.linked).1
  cases hd with
  | @mk front v reply r callback called hsessions hreply hmesg hcalled hanswer hpending howed hid
      hmakes hstack hsocket hcallback =>
    have hmem : v ∈ s.sessions := by
      rw [hsessions]
      exact List.mem_append_right _ (List.mem_singleton_self _)
    have hknown : v.before.isSome = logged s.client.log := by
      rw [← Serving.base_of_reply hreply]
      exact h.known hsocket v (by rw [hsessions, List.getLast?_concat])
    have hsuited : Suited (s.client.log ++ [.received]) (.answered callback.id r) := by
      obtain ⟨r', hmesg', hsuits⟩ := (h.sessions v hmem).outbox reply (List.mem_of_mem_head? hreply)
      rw [hmesg] at hmesg'
      cases hmesg'
      rw [hknown, ← logged_received] at hsuits
      refine ⟨reply.request, ?_, hsuits⟩
      rw [exchange_concat, hid]
      exact howed
    obtain ⟨a, hlog, hopened, hanswered, hwritten⟩ := log_answeredBy s.client callback r
    have hnews : (s.client.answeredBy callback r).log =
        s.client.log ++ [.received, .answered callback.id r, a] := by
      rw [hlog]
      simp
    refine ⟨hlinked, ?_, ?_, fun _ w hw => ?_⟩
    · rw [System.follow, hnews, List.drop_left]
      refine responsive_transmit (fun id mesg hmem => hwritten id mesg ?_) fun u hu => ?_
      · simpa [eq_comm] using hmem
      · rcases List.mem_append.mp hu with hu | hu
        · exact h.sessions u (hsessions ▸ List.mem_append_left _ hu)
        · rw [List.mem_singleton.mp hu]
          exact (h.sessions v hmem).delivered
    · change AllSuited (s.client.answeredBy callback r).log
      rw [hlog]
      refine ((h.suited.concat (a := .received) trivial).concat hsuited).append fun id r' hmem => ?_
      exact hanswered id r' (List.mem_singleton.mp hmem).symm
    · have hafter : v.clientState.isSome = logged (s.client.answeredBy callback r).log := by
        rw [hlog, logged_append (fun hmem => hopened (List.mem_singleton.mp hmem).symm)
          fun id r' hmem => hanswered id r' (List.mem_singleton.mp hmem).symm]
        exact logged_of_answer hanswer (hknown.trans (logged_received _).symm) callback.id
      change w.base.isSome = logged (s.client.answeredBy callback r).log
      rw [System.follow, hnews, List.drop_left] at hw
      have hnone : ClientAction.opened ∉ [.received, .answered callback.id r, a] := by
        simpa [eq_comm] using hopened
      have hsame := base_transmit hnone (front ++ [v.delivered])
      dsimp only at hw
      rw [hw, List.getLast?_concat, Option.map_some, Option.map_some, Option.some_inj] at hsame
      rw [hsame, Serving.base_delivered hreply hpending, hafter]

/-- A session that goes on. -/
theorem Answering.serve (h : s.Answering) {k : ℕ} {v v' : Serving} (hv : s.sessions[k]? = some v)
    (hbase : v'.base = v.base) (hresponsive : v'.Responsive) (hlinked : s'.Linked)
    (hclient : s'.client = s.client) (hsessions : s'.sessions = s.sessions.set k v') :
    s'.Answering := by
  refine ⟨hlinked, fun u hu => ?_, hclient ▸ h.suited, fun hsocket w hw => ?_⟩
  · rw [hsessions] at hu
    rcases List.mem_or_eq_of_mem_set hu with hu | rfl
    · exact h.sessions u hu
    · exact hresponsive
  · rw [hclient] at hsocket ⊢
    rw [hsessions, List.getLast?_eq_getElem?, List.length_set] at hw
    by_cases hk : k = s.sessions.length - 1
    · rw [← hk, List.getElem?_set_self (List.getElem?_eq_some_iff.mp hv).1] at hw
      cases hw
      rw [hbase]
      refine h.known hsocket v ?_
      rw [List.getLast?_eq_getElem?, ← hk, hv]
    · rw [List.getElem?_set_ne hk] at hw
      exact h.known hsocket w (by rw [List.getLast?_eq_getElem?, hw])

/-- What a session does when it goes on. -/
theorem step_serving {k : ℕ} {e : Event} (he : e = .take k ∨ e = .operate k ∨ e = .resume k)
    (hstep : s.step qt e = some s') : ∃ v v', s.sessions[k]? = some v ∧
      s'.client = s.client ∧ s'.sessions = s.sessions.set k v' ∧
      (v.take = some v' ∨ v.operate = some (.alone v') ∨
        (∃ id c w, v.operate = some (.calls id c w) ∧ v' = w s.database.calls) ∨
        v.resume s.database.returned = some v') := by
  rcases he with rfl | rfl | rfl
  · simp only [step, Option.bind_eq_bind, Option.bind_eq_some_iff, Option.some_inj] at hstep
    obtain ⟨v, hv, v', hv', rfl⟩ := hstep
    exact ⟨v, v', hv, rfl, rfl, .inl hv'⟩
  · simp only [step, Option.bind_eq_bind, Option.bind_eq_some_iff] at hstep
    obtain ⟨v, hv, operated, hoperated, hstep⟩ := hstep
    cases operated with
    | alone v' =>
      cases hstep
      exact ⟨v, v', hv, rfl, rfl, .inr (.inl hoperated)⟩
    | calls id c w =>
      cases hstep
      exact ⟨v, w s.database.calls, hv, rfl, rfl, .inr (.inr (.inl ⟨id, c, w, hoperated, rfl⟩))⟩
  · simp only [step, Option.bind_eq_bind, Option.bind_eq_some_iff, Option.some_inj] at hstep
    obtain ⟨v, hv, v', hv', rfl⟩ := hstep
    exact ⟨v, v', hv, rfl, rfl, .inr (.inr (.inr hv'))⟩

theorem step_answering {e : Event} (h : s.Answering) (hstep : s.step qt e = some s') :
    s'.Answering := by
  have hlinked := (step_linked h.linked hstep).1
  have hserve : ∀ {k : ℕ}, (e = .take k ∨ e = .operate k ∨ e = .resume k) → s'.Answering := by
    intro k he
    obtain ⟨v, v', hv, hclient, hsessions, hdoes⟩ := step_serving he hstep
    have hmem := List.mem_of_getElem? hv
    have hresponsive := h.sessions v hmem
    have hstage := h.linked.stages v hmem
    rcases hdoes with hv' | hv' | ⟨id, c, w, hv', rfl⟩ | hv'
    · exact h.serve hv (hstage.take hv').base
        (hresponsive.take (hstage.outbox_of_take hv') hv') hlinked hclient hsessions
    · exact h.serve hv (hstage.operate hv').base (hresponsive.operate hv') hlinked hclient hsessions
    · exact h.serve hv (hstage.calls hv').1.base (hresponsive.calls hv' _) hlinked hclient hsessions
    · exact h.serve hv (hstage.resume hv').base (hresponsive.resume hv') hlinked hclient hsessions
  cases e with
  | client e =>
    obtain ⟨he, c, hc, rfl⟩ := step_client hstep
    exact h.client he hc
  | deliver => exact h.delivered (h.linked.delivered hstep)
  | take k => exact hserve (.inl rfl)
  | operate k => exact hserve (.inr (.inl rfl))
  | resume k => exact hserve (.inr (.inr rfl))
  | database e =>
    obtain ⟨d, -, rfl⟩ := Option.map_eq_some_iff.mp hstep
    exact ⟨hlinked, h.sessions, h.suited, h.known⟩

theorem reachable_answering (h : Reachable (step qt) initial s) : s.Answering :=
  h.invariant (fun _ _ _ => step_answering) initial_answering

/-- **Responses.** In every run, whenever a response is given to a callback, it is the kind of
message that the request asks for; it is empty exactly if the request is guarded and the client has
not been given a profile on the connection. -/
theorem reachable_suited (h : Reachable (step qt) initial s) {before : List ClientAction} {id : ℕ}
    {r : Response} (hlog : before ++ [.answered id r] <+: s.client.log) :
    ∃ mesg, (exchange before).owed = [(id, mesg)] ∧
      (r = .msgNotSet ↔ mesg.Guarded ∧ logged before = false) ∧
      (r ≠ .msgNotSet → mesg.Expects r) := by
  obtain ⟨mesg, howed, hsuits⟩ := (reachable_answering h).suited before _ hlog
  refine ⟨mesg, howed, hsuits.msgNotSet_iff, fun hr => ?_⟩
  rcases hsuits with ⟨-, -, hempty⟩ | ⟨-, hexpects⟩
  · exact absurd hempty hr
  · exact hexpects

/-- The client asks for the chats before it has signed in. -/
def askedEarly : List Event :=
  [.client .connected, .client .ret, .client (.call .loadChats), .take 0, .operate 0, .operate 0,
    .deliver]

/-- The response is empty, as nobody is logged in. -/
theorem suited_askedEarly : ∃ s : System fun _ => [],
    run (step Qt.default) initial askedEarly = some s ∧ ∃ before mesg,
      before ++ [.answered 0 .msgNotSet] <+: s.client.log ∧ mesg.Guarded ∧
        (exchange before).owed = [(0, mesg)] := by
  have hrun : (run (step Qt.default) (initial : System fun _ => []) askedEarly).map
      (fun s => s.client.log.take 5) = some ([.opened, .emitted none (.showMessage "Connected!"),
        .written 0 .chatsRequest, .received] ++ [.answered 0 .msgNotSet]) := by
    decide
  obtain ⟨s, hs, hlog⟩ := Option.map_eq_some_iff.mp hrun
  have hprefix : _ <+: s.client.log := hlog ▸ List.take_prefix 5 s.client.log
  obtain ⟨mesg, howed, hempty, -⟩ := reachable_suited ⟨askedEarly, hs⟩ hprefix
  exact ⟨s, hs, _, mesg, hprefix, (hempty.mp rfl).1, howed⟩

end System

end Elegram
