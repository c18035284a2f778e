import Elegram.System.Delivery

/-!
# What the client is told

A request that stands for a transaction is carried out at most once, and the reaction that the
client shows tells whether it has been: the boolean of the signal goes back to the status of the
response, to the result of the storage function and to what the transaction has committed. Nothing
is promised for a request whose connection is lost, except that it is not carried out twice.
-/

namespace Elegram

open ReadCommitted Transition

/-- What a reaction reports about its request. -/
def Signal.reported : Signal → Option Bool
  | .registered status | .sendedMessage status | .addedContact status | .chatCreated status =>
    some status
  | _ => none

/-- A reaction that reports something reports whether the response is a success. -/
theorem Job.reported_reaction {job : Job} {request : Request} (hmakes : Client.MayMake job request)
    {r : Response} {signal : Signal} (hsignal : job.reaction r = some signal) {b : Bool}
    (hb : signal.reported = some b) : request.Changes ∧ b = Client.accepted r := by
  rcases hmakes with ⟨op, hop⟩ | ⟨rfl, rfl⟩
  · cases op <;> cases hop
    all_goals
      cases r <;> cases hsignal <;> cases hb
      all_goals exact ⟨trivial, rfl⟩
  · cases r <;> cases hsignal <;> cases hb

theorem Job.reaction_ne_aborted (job : Job) (r : Response) (message : String) :
    job.reaction r ≠ some (.operationAborted message) := by
  cases job <;> cases r <;> simp [reaction]

/-- The calls of a request that stands for a transaction report whether they have committed. -/
theorem Request.Changes.decides {request : Request} (h : request.Changes) {op : StorageCall}
    (hasks : request.Asks op) : op.Decides := by
  cases request with
  | registerRequest mesg =>
    rw [show op = _ from hasks]
    trivial
  | sendMesgRequest mesg | addContactRequest mesg =>
    obtain ⟨_, rfl⟩ := hasks
    trivial
  | createChatRequest mesg =>
    obtain ⟨_, _, rfl⟩ := hasks
    trivial
  | _ => exact h.elim

namespace System

open Client

variable {hashPassword : String → List UInt8} {qt : Qt} {s s' : System hashPassword}

/-- What has been committed for a request. -/
def commits (s : System hashPassword) (id : ℕ) : List (Commit postgres StorageCall) :=
  (callsOf s.started id).flatMap s.database.committedBy

/-- A signal that reports something tells whether the call has succeeded, and a request that has
been refused has made no call. -/
structure Told (s : System hashPassword) (id : ℕ) (signal : Signal) : Prop where
  settled : s.Settled id
  reported : ∀ b, signal.reported = some b → ∃ request called, .written id request ∈ s.client.log ∧
    request.Changes ∧ Resolved s.started s.database id request called ∧ called.succeeded = b
  aborted : ∀ message, signal = .operationAborted message → callsOf s.started id = []

theorem Told.mono {id : ℕ} {signal : Signal} (h : s.Told id signal) (hs : s.Leads s')
    (hlog : s.client.log <+: s'.client.log) : s'.Told id signal := by
  obtain ⟨hsettled, hcalls⟩ := hs.settled id h.settled
  refine ⟨hsettled, fun b hb => ?_, fun message hm => hcalls.trans (h.aborted message hm)⟩
  obtain ⟨request, called, hwritten, hchanges, hcalled, hb⟩ := h.reported b hb
  exact ⟨request, called, hlog.subset hwritten, hchanges, hcalled.mono hcalls hs.database, hb⟩

/-- Every signal that has been emitted on behalf of a request. -/
def Truthful (s : System hashPassword) : Prop :=
  ∀ id signal, .emitted (some id) signal ∈ s.client.log → s.Told id signal

/-- The signals of a step. -/
theorem Truthful.of_log (h : s.Truthful) (hs : s.Leads s') (news : List ClientAction)
    (hlog : s'.client.log = s.client.log ++ news)
    (hnews : ∀ id signal, .emitted (some id) signal ∈ news → s'.Told id signal) :
    s'.Truthful := by
  intro id signal hmem
  rw [hlog] at hmem
  rcases List.mem_append.mp hmem with hmem | hmem
  · exact (h id signal hmem).mono hs ⟨news, hlog.symm⟩
  · exact hnews id signal hmem

/-- Without a frame, the only signal on behalf of a request is that it is refused. -/
theorem moves_news {c c' : Client} {e : Client.Event} (hm : c.Moves e c')
    (he : ∀ body, e ≠ .frame body) : ∃ news, c'.log = c.log ++ news ∧
      ((∀ id signal, .emitted (some id) signal ∉ news) ∨ ∃ message,
        news = [.emitted (some c.requests) (.operationAborted message)] ∧
          c'.requests = c.requests + 1) := by
  cases hm with
  | quiet => exact ⟨[], (List.append_nil _).symm, .inl fun _ _ => List.not_mem_nil⟩
  | refused => exact ⟨_, rfl, .inr ⟨notConnected, rfl, rfl⟩⟩
  | told | written | opened => exact ⟨_, rfl, .inl fun _ _ => by simp⟩
  | closed _ before _ _ hbefore =>
    refine ⟨_, List.append_assoc .., .inl fun _ _ => ?_⟩
    rcases hbefore with rfl | rfl | ⟨err, rfl⟩ <;> simp
  | answered | chained => exact absurd rfl (he _)
  | ignored => exact absurd rfl (he _)

/-- A refused request is on no connection. -/
theorem Linked.told_refused (h : s.Linked) {c : Client} (message : String)
    (hlog : c.log = s.client.log ++ [.emitted (some s.client.requests) (.operationAborted message)])
    (hrequests : c.requests = s.client.requests + 1) :
    (s.follow c).Told s.client.requests (.operationAborted message) := by
  have hsessions : (s.follow c).sessions = s.sessions := by
    rw [System.follow, hlog, List.drop_left]
    rfl
  refine ⟨⟨?_, fun v hv p hp => ?_⟩, fun _ hb => (by cases hb), fun _ _ => h.callsOf_next⟩
  · exact (Nat.lt_succ_self _).trans_eq hrequests.symm
  · rw [hsessions] at hv
    exact (h.written v hv p hp).1.ne

theorem Truthful.client (h : s.Truthful) (hs : s.Linked) {e : Client.Event} {c : Client}
    (he : ∀ body, e ≠ .frame body) (hc : s.client.step qt e = some c) :
    (s.follow c).Truthful := by
  have hleads := (hs.client he hc).2
  have hnews : ∃ news, c.log = s.client.log ++ news ∧
      ((∀ id signal, .emitted (some id) signal ∉ news) ∨ ∃ message,
        news = [.emitted (some s.client.requests) (.operationAborted message)] ∧
          c.requests = s.client.requests + 1) := by
    rcases step_moves hs.converses.1 hc with hm | ⟨chatId, -, hm⟩
    · exact moves_news hm he
    · exact moves_news (c := s.client.setCurrentChatId chatId) hm he
  obtain ⟨news, hlog, hnone | ⟨message, rfl, hrequests⟩⟩ := hnews
  · exact h.of_log hleads _ hlog fun id signal hmem => absurd hmem (hnone id signal)
  · refine h.of_log hleads _ hlog fun id signal hmem => ?_
    cases List.mem_singleton.mp hmem
    exact hs.told_refused message hlog hrequests

/-- A response tells what has become of its request. -/
theorem Truthful.delivered (h : s.Truthful) (hs : s.Linked) (hd : s.Delivered s') :
    s'.Truthful := by
  obtain ⟨hlinked, hleads⟩ := hd.linked hs
  cases hd with
  | @mk front v reply r callback called hsessions hreply hmesg hcalled hanswer hpending howed hid
      hmakes hstack hsocket hcallback =>
    have hmem : v ∈ s.sessions := by
      rw [hsessions]
      exact List.mem_append_right _ (List.mem_singleton_self _)
    have hrequest : (reply.id, reply.request) ∈ v.pending := by
      rw [hpending]
      exact List.mem_singleton_self _
    obtain ⟨hlt, hwritten⟩ := hs.written v hmem _ hrequest
    rw [answeredBy] at hlinked hleads ⊢
    cases hsignal : callback.job.reaction r with
    | none =>
      rw [hsignal] at hlinked hleads
      exact h.of_log hleads _ rfl fun _ _ hmem => absurd hmem (by simp)
    | some signal =>
      rw [hsignal] at hlinked hleads
      refine h.of_log hleads _ rfl fun id signal' hmem => ?_
      have heq : id = reply.id ∧ signal' = signal := by
        simpa [hid] using hmem
      obtain ⟨rfl, rfl⟩ := heq
      refine ⟨⟨hlt, fun u hu p hp => ?_⟩, fun b hb => ?_, ?_⟩
      · -- the last session has lost the request, and the others never had it
        dsimp only [System.follow] at hu
        rw [List.drop_left] at hu
        rcases List.mem_append.mp hu with hu | hu
        · have hapart := hs.apart
          rw [hsessions] at hapart
          exact (List.pairwise_append.mp hapart).2.2 u hu v (List.mem_singleton_self _) p hp _
            hrequest
        · rw [List.mem_singleton.mp hu] at hp
          have hnone := Serving.pending_delivered hreply
          rw [hpending] at hnone
          rw [← (List.cons.inj hnone).2] at hp
          exact absurd hp List.not_mem_nil
      · obtain ⟨hchanges, rfl⟩ := Job.reported_reaction hmakes hsignal hb
        refine ⟨reply.request, called, List.mem_append_left _ hwritten, hchanges, hcalled, ?_⟩
        rw [Bool.eq_iff_iff, ← hanswer.status hchanges, accepted, decide_eq_true_iff]
      · rintro message rfl
        exact absurd hsignal (Job.reaction_ne_aborted _ _ _)

theorem step_truthful {e : Event} (h : s.Truthful) (hs : s.Linked)
    (hstep : s.step qt e = some s') : s'.Truthful := by
  have hleads := (step_linked hs hstep).2
  cases hs.step_cases hstep with
  | client he hc => exact h.client hs he hc
  | delivered hd => exact h.delivered hs hd
  | served | database =>
    exact h.of_log hleads [] (List.append_nil _).symm fun _ _ hmem => absurd hmem List.not_mem_nil

theorem reachable_truthful (h : Reachable (step qt) initial s) : s.Linked ∧ s.Truthful :=
  h.invariant (I := fun s => s.Linked ∧ s.Truthful)
    (fun _ _ _ hs hstep => ⟨(step_linked hs.1 hstep).1, step_truthful hs.2 hs.1 hstep⟩)
    ⟨initial_linked, fun _ _ hmem => absurd hmem List.not_mem_nil⟩

/-! ### Commits -/

theorem Linked.commits (h : s.Linked) (id : ℕ) : (s.commits id).length ≤ 1 ∧
    ∀ commit ∈ s.commits id, ∃ request, .written id request ∈ s.client.log ∧
      request.Asks commit.label := by
  have honce := h.once id
  rw [System.commits]
  match hcalls : callsOf s.started id with
  | [] => exact ⟨Nat.zero_le _, nofun⟩
  | [t] =>
    have hstarted : (id, t) ∈ s.started :=
      mem_callsOf (by rw [hcalls]; exact List.mem_singleton_self _)
    obtain ⟨-, request, op, hwritten, hlabel, hasks⟩ := h.started _ hstarted
    obtain ⟨hle, hcommits⟩ := Database.committedBy_of_label hlabel
    rw [List.flatMap_cons, List.flatMap_nil, List.append_nil]
    exact ⟨hle, fun commit hmem => ⟨request, hwritten, by rw [hcommits commit hmem]; exact hasks⟩⟩
  | _ :: _ :: _ =>
    rw [hcalls] at honce
    simp only [List.length_cons] at honce
    omega

/-- What has been committed for a request whose call is known. -/
theorem commits_of_resolved {id : ℕ} {request : Request} {called : Called}
    (hchanges : request.Changes) (hcalled : Resolved s.started s.database id request called) :
    (s.commits id).length = if called.succeeded then 1 else 0 := by
  rw [System.commits]
  match called with
  | none =>
    rw [show callsOf s.started id = [] from hcalled]
    rfl
  | some ⟨op, result⟩ =>
    obtain ⟨hasks, t, ht, hreturned⟩ := hcalled
    rw [ht, List.flatMap_cons, List.flatMap_nil, List.append_nil]
    exact Database.committedBy_of_returned hreturned (hchanges.decides hasks)

/-- **The truth.** In every run, at most one transaction is committed for a request, and it is one
that the request asks for. If the reaction to a request reports success, exactly one has been
committed; if it reports failure, or the request was refused as there was no connection, none has.
-/
theorem commits_of_reachable (h : Reachable (step qt) initial s) (id : ℕ) :
    (s.commits id).length ≤ 1 ∧
    (∀ commit ∈ s.commits id, ∃ request, .written id request ∈ s.client.log ∧
      request.Asks commit.label) ∧
    ∀ signal, .emitted (some id) signal ∈ s.client.log →
      (∀ b, signal.reported = some b → (∃ request, .written id request ∈ s.client.log ∧
        request.Changes) ∧ (s.commits id).length = if b then 1 else 0) ∧
      ∀ message, signal = .operationAborted message → s.commits id = [] := by
  obtain ⟨hlinked, htruthful⟩ := reachable_truthful h
  obtain ⟨honce, hasks⟩ := hlinked.commits id
  refine ⟨honce, hasks, fun signal hmem => ?_⟩
  obtain ⟨-, hreported, haborted⟩ := htruthful id signal hmem
  refine ⟨fun b hb => ?_, fun message hm => ?_⟩
  · obtain ⟨request, called, hwritten, hchanges, hcalled, rfl⟩ := hreported b hb
    exact ⟨⟨request, hwritten, hchanges⟩, commits_of_resolved hchanges hcalled⟩
  · rw [commits, haborted message hm]
    rfl

/-- A registration, from the button to the reaction. -/
def registered : List Event :=
  [.client .connected, .client .ret, .client (.call (.signup "u" "e" "p")), .take 0, .operate 0,
    .database (.act 0 (.proceed .stored)), .database (.act 0 (.proceed .stored)),
    .database (.act 0 (.proceed .stored)), .resume 0, .operate 0, .deliver]

/-- The reaction reports success, and the registration has been committed. -/
theorem commits_registered : ∃ s : System fun _ => [],
    run (step Qt.default) initial registered = some s ∧
      .emitted (some 0) (.registered true) ∈ s.client.log ∧ (s.commits 0).length = 1 := by
  have hrun : (run (step Qt.default) (initial : System fun _ => []) registered).map
      (fun s => decide (.emitted (some 0) (.registered true) ∈ s.client.log)) = some true := by
    decide
  obtain ⟨s, hs, hmem⟩ := Option.map_eq_some_iff.mp hrun
  have hmem := of_decide_eq_true hmem
  obtain ⟨-, -, htold⟩ := commits_of_reachable ⟨registered, hs⟩ 0
  exact ⟨s, hs, hmem, ((htold _ hmem).1 true rfl).2⟩

end System

end Elegram
