import Elegram.Client.Steps

/-!
# The lock of the facade

Every operation of the facade takes the lock, and the handlers of the backend's signals release it.
As long as the lock is held, the client waits for the answer to a request on an open connection
(`Waits`). Every frame ends this, by releasing the lock, by another request or by closing the
connection, with one exception: `processResponse` only warns about a message without a response.
`always_neverLockedOut_iff` is the exact statement.
-/

namespace Elegram

open Transition

namespace Client

variable {qt : Qt}

/-- A request has been written on the connection that is open, and no frame has been received
since. -/
def Awaiting (log : List ClientAction) : Prop :=
  ∃ before id mesg after, log = before ++ .written id mesg :: after ∧
    ∀ a ∈ after, a ≠ .received ∧ a ≠ .opened ∧ a ≠ .closed

/-- A locked client waits. -/
def Waits (c : Client) : Prop :=
  c.availible = false → c.socket = .connected ∧ Awaiting c.log

/-- Between two events, a locked client waits. -/
def NeverLockedOut (c : Client) : Prop := c.stack = [] → c.Waits

/-- A message without a response does not arrive while the lock is held. -/
def Responds (c : Client) (e : Event) : Prop :=
  ∀ mesg, e = .frame (some mesg) → (∀ r, mesg ≠ .response r) → c.availible = true

theorem awaiting_written (log : List ClientAction) (id : ℕ) (mesg : Request) :
    Awaiting (log ++ [.written id mesg]) :=
  ⟨log, id, mesg, [], rfl, fun _ h => absurd h List.not_mem_nil⟩

theorem not_awaiting_received (log : List ClientAction) : ¬ Awaiting (log ++ [.received]) := by
  rintro ⟨before, id, mesg, after, hlog, hafter⟩
  have hlast := congrArg List.getLast? hlog
  rw [List.getLast?_concat, List.getLast?_append, List.getLast?_cons, Option.some_or,
    Option.some_inj] at hlast
  cases hend : after.getLast? with
  | none =>
    rw [hend] at hlast
    cases hlast
  | some a =>
    rw [hend] at hlast
    exact (hafter a (List.mem_of_getLast? hend)).1 hlast.symm

/-- A move that meets the condition leaves a locked client waiting. -/
theorem Moves.waits {c c' : Client} {e : Event} (h : Moves c e c') (hc : c.Waits)
    (he : c.Responds e) : c'.Waits := by
  intro hlocked
  cases h with
  | quiet _ _ _ _ hsocket _ =>
    obtain ⟨hconnected, hawaiting⟩ := hc hlocked
    rcases hsocket with hsame | ⟨hne, -⟩
    · exact ⟨hsame.trans hconnected, hawaiting⟩
    · exact absurd hconnected hne
  | refused _ _ _ havailible _ =>
    rw [havailible] at hlocked
    cases hlocked
  | told | closed | answered => cases hlocked
  | written _ _ _ hsocket => exact ⟨hsocket, awaiting_written _ _ _⟩
  | opened _ hsocket =>
    obtain ⟨hconnected, -⟩ := hc hlocked
    rw [hconnected] at hsocket
    cases hsocket
  | @chained r callback _ hsocket _ _ =>
    refine ⟨hsocket, ?_⟩
    have h := awaiting_written (c.log ++ [.received, .answered callback.id r]) c.requests
      MessageFactory.createAllMyChatsRequest
    rwa [List.append_assoc] at h
  | @ignored mesg hmesg _ _ =>
    have havailible := he mesg rfl hmesg
    have hlocked : c.availible = false := hlocked
    rw [havailible] at hlocked
    cases hlocked

/-- What is needed to tell what a step does, and that a locked client waits. -/
def Live (c : Client) : Prop := Suspended c.socket c.stack ∧ c.Waits

theorem step_live {c c' : Client} {e : Event} (hc : c.Live) (h : c.step qt e = some c')
    (he : c.Responds e) : c'.Live := by
  obtain ⟨hsuspended, hwaits⟩ := hc
  refine ⟨step_suspended hsuspended h, ?_⟩
  rcases step_moves hsuspended h with hm | ⟨chatId, -, hm⟩
  · exact hm.waits hwaits he
  · exact hm.waits (c := c.setCurrentChatId chatId) hwaits he

theorem initial_live : initial.Live := ⟨initial_suspended, nofun⟩

/-- A message without a response locks the client out if the lock is held. -/
theorem step_lockedOut {c c' : Client} {e : Event} (h : c.step qt e = some c')
    (he : ¬ c.Responds e) : ¬ c'.NeverLockedOut := by
  simp only [Responds, not_forall] at he
  obtain ⟨mesg, rfl, hmesg, hlocked⟩ := he
  rw [step] at h
  split_ifs at h with hidle
  have hc' : c' = c.record .received := by
    cases mesg with
    | response r => exact absurd rfl (hmesg r)
    | request | msgNotSet =>
      cases h
      rfl
  intro hnever
  have hwaits := hnever (by rw [hc']; exact hidle.1)
    (by rw [hc']; exact Bool.eq_false_iff.mpr hlocked)
  rw [hc'] at hwaits
  exact not_awaiting_received c.log hwaits.2

/-- **The lock.** In every state of a run between two events, the lock is only held while a request
waits for its answer on the open connection, if and only if no message without a response arrives
while the lock is held. -/
theorem always_neverLockedOut_iff (qt : Qt) (es : List Event) :
    Always (step qt) NeverLockedOut initial es ↔ EachStep (step qt) Responds initial es :=
  always_iff_eachStep (I := Live) (P := NeverLockedOut) (fun _ hc _ => hc.2)
    (fun _ _ _ hc h he => step_live hc h he) (fun _ _ _ _ h he => step_lockedOut h he)
    initial_live

/-- The client signs in, and the answer is a message without a response. -/
def emptyAnswer : List Event :=
  [.connected, .ret, .call (.signin "a" "b"), .frame (some .msgNotSet)]

/-- The empty answer locks the client out. -/
theorem not_always_neverLockedOut_emptyAnswer :
    ¬ Always (step Qt.default) NeverLockedOut initial emptyAnswer := by
  have hrun : (run (step Qt.default) initial emptyAnswer).map
      (fun c => (c.stack, c.availible, c.log)) = some ([], false,
        [.opened, .emitted none (.showMessage "Connected!"),
          .written 0 (MessageFactory.createLoginRequest "a" "b")] ++ [.received]) := by
    decide
  intro h
  obtain ⟨c, hc, heq⟩ := Option.map_eq_some_iff.mp hrun
  have hnever := always_iff_prefixes.mp h emptyAnswer [] (List.append_nil _).symm c hc
  simp only [Prod.mk.injEq] at heq
  obtain ⟨-, hawaiting⟩ := hnever heq.1 heq.2.1
  rw [heq.2.2] at hawaiting
  exact not_awaiting_received _ hawaiting

end Client

end Elegram
