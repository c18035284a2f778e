import Elegram.Server.Token

/-!
# Dispatching the announced body

A prefix announces the length of a body as a `fixed64`. On its way to `ParseFromArray` the length
is a `uint64_t`, the size of a buffer, and at last an `int`. `interprets_iff` says that the parse
job interprets exactly the announced bytes as long as they are fewer than two gigabytes, and never
from there on: then the runtime is told another number of bytes. A body of four gigabytes and a few
bytes is executed for the request that these few bytes are (`dispatches_append`).
-/

namespace Elegram

open Transition

namespace ClientSession

variable {P : Platform} {s s' s₁ s₂ : ClientSession} {head body : List UInt8}
  {ret : (c : StorageCall) → c.Result}

/-- All bytes together are a request that the server supports. -/
def Supported (P : Platform) (body : List UInt8) (request : Request) : Prop :=
  P.pb.parse body = some (.request request) ∧ (requestJob request).isSome

/-- The parse job has posted the job of the request. -/
def Dispatches (s s' : ClientSession) (request : Request) : Prop :=
  ∃ job, requestJob request = some job ∧
    s' = s.advance s.readBuffer (.requestJob request job) (.dispatched request)

/-- What the parse job makes of a body: `s` is the session before the job and `s'` the session
after it. -/
structure Interprets (P : Platform) (body : List UInt8) (s s' : ClientSession) : Prop where
  /-- `ParseFromArray` is told the number of bytes of the body. -/
  size : toInt s.readBuffer.length = body.length
  dispatches : ∀ request, s.Dispatches s' request ↔ Supported P body request
  stops : s' = s.halted s.readBuffer ↔ ∀ request, ¬ Supported P body request

/-- A prefix and a body that are read one after the other, up to the parse job. -/
theorem exists_of_reads (hs : s.Holds)
    (hread : run (step P) s [.item 0 (.read false head), .item 0 (.read false body)] = some s₁)
    (hrun : s₁.step P (.item 0 (.run ret)) = some s₂) :
    ∃ n, P.pb.parsePrefix head = some n ∧ body.length = n.toNat ∧ s₁.readBuffer = body ∧
      Moves P s₁ (.parseCommandJob body) (.run ret) s₂ := by
  simp only [run_cons, run_nil, Option.bind_eq_some_iff, Option.some.injEq] at hread
  obtain ⟨t, hhead, _, hbody, rfl⟩ := hread
  -- each of the three steps is a move of the token
  have hmoves : ∀ {t t' : ClientSession} {o : Outcome}, t.Holds →
      t.step P (.item 0 o) = some t' → ∃ item, t.outstanding = [item] ∧ Moves P t item o t' := by
    intro t t' o ht hstep
    rcases step_moves ht hstep with ⟨-, h, -⟩ | ⟨item, _, hout, -, h, hm⟩
    · cases h
    · cases h
      exact ⟨item, hout, hm⟩
  have ht := step_holds s _ t hs hhead
  obtain ⟨item, hout, hm⟩ := hmoves hs hhead
  obtain ⟨item₁, hout₁, hm₁⟩ := hmoves ht hbody
  obtain ⟨item₂, hout₂, hm₂⟩ := hmoves (step_holds t _ _ ht hbody) hrun
  cases hm with
  | ioFailed => cases hout₁
  | messageRead =>
    cases hout₁
    cases hm₁ with
    | ioFailed _ h => rcases h with h | ⟨_, h⟩ | ⟨_, h⟩ <;> cases h
  | prefixRead _ hparse _ _ =>
    cases hout₁
    cases hm₁ with
    | ioFailed => cases hout₂
    | messageRead hdata =>
      cases hout₂
      exact ⟨_, hparse, hdata, rfl, hm₂⟩

theorem not_dispatches_halted {buffer : List UInt8} {request : Request} :
    ¬ s.Dispatches (s.halted buffer) request := by
  rintro ⟨job, -, h⟩
  cases congrArg ClientSession.outstanding h

theorem dispatches_advance {request request' : Request} {job : JobM Unit}
    (hjob : requestJob request = some job) :
    s.Dispatches (s.advance s.readBuffer (.requestJob request job) (.dispatched request)) request' ↔
      request' = request := by
  constructor
  · rintro ⟨job', -, h⟩
    cases congrArg ClientSession.outstanding h
    rfl
  · rintro rfl
    exact ⟨job, hjob, rfl⟩

/-- **The announced body.** -/
theorem interprets_iff {n : UInt64} (h : Reachable (step P) fresh s)
    (hread : run (step P) s [.item 0 (.read false head), .item 0 (.read false body)] = some s₁)
    (hrun : s₁.step P (.item 0 (.run ret)) = some s₂) (hparse : P.pb.parsePrefix head = some n) :
    body.length = n.toNat ∧ (Interprets P body s₁ s₂ ↔ n.toNat < 2 ^ 31) := by
  obtain ⟨n', hparse', hlen, hbuffer, hm⟩ := exists_of_reads (reachable_holds h).1 hread hrun
  obtain rfl : n' = n := Option.some_inj.mp (hparse'.symm.trans hparse)
  refine ⟨hlen, fun hinterprets => ?_, fun hlt => ?_⟩
  · have hsize := hinterprets.size
    rw [hbuffer] at hsize
    have hint := toInt_lt body.length
    omega
  · rw [← hlen] at hlt
    have hwhole : s₁.parseBuffer P = P.pb.parse body := by
      rw [parseBuffer, hbuffer, toInt_of_lt hlt]
      rfl
    have hsize : toInt s₁.readBuffer.length = body.length := by rw [hbuffer, toInt_of_lt hlt]
    cases hm with
    | ioFailed _ h => rcases h with h | ⟨_, h⟩ | ⟨_, h⟩ <;> cases h
    | refused hno =>
      have hnone : ∀ request, ¬ Supported P body request := by
        rintro request ⟨hrequest, hsome⟩
        obtain ⟨job, hjob⟩ := Option.isSome_iff_exists.mp hsome
        exact hno request job (hwhole.trans hrequest) hjob
      exact ⟨hsize, fun request => iff_of_false not_dispatches_halted (hnone request),
        iff_of_true rfl hnone⟩
    | @dispatched _ _ request job hrequest hjob =>
      have hsupported : ∀ request', Supported P body request' ↔ request' = request := by
        intro request'
        rw [Supported, ← hwhole, hrequest]
        constructor
        · rintro ⟨heq, -⟩
          cases heq
          rfl
        · rintro rfl
          exact ⟨rfl, Option.isSome_iff_exists.mpr ⟨job, hjob⟩⟩
      refine ⟨hsize, fun request' => (dispatches_advance hjob).trans (hsupported request').symm,
        iff_of_false (fun heq => ?_) fun hnone => hnone request ((hsupported request).mpr rfl)⟩
      cases congrArg ClientSession.outstanding heq

/-! ### Longer bodies -/

/-- The runtime does not look at the bytes after those whose number it is told. -/
theorem toInt_add_mul {k : ℕ} (hk : k < 2 ^ 31) (m : ℕ) :
    toInt ((k + m * 2 ^ 32 : ℕ) : ℤ) = k := by
  rw [toInt, Int.bmod_def]
  split_ifs <;> omega

/-- A short request is executed in spite of a tail of any number of times four gigabytes. -/
theorem dispatches_append {request tail : List UInt8} {r : Request} (hlen : request.length < 2 ^ 31)
    {m : ℕ} (htail : tail.length = m * 2 ^ 32) (hr : Supported P request r)
    (hout : s.outstanding = [.parseCommandJob (request ++ tail)])
    (hbuffer : s.readBuffer = request ++ tail) (ret : (c : StorageCall) → c.Result) :
    ∃ s', s.step P (.item 0 (.run ret)) = some s' ∧ s.Dispatches s' r := by
  obtain ⟨job, hjob⟩ := Option.isSome_iff_exists.mp hr.2
  have hparse : s.parseBuffer P = some (.request r) := by
    rw [parseBuffer, hbuffer, List.length_append, htail, toInt_add_mul hlen,
      P.pb.parseFromArray_take _ _ (by simp), List.take_left' rfl]
    exact hr.1
  exact ⟨_, step_parseCommandJob ret hout hparse hjob, job, hjob, rfl⟩

/-- A session has just started and gets a prefix and the body that it announces. -/
theorem exists_run_body {n : UInt64} (hn : n ≠ 0) (hle : n.toNat ≤ P.memory)
    (hbody : body.length = n.toNat) :
    ∃ s₁, run (step P) begun [.item 0 (.read false (serializePrefix n)),
        .item 0 (.read false body)] = some s₁ ∧
      s₁.outstanding = [.parseCommandJob body] ∧ s₁.readBuffer = body := by
  obtain ⟨buffer, hbuffer, hhead⟩ := step_readPrefix (P := P) (s := begun) rfl rfl rfl hn hle
  have hread := step_readMessage (P := P) (s := begun.advance buffer (.readMessage n)
    (.readStarted n.toNat)) rfl rfl hbuffer hbody
  refine ⟨(begun.advance buffer (.readMessage n) (.readStarted n.toNat)).advance body
    (.parseCommandJob body) .jobPosted, ?_, rfl, rfl⟩
  rw [run_cons_of_step hhead, run_cons_of_step hread, run_nil]

theorem begun_reachable : Reachable (step P) fresh begun :=
  (Reachable.refl fresh).concat (e := .start) (step_eq_some.mpr (congrArg some start_fresh))

/-- A request for the chats. -/
def chatsBody : List UInt8 := [0x12, 0x02, 0x1A, 0x00]

theorem supported_chatsBody : Supported Platform.proto3 chatsBody .chatsRequest :=
  ⟨by decide, rfl⟩

/-- The request is dispatched. -/
theorem interprets_chatsBody :
    ∃ s₁ s₂, run (step Platform.proto3) begun [.item 0 (.read false (serializePrefix 4)),
        .item 0 (.read false chatsBody)] = some s₁ ∧
      s₁.step Platform.proto3 (.item 0 (.run StorageCall.failure)) = some s₂ ∧
      Interprets Platform.proto3 chatsBody s₁ s₂ := by
  have hlen : chatsBody.length = (4 : UInt64).toNat := rfl
  have hnil : ([] : List UInt8).length = 0 * 2 ^ 32 := by rw [zero_mul, List.length_nil]
  obtain ⟨s₁, hread, hout, hbuffer⟩ := exists_run_body (P := Platform.proto3) (by decide)
    (by decide) hlen
  obtain ⟨s₂, hrun, -⟩ := dispatches_append (P := Platform.proto3) (by decide) hnil
    supported_chatsBody hout hbuffer StorageCall.failure
  exact ⟨s₁, s₂, hread, hrun, (interprets_iff begun_reachable hread hrun
    (Platform.proto3.pb.parsePrefix_serializePrefix 4 (by decide))).2.mpr (by decide)⟩

/-- It is dispatched as well when four gigabytes of zeros belong to the body, which is no request
for the chats then. -/
theorem not_interprets_chatsAndZeros :
    ∃ s₁ s₂, run (step Platform.proto3) begun [.item 0 (.read false (serializePrefix 4294967300)),
        .item 0 (.read false (chatsBody ++ List.replicate (2 ^ 32) 0))] = some s₁ ∧
      s₁.step Platform.proto3 (.item 0 (.run StorageCall.failure)) = some s₂ ∧
      s₁.Dispatches s₂ .chatsRequest ∧
      ¬ Supported Platform.proto3 (chatsBody ++ List.replicate (2 ^ 32) 0) .chatsRequest ∧
      ¬ Interprets Platform.proto3 (chatsBody ++ List.replicate (2 ^ 32) 0) s₁ s₂ := by
  generalize htail : List.replicate (2 ^ 32) (0 : UInt8) = tail
  have hlen : tail.length = 1 * 2 ^ 32 := by rw [← htail, List.length_replicate, one_mul]
  have hbody : (chatsBody ++ tail).length = (4294967300 : UInt64).toNat := by
    rw [List.length_append, hlen]
    rfl
  obtain ⟨s₁, hread, hout, hbuffer⟩ := exists_run_body (P := Platform.proto3) (by decide)
    (by decide) hbody
  obtain ⟨s₂, hrun, hdispatches⟩ := dispatches_append (P := Platform.proto3) (by decide) hlen
    supported_chatsBody hout hbuffer StorageCall.failure
  have hno : ¬ Supported Platform.proto3 (chatsBody ++ tail) .chatsRequest := by
    rintro ⟨hparse, -⟩
    have hencode : chatsBody = chatsBody ++ tail := encode_of_proto3_parse hparse
    have htail' := List.append_cancel_left ((List.append_nil chatsBody).trans hencode)
    rw [← htail'] at hlen
    cases hlen
  exact ⟨s₁, s₂, hread, hrun, hdispatches, hno, fun h => hno ((h.dispatches _).mp hdispatches)⟩

end ClientSession

end Elegram
