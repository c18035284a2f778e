import Elegram.Server.StorageMachine

/-!
# Who writes to a chat

No constraint of the schema ties `Message` to `ClientToChat`. That every message comes from a member
of its chat rests on the check that `send_message` makes first, in the transaction that inserts the
message; memberships are never deleted, so the check stays true. An error of the check is turned
into "no" in the middle of the transaction, which then inserts nothing (`reachable_membersWrite`).
-/

namespace Elegram

open ReadCommitted Transition

namespace StorageMachine

variable {hashPassword : String → List UInt8} {m : StorageMachine}
  {es : List (Machine.Event StorageCall)}

/-- The check of the `i`-th call, a call of `send_message`, has seen that the sender is a member of
the chat. Its insertion and its commit have succeeded, and have added one message. -/
def Sent (hashPassword : String → List UInt8) (es : List (Machine.Event StorageCall))
    (m : StorageMachine) (i : ℕ) (history : List (Entry postgres)) (senderId : UInt64)
    (mesg : MessageToSend) : Prop :=
  ∃ (sender chat : PgInt) (seen₁ seen₂ : ℕ) (able none₂ : List Unit) (ins₁ ins₂ : Tables),
    PgInt.ofUInt64? senderId = some sender ∧ PgInt.ofUInt64? mesg.chatId = some chat ∧
    history = [⟨.checkSenderAbleToWriteToChat senderId mesg.chatId, seen₁, able, ins₁⟩,
      ⟨.sendMessage senderId mesg.chatId mesg.text, seen₂, none₂, ins₂⟩] ∧
    (tablesOf (m.commits.take seen₁)).Member sender chat ∧
    committedBy hashPassword es i = [⟨.sendMessage senderId mesg,
      { (0 : Tables) with message := [⟨sender, chat, mesg.text⟩] }⟩]

/-- Only members write to a chat. -/
structure MembersWrite (hashPassword : String → List UInt8)
    (es : List (Machine.Event StorageCall)) (m : StorageMachine) : Prop where
  members : ∀ row ∈ m.tables.message, m.tables.Member row.senderId row.chatId
  accepted : ∀ (i : ℕ) t senderId mesg result, m.txns[i]? = some t →
    t.prog = .ret ⟨.sendMessage senderId mesg, result⟩ →
    (result = true ↔ Sent hashPassword es m i t.history senderId mesg)
  /-- No action of a call that returns false has changed a table. -/
  refused : ∀ (i : ℕ) t senderId mesg, m.txns[i]? = some t →
    t.prog = .ret ⟨.sendMessage senderId mesg, false⟩ → ∀ m₁ m₂,
    Machine.ActsIn (storageBody hashPassword) i (Machine.initial .initial) es m₁ m₂ →
      m₂.tables = m₁.tables

theorem message_member (h : Reachable (Machine.step (storageBody hashPassword))
      (Machine.initial .initial) m) {row : MessageRow} (hrow : row ∈ m.tables.message) :
    m.tables.Member row.senderId row.chatId := by
  rw [Machine.tables, column_tablesOf (E := postgres) (f := Tables.message) rfl (fun _ _ => rfl),
    List.mem_flatMap] at hrow
  obtain ⟨c, hc, hrow⟩ := hrow
  have hwrites := commit_writes h hc
  rcases hwrites.kind.2.1 with hnone | ⟨senderId, mesg, hlabel⟩
  · rw [hnone] at hrow
    cases hrow
  rw [hlabel] at hwrites
  obtain ⟨sender, chat, -, -, hmember, hrows⟩ := hwrites
  rw [hrows] at hrow
  rw [List.mem_singleton.mp hrow]
  exact hmember

/-- **Writers.** -/
theorem reachable_membersWrite (hashPassword : String → List UInt8)
    (es : List (Machine.Event StorageCall)) (m : StorageMachine)
    (hrun : run (Machine.step (storageBody hashPassword)) (Machine.initial .initial) es = some m) :
    MembersWrite hashPassword es m := by
  have hdecided : ∀ (i : ℕ) t senderId mesg result, m.txns[i]? = some t →
      t.prog = .ret ⟨.sendMessage senderId mesg, result⟩ → ∃ committed,
        Decided (SendMessageHistory senderId mesg) result t.history committed ∧
        committedBy hashPassword es i =
          (committed.map fun rows => ⟨.sendMessage senderId mesg, rows⟩).toList := by
    intro i t senderId mesg result ht hprog
    obtain ⟨-, committed, houtcome, hcommitted⟩ := outcome_of_run hrun ht hprog
    exact ⟨committed, houtcome, hcommitted⟩
  refine ⟨fun row hrow => message_member ⟨es, hrun⟩ hrow,
    fun i t senderId mesg result ht hprog => ?_, fun i t senderId mesg ht hprog m₁ m₂ hact => ?_⟩
  · obtain ⟨committed, ⟨rfl, hhistory, rfl⟩ | ⟨rfl, rfl⟩, hcommitted⟩ :=
      hdecided i t senderId mesg result ht hprog
    · refine ⟨fun _ => ?_, fun _ => rfl⟩
      have hvalid := (Machine.reachable_traced ⟨es, hrun⟩ t (List.mem_of_getElem? ht)).valid
      obtain ⟨sender, chat, hsender, hchat, hmember, hrows⟩ := hhistory.inserted hvalid
      obtain ⟨seen₁, seen₂, able, none₂, ins₁, ins₂, -, hlist⟩ := hhistory
      refine ⟨sender, chat, seen₁, seen₂, able, none₂, ins₁, ins₂, hsender, hchat, hlist, ?_, ?_⟩
      · rwa [hlist] at hmember
      · rw [hcommitted, hrows]
        rfl
    · refine ⟨fun h => (by cases h), fun hsent => ?_⟩
      obtain ⟨_, _, _, _, _, _, _, _, -, -, -, -, hcommitted'⟩ := hsent
      rw [hcommitted] at hcommitted'
      cases hcommitted'
  · obtain ⟨committed, ⟨hfalse, -⟩ | ⟨-, rfl⟩, hcommitted⟩ :=
      hdecided i t senderId mesg false ht hprog
    · cases hfalse
    · exact Machine.tables_eq_of_committedBy hcommitted hact

/-- Of three clients two have a chat. One of them writes to it, and so does the third. -/
def memberAndStranger : List (Machine.Event StorageCall) :=
  [.call (.registration "" "a" "")] ++ acts 0 3 ++ [.call (.registration "" "b" "")] ++ acts 1 3 ++
    [.call (.registration "" "c" "")] ++ acts 2 3 ++ [.call (.createChat 1 "" 2)] ++ acts 3 9 ++
    [.call (.sendMessage 1 { chatId := 1, text := "m" }),
      .call (.sendMessage 3 { chatId := 1, text := "n" })] ++ acts 5 2 ++ acts 4 4

theorem membersWrite_memberAndStranger :
    ∃ m : StorageMachine, run (Machine.step (storageBody fun _ => [])) (Machine.initial .initial)
        memberAndStranger = some m ∧ m.tables.message = [⟨1, 1, "m"⟩] ∧
      MembersWrite (fun _ => []) memberAndStranger m := by
  have hrun : (run (Machine.step (storageBody fun _ => [])) (Machine.initial .initial)
      memberAndStranger).map (fun m => m.tables.message) = some [⟨1, 1, "m"⟩] := rfl
  obtain ⟨m, hm, hrows⟩ := Option.map_eq_some_iff.mp hrun
  exact ⟨m, hm, hrows, reachable_membersWrite _ _ m hm⟩

end StorageMachine

end Elegram
