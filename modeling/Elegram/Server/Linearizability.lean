import Elegram.Server.Contracts
import Elegram.Server.ChatRace

/-!
# The storage connections are linearizable

Calls of the storage functions by any number of sessions, interleaved statement by statement at
READ COMMITTED. `linearizable` says that they cannot be told apart from calls made one after the
other, each alone and at once, unless a call of `create_chat` commits when the two already have a
chat: there is an order of the calls in which each gives the result that it has given, which leads
to the same tables, and which never puts a call before one that had returned when it was made.

`linearizable_iff` turns this around. When nobody invites himself, a run can be explained by such
an order exactly if no two users have ended up with two chats.
-/

namespace Elegram

open ReadCommitted Transition

/-! ### Calls made one after the other -/

/-- Members belong to chats that exist, and two different users have at most one in common. -/
structure Tables.Tidy (t : Tables) : Prop where
  exist : ∀ row ∈ t.clientToChat, row.chatId ∈ t.chat
  one : ∀ a b c d, a ≠ b → t.Member a c → t.Member b c → t.Member a d → t.Member b d → c = d

theorem Tables.Tidy.zero : (0 : Tables).Tidy where
  exist := fun _ h => by cases h
  one := by
    rintro a b c d - ⟨_, hrow, -⟩
    cases hrow

/-- A new chat for two users who had none. -/
theorem Tables.Tidy.add {t : Tables} (h : t.Tidy) {a b chat : PgInt}
    {usersTitle friendsTitle : String} (hnone : t.commonChats a b = []) (hnew : chat ∉ t.chat) :
    (t + chatTables a b chat usersTitle friendsTitle).Tidy where
  exist := by
    intro row hrow
    rcases List.mem_append.mp hrow with hrow | hrow
    · exact List.mem_append_left _ (h.exist row hrow)
    · refine List.mem_append_right _ ?_
      simp only [chatTables, List.mem_cons, List.not_mem_nil, or_false] at hrow ⊢
      rcases hrow with rfl | rfl <;> rfl
  one := by
    have hold : ∀ {x c}, t.Member x c → c ≠ chat := by
      rintro x c ⟨row, hrow, -, rfl⟩ heq
      exact hnew (heq ▸ h.exist row hrow)
    have hboth : ∀ {x y c}, x ≠ y → (x = a ∨ x = b) → (y = a ∨ y = b) →
        ¬ (t.Member x c ∧ t.Member y c) := by
      have hcommon := Tables.commonChats_eq_nil_iff.mp hnone
      rintro x y c hne (rfl | rfl) (rfl | rfl) ⟨hx, hy⟩
      · exact hne rfl
      · exact hcommon c ⟨hx, hy⟩
      · exact hcommon c ⟨hy, hx⟩
      · exact hne rfl
    intro x y c d hne
    simp only [Tables.member_add, member_chatTables]
    rintro (hxc | ⟨rfl, hx⟩) (hyc | ⟨hc, hy⟩) (hxd | ⟨hd, hx'⟩) (hyd | ⟨hd', hy'⟩)
    · exact h.one x y c d hne hxc hyc hxd hyd
    · exact absurd hd' (hold hxd)
    · exact absurd hd (hold hyd)
    · exact absurd ⟨hxc, hyc⟩ (hboth hne hx' hy')
    · exact absurd hc (hold hxc)
    · exact absurd hc (hold hxc)
    · exact absurd hc (hold hxc)
    · exact absurd hc (hold hxc)
    · exact absurd rfl (hold hyc)
    · exact absurd rfl (hold hyc)
    · exact absurd rfl (hold hyc)
    · exact absurd rfl (hold hyc)
    · exact absurd ⟨hxd, hyd⟩ (hboth hne hx hy)
    · exact absurd hd' (hold hxd)
    · exact absurd hd (hold hyd)
    · exact hd.symm

variable {hashPassword : String → List UInt8}

/-- What a call made alone does to the chats. -/
theorem StorageCall.Does.chats {limit : Sequences} {op : StorageCall} {t t' : Tables}
    {result : op.Result} (h : op.Does hashPassword limit t result t') :
    (t'.chat = t.chat ∧ t'.clientToChat = t.clientToChat) ∨
      ∃ a b chat usersTitle friendsTitle, t.commonChats a b = [] ∧
        t' = t + chatTables a b chat usersTitle friendsTitle := by
  obtain ⟨seq, choices, c, -, -, hpost, rfl⟩ :=
    h.ensures fun seq choices _ => storageProg_ensures hashPassword t seq choices op
  have hsame : c.tables = t → (c.tables.chat = t.chat ∧ c.tables.clientToChat = t.clientToChat) :=
    fun heq => heq ▸ ⟨rfl, rfl⟩
  have hadd : ∀ {rows : Tables}, c.tables = t + rows → rows.chat = [] → rows.clientToChat = [] →
      (c.tables.chat = t.chat ∧ c.tables.clientToChat = t.clientToChat) := by
    intro rows heq hchat hmembers
    rw [heq, Tables.add_chat, hchat, List.append_nil, Tables.add_clientToChat, hmembers,
      List.append_nil]
    exact ⟨rfl, rfl⟩
  cases op with
  | registration name email password =>
    rcases hpost with ⟨-, ⟨hc, -⟩, -⟩ | ⟨-, -, id, -, hc, -⟩
    · exact .inl (hsame hc)
    · exact .inl (hadd hc rfl rfl)
  | sendMessage senderId mesg =>
    rcases hpost with ⟨-, ⟨hc, -⟩, -⟩ | ⟨-, _, _, -, -, -, hc, -⟩
    · exact .inl (hsame hc)
    · exact .inl (hadd hc rfl rfl)
  | addContact userId email =>
    rcases hpost with ⟨-, hc, -⟩ | ⟨-, ⟨contacts, hc⟩, -⟩
    · exact .inl (hsame hc)
    · exact .inl (hadd hc rfl rfl)
  | createChat userId userName friendId =>
    rcases hpost with ⟨-, ⟨hc, -⟩, -⟩ | ⟨-, -, -, a, b, chat, row, -, -, hcan, -, -, -, hc, -⟩
    · exact .inl (hsame hc)
    · exact .inr ⟨a, b, chat, _, _, hcan.1, hc⟩
  | login email password => exact .inl (hsame hpost.1.1)
  | getChats | getContacts | getMessages => exact .inl (hsame hpost.1.1)

/-! ### Runs -/

namespace StorageMachine

variable {m m' : StorageMachine} {es : List (Machine.Event StorageCall)}

theorem sequences_le_of_step {e : Machine.Event StorageCall}
    (hstep : m.step (storageBody hashPassword) e = some m') :
    m.sequences.Le m'.sequences := by
  cases e with
  | call op =>
    cases hstep
    exact .refl _
  | act i choice =>
    obtain ⟨t, eff, -, hact, -, rfl⟩ := Machine.step_act hstep
    change m.sequences.Le eff.sequences
    cases hprog : t.prog with
    | ret r =>
      rw [hprog] at hact
      cases hact
    | attempt k | commit k =>
      rw [hprog] at hact
      cases choice <;> cases hown : t.own <;> rw [hown] at hact <;> cases hact <;> exact .refl _
    | exec st k =>
      rw [hprog] at hact
      cases choice with
      | fail =>
        cases hact
        exact .refl _
      | proceed order =>
        cases hown : t.own with
        | none =>
          rw [hown] at hact
          cases hact
          exact .refl _
        | some own =>
          rw [hown] at hact
          have hle := Statement.exec_le st (m.tables + own) m.sequences
          simp only [Prog.act, Option.some.injEq, Prog.execute] at hact
          subst hact
          rcases hexec : st.exec (m.tables + own) m.sequences with ⟨seq, _ | ⟨rows, inserted⟩⟩ <;>
          · rw [hexec] at hle
            exact hle

theorem sequences_le_of_run (hrun : run (Machine.step (storageBody hashPassword)) m es = some m') :
    m.sequences.Le m'.sequences :=
  invariant_of_run (I := fun m' => m.sequences.Le m'.sequences)
    (fun _ _ _ hle hstep => hle.trans (sequences_le_of_step hstep)) (.refl _) hrun

/-- A call of `create_chat` does not commit when the two have a common chat by then. -/
def StillNoChat (m : StorageMachine) : Machine.Event StorageCall → Prop
  | .act i (.proceed _) => ∀ t userId userName friendId a b k own, m.txns[i]? = some t →
      t.label = .createChat userId userName friendId → t.prog = .commit k → t.own = some own →
      PgInt.ofUInt64? userId = some a → PgInt.ofUInt64? friendId = some b →
      m.tables.commonChats a b = []
  | _ => True

/-- The contracts hold whenever they are relied upon. -/
theorem always_holding
    (hrun : run (Machine.step (storageBody hashPassword)) (Machine.initial .initial) es = some m) :
    Always (Machine.step (storageBody hashPassword))
      (Machine.Holding fun op => op.contract hashPassword m.sequences) (Machine.initial .initial)
      es := by
  rw [always_iff_prefixes]
  rintro es₁ es₂ rfl m₁ hm₁ t ht own hown
  rw [run_append, hm₁, Option.bind_some] at hrun
  exact ⟨reachable_schema ⟨es₁, hm₁⟩,
    (schemaConstraint.respected_of_reachable ⟨es₁, hm₁⟩).pending t ht own hown,
    sequences_le_of_run hrun⟩

theorem StillNoChat.permitted {limit : Sequences} {e : Machine.Event StorageCall}
    (he : m.StillNoChat e) :
    m.Permitted (fun op => op.contract hashPassword limit) e := by
  cases e with
  | call op => exact trivial
  | act i choice =>
    cases choice with
    | fail => exact trivial
    | proceed order =>
      intro t k own ht hprog hown
      cases hlabel : t.label with
      | createChat userId userName friendId =>
        exact fun a b ha hb => he t userId userName friendId a b k own ht hlabel hprog hown ha hb
      | _ => exact trivial

/-- **Linearizability.** -/
theorem linearizable (hashPassword : String → List UInt8)
    (hrun : run (Machine.step (storageBody hashPassword)) (Machine.initial .initial) es = some m)
    (hes : EachStep (Machine.step (storageBody hashPassword)) StillNoChat
      (Machine.initial .initial) es) :
    ∃ order, Machine.Linearizes (storageBody hashPassword)
      (fun op => op.contract hashPassword m.sequences) (Machine.initial .initial) es m order :=
  Machine.exists_linearization (fun op => storageBody_meets op) (always_holding hrun)
    (hes.mono fun _ _ he => he.permitted) hrun

/-! ### Runs without an order -/

section OneByOne

open Machine

variable {limit : Sequences} {t t' : postgres.Tables} {order : List ℕ}

/-- Rows are only added. -/
theorem extends_of_oneByOne
    (h : OneByOne (fun op => op.contract hashPassword limit) m t order t') :
    Extends (E := postgres) t t' := by
  refine h.extends ?_
  rintro op _ t t' ⟨result, -, seq, choices, c, -, -, heval, rfl⟩
  have hext := Prog.extends_eval (storageProg hashPassword op) ⟨t, seq, some 0, choices⟩
  rwa [heval] at hext

/-- Calls made one after the other keep chats unique, since their numbers are. -/
theorem tidy_of_oneByOne
    (h : OneByOne (fun op => op.contract hashPassword limit) m t order t') (ht : Tables.Tidy t)
    (hkey : (Tables.chat t').Nodup) : Tables.Tidy t' := by
  induction h with
  | nil t => exact ht
  | cons ht' hret hdoes hrest ih =>
    obtain ⟨result, -, hdoes⟩ := hdoes
    refine ih ?_ hkey
    rcases hdoes.chats with ⟨hchat, hmembers⟩ | ⟨a, b, chat, _, _, hnone, rfl⟩
    · refine ⟨?_, ?_⟩
      · rw [hchat, hmembers]
        exact ht.exist
      · simp only [Tables.Member, hmembers]
        exact ht.one
    · obtain ⟨more, rfl⟩ := extends_of_oneByOne hrest
      rw [Tables.add_chat] at hkey
      have hnodup := hkey.of_append_left
      refine ht.add hnone fun hmem => ?_
      simp only [Tables.add_chat, chatTables, List.nodup_append, List.mem_singleton] at hnodup
      exact hnodup.2.2 chat hmem chat rfl rfl

end OneByOne

/-! ### Races -/

/-- The call is not for a chat of a user with himself. -/
def InvitesOther : StorageCall → Prop
  | .createChat userId _ friendId => userId ≠ friendId
  | _ => True

/-- Without a race, the two have no chat when a call for them commits. -/
theorem Invariant.stillNoChat (h : m.Invariant hashPassword)
    (hothers : ∀ t ∈ m.txns, InvitesOther t.label) {e : Machine.Event StorageCall}
    (he : m.NoRace e) : m.StillNoChat e := by
  cases e with
  | call op => exact trivial
  | act i choice =>
    cases choice with
    | fail => exact trivial
    | proceed order =>
      intro t userId userName friendId a b k own ht hlabel hprog hown ha hb
      have hmem := List.mem_of_getElem? ht
      have hne : a ≠ b := by
        rintro rfl
        have hother := hothers t hmem
        rw [hlabel] at hother
        exact hother ((PgInt.toUInt64_of_eq_some ha).symm.trans (PgInt.toUInt64_of_eq_some hb))
      obtain ⟨a', b', chat, _, _, ha', hb', hcheck, -⟩ :=
        createChat_of_traced (h.traced t hmem) hlabel hprog
      cases ha.symm.trans ha'
      cases hb.symm.trans hb'
      refine Tables.commonChats_eq_nil_iff.mpr fun c ⟨hac, hbc⟩ => ?_
      obtain ⟨commit, hcommit, hfor, hrowa, hrowb⟩ := h.exists_commit hne hac hbc
      rw [← List.take_append_drop (checkedAt t.history) m.commits] at hcommit
      rcases List.mem_append.mp hcommit with hseen | hrace
      · -- the check would have seen it
        have hsub : ∀ {x}, commit.rows.Member x c →
            (tablesOf (m.commits.take (checkedAt t.history))).Member x c :=
          Exists.imp fun row => And.imp_left fun hrow =>
            mem_clientToChat_tablesOf.mpr ⟨commit, hseen, hrow⟩
        exact Tables.commonChats_eq_nil_iff.mp hcheck c ⟨hsub hrowa, hsub hrowb⟩
      · exact he t userId userName friendId a b k own ht hlabel hprog hown ha hb hne commit hrace
          hfor

/-- While no two users have two chats, there is no race. -/
theorem eachStep_stillNoChat
    (hothers : ∀ op, Machine.Event.call op ∈ es → InvitesOther op) (h : m.Invariant hashPassword)
    (hm : ∀ t ∈ m.txns, InvitesOther t.label)
    (hone : Always (Machine.step (storageBody hashPassword)) AtMostOneChat m es) :
    EachStep (Machine.step (storageBody hashPassword)) StillNoChat m es := by
  induction es generalizing m with
  | nil => trivial
  | cons e es ih =>
    intro m' hstep
    have hrest := hone.2 m' hstep
    have he : m.NoRace e := by
      by_contra hrace
      exact h.not_atMostOneChat_of_step hstep hrace hrest.head
    exact ⟨h.stillNoChat hm he, ih (fun op hop => hothers op (List.mem_cons_of_mem _ hop))
      (h.of_step hstep) (Machine.label_of_step hstep hm fun op hop =>
        hothers op (hop ▸ List.mem_cons_self ..)) hrest⟩

/-- Chats are never removed. -/
theorem AtMostOneChat.of_run (h : m'.AtMostOneChat)
    (hrun : run (Machine.step (storageBody hashPassword)) m es = some m') : m.AtMostOneChat := by
  have hext : Extends (E := postgres) m.tables m'.tables :=
    invariant_of_run (I := fun m' : StorageMachine => Extends m.tables m'.tables)
      (fun _ _ _ hle hstep => hle.trans (Machine.extends_of_step hstep)) (.refl _) hrun
  obtain ⟨more, htables⟩ := hext
  have hmember : ∀ {x c}, m.tables.Member x c → m'.tables.Member x c := fun hx =>
    htables ▸ Tables.member_add.mpr (.inl hx)
  intro a b c d hne hac hbc had hbd
  exact h a b c d hne (hmember hac) (hmember hbc) (hmember had) (hmember hbd)

theorem always_atMostOneChat_of_run
    (hrun : run (Machine.step (storageBody hashPassword)) m es = some m')
    (h : m'.AtMostOneChat) :
    Always (Machine.step (storageBody hashPassword)) AtMostOneChat m es := by
  rw [always_iff_prefixes]
  rintro es₁ es₂ rfl m₁ hm₁
  rw [run_append, hm₁, Option.bind_some] at hrun
  exact h.of_run hrun

/-- **Only two chats for two users show.** When nobody invites himself, a run can be explained by
calls made one after the other exactly if no two users have two chats at its end. -/
theorem linearizable_iff (hashPassword : String → List UInt8)
    (hrun : run (Machine.step (storageBody hashPassword)) (Machine.initial .initial) es = some m)
    (hothers : ∀ op, Machine.Event.call op ∈ es → InvitesOther op) :
    (∃ order, Machine.Linearizes (storageBody hashPassword)
      (fun op => op.contract hashPassword m.sequences) (Machine.initial .initial) es m order) ↔
      m.AtMostOneChat := by
  constructor
  · rintro ⟨order, h⟩
    exact (tidy_of_oneByOne h.oneByOne .zero (reachable_schema ⟨es, hrun⟩).chatKey).one
  · intro hone
    refine linearizable hashPassword hrun
      (eachStep_stillNoChat hothers initial_invariant (fun _ ht => by cases ht)
        (always_atMostOneChat_of_run hrun hone))

/-- Two clients register at the same time. The second invites the first while the first is about
to create a chat with the second. -/
def lateInvitation : List (Machine.Event StorageCall) :=
  [.call (.registration "" "a" ""), .call (.registration "" "b" "")] ++ acts 0 1 ++ acts 1 1 ++
    acts 0 2 ++ acts 1 2 ++ [.call (.createChat 1 "" 2), .call (.createChat 2 "" 1)] ++ acts 2 8 ++
    acts 3 1 ++ acts 2 1 ++ acts 3 1

theorem run_lateInvitation : ∃ m, run (Machine.step (storageBody fun _ => []))
    (Machine.initial .initial) lateInvitation = some m ∧ AtMostOneChat m := by
  have hrun : (run (Machine.step (storageBody fun _ => [])) (Machine.initial .initial)
      lateInvitation).map (fun m =>
        m.tables.clientToChat.map ClientToChatRow.chatId) = some [1, 1] := rfl
  obtain ⟨m, hm, hrows⟩ := Option.map_eq_some_iff.mp hrun
  refine ⟨m, hm, ?_⟩
  have hmember : ∀ {a c}, m.tables.Member a c → c = 1 := by
    rintro a c ⟨row, hrow, -, rfl⟩
    have hmem := List.mem_map_of_mem (f := ClientToChatRow.chatId) hrow
    rw [hrows] at hmem
    simpa using hmem
  intro a b c d _ hac _ had _
  rw [hmember hac, hmember had]

theorem invitesOther_lateInvitation (op : StorageCall) (h : .call op ∈ lateInvitation) :
    InvitesOther op := by
  simp only [lateInvitation, acts, List.mem_append, List.mem_cons, List.not_mem_nil,
    List.mem_replicate, Machine.Event.call.injEq, reduceCtorEq, and_false, or_false] at h
  rcases h with (rfl | rfl) | rfl | rfl
  · trivial
  · trivial
  · exact fun h => by cases h
  · exact fun h => by cases h

/-- Their calls can be explained. -/
theorem linearizable_lateInvitation : ∃ m, run (Machine.step (storageBody fun _ => []))
    (Machine.initial .initial) lateInvitation = some m ∧
    ∃ order, Machine.Linearizes (storageBody fun _ => [])
      (fun op => op.contract (fun _ => []) m.sequences) (Machine.initial .initial) lateInvitation m
      order := by
  obtain ⟨m, hm, hone⟩ := run_lateInvitation
  exact ⟨m, hm, linearizable _ hm (eachStep_stillNoChat invitesOther_lateInvitation
    initial_invariant (fun _ ht => by cases ht) (always_atMostOneChat_of_run hm hone))⟩

/-- When both find no chat before either of them has created one, they cannot. -/
theorem not_linearizable_mutualInvitation : ∃ m, run (Machine.step (storageBody fun _ => []))
    (Machine.initial .initial) mutualInvitation = some m ∧
    ¬ ∃ order, Machine.Linearizes (storageBody fun _ => [])
      (fun op => op.contract (fun _ => []) m.sequences) (Machine.initial .initial)
      mutualInvitation m order := by
  have hrun : (run (Machine.step (storageBody fun _ => [])) (Machine.initial .initial)
      mutualInvitation).map (fun m =>
        m.tables.clientToChat.map fun row => (row.clientId, row.chatId)) =
      some [(1, 1), (2, 1), (2, 2), (1, 2)] := rfl
  obtain ⟨m, hm, hrows⟩ := Option.map_eq_some_iff.mp hrun
  have hmember : ∀ {a c}, (a, c) ∈ [((1 : PgInt), (1 : PgInt)), (2, 1), (2, 2), (1, 2)] →
      m.tables.Member a c := by
    intro a c hmem
    rw [← hrows] at hmem
    obtain ⟨row, hrow, heq⟩ := List.mem_map.mp hmem
    rw [Prod.mk.injEq] at heq
    exact ⟨row, hrow, heq⟩
  refine ⟨m, hm, fun horder => ?_⟩
  have hone := (linearizable_iff _ hm fun op hop => ?_).mp horder
  · have heq := hone 1 2 1 2 (by decide) (hmember (by decide)) (hmember (by decide))
      (hmember (by decide)) (hmember (by decide))
    exact absurd heq (by decide)
  · simp only [mutualInvitation, acts, List.mem_append, List.mem_cons, List.not_mem_nil,
      List.mem_replicate, Machine.Event.call.injEq, reduceCtorEq, and_false, or_false] at hop
    rcases hop with (rfl | rfl) | rfl | rfl
    · trivial
    · trivial
    · exact fun h => by cases h
    · exact fun h => by cases h

end StorageMachine

end Elegram
