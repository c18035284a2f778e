import Elegram.Server.StorageMachine
import Mathlib.Data.List.Pairwise

/-!
# Two chats for two users

The storage functions of any number of sessions, interleaved statement by statement. `create_chat`
looks for a common chat first and inserts afterwards, and nothing in the schema backs the check.
Two calls for the same users can both find no chat and both insert one. `always_atMostOneChat_iff`
says that this race is the only way to two chats.

The argument has three parts: what the history of a transaction of `create_chat` is when it comes
to its commit (`createChat_along`), which rows each committed transaction has contributed
(`CommitShape`), and that the numbers of chats, committed or not, are all different
(`chatNumbering`).
-/

namespace Elegram

open ReadCommitted Transition

/-! ### The other calls -/

/-- Rows without chats. -/
def Tables.NoChat (t : Tables) : Prop := t.chat = [] ∧ t.clientToChat = []

theorem Statement.exec_noChat {st : Statement} {t inserted : Tables} {seq seq' : Sequences}
    {rows : List st.Row} (hchat : st ≠ .createChat)
    (hconnection : ∀ clientId chatId title, st ≠ .createChatConnection clientId chatId title)
    (h : st.exec t seq = (seq', some (rows, inserted))) : inserted.NoChat := by
  cases exec_inserts h with
  | createChat hid => exact absurd rfl hchat
  | createChatConnection hclient hchat => exact absurd rfl (hconnection _ _ _)
  | none | registration hid hnew | sendMessage hsender hchat | addContact hclient hfriend hnew =>
    exact ⟨rfl, rfl⟩

/-- A call other than `create_chat`. -/
def StorageCall.LeavesChats : StorageCall → Prop
  | .createChat .. => False
  | _ => True

theorem StorageCall.leavesChats_or (op : StorageCall) : op.LeavesChats ∨
    ∃ userId userName friendId, op = .createChat userId userName friendId := by
  cases op with
  | createChat userId userName friendId => exact .inr ⟨userId, userName, friendId, rfl⟩
  | _ => exact .inl trivial

/-- The call creates a chat for these two users, in either order. -/
def StorageCall.IsChatOf (op : StorageCall) (a b : PgInt) : Prop :=
  match op with
  | .createChat userId _ friendId =>
    (PgInt.ofUInt64? userId = some a ∧ PgInt.ofUInt64? friendId = some b) ∨
      (PgInt.ofUInt64? userId = some b ∧ PgInt.ofUInt64? friendId = some a)
  | _ => False

theorem StorageCall.IsChatOf.symm {op : StorageCall} {a b : PgInt} (h : op.IsChatOf a b) :
    op.IsChatOf b a := by
  cases op with
  | createChat userId userName friendId => exact Or.symm h
  | _ => exact h

theorem inserted_noChat {L : Type} {commits : List (Commit postgres L)} {op : StorageCall}
    (hop : op.LeavesChats) {own : Tables} {history : List (Entry postgres)}
    (hst : ∀ e ∈ history, op.Executes e.st) (hvalid : ValidHistory commits own history) :
    (ReadCommitted.inserted history).NoChat := by
  induction history generalizing own with
  | nil => exact ⟨rfl, rfl⟩
  | cons e history ih =>
    obtain ⟨⟨-, seq, rows, -, hexec⟩, hrest⟩ := hvalid
    have he : e.inserted.NoChat := by
      have hexecutes := hst e (List.mem_cons_self ..)
      refine Statement.exec_noChat (fun heq => ?_) (fun _ _ _ heq => ?_) (Prod.ext rfl hexec) <;>
      · rw [heq] at hexecutes
        cases op <;> first | exact hexecutes | exact hop
    have hhistory := ih (fun e' he' => hst e' (List.mem_cons_of_mem _ he')) hrest
    have hsum : ReadCommitted.inserted (e :: history) =
        e.inserted + ReadCommitted.inserted history := by
      simp [ReadCommitted.inserted]
    rw [hsum]
    exact ⟨by rw [Tables.add_chat, he.1, hhistory.1, List.nil_append],
      by rw [Tables.add_clientToChat, he.2, hhistory.2, List.nil_append]⟩

/-! ### What has been committed -/

namespace StorageMachine

variable {hashPassword : String → List UInt8} {m m' : StorageMachine}

/-- The rows of a committed transaction: a chat of the two users if it was one of `create_chat`,
and otherwise no chats. -/
def CommitShape (c : Commit postgres StorageCall) : Prop :=
  match c.label with
  | .createChat userId _ friendId => ∃ a b chat usersTitle friendsTitle,
      PgInt.ofUInt64? userId = some a ∧ PgInt.ofUInt64? friendId = some b ∧
      c.rows = chatTables a b chat usersTitle friendsTitle
  | _ => c.rows.NoChat

theorem storageBody_along (userId : UInt64) (userName : String) (friendId : UInt64) :
    Prog.Along (CreateChatHistory userId friendId) (fun _ _ => True)
      (storageBody hashPassword (.createChat userId userName friendId)) [] :=
  Prog.Along.bind (Prog.Along.mono (createChat_along userId userName friendId) fun _ _ _ => trivial)

/-- The transaction of `create_chat` that is about to commit. -/
theorem createChat_of_traced {commits : List (Commit postgres StorageCall)}
    {t : Transaction postgres StorageCall ((op : StorageCall) × op.Result)}
    (ht : t.Traced (storageBody hashPassword) commits) {userId friendId : UInt64}
    {userName : String} (hlabel : t.label = .createChat userId userName friendId)
    {k : Bool → Prog postgres ((op : StorageCall) × op.Result)} (hprog : t.prog = .commit k) :
    ∃ a b chat usersTitle friendsTitle, PgInt.ofUInt64? userId = some a ∧
      PgInt.ofUInt64? friendId = some b ∧
      (tablesOf (commits.take (checkedAt t.history))).commonChats a b = [] ∧
      ReadCommitted.inserted t.history = chatTables a b chat usersTitle friendsTitle := by
  have hreach := ht.reaches
  rw [hlabel, hprog] at hreach
  have hhistory := (hreach.along (storageBody_along userId userName friendId)).1
  rw [List.nil_append] at hhistory
  exact hhistory.inserted ht.valid

/-- The rows of a transaction that commits. -/
theorem commitShape_of_traced {commits : List (Commit postgres StorageCall)}
    {t : Transaction postgres StorageCall ((op : StorageCall) × op.Result)}
    (ht : t.Traced (storageBody hashPassword) commits)
    {k : Bool → Prog postgres ((op : StorageCall) × op.Result)} (hprog : t.prog = .commit k)
    {rows : Tables} (hown : t.own = some rows) : CommitShape ⟨t.label, rows⟩ := by
  have hrows : rows = ReadCommitted.inserted t.history := ht.own rows hown
  have hnone : t.label.LeavesChats → rows.NoChat := by
    intro hop
    rw [hrows]
    exact inserted_noChat hop ((storageBody_uses t.label).reaches ht.reaches) ht.valid
  cases hlabel : t.label with
  | createChat userId userName friendId =>
    obtain ⟨a, b, chat, usersTitle, friendsTitle, ha, hb, -, hins⟩ :=
      createChat_of_traced ht hlabel hprog
    exact ⟨a, b, chat, usersTitle, friendsTitle, ha, hb, hrows.trans hins⟩
  | _ => exact hnone (by rw [hlabel]; exact trivial)

/-- The invariant of the machine. -/
structure Invariant (hashPassword : String → List UInt8) (m : StorageMachine) : Prop where
  traced : m.Traced (storageBody hashPassword)
  commits : ∀ c ∈ m.commits, CommitShape c
  fresh : chatNumbering.Fresh m

theorem initial_invariant : Invariant hashPassword (Machine.initial .initial) where
  traced := fun _ ht => by cases ht
  commits := fun _ hc => by cases hc
  fresh := Numbering.initial_fresh _

theorem Invariant.of_step {e : Machine.Event StorageCall} (h : m.Invariant hashPassword)
    (hstep : m.step (storageBody hashPassword) e = some m') : m'.Invariant hashPassword where
  traced := h.traced.of_step hstep
  fresh := h.fresh.of_step hstep
  commits := by
    cases e with
    | call op =>
      cases hstep
      exact h.commits
    | act i choice =>
      obtain ⟨t, eff, ht, heff, -, rfl⟩ := Machine.step_act hstep
      intro c hc
      rcases List.mem_append.mp hc with hc | hc
      · exact h.commits c hc
      · obtain ⟨rows, hrows, rfl⟩ := List.mem_map.mp hc
        obtain ⟨k, order, hprog, hown, -, -⟩ :=
          Prog.committed_of_act heff (Option.mem_toList.mp hrows)
        exact commitShape_of_traced (h.traced t (List.mem_of_getElem? ht)) hprog hown

/-! ### The race -/

/-- Two different users have at most one common chat. -/
def AtMostOneChat (m : StorageMachine) : Prop :=
  ∀ a b c d, a ≠ b → m.tables.Member a c → m.tables.Member b c → m.tables.Member a d →
    m.tables.Member b d → c = d

/-- A transaction of `create_chat` for two different users does not commit when another one for
the same users has committed since its check. -/
def NoRace (m : StorageMachine) : Machine.Event StorageCall → Prop
  | .act i (.proceed _) =>
    ∀ t userId userName friendId a b k own, m.txns[i]? = some t →
      t.label = .createChat userId userName friendId → t.prog = .commit k → t.own = some own →
      PgInt.ofUInt64? userId = some a → PgInt.ofUInt64? friendId = some b → a ≠ b →
      ∀ c ∈ m.commits.drop (checkedAt t.history), ¬ c.label.IsChatOf a b
  | _ => True

theorem mem_clientToChat_tablesOf {commits : List (Commit postgres StorageCall)}
    {row : ClientToChatRow} :
    row ∈ (tablesOf commits).clientToChat ↔ ∃ c ∈ commits, row ∈ c.rows.clientToChat := by
  rw [column_tablesOf (E := postgres) (f := Tables.clientToChat) rfl (fun _ _ => rfl),
    List.mem_flatMap]

theorem chat_tablesOf (commits : List (Commit postgres StorageCall)) :
    (tablesOf commits).chat = commits.flatMap fun c => c.rows.chat :=
  column_tablesOf rfl (fun _ _ => rfl) commits

/-- A row of `ClientToChat` comes with the chat that it belongs to. -/
theorem CommitShape.of_mem {c : Commit postgres StorageCall} (h : CommitShape c)
    {row : ClientToChatRow} (hrow : row ∈ c.rows.clientToChat) :
    ∃ userId userName friendId a b usersTitle friendsTitle,
      c.label = .createChat userId userName friendId ∧ PgInt.ofUInt64? userId = some a ∧
      PgInt.ofUInt64? friendId = some b ∧
      c.rows = chatTables a b row.chatId usersTitle friendsTitle := by
  obtain ⟨label, rows⟩ := c
  cases label with
  | createChat userId userName friendId =>
    obtain ⟨a, b, chat, usersTitle, friendsTitle, ha, hb, hrows⟩ := h
    refine ⟨userId, userName, friendId, a, b, usersTitle, friendsTitle, rfl, ha, hb, ?_⟩
    dsimp only at hrows hrow
    rw [hrows] at hrow ⊢
    simp only [chatTables, List.mem_cons, List.not_mem_nil, or_false] at hrow
    rcases hrow with rfl | rfl <;> rfl
  | _ =>
    rw [show rows.clientToChat = [] from h.2] at hrow
    cases hrow

/-- No two transactions have created the same chat. -/
theorem Invariant.commit_unique (h : m.Invariant hashPassword) {c c' : Commit postgres StorageCall}
    (hc : c ∈ m.commits) (hc' : c' ∈ m.commits) {chat : PgInt} (hchat : chat ∈ c.rows.chat)
    (hchat' : chat ∈ c'.rows.chat) : c = c' := by
  by_contra hne
  have hnodup : (m.commits.flatMap fun c => c.rows.chat).Nodup := by
    rw [← chat_tablesOf]
    exact h.fresh.nodup
  have hsymm : Std.Symm (Function.onFun List.Disjoint fun c : Commit postgres StorageCall =>
      c.rows.chat) := ⟨fun _ _ hd _ ha hb => hd hb ha⟩
  exact (List.nodup_flatMap.mp hnodup).2.forall hc hc' hne hchat hchat'

/-- The rows of a chat of two different users come from one transaction, which was for them. -/
theorem Invariant.exists_commit (h : m.Invariant hashPassword) {a b chat : PgInt} (hne : a ≠ b)
    (ha : m.tables.Member a chat) (hb : m.tables.Member b chat) :
    ∃ c ∈ m.commits, c.label.IsChatOf a b ∧ c.rows.Member a chat ∧ c.rows.Member b chat := by
  obtain ⟨row, hrow, rfl, rfl⟩ := ha
  obtain ⟨row', hrow', rfl, hchat⟩ := hb
  obtain ⟨c, hc, hrow⟩ := mem_clientToChat_tablesOf.mp hrow
  obtain ⟨c', hc', hrow'⟩ := mem_clientToChat_tablesOf.mp hrow'
  obtain ⟨userId, userName, friendId, a, b, usersTitle, friendsTitle, hlabel, ha, hb, hrows⟩ :=
    (h.commits c hc).of_mem hrow
  obtain ⟨_, _, _, _, _, _, _, -, -, -, hrows'⟩ := (h.commits c' hc').of_mem hrow'
  have hnew : row.chatId ∈ c.rows.chat := by
    rw [hrows]
    simp [chatTables]
  have hnew' : row.chatId ∈ c'.rows.chat := by
    rw [hrows', hchat]
    simp [chatTables]
  have heq : c = c' := h.commit_unique hc hc' hnew hnew'
  subst heq
  refine ⟨c, hc, ?_, ⟨row, hrow, rfl, rfl⟩, ⟨row', hrow', rfl, hchat⟩⟩
  rw [hrows] at hrow hrow'
  simp only [chatTables, List.mem_cons, List.not_mem_nil, or_false] at hrow hrow'
  rw [hlabel]
  rcases hrow.imp (congrArg ClientToChatRow.clientId) (congrArg ClientToChatRow.clientId) with
    hx | hx <;>
  rcases hrow'.imp (congrArg ClientToChatRow.clientId) (congrArg ClientToChatRow.clientId) with
    hy | hy
  · exact absurd (hx.trans hy.symm) hne
  · exact .inl ⟨hx ▸ ha, hy ▸ hb⟩
  · exact .inr ⟨hy ▸ ha, hx ▸ hb⟩
  · exact absurd (hx.trans hy.symm) hne

/-- What a step does to the chats: nothing, or a call of `create_chat` commits. -/
theorem Invariant.step_clientToChat (h : m.Invariant hashPassword) {e : Machine.Event StorageCall}
    (hstep : m.step (storageBody hashPassword) e = some m') :
    m'.tables.clientToChat = m.tables.clientToChat ∨
    ∃ i order t userId userName friendId a b chat usersTitle friendsTitle k own,
      e = .act i (.proceed order) ∧ m.txns[i]? = some t ∧
      t.label = .createChat userId userName friendId ∧ t.prog = .commit k ∧ t.own = some own ∧
      PgInt.ofUInt64? userId = some a ∧ PgInt.ofUInt64? friendId = some b ∧
      (tablesOf (m.commits.take (checkedAt t.history))).commonChats a b = [] ∧
      own = chatTables a b chat usersTitle friendsTitle ∧ m'.tables = m.tables + own := by
  cases e with
  | call op =>
    cases hstep
    exact .inl rfl
  | act i choice =>
    obtain ⟨t, eff, ht, heff, -, rfl⟩ := Machine.step_act hstep
    cases hcommitted : eff.committed with
    | none =>
      refine .inl ?_
      simp [Machine.tables]
    | some own =>
      obtain ⟨k, order, hprog, hown, rfl, -⟩ := Prog.committed_of_act heff hcommitted
      have htraced := h.traced t (List.mem_of_getElem? ht)
      have htables : tablesOf (m.commits ++ (some own).toList.map fun rows =>
          (⟨t.label, rows⟩ : Commit postgres StorageCall)) = m.tables + own := tablesOf_concat ..
      rcases t.label.leavesChats_or with hleaves | ⟨userId, userName, friendId, hlabel⟩
      · have hnone : own.NoChat := by
          rw [htraced.own own hown]
          exact inserted_noChat hleaves ((storageBody_uses t.label).reaches htraced.reaches)
            htraced.valid
        refine .inl ?_
        rw [Machine.tables, htables, Tables.add_clientToChat, hnone.2, List.append_nil]
      · obtain ⟨a, b, chat, usersTitle, friendsTitle, ha, hb, hcheck, hins⟩ :=
          createChat_of_traced htraced hlabel hprog
        exact .inr ⟨i, order, t, userId, userName, friendId, a, b, chat, usersTitle, friendsTitle,
          k, own, rfl, ht, hlabel, hprog, hown, ha, hb, hcheck, (htraced.own own hown).trans hins,
          htables⟩

theorem Invariant.chat_of_member (h : m.Invariant hashPassword) {a c : PgInt}
    (ha : m.tables.Member a c) : c ∈ m.tables.chat := by
  obtain ⟨row, hrow, -, rfl⟩ := ha
  obtain ⟨commit, hcommit, hrow⟩ := mem_clientToChat_tablesOf.mp hrow
  obtain ⟨_, _, _, _, _, _, _, -, -, -, hrows⟩ := (h.commits commit hcommit).of_mem hrow
  rw [Machine.tables, chat_tablesOf]
  exact List.mem_flatMap.mpr ⟨commit, hcommit, by rw [hrows]; simp [chatTables]⟩

/-- The number of a new chat is new. -/
theorem Invariant.not_mem_chat (h' : m'.Invariant hashPassword) {t : Tables} {a b chat : PgInt}
    {usersTitle friendsTitle : String}
    (htables : m'.tables = t + chatTables a b chat usersTitle friendsTitle) : chat ∉ t.chat := by
  have hnodup : m'.tables.chat.Nodup := h'.fresh.nodup
  rw [htables, Tables.add_chat] at hnodup
  exact fun hmem => List.disjoint_of_nodup_append hnodup hmem (List.mem_singleton_self chat)

/-- Without a race, a step keeps chats unique. -/
theorem Invariant.atMostOneChat_of_step (h : m.Invariant hashPassword) (hone : m.AtMostOneChat)
    {e : Machine.Event StorageCall} (hstep : m.step (storageBody hashPassword) e = some m')
    (he : m.NoRace e) : m'.AtMostOneChat := by
  rcases h.step_clientToChat hstep with hsame | ⟨i, order, t, userId, userName, friendId, a, b,
    chat, usersTitle, friendsTitle, k, own, rfl, ht, hlabel, hprog, hown, ha, hb, hcheck, rfl,
    htables⟩
  · intro x y c d hne hxc hyc hxd hyd
    simp only [Tables.Member, hsame] at hxc hyc hxd hyd
    exact hone x y c d hne hxc hyc hxd hyd
  have hnew : ∀ x, ¬ m.tables.Member x chat := fun x hx =>
    (h.of_step hstep).not_mem_chat htables (h.chat_of_member hx)
  intro x y c d hne
  rw [htables]
  simp only [Tables.member_add, member_chatTables]
  -- the users of the new chat had none before
  have hfirst : (x = a ∨ x = b) → (y = a ∨ y = b) → ∀ {c}, m.tables.Member x c →
      ¬ m.tables.Member y c := by
    intro hx hy c hxc hyc
    obtain ⟨commit, hcommit, hlabel', hxr, hyr⟩ := h.exists_commit hne hxc hyc
    have hpair : a ≠ b ∧ commit.label.IsChatOf a b ∧ commit.rows.Member a c ∧
        commit.rows.Member b c := by
      rcases hx with rfl | rfl <;> rcases hy with rfl | rfl
      · exact absurd rfl hne
      · exact ⟨hne, hlabel', hxr, hyr⟩
      · exact ⟨hne.symm, hlabel'.symm, hyr, hxr⟩
      · exact absurd rfl hne
    obtain ⟨hab, hlabel', har, hbr⟩ := hpair
    rw [← List.take_append_drop (checkedAt t.history) m.commits] at hcommit
    rcases List.mem_append.mp hcommit with hseen | hrace
    · have hsub : ∀ {z}, commit.rows.Member z c →
          (tablesOf (m.commits.take (checkedAt t.history))).Member z c :=
        Exists.imp fun row => And.imp_left fun hrow =>
          mem_clientToChat_tablesOf.mpr ⟨commit, hseen, hrow⟩
      exact Tables.commonChats_eq_nil_iff.mp hcheck c ⟨hsub har, hsub hbr⟩
    · exact he t userId userName friendId a b k _ ht hlabel hprog hown ha hb hab commit hrace
        hlabel'
  -- a common chat is an old one or the new one
  have hcases : ∀ {c}, (m.tables.Member x c ∨ (c = chat ∧ (x = a ∨ x = b))) →
      (m.tables.Member y c ∨ (c = chat ∧ (y = a ∨ y = b))) →
      (m.tables.Member x c ∧ m.tables.Member y c) ∨
        (c = chat ∧ (x = a ∨ x = b) ∧ (y = a ∨ y = b)) := by
    rintro c (hx | ⟨rfl, hx⟩) (hy | ⟨hc, hy⟩)
    · exact .inl ⟨hx, hy⟩
    · exact absurd (hc ▸ hx) (hnew x)
    · exact absurd hy (hnew y)
    · exact .inr ⟨rfl, hx, hy⟩
  intro hxc hyc hxd hyd
  rcases hcases hxc hyc with ⟨hxc', hyc'⟩ | ⟨rfl, hx, hy⟩
  · rcases hcases hxd hyd with ⟨hxd', hyd'⟩ | ⟨rfl, hx, hy⟩
    · exact hone x y c d hne hxc' hyc' hxd' hyd'
    · exact absurd hyc' (hfirst hx hy hxc')
  · rcases hcases hxd hyd with ⟨hxd', hyd'⟩ | ⟨rfl, -, -⟩
    · exact absurd hyd' (hfirst hx hy hxd')
    · rfl

/-- A committed call for two users has made them members of a chat. -/
theorem CommitShape.members {c : Commit postgres StorageCall} (h : CommitShape c) {a b : PgInt}
    (hlabel : c.label.IsChatOf a b) : ∃ chat, c.rows.Member a chat ∧ c.rows.Member b chat := by
  obtain ⟨label, rows⟩ := c
  cases label with
  | createChat userId userName friendId =>
    obtain ⟨a', b', chat, usersTitle, friendsTitle, ha, hb, hrows⟩ := h
    dsimp only at hrows ha hb ⊢
    rw [hrows]
    simp only [member_chatTables]
    rcases hlabel with ⟨ha', hb'⟩ | ⟨hb', ha'⟩ <;> cases ha.symm.trans ‹_› <;>
      cases hb.symm.trans ‹_›
    · exact ⟨chat, ⟨rfl, .inl rfl⟩, rfl, .inr rfl⟩
    · exact ⟨chat, ⟨rfl, .inr rfl⟩, rfl, .inl rfl⟩
  | _ => exact hlabel.elim

/-- With a race, it does not. -/
theorem Invariant.not_atMostOneChat_of_step (h : m.Invariant hashPassword)
    {e : Machine.Event StorageCall} (hstep : m.step (storageBody hashPassword) e = some m')
    (he : ¬ m.NoRace e) : ¬ m'.AtMostOneChat := by
  match e with
  | .act i (.proceed order) =>
    simp only [NoRace, not_forall, not_not] at he
    obtain ⟨t, userId, userName, friendId, a, b, k, own, ht, hlabel, hprog, hown, ha, hb, hne, c,
      hc, hother⟩ := he
    have htraced := h.traced t (List.mem_of_getElem? ht)
    obtain ⟨a', b', chat, usersTitle, friendsTitle, ha', hb', -, hins⟩ :=
      createChat_of_traced htraced hlabel hprog
    cases ha.symm.trans ha'
    cases hb.symm.trans hb'
    have htables : m'.tables = m.tables + chatTables a b chat usersTitle friendsTitle := by
      obtain ⟨t', eff, ht', heff, -, rfl⟩ := Machine.step_act hstep
      cases ht.symm.trans ht'
      rw [hprog, hown] at heff
      cases heff
      rw [← hins, ← htraced.own own hown]
      exact tablesOf_concat ..
    have hcommit := List.mem_of_mem_drop hc
    obtain ⟨old, hold, hold'⟩ := (h.commits c hcommit).members hother
    have hsub : ∀ {x}, c.rows.Member x old → m.tables.Member x old :=
      fun ⟨row, hrow, hx⟩ => ⟨row, mem_clientToChat_tablesOf.mpr ⟨c, hcommit, hrow⟩, hx⟩
    -- the old chat and the new one are common to the two
    intro hone
    have heq : old = chat := by
      refine hone a b old chat hne ?_ ?_ ?_ ?_ <;>
        rw [htables, Tables.member_add, member_chatTables]
      · exact .inl (hsub hold)
      · exact .inl (hsub hold')
      · exact .inr ⟨rfl, .inl rfl⟩
      · exact .inr ⟨rfl, .inr rfl⟩
    subst heq
    exact (h.of_step hstep).not_mem_chat htables (h.chat_of_member (hsub hold))
  | .act i .fail | .call op => exact absurd trivial he

/-- **Private chats.** -/
theorem always_atMostOneChat_iff (hashPassword : String → List UInt8)
    (es : List (Machine.Event StorageCall)) :
    Always (Machine.step (storageBody hashPassword)) AtMostOneChat (Machine.initial .initial) es ↔
      EachStep (Machine.step (storageBody hashPassword)) NoRace (Machine.initial .initial) es := by
  refine always_iff_eachStep (I := fun m => Invariant hashPassword m ∧ AtMostOneChat m)
    (fun m hm => hm.2)
    (fun m e m' hm hstep he => ⟨hm.1.of_step hstep, hm.1.atMostOneChat_of_step hm.2 hstep he⟩)
    (fun m e m' hm hstep he => hm.1.not_atMostOneChat_of_step hstep he)
    ⟨initial_invariant, ?_⟩
  rintro a b c d - ⟨_, hrow, -⟩
  cases hrow

/-- Two clients register, and each of them invites the other. Both look for a common chat before
either of them has created one. -/
def mutualInvitation : List (Machine.Event StorageCall) :=
  [.call (.registration "" "a" "")] ++ acts 0 3 ++ [.call (.registration "" "b" "")] ++ acts 1 3 ++
    [.call (.createChat 1 "" 2), .call (.createChat 2 "" 1)] ++ acts 2 2 ++ acts 3 2 ++ acts 2 7 ++
    acts 3 7

/-- They end up with two chats. -/
theorem not_always_atMostOneChat_mutualInvitation :
    (run (Machine.step (storageBody fun _ => [])) (Machine.initial .initial)
      mutualInvitation).map (fun m =>
        m.tables.clientToChat.map fun row => (row.clientId, row.chatId)) =
      some [(1, 1), (2, 1), (2, 2), (1, 2)] ∧
    ¬ Always (Machine.step (storageBody fun _ => [])) AtMostOneChat (Machine.initial .initial)
      mutualInvitation := by
  have hrun : (run (Machine.step (storageBody fun _ => [])) (Machine.initial .initial)
      mutualInvitation).map (fun m =>
        m.tables.clientToChat.map fun row => (row.clientId, row.chatId)) =
      some [(1, 1), (2, 1), (2, 2), (1, 2)] := rfl
  refine ⟨hrun, fun h => ?_⟩
  obtain ⟨m, hm, hrows⟩ := Option.map_eq_some_iff.mp hrun
  have hone := always_iff_prefixes.mp h mutualInvitation [] (List.append_nil _).symm m hm
  have hmember : ∀ a c, (a, c) ∈ [((1 : PgInt), (1 : PgInt)), (2, 1), (2, 2), (1, 2)] →
      m.tables.Member a c := by
    intro a c hmem
    rw [← hrows] at hmem
    obtain ⟨row, hrow, heq⟩ := List.mem_map.mp hmem
    rw [Prod.mk.injEq] at heq
    exact ⟨row, hrow, heq⟩
  have heq := hone 1 2 1 2 (by decide) (hmember _ _ (by decide)) (hmember _ _ (by decide))
    (hmember _ _ (by decide)) (hmember _ _ (by decide))
  exact absurd heq (by decide)

end StorageMachine

end Elegram
