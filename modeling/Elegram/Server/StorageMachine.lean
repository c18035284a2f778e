import Elegram.Server.StorageRules
import Elegram.Foundation.Outcomes
import Elegram.Foundation.Integrity

/-!
# The storage connections of all sessions

The storage functions of any number of sessions, interleaved statement by statement
(`StorageMachine`). What each function has executed and committed when it returns is stated once
(`storageBody_settles`), and so is what its statements have inserted by then. The schema
contributes its constraints (`schemaConstraint`) and the numbers of clients and chats
(`clientNumbering`, `chatNumbering`).
-/

namespace Elegram

open ReadCommitted Transition

/-! ### What a block has executed when it commits -/

namespace Txn

variable {α β : Type} {Q : List (Entry postgres) → Prop} {R : α → List (Entry postgres) → Prop}
  {history : List (Entry postgres)}

/-- On every path of the block the history satisfies `Q` at each commit, and `R` when the block
has not thrown. -/
def Along (Q : List (Entry postgres) → Prop) (R : α → List (Entry postgres) → Prop) (x : Txn α)
    (history : List (Entry postgres)) : Prop :=
  Prog.Along Q (fun r history' => ∀ a, r = .ok a → R a history') x.run history

theorem along_pure {a : α} (h : R a history) : (pure a : Txn α).Along Q R history :=
  fun _ heq => by cases heq; exact h

theorem along_throw {e : DbException} : (throw e : Txn α).Along Q R history :=
  fun _ heq => by cases heq

/-- A sequence: the rest begins with the history of the first part. -/
theorem along_bind {x : Txn α} {f : α → Txn β} {R : β → List (Entry postgres) → Prop}
    (h : x.Along Q (fun a history' => (f a).Along Q R history') history) :
    (x >>= f).Along Q R history := by
  refine Prog.Along.bind (p := x.run) (Prog.Along.mono h fun r history' hr => ?_)
  match r with
  | .ok a => exact hr a rfl
  | .error e => exact along_throw

theorem along_work {R : Unit → List (Entry postgres) → Prop} (h : R () history) :
    work.Along Q R history := by
  intro ok
  cases ok with
  | true => exact along_pure h
  | false => exact along_throw

/-- A statement is added to the history, with what it has returned and inserted. -/
theorem along_query {st : Statement} {R : List st.Row → List (Entry postgres) → Prop}
    (h : ∀ seen rows inserted,
      R rows (history ++ [(⟨st, seen, rows, inserted⟩ : Entry postgres)])) :
    (query st).Along Q R history :=
  ⟨along_throw, fun seen rows inserted => along_pure (h seen rows inserted)⟩

theorem along_field {ρ : Type} {rows : List ρ} {column : ρ → α}
    (h : ∀ row, rows.head? = some row → R (column row) history) :
    (field rows column).Along Q R history := by
  rw [field]
  cases hrow : rows.head? with
  | none => exact along_throw
  | some row =>
    intro ok
    cases ok with
    | true => exact along_pure (h row hrow)
    | false => exact along_throw

/-- A commit is where the history has to satisfy `Q`. -/
theorem along_commit {R : Unit → List (Entry postgres) → Prop} (hQ : Q history)
    (h : R () history) : commit.Along Q R history := by
  refine ⟨hQ, fun ok => ?_⟩
  cases ok with
  | true => exact along_pure h
  | false => exact along_throw

theorem along_orReturn {a : α} {x : Txn α} (h : x.Along Q (fun _ _ => True) history) :
    Prog.Along Q (fun _ _ => True) (orReturn a x) history := by
  refine Prog.Along.bind (p := x.run) (Prog.Along.mono h fun r _ _ => ?_)
  match r with
  | .ok _ => exact trivial
  | .error _ => exact trivial

end Txn

/-! ### What a block has committed when it ends -/

namespace Txn

variable {α β : Type} {errors : Prop} {R : α → List (Entry postgres) → Option Tables → Prop}
  {T : DbException → List (Entry postgres) → Option Tables → Prop}
  {history : List (Entry postgres)} {committed : Option Tables}

/-- On every path of the block, its result satisfies `R`, or the exception that it throws satisfies
`T`, with the history and what has been committed. -/
def Settles (errors : Prop) (R : α → List (Entry postgres) → Option Tables → Prop)
    (T : DbException → List (Entry postgres) → Option Tables → Prop) (x : Txn α)
    (history : List (Entry postgres)) (committed : Option Tables) : Prop :=
  Prog.Settles (E := postgres) errors (fun r history' committed' =>
    match r with
    | .ok a => R a history' committed'
    | .error e => T e history' committed') x.run history committed

theorem settles_pure {a : α} (h : R a history committed) :
    (pure a : Txn α).Settles errors R T history committed := h

theorem settles_throw {e : DbException} (h : T e history committed) :
    (throw e : Txn α).Settles errors R T history committed := h

/-- A sequence: the rest begins with the history of the first part and with what that has committed.
-/
theorem settles_bind {x : Txn α} {f : α → Txn β}
    {R : β → List (Entry postgres) → Option Tables → Prop}
    (h : x.Settles errors (fun a history' committed' =>
      (f a).Settles errors R T history' committed') T history committed) :
    (x >>= f).Settles errors R T history committed := by
  refine Prog.Settles.bind (p := x.run) (Prog.Settles.mono h fun r history' committed' hr => ?_)
  match r with
  | .ok a => exact hr
  | .error e => exact hr

/-- A handler begins where the exception was thrown. -/
theorem settles_tryCatch {x : Txn α} {handler : DbException → Txn α}
    (h : x.Settles errors R (fun e history' committed' =>
      (handler e).Settles errors R T history' committed') history committed) :
    (tryCatch x handler).Settles errors R T history committed := by
  refine Prog.Settles.bind (p := x.run) (Prog.Settles.mono h fun r history' committed' hr => ?_)
  match r with
  | .ok a => exact hr
  | .error e => exact hr

theorem settles_work {R : Unit → List (Entry postgres) → Option Tables → Prop}
    (hfail : errors → T .database history committed) (hok : R () history committed) :
    work.Settles errors R T history committed :=
  ⟨hok, hfail⟩

/-- A statement fails of itself, or because the transaction is over. -/
theorem settles_query {st : Statement}
    {R : List st.Row → List (Entry postgres) → Option Tables → Prop}
    (hfail : errors ∨ committed.isSome → T .database history committed)
    (hok : ∀ seen rows inserted,
      R rows (history ++ [(⟨st, seen, rows, inserted⟩ : Entry postgres)]) committed) :
    (query st).Settles errors R T history committed :=
  ⟨hfail, hok⟩

/-- A field may be missing, and reading it may fail. -/
theorem settles_field {ρ : Type} {rows : List ρ} {column : ρ → α}
    (hnone : rows = [] → T .database history committed)
    (hfail : errors → T .database history committed)
    (hok : ∀ row, rows.head? = some row → R (column row) history committed) :
    (field rows column).Settles errors R T history committed := by
  rw [field]
  cases hrow : rows.head? with
  | none => exact settles_throw (hnone (List.head?_eq_none_iff.mp hrow))
  | some row => exact ⟨hok row hrow, hfail⟩

/-- What the history has inserted is committed. -/
theorem settles_commit {R : Unit → List (Entry postgres) → Option Tables → Prop}
    (hfail : errors ∨ committed.isSome → T .database history committed)
    (hok : R () history (some (inserted history))) :
    commit.Settles errors R T history committed :=
  ⟨hok, hfail⟩

/-- What a function makes of the result of its `try` block. -/
theorem settles_run {x : Txn α} {f : Except DbException α → Prog postgres β}
    {R : β → List (Entry postgres) → Option Tables → Prop}
    (h : x.Settles errors (fun a => Prog.Settles errors R (f (.ok a)))
      (fun e => Prog.Settles errors R (f (.error e))) history committed) :
    Prog.Settles errors R (x.run >>= f) history committed := by
  refine Prog.Settles.bind (Prog.Settles.mono h fun r history' committed' hr => ?_)
  match r with
  | .ok a => exact hr
  | .error e => exact hr

theorem settles_orReturn {a : α} {x : Txn α}
    (h : x.Settles errors R (fun _ => R a) history committed) :
    Prog.Settles errors R (orReturn a x) history committed :=
  settles_run h

end Txn

open Txn

/-! ### Functions that return when they have committed -/

namespace Txn

variable {α β : Type} {x : Txn α} {f : α → Txn β}

/-- The block commits nothing. -/
def NoCommit (x : Txn α) : Prop := Prog.NoCommit (E := postgres) x.run

/-- The block ends with its commit, if that succeeds. -/
def ReturnsOnCommit (x : Txn α) : Prop := Prog.ReturnsOnCommit (E := postgres) x.run

theorem noCommit_pure (a : α) : (pure a : Txn α).NoCommit := trivial

theorem NoCommit.bind (hx : x.NoCommit) (hf : ∀ a, (f a).NoCommit) : (x >>= f).NoCommit := by
  refine Prog.NoCommit.bind (p := x.run) hx fun r => ?_
  match r with
  | .ok a => exact hf a
  | .error e => exact trivial

theorem NoCommit.tryCatch {handler : DbException → Txn α} (hx : x.NoCommit)
    (hh : ∀ e, (handler e).NoCommit) : (tryCatch x handler).NoCommit := by
  refine Prog.NoCommit.bind (p := x.run) hx fun r => ?_
  match r with
  | .ok a => exact trivial
  | .error e => exact hh e

theorem noCommit_work : work.NoCommit := fun _ => trivial

theorem noCommit_query (st : Statement) : (query st).NoCommit := fun rows => by
  cases rows <;> exact trivial

theorem noCommit_field {ρ : Type} (rows : List ρ) (column : ρ → α) :
    (field rows column).NoCommit := by
  rw [field]
  cases rows.head? with
  | none => exact trivial
  | some row => exact fun _ => trivial

theorem returnsOnCommit_pure (a : α) : (pure a : Txn α).ReturnsOnCommit := trivial

theorem returnsOnCommit_throw (e : DbException) : (throw e : Txn α).ReturnsOnCommit := trivial

/-- Only the last part commits. -/
theorem NoCommit.returnsOnCommit (hx : x.NoCommit) (hf : ∀ a, (f a).ReturnsOnCommit) :
    (x >>= f).ReturnsOnCommit := by
  refine Prog.NoCommit.bind_returnsOnCommit (p := x.run) hx fun r => ?_
  match r with
  | .ok a => exact hf a
  | .error e => exact trivial

/-- The end of the `try` block of a function that writes. -/
theorem returnsOnCommit_commit (a : α) : (commit >>= fun _ => pure a).ReturnsOnCommit :=
  ⟨⟨_, rfl⟩, trivial⟩

/-- The function then returns as well. -/
theorem ReturnsOnCommit.orReturn {a : α} (hx : x.ReturnsOnCommit) :
    Prog.ReturnsOnCommit (E := postgres) (orReturn a x) := by
  refine Prog.ReturnsOnCommit.bind (p := x.run) hx fun r => ?_
  match r with
  | .ok b => exact ⟨b, rfl⟩
  | .error _ => exact ⟨a, rfl⟩

end Txn

/-! ### The functions -/

section Functions

variable {errors : Prop} (hashPassword : String → List UInt8)

/-- The result of a function that returns whether it has committed, with what it has committed:
its statements, which then satisfy `Q`, are those of the history. -/
def Decided (Q : List (Entry postgres) → Prop) (result : Bool) (history : List (Entry postgres))
    (committed : Option Tables) : Prop :=
  (result = true ∧ Q history ∧ committed = some (inserted history)) ∨
    (result = false ∧ committed = none)

/-- A registration that commits has executed its one statement. -/
def RegistrationHistory (name email password : String) (history : List (Entry postgres)) : Prop :=
  ∃ (seen : ℕ) (rows : List Unit) (ins : Tables),
    history = [⟨.registration name email (hashPassword password), seen, rows, ins⟩]

/-- A registration returns whether it has committed. -/
theorem registration_settles (name email password : String) :
    Prog.Settles (E := postgres) True
      (Decided (RegistrationHistory hashPassword name email password))
      (registration hashPassword name email password) [] none := by
  refine settles_orReturn (settles_bind (settles_work (fun _ => .inr ⟨rfl, rfl⟩) ?_))
  refine settles_bind (settles_query (fun _ => .inr ⟨rfl, rfl⟩) fun seen rows ins => ?_)
  refine settles_bind (settles_commit (fun _ => .inr ⟨rfl, rfl⟩) (settles_pure ?_))
  exact .inl ⟨rfl, ⟨seen, rows, ins, rfl⟩, rfl⟩

/-- The answer that the branches of `login` give for the rows of its query. -/
def loginAnswer (password : String) :
    List (PgInt × String × List UInt8) → Except LoginError (UInt64 × String)
  | [] => .error .invalidArgument
  | [row] =>
    if row.2.2 = hashPassword password then .ok (row.1.toUInt64, row.2.1)
    else .error .invalidArgument
  | row :: _ => .ok (row.1.toUInt64, row.2.1)

/-- What comes of a login. -/
def LoginOutcome (errors : Prop) (email password : String)
    (result : Except LoginError (UInt64 × String)) (history : List (Entry postgres))
    (committed : Option Tables) : Prop :=
  committed = none ∧ ((errors ∧ result = .error .other) ∨
    ∃ (seen : ℕ) (rows : List (PgInt × String × List UInt8)) (ins : Tables),
      history = [⟨.selectByEmail email, seen, rows, ins⟩] ∧
      result = loginAnswer hashPassword password rows)

theorem wrongPassword_settles {rows : List (PgInt × String × List UInt8)} {password : String}
    {R : Bool → List (Entry postgres) → Option Tables → Prop}
    {T : DbException → List (Entry postgres) → Option Tables → Prop}
    {history : List (Entry postgres)} {committed : Option Tables}
    (hfail : errors → T .database history committed)
    (hone : ∀ row, rows = [row] → R (row.2.2 != hashPassword password) history committed)
    (hmany : rows.length ≠ 1 → R false history committed) :
    (wrongPassword hashPassword rows password).Settles errors R T history committed := by
  rw [wrongPassword]
  split_ifs with hlen
  · obtain ⟨row, rfl⟩ := List.length_eq_one_iff.mp hlen
    refine settles_bind (settles_field (fun h => by cases h) hfail fun row' hrow => settles_pure ?_)
    cases hrow
    exact hone row rfl
  · exact settles_pure (hmany hlen)

/-- A login commits nothing, and returns the row of the email if there is one. -/
theorem login_settles (email password : String) :
    Prog.Settles (E := postgres) errors (LoginOutcome hashPassword errors email password)
      (login hashPassword email password) [] none := by
  have herror : ∀ history : List (Entry postgres), errors →
      LoginOutcome hashPassword errors email password (.error .other) history none :=
    fun _ herr => ⟨rfl, .inl ⟨herr, rfl⟩⟩
  refine settles_run (settles_bind (settles_work (herror _) ?_))
  refine settles_bind (settles_query (fun h => herror _ (h.resolve_right Bool.false_ne_true))
    fun seen rows ins => ?_)
  have hanswer : ∀ result, result = loginAnswer hashPassword password rows →
      LoginOutcome hashPassword errors email password result
        [⟨.selectByEmail email, seen, rows, ins⟩] none :=
    fun result h => ⟨rfl, .inr ⟨seen, rows, ins, rfl, h⟩⟩
  split_ifs with hempty
  · have hrows : rows = [] := List.isEmpty_iff.mp hempty
    exact settles_throw (hanswer _ (by rw [hrows]; rfl))
  have hne : rows ≠ [] := fun h => hempty (List.isEmpty_iff.mpr h)
  -- the fields of the first row
  have hfields : (∀ row, rows.head? = some row →
        Except.ok (row.1.toUInt64, row.2.1) = loginAnswer hashPassword password rows) →
      ∀ {R : DbException → List (Entry postgres) → Option Tables → Prop},
      (errors → R .database [⟨.selectByEmail email, seen, rows, ins⟩] none) →
      Txn.Settles errors (fun a => Prog.Settles errors
          (LoginOutcome hashPassword errors email password) (.ret (.ok a))) R
        (do
          let id ← field rows fun row => row.1.toUInt64
          let name ← field rows fun row => row.2.1
          return (id, name))
        [⟨.selectByEmail email, seen, rows, ins⟩] none := by
    intro hok R hR
    refine settles_bind (settles_field (fun h => absurd h hne) hR fun row hrow => ?_)
    refine settles_bind (settles_field (fun h => absurd h hne) hR fun row' hrow' => ?_)
    cases hrow.symm.trans hrow'
    exact settles_pure (hanswer _ (hok row hrow))
  refine settles_bind (wrongPassword_settles hashPassword (herror _) (fun row hrow => ?_)
    fun hmany => ?_)
  · subst hrow
    split_ifs with hwrong
    · refine settles_throw (hanswer _ ?_)
      rw [loginAnswer, if_neg (by simpa using hwrong)]
    · refine hfields (fun row' hrow' => ?_) (herror _)
      cases hrow'
      rw [loginAnswer, if_pos (by simpa using hwrong)]
  · refine hfields (fun row hrow => ?_) (herror _)
    rcases rows with _ | ⟨row', _ | ⟨row'', rest⟩⟩
    · exact absurd rfl hne
    · exact absurd rfl hmany
    · cases hrow
      rfl

/-- The statements of `send_message` up to its commit: the check has found a row. -/
def SendMessageHistory (senderId : UInt64) (mesg : MessageToSend)
    (history : List (Entry postgres)) : Prop :=
  ∃ (seen₁ seen₂ : ℕ) (able none₂ : List Unit) (ins₁ ins₂ : Tables), able ≠ [] ∧ history =
    [⟨.checkSenderAbleToWriteToChat senderId mesg.chatId, seen₁, able, ins₁⟩,
      ⟨.sendMessage senderId mesg.chatId mesg.text, seen₂, none₂, ins₂⟩]

/-- Sending a message returns whether it has committed. -/
theorem sendMessage_settles (senderId : UInt64) (mesg : MessageToSend) :
    Prog.Settles (E := postgres) True (Decided (SendMessageHistory senderId mesg))
      (sendMessage senderId mesg) [] none := by
  refine settles_orReturn (settles_bind (settles_work (fun _ => .inr ⟨rfl, rfl⟩) ?_))
  refine settles_bind (settles_tryCatch (settles_bind (settles_query (fun _ => ?_)
    fun seen₁ able ins₁ => settles_pure ?_)))
  · -- an error of the check counts as "no"
    exact settles_pure (settles_throw (.inr ⟨rfl, rfl⟩))
  · split_ifs with hable
    · exact settles_throw (.inr ⟨rfl, rfl⟩)
    have hne : able ≠ [] := fun h => hable (by rw [h]; rfl)
    refine settles_bind (settles_query (fun _ => .inr ⟨rfl, rfl⟩) fun seen₂ none₂ ins₂ => ?_)
    refine settles_bind (settles_commit (fun _ => .inr ⟨rfl, rfl⟩) (settles_pure ?_))
    exact .inl ⟨rfl, ⟨seen₁, seen₂, able, none₂, ins₁, ins₂, hne, rfl⟩, rfl⟩

/-- The statements of `add_contact` up to its commit. -/
def AddContactHistory (userId : UInt64) (email : String) (history : List (Entry postgres)) : Prop :=
  ∃ (seen₁ seen₂ seen₃ : ℕ) (req : List (PgInt × String)) (none₂ none₃ : List Unit)
    (ins₁ ins₂ ins₃ : Tables) (row : PgInt × String), req.head? = some row ∧ history =
      [⟨.getUserByEmail email, seen₁, req, ins₁⟩,
        ⟨.addContact userId row.1.toUInt64, seen₂, none₂, ins₂⟩,
        ⟨.addContact row.1.toUInt64 userId, seen₃, none₃, ins₃⟩]

/-- So does adding a contact. -/
theorem addContact_settles (userId : UInt64) (email : String) :
    Prog.Settles (E := postgres) True (Decided (AddContactHistory userId email))
      (addContact userId email) [] none := by
  refine settles_orReturn (settles_bind (settles_work (fun _ => .inr ⟨rfl, rfl⟩) ?_))
  refine settles_bind (settles_query (fun _ => .inr ⟨rfl, rfl⟩) fun seen₁ req ins₁ => ?_)
  split_ifs with hempty
  · exact settles_pure (.inr ⟨rfl, rfl⟩)
  refine settles_bind (settles_field (fun _ => .inr ⟨rfl, rfl⟩) (fun _ => .inr ⟨rfl, rfl⟩)
    fun row hrow => ?_)
  refine settles_bind (settles_query (fun _ => .inr ⟨rfl, rfl⟩) fun seen₂ none₂ ins₂ => ?_)
  refine settles_bind (settles_query (fun _ => .inr ⟨rfl, rfl⟩) fun seen₃ none₃ ins₃ => ?_)
  refine settles_bind (settles_commit (fun _ => .inr ⟨rfl, rfl⟩) (settles_pure ?_))
  exact .inl ⟨rfl, ⟨seen₁, seen₂, seen₃, req, none₂, none₃, ins₁, ins₂, ins₃, row, hrow, rfl⟩, rfl⟩

/-- The statements of `create_chat` up to its commit: the check found nothing, and the rows are
connected to the number that the insertion of the chat has returned. -/
def CreateChatHistory (userId friendId : UInt64) (history : List (Entry postgres)) : Prop :=
  ∃ (seen₁ seen₂ seen₃ seen₄ seen₅ : ℕ) (new : List PgInt) (info : List (String × String))
    (none₁ none₂ : List Unit) (ins₁ ins₂ ins₃ ins₄ ins₅ : Tables) (chat : PgInt)
    (usersTitle friendsTitle : String), new.head? = some chat ∧ history =
      [⟨.checkUsersHaveCommonChat userId friendId, seen₁, [], ins₁⟩,
        ⟨.createChat, seen₂, new, ins₂⟩, ⟨.getInfo friendId, seen₃, info, ins₃⟩,
        ⟨.createChatConnection userId chat.toUInt64 usersTitle, seen₄, none₁, ins₄⟩,
        ⟨.createChatConnection friendId chat.toUInt64 friendsTitle, seen₅, none₂, ins₅⟩]

/-- A chat is committed by its five statements only. -/
theorem createChat_along (userId : UInt64) (userName : String) (friendId : UInt64) :
    Prog.Along (CreateChatHistory userId friendId) (fun _ _ => True)
      (createChat userId userName friendId) [] := by
  refine along_orReturn (along_bind (along_work (along_bind (along_query
    fun seen₁ req ins₁ => ?_))))
  split_ifs with hempty
  · exact along_pure trivial
  have hreq : req = [] := by simpa using hempty
  refine along_bind (along_query fun seen₂ new ins₂ =>
    along_bind (along_field fun chat hchat => ?_))
  refine along_bind (along_query fun seen₃ info ins₃ => along_bind (along_field fun _ _ => ?_))
  refine along_bind (along_query fun seen₄ none₁ ins₄ => ?_)
  refine along_bind (along_query fun seen₅ none₂ ins₅ => ?_)
  refine along_bind (along_commit ?_ (along_pure trivial))
  subst hreq
  exact ⟨seen₁, seen₂, seen₃, seen₄, seen₅, new, info, none₁, none₂, ins₁, ins₂, ins₃, ins₄, ins₅,
    chat, _, _, hchat, rfl⟩

/-- Creating a chat returns whether it has committed. -/
theorem createChat_settles (userId : UInt64) (userName : String) (friendId : UInt64) :
    Prog.Settles (E := postgres) True (Decided (CreateChatHistory userId friendId))
      (createChat userId userName friendId) [] none := by
  have hno : ∀ history : List (Entry postgres),
      Decided (CreateChatHistory userId friendId) false history none := fun _ => .inr ⟨rfl, rfl⟩
  refine settles_orReturn (settles_bind (settles_work (fun _ => hno _) ?_))
  refine settles_bind (settles_query (fun _ => hno _) fun seen₁ req ins₁ => ?_)
  split_ifs with hempty
  · exact settles_pure (hno _)
  have hreq : req = [] := by simpa using hempty
  refine settles_bind (settles_query (fun _ => hno _) fun seen₂ new ins₂ => ?_)
  refine settles_bind (settles_field (fun _ => hno _) (fun _ => hno _) fun chat hchat => ?_)
  refine settles_bind (settles_query (fun _ => hno _) fun seen₃ info ins₃ => ?_)
  refine settles_bind (settles_field (fun _ => hno _) (fun _ => hno _) fun _ _ => ?_)
  refine settles_bind (settles_query (fun _ => hno _) fun seen₄ none₁ ins₄ => ?_)
  refine settles_bind (settles_query (fun _ => hno _) fun seen₅ none₂ ins₅ => ?_)
  refine settles_bind (settles_commit (fun _ => hno _) (settles_pure (.inl ⟨rfl, ?_, rfl⟩)))
  subst hreq
  exact ⟨seen₁, seen₂, seen₃, seen₄, seen₅, new, info, none₁, none₂, ins₁, ins₂, ins₃, ins₄, ins₅,
    chat, _, _, hchat, rfl⟩

/-- What comes of a function that reads. -/
def ReadOutcome {M : Type} (errors : Prop) (st : Statement) (empty : M)
    (setters : st.Row → List (M → M)) (result : List M) (history : List (Entry postgres))
    (committed : Option Tables) : Prop :=
  (errors ∧ committed = none) ∨ ∃ (seen : ℕ) (rows : List st.Row) (ins : Tables),
    history = [⟨st, seen, rows, ins⟩] ∧ committed = some (inserted history) ∧
      (errors ∨ result = rows.map fun row => fullMessage empty (setters row))

theorem fillMessage_settles {M : Type} (sets : List (M → M)) (m : M)
    (history : List (Entry postgres)) (committed : Option Tables) :
    Prog.Settles (E := postgres) errors (fun r history' committed' =>
      (history' = history ∧ committed' = committed) ∧ (errors ∨ r = (fullMessage m sets, true)))
      (fillMessage sets m) history committed := by
  induction sets generalizing m with
  | nil => exact ⟨⟨rfl, rfl⟩, .inr rfl⟩
  | cons set sets ih => exact ⟨ih (set m), fun herr => ⟨⟨rfl, rfl⟩, .inl herr⟩⟩

/-- A response is filled without the database, and completely unless a conversion throws. -/
theorem fillResponse_settles {ρ M : Type} {empty : M} {setters : ρ → List (M → M)}
    (rows : List ρ) (filled : List M) (history : List (Entry postgres))
    (committed : Option Tables) :
    Prog.Settles (E := postgres) errors (fun r history' committed' =>
      (history' = history ∧ committed' = committed) ∧
        (errors ∨ r = filled ++ rows.map fun row => fullMessage empty (setters row)))
      (fillResponse empty setters rows filled) history committed := by
  induction rows generalizing filled with
  | nil => exact ⟨⟨rfl, rfl⟩, .inr (List.append_nil _).symm⟩
  | cons row rows ih =>
    refine Prog.Settles.bind (Prog.Settles.mono (fillMessage_settles _ _ _ _) ?_)
    rintro ⟨m, ok⟩ _ _ ⟨⟨rfl, rfl⟩, hm⟩
    cases ok with
    | false =>
      have herr : errors := hm.resolve_right fun h => by cases h
      exact ⟨⟨rfl, rfl⟩, .inl herr⟩
    | true =>
      refine Prog.Settles.mono (ih (filled ++ [m])) fun r history' committed' hr => ⟨hr.1, ?_⟩
      rcases hm with herr | hm
      · exact .inl herr
      · refine hr.2.imp_right fun hr => ?_
        rw [hr, show m = _ from congrArg Prod.fst hm, List.append_assoc]
        rfl

/-- A function that reads commits an empty transaction. -/
theorem readRows_settles {M : Type} (st : Statement) (empty : M)
    (setters : st.Row → List (M → M)) :
    Prog.Settles (E := postgres) errors (ReadOutcome errors st empty setters)
      (readRows st empty setters) [] none := by
  have hno : ∀ history : List (Entry postgres), errors ∨ false = true →
      ReadOutcome errors st empty setters [] history none :=
    fun _ h => .inl ⟨h.resolve_right Bool.false_ne_true, rfl⟩
  refine settles_run (settles_bind (settles_work (fun h => hno _ (.inl h)) ?_))
  refine settles_bind (settles_query (hno _) fun seen rows ins => ?_)
  refine settles_bind (settles_commit (hno _) (settles_pure ?_))
  refine Prog.Settles.mono (fillResponse_settles rows [] _ _) ?_
  rintro r _ _ ⟨⟨rfl, rfl⟩, hr⟩
  exact .inr ⟨seen, rows, ins, rfl, rfl, hr⟩

end Functions

/-! ### The machine -/

variable (hashPassword : String → List UInt8)

/-- What comes of a call, with the statements that it has executed and what it has committed. The
errors of the functions that return whether they have committed are counted always. -/
def StorageCall.Outcome (errors : Prop) :
    (op : StorageCall) → op.Result → List (Entry postgres) → Option Tables → Prop
  | .registration name email password =>
      Decided (RegistrationHistory hashPassword name email password)
  | .login email password => LoginOutcome hashPassword errors email password
  | .sendMessage senderId mesg => Decided (SendMessageHistory senderId mesg)
  | .addContact userId email => Decided (AddContactHistory userId email)
  | .createChat userId _ friendId => Decided (CreateChatHistory userId friendId)
  | .getChats userId =>
      ReadOutcome errors (.getChats userId) { chatId := 0, title := "" } chatSetters
  | .getContacts userId =>
      ReadOutcome errors (.getContacts userId) { userId := 0, name := "", email := "" }
        contactSetters
  | .getMessages chatId =>
      ReadOutcome errors (.getMessages chatId) { senderId := 0, text := "" } messageSetters

/-- The program behind a call, with the call at its side. -/
def storageBody (op : StorageCall) : Prog postgres ((op : StorageCall) × op.Result) :=
  storageProg hashPassword op >>= fun r => .ret ⟨op, r⟩

/-- The storage connections of all sessions and their database. -/
abbrev StorageMachine : Type := Machine postgres StorageCall ((op : StorageCall) × op.Result)

/-! ### The schema -/

/-- The constraints of `gen_schema.sql`: `UNIQUE` and the foreign keys. -/
structure Tables.Integrity (t : Tables) : Prop where
  emails : (t.client.map ClientRow.email).Nodup
  contacts : t.clientToContact.Nodup
  contactClients : ∀ row ∈ t.clientToContact,
    t.isRegistered row.clientId ∧ t.isRegistered row.friendId
  members : ∀ row ∈ t.clientToChat, t.isRegistered row.clientId ∧ t.hasChat row.chatId
  messages : ∀ row ∈ t.message, t.isRegistered row.senderId ∧ t.hasChat row.chatId

/-- There is nothing in an empty database. -/
theorem Tables.Integrity.zero : (0 : Tables).Integrity where
  emails := .nil
  contacts := .nil
  contactClients := fun _ h => by cases h
  members := fun _ h => by cases h
  messages := fun _ h => by cases h

/-- Old references remain valid. -/
theorem Tables.Integrity.add {t r : Tables} (h : t.Integrity)
    (hemails : ((t + r).client.map ClientRow.email).Nodup)
    (hcontacts : (t + r).clientToContact.Nodup)
    (hclients : ∀ row ∈ r.clientToContact,
      (t + r).isRegistered row.clientId ∧ (t + r).isRegistered row.friendId)
    (hmembers : ∀ row ∈ r.clientToChat,
      (t + r).isRegistered row.clientId ∧ (t + r).hasChat row.chatId)
    (hmessages : ∀ row ∈ r.message,
      (t + r).isRegistered row.senderId ∧ (t + r).hasChat row.chatId) : (t + r).Integrity := by
  have hregistered : ∀ id, t.isRegistered id → (t + r).isRegistered id := fun id hid => by
    rw [Tables.isRegistered_add, hid, Bool.true_or]
  have hchat : ∀ id, t.hasChat id → (t + r).hasChat id := fun id hid => by
    rw [Tables.hasChat_add, hid, Bool.true_or]
  refine ⟨hemails, hcontacts, fun row hrow => ?_, fun row hrow => ?_, fun row hrow => ?_⟩
  · rcases List.mem_append.mp hrow with hrow | hrow
    · exact (h.contactClients row hrow).imp (hregistered _) (hregistered _)
    · exact hclients row hrow
  · rcases List.mem_append.mp hrow with hrow | hrow
    · exact (h.members row hrow).imp (hregistered _) (hchat _)
    · exact hmembers row hrow
  · rcases List.mem_append.mp hrow with hrow | hrow
    · exact (h.messages row hrow).imp (hregistered _) (hchat _)
    · exact hmessages row hrow

/-- A statement that succeeds keeps to the constraints, with what its transaction has inserted
before. -/
theorem Statement.exec_integrity {st : Statement} {t inserted : Tables} {seq seq' : Sequences}
    {rows : List st.Row} (h : t.Integrity) (hexec : st.exec t seq = (seq', some (rows, inserted))) :
    (t + inserted).Integrity := by
  have hemails := h.emails
  have hcontacts := h.contacts
  cases exec_inserts hexec with
  | none => rwa [add_zero]
  | @registration name email passwordHash id hid hnew =>
    refine h.add ?_ (by simpa using hcontacts) (by simp) (by simp) (by simp)
    simpa [List.nodup_append, hemails] using hnew
  | sendMessage hsender hchat =>
    exact h.add (by simpa using hemails) (by simpa using hcontacts) (by simp) (by simp)
      (by simp [hsender, hchat])
  | @addContact _ _ client friend hclient hfriend hnew =>
    refine h.add (by simpa using hemails) ?_ (by simp [hclient, hfriend]) (by simp) (by simp)
    have hne : ∀ row ∈ t.clientToContact, row ≠ ⟨client, friend⟩ := fun row hrow heq =>
      hnew (heq ▸ hrow)
    simpa [List.nodup_append, hcontacts] using hne
  | createChat hid =>
    exact h.add (by simpa using hemails) (by simpa using hcontacts) (by simp) (by simp) (by simp)
  | createChatConnection hclient hchat =>
    exact h.add (by simpa using hemails) (by simpa using hcontacts) (by simp)
      (by simp [hclient, hchat]) (by simp)

/-- Two transactions may both be committed if they share no email and no contact. -/
theorem Statement.blocks_eq_false {a b : Tables} : blocks a b = false ↔
    (∀ row ∈ a.client, ∀ row' ∈ b.client, row.email ≠ row'.email) ∧
      ∀ row ∈ a.clientToContact, row ∉ b.clientToContact := by
  simp only [blocks, Bool.or_eq_false_iff, List.any_eq_false, List.any_eq_true, decide_eq_true_eq,
    not_exists, not_and]
  refine and_congr Iff.rfl (forall₂_congr fun row _ => ?_)
  exact ⟨fun h hmem => h row hmem rfl, fun h row' hmem heq => h (heq ▸ hmem)⟩

/-- The rows of transactions that do not block each other fit together. -/
theorem Tables.Integrity.merge {t a b : Tables} (ha : (t + a).Integrity) (hb : (t + b).Integrity)
    (h : Statement.blocks a b = false) : (t + a + b).Integrity := by
  obtain ⟨hemail, hcontact⟩ := Statement.blocks_eq_false.mp h
  have hregistered : ∀ id, (t + b).isRegistered id → (t + a + b).isRegistered id := fun id hid => by
    simp only [Tables.isRegistered_add, Bool.or_eq_true] at hid ⊢
    tauto
  have hchat : ∀ id, (t + b).hasChat id → (t + a + b).hasChat id := fun id hid => by
    simp only [Tables.hasChat_add, Bool.or_eq_true] at hid ⊢
    tauto
  refine ha.add ?_ ?_ (fun row hrow => ?_) (fun row hrow => ?_) fun row hrow => ?_
  · have hemailb := hb.emails
    simp only [Tables.add_client, List.map_append, List.nodup_append, List.mem_map,
      forall_exists_index, and_imp, forall_apply_eq_imp_iff₂] at hemailb
    rw [Tables.add_client, List.map_append]
    refine List.nodup_append.mpr ⟨ha.emails, hemailb.2.1, fun x hx y hy heq => ?_⟩
    obtain ⟨row, hrow, rfl⟩ := List.mem_map.mp hx
    obtain ⟨row', hrow', rfl⟩ := List.mem_map.mp hy
    rcases List.mem_append.mp hrow with hrow | hrow
    · exact hemailb.2.2 row hrow row' hrow' heq
    · exact hemail row hrow row' hrow' heq
  · have hcontactb := hb.contacts
    simp only [Tables.add_clientToContact, List.nodup_append] at hcontactb
    rw [Tables.add_clientToContact]
    refine List.nodup_append.mpr ⟨ha.contacts, hcontactb.2.1, fun x hx y hy heq => ?_⟩
    rcases List.mem_append.mp hx with hx | hx
    · exact hcontactb.2.2 x hx y hy heq
    · exact hcontact x hx (heq ▸ hy)
  · exact (hb.contactClients row (List.mem_append_right _ hrow)).imp (hregistered _) (hregistered _)
  · exact (hb.members row (List.mem_append_right _ hrow)).imp (hregistered _) (hchat _)
  · exact (hb.messages row (List.mem_append_right _ hrow)).imp (hregistered _) (hchat _)

/-- The constraints of the schema, as PostgreSQL enforces them. -/
def schemaConstraint : Constraint postgres where
  holds := Tables.Integrity
  zero := .zero
  exec := Statement.exec_integrity
  merge := Tables.Integrity.merge
  blocks_zero := fun _ => rfl
  blocks_comm := fun a b => by
    rw [Bool.eq_iff_iff, ← not_iff_not, Bool.not_eq_true, Bool.not_eq_true]
    exact Statement.blocks_eq_false.trans <| (and_congr
      ⟨fun h row hrow row' hrow' => (h row' hrow' row hrow).symm,
        fun h row hrow row' hrow' => (h row' hrow' row hrow).symm⟩
      ⟨fun h row hrow hmem => h row hmem hrow, fun h row hrow hmem => h row hmem hrow⟩).trans
        Statement.blocks_eq_false.symm

/-- The primary keys of `Client`. -/
def clientNumbering : Numbering postgres PgInt where
  val := Fin.val
  numbers := fun t => t.client.map ClientRow.id
  next := Sequences.client
  zero := rfl
  add := fun s t => List.map_append
  le := fun st t seq => (st.exec_le t seq).1
  exec := fun h => by
    cases Statement.exec_inserts h with
    | registration hid hnew => exact .inr ⟨_, rfl, hid, rfl⟩
    | _ => exact .inl rfl

/-- The primary keys of `Chat`. -/
def chatNumbering : Numbering postgres PgInt where
  val := Fin.val
  numbers := Tables.chat
  next := Sequences.chat
  zero := rfl
  add := fun s t => rfl
  le := fun st t seq => (st.exec_le t seq).2
  exec := fun h => by
    cases Statement.exec_inserts h with
    | createChat hid => exact .inr ⟨_, rfl, hid, rfl⟩
    | _ => exact .inl rfl

/-! ### What a call has written -/

/-- The rows that a chat of two users consists of. -/
def chatTables (a b chat : PgInt) (usersTitle friendsTitle : String) : Tables :=
  { (0 : Tables) with
    chat := [chat]
    clientToChat := [⟨a, chat, usersTitle⟩, ⟨b, chat, friendsTitle⟩] }

/-- Only the two are members of the chat. -/
theorem member_chatTables {a b chat x c : PgInt} {usersTitle friendsTitle : String} :
    (chatTables a b chat usersTitle friendsTitle).Member x c ↔ c = chat ∧ (x = a ∨ x = b) := by
  constructor
  · rintro ⟨row, hrow, rfl, rfl⟩
    simp only [chatTables, List.mem_cons, List.not_mem_nil, or_false] at hrow
    rcases hrow with rfl | rfl
    · exact ⟨rfl, .inl rfl⟩
    · exact ⟨rfl, .inr rfl⟩
  · rintro ⟨rfl, rfl | rfl⟩
    · exact ⟨_, List.mem_cons_self .., rfl, rfl⟩
    · exact ⟨_, List.mem_cons_of_mem _ (List.mem_cons_self ..), rfl, rfl⟩

/-- How many transactions had been committed when the first statement was executed. -/
def checkedAt (history : List (Entry postgres)) : ℕ := (history.head?.map Entry.seen).getD 0

section Histories

variable {L : Type} {commits : List (Commit postgres L)} {history : List (Entry postgres)}

/-- What was there at a check is still there. -/
theorem tablesOf_take_add (commits : List (Commit postgres L)) (n : ℕ) :
    tablesOf (commits.take n) + tablesOf (commits.drop n) = tablesOf commits := by
  rw [← tablesOf_append, List.take_append_drop]

/-- The rows of a registration. -/
theorem RegistrationHistory.inserted {name email password : String}
    (h : RegistrationHistory hashPassword name email password history)
    (hvalid : ValidHistory commits 0 history) :
    ∃ id, ReadCommitted.inserted history =
      { (0 : Tables) with client := [⟨id, name, email, hashPassword password⟩] } := by
  obtain ⟨seen, rows, ins, rfl⟩ := h
  obtain ⟨⟨-, seq, rows', -, hexec⟩, -⟩ := hvalid
  obtain ⟨id, -, -, hins⟩ := Statement.exec_registration_some hexec
  refine ⟨id, ?_⟩
  dsimp only at hins
  simp [ReadCommitted.inserted, hins]

/-- What such a history has inserted, and the row that its check has seen. -/
theorem SendMessageHistory.inserted {senderId : UInt64} {mesg : MessageToSend}
    (h : SendMessageHistory senderId mesg history) (hvalid : ValidHistory commits 0 history) :
    ∃ sender chat, PgInt.ofUInt64? senderId = some sender ∧
      PgInt.ofUInt64? mesg.chatId = some chat ∧
      (tablesOf (commits.take (checkedAt history))).Member sender chat ∧
      ReadCommitted.inserted history =
        { (0 : Tables) with message := [⟨sender, chat, mesg.text⟩] } := by
  obtain ⟨seen₁, seen₂, able, none₂, ins₁, ins₂, hable, rfl⟩ := h
  obtain ⟨⟨-, seq₁, rows₁, hperm₁, hexec₁⟩, ⟨-, seq₂, rows₂, -, hexec₂⟩, -⟩ := hvalid
  obtain ⟨sender, chat, hsender, hchat, hmember, hins₁⟩ :=
    Statement.exec_checkSenderAbleToWriteToChat_some hexec₁
  obtain ⟨sender', chat', hsender', hchat', -, -, hins₂⟩ := Statement.exec_sendMessage_some hexec₂
  cases hsender.symm.trans hsender'
  cases hchat.symm.trans hchat'
  refine ⟨sender, chat, hsender, hchat, ?_, ?_⟩
  · have hrows : rows₁ ≠ [] := fun hnil => hable (List.perm_nil.mp (hnil ▸ hperm₁))
    have hseen := hmember.mp hrows
    rwa [add_zero] at hseen
  · dsimp only at hins₁ hins₂
    simp [ReadCommitted.inserted, hins₁, hins₂]

/-- What such a history has inserted. The two users are different: the second row for a contact
with oneself violates the `UNIQUE` constraint. -/
theorem AddContactHistory.inserted {userId : UInt64} {email : String}
    (h : AddContactHistory userId email history) (hvalid : ValidHistory commits 0 history) :
    ∃ user row, PgInt.ofUInt64? userId = some user ∧
      row ∈ (tablesOf (commits.take (checkedAt history))).client ∧ row.email = email ∧
      user ≠ row.id ∧ ReadCommitted.inserted history =
        { (0 : Tables) with clientToContact := [⟨user, row.id⟩, ⟨row.id, user⟩] } := by
  obtain ⟨seen₁, seen₂, seen₃, req, none₂, none₃, ins₁, ins₂, ins₃, found, hfound, rfl⟩ := h
  obtain ⟨⟨-, seq₁, rows₁, hperm₁, hexec₁⟩, ⟨-, seq₂, rows₂, -, hexec₂⟩,
    ⟨-, seq₃, rows₃, -, hexec₃⟩, -⟩ := hvalid
  obtain ⟨hrows₁, hins₁⟩ := Statement.exec_getUserByEmail_some hexec₁
  obtain ⟨user, friend, huser, hfriend, -, -, -, hins₂⟩ := Statement.exec_addContact_some hexec₂
  obtain ⟨friend', user', hfriend', huser', -, -, hnew, hins₃⟩ :=
    Statement.exec_addContact_some hexec₃
  dsimp only at hins₁ hins₂ hins₃ hnew hrows₁ hperm₁
  rw [PgInt.ofUInt64?_toUInt64, Option.some_inj] at hfriend hfriend'
  subst hfriend hfriend'
  cases huser.symm.trans huser'
  have hmem : found ∈ rows₁ := hperm₁.mem_iff.mp (List.mem_of_head? hfound)
  rw [hrows₁, add_zero] at hmem
  obtain ⟨row, hrow, rfl⟩ := List.mem_map.mp hmem
  obtain ⟨hrow, hemail⟩ := List.mem_filter.mp hrow
  refine ⟨user, row, huser, hrow, of_decide_eq_true hemail, ?_, ?_⟩
  · rintro rfl
    refine hnew ?_
    simp [hins₂]
  · ext1 <;> simp [ReadCommitted.inserted, hins₁, hins₂, hins₃]

/-- What such a history has inserted, and what its check has seen. -/
theorem CreateChatHistory.inserted {userId friendId : UInt64}
    (h : CreateChatHistory userId friendId history) (hvalid : ValidHistory commits 0 history) :
    ∃ a b chat usersTitle friendsTitle, PgInt.ofUInt64? userId = some a ∧
      PgInt.ofUInt64? friendId = some b ∧
      (tablesOf (commits.take (checkedAt history))).commonChats a b = [] ∧
      ReadCommitted.inserted history = chatTables a b chat usersTitle friendsTitle := by
  obtain ⟨seen₁, seen₂, seen₃, seen₄, seen₅, new, info, none₁, none₂, ins₁, ins₂, ins₃, ins₄, ins₅,
    chat, usersTitle, friendsTitle, hnew, rfl⟩ := h
  obtain ⟨⟨-, seq₁, rows₁, hperm₁, hexec₁⟩, ⟨-, seq₂, rows₂, hperm₂, hexec₂⟩,
    ⟨-, seq₃, rows₃, hperm₃, hexec₃⟩, ⟨-, seq₄, rows₄, -, hexec₄⟩,
    ⟨-, seq₅, rows₅, -, hexec₅⟩, -⟩ := hvalid
  obtain ⟨a, b, ha, hb, rfl, rfl⟩ := Statement.exec_checkUsersHaveCommonChat_some hexec₁
  obtain ⟨id, -, rfl, rfl⟩ := Statement.exec_createChat_some (t := 0) hexec₂
  cases Statement.exec_getInfo_some hexec₃
  obtain ⟨a', c, ha', hc, rfl⟩ := Statement.exec_createChatConnection_some hexec₄
  obtain ⟨b', d, hb', hd, rfl⟩ := Statement.exec_createChatConnection_some hexec₅
  -- the connections are those of the two users to the chat that was inserted
  cases ha.symm.trans ha'
  cases hb.symm.trans hb'
  rw [PgInt.ofUInt64?_toUInt64, Option.some_inj] at hc hd
  subst hc hd
  have hrows : new = [id] := List.perm_singleton.mp hperm₂
  rw [hrows, List.head?_cons, Option.some_inj] at hnew
  subst hnew
  refine ⟨a, b, id, usersTitle, friendsTitle, ha, hb, ?_, ?_⟩
  · rw [add_zero] at hperm₁
    exact hperm₁.nil_eq.symm
  · ext1 <;> simp [ReadCommitted.inserted, chatTables]

/-- A statement that only reads. -/
def Statement.OnlyReads (st : Statement) : Prop :=
  ∀ {t inserted : Tables} {seq : Sequences} {rows : List st.Row},
    (st.exec t seq).2 = some (rows, inserted) → inserted = 0

theorem ReadOutcome.inserted {M : Type} {st : Statement} {empty : M}
    {setters : st.Row → List (M → M)} {errors : Prop} {result : List M} {rows : Tables}
    (hst : st.OnlyReads) (h : ReadOutcome errors st empty setters result history (some rows))
    (hvalid : ValidHistory commits 0 history) : rows = 0 := by
  rcases h with ⟨-, h⟩ | ⟨seen, rows', ins, rfl, hrows, -⟩
  · cases h
  · obtain ⟨⟨-, seq, stored, -, hexec⟩, -⟩ := hvalid
    have hins : ins = 0 := hst hexec
    rw [Option.some_inj] at hrows
    simp [hrows, ReadCommitted.inserted, hins]

end Histories

/-- What a call has written when it is committed; `t` are the contents of the database. -/
def StorageCall.Writes (t : Tables) : StorageCall → Tables → Prop
  | .registration name email password, rows => ∃ id, rows =
      { (0 : Tables) with client := [⟨id, name, email, hashPassword password⟩] }
  | .sendMessage senderId mesg, rows => ∃ sender chat, PgInt.ofUInt64? senderId = some sender ∧
      PgInt.ofUInt64? mesg.chatId = some chat ∧ t.Member sender chat ∧
      rows = { (0 : Tables) with message := [⟨sender, chat, mesg.text⟩] }
  | .addContact userId email, rows => ∃ user row, PgInt.ofUInt64? userId = some user ∧
      row ∈ t.client ∧ row.email = email ∧ user ≠ row.id ∧
      rows = { (0 : Tables) with clientToContact := [⟨user, row.id⟩, ⟨row.id, user⟩] }
  | .createChat userId _ friendId, rows => ∃ a b chat usersTitle friendsTitle,
      PgInt.ofUInt64? userId = some a ∧ PgInt.ofUInt64? friendId = some b ∧
      rows = chatTables a b chat usersTitle friendsTitle
  | .login .., rows | .getChats .., rows | .getContacts .., rows | .getMessages .., rows => rows = 0

/-- Accounts, messages and contacts come from one function each. -/
theorem StorageCall.Writes.kind {t rows : Tables} {op : StorageCall}
    (h : op.Writes hashPassword t rows) :
    (rows.client = [] ∨ ∃ name email password, op = .registration name email password) ∧
    (rows.message = [] ∨ ∃ senderId mesg, op = .sendMessage senderId mesg) ∧
    (rows.clientToContact = [] ∨ ∃ userId email, op = .addContact userId email) := by
  cases op with
  | registration name email password =>
    obtain ⟨_, rfl⟩ := h
    exact ⟨.inr ⟨name, email, password, rfl⟩, .inl rfl, .inl rfl⟩
  | sendMessage senderId mesg =>
    obtain ⟨_, _, -, -, -, rfl⟩ := h
    exact ⟨.inl rfl, .inr ⟨senderId, mesg, rfl⟩, .inl rfl⟩
  | addContact userId email =>
    obtain ⟨_, _, -, -, -, -, rfl⟩ := h
    exact ⟨.inl rfl, .inl rfl, .inr ⟨userId, email, rfl⟩⟩
  | createChat =>
    obtain ⟨_, _, _, _, _, -, -, rfl⟩ := h
    exact ⟨.inl rfl, .inl rfl, .inl rfl⟩
  | login | getChats | getContacts | getMessages =>
    rw [show rows = 0 from h]
    exact ⟨.inl rfl, .inl rfl, .inl rfl⟩

/-- The rows that a call has committed are those that it is to write. -/
theorem StorageCall.Outcome.writes {L : Type} {commits : List (Commit postgres L)}
    {op : StorageCall} {errors : Prop} {result : op.Result} {history : List (Entry postgres)}
    {rows : Tables} (h : op.Outcome hashPassword errors result history (some rows))
    (hvalid : ValidHistory commits 0 history) :
    op.Writes hashPassword (tablesOf commits) rows := by
  have hdecided : ∀ {Q : List (Entry postgres) → Prop} {b : Bool},
      Decided Q b history (some rows) → Q history ∧ rows = inserted history := by
    rintro Q b (⟨-, hQ, hrows⟩ | ⟨-, hrows⟩)
    · exact ⟨hQ, Option.some_inj.mp hrows⟩
    · cases hrows
  have hadd := tablesOf_take_add commits (checkedAt history)
  cases op with
  | registration name email password =>
    obtain ⟨hQ, hrows⟩ := hdecided h
    obtain ⟨id, hins⟩ := hQ.inserted hashPassword hvalid
    exact ⟨id, hrows.trans hins⟩
  | login email password => cases h.1
  | sendMessage senderId mesg =>
    obtain ⟨hQ, hrows⟩ := hdecided h
    obtain ⟨sender, chat, hsender, hchat, hmember, hins⟩ := hQ.inserted hvalid
    refine ⟨sender, chat, hsender, hchat, ?_, hrows.trans hins⟩
    rw [← hadd]
    exact Tables.member_add.mpr (.inl hmember)
  | addContact userId email =>
    obtain ⟨hQ, hrows⟩ := hdecided h
    obtain ⟨user, row, huser, hrow, hemail, hne, hins⟩ := hQ.inserted hvalid
    refine ⟨user, row, huser, ?_, hemail, hne, hrows.trans hins⟩
    rw [← hadd]
    exact List.mem_append_left _ hrow
  | createChat userId userName friendId =>
    obtain ⟨hQ, hrows⟩ := hdecided h
    obtain ⟨a, b, chat, usersTitle, friendsTitle, ha, hb, -, hins⟩ := hQ.inserted hvalid
    exact ⟨a, b, chat, usersTitle, friendsTitle, ha, hb, hrows.trans hins⟩
  | getChats userId | getContacts userId | getMessages chatId =>
    refine ReadOutcome.inserted (fun hexec => ?_) h hvalid
    simp only [Statement.exec, Statement.select, Option.map_eq_some_iff, Prod.mk.injEq] at hexec
    obtain ⟨_, -, -, rfl⟩ := hexec
    rfl

/-! ### Runs of the machine -/

variable {hashPassword}

/-- Every function, case by case. -/
theorem storageProg_settles (errors : Prop) (op : StorageCall) :
    Prog.Settles (E := postgres) errors (op.Outcome hashPassword errors)
      (storageProg hashPassword op) [] none := by
  cases op with
  | registration name email password =>
    exact (registration_settles hashPassword name email password).anti fun _ => trivial
  | login email password => exact login_settles hashPassword email password
  | sendMessage senderId mesg => exact (sendMessage_settles senderId mesg).anti fun _ => trivial
  | addContact userId email => exact (addContact_settles userId email).anti fun _ => trivial
  | createChat userId userName friendId =>
    exact (createChat_settles userId userName friendId).anti fun _ => trivial
  | getChats userId => exact readRows_settles (.getChats userId) _ _
  | getContacts userId => exact readRows_settles (.getContacts userId) _ _
  | getMessages chatId => exact readRows_settles (.getMessages chatId) _ _

theorem storageBody_settles (errors : Prop) (op : StorageCall) :
    Prog.Settles (E := postgres) errors (fun r history committed =>
        ∃ result, r = ⟨op, result⟩ ∧ op.Outcome hashPassword errors result history committed)
      (storageBody hashPassword op) [] none :=
  Prog.Settles.bind (Prog.Settles.mono (storageProg_settles errors op)
    fun result _ _ h => ⟨result, rfl, h⟩)

theorem storageBody_uses (op : StorageCall) :
    Prog.Uses (E := postgres) op.Executes (storageBody hashPassword op) :=
  (storageProg_uses op).bind fun _ => trivial

/-- A call that returns whether it has committed. -/
def StorageCall.Decides : StorageCall → Prop
  | .registration .. | .sendMessage .. | .addContact .. | .createChat .. => True
  | .login .. | .getChats .. | .getContacts .. | .getMessages .. => False

variable (hashPassword) in
/-- A function that decides returns with its commit. -/
theorem storageBody_returnsOnCommit {op : StorageCall} (h : op.Decides) :
    Prog.ReturnsOnCommit (E := postgres) (storageBody hashPassword op) := by
  refine Prog.ReturnsOnCommit.bind ?_ fun result => ⟨_, rfl⟩
  cases op with
  | registration name email password =>
    exact (noCommit_work.returnsOnCommit fun _ => (noCommit_query _).returnsOnCommit fun _ =>
      returnsOnCommit_commit _).orReturn
  | sendMessage senderId mesg =>
    refine ReturnsOnCommit.orReturn (noCommit_work.returnsOnCommit fun _ =>
      NoCommit.returnsOnCommit ?_ fun able => ?_)
    · exact ((noCommit_query _).bind fun _ => noCommit_pure _).tryCatch fun _ => noCommit_pure _
    · split_ifs
      · exact returnsOnCommit_throw _
      · exact (noCommit_query _).returnsOnCommit fun _ => returnsOnCommit_commit _
  | addContact userId email =>
    refine ReturnsOnCommit.orReturn (noCommit_work.returnsOnCommit fun _ =>
      (noCommit_query _).returnsOnCommit fun req => ?_)
    split_ifs
    · exact returnsOnCommit_pure _
    · exact (noCommit_field _ _).returnsOnCommit fun _ => (noCommit_query _).returnsOnCommit
        fun _ => (noCommit_query _).returnsOnCommit fun _ => returnsOnCommit_commit _
  | createChat userId userName friendId =>
    refine ReturnsOnCommit.orReturn (noCommit_work.returnsOnCommit fun _ =>
      (noCommit_query _).returnsOnCommit fun req => ?_)
    split_ifs
    · exact returnsOnCommit_pure _
    · exact (noCommit_query _).returnsOnCommit fun _ => (noCommit_field _ _).returnsOnCommit
        fun _ => (noCommit_query _).returnsOnCommit fun _ => (noCommit_field _ _).returnsOnCommit
        fun _ => (noCommit_query _).returnsOnCommit fun _ => (noCommit_query _).returnsOnCommit
        fun _ => returnsOnCommit_commit _
  | login | getChats | getContacts | getMessages => exact h.elim

namespace StorageMachine

variable {m : StorageMachine} {es : List (Machine.Event StorageCall)} {i : ℕ}
  {t : Transaction postgres StorageCall ((op : StorageCall) × op.Result)}

/-- What the `i`-th call has committed in a run from the empty schema. -/
def committedBy (hashPassword : String → List UInt8) (es : List (Machine.Event StorageCall))
    (i : ℕ) : List (Commit postgres StorageCall) :=
  Machine.committedBy (storageBody hashPassword) i (Machine.initial .initial) es

/-- **Calls that have returned.** -/
theorem outcome_of_run (hrun : run (Machine.step (storageBody hashPassword))
      (Machine.initial .initial) es = some m) (ht : m.txns[i]? = some t)
    {op : StorageCall} {result : op.Result} (hprog : t.prog = .ret ⟨op, result⟩) :
    t.label = op ∧ ∃ committed,
      op.Outcome hashPassword True result t.history committed ∧
      committedBy hashPassword es i = (committed.map fun rows => ⟨op, rows⟩).toList := by
  obtain ⟨committed, hsettles, hcommitted⟩ := Machine.settles_of_run True
    (storageBody_settles True t.label) (.inl trivial) (.inl trivial) hrun ht
  rw [hprog] at hsettles
  obtain ⟨result', heq, houtcome⟩ := hsettles
  rw [Sigma.mk.injEq] at heq
  obtain ⟨rfl, heq⟩ := heq
  cases heq
  exact ⟨rfl, committed, houtcome, hcommitted⟩

/-- What a call has committed, returned or not. -/
theorem writes_of_run (hrun : run (Machine.step (storageBody hashPassword))
      (Machine.initial .initial) es = some m) (ht : m.txns[i]? = some t)
    {c : Commit postgres StorageCall} (hc : c ∈ committedBy hashPassword es i) :
    c.label = t.label ∧ t.label.Writes hashPassword m.tables c.rows := by
  obtain ⟨committed, hsettles, hcommitted⟩ := Machine.settles_of_run True
    (storageBody_settles True t.label) (.inl trivial) (.inl trivial) hrun ht
  obtain ⟨_, result, -, houtcome⟩ := hsettles.exists_result
  rw [committedBy, hcommitted] at hc
  obtain ⟨rows, rfl, rfl⟩ := Option.map_eq_some_iff.mp (Option.mem_toList.mp hc)
  have htraced := Machine.reachable_traced ⟨es, hrun⟩ t (List.mem_of_getElem? ht)
  exact ⟨rfl, houtcome.writes hashPassword htraced.valid⟩

/-- A call that has committed has returned, if it returns whether it has committed. -/
theorem returned_of_committedBy (hrun : run (Machine.step (storageBody hashPassword))
      (Machine.initial .initial) es = some m) (ht : m.txns[i]? = some t) {op : StorageCall}
    (hlabel : t.label = op) (hop : op.Decides) {c : Commit postgres StorageCall}
    (hc : c ∈ committedBy hashPassword es i) :
    ∃ result, t.prog = .ret ⟨op, result⟩ ∧
      op.Outcome hashPassword True result t.history (some c.rows) := by
  obtain ⟨⟨op', result⟩, hret⟩ := Machine.returned_of_run
    (storageBody_returnsOnCommit hashPassword (hlabel.symm ▸ hop)) hrun ht
    (List.ne_nil_of_mem hc)
  obtain ⟨hlabel', committed, houtcome, hcommitted⟩ := outcome_of_run hrun ht hret
  cases hlabel'.symm.trans hlabel
  rw [hcommitted] at hc
  obtain ⟨rows, rfl, rfl⟩ := Option.map_eq_some_iff.mp (Option.mem_toList.mp hc)
  exact ⟨result, hret, houtcome⟩

/-- The commits of a run are those of its calls. -/
theorem commits_perm (hrun : run (Machine.step (storageBody hashPassword))
      (Machine.initial .initial) es = some m) :
    m.commits.Perm ((List.range m.txns.length).flatMap (committedBy hashPassword es)) :=
  Machine.commits_perm hrun (Nat.le_refl _)

/-- Every commit belongs to a call. -/
theorem exists_of_mem_commits (hrun : run (Machine.step (storageBody hashPassword))
      (Machine.initial .initial) es = some m) {c : Commit postgres StorageCall}
    (hc : c ∈ m.commits) : ∃ i t, m.txns[i]? = some t ∧ c ∈ committedBy hashPassword es i := by
  have hmem := (commits_perm hrun).mem_iff.mp hc
  obtain ⟨i, hi, hc⟩ := List.mem_flatMap.mp hmem
  exact ⟨i, m.txns.get ⟨i, List.mem_range.mp hi⟩, List.getElem?_eq_getElem _, hc⟩

/-- **Commits.** -/
theorem commit_writes (h : Reachable (Machine.step (storageBody hashPassword))
      (Machine.initial .initial) m) {c : Commit postgres StorageCall} (hc : c ∈ m.commits) :
    c.label.Writes hashPassword m.tables c.rows := by
  obtain ⟨es, hrun⟩ := h
  obtain ⟨i, t, ht, hc⟩ := exists_of_mem_commits hrun hc
  obtain ⟨hlabel, hwrites⟩ := writes_of_run hrun ht hc
  rwa [hlabel]

/-- **The schema holds.** -/
theorem reachable_integrity (h : Reachable (Machine.step (storageBody hashPassword))
      (Machine.initial .initial) m) : m.tables.Integrity :=
  (schemaConstraint.respected_of_reachable h).committed

/-- All actions of the `i`-th program, `n` of them, succeed. -/
def acts (i n : ℕ) : List (Machine.Event StorageCall) :=
  List.replicate n (.act i (.proceed .stored))

end StorageMachine

end Elegram
