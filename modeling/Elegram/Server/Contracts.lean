import Elegram.Foundation.Linearizability
import Elegram.Server.ChatCreation

/-!
# What the storage functions do while others commit

Every storage function takes effect at one moment: when it commits what it has inserted, or with
the last statement that it executes. `storageBody_meets` says that at this moment it does what a
call does that is made alone (`StorageCall.Does`), with the same result. What others have
committed between its statements makes no difference, since rows only ever come, emails and keys
are unique, and references remain valid; `create_chat` is the exception, and has to find that the
two still have no chat.
-/

namespace Elegram

open ReadCommitted Transition

/-! ### Rules for blocks -/

namespace Txn

variable {α β ρ : Type} {C : Contract postgres ρ} {R : α → Stage postgres ρ → Prop}
  {T : DbException → Stage postgres ρ → Prop} {s : Stage postgres ρ}

/-- The block meets the contract from the given stage on: its result satisfies `R`, or the
exception that it throws satisfies `T`, with the stage at the end. -/
def Meets (C : Contract postgres ρ) (R : α → Stage postgres ρ → Prop)
    (T : DbException → Stage postgres ρ → Prop) (x : Txn α) (s : Stage postgres ρ) : Prop :=
  Prog.Meets C (fun r s' =>
    match r with
    | .ok a => R a s'
    | .error e => T e s') x.run s

theorem meets_pure {a : α} (h : R a s) : (pure a : Txn α).Meets C R T s := h

theorem meets_throw {e : DbException} (h : T e s) : (throw e : Txn α).Meets C R T s := h

/-- A sequence meets the contract if the rest does from where the first part ends. -/
theorem meets_bind {x : Txn α} {f : α → Txn β} {R : β → Stage postgres ρ → Prop}
    (h : x.Meets C (fun a s' => (f a).Meets C R T s') T s) : (x >>= f).Meets C R T s := by
  refine Prog.Meets.bind (p := x.run) (Prog.Meets.mono h fun r s' hr => ?_)
  match r with
  | .ok a => exact hr
  | .error e => exact hr

/-- So does a handler, from where the exception was thrown. -/
theorem meets_tryCatch {x : Txn α} {handler : DbException → Txn α}
    (h : x.Meets C R (fun e s' => (handler e).Meets C R T s') s) :
    (tryCatch x handler).Meets C R T s := by
  refine Prog.Meets.bind (p := x.run) (Prog.Meets.mono h fun r s' hr => ?_)
  match r with
  | .ok a => exact hr
  | .error e => exact hr

/-- Opening the transaction may fail, which is no moment for the call. -/
theorem meets_work {R : Unit → Stage postgres ρ → Prop} {tables own : Tables}
    (hfail : T .database .failed) (hok : R () (.before tables own)) :
    work.Meets C R T (.before tables own) :=
  ⟨hok, hfail⟩

/-- A query is the moment when it fails, and otherwise it may be. -/
theorem meets_query {st : Statement} {R : List st.Row → Stage postgres ρ → Prop}
    {tables own : Tables} (hfail : T .database .failed)
    (herror : ∀ tables' seq, Extends (E := postgres) tables tables' →
      C.holds tables' own seq → (st.exec (tables' + own) seq).2 = none →
      T .database (.after none fun a => C.does tables' a tables'))
    (hok : ∀ tables' seq, Extends (E := postgres) tables tables' → C.holds tables' own seq →
      ∀ stored inserted (order : RowOrder),
        (st.exec (tables' + own) seq).2 = some (stored, inserted) →
        R (order.arrange stored)
            (.after (some (own + inserted)) fun a => C.does tables' a tables') ∨
          R (order.arrange stored) (.before tables' (own + inserted))) :
    (query st).Meets C R T (.before tables own) :=
  ⟨hfail, fun tables' seq hext hholds => ⟨herror tables' seq hext hholds,
    fun stored inserted order => hok tables' seq hext hholds stored inserted order⟩⟩

/-- A field of the first row. It may be missing, and reading it may fail. -/
theorem meets_field {σ : Type} {rows : List σ} {column : σ → α} (hs : ∀ P, s ≠ .committed P)
    (hnone : rows = [] → T .database s) (hfail : T .database .failed)
    (hok : ∀ row, rows.head? = some row → R (column row) s) :
    (field rows column).Meets C R T s := by
  rw [field]
  cases hrow : rows.head? with
  | none => exact meets_throw (hnone (List.head?_eq_none_iff.mp hrow))
  | some row =>
    have hrest := hok row hrow
    cases s with
    | committed P => exact absurd rfl (hs P)
    | before | after | failed => exact ⟨hrest, hfail⟩

/-- The commit is the moment. -/
theorem meets_commit {R : Unit → Stage postgres ρ → Prop} {tables own : Tables}
    (hfail : T .database .failed)
    (hok : ∀ tables' seq, Extends (E := postgres) tables tables' → C.holds tables' own seq →
      C.permits tables' → R () (.committed fun a => C.does tables' a (tables' + own))) :
    commit.Meets C R T (.before tables own) :=
  ⟨hfail, hok⟩

theorem meets_run {x : Txn α} {f : Except DbException α → Prog postgres β}
    {R : β → Stage postgres ρ → Prop}
    (h : x.Meets C (fun a => Prog.Meets C R (f (.ok a)))
      (fun e => Prog.Meets C R (f (.error e))) s) :
    Prog.Meets C R (x.run >>= f) s := by
  refine Prog.Meets.bind (Prog.Meets.mono h fun r s' hr => ?_)
  match r with
  | .ok a => exact hr
  | .error e => exact hr

/-- A function that returns `a` on any exception. -/
theorem meets_orReturn {a : α} {x : Txn α} (h : x.Meets C R (fun _ => R a) s) :
    Prog.Meets C R (orReturn a x) s :=
  meets_run h

/-! Blocks of one query. -/

/-- The block does not access the database. -/
def Idle (x : Txn α) : Prop := Prog.Idle (E := postgres) x.run

theorem idle_pure (a : α) : (pure a : Txn α).Idle := trivial

theorem idle_throw (e : DbException) : (throw e : Txn α).Idle := trivial

/-- Idle parts make up an idle block. -/
theorem Idle.bind {x : Txn α} {f : α → Txn β} (hx : x.Idle) (hf : ∀ a, (f a).Idle) :
    (x >>= f).Idle := by
  refine Prog.Idle.bind (p := x.run) hx fun r => ?_
  match r with
  | .ok a => exact hf a
  | .error e => exact trivial

/-- Rows that have been fetched are read without the database. -/
theorem idle_field {σ : Type} (rows : List σ) (column : σ → α) : (field rows column).Idle := by
  rw [field]
  cases rows.head? with
  | none => trivial
  | some row => exact fun _ => trivial

/-- The query is the only access. -/
theorem oneQuery_query {st : Statement} {f : List st.Row → Txn α} (hf : ∀ rows, (f rows).Idle) :
    Prog.OneQuery (E := postgres) st
      ((work >>= fun _ => query st >>= fun rows => f rows) : Txn α).run :=
  ⟨trivial, _, rfl, trivial, fun rows => .inl (hf rows)⟩

/-- The commit after the query has nothing to store. -/
theorem oneQuery_commit {st : Statement} :
    Prog.OneQuery (E := postgres) st
      ((work >>= fun _ => query st >>= fun rows => commit >>= fun _ => pure rows) :
        Txn (List st.Row)).run :=
  ⟨trivial, _, rfl, trivial, fun _ => .inr ⟨_, rfl, fun ok => by cases ok <;> trivial⟩⟩

end Txn

open Txn

/-! ### Calls made alone -/

section Alone

variable (hashPassword : String → List UInt8)

/-- A call that is made with nothing else going on, and in which nothing fails of itself, returns
`result` and leads from `t` to `t'`. The numbers that it can draw are those up to `limit`. -/
def StorageCall.Does (limit : Sequences) (op : StorageCall) (t : Tables) (result : op.Result)
    (t' : Tables) : Prop :=
  ∃ seq choices c, seq.Le limit ∧ (∀ n, choices n ≠ .fail) ∧
    (storageProg hashPassword op).eval ⟨t, seq, some 0, choices⟩ = (result, c) ∧ c.tables = t'

/-- What the calls are to do. A chat is created when there is none. -/
def StorageCall.contract (limit : Sequences) (op : StorageCall) :
    Contract postgres ((op : StorageCall) × op.Result) where
  holds t own seq := t.Schema seq ∧ (t + own).Integrity ∧ seq.Le limit
  permits t :=
    match op with
    | .createChat userId _ friendId => ∀ a b, PgInt.ofUInt64? userId = some a →
        PgInt.ofUInt64? friendId = some b → t.commonChats a b = []
    | _ => True
  does t r t' := ∃ result, r = ⟨op, result⟩ ∧ op.Does hashPassword limit t result t'

variable {hashPassword} {limit seq : Sequences} {op : StorageCall} {t t' : Tables}

theorem calm_always (order : RowOrder) (n : ℕ) : Calm n (Prog.always order) :=
  fun _ _ h => by cases h

/-- A run with the sequences `seq`, in which all rows come in the order given. -/
theorem StorageCall.does_of_ensures {result : op.Result} (order : RowOrder) (hseq : seq.Le limit)
    (h : (storageProg hashPassword op).Ensures (fun r c => r = result ∧ c.tables = t')
      ⟨t, seq, some 0, Prog.always order⟩) : op.Does hashPassword limit t result t' :=
  ⟨seq, Prog.always order, _, hseq, fun _ h => (by cases h), Prod.ext h.1 rfl, h.2⟩

/-- What is ensured of a call made alone. -/
theorem StorageCall.Does.ensures {result : op.Result}
    {R : Sequences → (ℕ → Choice) → op.Result → Conn postgres → Prop}
    (h : op.Does hashPassword limit t result t')
    (hR : ∀ seq choices, (∀ n, choices n ≠ .fail) →
      (storageProg hashPassword op).Ensures (R seq choices) ⟨t, seq, some 0, choices⟩) :
    ∃ seq choices c, seq.Le limit ∧ (∀ n, choices n ≠ .fail) ∧ R seq choices result c ∧
      c.tables = t' := by
  obtain ⟨seq, choices, c, hle, hcalm, heval, htables⟩ := h
  have hresult := hR seq choices hcalm
  rw [Prog.Ensures, heval] at hresult
  exact ⟨seq, choices, c, hle, hcalm, hresult, htables⟩

end Alone

/-! ### The functions -/

section Functions

variable {hashPassword : String → List UInt8} {limit : Sequences}

/-- A client remains in the table. -/
theorem client_of_extends {t t' : Tables} (h : Extends (E := postgres) t t') {row : ClientRow}
    (hrow : row ∈ t.client) : row ∈ t'.client := by
  obtain ⟨more, rfl⟩ := h
  exact List.mem_append_left _ hrow

/-- A registration takes effect with its commit: others cannot have committed the email meanwhile,
since that would violate the integrity of the tables with the new row. -/
theorem registration_meets (name email password : String) :
    (registration hashPassword name email password).Meets
      ((StorageCall.registration name email password).contract hashPassword limit)
      (fun r s => s.Returns ⟨.registration name email password, r⟩) (.before 0 0) := by
  -- a call made alone
  have halone : ∀ (t : Tables) (seq : Sequences) {ok : Bool} {t' : Tables}, seq.Le limit →
      (∀ r c, RegistrationPost hashPassword name email password t seq (Prog.always .stored) r c →
        r = ok ∧ c.tables = t') →
      (StorageCall.registration name email password).Does hashPassword limit t ok t' :=
    fun t seq ok t' hle h => StorageCall.does_of_ensures .stored hle
      (Prog.Ensures.mono (registration_ensures name email password) h)
  refine meets_orReturn (meets_bind (meets_work trivial ?_))
  refine meets_bind (meets_query trivial (fun t seq _ hholds hnone => ?_)
    fun t seq _ hholds rows inserted order hsome => .inr ?_)
  · refine ⟨false, rfl, halone t seq hholds.2.2 ?_⟩
    rintro r c (⟨rfl, ⟨hsame, -⟩, -⟩ | ⟨-, hnew, id, hid, -⟩)
    · exact ⟨rfl, hsame⟩
    · have hlt : seq.client < 2 ^ 31 := hid ▸ id.isLt
      have hno : ¬ t.client.any fun row => row.email = email := by simpa using hnew
      simp only [Statement.exec, add_zero, dif_pos hlt, if_neg hno] at hnone
      cases hnone
  · obtain ⟨id, hid, -, rfl⟩ := Statement.exec_registration_some hsome
    refine meets_bind (meets_commit trivial fun t' seq' _ hholds' _ => meets_pure ?_)
    refine ⟨true, rfl, halone t' seq hholds.2.2 ?_⟩
    have hnew : ∀ row ∈ t'.client, row.email ≠ email := by
      have hemails := hholds'.2.1.emails
      simp only [zero_add, Tables.add_client, List.map_append, List.map_cons, List.map_nil,
        List.nodup_append, List.mem_singleton, List.mem_map] at hemails
      exact fun row hrow => hemails.2.2 _ ⟨row, hrow, rfl⟩ _ rfl
    rintro r c (⟨rfl, -, hno⟩ | ⟨rfl, -, id', hid', htables, -⟩)
    · exact absurd ⟨calm_always _ 3, hid ▸ id.isLt, hnew⟩ hno
    · obtain rfl : id' = id := Fin.ext (hid'.trans hid.symm)
      exact ⟨rfl, by rw [htables, zero_add]⟩

/-- A message is refused at the moment when membership is checked, and a sender who is a member then
still is one at the commit. -/
theorem sendMessage_meets (senderId : UInt64) (mesg : MessageToSend) :
    (sendMessage senderId mesg).Meets
      ((StorageCall.sendMessage senderId mesg).contract hashPassword limit)
      (fun r s => s.Returns ⟨.sendMessage senderId mesg, r⟩) (.before 0 0) := by
  have halone : ∀ (t : Tables) (seq : Sequences) {ok : Bool} {t' : Tables}, seq.Le limit →
      (∀ r c, SendMessagePost senderId mesg t seq (Prog.always .stored) r c →
        r = ok ∧ c.tables = t') →
      (StorageCall.sendMessage senderId mesg).Does hashPassword limit t ok t' :=
    fun t seq ok t' hle h => StorageCall.does_of_ensures .stored hle
      (Prog.Ensures.mono (sendMessage_ensures senderId mesg) h)
  -- a message is refused when it cannot be sent
  have hrefused : ∀ (t : Tables) (seq : Sequences), seq.Le limit →
      (∀ sender chat, PgInt.ofUInt64? senderId = some sender →
        PgInt.ofUInt64? mesg.chatId = some chat → ¬ t.CanSend sender chat) →
      ∃ result, (⟨.sendMessage senderId mesg, false⟩ : (op : StorageCall) × op.Result) =
          ⟨.sendMessage senderId mesg, result⟩ ∧
        (StorageCall.sendMessage senderId mesg).Does hashPassword limit t result t := by
    refine fun t seq hle hno => ⟨false, rfl, halone t seq hle ?_⟩
    rintro r c (⟨rfl, ⟨hsame, -⟩, -⟩ | ⟨-, sender, chat, hsender, hchat, hcan, -⟩)
    · exact ⟨rfl, hsame⟩
    · exact absurd hcan (hno sender chat hsender hchat)
  refine meets_orReturn (meets_bind (meets_work trivial ?_))
  refine meets_bind (meets_tryCatch (meets_bind (meets_query ?_
    (fun t seq _ hholds hnone => meets_pure (meets_throw ?_))
    fun t seq _ hholds able inserted order hsome => ?_)))
  · exact meets_pure (meets_throw trivial)
  · refine hrefused t seq hholds.2.2 fun sender chat hsender hchat _ => ?_
    simp [Statement.exec, Statement.select, hsender, hchat] at hnone
  obtain ⟨sender, chat, hsender, hchat, hmember, rfl⟩ :=
    Statement.exec_checkSenderAbleToWriteToChat_some hsome
  rw [add_zero] at hmember
  have hempty : (order.arrange able).isEmpty ↔ ¬ t.Member sender chat := by
    rw [← hmember, not_not, List.isEmpty_iff, ← List.length_eq_zero_iff,
      (order.arrange_perm able).length_eq, List.length_eq_zero_iff]
  by_cases hcan : t.Member sender chat
  swap
  · refine .inl (meets_pure ?_)
    rw [if_pos (by simpa using hempty.mpr hcan)]
    refine meets_throw (hrefused t seq hholds.2.2 fun sender' chat' hsender' hchat' hcan' => ?_)
    cases hsender.symm.trans hsender'
    cases hchat.symm.trans hchat'
    exact hcan hcan'.1
  refine .inr (meets_pure ?_)
  rw [if_neg (by simpa using fun h => hempty.mp (List.isEmpty_iff.mpr h) hcan)]
  -- a member remains one
  have hstable : ∀ {t' own seq'}, Extends (E := postgres) t t' →
      (t'.Schema seq' ∧ (t' + own).Integrity ∧ seq'.Le limit) → t'.CanSend sender chat := by
    rintro t' own seq' ⟨more, rfl⟩ hholds'
    have hmember' : (t + more).Member sender chat := Tables.member_add.mpr (.inl hcan)
    obtain ⟨row, hrow, rfl, rfl⟩ := hmember'
    exact ⟨⟨row, hrow, rfl, rfl⟩, hholds'.1.members row hrow⟩
  refine meets_bind (meets_query trivial (fun t' seq' hext' hholds' hnone => ?_)
    fun t' seq' hext' hholds' rows inserted order' hsome' => .inr ?_)
  · have hcan' := hstable hext' hholds'
    simp [Statement.exec, hsender, hchat, hcan'.2.1, hcan'.2.2] at hnone
  · obtain ⟨sender', chat', hsender', hchat', -, -, rfl⟩ := Statement.exec_sendMessage_some hsome'
    cases hsender.symm.trans hsender'
    cases hchat.symm.trans hchat'
    refine meets_bind (meets_commit trivial fun t'' seq'' hext'' hholds'' _ => meets_pure ?_)
    refine ⟨true, rfl, halone t'' seq'' hholds''.2.2 ?_⟩
    rintro r c (⟨rfl, -, hno⟩ | ⟨rfl, sender', chat', hsender', hchat', -, htables, -⟩)
    · exact absurd ⟨calm_always _ 4, sender, chat, hsender, hchat,
        hstable (hext'.trans hext'') hholds''⟩ hno
    · cases hsender.symm.trans hsender'
      cases hchat.symm.trans hchat'
      exact ⟨rfl, by rw [htables]; rfl⟩

/-- The two can become contacts. -/
def Tables.CanAdd (t : Tables) (user : PgInt) (contact : ClientRow) : Prop :=
  contact ∈ t.client ∧ t.isRegistered user ∧ user ≠ contact.id ∧
    ⟨user, contact.id⟩ ∉ t.clientToContact ∧ ⟨contact.id, user⟩ ∉ t.clientToContact

/-- What comes of a call of `add_contact` in which nothing fails of itself. -/
theorem addContact_alone {t : Tables} {seq : Sequences} {choices : ℕ → Choice}
    (hemails : (t.client.map ClientRow.email).Nodup) (hcalm : ∀ n, choices n ≠ .fail)
    (userId : UInt64) (email : String) :
    (addContact userId email).Ensures (fun ok c =>
      (ok = false ∧ c.tables = t ∧ ∀ user contact, PgInt.ofUInt64? userId = some user →
        contact.email = email → ¬ t.CanAdd user contact) ∨
      (ok = true ∧ ∃ user contact, PgInt.ofUInt64? userId = some user ∧ contact.email = email ∧
        t.CanAdd user contact ∧ c.tables = t + { (0 : Tables) with
          clientToContact := [⟨user, contact.id⟩, ⟨contact.id, user⟩] }))
      ⟨t, seq, some 0, choices⟩ := by
  refine ensures_orReturn (ensures_bind (ensures_work (fun h => absurd h (hcalm _)) fun _ => ?_))
  refine ensures_bind (ensures_select rfl (fun h => ?_) fun _ rows stored hstored hperm => ?_)
  · rcases h with h | h
    · exact absurd h (hcalm _)
    · cases h
  rw [add_zero, Option.some_inj] at hstored
  subst hstored
  split_ifs with hempty
  · refine ensures_pure (.inl ⟨rfl, rfl, ?_⟩)
    rintro user contact - hemail ⟨hcontact, -⟩
    have hrow : contact ∈ t.client.filter fun row => row.email = email :=
      List.mem_filter.mpr ⟨hcontact, by simpa using hemail⟩
    have hmem := hperm.mem_iff.mpr (List.mem_map_of_mem (f := fun row => (row.id, row.name)) hrow)
    rw [List.isEmpty_iff.mp hempty] at hmem
    cases hmem
  refine ensures_bind (ensures_field (fun h => ?_) (fun h => absurd h (hcalm _))
    fun _ row hrow => ?_)
  · exact absurd (by rw [h]; rfl) hempty
  obtain ⟨contact, hmem, rfl⟩ := List.mem_map.mp (hperm.subset (List.mem_of_head? hrow))
  obtain ⟨hcontact, hemail⟩ := List.mem_filter.mp hmem
  have hemail : contact.email = email := by simpa using hemail
  -- the account of an email is unique
  have hthis : ∀ {contact' : ClientRow}, contact' ∈ t.client → contact'.email = email →
      contact' = contact := fun hcontact' hemail' =>
    List.inj_on_of_nodup_map hemails hcontact' hcontact (hemail'.trans hemail.symm)
  have hid := PgInt.ofUInt64?_toUInt64 contact.id
  have hreg : t.isRegistered contact.id := Tables.isRegistered_of_mem hcontact
  have hrefused : ∀ {c : Conn postgres}, c.tables = t →
      (∀ user, PgInt.ofUInt64? userId = some user → ¬ t.CanAdd user contact) →
      (false = false ∧ c.tables = t ∧ ∀ user contact, PgInt.ofUInt64? userId = some user →
        contact.email = email → ¬ t.CanAdd user contact) := by
    refine fun hc hno => ⟨rfl, hc, fun user contact' huser hemail' hcan => ?_⟩
    rw [hthis hcan.1 hemail'] at hcan
    exact hno user huser hcan
  refine ensures_bind (ensures_query (fun seq' _ hfail => .inl (hrefused rfl ?_))
    fun _ seq' rows' stored inserted hexec _ => ?_)
  · intro user huser hcan
    rcases hfail with ⟨hfail, -⟩ | hfail
    · exact absurd hfail (hcalm _)
    · simp [Statement.exec, huser, hid, hreg, hcan.2.1, hcan.2.2.2.1] at hfail
  obtain ⟨user, friend, huser, hfriend, hreguser, -, hnew, rfl⟩ :=
    Statement.exec_addContact_some (congrArg Prod.snd hexec)
  cases hid.symm.trans hfriend
  refine ensures_bind (ensures_query (fun seq'' _ hfail => .inl (hrefused rfl ?_))
    fun _ seq'' rows'' stored' inserted' hexec' _ => ?_)
  · intro user' huser' hcan
    cases huser.symm.trans huser'
    rcases hfail with ⟨hfail, -⟩ | hfail
    · exact absurd hfail (hcalm _)
    · simp [Statement.exec, huser, hid, hreg, hcan.2.1, hcan.2.2.2.2, hcan.2.2.1] at hfail
  obtain ⟨friend, user', hfriend', huser', -, -, hnew', rfl⟩ :=
    Statement.exec_addContact_some (congrArg Prod.snd hexec')
  cases hid.symm.trans hfriend'
  cases huser.symm.trans huser'
  refine ensures_bind (ensures_commit (fun h => absurd h (hcalm _)) fun _ => ensures_pure (.inr ?_))
  simp only [add_zero, zero_add, Tables.add_clientToContact, List.mem_append, List.mem_singleton,
    not_or, ClientToContactRow.mk.injEq, not_and] at hnew hnew' hreguser
  refine ⟨rfl, user, contact, huser, hemail, ⟨hcontact, by simpa using hreguser, ?_,
    by simpa using hnew, by simpa using hnew'.1⟩, ?_⟩
  · exact fun heq => hnew'.2 heq.symm heq
  · ext1 <;> simp

theorem isRegistered_of_extends {t t' : Tables} (h : Extends (E := postgres) t t') {id : PgInt}
    (hid : t.isRegistered id) : t'.isRegistered id := by
  obtain ⟨more, rfl⟩ := h
  rw [Tables.isRegistered_add, hid, Bool.true_or]

/-- A contact that is found is found at the commit as well. Where an insertion fails, it is because
the two cannot become contacts at that moment. -/
theorem addContact_meets (userId : UInt64) (email : String) :
    (addContact userId email).Meets
      ((StorageCall.addContact userId email).contract hashPassword limit)
      (fun r s => s.Returns ⟨.addContact userId email, r⟩) (.before 0 0) := by
  have hrefused : ∀ (t : Tables) (seq : Sequences), t.Schema seq → seq.Le limit →
      (∀ user contact, PgInt.ofUInt64? userId = some user → contact.email = email →
        ¬ t.CanAdd user contact) →
      ∃ result, (⟨.addContact userId email, false⟩ : (op : StorageCall) × op.Result) =
          ⟨.addContact userId email, result⟩ ∧
        (StorageCall.addContact userId email).Does hashPassword limit t result t := by
    refine fun t seq hschema hle hno => ⟨false, rfl, StorageCall.does_of_ensures .stored hle
      (Prog.Ensures.mono (addContact_alone hschema.emails (fun _ h => by cases h) userId email) ?_)⟩
    rintro r c (⟨rfl, hsame, -⟩ | ⟨-, user, contact, huser, hemail, hcan, -⟩)
    · exact ⟨rfl, hsame⟩
    · exact absurd hcan (hno user contact huser hemail)
  refine meets_orReturn (meets_bind (meets_work trivial ?_))
  refine meets_bind (meets_query trivial (fun t seq _ _ hnone => by cases hnone)
    fun t seq _ hholds rows inserted order hsome => ?_)
  obtain ⟨rfl, rfl⟩ := Statement.exec_getUserByEmail_some hsome
  rw [add_zero, add_zero]
  have hperm := order.arrange_perm ((t.client.filter fun row => row.email = email).map fun row =>
    (row.id, row.name))
  generalize order.arrange _ = found at hperm
  by_cases hempty : found = []
  · refine .inl ?_
    rw [hempty]
    refine meets_pure (hrefused t seq hholds.1 hholds.2.2 fun user contact _ hemail hcan => ?_)
    have hrow : contact ∈ t.client.filter fun row => row.email = email :=
      List.mem_filter.mpr ⟨hcan.1, by simpa using hemail⟩
    have hmem := hperm.mem_iff.mpr (List.mem_map_of_mem (f := fun row => (row.id, row.name)) hrow)
    rw [hempty] at hmem
    cases hmem
  refine .inr ?_
  rw [if_neg (by simpa using hempty)]
  refine meets_bind (meets_field (fun _ h => by cases h) (fun h => absurd h hempty) trivial
    fun row hrow => ?_)
  obtain ⟨contact, hmem, rfl⟩ := List.mem_map.mp (hperm.subset (List.mem_of_head? hrow))
  obtain ⟨hcontact, hemail⟩ := List.mem_filter.mp hmem
  have hemail : contact.email = email := by simpa using hemail
  have hid := PgInt.ofUInt64?_toUInt64 contact.id
  -- the account of the email remains the same
  have hthis : ∀ {t' : Tables} {seq' : Sequences}, Extends (E := postgres) t t' → t'.Schema seq' →
      ∀ {contact' : ClientRow}, contact' ∈ t'.client → contact'.email = email →
        contact' = contact := fun hext hschema _ hcontact' hemail' =>
    List.inj_on_of_nodup_map hschema.emails hcontact' (client_of_extends hext hcontact)
      (hemail'.trans hemail.symm)
  refine meets_bind (meets_query trivial (fun t' seq' hext hholds' hnone => ?_)
    fun t' seq' hext hholds' rows inserted order' hsome' => .inr ?_)
  · refine hrefused t' seq' hholds'.1 hholds'.2.2 fun user contact' huser hemail' hcan => ?_
    have heq := hthis hext hholds'.1 hcan.1 hemail'
    subst heq
    have hreg : t'.isRegistered contact'.id := Tables.isRegistered_of_mem hcan.1
    simp [Statement.exec, huser, hid, hreg, hcan.2.1, hcan.2.2.2.1] at hnone
  obtain ⟨user, friend, huser, hfriend, hreguser, -, hnew, rfl⟩ :=
    Statement.exec_addContact_some hsome'
  cases hid.symm.trans hfriend
  refine meets_bind (meets_query trivial (fun t'' seq'' hext' hholds'' hnone => ?_)
    fun t'' seq'' hext' hholds'' rows' inserted' order'' hsome'' => .inr ?_)
  · refine hrefused t'' seq'' hholds''.1 hholds''.2.2 fun user' contact' huser' hemail' hcan => ?_
    cases huser.symm.trans huser'
    have heq := hthis (hext.trans hext') hholds''.1 hcan.1 hemail'
    subst heq
    have hreg : t''.isRegistered contact'.id := Tables.isRegistered_of_mem hcan.1
    simp [Statement.exec, huser, hid, hreg, hcan.2.1, hcan.2.2.2.2, hcan.2.2.1] at hnone
  obtain ⟨friend, user', hfriend', huser', -, -, hnew', rfl⟩ :=
    Statement.exec_addContact_some hsome''
  cases hid.symm.trans hfriend'
  cases huser.symm.trans huser'
  refine meets_bind (meets_commit trivial fun t₃ seq₃ hext₃ hholds₃ _ => meets_pure ?_)
  refine ⟨true, rfl, StorageCall.does_of_ensures .stored hholds₃.2.2
    (Prog.Ensures.mono (addContact_alone hholds₃.1.emails (fun _ h => by cases h) userId email)
      ?_)⟩
  have hreguser : t'.isRegistered user := by simpa [Tables.isRegistered] using hreguser
  have hne : user ≠ contact.id := fun heq => hnew' (by simp [heq])
  have hcontacts := hholds₃.2.1.contacts
  simp only [zero_add, Tables.add_clientToContact, List.nodup_append, List.mem_append,
    List.mem_singleton] at hcontacts
  have hcan : t₃.CanAdd user contact := by
    refine ⟨client_of_extends (hext.trans (hext'.trans hext₃)) hcontact,
      isRegistered_of_extends (hext'.trans hext₃) hreguser, hne, fun hmem => ?_, fun hmem => ?_⟩
    · exact hcontacts.2.2 _ hmem _ (.inl rfl) rfl
    · exact hcontacts.2.2 _ hmem _ (.inr rfl) rfl
  rintro r c (⟨-, -, hno⟩ | ⟨rfl, user', contact', huser', hemail', hcan', htables⟩)
  · exact absurd hcan (hno user contact huser hemail)
  · cases huser.symm.trans huser'
    have heq := hthis (hext.trans (hext'.trans hext₃)) hholds₃.1 hcan'.1 hemail'
    subst heq
    exact ⟨rfl, by rw [htables]; rfl⟩

/-- A chat takes effect with its commit, provided that the two have none then. What was read before
(the name of the friend, and that both are registered) holds at the commit as well. -/
theorem createChat_meets (userId : UInt64) (userName : String) (friendId : UInt64) :
    (createChat userId userName friendId).Meets
      ((StorageCall.createChat userId userName friendId).contract hashPassword limit)
      (fun r s => s.Returns ⟨.createChat userId userName friendId, r⟩) (.before 0 0) := by
  have halone : ∀ (t : Tables) (seq : Sequences) {ok : Bool} {t' : Tables}, seq.Le limit →
      (∀ r c, CreateChatPost userId userName friendId t seq (Prog.always .stored) r c →
        r = ok ∧ c.tables = t') →
      (StorageCall.createChat userId userName friendId).Does hashPassword limit t ok t' :=
    fun t seq ok t' hle h => StorageCall.does_of_ensures .stored hle
      (Prog.Ensures.mono (createChat_ensures userId userName friendId) h)
  have hrefused : ∀ (t : Tables) (seq : Sequences), seq.Le limit →
      (seq.chat < 2 ^ 31 → ∀ user friend, PgInt.ofUInt64? userId = some user →
        PgInt.ofUInt64? friendId = some friend → ¬ t.CanChat user friend) →
      ∃ result, (⟨.createChat userId userName friendId, false⟩ :
          (op : StorageCall) × op.Result) = ⟨.createChat userId userName friendId, result⟩ ∧
        (StorageCall.createChat userId userName friendId).Does hashPassword limit t result t := by
    refine fun t seq hle hno => ⟨false, rfl, halone t seq hle ?_⟩
    rintro r c (⟨rfl, ⟨hsame, -⟩, -⟩ | ⟨-, -, hlt, user, friend, _, _, huser, hfriend, hcan, -⟩)
    · exact ⟨rfl, hsame⟩
    · exact absurd hcan (hno hlt user friend huser hfriend)
  refine meets_orReturn (meets_bind (meets_work trivial ?_))
  -- the check
  refine meets_bind (meets_query trivial (fun t seq _ hholds hnone => ?_)
    fun t seq _ hholds rows inserted order hsome => ?_)
  · refine hrefused t seq hholds.2.2 fun _ user friend huser hfriend _ => ?_
    simp [Statement.exec, Statement.select, huser, hfriend] at hnone
  obtain ⟨user, friend, huser, hfriend, rfl, rfl⟩ :=
    Statement.exec_checkUsersHaveCommonChat_some hsome
  -- who the call is for
  have hthese : ∀ (t : Tables) (seq : Sequences), seq.Le limit →
      (seq.chat < 2 ^ 31 → ¬ t.CanChat user friend) →
      ∃ result, (⟨.createChat userId userName friendId, false⟩ :
          (op : StorageCall) × op.Result) = ⟨.createChat userId userName friendId, result⟩ ∧
        (StorageCall.createChat userId userName friendId).Does hashPassword limit t result t := by
    refine fun t seq hle hno => hrefused t seq hle fun hlt user' friend' huser' hfriend' => ?_
    cases huser.symm.trans huser'
    cases hfriend.symm.trans hfriend'
    exact hno hlt
  rw [add_zero, add_zero]
  have hperm := order.arrange_perm (t.commonChats user friend)
  generalize order.arrange _ = found at hperm
  by_cases hempty : found = []
  swap
  · refine .inl ?_
    rw [if_pos (by simpa using hempty)]
    refine meets_pure (hthese t seq hholds.2.2 fun _ hcan => hempty ?_)
    rw [hcan.1] at hperm
    exact hperm.eq_nil
  refine .inr ?_
  rw [if_neg (by simpa using hempty)]
  -- the chat
  refine meets_bind (meets_query trivial (fun t₂ seq₂ _ hholds₂ hnone => ?_)
    fun t₂ seq₂ hext₂ hholds₂ rows inserted order₂ hsome₂ => .inr ?_)
  · refine hthese t₂ seq₂ hholds₂.2.2 fun hlt _ => ?_
    simp only [Statement.exec, dif_pos hlt] at hnone
    cases hnone
  obtain ⟨chat, hchat, rfl, rfl⟩ := Statement.exec_createChat_some (t := t₂ + 0) hsome₂
  have hchatId := PgInt.ofUInt64?_toUInt64 chat
  refine meets_bind (meets_field (fun _ h => by cases h) (fun h => ?_) trivial fun row hrow => ?_)
  · have hlen := (order₂.arrange_perm [chat]).length_eq
    rw [h] at hlen
    cases hlen
  rw [List.perm_singleton.mp (order₂.arrange_perm [chat])] at hrow
  cases hrow
  -- the name of the friend
  refine meets_bind (meets_query trivial (fun t₃ seq₃ _ _ hnone => ?_)
    fun t₃ seq₃ hext₃ hholds₃ info inserted order₃ hsome₃ => ?_)
  · simp [Statement.exec, Statement.select, hfriend] at hnone
  simp only [Statement.exec, Statement.select, hfriend, Option.map_some, Option.some.injEq,
    Prod.mk.injEq] at hsome₃
  obtain ⟨hinfo, rfl⟩ := hsome₃
  have hperm₃ := order₃.arrange_perm info
  generalize order₃.arrange info = found₃ at hperm₃
  have hfriends : ∀ name, name ∈ found₃.map Prod.fst ↔
      ∃ row ∈ t₃.client, row.id = friend ∧ row.name = name := by
    intro name
    rw [(hperm₃.map Prod.fst).mem_iff, ← hinfo]
    simp [and_assoc]
  by_cases hempty₃ : found₃ = []
  · refine .inl ?_
    rw [hempty₃]
    refine meets_bind (meets_throw (hthese t₃ seq₃ hholds₃.2.2 fun _ hcan => ?_))
    obtain ⟨row, hrow, hid⟩ := List.any_eq_true.mp hcan.2.2
    have hmem := (hfriends row.name).mpr ⟨row, hrow, of_decide_eq_true hid, rfl⟩
    rw [hempty₃] at hmem
    cases hmem
  refine .inr (meets_bind (meets_field (fun _ h => by cases h) (fun h => absurd h hempty₃) trivial
    fun info' hinfo' => ?_))
  obtain ⟨row, hrow, rfl, hname⟩ :=
    (hfriends info'.1).mp (List.mem_map_of_mem (List.mem_of_head? hinfo'))
  have hfriendRegistered : t₃.isRegistered row.id := Tables.isRegistered_of_mem hrow
  -- the two connections
  refine meets_bind (meets_query trivial (fun t₄ seq₄ _ hholds₄ hnone => ?_)
    fun t₄ seq₄ hext₄ hholds₄ rows inserted order₄ hsome₄ => .inr ?_)
  · refine hthese t₄ seq₄ hholds₄.2.2 fun _ hcan => ?_
    simp [Statement.exec, huser, hchatId, Tables.hasChat, hcan.2.1] at hnone
  have huserRegistered : t₄.isRegistered user := by
    simp only [Statement.exec, huser, hchatId, Option.bind_eq_bind, Option.bind_some] at hsome₄
    split_ifs at hsome₄ with hrefs
    simpa [Tables.isRegistered] using hrefs.1
  obtain ⟨user', chat', huser', hchat', rfl⟩ := Statement.exec_createChatConnection_some hsome₄
  cases huser.symm.trans huser'
  cases hchatId.symm.trans hchat'
  refine meets_bind (meets_query trivial (fun t₅ seq₅ hext₅ hholds₅ hnone => ?_)
    fun t₅ seq₅ hext₅ hholds₅ rows inserted order₅ hsome₅ => .inr ?_)
  · have hreg := isRegistered_of_extends (hext₄.trans hext₅) hfriendRegistered
    simp [Statement.exec, hfriend, hchatId, Tables.hasChat, hreg] at hnone
  obtain ⟨friend', chat', hfriend', hchat', rfl⟩ := Statement.exec_createChatConnection_some hsome₅
  cases hfriend.symm.trans hfriend'
  cases hchatId.symm.trans hchat'
  -- the commit
  refine meets_bind (meets_commit trivial fun t₆ seq₆ hext₆ hholds₆ hpermits => meets_pure ?_)
  refine ⟨true, rfl, halone t₆ seq₂ hholds₂.2.2 ?_⟩
  have hcan : t₆.CanChat user row.id := ⟨hpermits user row.id huser hfriend,
    isRegistered_of_extends (hext₅.trans hext₆) huserRegistered,
    isRegistered_of_extends (hext₄.trans (hext₅.trans hext₆)) hfriendRegistered⟩
  rintro r c (⟨rfl, -, hno⟩ | ⟨rfl, -, -, user', friend', chat', row', huser', hfriend', -, hrow',
    hid', hchat', htables, -⟩)
  · exact absurd ⟨calm_always _ 9, hchat ▸ chat.isLt, user, row.id, huser, hfriend, hcan⟩ hno
  · cases huser.symm.trans huser'
    cases hfriend.symm.trans hfriend'
    obtain rfl : chat' = chat := Fin.ext (hchat'.trans hchat.symm)
    have heq : row' = row := List.inj_on_of_nodup_map hholds₆.1.clientKey hrow'
      (client_of_extends (hext₄.trans (hext₅.trans hext₆)) hrow) hid'
    subst heq
    refine ⟨rfl, ?_⟩
    rw [htables, ← hname]
    rfl

/-- A login is one query. -/
theorem login_oneQuery (email password : String) :
    Prog.OneQuery (E := postgres) (.selectByEmail email) (login hashPassword email password) := by
  refine Prog.OneQuery.bind (oneQuery_query fun rows => ?_) fun r => ?_
  · split_ifs
    · exact idle_throw _
    refine Txn.Idle.bind ?_ fun wrong => ?_
    · rw [wrongPassword]
      split_ifs
      · exact (idle_field _ _).bind fun _ => idle_pure _
      · exact idle_pure _
    · split_ifs
      · exact idle_throw _
      · exact (idle_field _ _).bind fun _ => (idle_field _ _).bind fun _ => idle_pure _
  · rcases r with (_ | _) | _ <;> exact trivial

/-- Filling in a message may fail, without any access. -/
theorem idle_fillMessage {M : Type} (sets : List (M → M)) (m : M) :
    Prog.Idle (E := postgres) (fillMessage sets m) := by
  induction sets generalizing m with
  | nil => trivial
  | cons set sets ih =>
    intro ok
    cases ok with
    | true => exact ih (set m)
    | false => trivial

theorem idle_fillResponse {σ M : Type} (empty : M) (setters : σ → List (M → M)) (rows : List σ)
    (filled : List M) : Prog.Idle (E := postgres) (fillResponse empty setters rows filled) := by
  induction rows generalizing filled with
  | nil => trivial
  | cons row rows ih =>
    refine Prog.Idle.bind (idle_fillMessage _ _) fun r => ?_
    obtain ⟨m, ok⟩ := r
    cases ok with
    | true => exact ih _
    | false => trivial

/-- So is reading. -/
theorem readRows_oneQuery {M : Type} (st : Statement) (empty : M)
    (setters : st.Row → List (M → M)) :
    Prog.OneQuery (E := postgres) st (readRows st empty setters) := by
  refine Prog.OneQuery.bind oneQuery_commit fun r => ?_
  match r with
  | .ok rows => exact idle_fillResponse empty setters rows []
  | .error _ => exact trivial

/-- A query inserts nothing. -/
theorem inserted_eq_zero_of_select {ρ : Type} {seq : Sequences} {rowsOf : Option (List ρ)}
    {rows : List ρ} {inserted : Tables}
    (h : (Statement.select seq rowsOf).2 = some (rows, inserted)) : inserted = 0 := by
  rw [Statement.select, Option.map_eq_some_iff] at h
  obtain ⟨_, -, heq⟩ := h
  cases heq
  rfl

/-- **Every function** meets its contract. -/
theorem storageBody_meets (op : StorageCall) :
    (storageBody hashPassword op).Meets (op.contract hashPassword limit)
      (fun r s => s.Returns r) (.before 0 0) := by
  refine Prog.Meets.bind ?_
  have hquery : ∀ {st : Statement}, Prog.OneQuery (E := postgres) st (storageProg hashPassword op) →
      (∀ {t inserted : Tables} {seq : Sequences} {rows : List st.Row},
        (st.exec t seq).2 = some (rows, inserted) → inserted = 0) →
      (∀ t seq order, ((storageProg hashPassword op).eval
        ⟨t, seq, some 0, Prog.always order⟩).2.tables = t) →
      (storageProg hashPassword op).Meets (op.contract hashPassword limit)
        (fun r s => s.Returns (⟨op, r⟩ : (op : StorageCall) × op.Result)) (.before 0 0) :=
    fun hone hreads hsame => hone.meets (fun _ _ _ _ => hreads) fun t seq order hholds =>
      ⟨_, rfl, seq, Prog.always order, _, hholds.2.2, fun _ h => (by cases h), rfl,
        hsame t seq order⟩
  cases op with
  | registration name email password => exact registration_meets name email password
  | sendMessage senderId mesg => exact sendMessage_meets senderId mesg
  | addContact userId email => exact addContact_meets userId email
  | createChat userId userName friendId => exact createChat_meets userId userName friendId
  | login email password =>
    exact hquery (login_oneQuery email password) (fun h => (Statement.exec_selectByEmail_some h).2)
      fun t seq order =>
        (storageProg_ensures hashPassword t seq (Prog.always order) (.login email password)).1.1
  | getChats userId =>
    exact hquery (readRows_oneQuery _ _ _) inserted_eq_zero_of_select fun t seq order =>
      (storageProg_ensures hashPassword t seq (Prog.always order) (.getChats userId)).1.1
  | getContacts userId =>
    exact hquery (readRows_oneQuery _ _ _) inserted_eq_zero_of_select fun t seq order =>
      (storageProg_ensures hashPassword t seq (Prog.always order) (.getContacts userId)).1.1
  | getMessages chatId =>
    exact hquery (readRows_oneQuery _ _ _) inserted_eq_zero_of_select fun t seq order =>
      (storageProg_ensures hashPassword t seq (Prog.always order) (.getMessages chatId)).1.1

end Functions

end Elegram
