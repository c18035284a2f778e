import Elegram.Server.Storage

/-!
# What the storage functions do when nothing interferes

Rules of pre- and postconditions for the body of a `try` block (`Txn.Ensures`), and with them one
specification for each function that the rest of the development reasons about.
-/

namespace Elegram

open ReadCommitted

/-- Sequences only count upwards. -/
def Sequences.Le (s t : Sequences) : Prop := s.client ≤ t.client ∧ s.chat ≤ t.chat

theorem Sequences.Le.refl (s : Sequences) : s.Le s := ⟨Nat.le_refl _, Nat.le_refl _⟩

/-- Sequences only count on. -/
theorem Sequences.Le.trans {s t u : Sequences} (h : s.Le t) (h' : t.Le u) : s.Le u :=
  ⟨Nat.le_trans h.1 h'.1, Nat.le_trans h.2 h'.2⟩

/-- Also when a statement fails. -/
theorem Statement.exec_le (st : Statement) (t : Tables) (seq : Sequences) :
    seq.Le (st.exec t seq).1 := by
  cases st <;> simp only [exec, select] <;> first
    | exact .refl seq
    | split_ifs <;> simp [Sequences.Le]

namespace Txn

variable {α β : Type}

/-- Run alone from `c`, the block ends with a result and a database that satisfy `Q`, or throws
and leaves a database that satisfies `R`. -/
def Ensures (x : Txn α) (Q : α → Conn postgres → Prop) (R : DbException → Conn postgres → Prop)
    (c : Conn postgres) : Prop :=
  Prog.Ensures x.run (fun r c' =>
    match r with
    | .ok a => Q a c'
    | .error e => R e c') c

variable {Q : α → Conn postgres → Prop} {R : DbException → Conn postgres → Prop}
  {tables own : Tables} {sequences : Sequences} {choices : ℕ → Choice} {c : Conn postgres}

theorem ensures_pure {a : α} (h : Q a c) : Ensures (pure a) Q R c := h

theorem ensures_throw {e : DbException} (h : R e c) : Ensures (throw e : Txn α) Q R c := h

/-- A sequence: the rest begins where the first part ends. -/
theorem ensures_bind {x : Txn α} {f : α → Txn β} {Q : β → Conn postgres → Prop}
    (h : Ensures x (fun a => Ensures (f a) Q R) R c) : Ensures (x >>= f) Q R c := by
  refine (Prog.ensures_bind (p := x.run)).mpr (Prog.Ensures.mono h fun r c' hr => ?_)
  match r with
  | .ok a => exact hr
  | .error e => exact hr

/-- A handler begins where the exception was thrown. -/
theorem ensures_tryCatch {x : Txn α} {handler : DbException → Txn α}
    (h : Ensures x Q (fun e => Ensures (handler e) Q R) c) :
    Ensures (tryCatch x handler) Q R c := by
  refine (Prog.ensures_bind (p := x.run)).mpr (Prog.Ensures.mono h fun r c' hr => ?_)
  match r with
  | .ok a => exact hr
  | .error e => exact hr

theorem Ensures.mono {x : Txn α} {Q' : α → Conn postgres → Prop}
    {R' : DbException → Conn postgres → Prop} (h : Ensures x Q R c) (hQ : ∀ a c', Q a c' → Q' a c')
    (hR : ∀ e c', R e c' → R' e c') : Ensures x Q' R' c := by
  refine Prog.Ensures.mono h fun r c' hr => ?_
  match r with
  | .ok a => exact hQ a c' hr
  | .error e => exact hR e c' hr

theorem ensures_work {Q : Unit → Conn postgres → Prop}
    (hfail : c.choices 0 = .fail → R .database { c with choices := later c.choices })
    (hok : c.choices 0 ≠ .fail → Q () { c with choices := later c.choices }) :
    Ensures work Q R c :=
  Prog.ensures_attempt hfail hok

/-- A query that fails closes the transaction. -/
theorem ensures_query {st : Statement} {Q : List st.Row → Conn postgres → Prop}
    (hfail : ∀ seq, sequences.Le seq →
      choices 0 = .fail ∧ seq = sequences ∨ st.exec (tables + own) sequences = (seq, none) →
      R .database ⟨tables, seq, none, later choices⟩)
    (hok : choices 0 ≠ .fail → ∀ seq rows stored inserted,
      st.exec (tables + own) sequences = (seq, some (stored, inserted)) → rows.Perm stored →
      Q rows ⟨tables, seq, some (own + inserted), later choices⟩) :
    Ensures (query st) Q R ⟨tables, sequences, some own, choices⟩ := by
  have hle := Statement.exec_le st (tables + own) sequences
  refine Prog.ensures_exec (E := postgres) (fun seq h => ?_)
    fun order seq rows inserted hchoice hexec => ?_
  · rcases h with ⟨hchoice, rfl⟩ | hexec
    · exact hfail seq (.refl _) (.inl ⟨hchoice, rfl⟩)
    · change st.exec (tables + own) sequences = _ at hexec
      rw [hexec] at hle
      exact hfail seq hle (.inr hexec)
  · exact hok (by simp [hchoice]) seq _ rows inserted hexec (order.arrange_perm rows)

/-- A query that inserts nothing. -/
theorem ensures_select {st : Statement} {rowsOf : Option (List st.Row)}
    {Q : List st.Row → Conn postgres → Prop}
    (hst : st.exec (tables + own) sequences = Statement.select sequences rowsOf)
    (hfail : choices 0 = .fail ∨ rowsOf = none →
      R .database ⟨tables, sequences, none, later choices⟩)
    (hok : choices 0 ≠ .fail → ∀ rows stored, rowsOf = some stored → rows.Perm stored →
      Q rows ⟨tables, sequences, some own, later choices⟩) :
    Ensures (query st) Q R ⟨tables, sequences, some own, choices⟩ := by
  rw [Statement.select] at hst
  refine ensures_query (fun seq _ h => ?_) fun h₀ seq rows stored inserted hexec hperm => ?_
  · rcases h with ⟨hchoice, rfl⟩ | hexec
    · exact hfail (.inl hchoice)
    · rw [hst, Prod.mk.injEq, Option.map_eq_none_iff] at hexec
      obtain ⟨rfl, hnone⟩ := hexec
      exact hfail (.inr hnone)
  · rw [hst, Prod.mk.injEq, Option.map_eq_some_iff] at hexec
    obtain ⟨rfl, stored', hstored, heq⟩ := hexec
    cases heq
    rw [add_zero]
    exact hok h₀ rows stored hstored hperm

/-- The insertion of a membership in a chat that exists. -/
theorem ensures_createChatConnection {clientId : UInt64} {client chat : PgInt} {title : String}
    {Q : List Unit → Conn postgres → Prop} (hclient : PgInt.ofUInt64? clientId = some client)
    (hchat : (tables + own).hasChat chat)
    (hfail : choices 0 = .fail ∨ ¬ (tables + own).isRegistered client →
      R .database ⟨tables, sequences, none, later choices⟩)
    (hok : choices 0 ≠ .fail → (tables + own).isRegistered client → ∀ rows,
      Q rows ⟨tables, sequences,
        some (own + { (0 : Tables) with clientToChat := [⟨client, chat, title⟩] }),
        later choices⟩) :
    Ensures (query (.createChatConnection clientId chat.toUInt64 title)) Q R
      ⟨tables, sequences, some own, choices⟩ := by
  have hid := PgInt.ofUInt64?_toUInt64 chat
  refine ensures_query (fun seq _ h => ?_) fun h₀ seq rows stored inserted hexec _ => ?_
  · rcases h with ⟨hchoice, rfl⟩ | hexec
    · exact hfail (.inl hchoice)
    · by_cases hreg : (tables + own).isRegistered client
      · rw [Statement.exec_createChatConnection _ hclient hid hreg hchat] at hexec
        cases hexec
      · have hseq : sequences = seq := congrArg Prod.fst hexec
        rw [← hseq]
        exact hfail (.inr hreg)
  · simp only [Statement.exec, hclient, hid, Option.bind_eq_bind, Option.bind_some,
      Prod.mk.injEq] at hexec
    obtain ⟨rfl, hexec⟩ := hexec
    split_ifs at hexec with hreg
    cases hexec
    exact hok h₀ hreg.1 rows

theorem ensures_field {ρ : Type} {rows : List ρ} {column : ρ → α}
    (hnone : rows = [] → R .database c)
    (hfail : c.choices 0 = .fail → R .database { c with choices := later c.choices })
    (hok : c.choices 0 ≠ .fail → ∀ row, rows.head? = some row →
      Q (column row) { c with choices := later c.choices }) :
    Ensures (field rows column) Q R c := by
  rw [field]
  cases hrow : rows.head? with
  | none => exact ensures_throw (hnone (List.head?_eq_none_iff.mp hrow))
  | some row => exact Prog.ensures_attempt hfail fun h => hok h row hrow

/-- What has been inserted is committed, or nothing is. -/
theorem ensures_commit {Q : Unit → Conn postgres → Prop}
    (hfail : choices 0 = .fail → R .database ⟨tables, sequences, none, later choices⟩)
    (hok : choices 0 ≠ .fail → Q () ⟨tables + own, sequences, none, later choices⟩) :
    Ensures commit Q R ⟨tables, sequences, some own, choices⟩ :=
  Prog.ensures_commit (E := postgres) hfail hok

/-- What a function makes of the result of its `try` block. -/
theorem ensures_run {x : Txn α} {f : Except DbException α → Prog postgres β}
    {Q : β → Conn postgres → Prop}
    (h : Ensures x (fun a => Prog.Ensures (f (.ok a)) Q)
      (fun e => Prog.Ensures (f (.error e)) Q) c) :
    Prog.Ensures (x.run >>= f) Q c := by
  refine Prog.ensures_bind.mpr (Prog.Ensures.mono h fun r c' hr => ?_)
  match r with
  | .ok a => exact hr
  | .error e => exact hr

theorem ensures_orReturn {a : α} {x : Txn α}
    (h : Ensures x Q (fun _ => Q a) c) : Prog.Ensures (orReturn a x) Q c :=
  ensures_run h

end Txn

/-! ### The functions -/

section Functions

open Txn

variable {hashPassword : String → List UInt8} {tables : Tables} {sequences : Sequences}
  {choices : ℕ → Choice}

/-- A call has left the tables as they were. -/
def Unchanged (tables : Tables) (sequences : Sequences) (c : Conn postgres) : Prop :=
  c.tables = tables ∧ sequences.Le c.sequences

/-- A call has failed. When `possible` holds, it does not. -/
def Refused (tables : Tables) (sequences : Sequences) (possible : Prop) (c : Conn postgres) :
    Prop :=
  Unchanged tables sequences c ∧ ¬ possible

/-- A new client, if the email is not taken. -/
def RegistrationPost (hashPassword : String → List UInt8) (name email password : String)
    (tables : Tables) (sequences : Sequences) (choices : ℕ → Choice) (ok : Bool)
    (c : Conn postgres) : Prop :=
  (ok = false ∧ Refused tables sequences
    (Calm 3 choices ∧ sequences.client < 2 ^ 31 ∧ ∀ row ∈ tables.client, row.email ≠ email) c) ∨
  (ok = true ∧ (∀ row ∈ tables.client, row.email ≠ email) ∧ ∃ id : PgInt,
    id.val = sequences.client ∧
    c.tables = tables + { (0 : Tables) with client := [⟨id, name, email, hashPassword password⟩] } ∧
    c.sequences = { sequences with client := sequences.client + 1 })

/-- A registration succeeds if nothing fails, there is a number left, and nobody has the email. -/
theorem registration_ensures (name email password : String) :
    Prog.Ensures (registration hashPassword name email password)
      (RegistrationPost hashPassword name email password tables sequences choices)
      ⟨tables, sequences, some 0, choices⟩ := by
  refine ensures_orReturn (ensures_bind (ensures_work (fun hfail => ?_) fun _ => ?_))
  · exact .inl ⟨rfl, ⟨rfl, .refl _⟩, fun h => h.1 0 (by decide) hfail⟩
  refine ensures_bind (ensures_query (fun seq hle hfail => ?_)
    fun _ seq rows stored inserted hexec _ => ?_)
  · refine .inl ⟨rfl, ⟨rfl, hle⟩, fun ⟨hcalm, hid, hemail⟩ => ?_⟩
    rcases hfail with ⟨hfail, -⟩ | hfail
    · exact hcalm 1 (by decide) hfail
    · have hno : ¬ (tables.client.any fun row => row.email = email) := by simpa using hemail
      simp only [Statement.exec, add_zero, dif_pos hid, if_neg hno] at hfail
      cases hfail
  simp only [Statement.exec, add_zero] at hexec
  split_ifs at hexec with hid hemail
  · cases hexec
  · cases hexec
    refine ensures_bind (ensures_commit (fun hfail => ?_) fun _ => ensures_pure ?_)
    · exact .inl ⟨rfl, ⟨rfl, by simp [Sequences.Le]⟩, fun h => h.1 2 (by decide) hfail⟩
    · refine .inr ⟨rfl, fun row hrow heq => hemail ?_, ⟨sequences.client, hid⟩, rfl, ?_, rfl⟩
      · exact List.any_eq_true.mpr ⟨row, hrow, by simpa using heq⟩
      · rw [zero_add]
  · cases hexec

/-- The password check compares the hash of the only row, if there is just one. -/
theorem wrongPassword_ensures {rows : List (PgInt × String × List UInt8)} {password : String}
    {own : Option Tables} {Q : Bool → Conn postgres → Prop}
    {R : DbException → Conn postgres → Prop}
    (hfail : choices 0 = .fail → R .database ⟨tables, sequences, own, later choices⟩)
    (hok : ∀ wrong choices', (∀ row, rows = [row] →
        wrong = (row.2.2 != hashPassword password) ∧ choices' = later choices) →
      Q wrong ⟨tables, sequences, own, choices'⟩) :
    Ensures (wrongPassword hashPassword rows password) Q R ⟨tables, sequences, own, choices⟩ := by
  rw [wrongPassword]
  split_ifs with hlen
  · obtain ⟨row, rfl⟩ := List.length_eq_one_iff.mp hlen
    refine ensures_bind (ensures_field (fun h => by cases h) hfail fun _ row' hrow =>
      ensures_pure (hok _ _ fun row'' hrow' => ?_))
    cases hrow
    cases hrow'
    exact ⟨rfl, rfl⟩
  · refine ensures_pure (hok _ _ fun row hrow => ?_)
    rw [hrow] at hlen
    exact absurd rfl hlen

/-- The rows of `Client` that `login` looks at. -/
def Tables.accounts (t : Tables) (email : String) : List ClientRow :=
  t.client.filter fun row => row.email = email

/-- What comes of a login: a user that the table knows, and this user when there is just one and
the password is right. -/
def LoginPost (hashPassword : String → List UInt8) (email password : String) (tables : Tables)
    (sequences : Sequences) (choices : ℕ → Choice) (result : Except LoginError (UInt64 × String))
    (c : Conn postgres) : Prop :=
  (c.tables = tables ∧ c.sequences = sequences) ∧
  (∀ user, result = .ok user →
    ∃ row ∈ tables.client, row.email = email ∧ user = (row.id.toUInt64, row.name)) ∧
  ∀ row, Calm 5 choices → tables.accounts email = [row] →
    row.passwordHash = hashPassword password → result = .ok (row.id.toUInt64, row.name)

theorem LoginPost.error {email password : String} {error : LoginError} {c : Conn postgres}
    (hc : c.tables = tables ∧ c.sequences = sequences)
    (hno : ∀ row, Calm 5 choices → tables.accounts email = [row] →
      row.passwordHash ≠ hashPassword password) :
    LoginPost hashPassword email password tables sequences choices (.error error) c :=
  ⟨hc, fun user h => (by cases h), fun row hcalm hrow hhash => absurd hhash (hno row hcalm hrow)⟩

/-- A login finds the row of the email and compares the hashes. -/
theorem login_ensures (email password : String) :
    Prog.Ensures (login hashPassword email password)
      (LoginPost hashPassword email password tables sequences choices)
      ⟨tables, sequences, some 0, choices⟩ := by
  -- an exception becomes an error, and the database stays as it is
  have herror : ∀ (error : LoginError) (c : Conn postgres),
      c.tables = tables ∧ c.sequences = sequences →
      (∀ row, Calm 5 choices → tables.accounts email = [row] →
        row.passwordHash ≠ hashPassword password) →
      Prog.Ensures (E := postgres) (.ret (.error error))
        (LoginPost hashPassword email password tables sequences choices) c :=
    fun _ _ hc hno => LoginPost.error hc hno
  refine ensures_run (ensures_bind (ensures_work (fun hfail => ?_) fun _ => ?_))
  · exact herror .other _ ⟨rfl, rfl⟩ fun row hcalm => absurd hfail (hcalm 0 (by decide))
  refine ensures_bind (ensures_select rfl (fun hfail => ?_) fun _ rows stored hstored hperm => ?_)
  · rcases hfail with hfail | hfail
    · exact herror .other _ ⟨rfl, rfl⟩ fun row hcalm => absurd hfail (hcalm 1 (by decide))
    · cases hfail
  rw [add_zero, Option.some_inj] at hstored
  subst hstored
  have hone : ∀ row, tables.accounts email = [row] →
      rows = [(row.id, row.name, row.passwordHash)] := by
    intro row hrow
    rw [Tables.accounts] at hrow
    rw [hrow] at hperm
    exact List.perm_singleton.mp hperm
  split_ifs with hempty
  · refine ensures_throw (herror .invalidArgument _ ⟨rfl, rfl⟩ fun row _ hrow => ?_)
    rw [hone row hrow] at hempty
    cases hempty
  refine ensures_bind (wrongPassword_ensures (fun hfail => ?_) fun wrong choices' hwrong => ?_)
  · exact herror .other _ ⟨rfl, rfl⟩ fun row hcalm => absurd hfail (hcalm 2 (by decide))
  split_ifs with hw
  · refine ensures_throw (herror .invalidArgument _ ⟨rfl, rfl⟩ fun row _ hrow => ?_)
    have h := (hwrong _ (hone row hrow)).1
    rw [hw] at h
    simpa using h.symm
  -- the rest of the choices, if there is just one row
  have hlater : ∀ row, tables.accounts email = [row] → choices' = later (later (later choices)) :=
    fun row hrow => (hwrong _ (hone row hrow)).2
  refine ensures_bind (ensures_field (fun h => ?_) (fun hfail => ?_) fun _ row hrow => ?_)
  · exact absurd (by rw [h]; rfl) hempty
  · refine herror .other _ ⟨rfl, rfl⟩ fun row hcalm hrow => ?_
    rw [hlater row hrow] at hfail
    exact absurd hfail (hcalm 3 (by decide))
  refine ensures_bind (ensures_field (fun h => ?_) (fun hfail => ?_) fun _ row' hrow' =>
    ensures_pure ?_)
  · exact absurd (by rw [h]; rfl) hempty
  · refine herror .other _ ⟨rfl, rfl⟩ fun row hcalm hrow => ?_
    rw [hlater row hrow] at hfail
    exact absurd hfail (hcalm 4 (by decide))
  rw [hrow] at hrow'
  cases hrow'
  refine ⟨⟨rfl, rfl⟩, fun user huser => ?_, fun client _ hclient _ => ?_⟩
  · cases huser
    obtain ⟨client, hclient, rfl⟩ := List.mem_map.mp (hperm.subset (List.mem_of_head? hrow))
    obtain ⟨hclient, hemail⟩ := List.mem_filter.mp hclient
    exact ⟨client, hclient, by simpa using hemail, rfl⟩
  · rw [hone client hclient] at hrow
    cases hrow
    rfl

/-- The chat and the sender of a message, and that the sender is a member. -/
def Tables.CanSend (t : Tables) (sender chat : PgInt) : Prop :=
  t.Member sender chat ∧ t.isRegistered sender ∧ t.hasChat chat

/-- A new message, if the sender is a member of the chat. -/
def SendMessagePost (senderId : UInt64) (mesg : MessageToSend) (tables : Tables)
    (sequences : Sequences) (choices : ℕ → Choice) (ok : Bool) (c : Conn postgres) : Prop :=
  (ok = false ∧ Refused tables sequences (Calm 4 choices ∧ ∃ sender chat,
    PgInt.ofUInt64? senderId = some sender ∧ PgInt.ofUInt64? mesg.chatId = some chat ∧
    tables.CanSend sender chat) c) ∨
  (ok = true ∧ ∃ sender chat, PgInt.ofUInt64? senderId = some sender ∧
    PgInt.ofUInt64? mesg.chatId = some chat ∧ tables.CanSend sender chat ∧
    c.tables = tables + { (0 : Tables) with message := [⟨sender, chat, mesg.text⟩] } ∧
    c.sequences = sequences)

/-- A message is sent if nothing fails and the sender is a member. -/
theorem sendMessage_ensures (senderId : UInt64) (mesg : MessageToSend) :
    Prog.Ensures (sendMessage senderId mesg)
      (SendMessagePost senderId mesg tables sequences choices)
      ⟨tables, sequences, some 0, choices⟩ := by
  refine ensures_orReturn (ensures_bind (ensures_work (fun hfail => ?_) fun _ => ?_))
  · exact .inl ⟨rfl, ⟨rfl, .refl _⟩, fun h => h.1 0 (by decide) hfail⟩
  -- the check
  refine ensures_bind (ensures_tryCatch (ensures_bind (ensures_select rfl (fun hfail => ?_)
    fun _ rows stored hstored hperm => ensures_pure ?_)))
  · refine .inl ⟨rfl, ⟨rfl, .refl _⟩, ?_⟩
    rintro ⟨hcalm, sender, chat, hsender, hchat, -⟩
    rcases hfail with hfail | hfail
    · exact hcalm 1 (by decide) hfail
    · simp [hsender, hchat] at hfail
  simp only [add_zero, Option.bind_eq_bind, Option.bind_eq_some_iff, Option.some_inj] at hstored
  obtain ⟨sender, hsender, chat, hchat, rfl⟩ := hstored
  have hthis : (∃ sender chat, PgInt.ofUInt64? senderId = some sender ∧
      PgInt.ofUInt64? mesg.chatId = some chat ∧ tables.CanSend sender chat) →
      tables.CanSend sender chat := by
    rintro ⟨sender', chat', hsender', hchat', hcan⟩
    cases hsender.symm.trans hsender'
    cases hchat.symm.trans hchat'
    exact hcan
  have hmember : rows ≠ [] ↔ tables.Member sender chat := by
    rw [← List.length_pos_iff, hperm.length_eq, List.length_map, List.length_pos_iff_exists_mem]
    simp [Tables.memberships, Tables.Member, and_comm]
  split_ifs with hnone
  · refine ensures_throw (.inl ⟨rfl, ⟨rfl, .refl _⟩, ?_⟩)
    rintro ⟨-, hpossible⟩
    exact hmember.mpr (hthis hpossible).1 (by simpa using hnone)
  -- the insertion
  refine ensures_bind (ensures_query (fun seq hle hfail => ?_)
    fun _ seq rows' stored' inserted' hexec' _ => ?_)
  · refine .inl ⟨rfl, ⟨rfl, hle⟩, ?_⟩
    rintro ⟨hcalm, hpossible⟩
    have hcan := hthis hpossible
    rcases hfail with ⟨hfail, -⟩ | hfail
    · exact hcalm 2 (by decide) hfail
    · simp [Statement.exec, hsender, hchat, hcan.2.1, hcan.2.2] at hfail
  simp only [Statement.exec, add_zero, hsender, hchat, Option.bind_eq_bind, Option.bind_some,
    Prod.mk.injEq] at hexec'
  obtain ⟨rfl, hexec'⟩ := hexec'
  split_ifs at hexec' with hcan
  cases hexec'
  refine ensures_bind (ensures_commit (fun hfail => ?_) fun _ => ensures_pure ?_)
  · exact .inl ⟨rfl, ⟨rfl, .refl _⟩, fun h => h.1 3 (by decide) hfail⟩
  · refine .inr ⟨rfl, sender, chat, hsender, hchat,
      ⟨hmember.mp (by simpa using hnone), hcan⟩, ?_, rfl⟩
    simp

/-- New contacts. -/
def AddContactPost (tables : Tables) (sequences : Sequences) (ok : Bool) (c : Conn postgres) :
    Prop :=
  (ok = false ∧ Unchanged tables sequences c) ∨
  (ok = true ∧ (∃ contacts : List ClientToContactRow,
    c.tables = tables + { (0 : Tables) with clientToContact := contacts }) ∧
    c.sequences = sequences)

/-- A contact is added in both directions or in none. -/
theorem addContact_ensures (userId : UInt64) (email : String) :
    Prog.Ensures (addContact userId email) (AddContactPost tables sequences)
      ⟨tables, sequences, some 0, choices⟩ := by
  -- what one insertion does
  have hinsert : ∀ {a b : UInt64} {t inserted : Tables} {seq seq' : Sequences} {stored : List Unit},
      (Statement.addContact a b).exec t seq = (seq', some (stored, inserted)) →
      seq' = seq ∧ ∃ contacts, inserted = { (0 : Tables) with clientToContact := contacts } := by
    intro a b t inserted seq seq' stored h
    simp only [Statement.exec, Option.bind_eq_bind, Prod.mk.injEq, Option.bind_eq_some_iff] at h
    obtain ⟨rfl, client, -, friend, -, h⟩ := h
    split_ifs at h
    cases h
    exact ⟨rfl, _, rfl⟩
  refine ensures_orReturn (ensures_bind (ensures_work (fun _ => ?_) fun _ => ?_))
  · exact .inl ⟨rfl, rfl, .refl _⟩
  refine ensures_bind (ensures_select rfl (fun _ => .inl ⟨rfl, rfl, .refl _⟩) fun _ _ _ _ _ => ?_)
  split_ifs
  · exact ensures_pure (.inl ⟨rfl, rfl, .refl _⟩)
  refine ensures_bind (ensures_field (fun _ => .inl ⟨rfl, rfl, .refl _⟩)
    (fun _ => .inl ⟨rfl, rfl, .refl _⟩) fun _ row _ => ?_)
  refine ensures_bind (ensures_query (fun seq hle _ => ?_)
    fun _ seq rows stored inserted hexec _ => ?_)
  · exact .inl ⟨rfl, rfl, hle⟩
  obtain ⟨rfl, contacts, rfl⟩ := hinsert hexec
  refine ensures_bind (ensures_query (fun seq hle _ => ?_)
    fun _ seq rows stored inserted hexec _ => ?_)
  · exact .inl ⟨rfl, rfl, hle⟩
  obtain ⟨rfl, contacts', rfl⟩ := hinsert hexec
  refine ensures_bind (ensures_commit (fun _ => .inl ⟨rfl, rfl, .refl _⟩) fun _ =>
    ensures_pure (.inr ⟨rfl, ⟨contacts ++ contacts', ?_⟩, rfl⟩))
  ext1 <;> simp

/-- The rows of a new chat. -/
def chatRows (user friend chat : PgInt) (userName friendName : String) : Tables :=
  { (0 : Tables) with
    chat := [chat]
    clientToChat := [⟨user, chat, "Chat with " ++ friendName⟩,
      ⟨friend, chat, "Chat with " ++ userName⟩] }

/-- The two have no common chat, and both are in the table. -/
def Tables.CanChat (t : Tables) (user friend : PgInt) : Prop :=
  t.commonChats user friend = [] ∧ t.isRegistered user ∧ t.isRegistered friend

/-- A new chat, if there is none yet. -/
def CreateChatPost (userId : UInt64) (userName : String) (friendId : UInt64) (tables : Tables)
    (sequences : Sequences) (choices : ℕ → Choice) (ok : Bool) (c : Conn postgres) : Prop :=
  (ok = false ∧ Refused tables sequences (Calm 9 choices ∧ sequences.chat < 2 ^ 31 ∧
    ∃ user friend, PgInt.ofUInt64? userId = some user ∧
      PgInt.ofUInt64? friendId = some friend ∧ tables.CanChat user friend) c) ∨
  (ok = true ∧ Calm 9 choices ∧ sequences.chat < 2 ^ 31 ∧ ∃ user friend chat row,
    PgInt.ofUInt64? userId = some user ∧ PgInt.ofUInt64? friendId = some friend ∧
    tables.CanChat user friend ∧ row ∈ tables.client ∧ row.id = friend ∧
    chat.val = sequences.chat ∧
    c.tables = tables + chatRows user friend chat userName row.name ∧
    c.sequences = { sequences with chat := sequences.chat + 1 })

/-- A call for two identifiers of the database is refused for a reason. -/
theorem refused_of_parsed {userId friendId : UInt64} {user friend : PgInt} {possible : Prop}
    {c : Conn postgres} (huser : PgInt.ofUInt64? userId = some user)
    (hfriend : PgInt.ofUInt64? friendId = some friend) (hc : Unchanged tables sequences c)
    (hno : possible → sequences.chat < 2 ^ 31 → ¬ tables.CanChat user friend) :
    Refused tables sequences (possible ∧ sequences.chat < 2 ^ 31 ∧
      ∃ user friend, PgInt.ofUInt64? userId = some user ∧
        PgInt.ofUInt64? friendId = some friend ∧ tables.CanChat user friend) c := by
  refine ⟨hc, ?_⟩
  rintro ⟨hpossible, hchat, user', friend', huser', hfriend', hcan⟩
  cases huser.symm.trans huser'
  cases hfriend.symm.trans hfriend'
  exact hno hpossible hchat hcan

/-- A chat is created if nothing fails, there is a number left, both are registered, and they have
no chat. -/
theorem createChat_ensures (userId : UInt64) (userName : String) (friendId : UInt64) :
    Prog.Ensures (createChat userId userName friendId)
      (CreateChatPost userId userName friendId tables sequences choices)
      ⟨tables, sequences, some 0, choices⟩ := by
  refine ensures_orReturn (ensures_bind (ensures_work (fun hfail => ?_) fun h₀ => ?_))
  · exact .inl ⟨rfl, ⟨rfl, .refl _⟩, fun h => h.1 0 (by decide) hfail⟩
  -- the common chat
  refine ensures_bind (ensures_select rfl (fun hfail => ?_) fun h₁ rows stored hstored hperm => ?_)
  · refine .inl ⟨rfl, ⟨rfl, .refl _⟩, ?_⟩
    rintro ⟨hcalm, -, user, friend, huser, hfriend, -⟩
    rcases hfail with hfail | hfail
    · exact hcalm 1 (by decide) hfail
    · simp [huser, hfriend] at hfail
  simp only [add_zero, Option.bind_eq_bind, Option.bind_eq_some_iff, Option.some_inj] at hstored
  obtain ⟨user, huser, friend, hfriend, rfl⟩ := hstored
  -- how the call can fail from here on
  have hrefused : ∀ {c : Conn postgres}, Unchanged tables sequences c →
      (Calm 9 choices → sequences.chat < 2 ^ 31 → ¬ tables.CanChat user friend) →
      CreateChatPost userId userName friendId tables sequences choices false c :=
    fun hc hno => .inl ⟨rfl, refused_of_parsed huser hfriend hc hno⟩
  split_ifs with hempty
  · refine ensures_pure (hrefused ⟨rfl, .refl _⟩ fun _ _ hcan => ?_)
    rw [hcan.1] at hperm
    rw [hperm.eq_nil] at hempty
    cases hempty
  have hcommon : tables.commonChats user friend = [] := by
    have hrows : rows = [] := by simpa using hempty
    rw [hrows] at hperm
    exact hperm.nil_eq.symm
  -- the new chat
  refine ensures_bind (ensures_query (fun seq hle hfail => ?_)
    fun h₂ seq rows stored inserted hexec hperm => ?_)
  · refine hrefused ⟨rfl, hle⟩ fun hcalm hchat _ => ?_
    rcases hfail with ⟨hfail, -⟩ | hfail
    · exact hcalm 2 (by decide) hfail
    · simp only [Statement.exec, dif_pos hchat] at hfail
      cases hfail
  simp only [Statement.exec] at hexec
  split_ifs at hexec with hid
  swap
  · cases hexec
  simp only [Prod.mk.injEq, Option.some.injEq] at hexec
  obtain ⟨rfl, rfl, rfl⟩ := hexec
  have hle : sequences.Le { sequences with chat := sequences.chat + 1 } := by
    simp [Sequences.Le]
  have hrows := List.perm_singleton.mp hperm
  refine ensures_bind (ensures_field (fun h => ?_) (fun hfail => ?_) fun h₃ chat hchat => ?_)
  · rw [hrows] at h
    cases h
  · exact hrefused ⟨rfl, hle⟩ fun hcalm _ _ => hcalm 3 (by decide) hfail
  rw [hrows, List.head?_cons, Option.some_inj] at hchat
  -- the friend
  refine ensures_bind (ensures_select rfl (fun hfail => ?_) fun h₄ rows stored hstored hperm => ?_)
  · refine hrefused ⟨rfl, hle⟩ fun hcalm _ _ => ?_
    rcases hfail with hfail | hfail
    · exact hcalm 4 (by decide) hfail
    · rw [hfriend] at hfail
      cases hfail
  rw [hfriend, Option.map_some, Option.some_inj] at hstored
  subst hstored
  refine ensures_bind (ensures_field (fun h => ?_) (fun hfail => ?_) fun h₅ info hinfo => ?_)
  · refine hrefused ⟨rfl, hle⟩ fun _ _ hcan => ?_
    obtain ⟨row, hrow, hrowid⟩ := List.any_eq_true.mp hcan.2.2
    rw [h] at hperm
    have hnone := List.filter_eq_nil_iff.mp (List.map_eq_nil_iff.mp hperm.nil_eq.symm) row
      (by simpa using hrow)
    exact hnone hrowid
  · exact hrefused ⟨rfl, hle⟩ fun hcalm _ _ => hcalm 5 (by decide) hfail
  have hmem := hperm.subset (List.mem_of_head? hinfo)
  simp only [List.mem_map, List.mem_filter, Tables.add_client, Tables.zero_client,
    List.append_nil, decide_eq_true_eq] at hmem
  obtain ⟨row, ⟨hrow, hrowid⟩, rfl⟩ := hmem
  have hregistered : tables.isRegistered friend :=
    List.any_eq_true.mpr ⟨row, hrow, by simpa using hrowid⟩
  -- the two connections
  refine ensures_bind (ensures_createChatConnection huser (by simp [Tables.hasChat, hchat])
    (fun hfail => ?_) fun h₆ huserRegistered _ => ?_)
  · refine hrefused ⟨rfl, hle⟩ fun hcalm _ hcan => ?_
    rcases hfail with hfail | hfail
    · exact hcalm 6 (by decide) hfail
    · exact hfail (by simp [hcan.2.1])
  refine ensures_bind (ensures_createChatConnection hfriend (by simp [Tables.hasChat, hchat])
    (fun hfail => ?_) fun h₇ _ _ => ?_)
  · refine hrefused ⟨rfl, hle⟩ fun hcalm _ _ => ?_
    rcases hfail with hfail | hfail
    · exact hcalm 7 (by decide) hfail
    · exact hfail (by simp [hregistered])
  refine ensures_bind (ensures_commit (fun hfail => ?_) fun h₈ => ensures_pure ?_)
  · exact hrefused ⟨rfl, hle⟩ fun hcalm _ _ => hcalm 8 (by decide) hfail
  refine .inr ⟨rfl, ?_, hid, user, friend, chat, row, huser, hfriend,
    ⟨hcommon, ?_, hregistered⟩, hrow, hrowid, ?_, ?_, rfl⟩
  · exact .cons h₀ <| .cons h₁ <| .cons h₂ <| .cons h₃ <| .cons h₄ <| .cons h₅ <|
      .cons h₆ <| .cons h₇ <| .cons h₈ <| .zero _
  · simpa [Tables.isRegistered] using huserRegistered
  · rw [← hchat]
  · rw [← hchat]
    ext1 <;> simp [chatRows]

/-! ### Reading -/

variable {ρ M : Type} {empty : M} {setters : ρ → List (M → M)}

/-- A message in which the first `k` fields have been set. -/
def partialMessage (empty : M) (setters : List (M → M)) (k : ℕ) : M :=
  (setters.take k).foldl (fun m set => set m) empty

/-- A message with all its fields. -/
def fullMessage (empty : M) (setters : List (M → M)) : M :=
  setters.foldl (fun m set => set m) empty

/-- The contents of a response when the loop over `rows` ends: all rows, or the rows before the
one whose conversion has thrown and what there was of that one. -/
def Filled (empty : M) (setters : ρ → List (M → M)) (rows : List ρ) (response : List M) : Prop :=
  response = rows.map (fun row => fullMessage empty (setters row)) ∨
    ∃ done row rest k, rows = done ++ row :: rest ∧
      response = done.map (fun row => fullMessage empty (setters row)) ++
        [partialMessage empty (setters row) k]

/-- The number of conversions in the loop over the rows. -/
def fieldCount (setters : ρ → List (M → M)) : List ρ → ℕ
  | [] => 0
  | row :: rows => (setters row).length + fieldCount setters rows

/-- The response when the conversion `k` throws. -/
def brokenOff (empty : M) (setters : ρ → List (M → M)) : List ρ → ℕ → List M
  | [], _ => []
  | row :: rows, k =>
    if k < (setters row).length then [partialMessage empty (setters row) k]
    else fullMessage empty (setters row) :: brokenOff empty setters rows (k - (setters row).length)

theorem fieldCount_cons (row : ρ) (rows : List ρ) :
    fieldCount setters (row :: rows) = (setters row).length + fieldCount setters rows :=
  rfl

/-- Every conversion belongs to a row. -/
theorem exists_row_of_lt {rows : List ρ} {k : ℕ} (hk : k < fieldCount setters rows) :
    ∃ done row rest j, rows = done ++ row :: rest ∧ j < (setters row).length ∧
      k = fieldCount setters done + j := by
  induction rows generalizing k with
  | nil => cases hk
  | cons row rows ih =>
    rw [fieldCount_cons] at hk
    by_cases hlt : k < (setters row).length
    · exact ⟨[], row, rows, k, rfl, hlt, (Nat.zero_add k).symm⟩
    · obtain ⟨done, last, rest, j, rfl, hj, hkj⟩ := ih (k := k - (setters row).length) (by omega)
      refine ⟨row :: done, last, rest, j, rfl, hj, ?_⟩
      rw [fieldCount_cons]
      omega

/-- The conversions of the rows before come first. -/
theorem fieldCount_append_lt (done : List ρ) {row : ρ} (rest : List ρ) {j : ℕ}
    (hj : j < (setters row).length) :
    fieldCount setters done + j < fieldCount setters (done ++ row :: rest) := by
  induction done with
  | nil =>
    rw [List.nil_append, fieldCount_cons]
    exact (Nat.zero_add j).trans_lt (Nat.lt_add_right _ hj)
  | cons first done ih =>
    rw [List.cons_append, fieldCount_cons, fieldCount_cons]
    omega

/-- The rows before the one that is broken off are complete. -/
theorem brokenOff_append (done : List ρ) {row : ρ} (rest : List ρ) {j : ℕ}
    (hj : j < (setters row).length) :
    brokenOff empty setters (done ++ row :: rest) (fieldCount setters done + j) =
      (done.map fun row => fullMessage empty (setters row)) ++
        [partialMessage empty (setters row) j] := by
  induction done with
  | nil =>
    have hzero : fieldCount setters ([] : List ρ) + j = j := Nat.zero_add j
    rw [hzero, List.nil_append, brokenOff, if_pos hj]
    rfl
  | cons first done ih =>
    have hsub : (setters first).length + fieldCount setters done + j - (setters first).length =
        fieldCount setters done + j := by omega
    rw [List.cons_append, brokenOff, fieldCount_cons, if_neg (by omega), hsub, ih]
    rfl

/-- A response that is broken off is filled up to one row. -/
theorem filled_brokenOff {rows : List ρ} {k : ℕ} (hk : k < fieldCount setters rows) :
    Filled empty setters rows (brokenOff empty setters rows k) := by
  obtain ⟨done, row, rest, j, rfl, hj, rfl⟩ := exists_row_of_lt hk
  exact .inr ⟨done, row, rest, j, rfl, brokenOff_append done rest hj⟩

/-- A message is filled in one conversion after the other, up to the first that throws. -/
theorem fillMessage_ensures {c : Conn postgres} (sets : List (M → M)) (m : M) :
    Prog.Ensures (fillMessage sets m) (fun r c' =>
      (Calm sets.length c.choices ∧ r = (fullMessage m sets, true) ∧
        c' = { c with choices := fun n => c.choices (n + sets.length) }) ∨
      ∃ k < sets.length, Calm k c.choices ∧ c.choices k = .fail ∧
        r = (partialMessage m sets k, false) ∧
          ∃ choices, c' = { c with choices := choices }) c := by
  induction sets generalizing m c with
  | nil => exact .inl ⟨.zero _, rfl, rfl⟩
  | cons set sets ih =>
    refine Prog.ensures_attempt (fun hfail => ?_) fun hok => ?_
    · exact .inr ⟨0, Nat.succ_pos _, .zero _, hfail, rfl, _, rfl⟩
    · refine Prog.Ensures.mono (ih (set m)) ?_
      rintro r c' (⟨hcalm, rfl, rfl⟩ | ⟨k, hk, hcalm, hfail, rfl, choices, rfl⟩)
      · exact .inl ⟨.cons hok hcalm, rfl, rfl⟩
      · exact .inr ⟨k + 1, Nat.succ_lt_succ hk, .cons hok hcalm, hfail, rfl, choices, rfl⟩

/-- The loop fills the response with all rows, or a conversion throws. -/
theorem fillResponse_ensures {c : Conn postgres} (rows : List ρ) (filled : List M) :
    Prog.Ensures (fillResponse empty setters rows filled) (fun r c' =>
      (∃ choices, c' = { c with choices := choices }) ∧
      ((Calm (fieldCount setters rows) c.choices ∧
          r = filled ++ rows.map fun row => fullMessage empty (setters row)) ∨
        ∃ k < fieldCount setters rows, Calm k c.choices ∧ c.choices k = .fail ∧
          r = filled ++ brokenOff empty setters rows k)) c := by
  induction rows generalizing filled c with
  | nil => exact ⟨⟨c.choices, rfl⟩, .inl ⟨.zero _, (List.append_nil _).symm⟩⟩
  | cons row rows ih =>
    rw [fieldCount_cons]
    refine Prog.ensures_bind.mpr (Prog.Ensures.mono (fillMessage_ensures (setters row) empty) ?_)
    rintro r c' (⟨hcalm, rfl, rfl⟩ | ⟨k, hk, hcalm, hfail, rfl, choices, rfl⟩)
    · refine Prog.Ensures.mono (ih (filled ++ [fullMessage empty (setters row)])) ?_
      rintro r c' ⟨hc, ⟨hrest, rfl⟩ | ⟨k, hk, hrest, hfail, rfl⟩⟩
      · exact ⟨hc, .inl ⟨calm_add.mpr ⟨hcalm, hrest⟩, by simp⟩⟩
      · refine ⟨hc, .inr ⟨(setters row).length + k, by omega, calm_add.mpr ⟨hcalm, hrest⟩, ?_, ?_⟩⟩
        · rwa [Nat.add_comm]
        · rw [brokenOff, if_neg (by omega), Nat.add_sub_cancel_left]
          simp
    · refine ⟨⟨choices, rfl⟩, .inr ⟨k, by omega, hcalm, hfail, ?_⟩⟩
      rw [brokenOff, if_pos hk]
      rfl

/-- The rows that a reading function returns, and when it returns them all. -/
def ReadPost (rowsOf : Tables → Option (List ρ)) (empty : M) (setters : ρ → List (M → M))
    (tables : Tables) (sequences : Sequences) (choices : ℕ → Choice) (response : List M)
    (c : Conn postgres) : Prop :=
  Unchanged tables sequences c ∧
  (response = [] ∨ ∃ stored rows, rowsOf tables = some stored ∧ rows.Perm stored ∧
    Filled empty setters rows response) ∧
  ∀ stored, (∀ n, Calm n choices) → rowsOf tables = some stored →
    response.Perm (stored.map fun row => fullMessage empty (setters row))

/-- A function that reads opens a transaction, executes its statement and commits. It returns
nothing when one of the three fails, and otherwise enters the loop over the rows. -/
theorem ensures_readRows {st : Statement} {rowsOf : Tables → Option (List st.Row)}
    (hst : ∀ t seq, st.exec t seq = Statement.select seq (rowsOf t)) {empty : M}
    {setters : st.Row → List (M → M)} {Q : List M → Conn postgres → Prop}
    (hfail : rowsOf tables = none ∨ ¬ Calm 3 choices →
      ∀ own choices', Q [] ⟨tables, sequences, own, choices'⟩)
    (hok : ∀ stored order, rowsOf tables = some stored → Calm 3 choices →
      choices 1 = .proceed order →
      Prog.Ensures (fillResponse empty setters (order.arrange stored) []) Q
        ⟨tables, sequences, none, fun k => choices (k + 3)⟩) :
    Prog.Ensures (readRows st empty setters) Q ⟨tables, sequences, some 0, choices⟩ := by
  refine ensures_run (ensures_bind (ensures_work (fun h₀ => ?_) fun h₀ => ?_))
  · exact hfail (.inr fun hcalm => hcalm 0 (by decide) h₀) _ _
  refine ensures_bind (Prog.ensures_exec (E := postgres) (fun seq' hbad => ?_)
    fun order seq' rows inserted h₁ hexec => ?_)
  · rcases hbad with ⟨h₁, rfl⟩ | hexec
    · exact hfail (.inr fun hcalm => hcalm 1 (by decide) h₁) _ _
    · change st.exec (tables + 0) sequences = _ at hexec
      rw [hst, add_zero, Statement.select, Prod.mk.injEq, Option.map_eq_none_iff] at hexec
      obtain ⟨rfl, hnone⟩ := hexec
      exact hfail (.inl hnone) _ _
  change st.exec (tables + 0) sequences = _ at hexec
  simp only [hst, add_zero, Statement.select, Prod.mk.injEq, Option.map_eq_some_iff] at hexec
  obtain ⟨rfl, stored, hstored, rfl, rfl⟩ := hexec
  refine ensures_bind (ensures_commit (fun h₂ => ?_) fun h₂ => ensures_pure ?_)
  · exact hfail (.inr fun hcalm => hcalm 2 (by decide) h₂) _ _
  have hcalm : Calm 3 choices :=
    .cons h₀ (.cons (fun hbad => (by cases h₁.symm.trans hbad)) (.cons h₂ (.zero _)))
  have hloop := hok stored order hstored hcalm h₁
  rw [add_zero, add_zero]
  exact hloop

/-- A function that reads returns all rows if nothing fails. -/
theorem readRows_ensures (st : Statement) (rowsOf : Tables → Option (List st.Row)) {empty : M}
    {setters : st.Row → List (M → M)}
    (hst : ∀ t seq, st.exec t seq = Statement.select seq (rowsOf t)) :
    Prog.Ensures (readRows st empty setters)
      (ReadPost rowsOf empty setters tables sequences choices)
      ⟨tables, sequences, some 0, choices⟩ := by
  refine ensures_readRows hst (fun hbad own choices' => ?_)
    fun stored order hstored hcalm horder => ?_
  · refine ⟨⟨rfl, .refl _⟩, .inl rfl, fun stored hcalm hrows => ?_⟩
    rcases hbad with hnone | hbad
    · rw [hnone] at hrows
      cases hrows
    · exact absurd (hcalm 3) hbad
  have hperm := order.arrange_perm stored
  refine Prog.Ensures.mono (fillResponse_ensures (order.arrange stored) []) ?_
  rintro response c ⟨⟨choices', rfl⟩, ⟨hall, rfl⟩ | ⟨k, hk, hbefore, hfail, rfl⟩⟩
  · refine ⟨⟨rfl, .refl _⟩, .inr ⟨stored, _, hstored, hperm, .inl rfl⟩, fun stored' _ hrows => ?_⟩
    cases hstored.symm.trans hrows
    exact hperm.map _
  · refine ⟨⟨rfl, .refl _⟩, .inr ⟨stored, _, hstored, hperm, filled_brokenOff hk⟩, fun _ h _ => ?_⟩
    exact absurd hfail (h (k + 4) (k + 3) (Nat.lt_succ_self _))

end Functions

/-! ### All functions -/

/-- What a storage call guarantees about its result and the database. -/
def StorageCall.Post (hashPassword : String → List UInt8) (tables : Tables)
    (sequences : Sequences) (choices : ℕ → Choice) :
    (op : StorageCall) → op.Result → Conn postgres → Prop
  | .registration name email password =>
      RegistrationPost hashPassword name email password tables sequences choices
  | .login email password => LoginPost hashPassword email password tables sequences choices
  | .sendMessage senderId mesg => SendMessagePost senderId mesg tables sequences choices
  | .addContact .. => AddContactPost tables sequences
  | .createChat userId userName friendId =>
      CreateChatPost userId userName friendId tables sequences choices
  | .getChats userId =>
      ReadPost (fun t => (PgInt.ofUInt64? userId).map t.chatsOf) { chatId := 0, title := "" }
        chatSetters tables sequences choices
  | .getContacts userId =>
      ReadPost (fun t => (PgInt.ofUInt64? userId).map t.contacts)
        { userId := 0, name := "", email := "" } contactSetters tables sequences choices
  | .getMessages chatId =>
      ReadPost (fun t => (PgInt.ofUInt64? chatId).map t.messagesOf) { senderId := 0, text := "" }
        messageSetters tables sequences choices

/-- **Storage calls.** -/
theorem storageProg_ensures (hashPassword : String → List UInt8) (tables : Tables)
    (sequences : Sequences) (choices : ℕ → Choice) (op : StorageCall) :
    (storageProg hashPassword op).Ensures (op.Post hashPassword tables sequences choices)
      ⟨tables, sequences, some 0, choices⟩ := by
  cases op with
  | registration name email password => exact registration_ensures name email password
  | login email password => exact login_ensures email password
  | sendMessage senderId mesg => exact sendMessage_ensures senderId mesg
  | addContact userId email => exact addContact_ensures userId email
  | createChat userId userName friendId => exact createChat_ensures userId userName friendId
  | getChats userId =>
    exact readRows_ensures (.getChats userId)
      (fun t => (PgInt.ofUInt64? userId).map t.chatsOf) fun _ _ => rfl
  | getContacts userId =>
    exact readRows_ensures (.getContacts userId)
      (fun t => (PgInt.ofUInt64? userId).map t.contacts) fun _ _ => rfl
  | getMessages chatId =>
    exact readRows_ensures (.getMessages chatId)
      (fun t => (PgInt.ofUInt64? chatId).map t.messagesOf) fun _ _ => rfl

/-! ### Which statements a function executes -/

namespace Txn

variable {α β : Type} {S : Statement → Prop} {x : Txn α}

/-- The block executes statements of `S` only. -/
def Uses (S : Statement → Prop) (x : Txn α) : Prop := Prog.Uses (E := postgres) S x.run

theorem uses_pure (a : α) : Uses S (pure a) := trivial

theorem uses_throw (e : DbException) : Uses S (throw e : Txn α) := trivial

theorem Uses.bind {f : α → Txn β} (hx : x.Uses S) (hf : ∀ a, (f a).Uses S) :
    (x >>= f).Uses S := by
  refine Prog.Uses.bind (p := x.run) hx fun r => ?_
  match r with
  | .ok a => exact hf a
  | .error e => exact trivial

theorem Uses.tryCatch {handler : DbException → Txn α} (hx : x.Uses S)
    (hh : ∀ e, (handler e).Uses S) : (tryCatch x handler).Uses S := by
  refine Prog.Uses.bind (p := x.run) hx fun r => ?_
  match r with
  | .ok a => exact trivial
  | .error e => exact hh e

theorem uses_work : work.Uses S := fun _ => trivial

theorem uses_query {st : Statement} (h : S st) : (query st).Uses S :=
  ⟨h, fun rows => by cases rows <;> exact trivial⟩

theorem uses_field {ρ : Type} (rows : List ρ) (column : ρ → α) : (field rows column).Uses S := by
  rw [field]
  cases rows.head? with
  | none => exact trivial
  | some row => exact fun _ => trivial

theorem uses_commit : commit.Uses S := fun _ => trivial

theorem uses_orReturn {a : α} (h : x.Uses S) : (orReturn a x).Uses S := by
  refine Prog.Uses.bind h fun r => ?_
  match r with
  | .ok _ => exact trivial
  | .error _ => exact trivial

end Txn

open Txn

section Uses

variable {hashPassword : String → List UInt8} {S : Statement → Prop} {M : Type}

theorem uses_fillMessage (sets : List (M → M)) (m : M) :
    Prog.Uses (E := postgres) S (fillMessage sets m) := by
  induction sets generalizing m with
  | nil => trivial
  | cons set sets ih =>
    intro ok
    cases ok with
    | false => exact trivial
    | true => exact ih (set m)

theorem uses_fillResponse {ρ : Type} (empty : M) (setters : ρ → List (M → M)) (rows : List ρ)
    (filled : List M) : Prog.Uses (E := postgres) S (fillResponse empty setters rows filled) := by
  induction rows generalizing filled with
  | nil => trivial
  | cons row rows ih =>
    refine Prog.Uses.bind (uses_fillMessage _ _) fun r => ?_
    obtain ⟨m, ok⟩ := r
    cases ok with
    | false => exact trivial
    | true => exact ih _

theorem uses_readRows {st : Statement} (h : S st) (empty : M) (setters : st.Row → List (M → M)) :
    Prog.Uses (E := postgres) S (readRows st empty setters) := by
  refine Prog.Uses.bind (uses_work.bind fun _ => (uses_query h).bind fun rows =>
    uses_commit.bind fun _ => uses_pure rows) fun r => ?_
  match r with
  | .ok rows => exact uses_fillResponse empty setters rows []
  | .error _ => exact trivial

/-- The statements that a storage function executes. -/
def StorageCall.Executes : StorageCall → Statement → Prop
  | .registration .., .registration .. => True
  | .login .., .selectByEmail .. => True
  | .sendMessage .., .checkSenderAbleToWriteToChat .. => True
  | .sendMessage .., .sendMessage .. => True
  | .addContact .., .getUserByEmail .. => True
  | .addContact .., .addContact .. => True
  | .createChat .., .checkUsersHaveCommonChat .. => True
  | .createChat .., .createChat => True
  | .createChat .., .getInfo .. => True
  | .createChat .., .createChatConnection .. => True
  | .getChats .., .getChats .. => True
  | .getContacts .., .getContacts .. => True
  | .getMessages chatId, .getMessages chatId' => chatId' = chatId
  | _, _ => False

/-- The statements of every function, case by case. -/
theorem storageProg_uses (op : StorageCall) :
    Prog.Uses (E := postgres) op.Executes (storageProg hashPassword op) := by
  cases op with
  | registration name email password =>
    exact uses_orReturn (uses_work.bind fun _ => (uses_query trivial).bind fun _ =>
      uses_commit.bind fun _ => uses_pure _)
  | login email password =>
    refine Prog.Uses.bind (uses_work.bind fun _ => (uses_query trivial).bind fun r => ?_)
      fun result => ?_
    · split_ifs
      · exact uses_throw _
      · refine Txn.Uses.bind ?_ fun wrong => ?_
        · rw [wrongPassword]
          split_ifs
          · exact (uses_field _ _).bind fun _ => uses_pure _
          · exact uses_pure _
        · split_ifs
          · exact uses_throw _
          · exact (uses_field _ _).bind fun _ => (uses_field _ _).bind fun _ => uses_pure _
    · match result with
      | .ok _ | .error .invalidArgument | .error .database => exact trivial
  | sendMessage senderId mesg =>
    refine uses_orReturn (uses_work.bind fun _ => Txn.Uses.bind ?_ fun able => ?_)
    · exact ((uses_query trivial).bind fun _ => uses_pure _).tryCatch fun _ => uses_pure _
    · split_ifs
      · exact uses_throw _
      · exact (uses_query trivial).bind fun _ => uses_commit.bind fun _ => uses_pure _
  | addContact userId email =>
    refine uses_orReturn (uses_work.bind fun _ => (uses_query trivial).bind fun req => ?_)
    split_ifs
    · exact uses_pure _
    · exact (uses_field _ _).bind fun _ => (uses_query trivial).bind fun _ =>
        (uses_query trivial).bind fun _ => uses_commit.bind fun _ => uses_pure _
  | createChat userId userName friendId =>
    refine uses_orReturn (uses_work.bind fun _ => (uses_query trivial).bind fun req => ?_)
    split_ifs
    · exact uses_pure _
    · exact (uses_query trivial).bind fun _ => (uses_field _ _).bind fun _ =>
        (uses_query trivial).bind fun _ => (uses_field _ _).bind fun _ =>
        (uses_query trivial).bind fun _ => (uses_query trivial).bind fun _ =>
        uses_commit.bind fun _ => uses_pure _
  | getChats userId => exact uses_readRows trivial _ _
  | getContacts userId => exact uses_readRows trivial _ _
  | getMessages chatId =>
    have hst : (StorageCall.getMessages chatId).Executes (.getMessages chatId) := rfl
    exact uses_readRows hst _ _

end Uses

end Elegram
