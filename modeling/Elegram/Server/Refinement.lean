import Elegram.Server.Accounts
import Elegram.Server.Linearizability
import Elegram.Server.Messenger

/-!
# The server is a messenger

The abstract layer of the server: the tables of the database represent a `Messenger`, and each
call of the storage functions is an operation of it or a question to it (`Messenger.Serves`).
`explained_iff` states what this is worth to a user of the server: unless two users end up with
two chats, everything that the calls of any number of sessions have returned, whatever the
interleaving of their statements, is what a messenger would have returned that serves them one
after the other.
-/

namespace Elegram

open ReadCommitted Transition

/-- The messenger of the database. What a user presents is the hash of his password. -/
abbrev PgMessenger : Type := Messenger PgInt PgInt (List UInt8)

/-- The tables hold what the messenger knows, and each fact once. -/
structure Tables.Represents (t : Tables) (M : PgMessenger) : Prop where
  account : ∀ row, row ∈ t.client ↔ M.account row.id = some ⟨row.name, row.email, row.passwordHash⟩
  accounts : t.client.Nodup
  contact : ∀ row, row ∈ t.clientToContact ↔ M.contacts.Adj row.clientId row.friendId
  contacts : t.clientToContact.Nodup
  chat : ∀ c, c ∈ t.chat ↔ (M.room c).isSome
  member : ∀ row, row ∈ t.clientToChat ↔
    ∃ r, M.room row.chatId = some r ∧ row.clientId ∈ r.members ∧ r.title row.clientId = row.title
  members : t.clientToChat.Nodup
  transcript : ∀ c, t.messagesOf c = M.transcript c

/-! ### What the messenger answers -/

section Serves

variable (hashPassword : String → List UInt8) (limit : Sequences)

/-- What a call returns, and what the messenger is then. A number for a new user or chat may be
missing if all numbers up to `limit` have been drawn. -/
def Messenger.Serves (M M' : PgMessenger) : (op : StorageCall) → op.Result → Prop
  | .registration name email password, ok =>
      (ok = true ∧ ∃ u hu hemail,
        M' = M.register u ⟨name, email, hashPassword password⟩ hu hemail) ∨
      (ok = false ∧ M' = M ∧
        ((∃ u a, M.account u = some a ∧ a.email = email) ∨ 2 ^ 31 ≤ limit.client))
  | .login email password, result =>
      M' = M ∧
      (∀ user, result = .ok user ↔ ∃ u a, M.account u = some a ∧ a.email = email ∧
        a.key = hashPassword password ∧ user = (u.toUInt64, a.name)) ∧
      ∀ error, result = .error error → error = .invalidArgument
  | .addContact userId email, ok =>
      (ok = true ∧ ∃ u v a hu hv, u.toUInt64 = userId ∧ M.account v = some a ∧ a.email = email ∧
        u ≠ v ∧ ¬ M.contacts.Adj u v ∧ M' = M.befriend u v hu hv) ∨
      (ok = false ∧ M' = M ∧ ∀ u v a, u.toUInt64 = userId → (M.account u).isSome →
        M.account v = some a → a.email = email → u = v ∨ M.contacts.Adj u v)
  | .createChat userId userName friendId, ok =>
      (ok = true ∧ ∃ u v a c huv hu hv hc hnone, u.toUInt64 = userId ∧ v.toUInt64 = friendId ∧
        M.account v = some a ∧ M' = M.openRoom c u v huv hu hv hc hnone ("Chat with " ++ a.name)
          ("Chat with " ++ userName)) ∨
      (ok = false ∧ M' = M ∧ ((∀ u v, u.toUInt64 = userId → v.toUInt64 = friendId →
        (M.account u).isSome → (M.account v).isSome →
          ∃ c r, M.room c = some r ∧ r.members = s(u, v)) ∨ 2 ^ 31 ≤ limit.chat))
  | .sendMessage senderId mesg, ok =>
      (ok = true ∧ ∃ u c r hr hu, u.toUInt64 = senderId ∧ c.toUInt64 = mesg.chatId ∧
        M' = M.post c r u mesg.text hr hu) ∨
      (ok = false ∧ M' = M ∧ ∀ u c r, u.toUInt64 = senderId → c.toUInt64 = mesg.chatId →
        M.room c = some r → u ∉ r.members)
  | .getChats userId, response =>
      M' = M ∧ response.Nodup ∧ ∀ chat, chat ∈ response ↔ ∃ u, u.toUInt64 = userId ∧
        ∃ c r, M.room c = some r ∧ u ∈ r.members ∧ chat = ⟨c.toUInt64, r.title u⟩
  | .getContacts userId, response =>
      M' = M ∧ response.Nodup ∧ ∀ contact, contact ∈ response ↔ ∃ u, u.toUInt64 = userId ∧
        ∃ v a, M.contacts.Adj u v ∧ M.account v = some a ∧
          contact = ⟨v.toUInt64, a.name, a.email⟩
  | .getMessages chatId, response =>
      M' = M ∧
      (∀ c, c.toUInt64 = chatId →
        response.Perm ((M.transcript c).map fun m => ⟨m.1.toUInt64, m.2⟩)) ∧
      ((∀ c : PgInt, c.toUInt64 ≠ chatId) → response = [])

end Serves

/-! ### Representations -/

namespace Tables.Represents

variable {t : Tables} {M : PgMessenger} {u v c : PgInt}

theorem zero : (0 : Tables).Represents Messenger.empty where
  account := fun _ => ⟨fun h => (by cases h), fun h => (by cases h)⟩
  accounts := .nil
  contact := fun _ => ⟨fun h => (by cases h), fun h => h.elim⟩
  contacts := .nil
  chat := fun _ => ⟨fun h => (by cases h), fun h => (by cases h)⟩
  member := fun _ => ⟨fun h => (by cases h), fun ⟨_, h, _⟩ => (by cases h)⟩
  members := .nil
  transcript := fun _ => rfl

/-- Emails tell the rows of `Client` apart, since they tell the users apart. -/
theorem emails (h : t.Represents M) : (t.client.map ClientRow.email).Nodup := by
  refine List.Nodup.map_on (fun row hrow row' hrow' heq => ?_) h.accounts
  have hrow := (h.account row).mp hrow
  have hrow' := (h.account row').mp hrow'
  have hid := M.email_inj _ _ _ _ hrow hrow' heq
  rw [← hid, hrow, Option.some_inj, Account.mk.injEq] at hrow'
  cases row
  cases row'
  simp_all

/-- Who has a row has an account. -/
theorem isRegistered_iff (h : t.Represents M) : t.isRegistered u ↔ (M.account u).isSome := by
  rw [Tables.isRegistered, List.any_eq_true, Option.isSome_iff_exists]
  constructor
  · rintro ⟨row, hrow, hid⟩
    rw [← of_decide_eq_true hid]
    exact ⟨_, (h.account row).mp hrow⟩
  · rintro ⟨⟨name, email, key⟩, ha⟩
    exact ⟨⟨u, name, email, key⟩, (h.account _).mpr ha, by simp⟩

/-- Who has a row for a chat is a member of its room. -/
theorem member_iff (h : t.Represents M) :
    t.Member u c ↔ ∃ r, M.room c = some r ∧ u ∈ r.members := by
  constructor
  · rintro ⟨row, hrow, rfl, rfl⟩
    obtain ⟨r, hr, hu, -⟩ := (h.member row).mp hrow
    exact ⟨r, hr, hu⟩
  · rintro ⟨r, hr, hu⟩
    exact ⟨⟨u, c, r.title u⟩, (h.member _).mpr ⟨r, hr, hu, rfl⟩, rfl, rfl⟩

/-- The chat of two users. -/
theorem commonChats_eq_nil_iff (h : t.Represents M) (huv : u ≠ v) :
    t.commonChats u v = [] ↔ ∀ c r, M.room c = some r → r.members ≠ s(u, v) := by
  rw [Tables.commonChats_eq_nil_iff]
  constructor
  · intro hno c r hr heq
    refine hno c ⟨h.member_iff.mpr ⟨r, hr, ?_⟩, h.member_iff.mpr ⟨r, hr, ?_⟩⟩
    · rw [heq]
      exact Sym2.mem_mk_left u v
    · rw [heq]
      exact Sym2.mem_mk_right u v
  · rintro hno c ⟨hu, hv⟩
    obtain ⟨r, hr, hu⟩ := h.member_iff.mp hu
    obtain ⟨r', hr', hv⟩ := h.member_iff.mp hv
    cases hr.symm.trans hr'
    exact hno c r hr ((Sym2.mem_and_mem_iff huv).mp ⟨hu, hv⟩)

/-! Rows are added for each operation. -/

/-- A row of `Client` is an account. -/
theorem register (h : t.Represents M) {name email : String} {key : List UInt8}
    (hu : M.account u = none)
    (hemail : ∀ v b, M.account v = some b → b.email ≠ email) :
    (t + { (0 : Tables) with client := [⟨u, name, email, key⟩] }).Represents
      (M.register u ⟨name, email, key⟩ hu hemail) := by
  have hnew : ∀ row ∈ t.client, row.id ≠ u := by
    rintro row hrow rfl
    rw [(h.account row).mp hrow] at hu
    cases hu
  refine ⟨fun row => ?_, ?_, ?_, ?_, ?_, ?_, ?_, fun c => ?_⟩
  · rw [Tables.add_client, List.mem_append, List.mem_singleton, Messenger.account_register]
    split_ifs with hid
    · obtain ⟨id, name', email', key'⟩ := row
      dsimp only at hid
      subst hid
      have hno : ⟨id, name', email', key'⟩ ∉ t.client := fun hrow => hnew _ hrow rfl
      simp only [hno, false_or, ClientRow.mk.injEq, true_and, Option.some.injEq, Account.mk.injEq]
      tauto
    · rw [h.account]
      refine ⟨fun hrow => hrow.resolve_right ?_, .inl⟩
      rintro rfl
      exact hid rfl
  · rw [Tables.add_client, List.nodup_append]
    refine ⟨h.accounts, List.nodup_singleton _, fun row hrow row' hrow' heq => ?_⟩
    rw [heq, List.mem_singleton.mp hrow'] at hrow
    exact hnew _ hrow rfl
  · simpa using h.contact
  · simpa using h.contacts
  · simpa using h.chat
  · simpa using h.member
  · simpa using h.members
  · rw [Tables.messagesOf_add, h.transcript]
    exact List.append_nil _

/-- Two rows of `ClientToContact` are an edge. -/
theorem befriend (h : t.Represents M) (hu : (M.account u).isSome) (hv : (M.account v).isSome)
    (huv : u ≠ v) (hnew : ¬ M.contacts.Adj u v) :
    (t + { (0 : Tables) with clientToContact := [⟨u, v⟩, ⟨v, u⟩] }).Represents
      (M.befriend u v hu hv) := by
  refine ⟨?_, ?_, fun row => ?_, ?_, ?_, ?_, ?_, fun c => ?_⟩
  · simpa using h.account
  · simpa using h.accounts
  · obtain ⟨w, x⟩ := row
    simp only [Tables.add_clientToContact, List.mem_append, h.contact, List.mem_cons,
      ClientToContactRow.mk.injEq, List.not_mem_nil, or_false, Messenger.adj_befriend]
    refine or_congr_right ⟨fun hwx => ⟨hwx, ?_⟩, And.left⟩
    rcases hwx with ⟨rfl, rfl⟩ | ⟨rfl, rfl⟩
    · exact huv
    · exact huv.symm
  · have hold : ∀ row ∈ t.clientToContact, row ≠ ⟨u, v⟩ ∧ row ≠ ⟨v, u⟩ := by
      intro row hrow
      have hadj := (h.contact row).mp hrow
      refine ⟨?_, ?_⟩
      · rintro rfl
        exact hnew hadj
      · rintro rfl
        exact hnew hadj.symm
    rw [Tables.add_clientToContact, List.nodup_append]
    refine ⟨h.contacts, by simp [huv], fun row hrow row' hrow' heq => ?_⟩
    simp only [List.mem_cons, List.not_mem_nil, or_false] at hrow'
    rcases hrow' with rfl | rfl
    · exact (hold row hrow).1 heq
    · exact (hold row hrow).2 heq
  · simpa using h.chat
  · simpa using h.member
  · simpa using h.members
  · rw [Tables.messagesOf_add, h.transcript]
    exact List.append_nil _

/-- A chat with its two connections is a room. -/
theorem openRoom (h : t.Represents M) (huv : u ≠ v) (hu : (M.account u).isSome)
    (hv : (M.account v).isSome) (hc : M.room c = none)
    (hnone : ∀ d r, M.room d = some r → r.members ≠ s(u, v)) (titleU titleV : String) :
    (t + chatTables u v c titleU titleV).Represents
      (M.openRoom c u v huv hu hv hc hnone titleU titleV) := by
  have hold : ∀ row ∈ t.clientToChat, row.chatId ≠ c := by
    rintro row hrow rfl
    obtain ⟨r, hr, -⟩ := (h.member row).mp hrow
    rw [hc] at hr
    cases hr
  refine ⟨?_, ?_, ?_, ?_, fun d => ?_, fun row => ?_, ?_, fun d => ?_⟩
  · simpa [chatTables] using h.account
  · simpa [chatTables] using h.accounts
  · simpa [chatTables] using h.contact
  · simpa [chatTables] using h.contacts
  · rw [Messenger.room_openRoom, Tables.add_chat, List.mem_append, h.chat]
    split_ifs with hd
    · simp [chatTables, hd]
    · simp [chatTables, hd]
  · rw [Messenger.room_openRoom, Tables.add_clientToChat, List.mem_append]
    split_ifs with hd
    · obtain ⟨w, d, title⟩ := row
      dsimp only at hd
      subst hd
      have hno : ⟨w, d, title⟩ ∉ t.clientToChat := fun hrow => hold _ hrow rfl
      simp only [hno, false_or, chatTables, List.mem_cons, ClientToChatRow.mk.injEq, true_and,
        List.not_mem_nil, or_false, Option.some.injEq, exists_eq_left', Room.fresh, Sym2.mem_iff,
        Function.update_apply]
      constructor
      · rintro (⟨rfl, rfl⟩ | ⟨rfl, rfl⟩)
        · exact ⟨.inl rfl, if_pos rfl⟩
        · exact ⟨.inr rfl, if_neg huv.symm⟩
      · rintro ⟨rfl | rfl, htitle⟩
        · rw [if_pos rfl] at htitle
          exact .inl ⟨rfl, htitle.symm⟩
        · rw [if_neg huv.symm] at htitle
          exact .inr ⟨rfl, htitle.symm⟩
    · rw [h.member]
      refine ⟨fun hrow => hrow.resolve_right fun hnew => hd ?_, .inl⟩
      simp only [chatTables, List.mem_cons, List.not_mem_nil, or_false] at hnew
      rcases hnew with rfl | rfl <;> rfl
  · rw [Tables.add_clientToChat, List.nodup_append]
    refine ⟨h.members, by simp [chatTables, huv], fun row hrow row' hrow' heq => ?_⟩
    subst heq
    refine hold row hrow ?_
    simp only [chatTables, List.mem_cons, List.not_mem_nil, or_false] at hrow'
    rcases hrow' with rfl | rfl <;> rfl
  · rw [Tables.messagesOf_add, h.transcript, Messenger.transcript_openRoom]
    exact List.append_nil _

/-- A row of `Message` is a line of the transcript. -/
theorem post (h : t.Represents M) {r : Room PgInt} {text : String} (hr : M.room c = some r)
    (hu : u ∈ r.members) :
    (t + { (0 : Tables) with message := [⟨u, c, text⟩] }).Represents
      (M.post c r u text hr hu) := by
  refine ⟨?_, ?_, ?_, ?_, fun d => ?_, fun row => ?_, ?_, fun d => ?_⟩
  · simpa using h.account
  · simpa using h.accounts
  · simpa using h.contact
  · simpa using h.contacts
  · simp only [Tables.add_chat, Tables.zero_chat, List.append_nil, h.chat, Messenger.room_post]
    split_ifs with hd
    · simp [hd, hr]
    · rfl
  · simp only [Tables.add_clientToChat, Tables.zero_clientToChat, List.append_nil, h.member,
      Messenger.room_post]
    split_ifs with hd
    · simp [hd, hr, Room.write]
    · rfl
  · simpa using h.members
  · rw [Tables.messagesOf_add, h.transcript, Messenger.transcript_post]
    split_ifs with hd
    · simp [Tables.messagesOf, hd]
    · simp [Tables.messagesOf, Ne.symm hd]

end Tables.Represents

/-! ### Calls made alone -/

section Calls

open Txn

variable {hashPassword : String → List UInt8} {limit : Sequences} {t t' : Tables} {M : PgMessenger}

theorem calm_of_never {choices : ℕ → Choice} (h : ∀ n, choices n ≠ .fail) (n : ℕ) :
    Calm n choices := fun k _ => h k

/-- A registration registers, or is refused for the email. -/
theorem registration_serves {name email password : String} {ok : Bool} (h : t.Represents M)
    (hdoes : (StorageCall.registration name email password).Does hashPassword limit t ok t')
    (hkey : (t'.client.map ClientRow.id).Nodup) :
    ∃ M', t'.Represents M' ∧
      M.Serves hashPassword limit M' (.registration name email password) ok := by
  obtain ⟨seq, choices, c, hle, hcalm, hpost, rfl⟩ := hdoes.ensures fun seq choices _ =>
    storageProg_ensures hashPassword t seq choices (.registration name email password)
  rcases hpost with ⟨rfl, ⟨hsame, -⟩, hno⟩ | ⟨rfl, hnew, u, -, htables, -⟩
  · refine ⟨M, hsame ▸ h, .inr ⟨rfl, rfl, ?_⟩⟩
    by_contra hpossible
    rw [not_or, not_exists, Nat.not_le] at hpossible
    refine hno ⟨calm_of_never hcalm 3, Nat.lt_of_le_of_lt hle.1 hpossible.2, fun row hrow heq => ?_⟩
    exact hpossible.1 row.id ⟨_, (h.account row).mp hrow, heq⟩
  · rw [htables] at hkey ⊢
    have hu : M.account u = none := by
      cases ha : M.account u with
      | none => rfl
      | some a =>
        have hrow := (h.account ⟨u, a.name, a.email, a.key⟩).mpr ha
        simp only [Tables.add_client, List.map_append, List.map_cons, List.map_nil,
          List.nodup_append, List.mem_singleton, List.mem_map] at hkey
        exact absurd rfl (hkey.2.2 u ⟨_, hrow, rfl⟩ u rfl)
    have hemail : ∀ v b, M.account v = some b → b.email ≠ email := fun v b hb =>
      hnew ⟨v, b.name, b.email, b.key⟩ ((h.account _).mpr hb)
    exact ⟨_, h.register hu hemail, .inl ⟨rfl, u, hu, hemail, rfl⟩⟩

variable (hashPassword) in
/-- The answer of a login in which nothing fails of itself. -/
theorem login_alone {seq : Sequences} {choices : ℕ → Choice}
    (hemails : (t.client.map ClientRow.email).Nodup) (hcalm : ∀ n, choices n ≠ .fail)
    (email password : String) :
    (login hashPassword email password).Ensures (fun result c => c.tables = t ∧
      ∃ rows : List (PgInt × String × List UInt8),
        rows.Perm ((t.client.filter fun row => row.email = email).map fun row =>
          (row.id, row.name, row.passwordHash)) ∧
        result = loginAnswer hashPassword password rows) ⟨t, seq, some 0, choices⟩ := by
  refine ensures_run (ensures_bind (ensures_work (fun hfail => absurd hfail (hcalm _)) fun _ => ?_))
  refine ensures_bind (ensures_select rfl (fun hfail => ?_) fun _ rows stored hstored hperm => ?_)
  · rcases hfail with hfail | hfail
    · exact absurd hfail (hcalm _)
    · cases hfail
  rw [add_zero, Option.some_inj] at hstored
  subst hstored
  rcases rows with _ | ⟨row, _ | ⟨row', rest⟩⟩
  · exact ensures_throw ⟨rfl, _, hperm, rfl⟩
  · refine ensures_bind (wrongPassword_ensures (fun hfail => absurd hfail (hcalm _))
      fun wrong choices' hwrong => ?_)
    obtain ⟨rfl, rfl⟩ := hwrong row rfl
    split_ifs with hhash
    · refine ensures_throw ⟨rfl, _, hperm, ?_⟩
      rw [loginAnswer, if_neg (by simpa using hhash)]
      rfl
    · refine ensures_bind (ensures_field (fun h => by cases h)
        (fun hfail => absurd hfail (hcalm _)) fun _ first hfirst => ?_)
      refine ensures_bind (ensures_field (fun h => by cases h)
        (fun hfail => absurd hfail (hcalm _)) fun _ first' hfirst' => ensures_pure ?_)
      cases hfirst
      cases hfirst'
      refine ⟨rfl, _, hperm, ?_⟩
      rw [loginAnswer, if_pos (by simpa using hhash)]
      rfl
  · -- emails are unique
    have hlen := (loginAnswer_eq_ok hashPassword password hemails hperm).1
    simp at hlen

/-- A login tells who has the account. -/
theorem login_serves {email password : String} {result : Except LoginError (UInt64 × String)}
    (h : t.Represents M)
    (hdoes : (StorageCall.login email password).Does hashPassword limit t result t') :
    ∃ M', t'.Represents M' ∧ M.Serves hashPassword limit M' (.login email password) result := by
  obtain ⟨seq, choices, c, -, -, ⟨hsame, rows, hperm, rfl⟩, rfl⟩ := hdoes.ensures
    fun seq choices hcalm =>
      login_alone hashPassword h.emails hcalm email password
  obtain ⟨-, hok, herror⟩ := loginAnswer_eq_ok hashPassword password h.emails hperm
  refine ⟨M, hsame ▸ h, rfl, fun user => ?_, herror⟩
  rw [hok user]
  constructor
  · rintro ⟨row, hrow, hemail, hhash, rfl⟩
    exact ⟨row.id, _, (h.account row).mp hrow, hemail, hhash, rfl⟩
  · rintro ⟨u, a, ha, hemail, hhash, rfl⟩
    exact ⟨⟨u, a.name, a.email, a.key⟩, (h.account _).mpr ha, hemail, hhash, rfl⟩

/-- Adding a contact befriends the two. -/
theorem addContact_serves {userId : UInt64} {email : String} {ok : Bool} (h : t.Represents M)
    (hdoes : (StorageCall.addContact userId email).Does hashPassword limit t ok t') :
    ∃ M', t'.Represents M' ∧ M.Serves hashPassword limit M' (.addContact userId email) ok := by
  obtain ⟨seq, choices, c, -, -, hpost, rfl⟩ := hdoes.ensures fun seq choices hcalm =>
    addContact_alone h.emails hcalm userId email
  have hcan : ∀ u contact, t.CanAdd u contact ↔ contact ∈ t.client ∧ (M.account u).isSome ∧
      u ≠ contact.id ∧ ¬ M.contacts.Adj u contact.id := by
    intro u contact
    rw [Tables.CanAdd, h.isRegistered_iff, h.contact, h.contact]
    simp only [SimpleGraph.adj_comm M.contacts contact.id u, and_self]
  rcases hpost with ⟨rfl, hsame, hno⟩ | ⟨rfl, u, contact, hu, hemail, hpossible, htables⟩
  · refine ⟨M, hsame ▸ h, .inr ⟨rfl, rfl, fun u v a hu hreg ha hemail => ?_⟩⟩
    have hrow := (h.account ⟨v, a.name, a.email, a.key⟩).mpr ha
    have hnot := hno u ⟨v, a.name, a.email, a.key⟩ (hu ▸ PgInt.ofUInt64?_toUInt64 u) hemail
    rw [hcan] at hnot
    by_contra hneither
    rw [not_or] at hneither
    exact hnot ⟨hrow, hreg, hneither.1, hneither.2⟩
  · obtain ⟨hrow, hreg, hne, hnew⟩ := (hcan u contact).mp hpossible
    have ha := (h.account contact).mp hrow
    have hv : (M.account contact.id).isSome := by rw [ha]; rfl
    rw [htables]
    exact ⟨_, h.befriend hreg hv hne hnew, .inl ⟨rfl, u, contact.id, _, hreg, hv,
      PgInt.toUInt64_of_eq_some hu, ha, hemail, hne, hnew, rfl⟩⟩

/-- Creating a chat opens a room. -/
theorem createChat_serves {userId friendId : UInt64} {userName : String} {ok : Bool}
    (h : t.Represents M) (hother : userId ≠ friendId)
    (hdoes : (StorageCall.createChat userId userName friendId).Does hashPassword limit t ok t')
    (hkey : t'.chat.Nodup) :
    ∃ M', t'.Represents M' ∧
      M.Serves hashPassword limit M' (.createChat userId userName friendId) ok := by
  obtain ⟨seq, choices, c, hle, hcalm, hpost, rfl⟩ := hdoes.ensures fun seq choices _ =>
    createChat_ensures userId userName friendId
  rcases hpost with ⟨rfl, ⟨hsame, -⟩, hno⟩ | ⟨rfl, -, -, u, v, chat, row, hu, hv, hcan, hrow,
    hid, -, htables, -⟩
  · refine ⟨M, hsame ▸ h, .inr ⟨rfl, rfl, ?_⟩⟩
    by_contra hpossible
    rw [not_or, Nat.not_le] at hpossible
    obtain ⟨hpossible, hlt⟩ := hpossible
    push Not at hpossible
    obtain ⟨u, v, hu, hv, hregu, hregv, hnone⟩ := hpossible
    have huv : u ≠ v := by
      rintro rfl
      exact hother (hu.symm.trans hv)
    refine hno ⟨calm_of_never hcalm 9, Nat.lt_of_le_of_lt hle.2 hlt, u, v,
      hu ▸ PgInt.ofUInt64?_toUInt64 u, hv ▸ PgInt.ofUInt64?_toUInt64 v, ?_, ?_, ?_⟩
    · exact (h.commonChats_eq_nil_iff huv).mpr hnone
    · exact h.isRegistered_iff.mpr hregu
    · exact h.isRegistered_iff.mpr hregv
  · subst hid
    have hu := PgInt.toUInt64_of_eq_some hu
    have hv := PgInt.toUInt64_of_eq_some hv
    have huv : u ≠ row.id := by
      rintro rfl
      exact hother (hu.symm.trans hv)
    obtain ⟨hcommon, hregu, hregv⟩ := hcan
    have hnone := (h.commonChats_eq_nil_iff huv).mp hcommon
    rw [htables] at hkey ⊢
    have hc : M.room chat = none := by
      rw [← Option.not_isSome_iff_eq_none, ← h.chat]
      intro hmem
      simp only [Tables.add_chat, chatRows, List.nodup_append, List.mem_singleton] at hkey
      exact hkey.2.2 chat hmem chat rfl rfl
    have hregu := h.isRegistered_iff.mp hregu
    have hregv := h.isRegistered_iff.mp hregv
    exact ⟨_, h.openRoom huv hregu hregv hc hnone _ _, .inl ⟨rfl, u, row.id, _, chat, huv, hregu,
      hregv, hc, hnone, hu, hv, (h.account row).mp hrow, rfl⟩⟩

/-- Sending a message posts it. -/
theorem sendMessage_serves {senderId : UInt64} {mesg : MessageToSend} {ok : Bool}
    (h : t.Represents M)
    (hdoes : (StorageCall.sendMessage senderId mesg).Does hashPassword limit t ok t') :
    ∃ M', t'.Represents M' ∧ M.Serves hashPassword limit M' (.sendMessage senderId mesg) ok := by
  obtain ⟨seq, choices, c, -, hcalm, hpost, rfl⟩ := hdoes.ensures fun seq choices _ =>
    sendMessage_ensures senderId mesg
  rcases hpost with ⟨rfl, ⟨hsame, -⟩, hno⟩ | ⟨rfl, u, chat, hu, hc, hcan, htables, -⟩
  · refine ⟨M, hsame ▸ h, .inr ⟨rfl, rfl, fun u c r hu hc hr hmem => hno ?_⟩⟩
    refine ⟨calm_of_never hcalm 4, u, c, hu ▸ PgInt.ofUInt64?_toUInt64 u,
      hc ▸ PgInt.ofUInt64?_toUInt64 c, h.member_iff.mpr ⟨r, hr, hmem⟩, ?_, ?_⟩
    · exact h.isRegistered_iff.mpr (M.account_of_member c r u hr hmem)
    · have hchat : c ∈ t.chat := (h.chat c).mpr (by rw [hr]; rfl)
      exact List.any_eq_true.mpr ⟨c, hchat, by simp⟩
  · obtain ⟨r, hr, hmem⟩ := h.member_iff.mp hcan.1
    rw [htables]
    exact ⟨_, h.post hr hmem, .inl ⟨rfl, u, chat, r, hr, hmem, PgInt.toUInt64_of_eq_some hu,
      PgInt.toUInt64_of_eq_some hc, rfl⟩⟩

/-! Reading. -/

/-- The rows for an identifier are returned, and none if it cannot be one of the database. -/
theorem ReadPost.perm {ρ α : Type} {x : UInt64} {f : Tables → PgInt → List ρ} {empty : α}
    {setters : ρ → List (α → α)} {seq : Sequences} {choices : ℕ → Choice} {response : List α}
    {c : Conn postgres} (h : ReadPost (fun t => (PgInt.ofUInt64? x).map (f t)) empty setters t
      seq choices response c) (hcalm : ∀ n, choices n ≠ .fail) :
    c.tables = t ∧
    (∀ u, u.toUInt64 = x →
      response.Perm ((f t u).map fun row => fullMessage empty (setters row))) ∧
    ((∀ u : PgInt, u.toUInt64 ≠ x) → response = []) := by
  obtain ⟨⟨hsame, -⟩, hempty, hfull⟩ := h
  refine ⟨hsame, ?_, fun hno => ?_⟩
  · rintro u rfl
    exact hfull _ (calm_of_never hcalm) (by rw [PgInt.ofUInt64?_toUInt64]; rfl)
  · refine hempty.resolve_right ?_
    rintro ⟨stored, -, hstored, -⟩
    obtain ⟨u, hu, -⟩ := Option.map_eq_some_iff.mp hstored
    exact hno u (PgInt.toUInt64_of_eq_some hu)

/-- A response that lists everything of a kind once. -/
theorem listing_of_perm {α : Type} {x : UInt64} {response : List α} {items : PgInt → List α}
    {P : PgInt → α → Prop} (hperm : ∀ u, u.toUInt64 = x → response.Perm (items u))
    (hnone : (∀ u : PgInt, u.toUInt64 ≠ x) → response = [])
    (hitems : ∀ u, (items u).Nodup ∧ ∀ a, a ∈ items u ↔ P u a) :
    response.Nodup ∧ ∀ a, a ∈ response ↔ ∃ u, u.toUInt64 = x ∧ P u a := by
  by_cases hx : ∃ u : PgInt, u.toUInt64 = x
  · obtain ⟨u, hu⟩ := hx
    have hp := hperm u hu
    refine ⟨hp.nodup_iff.mpr (hitems u).1, fun a => ?_⟩
    rw [hp.mem_iff, (hitems u).2]
    refine ⟨fun ha => ⟨u, hu, ha⟩, ?_⟩
    rintro ⟨u', hu', ha⟩
    rwa [PgInt.toUInt64_injective (hu'.trans hu.symm)] at ha
  · rw [not_exists] at hx
    rw [hnone hx]
    refine ⟨.nil, fun a => ⟨fun ha => (by cases ha), ?_⟩⟩
    rintro ⟨u, hu, -⟩
    exact absurd hu (hx u)

theorem Tables.Represents.chatsOf (h : t.Represents M) (u : PgInt) :
    ((t.chatsOf u).map fun row =>
      fullMessage { chatId := 0, title := "" } (chatSetters row)).Nodup ∧
    ∀ chat, chat ∈ ((t.chatsOf u).map fun row =>
        fullMessage { chatId := 0, title := "" } (chatSetters row)) ↔
      ∃ c r, M.room c = some r ∧ u ∈ r.members ∧ chat = ⟨c.toUInt64, r.title u⟩ := by
  rw [Tables.chatsOf, List.map_map]
  refine ⟨List.Nodup.map_on (fun row hrow row' hrow' heq => ?_) (h.members.filter _),
    fun chat => ?_⟩
  · have hrow := (List.mem_filter.mp hrow).2
    have hrow' := (List.mem_filter.mp hrow').2
    obtain ⟨u₁, c₁, title₁⟩ := row
    obtain ⟨u₂, c₂, title₂⟩ := row'
    simp only [Function.comp_apply, fullMessage, chatSetters, List.foldl_cons, List.foldl_nil,
      Chat.mk.injEq, decide_eq_true_eq] at heq hrow hrow'
    rw [hrow, hrow', PgInt.toUInt64_injective heq.1, heq.2]
  · simp only [List.mem_map, Tables.memberships, List.mem_filter, h.member, decide_eq_true_eq]
    constructor
    · rintro ⟨row, ⟨⟨r, hr, hmem, htitle⟩, rfl⟩, rfl⟩
      exact ⟨row.chatId, r, hr, hmem, by rw [htitle]; rfl⟩
    · rintro ⟨c, r, hr, hmem, rfl⟩
      exact ⟨⟨u, c, r.title u⟩, ⟨⟨r, hr, hmem, rfl⟩, rfl⟩, rfl⟩

theorem Tables.Represents.contactsOf (h : t.Represents M) (u : PgInt) :
    ((t.contacts u).map fun row =>
      fullMessage { userId := 0, name := "", email := "" } (contactSetters row)).Nodup ∧
    ∀ contact, contact ∈ ((t.contacts u).map fun row =>
        fullMessage { userId := 0, name := "", email := "" } (contactSetters row)) ↔
      ∃ v a, M.contacts.Adj u v ∧ M.account v = some a ∧
        contact = ⟨v.toUInt64, a.name, a.email⟩ := by
  refine ⟨List.Nodup.map ?_ ?_, fun contact => ?_⟩
  · intro row row' heq
    obtain ⟨id, name, email⟩ := row
    obtain ⟨id', name', email'⟩ := row'
    simp only [fullMessage, contactSetters, List.foldl_cons, List.foldl_nil,
      Contact.mk.injEq] at heq
    rw [PgInt.toUInt64_injective heq.1, heq.2.1, heq.2.2]
  · -- a row of the relation for each account, and the accounts differ in their emails
    refine List.nodup_flatMap.mpr ⟨fun row _ => ?_, ?_⟩
    · refine List.Nodup.map_on (fun contact hc contact' hc' _ => ?_) (h.contacts.filter _)
      have hc := (List.mem_filter.mp hc).2
      have hc' := (List.mem_filter.mp hc').2
      obtain ⟨a, b⟩ := contact
      obtain ⟨a', b'⟩ := contact'
      simp only [decide_eq_true_eq] at hc hc'
      rw [hc.1, hc'.1, ← hc.2, ← hc'.2]
    · refine (List.pairwise_map.mp h.emails).imp fun {row row'} hne => ?_
      rw [Function.onFun, List.disjoint_left]
      intro item hitem hitem'
      obtain ⟨_, -, rfl⟩ := List.mem_map.mp hitem
      obtain ⟨_, -, heq⟩ := List.mem_map.mp hitem'
      simp only [Prod.mk.injEq] at heq
      exact hne heq.2.2.symm
  · simp only [Tables.contacts, List.mem_map, List.mem_flatMap, List.mem_filter, h.contact,
      decide_eq_true_eq]
    constructor
    · rintro ⟨_, ⟨row, hrow, contact, ⟨hadj, rfl, hid⟩, rfl⟩, rfl⟩
      exact ⟨row.id, _, hid ▸ hadj, (h.account row).mp hrow, rfl⟩
    · rintro ⟨v, a, hadj, ha, rfl⟩
      exact ⟨_, ⟨⟨v, a.name, a.email, a.key⟩, (h.account _).mpr ha, ⟨u, v⟩, ⟨hadj, rfl, rfl⟩, rfl⟩,
        rfl⟩

/-- **A call is an operation of the messenger**, or a question to it. -/
theorem StorageCall.Does.serves {op : StorageCall} {result : op.Result} (h : t.Represents M)
    (hdoes : op.Does hashPassword limit t result t') (hother : StorageMachine.InvitesOther op)
    (hclients : (t'.client.map ClientRow.id).Nodup) (hchats : t'.chat.Nodup) :
    ∃ M', t'.Represents M' ∧ M.Serves hashPassword limit M' op result := by
  cases op with
  | registration name email password => exact registration_serves h hdoes hclients
  | login email password => exact login_serves h hdoes
  | addContact userId email => exact addContact_serves h hdoes
  | createChat userId userName friendId => exact createChat_serves h hother hdoes hchats
  | sendMessage senderId mesg => exact sendMessage_serves h hdoes
  | getChats userId =>
    obtain ⟨seq, choices, c, -, hcalm, hpost, rfl⟩ := hdoes.ensures fun seq choices _ =>
      storageProg_ensures hashPassword t seq choices (.getChats userId)
    obtain ⟨hsame, hperm, hnone⟩ := ReadPost.perm (f := Tables.chatsOf) hpost hcalm
    exact ⟨M, hsame ▸ h, rfl, listing_of_perm hperm hnone h.chatsOf⟩
  | getContacts userId =>
    obtain ⟨seq, choices, c, -, hcalm, hpost, rfl⟩ := hdoes.ensures fun seq choices _ =>
      storageProg_ensures hashPassword t seq choices (.getContacts userId)
    obtain ⟨hsame, hperm, hnone⟩ := ReadPost.perm (f := Tables.contacts) hpost hcalm
    exact ⟨M, hsame ▸ h, rfl, listing_of_perm hperm hnone h.contactsOf⟩
  | getMessages chatId =>
    obtain ⟨seq, choices, c, -, hcalm, hpost, rfl⟩ := hdoes.ensures fun seq choices _ =>
      storageProg_ensures hashPassword t seq choices (.getMessages chatId)
    obtain ⟨hsame, hperm, hnone⟩ := ReadPost.perm (f := Tables.messagesOf) hpost hcalm
    exact ⟨M, hsame ▸ h, rfl, fun c hc => h.transcript c ▸ hperm c hc, hnone⟩

end Calls

/-! ### Runs -/

namespace StorageMachine

variable {hashPassword : String → List UInt8} {limit : Sequences} {m : StorageMachine}
  {es : List (Machine.Event StorageCall)} {M M' : PgMessenger} {order : List ℕ}

/-- The messenger has served the calls of a list one after the other, with the results that they
have in `m`. -/
inductive Served (hashPassword : String → List UInt8) (limit : Sequences) (m : StorageMachine) :
    PgMessenger → List ℕ → PgMessenger → Prop
  | nil (M : PgMessenger) : Served hashPassword limit m M [] M
  | cons {M M' M'' : PgMessenger} {i : ℕ}
      {t : Transaction postgres StorageCall ((op : StorageCall) × op.Result)} {op : StorageCall}
      {result : op.Result} {order : List ℕ} (ht : m.txns[i]? = some t)
      (hret : t.prog = .ret ⟨op, result⟩) (hserves : M.Serves hashPassword limit M' op result)
      (h : Served hashPassword limit m M' order M'') :
      Served hashPassword limit m M (i :: order) M''

variable (hashPassword) in
/-- A messenger that serves the calls one after the other explains what they have returned and what
the database holds. -/
structure Explains (es : List (Machine.Event StorageCall)) (m : StorageMachine) (order : List ℕ)
    (M : PgMessenger) : Prop where
  nodup : order.Nodup
  mem : ∀ i, i ∈ order ↔ m.Undisturbed es i
  realTime : order.Pairwise fun i j =>
    ¬ Machine.ReturnsBefore (storageBody hashPassword) (Machine.initial .initial) es j i
  served : Served hashPassword m.sequences m .empty order M
  represents : m.tables.Represents M

/-- Calls made one after the other are operations of the messenger. -/
theorem served_of_oneByOne {t t' : postgres.Tables}
    (h : Machine.OneByOne (fun op => op.contract hashPassword limit) m t order t')
    (hothers : ∀ t ∈ m.txns, InvitesOther t.label) (hrep : Tables.Represents t M)
    (hclients : ((Tables.client t').map ClientRow.id).Nodup) (hchats : (Tables.chat t').Nodup) :
    ∃ M', Served hashPassword limit m M order M' ∧ Tables.Represents t' M' := by
  induction h generalizing M with
  | nil t => exact ⟨M, .nil M, hrep⟩
  | cons ht hret hdoes hrest ih =>
    obtain ⟨result, rfl, hdoes⟩ := hdoes
    -- the rows at the end are those of now and others
    have hext := extends_of_oneByOne hrest
    obtain ⟨M', hrep', hserves⟩ := hdoes.serves hrep (hothers _ (List.mem_of_getElem? ht))
      (by
        obtain ⟨more, rfl⟩ := hext
        rw [Tables.add_client, List.map_append] at hclients
        exact hclients.of_append_left)
      (by
        obtain ⟨more, rfl⟩ := hext
        rw [Tables.add_chat] at hchats
        exact hchats.of_append_left)
    obtain ⟨M'', hserved, hrep''⟩ := ih hrep' hclients hchats
    exact ⟨M'', .cons ht hret hserves hserved, hrep''⟩

/-- Two users of a messenger have at most one room. -/
theorem atMostOneChat_of_represents (h : m.tables.Represents M) : m.AtMostOneChat := by
  intro a b c d hne hac hbc had hbd
  obtain ⟨r, hr, hac⟩ := h.member_iff.mp hac
  obtain ⟨r', hr', hbc⟩ := h.member_iff.mp hbc
  obtain ⟨s, hs, had⟩ := h.member_iff.mp had
  obtain ⟨s', hs', hbd⟩ := h.member_iff.mp hbd
  cases hr.symm.trans hr'
  cases hs.symm.trans hs'
  refine M.room_inj c d r s hr hs ?_
  rw [(Sym2.mem_and_mem_iff hne).mp ⟨hac, hbc⟩, (Sym2.mem_and_mem_iff hne).mp ⟨had, hbd⟩]

theorem exists_explains (hashPassword : String → List UInt8)
    (hrun : run (Machine.step (storageBody hashPassword)) (Machine.initial .initial) es = some m)
    (hothers : ∀ op, Machine.Event.call op ∈ es → InvitesOther op) (hone : m.AtMostOneChat) :
    ∃ order M, m.Explains hashPassword es order M := by
  have hno : EachStep (Machine.step (storageBody hashPassword)) StillNoChat
      (Machine.initial .initial) es :=
    eachStep_stillNoChat hothers initial_invariant (fun _ ht => by cases ht)
      (always_atMostOneChat_of_run hrun hone)
  obtain ⟨order, h⟩ := Machine.exists_linearization (fun op => storageBody_meets op)
    (always_holding hrun) (hno.mono fun _ _ he => he.permitted) hrun
  have hschema := reachable_schema ⟨es, hrun⟩
  obtain ⟨M, hserved, hrep⟩ := served_of_oneByOne h.oneByOne
    (Machine.label_of_run hrun (fun _ ht => by cases ht) hothers) .zero hschema.clientKey
    hschema.chatKey
  exact ⟨order, M, h.nodup, h.mem, h.realTime, hserved, hrep⟩

/-- **The server is a messenger**, as long as no two users have two chats. -/
theorem explained_iff (hashPassword : String → List UInt8)
    (hrun : run (Machine.step (storageBody hashPassword)) (Machine.initial .initial) es = some m)
    (hothers : ∀ op, Machine.Event.call op ∈ es → InvitesOther op) :
    (∃ order M, m.Explains hashPassword es order M) ↔ m.AtMostOneChat :=
  ⟨fun ⟨_, _, h⟩ => atMostOneChat_of_represents h.represents,
    exists_explains hashPassword hrun hothers⟩

/-- A messenger explains the late invitation. -/
theorem explained_lateInvitation : ∃ m : StorageMachine,
    run (Machine.step (storageBody fun _ => [])) (Machine.initial .initial) lateInvitation =
      some m ∧ ∃ order M, m.Explains (fun _ => []) lateInvitation order M := by
  obtain ⟨m, hm, hone⟩ := run_lateInvitation
  exact ⟨m, hm, (explained_iff _ hm invitesOther_lateInvitation).mpr hone⟩

end StorageMachine

end Elegram
