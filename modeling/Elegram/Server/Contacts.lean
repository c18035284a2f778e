import Elegram.Server.StorageMachine

/-!
# Contacts

The relation that `ClientToContact` holds. `add_contact` inserts both directions in one
transaction, so the committed relation is symmetric at any time, whatever is aborted and however
calls are interleaved. That nobody is his own contact is left to the second insertion, which
violates the `UNIQUE` constraint. `reachable_contactsSound` adds what this means for
`get_contacts`, and that the contacts are those for whom a call has returned true.
-/

namespace Elegram

open ReadCommitted Transition

/-! ### What `get_contacts` lists -/

/-- `contacts` is the result of a call of `get_contacts` in which nothing fails. -/
def ListsContacts (t : Tables) (seq : Sequences) (userId : UInt64) (contacts : List Contact) :
    Prop :=
  ∃ choices, (∀ n, Calm n choices) ∧
    ((getContacts userId).eval ⟨t, seq, some 0, choices⟩).1 = contacts

namespace Tables

variable {t : Tables}

/-- The join lists a contact once for each account and each row of the relation. -/
theorem countP_contacts (t : Tables) (a b : PgInt) :
    (t.contacts a).countP (fun row => row.1 = b) =
      (t.client.map ClientRow.id).count b * t.clientToContact.count ⟨a, b⟩ := by
  have hrow : ∀ row : ClientRow,
      ((t.clientToContact.filter fun contact =>
        contact.clientId = a ∧ row.id = contact.friendId).map fun _ =>
          (row.id, row.name, row.email)).countP (fun row => decide (row.1 = b)) =
      if row.id = b then t.clientToContact.count ⟨a, b⟩ else 0 := by
    intro row
    rw [List.countP_map]
    split_ifs with hid
    · rw [List.countP_filter, List.count_eq_countP]
      refine List.countP_congr fun contact _ => ?_
      obtain ⟨c, d⟩ := contact
      simp only [Function.comp_apply, hid, decide_true, Bool.true_and, decide_eq_true_eq,
        beq_iff_eq, ClientToContactRow.mk.injEq]
      exact and_congr_right fun _ => eq_comm
    · rw [List.countP_eq_zero]
      intro contact _
      simpa using hid
  simp only [contacts, List.countP_flatMap]
  generalize t.client = clients
  induction clients with
  | nil => simp
  | cons row clients ih =>
    simp only [List.map_cons, List.sum_cons, Function.comp_apply, hrow, ih, List.count_cons,
      beq_iff_eq]
    split_ifs with hid
    · rw [Nat.add_mul, Nat.one_mul, Nat.add_comm]
    · rw [Nat.zero_add, Nat.add_zero]

theorem Integrity.countP_contacts (h : t.Integrity) (hids : (t.client.map ClientRow.id).Nodup)
    (a b : PgInt) : (t.contacts a).countP (fun row => row.1 = b) =
      if ⟨a, b⟩ ∈ t.clientToContact then 1 else 0 := by
  rw [Tables.countP_contacts]
  split_ifs with hmem
  · have hfriend : b ∈ t.client.map ClientRow.id := by
      obtain ⟨row, hrow, hid⟩ := List.any_eq_true.mp (h.contactClients _ hmem).2
      exact List.mem_map.mpr ⟨row, hrow, of_decide_eq_true hid⟩
    rw [List.count_eq_one_of_mem hids hfriend, List.count_eq_one_of_mem h.contacts hmem]
  · rw [List.count_eq_zero_of_not_mem hmem, Nat.mul_zero]

end Tables

/-- A listed contact is a row of the relation. -/
theorem ListsContacts.countP {t : Tables} {seq : Sequences} {userId : UInt64}
    {contacts : List Contact} (h : ListsContacts t seq userId contacts) (hintegrity : t.Integrity)
    (hids : (t.client.map ClientRow.id).Nodup) (v : UInt64) :
    contacts.countP (fun contact => contact.userId = v) ≤ 1 ∧
    (contacts.countP (fun contact => contact.userId = v) = 1 ↔ ∃ a b,
      PgInt.ofUInt64? userId = some a ∧ PgInt.ofUInt64? v = some b ∧
        ⟨a, b⟩ ∈ t.clientToContact) := by
  obtain ⟨choices, hcalm, rfl⟩ := h
  obtain ⟨-, hempty, hfull⟩ : ReadPost (fun t => (PgInt.ofUInt64? userId).map t.contacts)
      (⟨0, "", ""⟩ : Contact) contactSetters t seq choices
      ((getContacts userId).eval ⟨t, seq, some 0, choices⟩).1
      ((getContacts userId).eval ⟨t, seq, some 0, choices⟩).2 :=
    storageProg_ensures (fun _ => []) t seq choices (.getContacts userId)
  generalize ((getContacts userId).eval ⟨t, seq, some 0, choices⟩).1 = contacts at hempty hfull
  cases huser : PgInt.ofUInt64? userId with
  | none =>
    have hnil : contacts = [] := by
      rcases hempty with hempty | ⟨stored, _, hrows, -⟩
      · exact hempty
      · rw [huser] at hrows
        cases hrows
    rw [hnil]
    refine ⟨Nat.zero_le _, ⟨fun h => (by cases h), ?_⟩⟩
    rintro ⟨a, b, ha, -⟩
    cases ha
  | some a =>
    have hperm := hfull (t.contacts a) hcalm (by rw [huser]; rfl)
    rw [hperm.countP_eq, List.countP_map]
    have hsame : (t.contacts a).countP ((fun contact : Contact => decide (contact.userId = v)) ∘
        fun row => fullMessage { userId := 0, name := "", email := "" } (contactSetters row)) =
        (t.contacts a).countP fun row => row.1.toUInt64 = v := rfl
    rw [hsame]
    cases hv : PgInt.ofUInt64? v with
    | none =>
      have hzero : (t.contacts a).countP (fun row => row.1.toUInt64 = v) = 0 := by
        refine List.countP_eq_zero.mpr fun row _ heq => ?_
        rw [← of_decide_eq_true heq, PgInt.ofUInt64?_toUInt64] at hv
        cases hv
      rw [hzero]
      refine ⟨Nat.zero_le _, ⟨fun h => (by cases h), ?_⟩⟩
      rintro ⟨_, b, -, hb, -⟩
      cases hb
    | some b =>
      have hcount : (t.contacts a).countP (fun row => row.1.toUInt64 = v) =
          (t.contacts a).countP fun row => row.1 = b := by
        refine List.countP_congr fun row _ => ?_
        rw [← PgInt.toUInt64_of_eq_some hv, decide_eq_true_iff, decide_eq_true_iff]
        exact PgInt.toUInt64_injective.eq_iff
      rw [hcount, hintegrity.countP_contacts hids]
      split_ifs with hmem
      · exact ⟨Nat.le_refl _, ⟨fun _ => ⟨a, b, rfl, rfl, hmem⟩, fun _ => rfl⟩⟩
      · refine ⟨Nat.zero_le _, ⟨fun h => (by cases h), ?_⟩⟩
        rintro ⟨_, _, ha, hb, hrow⟩
        cases ha
        cases hb
        exact absurd hrow hmem

/-! ### The relation -/

namespace StorageMachine

variable {hashPassword : String → List UInt8} {m : StorageMachine}

/-- A call of `add_contact` for the client `a`, with the email of the client `b`, has returned
true. -/
def AddedContact (m : StorageMachine) (a b : PgInt) : Prop :=
  ∃ t ∈ m.txns, ∃ userId email, t.prog = .ret ⟨.addContact userId email, true⟩ ∧
    PgInt.ofUInt64? userId = some a ∧ ∃ row ∈ m.tables.client, row.email = email ∧ row.id = b

/-- What the relation is like, and what `get_contacts` shows of it. -/
structure ContactsSound (m : StorageMachine) : Prop where
  symmetric : ∀ a b, ⟨a, b⟩ ∈ m.tables.clientToContact → ⟨b, a⟩ ∈ m.tables.clientToContact
  irreflexive : ∀ a, ⟨a, a⟩ ∉ m.tables.clientToContact
  nodup : m.tables.clientToContact.Nodup
  /-- One lists the other exactly once, or neither lists the other. -/
  listed : ∀ u v contacts contacts', ListsContacts m.tables m.sequences u contacts →
    ListsContacts m.tables m.sequences v contacts' →
    (contacts.countP (fun contact => contact.userId = v) = 1 ↔
      contacts'.countP (fun contact => contact.userId = u) = 1)
  atMostOnce : ∀ u v contacts, ListsContacts m.tables m.sequences u contacts →
    contacts.countP (fun contact => contact.userId = v) ≤ 1
  notOwn : ∀ u contacts, ListsContacts m.tables m.sequences u contacts →
    ∀ contact ∈ contacts, contact.userId ≠ u
  added : ∀ a b, ⟨a, b⟩ ∈ m.tables.clientToContact ↔ m.AddedContact a b ∨ m.AddedContact b a

theorem mem_clientToContact {row : ClientToContactRow} :
    row ∈ m.tables.clientToContact ↔ ∃ c ∈ m.commits, row ∈ c.rows.clientToContact := by
  rw [Machine.tables, column_tablesOf (E := postgres) (f := Tables.clientToContact) rfl
    (fun _ _ => rfl), List.mem_flatMap]

/-- A row of the relation has been committed by a call of `add_contact`, together with its
mirror image. -/
theorem exists_addContact (h : Reachable (Machine.step (storageBody hashPassword))
      (Machine.initial .initial) m) {c : Commit postgres StorageCall} (hc : c ∈ m.commits)
    {row : ClientToContactRow} (hrow : row ∈ c.rows.clientToContact) :
    ∃ userId email user friend, c.label = .addContact userId email ∧
      PgInt.ofUInt64? userId = some user ∧ friend ∈ m.tables.client ∧ friend.email = email ∧
      user ≠ friend.id ∧ c.rows.clientToContact = [⟨user, friend.id⟩, ⟨friend.id, user⟩] := by
  have hwrites := commit_writes h hc
  rcases hwrites.kind.2.2 with hnone | ⟨userId, email, hlabel⟩
  · rw [hnone] at hrow
    cases hrow
  rw [hlabel] at hwrites
  obtain ⟨user, friend, huser, hfriend, hemail, hne, hrows⟩ := hwrites
  exact ⟨userId, email, user, friend, hlabel, huser, hfriend, hemail, hne, by rw [hrows]⟩

/-- A call that has returned true has committed both rows. -/
theorem mem_of_addedContact (h : Reachable (Machine.step (storageBody hashPassword))
      (Machine.initial .initial) m) {a b : PgInt} (hadded : m.AddedContact a b) :
    ⟨a, b⟩ ∈ m.tables.clientToContact ∧ ⟨b, a⟩ ∈ m.tables.clientToContact := by
  obtain ⟨es, hrun⟩ := h
  obtain ⟨t, ht, userId, email, hprog, huser, row, hrow, hemail, rfl⟩ := hadded
  obtain ⟨i, hi⟩ := List.getElem?_of_mem ht
  obtain ⟨-, committed, houtcome, hcommitted⟩ := outcome_of_run hrun hi hprog
  obtain ⟨-, -, rfl⟩ : true = true ∧ _ ∧ committed = _ :=
    houtcome.resolve_right fun h => by cases h.1
  have hi' : i < m.txns.length := (List.getElem?_eq_some_iff.mp hi).1
  have hmem : (⟨.addContact userId email, inserted t.history⟩ : Commit postgres StorageCall) ∈
      m.commits := by
    refine (commits_perm hrun).mem_iff.mpr (List.mem_flatMap.mpr ⟨i, List.mem_range.mpr hi', ?_⟩)
    rw [hcommitted]
    exact List.mem_singleton_self _
  obtain ⟨user, friend, huser', hfriend, hemail', -, hrows⟩ := commit_writes ⟨es, hrun⟩ hmem
  cases huser.symm.trans huser'
  -- the email belongs to one client only
  have hsame : row = friend := List.inj_on_of_nodup_map (reachable_integrity ⟨es, hrun⟩).emails hrow
    hfriend (hemail.trans hemail'.symm)
  subst hsame
  dsimp only at hrows
  constructor <;> refine mem_clientToContact.mpr ⟨_, hmem, ?_⟩ <;> simp [hrows]

theorem addedContact_of_mem (h : Reachable (Machine.step (storageBody hashPassword))
      (Machine.initial .initial) m) {a b : PgInt} (hmem : ⟨a, b⟩ ∈ m.tables.clientToContact) :
    m.AddedContact a b ∨ m.AddedContact b a := by
  obtain ⟨c, hc, hrow⟩ := mem_clientToContact.mp hmem
  obtain ⟨userId, email, user, friend, hlabel, huser, hfriend, hemail, -, hrows⟩ :=
    exists_addContact h hc hrow
  obtain ⟨es, hrun⟩ := h
  obtain ⟨i, t, ht, hby⟩ := exists_of_mem_commits hrun hc
  have htlabel : t.label = .addContact userId email :=
    (writes_of_run hrun ht hby).1.symm.trans hlabel
  obtain ⟨result, hret, houtcome⟩ := returned_of_committedBy hrun ht htlabel trivial hby
  obtain ⟨rfl, -, -⟩ : result = true ∧ _ ∧ _ := houtcome.resolve_right fun h => by cases h.2
  have hadded : m.AddedContact user friend.id :=
    ⟨_, List.mem_of_getElem? ht, userId, email, hret, huser, friend, hfriend, hemail, rfl⟩
  rw [hrows] at hrow
  simp only [List.mem_cons, ClientToContactRow.mk.injEq, List.not_mem_nil, or_false] at hrow
  rcases hrow with ⟨rfl, rfl⟩ | ⟨rfl, rfl⟩
  · exact .inl hadded
  · exact .inr hadded

/-- **Contacts.** -/
theorem reachable_contactsSound (hashPassword : String → List UInt8) {m : StorageMachine}
    (h : Reachable (Machine.step (storageBody hashPassword)) (Machine.initial .initial) m) :
    m.ContactsSound := by
  have hintegrity := reachable_integrity h
  have hids : (m.tables.client.map ClientRow.id).Nodup :=
    (Numbering.fresh_of_reachable (N := clientNumbering) h).nodup
  have hsymm : ∀ a b, ⟨a, b⟩ ∈ m.tables.clientToContact → ⟨b, a⟩ ∈ m.tables.clientToContact := by
    intro a b hmem
    rcases addedContact_of_mem h hmem with hadded | hadded
    · exact (mem_of_addedContact h hadded).2
    · exact (mem_of_addedContact h hadded).1
  have hirrefl : ∀ a, ⟨a, a⟩ ∉ m.tables.clientToContact := by
    intro a hmem
    obtain ⟨c, hc, hrow⟩ := mem_clientToContact.mp hmem
    obtain ⟨_, _, user, friend, -, -, -, -, hne, hrows⟩ := exists_addContact h hc hrow
    rw [hrows] at hrow
    simp only [List.mem_cons, ClientToContactRow.mk.injEq, List.not_mem_nil, or_false] at hrow
    rcases hrow with ⟨ha, hb⟩ | ⟨hb, ha⟩
    · exact hne (ha.symm.trans hb)
    · exact hne (ha.symm.trans hb)
  refine ⟨hsymm, hirrefl, hintegrity.contacts, fun u v contacts contacts' hu hv => ?_,
    fun u v contacts hu => (hu.countP hintegrity hids v).1,
    fun u contacts hu contact hmem heq => ?_,
    fun a b => ⟨addedContact_of_mem h, ?_⟩⟩
  · rw [(hu.countP hintegrity hids v).2, (hv.countP hintegrity hids u).2]
    constructor
    · rintro ⟨a, b, ha, hb, hmem⟩
      exact ⟨b, a, hb, ha, hsymm a b hmem⟩
    · rintro ⟨b, a, hb, ha, hmem⟩
      exact ⟨a, b, ha, hb, hsymm b a hmem⟩
  · have hpos : 0 < contacts.countP fun contact => contact.userId = u :=
      List.countP_pos_iff.mpr ⟨contact, hmem, by simpa using heq⟩
    obtain ⟨hle, hone⟩ := hu.countP hintegrity hids u
    obtain ⟨a, b, ha, hb, hself⟩ := hone.mp (by omega)
    cases ha.symm.trans hb
    exact hirrefl a hself
  · rintro (hadded | hadded)
    · exact (mem_of_addedContact h hadded).1
    · exact (mem_of_addedContact h hadded).2

/-- Two clients add each other at the same time. Each has inserted one direction and would wait for
the other one, until the second transaction is aborted. -/
def crossedAdditions : List (Machine.Event StorageCall) :=
  [.call (.registration "" "a" "")] ++ acts 0 3 ++ [.call (.registration "" "b" "")] ++ acts 1 3 ++
    [.call (.addContact 1 "b"), .call (.addContact 2 "a")] ++ acts 2 4 ++ acts 3 4 ++
    [.act 3 .fail] ++ acts 2 2

theorem contactsSound_crossedAdditions :
    ∃ m : StorageMachine, run (Machine.step (storageBody fun _ => [])) (Machine.initial .initial)
        crossedAdditions = some m ∧ m.tables.clientToContact = [⟨1, 2⟩, ⟨2, 1⟩] ∧
      m.ContactsSound := by
  have hrun : (run (Machine.step (storageBody fun _ => [])) (Machine.initial .initial)
      crossedAdditions).map (fun m => m.tables.clientToContact) = some [⟨1, 2⟩, ⟨2, 1⟩] := rfl
  obtain ⟨m, hm, hrows⟩ := Option.map_eq_some_iff.mp hrun
  exact ⟨m, hm, hrows, reachable_contactsSound _ ⟨_, hm⟩⟩

end StorageMachine

end Elegram
