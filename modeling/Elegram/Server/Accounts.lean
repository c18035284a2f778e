import Elegram.Server.StorageMachine
import Mathlib.Data.List.Pairwise

/-!
# Accounts

`login` compares the password only when its query has returned exactly one row; that it never
returns more is left to the constraint on `Client.email`. `reachable_accountsAgree` states what
registrations and logins, interleaved in any way, guarantee each other.
-/

namespace Elegram

open ReadCommitted Transition

variable {hashPassword : String → List UInt8}

/-- A registration with this email and a password that has the same hash is among the commits. The
user is the one that it has registered. -/
def Grants (hashPassword : String → List UInt8) (commits : List (Commit postgres StorageCall))
    (email password : String) (user : UInt64 × String) : Prop :=
  ∃ name password' id, hashPassword password' = hashPassword password ∧
    (⟨.registration name email password',
      { (0 : Tables) with client := [⟨id, name, email, hashPassword password'⟩] }⟩ :
        Commit postgres StorageCall) ∈ commits ∧ user = (id.toUInt64, name)

variable (hashPassword) in
/-- The answer for the rows of a table in which emails are unique. -/
theorem loginAnswer_eq_ok {t : Tables} (password : String)
    (hemails : (t.client.map ClientRow.email).Nodup) {email : String}
    {rows : List (PgInt × String × List UInt8)}
    (hrows : rows.Perm ((t.client.filter fun row => row.email = email).map fun row =>
      (row.id, row.name, row.passwordHash))) :
    rows.length ≤ 1 ∧
    (∀ user, loginAnswer hashPassword password rows = .ok user ↔ ∃ row ∈ t.client,
      row.email = email ∧ row.passwordHash = hashPassword password ∧
        user = (row.id.toUInt64, row.name)) ∧
    ∀ error, loginAnswer hashPassword password rows = .error error → error = .invalidArgument := by
  have hone : ∀ row ∈ t.client, ∀ row' ∈ t.client, row.email = email → row'.email = email →
      row = row' := fun row hrow row' hrow' h h' =>
    List.inj_on_of_nodup_map hemails hrow hrow' (h.trans h'.symm)
  have hnodup : (t.client.filter fun row => row.email = email).Nodup :=
    (List.Nodup.of_map _ hemails).filter _
  generalize hfound : (t.client.filter fun row => row.email = email) = found at hrows hnodup
  have hmem : ∀ row, row ∈ found ↔ row ∈ t.client ∧ row.email = email := fun row => by
    rw [← hfound, List.mem_filter, decide_eq_true_iff]
  match found, hnodup with
  | [], _ =>
    have hnil : rows = [] := List.perm_nil.mp hrows
    subst hnil
    refine ⟨Nat.zero_le _, fun user => ⟨fun h => (by cases h), ?_⟩, fun error h => by cases h; rfl⟩
    rintro ⟨row, hrow, hemail, -⟩
    exact absurd ((hmem row).mpr ⟨hrow, hemail⟩) List.not_mem_nil
  | [row], _ =>
    have hsingle : rows = [(row.id, row.name, row.passwordHash)] := List.perm_singleton.mp hrows
    subst hsingle
    obtain ⟨hrow, hemail⟩ := (hmem row).mp (List.mem_singleton_self _)
    refine ⟨Nat.le_refl _, fun user => ?_, fun error h => ?_⟩
    · simp only [loginAnswer]
      constructor
      · intro h
        split_ifs at h with hhash
        cases h
        exact ⟨row, hrow, hemail, hhash, rfl⟩
      · rintro ⟨row', hrow', hemail', hhash, rfl⟩
        cases hone row hrow row' hrow' hemail hemail'
        rw [if_pos hhash]
    · simp only [loginAnswer] at h
      split_ifs at h
      cases h
      rfl
  | row :: row' :: _, hnodup =>
    obtain ⟨hrow, hemail⟩ := (hmem row).mp (List.mem_cons_self ..)
    obtain ⟨hrow', hemail'⟩ := (hmem row').mp (List.mem_cons_of_mem _ (List.mem_cons_self ..))
    have hsame : row = row' := hone row hrow row' hrow' hemail hemail'
    exact absurd (hsame ▸ List.mem_cons_self ..) (List.nodup_cons.mp hnodup).1

namespace StorageMachine

variable {m : StorageMachine} {es : List (Machine.Event StorageCall)}

/-- Registrations and logins agree. -/
structure AccountsAgree (hashPassword : String → List UInt8)
    (es : List (Machine.Event StorageCall)) (m : StorageMachine) : Prop where
  /-- At most one registration for an email returns true. -/
  once : ∀ (i j : ℕ) s t name name' email password password', m.txns[i]? = some s →
    m.txns[j]? = some t → s.prog = .ret ⟨.registration name email password, true⟩ →
    t.prog = .ret ⟨.registration name' email password', true⟩ → i = j
  /-- A login in which no action fails finds the registration that was committed before its
  `SELECT`, or throws `std::invalid_argument`. -/
  login : ∀ (i : ℕ) t email password result, m.txns[i]? = some t →
    t.prog = .ret ⟨.login email password, result⟩ → .act i .fail ∉ es →
    ∃ (seen : ℕ) (rows : List (PgInt × String × List UInt8)) (ins : Tables),
      t.history = [⟨.selectByEmail email, seen, rows, ins⟩] ∧
      (∀ user, result = .ok user ↔
        Grants hashPassword (m.commits.take seen) email password user) ∧
      ((¬ ∃ user, Grants hashPassword (m.commits.take seen) email password user) →
        result = .error .invalidArgument)
  /-- A registration that returns false changes nothing, in particular not who can log in. -/
  refused : ∀ (i : ℕ) t name email password, m.txns[i]? = some t →
    t.prog = .ret ⟨.registration name email password, false⟩ → ∀ m₁ m₂,
    Machine.ActsIn (storageBody hashPassword) i (Machine.initial .initial) es m₁ m₂ →
      m₂.tables = m₁.tables ∧ ∀ email' password' user,
        Grants hashPassword m₂.commits email' password' user ↔
          Grants hashPassword m₁.commits email' password' user
  /-- The query of a login returns one row at most. -/
  single : ∀ (i : ℕ) t email password, m.txns[i]? = some t → t.label = .login email password →
    ∀ e ∈ t.history, e.rows.length ≤ 1

theorem mem_client {commits : List (Commit postgres StorageCall)} {row : ClientRow} :
    row ∈ (tablesOf commits).client ↔ ∃ c ∈ commits, row ∈ c.rows.client := by
  rw [column_tablesOf (E := postgres) (f := Tables.client) rfl (fun _ _ => rfl), List.mem_flatMap]

/-- An account has been committed by a registration. -/
theorem grants_iff (h : Reachable (Machine.step (storageBody hashPassword))
      (Machine.initial .initial) m) (n : ℕ) (email password : String) (user : UInt64 × String) :
    Grants hashPassword (m.commits.take n) email password user ↔
      ∃ row ∈ (tablesOf (m.commits.take n)).client, row.email = email ∧
        row.passwordHash = hashPassword password ∧ user = (row.id.toUInt64, row.name) := by
  constructor
  · rintro ⟨name, password', id, hhash, hc, rfl⟩
    exact ⟨_, mem_client.mpr ⟨_, hc, List.mem_singleton_self _⟩, rfl, hhash, rfl⟩
  · rintro ⟨row, hrow, rfl, hhash, rfl⟩
    obtain ⟨⟨label, rows⟩, hc, hrow⟩ := mem_client.mp hrow
    have hwrites := commit_writes h (List.mem_of_mem_take hc)
    dsimp only at hrow hwrites
    rcases hwrites.kind.1 with hnone | ⟨name, email, password', rfl⟩
    · rw [hnone] at hrow
      cases hrow
    obtain ⟨id, rfl⟩ := hwrites
    cases List.mem_singleton.mp hrow
    exact ⟨name, password', id, hhash, hc, rfl⟩

/-- Emails are unique in every state that a statement has seen. -/
theorem emails_take (h : Reachable (Machine.step (storageBody hashPassword))
      (Machine.initial .initial) m) (n : ℕ) :
    ((tablesOf (m.commits.take n)).client.map ClientRow.email).Nodup := by
  have hall := (reachable_integrity h).emails
  rw [Machine.tables, ← tablesOf_take_add m.commits n, Tables.add_client, List.map_append] at hall
  exact hall.of_append_left

/-- The query of a login. -/
theorem selectByEmail_of_valid {e : Entry postgres} {own : Tables} (hown : own = 0)
    (he : e.Valid m.commits own) {email : String} (hst : e.st = .selectByEmail email) :
    e.inserted = 0 ∧ ∃ rows : List (PgInt × String × List UInt8), rows.length = e.rows.length ∧
      rows.Perm (((tablesOf (m.commits.take e.seen)).client.filter fun row =>
        row.email = email).map fun row => (row.id, row.name, row.passwordHash)) := by
  obtain ⟨st, seen, rows, ins⟩ := e
  dsimp only at hst
  subst hst hown
  obtain ⟨-, seq, stored, hperm, hexec⟩ := he
  obtain ⟨hstored, hins⟩ := Statement.exec_selectByEmail_some hexec
  rw [add_zero] at hstored
  exact ⟨hins, rows, rfl, hstored ▸ hperm⟩

theorem length_rows_le_one (h : Reachable (Machine.step (storageBody hashPassword))
      (Machine.initial .initial) m) {history : List (Entry postgres)} {own : Tables}
    (hown : own = 0) (hvalid : ValidHistory m.commits own history)
    (hst : ∀ e ∈ history, ∃ email, e.st = .selectByEmail email) :
    ∀ e ∈ history, e.rows.length ≤ 1 := by
  induction history generalizing own with
  | nil => exact fun _ he => by cases he
  | cons e history ih =>
    obtain ⟨he, hrest⟩ := hvalid
    obtain ⟨email, hemail⟩ := hst e (List.mem_cons_self ..)
    obtain ⟨hins, rows, hlength, hperm⟩ := selectByEmail_of_valid hown he hemail
    intro e' he'
    rcases List.mem_cons.mp he' with rfl | he'
    · rw [← hlength]
      exact (loginAnswer_eq_ok hashPassword "" (emails_take h _) hperm).1
    · refine ih ?_ hrest (fun e'' he'' => hst e'' (List.mem_cons_of_mem _ he'')) e' he'
      rw [hins, hown, add_zero]

/-- A registration that has returned true has committed an account for its email. -/
theorem mem_committedBy_of_registration (hrun : run (Machine.step (storageBody hashPassword))
      (Machine.initial .initial) es = some m) {i : ℕ}
    {t : Transaction postgres StorageCall ((op : StorageCall) × op.Result)}
    (ht : m.txns[i]? = some t) {name email password : String}
    (hprog : t.prog = .ret ⟨.registration name email password, true⟩) :
    email ∈ (committedBy hashPassword es i).flatMap fun c => c.rows.client.map ClientRow.email := by
  obtain ⟨-, committed, houtcome, hcommitted⟩ := outcome_of_run hrun ht hprog
  obtain ⟨-, hhistory, rfl⟩ : true = true ∧ _ ∧ committed = _ :=
    houtcome.resolve_right fun h => by cases h.1
  have hvalid := (Machine.reachable_traced ⟨es, hrun⟩ t (List.mem_of_getElem? ht)).valid
  obtain ⟨id, hrows⟩ := hhistory.inserted hashPassword hvalid
  rw [hcommitted, hrows]
  simp

/-- Two calls have not both committed an account for one email. -/
theorem eq_of_mem_committedBy (hrun : run (Machine.step (storageBody hashPassword))
      (Machine.initial .initial) es = some m) {i j : ℕ} (hi : i < m.txns.length)
    (hj : j < m.txns.length) {email : String}
    (hmi : email ∈ (committedBy hashPassword es i).flatMap fun c =>
      c.rows.client.map ClientRow.email)
    (hmj : email ∈ (committedBy hashPassword es j).flatMap fun c =>
      c.rows.client.map ClientRow.email) : i = j := by
  have hemails := (reachable_integrity ⟨es, hrun⟩).emails
  rw [Machine.tables, column_tablesOf (E := postgres)
    (f := fun t : Tables => t.client.map ClientRow.email) rfl (fun _ _ => List.map_append),
    ((commits_perm hrun).flatMap_right _).nodup_iff, List.flatMap_assoc] at hemails
  by_contra hne
  have hsymm : Std.Symm (Function.onFun List.Disjoint fun i =>
      (committedBy hashPassword es i).flatMap fun c => c.rows.client.map ClientRow.email) :=
    ⟨fun _ _ hd _ ha hb => hd hb ha⟩
  exact (List.nodup_flatMap.mp hemails).2.forall (List.mem_range.mpr hi) (List.mem_range.mpr hj)
    hne hmi hmj

theorem login_uses (email password : String) :
    Prog.Uses postgres.Unfailing (storageBody hashPassword (.login email password)) := by
  refine (storageBody_uses (.login email password)).mono fun st hst tables sequences => ?_
  cases st with
  | selectByEmail email' => exact Option.some_ne_none _
  | _ => exact hst.elim

/-- **Accounts.** -/
theorem reachable_accountsAgree (hashPassword : String → List UInt8)
    (es : List (Machine.Event StorageCall)) (m : StorageMachine)
    (hrun : run (Machine.step (storageBody hashPassword)) (Machine.initial .initial) es = some m) :
    AccountsAgree hashPassword es m where
  once := fun i j s t name name' email password password' hs ht hsprog htprog =>
    eq_of_mem_committedBy hrun (List.getElem?_eq_some_iff.mp hs).1
      (List.getElem?_eq_some_iff.mp ht).1 (mem_committedBy_of_registration hrun hs hsprog)
      (mem_committedBy_of_registration hrun ht htprog)
  login := by
    intro i t email password result ht hprog hcalm
    have hlabel := (outcome_of_run hrun ht hprog).1
    obtain ⟨committed, hsettles, -⟩ := Machine.settles_of_run False
      (storageBody_settles False t.label) (.inr (by rw [hlabel]; exact login_uses email password))
      (.inr hcalm) hrun ht
    rw [hprog, hlabel] at hsettles
    obtain ⟨result', heq, -, houtcome⟩ := hsettles
    cases heq
    obtain ⟨seen, rows, ins, hhistory, rfl⟩ := houtcome.resolve_left fun h => h.1
    have hvalid := (Machine.reachable_traced ⟨es, hrun⟩ t (List.mem_of_getElem? ht)).valid
    rw [hhistory] at hvalid
    obtain ⟨-, seq, stored, hperm, hexec⟩ := hvalid.1
    obtain ⟨hstored, -⟩ := Statement.exec_selectByEmail_some hexec
    rw [add_zero] at hstored
    obtain ⟨-, hok, herror⟩ := loginAnswer_eq_ok hashPassword password
      (emails_take ⟨es, hrun⟩ seen) (hstored ▸ hperm)
    have hgrants : ∀ user, loginAnswer hashPassword password rows = .ok user ↔
        Grants hashPassword (m.commits.take seen) email password user := fun user => by
      rw [hok user, grants_iff ⟨es, hrun⟩]
    refine ⟨seen, rows, ins, hhistory, hgrants, fun hnone => ?_⟩
    cases hanswer : loginAnswer hashPassword password rows with
    | ok user => exact absurd ⟨user, (hgrants user).mp hanswer⟩ hnone
    | error error => rw [herror error hanswer]
  refused := by
    intro i t name email password ht hprog m₁ m₂ hact
    obtain ⟨-, committed, houtcome, hcommitted⟩ := outcome_of_run hrun ht hprog
    obtain ⟨-, rfl⟩ : false = false ∧ committed = none :=
      houtcome.resolve_left fun h => by cases h.1
    have hcommits := Machine.commits_eq_of_committedBy hcommitted hact
    exact ⟨Machine.tables_eq_of_committedBy hcommitted hact, fun _ _ _ => by rw [hcommits]⟩
  single := by
    intro i t email password ht hlabel
    have htraced := Machine.reachable_traced ⟨es, hrun⟩ t (List.mem_of_getElem? ht)
    refine length_rows_le_one ⟨es, hrun⟩ rfl htraced.valid fun e he => ?_
    have hexecutes := (storageBody_uses t.label).reaches htraced.reaches e he
    rw [hlabel] at hexecutes
    cases hst : e.st with
    | selectByEmail email' => exact ⟨email', rfl⟩
    | _ =>
      rw [hst] at hexecutes
      exact hexecutes.elim

/-- Two registrations for one email at the same time: the second one waits for the first, and fails
when the first has committed. A login follows. -/
def racingRegistrations : List (Machine.Event StorageCall) :=
  [.call (.registration "m" "a" ""), .call (.registration "n" "a" "")] ++ acts 0 2 ++ acts 1 1 ++
    acts 0 1 ++ acts 1 1 ++ [.call (.login "a" "")] ++ acts 2 5

theorem accountsAgree_racingRegistrations :
    ∃ m : StorageMachine, run (Machine.step (storageBody fun _ => [])) (Machine.initial .initial)
        racingRegistrations = some m ∧ m.tables.client = [⟨1, "m", "a", []⟩] ∧
      AccountsAgree (fun _ => []) racingRegistrations m := by
  have hrun : (run (Machine.step (storageBody fun _ => [])) (Machine.initial .initial)
      racingRegistrations).map (fun m => m.tables.client) = some [⟨1, "m", "a", []⟩] := rfl
  obtain ⟨m, hm, hrows⟩ := Option.map_eq_some_iff.mp hrun
  exact ⟨m, hm, hrows, reachable_accountsAgree _ _ m hm⟩

end StorageMachine

end Elegram
