import Elegram.Foundation.Interleaving
import Mathlib.Data.List.Flatten

/-!
# Outcomes of interleaved transactions

What a program has done to the database when it returns. `Machine.committedBy` collects what the
actions of one program commit in a run, and `Machine.commits_perm` says that nothing else is in
the database: the commits of a run are those of its programs, in some order.

`Prog.Settles` follows a program along its paths, with the statements executed and the rows
committed so far. What settles along a program is true of every transaction that it starts, in
every run (`Machine.settles_of_run`). A program whose actions cannot fail has fewer paths: those
on which an action fails are counted only under `errors`.
-/

namespace ReadCommitted

open Transition

variable {E : Engine} {α β : Type}

namespace Prog

/-- On every path of the program, which continues the given history and has committed the given
rows, the result satisfies `R` together with the history and the committed rows at the end. Once a
transaction has been committed, its actions fail. -/
def Settles (errors : Prop) (R : α → List (Entry E) → Option E.Tables → Prop) :
    Prog E α → List (Entry E) → Option E.Tables → Prop
  | .ret a, history, committed => R a history committed
  | .exec st k, history, committed =>
    (errors ∨ committed.isSome → (k none).Settles errors R history committed) ∧
      ∀ seen rows inserted,
        (k (some rows)).Settles errors R (history ++ [⟨st, seen, rows, inserted⟩]) committed
  | .commit k, history, committed =>
    (k true).Settles errors R history (some (inserted history)) ∧
      (errors ∨ committed.isSome → (k false).Settles errors R history committed)
  | .attempt k, history, committed =>
    (k true).Settles errors R history committed ∧
      (errors → (k false).Settles errors R history committed)

variable {errors : Prop} {history : List (Entry E)} {committed : Option E.Tables}

theorem Settles.bind {R : β → List (Entry E) → Option E.Tables → Prop} {p : Prog E α}
    {f : α → Prog E β}
    (h : p.Settles errors (fun a history' committed' =>
      (f a).Settles errors R history' committed') history committed) :
    (p >>= f).Settles errors R history committed := by
  change (p.bind f).Settles errors R history committed
  induction p generalizing history committed with
  | ret a => exact h
  | exec st k ih =>
    exact ⟨fun herr => ih none (h.1 herr), fun seen rows inserted => ih _ (h.2 seen rows inserted)⟩
  | commit k ih => exact ⟨ih true h.1, fun herr => ih false (h.2 herr)⟩
  | attempt k ih => exact ⟨ih true h.1, fun herr => ih false (h.2 herr)⟩

theorem Settles.mono {R R' : α → List (Entry E) → Option E.Tables → Prop} {p : Prog E α}
    (h : p.Settles errors R history committed)
    (hR : ∀ a history' committed', R a history' committed' → R' a history' committed') :
    p.Settles errors R' history committed := by
  induction p generalizing history committed with
  | ret a => exact hR a history committed h
  | exec st k ih =>
    exact ⟨fun herr => ih none (h.1 herr), fun seen rows inserted => ih _ (h.2 seen rows inserted)⟩
  | commit k ih => exact ⟨ih true h.1, fun herr => ih false (h.2 herr)⟩
  | attempt k ih => exact ⟨ih true h.1, fun herr => ih false (h.2 herr)⟩

theorem Settles.anti {errors' : Prop} {R : α → List (Entry E) → Option E.Tables → Prop}
    {p : Prog E α} (h : p.Settles errors R history committed) (herrors : errors' → errors) :
    p.Settles errors' R history committed := by
  induction p generalizing history committed with
  | ret a => exact h
  | exec st k ih =>
    exact ⟨fun herr => ih none (h.1 (herr.imp_left herrors)),
      fun seen rows inserted => ih _ (h.2 seen rows inserted)⟩
  | commit k ih => exact ⟨ih true h.1, fun herr => ih false (h.2 (herr.imp_left herrors))⟩
  | attempt k ih => exact ⟨ih true h.1, fun herr => ih false (h.2 (herrors herr))⟩

/-- When all further actions fail, the program returns with the history that it has. -/
theorem Settles.exists_result {R : α → List (Entry E) → Option E.Tables → Prop} {p : Prog E α}
    (h : p.Settles True R history committed) : ∃ a, R a history committed := by
  induction p with
  | ret a => exact ⟨a, h⟩
  | exec st k ih => exact ih none (h.1 (.inl trivial))
  | commit k ih => exact ih false (h.2 (.inl trivial))
  | attempt k ih => exact ih false (h.2 trivial)

/-- The program commits nothing. -/
def NoCommit : Prog E α → Prop
  | .ret _ => True
  | .exec _ k => ∀ rows, (k rows).NoCommit
  | .commit _ => False
  | .attempt k => ∀ ok, (k ok).NoCommit

/-- When the program has committed, it returns at once. -/
def ReturnsOnCommit : Prog E α → Prop
  | .ret _ => True
  | .exec _ k => ∀ rows, (k rows).ReturnsOnCommit
  | .commit k => (∃ a, k true = .ret a) ∧ (k false).ReturnsOnCommit
  | .attempt k => ∀ ok, (k ok).ReturnsOnCommit

theorem NoCommit.bind {p : Prog E α} {f : α → Prog E β} (hp : p.NoCommit)
    (hf : ∀ a, (f a).NoCommit) : (p >>= f).NoCommit := by
  change (p.bind f).NoCommit
  induction p with
  | ret a => exact hf a
  | exec st k ih => exact fun rows => ih rows (hp rows)
  | commit k ih => exact hp.elim
  | attempt k ih => exact fun ok => ih ok (hp ok)

theorem NoCommit.bind_returnsOnCommit {p : Prog E α} {f : α → Prog E β} (hp : p.NoCommit)
    (hf : ∀ a, (f a).ReturnsOnCommit) : (p >>= f).ReturnsOnCommit := by
  change (p.bind f).ReturnsOnCommit
  induction p with
  | ret a => exact hf a
  | exec st k ih => exact fun rows => ih rows (hp rows)
  | commit k ih => exact hp.elim
  | attempt k ih => exact fun ok => ih ok (hp ok)

theorem ReturnsOnCommit.bind {p : Prog E α} {f : α → Prog E β} (hp : p.ReturnsOnCommit)
    (hf : ∀ a, ∃ b, f a = .ret b) : (p >>= f).ReturnsOnCommit := by
  change (p.bind f).ReturnsOnCommit
  induction p with
  | ret a =>
    obtain ⟨b, hb⟩ := hf a
    rw [Prog.bind, hb]
    trivial
  | exec st k ih => exact fun rows => ih rows (hp rows)
  | commit k ih =>
    obtain ⟨⟨a, ha⟩, hfalse⟩ := hp
    obtain ⟨b, hb⟩ := hf a
    refine ⟨⟨b, ?_⟩, ih false hfalse⟩
    change (k true).bind f = _
    rw [ha, Prog.bind, hb]
  | attempt k ih => exact fun ok => ih ok (hp ok)

end Prog

/-- A statement that succeeds in every database. -/
def Engine.Unfailing (E : Engine) (st : E.Statement) : Prop :=
  ∀ tables sequences, (E.exec st tables sequences).2 ≠ none

namespace Machine

variable {L : Type}

/-- What the action `e` of the `i`-th program has committed, if it is one. -/
def newCommits (i : ℕ) (m m' : Machine E L α) : Event L → List (Commit E L)
  | .call _ => []
  | .act j _ => if j = i then m'.commits.drop m.commits.length else []

/-- What the actions of the `i`-th program commit in a run from `m`. -/
def committedBy (body : L → Prog E α) (i : ℕ) :
    Machine E L α → List (Event L) → List (Commit E L)
  | _, [] => []
  | m, e :: es =>
    match m.step body e with
    | none => []
    | some m' => newCommits i m m' e ++ committedBy body i m' es

variable {body : L → Prog E α} {m m' : Machine E L α}

theorem committedBy_cons {e : Event L} (h : m.step body e = some m') (i : ℕ)
    (es : List (Event L)) :
    committedBy body i m (e :: es) = newCommits i m m' e ++ committedBy body i m' es := by
  rw [committedBy, h]

theorem newCommits_act_self {i : ℕ} {choice : Choice} {more : List (Commit E L)}
    (h : m'.commits = m.commits ++ more) : newCommits i m m' (.act i choice) = more := by
  rw [newCommits, if_pos rfl, h, List.drop_left]

/-! ### Nothing else is committed -/

theorem length_txns_of_step {e : Event L} (h : m.step body e = some m') :
    m.txns.length ≤ m'.txns.length := by
  cases e with
  | call l =>
    cases h
    simp
  | act i choice =>
    obtain ⟨t, eff, -, -, -, rfl⟩ := step_act h
    simp

theorem length_txns_of_run {es : List (Event L)} (h : run (step body) m es = some m') :
    m.txns.length ≤ m'.txns.length := by
  refine invariant_of_run (I := fun m' => m.txns.length ≤ m'.txns.length) ?_ (Nat.le_refl _) h
  intro m₁ e m₂ hle hstep
  have hlen := length_txns_of_step hstep
  omega

theorem flatMap_range_of_single {ρ : Type} {f : ℕ → List ρ} {i n : ℕ} (hi : i < n)
    (h : ∀ j, j ≠ i → f j = []) : (List.range n).flatMap f = f i := by
  induction n with
  | zero => omega
  | succ n ih =>
    rw [List.range_succ, List.flatMap_append, List.flatMap_singleton]
    by_cases hlt : i < n
    · rw [ih hlt, h n (by omega), List.append_nil]
    · have heq : i = n := by omega
      have hnil : (List.range n).flatMap f = [] := by
        refine List.flatMap_eq_nil_iff.mpr fun j hj => h j ?_
        have hj := List.mem_range.mp hj
        omega
      rw [hnil, heq, List.nil_append]

/-- A step commits what the program that acts commits. -/
theorem commits_of_step {e : Event L} (h : m.step body e = some m') {n : ℕ}
    (hn : m'.txns.length ≤ n) :
    m'.commits = m.commits ++ (List.range n).flatMap fun i => newCommits i m m' e := by
  cases e with
  | call l =>
    cases h
    simp [newCommits]
  | act i choice =>
    obtain ⟨t, eff, ht, -, -, rfl⟩ := step_act h
    have hi : i < n := by
      have hlt := (List.getElem?_eq_some_iff.mp ht).1
      simp only [List.length_set] at hn
      omega
    rw [flatMap_range_of_single hi fun j hj => by rw [newCommits, if_neg (Ne.symm hj)],
      newCommits_act_self rfl]

/-- **Ledger.** The commits of a run are those of its programs. -/
theorem commits_perm {es : List (Event L)} (h : run (step body) m es = some m') {n : ℕ}
    (hn : m'.txns.length ≤ n) :
    m'.commits.Perm (m.commits ++ (List.range n).flatMap fun i => committedBy body i m es) := by
  induction es generalizing m with
  | nil =>
    cases h
    simp [committedBy, List.flatMap_eq_nil_iff.mpr]
  | cons e es ih =>
    rw [run_cons, Option.bind_eq_some_iff] at h
    obtain ⟨m₁, hstep, hrun⟩ := h
    have hlen := length_txns_of_run hrun
    have hperm := ih hrun
    rw [commits_of_step hstep (Nat.le_trans hlen hn), List.append_assoc] at hperm
    refine hperm.trans (List.Perm.append_left _ ?_)
    simp only [committedBy_cons hstep]
    exact List.flatMap_append_perm _ _ _

theorem committedBy_append {es₁ es₂ : List (Event L)} (h : run (step body) m es₁ = some m')
    (i : ℕ) :
    committedBy body i m (es₁ ++ es₂) = committedBy body i m es₁ ++ committedBy body i m' es₂ := by
  induction es₁ generalizing m with
  | nil =>
    cases h
    rfl
  | cons e es₁ ih =>
    rw [run_cons, Option.bind_eq_some_iff] at h
    obtain ⟨m₁, hstep, hrun⟩ := h
    rw [List.cons_append, committedBy_cons hstep, committedBy_cons hstep, ih hrun,
      List.append_assoc]

variable (body) in
/-- `m₁` and `m₂` are the machine before and after an action of the `i`-th program in a run from
`m`. -/
def ActsIn (i : ℕ) (m : Machine E L α) (es : List (Event L)) (m₁ m₂ : Machine E L α) : Prop :=
  ∃ es₁ choice es₂, es = es₁ ++ .act i choice :: es₂ ∧ run (step body) m es₁ = some m₁ ∧
    m₁.step body (.act i choice) = some m₂

/-- A program that has committed nothing has changed nothing. -/
theorem commits_eq_of_committedBy {i : ℕ} {es : List (Event L)} {m₁ m₂ : Machine E L α}
    (h : committedBy body i m es = []) (hact : ActsIn body i m es m₁ m₂) :
    m₂.commits = m₁.commits := by
  obtain ⟨es₁, choice, es₂, rfl, hrun, hstep⟩ := hact
  rw [committedBy_append hrun, committedBy_cons hstep, List.append_eq_nil_iff,
    List.append_eq_nil_iff] at h
  obtain ⟨t, eff, -, -, -, rfl⟩ := step_act hstep
  rw [newCommits_act_self rfl] at h
  simp only [h.2.1, List.append_nil]

theorem tables_eq_of_committedBy {i : ℕ} {es : List (Event L)} {m₁ m₂ : Machine E L α}
    (h : committedBy body i m es = []) (hact : ActsIn body i m es m₁ m₂) :
    m₂.tables = m₁.tables := by
  rw [tables, tables, commits_eq_of_committedBy h hact]

/-- A program that has returned does nothing more. -/
theorem getElem?_of_returned {i : ℕ} {t : Transaction E L α} {a : α} (ht : m.txns[i]? = some t)
    (hret : t.prog = .ret a) {es : List (Event L)} (h : run (step body) m es = some m') :
    m'.txns[i]? = some t := by
  refine invariant_of_run (I := fun m' => m'.txns[i]? = some t) (fun m e m' hm hstep => ?_) ht h
  cases e with
  | call l =>
    cases hstep
    rw [List.getElem?_append_left (List.getElem?_eq_some_iff.mp hm).1]
    exact hm
  | act j choice =>
    obtain ⟨t', eff, ht', hact, -, rfl⟩ := step_act hstep
    have hne : j ≠ i := by
      rintro rfl
      cases hm.symm.trans ht'
      rw [hret] at hact
      cases hact
    rw [List.getElem?_set_ne hne]
    exact hm

/-- Every program has been started at some point of the run. -/
theorem exists_call {i : ℕ} {es : List (Event L)} (h : run (step body) m es = some m')
    (hm : m.txns.length ≤ i) (hi : i < m'.txns.length) :
    ∃ es₁ l es₂ m₁, es = es₁ ++ .call l :: es₂ ∧ run (step body) m es₁ = some m₁ ∧
      m₁.txns.length = i := by
  induction es generalizing m with
  | nil =>
    cases h
    omega
  | cons e es ih =>
    rw [run_cons, Option.bind_eq_some_iff] at h
    obtain ⟨m₁, hstep, hrun⟩ := h
    by_cases hle : m₁.txns.length ≤ i
    · obtain ⟨es₁, l, es₂, m₂, rfl, hrun₂, hlen⟩ := ih hrun hle
      exact ⟨e :: es₁, l, es₂, m₂, rfl, by rw [run_cons_of_step hstep, hrun₂], hlen⟩
    · cases e with
      | call l =>
        refine ⟨[], l, es, m, rfl, rfl, ?_⟩
        cases hstep
        simp only [List.length_append, List.length_singleton] at hle
        omega
      | act j choice =>
        obtain ⟨_, _, -, -, -, rfl⟩ := step_act hstep
        simp only [List.length_set] at hle
        omega

/-! ### One program in a run -/

/-- The `i`-th program has committed `commits`. If it has been started for `l`, its transaction and
the rows that it has committed satisfy `Q`. It commits at most once. -/
def Follows (Q : Transaction E L α → Option E.Tables → Prop) (i : ℕ) (l : L) (m : Machine E L α)
    (commits : List (Commit E L)) : Prop :=
  (m.txns.length ≤ i → commits = []) ∧
    ∀ t, m.txns[i]? = some t → t.label = l → ∃ committed, Q t committed ∧
      (committed.isSome → t.own = none) ∧ commits = (committed.map fun rows => ⟨l, rows⟩).toList

/-- The actions for which `C` holds preserve `Q`. -/
def Preserved (body : L → Prog E α) (C : Choice → Prop)
    (Q : Transaction E L α → Option E.Tables → Prop) : Prop :=
  ∀ (m : Machine E L α) t committed choice eff, Q t committed → t.Traced body m.commits →
    C choice → t.prog.act m.tables m.sequences t.own choice = some eff →
    Q { t with
      prog := eff.prog, own := eff.own, history := t.history ++ (m.entry t choice).toList }
      (eff.committed.or committed)

variable {C : Choice → Prop} {Q : Transaction E L α → Option E.Tables → Prop}

theorem once_of_act {t : Transaction E L α} {committed : Option E.Tables} {choice : Choice}
    {eff : Prog.Effect E α} (honce : committed.isSome → t.own = none)
    (hact : t.prog.act m.tables m.sequences t.own choice = some eff) :
    (eff.committed.isSome → committed = none) ∧
      ((eff.committed.or committed).isSome → eff.own = none) := by
  cases hcommitted : eff.committed with
  | some rows =>
    obtain ⟨k, order, -, hown, -, rfl⟩ := Prog.committed_of_act hact hcommitted
    refine ⟨fun _ => ?_, fun _ => rfl⟩
    cases committed with
    | none => rfl
    | some rows' =>
      rw [hown] at honce
      cases honce rfl
  | none =>
    refine ⟨fun h => (by cases h), fun h => ?_⟩
    have hclosed := honce (by simpa using h)
    rw [hclosed] at hact
    generalize t.prog = p at hact
    cases p with
    | ret a => cases hact
    | exec st k => cases choice <;> cases hact <;> rfl
    | commit k => cases choice <;> cases hact <;> rfl
    | attempt k => cases choice <;> cases hact <;> rfl

theorem Follows.of_step {i : ℕ} {l : L} {commits : List (Commit E L)} {e : Event L}
    (hpres : Preserved body C Q) (hbody : Q ⟨l, body l, some 0, []⟩ none)
    (h : Follows Q i l m commits) (hm : m.Traced body)
    (he : ∀ choice, e = .act i choice → C choice) (hstep : m.step body e = some m') :
    Follows Q i l m' (commits ++ newCommits i m m' e) := by
  obtain ⟨hnone, hsome⟩ := h
  have hlen := length_txns_of_step hstep
  cases e with
  | call l' =>
    cases hstep
    rw [newCommits, List.append_nil]
    refine ⟨fun hle => hnone (Nat.le_trans hlen hle), fun t ht hl => ?_⟩
    rcases Nat.lt_trichotomy i m.txns.length with hi | hi | hi
    · rw [List.getElem?_append_left hi] at ht
      exact hsome t ht hl
    · -- the new transaction
      rw [hi, List.getElem?_concat_length, Option.some_inj] at ht
      subst ht
      dsimp only at hl
      subst hl
      exact ⟨none, hbody, fun h => (by cases h), hnone (Nat.le_of_eq hi.symm)⟩
    · rw [List.getElem?_eq_none (by simp; omega)] at ht
      cases ht
  | act j choice =>
    obtain ⟨t₀, eff, ht₀, heff, -, rfl⟩ := step_act hstep
    have hj := (List.getElem?_eq_some_iff.mp ht₀).1
    by_cases hji : j = i
    · subst hji
      rw [newCommits_act_self rfl]
      refine ⟨fun hle => ?_, fun t ht hl => ?_⟩
      · simp only [List.length_set] at hle
        omega
      rw [List.getElem?_set_self hj, Option.some_inj] at ht
      subst ht
      dsimp only at hl
      obtain ⟨committed, hQ, honce, rfl⟩ := hsome t₀ ht₀ hl
      obtain ⟨hfirst, honce'⟩ := once_of_act honce heff
      refine ⟨_, hpres m t₀ committed choice eff hQ (hm t₀ (List.mem_of_getElem? ht₀))
        (he choice rfl) heff, honce', ?_⟩
      cases hcommitted : eff.committed with
      | none => simp
      | some rows =>
        rw [hfirst (by rw [hcommitted]; rfl)]
        simp [hl]
    · have hsame : newCommits i m (⟨eff.sequences,
          m.commits ++ (eff.committed.toList.map fun rows => (⟨t₀.label, rows⟩ : Commit E L)),
          m.txns.set j { t₀ with
            prog := eff.prog, own := eff.own
            history := t₀.history ++ (m.entry t₀ choice).toList }⟩ : Machine E L α)
          (.act j choice) = [] := by rw [newCommits, if_neg hji]
      rw [hsame, List.append_nil]
      refine ⟨fun hle => hnone (Nat.le_trans hlen hle), fun t ht hl => hsome t ?_ hl⟩
      rwa [List.getElem?_set_ne hji] at ht

theorem Follows.of_run {i : ℕ} {l : L} {commits : List (Commit E L)} {es : List (Event L)}
    (hpres : Preserved body C Q) (hbody : Q ⟨l, body l, some 0, []⟩ none)
    (h : Follows Q i l m commits) (hm : m.Traced body)
    (hes : ∀ choice, .act i choice ∈ es → C choice) (hrun : run (step body) m es = some m') :
    Follows Q i l m' (commits ++ committedBy body i m es) := by
  induction es generalizing m commits with
  | nil =>
    cases hrun
    rwa [committedBy, List.append_nil]
  | cons e es ih =>
    rw [run_cons, Option.bind_eq_some_iff] at hrun
    obtain ⟨m₁, hstep, hrun⟩ := hrun
    have hfirst := h.of_step hpres hbody hm
      (fun choice heq => hes choice (heq ▸ List.mem_cons_self ..)) hstep
    have hrest := ih hfirst (hm.of_step hstep)
      (fun choice hmem => hes choice (List.mem_cons_of_mem _ hmem)) hrun
    rwa [List.append_assoc, ← committedBy_cons hstep] at hrest

/-- What the actions of a program preserve holds in every run of the machine. -/
theorem follows_of_run {sequences : E.Sequences} {es : List (Event L)} {i : ℕ}
    {t : Transaction E L α} (hpres : Preserved body C Q)
    (hbody : Q ⟨t.label, body t.label, some 0, []⟩ none)
    (hes : ∀ choice, .act i choice ∈ es → C choice)
    (hrun : run (step body) (initial sequences) es = some m) (ht : m.txns[i]? = some t) :
    ∃ committed, Q t committed ∧ committedBy body i (initial sequences) es =
      (committed.map fun rows => ⟨t.label, rows⟩).toList := by
  have hinit : Follows Q i t.label (initial sequences : Machine E L α) [] :=
    ⟨fun _ => rfl, fun _ h => by cases h⟩
  have hend := hinit.of_run hpres hbody (fun _ h => by cases h) hes hrun
  obtain ⟨committed, hQ, -, heq⟩ := hend.2 t ht rfl
  exact ⟨committed, hQ, heq⟩

/-! ### Programs that settle -/

/-- What is known of a transaction that has committed the rows `committed`. -/
structure Settled (errors : Prop) (R : α → List (Entry E) → Option E.Tables → Prop)
    (t : Transaction E L α) (committed : Option E.Tables) : Prop where
  settles : t.prog.Settles errors R t.history committed
  /-- Without errors, a transaction remains open until it is committed. -/
  closed : t.own = none → errors ∨ committed.isSome
  uses : errors ∨ t.prog.Uses E.Unfailing

variable {errors : Prop} {R : α → List (Entry E) → Option E.Tables → Prop}

theorem settled_preserved :
    Preserved body (fun choice => errors ∨ choice ≠ .fail) (Settled errors R) := by
  rintro m ⟨label, prog, own, history⟩ committed choice eff ⟨hsettles, hclosed, huses⟩ ht hchoice
    hact
  have hown := ht.own
  dsimp only at hsettles hclosed huses hown hact ⊢
  cases prog with
  | ret a => cases hact
  | attempt k =>
    have hnone : m.entry (⟨label, .attempt k, own, history⟩ : Transaction E L α) choice = none := by
      cases choice <;> rfl
    rw [hnone]
    cases choice with
    | fail =>
      cases hact
      have herr : errors := hchoice.resolve_right (absurd rfl)
      exact ⟨by simpa using hsettles.2 herr, hclosed, .inl herr⟩
    | proceed order =>
      cases hact
      exact ⟨by simpa using hsettles.1, hclosed, huses.imp_right fun h => h true⟩
  | commit k =>
    have hnone : m.entry (⟨label, .commit k, own, history⟩ : Transaction E L α) choice = none := by
      cases choice <;> rfl
    rw [hnone]
    have hfail : errors ∨ committed.isSome →
        Settled errors R (⟨label, k false, none, history ++ (none : Option (Entry E)).toList⟩ :
          Transaction E L α) ((none : Option E.Tables).or committed) := fun herr =>
      ⟨by simpa using hsettles.2 herr, fun _ => by simpa using herr,
        huses.imp_right fun h => h false⟩
    cases choice with
    | fail =>
      cases hact
      exact hfail (.inl (hchoice.resolve_right (absurd rfl)))
    | proceed order =>
      cases own with
      | none =>
        cases hact
        exact hfail (hclosed rfl)
      | some own =>
        cases hact
        refine ⟨?_, fun _ => .inr rfl, huses.imp_right fun h => h true⟩
        rw [hown own rfl]
        simpa using hsettles.1
  | exec st k =>
    have hfail : errors ∨ committed.isSome →
        Settled errors R (⟨label, k none, none, history ++ (none : Option (Entry E)).toList⟩ :
          Transaction E L α) ((none : Option E.Tables).or committed) := fun herr =>
      ⟨by simpa using hsettles.1 herr, fun _ => by simpa using herr,
        huses.imp_right fun h => h.2 none⟩
    cases choice with
    | fail =>
      cases hact
      exact hfail (.inl (hchoice.resolve_right (absurd rfl)))
    | proceed order =>
      cases own with
      | none =>
        cases hact
        exact hfail (hclosed rfl)
      | some own =>
        simp only [Prog.act, Option.some.injEq, Prog.execute] at hact
        simp only [entry]
        rcases hexec : E.exec st (m.tables + own) m.sequences with ⟨sequences, _ | ⟨rows, ins⟩⟩
        · rw [hexec] at hact
          cases hact
          refine hfail (.inl (huses.resolve_right fun huses => ?_))
          exact huses.1 _ _ (congrArg Prod.snd hexec)
        · rw [hexec] at hact
          cases hact
          exact ⟨by simpa using hsettles.2 _ _ _, fun h => (by cases h),
            huses.imp_right fun h => h.2 _⟩

variable (errors) in
/-- **Outcomes.** What settles along a program is true of the transactions that it starts. -/
theorem settles_of_run {sequences : E.Sequences} {es : List (Event L)} {i : ℕ}
    {t : Transaction E L α} (hbody : (body t.label).Settles errors R [] none)
    (huses : errors ∨ (body t.label).Uses E.Unfailing) (hes : errors ∨ .act i .fail ∉ es)
    (hrun : run (step body) (initial sequences) es = some m) (ht : m.txns[i]? = some t) :
    ∃ committed, t.prog.Settles errors R t.history committed ∧
      committedBy body i (initial sequences) es =
        (committed.map fun rows => ⟨t.label, rows⟩).toList := by
  obtain ⟨committed, hsettled, heq⟩ := follows_of_run (settled_preserved (R := R))
    ⟨hbody, fun h => (by cases h), huses⟩
    (fun choice hmem => hes.imp_right fun hnot heq => hnot (heq ▸ hmem)) hrun ht
  exact ⟨committed, hsettled.settles, heq⟩

/-- A program that returns when it has committed has returned. -/
theorem returned_of_run {sequences : E.Sequences} {es : List (Event L)} {i : ℕ}
    {t : Transaction E L α} (hbody : (body t.label).ReturnsOnCommit)
    (hrun : run (step body) (initial sequences) es = some m) (ht : m.txns[i]? = some t)
    (hcommitted : committedBy body i (initial sequences) es ≠ []) : ∃ a, t.prog = .ret a := by
  have hpres : Preserved body (fun _ => True) fun (t : Transaction E L α) committed =>
      t.prog.ReturnsOnCommit ∧ (committed.isSome → ∃ a, t.prog = .ret a) := by
    rintro m t committed choice eff ⟨hprompt, hret⟩ - - hact
    cases hnew : eff.committed with
    | some rows =>
      obtain ⟨k, order, hprog, -, -, rfl⟩ := Prog.committed_of_act hact hnew
      rw [hprog] at hprompt
      obtain ⟨a, ha⟩ := hprompt.1
      exact ⟨by rw [ha]; trivial, fun _ => ⟨a, ha⟩⟩
    | none =>
      refine ⟨?_, fun h => ?_⟩
      · refine exists_branch hact (fun st k hprog => ?_) (fun k hprog => ?_) fun k hprog => ?_
        · rw [hprog] at hprompt
          exact hprompt
        · rw [hprog] at hprompt
          obtain ⟨⟨a, ha⟩, hfalse⟩ := hprompt
          intro ok
          cases ok with
          | true =>
            rw [ha]
            trivial
          | false => exact hfalse
        · rw [hprog] at hprompt
          exact hprompt
      · obtain ⟨a, ha⟩ := hret (by simpa using h)
        rw [ha] at hact
        cases hact
  obtain ⟨committed, ⟨-, hret⟩, heq⟩ := follows_of_run hpres
    ⟨hbody, fun h => (by cases h)⟩ (fun _ _ => trivial) hrun ht
  refine hret ?_
  cases committed with
  | none => exact absurd heq hcommitted
  | some rows => rfl

/-! ### Programs that see the same throughout -/

/-- How the actions of the `i`-th program end in a run. -/
def choicesOf (i : ℕ) : List (Event L) → List Choice
  | [] => []
  | .call _ :: es => choicesOf i es
  | .act j choice :: es => if j = i then choice :: choicesOf i es else choicesOf i es

/-- An action does the same in two databases that its statement cannot tell apart. -/
theorem act_similar {S : E.Statement → Prop} {s t : E.Tables}
    (hsame : Prog.Similar E S (fun _ _ => True) s t)
    (hreads : ∀ st own sequences rows ins, S st →
      (E.exec st (t + own) sequences).2 = some (rows, ins) → ins = 0)
    {p : Prog E α} (hp : p.Uses S) {own : Option E.Tables} (hown : own.getD 0 = 0)
    {choice : Choice} {sequences : E.Sequences} {eff : Prog.Effect E α}
    (h : p.act s sequences own choice = some eff) (sequences' : E.Sequences) :
    ∃ eff', p.act t sequences' own choice = some eff' ∧ eff'.prog = eff.prog ∧
      eff'.own = eff.own ∧ eff'.committed.getD 0 = 0 ∧ eff.own.getD 0 = 0 ∧ eff.prog.Uses S := by
  cases p with
  | ret a => cases h
  | attempt k => cases choice <;> cases h <;> exact ⟨_, rfl, rfl, rfl, rfl, hown, hp _⟩
  | commit k =>
    cases choice with
    | fail =>
      cases h
      exact ⟨_, rfl, rfl, rfl, rfl, rfl, hp _⟩
    | proceed order =>
      cases own with
      | none =>
        cases h
        exact ⟨_, rfl, rfl, rfl, rfl, rfl, hp _⟩
      | some own =>
        cases h
        exact ⟨_, rfl, rfl, rfl, hown, rfl, hp _⟩
  | exec st k =>
    cases choice with
    | fail =>
      cases h
      exact ⟨_, rfl, rfl, rfl, rfl, rfl, hp.2 _⟩
    | proceed order =>
      cases own with
      | none =>
        cases h
        exact ⟨_, rfl, rfl, rfl, rfl, rfl, hp.2 _⟩
      | some own =>
        simp only [Prog.act, Option.some.injEq, Prog.execute] at h ⊢
        subst h
        have hexec := (hsame st own sequences sequences' hp.1 trivial).2
        have hins := hreads st own sequences'
        generalize E.exec st (s + own) sequences = x, E.exec st (t + own) sequences' = y
          at hexec hins
        obtain ⟨_, res⟩ := x
        obtain ⟨_, res'⟩ := y
        obtain rfl : res = res' := hexec
        rcases res with _ | ⟨rows, ins⟩
        · exact ⟨_, rfl, rfl, rfl, rfl, rfl, hp.2 _⟩
        · have hzero : ins = 0 := hins rows ins hp.1 rfl
          subst hzero
          have hown' : own + 0 = 0 := (add_zero own).trans hown
          exact ⟨_, rfl, rfl, rfl, rfl, hown', hp.2 _⟩

/-- **Stability.** A program that only reads, and for which the database looks the same throughout
its execution, returns what it returns alone. -/
theorem eval_of_run {S : E.Statement → Prop} {T : E.Tables} {i : ℕ} {t t' : Transaction E L α}
    {a : α} {es : List (Event L)}
    (hreads : ∀ st own sequences rows ins, S st →
      (E.exec st (T + own) sequences).2 = some (rows, ins) → ins = 0)
    (hsame : Always (step body) (fun m => Prog.Similar E S (fun _ _ => True) m.tables T) m es)
    (ht : m.txns[i]? = some t) (huses : t.prog.Uses S) (hown : t.own.getD 0 = 0)
    (hrun : run (step body) m es = some m') (ht' : m'.txns[i]? = some t')
    (hret : t'.prog = .ret a) (sequences : E.Sequences) (rest : ℕ → Choice) :
    (t.prog.eval ⟨T, sequences, t.own, followedBy (choicesOf i es) rest⟩).1 = a := by
  induction es generalizing m t sequences with
  | nil =>
    cases hrun
    cases ht.symm.trans ht'
    rw [hret, Prog.eval_ret]
  | cons e es ih =>
    rw [run_cons, Option.bind_eq_some_iff] at hrun
    obtain ⟨m₁, hstep, hrun⟩ := hrun
    have hrest := hsame.2 m₁ hstep
    cases e with
    | call l =>
      cases hstep
      have ht₁ : (m.txns ++ [⟨l, body l, some 0, []⟩])[i]? = some t := by
        rw [List.getElem?_append_left (List.getElem?_eq_some_iff.mp ht).1]
        exact ht
      exact ih hrest ht₁ huses hown hrun sequences
    | act j choice =>
      obtain ⟨t₀, eff, ht₀, heff, -, rfl⟩ := step_act hstep
      by_cases hji : j = i
      · subst hji
        cases ht.symm.trans ht₀
        obtain ⟨eff', heff', hprog, hown', hcommitted, hzero, huses'⟩ :=
          act_similar hsame.1 hreads huses hown heff sequences
        have hget := List.getElem?_set_self (a := (⟨t.label, eff.prog, eff.own,
          t.history ++ (m.entry t choice).toList⟩ : Transaction E L α))
          (List.getElem?_eq_some_iff.mp ht).1
        have hnext := ih hrest hget huses' hzero hrun eff'.sequences
        rw [choicesOf, if_pos rfl]
        have hact : t.prog.act T sequences t.own (followedBy (choice :: choicesOf j es) rest 0) =
          some eff' := heff'
        rw [eval_of_act hact, hcommitted, add_zero, hprog, hown']
        exact hnext
      · rw [choicesOf, if_neg hji]
        refine ih hrest ?_ huses hown hrun sequences
        rwa [List.getElem?_set_ne hji]

end Machine

end ReadCommitted
