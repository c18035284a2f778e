import Elegram.Foundation.ReadCommitted
import Elegram.Foundation.Run

/-!
# Interleaved transactions

Any number of programs, interleaved action by action (`Machine.step`). A statement sees the rows
that were committed when it is executed, together with the rows of its own transaction. A
statement that collides with the uncommitted rows of another transaction waits.

Each transaction carries the history of its statements, and each commit the label of its program.
`Machine.reachable_traced` is what is known of every reachable machine, whatever the programs do:
the statements that a transaction has executed lead from its program to what remains of it, and
have returned and inserted what they return and insert in the database that they saw. `Prog.Along`
is the rule set for what a program has executed when it comes to a commit. `Machine.adequate` says
that a program that is not interrupted does what `Prog.eval` says.
-/

namespace ReadCommitted

open Transition

variable {E : Engine} {α β : Type}

namespace Prog

/-! ### Single actions -/

/-- What an action leaves behind. `own` holds the rows of the open transaction, `committed` the
rows that the action has committed. -/
structure Effect (E : Engine) (α : Type) where
  prog : Prog E α
  own : Option E.Tables
  sequences : E.Sequences
  committed : Option E.Tables

/-- A statement of a transaction that is no longer open fails. -/
def execute (st : E.Statement) (k : Option (List (E.Row st)) → Prog E α) (order : RowOrder)
    (tables : E.Tables) (sequences : E.Sequences) : Option E.Tables → Effect E α
  | none => ⟨k none, none, sequences, none⟩
  | some own =>
    match E.exec st (tables + own) sequences with
    | (sequences, none) => ⟨k none, none, sequences, none⟩
    | (sequences, some (rows, inserted)) =>
      ⟨k (some (order.arrange rows)), some (own + inserted), sequences, none⟩

/-- The next action of a program, if it has not returned. -/
def act (tables : E.Tables) (sequences : E.Sequences) (own : Option E.Tables) (choice : Choice) :
    Prog E α → Option (Effect E α)
  | .ret _ => none
  | .exec st k =>
    match choice with
    | .fail => some ⟨k none, none, sequences, none⟩
    | .proceed order => some (execute st k order tables sequences own)
  | .commit k =>
    match choice, own with
    | .proceed _, some rows => some ⟨k true, none, sequences, some rows⟩
    | _, _ => some ⟨k false, none, sequences, none⟩
  | .attempt k =>
    match choice with
    | .fail => some ⟨k false, own, sequences, none⟩
    | .proceed _ => some ⟨k true, own, sequences, none⟩

/-- Only a commit commits. -/
theorem committed_of_act {p : Prog E α} {tables rows : E.Tables} {sequences : E.Sequences}
    {own : Option E.Tables} {choice : Choice} {eff : Effect E α}
    (h : p.act tables sequences own choice = some eff) (hrows : eff.committed = some rows) :
    ∃ k order, p = .commit k ∧ own = some rows ∧ choice = .proceed order ∧
      eff = ⟨k true, none, sequences, some rows⟩ := by
  cases p with
  | ret a => cases h
  | exec st k =>
    cases choice with
    | fail =>
      cases h
      cases hrows
    | proceed order =>
      cases h
      cases own with
      | none => cases hrows
      | some own =>
        simp only [execute] at hrows
        rcases hexec : E.exec st (tables + own) sequences with ⟨_, _ | _⟩ <;>
          rw [hexec] at hrows <;> cases hrows
  | commit k =>
    cases choice <;> cases own <;> cases h <;> cases hrows
    exact ⟨k, _, rfl, rfl, rfl, rfl⟩
  | attempt k => cases choice <;> cases h <;> cases hrows

end Prog

/-! ### The machine -/

variable (E) in
/-- A statement that a transaction has executed: when the first `seen` commits had taken place,
it returned `rows` and inserted `inserted`. -/
structure Entry where
  st : E.Statement
  seen : ℕ
  rows : List (E.Row st)
  inserted : E.Tables

/-- A program under way, or at its end. `label` tells what it was started for; `history` is kept
for the statements only. -/
structure Transaction (E : Engine) (L α : Type) where
  label : L
  prog : Prog E α
  own : Option E.Tables
  history : List (Entry E)

/-- A committed transaction. -/
structure Commit (E : Engine) (L : Type) where
  label : L
  rows : E.Tables

/-- The contents of the database are the rows of the committed transactions. -/
structure Machine (E : Engine) (L α : Type) where
  sequences : E.Sequences
  commits : List (Commit E L)
  txns : List (Transaction E L α)

/-- The rows of a list of committed transactions. -/
def tablesOf {L : Type} (commits : List (Commit E L)) : E.Tables := (commits.map Commit.rows).sum

theorem tablesOf_concat {L : Type} (commits : List (Commit E L)) (c : Commit E L) :
    tablesOf (commits ++ [c]) = tablesOf commits + c.rows := by
  simp [tablesOf]

theorem tablesOf_append {L : Type} (commits more : List (Commit E L)) :
    tablesOf (commits ++ more) = tablesOf commits + tablesOf more := by
  simp [tablesOf]

/-- A column of the committed rows. -/
theorem column_tablesOf {L ρ : Type} {f : E.Tables → List ρ} (hzero : f 0 = [])
    (hadd : ∀ s t, f (s + t) = f s ++ f t) (commits : List (Commit E L)) :
    f (tablesOf commits) = commits.flatMap fun c => f c.rows := by
  induction commits with
  | nil => exact hzero
  | cons c commits ih =>
    have hsum : tablesOf (c :: commits) = c.rows + tablesOf commits := by simp [tablesOf]
    rw [hsum, hadd, ih, List.flatMap_cons]

namespace Machine

variable {L : Type}

inductive Event (L : Type)
  /-- The program for `l` is started. -/
  | call (l : L)
  /-- The `i`-th program performs its next action. -/
  | act (i : ℕ) (choice : Choice)

def initial (sequences : E.Sequences) : Machine E L α where
  sequences := sequences
  commits := []
  txns := []

def tables (m : Machine E L α) : E.Tables := tablesOf m.commits

/-- The entry that an executed statement adds to the history. -/
def entry (m : Machine E L α) (t : Transaction E L α) : Choice → Option (Entry E)
  | .fail => none
  | .proceed order =>
    match t.prog, t.own with
    | .exec st _, some own =>
      match (E.exec st (m.tables + own) m.sequences).2 with
      | some (rows, inserted) => some ⟨st, m.commits.length, order.arrange rows, inserted⟩
      | none => none
    | _, _ => none

/-- No other open transaction has rows that collide with these. -/
def free (m : Machine E L α) (i : ℕ) (own : Option E.Tables) : Bool :=
  match own with
  | none => true
  | some own => m.txns.zipIdx.all fun (t, j) =>
      j == i || (match t.own with | some other => !E.blocks own other | none => true)

def step (body : L → Prog E α) (m : Machine E L α) : Event L → Option (Machine E L α)
  | .call l => some { m with
      txns := m.txns ++ [{ label := l, prog := body l, own := some 0, history := [] }] }
  | .act i choice => do
    let t ← m.txns[i]?
    let eff ← t.prog.act m.tables m.sequences t.own choice
    if m.free i eff.own then
      some {
        sequences := eff.sequences
        commits := m.commits ++ eff.committed.toList.map fun rows => ⟨t.label, rows⟩
        txns := m.txns.set i { t with
          prog := eff.prog, own := eff.own
          history := t.history ++ (m.entry t choice).toList } }
    else none

variable {body : L → Prog E α} {m m' : Machine E L α}

/-- What a step does. -/
theorem step_act {i : ℕ} {choice : Choice} (h : m.step body (.act i choice) = some m') :
    ∃ t eff, m.txns[i]? = some t ∧ t.prog.act m.tables m.sequences t.own choice = some eff ∧
      m.free i eff.own ∧ m' = {
        sequences := eff.sequences
        commits := m.commits ++ eff.committed.toList.map fun rows => ⟨t.label, rows⟩
        txns := m.txns.set i { t with
          prog := eff.prog, own := eff.own
          history := t.history ++ (m.entry t choice).toList } } := by
  simp only [step, Option.bind_eq_bind, Option.bind_eq_some_iff] at h
  obtain ⟨t, ht, eff, heff, h⟩ := h
  split_ifs at h with hfree
  cases h
  exact ⟨t, eff, ht, heff, hfree, rfl⟩

variable (body) in
theorem step_of_act {i : ℕ} {choice : Choice} {t : Transaction E L α} {eff : Prog.Effect E α}
    (ht : m.txns[i]? = some t) (h : t.prog.act m.tables m.sequences t.own choice = some eff)
    (hfree : m.free i eff.own) : m.step body (.act i choice) = some {
      sequences := eff.sequences
      commits := m.commits ++ eff.committed.toList.map fun rows => ⟨t.label, rows⟩
      txns := m.txns.set i { t with
        prog := eff.prog, own := eff.own
        history := t.history ++ (m.entry t choice).toList } } := by
  simp only [step, ht, h, hfree, Option.bind_eq_bind, Option.bind_some, if_true]

end Machine

/-! ### What transactions have seen -/

/-- The statements of `history`, executed with their results, lead from `p` to `q`. -/
inductive Prog.Reaches : Prog E α → List (Entry E) → Prog E α → Prop
  | refl (p : Prog E α) : Reaches p [] p
  | exec (e : Entry E) {k : Option (List (E.Row e.st)) → Prog E α} {history : List (Entry E)}
      {q : Prog E α} (h : Reaches (k (some e.rows)) history q) :
      Reaches (.exec e.st k) (e :: history) q
  | failed {st : E.Statement} {k : Option (List (E.Row st)) → Prog E α}
      {history : List (Entry E)} {q : Prog E α} (h : Reaches (k none) history q) :
      Reaches (.exec st k) history q
  | commit {k : Bool → Prog E α} {history : List (Entry E)} {q : Prog E α} (b : Bool)
      (h : Reaches (k b) history q) : Reaches (.commit k) history q
  | attempt {k : Bool → Prog E α} {history : List (Entry E)} {q : Prog E α} (b : Bool)
      (h : Reaches (k b) history q) : Reaches (.attempt k) history q

theorem Prog.Reaches.trans {p q r : Prog E α} {h₁ h₂ : List (Entry E)} (hpq : p.Reaches h₁ q)
    (hqr : q.Reaches h₂ r) : p.Reaches (h₁ ++ h₂) r := by
  induction hpq with
  | refl p => exact hqr
  | exec e _ ih => exact .exec e (ih hqr)
  | failed _ ih => exact .failed (ih hqr)
  | commit b _ ih => exact .commit b (ih hqr)
  | attempt b _ ih => exact .attempt b (ih hqr)

/-- The statements of a history are among those that the program may execute. -/
theorem Prog.Uses.reaches {S : E.Statement → Prop} {p q : Prog E α} {history : List (Entry E)}
    (hp : p.Uses S) (h : p.Reaches history q) : ∀ e ∈ history, S e.st := by
  induction h with
  | refl p => simp
  | exec e _ ih =>
    intro e' he'
    rcases List.mem_cons.mp he' with rfl | he'
    · exact hp.1
    · exact ih (hp.2 _) e' he'
  | failed _ ih => exact ih (hp.2 none)
  | commit b _ ih => exact ih (hp b)
  | attempt b _ ih => exact ih (hp b)

/-- On every path of the program, which continues the given history, the history satisfies `Q` at
each commit and, together with the result, `R` at the end. -/
def Prog.Along (Q : List (Entry E) → Prop) (R : α → List (Entry E) → Prop) :
    Prog E α → List (Entry E) → Prop
  | .ret a, history => R a history
  | .exec st k, history => (k none).Along Q R history ∧
    ∀ seen rows inserted, (k (some rows)).Along Q R (history ++ [⟨st, seen, rows, inserted⟩])
  | .commit k, history => Q history ∧ ∀ ok, (k ok).Along Q R history
  | .attempt k, history => ∀ ok, (k ok).Along Q R history

theorem Prog.Along.bind {Q : List (Entry E) → Prop} {R : β → List (Entry E) → Prop}
    {p : Prog E α} {f : α → Prog E β} {history : List (Entry E)}
    (h : p.Along Q (fun a history' => (f a).Along Q R history') history) :
    (p >>= f).Along Q R history := by
  change (p.bind f).Along Q R history
  induction p generalizing history with
  | ret a => exact h
  | exec st k ih => exact ⟨ih none h.1, fun seen rows inserted => ih _ (h.2 seen rows inserted)⟩
  | commit k ih => exact ⟨h.1, fun ok => ih ok (h.2 ok)⟩
  | attempt k ih => exact fun ok => ih ok (h ok)

theorem Prog.Along.mono {Q : List (Entry E) → Prop} {R R' : α → List (Entry E) → Prop}
    {p : Prog E α} {history : List (Entry E)} (h : p.Along Q R history)
    (hR : ∀ a history', R a history' → R' a history') : p.Along Q R' history := by
  induction p generalizing history with
  | ret a => exact hR a history h
  | exec st k ih => exact ⟨ih none h.1, fun seen rows inserted => ih _ (h.2 seen rows inserted)⟩
  | commit k ih => exact ⟨h.1, fun ok => ih ok (h.2 ok)⟩
  | attempt k ih => exact fun ok => ih ok (h ok)

/-- **Paths.** What holds along a program holds of the histories that transactions have. -/
theorem Prog.Reaches.along {Q : List (Entry E) → Prop} {R : α → List (Entry E) → Prop}
    {p q : Prog E α} {history history' : List (Entry E)} (h : p.Reaches history' q)
    (hp : p.Along Q R history) : q.Along Q R (history ++ history') := by
  induction h generalizing history with
  | refl p => rwa [List.append_nil]
  | exec e _ ih =>
    have hrest := ih (hp.2 e.seen e.rows e.inserted)
    rwa [List.append_assoc] at hrest
  | failed _ ih => exact ih hp.1
  | commit b _ ih => exact ih (hp.2 b)
  | attempt b _ ih => exact ih (hp b)

/-- The entry is what its statement returns and inserts in the database that it saw, when its own
transaction had inserted `own`. -/
def Entry.Valid {L : Type} (commits : List (Commit E L)) (own : E.Tables) (e : Entry E) : Prop :=
  e.seen ≤ commits.length ∧ ∃ sequences rows, e.rows.Perm rows ∧
    (E.exec e.st (tablesOf (commits.take e.seen) + own) sequences).2 = some (rows, e.inserted)

/-- The entries of a history are valid one after the other; `own` is what was inserted before. -/
def ValidHistory {L : Type} (commits : List (Commit E L)) : E.Tables → List (Entry E) → Prop
  | _, [] => True
  | own, e :: history => e.Valid commits own ∧ ValidHistory commits (own + e.inserted) history

/-- The rows that the statements of a history have inserted. -/
def inserted (history : List (Entry E)) : E.Tables := (history.map Entry.inserted).sum

theorem Entry.Valid.mono {L : Type} {commits : List (Commit E L)} {own : E.Tables} {e : Entry E}
    (h : e.Valid commits own) (more : List (Commit E L)) : e.Valid (commits ++ more) own := by
  obtain ⟨hseen, sequences, rows, hperm, hexec⟩ := h
  refine ⟨by rw [List.length_append]; omega, sequences, rows, hperm, ?_⟩
  rw [List.take_append_of_le_length hseen]
  exact hexec

theorem ValidHistory.mono {L : Type} {commits : List (Commit E L)} {own : E.Tables}
    {history : List (Entry E)} (h : ValidHistory commits own history)
    (more : List (Commit E L)) : ValidHistory (commits ++ more) own history := by
  induction history generalizing own with
  | nil => trivial
  | cons e history ih => exact ⟨h.1.mono more, ih h.2⟩

theorem ValidHistory.concat {L : Type} {commits : List (Commit E L)} {own : E.Tables}
    {history : List (Entry E)} {e : Entry E} (h : ValidHistory commits own history)
    (he : e.Valid commits (own + inserted history)) :
    ValidHistory commits own (history ++ [e]) := by
  induction history generalizing own with
  | nil => exact ⟨by simpa [inserted] using he, trivial⟩
  | cons e' history ih =>
    refine ⟨h.1, ih h.2 ?_⟩
    simpa [inserted, add_assoc] using he

/-- What is known of a transaction, whatever its program does. -/
structure Transaction.Traced {L : Type} (body : L → Prog E α) (commits : List (Commit E L))
    (t : Transaction E L α) : Prop where
  reaches : (body t.label).Reaches t.history t.prog
  /-- Nothing else than the rows inserted so far is pending. -/
  own : ∀ own, t.own = some own → own = inserted t.history
  valid : ValidHistory commits 0 t.history

theorem Transaction.Traced.mono {L : Type} {body : L → Prog E α} {commits : List (Commit E L)}
    {t : Transaction E L α} (h : t.Traced body commits) (more : List (Commit E L)) :
    t.Traced body (commits ++ more) :=
  ⟨h.reaches, h.own, h.valid.mono more⟩

namespace Machine

variable {L : Type} {body : L → Prog E α} {m m' : Machine E L α}

/-- The entry of an action records what the action has done. -/
theorem entry_spec {t : Transaction E L α} {choice : Choice} {eff : Prog.Effect E α}
    (h : t.prog.act m.tables m.sequences t.own choice = some eff) :
    t.prog.Reaches (m.entry t choice).toList eff.prog ∧
      (∀ own', eff.own = some own' → ∃ own, t.own = some own ∧
        own' = own + inserted (m.entry t choice).toList) ∧
      ∀ e, m.entry t choice = some e → ∃ own, t.own = some own ∧ e.Valid m.commits own := by
  obtain ⟨label, prog, own, history⟩ := t
  dsimp only at h ⊢
  cases prog with
  | ret a => cases h
  | commit k =>
    have hnone : m.entry (⟨label, .commit k, own, history⟩ : Transaction E L α) choice = none := by
      cases choice <;> rfl
    rw [hnone]
    refine ⟨?_, fun own' h' => ?_, fun e he => by cases he⟩
    · cases choice <;> cases own <;> cases h <;> exact .commit _ (.refl _)
    · cases choice <;> cases own <;> cases h <;> cases h'
  | attempt k =>
    have hnone : m.entry (⟨label, .attempt k, own, history⟩ : Transaction E L α) choice = none := by
      cases choice <;> rfl
    rw [hnone]
    refine ⟨?_, fun own' h' => ?_, fun e he => by cases he⟩
    · cases choice <;> cases h <;> exact .attempt _ (.refl _)
    · cases choice <;> cases h <;> exact ⟨own', h', (add_zero _).symm⟩
  | exec st k =>
    cases choice with
    | fail =>
      cases h
      exact ⟨.failed (.refl _), fun _ h' => (by cases h'), fun _ he => (by cases he)⟩
    | proceed order =>
      cases own with
      | none =>
        cases h
        exact ⟨.failed (.refl _), fun _ h' => (by cases h'), fun _ he => (by cases he)⟩
      | some own =>
        simp only [Prog.act, Option.some.injEq, Prog.execute] at h
        simp only [entry]
        rcases hexec : E.exec st (m.tables + own) m.sequences with ⟨sequences, _ | ⟨rows, ins⟩⟩
        · rw [hexec] at h
          cases h
          exact ⟨.failed (.refl _), fun _ h' => (by cases h'), fun _ he => (by cases he)⟩
        · rw [hexec] at h
          cases h
          refine ⟨.exec ⟨st, _, _, _⟩ (.refl _), fun own' h' => ?_, fun e he => ?_⟩
          · cases h'
            exact ⟨own, rfl, by simp [inserted]⟩
          · cases he
            refine ⟨own, rfl, Nat.le_refl _, m.sequences, rows, order.arrange_perm rows, ?_⟩
            rw [List.take_length]
            exact congrArg Prod.snd hexec

theorem Transaction.Traced.of_act {t : Transaction E L α} {choice : Choice} {eff : Prog.Effect E α}
    (ht : t.Traced body m.commits)
    (h : t.prog.act m.tables m.sequences t.own choice = some eff) :
    Transaction.Traced body m.commits { t with
      prog := eff.prog, own := eff.own, history := t.history ++ (m.entry t choice).toList } := by
  obtain ⟨hreach, hown, hentry⟩ := entry_spec h
  refine ⟨ht.reaches.trans hreach, fun own' h' => ?_, ?_⟩
  · obtain ⟨own, hown', rfl⟩ := hown own' h'
    rw [ht.own own hown']
    simp [inserted]
  · cases he : m.entry t choice with
    | none => simpa using ht.valid
    | some e =>
      obtain ⟨own, hown', hvalid⟩ := hentry e he
      refine ht.valid.concat ?_
      rw [zero_add, ← ht.own own hown']
      exact hvalid

/-- All transactions are traced. -/
def Traced (body : L → Prog E α) (m : Machine E L α) : Prop :=
  ∀ t ∈ m.txns, t.Traced body m.commits

theorem Traced.of_step {e : Event L} (hm : m.Traced body) (h : m.step body e = some m') :
    m'.Traced body := by
  cases e with
  | call l =>
    cases h
    intro t ht
    rcases List.mem_append.mp ht with ht | ht
    · exact hm t ht
    · rw [List.mem_singleton.mp ht]
      exact ⟨.refl _, fun own h => (by cases h; rfl), trivial⟩
  | act i choice =>
    obtain ⟨t, eff, ht, heff, -, rfl⟩ := step_act h
    intro t' ht'
    rcases List.mem_or_eq_of_mem_set ht' with ht' | rfl
    · exact (hm t' ht').mono _
    · exact (Transaction.Traced.of_act (hm t (List.mem_of_getElem? ht)) heff).mono _

/-- **Traces.** -/
theorem reachable_traced {sequences : E.Sequences}
    (h : Reachable (step body) (initial sequences) m) : m.Traced body :=
  h.invariant (fun _ _ _ hm hstep => hm.of_step hstep) fun _ ht => (by cases ht)

/-! ### Programs that are not interrupted -/

/-- The machine after a run of the `i`-th program alone, from `m` to its end. -/
structure Finished (m m' : Machine E L α) (i : ℕ) (t : Transaction E L α) (result : α × Conn E) :
    Prop where
  tables : m'.tables = result.2.tables
  sequences : m'.sequences = result.2.sequences
  txn : ∃ own history, m'.txns = m.txns.set i ⟨t.label, .ret result.1, own, history⟩

/-- No other transaction is open. -/
def Alone (m : Machine E L α) (i : ℕ) : Prop :=
  ∀ j t, m.txns[j]? = some t → j ≠ i → t.own = none

theorem Alone.free {i : ℕ} (h : m.Alone i) (own : Option E.Tables) : m.free i own := by
  cases own with
  | none => rfl
  | some own =>
    refine List.all_eq_true.mpr fun (t, j) hmem => ?_
    have ht : m.txns[j]? = some t := List.mem_zipIdx_iff_getElem?.mp hmem
    by_cases hj : j = i
    · simp [hj]
    · simp [h j t ht hj]

theorem Alone.of_set {i : ℕ} {t : Transaction E L α} (h : m.Alone i)
    (htxns : m'.txns = m.txns.set i t) : m'.Alone i := by
  intro j t' ht' hj
  rw [htxns, List.getElem?_set_ne hj.symm] at ht'
  exact h j t' ht' hj

/-- What an action leaves behind, for the rest of the program. -/
theorem eval_of_act {p : Prog E α} {tables : E.Tables} {sequences : E.Sequences}
    {own : Option E.Tables} {choices : ℕ → Choice} {eff : Prog.Effect E α}
    (h : p.act tables sequences own (choices 0) = some eff) :
    p.eval ⟨tables, sequences, own, choices⟩ =
      eff.prog.eval ⟨tables + eff.committed.getD 0, eff.sequences, eff.own, later choices⟩ := by
  cases p with
  | ret a => cases h
  | exec st k =>
    simp only [Prog.act, Prog.eval] at h ⊢
    generalize choices 0 = choice at h ⊢
    cases choice with
    | fail =>
      cases h
      simp
    | proceed order =>
      cases own with
      | none =>
        simp only [Prog.execute, Option.some.injEq] at h
        subst h
        simp
      | some own =>
        simp only [Prog.execute, Option.some.injEq] at h
        dsimp only
        generalize E.exec st (tables + own) sequences = r at h ⊢
        obtain ⟨sequences', _ | ⟨rows, inserted⟩⟩ := r <;>
        · subst h
          simp
  | commit k =>
    simp only [Prog.act, Prog.eval] at h ⊢
    generalize choices 0 = choice at h ⊢
    cases choice <;> cases own <;> cases h <;> simp
  | attempt k =>
    simp only [Prog.act, Prog.eval] at h ⊢
    generalize choices 0 = choice at h ⊢
    cases choice <;> cases h <;> simp

/-- The programs that do in the machine what they do alone. -/
def Adequate (body : L → Prog E α) (i : ℕ) (p : Prog E α) : Prop :=
  ∀ (m : Machine E L α) (t : Transaction E L α), t.prog = p → m.txns[i]? = some t → m.Alone i →
    ∀ choices, ∃ es m', run (step body) m es = some m' ∧ (∀ e ∈ es, ∃ choice, e = .act i choice) ∧
      Finished m m' i t (p.eval ⟨m.tables, m.sequences, t.own, choices⟩)

/-- One action more. -/
theorem Adequate.of_act {i : ℕ} {p : Prog E α} (hret : ∀ a, p ≠ .ret a)
    (h : ∀ tables sequences own choice eff, p.act tables sequences own choice = some eff →
      Adequate body i eff.prog) : Adequate body i p := by
  rintro m t rfl ht halone choices
  have hlt : i < m.txns.length := (List.getElem?_eq_some_iff.mp ht).1
  obtain ⟨eff, heff⟩ : ∃ eff, t.prog.act m.tables m.sequences t.own (choices 0) = some eff := by
    cases hp : t.prog with
    | ret a => exact absurd hp (hret a)
    | exec | commit | attempt => cases choices 0 <;> cases t.own <;> exact ⟨_, rfl⟩
  have hstep := step_of_act body ht heff (halone.free eff.own)
  generalize hm₁ : (⟨eff.sequences, _, _⟩ : Machine E L α) = m₁ at hstep
  have htxns : m₁.txns = m.txns.set i ⟨t.label, eff.prog, eff.own, t.history ++
      (m.entry t (choices 0)).toList⟩ := by rw [← hm₁]
  have ht₁ : m₁.txns[i]? = some ⟨t.label, eff.prog, eff.own, t.history ++
      (m.entry t (choices 0)).toList⟩ := by
    rw [htxns, List.getElem?_set_self hlt]
  obtain ⟨es, m', hrun, hes, htables, hsequences, own, history, hfin⟩ :=
    h _ _ _ _ eff heff m₁ _ rfl ht₁ (halone.of_set htxns) (later choices)
  have heval : t.prog.eval ⟨m.tables, m.sequences, t.own, choices⟩ =
      eff.prog.eval ⟨m₁.tables, m₁.sequences, eff.own, later choices⟩ := by
    rw [eval_of_act heff, ← hm₁]
    congr 2
    cases eff.committed <;> simp [tables, tablesOf]
  refine ⟨.act i (choices 0) :: es, m', ?_, ?_, ?_⟩
  · rw [run_cons_of_step hstep, hrun]
  · rintro e (_ | ⟨_, he⟩)
    · exact ⟨_, rfl⟩
    · exact hes e he
  · rw [heval]
    exact ⟨htables, hsequences, own, history, by rw [hfin, htxns, List.set_set]⟩

/-- What remains of a program after an action is one of its branches. -/
theorem exists_branch {P : Prog E α → Prop} {p : Prog E α} {tables : E.Tables}
    {sequences : E.Sequences} {own : Option E.Tables} {choice : Choice} {eff : Prog.Effect E α}
    (h : p.act tables sequences own choice = some eff)
    (hexec : ∀ st k, p = .exec st k → ∀ rows, P (k rows))
    (hcommit : ∀ k, p = .commit k → ∀ ok, P (k ok))
    (hattempt : ∀ k, p = .attempt k → ∀ ok, P (k ok)) : P eff.prog := by
  cases p with
  | ret a => cases h
  | exec st k =>
    have hk := hexec st k rfl
    cases choice with
    | fail =>
      cases h
      exact hk none
    | proceed order =>
      cases h
      cases own with
      | none => exact hk none
      | some own =>
        simp only [Prog.execute]
        rcases E.exec st (tables + own) sequences with ⟨_, _ | ⟨rows, _⟩⟩
        · exact hk none
        · exact hk _
  | commit k => cases choice <;> cases own <;> cases h <;> exact hcommit k rfl _
  | attempt k => cases choice <;> cases h <;> exact hattempt k rfl _

/-- **Adequacy.** While no other transaction is open, a program can run to its end, and does what
it does alone. -/
theorem adequate (i : ℕ) (p : Prog E α) : Adequate body i p := by
  induction p with
  | ret a =>
    rintro m ⟨label, prog, own, history⟩ rfl ht halone choices
    have hlt : i < m.txns.length := (List.getElem?_eq_some_iff.mp ht).1
    refine ⟨[], m, rfl, by simp, rfl, rfl, own, history, ?_⟩
    obtain ⟨_, hget⟩ := List.getElem?_eq_some_iff.mp ht
    exact (hget ▸ List.set_getElem_self hlt).symm
  | exec st k ih =>
    refine .of_act (fun _ h => by cases h) fun tables sequences own choice eff h => ?_
    exact exists_branch h (fun _ _ heq => by cases heq; exact ih) (fun _ heq => by cases heq)
      fun _ heq => by cases heq
  | commit k ih =>
    refine .of_act (fun _ h => by cases h) fun tables sequences own choice eff h => ?_
    exact exists_branch h (fun _ _ heq => by cases heq) (fun _ heq => by cases heq; exact ih)
      fun _ heq => by cases heq
  | attempt k ih =>
    refine .of_act (fun _ h => by cases h) fun tables sequences own choice eff h => ?_
    exact exists_branch h (fun _ _ heq => by cases heq) (fun _ heq => by cases heq)
      fun _ heq => by cases heq; exact ih

end Machine

end ReadCommitted
