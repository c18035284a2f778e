import Elegram.Foundation.Outcomes

/-!
# Linearizability

Programs that take effect at one moment. `Prog.Meets` follows a program through its statements
while others commit: each statement finds a database that extends the one before, and one of the
actions is the moment at which the program does what its contract says, either its commit or its
last statement. `Machine.exists_linearization` is the consequence for whole runs: the calls that
have returned can be put in an order that respects real time, in which each does at once what its
contract says, and which leads to the database of the run.
-/

namespace ReadCommitted

open Transition

variable {E : Engine} {L α β ρ : Type}

/-! ### Programs that take effect at one moment -/

/-- What a program is to do. What is committed and what its transaction has inserted satisfy
`holds`, and the transaction is committed when `permits` holds. -/
structure Contract (E : Engine) (ρ : Type) where
  holds : E.Tables → E.Tables → E.Sequences → Prop
  permits : E.Tables → Prop
  /-- From some tables, with which result, to which tables. -/
  does : E.Tables → ρ → E.Tables → Prop

/-- How far a program has come. -/
inductive Stage (E : Engine) (ρ : Type)
  /-- It has not taken effect. `tables` were committed at its last statement. -/
  | before (tables own : E.Tables)
  /-- Its last statement was the moment, and requires `P` of the result. -/
  | after (own : Option E.Tables) (P : ρ → Prop)
  /-- Its commit was the moment, and requires `P` of the result. -/
  | committed (P : ρ → Prop)
  /-- One of its actions has failed of itself. -/
  | failed

/-- The result is as required. -/
def Stage.Returns (a : ρ) : Stage E ρ → Prop
  | .before .. => False
  | .after _ P | .committed P => P a
  | .failed => True

/-- Rows have been added. -/
def Extends (s t : E.Tables) : Prop := ∃ more, t = s + more

theorem Extends.refl (s : E.Tables) : Extends s s := ⟨0, (add_zero s).symm⟩

theorem Extends.trans {s t u : E.Tables} (h : Extends s t) (h' : Extends t u) : Extends s u := by
  obtain ⟨more, rfl⟩ := h
  obtain ⟨more', rfl⟩ := h'
  exact ⟨more + more', add_assoc s more more'⟩

/-- A program that runs alone only adds rows. -/
theorem Prog.extends_eval (p : Prog E α) (c : Conn E) : Extends c.tables (p.eval c).2.tables := by
  induction p generalizing c with
  | ret a => exact .refl _
  | exec st k ih =>
    rw [Prog.eval]
    split
    · split <;> exact ih _ _
    · exact ih _ _
  | commit k ih =>
    rw [Prog.eval]
    split
    · exact .trans ⟨_, rfl⟩ (ih _ _)
    · exact ih _ _
  | attempt k ih =>
    rw [Prog.eval]
    split <;> exact ih _ _

namespace Prog

/-- The program meets the contract from the given stage on: its result satisfies `R` together with
the stage at the end. -/
def Meets (C : Contract E ρ) (R : α → Stage E ρ → Prop) : Prog E α → Stage E ρ → Prop
  | .ret a, s => R a s
  | .attempt k, s =>
    match s with
    | .committed _ => False
    | _ => (k true).Meets C R s ∧ (k false).Meets C R .failed
  | .exec st k, s =>
    match s with
    | .before tables own => (k none).Meets C R .failed ∧
      ∀ tables' sequences, Extends tables tables' → C.holds tables' own sequences →
        ((E.exec st (tables' + own) sequences).2 = none →
          (k none).Meets C R (.after none fun a => C.does tables' a tables')) ∧
        ∀ rows inserted (order : RowOrder),
          (E.exec st (tables' + own) sequences).2 = some (rows, inserted) →
          (k (some (order.arrange rows))).Meets C R
            (.after (some (own + inserted)) fun a => C.does tables' a tables') ∨
          (k (some (order.arrange rows))).Meets C R (.before tables' (own + inserted))
    | .failed => ∀ rows, (k rows).Meets C R .failed
    | .after .. | .committed _ => False
  | .commit k, s =>
    match s with
    | .before tables own => (k false).Meets C R .failed ∧
      ∀ tables' sequences, Extends tables tables' → C.holds tables' own sequences →
        C.permits tables' →
          (k true).Meets C R (.committed fun a => C.does tables' a (tables' + own))
    | .after own P => own = some 0 ∧ (k true).Meets C R (.after none P) ∧
      (k false).Meets C R .failed
    | .committed _ | .failed => False

variable {C : Contract E ρ}

theorem Meets.bind {R : β → Stage E ρ → Prop} {p : Prog E α} {f : α → Prog E β} {s : Stage E ρ}
    (h : p.Meets C (fun a s' => (f a).Meets C R s') s) : (p >>= f).Meets C R s := by
  change (p.bind f).Meets C R s
  induction p generalizing s with
  | ret a => exact h
  | attempt k ih =>
    cases s with
    | committed P => exact h.elim
    | before | after | failed => exact ⟨ih true h.1, ih false h.2⟩
  | exec st k ih =>
    cases s with
    | before tables own =>
      refine ⟨ih none h.1, fun tables' sequences hext hholds => ⟨fun hnone => ?_, ?_⟩⟩
      · exact ih none ((h.2 tables' sequences hext hholds).1 hnone)
      · intro rows inserted order hsome
        exact ((h.2 tables' sequences hext hholds).2 rows inserted order hsome).imp (ih _) (ih _)
    | failed => exact fun rows => ih rows (h rows)
    | after | committed => exact h.elim
  | commit k ih =>
    cases s with
    | before tables own =>
      exact ⟨ih false h.1, fun tables' sequences hext hholds hpermits =>
        ih true (h.2 tables' sequences hext hholds hpermits)⟩
    | after own P => exact ⟨h.1, ih true h.2.1, ih false h.2.2⟩
    | committed | failed => exact h.elim

theorem Meets.mono {R R' : α → Stage E ρ → Prop} {p : Prog E α} {s : Stage E ρ}
    (h : p.Meets C R s) (hR : ∀ a s', R a s' → R' a s') : p.Meets C R' s := by
  induction p generalizing s with
  | ret a => exact hR a s h
  | attempt k ih =>
    cases s with
    | committed P => exact h.elim
    | before | after | failed => exact ⟨ih true h.1, ih false h.2⟩
  | exec st k ih =>
    cases s with
    | before tables own =>
      refine ⟨ih none h.1, fun tables' sequences hext hholds => ⟨fun hnone => ?_, ?_⟩⟩
      · exact ih none ((h.2 tables' sequences hext hholds).1 hnone)
      · intro rows inserted order hsome
        exact ((h.2 tables' sequences hext hholds).2 rows inserted order hsome).imp (ih _) (ih _)
    | failed => exact fun rows => ih rows (h rows)
    | after | committed => exact h.elim
  | commit k ih =>
    cases s with
    | before tables own =>
      exact ⟨ih false h.1, fun tables' sequences hext hholds hpermits =>
        ih true (h.2 tables' sequences hext hholds hpermits)⟩
    | after own P => exact ⟨h.1, ih true h.2.1, ih false h.2.2⟩
    | committed | failed => exact h.elim

/-! ### Programs of one query -/

/-- The choices of a program in which nothing fails. -/
def always (order : RowOrder) : ℕ → Choice := fun _ => .proceed order

/-- The program does not access the database. -/
def Idle : Prog E α → Prop
  | .ret _ => True
  | .exec .. | .commit .. => False
  | .attempt k => ∀ ok, (k ok).Idle

theorem Idle.bind {p : Prog E α} {f : α → Prog E β} (hp : p.Idle) (hf : ∀ a, (f a).Idle) :
    (p >>= f).Idle := by
  change (p.bind f).Idle
  induction p with
  | ret a => exact hf a
  | exec | commit => exact hp.elim
  | attempt k ih => exact fun ok => ih ok (hp ok)

/-- The program executes one query, commits at most, and does not access the database after it. -/
def OneQuery (st : E.Statement) : Prog E α → Prop
  | .attempt k => (k false).Idle ∧ ∃ k', k true = .exec st k' ∧ (k' none).Idle ∧
    ∀ rows, (k' (some rows)).Idle ∨ ∃ k'', k' (some rows) = .commit k'' ∧ ∀ ok, (k'' ok).Idle
  | _ => False

theorem OneQuery.bind {st : E.Statement} {p : Prog E α} {f : α → Prog E β} (hp : p.OneQuery st)
    (hf : ∀ a, (f a).Idle) : (p >>= f).OneQuery st := by
  cases p with
  | ret | exec | commit => exact hp.elim
  | attempt k =>
    obtain ⟨hfalse, k', hk, hnone, hrows⟩ := hp
    change (Prog.attempt fun ok => (k ok).bind f).OneQuery st
    refine ⟨hfalse.bind hf, fun rows => (k' rows).bind f, congrArg (Prog.bind · f) hk,
      hnone.bind hf, fun rows => ?_⟩
    rcases hrows rows with hidle | ⟨k'', hcommit, hidle⟩
    · exact .inl (hidle.bind hf)
    · exact .inr ⟨fun ok => (k'' ok).bind f, congrArg (Prog.bind · f) hcommit,
        fun ok => (hidle ok).bind hf⟩

theorem Idle.meets_failed {f : α → ρ} {p : Prog E α} (h : p.Idle) :
    p.Meets C (fun a s => s.Returns (f a)) .failed := by
  induction p with
  | ret a => trivial
  | exec | commit => exact h.elim
  | attempt k ih => exact ⟨ih true (h true), ih false (h false)⟩

theorem Idle.meets_after {f : α → ρ} {p : Prog E α} (h : p.Idle) {own own' : Option E.Tables}
    {P : ρ → Prop} {tables : E.Tables} {sequences : E.Sequences} {order : RowOrder}
    (hP : P (f (p.eval ⟨tables, sequences, own', always order⟩).1)) :
    p.Meets C (fun a s => s.Returns (f a)) (.after own P) := by
  induction p with
  | ret a => exact hP
  | exec | commit => exact h.elim
  | attempt k ih => exact ⟨ih true (h true) hP, (h false).meets_failed⟩

/-- **Queries.** A program of one query meets the contracts that allow what it does alone. -/
theorem OneQuery.meets {st : E.Statement} {f : α → ρ} {p : Prog E α} (h : p.OneQuery st)
    (hreads : ∀ tables sequences rows inserted,
      (E.exec st tables sequences).2 = some (rows, inserted) → inserted = 0)
    (hdoes : ∀ tables sequences order, C.holds tables 0 sequences →
      C.does tables (f (p.eval ⟨tables, sequences, some 0, always order⟩).1) tables) :
    p.Meets C (fun a s => s.Returns (f a)) (.before 0 0) := by
  cases p with
  | ret | exec | commit => exact h.elim
  | attempt k =>
    obtain ⟨hfalse, k', hk, hnone, hrows⟩ := h
    refine ⟨?_, hfalse.meets_failed⟩
    -- what the program does alone, once its query has been executed
    have halone : ∀ tables sequences order, C.holds tables 0 sequences →
        ∀ own sequences' (rest : Prog E α),
        (Prog.exec st k').eval ⟨tables, sequences, some 0, always order⟩ =
          rest.eval ⟨tables, sequences', own, always order⟩ →
        C.does tables (f (rest.eval ⟨tables, sequences', own, always order⟩).1) tables := by
      intro tables sequences order hholds own sequences' rest heq
      have hall := hdoes tables sequences order hholds
      have hstart : (Prog.attempt k).eval ⟨tables, sequences, some 0, always order⟩ =
          (k true).eval ⟨tables, sequences, some 0, always order⟩ := rfl
      rwa [hstart, hk, heq] at hall
    rw [hk]
    refine ⟨hnone.meets_failed, fun tables sequences _ hholds => ⟨fun herror => ?_, ?_⟩⟩
    · rcases hexec : E.exec st (tables + 0) sequences with ⟨sequences', _ | result⟩
      · refine hnone.meets_after (halone tables sequences .stored hholds none
          sequences' _ ?_)
        simp only [eval, always, hexec]
        rfl
      · rw [hexec] at herror
        cases herror
    · intro rows inserted order hsome
      have hzero := hreads _ _ _ _ hsome
      subst hzero
      rcases hexec : E.exec st (tables + 0) sequences with ⟨sequences', result⟩
      rw [hexec] at hsome
      dsimp only at hsome
      subst hsome
      have heval : (Prog.exec st k').eval ⟨tables, sequences, some 0, always order⟩ =
          (k' (some (order.arrange rows))).eval ⟨tables, sequences', some (0 + 0),
            always order⟩ := by
        simp only [eval, always, hexec]
        rfl
      have hrest := halone tables sequences order hholds _ _ _ heval
      left
      rcases hrows (order.arrange rows) with hidle | ⟨k'', hcommit, hidle⟩
      · exact hidle.meets_after hrest
      · rw [hcommit] at hrest ⊢
        exact ⟨by rw [add_zero], (hidle true).meets_after hrest, (hidle false).meets_failed⟩

/-- What the execution of a statement leaves behind. -/
theorem act_exec {tables : E.Tables} {sequences : E.Sequences} {own : Option E.Tables}
    {choice : Choice} {st : E.Statement} {k : Option (List (E.Row st)) → Prog E α}
    {eff : Effect E α} (h : (Prog.exec st k).act tables sequences own choice = some eff) :
    eff.committed = none ∧
      ((eff.prog = k none ∧ eff.own = none ∧ (choice = .fail ∨ own = none ∨
          ∃ order rows, choice = .proceed order ∧ own = some rows ∧
            (E.exec st (tables + rows) sequences).2 = none)) ∨
        ∃ order own' rows inserted, choice = .proceed order ∧ own = some own' ∧
          (E.exec st (tables + own') sequences).2 = some (rows, inserted) ∧
          eff.prog = k (some (order.arrange rows)) ∧ eff.own = some (own' + inserted)) := by
  cases choice with
  | fail =>
    cases h
    exact ⟨rfl, .inl ⟨rfl, rfl, .inl rfl⟩⟩
  | proceed order =>
    cases own with
    | none =>
      cases h
      exact ⟨rfl, .inl ⟨rfl, rfl, .inr (.inl rfl)⟩⟩
    | some own =>
      simp only [act, Option.some.injEq, execute] at h
      rcases hexec : E.exec st (tables + own) sequences with ⟨sequences', _ | ⟨rows, inserted⟩⟩
      · rw [hexec] at h
        cases h
        exact ⟨rfl, .inl ⟨rfl, rfl, .inr (.inr ⟨order, own, rfl, rfl, congrArg Prod.snd hexec⟩)⟩⟩
      · rw [hexec] at h
        cases h
        exact ⟨rfl, .inr ⟨order, own, rows, inserted, rfl, rfl, congrArg Prod.snd hexec, rfl,
          rfl⟩⟩

end Prog

namespace Machine

variable (body : L → Prog E α)

/-- The `n`-th event of a run from `m` is an action of the `i`-th program, which finds `m₁` and
leaves `m₂`. -/
def ActsAt (m : Machine E L α) (es : List (Event L)) (i n : ℕ) (m₁ m₂ : Machine E L α) : Prop :=
  ∃ es₁ choice es₂, es = es₁ ++ .act i choice :: es₂ ∧ es₁.length = n ∧
    run (step body) m es₁ = some m₁ ∧ m₁.step body (.act i choice) = some m₂

/-- The action changes what is committed. -/
def ChangesAt (m : Machine E L α) (es : List (Event L)) (i n : ℕ) : Prop :=
  ∃ m₁ m₂, ActsAt body m es i n m₁ m₂ ∧ m₂.tables ≠ m₁.tables

/-- At this action, the call for `l` does what its contract says for the result `a`. -/
def TakesEffect (C : L → Contract E α) (m : Machine E L α) (es : List (Event L)) (i n : ℕ) (l : L)
    (a : α) : Prop :=
  ∃ m₁ m₂, ActsAt body m es i n m₁ m₂ ∧ (C l).does m₁.tables a m₂.tables

variable {body} {C : L → Contract E α} {m₀ m m' : Machine E L α} {es more : List (Event L)}
  {i j n : ℕ}

theorem ActsAt.append {m₁ m₂ : Machine E L α} (h : ActsAt body m₀ es i n m₁ m₂)
    (more : List (Event L)) : ActsAt body m₀ (es ++ more) i n m₁ m₂ := by
  obtain ⟨es₁, choice, es₂, rfl, hn, hrun, hstep⟩ := h
  exact ⟨es₁, choice, es₂ ++ more, by rw [List.append_assoc, List.cons_append], hn, hrun, hstep⟩

theorem TakesEffect.append {l : L} {a : α} (h : TakesEffect body C m₀ es i n l a)
    (more : List (Event L)) : TakesEffect body C m₀ (es ++ more) i n l a := by
  obtain ⟨m₁, m₂, hact, hdoes⟩ := h
  exact ⟨m₁, m₂, hact.append more, hdoes⟩

/-- An action in a run that is one event longer is the last event or was there before. -/
theorem ActsAt.of_concat {e : Event L} {m₁ m₂ : Machine E L α}
    (h : ActsAt body m₀ (es ++ [e]) i n m₁ m₂) :
    ActsAt body m₀ es i n m₁ m₂ ∨
      n = es.length ∧ run (step body) m₀ es = some m₁ ∧
        ∃ choice, e = .act i choice ∧ m₁.step body e = some m₂ := by
  obtain ⟨es₁, choice, es₂, heq, rfl, hrun, hstep⟩ := h
  rcases List.eq_nil_or_concat es₂ with rfl | ⟨es₂, e', rfl⟩
  · obtain ⟨rfl, hlast⟩ := List.append_inj' heq rfl
    cases hlast
    exact .inr ⟨rfl, hrun, choice, rfl, hstep⟩
  · have heq' : es ++ [e] = (es₁ ++ .act i choice :: es₂) ++ [e'] := by
      rw [heq, List.append_assoc, List.cons_append, List.concat_eq_append]
    obtain ⟨rfl, -⟩ := List.append_inj' heq' rfl
    exact .inl ⟨es₁, choice, es₂, rfl, rfl, hrun, hstep⟩

theorem actsAt_concat {choice : Choice} (hrun : run (step body) m₀ es = some m)
    (hstep : m.step body (.act i choice) = some m') :
    ActsAt body m₀ (es ++ [.act i choice]) i es.length m m' :=
  ⟨es, choice, [], rfl, rfl, hrun, hstep⟩

/-! ### Where a program stands -/

variable (body C) in
/-- What the stage of a program says about the run so far. -/
def Stands (m₀ : Machine E L α) (es : List (Event L)) (m : Machine E L α) (i : ℕ)
    (t : Transaction E L α) : Stage E α → Prop
  | .before tables own => t.own = some own ∧ Extends tables m.tables ∧ .act i .fail ∉ es ∧
      ∀ n, ¬ ChangesAt body m₀ es i n
  | .after own P => t.own = own ∧ .act i .fail ∉ es ∧ (∀ n, ¬ ChangesAt body m₀ es i n) ∧
      ∃ n, ∀ a, P a → TakesEffect body C m₀ es i n t.label a
  | .committed P => .act i .fail ∉ es ∧ ∃ n, (∀ n', ChangesAt body m₀ es i n' → n' = n) ∧
      ∀ a, P a → TakesEffect body C m₀ es i n t.label a
  | .failed => .act i .fail ∈ es ∧ ∀ n, ¬ ChangesAt body m₀ es i n

variable (body C) in
/-- Every program meets its contract from where it stands. -/
def Tracked (m₀ : Machine E L α) (es : List (Event L)) (m : Machine E L α) : Prop :=
  ∀ i t, m.txns[i]? = some t → ∃ s, t.prog.Meets (C t.label) (fun a s' => s'.Returns a) s ∧
    Stands body C m₀ es m i t s

/-- Every open transaction is in a database that its contract allows for. -/
def Holding (C : L → Contract E α) (m : Machine E L α) : Prop :=
  ∀ t ∈ m.txns, ∀ own, t.own = some own → (C t.label).holds m.tables own m.sequences

/-- A transaction does not commit when its contract does not permit it. -/
def Permitted (C : L → Contract E α) (m : Machine E L α) : Event L → Prop
  | .act i (.proceed _) => ∀ t k own, m.txns[i]? = some t → t.prog = .commit k →
      t.own = some own → (C t.label).permits m.tables
  | _ => True

theorem extends_of_step {e : Event L} (hstep : m.step body e = some m') :
    Extends m.tables m'.tables := by
  cases e with
  | call l =>
    cases hstep
    exact .refl _
  | act i choice =>
    obtain ⟨t, eff, -, -, -, rfl⟩ := step_act hstep
    exact ⟨_, tablesOf_append _ _⟩

/-- Every program has been started for a call. -/
theorem label_of_step {P : L → Prop} {e : Event L} (hstep : m.step body e = some m')
    (h : ∀ t ∈ m.txns, P t.label) (he : ∀ l, e = .call l → P l) : ∀ t ∈ m'.txns, P t.label := by
  intro t ht
  cases e with
  | call l =>
    cases hstep
    rcases List.mem_append.mp ht with ht | ht
    · exact h t ht
    · rw [List.mem_singleton.mp ht]
      exact he l rfl
  | act i choice =>
    obtain ⟨t₀, eff, ht₀, -, -, rfl⟩ := step_act hstep
    rcases List.mem_or_eq_of_mem_set ht with ht | rfl
    · exact h t ht
    · exact h t₀ (List.mem_of_getElem? ht₀)

theorem label_of_run {P : L → Prop} (hrun : run (step body) m₀ es = some m)
    (h : ∀ t ∈ m₀.txns, P t.label) (hes : ∀ l, .call l ∈ es → P l) :
    ∀ t ∈ m.txns, P t.label := by
  induction es generalizing m₀ with
  | nil =>
    cases hrun
    exact h
  | cons e es ih =>
    rw [run_cons, Option.bind_eq_some_iff] at hrun
    obtain ⟨m₁, hstep, hrun⟩ := hrun
    exact ih hrun (label_of_step hstep h fun l hl => hes l (hl ▸ List.mem_cons_self ..))
      fun l hl => hes l (List.mem_cons_of_mem _ hl)

/-- Events of others do not change where a program stands. -/
theorem Stands.of_other {t : Transaction E L α} {s : Stage E α} {e : Event L}
    (h : Stands body C m₀ es m i t s) (hstep : m.step body e = some m')
    (he : ∀ choice, e ≠ .act i choice) : Stands body C m₀ (es ++ [e]) m' i t s := by
  have hfail : .act i .fail ∈ es ++ [e] ↔ .act i .fail ∈ es := by
    rw [List.mem_append, List.mem_singleton, or_iff_left fun heq => he _ heq.symm]
  have hchanges : ∀ n, ChangesAt body m₀ (es ++ [e]) i n → ChangesAt body m₀ es i n := by
    rintro n ⟨m₁, m₂, hact, hne⟩
    rcases hact.of_concat with hact | ⟨-, -, choice, heq, -⟩
    · exact ⟨m₁, m₂, hact, hne⟩
    · exact absurd heq (he choice)
  cases s with
  | before tables own =>
    obtain ⟨hown, hext, hno, hquiet⟩ := h
    exact ⟨hown, hext.trans (extends_of_step hstep), mt hfail.mp hno,
      fun n hn => hquiet n (hchanges n hn)⟩
  | after own P =>
    obtain ⟨hown, hno, hquiet, n, hpoint⟩ := h
    exact ⟨hown, mt hfail.mp hno, fun n hn => hquiet n (hchanges n hn), n,
      fun a ha => (hpoint a ha).append [e]⟩
  | committed P =>
    obtain ⟨hno, n, honly, hpoint⟩ := h
    exact ⟨mt hfail.mp hno, n, fun n' hn' => honly n' (hchanges n' hn'),
      fun a ha => (hpoint a ha).append [e]⟩
  | failed => exact ⟨hfail.mpr h.1, fun n hn => h.2 n (hchanges n hn)⟩

theorem changesAt_concat {choice : Choice} (hrun : run (step body) m₀ es = some m)
    (hstep : m.step body (.act i choice) = some m')
    (h : ChangesAt body m₀ (es ++ [.act i choice]) i n) :
    ChangesAt body m₀ es i n ∨ n = es.length ∧ m'.tables ≠ m.tables := by
  obtain ⟨m₁, m₂, hact, hne⟩ := h
  rcases hact.of_concat with hact | ⟨rfl, hrun', choice', -, hstep'⟩
  · exact .inl ⟨m₁, m₂, hact, hne⟩
  · cases hrun.symm.trans hrun'
    cases hstep.symm.trans hstep'
    exact .inr ⟨rfl, hne⟩

/-- **One action.** A program that meets its contract from its stage does so after its action. -/
theorem Stands.of_act {t : Transaction E L α} {s : Stage E α} {choice : Choice}
    {eff : Prog.Effect E α} (h : Stands body C m₀ es m i t s)
    (hmeets : t.prog.Meets (C t.label) (fun a s' => s'.Returns a) s)
    (hrun : run (step body) m₀ es = some m) (hstep : m.step body (.act i choice) = some m')
    (hact : t.prog.act m.tables m.sequences t.own choice = some eff)
    (htables : m'.tables = m.tables + eff.committed.getD 0)
    (hholds : ∀ own, t.own = some own → (C t.label).holds m.tables own m.sequences)
    (hpermits : choice ≠ .fail → ∀ k own, t.prog = .commit k → t.own = some own →
      (C t.label).permits m.tables) (history : List (Entry E)) :
    ∃ s', eff.prog.Meets (C t.label) (fun a s' => s'.Returns a) s' ∧
      Stands body C m₀ (es ++ [.act i choice]) m' i ⟨t.label, eff.prog, eff.own, history⟩ s' := by
  obtain ⟨label, prog, own₀, history₀⟩ := t
  dsimp only at hmeets hact hholds hpermits ⊢
  -- while the tables remain the same, the program has changed nothing
  have hquiet : m'.tables = m.tables → (∀ n, ¬ ChangesAt body m₀ es i n) →
      ∀ n, ¬ ChangesAt body m₀ (es ++ [.act i choice]) i n := by
    intro hsame hno n hn
    rcases changesAt_concat hrun hstep hn with hn | ⟨-, hne⟩
    · exact hno n hn
    · exact hne hsame
  have hcalm : choice ≠ .fail → .act i .fail ∉ es →
      (.act i .fail : Event L) ∉ es ++ [.act i choice] := by
    intro hne hno hmem
    rcases List.mem_append.mp hmem with hmem | hmem
    · exact hno hmem
    · cases List.mem_singleton.mp hmem
      exact hne rfl
  have hpoint := actsAt_concat hrun hstep
  -- a failure of an action that has not changed anything
  have hfailed : choice = .fail → m'.tables = m.tables → (∀ n, ¬ ChangesAt body m₀ es i n) →
      Stands body C m₀ (es ++ [.act i choice]) m' i ⟨label, eff.prog, eff.own, history⟩
        .failed := by
    rintro rfl hsame hno
    exact ⟨List.mem_append_right _ (List.mem_singleton_self _), hquiet hsame hno⟩
  cases s with
  | committed P => cases prog <;> first | cases hact | exact hmeets.elim
  | failed =>
    obtain ⟨hfail, hno⟩ := h
    have hstands : eff.committed = none →
        Stands body C m₀ (es ++ [.act i choice]) m' i ⟨label, eff.prog, eff.own, history⟩
          .failed := by
      intro hnone
      rw [hnone, Option.getD_none, add_zero] at htables
      exact ⟨List.mem_append_left _ hfail, hquiet htables hno⟩
    cases prog with
    | ret a => cases hact
    | attempt k =>
      cases choice with
      | fail =>
        cases hact
        exact ⟨.failed, hmeets.2, hstands rfl⟩
      | proceed order =>
        cases hact
        exact ⟨.failed, hmeets.1, hstands rfl⟩
    | exec st k =>
      obtain ⟨hnone, ⟨hprog, -⟩ | ⟨_, _, _, _, -, -, -, hprog, -⟩⟩ := Prog.act_exec hact <;>
      · rw [hprog]
        exact ⟨.failed, hmeets _, hprog ▸ hstands hnone⟩
    | commit k => exact hmeets.elim
  | after own P =>
    obtain ⟨hown, hno, hunchanged, point, hP⟩ := h
    dsimp only at hown
    subst hown
    have hstands : ∀ own, choice ≠ .fail → m'.tables = m.tables → eff.own = own →
        Stands body C m₀ (es ++ [.act i choice]) m' i ⟨label, eff.prog, eff.own, history⟩
          (.after own P) := fun own hne hsame hown =>
      ⟨hown, hcalm hne hno, hquiet hsame hunchanged, point, fun a ha => (hP a ha).append _⟩
    cases prog with
    | ret a => cases hact
    | attempt k =>
      cases choice with
      | fail =>
        cases hact
        exact ⟨.failed, hmeets.2, hfailed rfl (by simpa using htables) hunchanged⟩
      | proceed order =>
        cases hact
        exact ⟨.after own₀ P, hmeets.1, hstands own₀ (fun h => by cases h) (by simpa using htables)
          rfl⟩
    | exec st k => exact hmeets.elim
    | commit k =>
      obtain ⟨rfl, htrue, hfalse⟩ := hmeets
      cases choice with
      | fail =>
        cases hact
        exact ⟨.failed, hfalse, hfailed rfl (by simpa using htables) hunchanged⟩
      | proceed order =>
        cases hact
        exact ⟨.after none P, htrue, hstands none (fun h => by cases h) (by simpa using htables)
          rfl⟩
  | before tables own =>
    obtain ⟨hown, hext, hno, hunchanged⟩ := h
    dsimp only at hown
    subst hown
    cases prog with
    | ret a => cases hact
    | attempt k =>
      cases choice with
      | fail =>
        cases hact
        exact ⟨.failed, hmeets.2, hfailed rfl (by simpa using htables) hunchanged⟩
      | proceed order =>
        cases hact
        have hsame : m'.tables = m.tables := by simpa using htables
        exact ⟨.before tables own, hmeets.1, rfl, hsame ▸ hext, hcalm (fun h => by cases h) hno,
          hquiet hsame hunchanged⟩
    | exec st k =>
      obtain ⟨hfalse, hexec⟩ := hmeets
      obtain ⟨hnone, hcases⟩ := Prog.act_exec hact
      have hsame : m'.tables = m.tables := by rw [htables, hnone, Option.getD_none, add_zero]
      obtain ⟨herror, hrows⟩ := hexec m.tables m.sequences hext (hholds own rfl)
      have hmoment : ∀ a, (C label).does m.tables a m.tables →
          TakesEffect body C m₀ (es ++ [.act i choice]) i es.length label a := by
        intro a ha
        refine ⟨m, m', hpoint, ?_⟩
        rwa [hsame]
      rcases hcases with ⟨hprog, hown, rfl | hopen | ⟨order, own', rfl, heq, hexec⟩⟩ |
        ⟨order, own', rows, inserted, rfl, heq, hexec, hprog, hown⟩
      · exact ⟨.failed, hprog ▸ hfalse, hfailed rfl hsame hunchanged⟩
      · cases hopen
      · cases heq
        exact ⟨.after none fun a => (C label).does m.tables a m.tables, hprog ▸ herror hexec,
          hown, hcalm (fun h => by cases h) hno, hquiet hsame hunchanged, es.length, hmoment⟩
      · cases heq
        have hcalm' := hcalm (fun h => by cases h) hno
        rcases hrows rows inserted order hexec with hafter | hbefore
        · exact ⟨.after _ fun a => (C label).does m.tables a m.tables, hprog ▸ hafter, hown,
            hcalm', hquiet hsame hunchanged, es.length, hmoment⟩
        · exact ⟨.before m.tables _, hprog ▸ hbefore, hown, hsame ▸ .refl _, hcalm',
            hquiet hsame hunchanged⟩
    | commit k =>
      obtain ⟨hfalse, htrue⟩ := hmeets
      cases choice with
      | fail =>
        cases hact
        exact ⟨.failed, hfalse, hfailed rfl (by simpa using htables) hunchanged⟩
      | proceed order =>
        cases hact
        have hne : (Choice.proceed order) ≠ .fail := fun h => by cases h
        refine ⟨.committed fun a => (C label).does m.tables a (m.tables + own),
          htrue m.tables m.sequences hext (hholds own rfl) (hpermits hne k own rfl rfl),
          hcalm hne hno, es.length, fun n hn => ?_, fun a ha => ⟨m, m', hpoint, ?_⟩⟩
        · rcases changesAt_concat hrun hstep hn with hn | ⟨rfl, -⟩
          · exact absurd hn (hunchanged n)
          · rfl
        · rw [htables]
          exact ha

/-- Only programs that have been started act. -/
theorem lt_length_of_mem {choice : Choice} (hrun : run (step body) m₀ es = some m)
    (h : .act i choice ∈ es) : i < m.txns.length := by
  obtain ⟨es₁, es₂, rfl⟩ := List.append_of_mem h
  rw [run_append, Option.bind_eq_some_iff] at hrun
  obtain ⟨m₁, -, hrest⟩ := hrun
  rw [run_cons, Option.bind_eq_some_iff] at hrest
  obtain ⟨m₂, hstep, hrest⟩ := hrest
  obtain ⟨t, eff, ht, -, -, -⟩ := step_act hstep
  have hi := (List.getElem?_eq_some_iff.mp ht).1
  exact Nat.lt_of_lt_of_le hi (Nat.le_trans (length_txns_of_step hstep)
    (length_txns_of_run hrest))

theorem Tracked.of_step {e : Event L} (h : Tracked body C m₀ es m)
    (hbody : ∀ l, (body l).Meets (C l) (fun a s => s.Returns a) (.before 0 0))
    (hrun : run (step body) m₀ es = some m) (hstep : m.step body e = some m')
    (hholds : m.Holding C) (he : m.Permitted C e) :
    Tracked body C m₀ (es ++ [e]) m' := by
  intro i t' ht'
  cases e with
  | call l =>
    have hother : ∀ choice, (.call l : Event L) ≠ .act i choice := fun _ heq => by cases heq
    cases hstep
    rcases Nat.lt_or_ge i m.txns.length with hi | hi
    · rw [List.getElem?_append_left hi] at ht'
      obtain ⟨s, hmeets, hstands⟩ := h i t' ht'
      exact ⟨s, hmeets, hstands.of_other (e := .call l) rfl hother⟩
    · -- the new program
      rw [List.getElem?_append_right hi, List.getElem?_singleton] at ht'
      split_ifs at ht'
      cases ht'
      have hnew : ∀ choice, .act i choice ∉ es ++ [(.call l : Event L)] := by
        intro choice hmem
        rcases List.mem_append.mp hmem with hmem | hmem
        · exact absurd (lt_length_of_mem hrun hmem) (Nat.not_lt.mpr hi)
        · exact hother choice (List.mem_singleton.mp hmem).symm
      refine ⟨.before 0 0, hbody l, rfl, ⟨_, (zero_add _).symm⟩, hnew .fail, ?_⟩
      rintro n ⟨_, _, ⟨es₁, choice, es₂, heq, -⟩, -⟩
      exact hnew choice (heq ▸ List.mem_append_right _ (List.mem_cons_self ..))
  | act j choice =>
    by_cases hji : j = i
    · subst hji
      obtain ⟨t, eff, ht, hact, -, heq⟩ := step_act hstep
      obtain ⟨s, hmeets, hstands⟩ := h j t ht
      have htables : m'.tables = m.tables + eff.committed.getD 0 := by
        rw [heq, tables, tablesOf_append, tables]
        cases eff.committed <;> simp [tablesOf]
      rw [heq, List.getElem?_set_self (List.getElem?_eq_some_iff.mp ht).1, Option.some_inj] at ht'
      subst ht'
      refine hstands.of_act hmeets hrun hstep hact htables (hholds t (List.mem_of_getElem? ht)) ?_ _
      intro hne k own hprog hown
      cases choice with
      | fail => exact absurd rfl hne
      | proceed order => exact he t k own ht hprog hown
    · have hother : ∀ choice', (.act j choice : Event L) ≠ .act i choice' := by
        intro choice' heq
        cases heq
        exact hji rfl
      obtain ⟨t, eff, ht, -, -, heq⟩ := step_act hstep
      rw [heq, List.getElem?_set_ne hji] at ht'
      obtain ⟨s, hmeets, hstands⟩ := h i t' ht'
      exact ⟨s, hmeets, hstands.of_other hstep hother⟩

theorem Tracked.of_run {es' : List (Event L)} (h : Tracked body C m₀ es m)
    (hbody : ∀ l, (body l).Meets (C l) (fun a s => s.Returns a) (.before 0 0))
    (hrun : run (step body) m₀ es = some m) (hrun' : run (step body) m es' = some m')
    (hholds : Always (step body) (Holding C) m es')
    (hes : EachStep (step body) (Permitted C) m es') : Tracked body C m₀ (es ++ es') m' := by
  induction es' generalizing es m with
  | nil =>
    cases hrun'
    rwa [List.append_nil]
  | cons e es' ih =>
    rw [run_cons, Option.bind_eq_some_iff] at hrun'
    obtain ⟨m₁, hstep, hrun'⟩ := hrun'
    obtain ⟨he, hrest⟩ := hes m₁ hstep
    have hnext := ih (h.of_step hbody hrun hstep hholds.head he) (run_concat hrun hstep) hrun'
      (hholds.2 m₁ hstep) hrest
    rwa [List.append_assoc] at hnext

/-! ### Linearizations -/

/-- The `i`-th call has returned, and none of its actions has failed of itself. -/
def Undisturbed (m : Machine E L α) (es : List (Event L)) (i : ℕ) : Prop :=
  (∃ t a, m.txns[i]? = some t ∧ t.prog = .ret a) ∧ .act i .fail ∉ es

variable (body) in
/-- The `i`-th call has returned before the `j`-th is made. -/
def ReturnsBefore (m₀ : Machine E L α) (es : List (Event L)) (i j : ℕ) : Prop :=
  ∃ es₁ es₂ m t a, es = es₁ ++ es₂ ∧ run (step body) m₀ es₁ = some m ∧ m.txns[i]? = some t ∧
    t.prog = .ret a ∧ m.txns.length ≤ j

/-- The calls of a list, made one after the other. Each does at once what its contract says for
the result that it has in `m`. -/
inductive OneByOne (C : L → Contract E α) (m : Machine E L α) :
    E.Tables → List ℕ → E.Tables → Prop
  | nil (tables : E.Tables) : OneByOne C m tables [] tables
  | cons {tables tables' tables'' : E.Tables} {i : ℕ} {t : Transaction E L α} {a : α}
      {order : List ℕ} (ht : m.txns[i]? = some t) (hret : t.prog = .ret a)
      (hdoes : (C t.label).does tables a tables') (h : OneByOne C m tables' order tables'') :
      OneByOne C m tables (i :: order) tables''

theorem OneByOne.extends {tables tables' : E.Tables} {order : List ℕ}
    (hC : ∀ l a t t', (C l).does t a t' → Extends t t') (h : OneByOne C m tables order tables') :
    Extends tables tables' := by
  induction h with
  | nil tables => exact .refl _
  | cons _ _ hdoes _ ih => exact (hC _ _ _ _ hdoes).trans ih

theorem OneByOne.concat {tables tables' tables'' : E.Tables} {t : Transaction E L α} {a : α}
    {order : List ℕ} (h : OneByOne C m tables order tables') (ht : m.txns[i]? = some t)
    (hret : t.prog = .ret a) (hdoes : (C t.label).does tables' a tables'') :
    OneByOne C m tables (order ++ [i]) tables'' := by
  induction h with
  | nil tables => exact .cons ht hret hdoes (.nil _)
  | cons ht' hret' hdoes' _ ih => exact .cons ht' hret' hdoes' (ih hdoes)

variable (body) in
/-- The calls that have returned undisturbed, in an order that respects real time, and that
explains their results and the database. -/
structure Linearizes (C : L → Contract E α) (m₀ : Machine E L α) (es : List (Event L))
    (m : Machine E L α) (order : List ℕ) : Prop where
  nodup : order.Nodup
  mem : ∀ i, i ∈ order ↔ m.Undisturbed es i
  realTime : order.Pairwise fun i j => ¬ ReturnsBefore body m₀ es j i
  oneByOne : OneByOne C m m₀.tables order m.tables

def actor : Event L → Option ℕ
  | .call _ => none
  | .act i _ => some i

/-- The programs for which one of the first `k` events is their moment. -/
def inOrder (moment : ℕ → Option ℕ) (es : List (Event L)) (k : ℕ) : List ℕ :=
  (List.range k).filterMap fun n => (es[n]?.bind actor).filter fun i => moment i = some n

theorem mem_pick {moment : ℕ → Option ℕ} :
    i ∈ (es[n]?.bind actor).filter (fun i => moment i = some n) ↔
      moment i = some n ∧ ∃ choice, es[n]? = some (.act i choice) := by
  simp only [Option.mem_def, Option.filter_eq_some_iff, Option.bind_eq_some_iff,
    decide_eq_true_eq]
  constructor
  · rintro ⟨⟨e, he, hactor⟩, hmoment⟩
    cases e with
    | call l => cases hactor
    | act j choice =>
      cases hactor
      exact ⟨hmoment, choice, he⟩
  · rintro ⟨hmoment, choice, he⟩
    exact ⟨⟨_, he, rfl⟩, hmoment⟩

theorem mem_inOrder {moment : ℕ → Option ℕ} {k : ℕ} :
    i ∈ inOrder moment es k ↔
      ∃ n < k, moment i = some n ∧ ∃ choice, es[n]? = some (.act i choice) := by
  simp only [inOrder, List.mem_filterMap, List.mem_range]
  exact exists_congr fun n => and_congr_right fun _ => mem_pick

theorem inOrder_succ (moment : ℕ → Option ℕ) (es : List (Event L)) (k : ℕ) :
    inOrder moment es (k + 1) = inOrder moment es k ++
      ((es[k]?.bind actor).filter fun i => moment i = some k).toList := by
  rw [inOrder, List.range_succ, List.filterMap_append, inOrder]
  cases h : (es[k]?.bind actor).filter fun i => moment i = some k <;> simp [h]

/-- Moments come one after the other. -/
theorem pairwise_inOrder (moment : ℕ → Option ℕ) (es : List (Event L)) (k : ℕ) :
    (inOrder moment es k).Pairwise fun i j =>
      ∃ n n', moment i = some n ∧ moment j = some n' ∧ n < n' := by
  rw [inOrder, List.pairwise_filterMap]
  refine List.pairwise_lt_range.imp fun {n n'} hlt i hi j hj => ?_
  exact ⟨n, n', (mem_pick.mp hi).1, (mem_pick.mp hj).1, hlt⟩

/-- An action is an event of the run, and its program had been started. -/
theorem ActsAt.event {m₁ m₂ : Machine E L α} (h : ActsAt body m₀ es i n m₁ m₂) :
    ∃ choice, es[n]? = some (.act i choice) := by
  obtain ⟨es₁, choice, es₂, rfl, rfl, -, -⟩ := h
  exact ⟨choice, by rw [List.getElem?_append_right (Nat.le_refl _), Nat.sub_self]; rfl⟩

theorem ActsAt.eq_take {m₁ m₂ : Machine E L α} (h : ActsAt body m₀ es i n m₁ m₂) :
    run (step body) m₀ (es.take n) = some m₁ ∧ run (step body) m₀ (es.take (n + 1)) = some m₂ := by
  obtain ⟨es₁, choice, es₂, rfl, rfl, hrun, hstep⟩ := h
  rw [List.take_left, List.take_length_add_append]
  exact ⟨hrun, run_concat hrun hstep⟩

/-- A program acts after its call and before it has returned. -/
theorem ReturnsBefore.lt {n' : ℕ} {m₁ m₂ m₁' m₂' : Machine E L α}
    (h : ReturnsBefore body m₀ es j i) (hi : ActsAt body m₀ es i n m₁ m₂)
    (hj : ActsAt body m₀ es j n' m₁' m₂') : n' < n := by
  obtain ⟨es₁, es₂, m₃, t, a, rfl, hrun, ht, hret, hlen⟩ := h
  have hcalled : es₁.length ≤ n := by
    by_contra hlt
    obtain ⟨choice, he⟩ := hi.event
    rw [List.getElem?_append_left (Nat.lt_of_not_le hlt)] at he
    exact absurd (lt_length_of_mem hrun (List.mem_of_getElem? he)) (Nat.not_lt.mpr hlen)
  have hreturned : n' < es₁.length := by
    by_contra hle
    have hbefore := hj.eq_take.1
    rw [List.take_append, List.take_of_length_le (Nat.le_of_not_lt hle), run_append, hrun,
      Option.bind_some] at hbefore
    have ht' := getElem?_of_returned ht hret hbefore
    obtain ⟨_, choice, _, -, -, -, hstep⟩ := hj
    obtain ⟨t', eff, ht'', hact, -, -⟩ := step_act hstep
    cases ht'.symm.trans ht''
    rw [hret] at hact
    cases hact
  exact Nat.lt_of_lt_of_le hreturned hcalled

variable (body C) in
/-- The `n`-th event is the moment of the `i`-th program. -/
structure Moment (m₀ : Machine E L α) (es : List (Event L)) (m : Machine E L α) (i n : ℕ) :
    Prop where
  undisturbed : m.Undisturbed es i
  takesEffect : ∀ t a, m.txns[i]? = some t → t.prog = .ret a →
    TakesEffect body C m₀ es i n t.label a

/-- An undisturbed program has its moment, and only then it changes the tables. -/
theorem Tracked.exists_moment (h : Tracked body C m₀ es m) (hi : m.Undisturbed es i) :
    ∃ n, Moment body C m₀ es m i n ∧ ∀ n', ChangesAt body m₀ es i n' → n' = n := by
  obtain ⟨⟨t, a, ht, hret⟩, hcalm⟩ := hi
  have hall : ∀ {n : ℕ}, TakesEffect body C m₀ es i n t.label a →
      Moment body C m₀ es m i n := by
    refine fun heffect => ⟨⟨⟨t, a, ht, hret⟩, hcalm⟩, fun t' a' ht' hret' => ?_⟩
    cases ht.symm.trans ht'
    cases hret.symm.trans hret'
    exact heffect
  obtain ⟨s, hmeets, hstands⟩ := h i t ht
  rw [hret] at hmeets
  cases s with
  | before tables own => exact hmeets.elim
  | after own P =>
    obtain ⟨-, -, hquiet, n, hP⟩ := hstands
    exact ⟨n, hall (hP a hmeets), fun n' hn' => absurd hn' (hquiet n')⟩
  | committed P =>
    obtain ⟨-, n, honly, hP⟩ := hstands
    exact ⟨n, hall (hP a hmeets), honly⟩
  | failed => exact absurd hstands.1 hcalm

/-- A program that has changed the tables has returned undisturbed. -/
theorem Tracked.undisturbed (h : Tracked body C m₀ es m) (hrun : run (step body) m₀ es = some m)
    (hn : ChangesAt body m₀ es i n) : m.Undisturbed es i := by
  obtain ⟨m₁, m₂, hact, hne⟩ := hn
  obtain ⟨choice, he⟩ := hact.event
  have hi := lt_length_of_mem hrun (List.mem_of_getElem? he)
  have ht : m.txns[i]? = some m.txns[i] := List.getElem?_eq_getElem hi
  obtain ⟨s, hmeets, hstands⟩ := h i _ ht
  cases s with
  | before => exact absurd ⟨m₁, m₂, hact, hne⟩ (hstands.2.2.2 n)
  | after => exact absurd ⟨m₁, m₂, hact, hne⟩ (hstands.2.2.1 n)
  | failed => exact absurd ⟨m₁, m₂, hact, hne⟩ (hstands.2 n)
  | committed P =>
    refine ⟨?_, hstands.1⟩
    cases hprog : m.txns[i].prog with
    | ret a => exact ⟨_, a, ht, hprog⟩
    | attempt | exec | commit =>
      rw [hprog] at hmeets
      exact hmeets.elim

/-- Up to any event, the database is what the calls have done that had their moment. -/
theorem oneByOne_inOrder
    {moment : ℕ → Option ℕ} (hmoment : ∀ i n, moment i = some n → Moment body C m₀ es m i n)
    (honly : ∀ i n, ChangesAt body m₀ es i n → moment i = some n) {k : ℕ} (hk : k ≤ es.length)
    {mk : Machine E L α} (hmk : run (step body) m₀ (es.take k) = some mk) :
    OneByOne C m m₀.tables (inOrder moment es k) mk.tables := by
  induction k generalizing mk with
  | zero =>
    cases hmk
    exact .nil _
  | succ k ih =>
    have hlt : k < es.length := hk
    rw [List.take_succ_eq_append_getElem hlt, run_append, Option.bind_eq_some_iff] at hmk
    obtain ⟨m₁, hm₁, hstep⟩ := hmk
    rw [run_cons, Option.bind_eq_some_iff] at hstep
    obtain ⟨_, hstep, hrefl⟩ := hstep
    cases hrefl
    have hbefore := ih (Nat.le_of_lt hlt) hm₁
    have hsplit : es = es.take k ++ es[k] :: es.drop (k + 1) := by
      rw [List.cons_getElem_drop_succ, List.take_append_drop]
    rw [inOrder_succ, List.getElem?_eq_getElem hlt, Option.bind_some]
    generalize es[k] = e at hstep hsplit
    cases e with
    | call l =>
      cases hstep
      rwa [actor, Option.filter_none, Option.toList_none, List.append_nil]
    | act i choice =>
      have hact : ActsAt body m₀ es i k m₁ mk :=
        ⟨_, choice, _, hsplit, by rw [List.length_take, Nat.min_eq_left (Nat.le_of_lt hlt)], hm₁,
          hstep⟩
      by_cases hpoint : moment i = some k
      · obtain ⟨⟨⟨t, a, ht, hret⟩, -⟩, heffect⟩ := hmoment i k hpoint
        obtain ⟨m₁', m₂', hact', hdoes⟩ := heffect t a ht hret
        cases hact.eq_take.1.symm.trans hact'.eq_take.1
        cases hact.eq_take.2.symm.trans hact'.eq_take.2
        rw [actor, Option.filter_some, if_pos (decide_eq_true hpoint), Option.toList_some]
        exact hbefore.concat ht hret hdoes
      · have hsame : mk.tables = m₁.tables := by
          by_contra hne
          exact hpoint (honly i k ⟨m₁, mk, hact, hne⟩)
        rw [hsame, actor, Option.filter_some, if_neg (by simpa using hpoint), Option.toList_none,
          List.append_nil]
        exact hbefore

/-- **Linearizability.** Without commits that their contracts do not permit, the calls that have
returned undisturbed can be put in an order that explains the run. -/
theorem exists_linearization {sequences : E.Sequences}
    (hbody : ∀ l, (body l).Meets (C l) (fun a s => s.Returns a) (.before 0 0))
    (hholds : Always (step body) (Holding C) (initial sequences) es)
    (hes : EachStep (step body) (Permitted C) (initial sequences) es)
    (hrun : run (step body) (initial sequences) es = some m) :
    ∃ order, Linearizes body C (initial sequences) es m order := by
  have hstart : Tracked body C (initial sequences) [] (initial sequences) :=
    fun _ _ ht => by cases ht
  have htracked := hstart.of_run hbody rfl hrun hholds hes
  rw [List.nil_append] at htracked
  have hexists : ∀ i, ∃ o : Option ℕ, (∀ n, o = some n → Moment body C (initial sequences) es m i n)
      ∧ (∀ n, ChangesAt body (initial sequences) es i n → o = some n) ∧
        (m.Undisturbed es i → o.isSome) := by
    intro i
    by_cases hi : m.Undisturbed es i
    · obtain ⟨n, hn, honly⟩ := htracked.exists_moment hi
      refine ⟨some n, fun n' heq => ?_, fun n' hn' => ?_, fun _ => rfl⟩
      · cases heq
        exact hn
      · rw [honly n' hn']
    · exact ⟨none, fun n heq => (by cases heq),
        fun n hn => absurd (htracked.undisturbed hrun hn) hi, fun h => absurd h hi⟩
  choose moment hmoment honly hsome using hexists
  have hactsAt : ∀ {i n}, moment i = some n →
      ∃ m₁ m₂, ActsAt body (initial sequences) es i n m₁ m₂ := by
    intro i n hi
    obtain ⟨⟨⟨t, a, ht, hret⟩, -⟩, heffect⟩ := hmoment i n hi
    obtain ⟨m₁, m₂, hact, -⟩ := heffect t a ht hret
    exact ⟨m₁, m₂, hact⟩
  have hpairwise := pairwise_inOrder moment es es.length
  refine ⟨inOrder moment es es.length, ?_, fun i => ?_, ?_, ?_⟩
  · refine hpairwise.imp fun {i j} hij heq => ?_
    obtain ⟨n, n', hi, hj, hlt⟩ := hij
    rw [heq, hj, Option.some_inj] at hi
    omega
  · rw [mem_inOrder]
    constructor
    · rintro ⟨n, -, hi, -⟩
      exact (hmoment i n hi).undisturbed
    · intro hi
      obtain ⟨n, hn⟩ := Option.isSome_iff_exists.mp (hsome i hi)
      obtain ⟨m₁, m₂, hact⟩ := hactsAt hn
      obtain ⟨choice, he⟩ := hact.event
      exact ⟨n, (List.getElem?_eq_some_iff.mp he).1, hn, choice, he⟩
  · refine hpairwise.imp fun {i j} hij hbefore => ?_
    obtain ⟨n, n', hi, hj, hlt⟩ := hij
    obtain ⟨_, _, hacti⟩ := hactsAt hi
    obtain ⟨_, _, hactj⟩ := hactsAt hj
    exact absurd (hbefore.lt hacti hactj) (by omega)
  · exact oneByOne_inOrder hmoment honly (Nat.le_refl _) (by rwa [List.take_length])

end Machine

end ReadCommitted
