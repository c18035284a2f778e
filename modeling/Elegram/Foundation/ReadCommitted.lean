import Mathlib.Algebra.BigOperators.Group.List.Basic
import Mathlib.Data.List.FinRange

/-!
# Transactions at READ COMMITTED

A database in which rows are only ever inserted. Its contents are a value of an additive monoid:
what a transaction has inserted is such a value too, and committing it is addition on the right.
Numbers drawn from sequences are kept apart, since they are not given back when a transaction is
rolled back.

A program accesses the database in one transaction (`Prog`). Any of its actions may fail, and the
rows of a query come in any order (`Choice`). It is assumed that a commit which fails has had no
effect: no reply to a commit is lost after the rows have been stored. `Prog.eval` runs a program
with nothing else going on, and `Prog.Ensures` states what comes of it, with one rule for each kind
of action. `Prog.Uses.eval_eq` tells when a program gives the same result in two databases.
-/

namespace ReadCommitted

/-- A database engine. `exec` gives the sequences after a statement and, unless the statement
fails, the rows it returns and the rows it inserts. `blocks` tells which rows of two open
transactions cannot be there together. -/
structure Engine where
  Statement : Type
  Row : Statement → Type
  Tables : Type
  Sequences : Type
  monoid : AddMonoid Tables
  exec : (st : Statement) → Tables → Sequences → Sequences × Option (List (Row st) × Tables)
  blocks : Tables → Tables → Bool

attribute [instance] Engine.monoid

/-- An order in which the rows of a query are returned. -/
structure RowOrder where
  perm : (n : ℕ) → Equiv.Perm (Fin n)

/-- The order in which the rows are stored. -/
def RowOrder.stored : RowOrder := ⟨fun _ => Equiv.refl _⟩

def RowOrder.arrange (order : RowOrder) {ρ : Type} (rows : List ρ) : List ρ :=
  List.ofFn fun i => rows.get (order.perm rows.length i)

theorem RowOrder.arrange_perm (order : RowOrder) {ρ : Type} (rows : List ρ) :
    (order.arrange rows).Perm rows := by
  have h := Equiv.Perm.ofFn_comp_perm (order.perm rows.length) rows.get
  rwa [List.ofFn_get] at h

/-- How an action ends: with an error, and then without effect, or as it should. -/
inductive Choice
  | fail
  | proceed (order : RowOrder)

/-- Programs that access the database in one transaction. An action that fails throws. -/
inductive Prog (E : Engine) (α : Type) : Type
  | ret (a : α)
  | exec (st : E.Statement) (k : Option (List (E.Row st)) → Prog E α)
  | commit (k : Bool → Prog E α)
  /-- An action of the program that may throw without any access to the tables, such as opening
  the transaction. -/
  | attempt (k : Bool → Prog E α)

variable {E : Engine} {α β : Type}

namespace Prog

protected def bind : Prog E α → (α → Prog E β) → Prog E β
  | .ret a, f => f a
  | .exec st k, f => .exec st fun rows => (k rows).bind f
  | .commit k, f => .commit fun b => (k b).bind f
  | .attempt k, f => .attempt fun b => (k b).bind f

instance : Monad (Prog E) where
  pure := .ret
  bind := Prog.bind

end Prog

/-! ### Running alone -/

/-- The choices for the actions after the next one. -/
def later (choices : ℕ → Choice) : ℕ → Choice := fun n => choices (n + 1)

/-- The choices of a list, and then others. -/
def followedBy : List Choice → (ℕ → Choice) → ℕ → Choice
  | [], rest => rest
  | choice :: choices, rest => fun
    | 0 => choice
    | n + 1 => followedBy choices rest n

/-- None of the next `n` actions fails of itself. -/
def Calm (n : ℕ) (choices : ℕ → Choice) : Prop := ∀ k < n, choices k ≠ .fail

theorem Calm.zero (choices : ℕ → Choice) : Calm 0 choices := fun _ h => absurd h (Nat.not_lt_zero _)

theorem Calm.cons {n : ℕ} {choices : ℕ → Choice} (h : choices 0 ≠ .fail)
    (hlater : Calm n (later choices)) : Calm (n + 1) choices
  | 0, _ => h
  | k + 1, hk => hlater k (Nat.lt_of_succ_lt_succ hk)

theorem Calm.later {n : ℕ} {choices : ℕ → Choice} (h : Calm (n + 1) choices) :
    Calm n (later choices) := fun k hk => h (k + 1) (Nat.succ_lt_succ hk)

/-- Two programs, one after the other, are calm. -/
theorem calm_add {m n : ℕ} {choices : ℕ → Choice} :
    Calm (m + n) choices ↔ Calm m choices ∧ Calm n fun k => choices (k + m) := by
  constructor
  · exact fun h => ⟨fun k hk => h k (by omega), fun k hk => h (k + m) (by omega)⟩
  · rintro ⟨hfirst, hrest⟩ k hk
    by_cases hlt : k < m
    · exact hfirst k hlt
    · have hk' : choices (k - m + m) ≠ .fail := hrest (k - m) (by omega)
      rwa [Nat.sub_add_cancel (Nat.le_of_not_lt hlt)] at hk'

/-- Only one action is the first to fail. -/
theorem Calm.unique {k k' : ℕ} {choices : ℕ → Choice} (h : Calm k choices)
    (hfail : choices k = .fail) (h' : Calm k' choices) (hfail' : choices k' = .fail) : k' = k := by
  rcases Nat.lt_trichotomy k' k with hlt | heq | hlt
  · exact absurd hfail' (h k' hlt)
  · exact heq
  · exact absurd hfail (h' k hlt)

/-- The database as the only program sees it: `own` are the rows of its open transaction, and
`choices n` says how the `n`-th action to come ends. -/
structure Conn (E : Engine) where
  tables : E.Tables
  sequences : E.Sequences
  own : Option E.Tables
  choices : ℕ → Choice

namespace Prog

/-- A program that runs to its end with nothing else going on. -/
def eval : Prog E α → Conn E → α × Conn E
  | .ret a, c => (a, c)
  | .exec st k, c =>
    match c.choices 0, c.own with
    | .proceed order, some own =>
      match E.exec st (c.tables + own) c.sequences with
      | (sequences, none) =>
        (k none).eval { c with sequences := sequences, own := none, choices := later c.choices }
      | (sequences, some (rows, inserted)) =>
        (k (some (order.arrange rows))).eval { c with
          sequences := sequences, own := some (own + inserted), choices := later c.choices }
    | _, _ => (k none).eval { c with own := none, choices := later c.choices }
  | .commit k, c =>
    match c.choices 0, c.own with
    | .proceed _, some own =>
      (k true).eval { c with tables := c.tables + own, own := none, choices := later c.choices }
    | _, _ => (k false).eval { c with own := none, choices := later c.choices }
  | .attempt k, c =>
    match c.choices 0 with
    | .fail => (k false).eval { c with choices := later c.choices }
    | .proceed _ => (k true).eval { c with choices := later c.choices }

theorem eval_ret (a : α) (c : Conn E) : (Prog.ret a).eval c = (a, c) := rfl

theorem eval_bind (p : Prog E α) (f : α → Prog E β) (c : Conn E) :
    (p >>= f).eval c = (f (p.eval c).1).eval (p.eval c).2 := by
  change (p.bind f).eval c = _
  induction p generalizing c with
  | ret a => rfl
  | exec st k ih =>
    simp only [Prog.bind, eval]
    split
    · split <;> exact ih _ _
    · exact ih _ _
  | commit k ih =>
    simp only [Prog.bind, eval]
    split <;> exact ih _ _
  | attempt k ih =>
    simp only [Prog.bind, eval]
    split <;> exact ih _ _

/-- Run alone from `c`, the program ends in a result and a database that satisfy `Q`. -/
def Ensures (p : Prog E α) (Q : α → Conn E → Prop) (c : Conn E) : Prop :=
  Q (p.eval c).1 (p.eval c).2

theorem ensures_bind {p : Prog E α} {f : α → Prog E β} {Q : β → Conn E → Prop} {c : Conn E} :
    (p >>= f).Ensures Q c ↔ p.Ensures (fun a => (f a).Ensures Q) c := by
  simp only [Ensures, eval_bind]

theorem Ensures.mono {p : Prog E α} {Q R : α → Conn E → Prop} {c : Conn E}
    (h : p.Ensures Q c) (hQR : ∀ a c', Q a c' → R a c') : p.Ensures R c :=
  hQR _ _ h

variable {tables own : E.Tables} {sequences : E.Sequences} {choices : ℕ → Choice}

/-- A statement that fails leaves no open transaction. -/
theorem ensures_exec {st : E.Statement} {k : Option (List (E.Row st)) → Prog E α}
    {Q : α → Conn E → Prop}
    (hfail : ∀ sequences', (choices 0 = .fail ∧ sequences' = sequences ∨
        E.exec st (tables + own) sequences = (sequences', none)) →
      (k none).Ensures Q ⟨tables, sequences', none, later choices⟩)
    (hok : ∀ order sequences' rows inserted, choices 0 = .proceed order →
      E.exec st (tables + own) sequences = (sequences', some (rows, inserted)) →
      (k (some (RowOrder.arrange order rows))).Ensures Q
        ⟨tables, sequences', some (own + inserted), later choices⟩) :
    (Prog.exec st k).Ensures Q ⟨tables, sequences, some own, choices⟩ := by
  simp only [Ensures, eval]
  cases hchoice : choices 0 with
  | fail => exact hfail sequences (.inl ⟨hchoice, rfl⟩)
  | proceed order =>
    rcases hexec : E.exec st (tables + own) sequences with ⟨sequences', _ | ⟨rows, inserted⟩⟩
    · simp only [hexec]
      exact hfail sequences' (.inr hexec)
    · simp only [hexec]
      exact hok order sequences' rows inserted hchoice hexec

theorem ensures_commit {k : Bool → Prog E α} {Q : α → Conn E → Prop}
    (hfail : choices 0 = .fail → (k false).Ensures Q ⟨tables, sequences, none, later choices⟩)
    (hok : choices 0 ≠ .fail →
      (k true).Ensures Q ⟨tables + own, sequences, none, later choices⟩) :
    (Prog.commit k).Ensures Q ⟨tables, sequences, some own, choices⟩ := by
  simp only [Ensures, eval]
  cases hchoice : choices 0 with
  | fail => exact hfail hchoice
  | proceed order => exact hok (by simp [hchoice])

theorem ensures_attempt {k : Bool → Prog E α} {Q : α → Conn E → Prop} {c : Conn E}
    (hfail : c.choices 0 = .fail → (k false).Ensures Q { c with choices := later c.choices })
    (hok : c.choices 0 ≠ .fail → (k true).Ensures Q { c with choices := later c.choices }) :
    (Prog.attempt k).Ensures Q c := by
  simp only [Ensures, eval]
  cases hchoice : c.choices 0 with
  | fail => exact hfail hchoice
  | proceed order => exact hok (by simp [hchoice])

/-! ### What a program can tell apart -/

/-- All statements that the program may execute satisfy `S`. -/
def Uses (S : E.Statement → Prop) : Prog E α → Prop
  | .ret _ => True
  | .exec st k => S st ∧ ∀ rows, (k rows).Uses S
  | .commit k => ∀ ok, (k ok).Uses S
  | .attempt k => ∀ ok, (k ok).Uses S

theorem Uses.mono {S T : E.Statement → Prop} {p : Prog E α} (hp : p.Uses S)
    (h : ∀ st, S st → T st) : p.Uses T := by
  induction p with
  | ret a => trivial
  | exec st k ih => exact ⟨h st hp.1, fun rows => ih rows (hp.2 rows)⟩
  | commit k ih => exact fun ok => ih ok (hp ok)
  | attempt k ih => exact fun ok => ih ok (hp ok)

theorem Uses.bind {S : E.Statement → Prop} {p : Prog E α} {f : α → Prog E β} (hp : p.Uses S)
    (hf : ∀ a, (f a).Uses S) : (p >>= f).Uses S := by
  change (p.bind f).Uses S
  induction p with
  | ret a => exact hf a
  | exec st k ih => exact ⟨hp.1, fun rows => ih rows (hp.2 rows)⟩
  | commit k ih => exact fun ok => ih ok (hp ok)
  | attempt k ih => exact fun ok => ih ok (hp ok)

variable (E) in
/-- Statements that satisfy `S` do the same in two databases, whatever their transaction has
inserted. -/
def Alike (S : E.Statement → Prop) (s t : E.Tables) : Prop :=
  ∀ st own sequences, S st → E.exec st (s + own) sequences = E.exec st (t + own) sequences

variable (E) in
/-- Statements that satisfy `S` return and insert the same in two databases whose sequences are
related by `r`, and leave sequences that are. -/
def Similar (S : E.Statement → Prop) (r : E.Sequences → E.Sequences → Prop) (s t : E.Tables) :
    Prop :=
  ∀ st own q q', S st → r q q' →
    r (E.exec st (s + own) q).1 (E.exec st (t + own) q').1 ∧
      (E.exec st (s + own) q).2 = (E.exec st (t + own) q').2

theorem Similar.add {S : E.Statement → Prop} {r : E.Sequences → E.Sequences → Prop}
    {s t : E.Tables} (h : Similar E S r s t) (own : E.Tables) :
    Similar E S r (s + own) (t + own) := by
  intro st own' q q' hst hq
  rw [add_assoc, add_assoc]
  exact h st (own + own') q q' hst hq

theorem Uses.eval_eq_of_similar {S : E.Statement → Prop} {r : E.Sequences → E.Sequences → Prop}
    {p : Prog E α} (hp : p.Uses S) {s t : E.Tables} (h : Similar E S r s t) {q q' : E.Sequences}
    (hq : r q q') (own : Option E.Tables) (choices : ℕ → Choice) :
    (p.eval ⟨s, q, own, choices⟩).1 = (p.eval ⟨t, q', own, choices⟩).1 := by
  induction p generalizing s t q q' own choices with
  | ret a => rfl
  | exec st k ih =>
    simp only [eval]
    cases choices 0 with
    | fail => exact ih none (hp.2 none) h hq _ _
    | proceed order =>
      cases own with
      | none => exact ih none (hp.2 none) h hq _ _
      | some own =>
        dsimp only
        have hexec := h st own q q' hp.1 hq
        generalize E.exec st (s + own) q = x, E.exec st (t + own) q' = y at hexec
        obtain ⟨q₁, res⟩ := x
        obtain ⟨q₂, res'⟩ := y
        obtain ⟨hq', rfl⟩ : r q₁ q₂ ∧ res = res' := hexec
        rcases res with _ | ⟨rows, inserted⟩
        · exact ih none (hp.2 none) h hq' _ _
        · exact ih _ (hp.2 _) h hq' _ _
  | commit k ih =>
    simp only [eval]
    cases choices 0 with
    | fail => exact ih false (hp false) h hq _ _
    | proceed order =>
      cases own with
      | none => exact ih false (hp false) h hq _ _
      | some own => exact ih true (hp true) (h.add own) hq _ _
  | attempt k ih =>
    simp only [eval]
    cases choices 0 with
    | fail => exact ih false (hp false) h hq _ _
    | proceed order => exact ih true (hp true) h hq _ _

/-- **Indistinguishability.** A program gives the same result in two databases that its statements
cannot tell apart. -/
theorem Uses.eval_eq {S : E.Statement → Prop} {p : Prog E α} (hp : p.Uses S) {s t : E.Tables}
    (h : Alike E S s t) (sequences : E.Sequences) (own : Option E.Tables)
    (choices : ℕ → Choice) :
    (p.eval ⟨s, sequences, own, choices⟩).1 = (p.eval ⟨t, sequences, own, choices⟩).1 := by
  refine hp.eval_eq_of_similar (r := Eq) (fun st own q q' hst hq => ?_) rfl own choices
  subst hq
  rw [h st own q hst]
  exact ⟨rfl, rfl⟩

end Prog

end ReadCommitted
