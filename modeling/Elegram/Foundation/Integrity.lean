import Elegram.Foundation.Interleaving

/-!
# Integrity of interleaved transactions

Two ways in which a database keeps its contents in shape, whatever the programs do.

A constraint is checked by every statement against the rows that it sees. Rows of open
transactions that would violate it together wait for each other (`Engine.blocks`), so it holds of
what is committed, and of what each open transaction is about to commit (`Constraint.Respected`).

Numbers drawn from a sequence are given out once. Uncommitted rows count, since they may be
committed later (`Numbering.Fresh`).
-/

namespace ReadCommitted

open Transition

variable {E : Engine} {L α : Type}

/-! ### Constraints -/

/-- A property of the contents that statements preserve, and that transactions which do not block
each other cannot break together. -/
structure Constraint (E : Engine) where
  holds : E.Tables → Prop
  zero : holds 0
  exec : ∀ {st tables sequences sequences' rows inserted}, holds tables →
    E.exec st tables sequences = (sequences', some (rows, inserted)) → holds (tables + inserted)
  merge : ∀ {tables a b}, holds (tables + a) → holds (tables + b) → E.blocks a b = false →
    holds (tables + a + b)
  blocks_zero : ∀ a, E.blocks 0 a = false
  blocks_comm : ∀ a b, E.blocks a b = E.blocks b a

namespace Machine

variable {m m' : Machine E L α}

/-- A transaction that acts does not block another one. -/
theorem blocks_of_free {i j : ℕ} {own other : E.Tables} {t : Transaction E L α}
    (h : m.free i (some own)) (ht : m.txns[j]? = some t) (hother : t.own = some other)
    (hne : j ≠ i) : E.blocks own other = false := by
  have hall := List.all_eq_true.mp h (t, j) (List.mem_zipIdx_iff_getElem?.mpr ht)
  simpa [hne, hother] using hall

end Machine

namespace Constraint

/-- No two open transactions block each other. -/
def Apart (txns : List (Transaction E L α)) : Prop :=
  ∀ (i j : ℕ) (s t : Transaction E L α) a b, i ≠ j → txns[i]? = some s → txns[j]? = some t →
    s.own = some a → t.own = some b → E.blocks a b = false

/-- The constraint holds of what is committed, and will hold when a transaction commits. -/
structure Respected (C : Constraint E) (m : Machine E L α) : Prop where
  committed : C.holds m.tables
  pending : ∀ t ∈ m.txns, ∀ own, t.own = some own → C.holds (m.tables + own)
  apart : Apart m.txns

theorem initial_respected (C : Constraint E) (sequences : E.Sequences) :
    C.Respected (Machine.initial sequences : Machine E L α) where
  committed := C.zero
  pending := fun _ ht => by cases ht
  apart := fun _ _ _ _ _ _ _ hs => by cases hs

variable {C : Constraint E} {body : L → Prog E α} {m m' : Machine E L α}

theorem Apart.concat (C : Constraint E) {txns : List (Transaction E L α)} (h : Apart txns)
    {t : Transaction E L α} (ht : t.own = some 0) : Apart (txns ++ [t]) := by
  have hnew : ∀ (i : ℕ) (s : Transaction E L α) a, (txns ++ [t])[i]? = some s → s.own = some a →
      a = 0 ∨ txns[i]? = some s := by
    intro i s a hs ha
    rcases Nat.lt_or_ge i txns.length with hi | hi
    · rw [List.getElem?_append_left hi] at hs
      exact .inr hs
    · rw [List.getElem?_append_right hi, List.getElem?_singleton] at hs
      split_ifs at hs
      cases hs
      rw [ht, Option.some_inj] at ha
      exact .inl ha.symm
  intro i j s t' a b hne hs ht' ha hb
  rcases hnew i s a hs ha with rfl | hs
  · exact C.blocks_zero b
  rcases hnew j t' b ht' hb with rfl | ht'
  · rw [C.blocks_comm]
    exact C.blocks_zero a
  · exact h i j s t' a b hne hs ht' ha hb

theorem Apart.set (C : Constraint E) {txns : List (Transaction E L α)} (h : Apart txns) {i : ℕ}
    {t : Transaction E L α} (hi : i < txns.length)
    (ht : ∀ (j : ℕ) (s : Transaction E L α) a b, j ≠ i → txns[j]? = some s → t.own = some a →
      s.own = some b → E.blocks a b = false) : Apart (txns.set i t) := by
  intro j k s u a b hne hs hu ha hb
  by_cases hj : j = i
  · subst hj
    rw [List.getElem?_set_self hi, Option.some_inj] at hs
    subst hs
    rw [List.getElem?_set_ne hne] at hu
    exact ht k u a b hne.symm hu ha hb
  rw [List.getElem?_set_ne (Ne.symm hj)] at hs
  by_cases hk : k = i
  · subst hk
    rw [List.getElem?_set_self hi, Option.some_inj] at hu
    subst hu
    rw [C.blocks_comm]
    exact ht j s b a hne hs hb ha
  rw [List.getElem?_set_ne (Ne.symm hk)] at hu
  exact h j k s u a b hne hs hu ha hb

/-- What an action leaves pending, and what it commits, is what was pending and what it inserts. -/
theorem holds_of_act {p : Prog E α} {tables : E.Tables} {sequences : E.Sequences}
    {own : Option E.Tables} {choice : Choice} {eff : Prog.Effect E α}
    (h : p.act tables sequences own choice = some eff)
    (hown : ∀ rows, own = some rows → C.holds (tables + rows)) :
    ∀ rows, eff.own = some rows → eff.committed = none ∧ C.holds (tables + rows) := by
  cases p with
  | ret a => cases h
  | commit k => cases choice <;> cases own <;> cases h <;> simp
  | attempt k => cases choice <;> cases h <;> exact fun rows hrows => ⟨rfl, hown rows hrows⟩
  | exec st k =>
    cases choice with
    | fail =>
      cases h
      simp
    | proceed order =>
      cases h
      cases own with
      | none => simp [Prog.execute]
      | some own =>
        intro rows hrows
        simp only [Prog.execute] at hrows ⊢
        rcases hexec : E.exec st (tables + own) sequences with ⟨sequences', _ | ⟨rows', inserted⟩⟩
        · rw [hexec] at hrows
          cases hrows
        · rw [hexec] at hrows
          cases hrows
          refine ⟨rfl, ?_⟩
          rw [← add_assoc]
          exact C.exec (hown own rfl) hexec

theorem Respected.of_step {e : Machine.Event L} (h : C.Respected m)
    (hstep : m.step body e = some m') : C.Respected m' := by
  cases e with
  | call l =>
    cases hstep
    refine ⟨h.committed, fun t ht own hown => ?_, h.apart.concat C rfl⟩
    rcases List.mem_append.mp ht with ht | ht
    · exact h.pending t ht own hown
    · rw [List.mem_singleton.mp ht] at hown
      cases hown
      change C.holds (m.tables + 0)
      rw [add_zero]
      exact h.committed
  | act i choice =>
    obtain ⟨t₀, eff, ht₀, heff, hfree, rfl⟩ := Machine.step_act hstep
    have hi := (List.getElem?_eq_some_iff.mp ht₀).1
    have hact := holds_of_act heff fun rows => h.pending t₀ (List.mem_of_getElem? ht₀) rows
    have hapart : Apart (m.txns.set i { t₀ with
        prog := eff.prog, own := eff.own
        history := t₀.history ++ (m.entry t₀ choice).toList }) := by
      refine h.apart.set C hi fun j s a b hne hs ha hb => ?_
      dsimp only at ha
      rw [ha] at hfree
      exact Machine.blocks_of_free hfree hs hb hne
    cases hcommitted : eff.committed with
    | none =>
      have htables : tablesOf (m.commits ++ (none : Option E.Tables).toList.map fun rows =>
          (⟨t₀.label, rows⟩ : Commit E L)) = m.tables := by simp [Machine.tables]
      refine ⟨?_, fun t ht own hown => ?_, hapart⟩
      · rw [Machine.tables, htables]
        exact h.committed
      · rw [Machine.tables, htables]
        rcases List.mem_or_eq_of_mem_set ht with ht | rfl
        · exact h.pending t ht own hown
        · exact (hact own hown).2
    | some rows =>
      obtain ⟨k, order, -, hown, -, rfl⟩ := Prog.committed_of_act heff hcommitted
      have htables : tablesOf (m.commits ++ (some rows : Option E.Tables).toList.map fun rows =>
          (⟨t₀.label, rows⟩ : Commit E L)) = m.tables + rows := tablesOf_concat ..
      have hrows := h.pending t₀ (List.mem_of_getElem? ht₀) rows hown
      refine ⟨?_, fun t ht own hother => ?_, hapart⟩
      · rw [Machine.tables, htables]
        exact hrows
      · -- the transactions that are still open do not collide with the one that commits
        rw [Machine.tables, htables]
        obtain ⟨j, ht⟩ := List.getElem?_of_mem ht
        by_cases hj : j = i
        · subst hj
          rw [List.getElem?_set_self hi, Option.some_inj] at ht
          subst ht
          cases hother
        rw [List.getElem?_set_ne (Ne.symm hj)] at ht
        exact C.merge hrows (h.pending t (List.mem_of_getElem? ht) own hother)
          (h.apart i j t₀ t rows own (Ne.symm hj) ht₀ ht hown hother)

/-- **Constraints.** -/
theorem respected_of_reachable {sequences : E.Sequences}
    (h : Reachable (Machine.step body) (Machine.initial sequences) m) : C.Respected m :=
  h.invariant (fun _ _ _ hm hstep => hm.of_step hstep) (C.initial_respected sequences)

end Constraint

/-! ### Numbers from sequences -/

/-- Numbers of type `ν` that rows carry. A statement inserts none, or the next one of a
sequence. -/
structure Numbering (E : Engine) (ν : Type) where
  val : ν → ℕ
  numbers : E.Tables → List ν
  next : E.Sequences → ℕ
  zero : numbers 0 = []
  add : ∀ s t, numbers (s + t) = numbers s ++ numbers t
  le : ∀ st tables sequences, next sequences ≤ next (E.exec st tables sequences).1
  exec : ∀ {st tables sequences sequences' rows inserted},
    E.exec st tables sequences = (sequences', some (rows, inserted)) → numbers inserted = [] ∨
      ∃ n, numbers inserted = [n] ∧ val n = next sequences ∧ next sequences' = next sequences + 1

namespace Numbering

variable {ν : Type} [DecidableEq ν] (N : Numbering E ν)

/-- The numbers in rows that may still be committed. -/
def pending (own : Option E.Tables) : List ν := (own.map N.numbers).getD []

/-- How often a number has been given out. -/
def given (m : Machine E L α) (n : ν) : ℕ :=
  (N.numbers m.tables).count n + (m.txns.flatMap fun t => N.pending t.own).count n

/-- No number has been given out twice, and none from the next one up at all. -/
def Fresh (m : Machine E L α) : Prop :=
  ∀ n, N.given m n ≤ 1 ∧ (N.next m.sequences ≤ N.val n → N.given m n = 0)

variable {N} {body : L → Prog E α} {m m' : Machine E L α}

/-- Replacing an element replaces its contribution. -/
theorem count_flatMap_set {ρ : Type} (f : ρ → List ν) (n : ν) {l : List ρ} {i : ℕ} {t : ρ}
    (h : l[i]? = some t) (t' : ρ) :
    ((l.set i t').flatMap f).count n + (f t).count n =
      (l.flatMap f).count n + (f t').count n := by
  induction l generalizing i with
  | nil => cases h
  | cons a l ih =>
    cases i with
    | zero =>
      cases h
      simp only [List.set_cons_zero, List.flatMap_cons, List.count_append]
      omega
    | succ i =>
      have hrest := ih (i := i) h
      simp only [List.set_cons_succ, List.flatMap_cons, List.count_append]
      omega

/-- What an action does to the numbers. -/
theorem given_of_act {p : Prog E α} {tables : E.Tables} {sequences : E.Sequences}
    {own : Option E.Tables} {choice : Choice} {eff : Prog.Effect E α}
    (h : p.act tables sequences own choice = some eff) (n : ν) :
    N.next sequences ≤ N.next eff.sequences ∧
    ((N.pending eff.committed).count n + (N.pending eff.own).count n ≤ (N.pending own).count n ∨
      (N.pending eff.committed).count n + (N.pending eff.own).count n ≤
          (N.pending own).count n + 1 ∧
        N.val n = N.next sequences ∧ N.next eff.sequences = N.next sequences + 1) := by
  cases p with
  | ret a => cases h
  | commit k => cases choice <;> cases own <;> cases h <;> simp [pending]
  | attempt k => cases choice <;> cases h <;> simp [pending]
  | exec st k =>
    cases choice with
    | fail =>
      cases h
      simp [pending]
    | proceed order =>
      cases own with
      | none =>
        cases h
        simp [Prog.execute, pending]
      | some own =>
        cases h
        have hle := N.le st (tables + own) sequences
        simp only [Prog.execute]
        rcases hexec : E.exec st (tables + own) sequences with ⟨sequences', _ | ⟨rows, inserted⟩⟩
        · rw [hexec] at hle
          exact ⟨hle, .inl (by simp [pending])⟩
        · rw [hexec] at hle
          refine ⟨hle, ?_⟩
          rcases N.exec hexec with hnone | ⟨new, hnew, hval, hnext⟩
          · exact .inl (by simp [pending, N.add, hnone])
          · by_cases heq : new = n
            · subst heq
              exact .inr ⟨by simp [pending, N.add, hnew], hval, hnext⟩
            · exact .inl (by simp [pending, N.add, hnew, heq])

/-- A step gives out no number, or the next one. -/
theorem given_of_step {e : Machine.Event L} (hstep : m.step body e = some m') (n : ν) :
    N.next m.sequences ≤ N.next m'.sequences ∧
    (N.given m' n ≤ N.given m n ∨ N.given m' n ≤ N.given m n + 1 ∧
      N.val n = N.next m.sequences ∧ N.next m'.sequences = N.next m.sequences + 1) := by
  cases e with
  | call l =>
    cases hstep
    have hsame :
        N.given { m with txns := m.txns ++ [⟨l, body l, some 0, []⟩] } n = N.given m n := by
      simp [given, pending, Machine.tables, N.zero]
    exact ⟨Nat.le_refl _, .inl (Nat.le_of_eq hsame)⟩
  | act i choice =>
    obtain ⟨t, eff, ht, heff, -, rfl⟩ := Machine.step_act hstep
    obtain ⟨hle, hn⟩ := given_of_act (N := N) heff n
    have hset := count_flatMap_set (fun t : Transaction E L α => N.pending t.own) n ht
      ⟨t.label, eff.prog, eff.own, t.history ++ (m.entry t choice).toList⟩
    have htables : N.numbers (tablesOf (m.commits ++ eff.committed.toList.map fun rows =>
        (⟨t.label, rows⟩ : Commit E L))) = N.numbers m.tables ++ N.pending eff.committed := by
      cases eff.committed <;> simp [tablesOf_concat, pending, Machine.tables, N.add]
    simp only [given, Machine.tables]
    rw [htables, List.count_append, Machine.tables]
    dsimp only at hset
    omega

theorem given_initial (sequences : E.Sequences) (n : ν) :
    N.given (Machine.initial sequences : Machine E L α) n = 0 := by
  have hnone : N.numbers (Machine.initial sequences : Machine E L α).tables = [] := N.zero
  rw [given, hnone]
  rfl

theorem initial_fresh (sequences : E.Sequences) :
    N.Fresh (Machine.initial sequences : Machine E L α) := by
  intro n
  rw [given_initial]
  exact ⟨Nat.zero_le _, fun _ => rfl⟩

theorem Fresh.of_step {e : Machine.Event L} (h : N.Fresh m) (hstep : m.step body e = some m') :
    N.Fresh m' := by
  intro n
  have hn := h n
  have hgiven := given_of_step (N := N) hstep n
  omega

/-- **Numbers.** -/
theorem fresh_of_reachable {sequences : E.Sequences}
    (h : Reachable (Machine.step body) (Machine.initial sequences) m) : N.Fresh m :=
  h.invariant (fun _ _ _ hm hstep => hm.of_step hstep) (initial_fresh sequences)

/-- No number is below the first one of its sequence. -/
theorem le_val_of_reachable {sequences : E.Sequences}
    (h : Reachable (Machine.step body) (Machine.initial sequences) m) {n : ν}
    (hn : n ∈ N.numbers m.tables) : N.next sequences ≤ N.val n := by
  have hinv : N.next sequences ≤ N.next m.sequences ∧
      (0 < N.given m n → N.next sequences ≤ N.val n) := by
    refine h.invariant (I := fun m => N.next sequences ≤ N.next m.sequences ∧
      (0 < N.given m n → N.next sequences ≤ N.val n)) (fun m e m' hm hstep => ?_) ?_
    · have hgiven := given_of_step (N := N) hstep n
      omega
    · rw [given_initial]
      exact ⟨Nat.le_refl _, fun hpos => by cases hpos⟩
  exact hinv.2 (Nat.lt_of_lt_of_le (List.count_pos_iff.mpr hn) (Nat.le_add_right _ _))

/-- The sequence is ahead of all numbers. -/
theorem Fresh.val_lt (h : N.Fresh m) {n : ν} (hn : n ∈ N.numbers m.tables) :
    N.val n < N.next m.sequences := by
  refine Nat.lt_of_not_le fun hle => ?_
  have hcount : 0 < (N.numbers m.tables).count n := List.count_pos_iff.mpr hn
  have hgiven := (h n).2 hle
  rw [given] at hgiven
  omega

theorem Fresh.nodup (h : N.Fresh m) : (N.numbers m.tables).Nodup :=
  List.nodup_iff_count_le_one.mpr fun n => Nat.le_trans (Nat.le_add_right _ _) (h n).1

end Numbering

end ReadCommitted
