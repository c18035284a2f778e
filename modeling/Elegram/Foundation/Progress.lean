import Elegram.Foundation.Integrity
import Mathlib.Data.Multiset.DershowitzManna
import Mathlib.SetTheory.Ordinal.Family

/-!
# Work that comes to an end

Some events of a system are its own doing (`inner`), and others come from outside. A system whose
own events always leave less work comes to rest, whatever their order: `exists_run_eq_none` says
that no infinite schedule of inner events can be carried out, and `exists_atRest` that every state
leads to one in which nothing is left to do.

Work is a multiset of ordinals. An event does less work when it replaces one item by any number of
smaller ones. Programs have no bound on their actions, as these depend on the rows that their
queries return, but each has an ordinal (`Prog.rank`), so that interleaved programs come to an end
too.
-/

namespace Transition

variable {σ ε μ : Type*} {step : σ → ε → Option σ} {inner : ε → Prop}

/-- Nothing happens without an event from outside. -/
def AtRest (step : σ → ε → Option σ) (inner : ε → Prop) (s : σ) : Prop :=
  ∀ e, inner e → step s e = none

section Rank

variable {r : μ → μ → Prop} {I : σ → Prop} {work : σ → μ}

/-- A schedule of inner events breaks off. -/
theorem exists_run_eq_none (hr : WellFounded r)
    (hstep : ∀ s e s', I s → inner e → step s e = some s' → I s' ∧ r (work s') (work s))
    {s : σ} (hs : I s) (es : ℕ → ε) (hes : ∀ n, inner (es n)) :
    ∃ n, run step s ((List.range n).map es) = none := by
  induction hw : work s using hr.induction generalizing s es with
  | _ w ih =>
    cases h : step s (es 0) with
    | none =>
      refine ⟨1, ?_⟩
      rw [List.range_one, List.map_singleton, run_cons, h, Option.bind_none]
    | some s' =>
      obtain ⟨hs', hless⟩ := hstep s (es 0) s' hs (hes 0) h
      obtain ⟨n, hn⟩ := ih (work s') (hw ▸ hless) hs' (fun n => es (n + 1))
        (fun n => hes (n + 1)) rfl
      refine ⟨n + 1, ?_⟩
      rw [List.range_succ_eq_map, List.map_cons, List.map_map, run_cons_of_step h]
      exact hn

/-- Every state leads to one at rest. -/
theorem exists_atRest (hr : WellFounded r)
    (hstep : ∀ s e s', I s → inner e → step s e = some s' → I s' ∧ r (work s') (work s))
    {s : σ} (hs : I s) :
    ∃ es s', (∀ e ∈ es, inner e) ∧ run step s es = some s' ∧ AtRest step inner s' := by
  induction hw : work s using hr.induction generalizing s with
  | _ w ih =>
    by_cases hrest : AtRest step inner s
    · exact ⟨[], s, fun _ he => absurd he List.not_mem_nil, rfl, hrest⟩
    · simp only [AtRest, not_forall] at hrest
      obtain ⟨e, he, hsome⟩ := hrest
      obtain ⟨s₁, h₁⟩ := Option.ne_none_iff_exists'.mp hsome
      obtain ⟨hs₁, hless⟩ := hstep s e s₁ hs he h₁
      obtain ⟨es, s', hes, hrun, hs'⟩ := ih (work s₁) (hw ▸ hless) hs₁ rfl
      refine ⟨e :: es, s', fun e' he' => ?_, ?_, hs'⟩
      · rcases List.mem_cons.mp he' with rfl | he'
        · exact he
        · exact hes e' he'
      · rw [run_cons_of_step h₁, hrun]

end Rank

/-! ### Multisets of ordinals -/

/-- What is left to do: each item is an ordinal, for the amount of work that it stands for. -/
abbrev Work : Type 1 := Multiset Ordinal.{0}

/-- There is less to do: some items have been replaced by smaller ones. -/
abbrev Work.Less (w w' : Work) : Prop := Multiset.IsDershowitzMannaLT w w'

theorem Work.wellFounded_less : WellFounded Work.Less :=
  Multiset.wellFounded_isDershowitzMannaLT

namespace Work

/-- One item is replaced by smaller ones. -/
theorem less_singleton {w : Work} {o : Ordinal} (h : ∀ a ∈ w, a < o) : Less w {o} :=
  ⟨0, w, {o}, Multiset.singleton_ne_zero o, (zero_add w).symm, (zero_add _).symm,
    fun a ha => ⟨o, Multiset.mem_singleton_self o, h a ha⟩⟩

theorem Less.add_left {w w' : Work} (h : Less w w') (rest : Work) :
    Less (rest + w) (rest + w') := by
  obtain ⟨X, Y, Z, hZ, rfl, rfl, hYZ⟩ := h
  exact ⟨rest + X, Y, Z, hZ, (add_assoc ..).symm, (add_assoc ..).symm, hYZ⟩

theorem Less.add_right {w w' : Work} (h : Less w w') (rest : Work) :
    Less (w + rest) (w' + rest) := by
  rw [add_comm w, add_comm w']
  exact h.add_left rest

/-- The work of all elements of a list. -/
def ofList {α : Type*} (f : α → Work) (l : List α) : Work := (l.map f).sum

variable {α : Type*} {f : α → Work}

@[simp] theorem ofList_nil : ofList f [] = 0 := rfl

@[simp] theorem ofList_cons (a : α) (l : List α) : ofList f (a :: l) = f a + ofList f l := by
  rw [ofList, List.map_cons, List.sum_cons, ofList]

@[simp] theorem ofList_append (l l' : List α) : ofList f (l ++ l') = ofList f l + ofList f l' := by
  rw [ofList, List.map_append, List.sum_append, ofList, ofList]

/-- The work of one element of a list, and the rest. -/
theorem exists_ofList_set {l : List α} {i : ℕ} {a : α} (h : l[i]? = some a) :
    ∃ rest, ofList f l = rest + f a ∧ ∀ a', ofList f (l.set i a') = rest + f a' := by
  induction l generalizing i with
  | nil => cases h
  | cons b l ih =>
    cases i with
    | zero =>
      cases h
      refine ⟨ofList f l, ?_, fun a' => ?_⟩
      · rw [ofList_cons, add_comm]
      · rw [List.set_cons_zero, ofList_cons, add_comm]
    | succ i =>
      obtain ⟨rest, hl, hset⟩ := ih (i := i) h
      refine ⟨f b + rest, ?_, fun a' => ?_⟩
      · rw [ofList_cons, hl, add_assoc]
      · rw [List.set_cons_succ, ofList_cons, hset, add_assoc]

end Work

end Transition

/-! ### Programs -/

namespace ReadCommitted

open Transition

variable {E : Engine} {L α : Type}

namespace Prog

/-- How much a program has to do. -/
noncomputable def rank : Prog E α → Ordinal.{0}
  | .ret _ => 0
  | .exec _ k => ⨆ rows, (k rows).rank + 1
  | .commit k => ⨆ ok, (k ok).rank + 1
  | .attempt k => ⨆ ok, (k ok).rank + 1

/-- An action does some of it. -/
theorem rank_lt_of_act {p : Prog E α} {tables : E.Tables} {sequences : E.Sequences}
    {own : Option E.Tables} {choice : Choice} {eff : Effect E α}
    (h : p.act tables sequences own choice = some eff) : eff.prog.rank < p.rank := by
  cases p with
  | ret a => cases h
  | exec st k =>
    have hrank : ∀ rows, (k rows).rank < (Prog.exec st k).rank :=
      fun rows => Ordinal.lt_iSup_add_one (fun rows => (k rows).rank) rows
    cases choice with
    | fail =>
      cases h
      exact hrank none
    | proceed order =>
      cases h
      cases own with
      | none => exact hrank none
      | some own =>
        rw [execute]
        rcases E.exec st (tables + own) sequences with ⟨_, _ | ⟨rows, inserted⟩⟩
        · exact hrank none
        · exact hrank (some (order.arrange rows))
  | commit k =>
    have hrank : ∀ ok, (k ok).rank < (Prog.commit (E := E) k).rank :=
      fun ok => Ordinal.lt_iSup_add_one (fun ok => (k ok).rank) ok
    cases choice <;> cases own <;> cases h <;> exact hrank _
  | attempt k =>
    have hrank : ∀ ok, (k ok).rank < (Prog.attempt (E := E) k).rank :=
      fun ok => Ordinal.lt_iSup_add_one (fun ok => (k ok).rank) ok
    cases choice <;> cases h <;> exact hrank _

end Prog

namespace Machine

variable {body : L → Prog E α} {m m' : Machine E L α}

/-- What is left to do for the programs under way. -/
noncomputable def work (m : Machine E L α) : Work :=
  Work.ofList (fun t => {t.prog.rank}) m.txns

theorem work_less_of_act {i : ℕ} {choice : Choice} (h : m.step body (.act i choice) = some m') :
    Work.Less m'.work m.work := by
  obtain ⟨t, eff, ht, heff, -, rfl⟩ := step_act h
  obtain ⟨rest, hwork, hset⟩ := Work.exists_ofList_set (f := fun t => {t.prog.rank}) ht
  rw [work, work, hwork, hset]
  refine (Work.less_singleton fun o ho => ?_).add_left rest
  rw [Multiset.mem_singleton.mp ho]
  exact Prog.rank_lt_of_act heff

variable (body) in
/-- A program that has not returned can act: if nothing else, the action fails. -/
theorem exists_step_act {C : Constraint E} (hm : C.Respected m) {i : ℕ} {t : Transaction E L α}
    (ht : m.txns[i]? = some t) (hprog : ∀ a, t.prog ≠ .ret a) :
    ∃ m', m.step body (.act i .fail) = some m' := by
  have hfail : ∃ eff, t.prog.act m.tables m.sequences t.own .fail = some eff ∧
      (eff.own = none ∨ eff.own = t.own) := by
    cases hp : t.prog with
    | ret a => exact absurd hp (hprog a)
    | exec st k => exact ⟨_, rfl, .inl rfl⟩
    | commit k => exact ⟨_, rfl, .inl rfl⟩
    | attempt k => exact ⟨_, rfl, .inr rfl⟩
  obtain ⟨eff, heff, hown⟩ := hfail
  refine ⟨_, step_of_act body ht heff ?_⟩
  rcases hown with hnone | hsame
  · rw [hnone]
    rfl
  · rw [hsame]
    cases htown : t.own with
    | none => rfl
    | some own =>
      refine List.all_eq_true.mpr fun ⟨u, j⟩ hmem => ?_
      have hu := List.mem_zipIdx_iff_getElem?.mp hmem
      by_cases hj : j = i
      · simp [hj]
      · cases huown : u.own with
        | none => simp [huown]
        | some other =>
          have hapart := hm.apart i j t u own other (Ne.symm hj) ht hu htown huown
          simp [huown, hapart]

end Machine

end ReadCommitted
