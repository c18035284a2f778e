import Mathlib.Tactic.Common

/-!
# Runs of a partial labelled step function

A system is given by `step : σ → ε → Option σ`: the state that event `e` leads to, or `none`
where `e` cannot happen. `run` iterates it along a list of events.

Two predicates speak about a whole run. `Always P` says that `P` holds in every state the run
goes through, the first one included; `EachStep C` says that every step the run really takes
starts in a state, and is caused by an event, that satisfy `C`.

`EachEvent C` asks the same of the event at which a run breaks off.

`always_of_invariant` packages the usual induction (an invariant that the steps satisfying `C`
preserve holds throughout every run of such steps), and `always_iff_eachStep` its sharp form:
when a step violating `C` also destroys `P`, the runs that keep `P` are exactly the runs all of
whose steps satisfy `C`. `exists_run_of_simulates` does the same for a relation between two systems.
-/

namespace Transition

universe u v

variable {σ : Type u} {ε : Type v} {step : σ → ε → Option σ}

/-- The state a list of events leads to, `none` when one of them cannot happen. -/
def run (step : σ → ε → Option σ) : σ → List ε → Option σ
  | s, [] => some s
  | s, e :: es => (step s e).bind fun s' => run step s' es

/-- `P` holds in every state of the run, the first and the last one included. -/
def Always (step : σ → ε → Option σ) (P : σ → Prop) : σ → List ε → Prop
  | s, [] => P s
  | s, e :: es => P s ∧ ∀ s', step s e = some s' → Always step P s' es

/-- Every step taken by the run satisfies `C` in the state it starts from. -/
def EachStep (step : σ → ε → Option σ) (C : σ → ε → Prop) : σ → List ε → Prop
  | _, [] => True
  | s, e :: es => ∀ s', step s e = some s' → C s e ∧ EachStep step C s' es

/-- Every event that the run comes to satisfies `C` in the state that it finds, whether the step
can be taken or not. -/
def EachEvent (step : σ → ε → Option σ) (C : σ → ε → Prop) : σ → List ε → Prop
  | _, [] => True
  | s, e :: es => C s e ∧ ∀ s', step s e = some s' → EachEvent step C s' es

/-- `s` is reached from `init` by some run. -/
def Reachable (step : σ → ε → Option σ) (init s : σ) : Prop :=
  ∃ es, run step init es = some s

@[simp] theorem run_nil (s : σ) : run step s [] = some s := rfl

theorem run_cons (s : σ) (e : ε) (es : List ε) :
    run step s (e :: es) = (step s e).bind fun s' => run step s' es := rfl

theorem run_cons_of_step {s s' : σ} {e : ε} (h : step s e = some s') (es : List ε) :
    run step s (e :: es) = run step s' es := by
  rw [run_cons, h, Option.bind_some]

/-- A run goes on where its first part ends. -/
theorem run_append (s : σ) (es fs : List ε) :
    run step s (es ++ fs) = (run step s es).bind fun s' => run step s' fs := by
  induction es generalizing s with
  | nil => rfl
  | cons e es ih =>
    rw [List.cons_append, run_cons, run_cons]
    cases h : step s e with
    | none => rfl
    | some s' => exact ih s'

theorem run_concat {s s' s'' : σ} {es : List ε} {e : ε} (h : run step s es = some s')
    (he : step s' e = some s'') : run step s (es ++ [e]) = some s'' := by
  rw [run_append, h, Option.bind_some, run_cons_of_step he, run_nil]

theorem Reachable.refl (s : σ) : Reachable step s s := ⟨[], rfl⟩

/-- A step leads to a reachable state. -/
theorem Reachable.concat {init s s' : σ} {e : ε} (h : Reachable step init s)
    (he : step s e = some s') : Reachable step init s' := by
  obtain ⟨es, hes⟩ := h
  exact ⟨es ++ [e], run_concat hes he⟩

/-! ### Invariants -/

/-- An invariant kept by every step taken from a state that satisfies it holds at the end of a
run. -/
theorem invariant_of_run {I : σ → Prop}
    (hstep : ∀ s e s', I s → step s e = some s' → I s') {s s' : σ} {es : List ε}
    (h₀ : I s) (h : run step s es = some s') : I s' := by
  induction es generalizing s with
  | nil =>
    cases h
    exact h₀
  | cons e es ih =>
    rw [run_cons, Option.bind_eq_some_iff] at h
    obtain ⟨s₁, h₁, h₂⟩ := h
    exact ih (hstep s e s₁ h₀ h₁) h₂

/-- An invariant of the steps holds in every reachable state. -/
theorem Reachable.invariant {I : σ → Prop}
    (hstep : ∀ s e s', I s → step s e = some s' → I s') {init s : σ}
    (h : Reachable step init s) (h₀ : I init) : I s := by
  obtain ⟨es, hes⟩ := h
  exact invariant_of_run hstep h₀ hes

/-- An invariant of the steps that satisfy `C` holds throughout every run of such steps. -/
theorem always_of_invariant {I : σ → Prop} {C : σ → ε → Prop}
    (hstep : ∀ s e s', I s → step s e = some s' → C s e → I s') {s : σ} {es : List ε}
    (h₀ : I s) (hC : EachStep step C s es) : Always step I s es := by
  induction es generalizing s with
  | nil => exact h₀
  | cons e es ih =>
    refine ⟨h₀, fun s' hs' => ?_⟩
    obtain ⟨hc, hrest⟩ := hC s' hs'
    exact ih (hstep s e s' h₀ hs' hc) hrest

/-- A weaker property holds throughout as well. -/
theorem Always.mono {P Q : σ → Prop} (hPQ : ∀ s, P s → Q s) {s : σ} {es : List ε}
    (h : Always step P s es) : Always step Q s es := by
  induction es generalizing s with
  | nil => exact hPQ s h
  | cons e es ih => exact ⟨hPQ s h.1, fun s' hs' => ih (h.2 s' hs')⟩

theorem Always.head {P : σ → Prop} {s : σ} {es : List ε} (h : Always step P s es) : P s := by
  cases es with
  | nil => exact h
  | cons e es => exact h.1

/-- **Exactness.** Suppose `I` implies `P`, the steps satisfying `C` keep `I`, and a step
from an `I` state that violates `C` ends in a state without `P`. Then the runs that keep `P`
are exactly those all of whose steps satisfy `C`. -/
theorem always_iff_eachStep {I P : σ → Prop} {C : σ → ε → Prop}
    (hP : ∀ s, I s → P s)
    (hgood : ∀ s e s', I s → step s e = some s' → C s e → I s')
    (hbad : ∀ s e s', I s → step s e = some s' → ¬ C s e → ¬ P s')
    {s : σ} {es : List ε} (h₀ : I s) : Always step P s es ↔ EachStep step C s es := by
  refine ⟨fun h => ?_, fun h => (always_of_invariant hgood h₀ h).mono hP⟩
  induction es generalizing s with
  | nil => trivial
  | cons e es ih =>
    intro s' hs'
    have hrest : Always step P s' es := h.2 s' hs'
    have hc : C s e := by
      by_contra hc
      exact hbad s e s' h₀ hs' hc hrest.head
    exact ⟨hc, ih (hgood s e s' h₀ hs' hc) hrest⟩

/-- `Always` speaks about the states of the prefixes of the run. -/
theorem always_iff_prefixes {P : σ → Prop} {s : σ} {es : List ε} :
    Always step P s es ↔
      ∀ es₁ es₂, es = es₁ ++ es₂ → ∀ s', run step s es₁ = some s' → P s' := by
  constructor
  · rintro h es₁ es₂ rfl s' hs'
    induction es₁ generalizing s with
    | nil =>
      cases hs'
      exact h.head
    | cons e es₁ ih =>
      rw [run_cons, Option.bind_eq_some_iff] at hs'
      obtain ⟨s₁, h₁, h₂⟩ := hs'
      exact ih (h.2 s₁ h₁) h₂
  · intro h
    induction es generalizing s with
    | nil => exact h [] [] rfl s rfl
    | cons e es ih =>
      refine ⟨h [] (e :: es) rfl s rfl, fun s' hs' => ih fun es₁ es₂ hes s'' hs'' => ?_⟩
      refine h (e :: es₁) es₂ (by rw [hes, List.cons_append]) s'' ?_
      rw [run_cons_of_step hs', hs'']

/-- Such an invariant holds at the end of the run. -/
theorem invariant_of_eachStep {I : σ → Prop} {C : σ → ε → Prop}
    (hstep : ∀ s e s', I s → step s e = some s' → C s e → I s') {s s' : σ} {es : List ε}
    (h₀ : I s) (hC : EachStep step C s es) (hrun : run step s es = some s') : I s' :=
  always_iff_prefixes.mp (always_of_invariant hstep h₀ hC) es [] (List.append_nil es).symm s' hrun

/-- An invariant may also speak about the events so far. -/
theorem history_of_eachStep {I : List ε → σ → Prop} {C : σ → ε → Prop} {init s : σ} {es : List ε}
    (hstep : ∀ before s e s', run step init before = some s → I before s → step s e = some s' →
      C s e → I (before ++ [e]) s')
    (h₀ : I [] init) (hC : EachStep step C init es) (hrun : run step init es = some s) :
    I es s := by
  have key : ∀ es before s₁, run step init before = some s₁ → I before s₁ →
      EachStep step C s₁ es → run step s₁ es = some s → I (before ++ es) s := by
    intro es
    induction es with
    | nil =>
      intro before s₁ _ hI _ hrun
      cases hrun
      rwa [List.append_nil]
    | cons e es ih =>
      intro before s₁ hbefore hI hC hrun
      rw [run_cons, Option.bind_eq_some_iff] at hrun
      obtain ⟨s₂, hs₂, hrun⟩ := hrun
      obtain ⟨he, hrest⟩ := hC s₂ hs₂
      have hnext := ih (before ++ [e]) s₂ (run_concat hbefore hs₂)
        (hstep before s₁ e s₂ hbefore hI hs₂ he) hrest hrun
      rwa [List.append_assoc] at hnext
  exact key es [] init rfl h₀ hC hrun

theorem eachStep_cons {C : σ → ε → Prop} {s s' : σ} {e : ε} (h : step s e = some s')
    (es : List ε) : EachStep step C s (e :: es) ↔ C s e ∧ EachStep step C s' es := by
  constructor
  · intro hes
    exact hes s' h
  · rintro hes s'' h''
    obtain rfl := Option.some_inj.mp (h.symm.trans h'')
    exact hes

/-- Steps that satisfy more satisfy less. -/
theorem EachStep.mono {C D : σ → ε → Prop} (h : ∀ s e, C s e → D s e) {s : σ} {es : List ε}
    (hes : EachStep step C s es) : EachStep step D s es := by
  induction es generalizing s with
  | nil => trivial
  | cons e es ih =>
    intro s' hs'
    obtain ⟨he, hrest⟩ := hes s' hs'
    exact ⟨h s e he, ih hrest⟩

theorem EachEvent.mono {C D : σ → ε → Prop} (h : ∀ s e, C s e → D s e) {s : σ} {es : List ε}
    (hes : EachEvent step C s es) : EachEvent step D s es := by
  induction es generalizing s with
  | nil => trivial
  | cons e es ih => exact ⟨h s e hes.1, fun s' hs' => ih (hes.2 s' hs')⟩

theorem eachEvent_congr {C D : σ → ε → Prop} (h : ∀ s e, C s e ↔ D s e) {s : σ} {es : List ε} :
    EachEvent step C s es ↔ EachEvent step D s es :=
  ⟨.mono fun s e => (h s e).mp, .mono fun s e => (h s e).mpr⟩

/-- A run goes through to its end when each of its events can happen. -/
theorem isSome_run_iff {C : σ → ε → Prop} (h : ∀ s e, (step s e).isSome ↔ C s e) {s : σ}
    {es : List ε} : (run step s es).isSome ↔ EachEvent step C s es := by
  induction es generalizing s with
  | nil => exact iff_of_true rfl trivial
  | cons e es ih =>
    rw [run_cons, EachEvent, ← h]
    cases hs : step s e with
    | none =>
      rw [Option.bind_none]
      exact iff_of_false Bool.false_ne_true fun hes => Bool.false_ne_true hes.1
    | some s' =>
      rw [Option.bind_some, ih]
      refine ⟨fun hes => ⟨rfl, fun t ht => ?_⟩, fun hes => hes.2 s' rfl⟩
      cases ht
      exact hes

instance EachStep.decidable {C : σ → ε → Prop} [∀ s e, Decidable (C s e)] :
    ∀ s es, Decidable (EachStep step C s es)
  | _, [] => .isTrue trivial
  | s, e :: es =>
    match h : step s e with
    | none => .isTrue fun _ hs' => absurd (h.symm.trans hs') nofun
    | some s' =>
      have : Decidable (EachStep step C s' es) := EachStep.decidable s' es
      decidable_of_iff _ (eachStep_cons h es).symm

/-! ### Simulation -/

section Simulation

variable {τ : Type u} {φ : Type v} {step' : τ → φ → Option τ} {C : σ → ε → Prop} {R : σ → τ → Prop}

/-- **Simulation.** When the system with `step'` follows every step that satisfies `C`, by any
number of its own, it follows every run of such steps. -/
theorem exists_run_of_simulates
    (hstep : ∀ s e s' t, R s t → step s e = some s' → C s e →
      ∃ fs t', run step' t fs = some t' ∧ R s' t')
    {s s' : σ} {t : τ} {es : List ε} (h₀ : R s t) (hes : EachStep step C s es)
    (hrun : run step s es = some s') : ∃ fs t', run step' t fs = some t' ∧ R s' t' := by
  induction es generalizing s t with
  | nil =>
    cases hrun
    exact ⟨[], t, rfl, h₀⟩
  | cons e es ih =>
    rw [run_cons, Option.bind_eq_some_iff] at hrun
    obtain ⟨s₁, h₁, hrun⟩ := hrun
    obtain ⟨he, hrest⟩ := (eachStep_cons h₁ es).mp hes
    obtain ⟨fs, t₁, hfs, hR⟩ := hstep s e s₁ t h₀ h₁ he
    obtain ⟨gs, t', hgs, hR'⟩ := ih hR hrest hrun
    refine ⟨fs ++ gs, t', ?_, hR'⟩
    rw [run_append, hfs, Option.bind_some, hgs]

end Simulation

end Transition
