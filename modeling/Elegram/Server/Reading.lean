import Elegram.Server.StorageRules

/-!
# How a read ends

The functions that read open a transaction, execute one statement, commit, and only then convert
the rows field by field. `readRows_ends` follows a read to its end. It returns nothing when one of
the three actions fails, and when a conversion throws, what has been filled in until then
(`brokenOff`); a caller cannot tell either from a result of the database. `readRows_kept_iff` says
when this does no harm to a reader that puts the result in place of what it has.
-/

namespace Elegram

open ReadCommitted Txn

variable {M : Type} {t : Tables} {seq : Sequences} {choices : ℕ → Choice} {st : Statement}
  {rowsOf : Tables → Option (List st.Row)}

theorem readRows_ends (hst : ∀ t seq, st.exec t seq = Statement.select seq (rowsOf t)) (empty : M)
    (setters : st.Row → List (M → M)) :
    Prog.Ensures (readRows st empty setters) (fun r _ =>
      (r = [] ∧ (rowsOf t = none ∨ ¬ Calm 3 choices)) ∨
      ∃ stored order, rowsOf t = some stored ∧ Calm 3 choices ∧ choices 1 = .proceed order ∧
        ((Calm (3 + fieldCount setters (order.arrange stored)) choices ∧
            r = (order.arrange stored).map fun row => fullMessage empty (setters row)) ∨
          ∃ k < fieldCount setters (order.arrange stored), Calm (3 + k) choices ∧
            choices (3 + k) = .fail ∧ r = brokenOff empty setters (order.arrange stored) k))
      ⟨t, seq, some 0, choices⟩ := by
  refine ensures_readRows hst (fun hbad _ _ => .inl ⟨rfl, hbad⟩)
    fun stored order hstored hcalm h₁ => ?_
  refine Prog.Ensures.mono (fillResponse_ensures _ []) ?_
  rintro r _ ⟨-, hr⟩
  refine .inr ⟨stored, order, hstored, hcalm, h₁, hr.imp ?_ ?_⟩
  · rintro ⟨hrest, rfl⟩
    exact ⟨calm_add.mpr ⟨hcalm, hrest⟩, rfl⟩
  · rintro ⟨k, hk, hrest, hfail, rfl⟩
    refine ⟨k, hk, calm_add.mpr ⟨hcalm, hrest⟩, ?_, rfl⟩
    rwa [Nat.add_comm]

/-! ### Readers

A reader puts an item for each message of the response in place of the items that it has. -/

variable {I : Type}

/-- The items of the rows. -/
def itemsOf {ρ : Type} (empty : M) (setters : ρ → List (M → M)) (item : M → I) (rows : List ρ) :
    List I :=
  rows.map fun row => item (fullMessage empty (setters row))

/-- No failure does harm to a reader. One before the loop finds nothing that is stored, or nothing
that the reader has. When the conversion of a field throws, it is in the last row, where only
default values are missing, or the reader has just the rows before and what there is of this one. -/
structure Spared {ρ : Type} (empty : M) (setters : ρ → List (M → M)) (item : M → I)
    (stored : List ρ) (choices : ℕ → Choice) (before : List I) : Prop where
  start : ¬ Calm 3 choices → stored = [] ∨ before = []
  loop : ∀ order done row rest j, choices 1 = .proceed order →
    order.arrange stored = done ++ row :: rest → j < (setters row).length →
    Calm (3 + (fieldCount setters done + j)) choices →
    choices (3 + (fieldCount setters done + j)) = .fail →
    (rest = [] ∧ item (partialMessage empty (setters row) j) =
        item (fullMessage empty (setters row))) ∨
      before = itemsOf empty setters item done ++ [item (partialMessage empty (setters row) j)]

/-- What is broken off does no harm if nothing is missing of it, or the reader has had it. -/
theorem brokenOff_kept_iff {ρ : Type} {empty : M} {setters : ρ → List (M → M)} {item : M → I}
    {rows stored done rest : List ρ} {row : ρ} {j : ℕ} (hperm : rows.Perm stored)
    (hrows : rows = done ++ row :: rest) (hj : j < (setters row).length) (before : List I) :
    (((brokenOff empty setters rows (fieldCount setters done + j)).map item).Perm
        (itemsOf empty setters item stored) ∨
      (brokenOff empty setters rows (fieldCount setters done + j)).map item = before) ↔
    (rest = [] ∧ item (partialMessage empty (setters row) j) =
        item (fullMessage empty (setters row))) ∨
      before = itemsOf empty setters item done ++
        [item (partialMessage empty (setters row) j)] := by
  have hitems : (itemsOf empty setters item stored).Perm (itemsOf empty setters item done ++
      item (fullMessage empty (setters row)) :: itemsOf empty setters item rest) := by
    have hmap := (hrows ▸ hperm.symm).map fun row => item (fullMessage empty (setters row))
    rwa [List.map_append, List.map_cons] at hmap
  rw [hrows, brokenOff_append done rest hj, List.map_append, List.map_map, List.map_singleton]
  refine or_congr ?_ eq_comm
  change (itemsOf empty setters item done ++ _).Perm _ ↔ _
  rw [hitems.congr_right, List.perm_append_left_iff]
  constructor
  · intro hsingle
    have heq := List.perm_singleton.mp hsingle.symm
    rw [List.cons.injEq] at heq
    exact ⟨List.map_eq_nil_iff.mp heq.2, heq.1.symm⟩
  · rintro ⟨rfl, heq⟩
    rw [heq]
    exact List.Perm.refl _

/-- **Reads.** The items of the response are those of all rows or those that the reader has had,
exactly if the failures do no harm. -/
theorem readRows_kept_iff (hst : ∀ t seq, st.exec t seq = Statement.select seq (rowsOf t))
    (empty : M) (setters : st.Row → List (M → M)) (item : M → I) (before : List I) :
    Prog.Ensures (readRows st empty setters) (fun r _ =>
      ((r.map item).Perm (itemsOf empty setters item ((rowsOf t).getD [])) ∨
          r.map item = before) ↔
        Spared empty setters item ((rowsOf t).getD []) choices before)
      ⟨t, seq, some 0, choices⟩ := by
  refine Prog.Ensures.mono (readRows_ends hst empty setters) ?_
  rintro r - (⟨rfl, hnone | hbad⟩ | ⟨stored, order, hstored, hcalm, horder, hcases⟩)
  · -- the statement fails, as nothing can be stored
    rw [hnone]
    refine iff_of_true (.inl (List.Perm.refl _)) ⟨fun _ => .inl rfl, ?_⟩
    intro order done row rest j _ hrows
    have hnil : order.arrange ([] : List st.Row) = [] := List.perm_nil.mp (order.arrange_perm [])
    rw [Option.getD_none, hnil] at hrows
    exact absurd hrows.symm (List.append_ne_nil_of_right_ne_nil _ (List.cons_ne_nil _ _))
  · -- an action before the loop fails
    rw [List.map_nil]
    constructor
    · intro h
      refine ⟨fun _ => h.imp (fun hperm => ?_) Eq.symm, ?_⟩
      · exact List.map_eq_nil_iff.mp (List.nil_perm.mp hperm)
      · intro order done row rest j _ _ _ hcalm
        exact absurd (calm_add.mp hcalm).1 hbad
    · intro h
      refine (h.start hbad).imp (fun hnil => ?_) Eq.symm
      rw [hnil]
      exact List.Perm.refl _
  rw [hstored, Option.getD_some]
  have hperm := order.arrange_perm stored
  rcases hcases with ⟨hall, rfl⟩ | ⟨k, hk, hbefore, hfail, rfl⟩
  · -- no conversion throws
    refine iff_of_true (.inl ?_) ⟨fun h => absurd hcalm h, ?_⟩
    · rw [List.map_map]
      exact hperm.map _
    · intro order' done row rest j horder' hrows hj _ hfail
      cases horder.symm.trans horder'
      have hlt : fieldCount setters done + j < fieldCount setters (order.arrange stored) :=
        hrows ▸ fieldCount_append_lt done rest hj
      exact absurd hfail (hall _ (Nat.add_lt_add_left hlt 3))
  · constructor
    · intro h
      refine ⟨fun hnot => absurd hcalm hnot, ?_⟩
      intro order' done row rest j horder' hrows hj hcalm' hfail'
      cases horder.symm.trans horder'
      have hsame := Nat.add_left_cancel (Calm.unique hbefore hfail hcalm' hfail')
      rw [← hsame] at h
      exact (brokenOff_kept_iff hperm hrows hj before).mp h
    · intro h
      obtain ⟨done, row, rest, j, hrows, hj, rfl⟩ := exists_row_of_lt hk
      exact (brokenOff_kept_iff hperm hrows hj before).mpr
        (h.loop order done row rest j horder hrows hj hbefore hfail)

end Elegram
