import Mathlib.Data.Int.Notation
import Mathlib.Tactic.Common

/-!
# Row changes

A model announces to its views each insertion and each removal of rows before it happens, and says
when it has happened. A view counts the rows from what it has been told. `View.Respects` says that
a sequence of notifications, each with the number of rows that the model reports at that time, obeys
the rules: a change begins when the last one has ended, with rows that the model has or may have,
and when it ends, the view and the model agree on the number of rows.
-/

namespace RowChanges

/-- The notifications. The rows of a change are those from `first` to `last`. -/
inductive RowChange
  | beginInsertRows (first last : ℤ)
  | endInsertRows
  | beginRemoveRows (first last : ℤ)
  | endRemoveRows
  deriving DecidableEq, Repr

/-- The rows that a view has counted, and the change that has begun. -/
structure View where
  rows : ℤ
  begun : Option RowChange
  deriving DecidableEq, Repr

namespace View

/-- A view of `n` rows between two changes. -/
def showing (n : ℕ) : View where
  rows := n
  begun := none

/-- The rules for the beginning and the end of a change. -/
def Accepts (v : View) (rowCount : ℤ) : RowChange → Prop
  | .beginInsertRows first last => v.begun = none ∧ 0 ≤ first ∧ first ≤ rowCount ∧ first ≤ last
  | .beginRemoveRows first last => v.begun = none ∧ 0 ≤ first ∧ first ≤ last ∧ last < rowCount
  | .endInsertRows => ∃ first last, v.begun = some (.beginInsertRows first last)
  | .endRemoveRows => ∃ first last, v.begun = some (.beginRemoveRows first last)

/-- The view counts the rows of a change at its end. -/
def notify (v : View) (change : RowChange) : View :=
  match change, v.begun with
  | .beginInsertRows .., _ | .beginRemoveRows .., _ => { v with begun := some change }
  | .endInsertRows, some (.beginInsertRows first last) =>
    { rows := v.rows + (last - first + 1), begun := none }
  | .endRemoveRows, some (.beginRemoveRows first last) =>
    { rows := v.rows - (last - first + 1), begun := none }
  | .endInsertRows, _ | .endRemoveRows, _ => v

/-- At the end of a change, the view has counted the rows of the model. -/
def Counts (v : View) (rowCount : ℤ) : RowChange → Prop
  | .endInsertRows | .endRemoveRows => v.rows = rowCount
  | .beginInsertRows .. | .beginRemoveRows .. => True

/-- The notifications obey the rules, and no change is left open. -/
def Respects : View → List (RowChange × ℤ) → Prop
  | v, [] => v.begun = none
  | v, (change, rowCount) :: rest =>
    v.Accepts rowCount change ∧ (v.notify change).Counts rowCount change ∧
      (v.notify change).Respects rest

variable {n : ℕ} {rest : List (RowChange × ℤ)}

theorem respects_nil : (showing n).Respects [] := rfl

/-- The insertion of all rows. -/
theorem respects_insert :
    (showing 0).Respects ((.beginInsertRows 0 (n - 1), 0) :: (.endInsertRows, n) :: rest) ↔
      0 < n ∧ (showing n).Respects rest := by
  have hrows : ((showing 0).notify (.beginInsertRows 0 (n - 1))).notify .endInsertRows =
      showing n := by
    change View.mk (((0 : ℕ) : ℤ) + ((n : ℤ) - 1 - 0 + 1)) none = View.mk n none
    rw [View.mk.injEq]
    exact ⟨by omega, rfl⟩
  rw [Respects, Respects, hrows]
  constructor
  · rintro ⟨⟨-, -, -, hlast⟩, -, -, -, hrest⟩
    exact ⟨by omega, hrest⟩
  · rintro ⟨hpos, hrest⟩
    exact ⟨⟨rfl, by omega, by omega, by omega⟩, trivial, ⟨0, _, rfl⟩, rfl, hrest⟩

/-- The removal of all rows. -/
theorem respects_remove :
    (showing n).Respects ((.beginRemoveRows 0 (n - 1), n) :: (.endRemoveRows, 0) :: rest) ↔
      0 < n ∧ (showing 0).Respects rest := by
  have hrows : ((showing n).notify (.beginRemoveRows 0 (n - 1))).notify .endRemoveRows =
      showing 0 := by
    change View.mk ((n : ℤ) - ((n : ℤ) - 1 - 0 + 1)) none = View.mk ((0 : ℕ) : ℤ) none
    rw [View.mk.injEq]
    exact ⟨by omega, rfl⟩
  rw [Respects, Respects, hrows]
  constructor
  · rintro ⟨⟨-, -, hlast, -⟩, -, -, -, hrest⟩
    exact ⟨by omega, hrest⟩
  · rintro ⟨hpos, hrest⟩
    exact ⟨⟨rfl, by omega, by omega, by omega⟩, trivial, ⟨0, _, rfl⟩, rfl, hrest⟩

end View

end RowChanges
