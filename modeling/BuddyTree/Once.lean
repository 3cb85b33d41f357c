/-
# Cells that are filled once

The allocator of a process stands in a cell that is empty at first and can be filled once.  Filling
it takes work, and the work may fail.  A value that is there can be changed in place, but it is
never taken out again.

How such a cell is made is left open: `Once` says what it can do, and `Once.Lawful` what may be
relied on.  `Once.option` is such a cell.
-/

namespace BuddyTree

/-- What a cell that is filled once can do. -/
structure Once where
  /-- The cells for one type of values. -/
  Cell : Type → Type
  /-- An empty cell. -/
  new {α : Type} : Cell α
  /-- The value that is there, if one is. -/
  get? {α : Type} : Cell α → Option α
  /-- Fill the cell with what the work gives, unless that is not needed any more: the value that is
  there now, or the error of the work, and the state of whatever the work uses. -/
  tryCallOnce {α ε σ : Type} :
    (σ → Except ε α × σ) → Cell α → σ → (Except ε α × Cell α) × σ
  /-- Change the value in place, if there is one. -/
  modify {α : Type} : (α → α) → Cell α → Cell α

/-- What may be relied on. -/
structure Once.Lawful (O : Once) : Prop where
  get?_new {α : Type} : O.get? (O.new : O.Cell α) = none
  get?_modify {α : Type} (f : α → α) (cell : O.Cell α) :
    O.get? (O.modify f cell) = (O.get? cell).map f
  /-- Where no value is stored the work is done.  What it gives is the answer, and it is stored if
  it is no error; -/
  empty {α ε σ : Type} (work : σ → Except ε α × σ) {cell : O.Cell α} (s : σ) :
    O.get? cell = none →
      ∃ cell', O.tryCallOnce work cell s = (((work s).1, cell'), (work s).2) ∧
        O.get? cell' = (work s).1.toOption
  /-- where one is stored, the work is not done. -/
  full {α ε σ : Type} (work : σ → Except ε α × σ) {cell : O.Cell α} (s : σ) {a : α} :
    O.get? cell = some a →
      ∃ cell', O.tryCallOnce work cell s = ((.ok a, cell'), s) ∧ O.get? cell' = some a

/-- A cell that is its value, if there is one. -/
def Once.option : Once where
  Cell := Option
  new := none
  get? := id
  tryCallOnce work cell s :=
    match cell with
    | some a => ((.ok a, some a), s)
    | none =>
      let (result, s) := work s
      ((result, result.toOption), s)
  modify f cell := cell.map f

theorem Once.lawful_option : Once.option.Lawful where
  get?_new := rfl
  get?_modify _ _ := rfl
  empty work cell s h := by
    cases (h : cell = none)
    exact ⟨_, rfl, rfl⟩
  full work cell s a h := by
    cases (h : cell = some a)
    exact ⟨_, rfl, rfl⟩

end BuddyTree
