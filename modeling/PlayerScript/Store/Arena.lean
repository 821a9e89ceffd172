/-
Arenas: cells that are added one by one and never removed. A cell is known by its position, so an
old position keeps its meaning for good.
-/
namespace PlayerScript

/-- Cells that are numbered in the order in which they were added. -/
structure Arena (α : Type) where
  cells : Array α

namespace Arena

variable {α : Type}

/-- The arena without cells. -/
def empty : Arena α := ⟨#[]⟩

/-- The number of cells. -/
def size (a : Arena α) : Nat := a.cells.size

/-- The contents of a cell. -/
def get? (a : Arena α) (i : Nat) : Option α := a.cells[i]?

/-- Adds a cell; its position is the old size. -/
def push (a : Arena α) (x : α) : Arena α := ⟨a.cells.push x⟩

/-- Changes the contents of a cell, if there is such a cell. -/
def modify (a : Arena α) (i : Nat) (f : α → α) : Arena α := ⟨a.cells.modify i f⟩

end Arena
end PlayerScript
