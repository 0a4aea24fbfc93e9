/-
# Indices

Variables, saved slots, posted constraints and rectangles are all numbered from
zero. An `Index` carries the kind of thing it numbers in its type, so that one
cannot be used where another is meant.
-/

namespace Placement

/-- What an index numbers. -/
inductive IndexKind where
  | var
  | slot
  | constraint
  | rectangle
deriving DecidableEq, Repr

/-- The name of an index in texts. -/
def IndexKind.name : IndexKind → String
  | var => "VarIndex"
  | slot => "SnapshotIndex"
  | constraint => "ConstraintIndex"
  | rectangle => "RectangleIndex"

/-- The number of one thing of kind `k`. -/
structure Index (k : IndexKind) where
  val : Nat
deriving DecidableEq, Repr

/-- A variable of a store. -/
abbrev Var := Index .var

/-- A saved slot of a store. -/
abbrev Slot := Index .slot

/-- A constraint posted to an engine. -/
abbrev ConstraintId := Index .constraint

/-- A rectangle of a constraint. -/
abbrev RectangleId := Index .rectangle

namespace Index

variable {k : IndexKind}

/-- The text of an index, `VarIndex(3)` for the variable 3. -/
def text (i : Index k) : String := s!"{k.name}({i.val})"

/-- Indices are ordered by their number. -/
protected def compare (i j : Index k) : Ordering := Ord.compare i.val j.val

instance : Ord (Index k) := ⟨Index.compare⟩

end Index
end Placement
