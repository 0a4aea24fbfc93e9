/-
# Making rectangles from tables of variables

A table of variables describes rectangles in one of three layouts:

* origins and lengths as two lists;
* rows `origin_1 … origin_d length_1 … length_d`, one rectangle a row;
* columns, one per dimension for the origins and one for the lengths, whose
  `k`-th entries belong to rectangle `k`.
-/

import Placement.Rectangle

namespace Placement
namespace Rectangle

/-- The rectangle of the given origins and lengths, one of each per dimension. -/
def ofVars (origins lengths : List Var) : Except Fault Rectangle :=
  if hn : origins = [] then .error .noDimension
  else if hl : origins.length = lengths.length then
    .ok ⟨List.zipWith Side.mk origins lengths, by
      have : lengths ≠ [] := fun h => hn (by simpa [h] using hl)
      simp [hn, this]⟩
  else .error (.unpairedSides origins.length lengths.length)

/-- The rectangle of one row. -/
def ofRow (row : List Var) : Except Fault Rectangle :=
  if row = [] ∨ row.length % 2 ≠ 0 then .error (.oddRow row.length)
  else ofVars (row.take (row.length / 2)) (row.drop (row.length / 2))

/-- The rectangles of a table of rows. -/
def ofRows (rows : List (List Var)) : Except Fault (List Rectangle) := rows.mapM ofRow

/-- The rectangles of a table of columns. -/
def ofColumns (origins lengths : List (List Var)) : Except Fault (List Rectangle) := do
  let count ← match origins with
    | [] => throw .noColumn
    | first :: _ => pure first.length
  if origins.length ≠ lengths.length then
    throw (.unpairedColumns origins.length lengths.length)
  if ¬ (origins ++ lengths).all (·.length = count) then throw .raggedColumns
  (List.range count).mapM fun k => do
    ofVars (← origins.mapM (entry · k)) (← lengths.mapM (entry · k))

/-- The rectangles of four columns in two dimensions. -/
def ofColumns2 (originsX originsY lengthsX lengthsY : List Var) : Except Fault (List Rectangle) :=
  ofColumns [originsX, originsY] [lengthsX, lengthsY]

end Rectangle
end Placement
