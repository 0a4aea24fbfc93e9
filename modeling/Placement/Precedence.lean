/-
# Precedence

`x + offset ≤ y` between two variables, kept on their bounds.
-/

import Placement.Propagator

namespace Placement

/-- `x + offset ≤ y`. -/
structure Precedence where
  x : Var
  y : Var
  offset : Int
deriving DecidableEq, Repr

namespace Precedence

variable {w : Width}

/-- Raises `y` to the least value of `x + offset`, then lowers `x` to the greatest value of
`y - offset`. -/
def pass (p : Precedence) : Narrowing w Unit := do
  let x ← Narrowing.read (·.domain p.x)
  let y ← Narrowing.read (·.domain p.y)
  let _ ← Narrowing.setBounds p.y (w.add x.lo p.offset) y.hi
  let y ← Narrowing.read (·.domain p.y)
  let x ← Narrowing.read (·.domain p.x)
  let _ ← Narrowing.setBounds p.x x.lo (w.sub y.hi p.offset)

/-- The greatest `x + offset` does not exceed the least `y`. -/
def satisfied (p : Precedence) (s : Store w) : Except Fault Bool := do
  let x ← s.domain p.x
  let y ← s.domain p.y
  return w.add x.hi p.offset ≤ y.lo

/-- The constraint with the current domains. -/
def describe (p : Precedence) (s : Store w) : Except Fault String := do
  let x ← s.domain p.x
  let y ← s.domain p.y
  return s!"{x.text} + {p.offset} <= {y.text}"

instance : Propagator Precedence where
  name _ := "Precedence"
  scope p := [p.x, p.y]
  impose p _ s := (p, s, [])
  narrow p _ s :=
    let (store, events, outcome) := p.pass.runOn s
    ⟨p, store, events, outcome⟩
  satisfied := satisfied
  describe := describe

end Precedence
end Placement
