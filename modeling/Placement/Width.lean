/-
# The integers a coordinate may be

Coordinates, lengths, heights and areas are integers of one signed width. All
arithmetic is exact integer arithmetic followed by one of two rules:

| rule | result outside the range | used for |
| --- | --- | --- |
| `clamp` | the nearest end of the range | positions, lengths, areas, volumes |
| `checked`, `negated` | a fault | the running height of a profile |

`Width.unbounded` is the width without ends: `clamp` leaves every integer as it
is there, so the same definitions also describe exact arithmetic.
-/

import Placement.Fault

namespace Placement

/-- The range of a coordinate: `-top - 1 … top`, or every integer. -/
inductive Width where
  | word (top : Int) (one_le_top : 1 ≤ top)
  | unbounded
deriving DecidableEq

namespace Width

/-- Signed words of 8 bits. -/
def w8 : Width := .word 127 (by decide)

/-- Signed words of 16 bits. -/
def w16 : Width := .word 32767 (by decide)

/-- Signed words of 32 bits. -/
def w32 : Width := .word 2147483647 (by decide)

/-- Signed words of 64 bits. -/
def w64 : Width := .word 9223372036854775807 (by decide)

/-- Signed words of 128 bits. -/
def w128 : Width := .word 170141183460469231731687303715884105727 (by decide)

/-- `x` is a value of the width. -/
def Holds : Width → Int → Prop
  | word top _, x => -top - 1 ≤ x ∧ x ≤ top
  | unbounded, _ => True

instance (w : Width) (x : Int) : Decidable (w.Holds x) :=
  match w with
  | word _ _ => inferInstanceAs (Decidable (_ ∧ _))
  | unbounded => inferInstanceAs (Decidable True)

/-- The value of the width nearest to `x`. -/
def clamp : Width → Int → Int
  | word top _, x => if x < -top - 1 then -top - 1 else if top < x then top else x
  | unbounded, x => x

/-- Clamping gives a value of the width. -/
theorem holds_clamp (w : Width) (x : Int) : w.Holds (w.clamp x) := by
  cases w with
  | word top h => simp only [Holds, clamp]; split <;> (try split) <;> omega
  | unbounded => trivial

/-- Clamping leaves the values of the width. -/
@[simp] theorem clamp_of_holds {w : Width} {x : Int} (h : w.Holds x) : w.clamp x = x := by
  cases w with
  | word top _ => simp only [Holds] at h; simp only [clamp]; split <;> (try split) <;> omega
  | unbounded => rfl

/-- Clamping keeps the order. -/
theorem clamp_mono (w : Width) {x y : Int} (h : x ≤ y) : w.clamp x ≤ w.clamp y := by
  cases w with
  | word top _ => simp only [clamp]; repeat' split
                  all_goals omega
  | unbounded => exact h

/-- Every width has the values `-2 … 1`. -/
theorem holds_of_small (w : Width) {x : Int} (hl : -2 ≤ x) (hu : x ≤ 1) : w.Holds x := by
  cases w with
  | word top _ => simp only [Holds]; omega
  | unbounded => trivial

/-- What lies between two values of the width is a value of the width. -/
theorem holds_between (w : Width) {x y z : Int} (hx : w.Holds x) (hz : w.Holds z) (hxy : x ≤ y)
    (hyz : y ≤ z) : w.Holds y := by
  cases w with
  | word top _ => simp only [Holds] at *; omega
  | unbounded => trivial

/-- Addition, clamped. -/
def add (w : Width) (x y : Int) : Int := w.clamp (x + y)

/-- Subtraction, clamped. -/
def sub (w : Width) (x y : Int) : Int := w.clamp (x - y)

/-- Multiplication, clamped. -/
def mul (w : Width) (x y : Int) : Int := w.clamp (x * y)

/-- The product of `factors`, clamped after each of them. -/
def product (w : Width) (factors : List Int) : Int := factors.foldl w.mul 1

/-- A product that is clamped at every step is a value of the width. -/
theorem holds_foldl_mul (w : Width) (factors : List Int) {x : Int} (hx : w.Holds x) :
    w.Holds (factors.foldl w.mul x) := by
  induction factors generalizing x with
  | nil => exact hx
  | cons y ys ih => exact ih (w.holds_clamp _)

/-- A product is a value of the width. -/
theorem holds_product (w : Width) (factors : List Int) : w.Holds (w.product factors) :=
  w.holds_foldl_mul factors (w.holds_of_small (by decide) (by decide))

/-- Addition that must stay in the range. -/
def addChecked (w : Width) (x y : Int) : Except Fault Int :=
  if w.Holds (x + y) then .ok (x + y) else .error .addOverflow

/-- Negation that must stay in the range. -/
def negChecked (w : Width) (x : Int) : Except Fault Int :=
  if w.Holds (-x) then .ok (-x) else .error .negOverflow

end Width
end Placement
