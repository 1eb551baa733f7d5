/-
This file computes factorials of machine words.
-/

namespace Reckoner.Factorial

/-- The product takes in `count` more factors from `factor` on; once it is zero it stays zero. -/
def extend (product factor : Int64) : (count : Nat) → Int64
  | 0 => product
  | count + 1 => if product = 0 then 0 else extend (product * factor) (factor + 1) count

/-- The result wraps around, and negative numbers give zero. -/
def compute (n : Int64) : Int64 :=
  if n < 0 then 0 else extend 1 2 (n.toNatClampNeg - 1)

end Reckoner.Factorial
