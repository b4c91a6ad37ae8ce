/-! # Positions counted from either end

A position that is negative counts from the end of the list. -/
namespace LuaLift

/-- The index that a position stands for, if it lies in a list of length `n`. -/
def position? (n : Nat) (i : Int) : Option Nat :=
  if 0 ≤ i then if i < n then some i.toNat else none
  else if -(n : Int) ≤ i then some (n + i).toNat else none

def at? {α : Type} (xs : List α) (i : Int) : Option α :=
  (position? xs.length i).bind (xs[·]?)

theorem at?_ofNat {α : Type} (xs : List α) (n : Nat) : at? xs (n : Int) = xs[n]? := by
  by_cases h : n < xs.length
  · have h' : (n : Int) < xs.length := by omega
    simp [at?, position?, h']
  · have h' : ¬ (n : Int) < xs.length := by omega
    simp [at?, position?, h', List.getElem?_eq_none (Nat.le_of_not_lt h)]

end LuaLift
