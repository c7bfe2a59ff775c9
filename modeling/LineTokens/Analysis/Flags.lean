/-!
Cancellation flags. A flag is made untripped, is tripped by whoever holds it, and stays so. A pool
holds all flags ever made, numbered in the order in which they were made.
-/

namespace LineTokens

structure FlagPool where
  tripped : List Bool
deriving DecidableEq, Repr

namespace FlagPool

def empty : FlagPool := ⟨[]⟩

/-- The number of the next flag to be made. -/
def next (pool : FlagPool) : Nat := pool.tripped.length

def make (pool : FlagPool) : FlagPool := ⟨pool.tripped ++ [false]⟩

def trip (pool : FlagPool) (flag : Nat) : FlagPool := ⟨pool.tripped.set flag true⟩

def isTripped (pool : FlagPool) (flag : Nat) : Bool := (pool.tripped[flag]?).getD false

theorem isTripped_make (pool : FlagPool) (flag : Nat) :
    pool.make.isTripped flag = pool.isTripped flag := by
  simp only [isTripped, make]
  by_cases h : flag < pool.tripped.length
  · rw [List.getElem?_append_left h]
  · rw [List.getElem?_append_right (Nat.le_of_not_lt h),
      List.getElem?_eq_none (l := pool.tripped) (Nat.le_of_not_lt h)]
    cases flag - pool.tripped.length <;> simp

theorem isTripped_next (pool : FlagPool) : pool.isTripped pool.next = false := by
  simp [isTripped, next]

theorem isTripped_trip (pool : FlagPool) {flag : Nat} (h : flag < pool.next) (other : Nat) :
    (pool.trip flag).isTripped other = (other == flag || pool.isTripped other) := by
  simp only [next] at h
  simp only [isTripped, trip, List.getElem?_set]
  by_cases hf : flag = other
  · subst hf
    simp [h]
  · simp [hf, Ne.symm hf]

end FlagPool

end LineTokens
