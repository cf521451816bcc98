/-!
# Depths of evaluation

Every function that was not made by an evaluation counts how many expressions
are being evaluated for it, one inside the other, and the functions that its
evaluation makes count along. An evaluation may get so deep and no deeper.

## Main definitions

* `Depths` — the counts of all functions.
* `Gauge` — how deep an evaluation may get, and which count is its own.
-/

namespace TreeCode

/-- A count in front of others, unless there is nothing to count. -/
def consCount : Nat → List Nat → List Nat
  | 0, [] => []
  | n, cs => n :: cs

/-- The counts with one of them changed. -/
def setCount (n : Nat) : Nat → List Nat → List Nat
  | 0, cs => consCount n cs.tail
  | i + 1, cs => consCount (cs.headD 0) (setCount n i cs.tail)

theorem getLast?_consCount {n : Nat} {cs : List Nat} (h : cs.getLast? ≠ some 0) :
    (consCount n cs).getLast? ≠ some 0 := by
  cases cs with
  | nil => cases n <;> simp [consCount]
  | cons c cs =>
    have : consCount n (c :: cs) = n :: c :: cs := by cases n <;> rfl
    rw [this, List.getLast?_cons_cons]
    exact h

theorem getLast?_tail {cs : List Nat} (h : cs.getLast? ≠ some 0) : cs.tail.getLast? ≠ some 0 := by
  match cs, h with
  | [], _ => simp
  | [_], _ => simp
  | _ :: _ :: _, h => exact h

theorem getLast?_setCount {n i : Nat} {cs : List Nat} (h : cs.getLast? ≠ some 0) :
    (setCount n i cs).getLast? ≠ some 0 := by
  induction i generalizing cs with
  | zero => exact getLast?_consCount (getLast?_tail h)
  | succ i ih => exact getLast?_consCount (ih (getLast?_tail h))

/-- Numbers of expressions being evaluated, one inside the other, by the
function that they are counted for. Counts that are not listed are zero. -/
structure Depths where
  counts : List Nat
  /-- Zeros at the end are left out, so that equal counts are one list. -/
  trimmed : counts.getLast? ≠ some 0
  deriving DecidableEq

namespace Depths

/-- Nothing is being evaluated. -/
instance : OfNat Depths 0 := ⟨⟨[], nofun⟩⟩

instance : Inhabited Depths := ⟨0⟩

def get (d : Depths) (i : Nat) : Nat := d.counts[i]?.getD 0

def set (d : Depths) (i n : Nat) : Depths :=
  ⟨setCount n i d.counts, getLast?_setCount d.trimmed⟩

end Depths

/-- How deep an evaluation may get, and the function that its depth is counted
for. -/
structure Gauge where
  max : Nat
  counter : Nat
  deriving DecidableEq, Repr

end TreeCode
