import Mathlib
import TreeCode.Eval.Basic

/-!
# Depths of evaluation

Each function that was not made by an evaluation has a count of its own of the expressions
being evaluated for it, and the functions that its evaluation makes share that count. What
one evaluation counts leaves the other counts alone, and a count that is put back to what
it was leaves no trace.

Main results:

* `World.atDepth_depthAt` — putting a count back restores the world.
* `EvalM.deeper_eq` — one level deeper, and back.
-/

namespace TreeCode

@[simp] theorem consCount_zero (n : Nat) (cs : List Nat) : (consCount n cs)[0]?.getD 0 = n := by
  cases n with
  | zero => cases cs <;> rfl
  | succ n => rfl

@[simp] theorem consCount_succ (n i : Nat) (cs : List Nat) :
    (consCount n cs)[i + 1]?.getD 0 = cs[i]?.getD 0 := by
  cases n with
  | zero => cases cs <;> rfl
  | succ n => rfl

theorem setCount_get (n i j : Nat) (cs : List Nat) :
    (setCount n i cs)[j]?.getD 0 = if j = i then n else cs[j]?.getD 0 := by
  induction i generalizing j cs with
  | zero =>
    cases j with
    | zero => exact consCount_zero _ _
    | succ j => cases cs <;> simp [setCount]
  | succ i ih =>
    cases j with
    | zero => cases cs <;> simp [setCount]
    | succ j => cases cs <;> simp [setCount, ih]

/-- Counts that are all zero are not listed. -/
theorem counts_eq_nil {cs : List Nat} (hcs : cs.getLast? ≠ some 0) (h : ∀ i : Nat, cs[i]?.getD 0 = 0) :
    cs = [] := by
  by_contra hne
  obtain ⟨c, hc⟩ := Option.ne_none_iff_exists'.1 (mt List.getLast?_eq_none_iff.1 hne)
  have hlast := h (cs.length - 1)
  rw [← List.getLast?_eq_getElem?, hc] at hlast
  exact hcs (hc.trans (congrArg some hlast))

/-- Without zeros at the end, equal counts are one list. -/
theorem counts_ext {cs ds : List Nat} (hcs : cs.getLast? ≠ some 0) (hds : ds.getLast? ≠ some 0)
    (h : ∀ i : Nat, cs[i]?.getD 0 = ds[i]?.getD 0) : cs = ds := by
  induction cs generalizing ds with
  | nil => exact (counts_eq_nil hds fun i => (h i).symm).symm
  | cons c cs ih =>
    cases ds with
    | nil => exact counts_eq_nil hcs h
    | cons e ds =>
      obtain rfl : c = e := h 0
      have hds' : ds.getLast? ≠ some 0 := getLast?_tail hds
      exact congrArg (c :: ·) (ih (getLast?_tail hcs) hds' fun i => h (i + 1))

namespace Depths

variable (d : Depths)

theorem get_set (i j n : Nat) : (d.set i n).get j = if j = i then n else d.get j :=
  setCount_get n i j d.counts

@[ext]
theorem ext_get {d d' : Depths} (h : ∀ i, d.get i = d'.get i) : d = d' := by
  obtain ⟨cs, hcs⟩ := d
  obtain ⟨ds, hds⟩ := d'
  obtain rfl := counts_ext hcs hds h
  rfl

@[simp] theorem get_set_self (i n : Nat) : (d.set i n).get i = n := by
  rw [get_set, if_pos rfl]

@[simp] theorem set_set (i m n : Nat) : (d.set i m).set i n = d.set i n := by
  ext j
  simp only [get_set]
  split <;> rfl

@[simp] theorem set_get (i : Nat) : d.set i (d.get i) = d := by
  ext j
  rw [get_set]
  split
  · next h => rw [h]
  · rfl

end Depths

namespace World

variable (w : World) (g : Gauge)

@[simp] theorem depthAt_atDepth (n : Nat) : (w.atDepth g n).depthAt g = n :=
  w.depth.get_set_self g.counter n

@[simp] theorem atDepth_atDepth (m n : Nat) : (w.atDepth g m).atDepth g n = w.atDepth g n := by
  simp only [atDepth, Depths.set_set]

/-- Putting a count back to what it was restores the world. -/
@[simp] theorem atDepth_depthAt : w.atDepth g (w.depthAt g) = w := by
  simp only [atDepth, depthAt, Depths.set_get]

/-- Worlds of equal depths read the same. -/
theorem depthAt_congr {w w' : World} (h : w'.depth = w.depth) : w'.depthAt g = w.depthAt g := by
  rw [depthAt, depthAt, h]

end World

section Levels

variable {σ : EvalState} {gauge : Gauge}

/-- The state one level deeper. -/
def EvalState.deeper (σ : EvalState) (gauge : Gauge) : EvalState :=
  σ.atDepth gauge (σ.world.depthAt gauge + 1)

@[simp] theorem EvalState.depthAt_deeper :
    (σ.deeper gauge).world.depthAt gauge = σ.world.depthAt gauge + 1 :=
  World.depthAt_atDepth _ _ _

@[simp] theorem EvalState.deeper_atDepth :
    (σ.deeper gauge).atDepth gauge (σ.world.depthAt gauge) = σ := by
  simp only [deeper, EvalState.atDepth, World.atDepth_atDepth, World.atDepth_depthAt]

/-- At its limit an evaluation fails, and nothing has changed. -/
theorem EvalM.deeper_full {α : Type} (x : EvalM α) (hd : ¬σ.world.depthAt gauge < gauge.max) :
    EvalM.deeper gauge x σ =
      .error (.fault (.tooDeep (σ.world.depthAt gauge) gauge.max)) σ :=
  if_pos (Nat.not_lt.1 hd)

/-- One level deeper the depth is one more, and afterwards what it was. -/
theorem EvalM.deeper_eq {α : Type} (x : EvalM α) (hd : σ.world.depthAt gauge < gauge.max) :
    EvalM.deeper gauge x σ = match x (σ.deeper gauge) with
      | .ok v σ' => .ok v (σ'.atDepth gauge (σ.world.depthAt gauge))
      | .error e σ' => .error e (σ'.atDepth gauge (σ.world.depthAt gauge)) :=
  if_neg (Nat.not_le.2 hd)

end Levels

end TreeCode
