import TreeCode.Proofs.Value.Bound

/-!
# Texts of values in a store

The text of a value shows what the value contains, and what that contains in turn. Arrays
and objects are shared and may be changed, so they may come to contain themselves, and no
part of the value gets smaller on the way. The text is finished within some bound exactly
when the contents nest finitely, that is, when every way from a value to one of its parts,
to a part of that, and so on, comes to an end. A failed cast shows the value: it ends with
its exception under the same condition, and otherwise at no bound.

Main definitions:

* `Store.parts` — what the text of a value shows besides the value itself.
* `Store.Nests` — the contents of a value nest finitely.

Main results:

* `Store.exists_detailed_iff` — when the text of a value is finished.
* `Operator.invalidCast_ends`, `Operator.Checks.cast_ends` — how a failed cast ends.
* `Store.not_nests_of_mem` — an object that is stored in a field of its own has no text.
-/

namespace TreeCode

open Relation

variable {α β : Type}

/-! ## Bounds for lists -/

theorem isSome_mapM_iff {f : α → Option β} {l : List α} :
    (l.mapM f).isSome = true ↔ ∀ a ∈ l, (f a).isSome = true := by
  induction l with
  | nil => simp
  | cons a l ih =>
    rw [List.forall_mem_cons, ← ih, List.mapM_cons]
    cases f a with
    | none => simp
    | some b => cases l.mapM f <;> simp

namespace Store

variable {st : Store} {v w : Value} {n k : Nat}

/-! ## Parts of a value -/

/-- What the text of a value shows besides the value itself. -/
def parts (st : Store) : Value → List Value
  | .array r => (st.arrayAt r).toList
  | .struct _ _ fs => fs
  | .object r _ => st.objectAt r
  | .cell r | .address (.cell r) => [st.cellAt r]
  | _ => []

/-- The contents of a value nest finitely. -/
def Nests (st : Store) (v : Value) : Prop := Acc (fun a b => a ∈ st.parts b) v

/-- A text is finished within a bound when those of the parts are within one less. -/
theorem isSome_detailed_succ : (st.detailed (n + 1) v).isSome = true ↔
    ∀ a ∈ st.parts v, (st.detailed n a).isSome = true := by
  have hall : ∀ (l : List Value) (f : List String → String),
      (do return f (← l.mapM (st.detailed n)) : Option String).isSome = true ↔
        ∀ a ∈ l, (st.detailed n a).isSome = true := by
    intro l f
    rw [← isSome_mapM_iff]
    cases l.mapM (st.detailed n) <;> simp
  have hone : ∀ (u : Value) (f : String → String),
      (do return f (← st.detailed n u) : Option String).isSome = true ↔
        ∀ a ∈ [u], (st.detailed n a).isSome = true := by
    intro u f
    cases hu : st.detailed n u <;> simp [hu]
  cases v with
  | array r => exact hall _ _
  | struct o d fs => exact hall _ _
  | object r d => exact hall _ _
  | cell r => exact hone _ _
  | address a =>
    cases a with
    | slot i => simp [detailed, parts]
    | cell r => exact hone _ _
  | _ => simp [detailed, parts]

theorem isSome_detailed_of_le (hle : n ≤ k) (h : (st.detailed n v).isSome = true) :
    (st.detailed k v).isSome = true := by
  obtain ⟨text, htext⟩ := Option.isSome_iff_exists.1 h
  simp [detailed_of_le hle htext]

/-- Values whose texts are each finished within some bound have a bound in common. -/
theorem exists_bound {l : List Value} (h : ∀ a ∈ l, ∃ n, (st.detailed n a).isSome = true) :
    ∃ n, ∀ a ∈ l, (st.detailed n a).isSome = true := by
  induction l with
  | nil => exact ⟨0, by simp⟩
  | cons a l ih =>
    rw [List.forall_mem_cons] at h
    obtain ⟨⟨n, hn⟩, hl⟩ := h
    obtain ⟨k, hk⟩ := ih hl
    -- A text that is finished within a bound is finished within every greater one.
    refine ⟨max n k, List.forall_mem_cons.2 ⟨isSome_detailed_of_le (le_max_left n k) hn, ?_⟩⟩
    exact fun a ha => isSome_detailed_of_le (le_max_right n k) (hk a ha)

/-! ## When a text is finished -/

theorem nests_of_isSome_detailed (h : (st.detailed n v).isSome = true) : st.Nests v := by
  induction n generalizing v with
  | zero => cases h
  | succ n ih => exact Acc.intro v fun a ha => ih (isSome_detailed_succ.1 h a ha)

theorem Nests.exists_detailed (h : st.Nests v) : ∃ n, (st.detailed n v).isSome = true := by
  induction h with
  | intro v _ ih =>
    obtain ⟨n, hn⟩ := exists_bound ih
    exact ⟨n + 1, isSome_detailed_succ.2 hn⟩

/-- **The text of a value is finished within some bound exactly when its contents nest
finitely.** -/
theorem exists_detailed_iff : (∃ n, (st.detailed n v).isSome = true) ↔ st.Nests v :=
  ⟨fun ⟨_, h⟩ => nests_of_isSome_detailed h, Nests.exists_detailed⟩

/-- A value that comes to contain itself, directly or through what it contains, does not
nest finitely. -/
theorem not_nests_of_cycle (h : TransGen (fun a b => a ∈ st.parts b) v v) : ¬st.Nests v := by
  intro hv
  have hacc : Acc (TransGen fun a b => a ∈ st.parts b) v := hv.transGen
  -- The value is below itself, so the induction hypothesis is about the value again.
  induction hacc with
  | intro v _ ih => exact ih v h h hv

/-- An object that is stored in a field of its own has no text. -/
theorem not_nests_of_mem {r : Nat} {d : StructDef} (h : .object r d ∈ st.objectAt r) :
    ¬st.Nests (.object r d) :=
  not_nests_of_cycle (.single h)

end Store

/-! ## Failed casts -/

/-- **How a failed cast ends.** When the contents of the value nest finitely, it raises one
exception, from some bound on; otherwise it is cut off at every bound. -/
theorem Operator.invalidCast_ends (st : Store) (v : Value) (t : Ty) :
    (st.Nests v ∧ ∃ text n, ∀ k, n ≤ k → invalidCast st k v t = .raises ⟨.invalidCast,
      "Unable to cast " ++ text ++ " to " ++ t.shown ++ "."⟩) ∨
    ¬st.Nests v ∧ ∀ n, invalidCast st n v t = .outOfFuel := by
  by_cases h : st.Nests v
  · obtain ⟨n, hn⟩ := h.exists_detailed
    obtain ⟨text, htext⟩ := Option.isSome_iff_exists.1 hn
    refine .inl ⟨h, text, n, fun k hk => ?_⟩
    simp only [invalidCast, Store.detailed_of_le hk htext]
  · refine .inr ⟨h, fun n => ?_⟩
    have hnone : st.detailed n v = none := by
      rw [← Option.not_isSome_iff_eq_none]
      exact fun hn => h (Store.nests_of_isSome_detailed hn)
    simp only [invalidCast, hnone]

/-- The conversion of one type to another is a check of the value: it neither changes the
kind of a number nor adds or takes away null, and the target does not accept the source. -/
structure Operator.Checks (source target : Ty) : Prop where
  kinds : source.liftedNumKind? = none ∨ target.liftedNumKind? = none
  added : ¬(target.isNullable = true ∧ target.underlying = source)
  taken : ¬(source.isNullable = true ∧ source.underlying = target)
  refused : target.accepts source = false

theorem Operator.Checks.cast_eq {source target : Ty} (h : Checks source target) {v : Value}
    (hnull : v.isNull = false) (hisA : v.isA target = false) (st : Store) (n : Nat) :
    cast st n v source target = .error (invalidCast st n v target) := by
  have hne : source ≠ target := by
    rintro rfl
    exact absurd h.refused (by simp [Ty.accepts])
  have hrest : (if (target.isNullable && decide (target.underlying = source)) = true then .ok v
      else if (source.isNullable && decide (source.underlying = target)) = true then
        if v.isNull = true then .error (.raises .noValue) else .ok v
      else if (!target.accepts source && !v.isNull && !v.isA target) = true then
        .error (invalidCast st n v target)
      else .ok v : Except OpError Value) = .error (invalidCast st n v target) := by
    rw [if_neg (by simpa using h.added), if_neg (by simpa using h.taken),
      if_pos (by simp [h.refused, hnull, hisA])]
  unfold cast
  rw [if_neg hne]
  -- Without a kind of number on both sides, only the last of the conversions is left.
  rcases h.kinds with hk | hk
  · rw [hk]
    exact hrest
  · rw [hk]
    cases source.liftedNumKind? <;> exact hrest

/-- **A checked conversion of a value that is no instance of the target.** It raises one
exception, from some bound on, or is cut off at every bound, as the contents of the value
nest finitely or not. -/
theorem Operator.Checks.cast_ends {source target : Ty} (h : Checks source target) {v : Value}
    (hnull : v.isNull = false) (hisA : v.isA target = false) (st : Store) :
    (st.Nests v ∧ ∃ text n, ∀ k, n ≤ k → cast st k v source target =
      .error (.raises ⟨.invalidCast,
        "Unable to cast " ++ text ++ " to " ++ target.shown ++ "."⟩)) ∨
    ¬st.Nests v ∧ ∀ n, cast st n v source target = .error .outOfFuel := by
  simp only [h.cast_eq hnull hisA]
  rcases invalidCast_ends st v target with ⟨hv, text, n, htext⟩ | ⟨hv, hcut⟩
  · exact .inl ⟨hv, text, n, fun k hk => congrArg _ (htext k hk)⟩
  · exact .inr ⟨hv, fun n => congrArg _ (hcut n)⟩

end TreeCode
