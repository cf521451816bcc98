import Mathlib
import TreeCode.Store
import TreeCode.Operator.Apply

/-!
# Texts within a raised bound

The text of a value is written within a bound on its nesting. A text that is finished
within one bound is the same within every higher one.

Main results:

* `Store.detailed_of_le` — texts of values.
* `Operator.cast_of_le` — conversions, whose failure shows the value.
-/

namespace TreeCode

variable {α β : Type}

theorem mapM_some_of_imp {f g : α → Option β} {l : List α} {ys : List β}
    (h : ∀ a ∈ l, ∀ b, f a = some b → g a = some b) (hl : l.mapM f = some ys) :
    l.mapM g = some ys := by
  induction l generalizing ys with
  | nil => simpa using hl
  | cons a l ih =>
    simp only [List.mapM_cons, Option.bind_eq_bind, Option.bind_eq_some_iff] at hl ⊢
    obtain ⟨b, hb, bs, hbs, hys⟩ := hl
    exact ⟨b, h a (by simp) b hb, bs, ih (fun a ha => h a (by simp [ha])) hbs, hys⟩

theorem Store.detailed_of_le {st : Store} {n k : Nat} {v : Value} {text : String} (hle : n ≤ k)
    (h : st.detailed n v = some text) : st.detailed k v = some text := by
  induction n generalizing k v text with
  | zero => cases h
  | succ n ih =>
    obtain ⟨k, rfl⟩ : ∃ j, k = j + 1 := ⟨k - 1, by omega⟩
    have hn : n ≤ k := by omega
    -- The text of a value is made of the texts of values inside it.
    have hall : ∀ {l : List Value} {ys : List String}, l.mapM (st.detailed n) = some ys →
        l.mapM (st.detailed k) = some ys := mapM_some_of_imp fun _ _ _ hb => ih hn hb
    have hmap : ∀ {l : List Value} {f : List String → String},
        (do return f (← l.mapM (st.detailed n))) = some text →
          (do return f (← l.mapM (st.detailed k))) = some text := by
      intro l f hl
      simp only [Option.bind_eq_bind, Option.bind_eq_some_iff] at hl ⊢
      exact hl.imp fun ys hys => ⟨hall hys.1, hys.2⟩
    have hone : ∀ {u : Value} {f : String → String},
        (do return f (← st.detailed n u)) = some text →
          (do return f (← st.detailed k u)) = some text := by
      intro u f hu
      simp only [Option.bind_eq_bind, Option.bind_eq_some_iff] at hu ⊢
      exact hu.imp fun y hy => ⟨ih hn hy.1, hy.2⟩
    cases v with
    | array r => exact hmap h
    | struct o d fs => exact hmap h
    | object r d => exact hmap h
    | cell r => exact hone h
    | address a =>
      cases a with
      | slot i => exact h
      | cell r => exact hone h
    | _ => exact h

/-- The exception of a failed cast is the same, unless its text is cut off. -/
theorem Operator.invalidCast_of_le {s : Store} {n k : Nat} (hle : n ≤ k) (v : Value) (t : Ty) :
    invalidCast s n v t = .outOfFuel ∨ invalidCast s k v t = invalidCast s n v t := by
  unfold invalidCast
  cases h : s.detailed n v with
  | none => exact .inl rfl
  | some text =>
    rw [Store.detailed_of_le hle h]
    exact .inr rfl

theorem Operator.cast_of_le {s : Store} {n k : Nat} (hle : n ≤ k) (v : Value) (t u : Ty) :
    cast s n v t u = .error .outOfFuel ∨ cast s k v t u = cast s n v t u := by
  unfold cast
  rcases invalidCast_of_le (s := s) hle v u with h | h
  · rw [h]
    split
    · exact .inr rfl
    · split
      · exact .inr rfl
      · split_ifs <;> first | exact .inr rfl | exact .inl rfl
  · rw [h]
    exact .inr rfl

end TreeCode
