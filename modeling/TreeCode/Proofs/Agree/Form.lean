import TreeCode.Proofs.Agree.Bench
import TreeCode.Proofs.Likeness.Bound
import TreeCode.Proofs.Operator.Typing

/-!
# Forms of values and methods of the host

What agreement relies on besides the code: that the values of variables have the form
of their types, and that host methods neither see nor change the variables of a caller.

Main definitions:

* `Value.suits` — a value has the form of a type.
* `Host.Serves` — what is relied on in host methods.
* `Host.Serves.discipline` — forms as a discipline of values.

Main results:

* `Host.Serves.static` — a host method answers both runs alike.
-/

namespace TreeCode

/-! ## Forms -/

/-- The value has the form of the type. Instances and other shared values are not told
apart, and a void node may leave anything. -/
def Value.suits (v : Value) : Ty → Bool
  | .void => true
  | .bool => match v with
    | .bool _ => true
    | _ => false
  | .num k => v.numKind? == some k
  | .str => match v with
    | .str _ | .null => true
    | _ => false
  | .nullable _ | .struct _ | .array _ | .function .. | .exception | .object => match v with
    | .unit => false
    | _ => true

namespace Value

variable {v : Value} {t u : Ty}

/-- Values of a type other than void are not unit. -/
theorem suits_object (h : v.suits t = true) (ht : t.isVoid = false) : v.suits .object = true := by
  cases v with
  | unit => cases t <;> first | exact h | cases ht
  | _ => rfl

/-- Arguments that a unit accepts have the form of their types. -/
theorem suits_of_fits (h : v.fits (Shape.of t) = true) : v.suits t = true := by
  cases t with
  | void => rfl
  | struct d =>
    simp only [Shape.of] at h
    split at h <;> cases v <;> first | rfl | cases h
  | num k =>
    cases v with
    | num n => simpa [fits, Shape.of, suits, numKind?] using h
    | _ => cases h
  | _ => cases v <;> first | rfl | cases h

/-- Only a variable of no value may hold unit. -/
theorem void_of_suits_unit (h : Value.unit.suits t = true) : t = .void := by
  cases t <;> first | rfl | cases h

theorem suits_default (t : Ty) : t.default.suits t = true := by
  cases t with
  | num k => simp [Ty.default, suits, numKind?]
  | struct d =>
    obtain ⟨i, n, kind, base, fields⟩ := d
    cases kind <;> cases base <;> rfl
  | _ => rfl

theorem suits_of_accepts (h : t.accepts u = true) (hu : u.isVoid = false) (hv : v.suits u = true) :
    v.suits t = true := by
  have hobj := suits_object hv hu
  by_cases heq : t = u
  · exact heq ▸ hv
  · have hne : (t == u) = false := by simpa using heq
    simp only [Ty.accepts, hne, Bool.false_or] at h
    cases t <;> first | exact hobj | (cases u <;> cases h)

theorem suits_of_isA (h : v.isA t = true) : v.suits t = true := by
  cases t with
  | num k =>
    cases v with
    | num n => simpa [isA, suits, numKind?] using h
    | _ => cases h
  | _ => cases v <;> first | rfl | cases h

theorem suits_null (h : t.hasNull = true) : Value.null.suits t = true := by
  cases t <;> first | rfl | cases h

theorem num_of_suits {k : NumKind} (h : v.suits (.num k) = true) : ∃ n, v = .num n ∧ n.kind = k := by
  cases v <;> simp [suits, numKind?] at h
  exact ⟨_, rfl, h⟩

theorem bool_of_suits (h : v.suits .bool = true) : ∃ b, v = .bool b := by
  cases v <;> first | exact ⟨_, rfl⟩ | cases h

end Value

/-! ## Methods of the host -/

/-- A result in a world with other cells and another depth. -/
def recast {α : Type} (cells : Array Value) (depth : Depths) :
    EStateM.Result Fault World α → EStateM.Result Fault World α
  | .ok a w => .ok a (w.recast cells depth)
  | .error f w => .error f (w.recast cells depth)

theorem cutShort_recast {cells : Array Value} {depth : Depths}
    {r : EStateM.Result Fault World Value} :
    Bench.CutShort (recast cells depth r) ↔ Bench.CutShort r := by
  constructor
  · rintro ⟨w, h⟩
    cases r with
    | ok v w => cases h
    | error f w =>
      cases h
      exact ⟨_, rfl⟩
  · rintro ⟨w, rfl⟩
    exact ⟨_, rfl⟩

/-- What is relied on in the methods of the host that a unit may call. In worlds as `good`
says, which may be all worlds, they do not see the cells that there are, nor depths that are
not counted; the cells that they make, for variables of functions that they call, are left
behind. They give values of the form of their return type. -/
structure Host.Serves (host : Host) (good : World → Prop) (callable : Method → Prop)
    (leeway : Leeway) : Prop where
  good_recast : ∀ {w : World} cells depth, good w → good (w.recast cells depth)
  good_stamped : ∀ {w : World} n, good w → good { w with store := { w.store with stamps := n } }
  impartial : ∀ {m : Method} {args : List Value} {w : World} (n k : Nat) (cells : Array Value)
    (depth : Depths), callable m → good w → List.Forall₂ (fun v t => v.suits t = true) args m.params →
    (∀ i, leeway.counted i → depth.get i = w.depth.get i) → ∃ new, leeway.fresh new ∧
      host.callStatic (call host n) k m args (w.recast cells depth) =
        recast (cells ++ new) depth (host.callStatic (call host n) k m args w)
  gives : ∀ {m : Method} {args : List Value} {w w' : World} {n k : Nat} {v : Value}, callable m →
    good w → List.Forall₂ (fun v t => v.suits t = true) args m.params →
    host.callStatic (call host n) k m args w = .ok v w' → good w' ∧ v.suits m.ret = true
  fails : ∀ {m : Method} {args : List Value} {w w' : World} {n k : Nat} {f : Fault}, callable m →
    good w → List.Forall₂ (fun v t => v.suits t = true) args m.params →
    host.callStatic (call host n) k m args w = .error f w' → good w'

namespace Host.Serves

variable {host : Host} {good : World → Prop} {callable : Method → Prop} {leeway : Leeway}

/-- Values by their form; nothing more is learned while a unit runs. -/
def discipline (h : host.Serves good callable leeway) : Discipline where
  State := Unit
  le _ _ := True
  good _ := good
  has _ v t := v.suits t = true
  le_refl _ := trivial
  le_trans _ _ := trivial
  has_mono _ h := h
  good_recast cells depth hw := h.good_recast cells depth hw
  good_stamped n hw := h.good_stamped n hw
  void_has _ _ := rfl
  num_has _ n := by simp [Value.suits, Value.numKind?]
  num_of := Value.num_of_suits
  bool_has _ _ := rfl
  bool_of := Value.bool_of_suits
  default_has _ := Value.suits_default
  accepts_has := Value.suits_of_accepts
  isA_has := Value.suits_of_isA

end Host.Serves

namespace World

theorem recast_self (w : World) : w.recast w.store.cells w.depth = w := rfl

end World

namespace Host.Serves

variable {host : Host} {good : World → Prop} {callable : Method → Prop} {leeway : Leeway}
  {m : Method} {args : List Value} {w w' : World} {n k : Nat}

/-- Methods leave the cells that there are and the depths alone. -/
theorem keeps (h : host.Serves good callable leeway) (hm : callable m) (hw : good w)
    (hargs : List.Forall₂ (fun v t => v.suits t = true) args m.params) :
    (∀ v w', host.callStatic (call host n) k m args w = .ok v w' → leeway.Keeps w w') ∧
      ∀ f w', host.callStatic (call host n) k m args w = .error f w' → leeway.Keeps w w' := by
  obtain ⟨new, hnew, hself⟩ :=
    h.impartial n k w.store.cells w.depth hm hw hargs fun _ _ => rfl
  rw [World.recast_self] at hself
  refine ⟨fun v w' hr => ?_, fun f w' hr => ?_⟩ <;> rw [hr] at hself <;>
    simp only [recast, EStateM.Result.ok.injEq, EStateM.Result.error.injEq, true_and] at hself
  · exact ⟨⟨new, hnew, congrArg (·.store.cells) hself⟩, congrArg (·.depth) hself⟩
  · exact ⟨⟨new, hnew, congrArg (·.store.cells) hself⟩, congrArg (·.depth) hself⟩

/-- A host method answers the machine as it answers direct evaluation, on a bench where
both call functions of this host. -/
theorem static (h : host.Serves good callable leeway) {X : Bench h.discipline} {bound d : Nat}
    (hhost : X.machine.host = host) (hcall : X.call = call host bound)
    (hmachine : X.machine.call = call host X.machine.fuel) (hleeway : X.leeway = leeway)
    (hapart : ¬leeway.counted X.gauge.counter) (hbound : X.Fuelled bound) (hn : X.Fuelled n)
    (hm : callable m) (hw : good w) (hdepth : w.depth = X.depth.set X.gauge.counter d)
    (hsees : X.Sees w w') (hargs : List.Forall₂ (fun v t => v.suits t = true) args m.params) :
    X.Answers () w (h.discipline.has · · m.ret) (X.machine.host.callStatic X.call n m args w)
      (X.machine.host.callStatic X.machine.call X.machine.fuel m args w') := by
  obtain ⟨made, hmade, rfl⟩ := hsees
  rw [hhost, hcall, hmachine]
  have hcounted : ∀ i, leeway.counted i → X.depth.get i = w.depth.get i := by
    intro i hi
    have hne : i ≠ X.gauge.counter := by
      rintro rfl
      exact hapart hi
    rw [hdepth, Depths.get_set, if_neg hne]
  have hsee : ∀ n k, ∃ new, X.leeway.fresh new ∧
      host.callStatic (call host n) k m args (w.recast (X.cells ++ made) X.depth) =
        recast (X.cells ++ new) X.depth (host.callStatic (call host n) k m args w) := by
    intro n k
    obtain ⟨new, hnew, hr⟩ := h.impartial n k (X.cells ++ made) X.depth hm hw hargs hcounted
    rw [← hleeway] at hnew
    exact ⟨made ++ new, X.leeway.fresh_append hmade hnew, by rw [hr, Array.append_assoc]⟩
  have hkeeps := h.keeps (n := bound) (k := n) hm hw hargs
  rw [← hleeway] at hkeeps
  -- The run with the lower bound may be the one that is cut off.
  have hsame : (∃ new, X.leeway.fresh new ∧
        host.callStatic (call host X.machine.fuel) X.machine.fuel m args
            (w.recast (X.cells ++ made) X.depth) =
          recast (X.cells ++ new) X.depth (host.callStatic (call host bound) n m args w)) ∨
      (X.back = true ∧ Bench.CutShort (host.callStatic (call host X.machine.fuel) X.machine.fuel m
        args (w.recast (X.cells ++ made) X.depth))) ∨
      X.back = false ∧ Bench.CutShort (host.callStatic (call host bound) n m args w) := by
    unfold Bench.Fuelled at hbound hn
    split at hbound
    · rename_i hb
      rw [if_pos hb] at hn
      rcases host.callStatic_outlasts host hbound hn m args
        (w.recast (X.cells ++ made) X.depth) with hc | hc
      · exact .inr (.inl ⟨hb, hc⟩)
      · rw [← hc]
        exact .inl (hsee bound n)
    · rename_i hb
      rw [if_neg hb] at hn
      rcases host.callStatic_outlasts host hbound hn m args w with hc | hc
      · exact .inr (.inr ⟨by simpa using hb, hc⟩)
      · rw [← hc]
        exact .inl (hsee X.machine.fuel X.machine.fuel)
  refine ⟨fun v w₁ hr => ?_, fun f w₁ hr hf => ?_, fun w₁ hr hb => ?_⟩
  · rcases hsame with ⟨new, hnew, heq⟩ | hcut | ⟨-, w₂, hcut⟩
    · obtain ⟨hgood, hv⟩ := h.gives hm hw hargs hr
      rw [hr] at heq
      exact .inl ⟨(), trivial, hgood, hkeeps.1 v w₁ hr, hv, _, ⟨new, hnew, rfl⟩, heq⟩
    · exact .inr hcut
    · rw [hr] at hcut
      cases hcut
  · rcases hsame with ⟨new, hnew, heq⟩ | hcut | ⟨-, w₂, hcut⟩
    · rw [hr] at heq
      exact .inl ⟨(), trivial, h.fails hm hw hargs hr, hkeeps.2 f w₁ hr, _, ⟨new, hnew, rfl⟩, heq⟩
    · exact .inr hcut
    · rw [hr] at hcut
      cases hcut
      exact absurd rfl hf
  · rcases hsame with ⟨new, -, heq⟩ | hcut | ⟨hb', -⟩
    · exact ⟨_, by rw [heq, hr]; rfl⟩
    · exact hcut.2
    · rw [hb] at hb'
      cases hb'

end Host.Serves

end TreeCode
