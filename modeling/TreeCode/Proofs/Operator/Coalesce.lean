import TreeCode.Proofs.Value.Acceptance

/-!
# Coalescing operands of one type

A coalesce node gives its left operand unless that is null, and its right operand
otherwise, each as it is. The builder asks that the left type accept the right one, and
gives the node the right type. So the left operand has to be an instance of the right type,
and acceptance says that only the other way round: where the left type is `object`, or a
base of the right class, an instance of it comes out under a type that it is not an
instance of. A field that is looked up in that type is then looked up in another layout.

Main definitions:

* `Ty.core` — a type without null.
* `Value.orElse` — what a coalesce node gives.

Main results:

* `Walk.coalesce_eq` — a coalesce node evaluates to one of its operands, unchanged.
* `Expr.coalesce_suits_iff` — **what a coalesce node gives suits its type, for all
  operands, exactly when the operands are of one type up to null**.
* `Expr.coalesce_field_in_bounds` — then fields of the node lie inside its instances.
-/

namespace TreeCode

/-! ## Types without null -/

namespace Ty

/-- The type without any level of null. -/
def core : Ty → Ty
  | nullable t => core t
  | t => t

@[simp] theorem core_nullable (t : Ty) : (nullable t).core = t.core := rfl

@[simp] theorem core_underlying (t : Ty) : t.underlying.core = t.core := by cases t <;> rfl

theorem core_ne_nullable (t u : Ty) : t.core ≠ nullable u := by
  induction t using core.induct with
  | case1 t ih => exact ih
  | case2 t h =>
    rw [core]
    · exact h u
    · exact h

/-- The ways in which one type accepts another, up to null. -/
theorem core_of_accepts {t s : Ty} (h : t.accepts s = true) :
    t.core = s.core ∨ (t.core = .object ∧ s ≠ .void) ∨
      ∃ b d, t.core = .struct b ∧ s.core = .struct d ∧ b ∈ d.lineage := by
  rcases accepts_cases h with rfl | rfl | rfl | ⟨b, d, rfl, rfl, hb⟩
  · exact .inl rfl
  · refine .inr (.inl ⟨rfl, ?_⟩)
    rintro rfl
    simp [accepts, isVoid] at h
  · exact .inl rfl
  · exact .inr (.inr ⟨b, d, rfl, rfl, hb⟩)

end Ty

theorem StructDef.head?_lineage (d : StructDef) : d.lineage.head? = some d := by
  obtain ⟨i, n, k, _ | b, fs⟩ := d <;> rfl

namespace Value

variable {v w : Value} {t u : Ty}

@[simp] theorem isA_core (v : Value) (t : Ty) : v.isA t.core = v.isA t := by
  induction t using Ty.core.induct with
  | case1 t ih => rw [Ty.core_nullable, ih, isA_nullable]
  | case2 t h => rw [Ty.core]; exact h

theorem isA_of_core_eq (h : t.core = u.core) : v.isA t = v.isA u := by
  rw [← isA_core, h, isA_core]

theorem not_isNull_of_isA (h : v.isA t = true) : v.isNull = false := by
  cases v with
  | null => simp [isA] at h
  | _ => rfl

/-- No type but `object` has every value for an instance. -/
theorem exists_not_isA (ht : t.core ≠ .object) :
    ∃ v : Value, v.Held ∧ v.isA .object = true ∧ v.isA t = false := by
  by_cases hb : t.core = .bool
  · refine ⟨.str "", trivial, rfl, ?_⟩
    rw [← isA_core, hb]
    rfl
  · refine ⟨.bool true, trivial, rfl, ?_⟩
    rw [← isA_core]
    have hn := Ty.core_ne_nullable t
    generalize t.core = c at ht hb hn
    cases c with
    | nullable u => exact absurd rfl (hn u)
    | object => exact absurd rfl ht
    | bool => exact absurd rfl hb
    | _ => rfl

/-- A new instance of a definition is an instance of no other that derives from it. -/
theorem isA_newStruct (b : StructDef) : ∃ v : Value, v.Held ∧ v.isA (.struct b) = true ∧
    ∀ d : StructDef, b ∈ d.lineage → v.isA (.struct d) = true → b = d := by
  refine ⟨(({} : Store).newStruct b []).1, Store.held_newStruct _ _ _, ?_⟩
  cases hk : b.kind with
  | value =>
    refine ⟨by simp [Store.newStruct, hk, isA], fun d _ hd => ?_⟩
    simpa [Store.newStruct, hk, isA] using hd
  | reference =>
    refine ⟨by simp [Store.newStruct, hk, isA, StructDef.inherits_refl], fun d hb hd => ?_⟩
    have hd : d ∈ b.lineage := by
      simpa [Store.newStruct, hk, isA, StructDef.inherits_iff] using hd
    -- Each derives from the other, so their lineages are one list, of which both are the head.
    have hlineage : b.lineage = d.lineage :=
      (StructDef.lineage_suffix hb).eq_of_length_le (StructDef.lineage_suffix hd).length_le
    simpa [StructDef.head?_lineage] using congrArg List.head? hlineage

/-- The default of a type suits it, unless nothing does. -/
theorem default_suits (ht : t ≠ .void) : t.default.Held ∧ t.default.Suits t := by
  cases t with
  | void => exact absurd rfl ht
  | bool => exact ⟨trivial, .inl rfl⟩
  | num k => exact ⟨trivial, .inl (by simp [Ty.default, isA])⟩
  | struct d =>
    obtain ⟨i, n, k, b, fs⟩ := d
    cases k with
    | value => cases b <;> exact ⟨rfl, .inl (by simp [Ty.default, StructDef.default, isA])⟩
    | reference => cases b <;> exact ⟨trivial, .inr ⟨rfl, rfl⟩⟩
  | _ => exact ⟨trivial, .inr ⟨rfl, rfl⟩⟩

/-- What a coalesce node gives for its operands. -/
def orElse (v w : Value) : Value := if v.isNull then w else v

end Value

/-! ## The node -/

/-- A conversion to the type that a value has already gives the value. -/
theorem Walk.cast_self (c : Walk) (v : Value) (t : Ty) : c.cast v t t = pure v := by
  simp only [cast, Operator.cast, if_true]
  rfl

/-- **A coalesce node evaluates to one of its operands, unchanged**: the right one if the
left one is null, which alone is evaluated otherwise. -/
theorem Walk.coalesce_eq (c : Walk) (left right : Expr) (method : Option Method) :
    c.binary right.ty .coalesce left right method = (do
      let v ← c.valueOf left
      if v.isNull then c.valueOf right else return v) := by
  simp only [binary, cast_self]
  refine congrArg _ (funext fun v => ?_)
  cases v.isNull with
  | true => exact bind_pure _
  | false => rfl

namespace Expr

variable {l r t : Ty}

/-- What the builder asks of the operands, and the type of the node. -/
theorem coalesceType_cases (h : Build.primitiveType? .coalesce l r = some t) :
    t = r ∧ l.hasNull = true ∧ (l.core = r.core ∨ (l.core = .object ∧ r ≠ .void) ∨
      ∃ b d, l.core = .struct b ∧ r.core = .struct d ∧ b ∈ d.lineage) := by
  simp only [Build.primitiveType?] at h
  split at h
  · next hasks =>
    obtain rfl := Option.some.inj h
    rw [Bool.and_eq_true, Bool.or_eq_true] at hasks
    obtain ⟨hnull, haccepts | haccepts⟩ := hasks
    · have hcore := Ty.core_of_accepts haccepts
      rw [Ty.core_underlying] at hcore
      exact ⟨rfl, hnull, hcore⟩
    · exact ⟨rfl, hnull, Ty.core_of_accepts haccepts⟩
  · cases h

/-- **A coalesce node is well typed for all operands exactly when these are of one type up
to null.** -/
theorem coalesce_suits_iff (h : Build.primitiveType? .coalesce l r = some t) :
    (∀ v w : Value, v.Held → w.Held → v.Suits l → w.Suits r → (v.orElse w).Suits t) ↔
      l.core = r.core := by
  obtain ⟨rfl, -, hcases⟩ := coalesceType_cases h
  constructor
  · intro hall
    -- An instance of the left type has to be one of the right type, whatever stands there.
    have hinstance : t ≠ .void → ∀ v : Value, v.Held → v.isA l = true → v.isA t = true := by
      intro hvoid v hv hi
      obtain ⟨hheld, hsuits⟩ := Value.default_suits hvoid
      have hnull := Value.not_isNull_of_isA hi
      rcases hall v t.default hv hheld (.inl hi) hsuits with hgives | ⟨hgives, -⟩
      · simpa [Value.orElse, hnull] using hgives
      · simp [Value.orElse, hnull] at hgives
        simp [hgives, Value.isNull] at hnull
    rcases hcases with hcore | ⟨hobject, hvoid⟩ | ⟨b, d, hb, hd, hmem⟩
    · exact hcore
    · by_contra hne
      obtain ⟨v, hv, hi, hno⟩ := Value.exists_not_isA (t := t) fun ht => hne (hobject.trans ht.symm)
      rw [← hobject, Value.isA_core] at hi
      exact absurd (hinstance hvoid v hv hi) (by simp [hno])
    · obtain ⟨v, hv, hi, hall⟩ := Value.isA_newStruct b
      rw [← hb, Value.isA_core] at hi
      have hd' := hinstance (by rintro rfl; cases hd) v hv hi
      rw [← Value.isA_core, hd] at hd'
      rw [hb, hd, hall d hmem hd']
  · intro hcore v w _ _ hv hw
    unfold Value.orElse
    split
    · exact hw
    · next hnull =>
      rcases hv with hi | ⟨rfl, -⟩
      · exact .inl (Value.isA_of_core_eq hcore ▸ hi)
      · exact absurd rfl hnull

/-- The builder takes a base on the left and a class derived from it on the right. -/
example :
    let b := StructDef.mk 0 "B" .reference none []
    let d := StructDef.mk 1 "D" .reference (some b) []
    Build.primitiveType? .coalesce (.struct b) (.struct d) = some (.struct d) ∧
      (Ty.struct b).core ≠ (Ty.struct d).core := by
  decide +kernel

/-- Where the operands of a coalesce node are of one type up to null, a field that is looked
up in the type of the node lies inside the instance that the node gives. -/
theorem coalesce_field_in_bounds {d e : StructDef} {name : String} {i : Nat} {u : Ty}
    {v w : Value} (h : Build.primitiveType? .coalesce l r = some (.struct d))
    (hcore : l.core = r.core) (hv : v.Held) (hw : w.Held) (hvs : v.Suits l) (hws : w.Suits r)
    (hfield : d.slotOf? name = some (i, u)) (hdef : (v.orElse w).structDef? = some e) :
    i < e.layoutSize := by
  obtain ⟨e', j, hres, rfl⟩ := StructDef.slotOf?_eq_some.1 hfield
  have hlayout : d ∈ e.lineage → e'.offset + j < e.layoutSize := fun hmem => by
    rw [← StructDef.length_layout]
    exact (List.getElem?_eq_some_iff.1 (StructDef.layout_getElem?_of_mem hmem hres.layout)).1
  -- An instance of the type is of the definition itself, or of one that derives from it.
  rcases (coalesce_suits_iff h).2 hcore v w hv hw hvs hws with hi | ⟨hnull, -⟩
  · rcases Value.isA_struct_iff.1 hi with ⟨origin, fields, heq⟩ | ⟨r, e'', heq, hmem⟩
    · rw [heq] at hdef
      obtain rfl : d = e := by simpa [Value.structDef?] using hdef
      exact hlayout d.mem_lineage_self
    · rw [heq] at hdef
      obtain rfl : e'' = e := by simpa [Value.structDef?] using hdef
      exact hlayout hmem
  · simp [hnull, Value.structDef?] at hdef

end Expr

end TreeCode
