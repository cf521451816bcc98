import TreeCode.Value.Default

/-!
# Literals that share an entry

A literal of a unit may share a table entry with an earlier one. Sharing mixes equality of
contents, of bits and of identity. It comes to this: two values share when they are one
plain value, or one instance. So it is symmetric and transitive, which the language's own
equality is not made for: there NaN differs from itself, the zeros of both signs are
equal, and so are structs with equal fields.

Main definitions:

* `Value.instanceName?` — what tells an instance from every other one.
* `Value.Indistinct` — one value, or one instance.
* `Value.Faithful` — whatever shares an entry with the value is the value.
* `Value.Literal` — constants without contents in the store.

Main results:

* `Value.sharesLiteral_iff` — what sharing means.
* `Value.sharesLiteral_symm`, `Value.sharesLiteral_trans`.
* `Value.faithful_of_unnamed` — only instances share with anything but themselves.
-/

namespace TreeCode

/-! ## Equality of representation -/

theorem Num.eq_of_identical {m n : Num} (h : m.identical n = true) : m = n := by
  cases m with
  | int k v =>
    cases n with
    | int k' v' =>
      simp only [Num.identical, Num.equals, Bool.and_eq_true, beq_iff_eq] at h
      obtain ⟨rfl, hv⟩ := h
      rw [BitVec.eq_of_toNat_eq hv]
    | _ => simp [Num.identical, Num.equals] at h
  | f32 x =>
    cases n with
    | f32 y =>
      obtain ⟨x⟩ := x
      obtain ⟨y⟩ := y
      obtain rfl : x = y := eq_of_beq h
      rfl
    | _ => simp [Num.identical, Num.equals] at h
  | f64 x =>
    cases n with
    | f64 y =>
      obtain ⟨x⟩ := x
      obtain ⟨y⟩ := y
      obtain rfl : x = y := eq_of_beq h
      rfl
    | _ => simp [Num.identical, Num.equals] at h

theorem Num.identical_self (n : Num) : n.identical n = true := by
  cases n with
  | int k v => simp [identical, equals]
  | _ => simp [identical]

/-! ## Instances -/

/-- What tells an instance from every other one: the identity of a shared value, or the
written constant that an instance of a value struct is. -/
inductive InstanceName where
  | shared (i : Identity)
  | written (origin : Nat)
  deriving DecidableEq, Repr

namespace Value

/-- The name of the instance that a value is. Instances of value structs that are made
while running have none. -/
def instanceName? : Value → Option InstanceName
  | .struct origin _ _ => origin.map .written
  | v => v.identity?.map .shared

/-- Whether a value is nothing but its contents. -/
def isPlain : Value → Bool
  | unit | null | bool _ | num _ | str _ => true
  | _ => false

/-- Two values are one and the same instance. -/
def SameInstance (u v : Value) : Prop :=
  u.instanceName?.isSome = true ∧ u.instanceName? = v.instanceName?

/-- Nothing tells two values apart: they are one value, or one instance. -/
def Indistinct (u v : Value) : Prop := u = v ∨ u.SameInstance v

variable {u v w : Value}

theorem SameInstance.symm (h : u.SameInstance v) : v.SameInstance u :=
  ⟨h.2 ▸ h.1, h.2.symm⟩

theorem SameInstance.trans (h : u.SameInstance v) (h' : v.SameInstance w) : u.SameInstance w :=
  ⟨h.1, h.2.trans h'.2⟩

/-! ## Sharing -/

/-- Two values share an entry when they are one instance, or one plain value. -/
theorem sharesLiteral_iff :
    u.sharesLiteral v = true ↔ u.SameInstance v ∨ u.isPlain = true ∧ u = v := by
  cases u with
  | num m =>
    cases v with
    | num n =>
      refine ⟨fun h => .inr ⟨rfl, congrArg _ (Num.eq_of_identical h)⟩, ?_⟩
      rintro (⟨h, -⟩ | ⟨-, h⟩)
      · cases h
      · cases h
        exact m.identical_self
    | _ => simp [sharesLiteral, equals, SameInstance, instanceName?, identity?]
  | struct o d fs =>
    cases v with
    | struct o' d' fs' =>
      cases o <;> cases o' <;> simp [sharesLiteral, SameInstance, instanceName?, isPlain]
    | _ =>
      cases o <;> simp [sharesLiteral, equals, SameInstance, instanceName?, identity?, isPlain]
  | _ =>
    cases v with
    | struct o d fs =>
      cases o <;> simp [sharesLiteral, equals, SameInstance, instanceName?, identity?]
    | _ => simp [sharesLiteral, equals, SameInstance, instanceName?, identity?, isPlain]

theorem sharesLiteral_symm (h : u.sharesLiteral v = true) : v.sharesLiteral u = true := by
  rw [sharesLiteral_iff] at h ⊢
  rcases h with h | ⟨h, rfl⟩
  · exact .inl h.symm
  · exact .inr ⟨h, rfl⟩

theorem sharesLiteral_trans (h : u.sharesLiteral v = true) (h' : v.sharesLiteral w = true) :
    u.sharesLiteral w = true := by
  rw [sharesLiteral_iff] at h h' ⊢
  rcases h with h | ⟨h, rfl⟩
  · rcases h' with h' | ⟨-, rfl⟩
    · exact .inl (h.trans h')
    · exact .inl h
  · exact h'

/-- A literal that shares an entry with the value is the value. -/
def Faithful (v : Value) : Prop := ∀ u : Value, u.sharesLiteral v = true → u = v

theorem faithful_of_unnamed (h : v.instanceName? = none) : v.Faithful := by
  intro u hu
  rcases sharesLiteral_iff.1 hu with ⟨hsome, hname⟩ | ⟨-, heq⟩
  · rw [hname, h] at hsome
    cases hsome
  · exact heq

theorem faithful_null : Faithful .null := faithful_of_unnamed rfl

theorem faithful_bool (b : Bool) : Faithful (.bool b) := faithful_of_unnamed rfl

theorem faithful_str (x : String) : Faithful (.str x) := faithful_of_unnamed rfl

theorem faithful_num (n : Num) : Faithful (.num n) := faithful_of_unnamed rfl

end Value

theorem Ty.default_faithful (t : Ty) : t.default.Faithful := by
  apply Value.faithful_of_unnamed
  cases t with
  | struct d =>
    obtain ⟨i, n, kind, base, fs⟩ := d
    cases kind <;> cases base <;> rfl
  | _ => rfl

/-- A constant without contents in the store, and its type. -/
inductive Value.Literal : Ty → Value → Prop
  | str (s : String) : Literal .str (.str s)
  | num (n : Num) : Literal (.num n.kind) (.num n)
  | bool (b : Bool) : Literal .bool (.bool b)
  | exception (stamp : Nat) (e : Exception) : Literal .exception (.exception stamp e)
  | null {t : Ty} (ht : t.hasNull = true) : Literal t .null

end TreeCode
