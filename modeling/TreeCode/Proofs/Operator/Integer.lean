import TreeCode.Proofs.Expr.Typing
import TreeCode.Proofs.Operator.Kind
import TreeCode.Proofs.Operator.Typing

/-!
# Operators on integers

Words of the integer kinds stand for integers (`IntKind.toInt`). An operator on two
integers, of kinds that may differ, runs in the kind `IntKind.promote` of both. That kind
holds the integers of both kinds, unless one is `u64` and the other one is signed, so the
conversion of the operands loses nothing, and what remains is the exact result on integers
reduced to the width of the kind.

Main definitions:

* `BinaryOp.relation?`, `BinaryOp.onIntegers?` — what the operators say of integers.
* `IntKind.Blends` — kinds whose common kind holds both.

Main results:

* `IntKind.promote_holds` — the common kind holds both kinds.
* `IntKind.arith_eq` — arithmetic on words is arithmetic on integers, reduced.
* `Walk.combine_integers` — every operator gives the exact result, reduced to the width.
-/

namespace TreeCode

namespace IntKind

variable {k k' : IntKind} {m n : Int}

/-! ## Words and integers -/

/-- The integer lies in the range of the kind. -/
def Holds (k : IntKind) (n : Int) : Prop := k.least ≤ n ∧ n ≤ k.greatest

instance (k : IntKind) (n : Int) : Decidable (k.Holds n) := inferInstanceAs (Decidable (_ ∧ _))

theorem toInt_inj {v v' : BitVec k.bits} : k.toInt v = k.toInt v' ↔ v = v' := by
  refine ⟨fun h => ?_, fun h => h ▸ rfl⟩
  rw [← ofInt_toInt k v, h, ofInt_toInt]

/-- The word of an integer stands for one that is congruent to it. -/
theorem toInt_ofInt_modEq (k : IntKind) (n : Int) : k.toInt (k.ofInt n) ≡ n [ZMOD 2 ^ k.bits] := by
  unfold Int.ModEq toInt ofInt
  split
  · rw [BitVec.toInt_ofInt]
    exact_mod_cast Int.bmod_emod
  · rw [BitVec.toNat_ofInt, Int.toNat_of_nonneg (Int.emod_nonneg _ (by positivity))]
    exact_mod_cast Int.emod_emod_of_dvd n (dvd_refl _)

theorem toInt_modEq_toNat (k : IntKind) (v : BitVec k.bits) :
    k.toInt v ≡ v.toNat [ZMOD 2 ^ k.bits] := by
  simpa [ofInt] using k.toInt_ofInt_modEq v.toNat

theorem holds_toInt (k : IntKind) (v : BitVec k.bits) : k.Holds (k.toInt v) := by
  unfold Holds least greatest toInt
  split
  · have hlow := BitVec.le_toInt v
    have hhigh := @BitVec.toInt_lt _ v
    simp only [Nat.pow_eq, Nat.cast_pow, Nat.cast_ofNat]
    omega
  · have hhigh := v.isLt
    simp only [Nat.pow_eq]
    omega

/-- Two integers in the range of a kind are equal if they are congruent. -/
theorem Holds.eq_of_modEq (hm : k.Holds m) (hn : k.Holds n) (h : m ≡ n [ZMOD 2 ^ k.bits]) : m = n := by
  obtain ⟨d, hd⟩ := h.symm.dvd
  -- The difference is a multiple of the width and smaller than it.
  have hwidth : k.greatest - k.least < 2 ^ k.bits := by cases k <;> decide
  have hm' := hm
  have hn' := hn
  unfold Holds at hm' hn'
  have hpos : (0 : Int) < 2 ^ k.bits := by positivity
  have hupper : (2 ^ k.bits : Int) * d < 2 ^ k.bits * 1 := by omega
  have hlower : (2 ^ k.bits : Int) * (-1) < 2 ^ k.bits * d := by omega
  have h₁ := lt_of_mul_lt_mul_left hupper hpos.le
  have h₂ := lt_of_mul_lt_mul_left hlower hpos.le
  obtain rfl : d = 0 := by omega
  omega

theorem Holds.toInt_ofInt (h : k.Holds n) : k.toInt (k.ofInt n) = n :=
  (k.holds_toInt _).eq_of_modEq h (k.toInt_ofInt_modEq n)

/-! ## The common kind -/

/-- A pair of kinds other than `u64` beside a signed kind. -/
def Blends (k k' : IntKind) : Prop :=
  (k = .u64 → k'.isSigned = false) ∧ (k' = .u64 → k.isSigned = false)

instance (k k' : IntKind) : Decidable (k.Blends k') := inferInstanceAs (Decidable (_ ∧ _))

theorem blends_self (k : IntKind) : k.Blends k := by cases k <;> decide

/-- The kind in which two integers are combined holds both. -/
theorem promote_holds (h : k.Blends k') (hn : k.Holds n ∨ k'.Holds n) : (promote k k').Holds n := by
  have hrange : ((promote k k').least ≤ k.least ∧ k.greatest ≤ (promote k k').greatest) ∧
      (promote k k').least ≤ k'.least ∧ k'.greatest ≤ (promote k k').greatest := by
    revert h
    cases k <;> cases k' <;> decide
  unfold Holds at hn ⊢
  omega

/-- The integers of the common kind are those of the operands. -/
theorem toInt_promote_left (h : k.Blends k') (v : BitVec k.bits) :
    (promote k k').toInt ((promote k k').ofInt (k.toInt v)) = k.toInt v :=
  (promote_holds h (.inl (k.holds_toInt v))).toInt_ofInt

theorem toInt_promote_right (h : k.Blends k') (v : BitVec k'.bits) :
    (promote k k').toInt ((promote k k').ofInt (k'.toInt v)) = k'.toInt v :=
  (promote_holds h (.inr (k'.holds_toInt v))).toInt_ofInt

end IntKind

/-! ## Words under operators -/

/-- The operation on integers that arithmetic reduces to the width of a kind. -/
def ArithOp.onIntegers? : ArithOp → Option (Int → Int → Int)
  | .add => some (· + ·)
  | .sub => some (· - ·)
  | .mul => some (· * ·)
  | .div => some Int.tdiv
  | .rem => some Int.tmod
  | _ => none

def ArithOp.divides : ArithOp → Bool
  | .div | .rem => true
  | _ => false

namespace IntKind

variable {k : IntKind} {a b : BitVec k.bits}

theorem toInt_eq_zero_iff : k.toInt b = 0 ↔ b = 0 := by
  have hzero : k.toInt (0 : BitVec k.bits) = 0 := by cases k <;> decide
  rw [← hzero, toInt_inj]

theorem sdiv_eq (hk : k.isSigned = true) (a b : BitVec k.bits) :
    a.sdiv b = k.ofInt ((k.toInt a).tdiv (k.toInt b)) := by
  rw [← BitVec.toInt_inj, BitVec.toInt_sdiv]
  simp only [toInt, hk, if_true, ofInt, BitVec.toInt_ofInt]

theorem udiv_eq (hk : k.isSigned = false) (a b : BitVec k.bits) :
    a.udiv b = k.ofInt ((k.toInt a).tdiv (k.toInt b)) := by
  have h : (k.toInt a).tdiv (k.toInt b) = k.toInt (a.udiv b) := by
    simp only [toInt, hk, Bool.false_eq_true, if_false, ← Int.ofNat_tdiv]
    rfl
  rw [h, ofInt_toInt]

theorem srem_eq (hk : k.isSigned = true) (a b : BitVec k.bits) :
    a.srem b = k.ofInt ((k.toInt a).tmod (k.toInt b)) := by
  have h : (k.toInt a).tmod (k.toInt b) = k.toInt (a.srem b) := by
    simp only [toInt, hk, if_true, BitVec.toInt_srem]
  rw [h, ofInt_toInt]

theorem umod_eq (hk : k.isSigned = false) (a b : BitVec k.bits) :
    a.umod b = k.ofInt ((k.toInt a).tmod (k.toInt b)) := by
  have h : (k.toInt a).tmod (k.toInt b) = k.toInt (a.umod b) := by
    simp only [toInt, hk, Bool.false_eq_true, if_false, ← Int.ofNat_tmod]
    rfl
  rw [h, ofInt_toInt]

/-- Arithmetic on words is arithmetic on integers, reduced to the width. -/
theorem arith_eq {op : ArithOp} {f : Int → Int → Int} (hf : op.onIntegers? = some f)
    (hb : op.divides = true → k.toInt b ≠ 0) :
    k.arith op a b = some (k.ofInt (f (k.toInt a) (k.toInt b))) := by
  have hzero : op.divides = true → (b == 0) = false := fun h =>
    beq_eq_false_iff_ne.2 fun heq => hb h (toInt_eq_zero_iff.2 heq)
  cases op with
  -- Reducing to the width is a homomorphism of rings.
  | add =>
    obtain rfl := Option.some.inj hf
    have hadd : ∀ x y : Int, k.ofInt (x + y) = k.ofInt x + k.ofInt y :=
      map_add (Int.castRingHom (BitVec k.bits))
    simp only [arith, hadd, ofInt_toInt]
  | sub =>
    obtain rfl := Option.some.inj hf
    have hsub : ∀ x y : Int, k.ofInt (x - y) = k.ofInt x - k.ofInt y :=
      map_sub (Int.castRingHom (BitVec k.bits))
    simp only [arith, hsub, ofInt_toInt]
  | mul =>
    obtain rfl := Option.some.inj hf
    have hmul : ∀ x y : Int, k.ofInt (x * y) = k.ofInt x * k.ofInt y :=
      map_mul (Int.castRingHom (BitVec k.bits))
    simp only [arith, hmul, ofInt_toInt]
  | div =>
    obtain rfl := Option.some.inj hf
    simp only [arith, hzero rfl, Bool.false_eq_true, if_false]
    split
    · rename_i hk
      rw [sdiv_eq hk]
    · rename_i hk
      rw [udiv_eq (by simpa using hk)]
  | rem =>
    obtain rfl := Option.some.inj hf
    simp only [arith, hzero rfl, Bool.false_eq_true, if_false]
    split
    · rename_i hk
      rw [srem_eq hk]
    · rename_i hk
      rw [umod_eq (by simpa using hk)]
  | _ => cases hf

/-- Division by zero has no result. -/
theorem arith_zero {op : ArithOp} (hop : op.divides = true) (hb : k.toInt b = 0) :
    k.arith op a b = none := by
  rw [toInt_eq_zero_iff] at hb
  subst hb
  cases op with
  | div | rem => simp [arith]
  | _ => cases hop

/-- A left shift multiplies by a power of two. -/
theorem shift_left_modEq (a : BitVec k.bits) (count : Int) :
    k.toInt (k.shift true a count) ≡
      k.toInt a * 2 ^ (count % k.bits).toNat [ZMOD 2 ^ k.bits] := by
  refine (toInt_modEq_toNat k _).trans (.trans ?_ ((toInt_modEq_toNat k a).symm.mul_right _))
  simp only [shift, if_true, BitVec.toNat_shiftLeft, Nat.shiftLeft_eq]
  push_cast
  exact Int.mod_modEq _ _

/-- A right shift divides by a power of two and rounds down. -/
theorem shift_right_eq (a : BitVec k.bits) (count : Int) :
    k.toInt (k.shift false a count) = k.toInt a / 2 ^ (count % k.bits).toNat := by
  simp only [shift, Bool.false_eq_true, if_false, toInt]
  split
  · simp [BitVec.toInt_sshiftRight, Int.shiftRight_eq_div_pow]
  · simp [BitVec.toNat_ushiftRight, Nat.shiftRight_eq_div_pow]

/-- The order of the words of a kind is that of the integers. -/
theorem toNat_beq (a b : BitVec k.bits) : (a.toNat == b.toNat) = (k.toInt a == k.toInt b) := by
  rw [Bool.eq_iff_iff, beq_iff_eq, beq_iff_eq, toInt_inj, BitVec.toNat_inj]

end IntKind

/-! ## Operators -/

/-- What a relational operator says of two integers. -/
def BinaryOp.relation? : BinaryOp → Option (Int → Int → Bool)
  | .equal => some fun x y => decide (x = y)
  | .notEqual => some fun x y => decide (x ≠ y)
  | .lessThan => some fun x y => decide (x < y)
  | .lessThanOrEqual => some fun x y => decide (x ≤ y)
  | .greaterThan => some fun x y => decide (x > y)
  | .greaterThanOrEqual => some fun x y => decide (x ≥ y)
  | _ => none

/-- What an arithmetic operator makes of two integers, before it is reduced to a width. Division
and remainder round towards zero. -/
def BinaryOp.onIntegers? : BinaryOp → Option (Int → Int → Int)
  | .add | .addAssign => some (· + ·)
  | .subtract | .subtractAssign => some (· - ·)
  | .multiply | .multiplyAssign => some (· * ·)
  | .divide | .divideAssign => some Int.tdiv
  | .modulo | .moduloAssign => some Int.tmod
  | _ => none

def BinaryOp.divides : BinaryOp → Bool
  | .divide | .divideAssign | .modulo | .moduloAssign => true
  | _ => false

/-- The arithmetic that an operator runs computes what the operator says of integers. -/
theorem BinaryOp.arith_onIntegers {op : BinaryOp} {f : Int → Int → Int}
    (hf : op.onIntegers? = some f) :
    ∃ o, op.arith? = some o ∧ o.onIntegers? = some f ∧ o.divides = op.divides := by
  cases op <;> first | exact ⟨_, rfl, hf, rfl⟩ | cases hf

/-- The orderings of integers. -/
def CmpOp.relation : CmpOp → Int → Int → Bool
  | .lt, x, y => decide (x < y)
  | .le, x, y => decide (x ≤ y)
  | .gt, x, y => decide (x > y)
  | .ge, x, y => decide (x ≥ y)

theorem CmpOp.accepts_compare (op : CmpOp) (x y : Int) :
    op.accepts (some (compare x y)) = op.relation x y := by
  rcases lt_trichotomy x y with h | rfl | h
  · rw [Int.compare_eq_lt.2 h]
    cases op <;> simp [accepts, relation, h, h.le, h.not_gt]
  · rw [show compare x x = .eq from Int.compare_eq_eq.2 rfl]
    cases op <;> simp [accepts, relation]
  · rw [Int.compare_eq_gt.2 h]
    cases op <;> simp [accepts, relation, h, h.le, h.not_gt]

theorem Operator.arith_int {k : IntKind} {o : ArithOp} (a b : BitVec k.bits)
    (ho : o.isShift = false) : Operator.arith o (.num (.int k a)) (.num (.int k b)) =
      match k.arith o a b with
      | some v => .ok (.num (.int k v))
      | none => .error (.raises .divideByZero) := by
  simp only [Operator.arith, ho, Bool.false_eq_true, if_false, Num.arith, dite_true]
  cases k.arith o a b <;> rfl

namespace Walk

variable {k₁ k₂ : IntKind}

/-- No method stands for an operator on numbers. -/
theorem combine_num (c : Walk) (op : BinaryOp) (k k' : NumKind) (l r : Value) :
    c.combine op (.num k) l (.num k') r none =
      RunM.ofOp (primitive op (.num k) l (.num k') r) := by
  simp only [combine, Option.none_or, Build.methodNamed?_plain op (.num k) (.num k')]

theorem kind?_int {op : BinaryOp} (k₁ k₂ : IntKind) (hop : op.isShift = false) :
    op.kind? (.num (.int k₁)) (.num (.int k₂)) = some (.int (.promote k₁ k₂)) :=
  kind?_eq (t := .num (.int k₁)) (u := .num (.int k₂)) rfl rfl hop

/-- Equality compares the integers. -/
theorem equality_int (op : BinaryOp) (hop : op.isShift = false) (hb : k₁.Blends k₂) (a : BitVec k₁.bits)
    (b : BitVec k₂.bits) :
    equality op (.num (.int k₁)) (.num (.int k₁ a)) (.num (.int k₂)) (.num (.int k₂ b)) =
      .ok (.bool (decide (k₁.toInt a = k₂.toInt b) == (op == .equal)), .bool) := by
  simp only [equality, kind?_int k₁ k₂ hop, Operator.asKind_num_eq, bind, Except.bind, pure,
    Except.pure, Value.equals, Num.convert,
    Num.equals, beq_self_eq_true, Bool.true_and, IntKind.toNat_beq,
    IntKind.toInt_promote_left hb, IntKind.toInt_promote_right hb]
  rfl

/-- The operands of an operator on numbers are converted to its kind. -/
theorem numeric_converted (op : BinaryOp) (n m : Num) {k₁ k₂ k : NumKind}
    (hk : op.kind? (.num k₁) (.num k₂) = some k) :
    numeric op (.num k₁) (.num n) (.num k₂) (.num m) =
      match op.cmp?, op.arith? with
      | some cmp, _ => (Operator.compare cmp (.num (n.convert k)) (.num (m.convert (op.rightKind k)))).map
          fun r => (.bool r, if op.isRelational then .bool else .num k)
      | none, some o => (Operator.arith o (.num (n.convert k)) (.num (m.convert (op.rightKind k)))).map
          fun r => (r, if op.isRelational then .bool else .num k)
      | none, none => .error (.defect (.binaryOperator op)) := by
  have hlift : isLifted (.num k₁) (.num k₂) = false := rfl
  simp only [numeric, hk, hlift, Bool.false_and, Bool.false_eq_true, if_false,
    Operator.asKind_num_eq, bind, Except.bind]
  cases op.cmp? with
  | some cmp =>
    simp only
    cases Operator.compare cmp (.num (n.convert k)) (.num (m.convert (op.rightKind k))) <;> rfl
  | none =>
    cases op.arith? with
    | some o =>
      simp only
      cases Operator.arith o (.num (n.convert k)) (.num (m.convert (op.rightKind k))) <;> rfl
    | none => rfl

/-- Orderings compare the integers. -/
theorem numeric_ordering (op : BinaryOp) {cmp : CmpOp} (hcmp : op.cmp? = some cmp) (hb : k₁.Blends k₂)
    (a : BitVec k₁.bits) (b : BitVec k₂.bits) :
    numeric op (.num (.int k₁)) (.num (.int k₁ a)) (.num (.int k₂)) (.num (.int k₂ b)) =
      .ok (.bool (cmp.relation (k₁.toInt a) (k₂.toInt b)), .bool) := by
  have hop : op.isShift = false ∧ op.isRelational = true := by
    cases op <;> first | exact ⟨rfl, rfl⟩ | cases hcmp
  simp only [numeric_converted op _ _ (kind?_int k₁ k₂ hop.1), hcmp, hop, BinaryOp.rightKind,
    Bool.false_eq_true, if_false, if_true, Num.convert, Operator.compare, Num.compare?, CmpOp.accepts_compare,
    IntKind.toInt_promote_left hb, IntKind.toInt_promote_right hb]
  rfl

/-- Arithmetic gives the exact result, reduced to the width; division by zero raises. -/
theorem numeric_exact (op : BinaryOp) {f : Int → Int → Int} (hf : op.onIntegers? = some f)
    (hb : k₁.Blends k₂) (a : BitVec k₁.bits) (b : BitVec k₂.bits) :
    numeric op (.num (.int k₁)) (.num (.int k₁ a)) (.num (.int k₂)) (.num (.int k₂ b)) =
      if op.divides = true ∧ k₂.toInt b = 0 then .error (.raises .divideByZero)
      else .ok (.num (.int (.promote k₁ k₂)
        ((IntKind.promote k₁ k₂).ofInt (f (k₁.toInt a) (k₂.toInt b)))),
        .num (.int (.promote k₁ k₂))) := by
  have hop : op.isShift = false ∧ op.isRelational = false ∧ op.cmp? = none := by
    cases op <;> first | exact ⟨rfl, rfl, rfl⟩ | cases hf
  obtain ⟨o, ho, hf, hdiv⟩ := BinaryOp.arith_onIntegers hf
  rw [← hdiv]
  have hshift : o.isShift = false := by
    cases o <;> first | rfl | cases hf
  have hright := IntKind.toInt_promote_right hb b
  simp only [numeric_converted op _ _ (kind?_int k₁ k₂ hop.1), ho, hop, BinaryOp.rightKind,
    Bool.false_eq_true, if_false, Num.convert, Operator.arith_int _ _ hshift]
  by_cases hzero : o.divides = true ∧ k₂.toInt b = 0
  · rw [if_pos hzero, IntKind.arith_zero hzero.1 (hright.trans hzero.2)]
    rfl
  · rw [if_neg hzero, IntKind.arith_eq hf fun hdiv => by rw [hright]; exact fun h => hzero ⟨hdiv, h⟩,
      IntKind.toInt_promote_left hb, hright]
    rfl

/-- Shifts run in the kind of the left operand, widened to 32 bits. -/
theorem numeric_shifted {op : BinaryOp} (hop : op = .leftShift ∨ op = .rightShift) (k : IntKind)
    (a : BitVec k.bits) (count : BitVec 32) :
    numeric op (.num (.int k)) (.num (.int k a)) (.num .i32) (.num (.int .i32 count)) =
      .ok (.num (.int (.promote k k) ((IntKind.promote k k).shift (op == .leftShift)
        ((IntKind.promote k k).ofInt (k.toInt a)) count.toInt)), .num (.int (.promote k k))) := by
  have hshift : op.isShift = true := by rcases hop with rfl | rfl <;> rfl
  have hk : op.kind? (.num (.int k)) (.num .i32) = some (.int (.promote k k)) :=
    kind?_shift (t := .num (.int k)) rfl hshift
  have hcount : (Num.int .i32 count).convert .i32 = .int .i32 count :=
    Num.convert_self (.int .i32 count)
  rw [numeric_converted op _ _ hk, BinaryOp.rightKind, if_pos hshift, hcount]
  rcases hop with rfl | rfl <;> rfl

variable (c : Walk) (w : World)

/-- Comparisons compare the integers. -/
theorem combine_relation (op : BinaryOp) {rel : Int → Int → Bool} (hrel : op.relation? = some rel)
    (hb : k₁.Blends k₂) (a : BitVec k₁.bits) (b : BitVec k₂.bits) :
    c.combine op (.num (.int k₁)) (.num (.int k₁ a)) (.num (.int k₂)) (.num (.int k₂ b)) none w =
      .ok (.bool (rel (k₁.toInt a) (k₂.toInt b)), .bool) w := by
  have hprimitive : primitive op (.num (.int k₁)) (.num (.int k₁ a)) (.num (.int k₂))
      (.num (.int k₂ b)) = .ok (.bool (rel (k₁.toInt a) (k₂.toInt b)), .bool) := by
    cases op with
    | equal =>
      obtain rfl := Option.some.inj hrel
      exact (equality_int .equal rfl hb a b).trans (by simp)
    | notEqual =>
      obtain rfl := Option.some.inj hrel
      have hop : (BinaryOp.notEqual == BinaryOp.equal) = false := rfl
      exact (equality_int .notEqual rfl hb a b).trans (by simp [hop])
    | lessThan =>
      obtain rfl := Option.some.inj hrel
      exact numeric_ordering .lessThan rfl hb a b
    | lessThanOrEqual =>
      obtain rfl := Option.some.inj hrel
      exact numeric_ordering .lessThanOrEqual rfl hb a b
    | greaterThan =>
      obtain rfl := Option.some.inj hrel
      exact numeric_ordering .greaterThan rfl hb a b
    | greaterThanOrEqual =>
      obtain rfl := Option.some.inj hrel
      exact numeric_ordering .greaterThanOrEqual rfl hb a b
    | _ => cases hrel
  rw [combine_num, hprimitive]
  rfl

/-- Arithmetic gives the exact result, reduced to the width; division by zero raises. -/
theorem combine_exact (op : BinaryOp) {f : Int → Int → Int} (hf : op.onIntegers? = some f)
    (hb : k₁.Blends k₂) (a : BitVec k₁.bits) (b : BitVec k₂.bits) :
    c.combine op (.num (.int k₁)) (.num (.int k₁ a)) (.num (.int k₂)) (.num (.int k₂ b)) none w =
      if op.divides = true ∧ k₂.toInt b = 0 then RunM.raise .divideByZero w
      else .ok (.num (.int (.promote k₁ k₂)
        ((IntKind.promote k₁ k₂).ofInt (f (k₁.toInt a) (k₂.toInt b)))),
        .num (.int (.promote k₁ k₂))) w := by
  have heq : ¬(op = .equal ∨ op = .notEqual) := by
    rintro (rfl | rfl) <;> cases hf
  rw [combine_num, (BinaryOp.TakesNumbers.of_num rfl heq).primitive, numeric_exact op hf hb]
  split <;> rfl

/-- The least integer divided by minus one comes back as itself, without a remainder. -/
theorem combine_least (hb : k₁.Blends k₂) {a : BitVec k₁.bits} {b : BitVec k₂.bits}
    (ha : k₁.toInt a = (IntKind.promote k₁ k₂).least) (hmin : k₂.toInt b = -1) :
    let k := IntKind.promote k₁ k₂
    let result (op : BinaryOp) := c.combine op (.num (.int k₁)) (.num (.int k₁ a))
      (.num (.int k₂)) (.num (.int k₂ b)) none w
    (∃ v, result .divide = .ok (.num (.int k v), .num (.int k)) w ∧ k.toInt v = k.least) ∧
      ∃ v, result .modulo = .ok (.num (.int k v), .num (.int k)) w ∧ k.toInt v = 0 := by
  intro k result
  -- The quotient is the least integer negated, one above the greatest, and wraps around.
  have hleast : k.Holds k.least := ⟨le_refl _, by cases k <;> decide⟩
  have hzero : k.Holds 0 := by cases k <;> decide
  have hneg : -k.least ≡ k.least [ZMOD 2 ^ k.bits] := by cases k <;> decide
  refine ⟨⟨_, (combine_exact c w .divide rfl hb a b).trans (if_neg ?_), ?_⟩,
    ⟨_, (combine_exact c w .modulo rfl hb a b).trans (if_neg ?_), ?_⟩⟩
  · simp [hmin]
  · rw [ha, hmin, Int.tdiv_neg, Int.tdiv_one]
    exact (k.holds_toInt _).eq_of_modEq hleast ((k.toInt_ofInt_modEq _).trans hneg)
  · simp [hmin]
  · rw [ha, hmin, Int.tmod_neg, Int.tmod_one]
    exact hzero.toInt_ofInt

/-- Shifts multiply by a power of two, and divide by one. -/
theorem combine_shift (k₁ : IntKind) (a : BitVec k₁.bits) (count : BitVec 32) :
    let k := IntKind.promote k₁ k₁
    let places := (count.toInt % k.bits).toNat
    let result (op : BinaryOp) := c.combine op (.num (.int k₁)) (.num (.int k₁ a))
      (.num .i32) (.num (.int .i32 count)) none w
    (∃ v, result .leftShift = .ok (.num (.int k v), .num (.int k)) w ∧
      k.toInt v ≡ k₁.toInt a * 2 ^ places [ZMOD 2 ^ k.bits]) ∧
    ∃ v, result .rightShift = .ok (.num (.int k v), .num (.int k)) w ∧
      k.toInt v = ⌊(k₁.toInt a : ℚ) / 2 ^ places⌋ := by
  intro k places result
  -- Widening to 32 bits does not change what is shifted.
  have hx : k.toInt (k.ofInt (k₁.toInt a)) = k₁.toInt a :=
    IntKind.toInt_promote_left k₁.blends_self a
  have hresult : ∀ op : BinaryOp, op = .leftShift ∨ op = .rightShift → result op =
      .ok (.num (.int k (k.shift (op == .leftShift) (k.ofInt (k₁.toInt a)) count.toInt)),
        .num (.int k)) w := by
    intro op hop
    have hnumeric : primitive op (.num (.int k₁)) (.num (.int k₁ a)) (.num .i32)
        (.num (.int .i32 count)) = _ :=
      (by rcases hop with rfl | rfl <;> rfl : _ = numeric op _ _ _ _).trans
        (numeric_shifted hop k₁ a count)
    simp only [result, combine_num, hnumeric]
    rfl
  refine ⟨⟨_, hresult .leftShift (.inl rfl), ?_⟩, ⟨_, hresult .rightShift (.inr rfl), ?_⟩⟩
  · exact (k.shift_left_modEq _ _).trans (by rw [hx])
  · refine (k.shift_right_eq _ _).trans ?_
    have hfloor := Rat.floor_intCast_div_natCast (k₁.toInt a) (2 ^ places)
    rw [hx]
    exact_mod_cast hfloor.symm

/-- Operators on integers give the exact result, in the kind in which both operands are
combined and reduced to its width. -/
theorem combine_integers :
    (∀ (k₁ k₂ : IntKind) (a : BitVec k₁.bits) (b : BitVec k₂.bits), k₁.Blends k₂ →
      let k := IntKind.promote k₁ k₂
      let x := k₁.toInt a
      let y := k₂.toInt b
      let result (op : BinaryOp) := c.combine op (.num (.int k₁)) (.num (.int k₁ a))
        (.num (.int k₂)) (.num (.int k₂ b)) none w
      (∀ op rel, op.relation? = some rel → result op = .ok (.bool (rel x y), .bool) w) ∧
      (∀ op f, op.onIntegers? = some f →
        if op.divides = true ∧ y = 0 then result op = RunM.raise .divideByZero w
        else ∃ v, result op = .ok (.num (.int k v), .num (.int k)) w ∧
          k.toInt v ≡ f x y [ZMOD 2 ^ k.bits]) ∧
      (x = k.least → y = -1 →
        (∃ v, result .divide = .ok (.num (.int k v), .num (.int k)) w ∧ k.toInt v = k.least) ∧
        ∃ v, result .modulo = .ok (.num (.int k v), .num (.int k)) w ∧ k.toInt v = 0)) ∧
    ∀ (k₁ : IntKind) (a : BitVec k₁.bits) (count : BitVec 32),
      let k := IntKind.promote k₁ k₁
      let places := (count.toInt % k.bits).toNat
      let result (op : BinaryOp) := c.combine op (.num (.int k₁)) (.num (.int k₁ a))
        (.num .i32) (.num (.int .i32 count)) none w
      (∃ v, result .leftShift = .ok (.num (.int k v), .num (.int k)) w ∧
        k.toInt v ≡ k₁.toInt a * 2 ^ places [ZMOD 2 ^ k.bits]) ∧
      ∃ v, result .rightShift = .ok (.num (.int k v), .num (.int k)) w ∧
        k.toInt v = ⌊(k₁.toInt a : ℚ) / 2 ^ places⌋ := by
  refine ⟨fun k₁ k₂ a b hb => ⟨?_, ?_, ?_⟩, combine_shift c w⟩
  · exact fun op rel hrel => combine_relation c w op hrel hb a b
  · intro op f hf
    have hresult := combine_exact c w op hf hb a b
    split
    · rename_i hzero
      rwa [if_pos hzero] at hresult
    · rename_i hzero
      rw [if_neg hzero] at hresult
      exact ⟨_, hresult, IntKind.toInt_ofInt_modEq _ _⟩
  · exact combine_least c w hb

/-- Evaluation that neither calls anything nor has parts. -/
def alone : Walk where
  host := ⟨.empty, fun _ _ _ => .done (.ok .unit) none, fun _ _ => .done (.ok .unit) none⟩
  gauge := ⟨0, 0⟩
  fuel := 0
  call _ _ := throw .outOfFuel
  valueOf _ := EvalM.fault .outOfFuel

/-- The greatest unsigned integer of 32 bits times minus one, which is of 8 bits; and the least
signed integer of 32 bits divided by minus one. -/
theorem combine_integers_mixed :
    IntKind.Blends .u32 .i8 ∧ IntKind.Blends .i32 .i32 ∧
      (∃ v, alone.combine .multiply (.num (.int .u32)) (.num (.int .u32 4294967295))
          (.num (.int .i8)) (.num (.int .i8 255)) none {} =
            .ok (.num (.int .i64 v), .num (.int .i64)) {} ∧
        IntKind.toInt .i64 v ≡ -4294967295 [ZMOD 2 ^ 64]) ∧
      ∃ v, alone.combine .divide (.num (.int .i32)) (.num (.int .i32 2147483648))
          (.num (.int .i32)) (.num (.int .i32 4294967295)) none {} =
            .ok (.num (.int .i32 v), .num (.int .i32)) {} ∧
        IntKind.toInt .i32 v = -2147483648 := by
  have hmixed : IntKind.Blends .u32 .i8 := by decide
  have hsame : IntKind.Blends .i32 .i32 := by decide
  have hproduct := ((combine_integers alone {}).1 .u32 .i8 4294967295 255 hmixed).2.1 .multiply
    (· * ·) rfl
  rw [if_neg (by decide)] at hproduct
  have hquotient := ((combine_integers alone {}).1 .i32 .i32 2147483648 4294967295 hsame).2.2
    (by decide) (by decide)
  exact ⟨hmixed, hsame, hproduct, hquotient.1⟩

end Walk

end TreeCode
