import TreeCode.Proofs.Num.Equality
import TreeCode.Proofs.Ty.Layout

/-!
# Equality of values

The language's equality compares shared values by identity, numbers as numbers, and value
structs field by field, as far as both lists of fields go. Two values are equal when what
they are compared by agrees, fields aside, and so do their fields. So equality is symmetric,
and a value equals itself unless a NaN or an address stands in it somewhere. It is transitive
among values whose instances have as many fields as their definitions say: an instance with
fewer would equal two that differ behind its last field.

Main definitions:

* `Value.comparand?`, `Value.fields` — what a value is compared by, and the fields that are
  compared besides.
* `Value.Occurs` — a value stands in another, at any depth of value structs.
* `Value.Complete` — instances of value structs have the fields of their definitions.

Main results:

* `Value.equals_iff` — equality one level down.
* `Value.equals_comm`, `Value.equals_trans`, `Value.equals_self_iff`.
* `Store.complete_newStruct` — new instances are complete.
* `Value.equals_partial_equivalence` — all of it.
-/

namespace TreeCode

namespace Value

/-! ## What stands in a value -/

/-- The values that are compared besides a value itself: the fields of a value struct. -/
def fields : Value → List Value
  | struct _ _ fs => fs
  | _ => []

/-- A value stands in another: it is the other, or stands in a field of a value struct. -/
inductive Occurs (w : Value) : Value → Prop
  | self : Occurs w w
  | field {v f : Value} : f ∈ v.fields → Occurs w f → Occurs w v

/-- The number of fields that the definition of a value struct has. -/
def width : Value → Nat
  | struct _ d _ => d.layout.length
  | _ => 0

/-- Instances of value structs, at any depth, have the fields of their definitions. -/
def Complete (v : Value) : Prop := ∀ w : Value, w.Occurs v → w.fields.length = w.width

/-- The value is a NaN. -/
def isNaN : Value → Bool
  | num n => n.isNaN
  | _ => false

/-- The value is an address. -/
def isAddress : Value → Bool
  | address _ => true
  | _ => false

theorem sizeOf_lt_of_mem_fields {v f : Value} (h : f ∈ v.fields) : sizeOf f < sizeOf v := by
  cases v with
  | struct origin d fs =>
    have hlt : sizeOf f < sizeOf fs := List.sizeOf_lt_of_mem h
    simp only [struct.sizeOf_spec]
    omega
  | _ => cases h

/-- Induction over the fields of value structs. -/
@[elab_as_elim]
theorem fields_induction {P : Value → Prop} (node : ∀ v, (∀ f ∈ v.fields, P f) → P v)
    (v : Value) : P v := by
  induction hn : sizeOf v using Nat.strong_induction_on generalizing v with
  | h n ih =>
    subst hn
    exact node v fun f hf => ih _ (sizeOf_lt_of_mem_fields hf) f rfl

variable {u v w : Value}

/-- What holds of all that stands in a value holds of the value and of all that stands in its
fields. -/
theorem forall_occurs_iff {P : Value → Prop} :
    (∀ w, w.Occurs v → P w) ↔ P v ∧ ∀ f ∈ v.fields, ∀ w, w.Occurs f → P w := by
  constructor
  · intro h
    exact ⟨h v .self, fun f hf w hw => h w (.field hf hw)⟩
  · rintro ⟨hv, hfields⟩ w hw
    cases hw with
    | self => exact hv
    | field hf hw => exact hfields _ hf w hw

theorem complete_iff : v.Complete ↔ v.fields.length = v.width ∧ ∀ f ∈ v.fields, f.Complete :=
  forall_occurs_iff

/-- Without fields to look into there is nothing to ask. -/
theorem complete_of_fields (h : v.fields = []) (hwidth : v.width = 0) : v.Complete :=
  complete_iff.2 ⟨by rw [h, hwidth]; rfl, by simp [h]⟩

/-! ## One level of equality -/

/-- What values are compared by, fields aside. -/
inductive Comparand where
  | unit
  | null
  | bool (b : Bool)
  | num (c : Num.Comparand)
  | str (s : String)
  | struct (d : StructDef)
  | shared (i : Identity)

/-- What a value is compared by, fields aside; nothing for NaN and addresses. -/
def comparand? : Value → Option Comparand
  | unit => some .unit
  | null => some .null
  | bool b => some (.bool b)
  | num n => n.comparand?.map .num
  | str s => some (.str s)
  | struct _ d _ => some (.struct d)
  | v => v.identity?.map .shared

theorem isSome_comparand? (v : Value) : v.comparand?.isSome = (!v.isNaN && !v.isAddress) := by
  cases v with
  | num n => simp [comparand?, isNaN, isAddress, Num.isSome_comparand?]
  | _ => rfl

/-- What a value is compared by tells how many fields its definition has. -/
theorem width_eq (v : Value) :
    v.width = match v.comparand? with
      | some (.struct d) => d.layout.length
      | _ => 0 := by
  cases v with
  | num n => cases hn : n.comparand? <;> simp [comparand?, width, hn]
  | _ => rfl

/-- Values are equal when they are compared by the same and so are their fields. -/
theorem equals_iff : u.equals v = true ↔ (u.comparand?.isSome = true ∧
    u.comparand? = v.comparand?) ∧ equalsAll u.fields v.fields = true := by
  cases u with
  | num m =>
    cases v with
    | num n =>
      have hinj : Function.Injective Comparand.num := fun _ _ h => Comparand.num.inj h
      rw [comparand?, comparand?, Option.isSome_map, (Option.map_injective hinj).eq_iff]
      exact Num.equals_iff.trans (and_iff_left rfl).symm
    | _ => cases hm : m.comparand? <;> simp [equals, comparand?, identity?, hm]
  | struct o d fs => cases v <;> simp [equals, comparand?, fields, identity?]
  | _ => cases v <;> simp [equals, comparand?, fields, equalsAll, identity?]

/-- Fields are equal when they are at every position that both lists have. -/
theorem equalsAll_iff {us vs : List Value} : equalsAll us vs = true ↔
    ∀ (i : Nat) (u v : Value), us[i]? = some u → vs[i]? = some v → u.equals v = true := by
  induction us generalizing vs with
  | nil => simp [equalsAll]
  | cons a us ih =>
    cases vs with
    | nil => simp [equalsAll]
    | cons b vs =>
      rw [equalsAll, Bool.and_eq_true, ih]
      constructor
      · rintro ⟨hab, h⟩ i u v hu hv
        cases i with
        | zero => simp_all
        | succ i => exact h i u v hu hv
      · intro h
        exact ⟨h 0 a b rfl rfl, fun i u v hu hv => h (i + 1) u v hu hv⟩

theorem equalsAll_self_iff {us : List Value} :
    equalsAll us us = true ↔ ∀ u ∈ us, u.equals u = true := by
  rw [equalsAll_iff]
  constructor
  · intro h u hu
    obtain ⟨i, hi⟩ := List.getElem?_of_mem hu
    exact h i u u hi hi
  · intro h i u v hu hv
    obtain rfl : u = v := Option.some.inj (hu.symm.trans hv)
    exact h u (List.mem_of_getElem? hu)

/-! ## The laws -/

theorem equals_symm (h : u.equals v = true) : v.equals u = true := by
  induction u using fields_induction generalizing v with
  | node u ih =>
    rw [equals_iff, equalsAll_iff] at h ⊢
    obtain ⟨⟨hsome, hsame⟩, hall⟩ := h
    -- The fields are smaller than the value, wherever the other list of fields ends.
    refine ⟨⟨hsame ▸ hsome, hsame.symm⟩, fun i y x hy hx => ?_⟩
    exact ih x (List.mem_of_getElem? hx) (hall i x y hx hy)

theorem equals_comm (u v : Value) : u.equals v = v.equals u :=
  Bool.eq_iff_iff.2 ⟨equals_symm, equals_symm⟩

theorem equals_trans (hu : u.Complete) (hv : v.Complete) (h : u.equals v = true)
    (h' : v.equals w = true) : u.equals w = true := by
  induction u using fields_induction generalizing v w with
  | node u ih =>
    rw [complete_iff] at hu hv
    rw [equals_iff, equalsAll_iff] at h h' ⊢
    obtain ⟨⟨hsome, hsame⟩, hall⟩ := h
    obtain ⟨⟨-, hsame'⟩, hall'⟩ := h'
    refine ⟨⟨hsome, hsame.trans hsame'⟩, fun i x z hx hz => ?_⟩
    -- The value in the middle has a field wherever the first one has.
    have hlength : u.fields.length = v.fields.length := by
      rw [hu.1, hv.1, width_eq, width_eq, hsame]
    obtain ⟨hi, -⟩ := List.getElem?_eq_some_iff.1 hx
    have hy := List.getElem?_eq_getElem (hlength ▸ hi)
    have hmem := List.mem_of_getElem? hx
    exact ih x hmem (hu.2 x hmem) (hv.2 _ (List.mem_of_getElem? hy)) (hall i x _ hx hy)
      (hall' i _ z hy hz)

/-- A value equals itself unless a NaN or an address stands in it. -/
theorem equals_self_iff (v : Value) :
    v.equals v = true ↔ ∀ w : Value, w.Occurs v → w.isNaN = false ∧ w.isAddress = false := by
  induction v using fields_induction with
  | node v ih =>
    have hhead : v.comparand?.isSome = true ↔ v.isNaN = false ∧ v.isAddress = false := by
      simp [isSome_comparand?]
    rw [equals_iff, and_iff_left rfl, hhead, equalsAll_self_iff, forall_occurs_iff]
    exact and_congr_right fun _ => forall₂_congr ih

end Value

/-! ## New instances -/

theorem StructDef.length_defaults (d : StructDef) : d.defaults.length = d.layout.length := by
  rw [defaults_eq_map, List.length_map]

mutual

theorem Ty.complete_default : ∀ t : Ty, t.default.Complete
  | .struct d => d.complete_default
  | .void | .bool | .num _ | .str | .nullable _ | .array _ | .function _ _ | .exception
  | .object => Value.complete_of_fields rfl rfl

theorem StructDef.complete_default : ∀ d : StructDef, d.default.Complete
  | .mk i n .value none fs =>
    Value.complete_iff.2 ⟨StructDef.length_defaults (.mk i n .value none fs),
      FieldDef.complete_defaults fs⟩
  | .mk i n .value (some b) fs =>
    Value.complete_iff.2 ⟨StructDef.length_defaults (.mk i n .value (some b) fs),
      List.forall_mem_append.2 ⟨b.complete_defaults, FieldDef.complete_defaults fs⟩⟩
  | .mk _ _ .reference _ _ => Value.complete_of_fields rfl rfl

theorem StructDef.complete_defaults : ∀ d : StructDef, ∀ v ∈ d.defaults, v.Complete
  | .mk _ _ _ none fs => FieldDef.complete_defaults fs
  | .mk _ _ _ (some b) fs =>
    List.forall_mem_append.2 ⟨b.complete_defaults, FieldDef.complete_defaults fs⟩

theorem FieldDef.complete_defaults :
    ∀ fs : List FieldDef, ∀ v ∈ FieldDef.defaults fs, v.Complete
  | [] => by simp [FieldDef.defaults]
  | .mk _ t :: fs =>
    List.forall_mem_cons.2 ⟨t.complete_default, FieldDef.complete_defaults fs⟩

end

/-- A new instance is complete when what it is made from is, and is no more than the layout
holds. -/
theorem Store.complete_newStruct (st : Store) {d : StructDef} {given : List Value}
    (h : given.length ≤ d.layoutSize) (hgiven : ∀ v ∈ given, v.Complete) :
    (st.newStruct d given).1.Complete := by
  cases hk : d.kind with
  | value =>
    have hnew : (st.newStruct d given).1 = .struct none d (d.fill given) := by
      simp [newStruct, hk]
    rw [hnew, Value.complete_iff]
    refine ⟨(StructDef.length_fill h).trans d.length_layout.symm, fun v hv => ?_⟩
    rcases List.mem_append.1 hv with hv | hv
    · exact hgiven v hv
    · exact d.complete_defaults v (List.mem_of_mem_drop hv)
  | reference =>
    have hnew : (st.newStruct d given).1 = .object st.objects.size d := by simp [newStruct, hk]
    rw [hnew]
    exact Value.complete_of_fields rfl rfl

/-! ## Partial equivalence -/

/-- **Equality is a partial equivalence.** It is symmetric, and transitive from values on
whose instances, at any depth of value structs, have as many fields as their definitions. A
value equals itself exactly when no NaN and no address stands in it; what arrays and objects
hold does not count. -/
theorem Value.equals_partial_equivalence (u v w : Value) (hu : u.Complete) (hv : v.Complete) :
    u.equals v = v.equals u ∧
    (u.equals v = true → v.equals w = true → u.equals w = true) ∧
    (v.equals v = true ↔ ∀ x : Value, x.Occurs v → x.isNaN = false ∧ x.isAddress = false) :=
  ⟨equals_comm u v, equals_trans hu hv, equals_self_iff v⟩

/-- Pairs of a point and an array: those whose points hold a zero are all equal, whatever the
sign, and one whose point holds a NaN differs from itself. -/
theorem Value.equals_partial_equivalence_zeros :
    let point := StructDef.mk 0 "Point" .value none [.mk "x" (.num .f64)]
    let pair := StructDef.mk 1 "Pair" .value none [.mk "p" (.struct point), .mk "a" (.array .i32)]
    let holding (x : Double) : Value :=
      .struct none pair [.struct none point [.num (.f64 x)], .array 0]
    let zero := holding ⟨0⟩
    let minus := holding ⟨0x8000000000000000⟩
    let nan := holding ⟨0x7ff8000000000000⟩
    (zero.Complete ∧ minus.Complete ∧ nan.Complete) ∧
      zero.equals minus = true ∧ minus.equals zero = true ∧ zero.equals zero = true ∧
      nan.equals nan = false := by
  intro point pair holding zero minus nan
  have hcomplete : ∀ x, (holding x).Complete := by
    intro x
    have hpoint : (struct none point [num (.f64 x)]).Complete :=
      complete_iff.2 ⟨rfl, List.forall_mem_singleton.2 (complete_of_fields rfl rfl)⟩
    exact complete_iff.2 ⟨rfl, List.forall_mem_cons.2
      ⟨hpoint, List.forall_mem_singleton.2 (complete_of_fields rfl rfl)⟩⟩
  -- What is computed is one equation; the laws give the others.
  have hequal : zero.equals minus = true := by cbv
  obtain ⟨hcomm, htrans, -⟩ :=
    equals_partial_equivalence zero minus zero (hcomplete _) (hcomplete _)
  obtain ⟨-, -, hself⟩ := equals_partial_equivalence nan nan nan (hcomplete _) (hcomplete _)
  have hback : minus.equals zero = true := hcomm ▸ hequal
  have hnan : ¬ nan.equals nan = true := by
    intro h
    have hoccurs : (num (.f64 ⟨0x7ff8000000000000⟩)).Occurs nan :=
      .field List.mem_cons_self (.field List.mem_cons_self .self)
    exact absurd (hself.1 h _ hoccurs).1 (by decide)
  exact ⟨⟨hcomplete _, hcomplete _, hcomplete _⟩, hequal, hback, htrans hequal hback,
    Bool.not_eq_true _ ▸ hnan⟩

-- An instance without its field equals two that differ.
example :
    let d := StructDef.mk 0 "Point" .value none [.mk "x" .i32]
    let short := Value.struct none d []
    let one := Value.struct none d [.i32 1]
    let two := Value.struct none d [.i32 2]
    one.equals short = true ∧ short.equals two = true ∧ one.equals two = false := by cbv

end TreeCode
