import Mathlib.Data.List.Infix
import TreeCode.Member
import TreeCode.World

/-!
# Layout of instances under inheritance

Counting the fields of a definition, listing them and finding one by name are three
recursions over the chain of bases. They agree: what a name resolves to is where the
listing has it. The listing of a base starts the listing of every definition derived
from it, so a position that was found on a base denotes the same field in an instance
of a derived class.

Main definitions:

* `StructDef.offset` — where the fields that a definition itself declares start.
* `StructDef.Resolves` — the most derived declaration of a name.

Main results:

* `StructDef.slotOf?_eq_some` — the lookup finds the most derived declaration.
* `StructDef.layout_prefix` — the layout of a base starts that of a derived definition.
* `Store.field_newStruct` — what a field of a new instance holds.
* `Catalog.field_position_sound` — a resolved field, in every instance of every derived
  definition.
-/

namespace TreeCode

namespace StructDef

/-- Induction along the chain of bases. -/
@[elab_as_elim]
theorem chain_induction {P : StructDef → Prop}
    (root : ∀ i n k fs, P (.mk i n k none fs))
    (derived : ∀ i n k b fs, P b → P (.mk i n k (some b) fs)) : ∀ d, P d
  | .mk i n k none fs => root i n k fs
  | .mk i n k (some b) fs => derived i n k b fs (chain_induction root derived b)

/-! ## The lineage -/

@[simp] theorem mem_lineage_self (d : StructDef) : d ∈ d.lineage := by
  obtain ⟨i, n, k, _ | b, fs⟩ := d <;> simp [lineage]

theorem inherits_iff {d e : StructDef} : d.inherits e = true ↔ e ∈ d.lineage := by
  simp [inherits]

/-- The lineage of a base ends the lineage of what derives from it. -/
theorem lineage_suffix {d e : StructDef} (h : e ∈ d.lineage) : e.lineage <:+ d.lineage := by
  induction d using chain_induction with
  | root i n k fs =>
    obtain rfl : e = .mk i n k none fs := by simpa [lineage] using h
    exact List.suffix_rfl
  | derived i n k b fs ih =>
    simp only [lineage, List.mem_cons] at h
    rcases h with rfl | h
    · exact List.suffix_rfl
    · exact (ih h).trans (List.suffix_cons _ _)

theorem inherits_refl (d : StructDef) : d.inherits d = true := inherits_iff.2 d.mem_lineage_self

/-! ## The layout -/

/-- Position of the first field that the definition itself declares: the number of
inherited ones. -/
def offset (d : StructDef) : Nat := (d.base.map layoutSize).getD 0

@[simp] theorem length_layout (d : StructDef) : d.layout.length = d.layoutSize := by
  induction d using chain_induction with
  | root i n k fs => simp [layout, layoutSize]
  | derived i n k b fs ih => simp [layout, layoutSize, ih]

/-- The own fields of a definition stand in its layout from its offset on. -/
theorem layout_getElem?_offset (d : StructDef) (j : Nat) :
    d.layout[d.offset + j]? = d.fields[j]? := by
  obtain ⟨i, n, k, _ | b, fs⟩ := d
  · simp [layout, offset, base, fields]
  · simp [layout, offset, base, fields, ← length_layout, List.getElem?_append_right]

/-- The layout of a base starts the layout of what derives from it. -/
theorem layout_prefix {d e : StructDef} (h : e ∈ d.lineage) : e.layout <+: d.layout := by
  induction d using chain_induction with
  | root i n k fs =>
    obtain rfl : e = .mk i n k none fs := by simpa [lineage] using h
    exact List.prefix_rfl
  | derived i n k b fs ih =>
    simp only [lineage, List.mem_cons] at h
    rcases h with rfl | h
    · exact List.prefix_rfl
    · exact (ih h).trans (List.prefix_append _ _)

theorem layout_getElem?_of_mem {d e : StructDef} {i : Nat} {f : FieldDef}
    (h : e ∈ d.lineage) (hf : e.layout[i]? = some f) : d.layout[i]? = some f := by
  obtain ⟨hlt, -⟩ := List.getElem?_eq_some_iff.1 hf
  obtain ⟨rest, hrest⟩ := layout_prefix h
  rw [← hrest, List.getElem?_append_left hlt, hf]

/-! ## Resolution of names -/

theorem slotIn_eq_none {name : String} {fs : List FieldDef} :
    slotIn name fs = none ↔ ∀ f ∈ fs, f.name ≠ name := by
  induction fs with
  | nil => simp [slotIn]
  | cons f fs ih => by_cases hf : f.name = name <;> simp [slotIn, hf, ih]

/-- The lookup in one definition finds the first field with the name. -/
theorem slotIn_eq_some {name : String} {fs : List FieldDef} {i : Nat} {t : Ty} :
    slotIn name fs = some (i, t) ↔
      fs[i]? = some (.mk name t) ∧ ∀ f ∈ fs.take i, f.name ≠ name := by
  induction fs generalizing i with
  | nil => simp [slotIn]
  | cons f fs ih =>
    obtain ⟨n, u⟩ := f
    by_cases hf : n = name
    · subst hf
      cases i with
      | zero => simp [slotIn, FieldDef.name, FieldDef.ty]
      | succ i => simp [slotIn, FieldDef.name]
    · cases i with
      | zero => simp [slotIn, FieldDef.name, hf]
      | succ i =>
        have hcons : slotIn name (.mk n u :: fs) = some (i + 1, t) ↔
            slotIn name fs = some (i, t) := by
          simp [slotIn, FieldDef.name, hf]
        simp [hcons, ih, FieldDef.name, hf]

/-- The most derived declaration of a name: `e` is the first of the lineage that
declares it, and `j` the first position among the own fields of `e` that has it. -/
structure Resolves (d : StructDef) (name : String) (e : StructDef) (j : Nat) (t : Ty) :
    Prop where
  lineage : ∃ above below, d.lineage = above ++ e :: below ∧
    ∀ u ∈ above, ∀ f ∈ u.fields, f.name ≠ name
  field : e.fields[j]? = some (.mk name t)
  first : ∀ f ∈ e.fields.take j, f.name ≠ name

namespace Resolves

variable {d e : StructDef} {name : String} {j : Nat} {t : Ty}

theorem own (field : d.fields[j]? = some (.mk name t))
    (first : ∀ f ∈ d.fields.take j, f.name ≠ name) : d.Resolves name d j t := by
  refine ⟨?_, field, first⟩
  obtain ⟨i, n, k, _ | b, fs⟩ := d
  · exact ⟨[], [], by simp [StructDef.lineage], by simp⟩
  · exact ⟨[], b.lineage, by simp [StructDef.lineage], by simp⟩

theorem mem_lineage (h : d.Resolves name e j t) : e ∈ d.lineage := by
  obtain ⟨above, below, hl, -⟩ := h.lineage
  simp [hl]

/-- With a base, the name is declared in the definition itself or resolves on the
base. -/
theorem derived_iff {i : Nat} {n : String} {k : StructKind} {b : StructDef}
    {fs : List FieldDef} :
    (StructDef.mk i n k (some b) fs).Resolves name e j t ↔
      (e = .mk i n k (some b) fs ∧ fs[j]? = some (.mk name t) ∧
        ∀ f ∈ fs.take j, f.name ≠ name) ∨
      ((∀ f ∈ fs, f.name ≠ name) ∧ b.Resolves name e j t) := by
  constructor
  · -- The lineage starts with the definition itself: either `e` is it, or it is above `e`.
    rintro ⟨⟨above, below, hl, habove⟩, field, first⟩
    cases above with
    | nil =>
      simp only [StructDef.lineage, List.nil_append, List.cons.injEq] at hl
      obtain ⟨rfl, -⟩ := hl
      exact .inl ⟨rfl, field, first⟩
    | cons u above =>
      simp only [StructDef.lineage, List.cons_append, List.cons.injEq] at hl
      obtain ⟨rfl, hl⟩ := hl
      exact .inr ⟨habove _ List.mem_cons_self, ⟨above, below, hl,
        fun u hu => habove u (List.mem_cons_of_mem _ hu)⟩, field, first⟩
  · rintro (⟨rfl, field, first⟩ | ⟨hnone, ⟨above, below, hl, habove⟩, field, first⟩)
    · exact own field first
    · refine ⟨⟨.mk i n k (some b) fs :: above, below, ?_, ?_⟩, field, first⟩
      · simp only [StructDef.lineage, hl, List.cons_append]
      · rw [List.forall_mem_cons]
        exact ⟨hnone, habove⟩

theorem root_iff {i : Nat} {n : String} {k : StructKind} {fs : List FieldDef} :
    (StructDef.mk i n k none fs).Resolves name e j t ↔
      e = .mk i n k none fs ∧ fs[j]? = some (.mk name t) ∧
        ∀ f ∈ fs.take j, f.name ≠ name := by
  constructor
  · intro h
    obtain rfl : e = .mk i n k none fs := by simpa [StructDef.lineage] using h.mem_lineage
    exact ⟨rfl, h.field, h.first⟩
  · rintro ⟨rfl, field, first⟩
    exact own field first

end Resolves

/-- The lookup along the chain of bases finds the most derived declaration. -/
theorem slotOf?_eq_some {d : StructDef} {name : String} {i : Nat} {t : Ty} :
    d.slotOf? name = some (i, t) ↔ ∃ e j, d.Resolves name e j t ∧ i = e.offset + j := by
  induction d using chain_induction with
  | root id n k fs => simp [slotOf?, slotIn_eq_some, Resolves.root_iff, offset, base]
  | derived id n k b fs ih =>
    simp only [slotOf?, Resolves.derived_iff]
    -- The base is asked only for names that the own fields do not have.
    cases hs : slotIn name fs with
    | none =>
      have hnone := slotIn_eq_none.1 hs
      simp only [ih]
      refine ⟨fun ⟨e, j, hr, hi⟩ => ⟨e, j, .inr ⟨hnone, hr⟩, hi⟩, ?_⟩
      rintro ⟨e, j, ⟨-, hf, -⟩ | ⟨-, hr⟩, hi⟩
      · exact absurd rfl (hnone _ (List.mem_of_getElem? hf))
      · exact ⟨e, j, hr, hi⟩
    | some p =>
      obtain ⟨j, u⟩ := p
      have hsome := slotIn_eq_some.1 hs
      constructor
      · intro h
        obtain ⟨rfl, rfl⟩ : b.layoutSize + j = i ∧ u = t := by simpa using h
        exact ⟨_, j, .inl ⟨rfl, hsome⟩, by simp [offset, base]⟩
      · rintro ⟨e, j', ⟨rfl, hf⟩ | ⟨hnone, -⟩, rfl⟩
        · have := hs.symm.trans (slotIn_eq_some.2 hf)
          simp_all [offset, base]
        · exact absurd rfl (hnone _ (List.mem_of_getElem? hsome.1))

/-- What a declaration of the lineage denotes stands in the layout. -/
theorem Resolves.layout {d e : StructDef} {name : String} {j : Nat} {t : Ty}
    (h : d.Resolves name e j t) : d.layout[e.offset + j]? = some (.mk name t) :=
  layout_getElem?_of_mem h.mem_lineage ((layout_getElem?_offset e j).trans h.field)

end StructDef

/-! ## Instances -/

theorem FieldDef.defaults_eq_map : ∀ fs : List FieldDef,
    FieldDef.defaults fs = fs.map (·.ty.default)
  | [] => by simp [FieldDef.defaults]
  | .mk _ t :: fs => by simp [FieldDef.defaults, FieldDef.defaults_eq_map fs, FieldDef.ty]

namespace StructDef

theorem defaults_eq_map (d : StructDef) : d.defaults = d.layout.map (·.ty.default) := by
  induction d using chain_induction with
  | root i n k fs => simp [defaults, layout, FieldDef.defaults_eq_map]
  | derived i n k b fs ih => simp [defaults, layout, FieldDef.defaults_eq_map, ih]

/-- A new instance has as many fields as the layout, when no more are given. -/
theorem length_fill {d : StructDef} {given : List Value} (h : given.length ≤ d.layoutSize) :
    (d.fill given).length = d.layoutSize := by
  simp only [fill, defaults_eq_map, List.length_append, List.length_drop, List.length_map,
    length_layout]
  omega

/-- A position of the layout holds the value given for it, or else the default of the
field that the layout has there. -/
theorem fill_getElem? {d : StructDef} (given : List Value) {i : Nat} {f : FieldDef}
    (h : d.layout[i]? = some f) : (d.fill given)[i]? = some (given[i]?.getD f.ty.default) := by
  rcases Nat.lt_or_ge i given.length with hi | hi
  · simp [fill, List.getElem?_append_left hi, hi]
  · have hi' : given.length + (i - given.length) = i := by omega
    simp [fill, List.getElem?_append_right hi, defaults_eq_map, hi', h,
      List.getElem?_eq_none hi]

end StructDef

/-- Reading a field of a new instance: the value given for it, or else the default of
the field that the layout has at that position. -/
theorem Store.field_newStruct (st : Store) {d : StructDef} (given : List Value) {i : Nat}
    {f : FieldDef} (h : d.layout[i]? = some f) :
    (st.newStruct d given).2.field (st.newStruct d given).1 i =
      .ok (given[i]?.getD f.ty.default) := by
  have hf := StructDef.fill_getElem? given h
  cases hk : d.kind with
  | value => simp [newStruct, hk, Store.field, fieldFrom, hf]
  | reference => simp [newStruct, hk, Store.field, fieldFrom, objectAt, hf]

namespace Catalog

/-- A name resolves to a field only through the lookup of a slot. -/
theorem slotOf?_of_memberNamed? {c : Catalog} {d owner : StructDef} {name n : String} {i : Nat}
    {t : Ty} (h : c.memberNamed? d name = some (.field owner i n t)) :
    owner = d ∧ n = name ∧ d.slotOf? name = some (i, t) := by
  unfold memberNamed? at h
  split at h
  · case h_1 index ty hs =>
    simp only [Option.some.injEq, Member.field.injEq] at h
    obtain ⟨rfl, rfl, rfl, rfl⟩ := h
    exact ⟨rfl, rfl, hs⟩
  · obtain ⟨u, -, hu⟩ := List.exists_of_findSome?_eq_some h
    simp at hu

/-- **A resolved field in every instance.** What a name resolves to on a definition is a
position of its layout, with that name and type, and the most derived declaration of the
name. The layout starts that of every derived definition, so in every new instance of
one, however many leading values are given, the position holds the value given for it or
the default of the field. -/
theorem field_position_sound (c : Catalog) (d owner : StructDef)
    (name fieldName : String) (i : Nat) (t : Ty)
    (h : c.memberNamed? d name = some (.field owner i fieldName t)) :
    (owner = d ∧ fieldName = name) ∧
    (d.layoutSize = d.layout.length ∧ i < d.layoutSize) ∧
    d.layout[i]? = some (.mk name t) ∧
    (∃ e j, d.Resolves name e j t ∧ i = e.offset + j) ∧
    ∀ d' : StructDef, d'.inherits d = true →
      d.layout <+: d'.layout ∧
      ∀ (st : Store) (given : List Value), given.length ≤ d'.layoutSize →
        (d'.fill given).length = d'.layoutSize ∧
        (st.newStruct d' given).2.field (st.newStruct d' given).1 i =
          .ok (given[i]?.getD t.default) := by
  obtain ⟨rfl, rfl, hs⟩ := slotOf?_of_memberNamed? h
  obtain ⟨e, j, hr, rfl⟩ := StructDef.slotOf?_eq_some.1 hs
  have hl := hr.layout
  obtain ⟨hlt, -⟩ := List.getElem?_eq_some_iff.1 hl
  refine ⟨⟨rfl, rfl⟩, ⟨by simp, by simpa using hlt⟩, hl, ⟨e, j, hr, rfl⟩, fun d' hd => ?_⟩
  have hmem := StructDef.inherits_iff.1 hd
  exact ⟨StructDef.layout_prefix hmem, fun st given hg => ⟨StructDef.length_fill hg,
    st.field_newStruct given (StructDef.layout_getElem?_of_mem hmem hl)⟩⟩

/-- A class that declares an inherited name again: the name resolves to the later
declaration, also in an instance of a class derived further that is given one leading
value. -/
theorem field_position_sound_shadowed :
    let top := StructDef.mk 0 "Top" .reference none [.mk "x" .i32, .mk "y" .str]
    let mid := StructDef.mk 1 "Mid" .reference (some top) [.mk "x" .bool]
    let low := StructDef.mk 2 "Low" .reference (some mid) [.mk "x" .str, .mk "z" .bool]
    Catalog.empty.memberNamed? mid "x" = some (.field mid 2 "x" .bool) ∧
      low.inherits mid = true ∧ mid.layout <+: low.layout ∧
      (({} : Store).newStruct low [.i32 7]).2.field
        (({} : Store).newStruct low [.i32 7]).1 2 = .ok (.bool false) := by
  intro top mid low
  have hm : Catalog.empty.memberNamed? mid "x" = some (.field mid 2 "x" .bool) := rfl
  have hi : low.inherits mid = true :=
    StructDef.inherits_iff.2 (List.mem_cons_of_mem _ mid.mem_lineage_self)
  obtain ⟨-, -, -, -, hall⟩ := field_position_sound Catalog.empty mid mid "x" "x" 2 .bool hm
  obtain ⟨hpre, hread⟩ := hall low hi
  exact ⟨hm, hi, hpre, (hread {} [.i32 7] (by decide)).2⟩

end Catalog

end TreeCode
