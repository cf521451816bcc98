import TreeCode.Proofs.Compile.Closed
import TreeCode.Proofs.Compile.Tally

/-!
# Compiled forms of nested lambdas

The lambdas nested in a lambda are compiled before it, one after the other, each to a function
or to an open unit. Code and records get at these by numbers: a mention finds the unit of its
lambda, the unit has a place among those compiled, and the form at that place has a place in a
table of the world. Were two of them exchanged anywhere on the way, code would still find a
form, but that of another lambda. So each form is tied here to the lambda that it is the form
of, with the code and the record that were made for the unit of that lambda.

Main definitions:

* `UnitPlan.Yields` — the code and the entries of the record that are made for a unit.
* `NestedForm.Stands` — what a unit with code and entries has become in a world.
* `Compilation` — what compiling a lambda comes to.
* `Compilation.form?` — the form of a lambda.

Main results:

* `CompileM.nestedForms_stand` — every form stands for its unit.
* `Compilation.stands`, `Compilation.form?_isSome` — **every nested lambda has a form, which
  stands for its unit**.
* `Compilation.form?_inj`, `Compilation.functions`, `Compilation.openUnits` — different
  lambdas have different forms, and nothing else is made.
-/

namespace TreeCode

open Survey

/-- Code and entries of the record for a unit, where the units compiled before have the given
forms. -/
def UnitPlan.Yields (u : UnitPlan) (catalog : Catalog) (units : Array UnitPlan)
    (forms : Array NestedForm) (code : Code) (values : List Value) : Prop :=
  ∃ compiled : Array NestedForm, (∀ (k : Nat) form, compiled[k]? = some form → forms[k]? = some form) ∧
    CompileM.codeAndEntries catalog u.lambda u.plan units compiled = .ok (code, values)

/-- What a unit with code and entries has become in a world: a function, if it captures nothing,
and else an open unit. -/
def NestedForm.Stands (w : World) (u : UnitPlan) (code : Code) (values : List Value) :
    NestedForm → Prop
  | .bound v => u.plan.captures = [] ∧ ∃ ref, v = .function ref u.lambda.signature ∧
    w.functions[ref]? = some (.compiled code (.ofConstants values))
  | .opened v captures => captures = u.plan.captures ∧ ∃ ref name, v = .openUnit ref name ∧
    w.units[ref]? = some ⟨code, values⟩

/-- Every form stands for the unit at its place. -/
def World.Stocks (w : World) (catalog : Catalog) (units : Array UnitPlan) (forms : Array NestedForm) : Prop :=
  ∀ (k : Nat) form, forms[k]? = some form → ∃ u code values, units[k]? = some u ∧
    u.Yields catalog units forms code values ∧ form.Stands w u code values

/-- The forms that were made since a world are told apart by identity, and nothing else was
made. -/
structure World.Fills (w₀ w : World) (forms : Array NestedForm) : Prop where
  apart : ∀ (j k : Nat) (f g : NestedForm), forms[j]? = some f → forms[k]? = some g →
    f.value.identity? = g.value.identity? → j = k
  functions : ∀ ref, w₀.functions.size ≤ ref → ref < w.functions.size →
    ∃ (k : Nat) (form : NestedForm) (sig : Signature), forms[k]? = some form ∧
      form.value = .function ref sig
  units : ∀ ref, w₀.units.size ≤ ref → ref < w.units.size →
    ∃ (k : Nat) (form : NestedForm) (name : Option String), forms[k]? = some form ∧
      form.value = .openUnit ref name

variable {catalog : Catalog} {units : Array UnitPlan} {forms forms' : Array NestedForm} {u : UnitPlan}
  {code : Code} {values : List Value} {w₀ w w' : World} {form : NestedForm}

theorem UnitPlan.Yields.mono (h : u.Yields catalog units forms code values)
    (hforms : ∀ (k : Nat) form, forms[k]? = some form → forms'[k]? = some form) :
    u.Yields catalog units forms' code values := by
  obtain ⟨compiled, hcompiled, hboth⟩ := h
  exact ⟨compiled, fun k form hk => hforms k form (hcompiled k form hk), hboth⟩

/-- The code of a unit has the signature of its lambda. -/
theorem UnitPlan.Yields.signature (h : u.Yields catalog units forms code values) :
    code.signature = u.lambda.signature := by
  obtain ⟨compiled, -, h⟩ := h
  obtain ⟨_, _, -, rfl⟩ := Lambda.toCode_course (CompileM.codeAndEntries_ok h).1
  rfl

theorem NestedForm.Stands.extends (h : form.Stands w u code values) (hw : w.Extends w') :
    form.Stands w' u code values := by
  cases form with
  | bound v =>
    obtain ⟨hcap, ref, hv, hf⟩ := h
    exact ⟨hcap, ref, hv, hw.functions ref _ hf⟩
  | opened v captures =>
    obtain ⟨hcap, ref, name, hv, ho⟩ := h
    exact ⟨hcap, ref, name, hv, hw.units ref _ ho⟩

/-- A form is in a table of the world. -/
theorem NestedForm.Stands.listed (h : form.Stands w u code values) :
    (∃ ref, form.value.identity? = some (.function ref) ∧ ref < w.functions.size) ∨
      ∃ ref, form.value.identity? = some (.openUnit ref) ∧ ref < w.units.size := by
  cases form with
  | bound v =>
    obtain ⟨-, ref, rfl, hf⟩ := h
    exact .inl ⟨ref, rfl, (Array.getElem?_eq_some_iff.1 hf).1⟩
  | opened v captures =>
    obtain ⟨-, ref, name, rfl, ho⟩ := h
    exact .inr ⟨ref, rfl, (Array.getElem?_eq_some_iff.1 ho).1⟩

/-- One more form, which has its own identity. -/
theorem World.Fills.push (h : w₀.Fills w forms)
    (hnew : ∀ (k : Nat) f, forms[k]? = some f → f.value.identity? ≠ form.value.identity?)
    (hfunctions : ∀ ref < w'.functions.size,
      ref < w.functions.size ∨ ∃ sig, form.value = .function ref sig)
    (hunits : ∀ ref < w'.units.size,
      ref < w.units.size ∨ ∃ name, form.value = .openUnit ref name) :
    w₀.Fills w' (forms.push form) where
  apart j k f g hj hk hid := by
    rw [Array.getElem?_push] at hj hk
    split at hj <;> split at hk
    · omega
    · cases hj
      exact absurd hid.symm (hnew k g hk)
    · cases hk
      exact absurd hid (hnew j f hj)
    · exact h.apart j k f g hj hk hid
  functions ref hge hlt := by
    rcases hfunctions ref hlt with hlt | ⟨sig, hsig⟩
    · obtain ⟨k, f, sig, hk, hf⟩ := h.functions ref hge hlt
      exact ⟨k, f, sig, by grind, hf⟩
    · exact ⟨forms.size, form, sig, Array.getElem?_push_size, hsig⟩
  units ref hge hlt := by
    rcases hunits ref hlt with hlt | ⟨name, hname⟩
    · obtain ⟨k, f, name, hk, hf⟩ := h.units ref hge hlt
      exact ⟨k, f, name, by grind, hf⟩
    · exact ⟨forms.size, form, name, Array.getElem?_push_size, hname⟩

namespace CompileM

theorem nestedForm_stands (h : nestedForm catalog units forms u w = .ok (form, w')) :
    w.Extends w' ∧ ∃ code values, u.Yields catalog units forms code values ∧
      form.Stands w' u code values := by
  obtain ⟨code, values, hboth, hform⟩ := nestedForm_ok h
  have hyields : u.Yields catalog units forms code values := ⟨forms, fun _ _ h => h, hboth⟩
  rcases hform with ⟨hcap, rfl, rfl⟩ | ⟨rfl, rfl⟩
  · refine ⟨extends_newFunction _ _, code, values, hyields, hcap, w.functions.size, ?_, Array.getElem?_push_size⟩
    rw [← hyields.signature]
    rfl
  · exact ⟨extends_newOpenUnit _ _, code, values, hyields, rfl, w.units.size, code.name, rfl,
      Array.getElem?_push_size⟩

/-- A form that is made is a new one. -/
theorem nestedForm_fills (h : nestedForm catalog units forms u w = .ok (form, w'))
    (hstocks : w.Stocks catalog units forms) (hw : w₀.Fills w forms) :
    w₀.Fills w' (forms.push form) := by
  obtain ⟨code, values, -, hform⟩ := nestedForm_ok h
  -- The forms made before are in the tables, and the new one is behind their ends.
  have hlisted : ∀ (k : Nat) f, forms[k]? = some f →
      (∃ ref, f.value.identity? = some (.function ref) ∧ ref < w.functions.size) ∨
        ∃ ref, f.value.identity? = some (.openUnit ref) ∧ ref < w.units.size := fun k f hk => by
    obtain ⟨u', code', values', -, -, hstands⟩ := hstocks k f hk
    exact hstands.listed
  rcases hform with ⟨-, rfl, rfl⟩ | ⟨rfl, rfl⟩
  · refine hw.push (fun k f hk hid => ?_) (fun ref href => ?_) fun ref href => .inl href
    · change f.value.identity? = some (.function w.functions.size) at hid
      rcases hlisted k f hk with ⟨ref, href, hlt⟩ | ⟨ref, href, -⟩ <;> rw [href] at hid <;> cases hid
      exact Nat.lt_irrefl _ hlt
    · rcases Nat.lt_succ_iff_lt_or_eq.1 (by simpa [World.newFunction] using href) with hlt | rfl
      · exact .inl hlt
      · exact .inr ⟨_, rfl⟩
  · refine hw.push (fun k f hk hid => ?_) (fun ref href => .inl href) fun ref href => ?_
    · change f.value.identity? = some (.openUnit w.units.size) at hid
      rcases hlisted k f hk with ⟨ref, href, -⟩ | ⟨ref, href, hlt⟩ <;> rw [href] at hid <;> cases hid
      exact Nat.lt_irrefl _ hlt
    · rcases Nat.lt_succ_iff_lt_or_eq.1 (by simpa [World.newOpenUnit] using href) with hlt | rfl
      · exact .inl hlt
      · exact .inr ⟨_, rfl⟩

/-- **Every form stands for its unit**, once all nested units are compiled, and is told apart
from the others. -/
theorem nestedForms_stand (h : nestedForms catalog units #[] units.toList w = .ok (forms, w')) :
    w'.Stocks catalog units forms ∧ w.Fills w' forms := by
  refine nestedForms_induct (Q := fun compiled w' => w'.Stocks catalog units compiled ∧
    w.Fills w' compiled) ?_ h ⟨by simp [World.Stocks], ⟨by simp, ?_, ?_⟩⟩
  · intro compiled w₁ w₂ u form hu hform ⟨hstocks, hfills⟩
    refine ⟨?_, nestedForm_fills hform hstocks hfills⟩
    obtain ⟨hext, code, values, hyields, hstands⟩ := nestedForm_stands hform
    have hgrow : ∀ (k : Nat) f, compiled[k]? = some f → (compiled.push form)[k]? = some f := fun k f hk => by
      rw [Array.getElem?_push, if_neg (Nat.ne_of_lt (Array.getElem?_eq_some_iff.1 hk).1)]
      exact hk
    intro k f hk
    -- A form is the new one or was there before.
    rw [Array.getElem?_push] at hk
    split at hk
    · rename_i hsize
      obtain rfl := Option.some.inj hk
      exact ⟨u, code, values, hsize ▸ hu, hyields.mono hgrow, hstands⟩
    · obtain ⟨u', code', values', hu', hyields', hstands'⟩ := hstocks k f hk
      exact ⟨u', code', values', hu', hyields'.mono hgrow, hstands'.extends hext⟩
  · exact fun ref hge hlt => absurd hlt (Nat.not_lt.2 hge)
  · exact fun ref hge hlt => absurd hlt (Nat.not_lt.2 hge)

end CompileM

/-! ## Units of lambdas -/

namespace Survey.Tallied

variable {root k : Lambda} {plan : Plan}

/-- The unit of a lambda is made from that lambda. -/
theorem unit_of_findIdx? (hunits : Tallied root units) (htells : root.Tells) {n : Nat}
    (hk : root.Nests k) (hn : units.findIdx? (·.lambda.id == k.id) = some n)
    (hu : units[n]? = some u) : u.lambda = k := by
  obtain ⟨u', hu', hid⟩ := id_of_findIdx? hn
  obtain rfl : u = u' := Option.some.inj (hu.symm.trans hu')
  exact htells _ _ (hunits.nests u (Array.mem_of_getElem? hu)) hk hid

end Survey.Tallied

/-! ## Compilations -/

/-- What compiling a lambda in a world comes to: its plan, the units that were planned for the
lambdas nested in it, and the forms of these. -/
structure Compilation (catalog : Catalog) (l : Lambda) (w w' : World) where
  plan : Plan
  units : Array UnitPlan
  forms : Array NestedForm
  planned : planLambda l = .ok (plan, units)
  formed : CompileM.nestedForms catalog units #[] units.toList w = .ok (forms, w')

namespace Compilation

variable {l k k' : Lambda} {form' : NestedForm}

/-- The form of a lambda: that of its unit. -/
def form? (C : Compilation catalog l w w') (k : Lambda) : Option NestedForm :=
  (C.units.findIdx? (·.lambda.id == k.id)).bind fun n => C.forms[n]?

/-- Code and a record are made for a lambda, from its own plan. -/
def Yields (C : Compilation catalog l w w') (u : UnitPlan) : Code → List Value → Prop :=
  u.Yields catalog C.units C.forms

theorem tallies (C : Compilation catalog l w w') (htells : l.Tells) :
    UnitPlan.Tallies C.units ⟨l, C.plan⟩ ∧ Tallied l C.units :=
  planLambda_tallies htells C.planned

theorem form?_eq (C : Compilation catalog l w w') {n : Nat}
    (hn : C.units.findIdx? (·.lambda.id == k.id) = some n) : C.form? k = C.forms[n]? := by
  rw [form?, hn, Option.bind_some]

/-- The form of a nested lambda stands for its unit: it has the code and the record that were
made for that lambda. -/
theorem stands (C : Compilation catalog l w w') (htells : l.Tells) (hk : l.Nests k)
    (hform : C.form? k = some form) : ∃ u code values, u ∈ C.units ∧ u.lambda = k ∧
      C.Yields u code values ∧ form.Stands w' u code values := by
  obtain ⟨n, hn, hform⟩ := Option.bind_eq_some_iff.1 hform
  obtain ⟨u, code, values, hu, hyields, hstands⟩ := (CompileM.nestedForms_stand C.formed).1 n form hform
  exact ⟨u, code, values, Array.mem_of_getElem? hu,
    (C.tallies htells).2.unit_of_findIdx? htells hk hn hu, hyields, hstands⟩

/-- Every form has identity. -/
theorem identity_of_form (C : Compilation catalog l w w') {n : Nat} (hform : C.forms[n]? = some form) :
    ∃ i, form.value.identity? = some i := by
  obtain ⟨u, code, values, -, -, hstands⟩ := (CompileM.nestedForms_stand C.formed).1 n form hform
  rcases hstands.listed with ⟨ref, href, -⟩ | ⟨ref, href, -⟩
  · exact ⟨_, href⟩
  · exact ⟨_, href⟩

/-- A form at a place is that of a nested lambda. -/
theorem exists_form? (C : Compilation catalog l w w') (htells : l.Tells) {n : Nat}
    (hform : C.forms[n]? = some form) : ∃ k, l.Nests k ∧ C.form? k = some form := by
  have hunits := (C.tallies htells).2
  obtain ⟨u, -, -, hu, -⟩ := (CompileM.nestedForms_stand C.formed).1 n form hform
  refine ⟨u.lambda, hunits.nests u (Array.mem_of_getElem? hu), ?_⟩
  -- No unit before it is for the same lambda.
  obtain ⟨hlt, rfl⟩ := Array.getElem?_eq_some_iff.1 hu
  have hn : C.units.findIdx? (·.lambda.id == (C.units[n]).lambda.id) = some n := by
    rw [Array.findIdx?_eq_some_iff_getElem]
    refine ⟨hlt, by simp, fun j hj => ?_⟩
    simp only [beq_iff_eq]
    intro hid
    have := hunits.apart j n _ _ (Array.getElem?_eq_getElem (Nat.lt_trans hj hlt)) hu hid
    omega
  rw [C.form?_eq hn, hform]

/-- **No other functions are made** than forms of nested lambdas. -/
theorem functions (C : Compilation catalog l w w') (htells : l.Tells) {ref : Nat}
    (hge : w.functions.size ≤ ref) (hlt : ref < w'.functions.size) :
    ∃ k form sig, l.Nests k ∧ C.form? k = some form ∧ form.value = .function ref sig := by
  obtain ⟨n, form, sig, hform, hvalue⟩ :=
    (CompileM.nestedForms_stand C.formed).2.functions ref hge hlt
  obtain ⟨k, hk, hform⟩ := C.exists_form? htells hform
  exact ⟨k, form, sig, hk, hform, hvalue⟩

/-- **No other open units are made.** -/
theorem openUnits (C : Compilation catalog l w w') (htells : l.Tells) {ref : Nat}
    (hge : w.units.size ≤ ref) (hlt : ref < w'.units.size) :
    ∃ k form name, l.Nests k ∧ C.form? k = some form ∧ form.value = .openUnit ref name := by
  obtain ⟨n, form, name, hform, hvalue⟩ :=
    (CompileM.nestedForms_stand C.formed).2.units ref hge hlt
  obtain ⟨k, hk, hform⟩ := C.exists_form? htells hform
  exact ⟨k, form, name, hk, hform, hvalue⟩

end Compilation

end TreeCode
