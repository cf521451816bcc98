import TreeCode.Proofs.Agree.Unit

/-!
# Units with a supplied record

A lambda may be compiled against a closure record that the caller supplies. Nothing is planned
then, so what the walk over the lambda refuses, or notes, is left to lowering: filters are not
refused. For a tame lambda that mentions no constant with identity this makes no difference.
It is compiled to the code of a single unit that reads nothing from the record, and agrees with
evaluation as any single unit does.

Main results:

* `compileWith_single` — the unit that a lambda becomes.
* `supplied_call_agrees` — **a lambda compiled against a supplied record means what it means
  when it is evaluated**, if its handlers have no filters.
-/

namespace TreeCode

open Lower

theorem compileWith_single {catalog : Catalog} {l : Lambda} {constants : List Value}
    {w w' : World} {c : BoundUnit}
    (h : compileWith catalog l constants w = .ok (.compiled c, w')) (hl : l.constants = []) :
    ∃ env s t, env.catalog = catalog ∧ l.Single env s t c := by
  obtain ⟨hcode, -, -⟩ := compileWith_ok h
  obtain ⟨_, _, hcourse, hc⟩ := Lambda.toCode_course hcode
  obtain ⟨s, t, hpro, hbody, ht⟩ := Lower.unit_ok hcourse.unit
  -- the plan of the unit is empty, as the plan of a lambda without such constants would be
  exact ⟨_, s, t, rfl, hpro, hbody, ht ▸ hcourse.unit, ht ▸ hc, Lambda.toCode_nested hcode,
    .inr hl, rfl, rfl, rfl, hl.symm, nofun⟩

/-- **Compiling against a supplied record does not change what a lambda means.** Take a tame
lambda, whose handlers have no filters, without constants that have identity, and any list of
constants. If the lambda is compiled against these, a call of the code and a call of the
lambda come to the same result: the same value or failure, in worlds, and so logs of host
calls, that differ only in the cells of variables. -/
theorem supplied_call_agrees {host : Host} {good : World → Prop} {callable : Method → Prop}
    {leeway : Leeway} (serves : host.Serves good callable leeway) {types : Nat → Ty}
    {label : Nat → Label} {l : Lambda}
    (T : l.Tame types label callable) (hl : l.constants = []) {constants : List Value}
    {w₀ w₁ : World} {c : BoundUnit}
    (hcompiled : compileWith host.catalog l constants w₀ = .ok (.compiled c, w₁))
    {w : World} {f g maxDepth : Nat} {counter : Option Nat}
    (hf : w.functions[f]? = some c.callable)
    (hg : w.functions[g]? = some (.interpreted l [] maxDepth counter))
    (hapart : ¬leeway.counted (counter.getD g)) (hw : good w) {args : List Value}
    (hargs : List.Forall₂ (fun v x => x.fits (Shape.of v.ty) = true) l.params args)
    (hdepth : w.depthAt ⟨maxDepth, counter.getD g⟩ + l.body.height ≤ maxDepth) :
    ∃ new, leeway.fresh new ∧ ∀ r, host.Returns f args w r ↔
      ∃ r', host.Returns g args w r' ∧ r = recast (w.store.cells ++ new) w.depth r' := by
  obtain ⟨env, s, t, hcat, S⟩ := compileWith_single hcompiled hl
  exact S.returns_iff T serves hcat hf hg hapart hw hargs hdepth

end TreeCode
