import TreeCode.Proofs.Closure.Woven
import TreeCode.Proofs.Compile.Form

/-!
# Linked worlds

A lambda is evaluated in one world, and run by machines in another one. Evaluation makes a
cell for every variable and a function for every mention of a lambda; the machines have
cells for captured variables only, and share the function of a lambda that captures nothing
between its mentions. A `Link` tells which cell and which function of the machines stand for
those of evaluation.

Main definitions:

* `Setting` — a compiled lambda, with what was made for those nested in it.
* `Host.Computes` — host functions that a caller may hand over.
* `Link`, `Link.Fits` — what stands for what, and when values do.
* `Twin` — a compiled function that stands for an evaluated one: its cells are linked to
  those that the evaluated one sees.
* `Agree` — two worlds agree as a link says.

Main results:

* `Agree.put`, `Agree.putOwn` — writes to cells that are linked, and to those that are not.
* `Agree.pushCells`, `Agree.pushOwn`, `Agree.pushFunctions` — new cells and functions.
-/

namespace TreeCode

open Draft

/-! ## Cells -/

/-- The world with another value in a cell. -/
def World.putCell (w : World) (ref : Nat) (v : Value) : World :=
  { w with store := w.store.setCell ref v }

/-- The world with one more cell. -/
def World.pushCell (w : World) (v : Value) : World := { w with store := (w.store.newCell v).2 }

namespace Store

variable {st : Store} {r k : Nat} {v : Value}

theorem cellAt_setCell (h : r < st.cells.size) :
    (st.setCell r v).cellAt k = if r = k then v else st.cellAt k := by
  simp only [cellAt, setCell, Array.getElem?_setIfInBounds, h]
  split <;> rfl

theorem cellAt_newCell_of_lt (h : k < st.cells.size) : (st.newCell v).2.cellAt k = st.cellAt k := by
  simp [cellAt, newCell, Array.getElem?_push_lt h, Array.getElem?_eq_getElem h]

theorem cellAt_newCell : (st.newCell v).2.cellAt st.cells.size = v := by
  simp [cellAt, newCell]

end Store

/-! ## Settings -/

/-- A host function that computes: on scalars it asks nothing of the run, and what it returns is
a scalar of its return type. -/
structure Host.Computes (host : Host) (id : Nat) (sig : Signature) : Prop where
  params : ∀ t ∈ sig.params, t.Scalar
  ret : sig.ret.Scalar
  done : ∀ args, List.Forall₂ Typing.bare.Fits args sig.params →
    ∃ result receiver, host.native id args = .done result receiver ∧
      ∀ v, result = .ok v → Typing.bare.Fits v sig.ret

namespace Closure

/-- A woven lambda that was compiled, with the lambdas nested in it. -/
structure Setting where
  host : Host
  /-- The depth to which lambdas are evaluated, and the count of it that they share. -/
  gauge : Gauge
  types : Nat → Ty
  root : Lambda
  units : Array UnitPlan
  forms : Array NestedForm
  /-- The world that compiling left. -/
  world : World
  tells : root.Tells
  woven : root.Woven types
  tallied : Survey.Tallied root units
  formed : ∀ (k : Nat) form, forms[k]? = some form → ∃ u code values, units[k]? = some u ∧
    u.Yields host.catalog units forms code values ∧ form.Stands world u code values

/-- The function that evaluation makes of a lambda, with the variables that are visible. -/
def Setting.closure (Z : Setting) (l : Lambda) (captured : List (Nat × Nat)) : Callable :=
  .interpreted l captured Z.gauge.max (some Z.gauge.counter)

/-! ## Links -/

/-- What stands for what: the cells of the machines for cells of evaluation, with the types of
their variables, and compiled functions for evaluated ones, with their signatures. Cells of
evaluation from `bound` on are not made yet. -/
structure Link where
  cells : Nat → Option (Nat × Ty)
  functions : Nat → Option (Nat × Signature)
  bound : Nat

namespace Link

/-- Links grow: what is made stays as it is. -/
structure Le (a b : Link) : Prop where
  bound : a.bound ≤ b.bound
  cells : ∀ r < a.bound, b.cells r = a.cells r
  functions : ∀ f p, a.functions f = some p → b.functions f = some p

theorem Le.refl (a : Link) : a.Le a := ⟨Nat.le_refl _, fun _ _ => rfl, fun _ _ h => h⟩

theorem Le.trans {a b c : Link} (h : a.Le b) (h' : b.Le c) : a.Le c where
  bound := Nat.le_trans h.bound h'.bound
  cells r hr := (h'.cells r (Nat.lt_of_lt_of_le hr h.bound)).trans (h.cells r hr)
  functions f p hf := h'.functions f p (h.functions f p hf)

/-- Two values are the same to what works on scalars and functions. -/
inductive Same (a : Link) : Value → Value → Prop
  | plain {v : Value} (h : v.identity? = none) : Same a v v
  | function {f f' : Nat} {sig : Signature} (h : a.functions f = some (f', sig)) :
    Same a (.function f sig) (.function f' sig)

/-- Two values of a type stand for each other. -/
def Fits (a : Link) (t : Ty) (v v' : Value) : Prop := t = .void ∨ a.Same v v' ∧ v.Sits t

variable {a b : Link} {t u : Ty} {v v' : Value}

theorem Same.mono (h : a.Same v v') (hab : a.Le b) : b.Same v v' := by
  cases h with
  | plain h => exact .plain h
  | function h => exact .function (hab.functions _ _ h)

theorem Same.shape (h : a.Same v v') (s : Shape) : v'.fits s = v.fits s := by
  cases h with
  | plain _ => rfl
  | function _ => cases s <;> rfl

namespace Fits

theorem mono (h : a.Fits t v v') (hab : a.Le b) : b.Fits t v v' :=
  h.imp_right fun h => ⟨h.1.mono hab, h.2⟩

/-- Scalars stand for themselves. -/
theorem scalar_iff (ht : t.Scalar) : a.Fits t v v' ↔ v = v' ∧ Typing.bare.Fits v t := by
  constructor
  · rintro (rfl | ⟨hsame, hv⟩)
    · cases ht
    · rw [Value.Sits.scalar_iff ht] at hv
      cases hsame with
      | plain _ => exact ⟨rfl, hv⟩
      | function _ =>
        rcases ht.fits_cases hv with ⟨h, -⟩ | ⟨⟨_, h⟩, -⟩ | ⟨_, h, -⟩ | ⟨⟨_, h⟩, -⟩ <;> cases h
  · rintro ⟨rfl, hv⟩
    exact .inr ⟨.plain (ht.literal hv).1, (Value.Sits.scalar_iff ht).2 hv⟩

theorem bool_iff : a.Fits .bool v v' ↔ ∃ b, v = .bool b ∧ v' = .bool b := by
  rw [scalar_iff .bool]
  constructor
  · rintro ⟨rfl, hv⟩
    obtain ⟨b, rfl⟩ := hv.bool_inv
    exact ⟨b, rfl, rfl⟩
  · rintro ⟨b, rfl, rfl⟩
    exact ⟨rfl, .bool b⟩

/-- A function stands for one of the same signature, and null for null. -/
theorem function_cases {ps : List Ty} (h : a.Fits (.function ps t) v v') :
    v = .null ∧ v' = .null ∨ ∃ f f', v = .function f ⟨ps, t⟩ ∧ v' = .function f' ⟨ps, t⟩ ∧
      a.functions f = some (f', ⟨ps, t⟩) := by
  rcases h with h | ⟨hsame, rfl | ⟨f, rfl⟩⟩
  · cases h
  · cases hsame
    exact .inl ⟨rfl, rfl⟩
  · cases hsame with
    | plain h => cases h
    | function h => exact .inr ⟨f, _, rfl, rfl, h⟩

theorem accepts (h : a.Fits u v v') (ht : t.Woven) (hu : u.isVoid = false)
    (hacc : t.accepts u = true) : a.Fits t v v' := by
  rcases h with rfl | ⟨hsame, hv⟩
  · cases hu
  · exact .inr ⟨hsame, hv.of_accepts ht hu hacc⟩

/-- What stands for a value has the shape of its type. -/
theorem shape (h : a.Fits t v v') (ht : t.Woven) (hvoid : t.isVoid = false) :
    v'.fits (Shape.of t) = true := by
  rcases h with rfl | ⟨hsame, hv⟩
  · cases hvoid
  · rw [hsame.shape]
    exact hv.shape ht hvoid

theorem default (ht : t.Woven) : a.Fits t t.default t.default := by
  refine .inr ⟨.plain ?_, .default ht⟩
  cases ht with
  | void | object | function => rfl
  | scalar hs => exact (hs.literal (.default hs.plain)).1

end Fits

/-- The link with one more cell that no cell of the machines stands for. -/
def own (a : Link) : Link := { a with bound := a.bound + 1 }

/-- The link with one more cell, for which `r'` stands. -/
def pair (a : Link) (r' : Nat) (t : Ty) : Link :=
  { a with cells := fun r => if r = a.bound then some (r', t) else a.cells r, bound := a.bound + 1 }

/-- The link with `f'` for the function `f`. -/
def twin (a : Link) (f f' : Nat) (sig : Signature) : Link :=
  { a with functions := fun g => if g = f then some (f', sig) else a.functions g }

theorem le_own (a : Link) : a.Le a.own := ⟨Nat.le_succ _, fun _ _ => rfl, fun _ _ h => h⟩

theorem le_pair (a : Link) (r' : Nat) (t : Ty) : a.Le (a.pair r' t) where
  bound := Nat.le_succ _
  cells _ hr := if_neg (Nat.ne_of_lt hr)
  functions _ _ h := h

end Link

/-! ## Worlds -/

/-- A compiled function stands for an evaluated one. For each variable that the unit captures,
the compiled one has the cell that is linked to the one that the evaluated one sees. -/
structure Twin (Z : Setting) (a : Link) (w w' : World) (f f' : Nat) (u : UnitPlan)
    (captured : List (Nat × Nat)) (code : Code) (record : ClosureRecord) : Prop where
  nests : Z.root.Nests u.lambda
  evaluated : ∃ counter : Option Nat, counter.getD f = Z.gauge.counter ∧
    w.functions[f]? = some (.interpreted u.lambda captured Z.gauge.max counter)
  compiled : w'.functions[f']? = some (.compiled code record)
  yields : u.Yields Z.host.catalog Z.units Z.forms code record.values
  cells : ∀ (i : Nat) v, u.plan.captures[i]? = some v → ∃ r r', (Scopes.ofList captured).get? v.id = some r ∧
    record.cells[i]? = some r' ∧ a.cells r = some (r', Z.types v.id)

/-- Some function stands for the one of evaluation: a compiled one, or the same host function. -/
def HasTwin (Z : Setting) (a : Link) (w w' : World) (f f' : Nat) (sig : Signature) : Prop :=
  (∃ u captured code record, u.lambda.signature = sig ∧ Twin Z a w w' f f' u captured code record) ∨
    ∃ id, Z.host.Computes id sig ∧ w.functions[f]? = some (.native id sig) ∧
      w'.functions[f']? = some (.native id sig)

/-- The world of evaluation and that of the machines agree. -/
structure Agree (Z : Setting) (a : Link) (w w' : World) : Prop where
  bound : a.bound = w.store.cells.size
  stamps : w'.store.stamps = w.store.stamps
  made : Z.world.Extends w'
  cells : ∀ {r r' t}, a.cells r = some (r', t) → r < a.bound ∧ r' < w'.store.cells.size ∧
    a.Fits t (w.store.cellAt r) (w'.store.cellAt r')
  apart : ∀ {r₁ r₂ r' t₁ t₂}, a.cells r₁ = some (r', t₁) → a.cells r₂ = some (r', t₂) → r₁ = r₂
  functions : ∀ {f f' sig}, a.functions f = some (f', sig) → HasTwin Z a w w' f f' sig

/-- Cells of evaluation that no cell stands for in a link keep their values. -/
def Link.Keeps (a : Link) (w₀ w : World) : Prop :=
  ∀ r < a.bound, a.cells r = none → w.store.cells[r]? = w₀.store.cells[r]?

namespace Twin

variable {Z : Setting} {a b : Link} {w w' w₁ w₁' : World} {f f' : Nat} {u : UnitPlan}
  {captured : List (Nat × Nat)} {code : Code} {record : ClosureRecord}

/-- Functions stay as they are. -/
theorem mono (h : Twin Z a w w' f f' u captured code record) (hw : Grows w.functions w₁.functions)
    (hw' : Grows w'.functions w₁'.functions)
    (hcells : ∀ r p, a.cells r = some p → b.cells r = some p) :
    Twin Z b w₁ w₁' f f' u captured code record where
  nests := h.nests
  evaluated := h.evaluated.imp fun _ hf => ⟨hf.1, hw _ _ hf.2⟩
  compiled := hw' _ _ h.compiled
  yields := h.yields
  cells i v hi := by
    obtain ⟨r, r', hr, hr', hlink⟩ := h.cells i v hi
    exact ⟨r, r', hr, hr', hcells _ _ hlink⟩

end Twin

theorem HasTwin.mono {Z : Setting} {a b : Link} {w w' w₁ w₁' : World} {f f' : Nat} {sig : Signature}
    (h : HasTwin Z a w w' f f' sig) (hw : Grows w.functions w₁.functions)
    (hw' : Grows w'.functions w₁'.functions)
    (hcells : ∀ r p, a.cells r = some p → b.cells r = some p) : HasTwin Z b w₁ w₁' f f' sig := by
  rcases h with ⟨u, captured, code, record, hsig, htwin⟩ | ⟨id, hcomputes, hf, hf'⟩
  · exact .inl ⟨u, captured, code, record, hsig, htwin.mono hw hw' hcells⟩
  · exact .inr ⟨id, hcomputes, hw _ _ hf, hw' _ _ hf'⟩

namespace Agree

variable {Z : Setting} {a b : Link} {w w' w₁ w₁' : World} {r r' : Nat} {t : Ty} {x x' : Value}

theorem depth (h : Agree Z a w w') (d : Depths) : Agree Z a { w with depth := d } w' :=
  { h with functions := fun hf => (h.functions hf).mono (.refl _) (.refl _) fun _ _ h => h }

theorem stamped (h : Agree Z a w w') (n : Nat) : Agree Z a (w.stamped n) (w'.stamped n) where
  bound := h.bound
  stamps := rfl
  made := ⟨h.made.functions, h.made.units⟩
  cells := h.cells
  apart := h.apart
  functions hf := (h.functions hf).mono (.refl _) (.refl _) fun _ _ h => h

/-- Both runs write to cells that stand for each other. -/
theorem put (h : Agree Z a w w') (hr : a.cells r = some (r', t)) (hx : a.Fits t x x') :
    Agree Z a (w.putCell r x) (w'.putCell r' x') where
  bound := by simpa [World.putCell, Store.setCell] using h.bound
  stamps := h.stamps
  made := ⟨h.made.functions, h.made.units⟩
  cells {k k' t'} hk := by
    obtain ⟨hlt, hlt', -⟩ := h.cells hr
    obtain ⟨hklt, hklt', hfits⟩ := h.cells hk
    refine ⟨hklt, by simpa [World.putCell, Store.setCell] using hklt', ?_⟩
    simp only [World.putCell, Store.cellAt_setCell (h.bound ▸ hlt), Store.cellAt_setCell hlt']
    by_cases hrk : r = k
    · subst hrk
      obtain ⟨rfl, rfl⟩ : r' = k' ∧ t = t' := by simpa [hr] using hk
      simpa using hx
    · -- Different cells are linked to different ones.
      rw [if_neg hrk, if_neg fun heq => hrk (h.apart hr (heq ▸ hk))]
      exact hfits
  apart := h.apart
  functions hf := (h.functions hf).mono (.refl _) (.refl _) fun _ _ h => h

/-- Evaluation writes to a cell for which none of the machines stands. -/
theorem putOwn (h : Agree Z a w w') (hr : a.cells r = none) : Agree Z a (w.putCell r x) w' where
  bound := by simpa [World.putCell, Store.setCell] using h.bound
  stamps := h.stamps
  made := h.made
  cells {k k' t'} hk := by
    obtain ⟨hklt, hklt', hfits⟩ := h.cells hk
    refine ⟨hklt, hklt', ?_⟩
    have hne : r ≠ k := fun heq => by simp [heq, hk] at hr
    have hsame : (w.putCell r x).store.cellAt k = w.store.cellAt k := by
      simp [World.putCell, Store.cellAt, Store.setCell, Array.getElem?_setIfInBounds_ne hne]
    rwa [hsame]
  apart := h.apart
  functions hf := (h.functions hf).mono (.refl _) (.refl _) fun _ _ h => h

/-- Evaluation makes a cell of its own. -/
theorem pushOwn (h : Agree Z a w w') (x : Value) : Agree Z a.own (w.pushCell x) w' where
  bound := by simp [Link.own, World.pushCell, Store.newCell, h.bound]
  stamps := h.stamps
  made := h.made
  cells {k k' t'} hk := by
    obtain ⟨hklt, hklt', hfits⟩ := h.cells hk
    refine ⟨Nat.lt_succ_of_lt hklt, hklt', ?_⟩
    simp only [World.pushCell, Store.cellAt_newCell_of_lt (h.bound ▸ hklt)]
    exact hfits.mono a.le_own
  apart := h.apart
  functions hf := (h.functions hf).mono (.refl _) (.refl _) fun _ _ h => h

/-- Cells that are not made yet are not linked. -/
theorem unlinked (h : Agree Z a w w') (hr : a.bound ≤ r) : a.cells r = none := by
  cases hc : a.cells r with
  | none => rfl
  | some p =>
    obtain ⟨r', t⟩ := p
    exact absurd (h.cells hc).1 (Nat.not_lt.2 hr)

/-- Both runs make a cell. -/
theorem pushCells (h : Agree Z a w w') (hx : a.Fits t x x') :
    Agree Z (a.pair w'.store.cells.size t) (w.pushCell x) (w'.pushCell x') := by
  have hle := a.le_pair w'.store.cells.size t
  have hold : ∀ k p, a.cells k = some p → (a.pair w'.store.cells.size t).cells k = some p := by
    rintro k ⟨k', t'⟩ hk
    exact (hle.cells k (h.cells hk).1).trans hk
  refine ⟨?_, h.stamps, ⟨h.made.functions, h.made.units⟩, ?_, ?_, ?_⟩
  · simp [Link.pair, World.pushCell, Store.newCell, h.bound]
  · -- A link is either the new one or one of those before.
    intro k k' t' hk
    simp only [Link.pair] at hk
    split at hk
    · rename_i heq
      obtain ⟨rfl, rfl⟩ : w'.store.cells.size = k' ∧ t = t' := by simpa using hk
      refine ⟨heq ▸ Nat.lt_succ_self _, by simp [World.pushCell, Store.newCell], ?_⟩
      rw [heq, h.bound]
      simp only [World.pushCell, Store.cellAt_newCell]
      exact hx.mono hle
    · obtain ⟨hklt, hklt', hfits⟩ := h.cells hk
      refine ⟨Nat.lt_succ_of_lt hklt, by simpa [World.pushCell, Store.newCell] using Nat.lt_succ_of_lt hklt', ?_⟩
      simp only [World.pushCell, Store.cellAt_newCell_of_lt (h.bound ▸ hklt),
        Store.cellAt_newCell_of_lt hklt']
      exact hfits.mono hle
  · -- The new cell of the machines is none that was linked before.
    intro k₁ k₂ k' t₁ t₂ hk₁ hk₂
    simp only [Link.pair] at hk₁ hk₂
    split at hk₁ <;> split at hk₂
    · simp_all
    · obtain ⟨rfl, -⟩ : w'.store.cells.size = k' ∧ t = t₁ := by simpa using hk₁
      exact absurd (h.cells hk₂).2.1 (Nat.lt_irrefl _)
    · obtain ⟨rfl, -⟩ : w'.store.cells.size = k' ∧ t = t₂ := by simpa using hk₂
      exact absurd (h.cells hk₁).2.1 (Nat.lt_irrefl _)
    · exact h.apart hk₁ hk₂
  · exact fun hf => (h.functions hf).mono (.refl _) (.refl _) hold

/-- Functions that are not made yet are not linked. -/
theorem function_lt (h : Agree Z a w w') {f : Nat} {p : Nat × Signature}
    (hf : a.functions f = some p) : f < w.functions.size := by
  obtain ⟨f', sig⟩ := p
  rcases h.functions hf with ⟨u, captured, code, record, -, htwin⟩ | ⟨id, -, hentry, -⟩
  · obtain ⟨_, -, hentry⟩ := htwin.evaluated
    exact (Array.getElem?_eq_some_iff.1 hentry).1
  · exact (Array.getElem?_eq_some_iff.1 hentry).1

theorem le_twin (h : Agree Z a w w') (f' : Nat) (sig : Signature) :
    a.Le (a.twin w.functions.size f' sig) where
  bound := Nat.le_refl _
  cells _ _ := rfl
  functions _ _ hf := (if_neg (Nat.ne_of_lt (h.function_lt hf))).trans hf

/-- The world of evaluation and that of the machines, with more functions. -/
theorem extend (h : Agree Z a w w') (hstore : w₁.store = w.store) (hstore' : w₁'.store = w'.store)
    (hw : Grows w.functions w₁.functions) (hw' : w'.Extends w₁') : Agree Z a w₁ w₁' where
  bound := hstore ▸ h.bound
  stamps := by rw [hstore, hstore']; exact h.stamps
  made := h.made.trans hw'
  cells hr := by rw [hstore, hstore']; exact h.cells hr
  apart := h.apart
  functions hf := (h.functions hf).mono hw hw'.functions fun _ _ h => h

/-- A new function of evaluation is linked to one of the machines. -/
theorem pushFunctions {u : UnitPlan} {captured : List (Nat × Nat)} {code : Code}
    {record : ClosureRecord} {f' : Nat} (h : Agree Z a w w') (hw' : w'.Extends w₁')
    (hstore' : w₁'.store = w'.store)
    (htwin : Twin Z a (w.newFunction (Z.closure u.lambda captured)).2 w₁'
      w.functions.size f' u captured code record) :
    Agree Z (a.twin w.functions.size f' u.lambda.signature)
      (w.newFunction (Z.closure u.lambda captured)).2 w₁' := by
  have hgrow : Agree Z a (w.newFunction (Z.closure u.lambda captured)).2 w₁' :=
    h.extend rfl hstore' (Grows.push _ _) hw'
  have hle := h.le_twin f' u.lambda.signature
  refine { hgrow with cells := fun hr => ?_, functions := fun {f g sig} hf => ?_ }
  · obtain ⟨hlt, hlt', hfits⟩ := hgrow.cells hr
    exact ⟨hlt, hlt', hfits.mono hle⟩
  · simp only [Link.twin] at hf
    split at hf
    · rename_i heq
      obtain ⟨rfl, rfl⟩ : f' = g ∧ u.lambda.signature = sig := by simpa using hf
      rw [heq]
      exact .inl ⟨u, captured, code, record, rfl, htwin.mono (.refl _) (.refl _) fun _ _ h => h⟩
    · exact (hgrow.functions hf).mono (.refl _) (.refl _) fun _ _ h => h

end Agree

namespace Link.Keeps

variable {Z : Setting} {a b : Link} {w₀ w w₁ w' : World} {r : Nat} {v : Value}

theorem refl (a : Link) (w : World) : a.Keeps w w := fun _ _ _ => rfl

theorem trans (h : a.Keeps w₀ w) (h' : b.Keeps w w₁) (hab : a.Le b) : a.Keeps w₀ w₁ :=
  fun r hr hnone => (h' r (Nat.lt_of_lt_of_le hr hab.bound) ((hab.cells r hr).trans hnone)).trans
    (h r hr hnone)

theorem same (h : a.Keeps w₀ w) (hcells : w₁.store.cells = w.store.cells) : a.Keeps w₀ w₁ :=
  fun r hr hnone => by rw [hcells]; exact h r hr hnone

theorem putCell (h : a.Keeps w₀ w) (hr : r < a.bound → a.cells r ≠ none) :
    a.Keeps w₀ (w.putCell r v) := fun k hk hnone => by
  have hne : r ≠ k := fun heq => hr (heq ▸ hk) (heq ▸ hnone)
  rw [← h k hk hnone]
  simp [World.putCell, Store.setCell, Array.getElem?_setIfInBounds_ne hne]

theorem pushCell (h : a.Keeps w₀ w) (hbound : a.bound ≤ w.store.cells.size) :
    a.Keeps w₀ (w.pushCell v) := fun k hk hnone => by
  rw [← h k hk hnone]
  simp only [World.pushCell, Store.newCell]
  rw [Array.getElem?_push_lt (Nat.lt_of_lt_of_le hk hbound),
    Array.getElem?_eq_getElem (Nat.lt_of_lt_of_le hk hbound)]

end Link.Keeps

end Closure

end TreeCode
