import TreeCode.Proofs.Eval.Depth
import TreeCode.Proofs.Expr.Filter
import TreeCode.Proofs.Value.Bound
import TreeCode.World

/-!
# Two runs side by side

One program is run twice, and the second run may have a higher bound on its length,
higher limits on the depth of evaluation, or another log to begin with. A `Likeness` says
which of these differ, and at what depths of evaluation both runs are. Everything a
program can see is the same in both runs, so the second does what the first does until
the first fails for want of what the second has more of.

Main definitions:

* `Mirrors` — a second action does what a first one does, until the first one stops.
* `Likeness`, `Likeness.Worlds` — how two runs differ, and what their worlds share.

Main results:

* `Mirrors.bind` — actions that mirror others do so one after the other.
* `RunM.field_mirrors`, `RunM.newFunction_mirrors`, … — the actions on the world.
-/

namespace TreeCode

/-! ## Mirrored actions -/

section Mirrors

variable {ε σ α β : Type} {stops stops' : ε → Prop} {R : σ → σ → Prop}

/-- Results of two actions: the same, in states that `R` relates, unless the first is a
failure that `stops`. -/
inductive Mirrored (stops : ε → Prop) (R : σ → σ → Prop) :
    EStateM.Result ε σ α → EStateM.Result ε σ α → Prop where
  | ok {v : α} {s s' : σ} (h : R s s') : Mirrored stops R (.ok v s) (.ok v s')
  | error {e : ε} {s s' : σ} (h : R s s') : Mirrored stops R (.error e s) (.error e s')
  | stopped {e : ε} {s : σ} {r : EStateM.Result ε σ α} (h : stops e) :
    Mirrored stops R (.error e s) r

theorem Mirrored.imp {R' : σ → σ → Prop} {r r' : EStateM.Result ε σ α}
    (h : Mirrored stops R r r') (hstops : ∀ e, stops e → stops' e) (hR : ∀ s s', R s s' → R' s s') :
    Mirrored stops' R' r r' := by
  cases h with
  | ok hs => exact .ok (hR _ _ hs)
  | error hs => exact .error (hR _ _ hs)
  | stopped he => exact .stopped (hstops _ he)

/-- The action `x'` does what `x` does, until `x` stops. -/
def Mirrors (stops : ε → Prop) (R : σ → σ → Prop) (x x' : EStateM ε σ α) : Prop :=
  ∀ s s', R s s' → Mirrored stops R (x s) (x' s')

namespace Mirrors

theorem pure (v : α) : Mirrors stops R (pure v) (pure v) := fun _ _ h => .ok h

theorem throw (e : ε) : Mirrors stops R (throw e : EStateM ε σ α) (throw e) :=
  fun _ _ h => .error h

theorem stop {e : ε} {x : EStateM ε σ α} (he : stops e) : Mirrors stops R (MonadExcept.throw e) x :=
  fun _ _ _ => .stopped he

theorem mono {x x' : EStateM ε σ α} (h : Mirrors stops R x x') (hle : ∀ e, stops e → stops' e) :
    Mirrors stops' R x x' := fun s s' hs => (h s s' hs).imp hle fun _ _ => id

/-- Actions one after the other; what follows may count on what the first one gives. -/
theorem bind_of {P : α → Prop} {x x' : EStateM ε σ α} {f f' : α → EStateM ε σ β}
    (hx : Mirrors stops R x x') (hP : ∀ s v s', x s = .ok v s' → P v)
    (hf : ∀ v, P v → Mirrors stops R (f v) (f' v)) : Mirrors stops R (x >>= f) (x' >>= f') := by
  intro s s' hs
  have hr := hx s s' hs
  have hP := hP s
  show Mirrored stops R (EStateM.bind x f s) (EStateM.bind x' f' s')
  unfold EStateM.bind
  generalize x s = r, x' s' = r' at hr hP ⊢
  cases hr with
  | ok hs => exact hf _ (hP _ _ rfl) _ _ hs
  | error hs => exact .error hs
  | stopped he => exact .stopped he

theorem bind {x x' : EStateM ε σ α} {f f' : α → EStateM ε σ β} (hx : Mirrors stops R x x')
    (hf : ∀ v, Mirrors stops R (f v) (f' v)) : Mirrors stops R (x >>= f) (x' >>= f') :=
  hx.bind_of (P := fun _ => True) (fun _ _ _ _ => trivial) fun v _ => hf v

theorem map {x x' : EStateM ε σ α} (hx : Mirrors stops R x x') (f : α → β) :
    Mirrors stops R (f <$> x) (f <$> x') :=
  hx.bind fun _ => .pure _

theorem ite {b : Prop} [Decidable b] {x x' y y' : EStateM ε σ α} (hx : Mirrors stops R x x')
    (hy : Mirrors stops R y y') :
    Mirrors stops R (if b then x else y) (if b then x' else y') := by
  split
  · exact hx
  · exact hy

/-- What is done with the state is mirrored when it is for related states. -/
theorem get_bind {f f' : σ → EStateM ε σ β} (h : ∀ s s', R s s' → Mirrors stops R (f s) (f' s')) :
    Mirrors stops R (get >>= f) (get >>= f') := fun s s' hs => h s s' hs s s' hs

theorem modify {f f' : σ → σ} (h : ∀ s s', R s s' → R (f s) (f' s')) :
    Mirrors stops R (modify f) (modify f') := fun s s' hs => .ok (h s s' hs)

theorem set {s s' : σ} (h : R s s') : Mirrors stops R (set s) (set s') := fun _ _ _ => .ok h

end Mirrors

end Mirrors

/-! ## Likenesses -/

/-- In what the second of two runs may differ from the first. -/
structure Likeness where
  /-- The bound on its length may be higher. -/
  bounds : Prop
  /-- Limits on the depth of evaluation may be higher. -/
  limits : Prop
  /-- A run with higher limits may be longer. -/
  bounds_of_limits : limits → bounds
  /-- Lines that the log of the first run begins with. -/
  before : Array String
  /-- Lines that the log of the second run begins with. -/
  before' : Array String
  /-- The depths that both runs have got to. -/
  depth : Depths

namespace Likeness

variable (L : Likeness)

/-- The likeness of two runs that have got to other depths. -/
def atDepth (d : Depths) : Likeness := { L with depth := d }

/-- The failures for want of what the second run has more of. -/
def stops : Fault → Prop
  | .outOfFuel => L.bounds
  | .tooDeep .. => L.limits
  | _ => False

/-- Bounds on the length of the two runs. -/
def Bound (n k : Nat) : Prop := n = k ∨ L.bounds ∧ n ≤ k

/-- Limits on the depth of evaluation in the two runs. -/
def Limit (m m' : Nat) : Prop := m = m' ∨ L.limits ∧ m ≤ m'

/-- Depths of evaluation that are counted for one function. -/
structure Gauges (g g' : Gauge) : Prop where
  max : L.Limit g.max g'.max
  counter : g'.counter = g.counter

/-- No filter of the tree hides that a limit was met. -/
def Clear (e : Expr) : Prop := L.limits → e.Unfiltered

/-- Functions of the two runs. -/
inductive Callables : Callable → Callable → Prop where
  | interpreted {l : Lambda} {captured : List (Nat × Nat)} {m m' : Nat} {counter : Option Nat}
    (limit : L.Limit m m') (clear : L.Clear l.body) :
    Callables (.interpreted l captured m counter) (.interpreted l captured m' counter)
  | compiled {code : Code} {record : ClosureRecord} :
    Callables (.compiled code record) (.compiled code record)
  | native {id : Nat} {sig : Signature} : Callables (.native id sig) (.native id sig)

/-- The tables of functions of the two runs. -/
structure Tables (fs fs' : Array Callable) : Prop where
  size_eq : fs'.size = fs.size
  entry : ∀ i : Nat, Option.Rel L.Callables fs[i]? fs'[i]?

/-- The worlds of the two runs. -/
structure Worlds (w w' : World) : Prop where
  store : w'.store = w.store
  functions : L.Tables w.functions w'.functions
  units : w'.units = w.units
  log : ∃ added, w.log = L.before ++ added ∧ w'.log = L.before' ++ added
  depth : w.depth = L.depth
  depth' : w'.depth = L.depth

variable {L}

@[simp] theorem stops_outOfFuel : L.stops .outOfFuel ↔ L.bounds := .rfl

@[simp] theorem stops_tooDeep {d m : Nat} : L.stops (.tooDeep d m) ↔ L.limits := .rfl

theorem stops_cases {f : Fault} (h : L.stops f) :
    f = .outOfFuel ∧ L.bounds ∨ (∃ d m, f = .tooDeep d m) ∧ L.limits := by
  cases f with
  | outOfFuel => exact .inl ⟨rfl, h⟩
  | tooDeep d m => exact .inr ⟨⟨d, m, rfl⟩, h⟩
  | _ => exact h.elim

theorem Bound.refl (n : Nat) : L.Bound n n := .inl rfl

theorem Bound.pred {n k : Nat} (h : L.Bound (n + 1) k) : ∃ j, k = j + 1 ∧ L.Bound n j := by
  rcases h with rfl | ⟨hb, hle⟩
  · exact ⟨n, rfl, .refl n⟩
  · exact ⟨k - 1, by omega, .inr ⟨hb, by omega⟩⟩

theorem Bound.zero {k : Nat} (h : L.Bound 0 k) : k = 0 ∨ L.bounds :=
  h.imp Eq.symm (·.1)

/-- An action that is cut off mirrors one that has a higher bound. -/
theorem Bound.cut {ε σ α : Type} {stops : ε → Prop} {R : σ → σ → Prop} {e : ε} {k : Nat}
    {x : Nat → EStateM ε σ α} (h : L.Bound 0 k) (hx : x 0 = throw e) (he : L.bounds → stops e) :
    Mirrors stops R (x 0) (x k) := by
  rcases h.zero with rfl | hb
  · rw [hx]
    exact .throw e
  · rw [hx]
    exact .stop (he hb)

theorem Clear.child {e d : Expr} (h : L.Clear e) (hd : d ∈ e.children) : L.Clear d :=
  fun hl => (h hl).child hd

theorem Callables.signature {f f' : Callable} (h : L.Callables f f') :
    f'.signature = f.signature := by
  cases h <;> rfl

theorem Tables.push {fs fs' : Array Callable} (h : L.Tables fs fs') {f f' : Callable}
    (hf : L.Callables f f') : L.Tables (fs.push f) (fs'.push f') := by
  refine ⟨by simp [h.size_eq], fun i => ?_⟩
  rw [Array.getElem?_push, Array.getElem?_push, h.size_eq]
  split
  · exact .some hf
  · exact h.entry i

/-- Which functions and tables are alike does not depend on the depths. -/
theorem Callables.atDepth {f f' : Callable} (h : L.Callables f f') (d : Depths) :
    (L.atDepth d).Callables f f' := by
  cases h with
  | interpreted limit clear => exact .interpreted limit clear
  | compiled => exact .compiled
  | native => exact .native

theorem Tables.atDepth {fs fs' : Array Callable} (h : L.Tables fs fs') (d : Depths) :
    (L.atDepth d).Tables fs fs' := by
  refine ⟨h.size_eq, fun i => ?_⟩
  have hi := h.entry i
  generalize fs[i]? = o, fs'[i]? = o' at hi ⊢
  cases hi with
  | none => exact .none
  | some hf => exact .some (hf.atDepth d)

namespace Worlds

variable {w w' : World}

theorem withStore (h : L.Worlds w w') (st : Store) :
    L.Worlds { w with store := st } { w' with store := st } :=
  ⟨rfl, h.functions, h.units, h.log, h.depth, h.depth'⟩

theorem depthAt (h : L.Worlds w w') {g g' : Gauge} (hg : L.Gauges g g') :
    w'.depthAt g' = w.depthAt g := by
  rw [World.depthAt, World.depthAt, hg.counter, h.depth, h.depth']

theorem atDepth (h : L.Worlds w w') {g g' : Gauge} (hg : L.Gauges g g') {n : Nat} {d : Depths}
    (hd : L.depth.set g.counter n = d) :
    (L.atDepth d).Worlds (w.atDepth g n) (w'.atDepth g' n) := by
  refine ⟨h.store, h.functions.atDepth _, h.units, h.log, ?_, ?_⟩
  · show w.depth.set g.counter n = d
    rw [h.depth, hd]
  · show w'.depth.set g'.counter n = d
    rw [hg.counter, h.depth', hd]

theorem pushLine (h : L.Worlds w w') (line : String) :
    L.Worlds { w with log := w.log.push line } { w' with log := w'.log.push line } := by
  obtain ⟨added, hlog, hlog'⟩ := h.log
  refine ⟨h.store, h.functions, h.units, ⟨added.push line, ?_, ?_⟩, h.depth, h.depth'⟩
  · show w.log.push line = _
    rw [hlog, Array.append_push]
  · show w'.log.push line = _
    rw [hlog', Array.append_push]

theorem pushFunction (h : L.Worlds w w') {f f' : Callable} (hf : L.Callables f f') :
    L.Worlds { w with functions := w.functions.push f }
      { w' with functions := w'.functions.push f' } :=
  ⟨h.store, h.functions.push hf, h.units, h.log, h.depth, h.depth'⟩

end Worlds

/-! ## Limits that are the same -/

section Same

variable (hlimits : ¬L.limits)
include hlimits

theorem callables_iff {f f' : Callable} : L.Callables f f' ↔ f' = f := by
  constructor
  · intro h
    cases h with
    | interpreted limit _ =>
      obtain rfl := limit.resolve_right fun h => hlimits h.1
      rfl
    | compiled => rfl
    | native => rfl
  · rintro rfl
    cases f' with
    | interpreted l captured m counter => exact .interpreted (.inl rfl) fun h => absurd h hlimits
    | compiled code record => exact .compiled
    | native id sig => exact .native

theorem tables_iff {fs fs' : Array Callable} : L.Tables fs fs' ↔ fs' = fs := by
  constructor
  · intro h
    refine Array.ext_getElem? fun i => ?_
    have hf := h.entry i
    generalize fs[i]? = o, fs'[i]? = o' at hf ⊢
    cases hf with
    | none => rfl
    | some hf => rw [(callables_iff hlimits).1 hf]
  · rintro rfl
    refine ⟨rfl, fun i => ?_⟩
    cases fs'[i]? with
    | none => exact .none
    | some f => exact .some ((callables_iff hlimits).2 rfl)

/-- When limits are the same, worlds differ only in what their logs begin with. -/
theorem worlds_iff {w w' : World} :
    L.Worlds w w' ↔ w.depth = L.depth ∧
      ∃ added, w.log = L.before ++ added ∧ w' = { w with log := L.before' ++ added } := by
  constructor
  · intro h
    obtain ⟨store, functions, units, log, depth⟩ := w
    obtain ⟨store', functions', units', log', depth'⟩ := w'
    obtain ⟨rfl, hfs, rfl, ⟨added, rfl, rfl⟩, rfl, rfl⟩ := h
    obtain rfl := (tables_iff hlimits).1 hfs
    exact ⟨rfl, added, rfl, rfl⟩
  · rintro ⟨hdepth, added, hlog, rfl⟩
    exact ⟨rfl, (tables_iff hlimits).2 rfl, rfl, ⟨added, hlog, rfl⟩, hdepth, hdepth⟩

end Same

end Likeness

/-! ## Actions on the world -/

namespace RunM

open Likeness

variable {α : Type} {L : Likeness} {stops : Fault → Prop}

theorem readStore_mirrors (f : Store → α) :
    Mirrors stops L.Worlds (readStore f) (readStore f) := by
  intro w w' h
  simp only [readStore, h.store]
  exact .ok h

theorem withStore_mirrors (f : Store → α × Store) :
    Mirrors stops L.Worlds (withStore f) (withStore f) := by
  intro w w' h
  simp only [withStore, h.store]
  exact .ok (h.withStore _)

theorem setStore_mirrors (f : Store → Store) :
    Mirrors stops L.Worlds (setStore f) (setStore f) := withStore_mirrors _

theorem raise_mirrors (e : Exception) :
    Mirrors stops L.Worlds (raise e : RunM α) (raise e) := by
  intro w w' h
  simp only [raise, h.store]
  exact .error (h.withStore _)

theorem ofOp_mirrors (x : Except OpError α) : Mirrors stops L.Worlds (ofOp x) (ofOp x) := by
  cases x with
  | ok v => exact .pure v
  | error e =>
    cases e with
    | raises e => exact raise_mirrors e
    | defect d => exact .throw _
    | outOfTable => exact .throw _
    | outOfFuel => exact .throw _

theorem newFunction_mirrors {f f' : Callable} (hf : L.Callables f f') :
    Mirrors stops L.Worlds (newFunction f) (newFunction f') := by
  intro w w' h
  simp only [newFunction, World.newFunction, h.functions.size_eq, hf.signature]
  exact .ok (h.pushFunction hf)

theorem newStruct_mirrors (d : StructDef) (given : List Value) :
    Mirrors stops L.Worlds (newStruct d given) (newStruct d given) := withStore_mirrors _

theorem newCell_mirrors (v : Value) : Mirrors stops L.Worlds (newCell v) (newCell v) :=
  withStore_mirrors _

theorem newArray_mirrors (items : Array Value) :
    Mirrors stops L.Worlds (newArray items) (newArray items) := withStore_mirrors _

theorem readCell_mirrors (ref : Nat) : Mirrors stops L.Worlds (readCell ref) (readCell ref) :=
  readStore_mirrors _

theorem writeCell_mirrors (ref : Nat) (v : Value) :
    Mirrors stops L.Worlds (writeCell ref v) (writeCell ref v) := setStore_mirrors _

theorem field_mirrors (v : Value) (i : Nat) :
    Mirrors stops L.Worlds (field v i) (field v i) :=
  (readStore_mirrors _).bind ofOp_mirrors

theorem setField_mirrors (v : Value) (i : Nat) (x : Value) :
    Mirrors stops L.Worlds (setField v i x) (setField v i x) :=
  (readStore_mirrors _).bind fun r => (ofOp_mirrors r).bind fun ⟨_, _⟩ =>
    (setStore_mirrors _).bind fun _ => .pure _

theorem element_mirrors (a index : Value) :
    Mirrors stops L.Worlds (element a index) (element a index) :=
  (readStore_mirrors _).bind fun r => (ofOp_mirrors r).bind fun ⟨_, _⟩ => readStore_mirrors _

theorem setElement_mirrors (a index x : Value) :
    Mirrors stops L.Worlds (setElement a index x) (setElement a index x) :=
  (readStore_mirrors _).bind fun r => (ofOp_mirrors r).bind fun ⟨_, _⟩ => setStore_mirrors _

theorem newArrayOf_mirrors (v length : Value) :
    Mirrors stops L.Worlds (newArrayOf v length) (newArrayOf v length) :=
  (ofOp_mirrors _).bind fun _ => newArray_mirrors _

theorem arrayLength_mirrors (a : Value) :
    Mirrors stops L.Worlds (arrayLength a) (arrayLength a) :=
  (readStore_mirrors _).bind fun r => (ofOp_mirrors r).bind fun _ => .pure _

theorem requireArity_mirrors (expected got : Nat) :
    Mirrors stops L.Worlds (requireArity expected got) (requireArity expected got) :=
  Mirrors.ite (.pure _) (.throw _)

variable {n k : Nat}

/-- Only a text that meets the bound can differ. -/
theorem describe_mirrors (hle : L.Bound n k) (hcut : L.bounds → stops .outOfFuel) (v : Value) :
    Mirrors stops L.Worlds (describe n v) (describe k v) := by
  intro w w' h
  simp only [describe, readStore, bind, EStateM.bind, h.store]
  rcases hle with rfl | ⟨hb, hle⟩
  · cases w.store.detailed n v with
    | none => exact .error h
    | some text => exact .ok h
  · cases htext : w.store.detailed n v with
    | none => exact .stopped (hcut hb)
    | some text =>
      rw [Store.detailed_of_le hle htext]
      exact .ok h

/-- Only the text of a failed conversion can differ. -/
theorem cast_mirrors (hle : L.Bound n k) (hcut : L.bounds → stops .outOfFuel) (v : Value)
    (t u : Ty) :
    Mirrors stops L.Worlds (do ofOp (← readStore fun st => Operator.cast st n v t u))
      (do ofOp (← readStore fun st => Operator.cast st k v t u)) := by
  intro w w' h
  have hrun : ∀ j (w : World), (do ofOp (← readStore fun st => Operator.cast st j v t u) : RunM Value) w =
      ofOp (Operator.cast w.store j v t u) w := fun _ _ => rfl
  rw [hrun, hrun, h.store]
  rcases hle with rfl | ⟨hb, hle⟩
  · exact ofOp_mirrors _ w w' h
  · rcases Operator.cast_of_le (s := w.store) hle v t u with hc | hc
    · rw [hc]
      exact .stopped (hcut hb)
    · rw [hc]
      exact ofOp_mirrors _ w w' h

end RunM

end TreeCode
