import TreeCode.Proofs.Compile.Form
import TreeCode.Proofs.Host.Receiver
import TreeCode.Proofs.Lower.Occurrence

/-!
# Closure records hold what code loads

The record of a unit lists the identity constants of its lambda's own body and then the
compiled forms of the lambdas mentioned there. The plan gives each entry its place, the
prologue moves entries that are mentioned more than once into slots, and the code loads
them from there or from the record. Whatever the way, each occurrence whose value is used
has an instruction of its own, which pushes the constant, or the form of that very lambda.

Main definitions:

* `Occurrence.value?` — what an occurrence stands for.
* `Compilation.Recorded` — the record of a unit holds what its code loads.
* `Lambda.TellsLabels` — ids tell labels apart.

Main results:

* `Draft.Emissions.loads` — **each occurrence is pushed at a position of its own**.
* `compileLambda_recorded` — **the records of a compiled lambda, and of every lambda nested
  in it, hold exactly what the code loads**.
-/

namespace TreeCode

open Lower Draft Survey

/-- What an occurrence stands for in compiled code: the constant itself, or the form of the
lambda. -/
def Occurrence.value? {catalog : Catalog} {l : Lambda} {w w' : World}
    (C : Compilation catalog l w w') : Occurrence → Option Value
  | .constant v => some v
  | .lambda k => (C.form? k).map NestedForm.value

/-- Code pushes an occurrence at a position: it loads an entry of the record, from there or from
the slot of the entry, and so pushes the constant, or the form of the lambda. -/
def Compilation.PushesAt {catalog : Catalog} {l : Lambda} {w w' : World}
    (C : Compilation catalog l w w') (code : Code) (values : List Value) (p : Nat)
    (o : Occurrence) : Prop :=
  ∃ v i j v', o.value? C = some v ∧ v.identity? = some i ∧ code.LoadsEntry p j ∧
    values[j]? = some v' ∧ v'.identity? = some i ∧ code.Pushes values p (·.identity? = some i)

/-- The record of a lambda holds what its code loads: the constants that the lambda mentions,
then the forms of the lambdas that it mentions. Each occurrence whose value is used is pushed
at a position of its own. -/
structure Compilation.Recorded {catalog : Catalog} {l : Lambda} {w w' : World}
    (C : Compilation catalog l w w') (k : Lambda) (code : Code) (values : List Value) : Prop where
  entries : ∃ forms, values = k.constants ++ forms ∧
    List.Forall₂ (fun k v => (Occurrence.lambda k).value? C = some v) k.mentioned forms
  pushes : ∃ ps : List Nat, ps.Pairwise (· < ·) ∧
    List.Forall₂ (C.PushesAt code values) ps k.pushed

/-- The label that is mentioned. -/
def Mention.label? : Mention → Option Label
  | .label l | .place l => some l
  | _ => none

/-- Ids tell apart the labels that a lambda mentions, and those that one nested in it does. -/
def Lambda.TellsLabels (l : Lambda) : Prop := ∀ k, l.Nests k → ∀ m ∈ k.mentions,
  ∀ m' ∈ k.mentions, ∀ a b, m.label? = some a → m'.label? = some b → a.id = b.id → a = b

/-- Jumps to the label with an id carry no value. -/
def Lambda.voidLabel (l : Lambda) (id : Nat) : Bool :=
  l.mentions.any fun m => m.label?.any fun a => a.id == id && a.ty.isVoid

theorem Lambda.TellsLabels.voidLabel {l k : Lambda} (h : l.TellsLabels) (hk : l.Nests k)
    {m : Mention} {a : Label} (hm : m ∈ k.mentions) (ha : m.label? = some a) :
    k.voidLabel a.id = a.ty.isVoid := by
  rw [Bool.eq_iff_iff, Lambda.voidLabel, List.any_eq_true]
  constructor
  · rintro ⟨m', hm', hany⟩
    cases hb : m'.label? with
    | none => simp [hb] at hany
    | some b =>
      obtain ⟨hid, hvoid⟩ : b.id = a.id ∧ b.ty.isVoid = true := by simpa [hb] using hany
      rwa [h k hk m hm m' hm' a b ha hb hid.symm]
  · exact fun hvoid => ⟨m, hm, by simp [ha, hvoid]⟩

/-! ## Where occurrences are pushed -/

section Emissions

variable {env : LowerEnv} {void : Nat → Bool} {s t : Draft} {os : List Occurrence}

/-- The entry of the record that the code for an occurrence loads. -/
def Occurrence.place? (env : LowerEnv) : Occurrence → Option Nat
  | .constant v => env.plan.constantPlace? v
  | .lambda l => ((env.units.findIdx? (·.lambda.id == l.id)).bind env.plan.nestedPlace?).map
    (env.plan.constants.length + ·)

/-- The code for an occurrence begins by loading its entry of the record. -/
theorem Occurrence.push_loads {o : Occurrence} {f : Usage} (hsup : env.supplied = none)
    (hplanned : o.Planned env) (hused : f.discarded = false)
    (h : o.push f env s = .ok ((), t)) :
    ∃ j x, o.place? env = some j ∧ s.Loads j x ∧ t.instrs[s.instrs.size]? = some x := by
  have hlast : ∀ x : Instr, (s.emitted x).instrs[s.instrs.size]? = some x := fun _ =>
    Array.getElem?_push_size
  cases o with
  | constant v =>
    obtain ⟨hid, hplace⟩ := hplanned
    obtain ⟨i, hi⟩ := Option.isSome_iff_exists.1 hid
    obtain ⟨j, hj⟩ := Option.isSome_iff_exists.1 hplace
    simp only [Occurrence.push, pushConstant, hused, hi, Option.isNone_some, Bool.false_eq_true,
      if_false, Lower.read_bind, hsup, hj] at h
    obtain ⟨x, hload, rfl⟩ := pushEntry_ok h
    exact ⟨j, x, hj, hload, hlast x⟩
  | lambda l =>
    obtain ⟨-, ⟨hd, -⟩ | ⟨-, unit, j, form, x, hunit, hplace, -, hload, hcode⟩⟩ := pushLambda_cases h
    · rw [hused] at hd
      cases hd
    refine ⟨env.plan.constants.length + j, x, by simp [Occurrence.place?, hunit, hplace], hload, ?_⟩
    rcases hcode with ⟨v, -, rfl⟩ | ⟨v, captures, is, s₁, -, hcells, rfl⟩
    · exact hlast x
    · -- The cells are pushed behind the open unit.
      have hcells' : (s.emitted x).Retains (fun _ => false) s₁ := Retaining.loose.cellLoads hcells
      have hrest : s₁.Retains (fun _ => false) ((s₁.emittedAll is).emitted (.curry is.length)) := by
        have hall : ∀ (is : List Instr) (s : Draft), s.Retains (fun _ => false) (s.emittedAll is) := by
          intro is
          induction is with
          | nil => exact .refl
          | cons i is ih => exact fun s => (Retains.emitted s i).trans (ih (s.emitted i))
        exact (hall is s₁).trans (.emitted _ _)
      exact (hcells'.trans hrest).instrs _ _ (hlast x) (Instr.target?_of_isStraight hload.isStraight)

/-- **Each occurrence is pushed by code at a position of its own**, one behind the other. -/
theorem Draft.Emissions.loads (hsup : env.supplied = none) (h : Emissions env void s os t) :
    ∃ ps : List Nat, ps.Pairwise (· < ·) ∧ List.Forall₂ (fun p o => s.instrs.size ≤ p ∧
      o.Planned env ∧ ∃ j x, o.place? env = some j ∧ t.Loads j x ∧ t.instrs[p]? = some x) ps os := by
  simp only [List.forall₂_and_left]
  induction h with
  | rest _ => exact ⟨[], .nil, by simp, .nil⟩
  | @push s s₁ s₂ t o f os h hplanned hused hpush hrest ih =>
    obtain ⟨ps, hsorted, hle, hloads⟩ := ih
    obtain ⟨j, x, hplace, hload, hx⟩ := Occurrence.push_loads hsup hplanned hused hpush
    have hlt : s₁.instrs.size < s₂.instrs.size := (Array.getElem?_eq_some_iff.1 hx).1
    -- The slots of entries are those that the prologue chose.
    have hhoisted : t.hoisted = s₁.hoisted :=
      (Emissions.push (.refl s₁) hplanned hused hpush hrest).retains.hoisted
    refine ⟨s₁.instrs.size :: ps, List.pairwise_cons.2 ⟨fun p hp => ?_, hsorted⟩,
      List.forall_mem_cons.2 ⟨h.size_le, fun p hp => ?_⟩, .cons ⟨hplanned, j, x, hplace, ?_, ?_⟩ hloads⟩
    · exact Nat.lt_of_lt_of_le hlt (hle p hp)
    · exact Nat.le_trans h.size_le (Nat.le_of_lt (Nat.lt_of_lt_of_le hlt (hle p hp)))
    · rwa [Loads, hhoisted]
    · exact hrest.retains.instrs _ _ hx (Instr.target?_of_isStraight hload.isStraight)

end Emissions

/-! ## The body of a lambda -/

section Body

variable {l : Lambda} {env : LowerEnv} {void : Nat → Bool} {s t : Draft}

/-- The body of a lambda is lowered behind the prologue. -/
theorem Lambda.Course.body (h : l.Course env s t) : ∃ t₀,
    l.body.part.emit { discarded := l.ret.isVoid } env s = .ok ((), t₀) ∧
      ∀ void, t₀.Retains void t := by
  have hunit := h.unit
  unfold Lower.unit at hunit
  obtain ⟨_, s₁, h₁, hunit⟩ := bind_ok.1 hunit
  obtain ⟨_, s₂, h₂, hunit⟩ := bind_ok.1 hunit
  have heq := (bind_ok.2 ⟨_, s₁, h₁, h₂⟩).symm.trans h.prologue
  obtain rfl : s₂ = s := by simpa using heq
  -- Between the body and the return nothing happens that would move code.
  have hend : ∀ {t₁ : Draft}, (do
      emit .ret
      checkPlaced (← get).labels.toList) env t₁ = .ok ((), t.emitted .ret) →
        ∀ void, t₁.Retains void t := fun {t₁} hend void => by
    rw [Lower.emit_bind, Lower.get_bind] at hend
    obtain ⟨heq, -⟩ := checkPlaced_ok hend
    have hinstrs : t.instrs.push .ret = t₁.instrs.push .ret := congrArg Draft.instrs heq
    have hhoisted : (t.emitted .ret).hoisted = (t₁.emitted .ret).hoisted := by rw [heq]
    have hlabels : (t.emitted .ret).labels = (t₁.emitted .ret).labels := by rw [heq]
    have hnamed : (t.emitted .ret).programLabels = (t₁.emitted .ret).programLabels := by rw [heq]
    exact .of_eq (Array.push_inj_left.1 hinstrs) hhoisted hlabels hnamed
  split at hunit
  · next hvoid =>
    obtain ⟨_, t₀, h₃, hunit⟩ := bind_ok.1 hunit
    obtain ⟨_, t₁, h₄, hunit⟩ := bind_ok.1 hunit
    refine ⟨t₀, by rwa [hvoid], fun void => ?_⟩
    exact Retains.trans (Retaining.emit h₄) (hend hunit void)
  · next hvoid =>
    obtain ⟨_, t₀, h₃, hunit⟩ := bind_ok.1 hunit
    refine ⟨t₀, ?_, hend hunit⟩
    rwa [show l.ret.isVoid = false by simpa using hvoid]

/-- The code of a lambda pushes the occurrences whose value is used. -/
theorem Lambda.Course.emissions (h : l.Course env s t) (hsup : env.supplied = none)
    (hready : ∀ m ∈ l.mentions, m.Ready env void) : Emissions env void s l.pushed t := by
  obtain ⟨t₀, hbody, hrest⟩ := h.body
  have hreceives : s.Receives void := fun id r hr => by
    have := h.begun.fit.sound.named_lt id r hr
    simp [h.begun.labels] at this
  have hpushes := (Expr.part_pushes hsup l.body _ hready).emit _ hbody hreceives
  have hpushed : l.body.pushed (Use.of { discarded := l.ret.isVoid }) = l.pushed := by
    unfold Lambda.pushed Use.of
    rfl
  rw [hpushed] at hpushes
  simpa using hpushes.append (.rest (hrest void))

end Body

/-! ## Records -/

namespace Compilation

variable {catalog : Catalog} {l : Lambda} {w w' : World} {u : UnitPlan} {code : Code}
  {values : List Value}

/-- The entry of the record for a lambda is its form. -/
theorem value?_lambda (C : Compilation catalog l w w') {k : Lambda} {n : Nat} {form : NestedForm}
    (hn : C.units.findIdx? (·.lambda.id == k.id) = some n) (hform : C.forms[n]? = some form) :
    (Occurrence.lambda k).value? C = some form.value := by
  simp [Occurrence.value?, C.form?_eq hn, hform]

/-- **The record of a unit holds what its code loads.** -/
theorem recorded (C : Compilation catalog l w w') (hlabels : l.TellsLabels)
    (hnests : l.Nests u.lambda) (hu : u.Tallies C.units) (h : C.Yields u code values) :
    C.Recorded u.lambda code values := by
  obtain ⟨compiled, hcompiled, hboth⟩ := h
  obtain ⟨hcode, hvalues⟩ := CompileM.codeAndEntries_ok hboth
  obtain ⟨forms, rfl, hforms⟩ := CompileM.recordEntries_ok hvalues
  obtain ⟨hlen, hget⟩ := CompileM.nestedEntries_ok hforms
  constructor
  · -- A lambda that is mentioned has the unit that the plan counts at its place.
    obtain ⟨hlen', hunits⟩ := List.forall₂_iff_get.1 hu.nested
    refine ⟨forms, by rw [hu.constants], List.forall₂_iff_get.2 ⟨by omega, fun i hi hi' => ?_⟩⟩
    obtain ⟨form, hform, hv⟩ := hget i _ (List.getElem?_eq_getElem (hlen' ▸ hi))
    rw [List.getElem?_eq_getElem hi', Option.some.injEq] at hv
    rw [C.value?_lambda (hunits i (hlen' ▸ hi) hi) (hcompiled _ form hform), List.get_eq_getElem, hv]
  · obtain ⟨s, t, hcourse, rfl⟩ := Lambda.toCode_course hcode
    have hready : ∀ m ∈ u.lambda.mentions,
        m.Ready { catalog, plan := u.plan, units := C.units, compiled } u.lambda.voidLabel := by
      intro m hm
      cases m with
      | constant v =>
        intro hid
        obtain ⟨i, hi⟩ := Option.isSome_iff_exists.1 hid
        obtain ⟨j, -, hj, -⟩ := Plan.constantPlace?_of_mem hu.constants hm hi
        exact Option.isSome_iff_exists.2 ⟨j, hj⟩
      | label a => exact hlabels.voidLabel hnests hm rfl
      | place a => exact hlabels.voidLabel hnests hm rfl
      | var | block | lambda => trivial
    obtain ⟨ps, hsorted, hloads⟩ := (hcourse.emissions rfl hready).loads rfl
    refine ⟨ps, hsorted, hloads.imp fun p o ⟨hle, hplanned, j, x, hplace, hload, hx⟩ => ?_⟩
    have hentry := hcourse.loadsEntry (LowerEnv.hasRecord
      { catalog, plan := u.plan, units := C.units, compiled }) hload hle hx
    cases o with
    | constant v =>
      obtain ⟨i, hi⟩ := Option.isSome_iff_exists.1 hplanned.1
      obtain ⟨v', hv', hid⟩ := Plan.constantPlace?_ok hplace hi
      have hj : (u.plan.constants.map (·.value) ++ forms)[j]? = some v' := by
        rw [List.getElem?_append_left (List.getElem?_eq_some_iff.1 hv').1, hv']
      exact ⟨v, i, j, v', rfl, hi, hentry, hj, hid, hentry.pushes hj hid⟩
    | lambda k =>
      obtain ⟨j', hj', rfl⟩ := Option.map_eq_some_iff.1 hplace
      obtain ⟨n, hn, hplace'⟩ := Option.bind_eq_some_iff.1 hj'
      -- The entry stands behind the constants, where the plan counts the unit.
      obtain ⟨hlt, hunit, -⟩ := List.findIdx?_eq_some_iff_getElem.1 hplace'
      obtain ⟨form, hform, hv⟩ := hget j' _ (List.getElem?_eq_getElem hlt)
      rw [show (u.plan.nested[j']).unit = n by simpa using hunit] at hform
      have hj : (u.plan.constants.map (·.value) ++ forms)[u.plan.constants.length + j']? =
          some form.value := by
        rw [List.getElem?_append_right (by simp)]
        simpa using hv
      obtain ⟨i, hi⟩ := C.identity_of_form (hcompiled n form hform)
      exact ⟨form.value, i, _, form.value, C.value?_lambda hn (hcompiled n form hform), hi, hentry, hj,
        hi, hentry.pushes hj hi⟩

end Compilation

end TreeCode
