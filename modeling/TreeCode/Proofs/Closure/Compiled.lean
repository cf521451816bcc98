import TreeCode.Proofs.Closure.Session

/-!
# Compiled closures

Compiling a lambda compiles the lambdas nested in it first, each once. One that captures
nothing becomes a function then, any other an open unit, which running code binds to cells
later. This is the setting in which calls of the compiled lambda agree with calls of the
lambda itself.

Main results:

* `compiled_closures_agree` — **compiled and evaluated closures give the same replies**.
-/

namespace TreeCode

/-! ## Sessions with a compiled lambda -/

section Agreement

open Closure

variable {host : Host} {types : Nat → Ty} {l : Lambda} {c : BoundUnit} {maxDepth : Nat}
  {counter : Option Nat}
  {w₀ w₁ w w' : World} {f g : Nat} {natives : List (Nat × Signature)} {p : Nat → Nat}

/-- The functions that a caller has got at first: a lambda, and host functions of its own. -/
def Session.opening (f : Nat) (sig : Signature) (natives : List (Nat × Signature)) (w : World) :
    Session :=
  ⟨.function f sig :: natives.map fun n => .function n.1 n.2, w⟩

/-- A session that starts with a lambda corresponds to one that starts with its compiled
form. -/
theorem compileLambda_mirrors (htells : l.Tells) (hwoven : l.Woven types)
    (hcompiled : compileLambda host.catalog l w₀ = .ok (.compiled c, w₁))
    (hg : w.functions[g]? = some (.interpreted l [] maxDepth counter))
    (hf : w'.functions[f]? = some c.callable) (hmade : w₁.Extends w')
    (hstamps : w'.store.stamps = w.store.stamps)
    (hnatives : ∀ n ∈ natives, ∃ id, host.Computes id n.2 ∧
      w.functions[n.1]? = some (.native id n.2) ∧ w'.functions[p n.1]? = some (.native id n.2)) :
    ∃ (Z : Setting) (a : Link), Z.host = host ∧ Z.root = l ∧ Z.types = types ∧
      Z.Mirrors a (.opening g l.signature natives w)
        (.opening f l.signature (natives.map fun n => (p n.1, n.2)) w') := by
  -- The units nested in the lambda, the forms that they were compiled to, and its own code.
  obtain ⟨plan, units, forms, values, hplan, hforms, hboth, hrecord⟩ :=
    CompileM.boundUnit_ok (CompileM.settle_ok hcompiled)
  have htallied := (planLambda_tallies htells hplan).2
  have hvalues : c.record.values = values := by rw [hrecord, ClosureRecord.values_ofConstants]
  let Z : Setting :=
    { host, gauge := ⟨maxDepth, counter.getD g⟩, types, root := l, units, forms, world := w₁
      tells := htells
      woven := hwoven
      tallied := htallied
      formed := (CompileM.nestedForms_stand hforms).1 }
  -- So far the lambda itself has a counterpart, and the host functions have.
  let a : Link :=
    { cells := fun _ => none
      functions := fun k => if k = g then some (f, l.signature)
        else (natives.find? (·.1 == k)).map fun n => (p n.1, n.2)
      bound := w.store.cells.size }
  have htwin : Closure.Twin Z a w w' g f ⟨l, plan⟩ [] c.code c.record :=
    { nests := .refl
      evaluated := ⟨counter, rfl, hg⟩
      compiled := hf
      yields := ⟨forms, fun _ _ h => h, hvalues ▸ hboth⟩
      cells := fun i v hi => by simp [planLambda_captures hplan] at hi }
  have hagree : Closure.Agree Z a w w' :=
    { bound := rfl
      stamps := hstamps
      made := hmade
      cells := by
        intro r r' t hr
        cases hr
      apart := by
        intro r₁ r₂ r' t₁ t₂ hr
        cases hr
      functions := by
        intro k k' sig hk
        simp only [a] at hk
        split at hk
        · rename_i heq
          obtain ⟨rfl, rfl⟩ : f = k' ∧ l.signature = sig := by simpa using hk
          rw [heq]
          exact .inl ⟨⟨l, plan⟩, [], c.code, c.record, rfl, htwin⟩
        · obtain ⟨n, hn, hpair⟩ := Option.map_eq_some_iff.1 hk
          obtain ⟨rfl, rfl⟩ : p n.1 = k' ∧ n.2 = sig := by simpa using hpair
          obtain rfl : n.1 = k := by simpa using List.find?_some hn
          exact .inr (hnatives n (List.mem_of_find?_eq_some hn)) }
  have hlinked : ∀ n ∈ natives, a.functions n.1 = some (p n.1, n.2) := fun n hn => by
    obtain ⟨id, -, hentry, -⟩ := hnatives n hn
    have hne : n.1 ≠ g := fun heq => by simp [heq, hg] at hentry
    -- A reference has one entry, so no other signature is listed for it.
    cases hfind : natives.find? (·.1 == n.1) with
    | none => exact absurd (List.find?_eq_none.1 hfind n hn) (by simp)
    | some m =>
      obtain ⟨id', -, hentry', -⟩ := hnatives m (List.mem_of_find?_eq_some hfind)
      have hm : m.1 = n.1 := by simpa using List.find?_some hfind
      rw [hm, hentry] at hentry'
      obtain ⟨-, hsig⟩ : id = id' ∧ n.2 = m.2 := by simpa using hentry'
      simp only [a, if_neg hne, hfind, Option.map_some, hm, hsig]
  refine ⟨Z, a, rfl, rfl, rfl, hagree, .cons (.function (if_pos rfl)) ?_⟩
  rw [List.map_map, List.forall₂_map_left_iff, List.forall₂_map_right_iff, List.forall₂_same]
  exact fun n hn => .function (hlinked n hn)

/-- **Compiled and evaluated closures give the same replies.** A caller calls a woven lambda,
and then the functions that calls have returned, in any order and as often as it likes. It may
hand over those functions, and host functions that compute on scalars. As long as no call meets
a limit of evaluation, calls of the compiled lambda are told the same: the same values, the same
failures, and a function where evaluation gives a function.

The worlds agree at the end. A variable that closures share is one cell in both runs, with
values that stand for each other, and cells of different variables are different; so a write
is seen by all that share the variable, and by no one else. -/
theorem compiled_closures_agree (htells : l.Tells) (hwoven : l.Woven types)
    (hcompiled : compileLambda host.catalog l w₀ = .ok (.compiled c, w₁))
    (hg : w.functions[g]? = some (.interpreted l [] maxDepth counter))
    (hf : w'.functions[f]? = some c.callable) (hmade : w₁.Extends w')
    (hstamps : w'.store.stamps = w.store.stamps)
    (hnatives : ∀ n ∈ natives, ∃ id, host.Computes id n.2 ∧
      w.functions[n.1]? = some (.native id n.2) ∧ w'.functions[p n.1]? = some (.native id n.2))
    (n : Nat) (qs : List Request)
    (hlimits : ∀ reply ∈ (host.converse n qs (.opening g l.signature natives w)).1,
      reply.exhausted = false) :
    ∃ N, ∀ k, N ≤ k →
      (host.converse k qs (.opening f l.signature (natives.map fun n => (p n.1, n.2)) w')).1 =
          (host.converse n qs (.opening g l.signature natives w)).1 ∧
        ∃ (Z : Setting) (a : Link), Z.root = l ∧
          Z.Mirrors a (host.converse n qs (.opening g l.signature natives w)).2
            (host.converse k qs (.opening f l.signature (natives.map fun n => (p n.1, n.2)) w')).2 := by
  obtain ⟨Z, a, rfl, hroot, -, hmirrors⟩ :=
    compileLambda_mirrors htells hwoven hcompiled hg hf hmade hstamps hnatives
  obtain ⟨b, s, N, -, hend, hconverse⟩ := hmirrors.converse n qs hlimits
  refine ⟨N, fun k hk => ?_⟩
  rw [hconverse k hk]
  exact ⟨rfl, Z, b, hroot, hend⟩

end Agreement

/-- The type of functions on integers. -/
abbrev Ty.onI32 : Ty := .function [.i32] .i32

/-- A lambda that applies a function to a variable around it. -/
def Lambda.applying : Lambda :=
  let count : Var := ⟨1, "count", .i32⟩
  let step : Var := ⟨2, "step", .onI32⟩
  .mk 2 none [step] .i32
    (.binary .i32 .assign (.var count) (.invoke .i32 (.var step) [.var count]) none)

/-- A lambda that returns it, and so hands the variable on. -/
def Lambda.sharing : Lambda := .mk 1 none [] (.function [.onI32] .i32) (.lambda .applying)

/-- A lambda that returns that one, over a variable of its own. -/
def Lambda.counting : Lambda :=
  let start : Var := ⟨0, "start", .i32⟩
  let count : Var := ⟨1, "count", .i32⟩
  .mk 0 none [start] (.function [] (.function [.onI32] .i32))
    (.block (.function [] (.function [.onI32] .i32)) [count]
      [.binary .i32 .assign (.var count) (.var start) none, .lambda .sharing])

/-- The code of the innermost lambda. -/
def Code.applying : Code where
  signature := Lambda.applying.signature
  shapes := [.record, Shape.of .onI32]
  instrs := #[.loadLocal 0, .loadCaptured 0, .invoke 1, .dup, .storeCaptured 0, .ret]
  numParams := 1
  numLocals := 1
  maxStack := 2

/-- The code of the lambda around it. -/
def Code.sharing : Code where
  signature := Lambda.sharing.signature
  shapes := [.record]
  instrs := #[.loadConstant 0, .loadCapturedCell 0, .curry 1, .ret]
  maxStack := 2

/-- The code of the outermost lambda. -/
def Code.counting : Code where
  signature := Lambda.counting.signature
  shapes := [.record, .num .i32]
  instrs := #[.constI32 0, .newCell 1, .loadLocal 0, .storeCell 1, .loadConstant 0, .loadLocal 1,
    .curry 1, .ret]
  numParams := 1
  numLocals := 2
  maxStack := 2

/-- The world in which these are compiled. -/
def World.counting : World where
  units := #[⟨.applying, []⟩, ⟨.sharing, [.openUnit 0 none]⟩]

/-- A host with one function, which adds one. -/
def Host.stepping : Host where
  catalog := .empty
  method _ _ _ := .done (.ok .unit) none
  native _ args := match args with
    | [.num (.int .i32 n)] => .done (.ok (.num (.int .i32 (n + 1)))) none
    | _ => .done (.ok .unit) none

/-- The worlds with the lambda and its compiled form, and with that host function. -/
def World.evaluating : World where
  functions := #[.interpreted .counting [] 20 none, .native 0 ⟨[.i32], .i32⟩]

def World.running : World :=
  { World.counting with functions :=
      #[.compiled .counting (.constants [.openUnit 1 none]), .native 0 ⟨[.i32], .i32⟩] }

theorem Host.stepping_computes : Host.stepping.Computes 0 ⟨[.i32], .i32⟩ where
  params := by simp [Ty.Scalar.num .i32]
  ret := .num .i32
  done args hargs := by
    cases hargs with
    | cons hv hrest =>
      cases hrest
      obtain ⟨n, rfl, hn⟩ := hv.num_inv
      obtain ⟨v, rfl⟩ : ∃ v, n = .int .i32 v := by
        cases n with
        | int k v =>
          obtain rfl : k = .i32 := by simpa [Num.kind] using hn
          exact ⟨v, rfl⟩
        | _ => cases hn
      exact ⟨_, _, rfl, by rintro _ ⟨⟩; exact .num rfl⟩

theorem Lambda.counting_nests {k : Lambda} (h : counting.Nests k) :
    k = .counting ∨ k = .sharing ∨ k = .applying := by
  induction h with
  | refl => exact .inl rfl
  | tail _ hk ih =>
    obtain ⟨D, hmem⟩ := hk
    rcases ih with rfl | rfl | rfl
    · simp [counting, mentions, body, Expr.mentions, Expr.mentionsAll] at hmem
      exact .inr (.inl hmem.2)
    · simp [sharing, mentions, body, Expr.mentions] at hmem
      exact .inr (.inr hmem.2)
    · simp [applying, mentions, body, Expr.mentions, Expr.mentionsAll] at hmem

theorem Lambda.counting_tells : Lambda.counting.Tells := by
  intro k k' hk hk' hid
  rcases counting_nests hk with rfl | rfl | rfl <;> rcases counting_nests hk' with rfl | rfl | rfl <;>
    first | rfl | simp [counting, sharing, applying, Lambda.id] at hid

/-- The types of its variables. -/
def Ty.counting (id : Nat) : Ty := if id = 2 then .onI32 else .i32

theorem Lambda.counting_woven : Lambda.counting.Woven Ty.counting := by
  have hstep : Ty.onI32.Woven := .function (by simp [Ty.Woven.scalar (.num .i32)]) (.scalar (.num .i32))
  have hfunction : (Ty.function [.onI32] .i32).Woven := .function (by simpa using hstep) (.scalar (.num .i32))
  have hmaker : (Ty.function [] (.function [.onI32] .i32)).Woven := .function (by simp) hfunction
  have htakes : ∀ {t : Ty}, t.isVoid = false → t.Takes t := fun h _ => ⟨h, by simp [Ty.accepts]⟩
  have hvar : ∀ {id : Nat} {name : String}, id ≠ 2 → Expr.Woven Ty.counting (.var ⟨id, name, .i32⟩) :=
    fun h => .var (by simp [Ty.counting, h]) (.scalar (.num .i32))
  have hassign : ∀ {id : Nat} {name : String} {e : Expr}, id ≠ 2 → e.Woven Ty.counting → e.ty = .i32 →
      Expr.Woven Ty.counting (.binary .i32 .assign (.var ⟨id, name, .i32⟩) e none) :=
    fun h he hty => .assign (v := ⟨_, _, .i32⟩) (by simp [Ty.counting, h]) (.scalar (.num .i32)) he rfl
      fun _ => ⟨by simp [hty, Ty.isVoid], by simp [hty, Ty.accepts]⟩
  have happlying : Lambda.applying.Woven Ty.counting :=
    { params := by simpa [applying, params, Ty.counting] using hstep
      ret := .scalar (.num .i32)
      takes := htakes rfl
      body := hassign (by decide) (.invoke (.var (by simp [Ty.counting]) hstep) rfl
        (by simp [hvar]) (.cons ⟨rfl, by simp [Ty.accepts, Expr.ty]⟩ .nil)) rfl }
  have hsharing : Lambda.sharing.Woven Ty.counting :=
    { params := by simp [sharing, params]
      ret := hfunction
      takes := htakes rfl
      body := Expr.Woven.lambda_iff.2 happlying }
  exact
    { params := by simp [counting, params, Ty.counting, Ty.Woven.scalar (.num .i32)]
      ret := hmaker
      takes := htakes rfl
      body := .block hmaker (by simp [Ty.counting, Ty.Woven.scalar (.num .i32)]) (by simp [Var.ids])
        (by simpa using ⟨hassign (by decide) (hvar (by decide)) rfl, Expr.Woven.lambda_iff.2 hsharing⟩)
        fun _ => ⟨_, rfl, htakes rfl⟩ }

/-- Two closures are made by one call and one by another one; all of them are called, and are
handed the host function. -/
def Request.counting : List Request :=
  [⟨0, [.plain (.i32 5)]⟩, ⟨2, []⟩, ⟨2, []⟩, ⟨3, [.got 1]⟩, ⟨4, [.got 1]⟩,
    ⟨0, [.plain (.i32 0)]⟩, ⟨5, []⟩, ⟨6, [.got 1]⟩]

/-- The first two share their variable; the third has its own. -/
def Reply.counting : List Reply :=
  [.function Lambda.sharing.signature, .function Lambda.applying.signature,
    .function Lambda.applying.signature, .value (.i32 6), .value (.i32 7),
    .function Lambda.sharing.signature, .function Lambda.applying.signature, .value (.i32 1)]

theorem compiled_closures_agree_counting :
    compileLambda .empty .counting {} =
        .ok (.compiled ⟨.counting, .constants [.openUnit 1 none]⟩, .counting) ∧
      ∃ N, ∀ k, N ≤ k → (Host.stepping.converse k Request.counting
        (.opening 0 Lambda.counting.signature [(1, ⟨[.i32], .i32⟩)] .running)).1 = Reply.counting := by
  have hcompiled : compileLambda Host.stepping.catalog .counting {} =
      .ok (.compiled ⟨.counting, .constants [.openUnit 1 none]⟩, .counting) := by
    cbv
  have hevaluated : (Host.stepping.converse 20 Request.counting
      (.opening 0 Lambda.counting.signature [(1, ⟨[.i32], .i32⟩)] .evaluating)).1 = Reply.counting := by
    cbv
  have hg : World.evaluating.functions[0]? = some (.interpreted .counting [] 20 none) := rfl
  have hf : World.running.functions[0]? =
      some (BoundUnit.callable ⟨.counting, .constants [.openUnit 1 none]⟩) := rfl
  have hmade : World.counting.Extends .running :=
    ⟨by simp [World.counting, World.running, Grows], .refl _⟩
  have hnatives : ∀ n ∈ [((1, ⟨[.i32], .i32⟩) : Nat × Signature)], ∃ id, Host.stepping.Computes id n.2 ∧
      World.evaluating.functions[n.1]? = some (.native id n.2) ∧
        World.running.functions[n.1]? = some (.native id n.2) := by
    simpa using ⟨0, Host.stepping_computes, rfl, rfl⟩
  have hlimits : ∀ reply ∈ (Host.stepping.converse 20 Request.counting
      (.opening 0 Lambda.counting.signature [(1, ⟨[.i32], .i32⟩)] .evaluating)).1,
      reply.exhausted = false := by
    rw [hevaluated]
    simp [Reply.counting, Reply.exhausted]
  obtain ⟨N, hagree⟩ := compiled_closures_agree (p := fun r => r) Lambda.counting_tells
    Lambda.counting_woven hcompiled hg hf hmade rfl hnatives 20 Request.counting hlimits
  exact ⟨hcompiled, N, fun k hk => (hagree k hk).1.trans hevaluated⟩

end TreeCode
