import TreeCode.Proofs.Likeness.Machine

/-!
# Raised limits on the depth of evaluation

The limit on the depth of evaluation is checked at every node, and every lambda made in a
run has the limit of the one that made it. A run that ends without meeting its limit does
not depend on it: with a higher limit it ends in the same way, provided no filter and no
host body drops that a limit was met. That goes for the filters of all functions that the
run may call: one that is lent a function declines when that function meets its limit.

Main definitions:

* `Likeness.raised` — two runs of which the second may have higher limits.
* `World.Unfiltered` — no function of the world has filters.
* `Host.recording` — a host that writes down every call made of it.

Main results:

* `raised_limit_same_end` — **raising the limit never changes a finished call**.
* `raised_limit_changes_asking` — it may where a function of the world has a filter.
-/

namespace TreeCode

/-! ## Calls written down -/

/-- A call of host code. -/
inductive HostCall where
  | method (id : Nat) (receiver : Option Value) (args : List Value)
  | native (id : Nat) (args : List Value)

/-- The body that writes lines and then goes on as `p`. -/
def HostProg.after (lines : List String) (p : HostProg) : HostProg :=
  lines.foldr (fun line q => .ask (.log line) fun _ => q) p

/-- The host that writes lines into the log for each call made of it. -/
def Host.recording (host : Host) (note : HostCall → List String) : Host where
  catalog := host.catalog
  method id receiver args := (host.method id receiver args).after (note (.method id receiver args))
  native id args := (host.native id args).after (note (.native id args))

-- Without lines to write the host is as it was.
example (host : Host) : host.recording (fun _ => []) = host := rfl

theorem HostProg.Relays.after {p : HostProg} (h : p.Relays) (lines : List String) :
    (p.after lines).Relays := by
  induction lines with
  | nil => exact h
  | cons line lines ih => exact ⟨fun _ => ih, fun _ _ _ _ h => by cases h⟩

theorem Host.Relays.recording {host : Host} (h : host.Relays) (note : HostCall → List String) :
    (host.recording note).Relays :=
  ⟨fun _ _ _ => (h.method _ _ _).after _, fun _ _ => (h.native _ _).after _⟩

/-! ## The two runs -/

/-- Two runs with the same log, at the same depths, of which the second may have higher
limits and be longer. -/
def Likeness.raised (depth : Depths) : Likeness := ⟨True, True, id, #[], #[], depth⟩

/-- No function of the world that is run by evaluation has filters. -/
def World.Unfiltered (w : World) : Prop :=
  ∀ (i : Nat) (l : Lambda) (captured : List (Nat × Nat)) (m : Nat) (counter : Option Nat),
    w.functions[i]? = some (.interpreted l captured m counter) → l.body.Unfiltered

/-- A world whose functions have no filters is like itself. -/
theorem World.Unfiltered.self {w : World} (h : w.Unfiltered) :
    (Likeness.raised w.depth).Worlds w w := by
  refine ⟨rfl, ⟨rfl, fun i => ?_⟩, rfl,
    ⟨w.log, Array.empty_append.symm, Array.empty_append.symm⟩, rfl, rfl⟩
  cases hi : w.functions[i]? with
  | none => exact .none
  | some f =>
    cases f with
    | interpreted l captured m counter =>
      exact .some (.interpreted (.inl rfl) fun _ => h i l captured m counter hi)
    | compiled => exact .some .compiled
    | native => exact .some .native

/-- Two calls of a lambda, of which the second has a higher limit, in worlds that differ in
the limits of their functions. -/
theorem callLambda_raised {host : Host} (hhost : host.Relays) {l : Lambda}
    (hl : l.body.Unfiltered) (captured : List (Nat × Nat)) (args : List Value) {a b : Gauge}
    (hlimit : a.max ≤ b.max) (hcounter : b.counter = a.counter) {n k : Nat} (hle : n ≤ k)
    {depth : Depths} {w w' : World} (hw : (Likeness.raised depth).Worlds w w') :
    Mirrored (Likeness.raised depth).stops (Likeness.raised depth).Worlds
      (callLambda host (call host n) n l captured a args w)
      (callLambda host (call host k) k l captured b args w') := by
  let L := Likeness.raised depth
  have hn : L.Bound n k := .inr ⟨trivial, hle⟩
  have hrun : Mirrors L.stops L.Worlds (callLambda host (call host n) n l captured a args)
      (callLambda host (call host k) k l captured b args) :=
    Likeness.Callers.lambda (L := L) (fun _ => hhost)
      (fun d => Likeness.callers (L := L) (fun _ => hhost) hn d)
      ⟨.inr ⟨trivial, hlimit⟩, hcounter⟩ hn (fun _ => hl) captured args
  exact hrun w w' hw

/-- The value that a run gives, with the log that it leaves. -/
def RunM.given? : EStateM.Result Fault World Value → Option (Value × Array String)
  | .ok v w => some (v, w.log)
  | .error .. => none

theorem RunM.given?_eq_some {r : EStateM.Result Fault World Value} {v : Value}
    {log : Array String} : given? r = some (v, log) ↔ ∃ w, r = .ok v w ∧ w.log = log := by
  cases r <;> simp [given?]

/-- **Raising the limit never changes a finished call.** Take a lambda without filters, in
a world whose functions have none, and a host that passes on what it is told of limits.
If a call of the lambda ends, but not because a limit was met, a call with a higher limit
ends with the same value or failure, in a world that is the same up to the limits of its
functions. The log is the same for every way to write down the calls of host code, so
these are the same too. -/
theorem raised_limit_same_end {host : Host} (hhost : host.Relays) (note : HostCall → List String)
    {l : Lambda} (hl : l.body.Unfiltered) (captured : List (Nat × Nat)) (args : List Value)
    {d d' counter n k : Nat} (hlimit : d ≤ d') (hle : n ≤ k) {w : World} (hw : w.Unfiltered) :
    let host := host.recording note
    let Same := (Likeness.raised w.depth).Worlds
    (∀ v w₁, callLambda host (call host n) n l captured ⟨d, counter⟩ args w = .ok v w₁ →
      ∃ w₂, callLambda host (call host k) k l captured ⟨d', counter⟩ args w = .ok v w₂ ∧
        Same w₁ w₂) ∧
    ∀ f w₁, callLambda host (call host n) n l captured ⟨d, counter⟩ args w = .error f w₁ →
      f.tag ≠ "ResourceExceeded" → f ≠ .outOfFuel →
        ∃ w₂, callLambda host (call host k) k l captured ⟨d', counter⟩ args w = .error f w₂ ∧
          Same w₁ w₂ := by
  intro host Same
  have hrun := callLambda_raised (hhost.recording note) hl captured args
    (a := ⟨d, counter⟩) (b := ⟨d', counter⟩) hlimit rfl hle hw.self
  generalize callLambda (host) (call host n) n l captured ⟨d, counter⟩ args w = r,
    callLambda host (call host k) k l captured ⟨d', counter⟩ args w = r' at hrun ⊢
  cases hrun with
  | ok hw =>
    refine ⟨fun v w₁ h => ?_, fun f w₁ h => by cases h⟩
    cases h
    exact ⟨_, rfl, hw⟩
  | error hw =>
    refine ⟨fun v w₁ h => (by cases h), fun f w₁ h _ _ => ?_⟩
    cases h
    exact ⟨_, rfl, hw⟩
  | stopped hf =>
    refine ⟨fun v w₁ h => (by cases h), fun f w₁ h htag hcut => ?_⟩
    cases h
    rcases Likeness.stops_cases hf with ⟨rfl, -⟩ | ⟨⟨i, m, rfl⟩, -⟩
    · exact absurd rfl hcut
    · exact absurd rfl htag

/-! ## A host function that calls a function -/

/-- The host whose functions call their first argument on their second one. -/
def Host.applying : Host where
  catalog := .empty
  method _ _ _ := .done (.ok .unit) none
  native _ args :=
    match args with
    | [.function ref _, v] => .ask (.call ref [v]) fun answer => .done answer none
    | _ => .done (.ok .null) none

theorem Host.applying_relays : Host.applying.Relays := by
  refine ⟨fun _ _ _ => trivial, fun id args => ?_⟩
  simp only [applying]
  split
  · exact ⟨fun _ => trivial, fun _ _ _ _ _ => trivial⟩
  · trivial

/-- Has its first argument call a lambda that it makes on its second argument. -/
def Lambda.lending : Lambda :=
  .mk 0 none [⟨0, "apply", .void⟩, ⟨1, "x", .i32⟩] .i32
    (.invoke .i32 (.var ⟨0, "apply", .void⟩)
      [.lambda (.mk 1 none [⟨2, "y", .i32⟩] .i32 (.var ⟨2, "y", .i32⟩)), .var ⟨1, "x", .i32⟩])

theorem Lambda.lending_unfiltered : Lambda.lending.body.Unfiltered := by
  have leaf : ∀ v, (Expr.var v).Unfiltered := fun v =>
    .mk (by simp [Expr.handlers]) (by simp [Expr.children])
  refine .mk (by simp [lending, body, Expr.handlers]) fun e he => ?_
  simp only [lending, body, Expr.children, List.mem_cons, List.not_mem_nil, or_false] at he
  obtain rfl | rfl | rfl := he
  · exact leaf _
  · refine .mk (by simp [Expr.handlers]) fun e he => ?_
    simp only [Expr.children, List.mem_singleton] at he
    subst he
    exact leaf _
  · exact leaf _

/-- With a limit of two the lambda that is made is called at the limit and gives its
argument, and so it does with a limit of nine. -/
theorem raised_limit_same_end_lending :
    let w : World := { functions := #[.native 0 ⟨[.void, .i32], .i32⟩] }
    let run (d n : Nat) := callLambda (Host.applying.recording fun _ => ["called"])
      (call (Host.applying.recording fun _ => ["called"]) n) n .lending [] ⟨d, 1⟩
      [.function 0 ⟨[.void, .i32], .i32⟩, .i32 7] w
    w.Unfiltered ∧
      ∃ w₁ w₂, run 2 6 = .ok (.i32 7) w₁ ∧ w₁.log = #["called"] ∧ run 9 8 = .ok (.i32 7) w₂ ∧
        (Likeness.raised w.depth).Worlds w₁ w₂ := by
  intro w run
  have hw : w.Unfiltered := by
    rintro (_ | i) l captured m counter h <;> cases h
  have hgiven : RunM.given? (run 2 6) = some (.i32 7, #["called"]) := by
    simp only [run, w]
    cbv
  obtain ⟨w₁, hlow, hlog⟩ := RunM.given?_eq_some.1 hgiven
  obtain ⟨w₂, hhigh, hends⟩ := (raised_limit_same_end Host.applying_relays (fun _ => ["called"])
    Lambda.lending_unfiltered [] [.function 0 ⟨[.void, .i32], .i32⟩, .i32 7]
    (d := 2) (by decide : 2 ≤ 9) (by decide : 6 ≤ 8) hw).1 _ _ hlow
  exact ⟨hw, w₁, w₂, hlow, hlog, hhigh, hends⟩

/-! ## A filter that is lent a function -/

/-- Throws, and handles the exception by 1 if its argument, as a filter, accepts, or else by
2. -/
def Lambda.heeding : Lambda :=
  .mk 2 none [⟨3, "test", .void⟩] .i32
    (.protect (.unary .i32 .throw (.constant .str (.str "x")) none)
      [.mk .str none (some (.invoke .bool (.var ⟨3, "test", .void⟩) [])) (.constant .i32 (.i32 1)),
        .mk .str none none (.constant .i32 (.i32 2))] .none)

/-- Calls its argument on a test that it makes, `!!true`. -/
def Lambda.asking : Lambda :=
  .mk 4 none [⟨5, "ask", .void⟩] .i32
    (.invoke .i32 (.var ⟨5, "ask", .void⟩)
      [.lambda (.mk 6 none [] .bool
        (.unary .bool .not (.unary .bool .not (.constant .bool (.bool true)) none) none))])

theorem Lambda.asking_unfiltered : Lambda.asking.body.Unfiltered := by
  have htruth : (Expr.constant .bool (.bool true)).Unfiltered :=
    .mk (by simp [Expr.handlers]) (by simp [Expr.children])
  have hnot : ∀ e : Expr, e.Unfiltered → (Expr.unary .bool .not e none).Unfiltered := fun e he =>
    .mk (by simp [Expr.handlers]) (by simpa [Expr.children] using he)
  have hvar : (Expr.var ⟨5, "ask", .void⟩).Unfiltered :=
    .mk (by simp [Expr.handlers]) (by simp [Expr.children])
  refine .mk (by simp [asking, body, Expr.handlers]) fun e he => ?_
  simp only [asking, body, Expr.children, List.mem_cons, List.not_mem_nil, or_false] at he
  obtain rfl | rfl := he
  · exact hvar
  · exact .mk (by simp [Expr.handlers]) (by simpa [Lambda.body, Expr.children] using hnot _ (hnot _ htruth))

/-- Filters of functions in the world matter, too, since a function can be lent to them. The
test is counted for the lambda that makes it and has its limit. With a limit of two it meets
that limit inside the filter of another function, which declines; with a limit of ten the
filter accepts. -/
theorem raised_limit_changes_asking :
    let w : World := { functions := #[.interpreted .heeding [] 9 none] }
    let run (d : Nat) := callLambda Host.applying (call Host.applying 7) 7 .asking [] ⟨d, 1⟩
      [.function 0 ⟨[.void], .i32⟩] w
    Host.applying.Relays ∧ Lambda.asking.body.Unfiltered ∧
      (∃ w₁, run 2 = .ok (.i32 2) w₁) ∧ ∃ w₂, run 10 = .ok (.i32 1) w₂ := by
  intro w run
  have hlow : RunM.given? (run 2) = some (.i32 2, #[]) := by
    simp only [run, w]
    cbv
  have hhigh : RunM.given? (run 10) = some (.i32 1, #[]) := by
    simp only [run, w]
    cbv
  obtain ⟨w₁, hlow, -⟩ := RunM.given?_eq_some.1 hlow
  obtain ⟨w₂, hhigh, -⟩ := RunM.given?_eq_some.1 hhigh
  exact ⟨Host.applying_relays, Lambda.asking_unfiltered, ⟨w₁, hlow⟩, w₂, hhigh⟩

end TreeCode
