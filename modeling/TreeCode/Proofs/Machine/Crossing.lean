import TreeCode.Proofs.Lower.Order
import TreeCode.Proofs.Machine.Pending

/-!
# Leaving through finally blocks

An instruction that leaves regions does not go straight to its target. It enters the
first finally block on the way, and the end of that block goes on from there: the next
block is looked for from the position where the last one ended. In compiled code the
chain nevertheless visits the blocks that lie between the two positions, no other ones,
and each once. This comes from the order of the table: a region around the end of a
block is one around the region of that block.

Main definitions:

* `Code.WellTabled` — regions and blocks of a table lie one in the other or apart.
* `Code.crossed` — the finally blocks between two positions.
* `Machine.Completes` — a run goes from the start of a block to its end.
* `Machine.Crosses` — a run goes through blocks, one after the other, to a position.

Main results:

* `Tiered.crossed_tail` — from the end of the first block, the others are left.
* `Code.Nested.crosses_departed` — leaving goes through the blocks on the way.
* `compileLambda_crossing` — **the table of compiled code is well nested, and leaving
  visits exactly the finally blocks on the way, in the order of the table**.
-/

namespace TreeCode

/-! ## The table -/

/-- The finally blocks of a table whose region covers one position but not another, in the
order of the table. -/
def Code.crossed (code : Code) (p t : Nat) : List Nat :=
  (code.handlers.zipIdx.filter fun x => x.1.isFinally && x.1.covers p && !x.1.covers t).map (·.2)

/-- Regions and blocks lie one in the other or apart. -/
structure Code.WellTabled (code : Code) : Prop where
  /-- A region lies in those of later entries, or apart from them. -/
  regions : ∀ (i j : Nat) (h h' : Handler), i < j → code.handlers[i]? = some h →
    code.handlers[j]? = some h' → (∀ p, h.covers p = true → h'.covers p = true) ∨
      ∀ p, h.covers p = true → h'.covers p = false
  /-- A block is not in its own region. -/
  own : ∀ h ∈ code.handlers, ∀ p, h.blockHolds p = true → h.covers p = false
  /-- A block lies in the regions around its own one. -/
  blocks : ∀ h ∈ code.handlers, ∀ h' ∈ code.handlers,
    (∀ p, h.covers p = true → h'.covers p = true) → (∃ p, h'.covers p = true ∧ h.covers p = false) →
      ∀ p, h.blockHolds p = true → h'.covers p = true

theorem Handler.isCleanup_of_isFinally {h : Handler} (hf : h.isFinally = true) :
    h.isCleanup = true := by
  unfold isFinally at hf
  unfold isCleanup
  cases hkind : h.kind <;> simp_all

namespace Tiered

variable {code : Code} {a b i j p t : Nat} {h h' : Handler} {is : List Nat}

theorem precedes (ht : Tiered a b code.handlers) (hij : i < j) (hi : code.handlers[i]? = some h)
    (hj : code.handlers[j]? = some h') : h.Precedes h' := by
  obtain ⟨hilt, rfl⟩ := List.getElem?_eq_some_iff.1 hi
  obtain ⟨hjlt, rfl⟩ := List.getElem?_eq_some_iff.1 hj
  exact List.pairwise_iff_getElem.1 ht.order i j hilt hjlt hij

/-- **Entries in order are well nested.** -/
theorem wellTabled (ht : Tiered a b code.handlers) : code.WellTabled where
  -- Of two entries of a tiered table the earlier is apart from the later, inside of it or behind.
  regions i j h h' hij hi hj := by
    simp only [Bool.eq_false_iff, ne_eq, Handler.covers_iff]
    cases ht.precedes hij hi hj with
    | apart hstop _ => exact .inr fun p _ => by omega
    | inside hstart hstop _ => exact .inl fun p _ => by omega
    | behind hstart _ => exact .inr fun p _ => by omega
  own h hh p hp := by
    obtain ⟨hc, hlo, -⟩ := Handler.blockHolds_iff.1 hp
    have := ((ht.sits h hh).block hc).1
    simp only [Bool.eq_false_iff, ne_eq, Handler.covers_iff]
    omega
  blocks h hh h' hh' hsub hstrict p hp := by
    obtain ⟨hc, hlo, hhi⟩ := Handler.blockHolds_iff.1 hp
    obtain ⟨i, hi⟩ := List.mem_iff_getElem?.1 hh
    obtain ⟨j, hj⟩ := List.mem_iff_getElem?.1 hh'
    obtain ⟨q, hq, hnq⟩ := hstrict
    have hregion := (ht.sits h hh).region
    have hstart := Handler.covers_iff.1 (hsub h.start (Handler.covers_iff.2 ⟨Nat.le_refl _, hregion⟩))
    have hblock := (ht.sits h hh).block hc
    simp only [Bool.eq_false_iff, ne_eq, Handler.covers_iff] at hnq
    rw [Handler.covers_iff] at hq ⊢
    rcases Nat.lt_trichotomy i j with hij | rfl | hij
    · cases ht.precedes hij hi hj with
      | apart hstop _ => omega
      | inside _ _ hin =>
        have := hin hc
        omega
      | behind hbehind _ => omega
    · rw [hi, Option.some.injEq] at hj
      exact absurd (hj ▸ hq) hnq
    · -- An earlier entry around a later one would have the same region.
      cases ht.precedes hij hj hi with
      | apart hstop _ => omega
      | inside hlo' hhi' _ => omega
      | behind hbehind _ => omega

/-- Where the block of an entry ends, the regions of earlier ones are over. -/
theorem not_covers_end (hs : h'.Sits a b) (hc : h'.isCleanup = true) (hp : h.Precedes h') :
    h.covers (h'.blockStop - 1) = false := by
  have hregion := hs.region
  have hblock := hs.block hc
  simp only [Bool.eq_false_iff, ne_eq, Handler.covers_iff]
  cases hp with
  | apart hstop _ => omega
  | inside _ hstop _ => omega
  | behind _ hend =>
    have := hend hc
    omega

/-- A later region is around the end of a block if it is around a position of the region
of that block. -/
theorem covers_end (hs : h.Sits a b) (hc : h.isCleanup = true) (hp : h.Precedes h')
    (hcov : h.covers p = true) : h'.covers (h.blockStop - 1) = h'.covers p := by
  have hregion := hs.region
  have hblock := hs.block hc
  rw [Handler.covers_iff] at hcov
  rw [Bool.eq_iff_iff, Handler.covers_iff, Handler.covers_iff]
  cases hp with
  | apart _ hend =>
    have := hend hc
    omega
  | inside _ _ hend =>
    have := hend hc
    omega
  | behind hstart _ => omega

/-- **From the end of the first block on the way, the way goes through the others.** -/
theorem crossed_tail (ht : Tiered a b code.handlers) (hc : code.crossed p t = i :: is) :
    ∃ h, code.handlers[i]? = some h ∧ h.isFinally = true ∧ h.covers p = true ∧
      h.covers t = false ∧
      (∀ j h', j < i → code.handlers[j]? = some h' → h'.isFinally = true →
        h'.covers p = true → h'.covers t = true) ∧
      code.crossed (h.blockStop - 1) t = is := by
  obtain ⟨⟨h, k⟩, rest, hfilter, rfl, hrest⟩ := List.map_eq_cons_iff.1 hc
  obtain ⟨before, after, hsplit, hbefore, hfirst, hafter⟩ := List.filter_eq_cons_iff.1 hfilter
  simp only [Bool.and_eq_true, Bool.not_eq_true'] at hfirst
  obtain ⟨⟨hfin, hcov⟩, hnot⟩ := hfirst
  have hcleanup := Handler.isCleanup_of_isFinally hfin
  have hk : code.handlers[k]? = some h := by
    have hmem : (h, k) ∈ code.handlers.zipIdx := hsplit ▸ by simp
    simpa [List.mem_zipIdx_iff_getElem?] using hmem
  have hsits := ht.sits h (List.mem_of_getElem? hk)
  -- The entries before and after it lie in order with it.
  have horder : (before ++ (h, k) :: after).Pairwise fun x y => x.1.Precedes y.1 := by
    rw [← hsplit, ← List.pairwise_map, List.zipIdx_map_fst]
    exact ht.order
  have hplaces : (before ++ (h, k) :: after).Pairwise fun x y => x.2 < y.2 := by
    rw [← hsplit, ← List.pairwise_map, List.zipIdx_map_snd]
    exact List.pairwise_lt_range'
  obtain ⟨-, hright, hcross⟩ := List.pairwise_append.1 horder
  have hlater := (List.pairwise_cons.1 hright).1
  have hends : code.crossed (h.blockStop - 1) t = is := by
    have hown : h.covers (h.blockStop - 1) = false := by
      have := hsits.block hcleanup
      simp only [Bool.eq_false_iff, ne_eq, Handler.covers_iff]
      omega
    have hnone : before.filter (fun x => x.1.isFinally && x.1.covers (h.blockStop - 1) &&
        !x.1.covers t) = [] := by
      rw [List.filter_eq_nil_iff]
      intro x hx
      simp [not_covers_end hsits hcleanup (hcross x hx (h, k) (List.mem_cons_self ..))]
    have hsame : after.filter (fun x => x.1.isFinally && x.1.covers (h.blockStop - 1) &&
        !x.1.covers t) = rest := by
      rw [← hafter]
      refine List.filter_congr fun x hx => ?_
      rw [covers_end hsits hcleanup (hlater x hx) hcov]
    rw [Code.crossed, hsplit, List.filter_append, hnone, List.filter_cons_of_neg (by simp [hown]),
      hsame, List.nil_append]
    exact hrest
  refine ⟨h, hk, hfin, hcov, hnot, fun j h' hj hh' hfin' hcov' => ?_, hends⟩
  have hmem : (h', j) ∈ before ++ (h, k) :: after := by
    rw [← hsplit]
    simpa [List.mem_zipIdx_iff_getElem?] using hh'
  rcases List.mem_append.1 hmem with hmem | hmem
  · have := hbefore _ hmem
    simpa [hfin', hcov'] using this
  · rcases List.mem_cons.1 hmem with heq | hmem
    · cases heq
      exact absurd hj (Nat.lt_irrefl _)
    · have hlt : k < j := (List.pairwise_cons.1 (List.pairwise_append.1 hplaces).2.1).1 _ hmem
      exact absurd hj (Nat.lt_asymm hlt)

end Tiered

/-- Nothing is on the way. -/
theorem Code.covers_of_crossed_nil {code : Code} {p t : Nat} (h : code.crossed p t = []) :
    ∀ k ∈ code.handlers, k.isFinally = true → k.covers p = true → k.covers t = true := by
  intro k hk hfin hcov
  rw [Code.crossed, List.map_eq_nil_iff, List.filter_eq_nil_iff] at h
  obtain ⟨i, hi⟩ := List.mem_iff_getElem?.1 hk
  have hmem : (k, i) ∈ code.handlers.zipIdx := by
    simpa [List.mem_zipIdx_iff_getElem?] using hi
  simpa [hfin, hcov] using h _ hmem

/-! ## Turns in a block -/

namespace Machine

variable {m : Machine} {μ μ' : MachineState} {p t : Nat}

/-- The blocks being run that an instruction leaves: all of them, or all but the one that
it ends. -/
def Spares (m : Machine) (μ : MachineState) (rest : List Pending) : Prop :=
  rest = μ.pending ∨
    m.code.instrs[μ.pointer]? = some .endFinally ∧ ∃ frame, μ.pending = frame :: rest

theorem departed_pending (m : Machine) (p t : Nat) (μ : MachineState) :
    ∃ entered, (m.departed p t μ).pending = entered ++ μ.pending := by
  unfold departed
  split
  · exact ⟨[_], rfl⟩
  · exact ⟨[], rfl⟩

/-- What an instruction does to the blocks being run. -/
theorem step_spares {i : Instr} (hi : m.code.instrs[μ.pointer]? = some i) (s : MachineState) :
    (∀ f, m.step μ = .error f s → s.pointer = μ.pointer + 1 ∧ m.Spares μ s.pending) ∧
      (m.step μ = .ok none s → ∃ entered rest, m.Spares μ rest ∧ s.pending = entered ++ rest) := by
  have hstep := step_of_some hi
  cases hf : i.falls with
  | true =>
    rw [hstep]
    cases hq : i.target? with
    -- Straight instructions and jumps inside blocks leave the list of pending blocks alone.
    | none =>
      have hsteady := exec_steady (m := m) (Instr.isStraight_of_falls hf hq)
        { μ with pointer := μ.pointer + 1 }
      refine ⟨fun f hs => ?_, fun hs => ?_⟩
      · rw [hs] at hsteady
        exact ⟨hsteady.1, .inl hsteady.2⟩
      · rw [hs] at hsteady
        exact ⟨[], _, .inl hsteady.2, rfl⟩
    | some q =>
      have hhops := exec_hops (m := m) hq hf { μ with pointer := μ.pointer + 1 }
      refine ⟨fun f hs => ?_, fun hs => ?_⟩
      · rw [hs] at hhops
        exact ⟨hhops.1, .inl hhops.2⟩
      · rw [hs] at hhops
        exact ⟨[], _, .inl hhops.2, rfl⟩
  | false =>
    cases i
    case leave q =>
      refine ⟨fun f hs => ?_, fun hs => ?_⟩
      · rw [hstep, exec_leave] at hs
        cases hs
      · rw [hstep, exec_leave] at hs
        cases hs
        obtain ⟨entered, hentered⟩ := m.departed_pending (μ.pointer + 1 - 1) q
          { μ with pointer := μ.pointer + 1 }
        exact ⟨entered, _, .inl rfl, hentered⟩
    case endFinally =>
      cases hpend : μ.pending with
      | nil =>
        have hnothing := step_endFinally_nil hi hpend
        refine ⟨fun f hs => ?_, fun hs => ?_⟩
        · rw [hnothing] at hs
          cases hs
          exact ⟨rfl, .inl rfl⟩
        · rw [hnothing] at hs
          cases hs
      -- The block that ends is dropped, and the jump or failure it has kept goes on.
      | cons frame rest =>
        have hends := step_endFinally hi hpend
        have hspares : m.Spares μ rest := .inr ⟨hi, frame, hpend⟩
        cases hafter : frame.after with
        | leave q =>
          rw [hafter] at hends
          refine ⟨fun f hs => ?_, fun hs => ?_⟩
          · rw [hends] at hs
            cases hs
          · rw [hends] at hs
            cases hs
            obtain ⟨entered, hentered⟩ := m.departed_pending μ.pointer q
              { μ with pointer := μ.pointer + 1, pending := rest }
            exact ⟨entered, _, hspares, hentered⟩
        | rethrow f =>
          rw [hafter] at hends
          refine ⟨fun f hs => ?_, fun hs => ?_⟩
          · rw [hends] at hs
            cases hs
            exact ⟨rfl, hspares⟩
          · rw [hends] at hs
            cases hs
    all_goals cases hf

/-- A turn drops no block being run but the one it ends and those that an exception
escapes from. -/
theorem turn_spares (h : m.turn μ = .goes μ') : ∃ entered rest, ∃ keep : Pending → Bool,
    m.Spares μ rest ∧ μ'.pending = entered ++ rest.filter keep ∧
      ∀ frame, keep frame = false → m.escapes μ.pointer μ'.pointer frame = true := by
  cases hi : m.code.instrs[μ.pointer]? with
  | none =>
    rw [turn, step_of_none hi] at h
    cases h
  | some i =>
    unfold turn at h
    rcases hstep : m.step μ with ⟨_ | v, s⟩ | ⟨f, s⟩
    · rw [hstep] at h
      cases h
      obtain ⟨entered, rest, hspares, hpend⟩ := (step_spares hi μ').2 hstep
      refine ⟨entered, rest, fun _ => true, hspares, ?_, by simp⟩
      -- Without a failure the blocks being run stay as they are, but for one that ends.
      rw [hpend, List.filter_true]
    · rw [hstep] at h
      cases h
    · obtain ⟨hptr, hspares⟩ := (step_spares hi s).1 f hstep
      rw [hstep] at h
      simp only [hptr, Nat.add_sub_cancel] at h
      cases hd : m.dispatch f μ.pointer s with
      | ok u s' =>
        rw [hd] at h
        cases h
        -- A failure was dispatched: blocks that control escapes from are dropped.
        obtain ⟨i, k, v, -, -, -, htarget, hpend⟩ := dispatch_ok hd
        refine ⟨_, _, fun frame => !m.escapes μ.pointer k.target frame, hspares, hpend,
          fun frame hframe => ?_⟩
        rw [htarget]
        simpa using hframe
      | error f s' =>
        rw [hd] at h
        cases h

/-- Turns within a block lead from a state to the end of the block. -/
def Completes (m : Machine) (h : Handler) (μ μ' : MachineState) : Prop :=
  Relation.ReflTransGen (fun ν ν' => m.turn ν = .goes ν' ∧ h.blockHolds ν'.pointer = true ∧
    ν.pointer + 1 ≠ h.blockStop) μ μ' ∧ μ'.pointer + 1 = h.blockStop

/-- The run goes through the blocks of entries, one after the other, and on to a position.
It is in the first of them, and if it gets to its end, the next turn brings it to the next
one. -/
def Crosses (m : Machine) (t : Nat) (below : List Pending) : List Nat → MachineState → Prop
  | [], μ => μ.pointer = t ∧ μ.pending = below
  | i :: is, μ => ∃ h, m.code.handlers[i]? = some h ∧ μ.pointer = h.target ∧
      μ.pending = ⟨i, .leave t⟩ :: below ∧
      ∀ μ', m.Completes h μ μ' → ∃ μ'', m.turn μ' = .goes μ'' ∧ m.Crosses t below is μ''

end Machine

namespace Code.Nested

variable {code : Code} {m : Machine} {μ μ' : MachineState} {h : Handler} {i p t : Nat}
  {after : AfterCleanup} {below : List Pending}

/-- Around the end of a block that is being run, the block is the innermost. -/
theorem innermost (hn : code.Nested) (hi : code.handlers[i]? = some h)
    (hstop : p + 1 = h.blockStop) (hend : code.instrs[p]? = some .endFinally)
    {inner outer : List Nat} (hblocks : blocksAt 0 code.handlers p = inner ++ i :: outer) :
    inner = [] := by
  cases inner with
  | nil => rfl
  | cons k inner =>
    obtain ⟨x, j, rest, hx, hrest, hxstop, -⟩ := hn.ends p hend
    obtain ⟨rfl, rfl⟩ := List.cons.inj (hrest.symm.trans hblocks)
    have hsorted := hn.pairwise_blocksAt p
    rw [hblocks] at hsorted
    obtain ⟨y, z, hy, hz, -, hlt⟩ := (List.pairwise_cons.1 hsorted).1 i (by simp)
    rw [hx, Option.some.injEq] at hy
    rw [hi, Option.some.injEq] at hz
    subst hy hz
    omega

/-- A turn within a block keeps the block and those below it. -/
theorem keeps_turn (hn : code.Nested) (hm : m.code = code)
    (ht : code.Tracks μ.pending μ.pointer) (hi : code.handlers[i]? = some h)
    (hpend : ∃ inner, μ.pending = inner ++ ⟨i, after⟩ :: below) (hturn : m.turn μ = .goes μ')
    (hholds : h.blockHolds μ'.pointer = true) (hne : μ.pointer + 1 ≠ h.blockStop) :
    ∃ inner, μ'.pending = inner ++ ⟨i, after⟩ :: below := by
  subst hm
  obtain ⟨inner, hpend⟩ := hpend
  have hblocks := ht.blocks
  rw [hpend, List.map_append, List.map_cons] at hblocks
  obtain ⟨entered, rest, keep, hspares, hpend', hkeep⟩ := Machine.turn_spares hturn
  -- The block itself is not the one that ends.
  obtain ⟨inner', hrest⟩ : ∃ inner', rest = inner' ++ ⟨i, after⟩ :: below := by
    rcases hspares with rfl | ⟨hend, frame, hframe⟩
    · exact ⟨inner, hpend⟩
    · rw [hpend] at hframe
      cases inner with
      | nil =>
        obtain ⟨x, j, outer, hx, houter, hstop, -⟩ := hn.ends μ.pointer hend
        obtain ⟨rfl, -⟩ := List.cons.inj (houter.symm.trans hblocks.symm)
        rw [hi, Option.some.injEq] at hx
        exact absurd (hx ▸ hstop).symm hne
      | cons f inner => exact ⟨inner, (List.cons.inj hframe).2.symm⟩
  -- The block and those below it hold the position that the turn leads to.
  have hin : ∀ frame ∈ (⟨i, after⟩ :: below : List Pending), keep frame = true := by
    intro frame hframe
    by_contra hdrop
    have hescapes := hkeep frame (by simpa using hdrop)
    have hsorted := hn.pairwise_blocksAt μ.pointer
    rw [← hblocks] at hsorted
    have hbelow := (List.pairwise_cons.1 (List.pairwise_append.1 hsorted).2.1).1
    obtain ⟨hcleanup, hlo, hhi⟩ := Handler.blockHolds_iff.1 hholds
    rcases List.mem_cons.1 hframe with rfl | hframe
    · simp [Machine.escapes, hi, hholds] at hescapes
    · obtain ⟨x, y, hx, hy, hle, hlt⟩ := hbelow _ (List.mem_map_of_mem hframe)
      rw [hi, Option.some.injEq] at hx
      subst hx
      have hmem : frame.handler ∈ blocksAt 0 m.code.handlers μ.pointer :=
        hblocks ▸ List.mem_append_right _ (List.mem_cons_of_mem _ (List.mem_map_of_mem hframe))
      obtain ⟨z, hz, hzp⟩ := mem_blocksAt_iff.1 hmem
      rw [hy, Option.some.injEq] at hz
      subst hz
      have hyt : y.blockHolds μ'.pointer = true :=
        Handler.blockHolds_iff.2 ⟨(Handler.blockHolds_iff.1 hzp).1, by omega, by omega⟩
      simp [Machine.escapes, hy, hyt] at hescapes
  refine ⟨entered ++ inner'.filter keep, ?_⟩
  rw [hpend', hrest, List.filter_append, List.filter_eq_self.2 hin, List.append_assoc]

/-- **A block that completes leaves the blocks being run as it found them.** -/
theorem pending_of_completes (hn : code.Nested) (hm : m.code = code)
    (ht : code.Tracks μ.pending μ.pointer) (hi : code.handlers[i]? = some h)
    (hend : code.instrs[h.blockStop - 1]? = some .endFinally)
    (hpend : μ.pending = ⟨i, after⟩ :: below) (hc : m.Completes h μ μ') :
    code.Tracks μ'.pending μ'.pointer ∧ μ'.pending = ⟨i, after⟩ :: below := by
  obtain ⟨hrun, hstop⟩ := hc
  have hkept : code.Tracks μ'.pending μ'.pointer ∧
      ∃ inner, μ'.pending = inner ++ ⟨i, after⟩ :: below := by
    clear hstop
    induction hrun with
    | refl => exact ⟨ht, [], hpend⟩
    | tail _ hturn ih =>
      obtain ⟨hgoes, hholds, hne⟩ := hturn
      exact ⟨hn.tracks_turn hm hgoes ih.1, hn.keeps_turn hm ih.1 hi ih.2 hgoes hholds hne⟩
  obtain ⟨htracks, inner, hinner⟩ := hkept
  have hblocks := htracks.blocks
  rw [hinner, List.map_append, List.map_cons] at hblocks
  have hptr : μ'.pointer = h.blockStop - 1 := by omega
  have hnil := hn.innermost hi hstop (hptr ▸ hend) hblocks.symm
  obtain rfl := List.map_eq_nil_iff.1 hnil
  exact ⟨htracks, hinner⟩

/-- **Leaving goes through the finally blocks on the way**, by induction on them: where a
block ends, the blocks that are still to be visited are those between its end and the
target. -/
theorem crosses_departed (hn : code.Nested) {a b : Nat} (htable : Tiered a b code.handlers)
    (hclosed : ∀ h ∈ code.handlers, h.isCleanup = true →
      code.instrs[h.blockStop - 1]? = some .endFinally) (hm : m.code = code)
    (hord : code.Ordered μ.pending)
    (hq : μ.pending.map (·.handler) = blocksAt 0 code.handlers t)
    (hp : code.Remain p (blocksAt 0 code.handlers t)) :
    m.Crosses t μ.pending (code.crossed p t) (m.departed p t μ) := by
  subst hm
  generalize hc : m.code.crossed p t = is
  induction is generalizing p μ with
  | nil =>
    rw [Machine.departed_of_none (Code.covers_of_crossed_nil hc)]
    exact ⟨rfl, rfl⟩
  | cons i is ih =>
    obtain ⟨h, hi, hfin, hcov, hnot, hfirst, hrest⟩ := htable.crossed_tail hc
    have htracks := hn.tracks_departed rfl hord hq hp
    rw [Machine.departed_of_crossed hi ⟨hfin, hcov, hnot⟩ hfirst] at htracks ⊢
    -- The block runs to its end and leaves from there, with the rest of the way before it.
    refine ⟨h, hi, rfl, rfl, fun ν hcomplete => ?_⟩
    have hend := hclosed h (List.mem_of_getElem? hi) (Handler.isCleanup_of_isFinally hfin)
    obtain ⟨htracks', hpend⟩ := hn.pending_of_completes rfl htracks hi hend rfl hcomplete
    have hptr : ν.pointer = h.blockStop - 1 := by
      have := hcomplete.2
      omega
    rw [← hptr] at hend hrest
    have hstep := Machine.step_endFinally hend hpend
    have hremain : m.code.Remain ν.pointer (blocksAt 0 m.code.handlers t) := by
      refine .inr ⟨hend, i, ?_⟩
      rw [← htracks'.blocks, hpend, List.map_cons, hq]
    refine ⟨_, by rw [Machine.turn, hstep], ?_⟩
    exact ih (μ := { ν with pointer := ν.pointer + 1, pending := μ.pending }) hord hq hremain hrest

end Code.Nested

/-! ## Compiled code -/

/-- **The table of compiled code is well nested, and leaving visits exactly the finally
blocks on the way.** Where an instruction leaves for `t`, the next turn starts on the
finally entries whose region covers its position but not `t`, in the order of the table;
each block that completes is followed by the next one, and the last by `t`. -/
theorem compileLambda_crossing {catalog : Catalog} {l : Lambda} {w w' : World} {c : BoundUnit}
    {code : Code} (h : compileLambda catalog l w = .ok (.compiled c, w'))
    (hcode : code = c.code ∨ w'.Holds code ∧ ¬w.Holds code) :
    code.WellTabled ∧
      ∀ (m : Machine) (w₀ : World) (locals : Array Value) (μ : MachineState) (t : Nat),
        m.code = code → m.Reaches { world := w₀, locals } μ →
          code.instrs[μ.pointer]? = some (.leave t) →
            ∃ μ', m.turn μ = .goes μ' ∧ m.Crosses t μ.pending (code.crossed μ.pointer t) μ' := by
  obtain ⟨l, env, hlow⟩ := compileLambda_holds h hcode
  obtain ⟨htable, hclosed⟩ := l.toCode_tiered hlow
  refine ⟨htable.wellTabled, fun m w₀ locals μ t hm hrun hi => ?_⟩
  have hn := l.toCode_nested hlow
  have ht := hn.tracks_reached hm hrun ⟨hn.start.symm, trivial⟩
  have hjump := hn.jumps μ.pointer _ t hi rfl
  refine ⟨m.departed μ.pointer t { μ with pointer := μ.pointer + 1 }, ?_, ?_⟩
  · rw [Machine.turn, Machine.step_of_some (hm ▸ hi), Machine.exec_leave]
    rfl
  · exact hn.crosses_departed (μ := { μ with pointer := μ.pointer + 1 }) htable hclosed hm
      ht.ordered (ht.blocks.trans hjump.symm) (.inl hjump)

/-- A lambda that jumps out of two regions with finally blocks. -/
def Lambda.escaping : Lambda := .mk 0 none [] .void
  (.block .void []
    [.protect
      (.protect (.goto .void .plain ⟨0, none, .void⟩ none) [] (.finally (.default .void)))
      [] (.finally (.default .void)),
     .label ⟨0, none, .void⟩ none])

/-- Its code. -/
def Code.escaping : Code where
  signature := Lambda.escaping.signature
  instrs := #[.nop, .nop, .leave 7, .leave 5, .endFinally, .leave 7, .endFinally, .constUnit, .ret]
  handlers := [⟨2, 4, 0, .finally 4 5⟩, ⟨1, 6, 0, .finally 6 7⟩]
  maxStack := 1

theorem compileLambda_crossing_escaping : ∃ μ μ' : MachineState,
    { Machine.guarded with code := .escaping }.Reaches { world := {}, locals := #[] } μ ∧
      Code.escaping.instrs[μ.pointer]? = some (.leave 7) ∧
        { Machine.guarded with code := .escaping }.turn μ = .goes μ' ∧
          { Machine.guarded with code := .escaping }.Crosses 7 [] [0, 1] μ' := by
  have hcompiled : compileLambda .empty .escaping {} = .ok (.compiled ⟨.escaping, .empty⟩, {}) := by
    cbv
  let m : Machine := { Machine.guarded with code := .escaping }
  let state (p : Nat) : MachineState := { world := {}, pointer := p, locals := #[] }
  have hrun : m.Reaches (state 0) (state 2) := by
    have h₁ : m.turn (state 0) = .goes (state 1) := rfl
    have h₂ : m.turn (state 1) = .goes (state 2) := rfl
    exact .head h₁ (.head h₂ .refl)
  obtain ⟨-, hcrosses⟩ := compileLambda_crossing hcompiled (.inl rfl)
  obtain ⟨μ', hturn, h⟩ := hcrosses m {} #[] (state 2) 7 rfl hrun rfl
  have hcrossed : Code.escaping.crossed 2 7 = [0, 1] := rfl
  exact ⟨_, μ', hrun, rfl, hturn, hcrossed ▸ h⟩

end TreeCode
