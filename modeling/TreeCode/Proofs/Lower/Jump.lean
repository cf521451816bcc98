import TreeCode.Proofs.Lower.Draft

/-!
# Tables, labels and jumps

What the primitive steps of lowering do to a draft. Steps that aim no jump are
`Draft.Quiet`; a new label, a jump and the place of a label get a lemma each.

Main results:

* `literal_ok`, `methodEntry_ok`, `structEntry_ok` — the entry named by the
  index is the one asked for.
* `jumpTo_stage`, `jumpTo_aims` — a jump is aimed at its label, which is
  reached at the height of the jump.
* `placeLabel_stage`, `placeLabel_placed` — a label is placed where the code
  ends, and jumps that waited for it are directed there.
-/

namespace TreeCode

namespace Lower

open Draft

variable {env : LowerEnv} {s s' : Draft} {u : Unit}

/-! ## Slots and tables -/

theorem newSlot_quiet {k : Nat} (h : newSlot env s = .ok (k, s')) : Quiet s s' := by
  obtain ⟨-, -, rfl⟩ := newSlot_ok.1 h
  exact .of_eq rfl rfl rfl rfl (Nat.le_succ _) (Nat.le_refl _) ⟨rfl, rfl, rfl, rfl⟩

theorem newSlot_same {k : Nat} (h : newSlot env s = .ok (k, s')) : Same s s' := by
  obtain ⟨-, -, rfl⟩ := newSlot_ok.1 h
  exact ⟨fun _ => rfl, rfl, rfl, rfl⟩

theorem checkRoom_ok {size limit : Nat} :
    checkRoom size limit env s = .ok (u, s') ↔ size < limit ∧ s = s' := by
  simp only [checkRoom, ite_ok, error_ok, pure_ok]
  grind

/-- An entry of a table is found by `p`, or `add` adds one at the end. -/
theorem intern_ok {α : Type} {T : Draft → Array α} {p : α → Bool} {add : Draft → Draft}
    {limit i : Nat}
    (h : (do
      match (T (← get)).findIdx? p with
      | some i => return i
      | none =>
        let index := (T (← get)).size
        checkRoom index limit
        modify add
        return index : LowerM Nat) env s = .ok (i, s')) :
    (s' = s ∧ ∃ x, (T s)[i]? = some x ∧ p x = true) ∨
      (s' = add s ∧ i = (T s).size) := by
  simp only [bind_ok, get_ok] at h
  obtain ⟨_, _, ⟨rfl, rfl⟩, h⟩ := h
  cases hj : (T s).findIdx? p with
  | some j =>
    simp only [hj, pure_ok] at h
    obtain ⟨rfl, rfl⟩ := h
    obtain ⟨hlt, hp, -⟩ := Array.findIdx?_eq_some_iff_getElem.1 hj
    exact .inl ⟨rfl, _, Array.getElem?_eq_getElem hlt, hp⟩
  | none =>
    simp only [hj, bind_ok, get_ok, checkRoom_ok, modify_ok, pure_ok] at h
    obtain ⟨_, _, ⟨rfl, rfl⟩, _, _, ⟨-, rfl⟩, _, _, rfl, rfl, rfl⟩ := h
    exact .inr ⟨rfl, rfl⟩

/-- At most entries of the tables were added. -/
structure Tabled (s t : Draft) : Prop where
  quiet : Quiet s t
  same : Same s t
  instrs : t.instrs = s.instrs
  depth : t.depth = s.depth
  reachable : t.reachable = s.reachable
  numLocals : t.numLocals = s.numLocals

theorem Tabled.refl (s : Draft) : Tabled s s := ⟨.refl _, .refl _, rfl, rfl, rfl, rfl⟩

theorem literal_ok {v : Value} {i : Nat} (h : literal v env s = .ok (i, s')) :
    Tabled s s' ∧ ∃ w, s'.literals[i]? = some w ∧ (w = v ∨ w.sharesLiteral v = true) := by
  rcases intern_ok (T := Draft.literals) h with ⟨rfl, w, hw, hp⟩ | ⟨rfl, rfl⟩
  · exact ⟨.refl _, w, hw, .inr hp⟩
  · exact ⟨⟨{ Quiet.refl s with literals := .push _ _ }, ⟨fun _ => rfl, rfl, rfl, rfl⟩, rfl, rfl,
      rfl, rfl⟩, v, by simp, .inl rfl⟩

theorem typeEntry_ok {t : Ty} {i : Nat} (h : typeEntry t env s = .ok (i, s')) :
    Tabled s s' ∧ s'.types[i]? = some t := by
  rcases intern_ok (T := Draft.types) h with ⟨rfl, w, hw, hp⟩ | ⟨rfl, rfl⟩
  · exact ⟨.refl _, by simp_all⟩
  · exact ⟨⟨{ Quiet.refl s with types := .push _ _ }, ⟨fun _ => rfl, rfl, rfl, rfl⟩, rfl, rfl,
      rfl, rfl⟩, by simp⟩

theorem methodEntry_ok {m : Method} {i : Nat} (h : methodEntry m env s = .ok (i, s')) :
    Tabled s s' ∧ s'.methods[i]? = some m := by
  rcases intern_ok (T := Draft.methods) h with ⟨rfl, w, hw, hp⟩ | ⟨rfl, rfl⟩
  · exact ⟨.refl _, by simp_all⟩
  · exact ⟨⟨{ Quiet.refl s with methods := .push _ _ }, ⟨fun _ => rfl, rfl, rfl, rfl⟩, rfl, rfl,
      rfl, rfl⟩, by simp⟩

theorem structEntry_ok {d : StructDef} {i : Nat} (h : structEntry d env s = .ok (i, s')) :
    Tabled s s' ∧ s'.structs[i]? = some d := by
  rcases intern_ok (T := Draft.structs) h with ⟨rfl, w, hw, hp⟩ | ⟨rfl, rfl⟩
  · exact ⟨.refl _, by simp_all⟩
  · exact ⟨⟨{ Quiet.refl s with structs := .push _ _ }, ⟨fun _ => rfl, rfl, rfl, rfl⟩, rfl, rfl,
      rfl, rfl⟩, by simp⟩

/-! ## New labels -/

theorem freshLabel_ok {r : Nat} :
    freshLabel env s = .ok (r, s') ↔
      s.labels.size = r ∧ { s with labels := s.labels.push {} } = s' :=
  addLabel_ok

/-- A label that nothing waits for is added; its value slot belongs to no other
label. -/
theorem stage_push_label {l : DraftLabel} {n : Nat} {names : List (Nat × Nat)}
    (hf : l.fixups = []) (hp : l.position = none)
    (hslot : ∀ k, l.valueSlot = some k → s.numLocals ≤ k ∧ k < n) (hn : s.numLocals ≤ n)
    (hnames : names = s.programLabels ∨ ∃ id, s.programLabels.lookup id = none ∧
      names = (id, s.labels.size) :: s.programLabels) (P : List Nat) :
    Stage P s { s with labels := s.labels.push l, programLabels := names, numLocals := n } := by
  generalize h : { s with labels := s.labels.push l, programLabels := names, numLocals := n } = s'
  replace h := h.symm
  -- All labels are old but the last one, and so are all names but at most one, which is for it.
  have hlabel : ∀ (r : Nat) (l' : DraftLabel), s'.labels[r]? = some l' →
      s.labels[r]? = some l' ∨ (r = s.labels.size ∧ l' = l) := by
    rw [h]
    grind
  have hold : ∀ (r : Nat) (l' : DraftLabel), s.labels[r]? = some l' →
      s'.labels[r]? = some l' := by
    rw [h]
    exact fun r l' hl => Grows.push _ _ r l' hl
  have hlookup : s'.programLabels = names := by rw [h]
  have hlocals : s'.numLocals = n := by rw [h]
  have hnamed : ∀ id r : Nat, s'.programLabels.lookup id = some r →
      s.programLabels.lookup id = some r ∨
        (s.programLabels.lookup id = none ∧ r = s.labels.size) := by
    intro id r hid
    rw [hlookup] at hid
    rcases hnames with rfl | ⟨id', hnone, rfl⟩
    · exact .inl hid
    · rw [List.lookup_cons] at hid
      grind
  have hkeep : ∀ id r : Nat, s.programLabels.lookup id = some r →
      s'.programLabels.lookup id = some r := by
    intro id r hid
    rw [hlookup]
    rcases hnames with rfl | ⟨id', hnone, rfl⟩
    · exact hid
    · rw [List.lookup_cons]
      grind
  have hinstrs : s'.instrs = s.instrs := by rw [h]
  have hhandlers : s'.handlers = s.handlers := by rw [h]
  -- No instruction and no region is added; the new label has no position to settle.
  refine ⟨?leads, fun hs => ?sound, fun hs id hid => ?settled, [], by simp [hhandlers], by simp⟩
  case leads =>
    exact
      { size_le := by simp [hinstrs]
        kept := fun p i hi => by
          obtain ⟨q, hq⟩ := i.exists_withTarget
          exact ⟨q, by rw [hq, hinstrs, hi]⟩
        aims := fun p i r c ⟨⟨l₀, hl₀, hcase⟩, halone⟩ => by
          refine ⟨⟨l₀, hold r l₀ hl₀, hinstrs ▸ hcase⟩, fun r' l' hl' hr c' => ?_⟩
          rcases hlabel r' l' hl' with hl' | ⟨-, rfl⟩
          · exact halone r' l' hl' hr c'
          · simp [hf]
        label := fun r l₀ hl₀ => ⟨l₀, hold r l₀ hl₀, .refl _⟩
        named := hkeep
        named_new := fun id r hid => by
          rcases hnamed id r hid with hid | ⟨-, rfl⟩
          · exact .inl hid
          · exact .inr (Nat.le_refl _)
        slot_new := fun r l₀ k hl₀ hk' hr => by
          rcases hlabel r l₀ hl₀ with hl₀ | ⟨-, rfl⟩
          · grind
          · exact (hslot k hk').1
        numLocals_le := hlocals ▸ hn
        nextCleanup_le := Nat.le_of_eq (by rw [h])
        handlers := by simp [hhandlers]
        literals := by rw [h]; exact .refl _
        types := by rw [h]; exact .refl _
        methods := by rw [h]; exact .refl _
        structs := by rw [h]; exact .refl _ }
  case sound =>
    have hsize : s'.labels.size = s.labels.size + 1 := by rw [h]; simp
    exact
      { named_lt := fun id r hid => by
          rcases hnamed id r hid with hid | ⟨-, rfl⟩
          · have := hs.named_lt id r hid
            omega
          · omega
        named_inj := fun id id' r hid hid' => by
          rcases hnamed id r hid with hid | ⟨hid, rfl⟩ <;>
            rcases hnamed id' _ hid' with hid' | ⟨hid', hr⟩
          · exact hs.named_inj id id' r hid hid'
          · exact absurd (hs.named_lt id r hid) (by omega)
          · exact absurd (hs.named_lt id' _ hid') (Nat.lt_irrefl _)
          · rcases hnames with rfl | ⟨id₀, hnone, rfl⟩ <;> grind
        slot_lt := fun r l₀ k hl₀ hk' => by
          rcases hlabel r l₀ hl₀ with hl₀ | ⟨-, rfl⟩
          · exact Nat.lt_of_lt_of_le (hs.slot_lt r l₀ k hl₀ hk') (hlocals ▸ hn)
          · exact hlocals ▸ (hslot k hk').2
        slot_inj := fun r r' l₁ l₂ k h₁ h₂ hk₁ hk₂ => by
          rcases hlabel r l₁ h₁ with h₁ | ⟨rfl, rfl⟩ <;>
            rcases hlabel r' l₂ h₂ with h₂ | ⟨rfl, rfl⟩
          · exact hs.slot_inj r r' l₁ l₂ k h₁ h₂ hk₁ hk₂
          · have := hs.slot_lt r l₁ k h₁ hk₁
            have := (hslot k hk₂).1
            omega
          · have := hs.slot_lt r' l₂ k h₂ hk₂
            have := (hslot k hk₁).1
            omega
          · rfl
        fixup_lt := fun r l₀ hl₀ x hx => by
          rcases hlabel r l₀ hl₀ with hl₀ | ⟨-, rfl⟩
          · simpa [hinstrs] using hs.fixup_lt r l₀ hl₀ x hx
          · simp [hf] at hx
        stop_le := by simpa [hinstrs, hhandlers] using hs.stop_le }
  case settled =>
    obtain ⟨r, l₀, hr, hl₀, hpos⟩ := hid
    rcases hlabel r l₀ hl₀ with hl₀ | ⟨-, rfl⟩
    · rcases hnamed id r hr with hr | ⟨-, rfl⟩
      · exact .inl ⟨r, l₀, hr, hl₀, hpos⟩
      · grind
    -- The new label is not placed.
    · exact absurd hp hpos

variable {c : Prop} {N : Names} {P I : List Nat}

/-- Labels that wait go on waiting when one is added. -/
theorem waiting_push {l : DraftLabel} {r : Nat} (h : s.Waiting r) {t : Draft}
    (ht : t.labels = s.labels.push l) : t.Waiting r := by
  obtain ⟨l₀, hl₀, hp⟩ := h
  exact ⟨l₀, ht ▸ Grows.push _ _ r l₀ hl₀, hp⟩

theorem freshLabel_step {r : Nat} (h : freshLabel env s = .ok (r, s')) :
    Step c N P I s s' := by
  obtain ⟨rfl, rfl⟩ := freshLabel_ok.1 h
  refine ⟨?_, fun _ => ⟨fun _ => rfl, rfl, rfl, rfl⟩, fun _ hs hv id r l hid hl => ?_,
    fun r _ _ hw => waiting_push hw rfl⟩
  · exact stage_push_label rfl rfl (by simp) (Nat.le_refl _) (.inl rfl) P
  · have hr : r < s.labels.size := hs.named_lt id r hid
    exact hv id r l hid (by grind)

theorem freshLabel_internal {r : Nat} (hs : s.Sound) (h : freshLabel env s = .ok (r, s')) :
    s'.Internal r := by
  obtain ⟨rfl, rfl⟩ := freshLabel_ok.1 h
  refine ⟨by simp, fun id hid => ?_⟩
  exact absurd (hs.named_lt id _ hid) (Nat.lt_irrefl _)

/-- What is known after the label of a program label was looked up. -/
structure Named (s s' : Draft) (id : Nat) (r : Nat) : Prop where
  lookup : s'.programLabels.lookup id = some r
  instrs : s'.instrs = s.instrs
  depth : s'.depth = s.depth
  reachable : s'.reachable = s.reachable
  same : Same s s'
  settled : s'.Settled id → s.Settled id

theorem programLabel_cases {l : Label} {r : Nat} (h : programLabel l env s = .ok (r, s')) :
    (s.programLabels.lookup l.id = some r ∧ s = s') ∨
      (s.programLabels.lookup l.id = none ∧ s.labels.size = r ∧
        ∃ k n, (l.ty.isVoid = true ∧ k = none ∧ n = s.numLocals ∨
            l.ty.isVoid = false ∧ k = some s.numLocals ∧ n = s.numLocals + 1) ∧
          s' = { s with
            labels := s.labels.push { name := some l.shown, valueSlot := k }
            programLabels := (l.id, r) :: s.programLabels
            numLocals := n }) := by
  simp only [programLabel, read_bind, get_bind, ite_ok, error_bind, reduceCtorEq, and_false,
    false_or] at h
  obtain ⟨-, -, h⟩ := h
  cases hl : s.programLabels.lookup l.id with
  | some r' =>
    simp only [hl, pure_ok] at h
    exact .inl ⟨congrArg some h.1, h.2⟩
  | none =>
    simp only [hl, ite_ok, pure_bind, addLabel_bind, modify_bind, pure_ok, bind_ok, map_ok,
      newSlot_ok] at h
    rcases h with ⟨hv, rfl, rfl⟩ | ⟨hv, _, _, ⟨_, ⟨-, rfl, rfl⟩, rfl⟩, rfl, rfl⟩
    · exact .inr ⟨rfl, rfl, none, _, .inl ⟨hv, rfl, rfl⟩, rfl⟩
    · exact .inr ⟨rfl, rfl, some s.numLocals, _, .inr ⟨by simpa using hv, rfl, rfl⟩, rfl⟩

theorem programLabel_step {l : Label} {r : Nat} (h : programLabel l env s = .ok (r, s'))
    (hN : c → N.Knows l) : Step c N P I s s' := by
  rcases programLabel_cases h with ⟨-, rfl⟩ | ⟨hnone, rfl, k, n, hk, rfl⟩
  · exact .refl s
  · refine ⟨?_, fun _ => ⟨fun _ => rfl, rfl, rfl, rfl⟩, fun hc hs hv id r l' hid hl' => ?_,
      fun r _ _ hw => waiting_push hw rfl⟩
    · exact stage_push_label rfl rfl (by grind) (by grind) (.inr ⟨l.id, hnone, rfl⟩) P
    · simp only [List.lookup_cons] at hid
      by_cases hid' : id = l.id
      · subst hid'
        have hN' : N.label l.id = l := hN hc
        rw [hN']
        grind
      · have hid : s.programLabels.lookup id = some r := by grind
        have hr : r < s.labels.size := hs.named_lt id r hid
        exact hv id r l' hid (by grind)

theorem programLabel_named {l : Label} {r : Nat} (h : programLabel l env s = .ok (r, s')) :
    Named s s' l.id r := by
  rcases programLabel_cases h with ⟨hl, rfl⟩ | ⟨hnone, rfl, k, n, hk, rfl⟩
  · exact ⟨hl, rfl, rfl, rfl, .refl _, id⟩
  · refine ⟨by simp, rfl, rfl, rfl, ⟨fun _ => rfl, rfl, rfl, rfl⟩, ?_⟩
    rintro ⟨r, l', hr, hl', hp⟩
    simp only [List.lookup_cons, BEq.rfl] at hr
    grind

/-! ## Jumps -/

/-- The label's height is set or confirmed. -/
theorem agreeOnHeight_cases {r : Nat} (h : agreeOnHeight r env s = .ok (u, s')) :
    ((s.labels[r]?.getD {}).depth = some s.depth ∧ s = s') ∨
      ((s.labels[r]?.getD {}).depth = none ∧
        s' = { s with labels := s.labels.modify r fun l => { l with depth := some s.depth } }) := by
  simp only [agreeOnHeight, labelAt_bind, get_bind] at h
  cases hd : (s.labels[r]?.getD {}).depth with
  | some d =>
    simp only [hd, ite_ok, unsupported_ok, and_false, false_or, pure_ok] at h
    obtain ⟨hne, -, rfl⟩ := h
    exact .inl ⟨by simpa using hne, rfl⟩
  | none =>
    simp only [hd, modifyLabel, modify_ok] at h
    exact .inr ⟨rfl, h.symm⟩

theorem agreeOnHeight_quiet {r : Nat} (h : agreeOnHeight r env s = .ok (u, s')) : Quiet s s' := by
  rcases agreeOnHeight_cases h with ⟨-, rfl⟩ | ⟨hd, rfl⟩
  · exact .refl s
  · refine { Quiet.refl s with labels_size := by simp, label := fun r' l hl => ?_ }
    by_cases hr : r = r'
    · subst hr
      exact ⟨some s.depth, [], by simp [Array.getElem?_modify, hl], .inl (by simpa [hl] using hd), by simp⟩
    · exact ⟨l.depth, [], by simp [Array.getElem?_modify, hr, hl], .inr rfl, by simp⟩

theorem agreeOnHeight_depth {r : Nat} {l : DraftLabel} (h : agreeOnHeight r env s = .ok (u, s'))
    (hl : s.labels[r]? = some l) :
    s'.labels[r]? = some { l with depth := some s.depth } := by
  rcases agreeOnHeight_cases h with ⟨hd, rfl⟩ | ⟨hd, rfl⟩
  · simp only [hl, Option.getD_some] at hd
    rw [hl, ← hd]
  · simp [Array.getElem?_modify, hl]

/-- Only heights of labels change. -/
theorem agreeOnHeight_back {r r' : Nat} {l' : DraftLabel}
    (h : agreeOnHeight r env s = .ok (u, s')) (hl' : s'.labels[r']? = some l') :
    ∃ l d, s.labels[r']? = some l ∧ l' = { l with depth := d } := by
  rcases agreeOnHeight_cases h with ⟨-, rfl⟩ | ⟨-, rfl⟩
  · exact ⟨l', l'.depth, hl', rfl⟩
  · simp only [Array.getElem?_modify] at hl'
    split at hl'
    · obtain ⟨l, hl, rfl⟩ := Option.map_eq_some_iff.1 hl'
      exact ⟨l, some s.depth, hl, rfl⟩
    · exact ⟨l', l'.depth, hl', rfl⟩

/-- What a jump leaves behind. -/
structure Jumped (s s' : Draft) (i : Instr) (r : Nat) : Prop where
  quiet : Quiet s s'
  same : Same s s'
  size : s'.instrs.size = s.instrs.size + 1
  depth : s'.depth = (s.emitted i).depth
  reachable : s'.reachable = (s.reachable && !i.transfersControl)
  numLocals : s'.numLocals = s.numLocals
  /-- The label is reached at the height of the jump. -/
  level : r < s.labels.size → ∃ l', s'.labels[r]? = some l' ∧ l'.depth = some s'.depth
  aims : s.Sound → r < s.labels.size → s'.Aims s.instrs.size i r s.cleanups.head?

/-- What the emission of a jump leaves once the height of its label is agreed on: the label
itself is as it was otherwise. -/
structure Aimed (s s' : Draft) (i : Instr) (q r : Nat) : Prop where
  quiet : Quiet s s'
  same : Same s s'
  instrs : s'.instrs = s.instrs.push (i.withTarget q)
  depth : s'.depth = (s.emitted i).depth
  reachable : s'.reachable = (s.reachable && !i.transfersControl)
  numLocals : s'.numLocals = s.numLocals
  label : ∀ l, s.labels[r]? = some l → s'.labels[r]? = some { l with depth := some s'.depth }

theorem agreeOnHeight_aimed {i : Instr} {q r : Nat} {s₁ : Draft}
    (hag : agreeOnHeight r env (s.emitted (i.withTarget q)) = .ok (u, s₁)) : Aimed s s₁ i q r := by
  have hquiet := (Quiet.emitted s (i.withTarget q)).trans (agreeOnHeight_quiet hag)
  -- The height after a jump does not depend on where it goes.
  have hheight : (s.emitted (i.withTarget q)).depth = (s.emitted i).depth := by
    simp [Draft.emitted]
  have hreach : (s.emitted (i.withTarget q)).reachable = (s.reachable && !i.transfersControl) := by
    simp [Draft.emitted]
  have hlabel := fun l => agreeOnHeight_depth (l := l) hag
  rcases agreeOnHeight_cases hag with ⟨-, rfl⟩ | ⟨-, rfl⟩
  · exact ⟨hquiet, ⟨fun _ => rfl, rfl, rfl, rfl⟩, rfl, hheight, hreach, rfl, hlabel⟩
  · exact ⟨hquiet, ⟨fun _ => rfl, rfl, rfl, rfl⟩, rfl, hheight, hreach, rfl, hlabel⟩

/-- A jump to a label that is placed needs no patching. -/
theorem jumped_of_placed {i : Instr} {r q : Nat} {s₁ : Draft}
    (hag : agreeOnHeight r env (s.emitted (i.withTarget q)) = .ok (u, s₁))
    (hat : ∀ l, s.labels[r]? = some l → l.position = some q ∧ l.cleanup = some s.cleanups.head?) :
    Jumped s s₁ i r := by
  have h := agreeOnHeight_aimed hag
  refine ⟨h.quiet, h.same, by simp [h.instrs], h.depth, h.reachable, h.numLocals,
    fun hr => ⟨_, h.label _ (Array.getElem?_eq_getElem hr), rfl⟩, fun hs hr => ?_⟩
  obtain ⟨l, hl⟩ : ∃ l, s.labels[r]? = some l := ⟨_, Array.getElem?_eq_getElem hr⟩
  obtain ⟨hposition, hcleanup⟩ := hat l hl
  refine ⟨⟨_, h.label l hl, .inr ⟨q, hposition, hcleanup, by simp [h.instrs]⟩⟩, ?_⟩
  intro r' l' hl' _ c' hmem
  obtain ⟨l₀, d, hl₀, rfl⟩ := agreeOnHeight_back hag hl'
  exact absurd (hs.fixup_lt r' l₀ hl₀ _ hmem) (Nat.lt_irrefl _)

/-- A jump to a label that is not placed waits for it. -/
theorem jumped_of_waiting {i : Instr} {r : Nat} {s₁ : Draft}
    (hag : agreeOnHeight r env (s.emitted (i.withTarget 0)) = .ok (u, s₁))
    (hat : ∀ l, s.labels[r]? = some l → l.position = none) :
    Jumped s { s₁ with labels := s₁.labels.modify r fun l =>
      { l with fixups := l.fixups ++ [(s.instrs.size, s.cleanups.head?)] } } i r := by
  have h := agreeOnHeight_aimed hag
  have hlabel : ∀ l, s.labels[r]? = some l → (s₁.labels.modify r fun l : DraftLabel =>
      { l with fixups := l.fixups ++ [(s.instrs.size, s.cleanups.head?)] })[r]? =
      some { l with
        depth := some s₁.depth
        fixups := l.fixups ++ [(s.instrs.size, s.cleanups.head?)] } := fun l hl => by
    rw [Array.getElem?_modify, if_pos rfl, h.label l hl]
    rfl
  refine ⟨?_, ⟨h.same.slots, h.same.caught, h.same.cleanups, h.same.hoisted⟩, by simp [h.instrs],
    h.depth, h.reachable, h.numLocals, fun hr => ⟨_, hlabel _ (Array.getElem?_eq_getElem hr), rfl⟩, fun hs hr => ?_⟩
  · refine { h.quiet with labels_size := by simpa using h.quiet.labels_size, label := fun r' l hl => ?_ }
    obtain ⟨d, fs, hd, hkeep, hfs⟩ := h.quiet.label r' l hl
    by_cases hr : r = r'
    · subst hr
      refine ⟨d, fs ++ [(s.instrs.size, s.cleanups.head?)], by simp [Array.getElem?_modify, hd],
        hkeep, fun x hx => ?_⟩
      rcases List.mem_append.1 hx with hx | hx
      · exact hfs x hx
      · simp only [List.mem_singleton] at hx
        simp [hx, h.instrs]
    · exact ⟨d, fs, by simp [Array.getElem?_modify, hr, hd], hkeep, hfs⟩
  · obtain ⟨l, hl⟩ : ∃ l, s.labels[r]? = some l := ⟨_, Array.getElem?_eq_getElem hr⟩
    refine ⟨⟨_, hlabel l hl, .inl ⟨hat l hl, by simp, 0, by simp [h.instrs]⟩⟩,
      fun r' l' hl' hr' c' hmem => ?_⟩
    simp only [Array.getElem?_modify] at hl'
    split at hl'
    · -- The label itself has no place, so it is exempt.
      rename_i heq
      obtain ⟨l₀, hl₀, rfl⟩ := Option.map_eq_some_iff.1 hl'
      obtain ⟨l₂, d, hl₂, rfl⟩ := agreeOnHeight_back hag hl₀
      subst heq
      exact hr' rfl (hat l₂ hl₂)
    · obtain ⟨l₂, d, hl₂, rfl⟩ := agreeOnHeight_back hag hl'
      exact absurd (hs.fixup_lt r' l₂ hl₂ _ hmem) (Nat.lt_irrefl _)

theorem jumpTo_jumped {i : Instr} {r : Nat} (h : jumpTo i r env s = .ok (u, s')) :
    Jumped s s' i r := by
  simp only [jumpTo, cleanupHere_bind, position_bind, labelAt_bind, ite_ok, unsupported_bind,
    reduceCtorEq, and_false, false_or, emit_bind, bind_ok] at h
  obtain ⟨hplaced, _, s₁, hag, hfix⟩ := h
  cases hpos : (s.labels[r]?.getD {}).position with
  | some q =>
    simp only [hpos, Option.getD_some, Option.isNone_some, Option.isSome_some, Bool.true_and,
      Bool.false_eq_true, false_and, not_false_eq_true, true_and, false_or, pure_ok] at hag hfix hplaced
    obtain ⟨-, rfl⟩ := hfix
    refine jumped_of_placed hag fun l hl => ?_
    simp only [hl, Option.getD_some] at hpos hplaced
    exact ⟨hpos, by simpa using hplaced⟩
  | none =>
    simp only [hpos, Option.getD_none, Option.isNone_none, true_and, not_true_eq_false, false_and,
      or_false, modifyLabel, modify_ok] at hag hfix
    subst hfix
    exact jumped_of_waiting hag fun l hl => by simpa [hl] using hpos

/-! ## Places -/

/-- The code after the waiting jumps were directed to a position. -/
def patched (q : Nat) (fixups : List (Nat × Option Nat)) (code : Array Instr) : Array Instr :=
  fixups.foldl (fun code x => code.modify x.1 (·.withTarget q)) code

theorem patch_ok {shown : String} {c : Option Nat} {q : Nat} {fixups : List (Nat × Option Nat)} :
    patch shown c q fixups env s = .ok (u, s') ↔
      (∀ x ∈ fixups, x.2 = c) ∧ { s with instrs := patched q fixups s.instrs } = s' := by
  induction fixups generalizing s with
  | nil => simp [patch, pure_ok, patched]
  | cons x rest ih =>
    simp only [patch, ite_ok, unsupported_bind, reduceCtorEq, and_false, false_or, modify_bind, ih]
    simp [patched, and_assoc]

@[simp] theorem size_patched (q : Nat) (fixups : List (Nat × Option Nat)) (code : Array Instr) :
    (patched q fixups code).size = code.size := by
  induction fixups generalizing code with
  | nil => rfl
  | cons x rest ih => simpa [patched] using ih (code.modify x.1 (·.withTarget q))

theorem getElem?_patched (q p : Nat) (fixups : List (Nat × Option Nat)) (code : Array Instr) :
    (patched q fixups code)[p]? =
      code[p]?.map fun i => if p ∈ fixups.map (·.1) then i.withTarget q else i := by
  induction fixups generalizing code with
  | nil => simp [patched]
  | cons x rest ih =>
    have hstep : patched q (x :: rest) code = patched q rest (code.modify x.1 (·.withTarget q)) :=
      rfl
    rw [hstep, ih, Array.getElem?_modify]
    by_cases hx : x.1 = p
    · cases code[p]? with
      | none => simp
      | some i => by_cases hp : p ∈ rest.map (·.1) <;> simp [hx, hp, Instr.withTarget_withTarget]
    · have hmem : p ∈ (x :: rest).map (·.1) ↔ p ∈ rest.map (·.1) := by
        simp [Ne.symm hx]
      simp only [hx, if_false, hmem]

/-- What the place of a label leaves behind. -/
structure Placed (s s' : Draft) (r : Nat) : Prop where
  size : s'.instrs.size = s.instrs.size
  same : Same s s'
  reachable : s'.reachable = true
  numLocals : s'.numLocals = s.numLocals
  depth : s.reachable = true → s'.depth = s.depth
  label : ∃ l', s'.labels[r]? = some l' ∧ l'.position = some s.instrs.size ∧
    l'.depth = some s'.depth ∧ l'.cleanup = some s.cleanups.head?

/-- A label about to be placed is reached at the height of the draft. -/
theorem arrive_ok {r : Nat} {l : DraftLabel} (h : arrive r l env s = .ok (u, s'))
    (hl : s.labels[r]? = some l) :
    Quiet s s' ∧ Same s s' ∧ s'.instrs = s.instrs ∧ s'.numLocals = s.numLocals ∧
      (s.reachable = true → s'.depth = s.depth) ∧
      (∀ (r' : Nat) l', s'.labels[r']? = some l' →
        ∃ l₀ d, s.labels[r']? = some l₀ ∧ l' = { l₀ with depth := d }) ∧
      s'.labels[r]? = some { l with depth := some s'.depth } := by
  simp only [arrive, get_bind, ite_ok] at h
  rcases h with ⟨-, h⟩ | ⟨hr, h⟩
  · have hquiet := agreeOnHeight_quiet h
    have hback := fun (r' : Nat) l' (hl' : s'.labels[r']? = some l') => agreeOnHeight_back h hl'
    have hdepth := agreeOnHeight_depth h hl
    -- Nothing but the height of the label is set.
    rcases agreeOnHeight_cases h with ⟨-, rfl⟩ | ⟨-, rfl⟩
    · exact ⟨hquiet, .refl s, rfl, rfl, fun _ => rfl, hback, hdepth⟩
    · exact ⟨hquiet, ⟨fun _ => rfl, rfl, rfl, rfl⟩, rfl, rfl, fun _ => rfl, hback, hdepth⟩
  · -- Unreachable code has the height of the label, if that has one.
    cases hd : l.depth with
    | some d =>
      simp only [hd, modify_ok] at h
      subst h
      refine ⟨.of_eq rfl rfl rfl rfl (Nat.le_refl _) (Nat.le_refl _) ⟨rfl, rfl, rfl, rfl⟩,
        ⟨fun _ => rfl, rfl, rfl, rfl⟩, rfl, rfl, fun h => absurd h hr,
        fun r' l' hl' => ⟨l', l'.depth, hl', rfl⟩, ?_⟩
      rw [hl, ← hd]
    | none =>
      simp only [hd, get_bind, modifyLabel, modify_ok] at h
      subst h
      refine ⟨{ Quiet.refl s with labels_size := by simp, label := fun r' l' hl' => ?_ },
        ⟨fun _ => rfl, rfl, rfl, rfl⟩, rfl, rfl, fun h => absurd h hr, fun r' l' hl' => ?_, ?_⟩
      · by_cases hr' : r = r'
        · subst hr'
          have : l' = l := by simpa [hl] using hl'.symm
          exact ⟨some s.depth, [], by simp [Array.getElem?_modify, hl, this], .inl (this ▸ hd),
            by simp⟩
        · exact ⟨l'.depth, [], by simp [Array.getElem?_modify, hr', hl'], .inr rfl, by simp⟩
      · simp only [Array.getElem?_modify] at hl'
        split at hl'
        · obtain ⟨l₀, hl₀, rfl⟩ := Option.map_eq_some_iff.1 hl'
          exact ⟨l₀, _, hl₀, rfl⟩
        · exact ⟨l', l'.depth, hl', rfl⟩
      · simp [Array.getElem?_modify, hl]

/-- A label that is not placed is placed where the code ends. -/
theorem placeLabel_cases {r : Nat} {l : DraftLabel} (h : placeLabel r env s = .ok (u, s'))
    (hl : s.labels[r]? = some l) :
    (l.position ≠ none ∧ s = s') ∨
      (l.position = none ∧ ∃ s₁, arrive r l env s = .ok ((), s₁) ∧
        (∀ x ∈ l.fixups, x.2 = s.cleanups.head?) ∧
        s' = { s₁ with
          reachable := true
          instrs := patched s.instrs.size l.fixups s₁.instrs
          labels := s₁.labels.modify r fun l =>
            { l with position := some s.instrs.size, cleanup := some s.cleanups.head?,
                     fixups := [] } }) := by
  simp only [placeLabel, labelAt_bind, hl, Option.getD_some, ite_ok, pure_ok] at h
  rcases h with ⟨hp, -, rfl⟩ | ⟨hp, h⟩
  · exact .inl ⟨by simpa [Option.isSome_iff_ne_none] using hp, rfl⟩
  · simp only [bind_ok, modify_ok, position_ok, cleanupHere_ok, patch_ok, modifyLabel] at h
    obtain ⟨_, s₁, ha, _, _, rfl, _, _, ⟨rfl, rfl⟩, _, _, ⟨rfl, rfl⟩, _, _, ⟨hfix, rfl⟩, rfl⟩ := h
    obtain ⟨-, hsame, hinstrs, -⟩ := arrive_ok ha hl
    refine .inr ⟨by simpa using hp, s₁, ha, ?_, ?_⟩
    · simpa only [hsame.cleanups] using hfix
    · simp only [hinstrs, hsame.cleanups]

theorem placeLabel_placed {r : Nat} {l : DraftLabel} (h : placeLabel r env s = .ok (u, s'))
    (hl : s.labels[r]? = some l) (hp : l.position = none) : Placed s s' r := by
  rcases placeLabel_cases h hl with ⟨hne, -⟩ | ⟨-, s₁, ha, -, rfl⟩
  · exact absurd hp hne
  · obtain ⟨-, hsame, hinstrs, hlocals, hdepth, -, hl₁⟩ := arrive_ok ha hl
    refine ⟨by simp [hinstrs], ⟨hsame.slots, hsame.caught, hsame.cleanups, hsame.hoisted⟩, rfl,
      hlocals, hdepth, _, by simp [Array.getElem?_modify, hl₁]; rfl, rfl, rfl, rfl⟩

/-- The place of a label, seen from the draft before it. -/
theorem placed_leads {r : Nat} {l : DraftLabel} {s₁ : Draft} (hl : s₁.labels[r]? = some l)
    (hp : l.position = none) {c : Option Nat} (hfix : ∀ x ∈ l.fixups, x.2 = c) :
    s₁.Leads { s₁ with
      reachable := true
      instrs := patched s₁.instrs.size l.fixups s₁.instrs
      labels := s₁.labels.modify r fun l =>
        { l with position := some s₁.instrs.size, cleanup := some c, fixups := [] } } := by
  refine { Leads.refl s₁ with
    size_le := by simp, kept := fun p i hi => ?_, aims := fun p i r' c' ha => ?_,
    label := fun r' l' hl' => ?_, slot_new := fun r' l' k hl' hk hr' => ?_ }
  · obtain ⟨q, hq⟩ := i.exists_withTarget
    rw [getElem?_patched, hi, Option.map_some]
    split
    · exact ⟨_, rfl⟩
    · exact ⟨q, by rw [hq]⟩
  -- A jump that waits for the label is directed to it; the others stay as they are.
  · obtain ⟨⟨l', hl', hcase⟩, halone⟩ := ha
    have halone' : ∀ (r₂ : Nat) (l₂ : DraftLabel), (s₁.labels.modify r fun l =>
        { l with position := some s₁.instrs.size, cleanup := some c, fixups := [] })[r₂]? = some l₂ →
        (r₂ = r' → l₂.position ≠ none) → ∀ c₂, (p, c₂) ∉ l₂.fixups := by
      intro r₂ l₂ hl₂ hr₂ c₂
      simp only [Array.getElem?_modify] at hl₂
      split at hl₂
      · obtain ⟨l₀, -, rfl⟩ := Option.map_eq_some_iff.1 hl₂
        simp
      · exact halone r₂ l₂ hl₂ hr₂ c₂
    by_cases hr : r = r'
    · subst hr
      have : l' = l := by simpa [hl] using hl'.symm
      subst this
      rcases hcase with ⟨-, hmem, q, hq⟩ | ⟨q, hq, -⟩
      · refine ⟨⟨{ l' with position := some s₁.instrs.size, cleanup := some c, fixups := [] },
          by simp [Array.getElem?_modify, hl], .inr ⟨_, rfl, congrArg some (hfix _ hmem).symm, ?_⟩⟩,
          halone'⟩
        have hin : p ∈ l'.fixups.map (·.1) := List.mem_map_of_mem (f := (·.1)) hmem
        simp [getElem?_patched, hq, hin, Instr.withTarget_withTarget]
      · simp [hp] at hq
    -- The jump goes to another label, so it does not wait for this one.
    · have hout : p ∉ l.fixups.map (·.1) := by
        simp only [List.mem_map, not_exists, not_and]
        rintro ⟨p', c₂⟩ hmem rfl
        exact halone r l hl (fun h => absurd h hr) c₂ hmem
      have hinstr : ∀ i, s₁.instrs[p]? = some i →
          (patched s₁.instrs.size l.fixups s₁.instrs)[p]? = some i := by
        intro i hi
        simp only [getElem?_patched, hi, hout, if_false, Option.map_some]
      refine ⟨⟨l', by simp [Array.getElem?_modify, hr, hl'], ?_⟩, halone'⟩
      rcases hcase with ⟨hn, hmem, q, hq⟩ | ⟨q, hq, hc, hi⟩
      · exact .inl ⟨hn, hmem, q, hinstr _ hq⟩
      · exact .inr ⟨q, hq, hc, hinstr _ hi⟩
  · by_cases hr : r = r'
    · subst hr
      have : l' = l := by simpa [hl] using hl'.symm
      subst this
      exact ⟨{ l' with position := some s₁.instrs.size, cleanup := some c, fixups := [] },
        by simp [Array.getElem?_modify, hl], rfl, by simp [hp], fun _ h => h, by simp [hp]⟩
    · exact ⟨l', by simp [Array.getElem?_modify, hr, hl'], .refl _⟩
  -- Labels are neither made nor forgotten.
  · have hlt : r' < s₁.labels.size := by
      have := Array.getElem?_eq_some_iff.1 hl'
      simpa using this.1
    omega

/-- A label that the program does not name, or one of those it may place here,
is placed. -/
theorem placeLabel_step {r : Nat} (h : placeLabel r env s = .ok (u, s')) (hr : r < s.labels.size)
    (hP : s.Internal r ∨ ∃ id ∈ P, s.programLabels.lookup id = some r) (hI : r ∈ I) :
    Step c N P I s s' := by
  have hl : s.labels[r]? = some s.labels[r] := by simp
  generalize s.labels[r] = l at hl
  rcases placeLabel_cases h hl with ⟨-, rfl⟩ | ⟨hp, s₁, ha, hfix, rfl⟩
  · exact .refl s
  obtain ⟨hq, hsame, hinstrs, -, -, -, hl₁⟩ := arrive_ok ha hl
  rw [← hinstrs]
  -- Placing the label comes after the quiet change that sets its height.
  refine (hq.step hsame).trans ⟨⟨placed_leads hl₁ hp hfix, fun hs => ?_, fun hs id hid => ?_,
    [], by simp, by simp⟩, fun _ => ⟨fun _ => rfl, rfl, rfl, rfl⟩, fun _ _ hv id r' l' hid hl' => ?_,
    fun r' _ hr' hw => ?_⟩
  · have hback : ∀ (r' : Nat) (l' : DraftLabel), (s₁.labels.modify r fun l =>
        { l with position := some s₁.instrs.size, cleanup := some s.cleanups.head?,
                 fixups := [] })[r']? = some l' →
        ∃ l₀, s₁.labels[r']? = some l₀ ∧ l'.valueSlot = l₀.valueSlot ∧ l'.fixups ⊆ l₀.fixups := by
      intro r' l' hl'
      simp only [Array.getElem?_modify] at hl'
      split at hl'
      · obtain ⟨l₀, hl₀, rfl⟩ := Option.map_eq_some_iff.1 hl'
        exact ⟨l₀, hl₀, rfl, by simp⟩
      · exact ⟨l', hl', rfl, List.Subset.refl _⟩
    refine ⟨by simpa using hs.named_lt, hs.named_inj, fun r' l' k hl' hk => ?_,
      fun r₁ r₂ l₁ l₂ k h₁ h₂ hk₁ hk₂ => ?_, fun r' l' hl' x hx => ?_, by simpa using hs.stop_le⟩
    · obtain ⟨l₀, hl₀, hslot, -⟩ := hback r' l' hl'
      exact hs.slot_lt r' l₀ k hl₀ (hslot ▸ hk)
    · obtain ⟨m₁, hm₁, hslot₁, -⟩ := hback r₁ l₁ h₁
      obtain ⟨m₂, hm₂, hslot₂, -⟩ := hback r₂ l₂ h₂
      exact hs.slot_inj r₁ r₂ m₁ m₂ k hm₁ hm₂ (hslot₁ ▸ hk₁) (hslot₂ ▸ hk₂)
    · obtain ⟨l₀, hl₀, -, hsub⟩ := hback r' l' hl'
      simpa using hs.fixup_lt r' l₀ hl₀ x (hsub hx)
  · obtain ⟨r', l', hr', hl', hpos⟩ := hid
    have hr'' : s.programLabels.lookup id = some r' := hq.programLabels ▸ hr'
    by_cases heq : r = r'
    · subst heq
      rcases hP with hint | ⟨id', hid', hlook⟩
      · exact absurd hr'' (hint.unnamed id)
      · exact .inr (hs.named_inj id id' r hr' (hq.programLabels ▸ hlook) ▸ hid')
    · refine .inl ⟨r', l', hr', ?_, hpos⟩
      simpa [Array.getElem?_modify, heq] using hl'
  · simp only [Array.getElem?_modify] at hl'
    split at hl'
    · obtain ⟨l₀, hl₀, rfl⟩ := Option.map_eq_some_iff.1 hl'
      exact hv id r' l₀ hid hl₀
    · exact hv id r' l' hid hl'
  · obtain ⟨l', hl', hp'⟩ := hw
    have hne : r ≠ r' := fun h => hr' (h ▸ hI)
    exact ⟨l', by simpa [Array.getElem?_modify, hne] using hl', hp'⟩

end Lower

end TreeCode
