import TreeCode.Proofs.Lower.Path

/-!
# Order of the table of protected regions

Entries are added to the table when the code of their region and of its handlers is
complete. So an entry comes behind those of the regions in its own code, and the table
can be read from the inside out: what is said here of two entries of which one comes
first is all that looking for the first entry that covers a position relies on.

Main definitions:

* `Handler.Sits` — an entry, its region before its block, lies in a stretch of code.
* `Handler.Precedes` — how an entry lies to a later one of the table.
* `Tiered` — the entries of a stretch of code are in this order.

Main results:

* `Tiered.addCatches`, `Tiered.addCleanup` — the entries of a region around code.
* `Lambda.toCode_tiered` — **the table of every compiled unit is in order**.
-/

namespace TreeCode

open Lower Draft

/-! ## Entries in order -/

namespace Handler

/-- The entry lies in the code between two positions. Its region is not empty, and its
block, if it has one, comes behind the region. -/
structure Sits (h : Handler) (a b : Nat) : Prop where
  start : a ≤ h.start
  region : h.start < h.stop
  stop : h.stop ≤ b
  block : h.isCleanup = true → h.stop ≤ h.target ∧ h.target < h.blockStop ∧ h.blockStop ≤ b

/-- How an entry may lie to a later one. -/
inductive Precedes (h h' : Handler) : Prop
  /-- Region and block come before the later region. -/
  | apart (hstop : h.stop ≤ h'.start) (hblock : h.isCleanup = true → h.blockStop ≤ h'.start)
  /-- Region and block lie in the later region. -/
  | inside (hstart : h'.start ≤ h.start) (hstop : h.stop ≤ h'.stop)
      (hblock : h.isCleanup = true → h.blockStop ≤ h'.stop)
  /-- The region lies behind the later one; where that has a block, the last instruction of
  the block is not in the region. -/
  | behind (hstart : h'.stop ≤ h.start) (hblock : h'.isCleanup = true → h.stop < h'.blockStop)

variable {h : Handler} {a a' b b' : Nat}

theorem Sits.mono (hs : h.Sits a b) (ha : a' ≤ a) (hb : b ≤ b') : h.Sits a' b' where
  start := Nat.le_trans ha hs.start
  region := hs.region
  stop := Nat.le_trans hs.stop hb
  block hc := ⟨(hs.block hc).1, (hs.block hc).2.1, Nat.le_trans (hs.block hc).2.2 hb⟩

end Handler

/-- The entries lie in the code between two positions, each in order with the later ones. -/
structure Tiered (a b : Nat) (hs : List Handler) : Prop where
  sits : ∀ h ∈ hs, h.Sits a b
  order : hs.Pairwise Handler.Precedes

namespace Tiered

variable {a b c d : Nat} {hs hs' cs : List Handler}

theorem nil : Tiered a b [] := ⟨by simp, .nil⟩

/-- Stretches of code one after the other. -/
theorem append (h : Tiered a b hs) (h' : Tiered b c hs') (hab : a ≤ b) (hbc : b ≤ c) :
    Tiered a c (hs ++ hs') where
  sits x hx := (List.mem_append.1 hx).elim (fun hx => (h.sits x hx).mono (Nat.le_refl a) hbc)
    fun hx => (h'.sits x hx).mono hab (Nat.le_refl c)
  order := by
    refine List.pairwise_append.2 ⟨h.order, h'.order, fun x hx y hy => ?_⟩
    have hxb := h.sits x hx
    have hby := (h'.sits y hy).start
    exact .apart (Nat.le_trans hxb.stop hby) fun hc => Nat.le_trans (hxb.block hc).2.2 hby

/-- The entries of handlers are added: the region spans the code `a ..< b`, the handlers
the code behind it. -/
theorem addCatches (h : Tiered a b hs) (h' : Tiered b c hs') (hab : a < b) (hbc : b ≤ c)
    (hcs : ∀ x ∈ cs, x.isCleanup = false ∧ x.start = a ∧ x.stop = b) :
    Tiered a c (hs ++ hs' ++ cs) := by
  have hall := h.append h' (Nat.le_of_lt hab) hbc
  refine ⟨fun x hx => ?_, List.pairwise_append.2 ⟨hall.order, ?_, fun x hx y hy => ?_⟩⟩
  · rcases List.mem_append.1 hx with hx | hx
    · exact hall.sits x hx
    · obtain ⟨hkind, rfl, rfl⟩ := hcs x hx
      exact ⟨Nat.le_refl _, hab, hbc, fun hc => absurd hc (by simp [hkind])⟩
  · -- The handlers of one region span the same code.
    refine List.pairwise_of_forall_mem_list fun x hx y hy => ?_
    obtain ⟨hkind, hstart, hstop⟩ := hcs x hx
    obtain ⟨-, hstart', hstop'⟩ := hcs y hy
    exact .inside (by omega) (by omega) fun hc => absurd hc (by simp [hkind])
  · obtain ⟨hkind, rfl, rfl⟩ := hcs y hy
    rcases List.mem_append.1 hx with hx | hx
    · have hs := h.sits x hx
      exact .inside hs.start hs.stop fun hc => (hs.block hc).2.2
    · exact .behind (h'.sits x hx).start fun hc => absurd hc (by simp [hkind])

/-- The entry of a region with a block is added: the region spans the code `a ..< b`, and
the block the code behind it, up to an instruction that ends it. -/
theorem addCleanup {x : Handler} (h : Tiered a c hs) (hsides : ∀ y ∈ hs, y.Sits a b ∨ b ≤ y.start)
    (hab : a < b) (hbc : b ≤ c) (hstart : x.start = a) (hstop : x.stop = b) (htarget : x.target = b)
    (hblock : x.blockStop = c + 1) : Tiered a (c + 1) (hs ++ [x]) := by
  refine ⟨fun y hy => ?_, List.pairwise_append.2 ⟨h.order, by simp, fun y hy z hz => ?_⟩⟩
  · rcases List.mem_append.1 hy with hy | hy
    · exact (h.sits y hy).mono (Nat.le_refl _) (Nat.le_succ _)
    · obtain rfl := List.mem_singleton.1 hy
      exact ⟨by omega, by omega, by omega, fun _ => by omega⟩
  · obtain rfl := List.mem_singleton.1 hz
    have hyc := (h.sits y hy).stop
    rcases hsides y hy with hy | hy
    · exact .inside (hstart ▸ hy.start) (hstop ▸ hy.stop) fun hc => hstop ▸ (hy.block hc).2.2
    · exact .behind (hstop ▸ hy) fun _ => by omega

end Tiered

/-! ## Steps that leave the table alone -/

section Steps

variable {env : LowerEnv} {s s' t u : Draft} {α β : Type} {J : List Nat}

theorem agreeOnHeight_still {r : Nat} {a : Unit} (h : agreeOnHeight r env s = .ok (a, s')) :
    s'.instrs = s.instrs ∧ s'.handlers = s.handlers := by
  simp only [agreeOnHeight, labelAt_bind, get_bind] at h
  generalize (s.labels[r]?.getD {}).depth = d at h
  cases d with
  | none => exact modify_ok.1 h ▸ ⟨rfl, rfl⟩
  | some d =>
    simp only [ite_ok, unsupported_ok, pure_ok, and_false, false_or] at h
    exact h.2.2 ▸ ⟨rfl, rfl⟩

theorem arrive_still {r : Nat} {l : DraftLabel} {a : Unit} (h : arrive r l env s = .ok (a, s')) :
    s'.instrs = s.instrs ∧ s'.handlers = s.handlers := by
  simp only [arrive, get_bind, ite_ok] at h
  rcases h with ⟨-, h⟩ | ⟨-, h⟩
  · exact agreeOnHeight_still h
  · generalize l.depth = d at h
    cases d <;> exact modify_ok.1 h ▸ ⟨rfl, rfl⟩

/-- Directing jumps leaves the ends of blocks alone. -/
theorem ends_patched {q p : Nat} {fixups : List (Nat × Option Nat)} {code : Array Instr}
    (h : code[p]? = some .endFinally) : (patched q fixups code)[p]? = some .endFinally := by
  rw [getElem?_patched, h]
  split <;> rfl

/-- Placing a label adds neither code nor entries. -/
theorem placeLabel_still {r : Nat} {a : Unit} (h : placeLabel r env s = .ok (a, s')) :
    s'.instrs.size = s.instrs.size ∧ s'.handlers = s.handlers ∧ ∀ p, s.Ends p → s'.Ends p := by
  simp only [placeLabel, labelAt_bind, ite_ok, pure_ok, bind_ok, modify_ok, position_ok,
    cleanupHere_ok, patch_ok, modifyLabel] at h
  rcases h with ⟨-, -, rfl⟩ | ⟨-, _, s₁, harrive, _, _, rfl, _, _, ⟨rfl, rfl⟩, _, _, ⟨-, rfl⟩, _, _,
    ⟨-, rfl⟩, rfl⟩
  · exact ⟨rfl, rfl, fun _ h => h⟩
  · obtain ⟨hinstrs, hhandlers⟩ := arrive_still harrive
    exact ⟨by simp [hinstrs], hhandlers, fun p hp => ends_patched (by rw [hinstrs]; exact hp)⟩

/-! ## Steps that keep the order -/

/-- The blocks of entries end with the instruction that ends a block. -/
def Draft.Closes (s : Draft) (hs : List Handler) : Prop :=
  ∀ h ∈ hs, h.isCleanup = true → s.Ends (h.blockStop - 1)

theorem Draft.Closes.append {hs hs' : List Handler} (h : s.Closes hs) (h' : s.Closes hs') :
    s.Closes (hs ++ hs') :=
  fun x hx => (List.mem_append.1 hx).elim (h x) (h' x)

/-- From `s` to `t`, entries were added that lie in order in the new code. -/
structure Draft.Tiers (s t : Draft) : Prop where
  size_le : s.instrs.size ≤ t.instrs.size
  ends : ∀ p, s.Ends p → t.Ends p
  handlers : ∃ hs, t.handlers = s.handlers ++ hs ∧ Tiered s.instrs.size t.instrs.size hs ∧
    t.Closes hs

namespace Draft.Tiers

theorem of_still (hsize : s.instrs.size ≤ t.instrs.size) (h : t.handlers = s.handlers)
    (hends : ∀ p, s.Ends p → t.Ends p) : s.Tiers t :=
  ⟨hsize, hends, [], by simp [h], .nil, by simp [Draft.Closes]⟩

/-- Neither code nor entries are added. -/
theorem of_same (hinstrs : t.instrs = s.instrs) (h : t.handlers = s.handlers) : s.Tiers t :=
  of_still (hinstrs ▸ Nat.le_refl _) h fun _ hp => by rw [Draft.Ends, hinstrs]; exact hp

theorem of_quiet (h : Quiet s t) : s.Tiers t :=
  of_still h.size_le h.handlers fun p hp => h.instrs p _ hp

theorem closes (h : s.Tiers t) {hs : List Handler} (hhs : s.Closes hs) : t.Closes hs :=
  fun x hx hc => h.ends _ (hhs x hx hc)

theorem trans (h : s.Tiers t) (h' : t.Tiers u) : s.Tiers u := by
  obtain ⟨hs, hhs, htier, hcloses⟩ := h.handlers
  obtain ⟨hs', hhs', htier', hcloses'⟩ := h'.handlers
  exact ⟨Nat.le_trans h.size_le h'.size_le, fun p hp => h'.ends p (h.ends p hp), hs ++ hs',
    by rw [hhs', hhs, List.append_assoc], htier.append htier' h.size_le h'.size_le,
    (h'.closes hcloses).append hcloses'⟩

end Draft.Tiers

/-- A step of lowering keeps the table in order. -/
def InOrder (x : LowerM α) : Prop := ∀ ⦃env s a s'⦄, x env s = .ok (a, s') → s.Tiers s'

namespace InOrder

theorem of_quiet {x : LowerM α} (h : ∀ ⦃env s a s'⦄, x env s = .ok (a, s') → Quiet s s') :
    InOrder x :=
  fun _ _ _ _ hx => .of_quiet (h hx)

theorem bindOf {x : LowerM α} {f : α → LowerM β} (hx : InOrder x)
    (hf : ∀ a, MayGive x a → InOrder (f a)) : InOrder (x >>= f) := by
  intro env s b s' h
  obtain ⟨a, s₁, h₁, h₂⟩ := bind_ok.1 h
  exact (hx h₁).trans (hf a ⟨env, s, s₁, h₁⟩ h₂)

theorem bind {x : LowerM α} {f : α → LowerM β} (hx : InOrder x) (hf : ∀ a, InOrder (f a)) :
    InOrder (x >>= f) :=
  hx.bindOf fun a _ => hf a

theorem change {g : Draft → Draft} (h : ∀ s, Quiet s (g s)) : InOrder (modify g : LowerM Unit) :=
  of_quiet fun _ s _ _ hx => modify_ok.1 hx ▸ h s

end InOrder

/-- Routine steps add no entries. -/
theorem inOrder_scoped : Scoped fun x => InOrder x where
  pure {_ _} := InOrder.of_quiet fun _ _ _ _ h => (pure_ok.1 h).2 ▸ .refl _
  bind := InOrder.bindOf
  get := InOrder.of_quiet fun _ _ _ _ h => (get_ok.1 h).2 ▸ .refl _
  read := InOrder.of_quiet fun _ _ _ _ h => (read_ok.1 h).2 ▸ .refl _
  unsupported {_ _} := fun _ _ _ _ h => absurd h (by simp [unsupported_ok])
  error {_ _} := fun _ _ _ _ h => absurd h (by simp [error_ok])
  emit {_} _ _ := InOrder.change fun s => .emitted s _
  newSlot := InOrder.of_quiet fun _ _ _ _ h => newSlot_quiet h
  literal {_ _} _ := InOrder.bindOf (InOrder.of_quiet fun _ _ _ _ h => (literal_ok h).1.quiet)
    fun _ _ => InOrder.change fun s => .emitted s _
  typeEntry {_} := InOrder.of_quiet fun _ _ _ _ h => (typeEntry_ok h).1.quiet
  methodEntry {_} := InOrder.of_quiet fun _ _ _ _ h => (methodEntry_ok h).1.quiet
  structEntry {_} := InOrder.of_quiet fun _ _ _ _ h => (structEntry_ok h).1.quiet
  slots {_} := InOrder.change fun s => .of_scope s _ _ _ _ _ _ (Nat.le_refl _)
  hoisted {_} := InOrder.change fun _ =>
    .of_eq rfl rfl rfl rfl (Nat.le_refl _) (Nat.le_refl _) ⟨rfl, rfl, rfl, rfl⟩
  caught {_} := InOrder.change fun s => .of_scope s _ _ _ _ _ _ (Nat.le_refl _)
  assumePushed := InOrder.change fun _ =>
    .of_eq rfl rfl rfl rfl (Nat.le_refl _) (Nat.le_refl _) ⟨rfl, rfl, rfl, rfl⟩

theorem placeLabel_inOrder {r : Nat} : InOrder (placeLabel r) := fun _ _ _ _ h =>
  have hstill := placeLabel_still h
  .of_still hstill.1.ge hstill.2.1 hstill.2.2

theorem programLabel_inOrder {l : Label} : InOrder (programLabel l) := by
  intro env s r s' h
  rcases programLabel_cases h with ⟨-, rfl⟩ | ⟨-, -, k, n, -, rfl⟩
  · exact .of_same rfl rfl
  · exact .of_same rfl rfl

/-- The handlers of a region, with their entries. -/
theorem catches_tiers {start stop depth : Nat} {result : Option Nat} {done : Nat} {f : Usage}
    {ks : List CatchPart} {cs : List Handler} (hk : ∀ k ∈ ks, ∀ slot f, InOrder (catchBody k slot f))
    (h : catches start stop depth result done f ks env s = .ok (cs, t)) :
    s.Tiers t ∧ ∀ c ∈ cs, c.isCleanup = false ∧ c.start = start ∧ c.stop = stop := by
  induction ks generalizing s cs with
  | nil =>
    obtain ⟨rfl, rfl⟩ := pure_ok.1 h
    exact ⟨.of_same rfl rfl, by simp⟩
  | cons k ks ih =>
    simp only [catches, resumeAt, modify_bind, position_bind, bind_ok, pure_ok] at h
    obtain ⟨slot, s₁, h₁, _, s₂, h₂, _, s₃, h₃, _, s₄, h₄, rest, s₅, h₅, rfl, rfl⟩ := h
    obtain ⟨htiers, hrest⟩ := ih (fun k hk' => hk k (by simp [hk'])) h₅
    have hfirst : s.Tiers { s with depth := depth, reachable := true } :=
      .of_same rfl rfl
    have hbody := hk k (by simp) slot f h₂
    refine ⟨hfirst.trans ((Draft.Tiers.of_quiet (newSlot_quiet h₁)).trans (hbody.trans
      ((inOrder_scoped.keepResult h₃).trans
        ((Draft.Tiers.of_quiet (jumpTo_jumped h₄).quiet).trans htiers)))), fun c hc => ?_⟩
    rcases List.mem_cons.1 hc with rfl | hc
    · exact ⟨rfl, rfl, rfl⟩
    · exact hrest c hc

/-- A finally or fault block, with its entry. -/
theorem cleanup_tiers {start stop depth : Nat} {f : Usage} {k : CleanupPart} {xs : List Handler}
    (hk : ∀ f, InOrder (k.block.emit f))
    (h : cleanupBlock start stop depth f (some k) env s = .ok (xs, t)) :
    ∃ e : Draft, s.Tiers e ∧ t.handlers = e.handlers ∧ t.instrs.size = e.instrs.size + 1 ∧
      (∀ p, e.Ends p → t.Ends p) ∧ t.Ends (t.instrs.size - 1) ∧ ∃ kind, xs = [{ start, stop, depth, kind }] ∧
        (kind = .finally s.instrs.size t.instrs.size ∨
          kind = .fault s.instrs.size t.instrs.size) := by
  simp only [cleanupBlock, resumeAt, modify_bind, position_bind, bind_ok, emit_bind, pure_ok] at h
  obtain ⟨_, s₂, h₂, rfl, rfl⟩ := h
  have hquiet := Quiet.emitted s₂ .endFinally
  refine ⟨s₂, ⟨(hk _ h₂).size_le, (hk _ h₂).ends, (hk _ h₂).handlers⟩, rfl,
    by simp [Draft.emitted], fun p hp => hquiet.instrs p _ hp, by simp [Draft.Ends, Draft.emitted],
    _, rfl, ?_⟩
  cases k.isFinally <;> simp

theorem regionWith_inOrder {p : Part} {ks : List CatchPart} {o : Option CleanupPart} {f : Usage}
    {result : Option Nat} (hp : ∀ f, InOrder (p.emit f))
    (hk : ∀ k ∈ ks, ∀ slot f, InOrder (catchBody k slot f))
    (ho : ∀ k, o = some k → ∀ f, InOrder (k.block.emit f)) :
    InOrder (regionWith p ks o f result) := by
  intro env s u s' hx
  obtain ⟨done, s₁, s₃, s₄, s₅, cs, s₆, xs, s₇, s₉, h₁, h₃, h₄, h₅, h₆, h₇, h₉, h⟩ :=
    regionWith_ok hx
  obtain ⟨s₂, hs₂⟩ : ∃ s₂, s₂ = s₁.emitted .nop := ⟨_, rfl⟩
  rw [← hs₂] at h₃ h₆ h₇
  have hfront : s.Tiers s₂ := by
    obtain ⟨-, rfl⟩ := freshLabel_ok.1 h₁
    subst hs₂
    have hlabel : s.Tiers { s with labels := s.labels.push {} } := .of_same rfl rfl
    exact hlabel.trans (.of_quiet (.emitted _ .nop))
  -- The code of the region ends with an instruction of its own.
  have hbody := (hp _ h₃).trans (inOrder_scoped.keepResult h₄)
  have hjump := jumpTo_jumped h₅
  have hregion := hbody.trans (.of_quiet hjump.quiet)
  have hlt : s₂.instrs.size < s₅.instrs.size := by
    have := hbody.size_le
    have := hjump.size
    omega
  obtain ⟨hcatch, hcs⟩ := catches_tiers hk h₆
  obtain ⟨hs₁, hhs₁, htier₁, hcloses₁⟩ := hregion.handlers
  obtain ⟨hs₂, hhs₂, htier₂, hcloses₂⟩ := hcatch.handlers
  have hcloses : s₆.Closes (hs₁ ++ hs₂ ++ cs) := ((hcatch.closes hcloses₁).append hcloses₂).append
    fun c hc hk => by simp [(hcs c hc).1] at hk
  have hcovered := htier₁.addCatches htier₂ hlt hcatch.size_le hcs
  have htable : s₂.Tiers { s₇ with handlers := s₇.handlers ++ (cs ++ xs) } := by
    cases o with
    | none =>
      obtain ⟨rfl, rfl⟩ := pure_ok.1 h₇
      exact ⟨Nat.le_trans (Nat.le_of_lt hlt) hcatch.size_le,
        fun p hp => hcatch.ends p (hregion.ends p hp), hs₁ ++ hs₂ ++ cs, by simp [hhs₂, hhs₁],
        hcovered, hcloses⟩
    | some k =>
      obtain ⟨e, hblock, hhandlers, hsize, hends, hend, kind, rfl, hkind⟩ :=
        cleanup_tiers (ho k rfl) h₇
      obtain ⟨hs₃, hhs₃, htier₃, hcloses₃⟩ := hblock.handlers
      have hse := hblock.size_le
      have hcaught := htier₁.addCatches (htier₂.append htier₃ hcatch.size_le hse) hlt
        (Nat.le_trans hcatch.size_le hse) hcs
      -- What the block contains lies behind the region, and all else in it.
      have hsides : ∀ y ∈ hs₁ ++ (hs₂ ++ hs₃) ++ cs,
          y.Sits s₂.instrs.size s₆.instrs.size ∨ s₆.instrs.size ≤ y.start := by
        intro y hy
        by_cases hy₃ : y ∈ hs₃
        · exact .inr (htier₃.sits y hy₃).start
        · refine .inl (hcovered.sits y ?_)
          simp only [List.mem_append, hy₃, or_false] at hy ⊢
          exact hy
      have hle := hcatch.size_le
      have hadded := hcaught.addCleanup
        (x := { start := s₂.instrs.size, stop := s₆.instrs.size, depth := s.depth, kind }) hsides
        (Nat.lt_of_lt_of_le hlt hle) hse rfl rfl (by rcases hkind with rfl | rfl <;> rfl)
        (by rcases hkind with rfl | rfl <;> rw [hsize] <;> rfl)
      refine ⟨by show s₂.instrs.size ≤ s₇.instrs.size; omega,
        fun p hp => hends p (hblock.ends p (hcatch.ends p (hregion.ends p hp))), _,
        by simp only [hhandlers, hhs₃, hhs₂, hhs₁, List.append_assoc], hsize ▸ hadded,
        fun y hy hc => ?_⟩
      -- Each block was ended before, but for the one that is added.
      by_cases hnew : y = { start := s₂.instrs.size, stop := s₆.instrs.size, depth := s.depth, kind }
      · have hstop : y.blockStop = s₇.instrs.size := by
          rcases hkind with rfl | rfl <;> rw [hnew] <;> rfl
        rw [hstop]
        exact hend
      · have hold : y ∈ hs₁ ++ hs₂ ++ cs ∨ y ∈ hs₃ := by
          simp only [List.mem_append, List.mem_singleton, hnew, or_false] at hy ⊢
          rcases hy with (hy | hy | hy) | hy <;> simp only [hy, true_or, or_true]
        rcases hold with hy | hy
        · exact hends _ (hblock.ends _ (hcloses y hy hc))
        · exact hends _ (hcloses₃ y hy hc)
  refine hfront.trans (htable.trans ((placeLabel_inOrder h₉).trans
    (Routine.ite (P := fun x => InOrder x) ?_ inOrder_scoped.pure h)))
  split
  · exact inOrder_scoped.emit rfl rfl
  · exact inOrder_scoped.pure

/-- **Keeping the table in order is a rule of lowering.** -/
theorem order_rule : Rule (fun _ => True) fun _ _ _ _ _ x => InOrder x where
  toStepRule := Labelled.rule (Q := fun _ _ _ x => InOrder x) {
    routine := inOrder_scoped
    mono := fun h _ _ => h
    jump := fun _ _ => InOrder.of_quiet fun _ _ _ _ h => (jumpTo_jumped h).quiet
    place := fun _ _ => placeLabel_inOrder
    fresh := InOrder.bind fun _ _ _ _ h => by
      obtain ⟨-, rfl⟩ := freshLabel_ok.1 h
      exact .of_same rfl rfl
    program := programLabel_inOrder.bind }
  region _ hp hh ho := regionWith_inOrder (fun f => hp [] [] [] f)
    (fun k hk slot f => hh k hk [] [] [.slot slot] slot f (by simp))
    fun k hk f => ho k hk [] [] [] f

theorem unit_inOrder {l : Lambda} : InOrder (unit l) :=
  inOrder_scoped.unit ((order_rule.part l.body [] fun _ _ => trivial).emit [] [] [])

end Steps

/-- **The table of every compiled unit is in order**, and its blocks are ended. -/
theorem Lambda.toCode_tiered {l : Lambda} {env : LowerEnv} {code : Code}
    (h : l.toCode env = .ok code) : Tiered 0 code.instrs.size code.handlers ∧
      ∀ h ∈ code.handlers, h.isCleanup = true →
        code.instrs[h.blockStop - 1]? = some .endFinally := by
  obtain ⟨t, hu, rfl⟩ := Lambda.toCode_ok.1 h
  obtain ⟨hs, hhandlers, htiered, hcloses⟩ := (unit_inOrder hu).handlers
  obtain rfl : t.handlers = hs := by simpa using hhandlers
  exact ⟨htiered, hcloses⟩

end TreeCode
