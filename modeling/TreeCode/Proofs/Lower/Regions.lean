import TreeCode.Proofs.Lower.Acts
import TreeCode.Proofs.Lower.Layout

/-!
# Where lowering puts protected regions

Lowering numbers the finally and fault blocks it is in, and refuses a jump whose
label is placed under another number. `Draft.Spans` ties these numbers to the
entries of the table, so that jumps of the finished code stay in their block; it
is closed under sequences and under regions, hence a rule of lowering.

Main definitions:

* `Draft.Spans` — what a stretch of lowering adds to the table and the code.
* `Draft.Lays` — a stretch that leaves the numbers of the blocks around it alone.
* `Code.Nested` — the regions and blocks of a unit are nested.

Main results:

* `Lower.lays_rule` — stretches of lowering are of this kind.
* `Lambda.toCode_nested` — **the regions and blocks of every compiled unit are
  nested**, and its jumps stay in the block that they stand in.
-/

namespace TreeCode

@[simp] theorem Instr.falls_withTarget (i : Instr) (q : Nat) :
    (i.withTarget q).falls = i.falls := by
  cases i <;> rfl

@[simp] theorem Instr.isSome_target?_withTarget (i : Instr) (q : Nat) :
    (i.withTarget q).target?.isSome = i.target?.isSome := by
  cases i <;> rfl

theorem Instr.target?_of_withTarget {i : Instr} {p q : Nat}
    (h : (i.withTarget p).target? = some q) : p = q := by
  cases i <;> first | exact Option.some.inj h | cases h

namespace Draft

variable {s t u : Draft} {r p q : Nat} {i : Instr} {c : Option Nat}

theorem Aims.withTarget (h : s.Aims p i r c) (q : Nat) : s.Aims p (i.withTarget q) r c :=
  ⟨by simpa only [Instr.withTarget_withTarget] using h.known, h.alone⟩

theorem Aims.instr (h : s.Aims p i r c) : ∃ q, s.instrs[p]? = some (i.withTarget q) := by
  obtain ⟨l, -, ⟨-, -, q, hq⟩ | ⟨q, -, -, hq⟩⟩ := h.known <;> exact ⟨q, hq⟩

/-- Control passes on to the next instruction without ending a block. -/
def Falls (s : Draft) (p : Nat) : Prop := ∃ i, s.instrs[p]? = some i ∧ i.falls = true

/-- A finally or fault block ends. -/
def Ends (s : Draft) (p : Nat) : Prop := s.instrs[p]? = some .endFinally

theorem Falls.of_leads (h : s.Leads t) (hp : p < s.instrs.size) (ht : t.Falls p) : s.Falls p := by
  obtain ⟨i, hi, hf⟩ := ht
  obtain ⟨q, hq⟩ := h.kept p s.instrs[p] (by simp [hp])
  refine ⟨s.instrs[p], by simp [hp], ?_⟩
  rw [hi, Option.some.injEq] at hq
  rwa [hq, Instr.falls_withTarget] at hf

theorem Ends.of_leads (h : s.Leads t) (hp : p < s.instrs.size) (ht : t.Ends p) : s.Ends p := by
  obtain ⟨q, hq⟩ := h.kept p s.instrs[p] (by simp [hp])
  rw [Ends] at ht
  rw [ht, Option.some.injEq] at hq
  have hi : s.instrs[p] = .endFinally := by
    generalize s.instrs[p] = i at hq
    cases i <;> first | rfl | cases hq
  simp [Ends, hp, hi]

/-- The numbers of the blocks around a position, given the numbers `ident` of the
entries and those of the blocks that have no entry yet. -/
def idsAt (m : Nat) (hs : List Handler) (ident : Nat → Nat) (amb : Nat → List Nat) (p : Nat) :
    List Nat :=
  (blocksAt m hs p).map ident ++ amb p

/-- Lowering leads from `s` to `t` and adds the entries `hs`. Around position `p`
stand, besides blocks with an entry, those numbered `amb p`. -/
structure Spans (amb : Nat → List Nat) (E : Nat → Prop) (s t : Draft) (hs : List Handler)
    (ident : Nat → Nat) : Prop where
  leads : s.Leads t
  sound : t.Sound
  handlers : t.handlers = s.handlers ++ hs
  fits : Fits s.instrs.size t.instrs.size s.handlers.length hs t.Falls E
  ids : ∀ h k, (h, k) ∈ hs.zipIdx s.handlers.length → h.isCleanup = true →
    s.nextCleanup ≤ ident k ∧ ident k < t.nextCleanup
  inj : ∀ h k h' k', (h, k) ∈ hs.zipIdx s.handlers.length →
    (h', k') ∈ hs.zipIdx s.handlers.length → h.isCleanup = true → h'.isCleanup = true →
      ident k = ident k' → k = k'
  jumps : ∀ p i, s.instrs.size ≤ p → t.instrs[p]? = some i → i.target?.isSome = true →
    ∃ r, t.Aims p i r (idsAt s.handlers.length hs ident amb p).head?
  places : ∀ (r : Nat) (l : DraftLabel) (q : Nat), t.labels[r]? = some l → l.position = some q →
    (∃ l₀, s.labels[r]? = some l₀ ∧ l₀.position = some q) ∨
      (s.instrs.size ≤ q ∧ q ≤ t.instrs.size ∧
        l.cleanup = some (idsAt s.handlers.length hs ident amb q).head?)

variable {amb : Nat → List Nat} {E : Nat → Prop} {hs hs' : List Handler} {ident ident' : Nat → Nat}

/-- A stretch that adds no entry. -/
theorem Spans.plain (hleads : s.Leads t) (hsound : t.Sound) (hhandlers : t.handlers = s.handlers)
    (hE : ∀ p, s.instrs.size ≤ p → p < t.instrs.size → ¬E p)
    (hjumps : ∀ p i, s.instrs.size ≤ p → t.instrs[p]? = some i → i.target?.isSome = true →
      ∃ r, t.Aims p i r (amb p).head?)
    (hplaces : ∀ (r : Nat) (l : DraftLabel) (q : Nat), t.labels[r]? = some l →
      l.position = some q → (∃ l₀, s.labels[r]? = some l₀ ∧ l₀.position = some q) ∨
        (s.instrs.size ≤ q ∧ q ≤ t.instrs.size ∧ l.cleanup = some (amb q).head?)) :
    Spans amb E s t [] ident where
  leads := hleads
  sound := hsound
  handlers := by simp [hhandlers]
  fits := .nil hE
  ids := by simp
  inj := by simp
  jumps := by simpa [idsAt, blocksAt] using hjumps
  places := by simpa [idsAt, blocksAt] using hplaces

/-- A change that adds code without jumps at most. -/
theorem Spans.quiet (h : Quiet s t) (hs : s.Sound)
    (hE : ∀ p, s.instrs.size ≤ p → p < t.instrs.size → ¬E p)
    (hjumps : ∀ p i, s.instrs.size ≤ p → t.instrs[p]? = some i → i.target? = none) :
    Spans amb E s t [] ident := by
  refine .plain h.leads (h.sound hs) h.handlers hE (fun p i hp hi hj => ?_) fun r l q hl hq => ?_
  · simp [hjumps p i hp hi] at hj
  · obtain ⟨l₀, d, fs, hl₀, rfl, -⟩ := h.label_back hl
    exact .inl ⟨l₀, hl₀, hq⟩

theorem idsAt_append_left (hs₁ : Spans amb E s t hs ident) (hs₂ : Spans amb E t u hs' ident')
    (hp : p ≤ t.instrs.size) :
    idsAt s.handlers.length (hs ++ hs')
        (fun k => if k < t.handlers.length then ident k else ident' k) amb p =
      idsAt s.handlers.length hs ident amb p := by
  have hm : s.handlers.length + hs.length = t.handlers.length := by simp [hs₁.handlers]
  rw [idsAt, idsAt, blocksAt_append, hm, hs₂.fits.blocksAt_left hp, List.append_nil]
  refine congrArg (· ++ amb p) (List.map_congr_left fun k hk => ?_)
  obtain ⟨h, hk, -⟩ := mem_blocksAt.1 hk
  exact if_pos (hm ▸ (lt_of_mem_zipIdx hk).2)

theorem idsAt_append_right (hs₁ : Spans amb E s t hs ident) (hp : t.instrs.size ≤ p) :
    idsAt s.handlers.length (hs ++ hs')
        (fun k => if k < t.handlers.length then ident k else ident' k) amb p =
      idsAt t.handlers.length hs' ident' amb p := by
  have hm : s.handlers.length + hs.length = t.handlers.length := by simp [hs₁.handlers]
  rw [idsAt, idsAt, blocksAt_append, hm, hs₁.fits.blocksAt_right hp, List.nil_append]
  refine congrArg (· ++ amb p) (List.map_congr_left fun k hk => ?_)
  obtain ⟨h, hk, -⟩ := mem_blocksAt.1 hk
  exact if_neg (Nat.not_lt.2 (lt_of_mem_zipIdx hk).1)

/-- Stretches one after the other. -/
theorem Spans.trans (h₁ : Spans amb E s t hs ident) (h₂ : Spans amb E t u hs' ident') :
    Spans amb E s u (hs ++ hs') fun k => if k < t.handlers.length then ident k else ident' k := by
  have hm : s.handlers.length + hs.length = t.handlers.length := by simp [h₁.handlers]
  have hle₁ := h₁.leads.size_le
  have hle₂ := h₂.leads.size_le
  -- An entry belongs to the first stretch or to the second one, as its place in the table tells, and
  -- blocks of different stretches are numbered apart.
  have hcases : ∀ {x : Handler} {k : Nat}, (x, k) ∈ (hs ++ hs').zipIdx s.handlers.length →
      (x, k) ∈ hs.zipIdx s.handlers.length ∧ k < t.handlers.length ∨
        (x, k) ∈ hs'.zipIdx t.handlers.length ∧ ¬k < t.handlers.length := by
    intro x k hx
    rw [List.zipIdx_append, List.mem_append, hm] at hx
    exact hx.imp (fun hx => ⟨hx, hm ▸ (lt_of_mem_zipIdx hx).2⟩)
      fun hx => ⟨hx, Nat.not_lt.2 (lt_of_mem_zipIdx hx).1⟩
  have hids : ∀ {x : Handler} {k : Nat}, (x, k) ∈ (hs ++ hs').zipIdx s.handlers.length →
      x.isCleanup = true →
        (k < t.handlers.length ∧ (x, k) ∈ hs.zipIdx s.handlers.length ∧
          s.nextCleanup ≤ ident k ∧ ident k < t.nextCleanup) ∨
        (¬k < t.handlers.length ∧ (x, k) ∈ hs'.zipIdx t.handlers.length ∧
          t.nextCleanup ≤ ident' k ∧ ident' k < u.nextCleanup) := by
    intro x k hx hc
    exact (hcases hx).imp (fun ⟨hx, hk⟩ => ⟨hk, hx, h₁.ids x k hx hc⟩)
      fun ⟨hx, hk⟩ => ⟨hk, hx, h₂.ids x k hx hc⟩
  have hnext₁ := h₁.leads.nextCleanup_le
  have hnext₂ := h₂.leads.nextCleanup_le
  refine ⟨h₁.leads.trans h₂.leads, h₂.sound, by rw [h₂.handlers, h₁.handlers, List.append_assoc],
    ?_, fun x k hx hc => ?_, fun x k x' k' hx hx' hc hc' heq => ?_, fun p i hp hi hj => ?_,
    fun r l q hl hq => ?_⟩
  · exact (h₁.fits.congr (fun p _ hp hF => Falls.of_leads h₂.leads hp hF) fun _ _ _ h => h).append
      (hm ▸ h₂.fits) hle₁ hle₂
  · rcases hids hx hc with ⟨hk, -, hbound⟩ | ⟨hk, -, hbound⟩
    · rw [if_pos hk]
      omega
    · rw [if_neg hk]
      omega
  · rcases hids hx hc with ⟨hk, hx, hbound⟩ | ⟨hk, hx, hbound⟩ <;>
      rcases hids hx' hc' with ⟨hk', hx', hbound'⟩ | ⟨hk', hx', hbound'⟩
    · rw [if_pos hk, if_pos hk'] at heq
      exact h₁.inj x k x' k' hx hx' hc hc' heq
    · rw [if_pos hk, if_neg hk'] at heq
      omega
    · rw [if_neg hk, if_pos hk'] at heq
      omega
    · rw [if_neg hk, if_neg hk'] at heq
      exact h₂.inj x k x' k' hx hx' hc hc' heq
  · by_cases hpt : p < t.instrs.size
    · obtain ⟨q, hq⟩ := h₂.leads.kept p t.instrs[p] (by simp [hpt])
      rw [hi, Option.some.injEq] at hq
      rw [hq, Instr.isSome_target?_withTarget] at hj
      obtain ⟨r, hr⟩ := h₁.jumps p t.instrs[p] hp (by simp [hpt]) hj
      rw [idsAt_append_left h₁ h₂ (Nat.le_of_lt hpt), hq]
      exact ⟨r, (h₂.leads.aims _ _ _ _ hr).withTarget q⟩
    · rw [idsAt_append_right h₁ (Nat.not_lt.1 hpt)]
      exact h₂.jumps p i (Nat.not_lt.1 hpt) hi hj
  · rcases h₂.places r l q hl hq with ⟨l₁, hl₁, hq₁⟩ | ⟨hge, hle, hc⟩
    · refine (h₁.places r l₁ q hl₁ hq₁).imp_right fun ⟨hge, hle, hc⟩ => ⟨hge, by omega, ?_⟩
      obtain ⟨l', hl', hb⟩ := h₂.leads.label r l₁ hl₁
      rw [hl, Option.some.injEq] at hl'
      subst hl'
      rw [idsAt_append_left h₁ h₂ hle]
      exact hb.cleanup q _ hq₁ hc
    · refine .inr ⟨by omega, hle, ?_⟩
      rw [idsAt_append_right h₁ hge]
      exact hc

/-- A stretch after one that adds no entry. -/
theorem Spans.before (h₁ : Spans amb E s t [] ident) (h₂ : Spans amb E t u hs ident) :
    Spans amb E s u hs ident := by
  simpa using h₁.trans h₂

/-- A stretch before one that adds no entry. -/
theorem Spans.after (h₁ : Spans amb E s t hs ident) (h₂ : Spans amb E t u [] ident) :
    Spans amb E s u hs ident := by
  simpa using h₁.trans h₂

/-- Blocks without an entry are numbered in another way outside of the stretch
only. -/
theorem Spans.congr {amb' : Nat → List Nat} {E' : Nat → Prop} (h : Spans amb E s t hs ident)
    (hamb : ∀ p, s.instrs.size ≤ p → p ≤ t.instrs.size → amb' p = amb p)
    (hE : ∀ p, p < t.instrs.size → E' p → E p) : Spans amb' E' s t hs ident where
  leads := h.leads
  sound := h.sound
  handlers := h.handlers
  fits := h.fits.congr (fun _ _ _ h => h) fun p _ hp => hE p hp
  ids := h.ids
  inj := h.inj
  jumps p i hp hi hj := by
    obtain ⟨r, hr⟩ := h.jumps p i hp hi hj
    have hlt : p < t.instrs.size := (Array.getElem?_eq_some_iff.1 hi).1
    exact ⟨r, by rwa [idsAt, hamb p hp (Nat.le_of_lt hlt)]⟩
  places r l q hl hq := (h.places r l q hl hq).imp_right fun ⟨hge, hle, hc⟩ =>
    ⟨hge, hle, by rwa [idsAt, hamb q hge hle]⟩

/-- The entries of the handlers of a region are added. -/
theorem Spans.addCatches {cs : List Handler} {start stop : Nat} (h : Spans amb E s t hs ident)
    (ha : s.instrs.size < start) (hb : stop ≤ t.instrs.size)
    (hside : ∀ h ∈ hs, ∀ p q, h.blockHolds p = true → h.blockHolds q = true →
      start ≤ p ∧ p < stop → start ≤ q ∧ q < stop)
    (hcs : ∀ c ∈ cs, c.isCleanup = false ∧ c.start = start ∧ c.stop = stop ∧
      (start ≤ c.target ∧ stop ≤ c.target ∧ c.target < t.instrs.size) ∧
        blocksAt s.handlers.length hs c.target = []) :
    Spans amb E s { t with handlers := t.handlers ++ cs } (hs ++ cs) ident := by
  have hleads := leads_addHandlers t cs
  have hloc : ∀ p, idsAt s.handlers.length (hs ++ cs) ident amb p =
      idsAt s.handlers.length hs ident amb p := fun p => by
    have hnone : ∀ c ∈ cs, c.blockHolds p = false := fun c hc => Bool.eq_false_iff.2 fun hp => by
      rw [Handler.blockHolds_iff, (hcs c hc).1] at hp
      simp at hp
    rw [idsAt, idsAt, blocksAt_append, blocksAt_eq_nil hnone, List.append_nil]
  have hold : ∀ {x : Handler} {k : Nat}, (x, k) ∈ (hs ++ cs).zipIdx s.handlers.length →
      x.isCleanup = true → (x, k) ∈ hs.zipIdx s.handlers.length := by
    intro x k hx hc
    rw [List.zipIdx_append, List.mem_append] at hx
    refine hx.resolve_right fun hx => ?_
    simp [(hcs x (List.fst_mem_of_mem_zipIdx hx)).1] at hc
  refine ⟨h.leads.trans hleads, h.sound.addHandlers fun c hc => ?_, by simp [h.handlers],
    h.fits.addCatches ha hb hside hcs, fun x k hx hc => h.ids x k (hold hx hc) hc,
    fun x k x' k' hx hx' hc hc' => h.inj x k x' k' (hold hx hc) (hold hx' hc') hc hc',
    fun p i hp hi hj => ?_, fun r l q hl hq => ?_⟩
  · rw [(hcs c hc).2.2.1]
    exact hb
  · obtain ⟨r, hr⟩ := h.jumps p i hp hi hj
    exact ⟨r, by rw [hloc]; exact hleads.aims _ _ _ _ hr⟩
  · rw [hloc]
    exact h.places r l q hl hq

/-- The entry of a region with a finally or fault block is added. The block, so far
known by its number `n` only, becomes one with an entry. -/
theorem Spans.addCleanup {E' : Nat → Prop} {x : Handler} {cl : List Nat} {n : Nat}
    (h : Spans amb E s t hs ident) (hx : x.isCleanup = true) (hstop : x.stop = x.target)
    (ha : s.instrs.size < x.start) (hstart : x.start ≤ x.target) (hlt : x.target < x.blockStop)
    (hb : x.blockStop ≤ t.instrs.size)
    (hF : ∀ p, t.Falls p → p + 1 ≠ x.target ∧ p + 1 ≠ x.blockStop)
    (hE : ∀ p, E' p → E p ∨ p + 1 = x.blockStop)
    (hregion : ∀ h ∈ hs, ∀ p q, h.blockHolds p = true → h.blockHolds q = true →
      x.covers p = true → x.covers q = true)
    (hblock : ∀ h ∈ hs, ∀ p q, h.blockHolds p = true → h.blockHolds q = true →
      x.blockHolds p = x.blockHolds q)
    (htarget : ∀ h ∈ hs, ∀ p, h.covers p = true → x.blockHolds p = x.blockHolds h.target)
    (hend : ∀ h ∈ hs, h.covers (x.blockStop - 1) = false)
    (hfirst : blocksAt s.handlers.length hs x.target = [])
    (hlast : blocksAt s.handlers.length hs (x.blockStop - 1) = [])
    (hamb : ∀ p, amb p = if x.blockHolds p then n :: cl else cl)
    (hn : s.nextCleanup ≤ n ∧ n < t.nextCleanup)
    (hfresh : ∀ h k, (h, k) ∈ hs.zipIdx s.handlers.length → h.isCleanup = true → ident k ≠ n) :
    Spans (fun _ => cl) E' s { t with handlers := t.handlers ++ [x] } (hs ++ [x])
      fun k => if k = s.handlers.length + hs.length then n else ident k := by
  have hleads := leads_addHandlers t [x]
  have hcases : ∀ {y : Handler} {k : Nat}, (y, k) ∈ (hs ++ [x]).zipIdx s.handlers.length →
      ((y, k) ∈ hs.zipIdx s.handlers.length ∧ k ≠ s.handlers.length + hs.length) ∨
        k = s.handlers.length + hs.length := by
    intro y k hy
    rw [List.zipIdx_append, List.mem_append] at hy
    rcases hy with hy | hy
    · exact .inl ⟨hy, Nat.ne_of_lt (lt_of_mem_zipIdx hy).2⟩
    · exact .inr (by simpa using (by simpa using hy : y = x ∧ _).2)
  -- What was known to lie in block `n` of the surroundings now lies in the block of the new entry.
  have hloc : ∀ p, idsAt s.handlers.length (hs ++ [x])
      (fun k => if k = s.handlers.length + hs.length then n else ident k) (fun _ => cl) p =
        idsAt s.handlers.length hs ident amb p := fun p => by
    have hmap : (blocksAt s.handlers.length hs p).map
        (fun k => if k = s.handlers.length + hs.length then n else ident k) =
          (blocksAt s.handlers.length hs p).map ident := List.map_congr_left fun k hk => by
      obtain ⟨y, hy, -⟩ := mem_blocksAt.1 hk
      exact if_neg (Nat.ne_of_lt (lt_of_mem_zipIdx hy).2)
    rw [idsAt, idsAt, blocksAt_append, List.map_append, hmap, List.append_assoc, hamb]
    congr 1
    by_cases hp : x.blockHolds p = true <;> simp [blocksAt, hp]
  refine ⟨h.leads.trans hleads, h.sound.addHandlers fun c hc => ?_, by simp [h.handlers],
    h.fits.addCleanup hx hstop ha hstart hlt hb hF hE hregion hblock htarget hend hfirst hlast,
    fun y k hy hc => ?_, fun y k y' k' hy hy' hc hc' heq => ?_, fun p i hp hi hj => ?_,
    fun r l q hl hq => ?_⟩
  · obtain rfl := List.mem_singleton.1 hc
    omega
  · rcases hcases hy with ⟨hy, hk⟩ | rfl
    · simpa [hk] using h.ids y k hy hc
    · simpa using hn
  · rcases hcases hy with ⟨hy, hk⟩ | rfl <;> rcases hcases hy' with ⟨hy', hk'⟩ | rfl
    · rw [if_neg hk, if_neg hk'] at heq
      exact h.inj y k y' k' hy hy' hc hc' heq
    · rw [if_neg hk, if_pos rfl] at heq
      exact absurd heq (hfresh y k hy hc)
    · rw [if_pos rfl, if_neg hk'] at heq
      exact absurd heq.symm (hfresh y' k' hy' hc')
    · rfl
  · obtain ⟨r, hr⟩ := h.jumps p i hp hi hj
    exact ⟨r, by rw [hloc]; exact hleads.aims _ _ _ _ hr⟩
  · rw [hloc]
    exact h.places r l q hl hq

/-- A stretch of lowering that leaves the numbers of the blocks around it alone. -/
def Lays (s t : Draft) : Prop :=
  t.cleanups = s.cleanups ∧ ∃ hs ident, Spans (fun _ => s.cleanups) t.Ends s t hs ident

theorem Lays.sound (h : s.Lays t) : t.Sound := by
  obtain ⟨-, hs, ident, h⟩ := h
  exact h.sound

theorem Lays.leads (h : s.Lays t) : s.Leads t := by
  obtain ⟨-, hs, ident, h⟩ := h
  exact h.leads

theorem Lays.trans (h₁ : s.Lays t) (h₂ : t.Lays u) : s.Lays u := by
  obtain ⟨hc₁, hs₁, id₁, h₁⟩ := h₁
  obtain ⟨hc₂, hs₂, id₂, h₂⟩ := h₂
  rw [hc₁] at h₂
  refine ⟨hc₂.trans hc₁, _, _, Spans.trans (h₁.congr (fun _ _ _ => rfl) fun p hp hE => ?_) h₂⟩
  exact Ends.of_leads h₂.leads hp hE

/-- A change of fields that the layout of the code does not depend on. -/
theorem Lays.quiet (h : Quiet s t) (hs : s.Sound) (hi : t.instrs = s.instrs)
    (hc : t.cleanups = s.cleanups) : s.Lays t := by
  refine ⟨hc, [], fun _ => 0, .quiet h hs (fun p hp hlt => ?_) fun p i hp hget => ?_⟩
  · rw [hi] at hlt
    omega
  · rw [hi] at hget
    have := (Array.getElem?_eq_some_iff.1 hget).1
    omega

theorem Lays.refl (hs : s.Sound) : s.Lays s := .quiet (.refl s) hs rfl rfl

/-- A stretch seen from further out, where blocks may be around it that are not
numbered in the same way elsewhere. -/
theorem Lays.spans (h : s.Lays t)
    (hamb : ∀ p, s.instrs.size ≤ p → p ≤ t.instrs.size → amb p = s.cleanups)
    (hE : ∀ p, p < t.instrs.size → E p → t.Ends p) : ∃ hs ident, Spans amb E s t hs ident := by
  obtain ⟨-, hs, ident, h⟩ := h
  exact ⟨hs, ident, h.congr hamb hE⟩

end Draft

/-! ## Steps -/

namespace Lower

open Draft

variable {α β : Type} {env : LowerEnv} {s s' t : Draft} {J : List Nat} {u : Unit}
  {amb : Nat → List Nat} {E : Nat → Prop} {ident : Nat → Nat}

/-- A step puts its regions where they belong, given that the labels `J` exist. -/
def LaysOut (J : List Nat) (x : LowerM α) : Prop :=
  ∀ env s a s', x env s = .ok (a, s') → s.Sound → (∀ r ∈ J, r < s.labels.size) → s.Lays s'

theorem emitted_spans {i : Instr} (hs : s.Sound) (hi : i.target? = none)
    (hE : ¬E s.instrs.size) : Spans amb E s (s.emitted i) [] ident := by
  refine .quiet (.emitted s i) hs (fun p hp hlt => ?_) fun p i' hp hget => ?_
  · have : p = s.instrs.size := by
      simp only [Draft.emitted, Array.size_push] at hlt
      omega
    exact this ▸ hE
  · simp only [Draft.emitted] at hget
    have : p = s.instrs.size := by
      have := (Array.getElem?_eq_some_iff.1 hget).1
      simp only [Array.size_push] at this
      omega
    subst this
    simp only [Array.getElem?_push_size, Option.some.injEq] at hget
    exact hget ▸ hi

theorem Jumped.spans {i : Instr} {r : Nat} (h : Jumped s s' i r) (hs : s.Sound)
    (hi : i.target?.isSome = true) (hr : r < s.labels.size) (hamb : amb s.instrs.size = s.cleanups)
    (hE : E s.instrs.size → s'.Ends s.instrs.size) : Spans amb E s s' [] ident := by
  have haims := h.aims hs hr
  obtain ⟨q, hq⟩ := haims.instr
  refine .plain h.quiet.leads (h.quiet.sound hs) h.quiet.handlers (fun p hp hlt hEp => ?_)
    (fun p i' hp hget _ => ?_) fun r' l q hl hq => ?_
  · have hsize := h.size
    obtain rfl : p = s.instrs.size := by omega
    have hend := hE hEp
    rw [Ends, hq, Option.some.injEq] at hend
    rw [← Instr.isSome_target?_withTarget i q, hend] at hi
    cases hi
  · have hlt := (Array.getElem?_eq_some_iff.1 hget).1
    have hsize := h.size
    obtain rfl : p = s.instrs.size := by omega
    rw [hq, Option.some.injEq] at hget
    rw [← hget, hamb]
    exact ⟨r, haims.withTarget q⟩
  · obtain ⟨l₀, d, fs, hl₀, rfl, -⟩ := h.quiet.label_back hl
    exact .inl ⟨l₀, hl₀, hq⟩

theorem placeLabel_lays {r : Nat} (h : placeLabel r env s = .ok (u, s')) (hs : s.Sound)
    (hr : r < s.labels.size) : s.Lays s' := by
  have hl : s.labels[r]? = some s.labels[r] := by simp
  -- Any label is internal, or named by the program.
  obtain ⟨P, hst⟩ : ∃ P, Step False ⟨default, default⟩ P [r] s s' := by
    by_cases hname : ∃ id, s.programLabels.lookup id = some r
    · obtain ⟨id, hid⟩ := hname
      exact ⟨[id], placeLabel_step h hr (.inr ⟨id, by simp, hid⟩) (by simp)⟩
    · exact ⟨[], placeLabel_step h hr (.inl ⟨hr, fun id hid => hname ⟨id, hid⟩⟩) (by simp)⟩
  generalize s.labels[r] = l at hl
  rcases placeLabel_cases h hl with ⟨-, rfl⟩ | ⟨hp, s₁, ha, hfix, rfl⟩
  · exact .refl hs
  obtain ⟨hq, hsame, hinstrs, -, -, hback, -⟩ := arrive_ok ha hl
  have hsize : (patched s.instrs.size l.fixups s₁.instrs).size = s.instrs.size := by
    rw [size_patched, hinstrs]
  refine ⟨hsame.cleanups, [], fun _ => 0, .plain hst.stage.leads (hst.stage.sound hs) hq.handlers
    (fun p hp hlt => ?_) (fun p i hp hget => ?_) fun r' l' q hl' hq' => ?_⟩
  · rw [hsize] at hlt
    omega
  · have := (Array.getElem?_eq_some_iff.1 hget).1
    rw [hsize] at this
    omega
  · simp only [Array.getElem?_modify] at hl'
    split at hl'
    · obtain ⟨l₀, -, rfl⟩ := Option.map_eq_some_iff.1 hl'
      simp only [Option.some.injEq] at hq'
      exact .inr ⟨by omega, by rw [hsize]; omega, rfl⟩
    · obtain ⟨l₀, d, hl₀, rfl⟩ := hback r' l' hl'
      exact .inl ⟨l₀, hl₀, hq'⟩

/-- A label is added that is not placed. -/
theorem addedLabel_lays {l : DraftLabel} {n : Nat} {names : List (Nat × Nat)} {P : List Nat}
    (hst : Stage P s { s with labels := s.labels.push l, programLabels := names, numLocals := n })
    (hs : s.Sound) (hp : l.position = none) :
    s.Lays { s with labels := s.labels.push l, programLabels := names, numLocals := n } := by
  refine ⟨rfl, [], fun _ => 0, .plain hst.leads (hst.sound hs) rfl (fun p hp hlt => ?_)
    (fun p i hp hget => ?_) fun r l' q hl hq => ?_⟩
  · exact absurd hlt (Nat.not_lt.2 hp)
  · have := (Array.getElem?_eq_some_iff.1 hget).1
    exact absurd this (Nat.not_lt.2 hp)
  · by_cases hr : r < s.labels.size
    · exact .inl ⟨l', by grind, hq⟩
    · have : l' = l := by grind
      rw [this, hp] at hq
      cases hq

theorem freshLabel_lays {r : Nat} (h : freshLabel env s = .ok (r, s')) (hs : s.Sound) :
    s.Lays s' ∧ r < s'.labels.size := by
  obtain ⟨rfl, rfl⟩ := freshLabel_ok.1 h
  exact ⟨addedLabel_lays (stage_push_label rfl rfl (by simp) (Nat.le_refl _) (.inl rfl) []) hs rfl,
    by simp⟩

theorem programLabel_lays {l : Label} {r : Nat} (h : programLabel l env s = .ok (r, s'))
    (hs : s.Sound) : s.Lays s' ∧ r < s'.labels.size := by
  rcases programLabel_cases h with ⟨hl, rfl⟩ | ⟨hnone, rfl, k, n, hk, rfl⟩
  · exact ⟨.refl hs, hs.named_lt _ _ hl⟩
  · exact ⟨addedLabel_lays (stage_push_label rfl rfl (by grind) (by grind)
      (.inr ⟨l.id, hnone, rfl⟩) []) hs rfl, by simp⟩

namespace LaysOut

variable {x : LowerM α}

theorem mono {J' : List Nat} (h : LaysOut J x) (hJ : J ⊆ J') : LaysOut J' x :=
  fun env s a s' hx hs hJ' => h env s a s' hx hs fun r hr => hJ' r (hJ hr)

/-- A step before one that is given a result of the first. -/
theorem bindOf {f : α → LowerM β} (hx : LaysOut J x) (hf : ∀ a, MayGive x a → LaysOut J (f a)) :
    LaysOut J (x >>= f) := by
  intro env s b s' h hs hJ
  obtain ⟨a, s₁, h₁, h₂⟩ := bind_ok.1 h
  have hst := hx env s a s₁ h₁ hs hJ
  exact hst.trans (hf a ⟨env, s, s₁, h₁⟩ env s₁ b s' h₂ hst.sound fun r hr =>
    Nat.lt_of_lt_of_le (hJ r hr) hst.leads.labels_le)

/-- A step that grows the draft quietly and adds no code. -/
theorem of_quiet (h : ∀ env s a s', x env s = .ok (a, s') →
    Quiet s s' ∧ s'.instrs = s.instrs ∧ s'.cleanups = s.cleanups) : LaysOut J x :=
  fun env s a s' hx hs _ => .quiet (h env s a s' hx).1 hs (h env s a s' hx).2.1
    (h env s a s' hx).2.2

theorem pure {a : α} : LaysOut J (pure a) :=
  of_quiet fun _ s _ _ h => (pure_ok.1 h).2 ▸ ⟨.refl s, rfl, rfl⟩

theorem get : LaysOut J (get : LowerM Draft) :=
  of_quiet fun _ s _ _ h => (get_ok.1 h).2 ▸ ⟨.refl s, rfl, rfl⟩

theorem read : LaysOut J (read : LowerM LowerEnv) :=
  of_quiet fun _ s _ _ h => (read_ok.1 h).2 ▸ ⟨.refl s, rfl, rfl⟩

theorem unsupported {e : Unsupported} : LaysOut J (unsupported e : LowerM α) :=
  fun _ _ _ _ h => absurd h (by simp [unsupported_ok])

theorem error {e : CompileError} : LaysOut J (error e : LowerM α) :=
  fun _ _ _ _ h => absurd h (by simp [error_ok])

theorem ite {c : Prop} [Decidable c] {x y : LowerM α} (hx : LaysOut J x) (hy : LaysOut J y) :
    LaysOut J (if c then x else y) := by
  split
  · exact hx
  · exact hy

/-- A change of scopes, heights and marks of handlers. -/
theorem change {g : Draft → Draft}
    (h : ∀ s, Quiet s (g s) ∧ (g s).instrs = s.instrs ∧ (g s).cleanups = s.cleanups) :
    LaysOut J (modify g : LowerM Unit) :=
  of_quiet fun _ s _ _ hx => modify_ok.1 hx ▸ h s

theorem emit {i : Instr} (hi : i.isStraight = true) : LaysOut J (emit i) := by
  intro env s a s' h hs _
  obtain rfl := emit_ok.1 h
  have htarget : i.target? = none := by cases i <;> first | rfl | cases hi
  refine ⟨rfl, [], fun _ => 0, emitted_spans hs htarget fun hE => ?_⟩
  simp only [Ends, Draft.emitted, Array.getElem?_push_size, Option.some.injEq] at hE
  subst hE
  cases hi

theorem newSlot : LaysOut J newSlot :=
  of_quiet fun _ _ _ _ h => ⟨newSlot_quiet h, by rw [← (newSlot_ok.1 h).2.2],
    (newSlot_same h).cleanups⟩

theorem of_tabled (h : ∀ env s a s', x env s = .ok (a, s') → Tabled s s') : LaysOut J x :=
  of_quiet fun env s a s' hx => ⟨(h env s a s' hx).quiet, (h env s a s' hx).instrs,
    (h env s a s' hx).same.cleanups⟩

theorem literal {v : Value} : LaysOut J (literal v) := of_tabled fun _ _ _ _ h => (literal_ok h).1

theorem jumpTo {i : Instr} {r : Nat} (hi : i.target?.isSome = true) (hr : r ∈ J) :
    LaysOut J (jumpTo i r) := fun _ _ _ _ h hs hJ =>
  ⟨(jumpTo_jumped h).same.cleanups, [], fun _ => 0,
    (jumpTo_jumped h).spans hs hi (hJ r hr) rfl id⟩

theorem fresh {f : Nat → LowerM β} (hf : ∀ r, LaysOut (r :: J) (f r)) :
    LaysOut J (freshLabel >>= f) := by
  intro env s b s' h hs hJ
  obtain ⟨r, s₁, h₁, h₂⟩ := bind_ok.1 h
  obtain ⟨hst, hr⟩ := freshLabel_lays h₁ hs
  refine hst.trans (hf r env s₁ b s' h₂ hst.sound fun r' hr' => ?_)
  rcases List.mem_cons.1 hr' with rfl | hr'
  · exact hr
  · exact Nat.lt_of_lt_of_le (hJ r' hr') hst.leads.labels_le

theorem program {l : Label} {f : Nat → LowerM β} (hf : ∀ r, LaysOut (r :: J) (f r)) :
    LaysOut J (programLabel l >>= f) := by
  intro env s b s' h hs hJ
  obtain ⟨r, s₁, h₁, h₂⟩ := bind_ok.1 h
  obtain ⟨hst, hr⟩ := programLabel_lays h₁ hs
  refine hst.trans (hf r env s₁ b s' h₂ hst.sound fun r' hr' => ?_)
  rcases List.mem_cons.1 hr' with rfl | hr'
  · exact hr
  · exact Nat.lt_of_lt_of_le (hJ r' hr') hst.leads.labels_le

end LaysOut

theorem laysOut_scoped : Scoped fun x => LaysOut J x where
  pure := .pure
  bind := .bindOf
  get := .get
  read := .read
  unsupported := .unsupported
  error := .error
  emit hi _ := .emit hi
  newSlot := .newSlot
  literal hi := LaysOut.bindOf LaysOut.literal fun k _ => .emit (Instr.isStraight_of_literal (hi k))
  typeEntry := .of_tabled fun _ _ _ _ h => (typeEntry_ok h).1
  methodEntry := .of_tabled fun _ _ _ _ h => (methodEntry_ok h).1
  structEntry := .of_tabled fun _ _ _ _ h => (structEntry_ok h).1
  slots := .change fun s => ⟨.of_scope s _ _ _ _ _ _ (Nat.le_refl _), rfl, rfl⟩
  hoisted := .change fun _ =>
    ⟨.of_eq rfl rfl rfl rfl (Nat.le_refl _) (Nat.le_refl _) ⟨rfl, rfl, rfl, rfl⟩, rfl, rfl⟩
  caught := .change fun s => ⟨.of_scope s _ _ _ _ _ _ (Nat.le_refl _), rfl, rfl⟩
  assumePushed := .change fun _ =>
    ⟨.of_eq rfl rfl rfl rfl (Nat.le_refl _) (Nat.le_refl _) ⟨rfl, rfl, rfl, rfl⟩, rfl, rfl⟩

/-! ## Protected regions -/

theorem stretch_lays {a b : Draft} {result : Option Nat} {done : Nat} {u₁ u₂ : Unit}
    (hlays : s.Lays a) (hkeep : keepResult result env a = .ok (u₁, b))
    (hjump : jumpTo (.leave 0) done env b = .ok (u₂, t)) (hdone : done < s.labels.size) :
    s.Lays b ∧ s.Lays t := by
  have hb := hlays.trans ((laysOut_scoped (J := [])).keepResult env a u₁ b hkeep hlays.sound (by simp))
  have hlt : done < b.labels.size := Nat.lt_of_lt_of_le hdone hb.leads.labels_le
  exact ⟨hb, hb.trans (LaysOut.jumpTo (J := [done]) rfl (by simp) env b u₂ t hjump hb.sound
    (by simpa using hlt))⟩

/-- Code of a region or of one of its handlers, which ends by leaving towards the
end of the region. -/
theorem stretch_spans {a b : Draft} {result : Option Nat} {done : Nat} {u₁ u₂ : Unit}
    (hlays : s.Lays a) (hkeep : keepResult result env a = .ok (u₁, b))
    (hjump : jumpTo (.leave 0) done env b = .ok (u₂, t)) (hdone : done < s.labels.size)
    (hamb : ∀ p, s.instrs.size ≤ p → p < t.instrs.size → amb p = s.cleanups)
    (hE : ∀ p, p < t.instrs.size → E p → t.Ends p) :
    t.cleanups = s.cleanups ∧ s.instrs.size < t.instrs.size ∧ ¬t.Falls (t.instrs.size - 1) ∧
      ∃ hs ident, Spans amb E s t hs ident := by
  obtain ⟨hb, -⟩ := stretch_lays hlays hkeep hjump hdone
  have hj := jumpTo_jumped hjump
  have hlt : done < b.labels.size := Nat.lt_of_lt_of_le hdone hb.leads.labels_le
  have hsize := hj.size
  have hle := hb.leads.size_le
  obtain ⟨hs, ident, hspans⟩ : ∃ hs ident, Spans amb E s b hs ident :=
    hb.spans (fun p hp hle => hamb p hp (by omega)) fun p hp hEp =>
      Ends.of_leads hj.quiet.leads hp (hE p (by omega) hEp)
  have hleave : Spans amb E b t [] ident :=
    hj.spans hb.sound rfl hlt ((hamb _ hle (by omega)).trans hb.1.symm) (hE _ (by omega))
  refine ⟨hj.same.cleanups.trans hb.1, by omega, ?_, _, _, hspans.trans hleave⟩
  rintro ⟨i, hi, hf⟩
  obtain ⟨q, hq⟩ := (hj.aims hb.sound hlt).instr
  have hpos : t.instrs.size - 1 = b.instrs.size := by omega
  rw [hpos, hq, Option.some.injEq] at hi
  rw [← hi, Instr.falls_withTarget] at hf
  cases hf

/-- The handlers of a region, with their entries. Each starts where no block of the
handlers stands. -/
theorem catches_spans {start stop depth : Nat} {result : Option Nat} {done : Nat} {f : Usage}
    {ks : List CatchPart} {cs : List Handler}
    (hk : ∀ k ∈ ks, ∀ J slot f, LaysOut J (catchBody k slot f))
    (h : catches start stop depth result done f ks env s = .ok (cs, t)) (hs : s.Sound)
    (hdone : done < s.labels.size)
    (hamb : ∀ p, s.instrs.size ≤ p → p < t.instrs.size → amb p = s.cleanups)
    (hE : ∀ p, p < t.instrs.size → E p → t.Ends p) :
    t.cleanups = s.cleanups ∧
      (s.instrs.size = t.instrs.size ∧ (∀ p, t.Falls p → s.Falls p) ∨
        s.instrs.size < t.instrs.size ∧ ¬t.Falls (t.instrs.size - 1)) ∧
      ∃ hs ident, Spans amb E s t hs ident ∧ ∀ c ∈ cs, c.isCleanup = false ∧ c.start = start ∧
        c.stop = stop ∧ (s.instrs.size ≤ c.target ∧ c.target < t.instrs.size) ∧
          blocksAt s.handlers.length hs c.target = [] := by
  induction ks generalizing s cs with
  -- By induction on the clauses: the blocks of the first one, then those of the others behind it.
  | nil =>
    obtain ⟨rfl, rfl⟩ := pure_ok.1 h
    refine ⟨rfl, .inl ⟨rfl, fun _ h => h⟩, [], fun _ => 0, .quiet (.refl s) hs (fun p hp hlt => ?_)
      fun p i hp hi => ?_, by simp⟩
    · omega
    · have := (Array.getElem?_eq_some_iff.1 hi).1
      omega
  | cons k ks ih =>
    simp only [catches, resumeAt, modify_bind, position_bind, bind_ok, pure_ok] at h
    obtain ⟨slot, s₁, h₁, _, s₂, h₂, _, s₃, h₃, _, s₄, h₄, rest, s₅, h₅, rfl, rfl⟩ := h
    have hq : Quiet s { s with depth := depth, reachable := true } :=
      .of_scope s _ _ _ _ _ _ (Nat.le_refl _)
    have hlays : s.Lays s₂ := (Lays.quiet hq hs rfl rfl).trans
      ((LaysOut.newSlot (J := []) env _ slot s₁ h₁ (hq.sound hs) (by simp)).trans
        (hk k (by simp) [] slot f env s₁ _ s₂ h₂ ((newSlot_quiet h₁).sound (hq.sound hs)) (by simp)))
    obtain ⟨-, hlays₄⟩ := stretch_lays hlays h₃ h₄ hdone
    obtain ⟨hclean, hfalls, hs', ident', hspans', hrest⟩ := ih (fun k hk' => hk k (by simp [hk'])) h₅
      hlays₄.sound (Nat.lt_of_lt_of_le hdone hlays₄.leads.labels_le)
      (fun p hp hlt => (hamb p (Nat.le_trans hlays₄.leads.size_le hp) hlt).trans hlays₄.1.symm)
    have hle := hspans'.leads.size_le
    obtain ⟨-, hlt, hleave, hs₀, ident₀, hspans₀⟩ := stretch_spans hlays h₃ h₄ hdone
      (fun p hp hlt => hamb p hp (by omega)) fun p hp hEp =>
        Ends.of_leads hspans'.leads hp (hE p (by omega) hEp)
    have hall := hspans₀.trans hspans'
    refine ⟨hclean.trans hlays₄.1, .inr ⟨by omega, ?_⟩, _, _, hall, fun c hc => ?_⟩
    -- The last stretch of code ends in a jump out of the region.
    · rcases hfalls with ⟨hsize, hback⟩ | ⟨-, hnot⟩
      · rw [← hsize]
        exact fun h => hleave (hback _ h)
      · exact hnot
    · rcases List.mem_cons.1 hc with rfl | hc
      · exact ⟨rfl, rfl, rfl, ⟨Nat.le_refl _, by simp [Handler.target]; omega⟩,
          hall.fits.blocksAt_left (Nat.le_refl _)⟩
      · obtain ⟨hkind, hstart, hstop, htarget, hnil⟩ := hrest c hc
        -- What a later clause adds stands behind the blocks of the first.
        refine ⟨hkind, hstart, hstop, by omega, ?_⟩
        have hm : s.handlers.length + hs₀.length = s₄.handlers.length := by simp [hspans₀.handlers]
        rw [blocksAt_append, hspans₀.fits.blocksAt_right htarget.1, hm, hnil]
        rfl

/-- The code before a region, the region and its handlers. The blocks in it lie
before the region, in the code that it protects, or in that of the handlers. -/
theorem covered_spans {o a b d : Draft} {start stop depth : Nat} {result : Option Nat} {done : Nat}
    {f : Usage} {ks : List CatchPart} {cs : List Handler} {u₁ u₂ : Unit} (hfront : s.Lays o)
    (hlays : o.Lays a) (hkeep : keepResult result env a = .ok (u₁, b))
    (hjump : jumpTo (.leave 0) done env b = .ok (u₂, d))
    (hk : ∀ k ∈ ks, ∀ J slot f, LaysOut J (catchBody k slot f))
    (hcatch : catches start stop depth result done f ks env d = .ok (cs, t))
    (hdone : done < o.labels.size)
    (hamb : ∀ p, s.instrs.size ≤ p → p < t.instrs.size → amb p = s.cleanups)
    (hE : ∀ p, p < t.instrs.size → E p → t.Ends p) :
    t.cleanups = s.cleanups ∧ o.instrs.size < d.instrs.size ∧ d.instrs.size ≤ t.instrs.size ∧
      ¬t.Falls (t.instrs.size - 1) ∧ ∃ hs ident, Spans amb E s t hs ident ∧
        (∀ h ∈ hs, h.Within s.instrs.size o.instrs.size ∨ h.Within o.instrs.size d.instrs.size ∨
          h.Within d.instrs.size t.instrs.size) ∧
        ∀ c ∈ cs, c.isCleanup = false ∧ c.start = start ∧ c.stop = stop ∧
          (d.instrs.size ≤ c.target ∧ c.target < t.instrs.size) ∧
            blocksAt s.handlers.length hs c.target = [] := by
  obtain ⟨-, hd⟩ := stretch_lays hlays hkeep hjump hdone
  -- Three stretches lie side by side: what stands in front, the code covered, and the handlers.
  have hdo := hd.leads.size_le
  have hos := hfront.leads.size_le
  obtain ⟨hclean, hfalls, hs₃, ident₃, hspans₃, hcs⟩ := catches_spans hk hcatch hd.sound
    (Nat.lt_of_lt_of_le hdone hd.leads.labels_le)
    (fun p hp hlt => (hamb p (by omega) hlt).trans (hd.1.trans hfront.1).symm) hE
  have hle := hspans₃.leads.size_le
  obtain ⟨-, hlt, hleave, hs₂, ident₂, hspans₂⟩ := stretch_spans hlays hkeep hjump hdone
    (fun p hp hlt => (hamb p (by omega) (by omega)).trans hfront.1.symm) fun p hp hEp =>
      Ends.of_leads hspans₃.leads hp (hE p (by omega) hEp)
  obtain ⟨hs₁, ident₁, hspans₁⟩ : ∃ hs ident, Spans amb E s o hs ident :=
    hfront.spans (fun p hp hle => hamb p hp (by omega)) fun p hp hEp =>
      Ends.of_leads (hd.leads.trans hspans₃.leads) hp (hE p (by omega) hEp)
  have hall := (hspans₁.trans hspans₂).trans hspans₃
  refine ⟨hclean.trans (hd.1.trans hfront.1), hlt, hle, ?_, _, _, hall, fun h hh => ?_,
    fun c hc => ?_⟩
  · rcases hfalls with ⟨hsize, hback⟩ | ⟨-, hnot⟩
    · rw [← hsize]
      exact fun h => hleave (hback _ h)
    · exact hnot
  · rcases List.mem_append.1 hh with hh | hh
    · exact (List.mem_append.1 hh).imp (hspans₁.fits.within h) fun hh => .inl (hspans₂.fits.within h hh)
    · exact .inr (.inr (hspans₃.fits.within h hh))
  -- A handler starts behind the first two stretches, whose blocks end before it.
  · obtain ⟨hkind, hstart, hstop, htarget, hnil⟩ := hcs c hc
    refine ⟨hkind, hstart, hstop, htarget, ?_⟩
    have hm : s.handlers.length + (hs₁ ++ hs₂).length = d.handlers.length := by
      simp [(hspans₁.trans hspans₂).handlers]
    rw [blocksAt_append, (hspans₁.trans hspans₂).fits.blocksAt_right htarget.1, hm, hnil]
    rfl

/-- A finally or fault block, up to its last instruction, is numbered `n`. -/
theorem cleanup_spans {start stop depth : Nat} {f : Usage} {k : CleanupPart} {ks : List Handler}
    (hk : ∀ J f, LaysOut J (k.block.emit f))
    (h : cleanupBlock start stop depth f (some k) env s = .ok (ks, t)) (hs : s.Sound)
    (hamb : ∀ p, s.instrs.size ≤ p → p < t.instrs.size → amb p = s.nextCleanup :: s.cleanups)
    (hE : ∀ p, E p → t.Ends p ∧ p + 1 ≠ t.instrs.size) :
    t.cleanups = s.cleanups ∧ s.nextCleanup < t.nextCleanup ∧ s.instrs.size < t.instrs.size ∧
      t.Ends (t.instrs.size - 1) ∧
      (∃ kind, ks = [{ start, stop, depth, kind }] ∧
        (kind = .finally s.instrs.size t.instrs.size ∨ kind = .fault s.instrs.size t.instrs.size)) ∧
      ∃ hs ident, Spans amb E s t hs ident ∧
        (∀ h ∈ hs, h.Within s.instrs.size (t.instrs.size - 1)) ∧
        ∀ h k, (h, k) ∈ hs.zipIdx s.handlers.length → h.isCleanup = true →
          s.nextCleanup < ident k := by
  simp only [cleanupBlock, resumeAt, modify_bind, position_bind, bind_ok, emit_bind, pure_ok] at h
  obtain ⟨_, s₂, h₂, rfl, rfl⟩ := h
  generalize hs₁ : ({ s with
    depth := depth, reachable := true, cleanups := s.nextCleanup :: s.cleanups,
    nextCleanup := s.nextCleanup + 1 } : Draft) = s₁ at h₂
  have hq₁ : Quiet s s₁ := hs₁ ▸ .of_scope s _ _ _ _ _ _ (Nat.le_succ _)
  have hinstrs : s₁.instrs = s.instrs := by rw [← hs₁]
  have hclean : s₁.cleanups = s.nextCleanup :: s.cleanups := by rw [← hs₁]
  have hnext : s₁.nextCleanup = s.nextCleanup + 1 := by rw [← hs₁]
  have hlays := hk [] f.effect env s₁ _ s₂ h₂ (hq₁.sound hs) (by simp)
  generalize hs₃ : ({ s₂ with cleanups := s₂.cleanups.tail } : Draft) = s₃ at *
  have hq₃ : Quiet s₂ s₃ := hs₃ ▸ .of_scope s₂ _ _ _ _ _ _ (Nat.le_refl _)
  have hinstrs₃ : s₃.instrs = s₂.instrs := by rw [← hs₃]
  have hsize : (s₃.emitted .endFinally).instrs.size = s₂.instrs.size + 1 := by
    simp [Draft.emitted, hinstrs₃]
  have hends : (s₃.emitted .endFinally).Ends ((s₃.emitted .endFinally).instrs.size - 1) := by
    rw [hsize, Nat.add_sub_cancel, ← hinstrs₃]
    simp [Ends, Draft.emitted]
  have hq := hq₃.trans (.emitted s₃ .endFinally)
  have hle := hlays.leads.size_le
  have hsize₁ : s₁.instrs.size = s.instrs.size := by rw [hinstrs]
  obtain ⟨hs', ident, hspans⟩ : ∃ hs ident, Spans amb E s₁ s₂ hs ident := by
    refine hlays.spans (fun p hp hle' => ?_) fun p hp hEp => Ends.of_leads hq.leads hp (hE p hEp).1
    rw [hamb p (by omega) (by omega), hclean]
  -- Around the code of the block stand the opening of its scope and its last instruction; neither adds
  -- entries.
  have hfirst : Spans amb E s s₁ [] ident :=
    .quiet hq₁ hs (fun p hp hlt => by omega) fun p i hp hi => by
      have := (Array.getElem?_eq_some_iff.1 hi).1
      omega
  have hlast : Spans amb E s₂ (s₃.emitted .endFinally) [] ident := by
    refine .quiet hq hlays.sound (fun p hp hlt hEp => ?_) fun p i hp hi => ?_
    · have := (hE p hEp).2
      omega
    · have hlt := (Array.getElem?_eq_some_iff.1 hi).1
      obtain rfl : p = (s₃.emitted .endFinally).instrs.size - 1 := by omega
      rw [hends, Option.some.injEq] at hi
      rw [← hi]
      rfl
  have hm : s₁.handlers.length = s.handlers.length := by rw [hq₁.handlers]
  refine ⟨?_, ?_, by omega, hends, ⟨_, rfl, ?_⟩, hs', ident, (hfirst.before hspans).after hlast,
    fun h hh => ?_, fun h k hk hc => ?_⟩
  · have := congrArg List.tail (hlays.1.trans hclean)
    simpa [Draft.emitted, ← hs₃] using this
  · have := hlays.leads.nextCleanup_le
    have hnext₃ : (s₃.emitted .endFinally).nextCleanup = s₂.nextCleanup := by
      rw [← hs₃]
      rfl
    omega
  · cases k.isFinally <;> simp
  · rw [hsize, Nat.add_sub_cancel, ← hinstrs]
    exact hspans.fits.within h hh
  · have := (hspans.ids h k (hm ▸ hk) hc).1
    omega

/-- A region without a finally or fault block. -/
theorem catches_lays {o a b d : Draft} {depth : Nat} {result : Option Nat} {done : Nat} {f : Usage}
    {ks : List CatchPart} {cs : List Handler} {u₁ u₂ : Unit} (hfront : s.Lays o)
    (hlt : s.instrs.size < o.instrs.size) (hlays : o.Lays a)
    (hkeep : keepResult result env a = .ok (u₁, b))
    (hjump : jumpTo (.leave 0) done env b = .ok (u₂, d))
    (hk : ∀ k ∈ ks, ∀ J slot f, LaysOut J (catchBody k slot f))
    (hcatch : catches o.instrs.size d.instrs.size depth result done f ks env d = .ok (cs, t))
    (hdone : done < o.labels.size) : s.Lays { t with handlers := t.handlers ++ cs } := by
  obtain ⟨hclean, hod, hdt, -, hs, ident, hspans, hin, hcs⟩ := covered_spans hfront hlays hkeep hjump hk
    hcatch hdone (fun _ _ _ => rfl) fun _ _ h => h
  refine ⟨hclean, _, _, hspans.addCatches hlt hdt (fun h hh p q hp hq hcov => ?_) fun c hc => ?_⟩
  · rcases hin h hh with hw | hw | hw <;> have := hw.block p hp <;> have := hw.block q hq <;> omega
  · obtain ⟨hkind, hstart, hstop, htarget, hnil⟩ := hcs c hc
    exact ⟨hkind, hstart, hstop, by omega, hnil⟩

/-- A region with a finally or fault block. -/
theorem cleanup_lays {o a b d e : Draft} {depth : Nat} {result : Option Nat} {done : Nat} {f : Usage}
    {f' : Usage} {ks : List CatchPart} {k : CleanupPart} {cs xs : List Handler} {u₁ u₂ : Unit}
    (hfront : s.Lays o) (hlt : s.instrs.size < o.instrs.size) (hlays : o.Lays a)
    (hkeep : keepResult result env a = .ok (u₁, b))
    (hjump : jumpTo (.leave 0) done env b = .ok (u₂, d))
    (hk : ∀ k ∈ ks, ∀ J slot f, LaysOut J (catchBody k slot f))
    (hcatch : catches o.instrs.size d.instrs.size depth result done f ks env d = .ok (cs, e))
    (hdone : done < o.labels.size) (hblock : ∀ J f, LaysOut J (k.block.emit f))
    (hcleanup : cleanupBlock o.instrs.size e.instrs.size depth f' (some k) env e = .ok (xs, t)) :
    s.Lays { t with handlers := t.handlers ++ (cs ++ xs) } := by
  -- The block is numbered before its entry is added; its last instruction is set aside.
  let amb : Nat → List Nat := fun p =>
    if e.instrs.size ≤ p ∧ p < t.instrs.size then e.nextCleanup :: s.cleanups else s.cleanups
  let E : Nat → Prop := fun p => t.Ends p ∧ p + 1 ≠ t.instrs.size
  obtain ⟨hclean, hod, hde, hfalls, _, _, hpre, -⟩ := covered_spans hfront hlays hkeep hjump hk
    hcatch hdone (fun _ _ _ => rfl) fun _ _ h => h
  have hambBlock : ∀ p, e.instrs.size ≤ p → p < t.instrs.size →
      amb p = e.nextCleanup :: e.cleanups := fun p hp hlt => by
    rw [hclean]
    exact if_pos ⟨hp, hlt⟩
  have hambFront : ∀ p, s.instrs.size ≤ p → p < e.instrs.size → amb p = s.cleanups :=
    fun p hp hlt => if_neg (by omega)
  obtain ⟨hclean', hnext, het, hends, ⟨kind, rfl, hkind⟩, hs', ident', hspans', hin', hfresh'⟩ :=
    cleanup_spans (E := E) hblock hcleanup hpre.sound hambBlock fun _ h => h
  obtain ⟨-, -, -, -, hs, ident, hspans, hin, hcs⟩ := covered_spans (E := E) hfront hlays
    hkeep hjump hk hcatch hdone hambFront fun p hp hEp => Ends.of_leads hspans'.leads hp hEp.1
  have hall := hspans.trans hspans'
  have hm : s.handlers.length + hs.length = e.handlers.length := by simp [hspans.handlers]
  -- Where the entries lie that the code brings with it.
  have hinside : ∀ h ∈ hs ++ hs', h.Within s.instrs.size o.instrs.size ∨
      h.Within o.instrs.size d.instrs.size ∨ h.Within d.instrs.size e.instrs.size ∨
        h.Within e.instrs.size (t.instrs.size - 1) := by
    intro h hh
    rcases List.mem_append.1 hh with hh | hh
    · exact (hin h hh).imp_right fun hw => hw.imp_right .inl
    · exact .inr (.inr (.inr (hin' h hh)))
  have hcs' : ∀ c ∈ cs, c.isCleanup = false ∧ c.start = o.instrs.size ∧ c.stop = d.instrs.size ∧
      (o.instrs.size ≤ c.target ∧ d.instrs.size ≤ c.target ∧ c.target < t.instrs.size) ∧
        blocksAt s.handlers.length (hs ++ hs') c.target = [] := by
    intro c hc
    obtain ⟨hkind, hstart, hstop, htarget, hnil⟩ := hcs c hc
    refine ⟨hkind, hstart, hstop, by omega, ?_⟩
    rw [blocksAt_append, hnil, hm, hspans'.fits.blocksAt_left (Nat.le_of_lt htarget.2)]
    rfl
  have hcaught := hall.addCatches hlt (Nat.le_trans hde (Nat.le_of_lt het))
    (fun h hh p q hp hq hcov => by
      rcases hinside h hh with hw | hw | hw | hw <;> have := hw.block p hp <;>
        have := hw.block q hq <;> omega) hcs'
  generalize hx : ({ start := o.instrs.size, stop := e.instrs.size, depth, kind } : Handler) = x at *
  have hcleanup : x.isCleanup = true := by
    rw [← hx]
    rcases hkind with rfl | rfl <;> rfl
  have htarget : x.target = e.instrs.size := by
    rw [← hx]
    rcases hkind with rfl | rfl <;> rfl
  have hstop : x.blockStop = t.instrs.size := by
    rw [← hx]
    rcases hkind with rfl | rfl <;> rfl
  have hholds : ∀ p, x.blockHolds p = true ↔ e.instrs.size ≤ p ∧ p < t.instrs.size := fun p => by
    simp [Handler.blockHolds_iff, hcleanup, htarget, hstop]
  have hcovers : ∀ p, x.covers p = true ↔ o.instrs.size ≤ p ∧ p < e.instrs.size := fun p => by
    rw [← hx, Handler.covers_iff]
  have hblockless : ∀ c ∈ cs, ∀ p, c.blockHolds p = false := fun c hc p =>
    Bool.eq_false_iff.2 fun hp => by simp [Handler.blockHolds_iff, (hcs' c hc).1] at hp
  have hnil : ∀ p, blocksAt s.handlers.length (hs ++ hs' ++ cs) p =
      blocksAt s.handlers.length hs p ++ blocksAt e.handlers.length hs' p := fun p => by
    rw [blocksAt_append, blocksAt_append, hm, blocksAt_eq_nil fun c hc => hblockless c hc p,
      List.append_nil]
  -- Every entry lies before the block or in it.
  have hsides : ∀ h ∈ hs ++ hs' ++ cs,
      (h.stop ≤ e.instrs.size ∧ h.target < e.instrs.size ∧ ∀ p q, h.blockHolds p = true →
        h.blockHolds q = true → q < e.instrs.size ∧ (o.instrs.size ≤ p → o.instrs.size ≤ q)) ∨
      h.Within e.instrs.size (t.instrs.size - 1) := by
    intro h hh
    rcases List.mem_append.1 hh with hh | hh
    · rcases hinside h hh with hw | hw | hw | hw
      case inr.inr.inr => exact .inr hw
      all_goals
        refine .inl ⟨by have := hw.stop; omega, by have := hw.target; omega, fun p q hp hq => ?_⟩
        have := hw.block p hp
        have := hw.block q hq
        omega
    · obtain ⟨-, -, hstop', htarget', -⟩ := hcs h hh
      refine .inl ⟨by omega, htarget'.2, fun p q hp => ?_⟩
      rw [hblockless h hh p] at hp
      cases hp
  have hend : t.instrs.size - 1 + 1 = t.instrs.size := by omega
  have hspan : Spans (fun _ => s.cleanups) t.Ends s
      { t with handlers := t.handlers ++ cs ++ [x] } (hs ++ hs' ++ cs ++ [x]) _ :=
    hcaught.addCleanup (n := e.nextCleanup)
    hcleanup (by rw [htarget, ← hx]) (by rw [← hx]; exact hlt)
    (by rw [htarget, ← hx]; show o.instrs.size ≤ e.instrs.size; omega) (by omega)
    (Nat.le_of_eq hstop) ?falls ?ends ?region ?block ?target ?last ?first ?end_
    ?amb ?number ?fresh
  · rw [← List.append_assoc]
    exact ⟨hclean'.trans hclean, _, _, hspan⟩
  case falls =>
    intro p hp
    rw [htarget, hstop]
    have hp : t.Falls p := hp
    constructor
    · intro hpe
      rw [show p = e.instrs.size - 1 by omega] at hp
      exact hfalls (Falls.of_leads hspans'.leads (by omega) hp)
    · intro hpt
      rw [show p = t.instrs.size - 1 by omega] at hp
      obtain ⟨i, hi, hf⟩ := hp
      rw [hends, Option.some.injEq] at hi
      rw [← hi] at hf
      cases hf
  case ends =>
    intro p hp
    by_cases hpe : p + 1 = t.instrs.size
    · exact .inr (hpe.trans hstop.symm)
    · exact .inl ⟨hp, hpe⟩
  case region =>
    intro h hh p q hp hq hcov
    rw [hcovers] at hcov ⊢
    rcases hsides h hh with ⟨-, -, hw⟩ | hw
    · have := hw p q hp hq
      omega
    · have := hw.block p hp
      omega
  case block =>
    intro h hh p q hp hq
    rw [Bool.eq_iff_iff, hholds, hholds]
    rcases hsides h hh with ⟨-, -, hw⟩ | hw
    · have := hw p q hp hq
      have := hw q p hq hp
      omega
    · have := hw.block p hp
      have := hw.block q hq
      omega
  case target =>
    intro h hh p hp
    rw [Bool.eq_iff_iff, hholds, hholds]
    rw [Handler.covers_iff] at hp
    rcases hsides h hh with ⟨hst, htg, -⟩ | hw
    · omega
    · have := hw.start
      have := hw.stop
      have := hw.target
      omega
  case last =>
    intro h hh
    rw [Bool.eq_false_iff, Ne, Handler.covers_iff, hstop]
    rcases hsides h hh with ⟨hst, -, -⟩ | hw
    · omega
    · have := hw.stop
      omega
  case first =>
    rw [hnil, htarget, hspans.fits.blocksAt_right (Nat.le_refl _),
      hspans'.fits.blocksAt_left (Nat.le_refl _)]
    rfl
  case end_ =>
    rw [hnil, hstop, hspans.fits.blocksAt_right (by omega), List.nil_append]
    refine blocksAt_eq_nil fun h hh => Bool.eq_false_iff.2 fun hp => ?_
    have := (hin' h hh).block _ hp
    omega
  case amb =>
    intro p
    simp only [hholds]
    rfl
  case number => exact ⟨hspans.leads.nextCleanup_le, hnext⟩
  case fresh =>
    intro h j hj hc
    rw [List.zipIdx_append, List.mem_append] at hj
    rcases hj with hj | hj
    · rw [List.zipIdx_append, List.mem_append, hm] at hj
      rcases hj with hj | hj
      · rw [if_pos (hm ▸ (lt_of_mem_zipIdx hj).2)]
        exact Nat.ne_of_lt (hspans.ids h j hj hc).2
      · rw [if_neg (Nat.not_lt.2 (lt_of_mem_zipIdx hj).1)]
        exact Nat.ne_of_gt (hfresh' h j hj hc)
    · rw [(hcs' h (List.fst_mem_of_mem_zipIdx hj)).1] at hc
      cases hc

theorem regionWith_laysOut {p : Part} {ks : List CatchPart} {o : Option CleanupPart} {f : Usage}
    {result : Option Nat} (hp : ∀ J f, LaysOut J (p.emit f))
    (hk : ∀ k ∈ ks, ∀ J slot f, LaysOut J (catchBody k slot f))
    (ho : ∀ k, o = some k → ∀ J f, LaysOut J (k.block.emit f)) :
    LaysOut J (regionWith p ks o f result) := by
  intro env s u s' hx hs _
  obtain ⟨done, s₁, s₃, s₄, s₅, cs, s₆, xs, s₇, s₉, h₁, h₃, h₄, h₅, h₆, h₇, h₉, h⟩ :=
    regionWith_ok hx
  obtain ⟨hl₁, hdone⟩ := freshLabel_lays h₁ hs
  have hl₂ : s₁.Lays (s₁.emitted .nop) :=
    LaysOut.emit (J := []) rfl env s₁ () _ (emit_ok.2 rfl) hl₁.sound (by simp)
  have hsize : s₁.instrs.size < (s₁.emitted .nop).instrs.size := by simp [Draft.emitted]
  have hdone₂ : done < (s₁.emitted .nop).labels.size := Nat.lt_of_lt_of_le hdone hl₂.leads.labels_le
  have hl₃ := hp [] _ env _ _ s₃ h₃ hl₂.sound (by simp)
  have hregion : s₁.Lays { s₇ with handlers := s₇.handlers ++ (cs ++ xs) } := by
    cases o with
    | none =>
      obtain ⟨rfl, rfl⟩ := pure_ok.1 h₇
      rw [List.append_nil]
      exact catches_lays hl₂ hsize hl₃ h₄ h₅ hk h₆ hdone₂
    | some k => exact cleanup_lays hl₂ hsize hl₃ h₄ h₅ hk h₆ hdone₂ (ho k rfl) h₇
  -- The end of the region is followed by straight code only.
  have hl₉ := hl₁.trans (hregion.trans (placeLabel_lays h₉ hregion.sound
    (Nat.lt_of_lt_of_le hdone hregion.leads.labels_le)))
  refine hl₉.trans (LaysOut.ite (J := []) ?_ .pure env s₉ u s' h hl₉.sound (by simp))
  split
  · exact .emit rfl
  · exact .pure

/-- **Laying out regions is a rule of lowering.** -/
theorem lays_rule : Rule (fun _ => True) fun _ J _ _ _ x => LaysOut J x where
  toStepRule := Labelled.rule (Q := fun J _ _ x => LaysOut J x) {
    routine := laysOut_scoped
    mono := fun h hJ _ => h.mono hJ
    jump := .jumpTo
    place := fun hr _ _ _ _ _ h hs hJ => placeLabel_lays h hs (hJ _ hr)
    fresh := .fresh
    program := .program }
  region _ hp hh ho := regionWith_laysOut (fun J f => hp J [] [] f)
    (fun k hk J slot f => hh k hk J [] [.slot slot] slot f (by simp))
    fun k hk J f => ho k hk J [] [] f

/-! ## Units -/

theorem checkPlaced_ok {ls : List DraftLabel} (h : checkPlaced ls env s = .ok (u, s')) :
    s' = s ∧ ∀ l ∈ ls, l.position = none → l.fixups = [] := by
  induction ls with
  | nil =>
    obtain ⟨-, rfl⟩ := pure_ok.1 h
    simp
  | cons l ls ih =>
    unfold checkPlaced at h
    split at h
    · exact absurd (bind_ok.1 h) (by simp [error_ok])
    · rename_i hl
      obtain ⟨hs, hrest⟩ := ih h
      refine ⟨hs, fun x hx hp => ?_⟩
      rcases List.mem_cons.1 hx with rfl | hx
      · simpa [hp] using hl
      · exact hrest x hx hp

theorem unit_laysOut {l : Lambda} : LaysOut J (unit l) :=
  laysOut_scoped.unit ((lays_rule.part l.body [] fun _ _ => trivial).emit J [] [])

/-- No jump of a finished unit waits for a label. -/
theorem unit_placed {l : Lambda} (h : unit l env s = .ok (u, t)) :
    ∀ x ∈ t.labels, x.position = none → x.fixups = [] := by
  have hrest : ∀ {s₁ : Draft}, (do
      emit .ret
      checkPlaced (← get).labels.toList) env s₁ = .ok (u, t) →
        ∀ x ∈ t.labels, x.position = none → x.fixups = [] := by
    intro s₁ h
    obtain ⟨rfl, hall⟩ := checkPlaced_ok h
    simpa using hall
  obtain ⟨_, s₁, -, h⟩ := bind_ok.1 h
  obtain ⟨_, s₂, -, h⟩ := bind_ok.1 h
  split at h
  · obtain ⟨_, s₃, -, h⟩ := bind_ok.1 h
    obtain ⟨_, s₄, -, h⟩ := bind_ok.1 h
    exact hrest h
  · obtain ⟨_, s₃, -, h⟩ := bind_ok.1 h
    exact hrest h

end Lower

/-! ## Jumps stay in their block -/

theorem nodup_blocksAt (m : Nat) (hs : List Handler) (p : Nat) : (blocksAt m hs p).Nodup := by
  refine List.Nodup.sublist (List.Sublist.map _ List.filter_sublist) ?_
  have hrange : (hs.zipIdx m).map (·.2) = List.range' m hs.length := List.zipIdx_map_snd m hs
  rw [hrange]
  exact List.nodup_range'

/-- Blocks around two positions of which the innermost is the same are the same. -/
theorem Fits.blocksAt_eq {a b m : Nat} {hs : List Handler} {F E : Nat → Prop} {p q k : Nat}
    {rest rest' : List Nat} (h : Fits a b m hs F E) (hp : blocksAt m hs p = k :: rest)
    (hq : blocksAt m hs q = k :: rest') : blocksAt m hs p = blocksAt m hs q := by
  obtain ⟨x, hx, hxp⟩ := mem_blocksAt.1 (hp ▸ List.mem_cons_self .. : k ∈ blocksAt m hs p)
  obtain ⟨y, hy, hyq⟩ := mem_blocksAt.1 (hq ▸ List.mem_cons_self .. : k ∈ blocksAt m hs q)
  obtain rfl := zipIdx_inj hx hy
  obtain ⟨out, hout⟩ := h.block x k hx
  -- The block is the innermost one, since no block is listed twice.
  have hfirst : ∀ {p rest}, blocksAt m hs p = k :: rest → x.blockHolds p = true → rest = out := by
    intro p rest hp hxp
    obtain ⟨inn, hinn⟩ := hout p hxp
    have hnodup := nodup_blocksAt m hs p
    rw [hp] at hinn hnodup
    cases inn with
    | nil => exact (List.cons.inj hinn).2
    | cons j inn =>
      rw [(List.cons.inj hinn).2] at hnodup
      simp at hnodup
  rw [hp, hq, hfirst hp hxp, hfirst hq hyq]

/-- A jump of a finished unit stays in the blocks that it stands in: it was refused
unless its label is placed in a block of the same number. -/
theorem Draft.Spans.jump_blocksAt {t : Draft} {E : Nat → Prop} {hs : List Handler}
    {ident : Nat → Nat} {p q : Nat} {i : Instr} (h : Spans (fun _ => []) E {} t hs ident)
    (hplaced : ∀ x ∈ t.labels, x.position = none → x.fixups = []) (hi : t.instrs[p]? = some i)
    (hq : i.target? = some q) : blocksAt 0 hs q = blocksAt 0 hs p := by
  obtain ⟨r, hr⟩ := h.jumps p i (Nat.zero_le p) hi (by simp [hq])
  obtain ⟨l, hl, ⟨hnone, hwaits, -⟩ | ⟨q', hq', hc, hi'⟩⟩ := hr.known
  · rw [hplaced l (Array.mem_of_getElem? hl) hnone] at hwaits
    cases hwaits
  -- The jump was directed to the place of its label, since no label waits at the end.
  obtain rfl : q = q' := by
    rw [hi, Option.some.injEq] at hi'
    rw [hi'] at hq
    exact (Instr.target?_of_withTarget hq).symm
  have hhead : (blocksAt 0 hs q).head?.map ident = (blocksAt 0 hs p).head?.map ident := by
    rcases h.places r l q hl hq' with ⟨l₀, hl₀, -⟩ | ⟨-, -, hc'⟩
    · simp at hl₀
    · rw [hc, Option.some.injEq] at hc'
      simpa [idsAt] using hc'.symm
  cases hbq : blocksAt 0 hs q with
  | nil =>
    rw [hbq] at hhead
    cases hbp : blocksAt 0 hs p with
    | nil => rfl
    | cons k rest => simp [hbp] at hhead
  | cons k rest =>
    rw [hbq] at hhead
    cases hbp : blocksAt 0 hs p with
    | nil => simp [hbp] at hhead
    | cons k' rest' =>
      -- The innermost blocks of both places have one number, so they are one block.
      have hid : ident k = ident k' := by simpa [hbp] using hhead
      obtain ⟨x, hx, hxq⟩ := mem_blocksAt.1 (hbq ▸ List.mem_cons_self .. : k ∈ blocksAt 0 hs q)
      obtain ⟨y, hy, hyp⟩ := mem_blocksAt.1 (hbp ▸ List.mem_cons_self .. : k' ∈ blocksAt 0 hs p)
      obtain rfl := h.inj x k y k' hx hy (Handler.blockHolds_iff.1 hxq).1
        (Handler.blockHolds_iff.1 hyp).1 hid
      rw [← hbq, ← hbp]
      exact h.fits.blocksAt_eq hbq hbp

/-- The regions and blocks of a unit are nested. Where control passes from one
position to another within a block, both stand in the same blocks. -/
structure Code.Nested (code : Code) : Prop where
  start : blocksAt 0 code.handlers 0 = []
  falls : ∀ (p : Nat) (i : Instr), code.instrs[p]? = some i → i.falls = true →
    blocksAt 0 code.handlers (p + 1) = blocksAt 0 code.handlers p
  jumps : ∀ (p : Nat) (i : Instr) (q : Nat), code.instrs[p]? = some i → i.target? = some q →
    blocksAt 0 code.handlers q = blocksAt 0 code.handlers p
  ends : ∀ p : Nat, code.instrs[p]? = some .endFinally →
    ∃ (h : Handler) (k : Nat) (rest : List Nat), code.handlers[k]? = some h ∧
      blocksAt 0 code.handlers p = k :: rest ∧ h.blockStop = p + 1 ∧
      ∀ j ∈ code.handlers, j.covers p = true → ∀ q, h.blockHolds q = true → j.covers q = true
  region : ∀ (h : Handler) (k : Nat), code.handlers[k]? = some h →
    h.covers h.target = false ∧ ∃ out : List Nat,
      blocksAt 0 code.handlers h.target = (if h.isCleanup then k :: out else out) ∧
      ∀ p, h.covers p = true → ∃ inn, blocksAt 0 code.handlers p = inn ++ out ∧
        ∀ (h' : Handler) (k' : Nat), code.handlers[k']? = some h' → k' ∈ inn →
          ∀ q, h'.blockHolds q = true → h.covers q = true
  nests : ∀ (h : Handler) (k : Nat) (h' : Handler) (k' : Nat), code.handlers[k]? = some h →
    code.handlers[k']? = some h' → k < k' → ∀ p, h.blockHolds p = true → h'.blockHolds p = true →
      h'.target ≤ h.target ∧ h.blockStop < h'.blockStop

/-- **The regions and blocks of every compiled unit are nested.** -/
theorem Lambda.toCode_nested {l : Lambda} {env : LowerEnv} {code : Code}
    (h : l.toCode env = .ok code) : code.Nested := by
  obtain ⟨t, hu, rfl⟩ := Lambda.toCode_ok.1 h
  have hplaced := Lower.unit_placed hu
  obtain ⟨-, hs, ident, hspans⟩ := Lower.unit_laysOut (J := []) env {} () t hu
    ⟨by simp, by simp, by simp, by simp, by simp, by simp⟩ (by simp)
  obtain rfl : t.handlers = hs := by simpa using hspans.handlers
  have hmem : ∀ {h : Handler} {k : Nat}, t.handlers[k]? = some h ↔ (h, k) ∈ t.handlers.zipIdx := by
    simp [List.mem_zipIdx_iff_getElem?]
  have hfits : Fits 0 t.instrs.size 0 t.handlers t.Falls t.Ends := hspans.fits
  refine ⟨hfits.blocksAt_left (Nat.le_refl 0), fun p i hi hf => ?_, fun p i q hi hq => ?_,
    fun p hp => ?_, fun x k hx => ?_, fun x k y k' hx hy => ?_⟩
  · exact hfits.falls p (Nat.zero_le p) (Array.getElem?_eq_some_iff.1 hi).1 ⟨i, hi, hf⟩
  · exact hspans.jump_blocksAt hplaced hi hq
  · obtain ⟨x, k, rest, hx, hrest⟩ :=
      hfits.ends p (Nat.zero_le p) (Array.getElem?_eq_some_iff.1 hp).1 hp
    exact ⟨x, k, rest, hmem.2 hx, hrest⟩
  · obtain ⟨hnot, out, hout, hin⟩ := hfits.region x k (hmem.1 hx)
    refine ⟨hnot, out, hout, fun p hp => ?_⟩
    obtain ⟨inn, hinn, hblocks⟩ := hin p hp
    exact ⟨inn, hinn, fun y k' hy => hblocks y k' (hmem.1 hy)⟩
  · exact hfits.nests x k y k' (hmem.1 hx) (hmem.1 hy)

end TreeCode
