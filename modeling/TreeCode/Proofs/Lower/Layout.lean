import Mathlib
import TreeCode.Code.Basic

/-!
# Layout of protected regions

Protected regions and their finally and fault blocks are nested in the code as
the trees they come from are. `Fits` says this of a stretch of code and the
entries of the table that belong to it; it is kept when stretches are put one
after the other and when a region is put around code.

Main definitions:

* `blocksAt` — the entries whose block holds a position, innermost first.
* `Handler.Within` — an entry lies in a stretch of code.
* `Fits` — the entries of a stretch of code are nested.

Main results:

* `Fits.append` — stretches of code one after the other.
* `Fits.addCatches`, `Fits.addCleanup` — the entries of a region around code.
-/

namespace TreeCode

/-! ## Blocks around a position -/

/-- Whether control can pass on to the next instruction, or to where the
instruction jumps, without entering or ending a finally or fault block. -/
def Instr.falls : Instr → Bool
  | .leave _ | .endFinally => false
  | _ => true

namespace Handler

/-- Whether the entry has a finally or fault block. -/
def isCleanup (h : Handler) : Bool :=
  match h.kind with
  | .catching .. => false
  | .finally .. | .fault .. => true

/-- Where the finally or fault block of the entry ends. -/
def blockStop (h : Handler) : Nat :=
  match h.kind with
  | .catching .. => 0
  | .finally _ e | .fault _ e => e

theorem covers_iff {h : Handler} {p : Nat} : h.covers p = true ↔ h.start ≤ p ∧ p < h.stop := by
  simp [covers]

theorem blockHolds_iff {h : Handler} {p : Nat} :
    h.blockHolds p = true ↔ h.isCleanup = true ∧ h.target ≤ p ∧ p < h.blockStop := by
  obtain ⟨start, stop, depth, kind⟩ := h
  cases kind <;> simp [blockHolds, isCleanup, target, blockStop]

/-- The entry lies in the code between two positions: its region, the start of
its handler, and its block. -/
structure Within (h : Handler) (a b : Nat) : Prop where
  start : a < h.start
  stop : h.stop ≤ b
  target : a < h.target ∧ h.target < b
  block : ∀ q, h.blockHolds q = true → a < q ∧ q < b

theorem Within.mono {h : Handler} {a a' b b' : Nat} (hw : h.Within a b) (ha : a' ≤ a)
    (hb : b ≤ b') : h.Within a' b' where
  start := Nat.lt_of_le_of_lt ha hw.start
  stop := Nat.le_trans hw.stop hb
  target := ⟨Nat.lt_of_le_of_lt ha hw.target.1, Nat.lt_of_lt_of_le hw.target.2 hb⟩
  block q hq := ⟨Nat.lt_of_le_of_lt ha (hw.block q hq).1, Nat.lt_of_lt_of_le (hw.block q hq).2 hb⟩

end Handler

/-- The entries whose block holds a position, counted from `m` on. Entries of
inner regions come before those of outer ones, so the innermost is first. -/
def blocksAt (m : Nat) (hs : List Handler) (p : Nat) : List Nat :=
  ((hs.zipIdx m).filter (·.1.blockHolds p)).map (·.2)

variable {a b d m : Nat} {hs hs' : List Handler} {h h' : Handler} {k k' p q : Nat}

theorem mem_blocksAt :
    k ∈ blocksAt m hs p ↔ ∃ h, (h, k) ∈ hs.zipIdx m ∧ h.blockHolds p = true := by
  simp [blocksAt]

theorem mem_blocksAt_iff :
    k ∈ blocksAt 0 hs p ↔ ∃ h, hs[k]? = some h ∧ h.blockHolds p = true := by
  simp [mem_blocksAt, List.mem_zipIdx_iff_getElem?]

theorem blocksAt_append :
    blocksAt m (hs ++ hs') p = blocksAt m hs p ++ blocksAt (m + hs.length) hs' p := by
  simp [blocksAt, List.zipIdx_append]

theorem blocksAt_eq_nil (h : ∀ h ∈ hs, h.blockHolds p = false) : blocksAt m hs p = [] := by
  rw [List.eq_nil_iff_forall_not_mem]
  intro k hk
  obtain ⟨x, hx, hp⟩ := mem_blocksAt.1 hk
  have := h x (List.fst_mem_of_mem_zipIdx hx)
  simp [this] at hp

theorem lt_of_mem_zipIdx (hk : (h, k) ∈ hs.zipIdx m) : m ≤ k ∧ k < m + hs.length :=
  ⟨List.le_snd_of_mem_zipIdx hk, List.snd_lt_add_of_mem_zipIdx hk⟩

theorem zipIdx_inj (hk : (h, k) ∈ hs.zipIdx m) (hk' : (h', k) ∈ hs.zipIdx m) : h = h' := by
  rw [List.mem_zipIdx_iff_le_and_getElem?_sub] at hk hk'
  simpa [hk.2] using hk'.2

/-- An entry of the first of two lists, by its number. -/
theorem mem_zipIdx_left (hk : (h, k) ∈ (hs ++ hs').zipIdx m) (hlt : k < m + hs.length) :
    (h, k) ∈ hs.zipIdx m := by
  rw [List.zipIdx_append, List.mem_append] at hk
  rcases hk with hk | hk
  · exact hk
  · exact absurd (lt_of_mem_zipIdx hk).1 (by omega)

/-! ## Nested entries -/

/-- The entries `hs`, counted from `m` on, are nested in the code between `a` and
`b`. The predicates say where control passes on to the next instruction and
where blocks end. -/
structure Fits (a b m : Nat) (hs : List Handler) (falls ends : Nat → Prop) : Prop where
  within : ∀ h ∈ hs, h.Within a b
  falls : ∀ p, a ≤ p → p < b → falls p → blocksAt m hs (p + 1) = blocksAt m hs p
  /-- A block ends where it says, and regions that hold its end hold all of it. -/
  ends : ∀ p, a ≤ p → p < b → ends p → ∃ h k rest, (h, k) ∈ hs.zipIdx m ∧
    blocksAt m hs p = k :: rest ∧ h.blockStop = p + 1 ∧
      ∀ j ∈ hs, j.covers p = true → ∀ q, h.blockHolds q = true → j.covers q = true
  /-- The handler of a region stands in the blocks that the region stands in, and
  other blocks around a position of the region lie in it. -/
  region : ∀ h k, (h, k) ∈ hs.zipIdx m → h.covers h.target = false ∧ ∃ out,
    blocksAt m hs h.target = (if h.isCleanup then k :: out else out) ∧
      ∀ p, h.covers p = true → ∃ inn, blocksAt m hs p = inn ++ out ∧
        ∀ h' k', (h', k') ∈ hs.zipIdx m → k' ∈ inn →
          ∀ q, h'.blockHolds q = true → h.covers q = true
  /-- The blocks around a block are the same at each of its positions. -/
  block : ∀ h k, (h, k) ∈ hs.zipIdx m → ∃ out, ∀ p, h.blockHolds p = true →
    ∃ inn, blocksAt m hs p = inn ++ k :: out
  /-- Blocks that meet are nested, inner ones first. -/
  nests : ∀ h k h' k', (h, k) ∈ hs.zipIdx m → (h', k') ∈ hs.zipIdx m → k < k' →
    ∀ p, h.blockHolds p = true → h'.blockHolds p = true →
      h'.target ≤ h.target ∧ h.blockStop < h'.blockStop

namespace Fits

variable {F E : Nat → Prop}

theorem nil (hE : ∀ p, a ≤ p → p < b → ¬E p) : Fits a b m [] F E where
  within := by simp
  falls _ _ _ _ := rfl
  ends p ha hb h := absurd h (hE p ha hb)
  region := by simp
  block := by simp
  nests := by simp

theorem congr {F' E' : Nat → Prop} (h : Fits a b m hs F E)
    (hF : ∀ p, a ≤ p → p < b → F' p → F p) (hE : ∀ p, a ≤ p → p < b → E' p → E p) :
    Fits a b m hs F' E' :=
  { h with
    falls := fun p ha hb hp => h.falls p ha hb (hF p ha hb hp)
    ends := fun p ha hb hp => h.ends p ha hb (hE p ha hb hp) }

/-- No block holds a position outside of the code. -/
theorem blocksAt_left (h : Fits a b m hs F E) (hp : p ≤ a) : blocksAt m hs p = [] := by
  refine blocksAt_eq_nil fun x hx => Bool.eq_false_iff.2 fun hq => ?_
  have := ((h.within x hx).block p hq).1
  omega

theorem blocksAt_right (h : Fits a b m hs F E) (hp : b ≤ p) : blocksAt m hs p = [] := by
  refine blocksAt_eq_nil fun x hx => Bool.eq_false_iff.2 fun hq => ?_
  have := ((h.within x hx).block p hq).2
  omega

/-- Stretches of code one after the other. -/
theorem append (h₁ : Fits a b m hs F E) (h₂ : Fits b d (m + hs.length) hs' F E) (hab : a ≤ b)
    (hbd : b ≤ d) : Fits a d m (hs ++ hs') F E := by
  -- Each entry lies in one of the two stretches, and holds no position of the other. So whatever is
  -- asked of a position or an entry was known on its own side.
  have hleft : ∀ p, p ≤ b → blocksAt m (hs ++ hs') p = blocksAt m hs p := fun p hp => by
    rw [blocksAt_append, h₂.blocksAt_left hp, List.append_nil]
  have hright : ∀ p, b ≤ p → blocksAt m (hs ++ hs') p = blocksAt (m + hs.length) hs' p :=
    fun p hp => by rw [blocksAt_append, h₁.blocksAt_right hp, List.nil_append]
  have hcases : ∀ {x : Handler} {k : Nat}, (x, k) ∈ (hs ++ hs').zipIdx m →
      (x, k) ∈ hs.zipIdx m ∧ x.Within a b ∨
        (x, k) ∈ hs'.zipIdx (m + hs.length) ∧ x.Within b d := by
    intro x k hx
    rw [List.zipIdx_append, List.mem_append] at hx
    exact hx.imp (fun hx => ⟨hx, h₁.within x (List.fst_mem_of_mem_zipIdx hx)⟩)
      fun hx => ⟨hx, h₂.within x (List.fst_mem_of_mem_zipIdx hx)⟩
  refine ⟨fun x hx => ?_, fun p ha hd hp => ?_, fun p ha hd hp => ?_, fun x k hx => ?_,
    fun x k hx => ?_, fun x k x' k' hx hx' hlt p hp hp' => ?_⟩
  · rcases List.mem_append.1 hx with hx | hx
    · exact (h₁.within x hx).mono (Nat.le_refl _) hbd
    · exact (h₂.within x hx).mono hab (Nat.le_refl _)
  · by_cases hpb : p < b
    · rw [hleft p (by omega), hleft (p + 1) (by omega), h₁.falls p ha hpb hp]
    · rw [hright p (by omega), hright (p + 1) (by omega), h₂.falls p (by omega) hd hp]
  · by_cases hpb : p < b
    · obtain ⟨x, k, rest, hx, hk, hstop, hall⟩ := h₁.ends p ha hpb hp
      refine ⟨x, k, rest, by simp [List.zipIdx_append, hx], by rw [hleft p (by omega), hk], hstop,
        fun j hj hc => ?_⟩
      rcases List.mem_append.1 hj with hj | hj
      · exact hall j hj hc
      -- An entry on the right starts behind the position.
      · have := (h₂.within j hj).start
        rw [Handler.covers_iff] at hc
        omega
    · obtain ⟨x, k, rest, hx, hk, hstop, hall⟩ := h₂.ends p (by omega) hd hp
      refine ⟨x, k, rest, by simp [List.zipIdx_append, hx], by rw [hright p (by omega), hk], hstop,
        fun j hj hc => ?_⟩
      rcases List.mem_append.1 hj with hj | hj
      -- One on the left has ended before it.
      · have := (h₁.within j hj).stop
        rw [Handler.covers_iff] at hc
        omega
      · exact hall j hj hc
  · rcases hcases hx with ⟨hx, hw⟩ | ⟨hx, hw⟩
    · obtain ⟨htarget, out, hout, hin⟩ := h₁.region x k hx
      refine ⟨htarget, out, by rw [hleft _ (Nat.le_of_lt hw.target.2), hout], fun p hp => ?_⟩
      obtain ⟨inn, hinn, hblocks⟩ := hin p hp
      have hpb : p ≤ b := Nat.le_trans (Nat.le_of_lt (Handler.covers_iff.1 hp).2) hw.stop
      refine ⟨inn, by rw [hleft p hpb, hinn], fun x' k' hx' hk' => ?_⟩
      have hmem : k' ∈ blocksAt m hs p := hinn ▸ List.mem_append_left _ hk'
      obtain ⟨y, hy, -⟩ := mem_blocksAt.1 hmem
      exact hblocks x' k' (mem_zipIdx_left hx' (lt_of_mem_zipIdx hy).2) hk'
    · obtain ⟨htarget, out, hout, hin⟩ := h₂.region x k hx
      refine ⟨htarget, out, by rw [hright _ (Nat.le_of_lt hw.target.1), hout], fun p hp => ?_⟩
      obtain ⟨inn, hinn, hblocks⟩ := hin p hp
      have hbp : b ≤ p := Nat.le_trans (Nat.le_of_lt hw.start) (Handler.covers_iff.1 hp).1
      refine ⟨inn, by rw [hright p hbp, hinn], fun x' k' hx' hk' => ?_⟩
      have hmem : k' ∈ blocksAt (m + hs.length) hs' p := hinn ▸ List.mem_append_left _ hk'
      obtain ⟨y, hy, -⟩ := mem_blocksAt.1 hmem
      rw [List.zipIdx_append, List.mem_append] at hx'
      rcases hx' with hx' | hx'
      · have := (lt_of_mem_zipIdx hx').2
        have := (lt_of_mem_zipIdx hy).1
        omega
      · exact hblocks x' k' hx' hk'
  · rcases hcases hx with ⟨hx, hw⟩ | ⟨hx, hw⟩
    · obtain ⟨out, hout⟩ := h₁.block x k hx
      refine ⟨out, fun p hp => ?_⟩
      rw [hleft p (Nat.le_of_lt (hw.block p hp).2)]
      exact hout p hp
    · obtain ⟨out, hout⟩ := h₂.block x k hx
      refine ⟨out, fun p hp => ?_⟩
      rw [hright p (Nat.le_of_lt (hw.block p hp).1)]
      exact hout p hp
  · rcases hcases hx with ⟨hx, hw⟩ | ⟨hx, hw⟩ <;> rcases hcases hx' with ⟨hx', hw'⟩ | ⟨hx', hw'⟩
    -- Two blocks that hold one position lie on one side of the border.
    · exact h₁.nests x k x' k' hx hx' hlt p hp hp'
    · have := (hw.block p hp).2
      have := (hw'.block p hp').1
      omega
    · have := (hw.block p hp).1
      have := (hw'.block p hp').2
      omega
    · exact h₂.nests x k x' k' hx hx' hlt p hp hp'

/-! ## Regions around code -/

/-- The entries of the handlers of a region around code. Blocks in the code do not
reach across the region's borders, and the handlers stand in none of them. -/
theorem addCatches {cs : List Handler} {start stop : Nat} (hf : Fits a b m hs F E)
    (ha : a < start) (hb : stop ≤ b)
    (hside : ∀ h ∈ hs, ∀ p q, h.blockHolds p = true → h.blockHolds q = true →
      start ≤ p ∧ p < stop → start ≤ q ∧ q < stop)
    (hcs : ∀ c ∈ cs, c.isCleanup = false ∧ c.start = start ∧ c.stop = stop ∧
      (start ≤ c.target ∧ stop ≤ c.target ∧ c.target < b) ∧ blocksAt m hs c.target = []) :
    Fits a b m (hs ++ cs) F E := by
  have hnone : ∀ c ∈ cs, ∀ p, c.blockHolds p = false := fun c hc p =>
    Bool.eq_false_iff.2 fun hp => by
      rw [Handler.blockHolds_iff, (hcs c hc).1] at hp
      simp at hp
  have hloc : ∀ p, blocksAt m (hs ++ cs) p = blocksAt m hs p := fun p => by
    rw [blocksAt_append, blocksAt_eq_nil fun c hc => hnone c hc p, List.append_nil]
  have hold : ∀ {x : Handler} {k p : Nat}, (x, k) ∈ (hs ++ cs).zipIdx m → x.blockHolds p = true →
      (x, k) ∈ hs.zipIdx m := by
    intro x k p hx hp
    rw [List.zipIdx_append, List.mem_append] at hx
    refine hx.resolve_right fun hx => ?_
    simp [hnone x (List.fst_mem_of_mem_zipIdx hx) p] at hp
  -- A block around a position of the region lies in the region.
  have hinside : ∀ {x : Handler} {p q : Nat}, x ∈ hs → x.blockHolds p = true →
      x.blockHolds q = true → ∀ c ∈ cs, c.covers p = true → c.covers q = true := by
    intro x p q hx hp hq c hc hcp
    obtain ⟨-, hstart, hstop, -⟩ := hcs c hc
    rw [Handler.covers_iff, hstart, hstop] at hcp ⊢
    exact hside x hx p q hp hq hcp
  refine ⟨fun x hx => ?_, fun p hap hpb hp => ?_, fun p hap hpb hp => ?_, fun x k hx => ?_,
    fun x k hx => ?_, fun x k x' k' hx hx' hlt p hp hp' => ?_⟩
  · rcases List.mem_append.1 hx with hx | hx
    · exact hf.within x hx
    · obtain ⟨-, hstart, hstop, htarget, -⟩ := hcs x hx
      exact ⟨by omega, by omega, by omega, fun q hq => by simp [hnone x hx q] at hq⟩
  · rw [hloc, hloc, hf.falls p hap hpb hp]
  · obtain ⟨x, k, rest, hx, hk, hstop, hall⟩ := hf.ends p hap hpb hp
    refine ⟨x, k, rest, by simp [List.zipIdx_append, hx], by rw [hloc, hk], hstop,
      fun j hj hc q hq => ?_⟩
    rcases List.mem_append.1 hj with hj | hj
    · exact hall j hj hc q hq
    · obtain ⟨y, hy, hyp⟩ := mem_blocksAt.1 (hk ▸ List.mem_cons_self .. : k ∈ blocksAt m hs p)
      obtain rfl := zipIdx_inj hx hy
      exact hinside (List.fst_mem_of_mem_zipIdx hx) hyp hq j hj hc
  · rw [List.zipIdx_append, List.mem_append] at hx
    rcases hx with hx | hx
    · obtain ⟨htarget, out, hout, hin⟩ := hf.region x k hx
      refine ⟨htarget, out, by rw [hloc, hout], fun p hp => ?_⟩
      obtain ⟨inn, hinn, hblocks⟩ := hin p hp
      exact ⟨inn, by rw [hloc, hinn], fun x' k' hx' hk' q hq =>
        hblocks x' k' (hold hx' hq) hk' q hq⟩
    · have hxc := List.fst_mem_of_mem_zipIdx hx
      obtain ⟨hkind, hstart, hstop, htarget, hnil⟩ := hcs x hxc
      refine ⟨?_, [], by simp [hloc, hnil, hkind], fun p hp => ⟨_, (List.append_nil _).symm, ?_⟩⟩
      · rw [Bool.eq_false_iff, Ne, Handler.covers_iff]
        omega
      · intro x' k' hx' hk' q hq
        obtain ⟨y, hy, hyp⟩ := mem_blocksAt.1 hk'
        obtain rfl := zipIdx_inj hx' hy
        exact hinside (List.fst_mem_of_mem_zipIdx (hold hx' hq)) hyp hq x hxc hp
  · rw [List.zipIdx_append, List.mem_append] at hx
    rcases hx with hx | hx
    · obtain ⟨out, hout⟩ := hf.block x k hx
      refine ⟨out, fun p hp => ?_⟩
      rw [hloc]
      exact hout p hp
    · exact ⟨[], fun p hp => by simp [hnone x (List.fst_mem_of_mem_zipIdx hx) p] at hp⟩
  · exact hf.nests x k x' k' (hold hx hp) (hold hx' hp') hlt p hp hp'

/-- The entry of a region with a finally or fault block, which follows the region.
Entries and blocks in the code do not reach across the borders of the region or of
the block; the end of the block, which belongs to none of them, becomes its
end. -/
theorem addCleanup {E' : Nat → Prop} {x : Handler} (hf : Fits a b m hs F E)
    (hx : x.isCleanup = true) (hstop : x.stop = x.target) (ha : a < x.start)
    (hstart : x.start ≤ x.target) (hlt : x.target < x.blockStop) (hb : x.blockStop ≤ b)
    (hF : ∀ p, F p → p + 1 ≠ x.target ∧ p + 1 ≠ x.blockStop)
    (hE : ∀ p, E' p → E p ∨ p + 1 = x.blockStop)
    (hregion : ∀ h ∈ hs, ∀ p q, h.blockHolds p = true → h.blockHolds q = true →
      x.covers p = true → x.covers q = true)
    (hblock : ∀ h ∈ hs, ∀ p q, h.blockHolds p = true → h.blockHolds q = true →
      x.blockHolds p = x.blockHolds q)
    (htarget : ∀ h ∈ hs, ∀ p, h.covers p = true → x.blockHolds p = x.blockHolds h.target)
    (hend : ∀ h ∈ hs, h.covers (x.blockStop - 1) = false)
    (hfirst : blocksAt m hs x.target = []) (hlast : blocksAt m hs (x.blockStop - 1) = []) :
    Fits a b m (hs ++ [x]) F E' := by
  have hloc : ∀ p, blocksAt m (hs ++ [x]) p =
      blocksAt m hs p ++ if x.blockHolds p then [m + hs.length] else [] := fun p => by
    rw [blocksAt_append]
    congr 1
    by_cases hp : x.blockHolds p = true <;> simp [blocksAt, hp]
  have hholds : ∀ {p}, x.blockHolds p = true ↔ x.target ≤ p ∧ p < x.blockStop := fun {p} => by
    simp [Handler.blockHolds_iff, hx]
  have hcovers : ∀ {p}, x.covers p = true ↔ x.start ≤ p ∧ p < x.target := fun {p} => by
    rw [Handler.covers_iff, hstop]
  have hcases : ∀ {y : Handler} {k : Nat}, (y, k) ∈ (hs ++ [x]).zipIdx m →
      ((y, k) ∈ hs.zipIdx m ∧ y ∈ hs) ∨ (y = x ∧ k = m + hs.length) := by
    intro y k hy
    rw [List.zipIdx_append, List.mem_append] at hy
    rcases hy with hy | hy
    · exact .inl ⟨hy, List.fst_mem_of_mem_zipIdx hy⟩
    · exact .inr (by simpa using hy)
  have hmem : ∀ {y : Handler} {k : Nat}, (y, k) ∈ hs.zipIdx m → (y, k) ∈ (hs ++ [x]).zipIdx m :=
    fun hy => by simp [List.zipIdx_append, hy]
  refine ⟨fun y hy => ?_, fun p hap hpb hp => ?_, fun p hap hpb hp => ?_, fun y k hy => ?_,
    fun y k hy => ?_, fun y k y' k' hy hy' hkk p hp hp' => ?_⟩
  · rcases List.mem_append.1 hy with hy | hy
    · exact hf.within y hy
    · obtain rfl := List.mem_singleton.1 hy
      refine ⟨ha, by omega, by omega, fun q hq => ?_⟩
      have := hholds.1 hq
      omega
  · rw [hloc, hloc, hf.falls p hap hpb hp]
    have := hF p hp
    have hsame : x.blockHolds (p + 1) = x.blockHolds p := by
      rw [Bool.eq_iff_iff, hholds, hholds]
      omega
    rw [hsame]
  · by_cases hpe : p + 1 = x.blockStop
    · -- The end of the block itself.
      have hp' : p = x.blockStop - 1 := by omega
      refine ⟨x, m + hs.length, [], by simp [List.zipIdx_append], ?_, hpe.symm, fun j hj hc => ?_⟩
      · rw [hloc, hp', hlast, if_pos (hholds.2 (by omega))]
        rfl
      · rcases List.mem_append.1 hj with hj | hj
        · rw [hp', hend j hj] at hc
          cases hc
        · obtain rfl := List.mem_singleton.1 hj
          have := hcovers.1 hc
          omega
    · obtain ⟨y, k, rest, hy, hk, hystop, hall⟩ :=
        hf.ends p hap hpb ((hE p hp).resolve_right hpe)
      refine ⟨y, k, rest ++ if x.blockHolds p then [m + hs.length] else [], hmem hy,
        by rw [hloc, hk, List.cons_append], hystop, fun j hj hc q hq => ?_⟩
      rcases List.mem_append.1 hj with hj | hj
      · exact hall j hj hc q hq
      · obtain rfl := List.mem_singleton.1 hj
        obtain ⟨y', hy', hyp⟩ := mem_blocksAt.1 (hk ▸ List.mem_cons_self .. : k ∈ blocksAt m hs p)
        obtain rfl := zipIdx_inj hy hy'
        exact hregion y (List.fst_mem_of_mem_zipIdx hy) p q hyp hq hc
  · rcases hcases hy with ⟨hy, hyhs⟩ | ⟨rfl, rfl⟩
    · obtain ⟨hnot, out, hout, hin⟩ := hf.region y k hy
      refine ⟨hnot, out ++ if x.blockHolds y.target then [m + hs.length] else [], ?_, fun p hp => ?_⟩
      · rw [hloc, hout]
        cases y.isCleanup <;> rfl
      · obtain ⟨inn, hinn, hblocks⟩ := hin p hp
        refine ⟨inn, by rw [hloc, hinn, htarget y hyhs p hp, List.append_assoc],
          fun y' k' hy' hk' => ?_⟩
        have hk : k' ∈ blocksAt m hs p := hinn ▸ List.mem_append_left _ hk'
        obtain ⟨z, hz, -⟩ := mem_blocksAt.1 hk
        exact hblocks y' k' (mem_zipIdx_left hy' (lt_of_mem_zipIdx hz).2) hk'
    · refine ⟨?_, [], ?_, fun p hp => ⟨_, (List.append_nil _).symm, fun y' k' hy' hk' q hq => ?_⟩⟩
      · rw [Bool.eq_false_iff, Ne, hcovers]
        omega
      · rw [hloc, hfirst, if_pos (hholds.2 (by omega)), if_pos hx]
        rfl
      · obtain ⟨z, hz, hzp⟩ := mem_blocksAt.1 hk'
        obtain rfl := zipIdx_inj hy' hz
        rcases hcases hy' with ⟨-, hmem'⟩ | ⟨rfl, -⟩
        · exact hregion y' hmem' p q hzp hq hp
        · have := hholds.1 hzp
          have := hcovers.1 hp
          omega
  · rcases hcases hy with ⟨hy, hyhs⟩ | ⟨rfl, rfl⟩
    · obtain ⟨out, hout⟩ := hf.block y k hy
      -- The new block holds all of the inner one or nothing of it.
      by_cases hsome : ∃ q, y.blockHolds q = true ∧ x.blockHolds q = true
      · obtain ⟨q, hyq, hxq⟩ := hsome
        refine ⟨out ++ [m + hs.length], fun p hp => ?_⟩
        obtain ⟨inn, hinn⟩ := hout p hp
        have hxp : x.blockHolds p = true := (hblock y hyhs p q hp hyq).trans hxq
        exact ⟨inn, by simp [hloc, hinn, hxp]⟩
      · refine ⟨out, fun p hp => ?_⟩
        obtain ⟨inn, hinn⟩ := hout p hp
        have hxp : x.blockHolds p = false := Bool.eq_false_iff.2 fun h => hsome ⟨p, hp, h⟩
        exact ⟨inn, by simp [hloc, hinn, hxp]⟩
    · exact ⟨[], fun p hp => ⟨blocksAt m hs p, by simp [hloc, hp]⟩⟩
  · rcases hcases hy with ⟨hyin, hyhs⟩ | ⟨rfl, rfl⟩
    · rcases hcases hy' with ⟨hy', -⟩ | ⟨rfl, rfl⟩
      · exact hf.nests y k y' k' hyin hy' hkk p hp hp'
      · obtain ⟨hkind, hle, hstop'⟩ := Handler.blockHolds_iff.1 hp
        have hxp := hholds.1 hp'
        have htop : y.blockHolds y.target = true :=
          Handler.blockHolds_iff.2 ⟨hkind, Nat.le_refl _, by omega⟩
        have hxt := hholds.1 ((hblock y hyhs y.target p htop hp).trans hp')
        -- The last position of the new block is in no other.
        have hnot : y.blockHolds (y'.blockStop - 1) = false := Bool.eq_false_iff.2 fun h => by
          have hmem' : k ∈ blocksAt m hs (y'.blockStop - 1) := mem_blocksAt.2 ⟨y, hyin, h⟩
          rw [hlast] at hmem'
          cases hmem'
        rw [Bool.eq_false_iff, Ne, Handler.blockHolds_iff] at hnot
        refine ⟨hxt.1, Nat.not_le.1 fun hge => hnot ⟨hkind, by omega, by omega⟩⟩
    · have := (lt_of_mem_zipIdx hy').2
      simp at this
      omega

end Fits

end TreeCode
