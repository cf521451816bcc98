import Mathlib
import TreeCode.Proofs.Expr.Tree
import TreeCode.Proofs.Lower.Step

/-!
# How a draft grows

Lowering only ever extends a draft: instructions are appended, table entries
and labels are added, and what is known of a label is never forgotten. The one
change to code already written is the patching of a jump when its label is
placed, and `Draft.Aims` says what survives it: a jump once aimed at a label
stays aimed at it, whether it still waits or was directed already.

Main definitions:

* `Draft.Aims` — the jump at a position goes to a label.
* `Draft.Leads` — a later draft keeps all that an earlier one settled.
* `Draft.Sound` — names, value slots and regions of a draft are in order.
* `Draft.Settled`, `Draft.Internal` — placed labels of the program, and labels
  that the program does not name.
* `Draft.Stage` — what lowering a node does to a draft.
* `Draft.Same` — the bookkeeping of scopes is as before.
-/

namespace TreeCode

/-- Every entry of the first array is in the second, at the same place. -/
def Grows {α : Type} (a b : Array α) : Prop := ∀ (i : Nat) (x : α), a[i]? = some x → b[i]? = some x

namespace Grows

variable {α : Type} {a b c : Array α}

theorem refl (a : Array α) : Grows a a := fun _ _ h => h

theorem trans (h₁ : Grows a b) (h₂ : Grows b c) : Grows a c := fun i x h => h₂ i x (h₁ i x h)

theorem push (a : Array α) (x : α) : Grows a (a.push x) := by
  intro i y h
  grind

theorem size_le (h : Grows a b) : a.size ≤ b.size := by
  by_contra hlt
  have hlast := h b.size a[b.size] (by grind)
  simp at hlast

end Grows

namespace Instr

theorem withTarget_withTarget (i : Instr) (p q : Nat) :
    (i.withTarget p).withTarget q = i.withTarget q := by
  cases i <;> rfl

theorem withTarget_of_target?_none {i : Instr} (h : i.target? = none) (q : Nat) :
    i.withTarget q = i := by
  cases i <;> first | rfl | simp [target?] at h

theorem exists_withTarget (i : Instr) : ∃ q, i.withTarget q = i := by
  cases i <;> first | exact ⟨_, rfl⟩ | exact ⟨0, rfl⟩

@[simp] theorem transfersControl_withTarget (i : Instr) (q : Nat) :
    (i.withTarget q).transfersControl = i.transfersControl := by
  cases i <;> rfl

@[simp] theorem effectOf_withTarget (ms : Array Method) (i : Instr) (q : Nat) :
    Lower.effectOf ms (i.withTarget q) = Lower.effectOf ms i := by
  cases i <;> rfl

end Instr

/-! ## Labels -/

/-- What is known of a label is kept. -/
structure DraftLabel.Becomes (l l' : DraftLabel) : Prop where
  valueSlot : l'.valueSlot = l.valueSlot
  position : ∀ q, l.position = some q → l'.position = some q
  depth : ∀ d, l.depth = some d → l'.depth = some d
  cleanup : ∀ q c, l.position = some q → l.cleanup = some c → l'.cleanup = some c

namespace DraftLabel.Becomes

variable {l l' l'' : DraftLabel}

theorem refl (l : DraftLabel) : l.Becomes l := ⟨rfl, fun _ h => h, fun _ h => h, fun _ _ _ h => h⟩

theorem trans (h₁ : l.Becomes l') (h₂ : l'.Becomes l'') : l.Becomes l'' :=
  ⟨h₂.valueSlot.trans h₁.valueSlot, fun q h => h₂.position q (h₁.position q h),
    fun d h => h₂.depth d (h₁.depth d h),
    fun q c hq h => h₂.cleanup q c (h₁.position q hq) (h₁.cleanup q c hq h)⟩

end DraftLabel.Becomes

namespace Draft

variable {s t u : Draft}

/-- The jump `i` at position `p`, standing in cleanup block `c`, goes to label
`r`: it waits for the label, or was directed to it. -/
structure Aims (s : Draft) (p : Nat) (i : Instr) (r : Nat) (c : Option Nat) : Prop where
  known : ∃ l, s.labels[r]? = some l ∧
    ((l.position = none ∧ (p, c) ∈ l.fixups ∧ ∃ q, s.instrs[p]? = some (i.withTarget q)) ∨
      ∃ q, l.position = some q ∧ l.cleanup = some c ∧ s.instrs[p]? = some (i.withTarget q))
  /-- Nothing else will redirect it. -/
  alone : ∀ (r' : Nat) (l' : DraftLabel), s.labels[r']? = some l' → (r' = r → l'.position ≠ none) →
    ∀ c', (p, c') ∉ l'.fixups

/-- The draft `t` keeps all that `s` settled. -/
structure Leads (s t : Draft) : Prop where
  size_le : s.instrs.size ≤ t.instrs.size
  /-- Instructions stay, up to the position that a jump goes to. -/
  kept : ∀ (p : Nat) (i : Instr), s.instrs[p]? = some i →
    ∃ q, t.instrs[p]? = some (i.withTarget q)
  aims : ∀ (p : Nat) (i : Instr) (r : Nat) (c : Option Nat), s.Aims p i r c → t.Aims p i r c
  label : ∀ (r : Nat) (l : DraftLabel), s.labels[r]? = some l → ∃ l', t.labels[r]? = some l' ∧ l.Becomes l'
  named : ∀ id r : Nat, s.programLabels.lookup id = some r → t.programLabels.lookup id = some r
  named_new : ∀ id r : Nat, t.programLabels.lookup id = some r →
    s.programLabels.lookup id = some r ∨ s.labels.size ≤ r
  slot_new : ∀ (r : Nat) (l : DraftLabel) (k : Nat), t.labels[r]? = some l →
    l.valueSlot = some k → s.labels.size ≤ r → s.numLocals ≤ k
  numLocals_le : s.numLocals ≤ t.numLocals
  nextCleanup_le : s.nextCleanup ≤ t.nextCleanup
  handlers : s.handlers <+: t.handlers
  literals : Grows s.literals t.literals
  types : Grows s.types t.types
  methods : Grows s.methods t.methods
  structs : Grows s.structs t.structs

theorem Leads.instr (h : s.Leads t) {p : Nat} {i : Instr} (hi : s.instrs[p]? = some i)
    (hn : i.target? = none) : t.instrs[p]? = some i := by
  obtain ⟨q, hq⟩ := h.kept p i hi
  rwa [Instr.withTarget_of_target?_none hn] at hq

theorem Leads.labels_le (h : s.Leads t) : s.labels.size ≤ t.labels.size := by
  by_contra hlt
  obtain ⟨l', hl', -⟩ := h.label t.labels.size s.labels[t.labels.size] (by grind)
  simp at hl'

theorem Leads.refl (s : Draft) : s.Leads s where
  size_le := Nat.le_refl _
  kept p i h := by
    obtain ⟨q, hq⟩ := i.exists_withTarget
    exact ⟨q, by rw [hq, h]⟩
  aims _ _ _ _ h := h
  label _ l h := ⟨l, h, .refl l⟩
  named _ _ h := h
  named_new _ _ h := .inl h
  slot_new r l k h _ hr := by grind
  numLocals_le := Nat.le_refl _
  nextCleanup_le := Nat.le_refl _
  handlers := List.prefix_refl _
  literals := .refl _
  types := .refl _
  methods := .refl _
  structs := .refl _

theorem Leads.trans (h₁ : s.Leads t) (h₂ : t.Leads u) : s.Leads u where
  size_le := Nat.le_trans h₁.size_le h₂.size_le
  kept p i h := by
    obtain ⟨q, hq⟩ := h₁.kept p i h
    obtain ⟨q', hq'⟩ := h₂.kept p _ hq
    exact ⟨q', by rw [hq', Instr.withTarget_withTarget]⟩
  aims p i r c h := h₂.aims p i r c (h₁.aims p i r c h)
  label r l h := by
    obtain ⟨l', h', hb⟩ := h₁.label r l h
    obtain ⟨l'', h'', hb'⟩ := h₂.label r l' h'
    exact ⟨l'', h'', hb.trans hb'⟩
  named id r h := h₂.named id r (h₁.named id r h)
  named_new id r h := by
    rcases h₂.named_new id r h with h | h
    · exact h₁.named_new id r h
    · exact .inr (Nat.le_trans h₁.labels_le h)
  slot_new r l k h hk hr := by
    by_cases hlt : t.labels.size ≤ r
    · exact Nat.le_trans h₁.numLocals_le (h₂.slot_new r l k h hk hlt)
    · -- The label was added on the way from `s` to `t`, with the same slot.
      have ht : t.labels[r]? = some t.labels[r] := by grind
      obtain ⟨l', hl', hb⟩ := h₂.label r _ ht
      have : l' = l := by simpa [h] using hl'.symm
      exact h₁.slot_new r _ k ht (by rw [← hb.valueSlot, this, hk]) hr
  numLocals_le := Nat.le_trans h₁.numLocals_le h₂.numLocals_le
  nextCleanup_le := Nat.le_trans h₁.nextCleanup_le h₂.nextCleanup_le
  handlers := h₁.handlers.trans h₂.handlers
  literals := h₁.literals.trans h₂.literals
  types := h₁.types.trans h₂.types
  methods := h₁.methods.trans h₂.methods
  structs := h₁.structs.trans h₂.structs

/-! ## Well-formed drafts -/

/-- Names lead to labels of their own, value slots belong to one label each,
and regions end where code was written. -/
structure Sound (s : Draft) : Prop where
  named_lt : ∀ id r : Nat, s.programLabels.lookup id = some r → r < s.labels.size
  named_inj : ∀ id id' r : Nat, s.programLabels.lookup id = some r →
    s.programLabels.lookup id' = some r → id = id'
  slot_lt : ∀ (r : Nat) (l : DraftLabel) (k : Nat), s.labels[r]? = some l → l.valueSlot = some k → k < s.numLocals
  slot_inj : ∀ (r r' : Nat) (l l' : DraftLabel) (k : Nat), s.labels[r]? = some l → s.labels[r']? = some l' →
    l.valueSlot = some k → l'.valueSlot = some k → r = r'
  fixup_lt : ∀ (r : Nat) (l : DraftLabel), s.labels[r]? = some l →
    ∀ x ∈ l.fixups, x.1 < s.instrs.size
  stop_le : ∀ h ∈ s.handlers, h.stop ≤ s.instrs.size

/-- Entries are added to the table of protected regions. -/
theorem leads_addHandlers (t : Draft) (hs : List Handler) :
    t.Leads { t with handlers := t.handlers ++ hs } :=
  { Leads.refl t with
    handlers := List.prefix_append _ _
    aims := fun _ _ _ _ ha => ⟨ha.known, ha.alone⟩ }

theorem Sound.addHandlers {hs : List Handler} (ht : t.Sound)
    (h : ∀ k ∈ hs, k.stop ≤ t.instrs.size) :
    ({ t with handlers := t.handlers ++ hs } : Draft).Sound :=
  { ht with
    stop_le := fun k hk => by
      rcases List.mem_append.1 hk with hk | hk
      · exact ht.stop_le k hk
      · exact h k hk }

/-- The label of the program with this id is placed. -/
def Settled (s : Draft) (id : Nat) : Prop :=
  ∃ (r : Nat) (l : DraftLabel),
    s.programLabels.lookup id = some r ∧ s.labels[r]? = some l ∧ l.position ≠ none

/-- A label that the program does not name. -/
structure Internal (s : Draft) (r : Nat) : Prop where
  lt : r < s.labels.size
  unnamed : ∀ id, s.programLabels.lookup id ≠ some r

theorem Internal.leads {r : Nat} (h : s.Internal r) (hst : s.Leads t) : t.Internal r where
  lt := Nat.lt_of_lt_of_le h.lt hst.labels_le
  unnamed id hid := by
    rcases hst.named_new id r hid with hid | hle
    · exact h.unnamed id hid
    · exact absurd hle (Nat.not_le.2 h.lt)

/-- What lowering does to a draft in which it may place the labels `P` of the
program: the draft grows, the labels placed are among `P`, and the regions
added lie in the code added. -/
structure Stage (P : List Nat) (s t : Draft) : Prop where
  leads : s.Leads t
  sound : s.Sound → t.Sound
  settled : s.Sound → ∀ id, t.Settled id → s.Settled id ∨ id ∈ P
  handlers : ∃ hs, t.handlers = s.handlers ++ hs ∧
    ∀ h ∈ hs, s.instrs.size < h.start ∧ h.stop ≤ t.instrs.size

theorem Stage.refl (P : List Nat) (s : Draft) : Stage P s s :=
  ⟨.refl s, id, fun _ _ h => .inl h, [], by simp, by simp⟩

theorem Stage.trans {P Q R : List Nat} (h₁ : Stage P s t) (h₂ : Stage Q t u)
    (hP : P ⊆ R) (hQ : Q ⊆ R) : Stage R s u where
  leads := h₁.leads.trans h₂.leads
  sound hs := h₂.sound (h₁.sound hs)
  settled hs id hid := by
    rcases h₂.settled (h₁.sound hs) id hid with hid | hid
    · exact (h₁.settled hs id hid).imp_right (@hP id)
    · exact .inr (hQ hid)
  handlers := by
    obtain ⟨hs, hhs, hin⟩ := h₁.handlers
    obtain ⟨hs', hhs', hin'⟩ := h₂.handlers
    refine ⟨hs ++ hs', by rw [hhs', hhs, List.append_assoc], fun h hh => ?_⟩
    have hle := h₁.leads.size_le
    have hle' := h₂.leads.size_le
    rcases List.mem_append.1 hh with hh | hh
    · have := hin h hh
      omega
    · have := hin' h hh
      omega

theorem Stage.mono {P Q : List Nat} (h : Stage P s t) (hPQ : P ⊆ Q) : Stage Q s t :=
  h.trans (.refl Q t) hPQ (List.Subset.refl Q)

/-! ## Changes that place no label -/

/-- A change that adds and places no label: code and table entries are
appended, labels may learn the height they are reached with, and jumps in the
appended code may wait for them. -/
structure Quiet (s t : Draft) : Prop where
  size_le : s.instrs.size ≤ t.instrs.size
  instrs : Grows s.instrs t.instrs
  labels_size : t.labels.size = s.labels.size
  label : ∀ (r : Nat) (l : DraftLabel), s.labels[r]? = some l →
    ∃ d fs, t.labels[r]? = some { l with depth := d, fixups := l.fixups ++ fs } ∧
      (l.depth = none ∨ d = l.depth) ∧
      ∀ x ∈ fs, s.instrs.size ≤ x.1 ∧ x.1 < t.instrs.size
  programLabels : t.programLabels = s.programLabels
  handlers : t.handlers = s.handlers
  numLocals_le : s.numLocals ≤ t.numLocals
  nextCleanup_le : s.nextCleanup ≤ t.nextCleanup
  literals : Grows s.literals t.literals
  types : Grows s.types t.types
  methods : Grows s.methods t.methods
  structs : Grows s.structs t.structs

namespace Quiet

theorem label_back (h : Quiet s t) {r : Nat} {l' : DraftLabel} (hl : t.labels[r]? = some l') :
    ∃ l d fs, s.labels[r]? = some l ∧ l' = { l with depth := d, fixups := l.fixups ++ fs } ∧
      ∀ x ∈ fs, s.instrs.size ≤ x.1 ∧ x.1 < t.instrs.size := by
  have hr : r < s.labels.size := by
    rw [← h.labels_size]
    grind
  obtain ⟨d, fs, hd, -, hfs⟩ := h.label r s.labels[r] (by grind)
  exact ⟨s.labels[r], d, fs, by grind, by grind, hfs⟩

theorem leads (h : Quiet s t) : s.Leads t where
  size_le := h.instrs.size_le
  kept p i hi := by
    obtain ⟨q, hq⟩ := i.exists_withTarget
    exact ⟨q, by rw [hq, h.instrs p i hi]⟩
  aims p i r c ha := by
    obtain ⟨⟨l, hl, hcase⟩, halone⟩ := ha
    have hp : p < s.instrs.size := by grind
    obtain ⟨d, fs, hd, -, -⟩ := h.label r l hl
    refine ⟨⟨_, hd, ?_⟩, fun r' l' hl' hr c' hmem => ?_⟩
    · rcases hcase with ⟨hn, hf, q, hq⟩ | ⟨q, hp, hc, hq⟩
      · exact .inl ⟨hn, List.mem_append_left _ hf, q, h.instrs _ _ hq⟩
      · exact .inr ⟨q, hp, hc, h.instrs _ _ hq⟩
    -- Jumps that came to wait since then are behind the old code.
    · obtain ⟨l₀, d', fs', hl₀, rfl, hfs⟩ := h.label_back hl'
      rcases List.mem_append.1 hmem with hmem | hmem
      · exact halone r' l₀ hl₀ hr c' hmem
      · have := (hfs _ hmem).1
        omega
  label r l hl := by
    obtain ⟨d, fs, hd, hkeep, -⟩ := h.label r l hl
    refine ⟨_, hd, rfl, fun _ h => h, fun x hx => ?_, fun _ _ _ h => h⟩
    rcases hkeep with hkeep | hkeep
    · simp [hkeep] at hx
    · exact hkeep.trans hx
  named _ _ hid := h.programLabels ▸ hid
  named_new _ _ hid := .inl (h.programLabels ▸ hid)
  slot_new r l k hl _ hr := by
    rw [← h.labels_size] at hr
    grind
  numLocals_le := h.numLocals_le
  nextCleanup_le := h.nextCleanup_le
  handlers := h.handlers ▸ List.prefix_refl _
  literals := h.literals
  types := h.types
  methods := h.methods
  structs := h.structs

theorem sound (h : Quiet s t) (hs : s.Sound) : t.Sound where
  named_lt := by simpa only [h.labels_size, h.programLabels] using hs.named_lt
  named_inj := by simpa only [h.programLabels] using hs.named_inj
  slot_lt r l' k hl hk := by
    obtain ⟨l, d, fs, hl₀, rfl, -⟩ := h.label_back hl
    exact Nat.lt_of_lt_of_le (hs.slot_lt r l k hl₀ hk) h.numLocals_le
  slot_inj r r' l₁ l₂ k h₁ h₂ hk₁ hk₂ := by
    obtain ⟨m₁, _, _, hm₁, rfl, -⟩ := h.label_back h₁
    obtain ⟨m₂, _, _, hm₂, rfl, -⟩ := h.label_back h₂
    exact hs.slot_inj r r' m₁ m₂ k hm₁ hm₂ hk₁ hk₂
  fixup_lt r l' hl x hx := by
    obtain ⟨l, d, fs, hl₀, rfl, hfs⟩ := h.label_back hl
    rcases List.mem_append.1 hx with hx | hx
    · exact Nat.lt_of_lt_of_le (hs.fixup_lt r l hl₀ x hx) h.size_le
    · exact (hfs x hx).2
  stop_le x hx := Nat.le_trans (hs.stop_le x (h.handlers ▸ hx)) h.size_le

theorem stage (h : Quiet s t) (P : List Nat) : Stage P s t where
  leads := h.leads
  sound := h.sound
  settled _ id hid := by
    obtain ⟨r, l', hr, hl, hp⟩ := hid
    obtain ⟨l, d, fs, hl₀, rfl, -⟩ := h.label_back hl
    exact .inl ⟨r, l, h.programLabels ▸ hr, hl₀, hp⟩
  handlers := ⟨[], by simp [h.handlers], by simp⟩

theorem refl (s : Draft) : Quiet s s where
  size_le := Nat.le_refl _
  instrs := .refl _
  labels_size := rfl
  label _ l h := ⟨l.depth, [], by simpa using h, .inr rfl, by simp⟩
  programLabels := rfl
  handlers := rfl
  numLocals_le := Nat.le_refl _
  nextCleanup_le := Nat.le_refl _
  literals := .refl _
  types := .refl _
  methods := .refl _
  structs := .refl _

theorem trans (h₁ : Quiet s t) (h₂ : Quiet t u) : Quiet s u where
  size_le := Nat.le_trans h₁.size_le h₂.size_le
  instrs := h₁.instrs.trans h₂.instrs
  labels_size := h₂.labels_size.trans h₁.labels_size
  label r l hl := by
    obtain ⟨d, fs, hd, hkeep, hfs⟩ := h₁.label r l hl
    obtain ⟨d', fs', hd', hkeep', hfs'⟩ := h₂.label r _ hd
    refine ⟨d', fs ++ fs', by simpa using hd', by grind, fun x hx => ?_⟩
    have := h₁.size_le
    have := h₂.size_le
    rcases List.mem_append.1 hx with hx | hx
    · have := hfs x hx
      omega
    · have := hfs' x hx
      omega
  programLabels := h₂.programLabels.trans h₁.programLabels
  handlers := h₂.handlers.trans h₁.handlers
  numLocals_le := Nat.le_trans h₁.numLocals_le h₂.numLocals_le
  nextCleanup_le := Nat.le_trans h₁.nextCleanup_le h₂.nextCleanup_le
  literals := h₁.literals.trans h₂.literals
  types := h₁.types.trans h₂.types
  methods := h₁.methods.trans h₂.methods
  structs := h₁.structs.trans h₂.structs

/-- A change of fields that `Quiet` does not mention. -/
theorem of_eq (hi : t.instrs = s.instrs) (hl : t.labels = s.labels)
    (hn : t.programLabels = s.programLabels) (hh : t.handlers = s.handlers)
    (hk : s.numLocals ≤ t.numLocals) (hc : s.nextCleanup ≤ t.nextCleanup)
    (ht : t.literals = s.literals ∧ t.types = s.types ∧ t.methods = s.methods ∧
      t.structs = s.structs) : Quiet s t :=
  { size_le := by simp [hi]
    instrs := hi ▸ .refl _
    labels_size := by rw [hl]
    label := fun _ l h => ⟨l.depth, [], by simpa [hl] using h, .inr rfl, by simp⟩
    programLabels := hn
    handlers := hh
    numLocals_le := hk
    nextCleanup_le := hc
    literals := ht.1 ▸ .refl _
    types := ht.2.1 ▸ .refl _
    methods := ht.2.2.1 ▸ .refl _
    structs := ht.2.2.2 ▸ .refl _ }

/-- Scopes, heights and the marks of handlers and cleanup blocks may change
freely. -/
theorem of_scope (s : Draft) (slots : Slots) (caught cleanups : List Nat) (depth n : Nat)
    (reachable : Bool) (hn : s.nextCleanup ≤ n) :
    Quiet s { s with slots, caught, cleanups, depth, reachable, nextCleanup := n } :=
  .of_eq rfl rfl rfl rfl (Nat.le_refl _) hn ⟨rfl, rfl, rfl, rfl⟩

theorem emitted (s : Draft) (i : Instr) : Quiet s (s.emitted i) :=
  { refl s with
    size_le := by simp [Draft.emitted]
    instrs := .push _ _
    label := fun _ l h => ⟨l.depth, [], by simpa [Draft.emitted] using h, .inr rfl, by simp⟩ }

end Quiet

/-! ## Scopes -/

/-- The bookkeeping of scopes, handlers and cleanup blocks is as before. -/
structure Same (s t : Draft) : Prop where
  slots : ∀ id, t.slots.get? id = s.slots.get? id
  caught : t.caught = s.caught
  cleanups : t.cleanups = s.cleanups
  hoisted : t.hoisted = s.hoisted

theorem Same.refl (s : Draft) : Same s s := ⟨fun _ => rfl, rfl, rfl, rfl⟩

theorem Same.trans (h₁ : Same s t) (h₂ : Same t u) : Same s u :=
  ⟨fun id => (h₂.slots id).trans (h₁.slots id), h₂.caught.trans h₁.caught,
    h₂.cleanups.trans h₁.cleanups, h₂.hoisted.trans h₁.hoisted⟩

theorem Same.emitted (s : Draft) (i : Instr) : Same s (s.emitted i) :=
  ⟨fun _ => rfl, rfl, rfl, rfl⟩

/-! ## Steps of lowering -/

/-- Labels have a slot for the value that jumps carry, unless they are void. -/
def Valued (N : Names) (s : Draft) : Prop :=
  ∀ (id r : Nat) (l : DraftLabel), s.programLabels.lookup id = some r → s.labels[r]? = some l →
    (l.valueSlot = none ↔ (N.label id).ty.isVoid = true)

/-- The label `r` is not placed. -/
def Waiting (s : Draft) (r : Nat) : Prop := ∃ l, s.labels[r]? = some l ∧ l.position = none

/-- What lowering does to a draft. The condition `c` stands for what is asked of
the tree beyond being lowered: that blocks list distinct variables, and that
labels with equal ids are equal. -/
structure Step (c : Prop) (N : Names) (P I : List Nat) (s t : Draft) : Prop where
  stage : Stage P s t
  same : c → Same s t
  valued : c → s.Sound → Valued N s → Valued N t
  /-- Of the labels that the program does not name, at most `I` are placed. -/
  spares : ∀ r, s.Internal r → r ∉ I → s.Waiting r → t.Waiting r

variable {c : Prop} {N : Names} {P Q R I I' : List Nat}

theorem Step.refl (s : Draft) : Step c N P I s s :=
  ⟨.refl P s, fun _ => .refl s, fun _ _ h => h, fun _ _ _ h => h⟩

/-- The labels that the second step places besides `I` are new since `s`, or
have names. -/
theorem Step.transOwn (h₁ : Step c N P I s t) (h₂ : Step c N P I' t u)
    (hI : ∀ r ∈ I', s.Internal r → r ∈ I) : Step c N P I s u :=
  ⟨h₁.stage.trans h₂.stage (List.Subset.refl P) (List.Subset.refl P),
    fun hc => (h₁.same hc).trans (h₂.same hc),
    fun hc hs h => h₂.valued hc (h₁.stage.sound hs) (h₁.valued hc hs h),
    fun r hr hrI hw => h₂.spares r (hr.leads h₁.stage.leads) (fun hr' => hrI (hI r hr' hr))
      (h₁.spares r hr hrI hw)⟩

theorem Step.trans (h₁ : Step c N P I s t) (h₂ : Step c N P I t u) : Step c N P I s u :=
  h₁.transOwn h₂ fun _ hr _ => hr

theorem Step.mono {c' : Prop} (h : Step c N P I s t) (hc : c' → c) (hP : P ⊆ Q) (hI : I ⊆ I') :
    Step c' N Q I' s t :=
  ⟨h.stage.mono hP, fun h' => h.same (hc h'), fun h' => h.valued (hc h'),
    fun r hr hrI => h.spares r hr fun hr' => hrI (hI hr')⟩

theorem Quiet.valued (h : Quiet s t) (hs : Valued N s) : Valued N t := by
  intro id r l' hid hl
  obtain ⟨l, d, fs, hl₀, rfl, -⟩ := h.label_back hl
  exact hs id r l (h.programLabels ▸ hid) hl₀

theorem Quiet.waiting (h : Quiet s t) {r : Nat} (hw : s.Waiting r) : t.Waiting r := by
  obtain ⟨l, hl, hp⟩ := hw
  obtain ⟨d, fs, hd, -, -⟩ := h.label r l hl
  exact ⟨_, hd, hp⟩

theorem Quiet.step (h : Quiet s t) (hs : Same s t) : Step c N P I s t :=
  ⟨h.stage P, fun _ => hs, fun _ _ => h.valued, fun _ _ _ => h.waiting⟩

end Draft

end TreeCode
