import TreeCode.Proofs.Lower.Acts

/-!
# Lowering a node keeps the draft in order

`Acts` is a rule of lowering: the steps of which nodes are put together do to
the draft what `Draft.Step` allows. What needs an argument is that scopes are
closed again and that protected regions lie in the code they are added with.

Main results:

* `acts_rule` — `Acts` is a rule.
* `Expr.part_acts` — **lowering any tree only grows the draft**, places no
  labels but the tree's own, and puts its regions into the code it emits; for
  plain trees the scopes are as before.
-/

namespace TreeCode

open Lower

/-- What is asked of a mention: labels are those that their ids stand for and
are placed only if they are among `P`, and blocks list distinct variables. -/
def Mention.Suits (c : Prop) (N : Names) (P : List Nat) : Mention → Prop
  | .place l => (c → N.Knows l) ∧ l.id ∈ P
  | .label l => c → N.Knows l
  | .block vars => c → (Var.ids vars).Nodup
  | .constant _ | .var _ _ | .lambda _ _ => True

variable {c c' : Prop} {N : Names} {P Q I : List Nat}

theorem Mention.Suits.mono {m : Mention} (h : m.Suits c N P) (hc : c' → c) (hP : P ⊆ Q) :
    m.Suits c' N Q := by
  cases m with
  | place l => exact ⟨fun h' => h.1 (hc h'), hP h.2⟩
  | label l => exact fun h' => h (hc h')
  | block vars => exact fun h' => h (hc h')
  | constant _ => trivial
  | var _ _ => trivial
  | lambda _ _ => trivial

namespace Lower

/-! ## Scopes -/

/-- A step between two changes of scope, of which the second undoes the first. -/
theorem scoped_step {s s₁ s₂ s' : Draft} (h₁ : Draft.Quiet s s₁) (h : Draft.Step c N P I s₁ s₂)
    (h₂ : Draft.Quiet s₂ s') (hsame : c → Draft.Same s₁ s₂ → Draft.Same s s') :
    Draft.Step c N P I s s' where
  stage := ((h₁.stage P).trans h.stage (List.Subset.refl P) (List.Subset.refl P)).trans
    (h₂.stage P) (List.Subset.refl P) (List.Subset.refl P)
  same hc := hsame hc (h.same hc)
  valued hc hs hv := h₂.valued (h.valued hc (h₁.sound hs) (h₁.valued hv))
  spares r hr hrI hw := h₂.waiting (h.spares r (hr.leads h₁.leads) hrI (h₁.waiting hw))

/-- A block between the steps that bring its variables in and take them out. -/
theorem block_acts {vars : List Var} {x : LowerM Unit} (hvars : c → (Var.ids vars).Nodup)
    (h : Acts c N P I x) : Acts c N P I (do
      let hidden ← bringInAll vars
      x
      takeOutAll vars hidden) := by
  intro env s a s' hx hs hI
  simp only [bind_ok] at hx
  obtain ⟨hidden, s₁, h₁, _, s₂, h₂, h₃⟩ := hx
  obtain ⟨hq₁, hcaught₁, hclean₁, hhoist₁, hslots₁, hhidden⟩ := bringInAll_quiet h₁
  obtain ⟨hq₃, hcaught₃, hclean₃, hhoist₃, -⟩ := takeOutAll_quiet h₃
  have hst := h env s₁ _ s₂ h₂ (hq₁.sound hs) fun r hr => Placeable.leads (hI r hr) hq₁.leads
  refine scoped_step hq₁ hst hq₃ fun hc hsame => ⟨fun id => ?_, ?_, ?_, ?_⟩
  · rw [hhidden (hvars hc)] at h₃
    rw [takeOutAll_get? h₃]
    split
    · rfl
    · rename_i hid
      rw [hsame.slots, hslots₁ id hid]
  · rw [hcaught₃, hsame.caught, hcaught₁]
  · rw [hclean₃, hsame.cleanups, hclean₁]
  · rw [hhoist₃, hsame.hoisted, hhoist₁]

theorem caught_acts {slot : Nat} {x : LowerM Unit} (h : Acts c N P I x) : Acts c N P I (do
      modify fun s => { s with caught := slot :: s.caught }
      x
      modify fun s => { s with caught := s.caught.tail }) := by
  intro env s a s' hx hs hI
  simp only [modify_bind, bind_ok, modify_ok] at hx
  obtain ⟨_, s₂, h₂, rfl⟩ := hx
  have hq := Draft.Quiet.of_scope s s.slots (slot :: s.caught) s.cleanups s.depth s.nextCleanup
    s.reachable (Nat.le_refl _)
  refine scoped_step hq (h env _ _ s₂ h₂ (hq.sound hs) fun r hr => Placeable.leads (hI r hr) hq.leads)
    (.of_scope s₂ _ _ _ _ _ _ (Nat.le_refl _)) fun _ hsame => ?_
  exact ⟨hsame.slots, congrArg List.tail hsame.caught, hsame.cleanups, hsame.hoisted⟩

theorem handler_acts {v : Var} {x : Nat → LowerM Unit} (h : ∀ slot, Acts c N P I (x slot)) :
    Acts c N P I (do
      let (slot, hidden) ← bringIn v
      x slot
      takeOut v hidden) := by
  intro env s a s' hx hs hI
  simp only [bind_ok, takeOut, modify_ok] at hx
  obtain ⟨⟨k, hidden⟩, s₁, h₁, _, s₂, h₂, rfl⟩ := hx
  have hq := bringIn_quiet h₁
  obtain ⟨-, rfl, rfl, rfl⟩ := bringIn_ok.1 h₁
  refine scoped_step hq (h _ env _ _ s₂ h₂ (hq.sound hs) fun r hr => Placeable.leads (hI r hr) hq.leads)
    (.of_scope s₂ _ _ _ _ _ _ (Nat.le_refl _)) fun _ hsame => ?_
  refine ⟨fun id => ?_, hsame.caught, hsame.cleanups, hsame.hoisted⟩
  rw [Slots.get?_restore]
  split
  · rename_i hid
    rw [hid]
  · rename_i hid
    rw [hsame.slots]
    exact (Slots.get?_insert _ _ _ _).trans (if_neg hid)

/-! ## Protected regions -/

theorem resumeAt_acts {d : Nat} : Acts c N P I (resumeAt d) :=
  .modify fun s => ⟨.of_scope s _ _ _ _ _ _ (Nat.le_refl _), ⟨fun _ => rfl, rfl, rfl, rfl⟩⟩

theorem catches_acts {start stop depth : Nat} {result : Option Nat} {done : Nat} {f : Usage}
    {hs : List CatchPart} (h : ∀ k ∈ hs, ∀ I slot f, Acts c N P I (catchBody k slot f)) :
    Acts c N P I (catches start stop depth result done f hs) := by
  induction hs with
  | nil => exact .pure
  | cons k hs ih =>
    exact resumeAt_acts.bind fun _ => acts_routine.position.bind fun _ => Acts.newSlot.bind fun _ =>
      (h k (by simp) _ _ _).bind fun _ => acts_routine.keepResult.bind fun _ =>
        Acts.jumpTo.bind fun _ => (ih fun k hk => h k (by simp [hk])).bind fun _ => .pure

theorem catches_span {start stop depth : Nat} {result : Option Nat} {done : Nat} {f : Usage}
    {hs : List CatchPart} {env : LowerEnv} {s s' : Draft} {handlers : List Handler}
    (h : catches start stop depth result done f hs env s = .ok (handlers, s')) :
    ∀ k ∈ handlers, k.start = start ∧ k.stop = stop := by
  induction hs generalizing s handlers with
  | nil =>
    obtain ⟨rfl, -⟩ := pure_ok.1 h
    simp
  | cons k hs ih =>
    simp only [catches, bind_ok, pure_ok] at h
    obtain ⟨_, _, -, _, _, -, _, _, -, _, _, -, _, _, -, _, _, -, rest, _, hrest, rfl, rfl⟩ := h
    intro x hx
    rcases List.mem_cons.1 hx with rfl | hx
    · exact ⟨rfl, rfl⟩
    · exact ih hrest x hx

theorem cleanupBlock_acts {start stop depth : Nat} {f : Usage} {o : Option CleanupPart}
    (h : ∀ p, o = some p → ∀ I f, Acts c N P I (p.block.emit f)) :
    Acts c N P I (cleanupBlock start stop depth f o) := by
  cases o with
  | none => exact .pure
  | some p =>
    intro env s a s' hx hs hI
    simp only [cleanupBlock, resumeAt, modify_bind, position_bind, bind_ok, emit_bind,
      pure_ok] at hx
    obtain ⟨_, s₂, h₂, -, rfl⟩ := hx
    have hq := Draft.Quiet.of_scope s s.slots s.caught (s.nextCleanup :: s.cleanups) depth
      (s.nextCleanup + 1) true (Nat.le_succ _)
    refine scoped_step hq (h p rfl I f.effect env _ _ s₂ h₂ (hq.sound hs)
      fun r hr => Placeable.leads (hI r hr) hq.leads)
      ((Draft.Quiet.of_scope s₂ _ _ _ _ _ _ (Nat.le_refl _)).trans (.emitted _ _))
      fun _ hsame => ?_
    exact ⟨hsame.slots, hsame.caught, congrArg List.tail hsame.cleanups, hsame.hoisted⟩

theorem cleanupBlock_span {start stop depth : Nat} {f : Usage} {o : Option CleanupPart}
    {env : LowerEnv} {s s' : Draft} {handlers : List Handler}
    (h : cleanupBlock start stop depth f o env s = .ok (handlers, s')) :
    ∀ k ∈ handlers, k.start = start ∧ k.stop = stop := by
  cases o with
  | none =>
    obtain ⟨rfl, -⟩ := pure_ok.1 h
    simp
  | some p =>
    simp only [cleanupBlock, resumeAt, modify_bind, position_bind, bind_ok, emit_bind,
      pure_ok] at h
    obtain ⟨_, _, -, rfl, -⟩ := h
    simp

/-- Entries of the table of regions are added for code written since `s`. -/
theorem step_addHandlers {s t : Draft} (h : Draft.Step c N P I s t) (hs : List Handler)
    (hin : ∀ k ∈ hs, s.instrs.size < k.start ∧ k.stop ≤ t.instrs.size) :
    Draft.Step c N P I s { t with handlers := t.handlers ++ hs } := by
  obtain ⟨hs₀, heq, hin₀⟩ := h.stage.handlers
  refine ⟨⟨h.stage.leads.trans (Draft.leads_addHandlers t hs), fun hs' => ?_, h.stage.settled,
    hs₀ ++ hs, ?_, ?_⟩, fun hc => ?_, h.valued, h.spares⟩
  · exact (h.stage.sound hs').addHandlers fun k hk => (hin k hk).2
  · simp [heq]
  · intro k hk
    rcases List.mem_append.1 hk with hk | hk
    · exact hin₀ k hk
    · exact hin k hk
  · have hsame := h.same hc
    exact ⟨hsame.slots, hsame.caught, hsame.cleanups, hsame.hoisted⟩

theorem regionWith_acts {p : Part} {hs : List CatchPart} {o : Option CleanupPart} {f : Usage}
    {result : Option Nat} (hp : ∀ I f, Acts c N P I (p.emit f))
    (hh : ∀ k ∈ hs, ∀ I slot f, Acts c N P I (catchBody k slot f))
    (ho : ∀ k, o = some k → ∀ I f, Acts c N P I (k.block.emit f)) :
    Acts c N P I (regionWith p hs o f result) := by
  intro env s a s' hx hs₀ hI
  obtain ⟨done, s₁, s₃, s₄, s₅, cs, s₆, ks, s₇, s₉, h₁, h₃, h₄, h₅, h₆, h₇, h₉, h⟩ :=
    regionWith_ok hx
  have st₁ : Draft.Step c N P [] s s₁ := freshLabel_step h₁
  have hdone := freshLabel_internal hs₀ h₁
  have hs₂ := (Draft.Quiet.emitted s₁ .nop).sound (st₁.stage.sound hs₀)
  have st₅ : Draft.Step c N P [] (s₁.emitted .nop) s₅ := by
    have hacts : Acts c N P [] (do
        p.emit { guarded := true, discarded := result.isNone }
        keepResult result
        jumpTo (.leave 0) done) :=
      (hp _ _).bind fun _ => acts_routine.keepResult.bind fun _ => .jumpTo
    exact hacts env _ () s₅ (by simpa only [bind_ok] using ⟨_, s₃, h₃, _, s₄, h₄, h₅⟩) hs₂ (by simp)
  have hs₅ := st₅.stage.sound hs₂
  have st₆ := catches_acts (I := []) hh env s₅ cs s₆ h₆ hs₅ (by simp)
  have st₇ := cleanupBlock_acts (I := []) ho env s₆ ks s₇ h₇ (st₆.stage.sound hs₅) (by simp)
  have st : Draft.Step c N P [] s s₇ :=
    (st₁.trans ((Draft.Quiet.emitted s₁ .nop).step (.emitted s₁ .nop))).trans
      (st₅.trans (st₆.trans st₇))
  -- The entries start behind the instruction that precedes the region.
  have hstart : s.instrs.size < (s₁.emitted .nop).instrs.size := by
    have := st₁.stage.leads.size_le
    simp only [Draft.emitted, Array.size_push]
    omega
  have hle₆ := st₆.stage.leads.size_le
  have hle₇ := st₇.stage.leads.size_le
  have st₈ := step_addHandlers st (cs ++ ks) fun k hk => by
    rcases List.mem_append.1 hk with hk | hk
    · have := catches_span h₆ k hk
      omega
    · have := cleanupBlock_span h₇ k hk
      omega
  have hint := hdone.leads ((Draft.Quiet.emitted s₁ .nop).leads.trans
    (st₅.trans (st₆.trans st₇)).stage.leads)
  have st₉ := st₈.transOwn (placeLabel_step h₉ hint.lt (.inl ⟨hint.lt, hint.unnamed⟩)
    (List.mem_singleton_self done)) fun r hr hold => by
      obtain ⟨rfl, -⟩ := freshLabel_ok.1 h₁
      exact absurd (List.mem_singleton.1 hr ▸ hold.lt) (Nat.lt_irrefl _)
  refine (st₉.trans (Acts.ite (I := []) ?_ .pure env s₉ a s' h (st₉.stage.sound hs₀)
    (by simp))).mono id (List.Subset.refl P) (List.nil_subset I)
  split
  · exact .emit
  · exact .pure

/-- **`Acts` is a rule of lowering.** -/
theorem acts_rule (c : Prop) (N : Names) (P : List Nat) :
    Rule (Mention.Suits c N P) fun _ _ I _ _ x => Acts c N P I x where
  mono h _ hI _ := fun env s a s' hx hs hI' =>
    (h env s a s' hx hs fun r hr => hI' r (hI hr)).mono id (List.Subset.refl P) hI
  pure _ := .pure
  bind := .bind
  read := .read
  unsupported _ := .unsupported
  error _ := .error
  emit _ _ _ := .emit
  assumePushed := assumePushed_acts
  newSlot hf := Acts.newSlot.bind hf
  literal _ := Acts.literal.bind fun _ => .emit
  typeEntry hf := Acts.typeEntry.bind hf
  methodEntry hf := Acts.methodEntry.bind hf
  structEntry hf := Acts.structEntry.bind hf
  jump _ _ := .jumpTo
  place _ hr := .place hr
  fresh := .fresh
  program hl := .program hl.1 hl.2
  mention hl hf := (Acts.mention hl).bind hf
  carried hf := acts_routine.labelAt.bind fun _ => hf _
  handling hf := Acts.get.bind fun s => by
    cases s.caught with
    | nil => exact .unsupported
    | cons k ks => exact hf k
  home _ hf := acts_routine.homeOf.bind hf
  constant _ := acts_routine.pushConstant
  lambda _ := acts_routine.pushLambda
  block := block_acts
  caught _ := caught_acts
  handler := handler_acts
  region _ hp hh ho := regionWith_acts (fun I f => hp [] I [] f)
    (fun k hk I slot f => hh k hk [] I [.slot slot] slot f (by simp))
    fun k hk I f => ho k hk [] I [] f

end Lower

/-! ## Nodes -/

/-- All uses of a part keep the draft in order. -/
abbrev Part.Acts (c : Prop) (N : Names) (P : List Nat) (p : Part) : Prop :=
  p.Ruled (fun _ _ I _ _ x => Lower.Acts c N P I x) []

mutual

/-- The mentions in a tree are as a plain tree has them. -/
theorem Expr.mentions_suit (N : Names) : ∀ (e : Expr) (D : List Nat), ∀ m ∈ e.mentions D,
    m.Suits (e.Plain N) N e.placed
  | .constant _ _, _, m, hm | .var _, _, m, hm | .lambda _, _, m, hm => by
    simp only [Expr.mentions, List.mem_singleton] at hm
    subst hm
    trivial
  | .unary _ _ e _, D, m, hm | .member e _, D, m, hm | .newArrayBounds _ e, D, m, hm =>
    e.mentions_suit N D m hm
  | .binary _ _ l r _, D, m, hm => by
    simp only [Expr.mentions, List.mem_append, Expr.Plain, Expr.placed] at hm ⊢
    rcases hm with hm | hm
    · exact (l.mentions_suit N D m hm).mono And.left (by simp)
    · exact (r.mentions_suit N D m hm).mono And.right (by simp)
  | .call _ o _ args, D, m, hm => by
    simp only [Expr.mentions, List.mem_append, Expr.Plain, Expr.placed] at hm ⊢
    rcases hm with hm | hm
    · exact (Expr.mentionsOption_suit N o D m hm).mono And.left (by simp)
    · exact (Expr.mentionsAll_suit N args D m hm).mono And.right (by simp)
  | .new _ _ args, D, m, hm | .newArray _ args, D, m, hm => Expr.mentionsAll_suit N args D m hm
  | .index _ o _ args, D, m, hm | .invoke _ o args, D, m, hm => by
    simp only [Expr.mentions, List.mem_append, Expr.Plain, Expr.placed] at hm ⊢
    rcases hm with hm | hm
    · exact (o.mentions_suit N D m hm).mono And.left (by simp)
    · exact (Expr.mentionsAll_suit N args D m hm).mono And.right (by simp)
  | .memberInit _ args bs, D, m, hm => by
    simp only [Expr.mentions, List.mem_append, Expr.Plain, Expr.placed] at hm ⊢
    rcases hm with hm | hm
    · exact (Expr.mentionsAll_suit N args D m hm).mono And.left (by simp)
    · exact (Expr.mentionsBindings_suit N bs D m hm).mono And.right (by simp)
  | .conditional _ t a b, D, m, hm => by
    simp only [Expr.mentions, List.mem_append, Expr.Plain, Expr.placed] at hm ⊢
    rcases hm with hm | hm | hm
    · exact (t.mentions_suit N D m hm).mono And.left (by simp)
    · exact (a.mentions_suit N D m hm).mono (fun h => h.2.1) (by simp)
    · exact (b.mentions_suit N D m hm).mono (fun h => h.2.2) (by simp)
  | .block _ vars es, D, m, hm => by
    simp only [Expr.mentions, List.mem_cons, Expr.Plain, Expr.placed] at hm ⊢
    rcases hm with rfl | hm
    · exact And.left
    · exact (Expr.mentionsAll_suit N es _ m hm).mono And.right (List.Subset.refl _)
  | .loop b breakLabel continueLabel, D, m, hm => by
    simp only [Expr.mentions, List.mem_append, List.mem_map, Option.mem_toList, Expr.Plain,
      Expr.placed] at hm ⊢
    rcases hm with ⟨l, rfl, rfl⟩ | ⟨l, rfl, rfl⟩ | hm
    · exact ⟨fun h => h.1 l rfl, by simp [labelIds]⟩
    · exact ⟨fun h => h.2.1 l rfl, by simp [labelIds]⟩
    · exact (b.mentions_suit N D m hm).mono (fun h => h.2.2) (by simp)
  | .protect b hs k, D, m, hm => by
    simp only [Expr.mentions, List.mem_append, Expr.Plain, Expr.placed] at hm ⊢
    rcases hm with hm | hm | hm
    · exact (b.mentions_suit N D m hm).mono And.left (by simp)
    · exact (Expr.mentionsHandlers_suit N hs D m hm).mono (fun h => h.2.1) (by simp)
    · exact (Expr.mentionsCleanup_suit N k D m hm).mono (fun h => h.2.2) (by simp)
  | .label l e, D, m, hm => by
    simp only [Expr.mentions, List.mem_cons, Expr.Plain, Expr.placed] at hm ⊢
    rcases hm with rfl | hm
    · exact ⟨And.left, by simp⟩
    · exact (Expr.mentionsOption_suit N e D m hm).mono And.right (by simp)
  | .goto _ _ l e, D, m, hm => by
    simp only [Expr.mentions, List.mem_cons, Expr.Plain, Expr.placed] at hm ⊢
    rcases hm with rfl | hm
    · exact And.left
    · exact (Expr.mentionsOption_suit N e D m hm).mono And.right (by simp)
  | .switch _ v cs e _, D, m, hm => by
    simp only [Expr.mentions, List.mem_append, Expr.Plain, Expr.placed] at hm ⊢
    rcases hm with hm | hm | hm
    · exact (v.mentions_suit N D m hm).mono And.left (by simp)
    · exact (Expr.mentionsCases_suit N cs D m hm).mono (fun h => h.2.1) fun x hx => by
        rcases List.mem_append.1 hx with hx | hx <;> simp [hx]
    · exact (Expr.mentionsOption_suit N e D m hm).mono (fun h => h.2.2) fun x hx => by simp [hx]

theorem Expr.mentionsOption_suit (N : Names) : ∀ (o : Option Expr) (D : List Nat),
    ∀ m ∈ Expr.mentionsOption D o, m.Suits (Expr.PlainOption N o) N (Expr.placedOption o)
  | some e, D, m, hm => e.mentions_suit N D m hm

theorem Expr.mentionsAll_suit (N : Names) : ∀ (es : List Expr) (D : List Nat),
    ∀ m ∈ Expr.mentionsAll D es, m.Suits (Expr.PlainAll N es) N (Expr.placedAll es)
  | e :: es, D, m, hm => by
    simp only [Expr.mentionsAll, List.mem_append, Expr.PlainAll, Expr.placedAll] at hm ⊢
    rcases hm with hm | hm
    · exact (e.mentions_suit N D m hm).mono And.left (by simp)
    · exact (Expr.mentionsAll_suit N es D m hm).mono And.right (by simp)

theorem Expr.mentionsBindings_suit (N : Names) : ∀ (bs : List Binding) (D : List Nat),
    ∀ m ∈ Expr.mentionsBindings D bs,
      m.Suits (Expr.PlainBindings N bs) N (Expr.placedBindings bs)
  | .mk _ e :: bs, D, m, hm => by
    simp only [Expr.mentionsBindings, List.mem_append, Expr.PlainBindings,
      Expr.placedBindings] at hm ⊢
    rcases hm with hm | hm
    · exact (e.mentions_suit N D m hm).mono And.left (by simp)
    · exact (Expr.mentionsBindings_suit N bs D m hm).mono And.right (by simp)

theorem Expr.mentionsHandlers_suit (N : Names) : ∀ (hs : List CatchClause) (D : List Nat),
    ∀ m ∈ Expr.mentionsHandlers D hs,
      m.Suits (Expr.PlainHandlers N hs) N (Expr.placedHandlers hs)
  | .mk _ _ _ body :: hs, D, m, hm => by
    simp only [Expr.mentionsHandlers, List.mem_append, Expr.PlainHandlers,
      Expr.placedHandlers] at hm ⊢
    rcases hm with hm | hm
    · exact (body.mentions_suit N _ m hm).mono (fun h => h.2.1) (by simp)
    · exact (Expr.mentionsHandlers_suit N hs D m hm).mono (fun h => h.2.2) (by simp)

theorem Expr.mentionsCleanup_suit (N : Names) : ∀ (k : Cleanup) (D : List Nat),
    ∀ m ∈ Expr.mentionsCleanup D k, m.Suits (Expr.PlainCleanup N k) N (Expr.placedCleanup k)
  | .finally e, D, m, hm | .fault e, D, m, hm => e.mentions_suit N D m hm

theorem Expr.mentionsCases_suit (N : Names) : ∀ (cs : List SwitchCase) (D : List Nat),
    ∀ m ∈ Expr.mentionsCases D cs,
      m.Suits (Expr.PlainCases N cs) N (Expr.placedTests cs ++ Expr.placedBodies cs)
  | .mk tests body :: cs, D, m, hm => by
    simp only [Expr.mentionsCases, List.mem_append, Expr.PlainCases, Expr.placedTests,
      Expr.placedBodies] at hm ⊢
    rcases hm with hm | hm | hm
    · exact (Expr.mentionsAll_suit N tests D m hm).mono And.left (by simp)
    · exact (body.mentions_suit N D m hm).mono (fun h => h.2.1) fun x hx => by simp [hx]
    · exact (Expr.mentionsCases_suit N cs D m hm).mono (fun h => h.2.2) fun x hx => by
        rcases List.mem_append.1 hx with hx | hx <;> simp [hx]

end

/-- **Lowering a tree keeps the draft in order.** -/
theorem Expr.part_acts (N : Names) (e : Expr) : e.part.Acts (e.Plain N) N e.placed :=
  (acts_rule (e.Plain N) N e.placed).part e [] (e.mentions_suit N [])

/-! ## Parts -/

/-- The operand stack after a node was emitted for a usage. -/
def Usage.pushed (f : Usage) (v : Value) (st : List Value) : List Value :=
  if f.discarded then st else v :: st

theorem Expr.part_expr (e : Expr) : e.part.expr = e := by
  cases e with
  | unary t op e m =>
    simp only [Expr.part]
    split <;> rfl
  | binary t op l r m => cases op <;> rfl
  | _ => rfl

theorem Part.emit_plain (e : Expr) (x : Usage → LowerM Unit) : (Part.plain e x).emit = x := rfl

theorem Expr.part_ty (e : Expr) : e.part.ty = e.ty := by rw [Part.ty, Expr.part_expr]

/-- What an assignment sees of its left side. -/
def Expr.place : Expr → TargetPart
  | .var v => .var v
  | .member o m => .member o.part m
  | .index _ o ix args => .index o.part ix (Expr.parts args)
  | _ => .other

theorem Expr.part_target (e : Expr) : e.part.target = e.place := by
  cases e with
  | unary t op x m =>
    simp only [Expr.part]
    split <;> rfl
  | binary t op l r m => cases op <;> rfl
  | _ => rfl

theorem Expr.parts_length (es : List Expr) : (Expr.parts es).length = es.length := by
  induction es with
  | nil => rfl
  | cons e es ih => simp [Expr.parts, ih]

end TreeCode
