import TreeCode.Proofs.Lower.Jump
import TreeCode.Proofs.Lower.Routine

/-!
# Steps that keep a draft in order

`Acts c N P I x` says that whenever the lowering step `x` succeeds, it does to
the draft what `Draft.Step` allows, provided the labels `I` may be placed. The
predicate is closed under the ways in which steps are put together, so that
for most nodes it follows from their parts by structure alone.

Main results:

* `Acts.bind`, `Acts.fresh`, `Acts.program`, `Acts.place` — sequences, and
  labels that are made, used and placed.
* `bringInAll_quiet`, `takeOutAll_get?` — variables come into scope and leave
  it again.
-/

namespace TreeCode

namespace Slots

variable (s : Slots) (id id' k : Nat)

@[simp] theorem get?_erase : (s.erase id).get? id' = if id' = id then none else s.get? id' := by
  obtain ⟨entries⟩ := s
  simp only [erase, get?]
  induction entries with
  | nil => simp
  | cons x rest ih => grind

@[simp] theorem get?_insert :
    (s.insert id k).get? id' = if id' = id then some k else s.get? id' := by
  have herase := get?_erase s id id'
  simp only [insert, get?, List.lookup_cons] at herase ⊢
  grind

theorem get?_restore (old : Option Nat) :
    (s.restore id old).get? id' = if id' = id then old else s.get? id' := by
  cases old <;> simp [restore]

end Slots

/-- A label that may be placed: one that the program does not name, or one of
the labels `P`. -/
def Draft.Placeable (s : Draft) (P : List Nat) (r : Nat) : Prop :=
  r < s.labels.size ∧ (s.Internal r ∨ ∃ id ∈ P, s.programLabels.lookup id = some r)

namespace Lower

open Draft

variable {α β : Type} {c : Prop} {N : Names} {P Q I : List Nat} {env : LowerEnv} {s s' t : Draft}
  {u : Unit}

theorem Placeable.leads {r : Nat} (h : s.Placeable P r) (hst : s.Leads t) : t.Placeable P r := by
  refine ⟨Nat.lt_of_lt_of_le h.1 hst.labels_le, ?_⟩
  rcases h.2 with h | ⟨id, hid, h⟩
  · exact .inl (h.leads hst)
  · exact .inr ⟨id, hid, hst.named id r h⟩

/-- The step keeps the draft in order, given that the labels `I` may be placed. -/
def Acts (c : Prop) (N : Names) (P I : List Nat) (x : LowerM α) : Prop :=
  ∀ env s a s', x env s = .ok (a, s') → s.Sound → (∀ r ∈ I, s.Placeable P r) → Step c N P I s s'

namespace Acts

theorem mono {c' : Prop} {x : LowerM α} (h : Acts c N P [] x) (hc : c' → c) (hP : P ⊆ Q) :
    Acts c' N Q I x :=
  fun env s a s' hx hs _ => (h env s a s' hx hs (by simp)).mono hc hP (List.nil_subset I)

/-- A step before one that is given a result of the first. -/
theorem bindOf {x : LowerM α} {f : α → LowerM β} (hx : Acts c N P I x)
    (hf : ∀ a, MayGive x a → Acts c N P I (f a)) : Acts c N P I (x >>= f) := by
  intro env s b s' h hs hI
  obtain ⟨a, s₁, h₁, h₂⟩ := bind_ok.1 h
  have st := hx env s a s₁ h₁ hs hI
  exact st.trans (hf a ⟨env, s, s₁, h₁⟩ env s₁ b s' h₂ (st.stage.sound hs) fun r hr =>
    Placeable.leads (hI r hr) st.stage.leads)

theorem bind {x : LowerM α} {f : α → LowerM β} (hx : Acts c N P I x)
    (hf : ∀ a, Acts c N P I (f a)) : Acts c N P I (x >>= f) :=
  hx.bindOf fun a _ => hf a

theorem pure {a : α} : Acts c N P I (pure a) := by
  intro env s b s' h _ _
  obtain ⟨-, rfl⟩ := pure_ok.1 h
  exact .refl s

theorem get : Acts c N P I (get : LowerM Draft) := by
  intro env s b s' h _ _
  obtain ⟨-, rfl⟩ := get_ok.1 h
  exact .refl s

theorem read : Acts c N P I (read : LowerM LowerEnv) := by
  intro env s b s' h _ _
  obtain ⟨-, rfl⟩ := read_ok.1 h
  exact .refl s

theorem unsupported {e : Unsupported} : Acts c N P I (unsupported e : LowerM α) :=
  fun _ _ _ _ h => absurd h (by simp [unsupported_ok])

theorem error {e : CompileError} : Acts c N P I (error e : LowerM α) :=
  fun _ _ _ _ h => absurd h (by simp [error_ok])

theorem ite {b : Prop} [Decidable b] {x y : LowerM α} (hx : Acts c N P I x)
    (hy : Acts c N P I y) : Acts c N P I (if b then x else y) := by
  split
  · exact hx
  · exact hy

/-- A step that only grows the draft quietly. -/
theorem of_quiet {x : LowerM α} (h : ∀ env s a s', x env s = .ok (a, s') → Quiet s s' ∧ Same s s') :
    Acts c N P I x :=
  fun env s a s' hx _ _ => (h env s a s' hx).1.step (h env s a s' hx).2

theorem modify {g : Draft → Draft} (h : ∀ s, Quiet s (g s) ∧ Same s (g s)) :
    Acts c N P I (modify g : LowerM Unit) :=
  of_quiet fun _ s _ _ hx => modify_ok.1 hx ▸ h s

theorem emit {i : Instr} : Acts c N P I (emit i) :=
  modify fun s => ⟨.emitted s i, .emitted s i⟩

theorem newSlot : Acts c N P I newSlot :=
  of_quiet fun _ _ _ _ h => ⟨newSlot_quiet h, newSlot_same h⟩

theorem literal {v : Value} : Acts c N P I (literal v) :=
  of_quiet fun _ _ _ _ h => ⟨(literal_ok h).1.quiet, (literal_ok h).1.same⟩

theorem typeEntry {t : Ty} : Acts c N P I (typeEntry t) :=
  of_quiet fun _ _ _ _ h => ⟨(typeEntry_ok h).1.quiet, (typeEntry_ok h).1.same⟩

theorem methodEntry {m : Method} : Acts c N P I (methodEntry m) :=
  of_quiet fun _ _ _ _ h => ⟨(methodEntry_ok h).1.quiet, (methodEntry_ok h).1.same⟩

theorem structEntry {d : StructDef} : Acts c N P I (structEntry d) :=
  of_quiet fun _ _ _ _ h => ⟨(structEntry_ok h).1.quiet, (structEntry_ok h).1.same⟩

theorem jumpTo {i : Instr} {r : Nat} : Acts c N P I (jumpTo i r) :=
  of_quiet fun _ _ _ _ h => ⟨(jumpTo_jumped h).quiet, (jumpTo_jumped h).same⟩

theorem place {r : Nat} (hr : r ∈ I) : Acts c N P I (placeLabel r) :=
  fun _ _ _ _ h _ hI => placeLabel_step h (hI r hr).1 (hI r hr).2 hr

/-- A label made for the node itself. -/
theorem fresh {f : Nat → LowerM β} (hf : ∀ r, Acts c N P (r :: I) (f r)) :
    Acts c N P I (freshLabel >>= f) := by
  intro env s b s' h hs hI
  obtain ⟨r, s₁, h₁, h₂⟩ := bind_ok.1 h
  have st : Step c N P I s s₁ := freshLabel_step h₁
  have hr := freshLabel_internal hs h₁
  refine st.transOwn (hf r env s₁ b s' h₂ (st.stage.sound hs) fun r' hr' => ?_)
    fun r' hr' hint => ?_
  · rcases List.mem_cons.1 hr' with rfl | hr'
    · exact ⟨hr.lt, .inl hr⟩
    · exact Placeable.leads (hI r' hr') st.stage.leads
  · obtain ⟨rfl, -⟩ := freshLabel_ok.1 h₁
    rcases List.mem_cons.1 hr' with rfl | hr'
    · exact absurd hint.lt (Nat.lt_irrefl _)
    · exact hr'

/-- A label of the program that may be placed here. -/
theorem program {l : Label} {f : Nat → LowerM β} (hN : c → N.Knows l) (hP : l.id ∈ P)
    (hf : ∀ r, Acts c N P (r :: I) (f r)) : Acts c N P I (programLabel l >>= f) := by
  intro env s b s' h hs hI
  obtain ⟨r, s₁, h₁, h₂⟩ := bind_ok.1 h
  have st : Step c N P I s s₁ := programLabel_step h₁ hN
  have hlook := (programLabel_named h₁).lookup
  refine st.transOwn (hf r env s₁ b s' h₂ (st.stage.sound hs) fun r' hr' => ?_)
    fun r' hr' hint => ?_
  · rcases List.mem_cons.1 hr' with rfl | hr'
    · exact ⟨(st.stage.sound hs).named_lt _ _ hlook, .inr ⟨l.id, hP, hlook⟩⟩
    · exact Placeable.leads (hI r' hr') st.stage.leads
  · rcases List.mem_cons.1 hr' with rfl | hr'
    · exact absurd hlook ((hint.leads st.stage.leads).unnamed l.id)
    · exact hr'

/-- A label of the program that is only jumped to. -/
theorem mention {l : Label} (hN : c → N.Knows l) : Acts c N P I (programLabel l) :=
  fun _ _ _ _ h _ _ => programLabel_step h hN

end Acts

/-! ## Values and variables -/

theorem pushValue_quiet {v : Value} (h : pushValue v env s = .ok (u, s')) :
    Quiet s s' ∧ Same s s' := by
  unfold pushValue at h
  split at h
  case h_5 =>
    simp only [bind_ok, emit_ok] at h
    obtain ⟨_, s₁, hlit, rfl⟩ := h
    have htab := (literal_ok hlit).1
    exact ⟨htab.quiet.trans (.emitted _ _), htab.same.trans (.emitted _ _)⟩
  all_goals
    obtain rfl := emit_ok.1 h
    exact ⟨.emitted _ _, .emitted _ _⟩

theorem dropWhen_acts {b : Bool} : Acts c N P I (dropWhen b) := Acts.ite .emit .pure

theorem assumePushed_acts : Acts c N P I assumePushed :=
  .modify fun _ => ⟨.of_eq rfl rfl rfl rfl (Nat.le_refl _) (Nat.le_refl _) ⟨rfl, rfl, rfl, rfl⟩,
    ⟨fun _ => rfl, rfl, rfl, rfl⟩⟩

theorem assumeValue_acts {t : Ty} {f : Usage} : Acts c N P I (assumeValue t f) :=
  Acts.ite assumePushed_acts .pure

theorem acts_routine : Routine fun x => Acts c N P I x where
  pure := .pure
  bind := .bindOf
  get := .get
  read := .read
  unsupported := .unsupported
  error := .error
  emit _ _ := .emit
  newSlot := .newSlot
  literal _ := Acts.literal.bind fun _ => .emit
  typeEntry := .typeEntry
  methodEntry := .methodEntry
  structEntry := .structEntry

/-! ## Scopes -/

theorem initialise_quiet {v : Var} {slot : Nat} (h : initialise v slot env s = .ok (u, s')) :
    Quiet s s' ∧ Same s s' := by
  simp only [initialise, read_bind, emit_ok] at h
  subst h
  exact ⟨.emitted _ _, .emitted _ _⟩

theorem bringIn_ok {v : Var} {slot : Nat} {hidden : Option Nat} :
    bringIn v env s = .ok ((slot, hidden), s') ↔
      s.numLocals < localLimit ∧ s.numLocals = slot ∧ s.slots.get? v.id = hidden ∧
        { s with numLocals := s.numLocals + 1, slots := s.slots.insert v.id slot } = s' := by
  simp only [bringIn, bind_ok, get_ok, modify_ok, pure_ok, newSlot_ok]
  grind

theorem bringIn_quiet {v : Var} {slot : Nat} {hidden : Option Nat}
    (h : bringIn v env s = .ok ((slot, hidden), s')) : Quiet s s' := by
  obtain ⟨-, rfl, -, rfl⟩ := bringIn_ok.1 h
  exact .of_eq rfl rfl rfl rfl (Nat.le_succ _) (Nat.le_refl _) ⟨rfl, rfl, rfl, rfl⟩

/-- Variables come into scope one after the other; the slots that distinct ones
hide are those they had before. -/
theorem bringInAll_quiet {vars : List Var} {hidden : List (Option Nat)}
    (h : bringInAll vars env s = .ok (hidden, s')) :
    Quiet s s' ∧ s'.caught = s.caught ∧ s'.cleanups = s.cleanups ∧ s'.hoisted = s.hoisted ∧
      (∀ id, id ∉ vars.map (·.id) → s'.slots.get? id = s.slots.get? id) ∧
      ((vars.map (·.id)).Nodup → hidden = vars.map fun v => s.slots.get? v.id) := by
  induction vars generalizing s hidden with
  | nil =>
    obtain ⟨rfl, rfl⟩ := pure_ok.1 h
    exact ⟨.refl s, rfl, rfl, rfl, fun _ _ => rfl, fun _ => rfl⟩
  | cons v vs ih =>
    simp only [bringInAll, bind_ok, pure_ok] at h
    obtain ⟨⟨slot, hid⟩, s₁, hin, _, s₂, hpush, _, s₃, hinit, rest, _, hrest, rfl, rfl⟩ := h
    obtain ⟨-, rfl, rfl, rfl⟩ := bringIn_ok.1 hin
    have hq₀ := bringIn_quiet hin
    obtain ⟨hq₁, hsame₁⟩ := pushValue_quiet hpush
    obtain ⟨hq₂, hsame₂⟩ := initialise_quiet hinit
    obtain ⟨hq, hcaught, hclean, hhoist, hslots, hhidden⟩ := ih hrest
    have hsame := hsame₁.trans hsame₂
    have hget : ∀ id, id ≠ v.id → s₃.slots.get? id = s.slots.get? id := fun id hne => by
      rw [hsame.slots, Slots.get?_insert, if_neg hne]
    refine ⟨?_, hcaught.trans hsame.caught, hclean.trans hsame.cleanups,
      hhoist.trans hsame.hoisted, fun id hid => ?_, fun hnd => ?_⟩
    · exact hq₀.trans (hq₁.trans (hq₂.trans hq))
    · simp only [List.map_cons, List.mem_cons, not_or] at hid
      rw [hslots id hid.2, hget id hid.1]
    · simp only [List.map_cons, List.nodup_cons] at hnd
      rw [hhidden hnd.2, List.map_cons]
      refine congrArg (_ :: ·) (List.map_congr_left fun w hw => hget w.id ?_)
      rintro heq
      exact hnd.1 (heq ▸ List.mem_map_of_mem hw)

theorem takeOutAll_quiet {vars : List Var} {hidden : List (Option Nat)}
    (h : takeOutAll vars hidden env s = .ok (u, s')) :
    Quiet s s' ∧ s'.caught = s.caught ∧ s'.cleanups = s.cleanups ∧ s'.hoisted = s.hoisted ∧
      s'.instrs = s.instrs ∧ s'.depth = s.depth ∧ s'.reachable = s.reachable := by
  induction vars generalizing s hidden with
  | nil =>
    obtain ⟨-, rfl⟩ := pure_ok.1 h
    exact ⟨.refl s, rfl, rfl, rfl, rfl, rfl, rfl⟩
  | cons v vs ih =>
    cases hidden with
    | nil =>
      obtain ⟨-, rfl⟩ := pure_ok.1 h
      exact ⟨.refl s, rfl, rfl, rfl, rfl, rfl, rfl⟩
    | cons x hidden =>
      simp only [takeOutAll, takeOut, modify_bind] at h
      obtain ⟨hq, hrest⟩ := ih h
      exact ⟨(Quiet.of_scope s _ _ _ _ _ _ (Nat.le_refl _)).trans hq, hrest⟩

/-- Distinct variables get back the slots they had in an earlier scope. -/
theorem takeOutAll_get? {vars : List Var} {old : Slots}
    (h : takeOutAll vars (vars.map fun v => old.get? v.id) env s = .ok (u, s')) (id : Nat) :
    s'.slots.get? id = if id ∈ vars.map (·.id) then old.get? id else s.slots.get? id := by
  induction vars generalizing s with
  | nil =>
    obtain ⟨-, rfl⟩ := pure_ok.1 h
    simp
  | cons v vs ih =>
    simp only [List.map_cons, takeOutAll, takeOut, modify_bind] at h
    rw [ih h, Slots.get?_restore]
    by_cases hid : id = v.id
    · subst hid
      simp
    · simp [hid]

end Lower

/-! ## Steps one after the other -/

open Draft Lower

theorem Draft.Step.comp {c : Prop} {N : Names} {P Q I I' : List Nat} {s t u : Draft}
    (h₁ : Step c N P I s t) (h₂ : Step c N Q I' t u) : Step c N (P ++ Q) (I ++ I') s u :=
  (h₁.mono id (List.subset_append_left P Q) (List.subset_append_left I I')).trans
    (h₂.mono id (List.subset_append_right P Q) (List.subset_append_right I I'))

theorem Draft.Step.nil {c : Prop} {N : Names} (s : Draft) : Step c N [] [] s s := .refl s

theorem Draft.Step.emitted {c : Prop} {N : Names} (s : Draft) (i : Instr) :
    Step c N [] [] s (s.emitted i) :=
  (Quiet.emitted s i).step (.emitted s i)

/-- An instruction comes before. -/
theorem Draft.Step.ofEmitted {c : Prop} {N : Names} {P I : List Nat} {s t : Draft} {i : Instr}
    (h : Step c N P I (s.emitted i) t) : Step c N P I s t :=
  (Step.emitted s i).comp h

/-- The step that an action makes. -/
theorem Lower.Acts.stepped {α : Type} {c : Prop} {N : Names} {P : List Nat} {x : LowerM α}
    {env : LowerEnv} {r : α} {s s' : Draft} (h : Acts c N P [] x) (hx : x env s = .ok (r, s'))
    (hs : s.Sound) (hc : c) : Step True N P [] s s' :=
  (h env s r s' hx hs (by simp)).mono (fun _ => hc) (List.Subset.refl _) (List.Subset.refl _)

/-! ## Labels of a node's own -/

/-- A label without a name that is not placed yet. -/
structure Draft.Free (s : Draft) (r : Nat) : Prop where
  internal : s.Internal r
  waiting : s.Waiting r

namespace Draft.Free

variable {c : Prop} {N : Names} {P I : List Nat} {env : LowerEnv} {r : Nat} {s t : Draft}

theorem fresh (hs : s.Sound) (h : freshLabel env s = .ok (r, t)) : t.Free r := by
  refine ⟨freshLabel_internal hs h, ?_⟩
  obtain ⟨rfl, rfl⟩ := freshLabel_ok.1 h
  exact ⟨{}, by simp, rfl⟩

theorem step (h : s.Free r) (hst : Step c N P I s t) (hI : r ∉ I) : t.Free r :=
  ⟨h.internal.leads hst.stage.leads, hst.spares r h.internal hI h.waiting⟩

theorem place {u : Unit} (h : s.Free r) (hp : placeLabel r env s = .ok (u, t)) :
    Placed s t r ∧ Step c N [] [r] s t := by
  obtain ⟨l, hl, hpos⟩ := h.waiting
  exact ⟨placeLabel_placed hp hl hpos,
    placeLabel_step hp h.internal.lt (.inl h.internal) (List.mem_singleton_self r)⟩

end Draft.Free

/-- A label that was made for a node is placed where the node places it. -/
theorem Draft.Step.placing {c : Prop} {N : Names} {P I : List Nat} {env : LowerEnv} {r : Nat}
    {s s₁ t t' : Draft} {u : Unit} (h : Step c N P I s₁ t) (hs : s.Sound)
    (hr : freshLabel env s = .ok (r, s₁)) (hI : r ∉ I) (hp : placeLabel r env t = .ok (u, t')) :
    Placed t t' r ∧ Step c N [] [r] t t' :=
  ((Free.fresh hs hr).step h hI).place hp

end TreeCode
