import TreeCode.Compile.Unit
import TreeCode.Proofs.Compile.Survey
import TreeCode.Proofs.Lower.Acts
import TreeCode.Proofs.Lower.Rule

/-!
# Plans suffice for lowering

Planning and lowering walk a lambda independently: the one keeps the blocks
around a node, the other the slots of the variables in scope. Both know the same
variables at every mention, so what the walk has noted is what lowering looks up.

Main definitions:

* `Lower.Safe` — a step keeps the variables in scope and does not fail for want
  of a plan.
* `Mention.Met` — lowering finds what a mention asks for.

Main results:

* `Lower.safe_rule` — being safe is a rule of lowering.
* `boundUnit_planned` — **compiling a lambda that could be planned never fails for
  want of something in a plan**, and every constant with identity has its place in
  the record of its unit.
-/

namespace TreeCode

/-- The variables that have a slot are those in scope. -/
def Draft.InScope (s : Draft) (D : List Nat) : Prop :=
  ∀ id, (s.slots.get? id).isSome ↔ id ∈ D

/-- The variables that a nested unit is bound to at its mentions. -/
def NestedForm.captures : NestedForm → List Var
  | .bound _ => []
  | .opened _ vs => vs

/-- Lowering finds what a mention asks for. -/
def Mention.Met (env : LowerEnv) : Mention → Prop
  | .constant _ => True
  | .var D v => v.id ∉ D → (env.plan.capturePlace? v.id).isSome
  | .label l | .place l => l.id ∈ env.plan.labels
  | .lambda D l => ∃ k form, env.units.findIdx? (·.lambda.id == l.id) = some k ∧
      (env.plan.nestedPlace? k).isSome ∧ env.compiled[k]? = some form ∧
        ∀ v ∈ form.captures, env.plan.HandsOn D v.id
  | .block vars => (Var.ids vars).Nodup

namespace Lower

/-- A step that leads from scope `D` to scope `D'` and does not fail for want of
a plan. -/
structure Safe {α : Type} (env : LowerEnv) (D D' : List Nat) (x : LowerM α) : Prop where
  ok : ∀ s a s', x env s = .ok (a, s') → s.InScope D → s'.InScope D'
  fails : ∀ s e, x env s = .error (.error e) → s.InScope D → e.missesPlan = false

namespace Safe

variable {α β : Type} {env : LowerEnv} {D D' D'' : List Nat} {x y : LowerM α}

theorem congr (h : Safe env D D' x) (hD : ∀ id, id ∈ D' ↔ id ∈ D'') : Safe env D D'' x :=
  ⟨fun s a s' hx hs id => (h.ok s a s' hx hs id).trans (hD id), h.fails⟩

theorem bind {f : α → LowerM β} (hx : Safe env D D' x) (hf : ∀ a, Safe env D' D'' (f a)) :
    Safe env D D'' (x >>= f) where
  ok s b s' h hs := by
    obtain ⟨a, s₁, h₁, h₂⟩ := bind_ok.1 h
    exact (hf a).ok s₁ b s' h₂ (hx.ok s a s₁ h₁ hs)
  fails s e h hs := by
    rcases bind_error.1 h with h | ⟨a, s₁, h₁, h₂⟩
    · exact hx.fails s e h hs
    · exact (hf a).fails s₁ e h₂ (hx.ok s a s₁ h₁ hs)

theorem pure {a : α} : Safe env D D (pure a) where
  ok s b s' h hs := (pure_ok.1 h).2 ▸ hs
  fails s e h := by cases h

theorem get : Safe env D D (get : LowerM Draft) where
  ok s b s' h hs := (get_ok.1 h).2 ▸ hs
  fails s e h := by cases h

/-- The surroundings are the given ones. -/
theorem read_bind {f : LowerEnv → LowerM β} (hf : Safe env D D' (f env)) :
    Safe env D D' (read >>= f) := ⟨hf.ok, hf.fails⟩

theorem read : Safe env D D (read : LowerM LowerEnv) where
  ok s b s' h hs := (read_ok.1 h).2 ▸ hs
  fails s e h := by cases h

theorem unsupported {u : Unsupported} : Safe env D D' (unsupported u : LowerM α) where
  ok s a s' h := absurd h (by simp [unsupported_ok])
  fails s e h := by cases h

theorem error {e : CompileError} (he : e.missesPlan = false) :
    Safe env D D' (error e : LowerM α) where
  ok s a s' h := absurd h (by simp [error_ok])
  fails s e' h := by
    cases h
    exact fun _ => he

theorem ite {c : Prop} [Decidable c] (hx : Safe env D D' x) (hy : Safe env D D' y) :
    Safe env D D' (if c then x else y) := by
  split
  · exact hx
  · exact hy

theorem guard {c : Prop} [Decidable c] {x : LowerM Unit} {f : Unit → LowerM β}
    (hx : Safe env D D x) (hf : ∀ a, Safe env D D' (f a)) :
    Safe env D D' (if c then x >>= f else f ()) :=
  .ite (hx.bind hf) (hf ())

/-- A change of the draft that leaves the variables in scope as they are. -/
theorem change {g : Draft → Draft} (hg : ∀ s, (g s).slots = s.slots) :
    Safe env D D (modify g : LowerM Unit) where
  ok s u s' h hs := by
    obtain rfl := modify_ok.1 h
    rw [Draft.InScope, hg s]
    exact hs
  fails s e h := by cases h

/-- A change that comes before other steps. -/
theorem changing {g : Draft → Draft} {f : Unit → LowerM β} (hg : ∀ s, (g s).slots = s.slots)
    (hf : Safe env D D' (f ())) : Safe env D D' (modify g >>= f) :=
  (change hg).bind fun _ => hf

theorem emit {i : Instr} : Safe env D D (emit i) := change fun _ => rfl

theorem checkRoom {n m : Nat} : Safe env D D (checkRoom n m) := .ite (.error rfl) .pure

theorem newSlot : Safe env D D newSlot :=
  get.bind fun _ => .guard (.error rfl) fun _ => .changing (fun _ => rfl) .pure

theorem labelAt {r : Nat} : Safe env D D (labelAt r) := get.bind fun _ => .pure

theorem position : Safe env D D position := get.bind fun _ => .pure

theorem cleanupHere : Safe env D D cleanupHere := get.bind fun _ => .pure

theorem modifyLabel {r : Nat} {f : DraftLabel → DraftLabel} : Safe env D D (modifyLabel r f) :=
  change fun _ => rfl

theorem addLabel {l : DraftLabel} : Safe env D D (addLabel l) :=
  get.bind fun _ => .changing (fun _ => rfl) .pure

/-! ## Tables -/

theorem literal {v : Value} : Safe env D D (literal v) := by
  refine get.bind fun s => ?_
  split
  · exact .pure
  · exact get.bind fun _ => checkRoom.bind fun _ => .changing (fun _ => rfl) .pure

theorem typeEntry {t : Ty} : Safe env D D (typeEntry t) := by
  refine get.bind fun s => ?_
  split
  · exact .pure
  · exact get.bind fun _ => checkRoom.bind fun _ => .changing (fun _ => rfl) .pure

theorem methodEntry {m : Method} : Safe env D D (methodEntry m) := by
  refine get.bind fun s => ?_
  split
  · exact .pure
  · exact get.bind fun _ => checkRoom.bind fun _ => .changing (fun _ => rfl) .pure

theorem structEntry {d : StructDef} : Safe env D D (structEntry d) := by
  refine get.bind fun s => ?_
  split
  · exact .pure
  · exact get.bind fun _ => checkRoom.bind fun _ => .changing (fun _ => rfl) .pure

theorem pushValue {v : Value} : Safe env D D (pushValue v) := by
  unfold Lower.pushValue
  split
  case h_5 => exact literal.bind fun _ => .emit
  all_goals exact .emit

theorem pushEntry {i : Nat} : Safe env D D (pushEntry i) := by
  refine get.bind fun s => ?_
  split <;> exact .emit

theorem pushConstant {v : Value} {f : Usage} : Safe env D D (pushConstant v f) := by
  unfold Lower.pushConstant
  refine .ite .pure (.ite pushValue (.read_bind ?_))
  split
  · split
    · exact .emit
    · exact .unsupported
  · split
    · exact pushEntry
    · exact literal.bind fun _ => .emit

/-! ## Labels -/

theorem agreeOnHeight {r : Nat} : Safe env D D (agreeOnHeight r) := by
  refine labelAt.bind fun l => get.bind fun s => ?_
  split
  · exact .ite .unsupported .pure
  · exact modifyLabel

theorem jumpTo {i : Instr} {r : Nat} : Safe env D D (jumpTo i r) :=
  cleanupHere.bind fun _ => position.bind fun _ => labelAt.bind fun _ =>
    .guard .unsupported fun _ => emit.bind fun _ => agreeOnHeight.bind fun _ =>
    .ite modifyLabel .pure

theorem patch {shown : String} {c : Option Nat} {q : Nat} {fs : List (Nat × Option Nat)} :
    Safe env D D (patch shown c q fs) := by
  induction fs with
  | nil => exact .pure
  | cons f fs ih =>
    unfold Lower.patch
    exact .guard .unsupported fun _ => .changing (fun _ => rfl) ih

theorem placeLabel {r : Nat} : Safe env D D (placeLabel r) := by
  have harrive : ∀ l, Safe env D D (arrive r l) := by
    intro l
    refine get.bind fun s => .ite agreeOnHeight ?_
    split
    · exact change fun _ => rfl
    · exact get.bind fun _ => modifyLabel
  exact labelAt.bind fun l => .ite .pure ((harrive l).bind fun _ => .changing (fun _ => rfl)
    (position.bind fun _ => cleanupHere.bind fun _ => patch.bind fun _ => modifyLabel))

/-- A label that the plan knows. -/
theorem programLabel {l : Label} (h : l.id ∈ env.plan.labels) :
    Safe env D D (programLabel l) := by
  refine .read_bind (.guard (.error rfl) fun _ => ?_)
  rw [if_neg (by simpa using h)]
  refine get.bind fun s => ?_
  split
  · exact .pure
  · have hrest : ∀ slot, Safe env D D (do
        let id ← Lower.addLabel { name := some l.shown, valueSlot := slot }
        modify fun s => { s with programLabels := (l.id, id) :: s.programLabels }
        Pure.pure id) := fun _ => addLabel.bind fun _ => .changing (fun _ => rfl) .pure
    refine .ite (Safe.pure.bind hrest) (Safe.bind ?_ hrest)
    rw [map_eq_pure_bind]
    exact newSlot.bind fun _ => .pure

end Safe

/-! ## Variables -/

variable {env : LowerEnv} {D : List Nat}

/-- A variable in scope has a slot, another one is captured. -/
theorem homeOf_total {v : Var} {s : Draft} (hs : s.InScope D)
    (h : v.id ∉ D → (env.plan.capturePlace? v.id).isSome) :
    ∃ home, homeOf v env s = .ok (home, s) := by
  simp only [homeOf, read_bind, get_bind]
  cases hslot : s.slots.get? v.id with
  | some slot => exact ⟨_, rfl⟩
  | none =>
    obtain ⟨i, hi⟩ := Option.isSome_iff_exists.1 (h fun hD => by
      simpa [hslot] using (hs v.id).2 hD)
    exact ⟨.captured i, by simp [hi, pure_ok]⟩

theorem homeOf_safe {v : Var} (h : v.id ∉ D → (env.plan.capturePlace? v.id).isSome) :
    Safe env D D (homeOf v) where
  ok s a s' hx hs := by
    obtain ⟨home, hhome⟩ := homeOf_total hs h
    rw [hhome] at hx
    cases hx
    exact hs
  fails s e hx hs := by
    obtain ⟨home, hhome⟩ := homeOf_total hs h
    rw [hhome] at hx
    cases hx

/-- A variable that can be handed to a nested unit is in a cell. -/
theorem homeOf_handsOn {v : Var} {s : Draft} (hs : s.InScope D) (h : env.plan.HandsOn D v.id) :
    ∃ home, homeOf v env s = .ok (home, s) ∧ ∀ k, home ≠ .slot k := by
  simp only [homeOf, read_bind, get_bind]
  cases hslot : s.slots.get? v.id with
  | some slot =>
    have hD : v.id ∈ D := (hs v.id).1 (by simp [hslot])
    have hbox : env.plan.isBoxed v.id = true := by
      simpa [Plan.isBoxed, Plan.HandsOn, hD] using h
    exact ⟨.boxed slot, by simp [hbox, pure_ok], by simp⟩
  | none =>
    have hD : v.id ∉ D := fun hD => by simpa [hslot] using (hs v.id).2 hD
    obtain ⟨i, hi⟩ : ∃ i, env.plan.capturePlace? v.id = some i := by
      simpa [Plan.HandsOn, hD, Option.isSome_iff_exists] using h
    exact ⟨.captured i, by simp [hi, pure_ok], by simp⟩

theorem cellLoads_handsOn {vs : List Var} {s : Draft} (hs : s.InScope D)
    (h : ∀ v ∈ vs, env.plan.HandsOn D v.id) : ∃ is, cellLoads vs env s = .ok (is, s) := by
  induction vs with
  | nil => exact ⟨[], rfl⟩
  | cons v vs ih =>
    obtain ⟨home, hhome, hcell⟩ := homeOf_handsOn hs (h v (by simp))
    obtain ⟨is, his⟩ := ih fun w hw => h w (by simp [hw])
    cases home with
    | slot k => exact absurd rfl (hcell k)
    | boxed k =>
      refine ⟨.loadLocal k :: is, bind_ok.2 ⟨_, _, hhome, ?_⟩⟩
      show (cellLoads vs >>= fun is => pure (.loadLocal k :: is)) env s = _
      exact bind_ok.2 ⟨is, s, his, rfl⟩
    | captured k =>
      refine ⟨.loadCapturedCell k :: is, bind_ok.2 ⟨_, _, hhome, ?_⟩⟩
      show (cellLoads vs >>= fun is => pure (.loadCapturedCell k :: is)) env s = _
      exact bind_ok.2 ⟨is, s, his, rfl⟩

theorem cellLoads_safe {vs : List Var} (h : ∀ v ∈ vs, env.plan.HandsOn D v.id) :
    Safe env D D (cellLoads vs) where
  ok s a s' hx hs := by
    obtain ⟨is, his⟩ := cellLoads_handsOn hs h
    rw [his] at hx
    cases hx
    exact hs
  fails s e hx hs := by
    obtain ⟨is, his⟩ := cellLoads_handsOn hs h
    rw [his] at hx
    cases hx

theorem insert_safe {id slot : Nat} :
    Safe env D (id :: D) (modify fun s => { s with slots := s.slots.insert id slot }) where
  ok s u s' hx hs := by
    obtain rfl := modify_ok.1 hx
    intro id'
    rw [Slots.get?_insert]
    by_cases hid : id' = id
    · simp [hid]
    · simpa [hid] using hs id'
  fails s e hx := by cases hx

theorem bringIn_safe {v : Var} : Safe env D (v.id :: D) (bringIn v) :=
  Safe.newSlot.bind fun _ => Safe.get.bind fun _ => insert_safe.bind fun _ => .pure

theorem bringInAll_safe {vars : List Var} : Safe env D (Var.ids vars ++ D) (bringInAll vars) := by
  induction vars generalizing D with
  | nil => exact .pure
  | cons v vs ih =>
    refine bringIn_safe.bind fun (slot, hidden) => Safe.pushValue.bind fun _ =>
      Safe.bind (.read_bind .emit) fun _ => Safe.bind (ih.congr fun id => ?_) fun _ => .pure
    simp only [Var.ids, List.map_cons, List.mem_append, List.mem_cons]
    grind

theorem takeOutAll_total : ∀ (vars : List Var) (hidden : List (Option Nat)) (env : LowerEnv)
    (s : Draft), ∃ s', takeOutAll vars hidden env s = .ok ((), s')
  | [], _, _, s => ⟨s, rfl⟩
  | _ :: _, [], _, s => ⟨s, rfl⟩
  | _ :: vs, _ :: rest, env, _ => takeOutAll_total vs rest env _

/-- A block of distinct variables leaves the scope it was entered with. -/
theorem block_safe {vars : List Var} {x : LowerM Unit} (hvars : (Var.ids vars).Nodup)
    (hx : Safe env (Var.ids vars ++ D) (Var.ids vars ++ D) x) : Safe env D D (do
      let hidden ← bringInAll vars
      x
      takeOutAll vars hidden) where
  ok s u s' h hs := by
    simp only [bind_ok] at h
    obtain ⟨hidden, s₁, h₁, _, s₂, h₂, h₃⟩ := h
    have hs₂ := hx.ok s₁ _ s₂ h₂ (bringInAll_safe.ok s hidden s₁ h₁ hs)
    obtain ⟨-, -, -, -, -, hhidden⟩ := bringInAll_quiet h₁
    rw [hhidden hvars] at h₃
    intro id
    rw [takeOutAll_get? h₃]
    split
    · exact hs id
    · rename_i hid
      simpa [Var.ids, hid] using hs₂ id
  fails s e h hs := by
    rcases bind_error.1 h with h | ⟨hidden, s₁, h₁, h⟩
    · exact bringInAll_safe.fails s e h hs
    · have hs₁ := bringInAll_safe.ok s hidden s₁ h₁ hs
      rcases bind_error.1 h with h | ⟨_, s₂, -, h⟩
      · exact hx.fails s₁ e h hs₁
      · obtain ⟨s₃, hout⟩ := takeOutAll_total vars hidden env s₂
        rw [hout] at h
        cases h

theorem handler_safe {v : Var} {x : Nat → LowerM Unit}
    (hx : ∀ slot, Safe env (v.id :: D) (v.id :: D) (x slot)) : Safe env D D (do
      let (slot, hidden) ← bringIn v
      x slot
      takeOut v hidden) where
  ok s u s' h hs := by
    simp only [bind_ok, takeOut, modify_ok] at h
    obtain ⟨⟨slot, hidden⟩, s₁, h₁, _, s₂, h₂, rfl⟩ := h
    have hs₂ := (hx slot).ok s₁ _ s₂ h₂ (bringIn_safe.ok s _ s₁ h₁ hs)
    obtain ⟨-, -, rfl, -⟩ := bringIn_ok.1 h₁
    intro id
    rw [Slots.get?_restore]
    split
    · rename_i hid
      exact hid ▸ hs v.id
    · rename_i hid
      simpa [hid] using hs₂ id
  fails s e h hs := by
    rcases bind_error.1 h with h | ⟨⟨slot, hidden⟩, s₁, h₁, h⟩
    · exact bringIn_safe.fails s e h hs
    · rcases bind_error.1 h with h | ⟨_, s₂, -, h⟩
      · exact (hx slot).fails s₁ e h (bringIn_safe.ok s _ s₁ h₁ hs)
      · cases h

/-! ## Protected regions and nested lambdas -/

theorem keepResult_safe {r : Option Nat} : Safe env D D (keepResult r) := by
  cases r with
  | none => exact .pure
  | some _ => exact .emit

theorem catches_safe {start stop depth : Nat} {result : Option Nat} {done : Nat} {f : Usage}
    {hs : List CatchPart} (h : ∀ k ∈ hs, ∀ slot f, Safe env D D (catchBody k slot f)) :
    Safe env D D (catches start stop depth result done f hs) := by
  induction hs with
  | nil => exact .pure
  | cons k hs ih =>
    exact .changing (fun _ => rfl) (Safe.position.bind fun _ => Safe.newSlot.bind fun _ =>
      (h k (by simp) _ _).bind fun _ => keepResult_safe.bind fun _ => Safe.jumpTo.bind fun _ =>
      (ih fun k hk => h k (by simp [hk])).bind fun _ => .pure)

theorem cleanupBlock_safe {start stop depth : Nat} {f : Usage} {o : Option CleanupPart}
    (h : ∀ k, o = some k → ∀ f, Safe env D D (k.block.emit f)) :
    Safe env D D (cleanupBlock start stop depth f o) := by
  cases o with
  | none => exact .pure
  | some k =>
    exact .changing (fun _ => rfl) (Safe.position.bind fun _ => .changing (fun _ => rfl)
      ((h k rfl _).bind fun _ => .changing (fun _ => rfl) (Safe.emit.bind fun _ =>
        Safe.position.bind fun _ => .pure)))

theorem regionWith_safe {p : Part} {hs : List CatchPart} {o : Option CleanupPart} {f : Usage}
    {result : Option Nat} (hp : ∀ f, Safe env D D (p.emit f))
    (hh : ∀ k ∈ hs, ∀ slot f, Safe env D D (catchBody k slot f))
    (ho : ∀ k, o = some k → ∀ f, Safe env D D (k.block.emit f)) :
    Safe env D D (regionWith p hs o f result) := by
  refine Safe.get.bind fun _ => Safe.addLabel.bind fun _ => Safe.emit.bind fun _ =>
    Safe.position.bind fun _ => (hp _).bind fun _ => keepResult_safe.bind fun _ =>
    Safe.jumpTo.bind fun _ => Safe.position.bind fun _ => (catches_safe hh).bind fun _ =>
    Safe.position.bind fun _ => (cleanupBlock_safe ho).bind fun _ => .changing (fun _ => rfl)
      (Safe.placeLabel.bind fun _ => .ite ?_ .pure)
  split
  · exact .emit
  · exact .pure

theorem pushLambda_safe {l : Lambda} {f : Usage} (h : Mention.Met env (.lambda D l)) :
    Safe env D D (pushLambda l f) := by
  obtain ⟨k, form, hfind, hplace, hform, hcap⟩ := h
  obtain ⟨i, hi⟩ := Option.isSome_iff_exists.1 hplace
  refine .read_bind (.guard .unsupported fun _ => .ite .pure ?_)
  simp only [hfind, hi, hform, Option.bind_some, Option.map_some]
  refine Safe.pushEntry.bind fun _ => ?_
  cases form with
  | bound _ => exact .pure
  | opened _ vs =>
    refine (cellLoads_safe hcap).bind fun cells => Safe.bind ?_ fun _ => .emit
    induction cells with
    | nil => exact .pure
    | cons c cs ih => exact Safe.emit.bind fun _ => ih

/-- **Being safe is a rule of lowering**, where what is mentioned can be found. -/
theorem safe_rule (env : LowerEnv) : Rule (Mention.Met env) fun D _ _ _ _ x => Safe env D D x where
  mono h _ _ _ := h
  pure _ := .pure
  bind := .bind
  read := .read
  unsupported _ := .unsupported
  error := .error
  emit _ _ _ := .emit
  assumePushed := .change fun _ => rfl
  newSlot hf := Safe.newSlot.bind hf
  literal _ := Safe.literal.bind fun _ => .emit
  typeEntry hf := Safe.typeEntry.bind hf
  methodEntry hf := Safe.methodEntry.bind hf
  structEntry hf := Safe.structEntry.bind hf
  jump _ _ := .jumpTo
  place _ _ := .placeLabel
  fresh hf := Safe.addLabel.bind hf
  program hl hf := (Safe.programLabel hl).bind hf
  mention hl hf := (Safe.programLabel hl).bind hf
  carried hf := Safe.labelAt.bind fun _ => hf _
  handling hf := Safe.get.bind fun s => by
    cases s.caught with
    | nil => exact .unsupported
    | cons k ks => exact hf k
  home hv hf := (homeOf_safe hv).bind hf
  constant _ := .pushConstant
  lambda := pushLambda_safe
  block := block_safe
  caught _ hx := .changing (fun _ => rfl) (hx.bind fun _ => .change fun _ => rfl)
  handler := handler_safe
  region _ hp hh ho := regionWith_safe (hp [] [] [])
    (fun k hk slot f => hh k hk [] [] [.slot slot] slot f (by simp)) fun k hk => ho k hk [] [] []

/-! ## Units -/

theorem bringInParams_safe {vs : List Var} :
    Safe env D (Var.ids vs ++ D) (bringInParams vs) := by
  induction vs generalizing D with
  | nil => exact .pure
  | cons v vs ih =>
    refine Safe.newSlot.bind fun _ => insert_safe.bind fun _ => ih.congr fun id => ?_
    simp only [Var.ids, List.map_cons, List.mem_append, List.mem_cons]
    grind

theorem boxParams_safe {slot : Nat} {vs : List Var} : Safe env D D (boxParams slot vs) := by
  induction vs generalizing slot with
  | nil => exact .pure
  | cons v vs ih =>
    exact .read_bind (.ite (Safe.emit.bind fun _ => Safe.emit.bind fun _ => ih) ih)

theorem hoistAll_safe {index : Nat} {uses : List Nat} : Safe env D D (hoistAll index uses) := by
  induction uses generalizing index with
  | nil => exact .pure
  | cons n ns ih =>
    exact Safe.bind (.ite (Safe.newSlot.bind fun _ => Safe.emit.bind fun _ =>
      Safe.emit.bind fun _ => .change fun _ => rfl) .pure) fun _ => ih

theorem checkPlaced_safe {ls : List DraftLabel} : Safe env D D (checkPlaced ls) := by
  induction ls with
  | nil => exact .pure
  | cons l ls ih =>
    unfold checkPlaced
    exact .guard (.error rfl) fun _ => ih

theorem unit_safe {l : Lambda} (h : ∀ m ∈ l.mentions, m.Met env) :
    Safe env [] (Var.ids l.params) (unit l) := by
  have hbody := ((safe_rule env).part l.body (Var.ids l.params) h).emit [] [] []
  have hprologue : Safe env (Var.ids l.params) (Var.ids l.params) (prologue l.params) :=
    .read_bind (boxParams_safe.bind fun _ => .ite hoistAll_safe .pure)
  have hrest : ∀ _ : Unit, Safe env (Var.ids l.params) (Var.ids l.params) (do
      emit .ret
      checkPlaced (← get).labels.toList) := fun _ =>
    Safe.emit.bind fun _ => Safe.get.bind fun _ => checkPlaced_safe
  have hparams : Safe env [] (Var.ids l.params) (bringInParams l.params) :=
    bringInParams_safe.congr fun id => by simp
  exact hparams.bind fun _ => hprologue.bind fun _ =>
    .ite ((hbody _).bind fun _ => Safe.emit.bind hrest) ((hbody _).bind hrest)

end Lower

/-! ## Compilation -/

/-- Why a lambda is not lowered, if what it mentions can be found. -/
theorem Lambda.toCode_planned {l : Lambda} {env : LowerEnv} {e : CompileError}
    (hm : ∀ m ∈ l.mentions, m.Met env) (h : l.toCode env = .error (.error e)) :
    e.missesPlan = false :=
  (Lower.unit_safe hm).fails {} e (Lambda.toCode_error.1 h) fun id => by simp [Slots.get?]

/-- The compiled units are those of the table, up to their number, with the
captures that were planned. -/
structure FormsOf (units : Array UnitPlan) (compiled : Array NestedForm) : Prop where
  size_le : compiled.size ≤ units.size
  captures : ∀ (k : Nat) (u : UnitPlan) (form : NestedForm), units[k]? = some u →
    compiled[k]? = some form → form.captures = u.plan.captures

/-- The next unit is added to those that are compiled. -/
theorem FormsOf.push {units : Array UnitPlan} {compiled : Array NestedForm} {u : UnitPlan}
    {form : NestedForm}
    (h : FormsOf units compiled) (hu : units[compiled.size]? = some u)
    (hform : form.captures = u.plan.captures) : FormsOf units (compiled.push form) where
  size_le := by
    have hlt := (Array.getElem?_eq_some_iff.1 hu).1
    simpa using Nat.succ_le_of_lt hlt
  captures k u' form' hu' hform' := by
    by_cases hk : k = compiled.size
    · subst hk
      rw [hu] at hu'
      simp only [Array.getElem?_push_size, Option.some.injEq] at hu' hform'
      rw [← hu', ← hform', hform]
    · exact h.captures k u' form' hu' (by grind)

/-- Compiled units are found where the plan has noted their lambdas. -/
theorem Mention.Noted.met {units : Array UnitPlan} {compiled : Array NestedForm} {plan : Plan}
    {catalog : Catalog} {m : Mention} (h : m.Noted units plan) (hforms : FormsOf units compiled)
    (hnested : ∀ n ∈ plan.nested, n.unit < compiled.size)
    (hblock : ∀ vars, m = .block vars → (Var.ids vars).Nodup) :
    m.Met { catalog, plan, units, compiled } := by
  cases m with
  | constant v => trivial
  | var D v => exact h
  | label l => exact h
  | place l => exact h
  | block vars => exact hblock vars rfl
  | lambda D l =>
    obtain ⟨k, u, hfind, hget, hplace, hcap⟩ := h
    obtain ⟨n, hn, rfl⟩ := Plan.nestedPlace?_isSome.1 hplace
    have hlt := hnested n hn
    refine ⟨n.unit, compiled[n.unit], hfind, hplace, by simp [hlt], ?_⟩
    rw [hforms.captures n.unit u _ hget (by simp [hlt])]
    exact hcap

namespace CompileM

variable {catalog : Catalog} {units : Array UnitPlan} {compiled : Array NestedForm} {plan : Plan}
  {l : Lambda} {e : CompileError}

theorem nestedEntries_total (units : Array UnitPlan) : ∀ {ns : List NestedUse},
    (∀ n ∈ ns, n.unit < compiled.size) → ∃ vs, nestedEntries units compiled ns = .ok vs
  | [], _ => ⟨[], rfl⟩
  | n :: ns, h => by
    obtain ⟨vs, hvs⟩ := nestedEntries_total units (fun n hn => h n (List.mem_cons_of_mem _ hn))
    have hn := h n (List.mem_cons_self ..)
    refine ⟨compiled[n.unit].value :: vs, ?_⟩
    simp [nestedEntries, hn, hvs, bind, Except.bind, pure, Except.pure]

/-- The code of a lambda whose mentions were noted, and its record. -/
theorem codeAndEntries_planned (hforms : FormsOf units compiled)
    (hnoted : ∀ m ∈ l.mentions, m.Noted units plan)
    (hnested : ∀ n ∈ plan.nested, n.unit < compiled.size)
    (hblocks : ∀ vars, .block vars ∈ l.mentions → (Var.ids vars).Nodup)
    (h : codeAndEntries catalog l plan units compiled = .error (.error e)) :
    e.missesPlan = false := by
  have hmet : ∀ m ∈ l.mentions, m.Met { catalog, plan, units, compiled } := fun m hm =>
    (hnoted m hm).met hforms hnested fun vars heq => hblocks vars (heq ▸ hm)
  obtain ⟨vs, hvs⟩ := nestedEntries_total units hnested
  unfold codeAndEntries at h
  cases hcode : l.toCode { catalog, plan, units, compiled } with
  | error f =>
    simp only [hcode, bind, Except.bind, Except.error.injEq] at h
    subst h
    exact l.toCode_planned hmet hcode
  | ok code => simp [hcode, recordEntries, hvs, bind, Except.bind, pure, Except.pure] at h

/-- A nested unit is bound at its mentions to what it captures, and fails only as
its code does. -/
theorem nestedForm_cases (catalog : Catalog) (units : Array UnitPlan) (compiled : Array NestedForm)
    (u : UnitPlan) (w : World) :
    (∃ f, nestedForm catalog units compiled u w = .error f ∧
      codeAndEntries catalog u.lambda u.plan units compiled = .error f) ∨
    ∃ form w', nestedForm catalog units compiled u w = .ok (form, w') ∧
      form.captures = u.plan.captures := by
  unfold nestedForm
  cases hcode : codeAndEntries catalog u.lambda u.plan units compiled with
  | error f => exact .inl ⟨f, rfl, rfl⟩
  | ok p =>
    refine .inr ?_
    cases hcap : u.plan.captures with
    | nil => exact ⟨_, _, rfl, rfl⟩
    | cons v vs => exact ⟨_, _, rfl, rfl⟩

/-- Compiling nested units in order. Each finds those that it mentions among the
ones before it. -/
theorem nestedForms_planned (catalog : Catalog)
    (hnoted : ∀ u ∈ units, ∀ m ∈ u.lambda.mentions, m.Noted units u.plan)
    (hbefore : ∀ (k : Nat) (u : UnitPlan), units[k]? = some u → ∀ n ∈ u.plan.nested, n.unit < k)
    (hblocks : ∀ u ∈ units, ∀ vars, .block vars ∈ u.lambda.mentions → (Var.ids vars).Nodup)
    {us : List UnitPlan} (hus : units.toList.drop compiled.size = us)
    (hforms : FormsOf units compiled) (w : World) :
    (∀ e, nestedForms catalog units compiled us w = .error (.error e) → e.missesPlan = false) ∧
      ∀ forms w', nestedForms catalog units compiled us w = .ok (forms, w') →
        FormsOf units forms ∧ units.size ≤ forms.size := by
  induction us generalizing compiled w with
  | nil =>
    refine ⟨fun e h => (nomatch h), fun forms w' h => ?_⟩
    cases h
    exact ⟨hforms, by simpa using List.drop_eq_nil_iff.1 hus⟩
  | cons u us ih =>
    -- The unit that comes next is the one behind the forms that there are.
    have hu : units[compiled.size]? = some u := by
      have := congrArg List.head? hus
      simpa using this
    have hmem := Array.mem_of_getElem? hu
    have hbind : nestedForms catalog units compiled (u :: us) w =
        (nestedForm catalog units compiled u w >>= fun p =>
          nestedForms catalog units (compiled.push p.1) us p.2) := rfl
    rw [hbind]
    rcases nestedForm_cases catalog units compiled u w with ⟨f, hf, hcode⟩ | ⟨form, w₁, hform, hcap⟩
    · rw [hf]
      refine ⟨fun e h => ?_, fun forms w' h => nomatch h⟩
      cases h
      exact codeAndEntries_planned hforms (hnoted u hmem) (hbefore _ u hu) (hblocks u hmem) hcode
    · rw [hform]
      refine ih ?_ (hforms.push hu hcap) w₁
      have := congrArg List.tail hus
      simpa [List.tail_drop] using this

/-- A lambda that could be planned fails to compile as one of the nested lambdas
does, or as its own code does. -/
theorem boundUnit_error {w : World} {f : Failure} (hplan : planLambda l = .ok (plan, units))
    (h : boundUnit catalog l w = .error f) :
    nestedForms catalog units #[] units.toList w = .error f ∨
      ∃ forms w', nestedForms catalog units #[] units.toList w = .ok (forms, w') ∧
        codeAndEntries catalog l plan units forms = .error f := by
  unfold boundUnit at h
  rw [hplan] at h
  cases hn : nestedForms catalog units #[] units.toList w with
  | error f' =>
    simp [hn, bind, StateT.bind, Except.bind, liftM, monadLift, MonadLift.monadLift, StateT.lift,
      pure, Except.pure] at h
    exact .inl (h ▸ rfl)
  | ok p =>
    refine .inr ⟨p.1, p.2, rfl, ?_⟩
    cases hc : codeAndEntries catalog l plan units p.1 with
    | error f' =>
      simp [hn, hc, bind, StateT.bind, Except.bind, liftM, monadLift, MonadLift.monadLift,
        StateT.lift, pure, Except.pure] at h
      rw [h]
    | ok c =>
      simp [hn, hc, bind, StateT.bind, Except.bind, liftM, monadLift, MonadLift.monadLift,
        StateT.lift, pure, Except.pure, StateT.pure] at h

end CompileM

/-- No block of a lambda, or of one nested in it, lists a variable twice. -/
def Lambda.DistinctBlocks (l : Lambda) : Prop :=
  ∀ k ∈ l.withNested, ∀ vars, .block vars ∈ k.mentions → (Var.ids vars).Nodup

/-- Every constant with identity that a lambda mentions has a place in the
record. -/
def Plan.Records (p : Plan) (l : Lambda) : Prop :=
  ∀ v, .constant v ∈ l.mentions → v.identity?.isSome → (p.constantPlace? v).isSome

/-- **A plan suffices for lowering.** If a lambda could be planned, neither it nor
any lambda nested in it fails to compile for want of a variable, a label, a cell or
a nested unit, and no constant with identity is missing from a record. -/
theorem boundUnit_planned (catalog : Catalog) (l : Lambda) (hblocks : l.DistinctBlocks)
    (hids : ∀ k ∈ l.body.lambdas, k.Founded) {plan : Plan} {units : Array UnitPlan}
    (hplan : planLambda l = .ok (plan, units)) :
    (∀ w e, CompileM.boundUnit catalog l w = .error (.error e) → e.missesPlan = false) ∧
      plan.Records l ∧ ∀ u ∈ units, u.plan.Records u.lambda := by
  obtain ⟨hroot, hnested, hunits, hbefore⟩ := planLambda_ordered hids hplan
  have hmem : ∀ {k}, k ∈ l.body.lambdas → k ∈ l.withNested := by
    cases l
    exact fun h => List.mem_cons_of_mem _ h
  refine ⟨fun w e h => ?_, fun v hv => hroot _ hv, fun u hu v hv => (hunits u hu).2 _ hv⟩
  have hnone : FormsOf units #[] := ⟨by simp, by simp⟩
  have hforms := CompileM.nestedForms_planned catalog (fun u hu => (hunits u hu).2) hbefore
    (fun u hu => hblocks _ (hmem (hunits u hu).1)) rfl hnone w
  rcases CompileM.boundUnit_error hplan h with h | ⟨forms, w', hn, h⟩
  · exact hforms.1 e h
  · obtain ⟨hof, hsize⟩ := hforms.2 forms w' hn
    refine CompileM.codeAndEntries_planned hof hroot
      (fun n hn => Nat.lt_of_lt_of_le (hnested n hn) hsize) (hblocks l ?_) h
    cases l
    exact List.mem_cons_self ..

/-- A lambda with a parameter and a block variable, which a lambda nested in it
captures; the nested one is mentioned twice, and an array once. -/
def Lambda.sample : Lambda :=
  let x : Var := ⟨0, "x", .i32⟩
  let y : Var := ⟨1, "y", .i32⟩
  let inner : Lambda := .mk 1 none [] .i32 (.binary .i32 .add (.var x) (.var y) none)
  .mk 0 none [x] .i32 (.block .i32 [y]
    [.lambda inner, .constant (.array .i32) (.array 0), .lambda inner, .var y])

theorem boundUnit_planned_sample :
    (∃ plan units, planLambda .sample = .ok (plan, units) ∧ units.size = 1) ∧
      ∀ w e, CompileM.boundUnit .empty .sample w = .error (.error e) → e.missesPlan = false := by
  have hplan : planLambda .sample = .ok
      ({ constants := [⟨.array 0, 1⟩], nested := [⟨0, 2⟩], boxed := [1, 0] },
        #[⟨.mk 1 none [] .i32 (.binary .i32 .add (.var ⟨0, "x", .i32⟩) (.var ⟨1, "y", .i32⟩) none),
          { captures := [⟨0, "x", .i32⟩, ⟨1, "y", .i32⟩] }⟩]) := by cbv
  refine ⟨⟨_, _, hplan, rfl⟩, (boundUnit_planned .empty .sample ?_ ?_ hplan).1⟩
  · intro k hk vars hvars
    have hk' : k = .sample ∨ k = .mk 1 none [] .i32
        (.binary .i32 .add (.var ⟨0, "x", .i32⟩) (.var ⟨1, "y", .i32⟩) none) := by
      simpa [Lambda.sample, Lambda.withNested, Expr.lambdas, Expr.lambdasAll] using hk
    rcases hk' with rfl | rfl
    · simp [Lambda.sample, Lambda.mentions, Lambda.body, Expr.mentions, Expr.mentionsAll] at hvars
      simp [hvars, Var.ids]
    · simp [Lambda.mentions, Lambda.body, Expr.mentions] at hvars
  · intro k hk
    simp [Lambda.sample, Lambda.body, Expr.lambdas, Expr.lambdasAll, Lambda.withNested] at hk
    simp [hk, Lambda.Founded, Lambda.body, Expr.lambdas]

end TreeCode
