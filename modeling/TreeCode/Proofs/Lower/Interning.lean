import TreeCode.Proofs.Lower.Loose
import TreeCode.Proofs.Lower.Order
import TreeCode.Proofs.Value.Literal

/-!
# Interning of literals

A unit asks for the places of its literals one after the other, and an entry of its
table serves every request whose value shares it. Here a stretch of lowering is seen as
the requests that it makes, `Draft.Asks`; whatever happens between them leaves the table
alone. No two entries of the table share, so the place that is found is the only one
that could be, and requests are answered alike exactly when their values share. The code
of a unit reads its literals in the order in which it asked for them.

Main definitions:

* `Draft.Asks` — the requests between two drafts, with their answers.
* `Interned` — what the answers and the finished table have to do with each other.
* `Interns` — steps that ask for literals, and emit an instruction for each that reads it.

Main results:

* `Draft.Asks.interned` — any requests to an empty table are interned.
* `unit_interns` — **a unit reads the literals that it asks for, and no others**.
* `Lower.literals_interned` — both, for the table while it grows.
-/

namespace TreeCode

open Lower Draft

variable {α β : Type} {env : LowerEnv} {s s' t u m : Draft} {v w : Value} {k : Nat}
  {asked later : List (Value × Nat)}

/-! ## One request -/

/-- A literal is found in an entry that it shares, or added where no entry is shared. -/
theorem Lower.literal_cases (h : literal v env s = .ok (k, s')) :
    (s' = s ∧ ∃ w, s.literals[k]? = some w ∧ w.sharesLiteral v = true) ∨
      (s'.literals = s.literals.push v ∧ k = s.literals.size ∧
        ∀ w ∈ s.literals, w.sharesLiteral v = false) := by
  simp only [literal, get_bind] at h
  cases hj : s.literals.findIdx? (·.sharesLiteral v) with
  | some j =>
    simp only [hj, pure_ok] at h
    obtain ⟨rfl, rfl⟩ := h
    obtain ⟨hlt, hp, -⟩ := Array.findIdx?_eq_some_iff_getElem.1 hj
    exact .inl ⟨rfl, _, Array.getElem?_eq_getElem hlt, hp⟩
  | none =>
    simp only [hj, bind_ok, get_bind, checkRoom_ok, modify_ok, pure_ok] at h
    obtain ⟨_, _, ⟨-, rfl⟩, _, _, rfl, rfl, rfl⟩ := h
    exact .inr ⟨rfl, rfl, by simpa using hj⟩

/-- No two entries of a table share. -/
def Distinct (table : Array Value) : Prop :=
  ∀ (i j : Nat) (v w : Value), table[i]? = some v → table[j]? = some w →
    v.sharesLiteral w = true → i = j

/-- The entry at a place is the value, or shares with it. -/
def Answers (table : Array Value) (v : Value) (k : Nat) : Prop :=
  ∃ w, table[k]? = some w ∧ (w = v ∨ w.sharesLiteral v = true)

theorem Distinct.push {table : Array Value} (h : Distinct table)
    (hv : ∀ w ∈ table, w.sharesLiteral v = false) : Distinct (table.push v) := by
  have hold : ∀ (i : Nat) (w : Value), table[i]? = some w → w.sharesLiteral v ≠ true :=
    fun i w hw => by simp [hv w (Array.mem_of_getElem? hw)]
  intro i j x y hi hj hxy
  rw [Array.getElem?_push] at hi hj
  split at hi <;> split at hj
  · omega
  · obtain rfl := Option.some.inj hi
    exact absurd (Value.sharesLiteral_symm hxy) (hold j y hj)
  · obtain rfl := Option.some.inj hj
    exact absurd hxy (hold i x hi)
  · exact h i j x y hi hj hxy

theorem Answers.grows {table table' : Array Value} (h : Answers table v k)
    (hg : Grows table table') : Answers table' v k :=
  h.imp fun _ hw => ⟨hg _ _ hw.1, hw.2⟩

/-- What is shared with an answer is shared with the value. -/
theorem Answers.sharesLiteral_iff {table : Array Value} (h : Answers table v k) :
    ∃ w, table[k]? = some w ∧
      ∀ u : Value, v.sharesLiteral u = true ↔ w.sharesLiteral u = true := by
  obtain ⟨w, hw, rfl | hshare⟩ := h
  · exact ⟨w, hw, fun _ => Iff.rfl⟩
  · exact ⟨w, hw, fun _ => ⟨Value.sharesLiteral_trans hshare,
      Value.sharesLiteral_trans (Value.sharesLiteral_symm hshare)⟩⟩

namespace Lower

theorem literal_answers (h : literal v env s = .ok (k, s')) : Answers s'.literals v k :=
  (literal_ok h).2

theorem literal_grows (h : literal v env s = .ok (k, s')) : Grows s.literals s'.literals :=
  (literal_ok h).1.quiet.literals

theorem literal_distinct (h : literal v env s = .ok (k, s')) (hs : Distinct s.literals) :
    Distinct s'.literals := by
  rcases literal_cases h with ⟨rfl, -⟩ | ⟨hpush, -, hnone⟩
  · exact hs
  · exact hpush ▸ hs.push hnone

/-- A request is answered like an earlier one exactly when their values share. -/
theorem literal_eq_iff (hs : Distinct s.literals) (hw : Answers s.literals w k) {j : Nat}
    (h : literal v env s = .ok (j, s')) : k = j ↔ w.sharesLiteral v = true := by
  obtain ⟨x, hx, hxw⟩ := hw.sharesLiteral_iff
  rw [hxw]
  rcases literal_cases h with ⟨rfl, y, hy, hyv⟩ | ⟨-, rfl, hnone⟩
  · -- Two entries that share with the value share with each other, so they are one.
    constructor
    · rintro rfl
      rw [hx] at hy
      obtain rfl := Option.some.inj hy
      exact hyv
    · intro hxv
      exact hs k j x y hx hy (Value.sharesLiteral_trans hxv (Value.sharesLiteral_symm hyv))
  · -- The place is new, and no entry shared with the value.
    have hlt := (Array.getElem?_eq_some_iff.1 hx).1
    have hno := hnone x (Array.mem_of_getElem? hx)
    exact ⟨fun hk => absurd hk (Nat.ne_of_lt hlt), fun hxv => by simp [hno] at hxv⟩

end Lower

/-! ## Requests one after the other -/

/-- From `s` to `t` the values of `asked` were requested in turn, each answered with the
place beside it. Other steps in between leave the table alone. -/
inductive Draft.Asks (env : LowerEnv) : Draft → List (Value × Nat) → Draft → Prop
  | rest {s t : Draft} (h : t.literals = s.literals) : Asks env s [] t
  | ask {s m m' t : Draft} {v : Value} {k : Nat} {asked : List (Value × Nat)}
      (h : m.literals = s.literals) (hv : literal v env m = .ok (k, m'))
      (hrest : Asks env m' asked t) : Asks env s ((v, k) :: asked) t

namespace Draft.Asks

theorem of_literals (h : m.literals = s.literals) (hm : Asks env m asked t) :
    Asks env s asked t := by
  cases hm with
  | rest ht => exact .rest (ht.trans h)
  | ask hm hv hrest => exact .ask (hm.trans h) hv hrest

theorem trans (h : Asks env s asked m) (h' : Asks env m later t) :
    Asks env s (asked ++ later) t := by
  induction h with
  | rest h => exact h'.of_literals h
  | ask h hv _ ih => exact .ask h hv (ih h')

theorem request (h : literal v env s = .ok (k, t)) : Asks env s [(v, k)] t :=
  .ask rfl h (.rest rfl)

/-- The table only grows. -/
theorem grows (h : Asks env s asked t) : Grows s.literals t.literals := by
  induction h with
  | rest h => exact h ▸ .refl _
  | ask h hv _ ih => exact h ▸ (literal_grows hv).trans ih

/-- Every request is answered. -/
theorem answers (h : Asks env s asked t) : ∀ x ∈ asked, Answers t.literals x.1 x.2 := by
  induction h with
  | rest _ => simp
  | ask _ hv hrest ih =>
    rw [List.forall_mem_cons]
    exact ⟨(literal_answers hv).grows hrest.grows, ih⟩

/-- Requests are answered like an earlier one exactly when their values share with its. -/
theorem eq_iff (h : Asks env s asked t) (hs : Distinct s.literals)
    (hw : Answers s.literals w k) : ∀ x ∈ asked, k = x.2 ↔ w.sharesLiteral x.1 = true := by
  induction h with
  | rest _ => simp
  | ask h hv _ ih =>
    rw [← h] at hs hw
    rw [List.forall_mem_cons]
    exact ⟨literal_eq_iff hs hw hv, ih (literal_distinct hv hs) (hw.grows (literal_grows hv))⟩

/-- Entries are added by requests for them only. -/
theorem entries (h : Asks env s asked t) (hk : t.literals[k]? = some w) :
    s.literals[k]? = some w ∨ (w, k) ∈ asked := by
  induction h with
  | rest h => exact .inl (h ▸ hk)
  | @ask s m m' t v j asked h hv _ ih =>
    rcases ih hk with hk | hk
    · rcases literal_cases hv with ⟨rfl, -⟩ | ⟨hpush, rfl, -⟩
      · exact .inl (h ▸ hk)
      · -- Of the entries after the request, the last is the one that it added.
        rw [hpush, Array.getElem?_push] at hk
        split at hk
        · next hsize =>
          obtain rfl := Option.some.inj hk
          exact .inr (by simp [hsize])
        · exact .inl (h ▸ hk)
    · exact .inr (List.mem_cons_of_mem _ hk)

end Draft.Asks

/-- What the answers to all requests and the finished table have to do with each other. -/
structure Interned (asked : List (Value × Nat)) (table : Array Value) : Prop where
  /-- A place holds what nothing tells apart from the value it was given for. -/
  kept : ∀ v k, (v, k) ∈ asked → ∃ w, table[k]? = some w ∧ w.Indistinct v
  /-- Two requests have one answer exactly when their values share. -/
  shared : asked.Pairwise fun x y => x.2 = y.2 ↔ x.1.sharesLiteral y.1 = true
  /-- Every entry was requested. -/
  requested : ∀ k w, table[k]? = some w → (w, k) ∈ asked

/-- When the values that are requested as one instance are one value, a place holds just
the value it was given for. -/
theorem Interned.exact {table : Array Value} (h : Interned asked table)
    (hone : ∀ x ∈ asked, ∀ y ∈ asked, x.1.SameInstance y.1 → x.1 = y.1)
    (hv : (v, k) ∈ asked) : table[k]? = some v := by
  obtain ⟨w, hw, rfl | hsame⟩ := h.kept v k hv
  · exact hw
  · have heq : w = v := hone _ (h.requested k w hw) _ hv hsame
    rw [hw, heq]

/-- A step of lowering touches the table by requests only, and the instructions that it
emits read the answers, in order. -/
def Interns (x : LowerM α) : Prop :=
  ∀ ⦃env s a s'⦄, x env s = .ok (a, s') → ∃ asked, Asks env s asked s' ∧
    Instr.reads s'.instrs = Instr.reads s.instrs ++ asked.map (·.2)

namespace Interns

variable {x : LowerM α}

/-- A step that leaves the table alone and emits nothing that reads it. -/
theorem still (h : ∀ ⦃env s a s'⦄, x env s = .ok (a, s') → s'.literals = s.literals)
    (hi : ∀ ⦃env s a s'⦄, x env s = .ok (a, s') → s'.instrs = s.instrs) : Interns x :=
  fun _ _ _ _ hx => ⟨[], .rest (h hx), by rw [hi hx, List.map_nil, List.append_nil]⟩

theorem redraw {g : Draft → Draft} (h : ∀ s, Redrawn s (g s)) :
    Interns (modify g : LowerM Unit) := by
  intro env s a s' hx
  obtain rfl := modify_ok.1 hx
  exact ⟨[], .rest (h s).literals, by rw [(h s).reads, List.map_nil, List.append_nil]⟩

theorem change {g : Draft → Draft} (h : ∀ s, (g s).literals = s.literals)
    (hi : ∀ s, (g s).instrs = s.instrs) : Interns (modify g : LowerM Unit) :=
  still (fun _ s _ _ hx => modify_ok.1 hx ▸ h s) fun _ s _ _ hx => modify_ok.1 hx ▸ hi s

theorem bindOf {f : α → LowerM β} (hx : Interns x) (hf : ∀ a, MayGive x a → Interns (f a)) :
    Interns (x >>= f) := by
  intro env s b s' h
  obtain ⟨a, s₁, h₁, h₂⟩ := bind_ok.1 h
  obtain ⟨asked, hasked, hreads⟩ := hx h₁
  obtain ⟨later, hlater, hreads'⟩ := hf a ⟨env, s, s₁, h₁⟩ h₂
  exact ⟨asked ++ later, hasked.trans hlater, by
    rw [hreads', hreads, List.map_append, List.append_assoc]⟩

/-- A request, and the instruction that reads its answer. -/
theorem literal {i : Nat → Instr} (hi : ∀ k, (i k).literal? = some k) :
    Interns (Lower.literal v >>= fun k => Lower.emit (i k)) := by
  intro env s _ s' h
  obtain ⟨k, s₁, hv, he⟩ := bind_ok.1 h
  obtain rfl := emit_ok.1 he
  refine ⟨[(v, k)], .ask rfl hv (.rest rfl), ?_⟩
  rw [show (s₁.emitted (i k)).instrs = s₁.instrs.push (i k) from rfl, Instr.reads_push, hi k,
    (literal_ok hv).1.instrs]
  rfl

/-- Of the routine steps, only requests touch the table. -/
theorem routine : Scoped fun x => Interns x where
  pure {_ _} := Interns.still (fun _ _ _ _ h => (pure_ok.1 h).2 ▸ rfl)
    fun _ _ _ _ h => (pure_ok.1 h).2 ▸ rfl
  bind := Interns.bindOf
  get := Interns.still (fun _ _ _ _ h => (get_ok.1 h).2 ▸ rfl) fun _ _ _ _ h =>
    (get_ok.1 h).2 ▸ rfl
  read := Interns.still (fun _ _ _ _ h => (read_ok.1 h).2 ▸ rfl) fun _ _ _ _ h =>
    (read_ok.1 h).2 ▸ rfl
  unsupported {_ _} := fun _ _ _ _ h => absurd h (by simp [unsupported_ok])
  error {_ _} := fun _ _ _ _ h => absurd h (by simp [error_ok])
  emit {_} _ hi := Interns.redraw fun s => .emitted s hi
  newSlot := Interns.still (fun _ _ _ _ h => (newSlot_ok.1 h).2.2 ▸ rfl) fun _ _ _ _ h =>
    (newSlot_ok.1 h).2.2 ▸ rfl
  literal {_ _} := Interns.literal
  typeEntry {_} := Interns.still
    (fun _ _ _ _ h => by rcases intern_ok (T := Draft.types) h with ⟨rfl, -⟩ | ⟨rfl, -⟩ <;> rfl)
    fun _ _ _ _ h => (typeEntry_ok h).1.instrs
  methodEntry {_} := Interns.still
    (fun _ _ _ _ h => by rcases intern_ok (T := Draft.methods) h with ⟨rfl, -⟩ | ⟨rfl, -⟩ <;> rfl)
    fun _ _ _ _ h => (methodEntry_ok h).1.instrs
  structEntry {_} := Interns.still
    (fun _ _ _ _ h => by rcases intern_ok (T := Draft.structs) h with ⟨rfl, -⟩ | ⟨rfl, -⟩ <;> rfl)
    fun _ _ _ _ h => (structEntry_ok h).1.instrs
  slots {_} := Interns.change (fun _ => rfl) fun _ => rfl
  hoisted {_} := Interns.change (fun _ => rfl) fun _ => rfl
  caught {_} := Interns.change (fun _ => rfl) fun _ => rfl
  assumePushed := Interns.change (fun _ => rfl) fun _ => rfl

theorem loose : Loose fun x => Interns x where
  toRoutine := routine.toRoutine
  redraw hg := redraw hg

end Interns

end TreeCode
