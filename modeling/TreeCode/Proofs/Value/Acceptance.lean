import TreeCode.Proofs.Agree.Unit
import TreeCode.Proofs.Ty.Layout

/-!
# Accepted values at run time

Where a place of one type accepts an expression of another, three tests meet that know
nothing of each other: the static one, the type test of catch clauses and casts, and the
shape test of compiled units. What the first accepts passes the other two. This rests on
how classes are declared: only classes have bases, and every base is a class. With a
value struct as base of a class, an instance of the class is an instance of the base too,
but does not have the shape of one.

Main definitions:

* `StructDef.Classy` — only classes have bases, and bases are classes.
* `Value.Held` — an instance is held as the kind of its definition says.
* `Value.Suits` — what an expression of a static type may give.

Main results:

* `Value.isA_of_accepts`, `Value.fits_of_accepts` — the two tests.
* `Lambda.callUnit_of_accepts` — a call of a compiled unit on accepted arguments runs it.
* `Ty.accepts_sound` — all of it, with what shape checks and handlers make of it.
-/

namespace TreeCode

/-! ## Classes and their bases -/

namespace StructDef

/-- Of the definition and its bases, only classes have bases. -/
def OnlyClassesDerive (d : StructDef) : Prop :=
  ∀ e ∈ d.lineage, e.base.isSome = true → e.kind = .reference

/-- The bases of the definition are classes. -/
def BasesAreClasses (d : StructDef) : Prop :=
  ∀ e ∈ d.lineage, ∀ b, e.base = some b → b.kind = .reference

/-- Only classes have bases, and bases are classes. -/
structure Classy (d : StructDef) : Prop where
  derive : d.OnlyClassesDerive
  bases : d.BasesAreClasses

/-- Without a base there is nothing to ask. -/
theorem classy_root (i : Nat) (n : String) (k : StructKind) (fs : List FieldDef) :
    (mk i n k none fs).Classy := by
  constructor
  · rintro e he hb
    obtain rfl : e = mk i n k none fs := by simpa [lineage] using he
    cases hb
  · rintro e he b hb
    obtain rfl : e = mk i n k none fs := by simpa [lineage] using he
    cases hb

/-- A class derived from a class keeps to it. -/
theorem Classy.derived {b : StructDef} (h : b.Classy) (hb : b.kind = .reference) (i : Nat)
    (n : String) (fs : List FieldDef) : (StructDef.mk i n .reference (some b) fs).Classy := by
  constructor
  · rintro e he hbase
    rcases List.mem_cons.1 (by simpa only [lineage] using he) with rfl | he
    · rfl
    · exact h.derive e he hbase
  · rintro e he b' hbase
    rcases List.mem_cons.1 (by simpa only [lineage] using he) with rfl | he
    · obtain rfl : b = b' := by simpa [base] using hbase
      exact hb
    · exact h.bases e he b' hbase

/-- Two definitions of which one derives from the other are one, or both are classes. -/
theorem Classy.eq_or_references {d e : StructDef} (h : d.Classy) (he : e ∈ d.lineage) :
    e = d ∨ d.kind = .reference ∧ e.kind = .reference := by
  induction d using chain_induction with
  | root i n k fs => exact .inl (by simpa [lineage] using he)
  | derived i n k b fs ih =>
    set d := StructDef.mk i n k (some b) fs with hd
    have hlineage : d.lineage = d :: b.lineage := by simp [hd, lineage]
    have hbase : ∀ u ∈ b.lineage, u ∈ d.lineage := fun u hu => by simp [hlineage, hu]
    -- The definition has a base, so it is a class; what its base derives from is one, too.
    have hdk : d.kind = .reference := h.derive d d.mem_lineage_self rfl
    rw [hlineage, List.mem_cons] at he
    rcases he with rfl | he
    · exact .inl rfl
    · have hb : b.Classy := ⟨fun u hu => h.derive u (hbase u hu), fun u hu => h.bases u (hbase u hu)⟩
      rcases ih hb he with rfl | ⟨-, hek⟩
      · exact .inr ⟨hdk, h.bases d d.mem_lineage_self _ rfl⟩
      · exact .inr ⟨hdk, hek⟩

end StructDef

/-! ## Values as instances hold them -/

namespace Value

/-- An instance is held as the kind of its definition says: one of a value struct as
plain data, one of a class by reference. -/
def Held : Value → Prop
  | .struct _ d _ => d.kind = .value
  | .object _ d => d.kind = .reference
  | _ => True

/-- What an expression of a static type may give: an instance of the type, or null where
the type has it. -/
def Suits (v : Value) (t : Ty) : Prop := v.isA t = true ∨ v = .null ∧ t.hasNull = true

end Value

/-- New instances are held as their definition says. -/
theorem Store.held_newStruct (st : Store) (d : StructDef) (given : List Value) :
    (st.newStruct d given).1.Held := by
  cases hk : d.kind <;> simp [newStruct, hk, Value.Held]

/-! ## The static test -/

namespace Ty

/-- The ways in which one type accepts another. -/
theorem accepts_cases {t s : Ty} (h : t.accepts s = true) :
    t = s ∨ t = .object ∨ t = .nullable s ∨
      ∃ b d, t = .struct b ∧ s = .struct d ∧ b ∈ d.lineage := by
  unfold accepts at h
  rw [Bool.or_eq_true, beq_iff_eq] at h
  rcases h with h | h
  · exact .inl h
  split at h
  · exact .inr (.inl rfl)
  · exact .inr (.inr (.inl (congrArg _ (beq_iff_eq.1 h))))
  · exact .inr (.inr (.inr ⟨_, _, rfl, rfl, StructDef.inherits_iff.1 h⟩))
  · cases h

theorem accepts_derived {b d : StructDef} (h : b ∈ d.lineage) :
    (struct b).accepts (struct d) = true := by
  simp [accepts, StructDef.inherits_iff, h]

/-- What accepts a type with null has null. -/
theorem hasNull_of_accepts {t s : Ty} (h : t.accepts s = true)
    (hs : ∀ d, s.struct? = some d → d.Classy) (hn : s.hasNull = true) : t.hasNull = true := by
  rcases accepts_cases h with rfl | rfl | rfl | ⟨b, d, rfl, rfl, hb⟩
  · exact hn
  · rfl
  · rfl
  · rcases (hs d rfl).eq_or_references hb with rfl | ⟨-, hk⟩
    · exact hn
    · simp [hasNull, isReference, hk]

end Ty

/-! ## The tests at run time -/

namespace Value

@[simp] theorem isA_nullable (v : Value) (t : Ty) : v.isA (.nullable t) = v.isA t := by
  cases v <;> simp [isA]

theorem isA_object_of_isA {v : Value} {t : Ty} (h : v.isA t = true) : v.isA .object = true := by
  cases v <;> simp_all [isA]

/-- An instance of a definition is plain data of just that definition, or an object of a
class that derives from it. -/
theorem isA_struct_iff {v : Value} {d : StructDef} : v.isA (.struct d) = true ↔
    (∃ origin fields, v = .struct origin d fields) ∨ ∃ r e, v = .object r e ∧ d ∈ e.lineage := by
  cases v with
  | struct origin e fields => simp [isA, @eq_comm _ e d]
  | object r e => simp [isA, StructDef.inherits_iff]
  | _ => simp [isA]

variable {v : Value} {s t : Ty}

/-- An instance of a type is one of every type that accepts it. -/
theorem isA_of_accepts (h : t.accepts s = true) (hs : ∀ d, s.struct? = some d → d.Classy)
    (hv : v.Held) (hi : v.isA s = true) : v.isA t = true := by
  rcases Ty.accepts_cases h with rfl | rfl | rfl | ⟨b, d, rfl, rfl, hb⟩
  · exact hi
  · exact isA_object_of_isA hi
  · rwa [isA_nullable]
  · rw [isA_struct_iff] at hi ⊢
    rcases hi with ⟨origin, fields, rfl⟩ | ⟨r, e, rfl, he⟩
    · -- A value struct derives from nothing but itself.
      rcases (hs d rfl).eq_or_references hb with rfl | ⟨hk, -⟩
      · exact .inl ⟨origin, fields, rfl⟩
      · cases hk.symm.trans hv
    · exact .inr ⟨r, e, rfl, (StructDef.lineage_suffix he).subset hb⟩

/-- An instance of a type has its shape. -/
theorem fits_of_isA (hd : ∀ d, v.structDef? = some d → d.Classy) (hv : v.Held)
    (hi : v.isA t = true) : v.fits (Shape.of t) = true := by
  cases t with
  | struct b =>
    rcases isA_struct_iff.1 hi with ⟨origin, fields, rfl⟩ | ⟨r, e, rfl, he⟩
    · have hk : b.kind = .value := hv
      simp [Shape.of, hk, fits]
    · -- The instance may be of a derived class: its base is held by reference as it is.
      have hk : b.kind = .reference := by
        rcases (hd e rfl).eq_or_references he with rfl | ⟨-, hk⟩
        · exact hv
        · exact hk
      simp [Shape.of, hk, fits]
  | _ => cases v <;> simp_all [isA, Shape.of, fits]

/-- Null has the shape of every type that has it. -/
theorem fits_null (h : t.hasNull = true) : Value.null.fits (Shape.of t) = true := by
  cases t with
  | struct d =>
    have hk : d.kind = .reference := by simpa [Ty.hasNull, Ty.isNullable, Ty.isReference] using h
    simp [Shape.of, hk, fits]
  | _ => simp_all [Ty.hasNull, Ty.isNullable, Ty.isReference, Shape.of, fits]

/-- What an expression gives has the shape of every type that accepts the expression. -/
theorem fits_of_accepts (h : t.accepts s = true) (hs : ∀ d, s.struct? = some d → d.Classy)
    (hd : ∀ d, v.structDef? = some d → d.Classy) (hv : v.Held) (hsuits : v.Suits s) :
    v.fits (Shape.of t) = true := by
  rcases hsuits with hi | ⟨rfl, hn⟩
  · exact fits_of_isA hd hv (isA_of_accepts h hs hv hi)
  · exact fits_null (Ty.hasNull_of_accepts h hs hn)

end Value

/-! ## Calls and handlers -/

/-- The check of shapes fails on an argument that does not have its shape. -/
theorem misfit_of_requireShapes {shapes : List Shape} {args : List Value} {w w' : World}
    {f : Fault} (h : requireShapes shapes args w = .error f w') :
    ∃ v s, f = .defect (.misfit v s) ∧ v.fits s = false := by
  induction shapes generalizing args with
  | nil => cases h
  | cons s shapes ih =>
    cases args with
    | nil => cases h
    | cons v args =>
      rw [requireShapes] at h
      split at h
      · exact ih h
      · next hfits =>
        obtain ⟨rfl, -⟩ : .defect (.misfit v s) = f ∧ w = w' := by
          simpa [RunM.defect, throw, throwThe, MonadExceptOf.throw, EStateM.throw] using h
        exact ⟨v, s, rfl, by simpa using hfits⟩

/-- **Accepted arguments are taken.** A call of a compiled lambda runs the unit when each
argument is what an expression may give that the parameter accepts. -/
theorem Lambda.callUnit_of_accepts {host : Host} {call : Caller} {fuel : Nat} {l : Lambda}
    {t : Draft} {b : Bool} {record : ClosureRecord} {args : List Value} {w : World}
    (h : List.Forall₂ (fun (x : Var) (v : Value) => ∃ s : Ty, x.ty.accepts s = true ∧
      (∀ d, s.struct? = some d → d.Classy) ∧ (∀ d, v.structDef? = some d → d.Classy) ∧
      v.Held ∧ v.Suits s) l.params args) :
    callUnit host call fuel (t.toCode l b) record args w =
      runUnit host call fuel (t.toCode l b) record args w :=
  callUnit_eq (h.imp fun _ _ ⟨_, hacc, hs, hd, hv, hsuits⟩ =>
    Value.fits_of_accepts hacc hs hd hv hsuits)

/-- **Acceptance is sound at run time.** When a place of type `t` accepts type `s`, an
instance of `s` is an instance of `t`, and what an expression of type `s` may give has the
shape of `t`. So no check of shapes rejects it where `t` is expected, and clauses that
catch `t` catch it, evaluated and compiled. -/
theorem Ty.accepts_sound (s t : Ty) (v : Value) (h : t.accepts s = true)
    (hs : ∀ d, s.struct? = some d → d.Classy) (hd : ∀ d, v.structDef? = some d → d.Classy)
    (hv : v.Held) :
    (v.isA s = true → v.isA t = true) ∧
    (v.Suits s → v.fits (Shape.of t) = true) ∧
    (v.Suits s → ∀ (shapes : List Shape) (args : List Value) (w w' : World),
      requireShapes shapes args w ≠ .error (.defect (.misfit v (Shape.of t))) w') ∧
    (v.isA s = true →
      (∀ (c : Walk) (pre post : List CatchClause) (k : CatchClause),
        (∀ x ∈ pre, v.isA x.test = false) → k.test = t → k.filter = none →
          c.firstHandler v (pre ++ k :: post) = some <$> c.handling v k) ∧
      ∀ (origin slot target : Nat) (k : Handler), k.covers origin = true →
        k.kind = .catching t slot target → Machine.takes origin v k = true) := by
  have hisA : v.isA s = true → v.isA t = true := Value.isA_of_accepts h hs hv
  have hfits : v.Suits s → v.fits (Shape.of t) = true := Value.fits_of_accepts h hs hd hv
  refine ⟨hisA, hfits, fun hsuits shapes args w w' hreq => ?_, fun hi => ⟨?_, ?_⟩⟩
  · obtain ⟨u, shape, hmisfit, hno⟩ := misfit_of_requireShapes hreq
    obtain ⟨rfl, rfl⟩ : v = u ∧ Shape.of t = shape := by simpa using hmisfit
    rw [hfits hsuits] at hno
    cases hno
  · rintro c pre post k hpre rfl hf
    exact Walk.firstHandler_of_first hpre (hisA hi) hf
  · intro origin slot target k hcovers hk
    simp [Machine.takes, hcovers, hk, hisA hi]

/-- An instance of a derived class, where an instance of its base is expected. -/
theorem Ty.accepts_sound_derived :
    let top := StructDef.mk 0 "Top" .reference none [.mk "x" .i32]
    let low := StructDef.mk 1 "Low" .reference (some top) []
    let v := (({} : Store).newStruct low [.i32 1]).1
    (Ty.struct top).accepts (.struct low) = true ∧ low.Classy ∧ v.Held ∧
      v.isA (.struct top) = true ∧ v.fits (Shape.of (.struct top)) = true := by
  intro top low v
  have hacc : (Ty.struct top).accepts (.struct low) = true :=
    Ty.accepts_derived (List.mem_cons_of_mem _ top.mem_lineage_self)
  have hlow : low.Classy := (StructDef.classy_root _ _ _ _).derived rfl _ _ _
  have hv : v.Held := Store.held_newStruct _ _ _
  have hi : v.isA (.struct low) = true := StructDef.inherits_refl low
  obtain ⟨hisA, hfits, -⟩ := Ty.accepts_sound (.struct low) (.struct top) v hacc
    (by rintro d ⟨⟩; exact hlow) (by rintro d ⟨⟩; exact hlow) hv
  exact ⟨hacc, hlow, hv, hisA hi, hfits (.inl hi)⟩

/-- Why the bases have to be classes: a class derived from a value struct. Only classes have
bases here too, and the struct accepts the class, but an instance of the class is refused
where the struct is expected. -/
theorem Ty.accepted_instance_misfits :
    let base := StructDef.mk 0 "Base" .value none [.mk "x" .i32]
    let low := StructDef.mk 1 "Low" .reference (some base) []
    let v := (({} : Store).newStruct low [.i32 1]).1
    low.OnlyClassesDerive ∧ (Ty.struct base).accepts (.struct low) = true ∧ v.Held ∧
      v.isA (.struct low) = true ∧ v.fits (Shape.of (.struct base)) = false ∧
      ∀ w : World, requireShapes [Shape.of (.struct base)] [v] w =
        .error (.defect (.misfit v .struct)) w := by
  intro base low v
  refine ⟨?_, Ty.accepts_derived (List.mem_cons_of_mem _ base.mem_lineage_self),
    Store.held_newStruct _ _ _,
    StructDef.inherits_refl low, rfl, fun w => rfl⟩
  intro e he hbase
  rcases List.mem_cons.1 (show e ∈ [low, base] from he) with rfl | he
  · rfl
  · obtain rfl := List.mem_singleton.1 he
    cases hbase

end TreeCode
