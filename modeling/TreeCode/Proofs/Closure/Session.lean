import TreeCode.Proofs.Closure.Call

/-!
# Sessions

A caller calls a lambda, then the functions that calls have returned, and hands them to
further calls. What is seen of a session is the list of replies. Sessions that start with
functions that stand for each other go on in correspondence, as long as evaluation stays
within its limits.

Main definitions:

* `Request`, `Reply`, `Session` — what a caller asks, what it is told, and what it has got.
* `Host.converse` — the replies to a list of requests.
* `Closure.Setting.Mirrors` — two sessions correspond.

Main results:

* `Closure.Setting.Mirrors.serve` — one request keeps two sessions in correspondence.
* `Closure.Setting.Mirrors.converse` — **and so does any number of them**.
-/

namespace TreeCode

/-! ## Callers -/

/-- What a caller hands over: a value that nobody shares, or a function that it has got. -/
inductive Handed where
  | plain (v : Value)
  | got (i : Nat)

/-- The call of a function that the caller has got, by its number. -/
structure Request where
  callee : Nat
  args : List Handed

/-- What the caller is told. -/
inductive Reply where
  /-- There is no such function, or the arguments do not fit its parameters. -/
  | refused
  | value (v : Value)
  /-- The caller has got one more function. -/
  | function (sig : Signature)
  | failed (f : Fault)

/-- The call met a limit: of the depth of evaluation, or of the length of the run. -/
def Reply.exhausted : Reply → Bool
  | .failed .outOfFuel | .failed (.tooDeep ..) => true
  | _ => false

/-- The functions that the caller has got so far, and the world. -/
structure Session where
  got : List Value
  world : World

/-- The value fits a parameter of the type. -/
def Value.isOf (v : Value) : Ty → Bool
  | .void => match v with
    | .unit => true
    | _ => false
  | .bool => match v with
    | .bool _ => true
    | _ => false
  | .num k => v.numKind? == some k
  | .str => match v with
    | .str _ | .null => true
    | _ => false
  | .nullable t => v.isNull || v.isOf t
  | .object => match v with
    | .unit => false
    | _ => true
  | .function ps r => match v with
    | .null => true
    | .function _ sig => decide (sig.params = ps ∧ sig.ret = r)
    | _ => false
  | .array _ | .struct _ | .exception => false

namespace Session

def value? (s : Session) : Handed → Option Value
  | .plain v => if v.identity?.isNone then some v else none
  | .got i => s.got[i]?

/-- The values of arguments that fit parameters of the given types. -/
def args? (s : Session) : List Ty → List Handed → Option (List Value)
  | [], [] => some []
  | t :: ts, x :: xs => do
    let v ← s.value? x
    let vs ← s.args? ts xs
    if v.isOf t then some (v :: vs) else none
  | _, _ => none

/-- The function that is called, with its arguments. -/
def call? (s : Session) (q : Request) : Option (Nat × List Value) :=
  match s.got[q.callee]? with
  | some (.function f sig) => (s.args? sig.params q.args).map (f, ·)
  | _ => none

/-- The caller has got a value. -/
def take (s : Session) (v : Value) : Reply × Session :=
  match v with
  | .function _ sig => (.function sig, { s with got := s.got ++ [v] })
  | v => (.value v, s)

/-- The caller is told the result of a call. -/
def hear (s : Session) : EStateM.Result Fault World Value → Reply × Session
  | .ok v w => { s with world := w }.take v
  | .error f w => (.failed f, { s with world := w })

end Session

namespace Host

variable (host : Host) (fuel : Nat)

/-- The reply to a request. -/
def serve (q : Request) (s : Session) : Reply × Session :=
  match s.call? q with
  | none => (.refused, s)
  | some (f, args) => s.hear (call host fuel f args s.world)

/-- The replies to requests that follow each other. -/
def converse : List Request → Session → List Reply × Session
  | [], s => ([], s)
  | q :: qs, s =>
    let (reply, s) := host.serve fuel q s
    let (replies, s) := converse qs s
    (reply :: replies, s)

end Host

/-! ## Fitting values -/

theorem Value.isOf_function (f f' : Nat) (sig : Signature) :
    ∀ t, (Value.function f' sig).isOf t = (Value.function f sig).isOf t
  | .nullable t => by
    rw [isOf, isOf, isOf_function f f' sig t]
    rfl
  | .void | .bool | .num _ | .str | .object | .function .. | .array _ | .struct _ | .exception => rfl

theorem Value.fits_of_isOf {v : Value} {t : Ty} (ht : t.Scalar) (h : v.isOf t = true) :
    Typing.bare.Fits v t := by
  have hbool : ∀ {v : Value}, v.isOf .bool = true → Typing.bare.Fits v .bool := by
    intro v h
    cases v with
    | bool b => exact .bool b
    | _ => cases h
  have hnum : ∀ {v : Value} {k : NumKind}, v.isOf (.num k) = true → Typing.bare.Fits v (.num k) := by
    intro v k h
    cases v with
    | num n => exact .num (by simpa [isOf, numKind?] using h)
    | _ => cases h
  -- A nullable type has null besides.
  have hnull : ∀ {v : Value} {u : Ty}, (v.isOf u = true → Typing.bare.Fits v u) →
      v.isOf (.nullable u) = true → Typing.bare.Fits v (.nullable u) := by
    intro v u hu h
    rcases Bool.or_eq_true_iff.1 h with hv | hv
    · cases v with
      | null => exact .null rfl
      | _ => cases hv
    · exact .present (hu hv)
  cases ht with
  | bool => exact hbool h
  | num => exact hnum h
  | maybeBool => exact hnull hbool h
  | maybeNum => exact hnull hnum h
  | str =>
    cases v with
    | str s => exact .str s
    | null => exact .null rfl
    | _ => cases h

/-- What fits a parameter of a woven type is a value of the type, and has its shape. -/
theorem Value.isOf.sits {v : Value} {t : Ty} (ht : t.Woven) (h : v.isOf t = true) :
    v.Sits t ∧ v.fits (Shape.of t) = true := by
  cases hvoid : t.isVoid with
  | true =>
    obtain rfl := Build.isVoid_iff.1 hvoid
    cases v with
    | unit => exact ⟨trivial, rfl⟩
    | _ => cases h
  | false =>
    suffices hsits : v.Sits t from ⟨hsits, hsits.shape ht hvoid⟩
    cases ht with
    | void => cases hvoid
    | object =>
      rintro rfl
      cases h
    | function =>
      cases v with
      | null => exact .inl rfl
      | function ref sig =>
        obtain ⟨ps, r⟩ := sig
        obtain ⟨rfl, rfl⟩ : ps = _ ∧ r = _ := by simpa [Value.isOf] using h
        exact .inr ⟨ref, rfl⟩
      | _ => cases h
    | scalar hs =>
      rw [Value.Sits.scalar_iff hs]
      exact Value.fits_of_isOf hs h

namespace Closure

variable {Z : Setting} {a b : Link} {w w' : World} {v v' : Value} {t : Ty}

theorem Link.Same.isOf (h : a.Same v v') : v'.isOf t = v.isOf t := by
  cases h with
  | plain _ => rfl
  | function _ => exact Value.isOf_function _ _ _ t

/-- The parameters of a linked function have woven types. -/
theorem Agree.params_woven (h : Agree Z a w w') {f : Nat} {p : Nat × Signature}
    (hf : a.functions f = some p) : ∀ t ∈ p.2.params, t.Woven := by
  obtain ⟨f', sig⟩ := p
  intro t ht
  rcases h.functions hf with ⟨u, captured, code, record, rfl, htwin⟩ | ⟨id, hcomputes, -, -⟩
  · obtain ⟨v, hv, rfl⟩ := List.mem_map.1 ht
    exact ((Z.woven.nested htwin.nests).params v hv).2
  · exact .scalar (hcomputes.params t ht)

/-! ## Corresponding sessions -/

/-- Two sessions correspond: the functions that the caller has got stand for each other, and
the worlds agree. -/
structure Setting.Mirrors (Z : Setting) (a : Link) (s s' : Session) : Prop where
  agree : Agree Z a s.world s'.world
  got : List.Forall₂ a.Same s.got s'.got

namespace Setting.Mirrors

variable {s s' : Session}

theorem value? (h : Z.Mirrors a s s') (x : Handed) :
    s.value? x = none ∧ s'.value? x = none ∨
      ∃ v v', s.value? x = some v ∧ s'.value? x = some v' ∧ a.Same v v' := by
  cases x with
  | plain v =>
    simp only [Session.value?]
    split
    · rename_i hv
      exact .inr ⟨v, v, rfl, rfl, .plain (Option.isNone_iff_eq_none.1 hv)⟩
    · exact .inl ⟨rfl, rfl⟩
  | got i =>
    have hlen := h.got.length_eq
    simp only [Session.value?]
    by_cases hi : i < s.got.length
    · rw [List.getElem?_eq_getElem hi, List.getElem?_eq_getElem (hlen ▸ hi)]
      exact .inr ⟨_, _, rfl, rfl, h.got.get hi (hlen ▸ hi)⟩
    · rw [List.getElem?_eq_none (by omega), List.getElem?_eq_none (by omega)]
      exact .inl ⟨rfl, rfl⟩

/-- Arguments fit in both sessions, or in neither. -/
theorem args? (h : Z.Mirrors a s s') {ts : List Ty} (hts : ∀ t ∈ ts, t.Woven) (xs : List Handed) :
    s.args? ts xs = none ∧ s'.args? ts xs = none ∨
      ∃ vs vs', s.args? ts xs = some vs ∧ s'.args? ts xs = some vs' ∧ a.Passes ts vs vs' := by
  induction ts generalizing xs with
  | nil =>
    cases xs with
    | nil => exact .inr ⟨[], [], rfl, rfl, .nil⟩
    | cons x xs => exact .inl ⟨rfl, rfl⟩
  | cons t ts ih =>
    cases xs with
    | nil => exact .inl ⟨rfl, rfl⟩
    | cons x xs =>
      simp only [Session.args?]
      rcases h.value? x with ⟨hx, hx'⟩ | ⟨v, v', hx, hx', hsame⟩
      · exact .inl (by simp [hx, hx'])
      rcases ih (fun t ht => hts t (by simp [ht])) xs with ⟨hxs, hxs'⟩ | ⟨vs, vs', hxs, hxs', hpass⟩
      · exact .inl (by simp [hx, hx', hxs, hxs'])
      cases hv : v.isOf t with
      | false => exact .inl (by simp [hx, hx', hxs, hxs', hsame.isOf, hv])
      | true =>
        obtain ⟨hsits, hshape⟩ := Value.isOf.sits (hts t (by simp)) hv
        refine .inr ⟨v :: vs, v' :: vs', by simp [hx, hxs, hv], by simp [hx', hxs', hsame.isOf, hv], ?_⟩
        exact .cons (.inr ⟨hsame, hsits⟩) ((hsame.shape _).trans hshape) hpass

/-- The same function is called in both sessions, or none. -/
theorem call? (h : Z.Mirrors a s s') (q : Request) :
    s.call? q = none ∧ s'.call? q = none ∨ ∃ f f' sig xs xs', s.call? q = some (f, xs) ∧
      s'.call? q = some (f', xs') ∧ a.functions f = some (f', sig) ∧ a.Passes sig.params xs xs' := by
  rcases h.value? (.got q.callee) with ⟨hf, hf'⟩ | ⟨v, v', hf, hf', hsame⟩
  · exact .inl ⟨by simp only [Session.call?, show s.got[q.callee]? = none from hf],
      by simp only [Session.call?, show s'.got[q.callee]? = none from hf']⟩
  replace hf : s.got[q.callee]? = some v := hf
  replace hf' : s'.got[q.callee]? = some v' := hf'
  cases hsame with
  | plain hid =>
    -- The caller has got functions only, and these have identities.
    have hnone : ∀ {s₁ : Session}, s₁.got[q.callee]? = some v → s₁.call? q = none := by
      intro s₁ hs
      unfold Session.call?
      split
      · rename_i heq
        obtain rfl := Option.some.inj (hs.symm.trans heq)
        cases hid
      · rfl
    exact .inl ⟨hnone hf, hnone hf'⟩
  | @function f f' sig hlink =>
    simp only [Session.call?, hf, hf']
    rcases h.args? (h.agree.params_woven hlink) q.args with ⟨hxs, hxs'⟩ | ⟨xs, xs', hxs, hxs', hpass⟩
    · exact .inl (by simp [hxs, hxs'])
    · exact .inr ⟨f, f', sig, xs, xs', by simp [hxs], by simp [hxs'], hlink, hpass⟩

theorem mono (h : Z.Mirrors a s s') (hab : a.Le b) (hw : Agree Z b w w') :
    Z.Mirrors b { s with world := w } { s' with world := w' } where
  agree := hw
  got := h.got.imp fun _ _ hv => hv.mono hab

/-- The caller is told the same of results that stand for each other. -/
theorem take (h : Z.Mirrors a s s') (hv : a.Same v v') :
    (s'.take v').1 = (s.take v).1 ∧ Z.Mirrors a (s.take v).2 (s'.take v').2 := by
  cases hv with
  | plain hid =>
    cases v with
    | function f sig => cases hid
    | _ => exact ⟨rfl, h⟩
  | function hlink =>
    refine ⟨rfl, ⟨h.agree, ?_⟩⟩
    exact List.rel_append h.got (.cons (.function hlink) .nil)

/-- One request keeps two sessions in correspondence, if evaluation stays within its limits:
the caller is told the same, for all bounds of the machines above some. -/
theorem serve (h : Z.Mirrors a s s') (n : Nat) (q : Request)
    (hlimit : (Z.host.serve n q s).1.exhausted = false) :
    ∃ b s₁ N, a.Le b ∧ Z.Mirrors b (Z.host.serve n q s).2 s₁ ∧
      ∀ k, N ≤ k → Z.host.serve k q s' = ((Z.host.serve n q s).1, s₁) := by
  rcases h.call? q with ⟨hq, hq'⟩ | ⟨f, f', sig, xs, xs', hq, hq', hlink, hpass⟩
  · simp only [Host.serve, hq, hq']
    exact ⟨a, s', 0, .refl a, h, fun _ _ => rfl⟩
  have hanswer := answers Z n h.agree hlink hpass
  simp only [Host.serve, hq, hq'] at hlimit ⊢
  cases hr : call Z.host n f xs s.world with
  | ok v w =>
    rw [hr] at hanswer
    obtain ⟨b, v', w', hab, ⟨hsame, -⟩, hagree, -, N, hN⟩ := hanswer
    obtain ⟨htold, hmirrors⟩ := (h.mono hab hagree).take hsame
    refine ⟨b, _, N, hab, hmirrors, fun k hk => ?_⟩
    exact (congrArg s'.hear (hN k hk)).trans (Prod.ext htold rfl)
  | error e w =>
    rw [hr] at hanswer hlimit
    -- Evaluation did not meet its limits, so the machines fail as it does.
    have hmet : ¬(e = .outOfFuel ∨ ∃ d m, e = .tooDeep d m) := by
      rintro (rfl | ⟨d, m, rfl⟩) <;> cases hlimit
    obtain ⟨b, w', hab, hagree, N, hN⟩ := hanswer.resolve_left hmet
    exact ⟨b, _, N, hab, h.mono hab hagree, fun k hk => congrArg s'.hear (hN k hk)⟩

/-- The same for requests that follow each other. -/
theorem converse (h : Z.Mirrors a s s') (n : Nat) (qs : List Request)
    (hlimits : ∀ reply ∈ (Z.host.converse n qs s).1, reply.exhausted = false) :
    ∃ b s₁ N, a.Le b ∧ Z.Mirrors b (Z.host.converse n qs s).2 s₁ ∧
      ∀ k, N ≤ k → Z.host.converse k qs s' = ((Z.host.converse n qs s).1, s₁) := by
  induction qs generalizing a s s' with
  | nil => exact ⟨a, s', 0, .refl a, h, fun _ _ => rfl⟩
  | cons q qs ih =>
    obtain ⟨b, s₁, N, hab, h₁, hserve⟩ := h.serve n q (hlimits _ (.head _))
    obtain ⟨c, s₂, N', hbc, h₂, hrest⟩ := ih h₁ fun reply hr => hlimits reply (.tail _ hr)
    refine ⟨c, s₂, max N N', hab.trans hbc, h₂, fun k hk => ?_⟩
    simp only [Host.converse]
    rw [hserve k (by omega), hrest k (by omega)]

end Setting.Mirrors

end Closure

end TreeCode
