/-!
# Scopes

Bindings of variables to cells, in nested scopes. A lookup searches from the
innermost binding outwards, so a later binding of a key hides earlier ones.

## Main definitions

* `Scopes` — the bindings outside every scope, and those of each open one.
* `Scopes.enter`, `Scopes.leave?`, `Scopes.bind`,
  `Scopes.get?`, `Scopes.toList` — its operations.
-/

namespace TreeCode

/-- Nested scopes of bindings, each newest first. -/
structure Scopes (K V : Type) where
  /-- Bindings outside every open scope. -/
  base : List (K × V) := []
  /-- Bindings of the open scopes, innermost scope first. -/
  frames : List (List (K × V)) := []
  deriving Repr, Inhabited

namespace Scopes

variable {K V : Type}

/-- A stack without open scopes that holds `bindings`, oldest first. -/
def ofList (bindings : List (K × V)) : Scopes K V := { base := bindings.reverse }

/-- Opens a scope. -/
def enter (s : Scopes K V) : Scopes K V := { s with frames := [] :: s.frames }

/-- Closes the innermost scope and drops its bindings; `none` when no scope is
open. -/
def leave? (s : Scopes K V) : Option (Scopes K V) :=
  match s.frames with
  | [] => none
  | _ :: frames => some { s with frames }

/-- Wording of a refusal to close a scope. -/
def leaveRefusal : String := "Cannot pop from empty scope stack"

/-- Binds a key in the innermost scope. -/
def bind (s : Scopes K V) (k : K) (v : V) : Scopes K V :=
  match s.frames with
  | [] => { s with base := (k, v) :: s.base }
  | frame :: frames => { s with frames := ((k, v) :: frame) :: frames }

/-- Binds keys one after the other. -/
def bindAll (s : Scopes K V) (bindings : List (K × V)) : Scopes K V :=
  bindings.foldl (fun s (k, v) => s.bind k v) s

/-- Every binding, newest first. -/
def newestFirst (s : Scopes K V) : List (K × V) := s.frames.flatten ++ s.base

/-- Every binding, oldest first; hidden ones are included. -/
def toList (s : Scopes K V) : List (K × V) := s.newestFirst.reverse

/-- The innermost binding of a key. -/
def get? [BEq K] (s : Scopes K V) (k : K) : Option V :=
  (s.newestFirst.find? fun (k', _) => k' == k).map (·.2)

/-- Number of open scopes. -/
def level (s : Scopes K V) : Nat := s.frames.length

end Scopes

end TreeCode
