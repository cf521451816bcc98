import TreeCode.Host.Stock

/-!
# Registration of definitions and methods

A `Registry` grows as definitions, methods, properties and indexers are
registered. Ids are given out in order of registration, so no two definitions
and no two methods share one.

## Main definitions

* `Registry.addStruct`, `Registry.addMethod` — new definitions and methods.
* `Registry.change` — registers members on a definition.
* `Registry.catalog`, `Registry.host` — what the rest of the library sees.
-/

namespace TreeCode

/-- What is registered. -/
structure Registry where
  defs : Array StructDef := #[]
  /-- Members of each definition, in the order of `defs`. -/
  members : Array Members := #[]
  /-- Bodies of the methods, by id. -/
  bodies : Array Stock.Body := #[]
  deriving Inhabited

namespace Registry

/-- A new definition without members. -/
def addStruct (r : Registry) (name : String) (kind : StructKind) (base : Option StructDef)
    (fields : List FieldDef) : StructDef × Registry :=
  let d := StructDef.mk r.defs.size name kind base fields
  (d, { r with defs := r.defs.push d, members := r.members.push {} })

/-- A new method. The id of `m` is replaced by a new one. -/
def addMethod (r : Registry) (m : Method) (body : Stock.Body) : Method × Registry :=
  ({ m with id := r.bodies.size }, { r with bodies := r.bodies.push body })

/-- Changes the members of a definition. -/
def change (r : Registry) (d : StructDef) (f : Members → Members) : Registry :=
  { r with members := r.members.modify d.id f }

def catalog (r : Registry) : Catalog :=
  let members := r.members
  ⟨fun i => members[i]?.getD {}⟩

/-- The host with the registered methods; factories instantiate the first
definition. -/
def host (r : Registry) : Host := Stock.host r.catalog r.defs[0]? r.bodies

end Registry

namespace Members

def addMethod (m : Method) (ms : Members) : Members := { ms with methods := ms.methods ++ [m] }

def addProperty (p : Property) (ms : Members) : Members :=
  { ms with properties := ms.properties ++ [p] }

def setIndexer (i : Indexer) (ms : Members) : Members := { ms with indexer := some i }

end Members

end TreeCode
