import TreeCode.Ty.Text

/-!
# Members of structs and classes

Methods, properties and indexers are registered on a definition after it
exists, so their signatures may mention any type. A `Catalog` holds what is
registered; the lookups here search a definition and its bases, most derived
first.

## Main definitions

* `Method`, `Property`, `Indexer`, `Member` — what a definition can have.
* `Catalog.methodNamed?`, `Catalog.operatorNamed?`, `Catalog.memberNamed?`,
  `Catalog.indexerOf?` — the lookups.
-/

namespace TreeCode

/-- A method provided by the host. `id` tells methods apart; the host knows
the body that goes with it. -/
structure Method where
  id : Nat
  name : String
  params : List Ty
  ret : Ty
  isStatic : Bool
  isVirtual : Bool
  /-- The method may change a value struct it is called on. -/
  mutatesReceiver : Bool
  deriving DecidableEq, Inhabited

namespace Method

def arity (m : Method) : Nat := m.params.length

/-- Form of a method in listings. -/
def detailed (m : Method) : String :=
  Text.record "MethodDef" [("name", Text.quoted m.name),
    ("params", Text.bracketed (Ty.detailedList m.params)), ("ret", m.ret.detailed),
    ("is_static", toString m.isStatic), ("is_virtual", toString m.isVirtual)]

end Method

/-- Access by subscript. -/
structure Indexer where
  getter : Method
  setter : Option Method
  deriving DecidableEq, Inhabited

/-- A named pair of accessors. -/
structure Property where
  name : String
  ty : Ty
  getter : Method
  setter : Option Method
  deriving DecidableEq, Inhabited

/-- A field or property found by name on `owner`. -/
inductive Member where
  /-- A field, by its position in the layout of instances. -/
  | field (owner : StructDef) (index : Nat) (name : String) (ty : Ty)
  | property (owner : StructDef) (p : Property)
  deriving DecidableEq

namespace Member

def ty : Member → Ty
  | field _ _ _ t => t
  | property _ p => p.ty

def name : Member → String
  | field _ _ n _ => n
  | property _ p => p.name

def owner : Member → StructDef
  | field d _ _ _ => d
  | property d _ => d

def isWritable : Member → Bool
  | field .. => true
  | property _ p => p.setter.isSome

end Member

/-- What is registered on one definition, in order of registration. -/
structure Members where
  methods : List Method := []
  properties : List Property := []
  indexer : Option Indexer := none
  deriving Inhabited

/-- What is registered on every definition, by the definition's id. -/
structure Catalog where
  members : Nat → Members

namespace Catalog

/-- Nothing is registered. -/
def empty : Catalog := ⟨fun _ => {}⟩

/-- Finds a method by name: of the methods of one definition the one
registered last, and those of a derived definition before those of its
base. -/
def methodNamed? (c : Catalog) (d : StructDef) (name : String) : Option Method :=
  d.lineage.findSome? fun d => (c.members d.id).methods.reverse.find? (·.name == name)

/-- Whether a method is an operator of the given name taking these operands. -/
def isOperator (name : String) (operands : List Ty) (m : Method) : Bool :=
  m.isStatic && m.name == name && m.params.length == operands.length &&
    (m.params.zip operands).all fun (p, t) => p.accepts t

/-- Finds a static operator method whose parameters take the operands. -/
def operatorNamed? (c : Catalog) (d : StructDef) (name : String) (operands : List Ty) :
    Option Method :=
  d.lineage.findSome? fun d => (c.members d.id).methods.find? (isOperator name operands)

/-- Finds a field or property by name; fields, inherited ones included, come
before properties. -/
def memberNamed? (c : Catalog) (d : StructDef) (name : String) : Option Member :=
  match d.slotOf? name with
  | some (index, ty) => some (.field d index name ty)
  | none => d.lineage.findSome? fun d =>
    ((c.members d.id).properties.find? (·.name == name)).map (.property d)

/-- The indexer of a definition or of the nearest base that has one. -/
def indexerOf? (c : Catalog) (d : StructDef) : Option Indexer :=
  d.lineage.findSome? fun d => (c.members d.id).indexer

end Catalog

end TreeCode
