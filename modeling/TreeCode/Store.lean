import TreeCode.Value.Default
import TreeCode.Ty.Text

/-!
# The store

The contents of shared values: arrays, class instances and cells. References
are positions, and nothing is ever removed. Texts of values are written here
too, since an array or an object shows its contents.

## Main definitions

* `Store` — the contents of shared values.
* `Store.detailed`, `Store.shown` — the text of a value in listings and in
  messages. Contents may be cyclic, so the depth of nesting is bounded by an
  argument, and `none` says that the bound was met.
-/

namespace TreeCode

open Text

/-- Contents of shared values. -/
structure Store where
  arrays : Array (Array Value) := #[]
  objects : Array (List Value) := #[]
  cells : Array Value := #[]
  /-- Number of exception objects made so far. -/
  stamps : Nat := 0
  deriving Inhabited

namespace Store

/-! ## Allocation -/

def newArray (st : Store) (items : Array Value) : Value × Store :=
  (.array st.arrays.size, { st with arrays := st.arrays.push items })

def newCell (st : Store) (v : Value) : Nat × Store :=
  (st.cells.size, { st with cells := st.cells.push v })

/-- A new exception object. -/
def newException (st : Store) (e : Exception) : Value × Store :=
  (.exception st.stamps e, { st with stamps := st.stamps + 1 })

/-- A new instance of a definition, its leading fields given. -/
def newStruct (st : Store) (d : StructDef) (given : List Value) : Value × Store :=
  match d.kind with
  | .value => (.struct none d (d.fill given), st)
  | .reference =>
    (.object st.objects.size d, { st with objects := st.objects.push (d.fill given) })

/-! ## Contents -/

def arrayAt (st : Store) (ref : Nat) : Array Value := st.arrays[ref]?.getD #[]

def objectAt (st : Store) (ref : Nat) : List Value := st.objects[ref]?.getD []

def cellAt (st : Store) (ref : Nat) : Value := st.cells[ref]?.getD .unit

def setCell (st : Store) (ref : Nat) (v : Value) : Store :=
  { st with cells := st.cells.setIfInBounds ref v }

def setObject (st : Store) (ref : Nat) (fields : List Value) : Store :=
  { st with objects := st.objects.setIfInBounds ref fields }

/-- Stores an element of an array. -/
def setElement (st : Store) (ref i : Nat) (v : Value) : Store :=
  { st with arrays := st.arrays.modify ref (·.setIfInBounds i v) }

/-! ## Texts of values -/

/-- A value as listings and traces show it. -/
def detailed (st : Store) : Nat → Value → Option String
  | 0, _ => none
  | fuel + 1, v =>
    match v with
    | .unit => some "Unit"
    | .null => some "Null"
    | .bool b => some (tagged "Bool" (toString b))
    | .num n => some n.detailed
    | .str s => some (tagged "Str" (quoted s))
    | .array r => do
      return bracketed (← (st.arrayAt r).toList.mapM (st.detailed fuel))
    | .struct _ d fs => do
      return d.name ++ " " ++ bracketed (← fs.mapM (st.detailed fuel))
    | .object r d => do
      return d.name ++ " " ++ bracketed (← (st.objectAt r).mapM (st.detailed fuel))
    | .function _ sig => some ("<function " ++ sig.detailed ++ ">")
    | .exception _ e => some (tagged "Exception" e.shown)
    | .cell r => do
      return tagged "Cell" (← st.detailed fuel (st.cellAt r))
    | .address (.slot i) => some (tagged "Address" (tagged "Local" (toString i)))
    | .address (.cell r) => do
      let inner ← st.detailed fuel (st.cellAt r)
      return tagged "Address" (tagged "Cell" (record "RefCell" [("value", inner)]))
    | .openUnit _ name => some ("<open unit " ++ someOrNone (name.map quoted) ++ ">")

/-- An address as listings show it. -/
def addressText (st : Store) (fuel : Nat) : Address → Option String
  | .slot i => some (tagged "Local" (toString i))
  | .cell r => do
    let inner ← st.detailed fuel (st.cellAt r)
    return tagged "Cell" (record "RefCell" [("value", inner)])

/-- A value as messages show it. -/
def shown (st : Store) : Nat → Value → Option String
  | 0, _ => none
  | fuel + 1, v =>
    match v with
    | .unit => some "()"
    | .null => some "null"
    | .bool b => some (toString b)
    | .num n => some n.shown
    | .str s => some (Text.shown s)
    | .array r => do
      return bracketed (← (st.arrayAt r).toList.mapM (st.shown fuel))
    | .exception _ e => some e.shown
    | other => st.detailed (fuel + 1) other

end Store

end TreeCode
