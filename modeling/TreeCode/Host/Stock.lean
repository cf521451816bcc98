import TreeCode.Host.Basic

/-!
# A stock of host bodies

Ready-made bodies for methods and functions: accessors, constructors,
comparisons, bodies that fail in different ways, and bodies that write what
they see to the log.

## Main definitions

* `Stock.Body`, `Stock.Body.prog` — method bodies.
* `Stock.Fun`, `Stock.Fun.prog` — host functions.
* `Stock.host` — a host whose methods and functions are from the stock.
-/

namespace TreeCode.Stock

/-- The bodies of methods. -/
inductive Body where
  | unit | null | arg0 | arg1 | self
  | trace | traceSelf
  | field0 | field1
  | setField0 | setField1 | setField0Ret
  | bump | bumpGet | bumpThrow
  | className
  | sayBase | sayDerived | sayOther
  | elemGet | elemSet
  | pairGet | pairSet
  | addField0 | addField0I32 | negField0
  | eqField0 | neField0 | ltField0
  | getField0
  | sumI32 | isEven | modEq | strLen
  | raise | raiseArg | raiseArgument | internal
  | call0
  | make | makeRev
  deriving DecidableEq, Repr, Inhabited

/-- The bodies by name. -/
def Body.table : List (String × Body) :=
  [("unit", .unit), ("null", .null), ("arg0", .arg0), ("arg1", .arg1), ("self", .self),
   ("trace", .trace), ("trace_self", .traceSelf), ("field0", .field0), ("field1", .field1),
   ("set_field0", .setField0), ("set_field1", .setField1), ("set_field0_ret", .setField0Ret),
   ("bump", .bump), ("bump_get", .bumpGet), ("bump_throw", .bumpThrow),
   ("class_name", .className), ("say_base", .sayBase), ("say_derived", .sayDerived),
   ("say_other", .sayOther), ("elem_get", .elemGet), ("elem_set", .elemSet),
   ("pair_get", .pairGet), ("pair_set", .pairSet), ("add_field0", .addField0),
   ("add_field0_i32", .addField0I32), ("neg_field0", .negField0), ("eq_field0", .eqField0),
   ("ne_field0", .neField0), ("lt_field0", .ltField0), ("get_field0", .getField0),
   ("sum_i32", .sumI32), ("is_even", .isEven), ("mod_eq", .modEq), ("str_len", .strLen),
   ("raise", .raise), ("raise_arg", .raiseArg), ("raise_argument", .raiseArgument),
   ("internal", .internal), ("call0", .call0), ("make", .make), ("make_rev", .makeRev)]

def Body.ofName? (name : String) : Option Body :=
  (table.find? (·.1 == name)).map (·.2)

/-- The 32-bit integer of a value, zero for any other. -/
def num (v : Value) : Int := v.i32?.getD 0

/-! ## Building blocks

A body carries its receiver along, so that a failure keeps the changes made
to it. -/

/-- The receiver and arguments of a call. -/
structure Frame where
  receiver : Option Value
  args : List Value

namespace Frame

def ok (f : Frame) (v : Value) : HostProg := .done (.ok v) f.receiver

def fail (f : Frame) (e : Fault) : HostProg := .done (.error e) f.receiver

def defect (f : Frame) (message : String) : HostProg := f.fail (.defect (.host message))

/-- Makes a request; a failure ends the body. -/
def ask (f : Frame) (op : HostOp) (next : Value → HostProg) : HostProg :=
  .ask op fun
    | .ok v => next v
    | .error e => f.fail e

def this (f : Frame) (next : Value → HostProg) : HostProg :=
  match f.receiver with
  | some v => next v
  | none => f.defect "no receiver"

def arg (f : Frame) (i : Nat) (next : Value → HostProg) : HostProg :=
  match f.args[i]? with
  | some v => next v
  | none => f.defect (s!"missing argument {i}")

/-- The 32-bit integer in the first field of a value. -/
def first (f : Frame) (v : Value) (next : Int → HostProg) : HostProg :=
  f.ask (.field v 0) fun x => next (num x)

/-- Stores to a field of the receiver. -/
def store (f : Frame) (i : Nat) (x : Value) (next : Frame → HostProg) : HostProg :=
  f.this fun v => f.ask (.setField v i x) fun v => next { f with receiver := some v }

/-- Raises an exception. -/
def raise (f : Frame) (e : Exception) : HostProg :=
  f.ask (.exception e) fun v => f.fail (.thrown v)

/-- A new instance of the definition of `v`, with its first field given. -/
def remake (f : Frame) (v : Value) (n : Int) : HostProg :=
  match v.structDef? with
  | some d => f.ask (.create d [.i32 n]) f.ok
  | none => f.defect "not a struct"

/-- Adds one to the first field of the receiver. -/
def bump (f : Frame) (next : Frame → Int → HostProg) : HostProg :=
  f.this fun v => f.first v fun n =>
    let n := (BitVec.ofInt 32 (n + 1)).toInt
    f.store 0 (.i32 n) fun f => next f n

/-- Compares the first fields of two arguments. -/
def compareFirst (f : Frame) (test : Int → Int → Bool) : HostProg :=
  f.arg 0 fun a => f.arg 1 fun b => f.first a fun x => f.first b fun y => f.ok (.bool (test x y))

/-- Calls a function value. -/
def invoke (f : Frame) (callee : Value) (args : List Value) : HostProg :=
  match callee with
  | .function ref _ => f.ask (.call ref args) f.ok
  | _ => f.defect "not a function"

/-- Writes a value to the log. -/
def trace (f : Frame) (v : Value) (next : HostProg) : HostProg :=
  f.ask (.describe v) fun
    | .str line => f.ask (.log line) fun _ => next
    | _ => next

end Frame

/-! ## Bodies -/

/-- The body of a method; `first` is the definition that factories
instantiate. -/
def Body.prog (b : Body) (first : Option StructDef) (receiver : Option Value)
    (args : List Value) : HostProg :=
  let f : Frame := ⟨receiver, args⟩
  let create (args : List Value) : HostProg :=
    match first with
    | some d => f.ask (.create d args) f.ok
    | none => f.defect "no struct"
  match b with
  | .unit => f.ok .unit
  | .null => f.ok .null
  | .arg0 => f.arg 0 f.ok
  | .arg1 => f.arg 1 f.ok
  | .self => f.this f.ok
  | .trace => f.arg 0 fun v => f.trace v (f.ok v)
  | .traceSelf => f.this fun v => f.trace v (f.ok .unit)
  | .field0 => f.this fun v => f.ask (.field v 0) f.ok
  | .field1 => f.this fun v => f.ask (.field v 1) f.ok
  | .setField0 => f.this fun _ => f.arg 0 fun x => f.store 0 x fun f => f.ok .unit
  | .setField1 => f.this fun _ => f.arg 0 fun x => f.store 1 x fun f => f.ok .unit
  | .setField0Ret => f.this fun _ => f.arg 0 fun x => f.store 0 x fun f => f.ok x
  | .bump => f.bump fun f _ => f.ok .unit
  | .bumpGet => f.bump fun f n => f.ok (.i32 n)
  | .bumpThrow => f.bump fun f _ => f.raise ⟨.user "Bump", "after bump"⟩
  | .className => f.this fun v =>
    f.ok (.str (match v.structDef? with | some d => d.name | none => "<none>"))
  | .sayBase => f.ok (.str "base")
  | .sayDerived => f.ok (.str "derived")
  | .sayOther => f.ok (.str "other")
  | .elemGet => f.this fun v => f.ask (.field v 0) fun a => f.arg 0 fun i =>
    f.ask (.element a i) f.ok
  | .elemSet => f.this fun v => f.ask (.field v 0) fun a => f.arg 0 fun i => f.arg 1 fun x =>
    f.ask (.setElement a i x) fun _ => f.ok .unit
  | .pairGet => f.this fun v => f.first v fun n => f.arg 0 fun a => f.arg 1 fun b =>
    f.ok (.i32 (n + num a * 10 + num b))
  | .pairSet => f.this fun _ => f.arg 0 fun a => f.arg 1 fun b => f.arg 2 fun c =>
    f.store 0 (.i32 (num a * 100 + num b * 10 + num c)) fun f => f.ok .unit
  | .addField0 => f.arg 0 fun a => f.arg 1 fun b => f.first a fun x => f.first b fun y =>
    f.remake a (x + y)
  | .addField0I32 => f.arg 0 fun a => f.arg 1 fun b => f.first a fun x => f.remake a (x + num b)
  | .negField0 => f.arg 0 fun a => f.first a fun x => f.remake a (-x)
  | .eqField0 => f.compareFirst (· == ·)
  | .neField0 => f.compareFirst (· != ·)
  | .ltField0 => f.compareFirst (· < ·)
  | .getField0 => f.arg 0 fun a => f.ask (.field a 0) f.ok
  | .sumI32 => f.ok (.i32 ((args.map num).foldr (· + ·) 0))
  | .isEven => f.arg 0 fun a => f.ok (.bool (num a % 2 == 0))
  | .modEq => f.arg 0 fun a => f.arg 1 fun b =>
    f.ok (.bool ((num a).tmod 10 == (num b).tmod 10))
  | .strLen => f.arg 0 fun a =>
    f.ok (.i32 (match a with | .str s => s.utf8ByteSize | _ => -1))
  | .raise => f.raise ⟨.user "HostError", "from host"⟩
  | .raiseArg => f.arg 0 fun a => f.fail (.thrown a)
  | .raiseArgument => f.raise ⟨.argument, "bad argument"⟩
  | .internal => f.defect "host failure"
  | .call0 => f.arg 0 fun callee => f.invoke callee (args.drop 1)
  | .make => create args
  | .makeRev => create args.reverse

/-- The host functions. -/
inductive Fun where
  | inc | fail | apply | id | trace
  deriving DecidableEq, Repr, Inhabited

namespace Fun

/-- The host functions by name; their places are their ids. -/
def table : List (String × Fun) :=
  [("inc", inc), ("fail", fail), ("apply", apply), ("id", id), ("trace", trace)]

def signature : Fun → Signature
  | inc => ⟨[.i32], .i32⟩
  | fail => ⟨[], .i32⟩
  | apply => ⟨[.function [.i32] .i32, .i32], .i32⟩
  | id => ⟨[.object], .object⟩
  | trace => ⟨[.object], .object⟩

/-- The body of a host function. -/
def prog (b : Fun) (args : List Value) : HostProg :=
  let f : Frame := ⟨none, args⟩
  match b with
  | inc => f.arg 0 fun a => f.ok (.i32 (num a + 1))
  | fail => f.raise ⟨.user "NativeError", "native failed"⟩
  | apply => f.arg 0 fun callee => f.arg 1 fun a => f.invoke callee [a]
  | id => f.arg 0 f.ok
  | trace => f.arg 0 fun a => f.trace a (f.ok a)

/-- The host function of an id. -/
def ofId (i : Nat) : Fun :=
  match table[i]? with
  | some (_, b) => b
  | none => id

/-- The host function of a name, as a callable. -/
def callable? (name : String) : Option Callable :=
  (table.findIdx? (·.1 == name)).bind fun i =>
    table[i]?.map fun (_, b) => .native i b.signature

end Fun

/-- A host function as listings show it. -/
def nativeText (sig : Signature) : String :=
  Text.record "NativeFunction" [("signature", sig.detailed)]

/-- A host from the stock: `bodies` are the bodies of methods by id, and `first`
is the definition that factories instantiate. -/
def host (catalog : Catalog) (first : Option StructDef) (bodies : Array Body) : Host where
  catalog := catalog
  method id receiver args := (bodies[id]?.getD .unit).prog first receiver args
  native id args := (Fun.ofId id).prog args

end TreeCode.Stock
