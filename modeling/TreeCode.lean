import TreeCode.Call
import TreeCode.Code.Assembly
import TreeCode.Code.Basic
import TreeCode.Code.Instr
import TreeCode.Compile.Failure
import TreeCode.Compile.Plan
import TreeCode.Compile.Unit
import TreeCode.Decimal.Layout
import TreeCode.Decimal.Shortest
import TreeCode.Depth
import TreeCode.Eval.Basic
import TreeCode.Eval.Control
import TreeCode.Eval.Node
import TreeCode.Eval.Operator
import TreeCode.Eval.Place
import TreeCode.Expr.Basic
import TreeCode.Expr.Build
import TreeCode.Fault
import TreeCode.Host.Basic
import TreeCode.Host.Registry
import TreeCode.Host.Stock
import TreeCode.Lower.Control
import TreeCode.Lower.Label
import TreeCode.Lower.Member
import TreeCode.Lower.Node
import TreeCode.Lower.Operator
import TreeCode.Lower.Part
import TreeCode.Lower.State
import TreeCode.Lower.Unit
import TreeCode.Machine.Exec
import TreeCode.Machine.Run
import TreeCode.Machine.State
import TreeCode.Member
import TreeCode.Num.Basic
import TreeCode.Num.Binary
import TreeCode.Num.Float
import TreeCode.Num.Kind
import TreeCode.Operator.Apply
import TreeCode.Operator.Basic
import TreeCode.Program
import TreeCode.Proofs.Agree.Bench
import TreeCode.Proofs.Agree.Block
import TreeCode.Proofs.Agree.Branch
import TreeCode.Proofs.Agree.Call
import TreeCode.Proofs.Agree.Catch
import TreeCode.Proofs.Agree.Cleanup
import TreeCode.Proofs.Agree.Conversion
import TreeCode.Proofs.Agree.Entry
import TreeCode.Proofs.Agree.Form
import TreeCode.Proofs.Agree.Frame
import TreeCode.Proofs.Agree.Handle
import TreeCode.Proofs.Agree.Instr
import TreeCode.Proofs.Agree.Jump
import TreeCode.Proofs.Agree.Leaf
import TreeCode.Proofs.Agree.Operator
import TreeCode.Proofs.Agree.Protect
import TreeCode.Proofs.Agree.Site
import TreeCode.Proofs.Agree.Supplied
import TreeCode.Proofs.Agree.Tame
import TreeCode.Proofs.Agree.Unit
import TreeCode.Proofs.Closure.Call
import TreeCode.Proofs.Closure.Compiled
import TreeCode.Proofs.Closure.Entry
import TreeCode.Proofs.Closure.Frame
import TreeCode.Proofs.Closure.Invoke
import TreeCode.Proofs.Closure.Session
import TreeCode.Proofs.Compile.Capture
import TreeCode.Proofs.Compile.Closed
import TreeCode.Proofs.Compile.Records
import TreeCode.Proofs.Compile.Sufficient
import TreeCode.Proofs.Compile.Survey
import TreeCode.Proofs.Compile.Tally
import TreeCode.Proofs.Compile.Tour
import TreeCode.Proofs.Eval.Depth
import TreeCode.Proofs.Eval.Escape
import TreeCode.Proofs.Eval.Rule
import TreeCode.Proofs.Eval.Sound
import TreeCode.Proofs.Eval.Surface
import TreeCode.Proofs.Eval.Tidy
import TreeCode.Proofs.Expr.Mention
import TreeCode.Proofs.Expr.Tree
import TreeCode.Proofs.Expr.Typing
import TreeCode.Proofs.Host.Receiver
import TreeCode.Proofs.Likeness.Bound
import TreeCode.Proofs.Likeness.Frame
import TreeCode.Proofs.Likeness.Limit
import TreeCode.Proofs.Lower.Acts
import TreeCode.Proofs.Lower.Course
import TreeCode.Proofs.Lower.Draft
import TreeCode.Proofs.Lower.Emission
import TreeCode.Proofs.Lower.Interning
import TreeCode.Proofs.Lower.Jump
import TreeCode.Proofs.Lower.Layout
import TreeCode.Proofs.Lower.Loose
import TreeCode.Proofs.Lower.Node
import TreeCode.Proofs.Lower.Order
import TreeCode.Proofs.Lower.Path
import TreeCode.Proofs.Lower.Regions
import TreeCode.Proofs.Lower.Routine
import TreeCode.Proofs.Lower.Rule
import TreeCode.Proofs.Lower.Scope
import TreeCode.Proofs.Lower.Step
import TreeCode.Proofs.Machine.Crossing
import TreeCode.Proofs.Machine.Entries
import TreeCode.Proofs.Machine.Home
import TreeCode.Proofs.Machine.Locals
import TreeCode.Proofs.Machine.Pending
import TreeCode.Proofs.Machine.Trail
import TreeCode.Proofs.Machine.Turn
import TreeCode.Proofs.Num.Equality
import TreeCode.Proofs.Operator.Coalesce
import TreeCode.Proofs.Operator.Emission
import TreeCode.Proofs.Operator.Integer
import TreeCode.Proofs.Operator.Kind
import TreeCode.Proofs.Operator.Scalar
import TreeCode.Proofs.Operator.Typing
import TreeCode.Proofs.Pact.Assign
import TreeCode.Proofs.Pact.Basic
import TreeCode.Proofs.Pact.Construction
import TreeCode.Proofs.Pact.Elementary
import TreeCode.Proofs.Pact.Lifted
import TreeCode.Proofs.Pact.Method
import TreeCode.Proofs.Pact.Operation
import TreeCode.Proofs.Pact.Operator
import TreeCode.Proofs.Pact.Primitive
import TreeCode.Proofs.Pact.Scene
import TreeCode.Proofs.Pact.Test
import TreeCode.Proofs.Pact.Value
import TreeCode.Proofs.Store.Rendering
import TreeCode.Proofs.Ty.Layout
import TreeCode.Proofs.Value.Acceptance
import TreeCode.Proofs.Value.Equality
import TreeCode.Proofs.Value.Literal
import TreeCode.Proofs.Value.Typing
import TreeCode.Scope
import TreeCode.Store
import TreeCode.Text.Hidden
import TreeCode.Text.Quoted
import TreeCode.Ty.Basic
import TreeCode.Ty.Text
import TreeCode.Value.Basic
import TreeCode.Value.Default
import TreeCode.World
