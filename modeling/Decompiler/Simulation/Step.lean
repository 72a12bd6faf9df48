import Decompiler.Context
import Decompiler.Simulation.Value
import Decompiler.Source.Idiom
import Decompiler.Source.Statement

/-!
# Simulating instructions

One rule for each instruction: what it does to a stack of expressions, and
the actions it performs.  Instructions that only compute leave an expression
behind and perform no action, so an expression stands for its computation
until an action uses it.
-/

namespace Decompiler

/-- What simulating some instructions leads to: the stack they leave and the
actions they perform. -/
abbrev Outcome := Stack × List Action

namespace Literal

/-- The expression of a constant. -/
def expr : Literal → Expr
  | int v => .int v
  | long v => .long v
  | float w => .float w
  | double w => .double w
  | string s => .string s
  | classLiteral name => .classLiteral name

end Literal

namespace Expr

/-- The array with one more of its elements listed, when a store continues
the initialization of a fresh array: the size is a constant, and the index is
the number of elements listed so far. -/
def extended? (array index value : Expr) : Option Expr :=
  match array, index with
  | newArray component (int n), int k =>
    if k.toInt = 0 ∧ k.toInt < n.toInt then
      some (arrayLiteral component (int n) [value])
    else none
  | arrayLiteral component (int n) values, int k =>
    if k.toInt = values.length ∧ k.toInt < n.toInt then
      some (arrayLiteral component (int n) (values ++ [value]))
    else none
  | _, _ => none

end Expr

/-- Drops a value, which is an action if it is a call. -/
def Value.discard (v : Value) : List Action :=
  if v.expr.isCall then [.evaluate v.expr] else []

namespace Context

/-- Calls for a result put it on the stack; calls for nothing are actions. -/
def afterCall (index : Nat) (isVoid : Bool) (call : Expr) (s : Stack) :
    Outcome :=
  if isVoid then (s, [.evaluate call]) else (⟨.made index, call⟩ :: s, [])

/-- A store into an array, or one more element in the list of a fresh one that
is still on the stack. -/
def storeElement (ctx : Context) (index : Nat) (array position value : Value)
    (s : Stack) :
    Outcome :=
  let store : Outcome :=
    (s, [.assignElement array.expr position.expr value.expr])
  if ctx.recover.arrayLiterals && s.holds array.origin then
    match array.expr.extended? position.expr value.expr with
    | some literal => (s.replace array.origin ⟨.made index, literal⟩, [])
    | none => store
  else store

/-- A call on a receiver.  A constructor call completes all copies of the new
object, or is an action when there are none. -/
def callInstance (ctx : Context) (index : Nat) (how : CallKind)
    (receiver : Value) (method : Member) (signature : Signature)
    (args : List Expr) (s : Stack) : Outcome :=
  match method.isConstructor, receiver.expr with
  | true, .uninitialized type =>
    let object := Expr.construct type method.descriptor args
    if s.holds receiver.origin then
      (s.replace receiver.origin ⟨.made index, object⟩, [])
    else (s, [.evaluate object])
  | _, _ =>
    let call := Expr.callInstance how receiver.expr method args
    let joined := if ctx.recover.concatenations then
      call.concatenation? else none
    afterCall index signature.isVoid (joined.getD call) s

/-- Simulates the instruction at `index`. -/
def step (ctx : Context) (index : Nat) (instr : Instr) (s : Stack) :
    Except Fault Outcome :=
  let push (e : Expr) (s : Stack) : Except Fault Outcome :=
    .ok (⟨.made index, e⟩ :: s, [])
  let act (s : Stack) (a : Action) : Except Fault Outcome := .ok (s, [a])
  let keep (s : Stack) : Except Fault Outcome := .ok (s, [])
  match instr with
  | .label _ | .line _ | .frame | .nop => keep s
  | .null => push .null s
  | .constant c => push c.expr s
  | .load kind slot => push (.var (ctx.localAt kind slot index)) s
  | .store kind slot =>
    s.pop index fun v s => act s (.assign (ctx.localAt kind slot index) v.expr)
  | .arrayLoad kind =>
    s.pop index fun i s => s.pop index fun a s =>
      push (.element a.expr i.expr kind) s
  | .arrayStore _ =>
    s.pop index fun v s => s.pop index fun i s => s.pop index fun a s =>
      .ok (ctx.storeElement index a i v s)
  | .pop => s.pop index fun v s => .ok (s, v.discard)
  | .pop2 =>
    s.pop index fun v s =>
      if v.expr.isWide then .ok (s, v.discard)
      else s.pop index fun w s => .ok (s, w.discard ++ v.discard)
  | .dup => s.pop index fun v s => keep (v :: v :: s)
  | .dupX1 =>
    s.pop index fun v s => s.pop index fun w s => keep (v :: w :: v :: s)
  | .dupX2 =>
    s.pop index fun v s => s.pop index fun w s =>
      if w.expr.isWide then keep (v :: w :: v :: s)
      else s.pop index fun x s => keep (v :: w :: x :: v :: s)
  | .dup2 =>
    s.pop index fun v s =>
      if v.expr.isWide then keep (v :: v :: s)
      else s.pop index fun w s => keep (v :: w :: v :: w :: s)
  | .dup2X1 =>
    s.pop index fun v s => s.pop index fun w s =>
      if v.expr.isWide then keep (v :: w :: v :: s)
      else s.pop index fun x s => keep (v :: w :: x :: v :: w :: s)
  | .dup2X2 =>
    s.pop index fun v s => s.pop index fun w s =>
      match v.expr.isWide, w.expr.isWide with
      | true, true => keep (v :: w :: v :: s)
      | true, false => s.pop index fun x s => keep (v :: w :: x :: v :: s)
      | false, _ =>
        s.pop index fun x s =>
          if x.expr.isWide then keep (v :: w :: x :: v :: w :: s)
          else s.pop index fun y s => keep (v :: w :: x :: y :: v :: w :: s)
  | .swap => s.pop index fun v s => s.pop index fun w s => keep (w :: v :: s)
  | .arith op kind =>
    s.pop index fun b s => s.pop index fun a s =>
      push (.binary op kind a.expr b.expr) s
  | .neg kind => s.pop index fun v s => push (.neg kind v.expr) s
  | .increment slot delta =>
    act s (.increment (ctx.localAt .int slot index) delta)
  | .convert _ target =>
    s.pop index fun v s => push (.cast target.descriptor v.expr) s
  | .compare how =>
    s.pop index fun b s => s.pop index fun a s =>
      push (.compare how a.expr b.expr) s
  | .ret none => act s (.ret none)
  | .ret (some _) => s.pop index fun v s => act s (.ret (some v.expr))
  | .throw => s.pop index fun v s => act s (.throw v.expr)
  | .getStatic field => push (.staticField field) s
  | .putStatic field =>
    s.pop index fun v s => act s (.assignStatic field v.expr)
  | .getField field =>
    s.pop index fun o s => push (.instanceField o.expr field) s
  | .putField field =>
    s.pop index fun v s => s.pop index fun o s =>
      act s (.assignField o.expr field v.expr)
  | .call .static method => do
    let signature ← Signature.ofDescriptor method.descriptor
    s.popMany index signature.parameters.length fun args s =>
      .ok (afterCall index signature.isVoid (.callStatic method args) s)
  | .call how method => do
    let signature ← Signature.ofDescriptor method.descriptor
    s.popMany index signature.parameters.length fun args s =>
      s.pop index fun receiver s =>
        .ok (ctx.callInstance index how receiver method signature args s)
  | .callDynamic name descriptor => do
    let signature ← Signature.ofDescriptor descriptor
    s.popMany index signature.parameters.length fun args s =>
      .ok (afterCall index signature.isVoid (.callDynamic name descriptor args) s)
  | .new type => push (.uninitialized type) s
  | .newArray component =>
    s.pop index fun v s => push (.newArray component v.expr) s
  | .arrayLength => s.pop index fun v s => push (.length v.expr) s
  | .checkCast type =>
    s.pop index fun v s => push (.cast (FieldType.ofClass type) v.expr) s
  | .instanceOf type =>
    s.pop index fun v s => push (.instanceOf (FieldType.ofClass type) v.expr) s
  | .newMultiArray descriptor dimensions =>
    s.popMany index dimensions fun sizes s =>
      push (.newMultiArray descriptor sizes) s
  | .ifZero .. | .ifInts .. | .ifReferences .. | .ifNull _ | .ifNonNull _
  | .goto _
  | .tableSwitch .. | .lookupSwitch .. | .monitorEnter | .monitorExit =>
    .error (.unsupported instr.mnemonic index)

/-- Simulates instructions in order. -/
def run (ctx : Context) : List (Nat × Instr) → Stack → Except Fault Outcome
  | [], s => .ok (s, [])
  | (index, instr) :: rest, s => do
    let (s, first) ← ctx.step index instr s
    let (s, others) ← ctx.run rest s
    return (s, first ++ others)

/-- A run may be cut anywhere. -/
theorem run_append (ctx : Context) (xs ys : List (Nat × Instr)) (s : Stack) :
    ctx.run (xs ++ ys) s = do
      let (s, first) ← ctx.run xs s
      let (s, others) ← ctx.run ys s
      return (s, first ++ others) := by
  induction xs generalizing s with
  | nil =>
    cases h : ctx.run ys s with
    | error f => simp [run, h, bind, Except.bind]
    | ok r => simp [run, h, bind, Except.bind, pure, Except.pure]
  | cons x xs ih =>
    obtain ⟨index, instr⟩ := x
    cases h : ctx.step index instr s with
    | error f => simp [run, h, bind, Except.bind]
    | ok r =>
      cases hx : ctx.run xs r.1 with
      | error f => simp [run, h, ih, hx, bind, Except.bind]
      | ok q =>
        cases hy : ctx.run ys q.1 with
        | error f =>
          simp [run, h, ih, hx, hy, bind, Except.bind, pure, Except.pure]
        | ok p =>
          simp [run, h, ih, hx, hy, bind, Except.bind, pure, Except.pure,
            List.append_assoc]

/-- Simulates the instructions of the range `[start, stop)` of the method. -/
def simulate (ctx : Context) (start stop : Nat) (entry : Stack) :
    Except Fault Outcome :=
  ctx.run (ctx.method.slice start stop) entry

end Context

end Decompiler
