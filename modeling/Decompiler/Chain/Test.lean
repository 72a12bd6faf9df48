import Decompiler.Graph.Block
import Decompiler.Simulation.Step

/-!
# The test of a block

A block that ends in a conditional jump and does nothing but compute the
jump's operands is one test.  Its condition says when the jump is taken.
-/

namespace Decompiler

/-- The condition of comparing a value with zero.  A three-way comparison is
read as the comparison of its operands, and a value that is not known to be an
integer as a truth value. -/
def Condition.ofZeroTest (op : Comparison) (value : Expr) : Condition :=
  match value with
  | .compare _ lhs rhs => .compare lhs op rhs
  | value =>
    if (op == .eq || op == .ne) && !value.isIntegral then
      .test value (op == .eq)
    else .compare value op (.int 0)

/-- The condition under which a jump is taken that finds the given operands on
the stack, bottom first. -/
def Instr.jumpCondition (i : Instr) (operands : List Expr) :
    Except TestObstacle Condition :=
  match i, operands with
  | .ifZero op _, [value] => .ok (.ofZeroTest op value)
  | .ifInts op _, [lhs, rhs] | .ifReferences op _, [lhs, rhs] =>
    .ok (.compare lhs op rhs)
  | .ifNull _, [value] => .ok (.compare value .eq .null)
  | .ifNonNull _, [value] => .ok (.compare value .ne .null)
  | i, _ =>
    if i.control = .branch then .error .operandCount else .error .notConditional

/-- The condition under which the jump at the end of a block is taken. -/
def Graph.test (g : Graph) (ctx : Context) (id : Nat) :
    Except Fault Condition := do
  let b := g.block id
  let (stack, actions) ← ctx.simulate b.start b.stop []
  if !actions.isEmpty then throw (.testShape b.breakPoint .statementsFirst)
  match (ctx.method.instr b.breakPoint).jumpCondition stack.exprs with
  | .ok c => return c
  | .error obstacle => throw (.testShape b.breakPoint obstacle)

end Decompiler
