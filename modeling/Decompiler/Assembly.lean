import Decompiler.Graph.Block
import Decompiler.Simulation.Step

/-!
# From sections to statements

Each block of straight-line code is simulated and gives its actions; the
structure around it is kept.  Three shapes are recognized on the way:

* a loop that tests the variable set right before it is a `for` loop;
* a switch on the ordinal of an enum value is a switch on the value;
* a handler that starts by storing the exception binds a variable to it.
-/

namespace Decompiler

/-- The statements before a loop with the loop as a `for` loop after them, if
the last of them sets a variable that the loop tests.  The last action of the
body becomes the update if it changes this variable. -/
def Statement.forLoop? (before : List Statement) (cond : Condition)
    (body : List Statement) : Option (List Statement) :=
  match before.getLast? with
  | some (.action (.assign v value)) =>
    if cond.mentions v then
      let loop :=
        match body.getLast? with
        | some (.action a) =>
          if a.updates v then
            .forLoop (.assign v value) cond (some a) body.dropLast
          else .forLoop (.assign v value) cond none body
        | _ => .forLoop (.assign v value) cond none body
      some (before.dropLast ++ [loop])
    else none
  | _ => none

/-- A handler whose code is known.  A store of the exception at its start
names the variable. -/
def Catch.ofBody (type : Option String) : List Statement → Catch Statement
  | .action (.assign v (.caught _)) :: body => ⟨type, some v, body⟩
  | body => ⟨type, none, body⟩

namespace Graph

/-- The stack that a block starts with: empty, or the caught exception. -/
def entryStack (g : Graph) (id : Nat) : Stack :=
  match (g.block id).entry with
  | .plain => []
  | .handler type => [⟨.entry 0, .caught type⟩]

/-- Simulates a block. -/
def simulate (g : Graph) (ctx : Context) (id : Nat) : Except Fault Outcome :=
  ctx.simulate (g.block id).start (g.block id).stop (g.entryStack id)

/-- The actions of a block of straight-line code. -/
def actions (g : Graph) (ctx : Context) (id : Nat) :
    Except Fault (List Statement) := do
  if (g.exit id).isBranch || (g.exit id).isSwitch then
    throw (.unresolvedConditional (g.block id).breakPoint)
  let (_, actions) ← g.simulate ctx id
  return actions.map .action

/-- The actions before a switch, the value it selects by, and the enum that
the value belongs to. -/
def selector (g : Graph) (ctx : Context) (id : Nat) :
    Except Fault (List Statement × Expr × Option String) := do
  match ← g.simulate ctx id with
  | ([], _) => throw (.missingSelector (g.block id).breakPoint)
  | (value :: _, actions) =>
    let stmts := actions.map Statement.action
    match if ctx.recover.enumSwitches then value.expr.enumSelector?
      else none with
    | some (e, enum) => return (stmts, e, some enum)
    | none => return (stmts, value.expr, none)

mutual

/-- The statements of a section after those that come before it. -/
def statement (g : Graph) (ctx : Context) (before : List Statement) :
    Section → Except Fault (List Statement)
  | .inline id => do return before ++ (← g.actions ctx id)
  | .ifElse cond body rest => do
    let body ← g.statements ctx [] body
    let rest ← g.alternatives ctx rest
    return before ++ [.ifElse cond body rest]
  | .whileLoop cond body => do
    let body ← g.statements ctx [] body
    match if ctx.recover.forLoops then Statement.forLoop? before cond body
      else none with
    | some stmts => return stmts
    | none => return before ++ [.whileLoop cond body]
  | .doLoop body cond => do
    let body ← g.statements ctx [] body
    return before ++ [.doLoop body cond]
  | .switch id cases => do
    let (stmts, value, enum) ← g.selector ctx id
    let cases ← g.cases ctx cases
    return before ++ stmts ++ [.switch value enum cases]
  | .tryCatch body handlers => do
    let body ← g.statements ctx [] body
    let catches ← g.catches ctx handlers
    return before ++ [.tryCatch body catches]

/-- The statements of some sections after those that come before them. -/
def statements (g : Graph) (ctx : Context) (before : List Statement) :
    List Section → Except Fault (List Statement)
  | [] => .ok before
  | s :: ss => do
    let before ← g.statement ctx before s
    g.statements ctx before ss

/-- The statements of what comes instead of a body. -/
def alternatives (g : Graph) (ctx : Context) :
    Alternative Section → Except Fault (Alternative Statement)
  | .none => .ok .none
  | .orIf cond body rest => do
    let body ← g.statements ctx [] body
    let rest ← g.alternatives ctx rest
    return .orIf cond body rest
  | .otherwise body => do return .otherwise (← g.statements ctx [] body)

/-- The statements of the cases of a switch. -/
def cases (g : Graph) (ctx : Context) :
    List (Case Section) → Except Fault (List (Case Statement))
  | [] => .ok []
  | ⟨keys, isDefault, breaks, body⟩ :: cs => do
    let body ← g.statements ctx [] body
    let cs ← g.cases ctx cs
    return ⟨keys, isDefault, breaks, body⟩ :: cs

/-- The statements of the handlers of a try statement. -/
def catches (g : Graph) (ctx : Context) :
    List (Handler Section) → Except Fault (List (Catch Statement))
  | [] => .ok []
  | ⟨type, _, body⟩ :: hs => do
    let body ← g.statements ctx [] body
    let cs ← g.catches ctx hs
    return Catch.ofBody type body :: cs

end

end Graph

end Decompiler
