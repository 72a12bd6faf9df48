import Decompiler.Proofs.Calls.Code
import Decompiler.Proofs.Switches.Bytecode

/-!
# Executing statements with switches

The calls that decompiled switch code makes.  A switch enters the first case
that lists the value of its local, or else the default; a case that does not
break is followed by the next one.

* `Case.entered`, `Case.onward`: the cases that a value enters, and the code
  that is run from the first of some cases on.
* `Statement.select` is one step of the execution, `Values.executing` the
  behavior.
-/

namespace Decompiler

namespace Case

variable {α : Type}

/-- The code that is run when the first of some cases is entered. -/
def onward : List (Case α) → List α
  | [] => []
  | c :: cs => c.body ++ if c.breaks then [] else onward cs

/-- The cases from the first on that lists a value, or else from the default
on. -/
def entered (value : Int32) (cases : List (Case α)) : List (Case α) :=
  match cases.dropWhile fun c => !c.keys.contains value with
  | [] => cases.dropWhile fun c => !c.isDefault
  | c :: cs => c :: cs

end Case

/-- One step of the execution of statements.  Statements that switch code is
never decompiled to are not executed. -/
def Statement.select (values : Values) : List Statement → Act (List Statement)
  | .action (.evaluate call) :: rest =>
    match call.plainCall? with
    | some f => .calls f rest
    | none => .halts
  | .switch (.var v) none cases :: rest =>
    .moves (Case.onward (Case.entered (values v.slot) cases) ++ rest)
  | _ => .halts

/-- The calls that some statements make. -/
def Values.executing (values : Values) (stmts : List Statement) : Behavior :=
  Makes (Statement.select values) stmts

namespace Values

variable {values : Values} {rest : List Statement}

@[simp] theorem executing_nil : values.executing [] = .halt :=
  makes_of_halts rfl

@[simp] theorem executing_ret {value : Option Expr} :
    values.executing (.action (.ret value) :: rest) = .halt :=
  makes_of_halts rfl

theorem executing_calls (fs : List Member) :
    values.executing (fs.map (fun f => .action (.ofCall f)) ++ rest) =
      .callAll fs (values.executing rest) := by
  induction fs with
  | nil => rfl
  | cons f fs ih =>
    rw [Behavior.callAll_cons, ← ih]
    exact makes_of_calls rfl

theorem executing_switch {v : Local} {cases : List (Case Statement)} :
    values.executing (.switch (.var v) none cases :: rest) =
      values.executing (Case.onward (Case.entered (values v.slot) cases) ++
          rest) :=
  makes_of_moves rfl

end Values

end Decompiler
