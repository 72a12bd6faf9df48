import Decompiler.Proofs.Chain.Order
import Decompiler.Proofs.Calls.Behavior
import Decompiler.Source.Statement

/-!
# Executing statements

The calls that decompiled code makes.  Statements are executed one after the
other; a condition asks its tests from left to right and stops as soon as it
is decided.  Statements that the code of calls, tests and returns is never
decompiled to are not executed.

* `Code.act` is one step of the execution.
* `Condition.asking` is what deciding a condition makes of the behaviors after
  it, and `makes_test` says that executing the condition does the same.
* `agree_whileLoop`, `agree_forever`: a loop agrees with whatever runs its body
  and comes back.
-/

namespace Decompiler

/-- The method that a static call without arguments calls. -/
def Expr.plainCall? : Expr → Option Member
  | callStatic f [] => some f
  | _ => none

/-- What is done when the condition of an `if` fails, as statements. -/
def Alternative.statements : Alternative Statement → List Statement
  | .none => []
  | .orIf cond body rest => [.ifElse cond body rest]
  | .otherwise body => body

/-- Code that is being executed. -/
inductive Code
  | run (stmts : List Statement)
  /-- Decides a condition first. -/
  | test (cond : Condition) (yes no : Code)

namespace Code

/-- One step of execution. -/
def act : Code → Act Code
  | run (.action (.evaluate call) :: rest) =>
    match call.plainCall? with
    | some f => .calls f (run rest)
    | none => .halts
  | run (.ifElse cond body alternative :: rest) =>
    .moves (test cond (run (body ++ rest)) (run (alternative.statements ++ rest)))
  | run (.whileLoop cond body :: rest) =>
    .moves (test cond (run (body ++ .whileLoop cond body :: rest)) (run rest))
  | run (.doLoop body cond :: rest) =>
    .moves (run (body ++ .whileLoop cond body :: rest))
  | run (.forLoop init cond update body :: rest) =>
    .moves (run (.action init ::
      .whileLoop cond (body ++ update.toList.map .action) :: rest))
  | run _ => .halts
  | test (.test value negated) yes no =>
    match value.plainCall? with
    | some f => .asks f fun answer => if answer != negated then yes else no
    | none => .halts
  | test (.const b) yes no => .moves (if b then yes else no)
  | test (.all []) yes _ => .moves yes
  | test (.all (c :: cs)) yes no => .moves (test c (test (.all cs) yes no) no)
  | test (.any []) _ no => .moves no
  | test (.any (c :: cs)) yes no => .moves (test c yes (test (.any cs) yes no))
  | test (.compare ..) _ _ => .halts

end Code

/-- The calls that some statements make. -/
def executing (stmts : List Statement) : Behavior := Makes Code.act (.run stmts)

namespace Condition

mutual

/-- Decides a condition before one of two behaviors. -/
def asking : Condition → (yes no : Behavior) → Behavior
  | .test value negated, yes, no =>
    match value.plainCall? with
    | some f => .ask f fun answer => if answer != negated then yes else no
    | none => .halt
  | .compare .., _, _ => .halt
  | .all cs, yes, no => askingAll cs yes no
  | .any cs, yes, no => askingAny cs yes no
  | .const b, yes, no => if b then yes else no

/-- Decides a conjunction before one of two behaviors. -/
def askingAll : List Condition → (yes no : Behavior) → Behavior
  | [], yes, _ => yes
  | c :: cs, yes, no => c.asking (askingAll cs yes no) no

/-- Decides a disjunction before one of two behaviors. -/
def askingAny : List Condition → (yes no : Behavior) → Behavior
  | [], _, no => no
  | c :: cs, yes, no => c.asking yes (askingAny cs yes no)

end

mutual

/-- A test makes the calls of its condition and then those of one side. -/
theorem makes_test (yes no : Code) :
    (c : Condition) → Makes Code.act (.test c yes no) =
      c.asking (Makes Code.act yes) (Makes Code.act no)
  | .test value negated => by
    cases h : value.plainCall? with
    | none =>
      have hstep : Code.act (.test (.test value negated) yes no) = .halts := by
        simp [Code.act, h]
      simp only [makes_of_halts hstep, asking, h]
    | some f =>
      have hstep : Code.act (.test (.test value negated) yes no) =
          .asks f fun answer => if answer != negated then yes else no := by
        simp [Code.act, h]
      simp only [makes_of_asks hstep, asking, h, apply_ite (Makes Code.act)]
  | .compare .. => makes_of_halts rfl
  | .all cs => by
    rw [asking]
    exact makes_test_all yes no cs
  | .any cs => by
    rw [asking]
    exact makes_test_any yes no cs
  | .const b => by
    have hstep : Code.act (.test (.const b) yes no) = .moves
        (if b then yes else no) := rfl
    simp only [makes_of_moves hstep, asking, apply_ite (Makes Code.act)]

theorem makes_test_all (yes no : Code) :
    (cs : List Condition) → Makes Code.act (.test (.all cs) yes no) =
      askingAll cs (Makes Code.act yes) (Makes Code.act no)
  | [] => makes_of_moves rfl
  | c :: cs => by
    have hstep : Code.act (.test (.all (c :: cs)) yes no) =
        .moves (.test c (.test (.all cs) yes no) no) := rfl
    rw [makes_of_moves hstep, makes_test _ _ c, makes_test_all yes no cs,
      askingAll]

theorem makes_test_any (yes no : Code) :
    (cs : List Condition) → Makes Code.act (.test (.any cs) yes no) =
      askingAny cs (Makes Code.act yes) (Makes Code.act no)
  | [] => makes_of_moves rfl
  | c :: cs => by
    have hstep : Code.act (.test (.any (c :: cs)) yes no) =
        .moves (.test c yes (.test (.any cs) yes no)) := rfl
    rw [makes_of_moves hstep, makes_test _ _ c, makes_test_any yes no cs,
      askingAny]

end

mutual

/-- Deciding a condition keeps the agreement of what comes after it. -/
theorem agree_asking {n : Nat} {yes yes' no no' : Behavior}
    (hyes : yes.Agree n yes') (hno : no.Agree n no') : (c : Condition) →
      (c.asking yes no).Agree n (c.asking yes' no')
  | .test value negated => by
    unfold asking
    split
    · refine (Behavior.Agree.ask _ fun answer => ?_).mono (Nat.le_succ n)
      split
      · exact hyes
      · exact hno
    · exact .refl n _
  | .compare .. => .refl n _
  | .all cs => agree_askingAll hyes hno cs
  | .any cs => agree_askingAny hyes hno cs
  | .const b => by
    cases b
    · exact hno
    · exact hyes

theorem agree_askingAll {n : Nat} {yes yes' no no' : Behavior}
    (hyes : yes.Agree n yes') (hno : no.Agree n no') :
    (cs : List Condition) →
    (askingAll cs yes no).Agree n (askingAll cs yes' no')
  | [] => hyes
  | c :: cs => agree_asking (agree_askingAll hyes hno cs) hno c

theorem agree_askingAny {n : Nat} {yes yes' no no' : Behavior}
    (hyes : yes.Agree n yes') (hno : no.Agree n no') :
    (cs : List Condition) →
    (askingAny cs yes no).Agree n (askingAny cs yes' no')
  | [] => hno
  | c :: cs => agree_asking hyes (agree_askingAny hyes hno cs) c

end

mutual

/-- A condition that starts with a test makes behaviors agree on one call
more. -/
theorem agree_asking_succ {n : Nat} {yes yes' no no' : Behavior}
    (hyes : yes.Agree n yes') (hno : no.Agree n no') : (c : Condition) →
      c.starts = true → (c.asking yes no).Agree (n + 1) (c.asking yes' no')
  | .test value negated, _ => by
    unfold asking
    split
    · refine Behavior.Agree.ask _ fun answer => ?_
      split
      · exact hyes
      · exact hno
    · exact .refl _ _
  | .compare .., _ => .refl _ _
  | .all cs, h => agree_askingAll_succ hyes hno cs h
  | .any cs, h => agree_askingAny_succ hyes hno cs h

/-- Asking a conjunction that starts with a call lets behaviors agree for one
call more. -/
theorem agree_askingAll_succ {n : Nat} {yes yes' no no' : Behavior}
    (hyes : yes.Agree n yes') (hno : no.Agree n no') : (cs : List Condition) →
      startsAny cs = true →
        (askingAll cs yes no).Agree (n + 1) (askingAll cs yes' no')
  | c :: cs, h => agree_asking_succ (agree_askingAll hyes hno cs) hno c h

/-- Asking a disjunction that starts with a call lets behaviors agree for one
call more. -/
theorem agree_askingAny_succ {n : Nat} {yes yes' no no' : Behavior}
    (hyes : yes.Agree n yes') (hno : no.Agree n no') : (cs : List Condition) →
      startsAny cs = true →
        (askingAny cs yes no).Agree (n + 1) (askingAny cs yes' no')
  | c :: cs, h => agree_asking_succ hyes (agree_askingAny hyes hno cs) c h

end

end Condition

section Executing

variable {f : Member} {cond : Condition} {body rest : List Statement}

/-- Without statements no calls are made. -/
@[simp] theorem executing_nil : executing [] = .halt := makes_of_halts rfl

/-- A call for its effect is made, and the statements go on. -/
@[simp] theorem executing_call :
    executing (.action (.evaluate (.callStatic f [])) :: rest) = .call f
      (executing rest) :=
  makes_of_calls rfl

/-- A return ends the calls. -/
@[simp] theorem executing_ret {value : Option Expr} :
    executing (.action (.ret value) :: rest) = .halt :=
  makes_of_halts rfl

/-- A conditional asks its condition and goes on with one of the branches. -/
theorem executing_ifElse {alternative : Alternative Statement} :
    executing (.ifElse cond body alternative :: rest) =
      cond.asking (executing (body ++ rest))
        (executing (alternative.statements ++ rest)) := by
  have hstep : Code.act (.run (.ifElse cond body alternative :: rest)) =
      .moves (.test cond (.run (body ++ rest)) (.run (alternative.statements ++ rest))) := rfl
  rw [executing, makes_of_moves hstep, Condition.makes_test, executing,
    executing]

/-- A loop asks its condition before each turn. -/
theorem executing_whileLoop :
    executing (.whileLoop cond body :: rest) =
      cond.asking (executing (body ++ .whileLoop cond body :: rest))
        (executing rest) := by
  have hstep : Code.act (.run (.whileLoop cond body :: rest)) =
      .moves (.test cond (.run (body ++ .whileLoop cond body :: rest)) (.run rest)) := rfl
  rw [executing, makes_of_moves hstep, Condition.makes_test, executing,
    executing]

/-- A loop with its test at the bottom runs its body first. -/
theorem executing_doLoop :
    executing (.doLoop body cond :: rest) = executing
      (body ++ .whileLoop cond body :: rest) :=
  makes_of_moves rfl

/-- **Loops.**  A loop agrees with a behavior that asks the loop's condition
and then either leaves or runs the body and starts over.  Each round asks a
test, so what comes after the loop is compared on one call less. -/
theorem agree_whileLoop {n : Nat} {head yes no : Behavior}
    (hhead : head = cond.asking yes no) (hstarts : cond.starts = true)
    (hbody : ∀ k ≤ n, head.Agree k (executing (.whileLoop cond body :: rest)) →
      yes.Agree k (executing (body ++ .whileLoop cond body :: rest)))
    (hrest : no.Agree n (executing rest)) :
    head.Agree (n + 1) (executing (.whileLoop cond body :: rest)) := by
  have rounds :
      ∀ k ≤ n + 1, head.Agree k (executing (.whileLoop cond body :: rest)) := by
    intro k
    induction k with
    | zero => exact fun _ => .zero _ _
    | succ k ih =>
      intro hk
      have hyes := hbody k (by omega) (ih (by omega))
      have hno := hrest.mono (show k ≤ n by omega)
      have hasked := Condition.agree_asking_succ hyes hno cond hstarts
      rwa [← hhead, ← executing_whileLoop] at hasked
  exact rounds (n + 1) (Nat.le_refl _)

/-- A loop without a test agrees with a behavior that runs the loop's body,
makes a call in it, and starts over. -/
theorem agree_forever {head : Behavior}
    (hbody : ∀ k,
      head.Agree k (executing (.whileLoop (.const true) body :: rest)) →
      head.Agree (k + 1)
        (executing (body ++ .whileLoop (.const true) body :: rest))) (n : Nat) :
    head.Agree n (executing (.whileLoop (.const true) body :: rest)) := by
  induction n with
  | zero => exact .zero _ _
  | succ n ih =>
    rw [executing_whileLoop]
    exact hbody n ih

end Executing

end Decompiler
