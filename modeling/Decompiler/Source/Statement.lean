import Decompiler.Source.Condition.Basic

/-!
# Statements

Decompiled code.  An action is a statement without parts; the other
statements hold bodies, which are lists of statements.  The shapes of an
alternative and of a switch case do not depend on what their bodies are made
of.
-/

namespace Decompiler

/-- A statement without parts. -/
inductive Action
  | assign (target : Local) (value : Expr)
  | assignStatic (field : Member) (value : Expr)
  | assignField (object : Expr) (field : Member) (value : Expr)
  | assignElement (array index value : Expr)
  /-- A call or construction for its effect alone. -/
  | evaluate (call : Expr)
  | increment (target : Local) (delta : Int32)
  | ret (value : Option Expr)
  | throw (value : Expr)
deriving Repr

/-- What is done when the condition of an `if` fails. -/
inductive Alternative (α : Type)
  | none
  | orIf (cond : Condition) (body : List α) (rest : Alternative α)
  | otherwise (body : List α)
deriving Repr

/-- A case of a switch.  A case that does not break leaves the method or runs
into the next case. -/
structure Case (α : Type) where
  keys : List Int32
  isDefault : Bool
  breaks : Bool
  body : List α
deriving Repr

/-- The code that handles exceptions of a type, or all exceptions. -/
structure Catch (α : Type) where
  type : Option String
  /-- The variable that holds the exception. -/
  binding : Option Local
  body : List α
deriving Repr

/-- A statement. -/
inductive Statement
  | action (action : Action)
  | ifElse (cond : Condition) (body : List Statement)
      (rest : Alternative Statement)
  | whileLoop (cond : Condition) (body : List Statement)
  | doLoop (body : List Statement) (cond : Condition)
  | forLoop (init : Action) (cond : Condition) (update : Option Action)
      (body : List Statement)
  /-- The enum is named when the selector stands for one of its values. -/
  | switch (selector : Expr) (enum : Option String)
      (cases : List (Case Statement))
  | tryCatch (body : List Statement) (catches : List (Catch Statement))
deriving Repr

/-- Whether an action gives a variable a value computed from its own. -/
def Action.updates (v : Local) : Action → Bool
  | increment w _ => w == v
  | assign w value => w == v && value.mentions v
  | _ => false

end Decompiler
