import Decompiler.Source.Expr.Basic

/-!
# Conditions

Boolean expressions that guard branches and loops.  A condition is a test, a
constant, or a junction: a conjunction or disjunction of any number of
conditions.  This file holds the type, negation, equality, and the operations
on junctions.
-/

namespace Decompiler

/-- A condition. -/
inductive Condition
  /-- A truth value, possibly negated. -/
  | test (value : Expr) (negated : Bool)
  | compare (lhs : Expr) (op : Comparison) (rhs : Expr)
  /-- All members hold. -/
  | all (members : List Condition)
  /-- Some member holds. -/
  | any (members : List Condition)
  | const (value : Bool)
deriving Repr

namespace Condition

mutual

/-- Negation, pushed down to the tests. -/
def negate : Condition → Condition
  | test value negated => test value !negated
  | compare lhs op rhs => compare lhs op.negate rhs
  | all cs => any (negateAll cs)
  | any cs => all (negateAll cs)
  | const b => const !b

/-- The negations of a list of conditions. -/
def negateAll : List Condition → List Condition
  | [] => []
  | c :: cs => c.negate :: negateAll cs

end

mutual

/-- Whether two conditions are built alike from equal expressions. -/
def same : Condition → Condition → Bool
  | test a m, test b n => a.same b && m == n
  | compare a o b, compare c p d => a.same c && o == p && b.same d
  | all as, all bs => sameAll as bs
  | any as, any bs => sameAll as bs
  | const a, const b => a == b
  | _, _ => false

/-- Whether two lists of conditions are the same member by member. -/
def sameAll : List Condition → List Condition → Bool
  | [], [] => true
  | a :: as, b :: bs => a.same b && sameAll as bs
  | _, _ => false

end

/-- Whether a condition is a given constant. -/
def isConst (value : Bool) : Condition → Bool
  | const b => b == value
  | _ => false

mutual

/-- Whether a condition reads a local variable. -/
def mentions (v : Local) : Condition → Bool
  | test e _ => e.mentions v
  | compare a _ b => a.mentions v || b.mentions v
  | all cs | any cs => mentionedIn v cs
  | const _ => false

/-- Whether some member of a list reads a local variable. -/
def mentionedIn (v : Local) : List Condition → Bool
  | [] => false
  | c :: cs => c.mentions v || mentionedIn v cs

end

end Condition

/-- The two ways to join conditions. -/
inductive Junction
  | all
  | any
deriving Repr, DecidableEq

namespace Junction

/-- The constant that a junction ignores among its members, which is also what
the junction of nothing is. -/
def neutral : Junction → Bool
  | all => true
  | any => false

/-- The junction of some conditions; a single one stands for itself. -/
def of : Junction → List Condition → Condition
  | _, [c] => c
  | all, cs => .all cs
  | any, cs => .any cs

/-- The members of a condition that is such a junction; every other condition
is its own only member. -/
def members : Junction → Condition → List Condition
  | all, .all cs => cs
  | any, .any cs => cs
  | _, c => [c]

/-- The junction of two conditions without nesting it. -/
def join (j : Junction) (a b : Condition) : Condition :=
  j.of (j.members a ++ j.members b)

/-- What is left of a condition when the members of `tail` are taken off its
end, if it ends in them and has more. -/
def withoutTail? (j : Junction) (c tail : Condition) : Option Condition :=
  let cs := j.members c
  let ts := j.members tail
  let kept := cs.length - ts.length
  if ts.length < cs.length && Condition.sameAll (cs.drop kept) ts then
    some (j.of (cs.take kept))
  else none

end Junction

end Decompiler
