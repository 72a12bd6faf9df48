import Decompiler.Chain.Test

/-!
# The order of tests

A guard is short-circuit code: it asks its tests from left to right and stops
as soon as it is decided.  Control that walks a chain of tests asks them in an
order of its own.  This file tells whether a condition asks exactly the tests
that the walk meets, each when the walk meets it.
-/

namespace Decompiler

namespace Condition

mutual

/-- Whether a condition asks some test whatever the outcomes are. -/
def starts : Condition → Bool
  | test .. | compare .. => true
  | all cs | any cs => startsAny cs
  | const _ => false

/-- Whether the first of some conditions asks a test. -/
def startsAny : List Condition → Bool
  | [] => false
  | c :: _ => c.starts

end

end Condition

namespace Graph

/-- Whether a condition is the test that control meets at the block `id`. -/
def asksAt (g : Graph) (ctx : Context) (chain : List Nat) (c : Condition)
    (yes no : Nat → Bool) (id : Nat) : Bool :=
  match chain.contains id, g.test ctx id, (g.exit id).target?,
    (g.exit id).otherwise? with
  | true, .ok test, some taken, some fallen =>
    if c.same test then yes taken && no fallen
    else c.same test.negate && yes fallen && no taken
  | _, _, _, _ => false

mutual

/-- Whether a condition asks what control meets on its walk from the block
`id` through a chain of tests.  Where the walk has led when the condition is
decided, `yes` must accept if it holds and `no` if it fails. -/
def asksAlong (g : Graph) (ctx : Context) (chain : List Nat) :
    Condition → (yes no : Nat → Bool) → (id : Nat) → Bool
  | .const b, yes, no, id => if b then yes id else no id
  | .all cs, yes, no, id => g.asksAllAlong ctx chain cs yes no id
  | .any cs, yes, no, id => g.asksAnyAlong ctx chain cs yes no id
  | c, yes, no, id => g.asksAt ctx chain c yes no id

/-- Whether the conjunction of some conditions asks what control meets. -/
def asksAllAlong (g : Graph) (ctx : Context) (chain : List Nat) :
    List Condition → (yes no : Nat → Bool) → (id : Nat) → Bool
  | [], yes, _, id => yes id
  | c :: cs, yes, no, id =>
    g.asksAlong ctx chain c (g.asksAllAlong ctx chain cs yes no) no id

/-- Whether the disjunction of some conditions asks what control meets. -/
def asksAnyAlong (g : Graph) (ctx : Context) (chain : List Nat) :
    List Condition → (yes no : Nat → Bool) → (id : Nat) → Bool
  | [], _, no, id => no id
  | c :: cs, yes, no, id =>
    g.asksAlong ctx chain c yes (g.asksAnyAlong ctx chain cs yes no) id

end

/-- Whether a guard asks the tests of its chain as control meets them. -/
def keepsOrder (g : Graph) (ctx : Context) (chain : List Nat) (body : Nat)
    (after : Option Nat) (c : Condition) : Bool :=
  c.starts && g.asksAlong ctx chain c (· == body)
    (fun t => t != body && after == some t) (chain.headD 0)

end Graph

end Decompiler
