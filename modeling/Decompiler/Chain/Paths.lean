import Decompiler.Source.Condition.Basic

/-!
# Paths through a chain of tests

A chain of tests is read as a decision diagram: from each test one edge leads
on when its jump is taken and one when it is not, to another test, to the
guarded body, or past it.  This file collects the paths from the first test
into the body and turns a set of paths into one condition.
-/

namespace Decompiler

/-- Where an edge of a chain leads. -/
inductive Dest
  /-- To the test at a position of the chain. -/
  | test (position : Nat)
  | body
  | exit
deriving Repr, DecidableEq

/-- The two edges of a test. -/
structure Fork where
  taken : Dest
  fallen : Dest
deriving Repr, DecidableEq

/-- One test on a path and how it came out. -/
structure Choice where
  position : Nat
  taken : Bool
deriving Repr, DecidableEq

/-- A run through a chain, test by test. -/
abbrev Path := List Choice

namespace Chain

/-- The paths from the test at `position` into the body, those where its jump
is taken first.  `seen` holds the tests on the way here; coming back to one of
them is an error, which names the test.  There are never more tests on the way
than the chain has, so a fuel of that number is enough. -/
def paths (forks : List Fork) : (fuel : Nat) → (seen : List Nat) →
    (position : Nat) → Except Nat (List Path)
  | 0, _, position => .error position
  | n + 1, seen, position =>
    if seen.contains position then .error position
    else
      let follow (d : Dest) : Except Nat (List Path) :=
        match d with
        | .body => .ok [[]]
        | .exit => .ok []
        | .test next => paths forks n (position :: seen) next
      match forks[position]? with
      | none => .ok []
      | some fork => do
        let taken ← follow fork.taken
        let fallen ← follow fork.fallen
        return taken.map (⟨position, true⟩ :: ·) ++
          fallen.map (⟨position, false⟩ :: ·)

/-- The condition that a test comes out as chosen. -/
def choice (tests : List Condition) (c : Choice) : Condition :=
  let test := tests.getD c.position (.const false)
  if c.taken then test else test.negate

end Chain

namespace Condition

/-- `p ? t : f` for conditions that share a tail with one another, or as a
plain disjunction. -/
def selectShared (p t f : Condition) : Condition :=
  match Junction.any.withoutTail? f t with
  | some x => Junction.any.join (Junction.all.join p.negate x) t
  | none =>
    match Junction.any.withoutTail? t f with
    | some x => Junction.any.join (Junction.all.join p x) f
    | none =>
      match Junction.all.withoutTail? f t with
      | some x => Junction.all.join (Junction.any.join p x) t
      | none =>
        match Junction.all.withoutTail? t f with
        | some x => Junction.all.join (Junction.any.join p.negate x) f
        | none => .any [Junction.all.join p t, Junction.all.join p.negate f]

/-- `p ? t : f` by conjunction and disjunction, with as few tests of `p` and
as little repetition as the two sides allow. -/
def select (p t f : Condition) : Condition :=
  if t.same f then t
  else
    match t, f with
    | .const true, .const false => p
    | .const false, .const true => p.negate
    | .const true, f => Junction.any.join p f
    | t, .const false => Junction.all.join p t
    | .const false, f => Junction.all.join p.negate f
    | t, .const true => Junction.any.join p.negate t
    | t, f => selectShared p t f

/-- The disjunction of paths, each a conjunction of its choices. -/
def plain (tests : List Condition) (ps : List Path) : Condition :=
  .any (ps.map fun p => .all (p.map (Chain.choice tests)))

/-- The condition that some path is the one taken, by telling apart the paths
on the first test that they share.  No path is longer than `fuel`. -/
def ofPaths (tests : List Condition) : (fuel : Nat) → List Path → Condition
  | _, [] => .const false
  | 0, ps => if ps.any (·.isEmpty) then .const true else plain tests ps
  | n + 1, ps =>
    if ps.any (·.isEmpty) then .const true
    else
      match ps.head? >>= List.head? with
      | none => .const true
      | some ⟨position, _⟩ =>
        if ps.any fun p => (p.head?.map (·.position)) != some position then
          plain tests ps
        else
          let tails (taken : Bool) : List Path :=
            (ps.filter fun p => (p.head?.map (·.taken)) == some taken).map
              List.tail
          select (tests.getD position (.const false))
            (ofPaths tests n (tails true)) (ofPaths tests n (tails false))

end Condition

end Decompiler
