import Decompiler.Region.Step

/-!
# Loops

A loop is a region with an edge back to its head, or one that is entered by a
jump to the test at its bottom.  Each kind of loop is told by where its test
stands; how the blocks of its body are structured is left to a parameter.
-/

namespace Decompiler

/-- Structures a run of blocks after which control goes on at a block. -/
abbrev Structurer := List Nat → Option Nat → Partition (List Section)

namespace Partition

/-- A loop with its test at the top and the jump `closing` at its bottom.
There is none if the edges of the first blocks do not form a test. -/
def headTested? (ctx : Context) (inner : Structurer) (region : List Nat)
    (closing : Nat) (after : Option Nat) : Partition (Option Section) := do
  match ← headTests? region with
  | none => return none
  | some k =>
    let cond ← guard ctx (← slice region 0 k) (← member region k) after
    let body ← inner (← slice region k (region.length - 1)) (some closing)
    return some (.whileLoop cond body)

/-- A loop with its test at the bottom. -/
def tailTested (ctx : Context) (inner : Structurer) (first last : Nat)
    (region : List Nat) (after : Option Nat) : Partition Section := do
  let start ← tailTestStart first region
  match ← slice region start region.length with
  | [] => irreducible last
  | test :: tests =>
    let cond ← guard ctx (test :: tests) first after
    let body ← inner (← slice region 0 start) (some test)
    return .doLoop body cond

/-- A loop whose head has edges back to it from later blocks, the last of them
`last`.  A loop closed by a jump back runs its test first; without a test it
never ends by itself. -/
def loop (ctx : Context) (inner : Structurer) (first : Nat) (rest : List Nat)
    (after : Option Nat) : Partition Section := do
  let region := first :: rest
  let last := rest.getLastD first
  if (← exit last).jump? = some first then
    let body ← slice region 1 (region.length - 1)
    change region fun g => body.foldl (fun g id => g.continueAt first last id) g
    let found ←
      if (← exit first).isBranch then
        headTested? ctx inner region last after
      else pure none
    match found with
    | some s => return s
    | none =>
      let body ← inner (← slice region 0 (region.length - 1)) (some last)
      return .whileLoop (.const true) body
  else tailTested ctx inner first last region after

/-- A loop that is entered by a jump to the test at its bottom. -/
def jumpEntered (ctx : Context) (inner : Structurer) (first : Nat)
    (rest : List Nat) (after : Option Nat) : Partition Section := do
  let g ← graph (first :: rest)
  match (g.exit first).target?, rest with
  | some target, body :: _ =>
    let chain ← slice rest (rest.idxOf target) rest.length
    match chain, chain.find? fun id => !(g.exit id).isBranch with
    | [], _ => irreducible first
    | _, some id => irreducible id
    | test :: _, none =>
      let cond ← guard ctx chain body after
      let stmts ← inner (← slice rest 0 (rest.idxOf target)) (some test)
      return .whileLoop cond stmts
  | _, _ => irreducible first

end Partition

end Decompiler
