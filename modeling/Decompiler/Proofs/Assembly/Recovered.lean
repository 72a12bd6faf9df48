import Decompiler.Decompile
import Decompiler.Proofs.Region.Told

/-!
# Sections do not depend on the recovery of `for` loops

What a block computes, what a guard asks and how a graph is taken apart are
settled before statements are made.  They read the recoveries in two places
only: a simulated instruction asks for concatenations and array initializers,
and the work at its start asks for exception ranges.  So two contexts that
differ in the recovery of `for` loops give the same sections and the same graph.

* `Context.withForLoops`: a context with this recovery switched on or off.
* `Partition.Matches`: ways to take a graph apart of which the same comes.
* `Graph.partition_withForLoops`: the sections are the same.
* `Graph.actions_withForLoops`, `Graph.selector_withForLoops`: what is read off
  a single block is the same.
-/

namespace Decompiler

/-- A context with the recovery of `for` loops switched on or off. -/
def Context.withForLoops (ctx : Context) (on : Bool) : Context :=
  { ctx with recover := { ctx.recover with forLoops := on } }

variable (ctx : Context) (on : Bool) (g : Graph)

@[simp] theorem Context.method_withForLoops :
    (ctx.withForLoops on).method = ctx.method := rfl

@[simp] theorem Context.step_withForLoops :
    (ctx.withForLoops on).step = ctx.step := rfl

@[simp] theorem Context.run_withForLoops (xs : List (Nat × Instr)) (s : Stack) :
    (ctx.withForLoops on).run xs s = ctx.run xs s := by
  induction xs generalizing s with
  | nil => rfl
  | cons x xs ih => simp only [Context.run, Context.step_withForLoops, ih]

/-- Code is simulated alike, whether loops with a counter are recovered or
not. -/
@[simp] theorem Context.simulate_withForLoops (start stop : Nat) (s : Stack) :
    (ctx.withForLoops on).simulate start stop s = ctx.simulate start stop s :=
  Context.run_withForLoops ctx on _ s

namespace Graph

/-- The test of a block does not depend on the recovery of loops with a
counter. -/
@[simp] theorem test_withForLoops :
    g.test (ctx.withForLoops on) = g.test ctx := by
  funext id
  simp only [Graph.test, Context.simulate_withForLoops,
    Context.method_withForLoops]

/-- The guard of a chain does not depend on it either. -/
@[simp] theorem guard_withForLoops :
    g.guard (ctx.withForLoops on) = g.guard ctx := by
  funext chain body after
  simp only [Graph.guard, test_withForLoops]

end Graph

namespace Partition

/-! ### Ways that come to the same -/

variable {α β : Type}

/-- Two ways to take a graph apart of which the same comes. -/
def Matches (x y : Partition α) : Prop := x.run = y.run

namespace Matches

variable {x y : Partition α} {f f' : α → Partition β}

theorem refl (x : Partition α) : Matches x x := rfl

/-- Two steps one after the other match if each does. -/
theorem bind (hx : Matches x y) (hf : ∀ a, Matches (f a) (f' a)) :
    Matches (x >>= f) (y >>= f') := by
  funext w
  rw [run_bind, run_bind, hx]
  exact congrArg (y.run w >>= ·) (funext fun r => congrFun (hf r.1) r.2)

/-- What comes after the same step matches. -/
theorem next (hf : ∀ a, Matches (f a) (f' a)) :
    Matches (x >>= f) (x >>= f') := (refl x).bind hf

/-- Both ways of a choice match. -/
theorem ite {c : Prop} [Decidable c] {x' y' : Partition α} (h : Matches x y)
    (h' : Matches x' y') :
    Matches (if c then x else x') (if c then y else y') := by
  split
  · exact h
  · exact h'

end Matches

/-- Two ways to structure runs of blocks of which the same comes. -/
def StructurersMatch (inner inner' : Structurer) : Prop :=
  ∀ list after, Matches (inner list after) (inner' list after)

/-- Two ways to structure regions of which the same comes. -/
def RegionsMatch (nested nested' : RegionStructurer) : Prop :=
  ∀ isLoop list after, Matches (nested isLoop list after)
    (nested' isLoop list after)

variable {inner inner' : Structurer} {nested nested' : RegionStructurer}

/-- Guards match. -/
theorem matches_guard (chain : List Nat) (body : Nat) (after : Option Nat) :
    Matches (guard (ctx.withForLoops on) chain body after)
      (guard ctx chain body after) := by
  funext w
  rw [run_guard, run_guard, Graph.guard_withForLoops]

/-- Loops with their test at the top match. -/
theorem matches_headTested? (h : StructurersMatch inner' inner)
    (region : List Nat) (closing : Nat) (after : Option Nat) :
    Matches (headTested? (ctx.withForLoops on) inner' region closing after)
      (headTested? ctx inner region closing after) := by
  refine .next fun found => ?_
  split
  · exact .refl _
  · exact .next fun _ => .next fun _ => (matches_guard ..).bind fun _ =>
      .next fun _ => (h _ _).bind fun _ => .refl _

/-- Loops with their test at the bottom match. -/
theorem matches_tailTested (h : StructurersMatch inner' inner)
    (first last : Nat) (region : List Nat) (after : Option Nat) :
    Matches (tailTested (ctx.withForLoops on) inner' first last region after)
      (tailTested ctx inner first last region after) := by
  refine .next fun _ => .next fun tests => ?_
  split
  · exact .refl _
  · exact (matches_guard ..).bind fun _ => .next fun _ =>
      (h _ _).bind fun _ => .refl _

/-- Loops with edges back to their head match. -/
theorem matches_loop (h : StructurersMatch inner' inner) (first : Nat)
    (rest : List Nat) (after : Option Nat) :
    Matches (loop (ctx.withForLoops on) inner' first rest after)
      (loop ctx inner first rest after) := by
  have hendless : Matches
      (do
        let body ← inner' (← slice (first :: rest) 0 rest.length)
          (some (rest.getLastD first))
        return Section.whileLoop (.const true) body)
      (do
        let body ← inner (← slice (first :: rest) 0 rest.length)
          (some (rest.getLastD first))
        return Section.whileLoop (.const true) body) :=
    .next fun _ => (h _ _).bind fun _ => .refl _
  refine .next fun e => .ite ?_ (matches_tailTested ctx on h ..)
  refine .next fun _ => .next fun _ => .next fun _ => .ite ?_ hendless
  refine (matches_headTested? ctx on h ..).bind fun found => ?_
  cases found with
  | some s => exact .refl _
  | none => exact hendless

/-- Loops that a jump enters match. -/
theorem matches_jumpEntered (h : StructurersMatch inner' inner) (first : Nat)
    (rest : List Nat) (after : Option Nat) :
    Matches (jumpEntered (ctx.withForLoops on) inner' first rest after)
      (jumpEntered ctx inner first rest after) := by
  refine .next fun g => ?_
  split
  · refine .next fun chain => ?_
    split
    · exact .refl _
    · exact .refl _
    · exact (matches_guard ..).bind fun _ => .next fun _ =>
        (h _ _).bind fun _ => .refl _
  · exact .refl _

/-- The front of a region matches. -/
theorem matches_arm (h : StructurersMatch inner' inner) (first : Nat)
    (rest : List Nat) (after : Option Nat) :
    Matches (arm (ctx.withForLoops on) inner' first rest after)
      (arm ctx inner first rest after) := by
  refine .next fun g => .next fun found => ?_
  split
  · exact .refl _
  · refine .next fun _ => (matches_guard ..).bind fun _ => ?_
    split
    · exact .refl _
    · exact .next fun _ => (h _ _).bind fun _ => .refl _

/-- What comes instead of a body matches. -/
theorem matches_alternative (h : StructurersMatch inner' inner)
    (after : Option Nat) (fuel : Nat) (region : List Nat) :
    Matches (alternative (ctx.withForLoops on) inner' after fuel region)
      (alternative ctx inner after fuel region) := by
  induction fuel generalizing region with
  | zero => cases region <;> exact .refl _
  | succ n ih =>
    cases region with
    | nil => exact .refl _
    | cons first rest =>
      exact .next fun e => .ite
        ((matches_arm ctx on h ..).bind fun _ => (ih _).bind fun _ => .refl _)
        ((h _ _).bind fun _ => .refl _)

/-- Branch statements match. -/
theorem matches_branch (h : StructurersMatch inner' inner) (first : Nat)
    (rest : List Nat) (after : Option Nat) :
    Matches (branch (ctx.withForLoops on) inner' first rest after)
      (branch ctx inner first rest after) :=
  (matches_arm ctx on h ..).bind fun _ =>
    (matches_alternative ctx on h ..).bind fun _ => .refl _

/-- The cases of a switch match. -/
theorem matches_cases (h : StructurersMatch inner' inner) (list : List Nat)
    (after : Option Nat) (spans : List CaseSpan) :
    Matches (cases inner' list after spans) (cases inner list after spans) := by
  induction spans with
  | nil => exact .refl _
  | cons c spans ih =>
    exact .ite (.next fun _ => (h _ _).bind fun _ => ih.bind fun _ => .refl _)
      (.next fun _ => ih.bind fun _ => .refl _)

/-- The handlers of a try statement match. -/
theorem matches_handlers (h : StructurersMatch inner' inner) (list : List Nat)
    (after : Option Nat) (spans : List HandlerSpan) :
    Matches (handlers inner' list after spans)
      (handlers inner list after spans) := by
  induction spans with
  | nil => exact .refl _
  | cons c spans ih =>
    exact .next fun _ => (h _ _).bind fun _ => ih.bind fun _ => .refl _

/-- Switch statements match. -/
theorem matches_switch (h : StructurersMatch inner' inner) (list : List Nat)
    (id : Nat) (plan : SwitchPlan) (after : Option Nat) :
    Matches (switch inner' list id plan after)
      (switch inner list id plan after) :=
  (matches_cases h ..).bind fun _ => .refl _

/-- Try statements match. -/
theorem matches_tryStatement (h : StructurersMatch inner' inner)
    (list : List Nat) (i : Nat) (group : TryGroup) (plan : TryPlan)
    (after : Option Nat) :
    Matches (tryStatement inner' list i group plan after)
      (tryStatement inner list i group plan after) :=
  .next fun _ => .next fun _ => (h _ _).bind fun _ =>
    (matches_handlers h ..).bind fun _ => .refl _

/-- What ends in front of a block of the region matches. -/
theorem matches_before {region : List Nat} {stop : Nat}
    {k k' : Nat → Partition Section} (hk : ∀ next, Matches (k' next) (k next)) :
    Matches
      (match region[stop]? with
        | some next => do return some (stop, ← k' next)
        | none => return none)
      (match region[stop]? with
        | some next => do return some (stop, ← k next)
        | none => return none) := by
  split
  · exact (hk _).bind fun _ => .refl _
  · exact .refl _

/-- The sections of regions inside a region match. -/
theorem matches_nestedAt (h : StructurersMatch inner' inner)
    (hnested : RegionsMatch nested' nested) (region : List Nat) (i id : Nat) :
    Matches (nestedAt inner' nested' region i id)
      (nestedAt inner nested region i id) := by
  refine .next fun b => .ite (.refl _) (.next fun found => ?_)
  split
  · exact matches_before fun _ => matches_tryStatement h ..
  · refine .ite (.next fun _ => matches_before fun _ => matches_switch h ..)
      (.next fun last => ?_)
    split
    · exact matches_before fun _ => .next fun _ => hnested ..
    · refine .next fun jumps => .ite (.next fun stop => ?_) (.refl _)
      split
      · exact matches_before fun _ => .next fun _ => hnested ..
      · exact .refl _

/-- Folding the regions inside a region matches. -/
theorem matches_foldNested (h : StructurersMatch inner' inner)
    (hnested : RegionsMatch nested' nested) (fuel i : Nat)
    (region : List Nat) : Matches (foldNested inner' nested' fuel i region)
      (foldNested inner nested fuel i region) := by
  induction fuel generalizing i region with
  | zero => exact .refl _
  | succ n ih =>
    refine .next fun found => ?_
    split
    · exact .refl _
    · refine (matches_nestedAt h hnested ..).bind fun found => ?_
      split
      · exact ih ..
      · exact .ite (.refl _)
          (.next fun _ => .next fun _ => .next fun _ => ih ..)

/-- The sections of regions match. -/
theorem matches_regionSection (h : StructurersMatch inner' inner)
    (fuel : Nat) : RegionsMatch (regionSection (ctx.withForLoops on) inner' fuel)
      (regionSection ctx inner fuel) := by
  induction fuel with
  | zero =>
    intro isLoop region after
    cases region <;> exact .refl _
  | succ n ih =>
    intro isLoop region after
    cases region with
    | nil => exact .refl _
    | cons first rest =>
      refine .ite (matches_loop ctx on h ..) (.next fun e =>
        .ite (matches_jumpEntered ctx on h ..)
          ((matches_foldNested h ih ..).bind fun left => ?_))
      split
      · exact matches_branch ctx on h ..
      · exact .refl _

/-- The sections at a position match. -/
theorem matches_sectionAt (h : StructurersMatch inner' inner) (list : List Nat)
    (after : Option Nat) (i id : Nat) :
    Matches (sectionAt (ctx.withForLoops on) inner' list after i id)
      (sectionAt ctx inner list after i id) := by
  have hregion (isLoop : Bool) (stop : Nat) : Matches
      (do
        let s ← regionSection (ctx.withForLoops on) inner' (stop - i) isLoop
          (← slice list i stop) (list[stop]?.or after)
        return (s, stop))
      (do
        let s ← regionSection ctx inner (stop - i) isLoop (← slice list i stop)
          (list[stop]?.or after)
        return (s, stop)) :=
    .next fun _ => (matches_regionSection ctx on h ..).bind fun _ => .refl _
  refine .next fun b => .ite (.refl _) (.next fun found => ?_)
  split
  · exact (matches_tryStatement h ..).bind fun _ => .refl _
  · refine .ite (.next fun _ => (matches_switch h ..).bind fun _ => .refl _)
      (.next fun last => ?_)
    split
    · exact hregion ..
    · refine .next fun jumps => .ite (.next fun stop => ?_) (.refl _)
      split
      · exact hregion ..
      · exact .refl _

/-- The sections of lists match from any position on. -/
theorem matches_sectionsFrom (h : StructurersMatch inner' inner)
    (list : List Nat) (after : Option Nat) (fuel i : Nat) :
    Matches (sectionsFrom (ctx.withForLoops on) inner' list after fuel i)
      (sectionsFrom ctx inner list after fuel i) := by
  induction fuel generalizing i with
  | zero => exact .refl _
  | succ n ih =>
    refine .next fun found => ?_
    split
    · exact .refl _
    · exact (matches_sectionAt ctx on h ..).bind fun _ =>
        (ih _).bind fun _ => .refl _

/-- A list is taken apart alike, whether loops with a counter are recovered or
not. -/
theorem matches_sections (depth : Nat) :
    StructurersMatch (sections (ctx.withForLoops on) depth)
      (sections ctx depth) := by
  induction depth with
  | zero => exact fun _ _ => .refl _
  | succ d ih => exact fun _ _ => matches_sectionsFrom ctx on ih ..

end Partition

namespace Graph

/-- A method is taken apart alike, whether loops with a counter are recovered or
not. -/
@[simp] theorem partition_withForLoops :
    g.partition (ctx.withForLoops on) = g.partition ctx := by
  rw [partition, partition, takeApart, takeApart]
  exact congrArg (· >>= _)
    (congrFun (Partition.matches_sections ctx on _ _ none) _)

/-- A block is simulated alike, whether loops with a counter are recovered or
not. -/
@[simp] theorem simulate_withForLoops (id : Nat) :
    g.simulate (ctx.withForLoops on) id = g.simulate ctx id := by
  simp only [Graph.simulate, Context.simulate_withForLoops]

/-- A block has the same actions, whether loops with a counter are recovered or
not. -/
@[simp] theorem actions_withForLoops (id : Nat) :
    g.actions (ctx.withForLoops on) id = g.actions ctx id := by
  simp only [actions, simulate_withForLoops]

/-- A switch selects on the same value, whether loops with a counter are
recovered or not. -/
@[simp] theorem selector_withForLoops (id : Nat) :
    g.selector (ctx.withForLoops on) id = g.selector ctx id := by
  simp only [selector, simulate_withForLoops]
  rfl

end Graph

end Decompiler
