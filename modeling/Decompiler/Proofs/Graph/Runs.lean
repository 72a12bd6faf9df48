import Decompiler.Proofs.Graph.Edges

/-!
# Runs through a block graph

A run walks a graph from its first block.  In each block it executes the
instructions that do something, and the jump or switch at the end; then it
follows an edge, as the outcomes of the branches and switches tell.  It stops
where a block returns, throws or runs off the end.

Two graphs are compared by the events that come first in their runs.  The walks
of one graph are in every family of runs that its blocks allow, so it is enough
to show that its blocks allow the runs of the other graph, block by block.

* `Graph.Shows`: the lists of events that come first in the run from a block on.
* `Graph.Allows`: the blocks of a graph allow a family of runs;
  `Graph.Allows.walk`: walks are in it.
* `Exit.goes_mapTargets`: what redirecting edges does to runs.
-/

namespace Decompiler

variable {m : Method} {g g' : Graph}

/-- What decides where a branch or a switch goes. -/
structure Decision where
  jumps : Bool
  value : Int32
deriving Repr, DecidableEq

/-- The outcomes of branches and switches, in the order in which they are
come to. -/
abbrev Decisions := Nat → Decision

/-- How a run stops. -/
inductive Stop
  | runsOff
  | returned
  | thrown
deriving Repr, DecidableEq

/-- What a run does. -/
inductive Event
  | executes (index : Nat)
  | stops (how : Stop)
deriving Repr, DecidableEq

namespace Exit

/-- The way to go on that is decided on. -/
def turn (e : Exit) (d : Decision) : Turn :=
  match e with
  | jumps _ => .jump
  | branches .. => if d.jumps then .jump else .ahead
  | selects .. => .value d.value
  | falls _ | returns | throws => .ahead

/-- Where control goes. -/
def follow (e : Exit) (ds : Decisions) : Option Nat := e.next? (e.turn (ds 0))

/-- The decisions that are left. -/
def rest (e : Exit) (ds : Decisions) : Decisions :=
  if e.isBranch || e.isSwitch then fun n => ds (n + 1) else ds

/-- How the method is left, if it is. -/
def stop? : Exit → Option Stop
  | returns => some .returned
  | throws => some .thrown
  | falls _ | jumps _ | branches .. | selects .. => none

/-- Whether the instruction at the break point is executed after those in the
block. -/
def hasJump : Exit → Bool
  | jumps _ | branches .. | selects .. => true
  | falls _ | returns | throws => false

end Exit

/-- The instructions of a range that do something. -/
def Method.executes (m : Method) (start stop : Nat) : List Event :=
  ((m.slice start stop).filter fun p => !p.2.isMarker).map fun p =>
    .executes p.1

/-- What is executed in a block. -/
def Block.events (m : Method) (b : Block) : List Event :=
  m.executes b.start b.stop ++ if b.exit.hasJump then [.executes b.breakPoint]
    else []

namespace Graph

/-- The events of a number of blocks, from one block on. -/
def walk (g : Graph) (m : Method) : (blocks : Nat) → Option Nat → Decisions →
      List Event
  | 0, _, _ => []
  | _ + 1, none, _ => [.stops .runsOff]
  | n + 1, some id, ds =>
    let b := g.block id
    b.events m ++
      match b.exit.stop? with
      | some how => [.stops how]
      | none => g.walk m n (b.exit.follow ds) (b.exit.rest ds)

/-- The events that come first from a block on. -/
def Shows (g : Graph) (m : Method) (at? : Option Nat) (ds : Decisions)
    (es : List Event) : Prop :=
  ∃ n, es <+: g.walk m n at? ds

/-- Where runs start. -/
def first? (g : Graph) : Option Nat :=
  if 0 < g.blocks.length then some 0 else none

end Graph

/-- The lists of events that may come first from a block on. -/
abbrev RunFamily := Option Nat → Decisions → List Event → Prop

/-- What a family of runs has for the end of a block. -/
def Exit.Goes (e : Exit) (f : RunFamily) (ds : Decisions) (es : List Event) :
    Prop :=
  match e.stop? with
  | some how => es = [.stops how]
  | none => f (e.follow ds) (e.rest ds) es

/-- The blocks of a graph allow a family of runs: a run may start with a block
if it may go on as the exit of the block says. -/
structure Graph.Allows (g : Graph) (m : Method) (f : RunFamily) : Prop where
  nil : ∀ at? ds, f at? ds []
  ends : ∀ ds, f none ds [.stops .runsOff]
  block : ∀ id ds es, (g.block id).exit.Goes f ds es →
  f (some id) ds ((g.block id).events m ++ es)

namespace Graph

variable {f : RunFamily} {ds : Decisions} {es : List Event}

/-- Walks are in every family of runs that the graph allows. -/
theorem Allows.walk (h : g.Allows m f) (n : Nat) (at? : Option Nat)
    (ds : Decisions) : f at? ds (g.walk m n at? ds) := by
  induction n generalizing at? ds with
  | zero => exact h.nil at? ds
  | succ n ih =>
    cases at? with
    | none => exact h.ends ds
    | some id =>
      apply h.block
      unfold Exit.Goes
      cases (g.block id).exit.stop? with
      | some how => rfl
      | none => exact ih _ _

/-- What shows some events shows the first of them. -/
theorem Shows.of_initial {at? : Option Nat} {es' : List Event}
    (h : g.Shows m at? ds es) (hinitial : es' <+: es) :
    g.Shows m at? ds es' := by
  obtain ⟨n, hn⟩ := h
  exact ⟨n, hinitial.trans hn⟩

/-- What a graph shows is in every family that it allows, if that has the
first events of each of its members. -/
theorem Allows.of_shows (h : g.Allows m f) {at? : Option Nat}
    (hclosed : ∀ es es' : List Event, es' <+: es → f at? ds es → f at? ds es')
    (hshows : g.Shows m at? ds es) : f at? ds es := by
  obtain ⟨n, hn⟩ := hshows
  exact hclosed _ _ hn (h.walk n at? ds)

/-- Any graph shows nothing at first. -/
theorem shows_nil (g : Graph) (m : Method) (at? : Option Nat) (ds : Decisions) :
    g.Shows m at? ds [] := ⟨0, List.prefix_refl _⟩

/-- Where control has run off the method, that is all that shows. -/
theorem shows_ends (g : Graph) (m : Method) (ds : Decisions) :
    g.Shows m none ds [.stops .runsOff] := ⟨1, List.prefix_refl _⟩

/-- What a graph shows is a family of runs that it allows. -/
theorem shows_block {id : Nat} (h : (g.block id).exit.Goes (g.Shows m) ds es) :
    g.Shows m (some id) ds ((g.block id).events m ++ es) := by
  unfold Exit.Goes at h
  cases hstop : (g.block id).exit.stop? with
  | some how =>
    rw [hstop] at h
    have hes : es = [.stops how] := h
    exact ⟨1, by simp [Graph.walk, hstop, hes]⟩
  | none =>
    rw [hstop] at h
    obtain ⟨n, hn⟩ := h
    refine ⟨n + 1, ?_⟩
    rw [Graph.walk, hstop]
    exact List.prefix_append_right_inj _ |>.2 hn

/-- A block shows its own events first. -/
theorem shows_events (g : Graph) (m : Method) (id : Nat) (ds : Decisions) :
    g.Shows m (some id) ds ((g.block id).events m) := by
  refine ⟨1, ?_⟩
  rw [Graph.walk]
  exact List.prefix_append _ _

end Graph

/-! ## Edges that are redirected -/

namespace Exit

variable {e : Exit} {f : Nat → Nat} {r r' : RunFamily} {ds : Decisions}
    {es : List Event}

/-- Renaming targets renames where a turn leads. -/
theorem next?_mapTargets (e : Exit) (f : Nat → Nat) (turn : Turn) :
    (e.mapTargets f).next? turn = (e.next? turn).map f := by
  cases e with
  | selects arms default =>
    cases turn with
    | value key =>
      simp only [mapTargets, next?, List.find?_map, Function.comp_def,
        Option.map_some, Option.some.injEq]
      cases arms.find? (·.keys.contains key) <;> rfl
    | ahead | jump => rfl
  | falls | jumps | branches | returns | throws => cases turn <;> rfl

/-- Renaming targets makes and removes no jump. -/
theorem hasJump_mapTargets (e : Exit) (f : Nat → Nat) :
    (e.mapTargets f).hasJump = e.hasJump := by
  cases e <;> rfl

/-- Renaming targets changes nothing where control stops. -/
theorem stop?_mapTargets (e : Exit) (f : Nat → Nat) :
    (e.mapTargets f).stop? = e.stop? := by
  cases e <;> rfl

/-- Renaming targets uses up the same decisions. -/
theorem rest_mapTargets (e : Exit) (f : Nat → Nat) (ds : Decisions) :
    (e.mapTargets f).rest ds = e.rest ds := by
  cases e <;> rfl

theorem turn_mapTargets (e : Exit) (f : Nat → Nat) (d : Decision) :
    (e.mapTargets f).turn d = e.turn d := by
  cases e <;> rfl

/-- Renaming targets renames where decisions lead. -/
theorem follow_mapTargets (e : Exit) (f : Nat → Nat) (ds : Decisions) :
    (e.mapTargets f).follow ds = (e.follow ds).map f := by
  rw [follow, turn_mapTargets, next?_mapTargets, follow]

/-- What an exit goes on with, told of the blocks that its edges led to
before. -/
theorem goes_mapTargets :
    (e.mapTargets f).Goes r ds es ↔
      e.Goes (fun at? => r (at?.map f)) ds es := by
  rw [Goes, Goes, stop?_mapTargets, rest_mapTargets, follow_mapTargets]

/-- Decisions lead to a successor. -/
theorem mem_successors_of_follow {t : Nat} (h : e.follow ds = some t) :
    t ∈ e.successors :=
  mem_successors_of_next? h

/-- An exit may go on as its edges do. -/
theorem Goes.mono (h : e.Goes r ds es)
    (hr : ∀ at? : Option Nat, (∀ t, at? = some t → t ∈ e.successors) →
      ∀ ds es, r at? ds es → r' at? ds es) : e.Goes r' ds es := by
  unfold Goes at *
  cases hstop : e.stop? with
  | some how =>
    rw [hstop] at h
    exact h
  | none =>
    rw [hstop] at h
    exact hr _ (fun t ht => mem_successors_of_follow ht) _ _ h

end Exit

/-- Code that does nothing executes nothing. -/
theorem Method.executes_eq_nil {i j : Nat} (h : m.acts i j = false) :
    m.executes i j = [] := by
  simp only [executes, List.map_eq_nil_iff, List.filter_eq_nil_iff, slice,
    List.mem_map]
  rintro _ ⟨⟨x, k⟩, hmem, rfl⟩
  have hx : x ∈ (m.instrs.take j).drop i := List.fst_mem_of_mem_zipIdx hmem
  simpa using List.any_eq_false.1 h x hx

/-- Code in two parts executes one after the other. -/
theorem Method.executes_append {i j k : Nat} (hik : i ≤ k) (hkj : k ≤ j) :
    m.executes i j = m.executes i k ++ m.executes k j := by
  rw [executes, slice_append hik hkj, List.filter_append, List.map_append]
  rfl

/-- Redirecting its edges does not change what a block executes. -/
theorem Block.events_eq_of_mapTargets {b b' : Block} {f : Nat → Nat}
    (hexit : b'.exit = b.exit.mapTargets f) (hstart : b'.start = b.start)
    (hstop : b'.stop = b.stop) (hbreak : b'.breakPoint = b.breakPoint) :
    b'.events m = b.events m := by
  rw [events, events, hexit, hstart, hstop, hbreak, Exit.hasJump_mapTargets]

end Decompiler
