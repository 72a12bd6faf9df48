import Decompiler.Proofs.BackEdges.Recorded
import Decompiler.Proofs.Exits.Loops
import Decompiler.Proofs.Graph.Runs
import Decompiler.Proofs.Graph.WellFormed

/-!
# Closing a loop does not show

Before the body of a loop is taken apart, its edges to the head of the loop are
led to the jump that closes it.  Control that takes such an edge now comes to
the head by way of the jump.  A jump that is always taken stands alone in its
block, so nothing is seen of the way.

What is seen of a run are the instructions that do something, plain jumps aside,
which way branches and switches go, and how the run stops.  A region that has
been folded into one block before is seen as a whole.  Runs are compared by what
comes first in them, so that runs without end are compared as well, and those
that come to the head again and again.

* `Graph.Reveals`: what is seen first in the run from a block on.
* `Graph.InStep`: graphs whose runs are never more than an unseen jump apart;
  `Graph.InStep.reveals_iff`.
* `Work.exit_closed`: the edges of every block once a loop is closed.
* `Graph.Lone`: jumps stand alone, whatever has been changed before;
  `Changes.lone`.
* `reveals_closed_iff`: runs, and edges, before and after.
-/

namespace Decompiler

/-! ## What is seen -/

/-- What is seen of a run. -/
inductive Sight
  | event (event : Event)
  /-- Which way a branch or a switch goes. -/
  | turns (turn : Turn)
  /-- A region that has been folded into one block. -/
  | passes (region : Section)

/-- What is seen of a run in a block. -/
def Block.sights (m : Method) (b : Block) (d : Decision) : List Sight :=
  match b.folded with
  | some s => [.passes s]
  | none =>
    (m.executes b.start b.stop).map .event ++
      if b.exit.isBranch || b.exit.isSwitch then
        [.event (.executes b.breakPoint), .turns (b.exit.turn d)]
      else []

/-- Redirecting its edges does not change what is seen of a block. -/
theorem Block.sights_eq_of_mapTargets {m : Method} {b b' : Block}
    {f : Nat → Nat} (hexit : b'.exit = b.exit.mapTargets f)
    (hstart : b'.start = b.start) (hstop : b'.stop = b.stop)
    (hbreak : b'.breakPoint = b.breakPoint) (hfolded : b'.folded = b.folded)
    (d : Decision) : b'.sights m d = b.sights m d := by
  rw [sights, sights, hexit, hstart, hstop, hbreak, hfolded,
    Exit.isBranch_mapTargets, Exit.isSwitch_mapTargets, Exit.turn_mapTargets]

namespace Graph

/-- What is seen in a number of blocks, from one block on. -/
def watch (g : Graph) (m : Method) : (blocks : Nat) → Option Nat → Decisions →
      List Sight
  | 0, _, _ => []
  | _ + 1, none, _ => [.event (.stops .runsOff)]
  | n + 1, some id, ds =>
    let b := g.block id
    b.sights m (ds 0) ++
      match b.exit.stop? with
      | some how => [.event (.stops how)]
      | none => g.watch m n (b.exit.follow ds) (b.exit.rest ds)

/-- What is seen first from a block on. -/
def Reveals (g : Graph) (m : Method) (at? : Option Nat) (ds : Decisions)
    (ss : List Sight) : Prop :=
  ∃ n, ss <+: g.watch m n at? ds

/-- A jump that is always taken and of which nothing is seen. -/
structure Slips (g : Graph) (m : Method) (id t : Nat) : Prop where
  jumps : g.exit id = .jumps t
  unseen : ∀ d, (g.block id).sights m d = []

variable {m : Method} {g g' : Graph}

/-- In more blocks more is seen. -/
theorem watch_prefix_succ (g : Graph) (m : Method) (n : Nat) (at? : Option Nat)
    (ds : Decisions) : g.watch m n at? ds <+: g.watch m (n + 1) at? ds := by
  induction n generalizing at? ds with
  | zero => exact List.nil_prefix
  | succ n ih =>
    cases at? with
    | none => exact List.prefix_refl _
    | some id =>
      rw [watch, watch]
      refine (List.prefix_append_right_inj _).2 ?_
      cases (g.block id).exit.stop? with
      | some how => exact List.prefix_refl _
      | none => exact ih _ _

/-- A block that control slips through shows nothing. -/
theorem Slips.watch_succ {id t : Nat} (h : g.Slips m id t) (n : Nat)
    (ds : Decisions) :
    g.watch m (n + 1) (some id) ds = g.watch m n (some t) ds := by
  rw [watch, h.unseen, show (g.block id).exit = .jumps t from h.jumps]
  rfl

/-! ## Runs in step -/

/-- Where two runs may be that have shown the same: at the same block, or one of
them an unseen jump behind the other. -/
inductive Abreast (m : Method) (g g' : Graph) : Option Nat → Option Nat → Prop
  | level (at? : Option Nat) : Abreast m g g' at? at?
  | behind {id t : Nat} (slips : g.Slips m id t) :
      Abreast m g g' (some id) (some t)
  | ahead {id t : Nat} (slips : g'.Slips m id t) :
      Abreast m g g' (some t) (some id)

/-- Two graphs whose runs stay abreast from one block to the next. -/
structure InStep (m : Method) (g g' : Graph) : Prop where
  sights : ∀ id d, (g'.block id).sights m d = (g.block id).sights m d
  stop : ∀ id, (g'.block id).exit.stop? = (g.block id).exit.stop?
  rest : ∀ id ds, (g'.block id).exit.rest ds = (g.block id).exit.rest ds
  follow : ∀ id ds, Abreast m g g' ((g.block id).exit.follow ds)
    ((g'.block id).exit.follow ds)

/-- Being abreast goes both ways. -/
theorem Abreast.symm {at? at?' : Option Nat} (h : Abreast m g g' at? at?') :
    Abreast m g' g at?' at? := by
  cases h with
  | level => exact .level at?
  | behind slips => exact .ahead slips
  | ahead slips => exact .behind slips

namespace InStep

/-- Being in step goes both ways. -/
theorem symm (h : InStep m g g') : InStep m g' g where
  sights id d := (h.sights id d).symm
  stop id := (h.stop id).symm
  rest id ds := (h.rest id ds).symm
  follow id ds := (h.follow id ds).symm

/-- What one run shows the other shows too, in at most twice as many blocks. -/
theorem watch_prefix (h : InStep m g g') (n : Nat) {at? at?' : Option Nat}
    (hat : Abreast m g g' at? at?') (ds : Decisions) :
    g.watch m n at? ds <+: g'.watch m (2 * n + 1) at?' ds := by
  induction n generalizing at? at?' ds with
  | zero => exact List.nil_prefix
  | succ n ih =>
    -- from the same block on, there is a block to spare for a jump
    have hlevel (at? : Option Nat) :
        g.watch m (n + 1) at? ds <+: g'.watch m (2 * n + 1 + 1) at? ds := by
      cases at? with
      | none => exact List.prefix_refl _
      | some id =>
        rw [watch, watch, h.sights, h.stop]
        refine (List.prefix_append_right_inj _).2 ?_
        cases (g.block id).exit.stop? with
        | some how => exact List.prefix_refl _
        | none => exact h.rest id ds ▸ ih (h.follow id ds) _
    cases hat with
    | level => exact (hlevel at?).trans (watch_prefix_succ g' m _ at? ds)
    | @behind id t slips =>
      rw [slips.watch_succ]
      exact ((watch_prefix_succ g m n (some t) ds).trans
        (hlevel (some t))).trans (watch_prefix_succ g' m _ (some t) ds)
    | @ahead id t slips =>
      rw [show 2 * (n + 1) + 1 = 2 * n + 1 + 1 + 1 from rfl, slips.watch_succ]
      exact hlevel (some t)

/-- **Runs in step** show the same. -/
theorem reveals_iff (h : InStep m g g') {at? : Option Nat} {ds : Decisions}
    {ss : List Sight} : g'.Reveals m at? ds ss ↔ g.Reveals m at? ds ss :=
  ⟨fun ⟨n, hn⟩ => ⟨2 * n + 1, hn.trans (h.symm.watch_prefix n (.level at?) ds)⟩,
    fun ⟨n, hn⟩ => ⟨2 * n + 1, hn.trans (h.watch_prefix n (.level at?) ds)⟩⟩

end InStep

/-! ## Edges -/

/-- Where an edge is led that may go to the head of a loop. -/
def turned (head closing t : Nat) : Nat := if t = head then closing else t

/-- Turning an edge twice turns it once. -/
theorem turned_turned (head closing t : Nat) :
    turned head closing (turned head closing t) = turned head closing t := by
  unfold turned
  grind

/-- Continuing at the jump that closes a loop turns the edges of one block. -/
theorem exit_continueAt (g : Graph) (head closing id x : Nat) :
    (g.continueAt head closing id).exit x =
      if x = id then
        (g.exit x).mapTargets (turned head closing) else g.exit x := by
  unfold continueAt
  split
  case isTrue hmem =>
    dsimp only
    rw [exit_modify_of_exit (by exact fun _ => rfl),
      exit_modify_of_exit (by exact fun _ => rfl)]
    split_ifs with hx
    · subst hx
      have hlength : x < g.blocks.length :=
        lt_length_of_mem_successors (by simpa using hmem)
      rw [redirect, exit, block_modify_self _ _ hlength]
      rfl
    · rw [redirect, exit, block_modify_of_ne _ _ (Ne.symm hx), exit]
  case isFalse hmem =>
    split_ifs with hx
    · subst hx
      refine (mapTargets_eq_self fun t ht => if_neg fun heq => hmem ?_).symm
      rw [List.contains_iff_mem]
      exact heq ▸ ht
    · rfl

/-- Continuing at the jump that closes a loop turns the edges of the blocks that
do. -/
theorem exit_foldl_continueAt (head closing : Nat) (ids : List Nat) (g : Graph)
    (x : Nat) :
    (ids.foldl (fun g id => g.continueAt head closing id) g).exit x =
      if x ∈ ids then
        (g.exit x).mapTargets (turned head closing) else g.exit x := by
  induction ids generalizing g with
  | nil => rfl
  | cons id ids ih =>
    rw [List.foldl_cons, ih, exit_continueAt]
    by_cases hx : x = id
    · -- a block that comes again has no edge left to turn
      have hsame : turned head closing ∘ turned head closing = turned head
          closing :=
        funext (turned_turned head closing)
      simp [hx, Exit.mapTargets_mapTargets, hsame]
    · simp [hx]

end Graph

variable {m : Method} {ctx : Context} {w w' : Work} {first id t : Nat}
    {rest ids : List Nat}

/-- Once a loop is closed, the edges of its body to the head lead to the jump at
its end, and all others lead where they led. -/
theorem Work.exit_closed (w : Work) (first : Nat) (rest : List Nat) (id : Nat) :
    (w.closed first rest).graph.exit id =
      if id ∈ rest.dropLast then
        (w.graph.exit id).mapTargets (Graph.turned first (rest.getLastD first))
      else w.graph.exit id :=
  Graph.exit_foldl_continueAt first _ _ w.graph id

/-- No edge from the body leads to the head any more. -/
theorem Work.not_mem_successors_closed (hregion : (first :: rest).Nodup)
    (hid : id ∈ rest.dropLast) :
    first ∉ (w.closed first rest).graph.successors id := by
  have hne : rest.getLastD first ≠ first := by
    intro heq
    cases rest with
    | nil => cases hid
    | cons second others =>
      exact getLastD_not_mem_of_nodup hregion (heq ▸ List.mem_cons_self)
  rw [Graph.successors, exit_closed, if_pos hid, Exit.successors_mapTargets,
    List.mem_map]
  rintro ⟨t, -, ht⟩
  unfold Graph.turned at ht
  split at ht
  · exact hne ht
  · contradiction

/-! ## Jumps -/

/-- Jumps that are always taken stand alone in their blocks. -/
def Graph.Lone (m : Method) (g : Graph) : Prop :=
  ∀ id, (g.exit id).isJump = true →
    m.acts (g.block id).start (g.block id).stop = false

/-- So they do in a tidy graph. -/
theorem Graph.lone_of_tidy {built tidy : Graph} (hbuilt : m.graph = .ok built)
    (htidy : built.tidy m = .ok tidy) : tidy.Lone m := by
  intro id hjump
  obtain ⟨t, ht⟩ := Option.isSome_iff_exists.1 hjump
  have hexit := Exit.eq_jumps_of_jump? ht
  rcases Nat.lt_or_ge id tidy.blocks.length with hlt | hge
  · exact (wellFormed_of_tidy hbuilt htidy).alone id hlt t hexit
  · rw [Graph.exit, block_of_length_le hge] at hexit
    cases hexit

namespace Changes

/-- No change makes a jump of a block or puts something in front of one. -/
theorem lone (h : Changes ids w w') (hw : w.graph.Lone m) :
    w'.graph.Lone m := by
  induction h with
  | refl | use => exact hw
  | trans _ _ ih ih' => exact ih' (ih hw)
  | @fold w x s next =>
    intro id hjump
    rw [Graph.fold, Graph.exit] at hjump
    rw [Graph.fold]
    rcases w.graph.block_modify x id fun b =>
      { b with folded := some s, exit := .falls next } with
        hsame | ⟨_, hchanged⟩
    · rw [hsame] at hjump ⊢
      exact hw id hjump
    · rw [hchanged] at hjump
      cases hjump
  | @unfold w x =>
    intro id hjump
    rw [Graph.unfold, Graph.exit] at hjump
    rw [Graph.unfold]
    rcases w.graph.block_modify x id fun b => { b with folded := none }
      with hsame | ⟨_, hchanged⟩
    · rw [hsame] at hjump ⊢
      exact hw id hjump
    · rw [hchanged] at hjump ⊢
      exact hw id hjump
  | @continueAt w head closing x =>
    have hsame :
        Redirected (fun _ => ()) w.graph (w.graph.continueAt head closing x) :=
      Redirected.continueAt (by rfl) w.graph x
    intro id hjump
    obtain ⟨_, _, _, hstart, hstop, _⟩ := hsame.blocks id
    rw [hsame.isJump_exit] at hjump
    rw [hstart, hstop]
    exact hw id hjump

end Changes

/-- Nothing is seen of a jump that stands alone. -/
theorem Work.slips (hlone : w.graph.Lone m) (hw : w.Consistent)
    (hexit : w.graph.exit id = .jumps t) : w.graph.Slips m id t where
  jumps := hexit
  unseen d := by
    have hfolded : (w.graph.block id).folded = none := by
      cases hs : (w.graph.block id).folded with
      | none => rfl
      | some s =>
        obtain ⟨next, hfalls⟩ := hw.folded id s hs
        rw [hexit] at hfalls
        cases hfalls
    have hacts := hlone id (by rw [hexit]; rfl)
    rw [Block.sights, hfolded,
      show (w.graph.block id).exit = .jumps t from hexit,
        Method.executes_eq_nil hacts]
    rfl

/-! ## Closed loops -/

/-- Once a loop is closed, runs keep in step with those before. -/
theorem Work.inStep_closed (hlone : w.graph.Lone m) (hw : w.Consistent)
    (hregion : (first :: rest).Nodup)
    (hcloses : w.graph.exit (rest.getLastD first) = .jumps first) :
    Graph.InStep m w.graph (w.closed first rest).graph := by
  have hsame : Redirected (fun _ => ()) w.graph (w.closed first rest).graph :=
    Redirected.closed rfl w
  have hsights (id : Nat) (d : Decision) :
      ((w.closed first rest).graph.block id).sights m d =
      (w.graph.block id).sights m d := by
    obtain ⟨f, _, hexit, hstart, hstop, hbreak, _, hfolded⟩ := hsame.blocks id
    exact Block.sights_eq_of_mapTargets hexit hstart hstop hbreak hfolded d
  have hslips : (w.closed first rest).graph.Slips m (rest.getLastD first)
      first := by
    refine ⟨?_, fun d =>
      (hsights _ d).trans ((Work.slips hlone hw hcloses).unseen d)⟩
    rw [exit_closed, if_neg (getLastD_not_mem_dropLast_of_nodup hregion),
      hcloses]
  refine ⟨hsights, fun id => ?_, fun id ds => ?_, fun id ds => ?_⟩
  · obtain ⟨f, _, hexit, _⟩ := hsame.blocks id
    rw [hexit, Exit.stop?_mapTargets]
  · obtain ⟨f, _, hexit, _⟩ := hsame.blocks id
    rw [hexit, Exit.rest_mapTargets]
  · have hexit := w.exit_closed first rest id
    rw [Graph.exit, Graph.exit] at hexit
    rw [hexit]
    split_ifs
    · rw [Exit.follow_mapTargets]
      cases (w.graph.block id).exit.follow ds with
      | none => exact .level none
      | some t =>
        rw [Option.map_some, Graph.turned]
        split_ifs with ht
        · rw [ht]
          exact .ahead hslips
        · exact .level (some t)
    · exact .level _

/-- **Closed loops.**  Take the tidy graph of a method, as it is or after any
changes that are made while it is taken apart, and a run of different blocks
that ends with a jump to its first one.  Once this loop is closed the same is
seen from every block on, whatever branches and switches decide; no block
between the first and the last has an edge to the first any more; and the edges
of all blocks that are not between them are what they were. -/
theorem reveals_closed_iff {built tidy : Graph}
    (hbuilt : ctx.method.graph = .ok built)
    (htidy : built.tidy ctx.method = .ok tidy)
    (hchanges : Changes ids (Work.start ctx tidy) w)
    (hregion : (first :: rest).Nodup)
    (hcloses : w.graph.exit (rest.getLastD first) = .jumps first) :
    let closed := (w.closed first rest).graph
    (∀ id ds ss, closed.Reveals ctx.method (some id) ds ss ↔
      w.graph.Reveals ctx.method (some id) ds ss) ∧
    (∀ id ∈ rest.dropLast, first ∉ closed.successors id) ∧
    ∀ id, id ∉ rest.dropLast → closed.exit id = w.graph.exit id := by
  intro closed
  have hlone : w.graph.Lone ctx.method :=
    hchanges.lone (Graph.lone_of_tidy hbuilt htidy)
  have hw : w.Consistent :=
    hchanges.consistent (Work.consistent_start hbuilt htidy)
  refine ⟨fun id ds ss => ?_, fun id hid => ?_, fun id hid => ?_⟩
  · exact (Work.inStep_closed hlone hw hregion hcloses).reveals_iff
  · exact Work.not_mem_successors_closed hregion hid
  · rw [w.exit_closed first rest id, if_neg hid]

/-- Of two loops, one in the other, the outer one is closed first.  In the inner
one a branch goes on with the outer loop, and a switch with the inner one.  Both
edges lead to the jumps in the end, and runs show what they show in the tidy
graph. -/
theorem reveals_closed_iff_nested :
    let test (name : String) : Instr := .call .static ⟨"C", name, "()Z"⟩
    let act (name : String) : Instr := .call .static ⟨"C", name, "()V"⟩
    let m : Method :=
      { instrs := [.label ⟨0⟩, test "a", .ifZero .eq ⟨9⟩, .label ⟨1⟩, test "b",
          .ifZero .eq ⟨3⟩, test "c", .ifZero .ne ⟨0⟩, .load .int 0,
          .lookupSwitch ⟨2⟩ [(0, ⟨1⟩)], .label ⟨2⟩,
          act "d", .goto ⟨1⟩, .label ⟨3⟩, act "e", .goto ⟨0⟩, .label ⟨9⟩,
          .ret none],
        ranges := [] }
    let ctx : Context := ⟨m, LocalTable.empty.lookup, {}⟩
    let edges (g : Graph) : List (List Nat) := [g.successors 2, g.successors 3]
    ∃ built tidy, m.graph = .ok built ∧ built.tidy m = .ok tidy ∧
      let outer := (Work.start ctx tidy).closed 0 [1, 2, 3, 4, 5, 6, 7]
      let inner := outer.closed 1 [2, 3, 4, 5]
      outer.graph.exit 5 = .jumps 1 ∧ edges tidy = [[0, 3], [1, 4]] ∧
      edges inner.graph = [[7, 3], [5, 4]] ∧
      (∀ id ds ss, inner.graph.Reveals m (some id) ds ss ↔
        tidy.Reveals m (some id) ds ss) ∧
      (∀ id ∈ [2, 3, 4], 1 ∉ inner.graph.successors id) ∧
      ∀ id, id ∉ [2, 3, 4] → inner.graph.exit id = outer.graph.exit id := by
  intro test act m ctx edges
  have hrun : (do
      let built ← m.graph
      let tidy ← built.tidy m
      let outer := (Work.start ctx tidy).closed 0 [1, 2, 3, 4, 5, 6, 7]
      let inner := outer.closed 1 [2, 3, 4, 5]
      return (tidy.exit 7, outer.graph.exit 5, edges tidy, edges inner.graph)) =
      .ok (.jumps 0, .jumps 1, [[0, 3], [1, 4]], [[7, 3], [5, 4]]) := by
        decide +kernel
  obtain ⟨built, hbuilt, hrun⟩ := bind_eq_ok.1 hrun
  obtain ⟨tidy, htidy, hrun⟩ := bind_eq_ok.1 hrun
  simp only [pure, Except.pure, Except.ok.injEq, Prod.mk.injEq] at hrun
  obtain ⟨houter, hinner, hbefore, hafter⟩ := hrun
  have hmade : ctx.method.graph = .ok built := hbuilt
  have hstart : Changes [] (Work.start ctx tidy) (Work.start ctx tidy) :=
    .refl _
  have hclosed := changes_closed (w := Work.start ctx tidy)
    (show [0, 1, 2, 3, 4, 5, 6, 7].Pairwise (· < ·) by decide) houter
  have hfirst := reveals_closed_iff hmade htidy hstart
    (show [0, 1, 2, 3, 4, 5, 6, 7].Nodup by decide) houter
  obtain ⟨hruns, hno, hothers⟩ := reveals_closed_iff hmade htidy hclosed
    (show [1, 2, 3, 4, 5].Nodup by decide) hinner
  exact ⟨built, tidy, hbuilt, htidy, hinner, hbefore, hafter,
    fun id ds ss => (hruns id ds ss).trans (hfirst.1 id ds ss), hno, hothers⟩

end Decompiler
