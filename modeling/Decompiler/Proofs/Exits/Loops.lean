import Decompiler.Proofs.Exits.Dealt
import Decompiler.Proofs.Loops.Sections

/-!
# The edges out of a loop

The tests of a loop may lead to what comes after it; no other block of a loop
may.  For a branch in the body this is checked.  A jump or a fallthrough out of
the body is not found, however: it is a break, and sections have none.  It is
dropped, and only the record of where control goes tells.

* `Work.loopTests`: the tests of a loop.
* `LoopDeals`: what becomes of the edges of the blocks of a loop;
  `loopDeals_of_loop`, `loopDeals_of_jumpEntered`.
-/

namespace Decompiler

/-- The tests of a loop: those at its top, if it is closed by a jump, or else
those at its bottom. -/
def Work.loopTests (w : Work) (isLoop : Bool) : List Nat → List Nat
  | [] => []
  | first :: rest =>
    if isLoop then
      if (w.graph.exit (rest.getLastD first)).jump? = some first then
        let g := (w.closed first rest).graph
        if (g.exit first).isBranch then
          ((g.headTests? (first :: rest)).map ((first :: rest).take ·)).getD []
        else []
      else
        (first :: rest).drop
        (w.graph.tailTestStart first (first :: rest) (first :: rest).length)
    else
      match (w.graph.exit first).jump? with
      | some target => rest.drop (rest.idxOf target)
      | none => []

/-- What becomes of the edges of the blocks of a loop: those of its tests lead
to blocks of the loop or to what comes after it, all others stay inside. -/
structure LoopDeals (region tests : List Nat) (after : Option Nat)
    (w w' : Told) : Prop where
  changes : Told.Changes region w w'
  tested : ∀ id ∈ tests, Dealt (w'.faithful = true) region after w.toWork id
  others : ∀ id ∈ region, id ∉ tests →
    Dealt (w'.faithful = true) region none w.toWork id

variable {ctx : Context} {inner : Structurer}
    {list region tests chain ids : List Nat}
  {first id : Nat} {rest : List Nat} {after : Option Nat} {s : Section}
  {w w₁ w' : Told}

/-- A loop deals with its blocks. -/
theorem LoopDeals.deals (h : LoopDeals region tests after w w') :
    Deals region after region w w' := by
  refine ⟨h.changes, fun id hid => ?_⟩
  by_cases htest : id ∈ tests
  · exact h.tested id htest
  · exact (h.others id hid htest).within (.none (List.Subset.refl _))

/-! ### Tests -/

/-- Each edge of a test leads to the body, to the exit, or to another test. -/
theorem Graph.edges_of_guard {g : Graph} {body : Nat} {c : Condition}
    (h : g.guard ctx chain body after = .ok c) (hid : id ∈ chain) :
    ∀ t ∈ g.successors id, t = body ∨ after = some t ∨ t ∈ chain := by
  obtain ⟨taken, fallen, d, e, hexit, htaken, hfallen⟩ :=
    exists_branches_of_guard h hid
  have hleads {next : Nat} {d : Dest} (hd : Leads chain body after next d) :
      next = body ∨ after = some next ∨ next ∈ chain := by
    cases d with
    | body => exact .inl hd
    | exit => exact .inr (.inl hd.2)
    | test q => exact .inr (.inr (List.mem_of_getElem? hd.2.2))
  intro t ht
  rw [successors, hexit] at ht
  rcases List.mem_cons.1 ht with rfl | ht
  · exact hleads htaken
  · obtain rfl := List.mem_singleton.1 ht
    exact hleads hfallen

/-- The tests of a guard whose body and exit are at hand are dealt with. -/
theorem deals_guard {body : Nat} {exit : Option Nat} {c : Condition}
    (h : (Partition.guard ctx chain body exit).told w = .ok (c, w₁))
    (hchain : chain ⊆ list) (hbody : body ∈ list ∨ after = some body)
    (hexit : ∀ t, exit = some t → t ∈ list ∨ after = some t) :
    Told.Changes [] w w₁ ∧ ∀ (sound : Prop), ∀ id ∈ chain,
      Dealt sound list after w.toWork id := by
  obtain ⟨hguard, rfl⟩ := Partition.told_guard h
  refine ⟨.observe w _, fun _ id hid => .stays fun t ht => ?_⟩
  rcases Graph.edges_of_guard hguard hid t ht with rfl | hout | hmem
  · exact hbody
  · exact hexit t hout
  · exact .inl (hchain hmem)

/-! ### Loops -/

/-- The jump that closes a loop stays in it. -/
theorem dealt_of_jumps {w : Work} {sound : Prop} {t : Nat}
    (hexit : w.graph.exit id = .jumps t) (ht : t ∈ region) :
    Dealt sound region after w id := by
  refine .stays fun x hx => ?_
  rw [Graph.successors, hexit] at hx
  exact .inl (List.mem_singleton.1 hx ▸ ht)

/-- Continuing at the jump that closes a loop changes blocks of the loop
only. -/
theorem changes_foldl_continueAt {w : Work} {head closing : Nat}
    {ids : List Nat}
    (hids : ids ⊆ list) (hhead : head ∈ list) (hclosing : closing ∈ list)
    (hout : closing ∉ ids) (hcloses : w.graph.exit closing = .jumps head) :
    Changes list w
      { w with
        graph :=
        ids.foldl (fun g id => g.continueAt head closing id) w.graph } := by
  induction ids generalizing w with
  | nil => exact .refl w
  | cons id ids ih =>
    obtain ⟨hid, hids⟩ := List.cons_subset.1 hids
    rw [List.mem_cons, not_or] at hout
    have hcloses' : (w.graph.continueAt head closing id).exit closing =
        .jumps head := by
      -- the jump back itself is not turned
      obtain ⟨_, f, hexit, _, hsame⟩ :=
        w.graph.turned_continueAt head closing id closing
      rw [Graph.exit, hexit,
        show (w.graph.block closing).exit = .jumps head from hcloses,
          Exit.mapTargets, hsame.resolve_right fun hturned => hout.1 hturned.1]
    exact (Changes.continueAt w hcloses hid hhead hclosing).trans
      (ih (w := { w with graph := w.graph.continueAt head closing id }) hids
        hout.2 hcloses')

/-- The edges to the head of a loop are led to the jump back to it. -/
theorem changes_closed {w : Work} (hasc : (first :: rest).Pairwise (· < ·))
    (hcloses : w.graph.exit (rest.getLastD first) = .jumps first) :
    Changes (first :: rest) w (w.closed first rest) := by
  refine changes_foldl_continueAt (fun id hid => ?_) List.mem_cons_self
    List.getLastD_mem_cons (getLastD_not_mem_dropLast hasc) hcloses
  exact List.mem_cons_of_mem _ (List.dropLast_subset _ hid)

/-- A loop with its test at the top. -/
theorem loopDeals_of_headTested? (hinner : StructurerDeals inner)
    (hw : w.Consistent) (hasc : (first :: rest).Pairwise (· < ·))
    (hcloses : w.graph.exit (rest.getLastD first) = .jumps first)
    (h : (Partition.headTested? ctx inner (first :: rest)
      (rest.getLastD first) after).told w =
      .ok (some s, w')) :
    ∃ k, w.graph.headTests? (first :: rest) = some k ∧
      LoopDeals (first :: rest) ((first :: rest).take k) after w w' := by
  obtain ⟨hnone, _⟩ | ⟨k, cond, body, w₁, hk, heq, hguard, hbody⟩ :=
    Partition.told_headTested? h
  · cases hnone
  · obtain ⟨_, hle⟩ := Graph.le_of_headTests? hk
    have hlt : k < (first :: rest).length := Nat.lt_succ_of_le hle
    have hfront : (first :: rest).getD k 0 ∈ first :: rest := by
      rw [List.getD_eq_getElem _ _ hlt]
      exact List.getElem_mem hlt
    obtain ⟨hchanges, htests⟩ :=
      deals_guard hguard (List.take_subset k (first :: rest))
        (.inl hfront) fun _ => .inr
    have hslice : (first :: rest).dropLast.drop k ⊆ first :: rest :=
      fun _ hmem =>
        List.dropLast_subset _ (List.drop_subset _ _ hmem)
    have hdeals := hinner _ _ _ _ _ (hchanges.work.consistent hw)
      ((hasc.sublist (List.dropLast_sublist _)).sublist (List.drop_sublist k _))
      hbody
    have hbody := (Deals.nil hchanges).trans
      (hdeals.within (.some none hslice List.getLastD_mem_cons))
    refine ⟨k, hk, hbody.changes.mono hslice, htests _, fun id hid htest => ?_⟩
    rcases mem_dropLast_or hid with hmem | rfl
    · refine hbody.dealt id ((mem_take_or_drop hmem k).resolve_left fun htake =>
        htest ?_)
      rw [List.dropLast_eq_take, List.take_take] at htake
      exact List.take_subset_take_left _ (Nat.min_le_left _ _) htake
    · exact dealt_of_jumps hcloses List.mem_cons_self

/-- The body of a loop and the tests at its bottom. -/
theorem loopDeals_of_bottom (hinner : StructurerDeals inner) (hw : w.Consistent)
    (hasc : region.Pairwise (· < ·)) {start test body : Nat} {tests : List Nat}
    (hdrop : region.drop start = test :: tests) (hbody : body ∈ region)
    {cond : Condition} {stmts : List Section}
    (hguard : (Partition.guard ctx (test :: tests) body after).told w =
      .ok (cond, w₁))
    (hrun : (inner (region.take start) (some test)).told w₁ = .ok (stmts, w')) :
    LoopDeals region (region.drop start) after w w' := by
  have hchain : test :: tests ⊆ region := hdrop ▸ List.drop_subset start region
  obtain ⟨hchanges, htests⟩ :=
    deals_guard hguard hchain (.inl hbody) fun _ => .inr
  have hdeals := hinner _ _ _ _ _ (hchanges.work.consistent hw)
    (hasc.sublist (List.take_sublist start region)) hrun
  have hall := (Deals.nil hchanges).trans (hdeals.within (.some none
    (List.take_subset start region) (hchain List.mem_cons_self)))
  rw [hdrop]
  refine ⟨hall.changes.mono (List.take_subset start region), htests _,
    fun id hid htest => ?_⟩
  rw [← hdrop] at htest
  exact hall.dealt id ((mem_take_or_drop hid start).resolve_right htest)

namespace LoopDeals

/-- Leading edges to the head of a loop to the jump back to it leaves no edge of
the loop out. -/
theorem of_closed
    (h : LoopDeals (first :: rest) tests after (w.closed first rest) w')
    (hasc : (first :: rest).Pairwise (· < ·))
    (hcloses : w.graph.exit (rest.getLastD first) = .jumps first) :
    LoopDeals (first :: rest) tests after w w' := by
  have hchanges := changes_closed hasc hcloses
  have hturned (id : Nat) := turned_closed hasc (w := w) id
  have hclosed : Told.Changes (first :: rest) w (w.closed first rest) :=
    ⟨hchanges, fun h => h⟩
  exact ⟨hclosed.trans h.changes,
    fun id hid => (h.tested id hid).of_turned hchanges List.mem_cons_self
      (hturned id),
    fun id hid htest =>
      (h.others id hid htest).of_turned hchanges List.mem_cons_self
        (hturned id)⟩

/-- Where all edges stay inside, those of some blocks may be taken for tests. -/
theorem of_nil (h : LoopDeals region [] after w w') (htests : tests ⊆ region) :
    LoopDeals region tests after w w' :=
  ⟨h.changes, fun id hid => h.deals.dealt id (htests hid),
    fun id hid _ => h.others id hid List.not_mem_nil⟩

end LoopDeals

/-- The tests of a loop are among its blocks. -/
theorem Work.loopTests_subset (w : Work) (isLoop : Bool) (region : List Nat) :
    w.loopTests isLoop region ⊆ region := by
  cases region with
  | nil => exact List.Subset.refl _
  | cons first rest =>
    rw [loopTests]
    split
    · split
      · dsimp only
        split
        · cases (w.closed first rest).graph.headTests? (first :: rest) with
          | none => exact List.nil_subset _
          | some k => exact List.take_subset k _
        · exact List.nil_subset _
      · exact List.drop_subset _ _
    · split
      · exact List.Subset.trans (List.drop_subset _ _)
          (List.subset_cons_self first rest)
      · exact List.nil_subset _

/-- **Loops.**  The tests of a loop lead to its blocks or to what comes after
it, and all other edges that are looked at stay inside. -/
theorem loopDeals_of_loop (hinner : StructurerDeals inner) (hw : w.Consistent)
    (hasc : (first :: rest).Pairwise (· < ·))
    (h : (Partition.loop ctx inner first rest after).told w = .ok (s, w')) :
    LoopDeals (first :: rest) (w.loopTests true (first :: rest)) after w
      w' := by
  have hclosed (hcloses : w.graph.exit (rest.getLastD first) = .jumps first) :
      (w.closed first rest).Consistent ∧
        (w.closed first rest).graph.exit (rest.getLastD first) =
        .jumps first := by
    refine ⟨(changes_closed hasc hcloses).consistent hw, ?_⟩
    obtain ⟨_, f, hexit, _, hsame⟩ :=
      turned_closed hasc (w := w) (rest.getLastD first)
    have hstays :=
      hsame.resolve_right fun hturned =>
        getLastD_not_mem_dropLast hasc hturned.1
    rw [Graph.exit, hexit,
      show (w.graph.block (rest.getLastD first)).exit = .jumps first from
      hcloses, Exit.mapTargets, hstays]
  cases Partition.told_loop h with
  | headTested closes run =>
    obtain ⟨hw₁, hcloses⟩ := hclosed closes
    obtain ⟨k, hk, hdeals⟩ :=
      loopDeals_of_headTested? hinner hw₁ hasc hcloses run
    replace hk :
        (w.toWork.closed first rest).graph.headTests? (first :: rest) =
          some k := hk
    have htests :
        w.loopTests true (first :: rest) = (first :: rest).take k := by
      simp only [Work.loopTests, if_true, closes, Exit.jump?,
        Graph.isBranch_of_headTests? hk, hk, Option.map_some, Option.getD_some]
    rw [htests]
    exact hdeals.of_closed hasc closes
  | @forever body closes run eq =>
    obtain ⟨hw₁, hcloses⟩ := hclosed closes
    have hdeals :=
      (hinner _ _ _ _ _ hw₁ (hasc.sublist (List.dropLast_sublist _)) run).within
        (.some none (List.dropLast_subset _) List.getLastD_mem_cons)
    have hall : LoopDeals (first :: rest) [] after (w.closed first rest)
        w' := by
      refine ⟨hdeals.changes.mono (List.dropLast_subset _),
        List.forall_mem_nil _,
        fun id hid _ => ?_⟩
      rcases mem_dropLast_or hid with hmem | rfl
      · exact hdeals.dealt id hmem
      · exact dealt_of_jumps hcloses List.mem_cons_self
    exact (hall.of_closed hasc closes).of_nil (w.loopTests_subset true _)
  | tailTested run stays =>
    obtain ⟨start, test, tests, cond, body, w₁, rfl, hdrop, rfl, hguard,
        hbody⟩ :=
      Partition.told_tailTested run
    have htests : w.loopTests true (first :: rest) = (first :: rest).drop
        (w.graph.tailTestStart first (first :: rest)
          (first :: rest).length) := by
      rw [Work.loopTests, if_pos rfl, if_neg stays]
    rw [htests]
    exact loopDeals_of_bottom hinner hw hasc hdrop List.mem_cons_self
      hguard hbody

/-- Loops that are entered by a jump. -/
theorem loopDeals_of_jumpEntered (hinner : StructurerDeals inner)
    (hw : w.Consistent) (hasc : (first :: rest).Pairwise (· < ·))
    (hfirst : (w.graph.exit first).isJump = true)
    (h : (Partition.jumpEntered ctx inner first rest after).told w =
      .ok (s, w')) :
    LoopDeals (first :: rest) (w.loopTests false (first :: rest)) after w
      w' := by
  obtain ⟨start, test, tests, body, others, cond, stmts, w₁, rfl, rfl, hdrop,
    hexit, rfl, hguard, hbody⟩ := Partition.told_jumpEntered hfirst h
  have hdeals :=
    loopDeals_of_bottom hinner hw (List.pairwise_cons.1 hasc).2 hdrop
      List.mem_cons_self hguard hbody
  have htests : w.loopTests false (first :: body :: others) =
      (body :: others).drop ((body :: others).idxOf test) := by
    simp only [Work.loopTests, hexit, Exit.jump?, Bool.false_eq_true, if_false]
  have hsubset := List.subset_cons_self first (body :: others)
  rw [htests]
  refine ⟨hdeals.changes.mono hsubset,
    fun id hid => (hdeals.tested id hid).within (.same hsubset),
      fun id hid htest => ?_⟩
  rcases List.mem_cons.1 hid with rfl | hid
  · -- the jump into the loop leads to the first test
    refine dealt_of_jumps hexit
      (hsubset (List.drop_subset _ _ (hdrop ▸ List.mem_cons_self)))
  · exact (hdeals.others id hid htest).within (.none hsubset)

end Decompiler
