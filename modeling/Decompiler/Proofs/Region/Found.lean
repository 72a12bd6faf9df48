import Decompiler.Proofs.Graph.Cut
import Decompiler.Proofs.Region.Cuts
import Decompiler.Proofs.Region.Told

/-!
# What the steps of taking a graph apart find

What a step that has come to an end has found, and what it has done to get
there, for all methods: exception ranges whose groups cannot be laid out are
used up, and a switch is a section of its own.

* `Partition.told_block`, `Partition.run_block_of_lt`: reading a block.
* `Partition.LoopFound`, `Partition.told_jumpEntered`, `Partition.told_arm`,
  `Partition.AlternativeTaken`: the kinds of regions and their parts.
* `Partition.PlanFound`: the try statement that starts with a block.
* `Partition.NestedFound`, `Partition.SectionTaken`: the section at a position
  of a region, and at a position of a list.
* `Partition.FoldTaken`: how the regions inside a region are folded.
* `Partition.RegionTaken`, `Partition.SectionsTaken`: regions and lists as a
  whole.
-/

namespace Decompiler

namespace Partition

variable {w w' : Told}

/-- A block that there is can be read. -/
theorem told_block_of_lt {id : Nat} (h : id < w.graph.blocks.length) :
    (block id).told w = .ok (w.graph.block id, w) := by
  rw [block, told_graph_bind, Graph.block_mem h]
  rfl

/-- A block that there is not cannot be read. -/
theorem told_block_of_length_le {id : Nat} (h : w.graph.blocks.length ≤ id) :
    (block id).told w = .error (.missingBlock id) := by
  rw [block, told_graph_bind, List.getElem?_eq_none h]
  rfl

/-- The same without an eye on it. -/
theorem run_block_of_lt {id : Nat} {w : Work}
    (h : id < w.graph.blocks.length) :
    (block id).run w = .ok (w.graph.block id, w) :=
  (run_of_told (w := w) (told_block_of_lt h)).1

theorem run_block_of_length_le {id : Nat} {w : Work}
    (h : w.graph.blocks.length ≤ id) :
    (block id).run w = .error (.missingBlock id) := by
  rw [show w = (Told.mk w true).toWork from rfl, run_eq_told,
    told_block_of_length_le h]
  rfl

/-- Only a block that there is can be read. -/
theorem lt_length_of_told_block {id : Nat} {b : Block}
    (h : (block id).told w = .ok (b, w')) : id < w.graph.blocks.length := by
  rcases Nat.lt_or_ge id w.graph.blocks.length with hlt | hge
  · exact hlt
  · rw [told_block_of_length_le hge] at h
    cases h

/-- Reading a block leaves the work as it is. -/
theorem told_block {id : Nat} {b : Block}
    (h : (block id).told w = .ok (b, w')) :
    b = w.graph.block id ∧ w' = w := by
  rw [told_block_of_lt (lt_length_of_told_block h)] at h
  cases h
  exact ⟨rfl, rfl⟩

end Partition

/-! ### Regions -/

/-- An edge back comes from further on. -/
theorem Graph.lt_of_lastBackEdge? {g : Graph} {list : List Nat} {i last : Nat}
    (h : g.lastBackEdge? list i = some last) : i < last := by
  obtain ⟨head, _, h⟩ := Option.bind_eq_some_iff.1 h
  dsimp only at h
  split at h
  · cases h
  · have hlast := List.find?_some h
    simp only [Bool.and_eq_true, decide_eq_true_eq] at hlast
    exact hlast.1

/-- No jump heads a loop. -/
theorem Graph.isJump_eq_false_of_lastBackEdge? {g : Graph} {list : List Nat}
    {i last id : Nat} (hid : list[i]? = some id)
    (h : g.lastBackEdge? list i = some last) : (g.exit id).isJump = false := by
  obtain ⟨head, hhead, h⟩ := Option.bind_eq_some_iff.1 h
  obtain rfl := Option.some.inj (hid.symm.trans hhead)
  dsimp only at h
  split at h
  · cases h
  · rename_i hpass
    simp only [Bool.or_eq_true, not_or, Bool.not_eq_true] at hpass
    exact hpass.1

/-- The work with the edges to the head of a loop led to the jump back to it. -/
def Work.closed (w : Work) (first : Nat) (rest : List Nat) : Work where
  graph :=
    rest.dropLast.foldl
      (fun g id => g.continueAt first (rest.getLastD first) id) w.graph
  pending := w.pending

/-- The same with an eye on what the sections say. -/
def Told.closed (w : Told) (first : Nat) (rest : List Nat) : Told :=
  { w with toWork := w.toWork.closed first rest }

/-- The work with at most some groups of exception ranges used up. -/
inductive Told.Drops (w : Told) : Told → Prop
  | none : w.Drops w
  | one (t : TryGroup) : w.Drops { w with pending := w.pending.erase t }

namespace Partition

variable {ctx : Context} {inner : Structurer} {first : Nat} {rest : List Nat}
    {after : Option Nat}
  {s : Section} {w w' : Told}

/-- A loop with its test at the top. -/
theorem told_headTested? {region : List Nat} {closing : Nat}
    {r : Option Section}
    (h : (headTested? ctx inner region closing after).told w = .ok (r, w')) :
    (r = none ∧ w' = w) ∨ ∃ k cond body w₁, w.graph.headTests? region = some k ∧
      r = some (.whileLoop cond body) ∧
      (guard ctx (region.take k) (region.getD k 0) after).told w =
        .ok (cond, w₁) ∧
      (inner (region.dropLast.drop k) (some closing)).told w₁ =
        .ok (body, w') := by
  rw [headTested?, told_headTests?_bind] at h
  split at h
  · exact .inl (told_pure.1 h)
  · rename_i k hk
    rw [told_slice_bind, told_member_bind] at h
    obtain ⟨cond, w₂, hguard, h⟩ := told_bind.1 h
    rw [told_slice_bind, ← List.dropLast_eq_take] at h
    obtain ⟨body, w₃, hbody, h⟩ := told_bind.1 h
    obtain ⟨rfl, rfl⟩ := told_pure.1 h
    exact .inr ⟨k, cond, body, w₂, hk, rfl, hguard, hbody⟩

/-- A loop with its test at the bottom. -/
theorem told_tailTested {last : Nat} {region : List Nat}
    (h : (tailTested ctx inner first last region after).told w = .ok (s, w')) :
    ∃ start test tests cond body w₁,
      start = w.graph.tailTestStart first region region.length ∧
      region.drop start = test :: tests ∧ s = .doLoop body cond ∧
      (guard ctx (test :: tests) first after).told w = .ok (cond, w₁) ∧
      (inner (region.take start) (some test)).told w₁ = .ok (body, w') := by
  rw [tailTested, told_tailTestStart_bind, told_slice_bind,
    List.take_length] at h
  split at h
  · exact absurd h told_irreducible
  · rename_i test tests hdrop
    obtain ⟨cond, w₂, hguard, h⟩ := told_bind.1 h
    rw [told_slice_bind] at h
    obtain ⟨body, w₃, hbody, h⟩ := told_bind.1 h
    obtain ⟨rfl, rfl⟩ := told_pure.1 h
    exact ⟨_, test, tests, cond, body, w₂, rfl, hdrop, rfl, hguard, hbody⟩

/-- The kinds of loops with edges back to their head. -/
inductive LoopFound (ctx : Context) (inner : Structurer) (first : Nat)
    (rest : List Nat) (after : Option Nat) (w : Told) (s : Section)
    (w' : Told) : Prop
  | headTested (closes : w.graph.exit (rest.getLastD first) = .jumps first)
      (run : (headTested? ctx inner (first :: rest) (rest.getLastD first)
        after).told (w.closed first rest) = .ok (some s, w'))
  | forever {body : List Section}
      (closes : w.graph.exit (rest.getLastD first) = .jumps first)
      (run : (inner (first :: rest).dropLast (some (rest.getLastD first))).told
        (w.closed first rest) = .ok (body, w'))
      (eq : s = .whileLoop (.const true) body)
  | tailTested
      (run : (tailTested ctx inner first (rest.getLastD first) (first :: rest)
        after).told w = .ok (s, w'))
      (stays : (w.graph.exit (rest.getLastD first)).jump? ≠ some first)

/-- What a loop with edges back to its head is found to be. -/
theorem told_loop (h : (loop ctx inner first rest after).told w = .ok (s, w')) :
    LoopFound ctx inner first rest after w s w' := by
  rw [loop, told_exit_bind] at h
  split at h
  · rename_i hjump
    have hcloses := Exit.eq_jumps_of_jump? hjump
    rw [told_slice_bind, ← List.dropLast_eq_take, List.drop_one,
      List.tail_dropLast, List.tail_cons] at h
    obtain ⟨_, w₂, hchange, h⟩ := told_bind.1 h
    obtain rfl := told_change.1 hchange
    have hforever (h : (do
        let body ← inner
          (← slice (first :: rest) 0 ((first :: rest).length - 1))
          (some (rest.getLastD first))
        return .whileLoop (.const true) body : Partition Section).told
          (w.closed first rest) =
          .ok (s, w')) : LoopFound ctx inner first rest after w s w' := by
      rw [told_slice_bind, List.drop_zero, ← List.dropLast_eq_take] at h
      obtain ⟨body, w₃, hbody, h⟩ := told_bind.1 h
      obtain ⟨rfl, rfl⟩ := told_pure.1 h
      exact .forever hcloses hbody rfl
    rw [told_exit_bind] at h
    split at h
    · obtain ⟨found, w₄, hfound, h⟩ := told_bind.1 h
      cases found with
      | none =>
        obtain ⟨_, rfl⟩ | ⟨k, cond, body, w₅, _, hnone, _⟩ :=
          told_headTested? hfound
        · exact hforever h
        · cases hnone
      | some s' =>
        obtain ⟨rfl, rfl⟩ := told_pure.1 h
        exact .headTested hcloses hfound
    · exact hforever h
  · rename_i hjump
    exact .tailTested h hjump

/-- A loop that is entered by a jump to the test at its bottom. -/
theorem told_jumpEntered (hfirst : (w.graph.exit first).isJump = true)
    (h : (jumpEntered ctx inner first rest after).told w = .ok (s, w')) :
    ∃ start test tests body others cond stmts w₁, start = rest.idxOf test ∧
      rest = body :: others ∧ rest.drop start = test :: tests ∧
      w.graph.exit first = .jumps test ∧ s = .whileLoop cond stmts ∧
      (guard ctx (test :: tests) body after).told w = .ok (cond, w₁) ∧
        (inner (rest.take start) (some test)).told w₁ = .ok (stmts, w') := by
  rw [jumpEntered, told_graph_bind] at h
  split at h
  · rename_i _ target body others htarget
    obtain ⟨t, hjump⟩ := Option.isSome_iff_exists.1 hfirst
    have hexit := Exit.eq_jumps_of_jump? hjump
    rw [hexit] at htarget
    obtain rfl := Option.some.inj htarget
    rw [told_slice_bind, List.take_length] at h
    split at h
    · exact absurd h told_irreducible
    · exact absurd h told_irreducible
    · rename_i test tests hchain _
      obtain ⟨cond, w₂, hguard, h⟩ := told_bind.1 h
      rw [told_slice_bind] at h
      obtain ⟨stmts, w₃, hbody, h⟩ := told_bind.1 h
      obtain ⟨rfl, rfl⟩ := told_pure.1 h
      obtain rfl := eq_of_drop_idxOf hchain
      exact ⟨_, test, tests, body, others, cond, stmts, w₂, rfl, rfl, hchain,
        hexit, rfl, hchain ▸ hguard, hbody⟩
  · exact absurd h told_irreducible

/-- The tests and the body at the front of a region. -/
theorem told_arm {cond : Condition} {body : List Section} {others : List Nat}
    (h : (arm ctx inner first rest after).told w =
      .ok ((cond, body, others), w')) :
    ∃ n run stop w₁,
      n = (rest.takeWhile fun id => (w.graph.exit id).isBranch).length ∧
      w.graph.testRun? (first :: rest) after n = some run ∧
      Graph.alternativeStart? (first :: rest) after run = some stop ∧
      others = (first :: rest).drop stop ∧
      (guard ctx ((first :: rest).take run.size) run.body run.exit).told w =
        .ok (cond, w₁) ∧
      (inner (((first :: rest).take stop).drop run.size) after).told w₁ =
        .ok (body, w') := by
  rw [arm, told_graph_bind, told_testRun?_bind] at h
  split at h
  · exact absurd h told_irreducible
  · rename_i run hrun
    rw [told_slice_bind] at h
    obtain ⟨cond', w₂, hguard, h⟩ := told_bind.1 h
    split at h
    · cases h
    · rename_i stop hstop
      rw [told_slice_bind] at h
      obtain ⟨body', w₃, hbody, h⟩ := told_bind.1 h
      rw [told_slice_bind, List.take_length] at h
      obtain ⟨heq, rfl⟩ := told_pure.1 h
      cases heq
      exact ⟨_, run, stop, w₂, rfl, hrun, hstop, rfl, hguard, hbody⟩

/-- What comes instead of a body, if anything does. -/
inductive AlternativeTaken (ctx : Context) (inner : Structurer)
    (after : Option Nat) :
    Nat → List Nat → Told → Alternative Section → Told → Prop
  | none {n : Nat} {w : Told} : AlternativeTaken ctx inner after n [] w .none w
  | orIf {n first : Nat} {rest others : List Nat} {cond : Condition}
      {body : List Section}
      {a : Alternative Section} {w w₁ w' : Told}
      (branch : (w.graph.exit first).isBranch = true)
      (arm : (arm ctx inner first rest after).told w =
        .ok ((cond, body, others), w₁))
      (run : (alternative ctx inner after n others).told w₁ = .ok (a, w'))
      (taken : AlternativeTaken ctx inner after n others w₁ a w') :
      AlternativeTaken ctx inner after (n + 1) (first :: rest) w
        (.orIf cond body a) w'
  | otherwise {n first : Nat} {rest : List Nat} {body : List Section}
      {w w' : Told} (noBranch : (w.graph.exit first).isBranch = false)
      (run : (inner (first :: rest) after).told w = .ok (body, w')) :
      AlternativeTaken ctx inner after (n + 1) (first :: rest) w
        (.otherwise body) w'

/-- What comes instead of a body, once it has been taken apart. -/
theorem alternativeTaken_of_told {n : Nat} {list : List Nat}
    {a : Alternative Section}
    (h : (alternative ctx inner after n list).told w = .ok (a, w')) :
    AlternativeTaken ctx inner after n list w a w' := by
  induction n generalizing list w a with
  | zero =>
    cases list with
    | nil =>
      obtain ⟨rfl, rfl⟩ := told_pure.1 h
      exact .none
    | cons first rest => cases h
  | succ n ih =>
    cases list with
    | nil =>
      obtain ⟨rfl, rfl⟩ := told_pure.1 h
      exact .none
    | cons first rest =>
      rw [alternative, told_exit_bind] at h
      split at h
      case isTrue hbranch =>
        obtain ⟨⟨cond, body, others⟩, w₂, harm, h⟩ := told_bind.1 h
        obtain ⟨a', w₃, hothers, h⟩ := told_bind.1 h
        obtain ⟨rfl, rfl⟩ := told_pure.1 h
        exact .orIf hbranch harm hothers (ih hothers)
      case isFalse hbranch =>
        obtain ⟨body, w₂, hbody, h⟩ := told_bind.1 h
        obtain ⟨rfl, rfl⟩ := told_pure.1 h
        exact .otherwise (Bool.not_eq_true _ ▸ hbranch) hbody

/-- A branch statement. -/
theorem told_branch
    (h : (branch ctx inner first rest after).told w = .ok (s, w')) :
    ∃ cond body others a w₁, s = .ifElse cond body a ∧
      (arm ctx inner first rest after).told w = .ok ((cond, body, others), w₁) ∧
      (alternative ctx inner after others.length others).told w₁ =
        .ok (a, w') := by
  obtain ⟨⟨cond, body, others⟩, w₁, harm, h⟩ := told_bind.1 h
  obtain ⟨a, w₂, hothers, h⟩ := told_bind.1 h
  obtain ⟨rfl, rfl⟩ := told_pure.1 h
  exact ⟨cond, body, others, a, w₁, rfl, harm, hothers⟩

/-- The section of a region, if the region ends before the list it is in
does. -/
theorem told_before {region : List Nat} {stop : Nat}
    {k : Nat → Partition Section} {r : Option (Nat × Section)}
    (h : (match region[stop]? with
      | some next => do return some (stop, ← k next)
      | none =>
        return none : Partition (Option (Nat × Section))).told w = .ok (r, w')) :
    (r = none ∧ w' = w) ∨
      ∃ next s, region[stop]? = some next ∧ r = some (stop, s) ∧
        (k next).told w = .ok (s, w') := by
  split at h
  · rename_i next hnext
    obtain ⟨s, w₁, hs, h⟩ := told_bind.1 h
    obtain ⟨rfl, rfl⟩ := told_pure.1 h
    exact .inr ⟨next, s, hnext, rfl, hs⟩
  · exact .inl (told_pure.1 h)

variable {list region : List Nat} {i id n : Nat}

/-! ### Try statements -/

/-- The try statement that starts with a block, if there is one. -/
inductive PlanFound (list : List Nat) (id : Nat) (w : Told) :
    Option (TryGroup × TryPlan) → Told → Prop
  | none {w' : Told} (drops : w.Drops w') : PlanFound list id w none w'
  | some {t : TryGroup} {plan : TryPlan} (pending : t ∈ w.pending)
      (starts : t.start = id)
      (ends : list.idxOf t.stop < list.length)
      (plans : w.graph.tryPlan? list t = some plan) :
      PlanFound list id w (some (t, plan)) w

/-- The try statement that is found, or what has been used up in looking for
it. -/
theorem planFound_of_told {r : Option (TryGroup × TryPlan)}
    (h : (tryPlan? list id).told w = .ok (r, w')) :
    PlanFound list id w r w' := by
  rw [tryPlan?, told_pending_bind] at h
  split at h
  · obtain ⟨rfl, rfl⟩ := told_pure.1 h
    exact .none .none
  · rename_i t hlongest
    rw [told_layout?_bind] at h
    obtain ⟨hmem, hfits⟩ := List.mem_filter.1 (List.mem_of_getLast? hlongest)
    simp only [Bool.and_eq_true, decide_eq_true_eq] at hfits
    split at h
    · rename_i plan hplan
      obtain ⟨rfl, rfl⟩ := told_pure.1 h
      exact .some hmem hfits.1 hfits.2 hplan
    · obtain ⟨_, w₃, huse, h⟩ := told_bind.1 h
      obtain ⟨rfl, rfl⟩ := told_pure.1 h
      cases huse
      exact .none (.one t)

/-- A try statement: its group is used up, and its parts are structured in
turn. -/
theorem told_tryStatement {t : TryGroup} {plan : TryPlan}
    (h : (tryStatement inner list i t plan after).told w = .ok (s, w')) :
    ∃ body hs w₁, s = .tryCatch body hs ∧
      (inner ((list.take plan.bodyStop).drop i)
        (list[plan.join]?.or after)).told
        { w with pending := w.pending.erase t } = .ok (body, w₁) ∧
      (handlers inner list (list[plan.join]?.or after) plan.handlers).told w₁ =
      .ok (hs, w') := by
  obtain ⟨_, w₁, huse, h⟩ := told_bind.1 h
  obtain rfl := told_use.1 huse
  rw [told_slice_bind] at h
  obtain ⟨body, w₂, hbody, h⟩ := told_bind.1 h
  obtain ⟨hs, w₃, hhandlers, h⟩ := told_bind.1 h
  obtain ⟨rfl, rfl⟩ := told_pure.1 h
  exact ⟨body, hs, w₂, rfl, hbody, hhandlers⟩

/-- The handlers are taken apart one after the other. -/
theorem told_handlers_cons {span : HandlerSpan} {spans : List HandlerSpan}
    {hs : List (Handler Section)}
    (h : (handlers inner list after (span :: spans)).told w = .ok (hs, w')) :
    ∃ body others w₁, hs = ⟨span.type, span.block, body⟩ :: others ∧
      (inner ((list.take span.stop).drop span.start) after).told w =
        .ok (body, w₁) ∧
      (handlers inner list after spans).told w₁ = .ok (others, w') := by
  rw [handlers, told_slice_bind] at h
  obtain ⟨body, w₁, hbody, h⟩ := told_bind.1 h
  obtain ⟨others, w₂, hothers, h⟩ := told_bind.1 h
  obtain ⟨rfl, rfl⟩ := told_pure.1 h
  exact ⟨body, others, w₁, rfl, hbody, hothers⟩

/-! ### Switches -/

/-- The section of a switch has the cases that are found. -/
theorem told_switch {plan : SwitchPlan}
    (h : (switch inner list id plan after).told w = .ok (s, w')) :
    ∃ cs, s = .switch id cs ∧
      (cases inner list (list[plan.join]?.or after) plan.cases).told w =
        .ok (cs, w') := by
  obtain ⟨cs, w₁, hcs, h⟩ := told_bind.1 h
  obtain ⟨rfl, rfl⟩ := told_pure.1 h
  exact ⟨cs, rfl, hcs⟩

/-- A case with a run of its own, or without one. -/
theorem told_cases_cons {span : CaseSpan} {spans : List CaseSpan}
    {cs : List (Case Section)}
    (h : (cases inner list after (span :: spans)).told w = .ok (cs, w')) :
    ∃ body others w₁, cs = ⟨span.keys, span.isDefault, span.breaks, body⟩ ::
      others ∧ (span.start < span.stop ∧
          (inner ((list.take span.stop).drop span.start) after).told w =
            .ok (body, w₁) ∨
        span.stop ≤ span.start ∧ body = [] ∧ w₁ = w) ∧
      (cases inner list after spans).told w₁ = .ok (others, w') := by
  rw [cases] at h
  by_cases hrun : span.start < span.stop
  · rw [if_pos hrun, told_slice_bind] at h
    obtain ⟨body, w₁, hbody, h⟩ := told_bind.1 h
    obtain ⟨others, w₂, hothers, h⟩ := told_bind.1 h
    obtain ⟨rfl, rfl⟩ := told_pure.1 h
    exact ⟨body, others, w₁, rfl, .inl ⟨hrun, hbody⟩, hothers⟩
  · rw [if_neg hrun] at h
    obtain ⟨body, w₁, hbody, hthen⟩ := told_bind.1 h
    obtain ⟨rfl, rfl⟩ := told_pure.1 hbody
    obtain ⟨others, w₂, hothers, hthen⟩ := told_bind.1 hthen
    obtain ⟨rfl, rfl⟩ := told_pure.1 hthen
    exact ⟨[], others, w₁, rfl, .inr ⟨Nat.not_lt.1 hrun, rfl, rfl⟩, hothers⟩

/-! ### Positions -/

/-- The section at a position of a region, and where what comes after it
starts. -/
inductive NestedFound (inner : Structurer) (nested : RegionStructurer)
    (region : List Nat) (i id : Nat) (w : Told) : Option (Nat × Section) →
      Told → Prop
  | none {w' : Told} (drops : w.Drops w') :
      NestedFound inner nested region i id w none w'
  | tryStatement {t : TryGroup} {plan : TryPlan} {s : Section} {next : Nat}
      {w' : Told} (found : PlanFound region id w (some (t, plan)) w)
      (there : region[plan.join]? = some next)
      (run : (tryStatement inner region i t plan (some next)).told w =
        .ok (s, w')) :
      NestedFound inner nested region i id w (some (plan.join, s)) w'
  | switch {s : Section} {next : Nat} {w₁ w' : Told} (drops : w.Drops w₁)
      (selects : (w.graph.exit id).isSwitch = true)
      (there : region[(w.graph.switchPlan region i).join]? = some next)
      (run : (switch inner region id (w.graph.switchPlan region i)
        (some next)).told w₁ =
        .ok (s, w')) :
      NestedFound inner nested region i id w
        (some ((w.graph.switchPlan region i).join, s)) w'
  | region {isLoop : Bool} {stop : Nat} {s : Section} {next : Nat}
      {w₁ w' : Told}
      (drops : w.Drops w₁) (lt : i < stop) (there : region[stop]? = some next)
      (head : isLoop = true → (w.graph.exit id).isJump = false)
      (run : (nested isLoop ((region.take stop).drop i) (some next)).told w₁ =
        .ok (s, w')) :
      NestedFound inner nested region i id w (some (stop, s)) w'

/-- What is found at a position of a region. -/
theorem nestedFound_of_told {nested : RegionStructurer}
    (hid : region[i]? = some id) {r : Option (Nat × Section)}
    (h : (nestedAt inner nested region i id).told w = .ok (r, w')) :
    NestedFound inner nested region i id w r w' := by
  obtain ⟨b, w₁, hb, h⟩ := told_bind.1 h
  obtain ⟨rfl, rfl⟩ := told_block hb
  split at h
  · obtain ⟨rfl, rfl⟩ := told_pure.1 h
    exact .none .none
  · obtain ⟨plan, w₂, hplan, h⟩ := told_bind.1 h
    have hfound := planFound_of_told hplan
    cases hfound with
    | some pending starts ends plans =>
      obtain ⟨rfl, rfl⟩ | ⟨next, s, hnext, rfl, hs⟩ := told_before h
      · exact .none .none
      · exact .tryStatement (.some pending starts ends plans) hnext hs
    | none drops =>
      have hgraph : w₂.graph = w₁.graph := by cases drops <;> rfl
      dsimp only at h
      split at h
      case isTrue hswitch =>
        rw [told_switchPlan_bind, hgraph] at h
        obtain ⟨rfl, rfl⟩ | ⟨next, s, hnext, rfl, hs⟩ := told_before h
        · exact .none drops
        · exact .switch drops hswitch hnext hs
      case isFalse hswitch =>
        rw [told_lastBackEdge?_bind, hgraph] at h
        split at h
        case h_1 last hlast =>
          have hlt := Graph.lt_of_lastBackEdge? hlast
          obtain ⟨rfl, rfl⟩ | ⟨next, s, hnext, rfl, hs⟩ := told_before h
          · exact .none drops
          · exact .region drops (by omega) hnext
              (fun _ => Graph.isJump_eq_false_of_lastBackEdge? hid hlast) hs
        case h_2 =>
          have hnone
              (h : (pure none : Partition (Option (Nat × Section))).told w₂ =
                .ok (r, w')) :
              NestedFound inner nested region i id w₁ r w' := by
            obtain ⟨rfl, rfl⟩ := told_pure.1 h
            exact .none drops
          rw [told_jumpsIntoTest_bind] at h
          split at h
          case isFalse => exact hnone h
          case isTrue =>
            rw [told_extent?_bind] at h
            split at h
            case h_2 => exact hnone h
            case h_1 stop hstop =>
              have hlt := (Option.filter_eq_some_iff.1 hstop).2
              obtain ⟨rfl, rfl⟩ | ⟨next, s, hnext, rfl, hs⟩ := told_before h
              · exact .none drops
              · exact .region drops (by simpa using hlt) hnext
                  (fun hl => by cases hl) hs

/-- The section at a position of a list, and where what comes after it
starts. -/
inductive SectionTaken (ctx : Context) (inner : Structurer) (list : List Nat)
    (after : Option Nat) (i id : Nat) (w : Told) : Section → Nat → Told → Prop
  | folded {s : Section} (holds : (w.graph.block id).folded = some s) :
      SectionTaken ctx inner list after i id w s (i + 1)
        { w with
          graph := w.graph.unfold id
          faithful := w.faithful && w.graph.goesOn id (list[i + 1]?.or after) }
  | tryStatement {t : TryGroup} {plan : TryPlan} {s : Section} {w' : Told}
      (plain : (w.graph.block id).folded = none)
      (found : PlanFound list id w (some (t, plan)) w)
      (run : (tryStatement inner list i t plan after).told w = .ok (s, w')) :
      SectionTaken ctx inner list after i id w s plan.join w'
  | switch {s : Section} {w₁ w' : Told}
      (plain : (w.graph.block id).folded = none)
      (drops : w.Drops w₁) (selects : (w.graph.exit id).isSwitch = true)
      (run : (switch inner list id (w.graph.switchPlan list i) after).told w₁ =
        .ok (s, w')) :
      SectionTaken ctx inner list after i id w s
        (max (w.graph.switchPlan list i).join (i + 1)) w'
  | region {isLoop : Bool} {stop : Nat} {s : Section} {w₁ w' : Told}
      (plain : (w.graph.block id).folded = none) (drops : w.Drops w₁)
      (lt : i < stop) (head : isLoop = true → (w.graph.exit id).isJump = false)
      (run : (regionSection ctx inner (stop - i) isLoop ((list.take stop).drop i)
        (list[stop]?.or after)).told w₁ = .ok (s, w')) :
      SectionTaken ctx inner list after i id w s stop w'
  | inline {w₁ : Told} (plain : (w.graph.block id).folded = none)
      (drops : w.Drops w₁) (noSwitch : (w.graph.exit id).isSwitch = false)
      (noBranch : (w.graph.exit id).isBranch = false) :
      SectionTaken ctx inner list after i id w (.inline id) (i + 1)
        { w₁ with
          faithful := w.faithful && w.graph.goesOn id (list[i + 1]?.or after) }

/-- What is found at a position of a list. -/
theorem sectionTaken_of_told {next : Nat} (hid : list[i]? = some id)
    (h : (sectionAt ctx inner list after i id).told w = .ok ((s, next), w')) :
    SectionTaken ctx inner list after i id w s next w' := by
  obtain ⟨b, w₁, hb, h⟩ := told_bind.1 h
  obtain ⟨rfl, rfl⟩ := told_block hb
  dsimp only at h
  split at h
  case isTrue hsome =>
    obtain ⟨s', hfolded⟩ := Option.isSome_iff_exists.1 hsome
    obtain ⟨s'', w₂, hsingle, h⟩ := told_bind.1 h
    rw [told_single_of_folded hfolded] at hsingle
    cases hsingle
    obtain ⟨heq, rfl⟩ := told_pure.1 h
    cases heq
    exact .folded hfolded
  case isFalse hnone =>
    have hplain := Option.not_isSome_iff_eq_none.1 hnone
    obtain ⟨plan, w₂, hplan, h⟩ := told_bind.1 h
    have hfound := planFound_of_told hplan
    cases hfound with
    | some pending starts ends plans =>
      obtain ⟨s', w₃, hs, h⟩ := told_bind.1 h
      obtain ⟨heq, rfl⟩ := told_pure.1 h
      cases heq
      exact .tryStatement hplain (.some pending starts ends plans) hs
    | none drops =>
      have hsame : w₂.graph = w₁.graph ∧ w₂.faithful = w₁.faithful := by
        cases drops <;> exact ⟨rfl, rfl⟩
      dsimp only at h
      have hregion {isLoop : Bool} {stop : Nat} (hstop : i < stop)
          (hhead : isLoop = true → (w₁.graph.exit id).isJump = false)
          (h : (do
            let s ← regionSection ctx inner (stop - i) isLoop
              (← slice list i stop) (list[stop]?.or after)
            return (s, stop) : Partition (Section × Nat)).told w₂ =
              .ok ((s, next), w')) :
          SectionTaken ctx inner list after i id w₁ s next w' := by
        rw [told_slice_bind] at h
        obtain ⟨s', w₄, hs, h⟩ := told_bind.1 h
        obtain ⟨heq, rfl⟩ := told_pure.1 h
        cases heq
        exact .region hplain drops hstop hhead hs
      split at h
      case isTrue hswitch =>
        rw [told_switchPlan_bind, hsame.1] at h
        obtain ⟨s', w₄, hs, h⟩ := told_bind.1 h
        obtain ⟨heq, rfl⟩ := told_pure.1 h
        cases heq
        exact .switch hplain drops hswitch hs
      case isFalse hswitch =>
        rw [told_lastBackEdge?_bind, hsame.1] at h
        split at h
        case h_1 last hlast =>
          have hlt := Graph.lt_of_lastBackEdge? hlast
          exact hregion (by omega)
            (fun _ => Graph.isJump_eq_false_of_lastBackEdge? hid hlast) h
        case h_2 =>
          rw [told_jumpsIntoTest_bind] at h
          split at h
          case isTrue =>
            rw [told_extent?_bind] at h
            split at h
            case h_1 stop hstop =>
              have hlt := (Option.filter_eq_some_iff.1 hstop).2
              exact hregion (by simpa using hlt) (fun hl => by cases hl) h
            case h_2 => exact absurd h told_irreducible
          case isFalse hnone =>
            rw [Bool.not_eq_true, Bool.or_eq_false_iff] at hnone
            obtain ⟨s', w₃, hsingle, h⟩ := told_bind.1 h
            rw [told_single_of_plain (hsame.1 ▸ hplain), hsame.1,
              hsame.2] at hsingle
            cases hsingle
            obtain ⟨heq, rfl⟩ := told_pure.1 h
            cases heq
            exact .inline hplain drops (Bool.not_eq_true _ ▸ hswitch) hnone.1

/-- Folding goes on behind a section that has been found, or at the next
position. -/
inductive FoldTaken (inner : Structurer) (nested : RegionStructurer) (n i : Nat)
    (region : List Nat) (w : Told) (region' : List Nat) (w' : Told) : Prop
  | ends (none : region[i]? = none) (eq : region' = region) (same : w' = w)
  | passes {w₁ : Told} (drops : w.Drops w₁)
      (run : (foldNested inner nested n (i + 1) region).told w₁ =
        .ok (region', w'))
  | folds {stop id : Nat} {s : Section} {w₁ : Told}
      (here : region[i]? = some id)
      (inside : id < w.graph.blocks.length) (lt : i < stop)
      (found : NestedFound inner nested region i id w (some (stop, s)) w₁)
      (rest : (foldNested inner nested n (i + 1)
        (region.take (i + 1) ++ region.drop stop)).told
        { w₁ with graph := w₁.graph.fold id s region[stop]? } =
        .ok (region', w'))

/-- Without fuel folding comes to an end only at the end of the region. -/
theorem foldNested_zero_eq_ok {nested : RegionStructurer} {region' : List Nat}
    (h : (foldNested inner nested 0 i region).told w = .ok (region', w')) :
    region[i]? = none ∧ region' = region ∧ w' = w := by
  rw [foldNested, told_next?_bind] at h
  split at h
  · exact ⟨‹_›, told_pure.1 h⟩
  · cases h

/-- How folding goes on from a position. -/
theorem foldTaken_of_told {nested : RegionStructurer} {region' : List Nat}
    (h : (foldNested inner nested (n + 1) i region).told w =
      .ok (region', w')) :
    FoldTaken inner nested n i region w region' w' := by
  rw [foldNested, told_next?_bind] at h
  split at h
  · rename_i hnone
    obtain ⟨rfl, rfl⟩ := told_pure.1 h
    exact .ends hnone rfl rfl
  · rename_i id hid
    obtain ⟨found, w₁, hrun, hthen⟩ := told_bind.1 h
    have hinside : id < w.graph.blocks.length := by
      obtain ⟨b, w₂, hb, _⟩ := told_bind.1 hrun
      exact lt_length_of_told_block hb
    have hfound := nestedFound_of_told hid hrun
    cases found with
    | none =>
      cases hfound with
      | none drops => exact .passes drops hthen
    | some stopped =>
      obtain ⟨stop, s⟩ := stopped
      by_cases hle : stop ≤ i
      · simp only [if_pos hle] at hthen
        cases hthen
      · simp only [if_neg hle] at hthen
        obtain ⟨_, w₂, hfold, hthen⟩ := told_bind.1 hthen
        obtain rfl := told_change.1 hfold
        rw [told_slice_bind, told_slice_bind, List.drop_zero,
          List.take_length] at hthen
        exact .folds hid hinside (Nat.lt_of_not_le hle) hfound hthen

/-! ### Regions and lists -/

/-- What kind of section a region is.  A branch is one once the regions inside
it have been folded. -/
inductive RegionTaken (ctx : Context) (inner : Structurer) (after : Option Nat)
    (w : Told) (s : Section) (w' : Told) : Nat → Bool → List Nat → Prop
  | loop {n first : Nat} {rest : List Nat}
      (run : (loop ctx inner first rest after).told w = .ok (s, w')) :
      RegionTaken ctx inner after w s w' (n + 1) true (first :: rest)
  | jumpEntered {n first : Nat} {rest : List Nat}
      (jump : (w.graph.exit first).isJump = true)
      (run : (jumpEntered ctx inner first rest after).told w = .ok (s, w')) :
      RegionTaken ctx inner after w s w' (n + 1) false (first :: rest)
  | branch {n first head : Nat} {rest others : List Nat} {w₁ : Told}
      (noJump : (w.graph.exit first).isJump = false)
      (fold : (foldNested inner (regionSection ctx inner n) rest.length 1
        (first :: rest)).told w =
        .ok (head :: others, w₁))
      (run : (branch ctx inner head others after).told w₁ = .ok (s, w')) :
      RegionTaken ctx inner after w s w' (n + 1) false (first :: rest)

/-- What a region is found to be. -/
theorem regionTaken_of_told {isLoop : Bool} {fuel : Nat}
    (h : (regionSection ctx inner fuel isLoop list after).told w =
      .ok (s, w')) :
    RegionTaken ctx inner after w s w' fuel isLoop list := by
  cases list with
  | nil => cases fuel <;> cases h
  | cons first rest =>
    cases fuel with
    | zero => cases h
    | succ n =>
      unfold regionSection at h
      cases isLoop with
      | true => exact .loop h
      | false =>
        rw [if_neg Bool.false_ne_true] at h
        rw [told_exit_bind] at h
        split at h
        case isTrue hjump => exact .jumpEntered hjump h
        case isFalse hjump =>
          obtain ⟨region, w₂, hfold, h⟩ := told_bind.1 h
          cases region with
          | nil => cases h
          | cons head others =>
            exact .branch (Bool.eq_false_iff.2 hjump) hfold h

/-- The sections of a list go on behind the one at a position. -/
inductive SectionsTaken (ctx : Context) (inner : Structurer) (list : List Nat)
    (after : Option Nat) (n i : Nat) (w : Told) (ss : List Section)
    (w' : Told) : Prop
  | ends (none : list[i]? = none) (eq : ss = []) (same : w' = w)
  | takes {id next : Nat} {s : Section} {others : List Section} {w₁ : Told}
      (here : list[i]? = some id)
      (run : (sectionAt ctx inner list after i id).told w = .ok ((s, next), w₁))
      (rest : (sectionsFrom ctx inner list after n next).told w₁ =
        .ok (others, w'))
      (eq : ss = s :: others)

/-- Without fuel a list is taken apart only at its end. -/
theorem sectionsFrom_zero_eq_ok {ss : List Section}
    (h : (sectionsFrom ctx inner list after 0 i).told w = .ok (ss, w')) :
    list[i]? = none ∧ ss = [] ∧ w' = w := by
  rw [sectionsFrom, told_next?_bind] at h
  split at h
  · exact ⟨‹_›, told_pure.1 h⟩
  · cases h

/-- How a list is taken apart from a position on. -/
theorem sectionsTaken_of_told {ss : List Section}
    (h : (sectionsFrom ctx inner list after (n + 1) i).told w = .ok (ss, w')) :
    SectionsTaken ctx inner list after n i w ss w' := by
  rw [sectionsFrom, told_next?_bind] at h
  split at h
  case h_1 hnone =>
    obtain ⟨rfl, rfl⟩ := told_pure.1 h
    exact .ends hnone rfl rfl
  case h_2 id hid =>
    obtain ⟨⟨s, next⟩, w₁, hs, h⟩ := told_bind.1 h
    obtain ⟨others, w₂, hothers, h⟩ := told_bind.1 h
    obtain ⟨rfl, rfl⟩ := told_pure.1 h
    exact .takes hid hs hothers rfl

end Partition

end Decompiler
