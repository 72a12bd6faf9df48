import Decompiler.Proofs.Exits.Loops

/-!
# The edges out of an arm

A branch region is divided by its tests: each run of tests guards a body, and
what comes after the body is asked next or is the last body.  Only the tests say
where one arm ends and the next one starts.

* `Graph.arms?`: the tests and the bodies of a region.
* `exists_armDeals`: what becomes of the edges at the front of a region.
* `arms_of_alternative`, `arms_of_branch`: the arms of a region.
-/

namespace Decompiler

namespace Graph

/-- The tests and the body at the front of a region, and the blocks behind. -/
def armOf? (g : Graph) (after : Option Nat) : List Nat →
      Option (List Nat × List Nat × List Nat)
  | [] => none
  | first :: rest => do
    let region := first :: rest
    let run ← g.testRun? region after
      (rest.takeWhile fun id => (g.exit id).isBranch).length
    let stop ← alternativeStart? region after run
    return (region.take run.size, (region.take stop).drop run.size,
      region.drop stop)

/-- The tests and the bodies of what comes instead of a body. -/
def alternatives? (g : Graph) (after : Option Nat) :
    (fuel : Nat) → List Nat → Option (List (List Nat × List Nat))
  | _, [] => some []
  | 0, _ :: _ => none
  | n + 1, first :: rest => do
    if (g.exit first).isBranch then
      let (tests, body, others) ← g.armOf? after (first :: rest)
      return (tests, body) :: (← g.alternatives? after n others)
    else return [([], first :: rest)]

/-- The tests and the bodies of a branch region.  A last body without a test is
the last of them. -/
def arms? (g : Graph) (after : Option Nat) (region : List Nat) :
    Option (List (List Nat × List Nat)) := do
  let (tests, body, others) ← g.armOf? after region
  return (tests, body) :: (← g.alternatives? after others.length others)

variable {g g' : Graph} {after : Option Nat} {region : List Nat}

/-! ### Graphs with the same edges out of a region -/

/-- The tests at the front of a region depend on the exits of its blocks
only. -/
theorem testRunOf_congr (h : ∀ id ∈ region, g'.exit id = g.exit id)
    (size body : Nat) :
    g'.testRunOf region after size body = g.testRunOf region after size
      body := by
  have hmap : (region.take size).filterMap (fun id => (g'.exit id).target?) =
      (region.take size).filterMap fun id => (g.exit id).target? :=
    List.filterMap_congr fun id hid => by rw [h id (List.take_subset _ _ hid)]
  simp only [testRunOf, hmap]

/-- Whether a run of tests is closed depends on the exits of the region only. -/
theorem isClosed_congr (h : ∀ id ∈ region, g'.exit id = g.exit id)
    (run : TestRun) : g'.isClosed region run = g.isClosed region run := by
  unfold isClosed
  rw [Bool.eq_iff_iff]
  simp only [List.all_eq_true]
  have hsame (id : Nat) (hid : id ∈ region.take run.size) :
      g'.successors id = g.successors id := by
    rw [successors, successors, h id (List.take_subset _ _ hid)]
  constructor
  · intro hall id hid
    rw [← hsame id hid]
    exact hall id hid
  · intro hall id hid
    rw [hsame id hid]
    exact hall id hid

/-- Which run of tests is found depends on the exits of the region only. -/
theorem testRun?_congr (h : ∀ id ∈ region, g'.exit id = g.exit id) (n : Nat) :
    g'.testRun? region after n = g.testRun? region after n := by
  induction n with
  | zero => simp only [testRun?, funext (testRunOf_congr h 1)]
  | succ n ih => simp only [testRun?, testRunOf_congr h, isClosed_congr h, ih]

/-- Which blocks at the front are branches depends on their exits only. -/
theorem takeWhile_isBranch_congr (region : List Nat)
    (h : ∀ id ∈ region, g'.exit id = g.exit id) :
    region.takeWhile (fun id => (g'.exit id).isBranch) =
      region.takeWhile fun id => (g.exit id).isBranch := by
  induction region with
  | nil => rfl
  | cons id rest ih =>
    rw [List.takeWhile_cons, List.takeWhile_cons, h id List.mem_cons_self,
      ih fun x hx => h x (List.mem_cons_of_mem id hx)]

/-- The arm at the front of a region depends on the exits of its blocks only. -/
theorem armOf?_congr (h : ∀ id ∈ region, g'.exit id = g.exit id) :
    g'.armOf? after region = g.armOf? after region := by
  cases region with
  | nil => rfl
  | cons first rest =>
    have hbranch := takeWhile_isBranch_congr rest
      fun id hid => h id (List.mem_cons_of_mem first hid)
    simp only [armOf?, testRun?_congr h, hbranch]

/-- What is left behind an arm is part of the region. -/
theorem others_subset_of_armOf? {tests body others : List Nat}
    (h : g.armOf? after region = some (tests, body, others)) :
    others ⊆ region := by
  cases region with
  | nil => cases h
  | cons first rest =>
    obtain ⟨run, _, h⟩ := Option.bind_eq_some_iff.1 h
    obtain ⟨stop, _, h⟩ := Option.bind_eq_some_iff.1 h
    cases h
    exact List.drop_subset stop _

/-- The arms of a region depend on the exits of its blocks only. -/
theorem alternatives?_congr (after : Option Nat) (fuel : Nat) {list : List Nat}
    (h : ∀ id ∈ list, g'.exit id = g.exit id) :
    g'.alternatives? after fuel list = g.alternatives? after fuel list := by
  induction fuel generalizing list with
  | zero => cases list <;> rfl
  | succ n ih =>
    cases list with
    | nil => rfl
    | cons first rest =>
      rw [alternatives?, alternatives?, h first List.mem_cons_self,
        armOf?_congr h]
      split
      · cases harm : g.armOf? after (first :: rest) with
        | none => rfl
        | some arm =>
          obtain ⟨tests, body, others⟩ := arm
          have hothers :=
            ih fun id hid => h id (others_subset_of_armOf? harm hid)
          simp only [Option.bind_eq_bind, Option.bind_some, hothers]
      · rfl

end Graph

variable {ctx : Context} {inner : Structurer} {list : List Nat} {first : Nat}
    {rest : List Nat}
  {after : Option Nat} {s : Section} {w w' : Told}

/-- What becomes of the edges at the front of a region. -/
structure ArmDeals (region : List Nat) (after : Option Nat) (others : List Nat)
    (w w' : Told) (tests body : List Nat) : Prop where
  arm : w.graph.armOf? after region = some (tests, body, others)
  tested : ∀ (sound : Prop), ∀ id ∈ tests, Dealt sound region after w.toWork id
  deals : Deals body after body w w'
  body_subset : body ⊆ region
  others_subset : others.Sublist region
  disjoint : others.Disjoint body
  all : ∀ id ∈ region, id ∈ tests ∨ id ∈ body ∨ id ∈ others

/-- The arm of a branch deals with the tests and the blocks at the front of its
region. -/
theorem exists_armDeals (hinner : StructurerDeals inner) (hw : w.Consistent)
    (hasc : (first :: rest).Pairwise (· < ·)) {cond : Condition}
    {body : List Section} {others : List Nat}
    (h : (Partition.arm ctx inner first rest after).told w =
      .ok ((cond, body, others), w')) :
    ∃ tests blocks, ArmDeals (first :: rest) after others w w' tests
      blocks := by
  obtain ⟨n, run, stop, w₁, rfl, hrun, hstop, rfl, hguard, hbody⟩ :=
    Partition.told_arm h
  have hfits := Graph.fits_of_testRun? hrun
  obtain ⟨_, hpast⟩ := hfits.head?_of_alternativeStart? hstop
  have hbodyMem : run.body ∈ first :: rest ∨ after = some run.body := by
    have hbody := hfits.body
    cases hget : (first :: rest)[run.size]? with
    | some b =>
      rw [hget] at hbody
      exact .inl (Option.some.inj hbody ▸ List.mem_of_getElem? hget)
    | none =>
      rw [hget] at hbody
      exact .inr hbody
  have hexit (t : Nat) (ht : run.exit = some t) : t ∈ first :: rest ∨
      after = some t := by
    rw [← hpast] at ht
    cases hhead : ((first :: rest).drop stop).head? with
    | some b =>
      rw [hhead] at ht
      exact .inl (Option.some.inj ht ▸ List.drop_subset _ _ (List.mem_of_mem_head? hhead))
    | none =>
      rw [hhead] at ht
      exact .inr ht
  obtain ⟨hchanges, htests⟩ :=
    deals_guard hguard (List.take_subset run.size (first :: rest))
      hbodyMem hexit
  have hdeals := hinner _ _ _ _ _ (hchanges.work.consistent hw)
    (hasc.sublist ((List.drop_sublist _ _).trans (List.take_sublist _ _))) hbody
  refine ⟨_, _, ?_, htests, (Deals.nil hchanges).trans hdeals,
    slice_subset _ _ _, List.drop_sublist _ _, ?_, fun id hid => ?_⟩
  · simp only [Graph.armOf?, hrun, hstop, Option.bind_eq_bind, Option.bind_some,
      Option.pure_def, List.nil_append]
  · exact fun id hid => disjoint_drop_slice (hasc.imp Nat.ne_of_lt) _ _ hid
  · rcases mem_take_or_drop hid run.size with hmem | hmem
    · exact .inl hmem
    · rw [← slice_append_drop (Graph.le_of_alternativeStart? hstop)] at hmem
      exact .inr (List.mem_append.1 hmem)

namespace ArmDeals

variable {region tests body others : List Nat} {w₁ : Told}

/-- The front of a region and what is left of it together are the region. -/
theorem deals_append (h : ArmDeals region after others w w₁ tests body)
    (hothers : Deals others after others w₁ w') :
    Deals region after region w w' := by
  have hboth := (h.deals.within (.same h.body_subset)).trans
    (hothers.within (.same h.others_subset.subset))
  refine hboth.of_subset
    (List.append_subset.2 ⟨h.body_subset, h.others_subset.subset⟩)
    fun id hid => ?_
  rcases h.all id hid with htest | hmem
  · exact .inr (h.tested _ id htest)
  · exact .inl (List.mem_append.2 hmem)

/-- Blocks behind the front of a region stay as they are. -/
theorem block_eq (h : ArmDeals region after others w w₁ tests body) {id : Nat}
    (hid : id ∈ others) : w₁.graph.block id = w.graph.block id :=
  h.deals.changes.work.block_eq fun hmem => h.disjoint hid hmem

end ArmDeals

/-- What becomes of the edges out of the arms of a region. -/
def ArmsDeal (parts : List (List Nat × List Nat)) (after : Option Nat)
    (w w' : Told) : Prop :=
  ∀ part ∈ parts, ∀ id ∈ part.2,
    Dealt (w'.faithful = true) part.2 after w.toWork id

/-- An arm and the arms behind it are arms together. -/
theorem ArmDeals.cons {region tests body others : List Nat}
    {parts : List (List Nat × List Nat)} {w₁ : Told}
    (harm : ArmDeals region after others w w₁ tests body)
    (hothers : Deals others after others w₁ w')
    (hparts : ArmsDeal parts after w₁ w')
    (hinside : ∀ part ∈ parts, part.2 ⊆ others) :
    ArmsDeal ((tests, body) :: parts) after w w' := by
  intro part hpart id hid
  rcases List.mem_cons.1 hpart with rfl | hpart
  · exact (harm.deals.dealt id hid).mono hothers.changes.faithful
  · exact (hparts part hpart id hid).of_later harm.deals.changes.work
      (harm.block_eq (hinside part hpart hid))

/-- The arms of what comes instead of a body. -/
theorem arms_of_alternative (hinner : StructurerDeals inner) {fuel : Nat}
    {a : Alternative Section} (hw : w.Consistent) (hasc : list.Pairwise (· < ·))
    (h : (Partition.alternative ctx inner after fuel list).told w =
      .ok (a, w')) :
    ∃ parts, w.graph.alternatives? after fuel list = some parts ∧
      (∀ part ∈ parts, part.2 ⊆ list) ∧ ArmsDeal parts after w w' ∧
      Deals list after list w w' := by
  replace h := Partition.alternativeTaken_of_told h
  induction h with
  | @none n w =>
    refine ⟨[], ?_, List.forall_mem_nil _, List.forall_mem_nil _,
      .nil (.refl w)⟩
    cases n <;> rfl
  | @orIf n first rest others cond body a w w₁ w' branch arm _ _ ih =>
    obtain ⟨tests, blocks, harm⟩ := exists_armDeals hinner hw hasc arm
    obtain ⟨parts, hparts, hinside, hdealt, hdeals⟩ :=
      ih (harm.deals.changes.work.consistent hw) (hasc.sublist harm.others_subset)
    have hsame := Graph.alternatives?_congr after n
      fun id hid => congrArg Block.exit (harm.block_eq hid)
    refine ⟨(tests, blocks) :: parts, ?_, ?_, harm.cons hdeals hdealt hinside,
      harm.deals_append hdeals⟩
    · rw [Graph.alternatives?, if_pos branch, harm.arm]
      simp only [Option.bind_eq_bind, Option.bind_some, ← hsame, hparts,
        Option.pure_def]
    · exact List.forall_mem_cons.2 ⟨harm.body_subset, fun part hpart =>
        List.Subset.trans (hinside part hpart) harm.others_subset.subset⟩
  | @otherwise n first rest body w w' noBranch run =>
    have hdeals := hinner _ _ _ _ _ hw hasc run
    refine ⟨[([], first :: rest)], ?_, ?_, ?_, hdeals⟩
    · rw [Graph.alternatives?, noBranch]
      rfl
    · exact List.forall_mem_singleton.2 (List.Subset.refl _)
    · exact List.forall_mem_singleton.2 hdeals.dealt

/-- **Arms.**  The arms of a branch region, and what becomes of the edges out of
them. -/
theorem arms_of_branch (hinner : StructurerDeals inner) (hw : w.Consistent)
    (hasc : (first :: rest).Pairwise (· < ·))
    (h : (Partition.branch ctx inner first rest after).told w = .ok (s, w')) :
    ∃ parts, w.graph.arms? after (first :: rest) = some parts ∧
      ArmsDeal parts after w w' ∧ Deals (first :: rest) after (first :: rest) w
        w' := by
  obtain ⟨cond, body, others, a, w₁, rfl, harm, hothers⟩ :=
    Partition.told_branch h
  obtain ⟨tests, blocks, harm⟩ := exists_armDeals hinner hw hasc harm
  obtain ⟨parts, hparts, hinside, hdealt, hdeals⟩ := arms_of_alternative hinner
    (harm.deals.changes.work.consistent hw) (hasc.sublist harm.others_subset)
    hothers
  have hsame := Graph.alternatives?_congr after others.length
    fun id hid => congrArg Block.exit (harm.block_eq hid)
  refine ⟨(tests, blocks) :: parts, ?_, harm.cons hdeals hdealt hinside,
    harm.deals_append hdeals⟩
  rw [Graph.arms?, harm.arm]
  simp only [Option.bind_eq_bind, Option.bind_some, ← hsame, hparts,
    Option.pure_def]

end Decompiler
