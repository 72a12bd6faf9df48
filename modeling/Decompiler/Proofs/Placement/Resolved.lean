import Decompiler.Decompile
import Decompiler.Proofs.Graph.Unfolded
import Decompiler.Proofs.Placement.Straight

/-!
# Tests and switches are never left over

Every step of taking a graph apart shows straight-line code only.  Nothing is
asked of the method for this: lists may overlap, blocks may be left out, a loop
may turn out to have no test, and a range that cannot be laid out as a statement
is used up in vain.  So no section shows a test or a switch as straight-line
code, and making statements of the sections never fails for one.

* `Partition.resolves_loop`, `Partition.resolves_branch`,
  `Partition.resolves_switch`, `Partition.resolves_tryStatement`: the kinds of
  sections.
* `Partition.resolves_regionSection`: regions, with the regions inside them
  folded.
* `Partition.resolves_sections`: lists of blocks, to any depth.
* `FailsAs.statements`: sections that become statements.
* `resolved_of_partition`, `decompile_resolved`: methods.
-/

namespace Decompiler

namespace Partition

/-! ## Sections -/

/-- A structurer that shows straight-line code only. -/
def StructurerResolves (inner : Structurer) : Prop :=
  ∀ known list after, Resolves known (inner list after) Section.inlinedIn

variable {ctx : Context} {inner : Structurer} {list rest region : List Nat}
  {first id i : Nat} {after : Option Nat} {known : List Nat}

/-- What is shown first and what is shown then are known at the end. -/
theorem append_subset_append {more : List Nat} {shown : List Nat} :
    more ++ shown ⊆ known ++ more ++ shown := by
  rw [List.append_assoc]
  exact List.subset_append_right _ _

/-! ### Loops -/

/-- A loop with its test at the top shows straight blocks only. -/
theorem resolves_headTested? (hinner : StructurerResolves inner)
    {closing : Nat} :
    Resolves known (headTested? ctx inner region closing after)
      fun found => found.elim [] Section.inlined := by
  refine .ask fun found => ?_
  split
  · exact .pure (List.nil_subset _)
  · exact .ask fun tests => .ask fun body => .seq .guard fun cond =>
      .ask fun slice => .bind (hinner _ _ _) fun body =>
        .pure (List.subset_append_right _ _)

/-- A loop with its test at the bottom shows straight blocks only. -/
theorem resolves_tailTested (hinner : StructurerResolves inner) {last : Nat} :
    Resolves known (tailTested ctx inner first last region after)
      Section.inlined := by
  refine .ask fun start => .ask fun tests => ?_
  split
  · exact .irreducible
  · exact .seq .guard fun cond => .ask fun slice =>
      .bind (hinner _ _ _) fun body => .pure (List.subset_append_right _ _)

/-- A loop with edges back to its head shows straight blocks only. -/
theorem resolves_loop (hinner : StructurerResolves inner) :
    Resolves known (loop ctx inner first rest after) Section.inlined := by
  have hendless (known : List Nat) : Resolves known
      (do
        let body ← inner (← slice (first :: rest) 0 rest.length)
          (some (rest.getLastD first))
        return Section.whileLoop (.const true) body) Section.inlined :=
    .ask fun slice => .bind (hinner _ _ _) fun body =>
      .pure (List.subset_append_right _ _)
  unfold loop
  refine .exit fun e => ?_
  split
  · refine .ask fun slice =>
      .change (fun w hw => hw.foldl_continueAt _ _ _) (.exit fun e => ?_)
    dsimp only
    split
    · refine .bind (resolves_headTested? hinner) fun found => ?_
      cases found with
      | some s => exact .pure (List.subset_append_right _ _)
      | none => exact hendless _
    · exact hendless known
  · exact resolves_tailTested hinner

/-- A loop that a jump enters shows straight blocks only. -/
theorem resolves_jumpEntered (hinner : StructurerResolves inner) :
    Resolves known (jumpEntered ctx inner first rest after)
      Section.inlined := by
  refine .ask fun g => ?_
  split
  · refine .ask fun chain => ?_
    split
    · exact .irreducible
    · exact .irreducible
    · exact .seq .guard fun cond => .ask fun slice =>
        .bind (hinner _ _ _) fun body => .pure (List.subset_append_right _ _)
  · exact .irreducible

/-! ### Branches -/

/-- The body of an arm shows straight blocks only. -/
theorem resolves_arm (hinner : StructurerResolves inner) :
    Resolves known (arm ctx inner first rest after) fun r =>
      Section.inlinedIn r.2.1 := by
  refine .ask fun g => .ask fun found => ?_
  split
  · exact .irreducible
  · refine .ask fun tests => .seq .guard fun cond => ?_
    split
    · exact .ask fun test => .fail fun h => h
    · exact .ask fun slice => .bind (hinner _ _ _) fun body =>
        .ask fun others => .pure (List.subset_append_right _ _)

/-- What comes instead of a body shows straight blocks only. -/
theorem resolves_alternative (hinner : StructurerResolves inner) (fuel : Nat) :
    Resolves known (alternative ctx inner after fuel list)
      Section.inlinedInstead := by
  induction fuel generalizing known list with
  | zero =>
    cases list with
    | nil => exact .pure (List.nil_subset _)
    | cons first rest => exact .fail fun h => h
  | succ n ih =>
    cases list with
    | nil => exact .pure (List.nil_subset _)
    | cons first rest =>
      refine .exit fun e => ?_
      split
      · exact .bind (resolves_arm hinner) fun r => .bind ih fun rest =>
          .pure append_subset_append
      · exact .bind (hinner _ _ _) fun body =>
          .pure (List.subset_append_right _ _)

/-- A branch statement shows straight blocks only. -/
theorem resolves_branch (hinner : StructurerResolves inner) :
    Resolves known (branch ctx inner first rest after) Section.inlined :=
  .bind (resolves_arm hinner) fun _ =>
    .bind (resolves_alternative hinner _) fun _ =>
      .pure append_subset_append

/-! ### Switches and try statements -/

/-- The cases of a switch show straight blocks only. -/
theorem resolves_cases (hinner : StructurerResolves inner)
    (spans : List CaseSpan) :
    Resolves known (cases inner list after spans) Section.inlinedInCases := by
  induction spans generalizing known with
  | nil => exact .pure (List.nil_subset _)
  | cons c spans ih =>
    unfold cases
    dsimp only
    split
    · exact .ask fun slice => .bind (hinner _ _ _) fun body =>
        .bind ih fun cs => .pure append_subset_append
    · have hnone (known : List Nat) :
          Resolves known (pure [] : Partition (List Section))
            Section.inlinedIn :=
        .pure (List.nil_subset _)
      exact (hnone _).bind fun body => .bind ih fun cs =>
        .pure append_subset_append

/-- The handlers of a try statement show straight blocks only. -/
theorem resolves_handlers (hinner : StructurerResolves inner)
    (spans : List HandlerSpan) :
    Resolves known (handlers inner list after spans)
      Section.inlinedInHandlers := by
  induction spans generalizing known with
  | nil => exact .pure (List.nil_subset _)
  | cons h spans ih =>
    exact .ask fun slice => .bind (hinner _ _ _) fun body =>
      .bind ih fun hs => .pure append_subset_append

/-- A switch statement shows straight blocks only. -/
theorem resolves_switch (hinner : StructurerResolves inner)
    {plan : SwitchPlan} :
    Resolves known (switch inner list id plan after) Section.inlined :=
  .bind (resolves_cases hinner _) fun _ => .pure (List.subset_append_right _ _)

/-- A try statement shows straight blocks only. -/
theorem resolves_tryStatement (hinner : StructurerResolves inner)
    {group : TryGroup} {plan : TryPlan} :
    Resolves known (tryStatement inner list i group plan after)
      Section.inlined :=
  .use (.ask fun _ => .bind (hinner _ _ _) fun _ =>
    .bind (resolves_handlers hinner _) fun _ => .pure append_subset_append)

/-! ### Regions inside regions -/

/-- Regions that show straight-line code only. -/
def RegionsResolve (nested : RegionStructurer) : Prop :=
  ∀ known isLoop region after, Resolves known (nested isLoop region after)
    Section.inlined

/-- The section of a region, if the region ends before the list it is in
does. -/
theorem resolves_before (stop : Nat) {k : Nat → Partition Section}
    (hk : ∀ next, Resolves known (k next) Section.inlined) : Resolves known
      (match region[stop]? with
        | some next => do return some (stop, ← k next)
        | none => return none) fun found => found.elim [] (·.2.inlined) := by
  split
  · exact .bind (hk _) fun s => .pure (List.subset_append_right _ _)
  · exact .pure (List.nil_subset _)

/-- The section of a region inside a region shows straight blocks only. -/
theorem resolves_nestedAt {nested : RegionStructurer}
    (hinner : StructurerResolves inner) (hnested : RegionsResolve nested) :
    Resolves known (nestedAt inner nested region i id)
      fun found => found.elim [] (·.2.inlined) := by
  unfold nestedAt
  dsimp only
  refine .block fun b => ?_
  split
  · exact .pure (List.nil_subset _)
  · refine .seq .tryPlan? fun found => ?_
    split
    · exact resolves_before _ fun next => resolves_tryStatement hinner
    · split
      · exact .ask fun plan =>
          resolves_before _ fun next => resolves_switch hinner
      · refine .ask fun last => ?_
        split
        · exact resolves_before _ fun next =>
            .ask fun slice => hnested _ _ _ _
        · refine .ask fun jumps => ?_
          split
          · refine .ask fun stop => ?_
            split
            · exact resolves_before _ fun next =>
                .ask fun slice => hnested _ _ _ _
            · exact .pure (List.nil_subset _)
          · exact .pure (List.nil_subset _)

/-- Folding the regions inside a region folds sections that show straight blocks
only. -/
theorem resolves_foldNested {nested : RegionStructurer}
    (hinner : StructurerResolves inner) (hnested : RegionsResolve nested)
    (fuel : Nat) :
    Resolves known (foldNested inner nested fuel i region) fun _ => [] := by
  induction fuel generalizing known i region with
  | zero =>
    refine .ask fun found => ?_
    split
    · exact .pure (List.nil_subset _)
    · exact .fail fun h => h
  | succ n ih =>
    refine .ask fun found => ?_
    split
    · exact .pure (List.nil_subset _)
    · refine .bind (resolves_nestedAt hinner hnested) fun found => ?_
      cases found with
      | none => exact ih
      | some found =>
        obtain ⟨stop, s⟩ := found
        dsimp only
        split
        · exact .fail fun h => h
        -- the sections of the region are known from here on
        exact .change (fun w hw => hw.fold _ (List.subset_append_right _ _) _)
          (.ask fun front => .ask fun others => ih)

/-- The section of a region shows straight blocks only. -/
theorem resolves_regionSection (hinner : StructurerResolves inner)
    (fuel : Nat) : RegionsResolve (regionSection ctx inner fuel) := by
  induction fuel with
  | zero =>
    intro known isLoop region after
    cases region <;> exact .fail fun h => h
  | succ n ih =>
    intro known isLoop region after
    cases region with
    | nil => exact .fail fun h => h
    | cons first rest =>
      unfold regionSection
      split
      · exact resolves_loop hinner
      · refine .exit fun e => ?_
        split
        · exact resolves_jumpEntered hinner
        · refine .seq (resolves_foldNested hinner ih _) fun left => ?_
          cases left with
          | nil => exact .fail fun h => h
          | cons first rest => exact resolves_branch hinner

/-! ### Lists -/

/-- The section at a position shows straight blocks only. -/
theorem resolves_sectionAt (hinner : StructurerResolves inner) :
    Resolves known (sectionAt ctx inner list after i id) (·.1.inlined) := by
  have hregion (known : List Nat) (isLoop : Bool) (stop : Nat) : Resolves known
      (do
        let s ← regionSection ctx inner (stop - i) isLoop (← slice list i stop)
          (list[stop]?.or after)
        return (s, stop)) (·.1.inlined) :=
    .ask fun slice => .bind (resolves_regionSection hinner _ _ _ _ _) fun s =>
      .pure (List.subset_append_right _ _)
  unfold sectionAt
  dsimp only
  refine .block_or_single (fun b => ?_) fun s =>
    .pure (List.subset_append_right _ _)
  refine .seq .tryPlan? fun found => ?_
  split
  · exact .bind (resolves_tryStatement hinner) fun s =>
      .pure (List.subset_append_right _ _)
  · split
    · exact .ask fun plan => .bind (resolves_switch hinner) fun s =>
        .pure (List.subset_append_right _ _)
    · rename_i hswitch
      refine .ask fun last => ?_
      split
      · exact hregion _ true _
      · refine .ask fun jumps => ?_
        split
        · refine .ask fun stop => ?_
          split
          · exact hregion _ false _
          · exact .irreducible
        · rename_i hbranch
          have hshown : id ∈ shownBy id b := by
            rw [Bool.not_eq_true] at hbranch hswitch
            simp [shownBy, (Bool.or_eq_false_iff.1 hbranch).1, hswitch]
          exact .bind (.single (List.mem_append_right _ hshown)) fun s =>
            .pure (List.subset_append_right _ _)

/-- The sections of a list show straight blocks only. -/
theorem resolves_sectionsFrom (hinner : StructurerResolves inner) (fuel : Nat) :
    Resolves known (sectionsFrom ctx inner list after fuel i)
      Section.inlinedIn := by
  induction fuel generalizing known i with
  | zero =>
    refine .ask fun found => ?_
    split
    · exact .pure (List.nil_subset _)
    · exact .fail fun h => h
  | succ n ih =>
    refine .ask fun found => ?_
    split
    · exact .pure (List.nil_subset _)
    · exact .bind (resolves_sectionAt hinner) fun r => .bind ih fun ss =>
        .pure append_subset_append

/-- Lists of blocks, to any depth. -/
theorem resolves_sections (depth : Nat) :
    StructurerResolves (sections ctx depth) := by
  induction depth with
  | zero => exact fun known list after => .fail fun h => h
  | succ d ih => exact fun known list after => resolves_sectionsFrom ih _

end Partition

/-! ## Statements -/

namespace FailsAs

variable {ctx : Context} {g : Graph}

/-- A fault of the code is not that of a block left unresolved. -/
theorem of_isOfCode {α : Type} {x : Except Fault α}
    (h : FailsAs Fault.IsOfCode x) : FailsAs (fun f => ¬ f.IsUnresolved) x :=
  h.mono fun _ => Fault.IsOfCode.not_isUnresolved

/-- The actions of a straight block fail for no block left unresolved. -/
theorem actions {id : Nat} (h : g.Straight id) :
    FailsAs (fun f => ¬ f.IsUnresolved) (g.actions ctx id) := by
  have hends : ((g.exit id).isBranch || (g.exit id).isSwitch) = false := by
    rw [h.1, h.2]
    rfl
  unfold Graph.actions
  rw [hends]
  exact (of_isOfCode (run _ _)).bind fun _ => ok _

/-- The selector of a switch fails for no block left unresolved. -/
theorem selector (id : Nat) :
    FailsAs (fun f => ¬ f.IsUnresolved) (g.selector ctx id) := by
  unfold Graph.selector
  refine (of_isOfCode (run _ _)).bind fun outcome => ?_
  split
  · exact error fun h => h
  · dsimp only
    split <;> exact ok _

mutual

/-- A section that shows straight blocks only fails for no block left
unresolved. -/
theorem statement (before : List Statement) : (s : Section) →
    (∀ id ∈ s.inlined, g.Straight id) →
      FailsAs (fun f => ¬ f.IsUnresolved) (g.statement ctx before s)
  | .inline id, h => by
    rw [Graph.statement]
    exact (actions (h id (List.mem_singleton_self id))).bind fun _ => ok _
  | .ifElse cond body rest, h => by
    obtain ⟨hbody, hrest⟩ := List.forall_mem_append.1 h
    rw [Graph.statement]
    exact (statements [] body hbody).bind fun _ =>
      (alternatives rest hrest).bind fun _ => ok _
  | .whileLoop cond body, h => by
    rw [Graph.statement]
    refine (statements [] body h).bind fun _ => ?_
    split <;> exact ok _
  | .doLoop body cond, h => by
    rw [Graph.statement]
    exact (statements [] body h).bind fun _ => ok _
  | .switch id cases, h => by
    rw [Graph.statement]
    exact (selector id).bind fun _ => (FailsAs.cases cases h).bind fun _ => ok _
  | .tryCatch body handlers, h => by
    obtain ⟨hbody, hhandlers⟩ := List.forall_mem_append.1 h
    rw [Graph.statement]
    exact (statements [] body hbody).bind fun _ =>
      (catches handlers hhandlers).bind fun _ => ok _

/-- Sections that show straight blocks only fail for no block left
unresolved. -/
theorem statements (before : List Statement) : (ss : List Section) →
    (∀ id ∈ Section.inlinedIn ss, g.Straight id) →
    FailsAs (fun f => ¬ f.IsUnresolved) (g.statements ctx before ss)
  | [], _ => by
    rw [Graph.statements]
    exact ok before
  | s :: ss, h => by
    obtain ⟨hs, hss⟩ := List.forall_mem_append.1 h
    rw [Graph.statements]
    exact (statement before s hs).bind fun before => statements before ss hss

/-- The same for what comes instead of a body. -/
theorem alternatives : (rest : Alternative Section) →
    (∀ id ∈ Section.inlinedInstead rest, g.Straight id) →
    FailsAs (fun f => ¬ f.IsUnresolved) (g.alternatives ctx rest)
  | .none, _ => by
    rw [Graph.alternatives]
    exact ok _
  | .orIf cond body rest, h => by
    obtain ⟨hbody, hrest⟩ := List.forall_mem_append.1 h
    rw [Graph.alternatives]
    exact (statements [] body hbody).bind fun _ =>
      (alternatives rest hrest).bind fun _ => ok _
  | .otherwise body, h => by
    rw [Graph.alternatives]
    exact (statements [] body h).bind fun _ => ok _

/-- The same for the cases of a switch. -/
theorem cases : (cs : List (Case Section)) →
    (∀ id ∈ Section.inlinedInCases cs, g.Straight id) →
    FailsAs (fun f => ¬ f.IsUnresolved) (g.cases ctx cs)
  | [], _ => by
    rw [Graph.cases]
    exact ok _
  | ⟨keys, isDefault, breaks, body⟩ :: cs, h => by
    obtain ⟨hbody, hcs⟩ := List.forall_mem_append.1 h
    rw [Graph.cases]
    exact (statements [] body hbody).bind fun _ =>
      (cases cs hcs).bind fun _ => ok _

/-- The same for the handlers of a try statement. -/
theorem catches : (hs : List (Handler Section)) →
    (∀ id ∈ Section.inlinedInHandlers hs, g.Straight id) →
    FailsAs (fun f => ¬ f.IsUnresolved) (g.catches ctx hs)
  | [], _ => by
    rw [Graph.catches]
    exact ok _
  | ⟨type, block, body⟩ :: hs, h => by
    obtain ⟨hbody, hhs⟩ := List.forall_mem_append.1 h
    rw [Graph.catches]
    exact (statements [] body hbody).bind fun _ =>
      (catches hs hhs).bind fun _ => ok _

end

end FailsAs

/-! ## Methods -/

variable {ctx : Context} {built g : Graph}

/-- Nothing is folded at the start. -/
theorem Work.knows_start (hbuilt : ctx.method.graph = .ok built)
    (htidy : built.tidy ctx.method = .ok g) : (Work.start ctx g).Knows [] where
  folded id s hs := by
    have hnone := (unfolded_of_tidy hbuilt htidy).folded_block id
    rw [show (Work.start ctx g).graph = g from rfl, hnone] at hs
    cases hs
  straight := List.forall_mem_nil _

/-- The sections of a method show straight-line code only, and are missing for
other reasons. -/
theorem resolved_of_partition (hbuilt : ctx.method.graph = .ok built)
    (htidy : built.tidy ctx.method = .ok g) : match g.partition ctx with
      | .ok (ss, left) => ∀ id ∈ Section.inlinedIn ss, left.Straight id
      | .error f => ¬ f.IsUnresolved := by
  have hsections :
      Partition.StructurerResolves
      (Partition.sections ctx (Work.start ctx g).depth) :=
    Partition.resolves_sections _
  have hresolves :=
    hsections [] (List.range g.blocks.length) none (Work.start ctx g)
      (Work.knows_start hbuilt htidy)
  unfold Graph.partition Graph.takeApart
  dsimp only
  cases hrun :
    (Partition.sections ctx (Work.start ctx g).depth
      (List.range g.blocks.length) none).run (Work.start ctx g) with
  | error f =>
    rw [hrun] at hresolves
    exact hresolves
  | ok r =>
    rw [hrun] at hresolves
    exact hresolves.straight

/-- **Straight-line code.**  No section of a method shows a block as
straight-line code that ends in a test or in a switch when the graph has been
taken apart, and so decompiling never fails for want of a statement for one. -/
theorem decompile_resolved (ctx : Context) :
    (∀ index, ctx.decompile ≠ .error (.unresolvedConditional index)) ∧
      ∀ built tidied ss left, ctx.method.graph = .ok built →
        built.tidy ctx.method = .ok tidied →
        tidied.partition ctx = .ok (ss, left) → ∀ id ∈ Section.inlinedIn ss,
          (left.exit id).isBranch = false ∧
            (left.exit id).isSwitch = false := by
  refine ⟨fun index h => ?_, fun built tidied ss left hbuilt htidy hparts => ?_⟩
  · suffices hother : ¬ (Fault.unresolvedConditional index).IsUnresolved
      from hother trivial
    rcases bind_eq_error.1 h with h | ⟨built, hbuilt, h⟩
    · exact (FailsAs.of_isOfCode (.graph _)).of_eq_error h
    rcases bind_eq_error.1 h with h | ⟨tidied, htidy, h⟩
    · exact (FailsAs.of_isOfCode (.tidy _ _)).of_eq_error h
    have hresolved := resolved_of_partition hbuilt htidy
    rcases bind_eq_error.1 h with h | ⟨⟨ss, left⟩, hparts, h⟩
    · rwa [h] at hresolved
    · rw [hparts] at hresolved
      exact (FailsAs.statements [] ss hresolved).of_eq_error h
  · have hresolved := resolved_of_partition hbuilt htidy
    rwa [hparts] at hresolved

/-- A switch and a try statement inside a loop: the test, the switch and the
jumps are in no section. -/
theorem decompile_resolved_nested :
    let a : Member := ⟨"C", "a", "()Z"⟩
    let b : Member := ⟨"C", "b", "()I"⟩
    let c : Member := ⟨"C", "c", "()V"⟩
    let d : Member := ⟨"C", "d", "()V"⟩
    let m : Method :=
      { instrs :=
        [.label ⟨0⟩, .call .static a, .ifZero .eq ⟨9⟩, .call .static b,
          .lookupSwitch ⟨2⟩ [(1, ⟨1⟩)], .label ⟨1⟩, .call .static c, .goto ⟨3⟩,
          .label ⟨2⟩,
          .call .static d, .label ⟨3⟩, .call .static c, .label ⟨4⟩, .goto ⟨0⟩,
          .label ⟨5⟩, .pop, .call .static d, .goto ⟨0⟩, .label ⟨9⟩, .ret none]
        ranges := [⟨⟨3⟩, ⟨4⟩, ⟨5⟩, none⟩] }
    let ctx : Context := ⟨m, LocalTable.empty.lookup, {}⟩
    (∀ index, ctx.decompile ≠ .error (.unresolvedConditional index)) ∧
      ∃ built tidied ss left, m.graph = .ok built ∧ built.tidy m = .ok tidied ∧
        tidied.partition ctx = .ok (ss, left) ∧
        (tidied.exit 0).isBranch = true ∧ (tidied.exit 1).isSwitch = true ∧
        Section.inlinedIn ss = [2, 4, 5, 7, 9] ∧ ∀ id ∈ [2, 4, 5, 7, 9],
          (left.exit id).isBranch = false ∧
          (left.exit id).isSwitch = false := by
  intro a b c d m ctx
  have hrun : (do
      let built ← m.graph
      let tidied ← built.tidy m
      let parts ← tidied.partition ctx
      return (Section.inlinedIn parts.1, (tidied.exit 0).isBranch,
        (tidied.exit 1).isSwitch)) =
        .ok ([2, 4, 5, 7, 9], true, true) := by decide +kernel
  obtain ⟨built, hbuilt, hrun⟩ := bind_eq_ok.1 hrun
  obtain ⟨tidied, htidied, hrun⟩ := bind_eq_ok.1 hrun
  obtain ⟨⟨ss, left⟩, hparts, hrun⟩ := bind_eq_ok.1 hrun
  obtain ⟨hinlined, hexits⟩ := Prod.mk.inj (Except.ok.inj hrun)
  obtain ⟨hbranch, hswitch⟩ := Prod.mk.inj hexits
  obtain ⟨hdecompile, hstraight⟩ := decompile_resolved ctx
  exact ⟨hdecompile, built, tidied, ss, left, hbuilt, htidied, hparts, hbranch,
    hswitch, hinlined, hinlined ▸ hstraight built tidied ss left hbuilt
      htidied hparts⟩

end Decompiler
