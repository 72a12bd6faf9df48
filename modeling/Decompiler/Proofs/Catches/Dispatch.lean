import Decompiler.Proofs.Catches.Founded
import Decompiler.Proofs.Graph.Unfolded
import Mathlib

/-!
# The clauses of try statements

Sections hold only try statements of groups.  This is one lemma for each step:
a step that structures runs of an ascending list structures parts of it, and the
parts ascend as well.  A try statement is the only step that makes clauses; what
they are is read off the layout of its group.

* `dispatches_of_tryPlan?`: the clauses of a group that has been laid out.
* `Yields.sections`: no step makes other clauses.
* `dispatches_of_takeApart`: what this says of a method.

Exceptions need not be dispatched as the table says.  A handler that several
ranges share is lost for all of them but the last (`shared_handler_is_lost`),
and ranges with handlers out of order catch in the order of the handlers
(`clauses_out_of_table_order`).
-/

namespace Decompiler

variable {ctx : Context} {g : Graph}

/-- A way to structure ascending runs of blocks whose try statements come from
groups. -/
def StructurerYields (ctx : Context) (g : Graph) (inner : Structurer) : Prop :=
  ∀ (run : List Nat) (after : Option Nat), run.Pairwise (· < ·) →
    Yields ctx g (inner run after) (AllHandled ctx g)

variable {inner : Structurer} {list : List Nat} {after : Option Nat}

/-- Where there are no sections, nothing is caught. -/
theorem allHandled_nil : AllHandled ctx g [] := fun _ hmem => nomatch hmem

/-- Clauses are as they should be in a list if they are in its members. -/
theorem allHandled_cons {s : Section} {ss : List Section}
    (hs : SectionHandled ctx g s) (hss : AllHandled ctx g ss) :
    AllHandled ctx g (s :: ss) :=
  fun clauses hmem => (List.mem_append.1 hmem).elim (hs clauses) (hss clauses)

namespace Yields

/-- The cases of a switch. -/
theorem cases (hinner : StructurerYields ctx g inner)
    (hlist : list.Pairwise (· < ·)) (after : Option Nat)
    (spans : List CaseSpan) :
    Yields ctx g (Partition.cases inner list after spans) fun cs =>
      ∀ clauses ∈ Section.triesInCases cs, Handled ctx g clauses := by
  induction spans with
  | nil => exact pure fun clauses hmem => nomatch hmem
  | cons c spans ih =>
    have hrest (body : List Section) (hbody : AllHandled ctx g body) :
        Yields ctx g (do
            let cs ← Partition.cases inner list after spans
            return (⟨c.keys, c.isDefault, c.breaks, body⟩ ::
              cs : List (Case Section))) fun cs =>
          ∀ clauses ∈ Section.triesInCases cs, Handled ctx g clauses := by
      refine ih.bind fun cs hcs => pure fun clauses hmem => ?_
      exact (List.mem_append.1 hmem).elim (hbody clauses) (hcs clauses)
    unfold Partition.cases
    dsimp only
    split
    · exact slice ((hinner _ after (pairwise_slice hlist _ _)).bind hrest)
    · exact (pure allHandled_nil).bind hrest

/-- The section of a switch has clauses as they should be if those of its cases
are. -/
theorem switch (hinner : StructurerYields ctx g inner)
    (hlist : list.Pairwise (· < ·)) (id : Nat) (plan : SwitchPlan)
    (after : Option Nat) :
    Yields ctx g (Partition.switch inner list id plan after)
      (SectionHandled ctx g) :=
  (cases hinner hlist _ _).bind fun _ hcs => pure hcs

/-- What a clause is for a handler's run: it has its block and type, and its
body is the partition of the run. -/
def Clause (g : Graph) (inner : Structurer) (list : List Nat)
    (after : Option Nat) (h : HandlerSpan) (c : Handler Section) : Prop :=
  (c.block, c.type) = (h.block, h.type) ∧ ∃ w w', w.graph.SamePlaces g ∧
    (inner ((list.take h.stop).drop h.start) after).run w = .ok (c.body, w')

/-- The clauses of a try statement stand for its handlers, one for one. -/
theorem handlers (hinner : StructurerYields ctx g inner)
    (hlist : list.Pairwise (· < ·)) (after : Option Nat)
    (spans : List HandlerSpan) :
    Yields ctx g (Partition.handlers inner list after spans) fun cs =>
      (∀ clauses ∈ Section.triesInHandlers cs, Handled ctx g clauses) ∧
        List.Forall₂ (Clause g inner list after) spans cs := by
  induction spans with
  | nil => exact pure ⟨List.forall_mem_nil _, .nil⟩
  | cons h spans ih =>
    have hbody :
        Yields ctx g (inner ((list.take h.stop).drop h.start) after) fun body =>
        AllHandled ctx g body ∧
          Clause g inner list after h ⟨h.type, h.block, body⟩ := by
      intro w body w' hw hrun
      obtain ⟨hw', hhandled⟩ :=
        hinner _ after (pairwise_slice hlist _ _) w body w' hw hrun
      exact ⟨hw', hhandled, rfl, w, w', hw.places, hrun⟩
    unfold Partition.handlers
    refine slice (hbody.bind fun body hbody => ih.bind fun cs hrest => pure ?_)
    obtain ⟨hhandled, hclause⟩ := hbody
    obtain ⟨hcs, hclauses⟩ := hrest
    refine ⟨fun clauses hmem => ?_, .cons hclause hclauses⟩
    exact (List.mem_append.1 hmem).elim (hhandled clauses) (hcs clauses)

end Yields

/-- No blocks have no sections. -/
theorem eq_nil_of_run_sections {depth : Nat} {body : List Section} {w w' : Work}
    (h : (Partition.sections ctx depth [] after).run w = .ok (body, w')) :
    body = [] := by
  cases depth <;> cases h
  rfl

/-- Some blocks have some sections. -/
theorem ne_nil_of_run_sections {depth first : Nat} {rest : List Nat}
    {body : List Section} {w w' : Work}
    (h : (Partition.sections ctx depth (first :: rest) after).run w =
      .ok (body, w')) :
    body ≠ [] := by
  obtain ⟨_, htold, -, -⟩ := Partition.exists_told_of_run h
  cases depth with
  | zero => cases h
  | succ d =>
    cases Partition.sectionsTaken_of_told htold with
    | ends hnone => cases hnone
    | takes _ _ _ eq => exact eq ▸ List.cons_ne_nil _ _

/-- Clauses split where their handlers do. -/
theorem exists_split_of_forall₂ {α β : Type} {R : α → β → Prop} {xs : List α}
    {front rest : List β} {y : β} (h : List.Forall₂ R xs (front ++ y :: rest)) :
    ∃ front' x rest', xs = front' ++ x :: rest' ∧ R x y ∧
      List.Forall₂ R rest' rest := by
  induction front generalizing xs with
  | nil =>
    cases h with
    | cons hxy hrest => exact ⟨[], _, _, rfl, hxy, hrest⟩
  | cons z front ih =>
    cases h with
    | cons _ hrest =>
      obtain ⟨front', x, rest', rfl, hxy, hsplit⟩ := ih hrest
      exact ⟨_ :: front', x, rest', rfl, hxy, hsplit⟩

/-- The clauses have the blocks and types of the runs they stand for. -/
theorem map_clauses {spans : List HandlerSpan}
    {clauses : List (Handler Section)}
    (h : List.Forall₂ (Yields.Clause g inner list after) spans clauses) :
    clauses.map (fun c => (c.block, c.type)) = spans.map fun h =>
      (h.block, h.type) := by
  induction h with
  | nil => rfl
  | cons hclause _ ih => rw [List.map_cons, List.map_cons, hclause.1, ih]

/-- The first clause with a property is the first in the order of the blocks. -/
theorem find?_clauses {ranges : List (Nat × Option String)}
    {clauses : List (Handler Section)}
    (h : clauses.map (fun c => (c.block, c.type)) = Order.sortOn (·.1) ranges)
    (catches : String → Bool) :
    (clauses.find? (·.type.all catches)).map (fun c => (c.block, c.type)) =
      (Order.sortOn (·.1) ranges).find? (·.2.all catches) := by
  rw [← h, List.find?_map]
  rfl

/-- Some clause catches what some range does, and no more. -/
theorem isSome_find?_clauses {ranges : List (Nat × Option String)}
    {clauses : List (Handler Section)}
    (h : clauses.map (fun c => (c.block, c.type)) = Order.sortOn (·.1) ranges)
    (catches : String → Bool) :
    (clauses.find? (·.type.all catches)).isSome =
      (ranges.find? (·.2.all catches)).isSome := by
  have hfind := congrArg Option.isSome (find?_clauses h catches)
  rw [Option.isSome_map] at hfind
  rw [hfind, Bool.eq_iff_iff, List.find?_isSome, List.find?_isSome]
  simp only [(Order.perm_sortOn _ ranges).mem_iff]

/-- The first clause that catches an exception has the earliest block of the
ranges that do. -/
theorem block_eq_iff_of_find? {ranges : List (Nat × Option String)}
    {clauses : List (Handler Section)}
    (h : clauses.map (fun c => (c.block, c.type)) = Order.sortOn (·.1) ranges)
    (catches : String → Bool) (range : Nat × Option String)
    (clause : Handler Section)
    (hrange : ranges.find? (·.2.all catches) = some range)
    (hclause : clauses.find? (·.type.all catches) = some clause) :
    clause.block = range.1 ↔ ∀ r ∈ ranges, r.2.all catches = true →
      range.1 ≤ r.1 := by
  have hfind := find?_clauses h catches
  rw [hclause, Option.map_some] at hfind
  have hleast {r : Nat × Option String} (hr : r ∈ ranges)
      (hcatch : r.2.all catches = true) :
      clause.block ≤ r.1 := Order.key_le_of_find?_sortOn hfind.symm hr hcatch
  constructor
  · intro heq r hr hcatch
    exact heq ▸ hleast hr hcatch
  · intro hfirst
    have hcatch : range.2.all catches = true :=
      List.find?_some (p := fun r : Nat × Option String => r.2.all catches)
        hrange
    have hclauseCatch : clause.type.all catches = true :=
      List.find?_some (p := fun c : Handler Section => c.type.all catches)
        hclause
    have hmem : (clause.block, clause.type) ∈ ranges :=
      (Order.perm_sortOn _ _).mem_iff.1 (List.mem_of_find?_eq_some hfind.symm)
    exact Nat.le_antisymm (hleast (List.mem_of_find?_eq_some hrange) hcatch)
      (hfirst _ hmem hclauseCatch)

/-- The clauses of a group that has been laid out. -/
theorem dispatches_of_tryPlan? {g' : Graph} {t : TryGroup} {plan : TryPlan}
    {depth : Nat} {clauses : List (Handler Section)}
    (hlist : list.Pairwise (· < ·))
    (hgroup : t ∈ TryGroup.ofMethod g ctx.method)
    (hplan : g'.tryPlan? list t = some plan)
    (hjumps : ∀ id, (g'.exit id).isJump = true → (g.exit id).isJump = true)
    (hclauses : List.Forall₂
      (Yields.Clause g (Partition.sections ctx depth) list after)
      plan.handlers clauses) :
    Dispatches ctx g (g.handlersOver t.start t.stop ctx.method.ranges)
      clauses := by
  rw [← TryGroup.handlers_of_mem_ofMethod hgroup]
  have hnonempty := (Graph.laysOut_of_tryPlan? hplan).nonempty
  have horder : clauses.map (fun c => (c.block, c.type)) = Order.sortOn
      (·.1) t.handlers := by
    rw [← Graph.order_of_tryPlan? hlist hplan, map_clauses hclauses]
  refine
    { nonempty := hnonempty
      order := horder
      caught := isSome_find?_clauses horder
      first := block_eq_iff_of_find? horder
      bodies := fun front c rest heq => ?_ }
  · subst heq
    obtain ⟨front', h, rest', hsplit, ⟨heq, w, w', hplaces, hrun⟩, hrest⟩ :=
      exists_split_of_forall₂ hclauses
    obtain ⟨hblock, _⟩ := Prod.mk.inj heq
    have hlaid := Graph.laid_of_tryPlan? hplan hsplit
    have hhead : rest.head?.map (·.block) = rest'.head?.map (·.block) := by
      cases hrest with
      | nil => rfl
      | cons hclause _ => exact congrArg some (Prod.mk.inj hclause.1).1
    rw [hhead, hblock]
    split
    case isTrue hsame =>
      rw [hlaid.shared hsame, List.drop_take_self] at hrun
      exact eq_nil_of_run_sections hrun
    case isFalse hother =>
      refine ⟨list, h.start, h.stop, hlist, hblock ▸ hlaid.here,
        fun next hnext => ?_, ?_, depth, after, w, w', hplaces, hrun⟩
      · cases hrest with
        | nil => cases hnext
        | @cons span _ _ _ hclause _ =>
          cases hnext
          obtain ⟨hthere, hstop⟩ := hlaid.next span rfl
          refine ⟨span.start, (Prod.mk.inj hclause.1).1 ▸ hthere,
            hstop.imp_right ?_⟩
          rintro ⟨hlast, id, hid, hjump⟩
          exact ⟨hlast, id, hid, hjumps id hjump⟩
      · exact (hlaid.runs hother).imp_right fun hjump =>
          hjumps _ (hblock ▸ hjump)

namespace Yields

variable {depth : Nat}

/-- The section of a try statement dispatches as its ranges say. -/
theorem tryStatement
    (hinner : StructurerYields ctx g (Partition.sections ctx depth))
    (hlist : list.Pairwise (· < ·)) (i : Nat) {t : TryGroup} {plan : TryPlan}
    {g' : Graph} (hgroup : t ∈ TryGroup.ofMethod g ctx.method)
    (hplan : g'.tryPlan? list t = some plan)
    (hjumps : ∀ id, (g'.exit id).isJump = true → (g.exit id).isJump = true)
    (after : Option Nat) :
    Yields ctx g
      (Partition.tryStatement (Partition.sections ctx depth) list i t plan after)
      (SectionHandled ctx g) := by
  refine (use t).bind fun _ _ => ?_
  refine slice ((hinner _ _ (pairwise_slice hlist _ _)).bind
    fun body hbody => ?_)
  refine (handlers hinner hlist _ _).bind fun cs ⟨hcs, hclauses⟩ =>
    pure fun clauses hmem => ?_
  rcases List.mem_cons.1 hmem with rfl | hmem
  · exact ⟨t.start, t.stop, dispatches_of_tryPlan? hlist hgroup hplan hjumps
      hclauses⟩
  · exact (List.mem_append.1 hmem).elim (hbody clauses) (hcs clauses)

/-- A loop with its test at the top has clauses as they should be. -/
theorem headTested? (hinner : StructurerYields ctx g inner) {region : List Nat}
    (hregion : region.Pairwise (· < ·)) (closing : Nat) (after : Option Nat) :
    Yields ctx g (Partition.headTested? ctx inner region closing after) fun r =>
      ∀ s, r = some s → SectionHandled ctx g s := by
  unfold Partition.headTested?
  refine ask fun found => ?_
  split
  · exact pure fun _ heq => nomatch heq
  · refine ask fun tests => ask fun first => (guard _ _ _).bind fun cond _ =>
      slice ?_
    refine (hinner _ _ (pairwise_slice hregion _ _)).bind fun body hbody =>
      pure fun s heq => ?_
    cases heq
    exact hbody

/-- A loop with its test at the bottom has clauses as they should be. -/
theorem tailTested (hinner : StructurerYields ctx g inner) (first last : Nat)
    {region : List Nat} (hregion : region.Pairwise (· < ·))
    (after : Option Nat) :
    Yields ctx g (Partition.tailTested ctx inner first last region after)
      (SectionHandled ctx g) := by
  unfold Partition.tailTested
  refine ask fun start => ask fun tests => ?_
  split
  · exact irreducible _
  · exact (guard _ _ _).bind fun cond _ =>
      slice ((hinner _ _ (pairwise_slice hregion _ _)).bind
        fun body hbody => pure hbody)

/-- A loop with edges back to its head has clauses as they should be. -/
theorem loop (hinner : StructurerYields ctx g inner) {first : Nat}
    {rest : List Nat} (hregion : (first :: rest).Pairwise (· < ·))
    (after : Option Nat) :
    Yields ctx g (Partition.loop ctx inner first rest after)
      (SectionHandled ctx g) := by
  have hforever : Yields ctx g (do
      let body ← inner (← Partition.slice (first :: rest) 0 rest.length)
        (some (rest.getLastD first))
      return Section.whileLoop (.const true) body) (SectionHandled ctx g) :=
    slice ((hinner _ _ (pairwise_slice hregion _ _)).bind fun _ h => pure h)
  unfold Partition.loop
  refine exit fun e => ?_
  split
  · refine slice ((change fun w hw => hw.foldl_continueAt _ _ _).bind
      fun _ _ => exit fun e => ?_)
    dsimp only
    split
    · refine (headTested? hinner hregion _ _).bind fun found hfound => ?_
      cases found with
      | some s => exact pure (hfound s rfl)
      | none => exact hforever
    · exact hforever
  · exact tailTested hinner _ _ hregion _

/-- A loop that a jump enters has clauses as they should be. -/
theorem jumpEntered (hinner : StructurerYields ctx g inner) {first : Nat}
    {rest : List Nat} (hregion : (first :: rest).Pairwise (· < ·))
    (after : Option Nat) :
    Yields ctx g (Partition.jumpEntered ctx inner first rest after)
      (SectionHandled ctx g) := by
  have hrest := (List.pairwise_cons.1 hregion).2
  unfold Partition.jumpEntered
  refine ask fun g' => ?_
  split
  · refine ask fun chain => ?_
    split
    · exact irreducible _
    · exact irreducible _
    · exact (guard _ _ _).bind fun cond _ =>
        slice ((hinner _ _ (pairwise_slice hrest _ _)).bind
          fun body hbody => pure hbody)
  · exact irreducible _

/-- The blocks of an alternative ascend as those of the region do. -/
theorem arm (hinner : StructurerYields ctx g inner) {first : Nat}
    {rest : List Nat} (hregion : (first :: rest).Pairwise (· < ·))
    (after : Option Nat) :
    Yields ctx g (Partition.arm ctx inner first rest after) fun r =>
      AllHandled ctx g r.2.1 ∧ r.2.2.Pairwise (· < ·) := by
  unfold Partition.arm
  refine ask fun g' => ask fun found => ?_
  split
  · exact irreducible _
  · refine ask fun tests => (guard _ _ _).bind fun cond _ => ?_
    split
    · exact ask fun test => fail _
    · exact slice ((hinner _ _ (pairwise_slice hregion _ _)).bind
        fun body hbody => slice (pure ⟨hbody, pairwise_slice hregion _ _⟩))

/-- What comes instead of a body has clauses as they should be. -/
theorem alternative (hinner : StructurerYields ctx g inner) (after : Option Nat)
    (fuel : Nat) {region : List Nat} (hregion : region.Pairwise (· < ·)) :
    Yields ctx g (Partition.alternative ctx inner after fuel region) fun a =>
      ∀ clauses ∈ Section.triesInstead a, Handled ctx g clauses := by
  induction fuel generalizing region with
  | zero =>
    cases region with
    | nil => exact pure fun _ hmem => nomatch hmem
    | cons first rest => exact fail _
  | succ n ih =>
    cases region with
    | nil => exact pure fun _ hmem => nomatch hmem
    | cons first rest =>
      refine exit fun e => ?_
      split
      · refine (arm hinner hregion after).bind fun r ⟨hbody, hothers⟩ => ?_
        obtain ⟨cond, body, others⟩ := r
        refine (ih hothers).bind fun a ha => pure fun clauses hmem => ?_
        exact (List.mem_append.1 hmem).elim (hbody clauses) (ha clauses)
      · exact (hinner _ _ hregion).bind fun body hbody => pure hbody

/-- A branch statement has clauses as they should be. -/
theorem branch (hinner : StructurerYields ctx g inner) {first : Nat}
    {rest : List Nat} (hregion : (first :: rest).Pairwise (· < ·))
    (after : Option Nat) :
    Yields ctx g (Partition.branch ctx inner first rest after)
      (SectionHandled ctx g) := by
  refine (arm hinner hregion after).bind fun r ⟨hbody, hothers⟩ => ?_
  obtain ⟨cond, body, others⟩ := r
  refine (alternative hinner _ _ hothers).bind fun a ha =>
    pure fun clauses hmem => ?_
  exact (List.mem_append.1 hmem).elim (hbody clauses) (ha clauses)

/-- The section of a region, if the region ends before the list it is in
does. -/
theorem before {region : List Nat} (stop : Nat) {k : Nat → Partition Section}
    (hk : ∀ next, Yields ctx g (k next) (SectionHandled ctx g)) :
    Yields ctx g (match region[stop]? with
      | some next => do return some (stop, ← k next)
      | none => return none : Partition (Option (Nat × Section))) fun r =>
      ∀ stop s, r = some (stop, s) → SectionHandled ctx g s := by
  split
  · refine (hk _).bind fun s hs => pure fun stop' s' heq => ?_
    cases heq
    exact hs
  · exact pure fun _ _ heq => nomatch heq

/-- The regions inside a region. -/
theorem nestedAt
    (hinner : StructurerYields ctx g (Partition.sections ctx depth))
    {nested : Partition.RegionStructurer}
    (hnested : ∀ isLoop (run : List Nat) after, run.Pairwise (· < ·) →
      Yields ctx g (nested isLoop run after) (SectionHandled ctx g))
    {region : List Nat} (hregion : region.Pairwise (· < ·)) (i id : Nat) :
    Yields ctx g
      (Partition.nestedAt (Partition.sections ctx depth) nested region i id)
      fun r =>
      ∀ stop s, r = some (stop, s) → SectionHandled ctx g s := by
  unfold Partition.nestedAt
  refine (block id).bind fun b _ => ?_
  have hnone :
      Yields ctx g
      (Pure.pure none : Partition (Option (Nat × Section))) fun r =>
      ∀ stop s, r = some (stop, s) → SectionHandled ctx g s :=
    pure fun _ _ heq => nomatch heq
  dsimp only
  split
  · exact hnone
  · refine (tryPlan? region id).bind fun r hr => ?_
    split
    case h_1 t plan =>
      obtain ⟨hgroup, g', hplan, hjumps⟩ := hr t plan rfl
      exact before _ fun next =>
        tryStatement hinner hregion i hgroup hplan hjumps _
    case h_2 =>
      split
      · exact ask fun plan =>
          before _ fun next => switch hinner hregion _ _ _
      · refine ask fun last => ?_
        split
        · exact before _ fun next =>
            slice (hnested _ _ _ (pairwise_slice hregion _ _))
        · refine ask fun jumps => ?_
          split
          · refine ask fun stop => ?_
            split
            · exact before _ fun next =>
                slice (hnested _ _ _ (pairwise_slice hregion _ _))
            · exact hnone
          · exact hnone

/-- Regions that are folded hold sections with clauses as they should be. -/
theorem foldNested
    (hinner : StructurerYields ctx g (Partition.sections ctx depth))
    {nested : Partition.RegionStructurer}
    (hnested : ∀ isLoop (run : List Nat) after, run.Pairwise (· < ·) →
      Yields ctx g (nested isLoop run after) (SectionHandled ctx g))
    (fuel i : Nat) {region : List Nat} (hregion : region.Pairwise (· < ·)) :
    Yields ctx g
      (Partition.foldNested (Partition.sections ctx depth) nested fuel i region)
      (·.Pairwise (· < ·)) := by
  induction fuel generalizing i region with
  | zero =>
    refine ask fun found => ?_
    split
    · exact pure hregion
    · exact fail _
  | succ n ih =>
    refine ask fun found => ?_
    split
    · exact pure hregion
    · rename_i id
      refine (nestedAt hinner hnested hregion i id).bind fun found hfound => ?_
      split
      · exact ih _ hregion
      · rename_i stop s
        split
        · exact fail _
        · rename_i hlt
          refine (fold (hfound stop s rfl) _ id _).bind fun _ _ =>
            slice (slice (ih _ ?_))
          rw [List.drop_zero, List.take_length]
          exact hregion.sublist
            (take_append_drop_sublist (Nat.lt_of_not_le hlt))

/-- The section of a region has clauses as they should be. -/
theorem regionSection
    (hinner : StructurerYields ctx g (Partition.sections ctx depth))
    (fuel : Nat) (isLoop : Bool) {region : List Nat}
    (hregion : region.Pairwise (· < ·)) (after : Option Nat) :
    Yields ctx g
      (Partition.regionSection ctx (Partition.sections ctx depth) fuel isLoop
          region after)
      (SectionHandled ctx g) := by
  induction fuel generalizing isLoop region after with
  | zero => cases region <;> exact fail _
  | succ n ih =>
    cases region with
    | nil => exact fail _
    | cons first rest =>
      unfold Partition.regionSection
      split
      · exact loop hinner hregion after
      · refine exit fun e => ?_
        split
        · exact jumpEntered hinner hregion after
        · refine (foldNested hinner
            (fun isLoop run after h => ih isLoop h after) _ _ hregion).bind
            fun r hr => ?_
          split
          · exact branch hinner hr after
          · exact fail _

/-- The section at a position has clauses as they should be. -/
theorem sectionAt
    (hinner : StructurerYields ctx g (Partition.sections ctx depth))
    (hlist : list.Pairwise (· < ·)) (after : Option Nat) (i id : Nat) :
    Yields ctx g
      (Partition.sectionAt ctx (Partition.sections ctx depth) list after i id)
      fun r => SectionHandled ctx g r.1 := by
  have halone (next : Option Nat) : Yields ctx g (do
      return (← Partition.single id next, i + 1) : Partition (Section × Nat))
      fun r => SectionHandled ctx g r.1 :=
    (single id next).bind fun s hs => pure hs
  have hregion (isLoop : Bool) (stop : Nat) : Yields ctx g (do
      let s ← Partition.regionSection ctx (Partition.sections ctx depth)
        (stop - i) isLoop (← Partition.slice list i stop)
        (list[stop]?.or after)
      return (s, stop) : Partition (Section × Nat)) fun r =>
        SectionHandled ctx g r.1 :=
    slice ((regionSection hinner _ _ (pairwise_slice hlist _ _) _).bind
      fun s hs => pure hs)
  unfold Partition.sectionAt
  refine (block id).bind fun b hb => ?_
  dsimp only
  split
  · exact halone _
  · refine (tryPlan? list id).bind fun r hr => ?_
    split
    case h_1 t plan =>
      obtain ⟨hgroup, g', hplan, hjumps⟩ := hr t plan rfl
      exact (tryStatement hinner hlist i hgroup hplan hjumps _).bind fun s hs =>
        pure hs
    case h_2 =>
      split
      · exact ask fun plan =>
          (switch hinner hlist id _ after).bind fun s hs => pure hs
      · refine ask fun last => ?_
        split
        · exact hregion _ _
        · refine ask fun jumps => ?_
          split
          · refine ask fun stop => ?_
            split
            · exact hregion _ _
            · exact irreducible _
          · exact halone _

/-- The sections of a list have clauses as they should be. -/
theorem sectionsFrom
    (hinner : StructurerYields ctx g (Partition.sections ctx depth))
    (hlist : list.Pairwise (· < ·)) (after : Option Nat) (fuel i : Nat) :
    Yields ctx g
      (Partition.sectionsFrom ctx (Partition.sections ctx depth) list
          after fuel i)
      (AllHandled ctx g) := by
  induction fuel generalizing i with
  | zero =>
    refine ask fun found => ?_
    split
    · exact pure allHandled_nil
    · exact fail _
  | succ n ih =>
    refine ask fun found => ?_
    split
    · exact pure allHandled_nil
    · rename_i id
      refine (sectionAt hinner hlist after i id).bind fun r hr => ?_
      exact (ih r.2).bind fun ss hss => pure (allHandled_cons hr hss)

/-- The sections of a list hold only try statements of groups. -/
theorem sections (depth : Nat) :
    StructurerYields ctx g (Partition.sections ctx depth) := by
  induction depth with
  | zero => exact fun run after _ => fail _
  | succ d ih => exact fun run after hrun => sectionsFrom ih hrun after _ _

end Yields

/-- What holds of the work on a tidy graph at its start. -/
theorem founded_start (hg : g.Unfolded) : Founded ctx g (Work.start ctx g) where
  places := fun _ => ⟨rfl, rfl, rfl⟩
  jumps := fun _ h => h
  pending := fun _ ht => Work.mem_ofMethod_of_start ht
  folded := fun id s hs => by
    change (g.block id).folded = some s at hs
    rw [hg.folded_block] at hs
    cases hs

/-- **Dispatch of exceptions.**  Each try statement of a method stands for the
exception ranges over some blocks.  Its clauses catch what the ranges catch, but
in the order of their handler blocks: the first clause that catches an exception
has the handler of the first range that does if and only if no other range that
does has a handler in front of it.  The body of a clause is the partition of the
blocks from its handler on, unless the next clause has the same handler: then it
is empty. -/
theorem dispatches_of_takeApart {built : Graph} {ss : List Section} {w : Work}
    (hbuilt : ctx.method.graph = .ok built)
    (htidy : built.tidy ctx.method = .ok g)
    (h : g.takeApart ctx = .ok (ss, w)) :
    ∀ clauses ∈ Section.triesIn ss, ∃ start stop,
      Dispatches ctx g (g.handlersOver start stop ctx.method.ranges) clauses :=
  (Yields.sections _ _ _ List.pairwise_lt_range _ _ _
    (founded_start (unfolded_of_tidy hbuilt htidy)) h).2

/-- Three ranges with two handlers: the clauses for the second handler share
it. -/
theorem dispatches_of_sharedHandler :
    let m : Method :=
      { instrs := [.label ⟨0⟩, .call .static ⟨"C", "x", "()V"⟩, .label ⟨1⟩,
          .goto ⟨9⟩, .label ⟨2⟩, .call .static ⟨"C", "y", "()V"⟩, .goto ⟨9⟩,
          .label ⟨3⟩, .store .reference 1, .label ⟨9⟩, .ret none],
        ranges :=
          [⟨⟨0⟩, ⟨1⟩, ⟨2⟩, some "A"⟩, ⟨⟨0⟩, ⟨1⟩, ⟨3⟩, some "B"⟩,
            ⟨⟨0⟩, ⟨1⟩, ⟨3⟩, none⟩] }
    let ctx : Context := ⟨m, LocalTable.empty.lookup, {}⟩
    ∃ built g ss w clauses, m.graph = .ok built ∧ built.tidy m = .ok g ∧
      g.takeApart ctx = .ok (ss, w) ∧ clauses ∈ Section.triesIn ss ∧
      clauses.length = 3 ∧ ∃ start stop,
      Dispatches ctx g (g.handlersOver start stop m.ranges) clauses := by
  intro m ctx
  have hrun : (do
      let built ← m.graph
      let g ← built.tidy m
      let parts ← g.takeApart ctx
      return (Section.triesIn parts.1).map List.length) =
        .ok [3] := by decide +kernel
  obtain ⟨built, hbuilt, hrun⟩ := bind_eq_ok.1 hrun
  obtain ⟨g, htidy, hrun⟩ := bind_eq_ok.1 hrun
  obtain ⟨⟨ss, w⟩, hparts, hrun⟩ := bind_eq_ok.1 hrun
  have hlengths : (Section.triesIn ss).map List.length = [3] :=
    Except.ok.inj hrun
  obtain ⟨clauses, hmem, hlength⟩ : ∃ clauses ∈ Section.triesIn ss,
      clauses.length = 3 :=
    List.mem_map.1 (hlengths ▸ List.mem_singleton_self 3)
  exact ⟨built, g, ss, w, clauses, hbuilt, htidy, hparts, hmem, hlength,
    dispatches_of_takeApart hbuilt htidy hparts clauses hmem⟩

/-- One block that handles two types: the first of its clauses catches its type
and does nothing, so its body is not the partition of any run that starts with
the block. -/
theorem shared_handler_is_lost :
    let m : Method :=
      { instrs := [.label ⟨0⟩, .call .static ⟨"C", "x", "()V"⟩, .label ⟨1⟩,
          .goto ⟨9⟩, .label ⟨2⟩, .store .reference 1,
          .call .static ⟨"C", "y", "()V"⟩, .label ⟨9⟩, .ret none],
        ranges := [⟨⟨0⟩, ⟨1⟩, ⟨2⟩, some "A"⟩, ⟨⟨0⟩, ⟨1⟩, ⟨2⟩, some "B"⟩] }
    let ctx : Context := ⟨m, LocalTable.empty.lookup, {}⟩
    ∃ built g ss w clauses clause, m.graph = .ok built ∧ built.tidy m = .ok g ∧
      g.takeApart ctx = .ok (ss, w) ∧ clauses ∈ Section.triesIn ss ∧
      g.handlersOver 0 1 m.ranges = [(2, some "A"), (2, some "B")] ∧
      clauses.find? (·.type.all (· == "A")) = some clause ∧
      ∀ run, run.head? = some 2 → ¬ IsPartition ctx g run clause.body := by
  intro m ctx
  let clauses : List (Handler Section) :=
    [⟨some "A", 2, []⟩, ⟨some "B", 2, [.inline 2]⟩]
  have hrun : (do
      let built ← m.graph
      let g ← built.tidy m
      let parts ← g.takeApart ctx
      return (Section.triesIn parts.1, g.handlersOver 0 1 m.ranges)) =
        .ok ([clauses], [(2, some "A"), (2, some "B")]) := by cbv
  obtain ⟨built, hbuilt, hrun⟩ := bind_eq_ok.1 hrun
  obtain ⟨g, htidy, hrun⟩ := bind_eq_ok.1 hrun
  obtain ⟨⟨ss, w⟩, hparts, hrun⟩ := bind_eq_ok.1 hrun
  obtain ⟨htries, hranges⟩ := Prod.mk.inj (Except.ok.inj hrun)
  refine ⟨built, g, ss, w, clauses, ⟨some "A", 2, []⟩, hbuilt, htidy, hparts,
    htries ▸ List.mem_singleton_self clauses, hranges, rfl, ?_⟩
  rintro run hhead ⟨depth, after, w, w', _, hbody⟩
  cases run with
  | nil => cases hhead
  | cons first rest => exact ne_nil_of_run_sections hbody rfl

/-- Ranges whose handlers are laid out the other way round: an exception that
both catch goes to the second one's handler. -/
theorem clauses_out_of_table_order :
    let m : Method :=
      { instrs := [.label ⟨0⟩, .call .static ⟨"C", "x", "()V"⟩, .label ⟨1⟩,
          .goto ⟨9⟩, .label ⟨2⟩, .call .static ⟨"C", "y", "()V"⟩, .goto ⟨9⟩,
          .label ⟨3⟩, .call .static ⟨"C", "z", "()V"⟩, .label ⟨9⟩, .ret none],
        ranges := [⟨⟨0⟩, ⟨1⟩, ⟨3⟩, some "A"⟩, ⟨⟨0⟩, ⟨1⟩, ⟨2⟩, none⟩] }
    let ctx : Context := ⟨m, LocalTable.empty.lookup, {}⟩
    ∃ built g ss w clauses, m.graph = .ok built ∧ built.tidy m = .ok g ∧
      g.takeApart ctx = .ok (ss, w) ∧ clauses ∈ Section.triesIn ss ∧
      (g.handlersOver 0 1 m.ranges).find? (·.2.all (· == "A")) =
      some (4, some "A") ∧
      clauses.find? (·.type.all (· == "A")) = some ⟨none, 2, [.inline 2]⟩ := by
  intro m ctx
  let clauses : List (Handler Section) :=
    [⟨none, 2, [.inline 2]⟩, ⟨some "A", 4, [.inline 4]⟩]
  have hrun : (do
      let built ← m.graph
      let g ← built.tidy m
      let parts ← g.takeApart ctx
      return (Section.triesIn parts.1, g.handlersOver 0 1 m.ranges)) =
        .ok ([clauses], [(4, some "A"), (2, none)]) := by cbv
  obtain ⟨built, hbuilt, hrun⟩ := bind_eq_ok.1 hrun
  obtain ⟨g, htidy, hrun⟩ := bind_eq_ok.1 hrun
  obtain ⟨⟨ss, w⟩, hparts, hrun⟩ := bind_eq_ok.1 hrun
  obtain ⟨htries, hranges⟩ := Prod.mk.inj (Except.ok.inj hrun)
  exact ⟨built, g, ss, w, clauses, hbuilt, htidy, hparts,
    htries ▸ List.mem_singleton_self clauses, by rw [hranges]; decide, rfl⟩

end Decompiler
