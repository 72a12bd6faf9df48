import Decompiler.Proofs.Graph.Unfolded
import Decompiler.Proofs.Region.Steps
import Decompiler.Proofs.Switches.Layout

/-!
# The sections of switch code

Without branches and edges back every block is straight-line code or heads a
switch, and taking the graph apart leaves it as it is.  The runs of cases are
taken apart in the same way, so the values of every switch, also of those
inside cases, enter their cases.

* `Graph.Forward`: graphs without branches and edges back.
* `Graph.Enters`: the values of a switch and of the switches inside it enter
  their cases.
* `Lays`, `lays_sections`: sections start where their list does, and enter.
-/

namespace Decompiler

/-- A graph without branches and edges back. -/
structure Graph.Forward (g : Graph) : Prop where
  unfolded : g.Unfolded
  branchless : ∀ id, (g.exit id).isBranch = false
  preds_le : ∀ id < g.blocks.length, ∀ p ∈ (g.block id).preds, p ≤ id
  /-- A key is listed once. -/
  apart : ∀ id arms default, g.exit id = .selects arms default →
    arms.Pairwise fun a c => ∀ key ∈ a.keys, key ∉ c.keys

/-- Every value enters a switch where the graph sends it to, if it runs
anything, and so in the switches inside its cases. -/
inductive Graph.Enters (g : Graph) : Section → Prop
  | inline {id : Nat} (lt : id < g.blocks.length) : g.Enters (.inline id)
  | switch {id : Nat} {cases : List (Case Section)} {arms : List SwitchArm}
      {default : Nat}
      (lt : id < g.blocks.length) (exit : g.exit id = .selects arms default)
      (starts : ∀ value, ∃ t, (g.exit id).next? (.value value) = some t ∧
        Section.StartsAt t (Case.onward (Case.entered value cases)))
      (unlisted : ∀ value, (∀ arm ∈ arms, value ∉ arm.keys) →
        Case.entered value cases = cases.dropWhile fun c => !c.isDefault)
      (bodies : ∀ c ∈ cases, ∀ s ∈ c.body, g.Enters s) :
      g.Enters (.switch id cases)

/-- A way of structuring that leaves a graph as it is, and gives sections that
start where the list does and that values enter. -/
def Lays (g : Graph) (inner : Structurer) : Prop :=
  ∀ (list : List Nat) (after : Option Nat) (w w' : Told) (ss : List Section),
    w.graph = g → w.pending = [] → (inner list after).told w = .ok (ss, w') →
      w'.graph = g ∧ w'.pending = [] ∧ Section.first? ss = list.head? ∧
      ∀ s ∈ ss, g.Enters s

namespace Partition

variable {ctx : Context} {inner : Structurer} {list : List Nat}
    {after : Option Nat}
  {g : Graph} {w w' : Told}

/-- No block heads a loop. -/
theorem lastBackEdge?_eq_none (hg : g.Forward) {i id : Nat}
    (hid : list[i]? = some id) (hlt : id < g.blocks.length) :
    g.lastBackEdge? list i = none := by
  have hpreds : (g.block id).preds.all (· ≤ id) = true :=
    List.all_eq_true.2 fun p hp => by simpa using hg.preds_le id hlt p hp
  simp only [Graph.lastBackEdge?, hid, Option.bind_eq_bind, Option.bind_some,
    hpreds, Bool.or_true, if_true]

/-- No jump leads into a test. -/
theorem jumpsIntoTest_eq_false (hg : g.Forward) (i : Nat) :
    g.jumpsIntoTest list i = false := by
  unfold Graph.jumpsIntoTest
  split
  · simp [hg.branchless]
  · rfl

/-- A block is straight-line code or heads a switch. -/
theorem told_sectionAt_forward {i id next : Nat} {s : Section}
    (hg : w.graph.Forward) (hpending : w.pending = [])
    (hid : list[i]? = some id)
    (h : (sectionAt ctx inner list after i id).told w = .ok ((s, next), w')) :
    id < w.graph.blocks.length ∧
      ((s = .inline id ∧ w'.graph = w.graph ∧ w'.pending = w.pending) ∨
        ∃ cs after', (w.graph.exit id).isSwitch = true ∧ s = .switch id cs ∧
          (cases inner list after' (w.graph.switchPlan list i).cases).told w =
            .ok (cs, w')) := by
  obtain ⟨b, w₁, hb, h⟩ := told_bind.1 h
  have hlt := lt_length_of_told_block hb
  obtain ⟨rfl, rfl⟩ := told_block hb
  have hplain := hg.unfolded.folded_block id
  dsimp only at h
  rw [hplain] at h
  obtain ⟨plan, w₂, hplan, h⟩ := told_bind.1 h
  obtain ⟨rfl, rfl⟩ := told_tryPlan? hpending hplan
  by_cases hswitch : (w₂.graph.block id).exit.isSwitch = true
  · simp only [hswitch, if_true, told_switchPlan_bind] at h
    obtain ⟨s', w₄, hs, h⟩ := told_bind.1 h
    obtain ⟨heq, rfl⟩ := told_pure.1 h
    cases heq
    obtain ⟨cs, w₅, hcs, hs⟩ := told_bind.1 hs
    obtain ⟨rfl, rfl⟩ := told_pure.1 hs
    exact ⟨hlt, .inr ⟨cs, _, hswitch, rfl, hcs⟩⟩
  · have hbranch : (w₂.graph.block id).exit.isBranch = false := hg.branchless id
    simp only [hswitch, told_lastBackEdge?_bind, hbranch,
      lastBackEdge?_eq_none hg hid hlt, told_jumpsIntoTest_bind,
      jumpsIntoTest_eq_false hg, Bool.or_false, Bool.false_eq_true,
      if_false] at h
    obtain ⟨_, w₄, hsingle, h⟩ := told_bind.1 h
    obtain ⟨heq, rfl⟩ := told_pure.1 h
    cases heq
    rw [told_single_of_plain hplain] at hsingle
    cases hsingle
    exact ⟨hlt, .inl ⟨rfl, rfl, rfl⟩⟩

/-- The cases of a switch hold the code of their runs. -/
theorem told_cases (hinner : Lays g inner) {spans : List CaseSpan}
    {cs : List (Case Section)} (hgraph : w.graph = g)
    (hpending : w.pending = [])
    (h : (cases inner list after spans).told w = .ok (cs, w')) :
    w'.graph = g ∧ w'.pending = [] ∧
      List.Forall₂ (SwitchPlan.Filled list) spans cs ∧ ∀ c ∈ cs, ∀ s ∈ c.body,
        g.Enters s := by
  induction spans generalizing w cs with
  | nil =>
    obtain ⟨rfl, rfl⟩ := told_pure.1 h
    exact ⟨hgraph, hpending, .nil, by simp⟩
  | cons span spans ih =>
    have hlater {body : List Section} {w₁ : Told} (hgraph₁ : w₁.graph = g)
        (hpending₁ : w₁.pending = [])
        (hfilled : SwitchPlan.Filled list span
          ⟨span.keys, span.isDefault, span.breaks, body⟩)
        (hbody : ∀ s ∈ body, g.Enters s)
        (h : (do
          let others ← cases inner list after spans
          return ⟨span.keys, span.isDefault, span.breaks, body⟩ :: others :
            Partition (List (Case Section))).told w₁ = .ok (cs, w')) :
        w'.graph = g ∧ w'.pending = [] ∧
          List.Forall₂ (SwitchPlan.Filled list) (span :: spans) cs ∧
          ∀ c ∈ cs, ∀ s ∈ c.body, g.Enters s := by
      obtain ⟨others, w₂, hothers, h⟩ := told_bind.1 h
      obtain ⟨rfl, rfl⟩ := told_pure.1 h
      obtain ⟨hgraph₂, hpending₂, hrest, henters⟩ :=
        ih hgraph₁ hpending₁ hothers
      exact ⟨hgraph₂, hpending₂, .cons hfilled hrest,
        List.forall_mem_cons.2 ⟨hbody, henters⟩⟩
    rw [cases] at h
    by_cases hrun : span.start < span.stop
    · rw [if_pos hrun, told_slice_bind] at h
      obtain ⟨body, w₁, hbody, h⟩ := told_bind.1 h
      obtain ⟨hgraph₁, hpending₁, hfirst, henters⟩ :=
        hinner _ _ _ _ _ hgraph hpending hbody
      refine hlater hgraph₁ hpending₁
        ⟨rfl, rfl, rfl, fun _ hlen => ?_, fun hnot => absurd hrun hnot⟩
        henters h
      have hget : list[span.start]? = some list[span.start] :=
        List.getElem?_eq_getElem hlen
      refine ⟨_, hget, ?_⟩
      rw [hfirst, List.head?_drop, List.getElem?_take, if_pos hrun, hget]
    · rw [if_neg hrun] at h
      obtain ⟨body, w₁, hbody, h⟩ := told_bind.1 h
      obtain ⟨rfl, rfl⟩ := told_pure.1 hbody
      exact hlater hgraph hpending
        ⟨rfl, rfl, rfl, fun hlt => absurd hlt hrun, fun _ => rfl⟩ (by simp) h

/-- The sections of a list from a position on. -/
theorem told_sectionsFrom_forward (hg : g.Forward) (hinner : Lays g inner)
    {fuel i : Nat} {ss : List Section} (hgraph : w.graph = g)
    (hpending : w.pending = [])
    (h : (sectionsFrom ctx inner list after fuel i).told w = .ok (ss, w')) :
    w'.graph = g ∧ w'.pending = [] ∧ Section.first? ss = list[i]? ∧
      ∀ s ∈ ss, g.Enters s := by
  induction fuel generalizing i w ss with
  | zero =>
    obtain ⟨hnone, rfl, rfl⟩ := sectionsFrom_zero_eq_ok h
    exact ⟨hgraph, hpending, hnone.symm, by simp⟩
  | succ n ih =>
    cases sectionsTaken_of_told h with
    | ends none eq same =>
      subst eq same
      exact ⟨hgraph, hpending, none.symm, by simp⟩
    | @takes id next s others w₁ hid hs hothers eq =>
      subst eq hgraph
      obtain ⟨hlt,
          ⟨rfl, hgraph₁, hpending₁⟩ | ⟨cs, after', hswitch, rfl, hcs⟩⟩ :=
        told_sectionAt_forward hg hpending hid hs
      · obtain ⟨hgraph₂, hpending₂, _, henters⟩ :=
          ih hgraph₁ (hpending₁.trans hpending) hothers
        exact ⟨hgraph₂, hpending₂, hid.symm,
          List.forall_mem_cons.2 ⟨.inline hlt, henters⟩⟩
      · obtain ⟨hgraph₁, hpending₁, hfilled, hbodies⟩ :=
          told_cases hinner rfl hpending hcs
        obtain ⟨hgraph₂, hpending₂, _, henters⟩ := ih hgraph₁ hpending₁ hothers
        refine ⟨hgraph₂, hpending₂, hid.symm,
          List.forall_mem_cons.2 ⟨?_, henters⟩⟩
        cases hexit : w.graph.exit id with
        | selects arms default =>
          have hhere :
              list[i]?.map w.graph.exit = some (.selects arms default) := by
            rw [hid, Option.map_some, hexit]
          have hapart := hg.apart id arms default hexit
          exact .switch hlt hexit
            (fun value => hexit ▸ SwitchPlan.startsAt_entered hhere hapart
              hfilled value)
            (fun value => SwitchPlan.entered_of_unlisted hhere hfilled) hbodies
        | falls | jumps | branches | returns | throws =>
          rw [hexit] at hswitch
          cases hswitch

/-- **Sections of switch code.**  Taking a graph without branches and edges back
apart leaves it as it is, and values enter the switches that are found. -/
theorem lays_sections (hg : g.Forward) (depth : Nat) :
    Lays g (sections ctx depth) := by
  induction depth with
  | zero =>
    intro list after w w' ss _ _ h
    cases h
  | succ d ih =>
    intro list after w w' ss hgraph hpending h
    obtain ⟨hgraph', hpending', hfirst, henters⟩ :=
      told_sectionsFrom_forward hg ih hgraph hpending h
    exact ⟨hgraph', hpending', hfirst.trans List.head?_eq_getElem?.symm,
      henters⟩

end Partition

end Decompiler
