import Decompiler.Decompile
import Decompiler.Proofs.Switches.Sections
import Decompiler.Proofs.Switches.Statements
import Mathlib

/-!
# Decompiled switches make the same calls

Statements have no jumps, so a block whose jump is left out must be followed by
the code that the jump leads to.  Where a switch ends is guessed from the jumps
at the ends of its cases, and a wrong guess leaves blocks behind that should be
followed by something else.  Sections without such blocks are trusted, and then
the statements make the calls of the method, whatever its variables hold.

* `Graph.Selects.forward`, `Graph.Selects.placed`: the tidy graph of switch code
  has no branches and no edges back, and its blocks do what they show.
* `Context.continues`: whether the sections of a method are left for what comes
  after them.
* `executing_eq_selecting`: if they are, they become statements that make the
  same calls.
* `executing_iff_selecting_of_decompile`: so does all that is decompiled.

The guess is wrong for a case that ends in a switch of its own: when both
switches end at the same place, the jumps there are those of the inner one, and
the case loses its break, as `nested_break_is_lost` shows.
-/

namespace Decompiler

variable {m : Method} {g : Graph}

/-! ## Tidy graphs of switch code -/

/-- Edges lead to blocks that start later, if blocks that do nothing are
gone. -/
theorem Graph.Selects.start_lt (h : g.Selects m) {n t : Nat}
    (hn : n < g.blocks.length) (hbusy : (g.block n).bypass? m = none)
    (ht : t ∈ (g.block n).exit.successors) :
    (g.block n).start < (g.block t).start := by
  cases h.routed n hn with
  | @falls next exit le straight leads =>
    rw [exit, Exit.successors, Option.mem_toList] at ht
    obtain rfl := ht
    have hlt :=
      Method.lt_of_acts (Block.acts_of_bypass? hbusy exit (h.plain n hn))
    have hle := leads.2.1
    omega
  | jumps exit le straight goto index leads forward =>
    rw [exit, Exit.successors, List.mem_singleton] at ht
    obtain rfl := ht
    have hle := leads.2.1
    omega
  | selects exit stop le straight load table breakPoint apart leads forward =>
    obtain ⟨target, hlt, hreaches⟩ := forward t ht
    have hle := hreaches.2.1
    omega
  | returns exit =>
    rw [exit] at ht
    cases ht

/-- The tidy graph of switch code has no branches and no edges back. -/
theorem Graph.Selects.forward (h : g.Selects m) (hunfolded : g.Unfolded)
    (hrest : g.AtRest m) :
    g.Forward where
  unfolded := hunfolded
  branchless := fun id => by
    rcases Nat.lt_or_ge id g.blocks.length with hid | hge
    · rw [Graph.exit]
      cases h.routed id hid with
      | falls exit | jumps exit | selects exit | returns exit => rw [exit]; rfl
    · rw [Graph.exit, Graph.block_of_length_le hge]
      rfl
  preds_le := fun id hid p hp => by
    rw [← hrest.linked, Graph.preds_linkBack hid] at hp
    obtain ⟨hrange, hedge⟩ := List.mem_filter.1 hp
    have hp := List.mem_range.1 hrange
    have hlt := h.start_lt hp (hrest.busy p hp) (by simpa using hedge)
    by_contra hgt
    have hbehind :=
      List.pairwise_iff_getElem.1 hrest.sorted id p hid hp (by omega)
    rw [← Graph.block_eq_of_getElem? (List.getElem?_eq_getElem hid),
      ← Graph.block_eq_of_getElem? (List.getElem?_eq_getElem hp),
      Order.notBehind] at hbehind
    omega
  apart := fun id arms default hexit => by
    rcases Nat.lt_or_ge id g.blocks.length with hid | hge
    · cases h.routed id hid with
      | selects exit stop le straight load table breakPoint apart =>
        cases hexit.symm.trans exit
        exact apart
      | falls exit | jumps exit | returns exit => cases hexit.symm.trans exit
    · rw [Graph.exit, Graph.block_of_length_le hge] at hexit
      cases hexit

/-- In the tidy graph of switch code a jump has nothing in front of it. -/
theorem Graph.Selects.placed (h : g.Selects m) (hcode : m.isSwitchCode = true)
    (hrest : g.AtRest m) : g.Placed m where
  toSelects := h
  code := hcode
  bare n hn _ hexit := (hrest.isolated n hn).acts_eq_false hexit

/-! ## Sections and statements -/

/-- Whether the sections that a method is taken apart into are left for what
comes after them. -/
def Context.continues (ctx : Context) : Bool :=
  match (do
    let built ← ctx.method.graph
    let tidied ← built.tidy ctx.method
    tidied.takeApart ctx) with
  | .ok (ss, w) => w.graph.continues none ss
  | .error _ => false

variable {ctx : Context}

/-- Sections that are left for what comes after them become statements that
make the calls of the method. -/
theorem executing_eq_selecting (hranges : ctx.method.ranges = [])
    (hslots : ctx.KeepsSlots) (hplaced : g.Placed ctx.method)
    (hforward : g.Forward) {ss : List Section} {w : Work}
    (hparts : g.takeApart ctx = .ok (ss, w))
    (hcontinues : w.graph.continues none ss = true) {stmts : List Statement}
    (hstmts : w.graph.statements ctx [] ss = .ok stmts) (values : Values) :
    values.executing stmts = ctx.method.selecting values 0 := by
  have hpending : (Work.start ctx g).pending = [] := by
    simp only [Work.start, TryGroup.ofMethod, hranges]
    exact ite_self _
  obtain ⟨t, htold, rfl, -⟩ := Partition.exists_told_of_run hparts
  obtain ⟨hgraph, _, hfirst, henters⟩ :=
    Partition.lays_sections hforward _ _ _ _ _ _ rfl hpending htold
  rw [hgraph] at hcontinues hstmts
  have hsound :=
    (continues_of_enters none ss henters hcontinues).executing_eq values hplaced
      hslots hstmts Values.executing_nil
  rw [List.append_nil] at hsound
  have hopens : (Section.first? ss).or none = g.first? := by
    rw [Option.or_none, hfirst, List.head?_range, Graph.first?]
    split <;> split <;> first | rfl | omega
  rw [hsound, hopens, ← hplaced.opens.selecting_eq hplaced.code]

/-- **Soundness of switches.**  Switch code whose sections are left for what
comes after them is decompiled to statements that make the same calls: for all
values of its variables a list of calls comes first in one if it comes first in
the other. -/
theorem executing_iff_selecting_of_decompile (hcode : m.isSwitchCode = true)
    (hranges : m.ranges = []) {table : LocalTable} {recover : Recoveries}
    {stmts : List Statement} (h : m.decompile table recover = .ok stmts)
    (hcontinues : Context.continues ⟨m, table.lookup, recover⟩ = true)
    (values : Values) (answers : Answers) (calls : List Member) :
    values.executing stmts answers calls ↔
      m.selecting values 0 answers calls := by
  obtain ⟨built, hbuilt, h⟩ := bind_eq_ok.1 h
  obtain ⟨tidied, htidied, h⟩ := bind_eq_ok.1 h
  obtain ⟨⟨ss, g⟩, hparts, h⟩ := bind_eq_ok.1 h
  obtain ⟨⟨ss', w⟩, hwork, hpair⟩ := bind_eq_ok.1 hparts
  cases hpair
  have hrun : (do
      let built ← m.graph
      let tidied ← built.tidy m
      tidied.takeApart ⟨m, table.lookup, recover⟩) = .ok (ss, w) :=
    bind_eq_ok.2 ⟨built, hbuilt, bind_eq_ok.2 ⟨tidied, htidied, hwork⟩⟩
  rw [Context.continues, hrun] at hcontinues
  have hselects := selects_of_tidy hcode hranges hbuilt htidied
  have hrest := atRest_of_tidy hbuilt htidied
  rw [executing_eq_selecting hranges (table.keepsSlots m recover)
    (hselects.placed hcode hrest)
    (hselects.forward (unfolded_of_tidy hbuilt htidied) hrest) hwork
    hcontinues h]

/-- A case that falls into the next one, a switch inside a case with a break and
a default of its own, a break, and a default that returns. -/
theorem executing_iff_selecting_of_nested :
    let a : Member := ⟨"C", "a", "()V"⟩
    let b : Member := ⟨"C", "b", "()V"⟩
    let c : Member := ⟨"C", "c", "()V"⟩
    let d : Member := ⟨"C", "d", "()V"⟩
    let e : Member := ⟨"C", "e", "()V"⟩
    let m : Method :=
      { instrs := [.load .int 0, .lookupSwitch ⟨3⟩ [(0, ⟨1⟩), (1, ⟨2⟩)],
          .label ⟨1⟩, .call .static a, .label ⟨2⟩, .load .int 1,
          .lookupSwitch ⟨5⟩ [(5, ⟨4⟩)], .label ⟨4⟩,
          .call .static b, .goto ⟨6⟩, .label ⟨5⟩, .call .static c, .label ⟨6⟩,
          .goto ⟨7⟩,
          .label ⟨3⟩, .call .static d, .ret none, .label ⟨7⟩, .call .static e,
          .ret none],
        ranges := [] }
    let call (f : Member) : Statement := .action (.evaluate (.callStatic f []))
    let x : Local := ⟨0, "local0", some "I"⟩
    let y : Local := ⟨1, "local1", some "I"⟩
    let stmts : List Statement :=
      [.switch (.var x) none
        [⟨[0], false, false, [call a]⟩,
          ⟨[1], false, true,
            [.switch (.var y) none [⟨[5], false, true, [call b]⟩,
              ⟨[], true, false, [call c]⟩]]⟩,
          ⟨[], true, false, [call d, .action (.ret none)]⟩],
        call e, .action (.ret none)]
    m.isSwitchCode = true ∧ m.ranges = [] ∧ m.decompile = .ok stmts ∧
      Context.continues ⟨m, LocalTable.empty.lookup, {}⟩ = true ∧
      ∀ (values : Values) (answers : Answers) (calls : List Member),
        values.executing stmts answers calls ↔
        m.selecting values 0 answers calls := by
  intro a b c d e m call x y stmts
  have hcode : m.isSwitchCode = true := by decide
  have hstmts : m.decompile = .ok stmts := by cbv
  have hcontinues : Context.continues ⟨m, LocalTable.empty.lookup, {}⟩ =
      true := by decide +kernel
  exact ⟨hcode, rfl, hstmts, hcontinues,
    executing_iff_selecting_of_decompile hcode rfl hstmts hcontinues⟩

/-- A switch that is the last statement of a case, and both switches end at the
same place.  The case has no break, so the statements go on with the call of
`c` in the default of the outer switch, and the code does not. -/
theorem nested_break_is_lost :
    let a : Member := ⟨"C", "a", "()V"⟩
    let c : Member := ⟨"C", "c", "()V"⟩
    let m : Method :=
      { instrs := [.load .int 0, .lookupSwitch ⟨3⟩ [(0, ⟨2⟩)], .label ⟨2⟩,
          .load .int 1, .lookupSwitch ⟨5⟩ [(0, ⟨6⟩)], .label ⟨5⟩,
          .call .static a, .goto ⟨1⟩, .label ⟨6⟩,
          .ret none, .label ⟨3⟩, .call .static c, .label ⟨1⟩, .ret none],
        ranges := [] }
    let values : Values := fun slot => if slot = 0 then 0 else 1
    ∃ stmts, m.isSwitchCode = true ∧ m.ranges = [] ∧
      (∀ i < m.length, ∃ values steps, i ∈ m.visits values steps (0, [])) ∧
      m.decompile = .ok stmts ∧
      ∀ answers, values.executing stmts answers [a, c] ∧
        ¬ m.selecting values 0 answers [a, c] := by
  intro a c m values
  have hreached : ∀ i < m.length, ∃ v ∈ [values, fun _ => 0, fun _ => 1],
      i ∈ m.visits v m.length (0, []) := by decide
  have hcalls : m.selecting values 0 = .call a .halt :=
    calc m.selecting values 0
      _ = m.selecting values 2 := Method.selecting_of_switch rfl rfl rfl
      _ = m.selecting values 3 := Method.selecting_of_label rfl
      _ = m.selecting values 5 := Method.selecting_of_switch rfl rfl rfl
      _ = m.selecting values 6 := Method.selecting_of_label rfl
      _ = .call a (m.selecting values 7) := Method.selecting_of_call rfl rfl
      _ = .call a (m.selecting values 12) :=
          congrArg _ (Method.selecting_of_goto rfl rfl)
      _ = .call a (m.selecting values 13) :=
          congrArg _ (Method.selecting_of_label rfl)
      _ = .call a .halt := congrArg _ (Method.selecting_of_ret rfl)
  refine ⟨_, by decide, rfl, fun i hi => ?_, by cbv, fun answers => ⟨?_, ?_⟩⟩
  · obtain ⟨v, _, hvisits⟩ := hreached i hi
    exact ⟨v, m.length, hvisits⟩
  · exact ⟨6, List.prefix_refl _⟩
  · rw [hcalls]
    rintro ⟨_, hnone⟩
    cases hnone

end Decompiler
