import Decompiler.Decompile
import Decompiler.Proofs.Region.Sound
import Mathlib

/-!
# Decompiled code makes the same calls

Statements have no jumps.  The sections of a method are trusted to say where
control goes: a block of straight-line code is followed by what its edge leads
to, and a guard asks the tests of its chain as control meets them.  When they
do, the statements make the calls of the method, whatever the tests answer.

* `Context.showsFlow`: whether the sections of a method say where control goes.
* `executing_eq_running`: if they do, sections become statements that make the
  same calls.
* `executing_iff_running_of_decompile`: so does all that is decompiled.

The sections need not say where control goes.  A test whose ways are the same
is left out of its guard, as `test_without_effect_is_dropped` shows.
-/

namespace Decompiler

/-- Whether the sections that a method is taken apart into say where control
goes. -/
def Context.showsFlow (ctx : Context) : Bool :=
  match (do
    let built ← ctx.method.graph
    built.tidy ctx.method) with
  | .ok tidied => tidied.faithful ctx
  | .error _ => false

variable {ctx : Context} {g : Graph}

/-- What holds of the work on a tidy graph at its start. -/
theorem sure_start (hcode : isCallCode ctx.method.instrs = true)
    (hranges : ctx.method.ranges = []) (hg : Tidied ctx.method g) :
    Sure ctx g ⟨Work.start ctx g, true⟩ where
  length := rfl
  places := fun _ => ⟨rfl, rfl, rfl⟩
  jumps := fun id t ht => by
    rcases Nat.lt_or_ge id g.blocks.length with hlt | hge
    · have ht : (g.block id).exit = .jumps t := ht
      cases stands_of_tidied hcode hg hlt with
      | jumps exit _ runs =>
        cases ht.symm.trans exit
        exact runs
      | falls exit => cases ht.symm.trans exit
      | branches exit => cases ht.symm.trans exit
      | returns exit => cases ht.symm.trans exit
    · have ht : (g.block id).exit = .jumps t := ht
      rw [Graph.block_of_length_le hge] at ht
      cases ht
  noSwitch := fun id => by
    change (g.block id).exit.isSwitch = false
    rcases Nat.lt_or_ge id g.blocks.length with hlt | hge
    · cases stands_of_tidied hcode hg hlt with
      | jumps exit => rw [exit]; rfl
      | falls exit => rw [exit]; rfl
      | branches exit => rw [exit]; rfl
      | returns exit => rw [exit]; rfl
    · rw [Graph.block_of_length_le hge]
      rfl
  branches := fun _ hid => hid
  pending := by
    simp only [Work.start, TryGroup.ofMethod, hranges]
    exact ite_self _
  entries := fun id => by
    rcases Nat.lt_or_ge id g.blocks.length with hlt | hge
    · exact (hg.fresh id hlt).2.1
    · rw [Graph.block_of_length_le hge]
      rfl

/-- Sections that say where control goes become statements that make the calls
of the method. -/
theorem executing_eq_running (hcode : isCallCode ctx.method.instrs = true)
    (hranges : ctx.method.ranges = []) (hg : Tidied ctx.method g)
    {ss : List Section} {w : Work} (hparts : g.takeApart ctx = .ok (ss, w))
    (hfaithful : g.faithful ctx = true) {stmts : List Statement}
    (hstmts : w.graph.statements ctx [] ss = .ok stmts) :
    executing stmts = ctx.method.running 0 := by
  have hsure := sure_start hcode hranges hg
  have hright :
      AllRight ctx g ⟨Work.start ctx g, true⟩ (List.range g.blocks.length) := by
    intro id hid
    have hlt := List.mem_range.1 hid
    exact .cut (hg.fresh id hlt).2.2 (stands_of_tidied hcode hg hlt)
  obtain ⟨t, htold, rfl, hsame⟩ := Partition.exists_told_of_run hparts
  obtain ⟨hw, _⟩ := Confined.sections _ _ _ _ _ _ hsure htold
  have hfollows :=
    follows_sections _ _ _ _ _ _ hsure hright List.nodup_range htold
      (hsame.trans hfaithful)
  have hfirst :
      g.behavior ctx.method ((List.range g.blocks.length).head?.or none) =
      ctx.method.running 0 := by
    rw [hg.first.running_eq hcode, Option.or_none, List.head?_range]
    rcases Nat.eq_zero_or_pos g.blocks.length with hzero | hpos
    · rw [if_pos hzero, if_neg (by omega)]
    · rw [if_neg (by omega), if_pos hpos]
  refine (Behavior.eq_of_agree fun n => ?_).symm
  rw [← hfirst]
  have hagree := hfollows.body hw.places hstmts n [] (by
    rw [executing_nil]
    exact .refl _ _)
  rw [List.append_nil] at hagree
  exact hagree.mono (Nat.le_add_right _ _)

/-- **Soundness of control flow.**  Call code whose sections say where control
goes is decompiled to statements that make the same calls: for all answers of
the tests a list of calls comes first in one if it comes first in the other. -/
theorem executing_iff_running_of_decompile
    (hcode : isCallCode ctx.method.instrs = true)
    (hranges : ctx.method.ranges = []) {stmts : List Statement}
    (h : ctx.decompile = .ok stmts) (hflow : ctx.showsFlow = true)
    (answers : Answers) (calls : List Member) :
    executing stmts answers calls ↔ ctx.method.running 0 answers calls := by
  obtain ⟨built, hbuilt, h⟩ := bind_eq_ok.1 h
  obtain ⟨tidied, htidied, h⟩ := bind_eq_ok.1 h
  obtain ⟨⟨ss, g⟩, hparts, h⟩ := bind_eq_ok.1 h
  obtain ⟨⟨ss', w⟩, hwork, hpair⟩ := bind_eq_ok.1 hparts
  cases hpair
  have hfaithful : tidied.faithful ctx = true := by
    have hrun : (do
        let built ← ctx.method.graph
        built.tidy ctx.method) = .ok tidied :=
      bind_eq_ok.2 ⟨built, hbuilt, htidied⟩
    rwa [Context.showsFlow, hrun] at hflow
  have hg := tidied_of_tidy hcode hranges hbuilt htidied
  rw [executing_eq_running hcode hranges hg hwork hfaithful h]

/-- A loop with a jump back to its test shows where control goes: `while` it
answers yes, the body is called. -/
theorem executing_iff_running_of_loop :
    let t : Member := ⟨"C", "t", "()Z"⟩
    let a : Member := ⟨"C", "a", "()V"⟩
    let m : Method :=
      { instrs :=
        [.label ⟨0⟩, .call .static t, .ifZero .eq ⟨1⟩, .call .static a,
          .goto ⟨0⟩, .label ⟨1⟩, .ret none], ranges := [] }
    let stmts : List Statement :=
      [.whileLoop (.test (.callStatic t []) false)
        [.action (.evaluate (.callStatic a []))], .action (.ret none)]
    isCallCode m.instrs = true ∧ m.ranges = [] ∧ m.decompile = .ok stmts ∧
      Context.showsFlow ⟨m, LocalTable.empty.lookup, {}⟩ = true ∧
      ∀ (answers : Answers) (calls : List Member),
        executing stmts answers calls ↔ m.running 0 answers calls := by
  intro t a m stmts
  have hcode : isCallCode m.instrs = true := by decide
  have hstmts : m.decompile = .ok stmts := by cbv
  have hflow : Context.showsFlow ⟨m, LocalTable.empty.lookup, {}⟩ = true := by
    decide +kernel
  exact ⟨hcode, rfl, hstmts, hflow,
    executing_iff_running_of_decompile hcode rfl hstmts hflow⟩

/-- A test whose ways are the same is left out of its guard, and is not called
any more. -/
theorem test_without_effect_is_dropped :
    let t : Member := ⟨"C", "t", "()Z"⟩
    let m : Method :=
      { instrs := [.call .static t, .ifZero .ne ⟨1⟩, .label ⟨1⟩, .ret none],
        ranges := [] }
    ∃ stmts, isCallCode m.instrs = true ∧ m.decompile = .ok stmts ∧
      ∀ answers, m.running 0 answers [t] ∧ ¬ executing stmts answers [t] := by
  intro t m
  refine ⟨[.ifElse (.const true) [] .none,
    .action (.ret none)], by decide, by cbv,
    fun answers => ⟨⟨1, List.prefix_refl _⟩, ?_⟩⟩
  rw [executing_ifElse, Condition.asking, if_pos rfl, List.nil_append,
    executing_ret]
  exact List.cons_ne_nil t []

end Decompiler
