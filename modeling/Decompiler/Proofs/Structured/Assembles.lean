import Decompiler.Assembly
import Decompiler.Proofs.Region.Kept

/-!
# Sections that become statements

Making statements of sections can fail, since a section may show a block as
straight-line code that is none.  Whether it does is the same in all the graphs
that a method goes through while it is taken apart.

* `Assembles`: sections that can be made into statements.
-/

namespace Decompiler

/-- Sections that can be made into statements. -/
def Assembles (ctx : Context) (g₀ : Graph) (ss : List Section) : Prop :=
  ∀ w : Told, Sure ctx g₀ w → ∀ before : List Statement,
    ∃ stmts, w.graph.statements ctx before ss = .ok stmts

/-- What comes instead of a body and can be made into statements. -/
def AssemblesInstead (ctx : Context) (g₀ : Graph) (rest : Alternative Section) :
    Prop :=
  ∀ w : Told, Sure ctx g₀ w → ∃ r, w.graph.alternatives ctx rest = .ok r

variable {ctx : Context} {g₀ : Graph} {place : Option Nat → Behavior} {id : Nat}
    {s : Section}
  {ss body : List Section} {cond : Condition} {rest : Alternative Section}

namespace Assembles

theorem nil : Assembles ctx g₀ [] :=
  fun _ _ before => ⟨before, by rw [Graph.statements]⟩

theorem cons (h : Assembles ctx g₀ [s]) (hs : Assembles ctx g₀ ss) :
    Assembles ctx g₀ (s :: ss) := by
  intro w hw before
  obtain ⟨stmts, hfirst⟩ := h w hw before
  rw [Graph.statements] at hfirst
  obtain ⟨before', hstatement, hnil⟩ := bind_eq_ok.1 hfirst
  obtain ⟨stmts', hrest⟩ := hs w hw before'
  refine ⟨stmts', ?_⟩
  rw [Graph.statements, hstatement]
  exact hrest

/-- A block of straight-line code does not end in a test. -/
theorem inline (hstands : Stands ctx place (g₀.block id))
    (hplain : (g₀.exit id).isBranch = false) :
    Assembles ctx g₀ [.inline id] := by
  intro w hw before
  obtain ⟨hstart, hstop, hentry⟩ := hw.places id
  have hplain' : (w.graph.exit id).isBranch = false := by
    refine Bool.eq_false_iff.2 fun hbranch => ?_
    rw [hw.branches id hbranch] at hplain
    cases hplain
  have hstack : w.graph.entryStack id = [] := by
    rw [Graph.entryStack, hentry, hw.entries id]
  have hsimulated : ∃ actions, w.graph.simulate ctx id = .ok ([], actions) := by
    rw [Graph.simulate, hstack, hstart, hstop]
    cases hstands with
    | falls _ _ simulated => exact ⟨_, simulated⟩
    | jumps _ simulated => exact ⟨_, simulated⟩
    | branches exit =>
      rw [Graph.exit, exit] at hplain
      cases hplain
    | returns _ simulated => exact ⟨_, simulated⟩
  obtain ⟨actions, hsimulated⟩ := hsimulated
  refine ⟨before ++ actions.map .action, ?_⟩
  rw [Graph.statements, Graph.statement, Graph.actions, hplain', hw.noSwitch id,
    hsimulated]
  change Graph.statements w.graph ctx (before ++ actions.map .action) [] = _
  rw [Graph.statements]

theorem ifElse (hbody : Assembles ctx g₀ body)
    (hrest : AssemblesInstead ctx g₀ rest) :
    Assembles ctx g₀ [.ifElse cond body rest] := by
  intro w hw before
  obtain ⟨stmts, hstmts⟩ := hbody w hw []
  obtain ⟨instead, hinstead⟩ := hrest w hw
  refine ⟨before ++ [.ifElse cond stmts instead], ?_⟩
  rw [Graph.statements, Graph.statement, hstmts, hinstead]
  change Graph.statements w.graph ctx (before ++ [.ifElse cond stmts instead])
    [] = _
  rw [Graph.statements]

end Assembles

namespace AssemblesInstead

theorem none : AssemblesInstead ctx g₀ .none :=
  fun _ _ => ⟨.none, by rw [Graph.alternatives]⟩

theorem otherwise (hbody : Assembles ctx g₀ body) :
    AssemblesInstead ctx g₀ (.otherwise body) := by
  intro w hw
  obtain ⟨stmts, hstmts⟩ := hbody w hw []
  refine ⟨.otherwise stmts, ?_⟩
  rw [Graph.alternatives, hstmts]
  rfl

theorem orIf (hbody : Assembles ctx g₀ body)
    (hrest : AssemblesInstead ctx g₀ rest) :
    AssemblesInstead ctx g₀ (.orIf cond body rest) := by
  intro w hw
  obtain ⟨stmts, hstmts⟩ := hbody w hw []
  obtain ⟨instead, hinstead⟩ := hrest w hw
  refine ⟨.orIf cond stmts instead, ?_⟩
  rw [Graph.alternatives, hstmts, hinstead]
  rfl

end AssemblesInstead

end Decompiler
