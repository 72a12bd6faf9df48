import Decompiler.Assembly
import Decompiler.Proofs.Region.Stands

/-!
# Sections that say where control goes

Sections follow the control of a method from one place to another if the
statements they become do what the method does on the way.  What comes after
the sections is compared with what the method does from the second place on.

Both are compared up to a number of calls.  A section that makes a call on
every way through it gains one: it agrees on one call more than what comes
after it.  This is what a loop without a test lives on.

* `Follows`, `FollowsAlternative`: what sections, and what comes instead of a
  body, follow.
* `Follows.cons` and a rule for each kind of section.
-/

namespace Decompiler

/-- Whether no statement sets a variable. -/
def Quiet (stmts : List Statement) : Prop :=
  ∀ s ∈ stmts, ∀ (v : Local) (e : Expr), s ≠ .action (.assign v e)

/-- Quiet statements one after the other are quiet. -/
theorem Quiet.append {xs ys : List Statement} (hxs : Quiet xs)
    (hys : Quiet ys) :
    Quiet (xs ++ ys) := fun s hs v e =>
  (List.mem_append.1 hs).elim (hxs s · v e) (hys s · v e)

/-- Behind quiet statements no loop has a counter. -/
theorem Quiet.forLoop?_eq_none {before : List Statement} (h : Quiet before)
    (cond : Condition) (body : List Statement) :
    Statement.forLoop? before cond body = none := by
  unfold Statement.forLoop?
  split
  · rename_i v e hlast
    exact absurd rfl (h _ (List.mem_of_getLast? hlast) v e)
  · rfl

/-- Two graphs whose blocks hold the same instructions. -/
def Graph.SamePlaces (g h : Graph) : Prop :=
  ∀ id, (g.block id).start = (h.block id).start ∧
    (g.block id).stop = (h.block id).stop ∧
    (g.block id).entry = (h.block id).entry

/-- Sections follow control from one behavior to another. -/
def Follows (ctx : Context) (g₀ : Graph) (gain : Nat) (b : Behavior)
    (ss : List Section) (c : Behavior) : Prop :=
  ∀ g : Graph, g.SamePlaces g₀ → ∀ before result : List Statement,
    Quiet before →
    g.statements ctx before ss = .ok result → ∃ stmts, result = before ++
    stmts ∧ Quiet stmts ∧
      ∀ (k : Nat) (rest : List Statement), c.Agree k (executing rest) →
        b.Agree (k + gain) (executing (stmts ++ rest))

/-- What comes instead of a body follows control from one behavior to
another. -/
def FollowsAlternative (ctx : Context) (g₀ : Graph) (b : Behavior)
    (a : Alternative Section) (c : Behavior) : Prop :=
  ∀ g : Graph, g.SamePlaces g₀ → ∀ result : Alternative Statement,
    g.alternatives ctx a = .ok result → ∀ (k : Nat) (rest : List Statement),
      c.Agree k (executing rest) →
      b.Agree k (executing (result.statements ++ rest))

variable {ctx : Context} {g₀ : Graph} {gain : Nat} {b c d : Behavior}
    {s : Section}
  {ss : List Section}

namespace Follows

/-- No sections follow from a behavior to itself. -/
theorem nil (b : Behavior) : Follows ctx g₀ 0 b [] b := by
  intro g _ before result hbefore h
  cases h
  exact ⟨[], by simp, by simp [Quiet], fun k rest hrest => hrest⟩

/-- Fewer calls may be asked to be gained. -/
theorem mono {less : Nat} (h : Follows ctx g₀ gain b ss c)
    (hless : less ≤ gain) : Follows ctx g₀ less b ss c := by
  intro g hg before result hbefore hresult
  obtain ⟨stmts, heq, hquiet, hagree⟩ := h g hg before result hbefore hresult
  exact ⟨stmts, heq, hquiet, fun k rest hrest =>
    (hagree k rest hrest).mono (by omega)⟩

/-- Sections follow one after the other. -/
theorem cons (hs : Follows ctx g₀ gain b [s] c)
    (hss : Follows ctx g₀ 0 c ss d) : Follows ctx g₀ gain b (s :: ss) d := by
  intro g hg before result hbefore h
  obtain ⟨middle, hfirst, hothers⟩ := bind_eq_ok.1 h
  have hone : g.statements ctx before [s] = .ok middle := by
    rw [Graph.statements, hfirst]
    rfl
  obtain ⟨xs, rfl, hxs, hagree⟩ := hs g hg before middle hbefore hone
  obtain ⟨ys, rfl, hys, hagree'⟩ :=
    hss g hg _ result (hbefore.append hxs) hothers
  refine ⟨xs ++ ys, List.append_assoc .., hxs.append hys,
    fun k rest hrest => ?_⟩
  rw [List.append_assoc]
  exact hagree k (ys ++ rest) (hagree' k rest hrest)

/-- What a single section becomes is put after what comes before it. -/
theorem single
    (h : ∀ g : Graph, g.SamePlaces g₀ → ∀ before result : List Statement,
      Quiet before → g.statement ctx before s = .ok result → ∃ stmts,
      result = before ++ stmts ∧
      Quiet stmts ∧ ∀ (k : Nat) (rest : List Statement),
        c.Agree k (executing rest) →
        b.Agree (k + gain) (executing (stmts ++ rest))) :
        Follows ctx g₀ gain b [s] c := by
  intro g hg before result hbefore hresult
  obtain ⟨middle, hfirst, hothers⟩ := bind_eq_ok.1 hresult
  cases hothers
  exact h g hg before _ hbefore hfirst

/-- The statements of a body that follows control. -/
theorem body (h : Follows ctx g₀ gain b ss c) {g : Graph} (hg : g.SamePlaces g₀)
    {stmts : List Statement} (hstmts : g.statements ctx [] ss = .ok stmts)
    (k : Nat) (rest : List Statement) (hrest : c.Agree k (executing rest)) :
    b.Agree (k + gain) (executing (stmts ++ rest)) := by
  obtain ⟨_, rfl, _, hagree⟩ := h g hg [] stmts (by simp [Quiet]) hstmts
  exact hagree k rest hrest

variable {cond : Condition} {yes no : Behavior} {body : List Section}

/-- A conditional follows if its branches do. -/
theorem ifElse {rest : Alternative Section} (hb : b = cond.asking yes no)
    (hstarts : cond.starts = true) (hbody : Follows ctx g₀ 0 yes body c)
    (hrest : FollowsAlternative ctx g₀ no rest c) :
    Follows ctx g₀ 1 b [.ifElse cond body rest] c := by
  refine single fun g hg before result _ h => ?_
  obtain ⟨stmts, hstmts, h⟩ := bind_eq_ok.1 h
  obtain ⟨others, hothers, h⟩ := bind_eq_ok.1 h
  cases h
  refine ⟨[.ifElse cond stmts others],
    rfl, by simp [Quiet], fun k after hafter => ?_⟩
  rw [hb, List.singleton_append, executing_ifElse]
  exact Condition.agree_asking_succ (hbody.body hg hstmts k after hafter)
    (hrest g hg others hothers k after hafter) cond hstarts

/-- A loop with its test at the top follows if its body leads back to the
test. -/
theorem whileLoop (hb : b = cond.asking yes c) (hstarts : cond.starts = true)
    (hbody : Follows ctx g₀ 0 yes body b) :
    Follows ctx g₀ 1 b [.whileLoop cond body] c := by
  refine single fun g hg before result hbefore h => ?_
  obtain ⟨stmts, hstmts, h⟩ := bind_eq_ok.1 h
  simp only [hbefore.forLoop?_eq_none, ite_self] at h
  cases h
  refine ⟨[.whileLoop cond stmts],
    rfl, by simp [Quiet], fun k after hafter => ?_⟩
  exact agree_whileLoop hb hstarts (fun n _ hn => hbody.body hg hstmts n _ hn)
    hafter

/-- A loop without a test follows if its body leads back and makes a call. -/
theorem forever (hbody : Follows ctx g₀ 1 b body b) :
    Follows ctx g₀ 1 b [.whileLoop (.const true) body] c := by
  refine single fun g hg before result hbefore h => ?_
  obtain ⟨stmts, hstmts, h⟩ := bind_eq_ok.1 h
  simp only [hbefore.forLoop?_eq_none, ite_self] at h
  cases h
  refine ⟨[.whileLoop (.const true) stmts],
    rfl, by simp [Quiet], fun k after _ => ?_⟩
  exact agree_forever (fun n hn => hbody.body hg hstmts n _ hn) (k + 1)

/-- A loop with its test at the bottom follows if its body leads to the test. -/
theorem doLoop {test : Behavior} (htest : test = cond.asking b c)
    (hstarts : cond.starts = true) (hbody : Follows ctx g₀ 0 b body test) :
    Follows ctx g₀ 1 b [.doLoop body cond] c := by
  refine single fun g hg before result hbefore h => ?_
  obtain ⟨stmts, hstmts, h⟩ := bind_eq_ok.1 h
  cases h
  refine ⟨[.doLoop stmts cond], rfl, by simp [Quiet], fun k after hafter => ?_⟩
  rw [List.singleton_append, executing_doLoop]
  refine hbody.body hg hstmts (k + 1) _ ?_
  exact agree_whileLoop htest hstarts
    (fun n _ hn => hbody.body hg hstmts n _ hn) hafter

end Follows

namespace FollowsAlternative

/-- Nothing instead of a body follows. -/
theorem none (b : Behavior) : FollowsAlternative ctx g₀ b .none b := by
  intro g _ result h k rest hrest
  cases h
  exact hrest

/-- More tests instead of a body follow if what they guard does. -/
theorem orIf {cond : Condition} {yes no : Behavior} {body : List Section}
    {rest : Alternative Section} (hb : b = cond.asking yes no)
    (hbody : Follows ctx g₀ 0 yes body c)
    (hrest : FollowsAlternative ctx g₀ no rest c) :
    FollowsAlternative ctx g₀ b (.orIf cond body rest) c := by
  intro g hg result h k after hafter
  obtain ⟨stmts, hstmts, h⟩ := bind_eq_ok.1 h
  obtain ⟨others, hothers, h⟩ := bind_eq_ok.1 h
  cases h
  change b.Agree k (executing (.ifElse cond stmts others :: after))
  rw [hb, executing_ifElse]
  exact Condition.agree_asking (hbody.body hg hstmts k after hafter)
    (hrest g hg others hothers k after hafter) cond

/-- A last body instead of one follows if it does. -/
theorem otherwise {body : List Section} (hbody : Follows ctx g₀ 0 b body c) :
    FollowsAlternative ctx g₀ b (.otherwise body) c := by
  intro g hg result h k after hafter
  obtain ⟨stmts, hstmts, h⟩ := bind_eq_ok.1 h
  cases h
  exact hbody.body hg hstmts k after hafter

end FollowsAlternative

end Decompiler
