import Decompiler.Proofs.Graph.Tidy

/-!
# What the blocks of a tidy graph do

Seen from outside a block of call code makes some calls, or asks one test, and
goes on with another block.  Simulating the block shows the same.

* `Graph.behavior`: what the code does from a block on.
* `Stands`: a block that does what its simulation and its edges say.
* `stands_of_tidied`: in a tidy graph all blocks do.
-/

namespace Decompiler

/-- What a method does from a block of a graph on; without a block it is
over. -/
def Graph.behavior (g : Graph) (m : Method) : Option Nat → Behavior
  | some id => m.running (g.block id).start
  | none => .halt

/-- A block of call code does what its simulation shows, and then what is to be
found where its edges lead. -/
inductive Stands (ctx : Context) (place : Option Nat → Behavior) (b : Block) :
    Prop
  | falls {next : Option Nat} {fs : List Member} (exit : b.exit = .falls next)
      (calls : next.isSome = true → fs ≠ [])
      (simulated : ctx.simulate b.start b.stop [] =
        .ok ([], fs.map Action.ofCall))
      (runs : ctx.method.running b.start = .callAll fs (place next))
  | jumps {t : Nat} (exit : b.exit = .jumps t)
      (simulated : ctx.simulate b.start b.stop [] = .ok ([], []))
      (runs : ctx.method.running b.start = place (some t))
  | branches {t : Nat} {o : Option Nat} {f : Member} {negated : Bool}
      (exit : b.exit = .branches t o)
      (test : ∀ (g : Graph) (id : Nat), (g.block id).start = b.start →
        (g.block id).stop = b.stop → (g.block id).breakPoint = b.breakPoint →
        g.test ctx id = .ok (.test (.callStatic f []) negated))
      (runs : ctx.method.running b.start =
        .ask f fun answer => if answer != negated then place (some t)
          else place o)
  | returns {fs : List Member} (exit : b.exit = .returns)
      (simulated : ctx.simulate b.start b.stop [] =
        .ok ([], fs.map Action.ofCall ++ [.ret none]))
      (runs : ctx.method.running b.start = .callAll fs .halt)

variable {ctx : Context} {g : Graph} {place : Option Nat → Behavior}
    {b b' : Block}

/-- Redirecting edges to other blocks that do the same keeps what a block
does. -/
theorem Stands.map (h : Stands ctx place b) {f : Nat → Nat}
    (hf : ∀ t, place (some (f t)) = place (some t))
    (hexit : b'.exit = b.exit.mapTargets f) (hstart : b'.start = b.start)
    (hstop : b'.stop = b.stop) (hbreak : b'.breakPoint = b.breakPoint) :
    Stands ctx place b' := by
  have hnext (next : Option Nat) : place (next.map f) = place next := by
    cases next with
    | none => rfl
    | some t => exact hf t
  cases h with
  | @falls next fs exit calls simulated runs =>
    rw [exit] at hexit
    rw [← hstart, ← hstop] at simulated
    rw [← hstart, ← hnext] at runs
    exact .falls hexit (fun h => calls (by simpa using h)) simulated runs
  | jumps exit simulated runs =>
    rw [exit] at hexit
    rw [← hstart, ← hstop] at simulated
    rw [← hstart, ← hf] at runs
    exact .jumps hexit simulated runs
  | @branches t o f' negated exit test runs =>
    rw [exit] at hexit
    rw [← hstart, ← hstop, ← hbreak] at test
    rw [← hstart, ← hf t, ← hnext o] at runs
    exact .branches hexit test runs
  | returns exit simulated runs =>
    rw [exit] at hexit
    rw [← hstart, ← hstop] at simulated
    rw [← hstart] at runs
    exact .returns hexit simulated runs

theorem Graph.Reaches.running_eq {m : Method}
    (hcode : isCallCode m.instrs = true) {i : Nat} {next : Option Nat}
    (h : g.Reaches m i next) : m.running i = g.behavior m next := by
  cases next with
  | some t => exact Method.running_of_acts_eq_false hcode h.2.1 h.2.2
  | none =>
    rcases Nat.le_total i m.length with hle | hge
    · rw [Method.running_of_acts_eq_false hcode hle h]
      exact Method.running_of_length_le (Nat.le_refl _)
    · exact Method.running_of_length_le hge

/-- The condition of a test with its jump. -/
theorem jumpCondition_test {f : Member} (hf : f.descriptor = "()Z")
    {op : Comparison} (hop : op = .eq ∨ op = .ne) (l : Label) :
    (Instr.ifZero op l).jumpCondition [.callStatic f []] =
      .ok (.test (.callStatic f []) (op == .eq)) := by
  have hintegral : (Expr.callStatic f []).isIntegral = false := by
    simp only [Expr.isIntegral, Expr.descriptor?, hf]
    decide
  rcases hop with rfl | rfl
  · simp [Instr.jumpCondition, Condition.ofZeroTest, hintegral]
  · simp [Instr.jumpCondition, Condition.ofZeroTest, hintegral]

/-- In a tidy graph every block does what its simulation and its edges say. -/
theorem stands_of_tidied (hcode : isCallCode ctx.method.instrs = true)
    (h : Tidied ctx.method g) {n : Nat} (hn : n < g.blocks.length) :
    Stands ctx (g.behavior ctx.method) (g.block n) := by
  have hlean := h.lean n hn
  cases h.wellCut n hn with
  | @falls next exit le straight leads =>
    obtain ⟨fs, hfs⟩ := Method.exists_stretch le straight
    refine .falls exit (fun hnext hnil => ?_) (hfs.run_slice ctx [])
      (by rw [hfs.running, leads.running_eq hcode])
    subst hnil
    cases next with
    | none => cases hnext
    | some t =>
      simp only [Bare, exit, hfs.acts_eq_false] at hlean
      cases hlean
  | jumps exit le straight goto index leads =>
    obtain ⟨fs, hfs⟩ := Method.exists_stretch le straight
    simp only [Bare, exit] at hlean
    obtain rfl := hfs.eq_nil hlean
    refine .jumps exit (hfs.run_slice ctx []) ?_
    rw [hfs.running, Method.running_of_goto goto index, leads.running_eq hcode]
    rfl
  | @branches t target k o f op l exit stop le straight call answers jump equality breakPoint
      index taken fallen =>
    obtain ⟨fs, hfs⟩ := Method.exists_stretch le straight
    simp only [Bare, exit, stop] at hlean
    obtain rfl := hfs.eq_nil hlean
    refine @Stands.branches _ _ _ _ _ f (op == .eq) exit
      (fun g' id hstart hstop hbreak => ?_) ?_
    · have hk : k < ctx.method.length :=
        Method.lt_length_of_instr call (by simp)
      have hstep : ctx.step k (.call .static f) [] =
          .ok ([⟨.made k, .callStatic f []⟩], []) := by
        rw [Context.step, answers]
        rfl
      have hsim : ctx.simulate (g.block n).start (g.block n).stop [] =
          .ok ([⟨.made k, .callStatic f []⟩], []) := by
        rw [stop, hfs.simulate_succ hk, call, hstep]
        rfl
      have hcondition : (ctx.method.instr (g.block n).breakPoint).jumpCondition
          (Stack.exprs [⟨.made k, .callStatic f []⟩]) =
            .ok (.test (.callStatic f []) (op == .eq)) := by
        rw [breakPoint, jump]
        exact jumpCondition_test answers equality l
      simp only [Graph.test, hstart, hstop, hbreak]
      refine bind_eq_ok.2 ⟨_, hsim, ?_⟩
      simp only [List.isEmpty_nil, hcondition]
      rfl
    · rw [hfs.running, Method.running_of_test call answers jump index,
        taken.running_eq hcode, fallen.running_eq hcode, Behavior.callAll_nil]
      congr 1
      funext answer
      rcases equality with rfl | rfl <;> cases answer <;> rfl
  | @returns k exit stop le straight ret =>
    obtain ⟨fs, hfs⟩ := Method.exists_stretch le straight
    have hk : k < ctx.method.length := Method.lt_length_of_instr ret (by simp)
    refine .returns exit ?_ (by rw [hfs.running, Method.running_of_ret ret])
    rw [stop, hfs.simulate_succ hk, ret]
    rfl

end Decompiler
