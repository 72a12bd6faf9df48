import Decompiler.Proofs.Region.Kept
import Mathlib.Data.List.Basic

/-!
# Blocks that are right, and guards that ask what control asks

While a graph is taken apart each block that is still to come either does what
its edges say, or holds the finished structure of a region that does.

* `Right`: such a block.
* `Right.follows_inline`, `Right.follows_folded`: its section follows control.
* `behavior_eq_asking`: a guard asks what control meets in its chain.
-/

namespace Decompiler

variable {ctx : Context} {g g₀ : Graph} {place : Option Nat → Behavior}

/-! ### Tests in order -/

/-- A condition that is the same as a plain test tests the same. -/
theorem Condition.eq_test_of_same {c : Condition} {f : Member} {negated : Bool}
    (h : c.same (.test (.callStatic f []) negated) = true) :
    ∃ v, c = .test v negated ∧ v.plainCall? = some f := by
  cases c with
  | test v n =>
    simp only [same, Bool.and_eq_true, beq_iff_eq] at h
    obtain ⟨hv, rfl⟩ := h
    refine ⟨v, rfl, ?_⟩
    cases v with
    | callStatic m as =>
      cases as with
      | nil =>
        simp only [Expr.same, Bool.and_eq_true, beq_iff_eq] at hv
        rw [Expr.plainCall?, hv.1]
      | cons a as => simp [Expr.same, Expr.sameAll] at hv
    | _ => simp [Expr.same] at hv
  | _ => simp [same] at h

/-- Each block of a chain that is a test asks it and goes where its edges
lead. -/
def Graph.AsksIn (g : Graph) (ctx : Context) (place : Option Nat → Behavior)
    (chain : List Nat) : Prop :=
  ∀ id ∈ chain, ∀ taken fallen test, (g.exit id).target? = some taken →
    (g.exit id).otherwise? = some fallen → g.test ctx id = .ok test →
      ∃ f negated, test = .test (.callStatic f []) negated ∧
        place (some id) = .ask f fun answer =>
          if answer != negated then place (some taken) else place (some fallen)

section Asking

variable {chain : List Nat}

/-- The test that control meets at a block. -/
theorem behavior_eq_asking_test (hchain : g.AsksIn ctx place chain)
    {yes no : Nat → Bool} {y n : Behavior} {id : Nat}
    (hyes : ∀ t, yes t = true → place (some t) = y)
    (hno : ∀ t, no t = true → place (some t) = n) {c : Condition}
    (h : g.asksAt ctx chain c yes no id = true) :
    place (some id) = c.asking y n := by
  unfold Graph.asksAt at h
  split at h
  · rename_i test taken fallen hmem htest htaken hfallen
    obtain ⟨f, negated, rfl, hplace⟩ :=
      hchain id (List.contains_iff_mem.1 hmem) taken fallen test htaken
        hfallen htest
    rw [hplace]
    split at h
    · rename_i hsame
      obtain ⟨v, rfl, hv⟩ := Condition.eq_test_of_same hsame
      simp only [Bool.and_eq_true] at h
      simp only [Condition.asking, hv, hyes taken h.1, hno fallen h.2]
    · simp only [Bool.and_eq_true] at h
      obtain ⟨v, rfl, hv⟩ := Condition.eq_test_of_same h.1.1
      simp only [Condition.asking, hv, hyes fallen h.1.2, hno taken h.2]
      congr 1
      funext answer
      cases answer <;> cases negated <;> rfl
  · cases h

mutual

/-- **Order of tests.**  A condition that asks what control meets in a chain
decides as control does. -/
theorem behavior_eq_asking (hchain : g.AsksIn ctx place chain)
    (yes no : Nat → Bool) {y n : Behavior} (id : Nat)
    (hyes : ∀ t, yes t = true → place (some t) = y)
    (hno : ∀ t, no t = true → place (some t) = n) :
    (c : Condition) → g.asksAlong ctx chain c yes no id = true →
    place (some id) = c.asking y n
  | .const true, h => hyes id (by simpa only [Graph.asksAlong, if_true] using h)
  | .const false, h => hno id (by
      simpa only [Graph.asksAlong, Bool.false_eq_true, if_false] using h)
  | .all cs, h => by
    rw [Graph.asksAlong] at h
    exact behavior_eq_askingAll hchain yes no id hyes hno cs h
  | .any cs, h => by
    rw [Graph.asksAlong] at h
    exact behavior_eq_askingAny hchain yes no id hyes hno cs h
  | .test v negated, h => behavior_eq_asking_test hchain hyes hno h
  | .compare a o b, h => behavior_eq_asking_test hchain hyes hno h

theorem behavior_eq_askingAll (hchain : g.AsksIn ctx place chain)
    (yes no : Nat → Bool) {y n : Behavior} (id : Nat)
    (hyes : ∀ t, yes t = true → place (some t) = y)
    (hno : ∀ t, no t = true → place (some t) = n) :
    (cs : List Condition) → g.asksAllAlong ctx chain cs yes no id = true →
      place (some id) = Condition.askingAll cs y n
  | [], h => hyes id (by simpa only [Graph.asksAllAlong] using h)
  | c :: cs, h => by
    rw [Graph.asksAllAlong] at h
    exact behavior_eq_asking hchain _ no id
      (fun t ht => behavior_eq_askingAll hchain yes no t hyes hno cs ht) hno c h

theorem behavior_eq_askingAny (hchain : g.AsksIn ctx place chain)
    (yes no : Nat → Bool) {y n : Behavior} (id : Nat)
    (hyes : ∀ t, yes t = true → place (some t) = y)
    (hno : ∀ t, no t = true → place (some t) = n) :
    (cs : List Condition) → g.asksAnyAlong ctx chain cs yes no id = true →
      place (some id) = Condition.askingAny cs y n
  | [], h => hno id (by simpa only [Graph.asksAnyAlong] using h)
  | c :: cs, h => by
    rw [Graph.asksAnyAlong] at h
    exact behavior_eq_asking hchain yes _ id hyes
      (fun t ht => behavior_eq_askingAny hchain yes no t hyes hno cs ht) c h

end

end Asking

/-! ### Right blocks -/

/-- A block that is still to come does what its edges say, or holds the
structure of a region that does. -/
inductive Right (ctx : Context) (g₀ : Graph) (id : Nat) (b : Block) : Prop
  | cut (plain : b.folded = none)
      (stands : Stands ctx (g₀.behavior ctx.method) b)
  | folded {s : Section} {next : Option Nat} (holds : b.folded = some s)
      (exit : b.exit = .falls next)
      (follows : Follows ctx g₀ 1 (g₀.behavior ctx.method (some id)) [s]
        (g₀.behavior ctx.method next))

/-- All blocks of a list are right. -/
def AllRight (ctx : Context) (g₀ : Graph) (w : Told) (ids : List Nat) : Prop :=
  ∀ id ∈ ids, Right ctx g₀ id (w.graph.block id)

section Right

variable {w w' : Told} {ids list : List Nat} {id : Nat}

theorem Right.redirect {g' : Graph} (h : Right ctx g₀ id (g.block id))
    (hg : Redirected (g₀.behavior ctx.method) g g') :
    Right ctx g₀ id (g'.block id) := by
  obtain ⟨f, hf, hexit, hstart, hstop, hbreak, _, hfolded⟩ := hg.blocks id
  cases h with
  | cut plain stands =>
    exact .cut (hfolded.trans plain) (stands.map hf hexit hstart hstop hbreak)
  | @folded s next holds exit follows =>
    rw [exit] at hexit
    refine .folded (hfolded.trans holds) hexit ?_
    cases next with
    | none => exact follows
    | some t =>
      rw [← hf t] at follows
      exact follows

theorem AllRight.mono (h : AllRight ctx g₀ w ids) (hlist : list ⊆ ids) :
    AllRight ctx g₀ w list := fun id hid => h id (hlist hid)

/-- Blocks that a step leaves alone stay right. -/
theorem AllRight.kept (h : AllRight ctx g₀ w list) (hkept : Kept ids w w')
    (hdisjoint : list.Disjoint ids) : AllRight ctx g₀ w' list := by
  intro id hid
  rw [hkept.others id (hdisjoint hid)]
  exact h id hid

theorem AllRight.redirect {g' : Graph} (h : AllRight ctx g₀ w list)
    (hg : Redirected (g₀.behavior ctx.method) w.graph g') :
    AllRight ctx g₀ { w with graph := g' } list :=
  fun id hid => (h id hid).redirect hg

/-- The tests of right blocks are asked where control meets them. -/
theorem AllRight.asksIn (hw : Sure ctx g₀ w) (h : AllRight ctx g₀ w list) :
    w.graph.AsksIn ctx (g₀.behavior ctx.method) list := by
  intro id hid taken fallen test htaken hfallen htest
  cases h id hid with
  | folded _ exit _ =>
    rw [Graph.exit, exit] at hfallen
    cases hfallen
  | cut _ stands =>
    cases stands with
    | @branches t o f negated exit hasTest runs =>
      rw [Graph.exit, exit] at htaken hfallen
      cases htaken
      cases hfallen
      have heq := (hasTest w.graph id rfl rfl rfl).symm.trans htest
      cases heq
      refine ⟨f, negated, rfl, ?_⟩
      rw [← runs, (hw.places id).1]
      rfl
    | falls exit | jumps exit | returns exit =>
      rw [Graph.exit, exit] at hfallen
      cases hfallen

/-- A guard that keeps the order decides as control does. -/
theorem AllRight.guard (hw : Sure ctx g₀ w) (h : AllRight ctx g₀ w list)
    {body : Nat} {after : Option Nat} {c : Condition}
    (hrun : (Partition.guard ctx list body after).told w = .ok (c, w'))
    (hfaithful : w'.faithful = true) :
    c.starts = true ∧ g₀.behavior ctx.method (some (list.headD 0)) =
      c.asking (g₀.behavior ctx.method (some body))
        (g₀.behavior ctx.method after) := by
  obtain ⟨_, rfl⟩ := Partition.told_guard hrun
  simp only [Graph.keepsOrder, Bool.and_eq_true] at hfaithful
  obtain ⟨_, hstarts, hasks⟩ := hfaithful
  refine ⟨hstarts, behavior_eq_asking (h.asksIn hw) _ _ _ (fun t ht => ?_)
    (fun t ht => ?_) c hasks⟩
  · rw [eq_of_beq ht]
  · rw [Bool.and_eq_true] at ht
    rw [eq_of_beq ht.2]

/-! ### Going on -/

/-- Whether the section of a block makes a call on every way to what comes
after it: a jump makes none. -/
def Graph.gain (g : Graph) (id after : Option Nat) : Nat :=
  match id with
  | some id => if (g.exit id).isJump || after.isNone then 0 else 1
  | none => 0

theorem Graph.gain_le (g : Graph) (id after : Option Nat) :
    g.gain id after ≤ 1 := by
  unfold gain
  split
  · split <;> omega
  · omega

theorem executing_calls (fs : List Member) (rest : List Statement) :
    executing ((fs.map Action.ofCall).map .action ++ rest) = .callAll fs
      (executing rest) := by
  induction fs with
  | nil => rfl
  | cons f fs ih =>
    rw [List.map_cons, List.map_cons, List.cons_append, Action.ofCall,
      executing_call, ih, Behavior.callAll_cons]

theorem quiet_calls (fs : List Member) :
    Quiet ((fs.map Action.ofCall).map .action) := by
  intro s hs v e heq
  simp only [List.map_map, List.mem_map, Function.comp_apply] at hs
  obtain ⟨f, _, rfl⟩ := hs
  cases heq

/-- The statements of a block of straight-line code are what it is simulated
to. -/
theorem follows_inline {gain : Nat} {b c : Behavior} {actions : List Action}
    (hentry : (g₀.block id).entry = .plain)
    (hsim : ctx.simulate (g₀.block id).start (g₀.block id).stop [] =
      .ok ([], actions))
    (hquiet : Quiet (actions.map .action))
    (hagree : ∀ (k : Nat) (rest : List Statement), c.Agree k (executing rest) →
      b.Agree (k + gain) (executing (actions.map .action ++ rest))) :
    Follows ctx g₀ gain b [.inline id] c := by
  refine Follows.single fun g hg before result _ h => ?_
  obtain ⟨hstart, hstop, hentry'⟩ := hg id
  obtain ⟨stmts, hstmts, h⟩ := bind_eq_ok.1 h
  cases h
  simp only [Graph.actions] at hstmts
  split at hstmts
  · cases hstmts
  · rw [Graph.simulate, Graph.entryStack, hentry', hentry, hstart, hstop,
      hsim] at hstmts
    cases hstmts
    exact ⟨_, rfl, hquiet, hagree⟩

/-- A right block of straight-line code follows control to what comes after it
in the list, if control goes on there. -/
theorem Right.follows_inline (hw : Sure ctx g₀ w) {next after : Option Nat}
    (h : Right ctx g₀ id (w.graph.block id))
    (hplain : (w.graph.block id).folded = none)
    (hnext : after.isSome = true → next.isSome = true)
    (hgoes : w.graph.goesOn id next = true) :
    Follows ctx g₀ (w.graph.gain (some id) after)
      (g₀.behavior ctx.method (some id))
      [.inline id] (g₀.behavior ctx.method next) := by
  obtain ⟨hstart, hstop, _⟩ := hw.places id
  cases h with
  | folded holds =>
    rw [holds] at hplain
    cases hplain
  | cut _ stands =>
    cases stands with
    | @falls target fs exit calls simulated runs =>
      rw [hstart, hstop] at simulated
      rw [hstart] at runs
      simp only [Graph.goesOn, Graph.exit, exit] at hgoes
      obtain ⟨heq, hsome⟩ := hw.place_eq_of_meets hgoes
      have hgain : w.graph.gain (some id) after ≤ fs.length := by
        simp only [Graph.gain]
        split
        · exact Nat.zero_le _
        · rename_i hpass
          simp only [Bool.or_eq_true, not_or, Option.isNone_iff_eq_none,
            ← Option.isSome_iff_ne_none] at hpass
          exact List.length_pos_iff.2 (calls (hsome.trans (hnext hpass.2)))
      refine Decompiler.follows_inline (hw.entries id) simulated
        (quiet_calls fs)
        fun k rest hrest => ?_
      rw [executing_calls, Graph.behavior, runs, heq]
      exact (hrest.callAll fs).mono (by omega)
    | @jumps t exit simulated runs =>
      rw [hstart, hstop] at simulated
      rw [hstart] at runs
      simp only [Graph.goesOn, Graph.exit, exit] at hgoes
      have heq := (hw.place_eq_of_meets hgoes).1
      have hgain : w.graph.gain (some id) after = 0 := by
        simp [Graph.gain, Graph.exit, exit, Exit.isJump, Exit.jump?]
      refine Decompiler.follows_inline (hw.entries id) simulated
        (by simp [Quiet])
        fun k rest hrest => ?_
      rw [hgain, Graph.behavior, runs, heq]
      exact hrest
    | branches exit =>
      simp only [Graph.goesOn, Graph.exit, exit] at hgoes
      cases hgoes
    | @returns fs exit simulated runs =>
      rw [hstart, hstop] at simulated
      rw [hstart] at runs
      refine Decompiler.follows_inline (hw.entries id) simulated
        ?_ fun k rest _ => ?_
      · rw [List.map_append]
        exact (quiet_calls fs).append (by simp [Quiet])
      · rw [List.map_append, List.append_assoc, executing_calls,
          Graph.behavior, runs]
        simp only [List.map_cons, List.cons_append, executing_ret]
        exact .refl _ _

/-- The structure of a folded block follows control to what comes after it in
the list, if control goes on there. -/
theorem Right.follows_folded (hw : Sure ctx g₀ w) {next : Option Nat}
    {s : Section} (h : Right ctx g₀ id (w.graph.block id))
    (hfolded : (w.graph.block id).folded = some s)
    (hgoes : w.graph.goesOn id next = true) :
    Follows ctx g₀ 1 (g₀.behavior ctx.method (some id)) [s]
      (g₀.behavior ctx.method next) := by
  cases h with
  | cut plain =>
    rw [plain] at hfolded
    cases hfolded
  | folded holds exit follows =>
    obtain rfl := Option.some.inj (holds.symm.trans hfolded)
    simp only [Graph.goesOn, Graph.exit, exit] at hgoes
    rw [← (hw.place_eq_of_meets hgoes).1]
    exact follows

end Right

end Decompiler
