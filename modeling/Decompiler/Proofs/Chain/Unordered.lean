import Decompiler.Proofs.Chain.Joined

/-!
# Tests of floating-point numbers

A floating-point test is a three-way comparison and a jump on what it leaves.
If one of the numbers is NaN they are unordered: the comparison leaves -1 or 1,
whichever its form says, and the jump is taken or not accordingly, while in the
source no comparison of the two holds but `!=`.  A test is read as the
comparison that the jump makes of an ordered pair, whatever the form, and as the
opposite one where the jump is not taken; of the two neither holds for an
unordered pair.

So a guard never holds unless control enters the body, but it may fail where
control does: when control goes one way for an unordered pair, and the guard
asks for the comparison that an ordered pair would have to pass to go there.
The compiled form of a comparison always sends an unordered pair the other way.

* `Comparison.ofInt_of_reads`, `Comparison.reads_of_ordered`: one test.
* `Graph.joined_of_follow`: from one test of a chain on.
* `Graph.enters_iff_of_guard`: guards of floating-point tests, and when one
  fails where control enters the body.
* `Graph.guard_misses_unordered`: `if (!(x >= y))` is read as `if (x < y)`.
-/

namespace Decompiler

open Relation (ReflTransGen)

/-! ### One test -/

/-- How two floating-point numbers compare; one that is NaN is unordered with
every number. -/
inductive FloatOrder
  | less
  | equal
  | greater
  | unordered
deriving Repr, DecidableEq

/-- The integer that a three-way comparison leaves.  Integers are never
unordered. -/
def ThreeWay.answer : ThreeWay → FloatOrder → Int
  | _, .less => -1
  | _, .equal => 0
  | _, .greater => 1
  | floatHigh, .unordered | doubleHigh, .unordered => 1
  | _, .unordered => -1

/-- Whether a three-way comparison is one of floating-point numbers. -/
def ThreeWay.isFloating : ThreeWay → Bool
  | long => false
  | floatLow | floatHigh | doubleLow | doubleHigh => true

/-- Whether an integer compares with zero as told. -/
def Comparison.ofInt : Comparison → Int → Bool
  | eq, n => n == 0
  | ne, n => n != 0
  | lt, n => n < 0
  | ge, n => 0 ≤ n
  | gt, n => 0 < n
  | le, n => n ≤ 0

/-- Whether a comparison holds in the source. -/
def Comparison.reads : Comparison → FloatOrder → Bool
  | eq, o => o == .equal
  | ne, o => o != .equal
  | lt, o => o == .less
  | ge, o => o == .greater || o == .equal
  | gt, o => o == .greater
  | le, o => o == .less || o == .equal

namespace Comparison

/-- A comparison that holds in the source is one that the jump finds as well,
and one whose opposite holds is one that it does not. -/
theorem ofInt_of_reads (op : Comparison) (how : ThreeWay) (o : FloatOrder) :
    (op.reads o = true → op.ofInt (how.answer o) = true) ∧
      (op.negate.reads o = true → op.ofInt (how.answer o) = false) := by
  cases op <;> cases how <;> cases o <;> decide

/-- Of an ordered pair, and of every pair that is compared for equality, the
comparison or its opposite holds as the jump finds. -/
theorem reads_of_ordered (op : Comparison) (how : ThreeWay) (o : FloatOrder)
    (h : o ≠ .unordered ∨ op = eq ∨ op = ne) :
    (if op.ofInt (how.answer o) then op else op.negate).reads o = true := by
  revert h
  cases op <;> cases how <;> cases o <;> decide

end Comparison

/-- A jump on the three-way comparison of two floating-point numbers. -/
structure FloatTest where
  op : Comparison
  how : ThreeWay
  lhs : Expr
  rhs : Expr
deriving Repr

/-- What conditions on floating-point numbers come to in the source. -/
def floatTruth (order : Expr → Expr → FloatOrder) : Condition → Bool
  | .compare lhs op rhs => op.reads (order lhs rhs)
  | _ => false

namespace FloatTest

/-- How a test is read. -/
def condition (t : FloatTest) : Condition := .compare t.lhs t.op t.rhs

variable (order : Expr → Expr → FloatOrder)

/-- Whether the jump of a test is taken. -/
def jumps (t : FloatTest) : Bool :=
  t.op.ofInt (t.how.answer (order t.lhs t.rhs))

/-- Whether a condition asks for a test as it comes out for an unordered pair,
which no pair that is unordered can pass. -/
structure Misread (t : FloatTest) (c : Condition) : Prop where
  unordered : order t.lhs t.rhs = .unordered
  ne_eq : t.op ≠ .eq
  ne_ne : t.op ≠ .ne
  asked : (t.condition.literal (t.jumps order)).AsksFor c

variable {order} {t : FloatTest} {c : Condition}

/-- Control goes where a test tells. -/
theorem jumps_of_literal {b : Bool}
    (h : (t.condition.literal b).value (floatTruth order) = true) :
    t.jumps order = b := by
  obtain ⟨hyes, hno⟩ := t.op.ofInt_of_reads t.how (order t.lhs t.rhs)
  cases b
  · exact hno h
  · exact hyes h

/-- A test that is not misread holds as it comes out, or it is not asked for. -/
theorem literal_of_not_misread (h : ¬ t.Misread order c) :
    (t.condition.literal (t.jumps order)).value (floatTruth order) = true ∨
      t.condition.isTest = true ∧
        ¬ (t.condition.literal (t.jumps order)).AsksFor c := by
  by_cases hordered : order t.lhs t.rhs ≠ .unordered ∨ t.op = .eq ∨ t.op = .ne
  · left
    have hreads := t.op.reads_of_ordered t.how (order t.lhs t.rhs) hordered
    unfold jumps
    cases hjumps : t.op.ofInt (t.how.answer (order t.lhs t.rhs)) <;>
      rw [hjumps] at hreads <;>
      exact hreads
  · right
    simp only [not_or, not_not] at hordered
    exact ⟨rfl, fun hasked =>
      h ⟨hordered.1, hordered.2.1, hordered.2.2, hasked⟩⟩

/-- A test that is not misread in a form is not misread in either side. -/
theorem not_misread_side {p u f : Condition} (hs : Condition.Forms p u f c)
    {b : Bool} (h : ¬ t.Misread order c) :
    ¬ t.Misread order (Condition.side u f b) := by
  intro hside
  exact h ⟨hside.unordered, hside.ne_eq, hside.ne_ne, hs.asksFor b hside.asked⟩

end FloatTest

/-- Where outcomes do not depend on how an expression is written, neither does
what conditions come to. -/
theorem congruent_floatTruth {order : Expr → Expr → FloatOrder}
    (ho : ∀ a b c d : Expr, a.same b = true → c.same d = true →
      order a c = order b d) :
    Condition.Congruent (floatTruth order) where
  test _ _ _ _ := rfl
  compare a b c d op hab hcd := by
    rw [floatTruth, floatTruth, ho a b c d hab hcd]

/-! ### From one test on -/

/-- Whether control that follows its turns from a block enters the body, before
it comes past it. -/
def EntersBody (turn? : Nat → Option Nat) (body : Nat) (after : Option Nat)
    (first : Nat) : Prop :=
  ∃ last, ReflTransGen (fun id next => turn? id = some next ∧ next ≠ body ∧
    after ≠ some next)
    first last ∧ turn? last = some body

/-- One turn. -/
theorem entersBody_iff {turn? : Nat → Option Nat} {body id next : Nat}
    {after : Option Nat} (hturn : turn? id = some next) :
    EntersBody turn? body after id ↔
      next = body ∨ next ≠ body ∧ after ≠ some next ∧
        EntersBody turn? body after next := by
  constructor
  · rintro ⟨last, hreach, hlast⟩
    rcases hreach.cases_head with rfl | ⟨next', ⟨hturn', hbody, hafter⟩, hreach⟩
    · exact .inl (Option.some.inj (hturn.symm.trans hlast))
    · obtain rfl : next = next' := Option.some.inj (hturn.symm.trans hturn')
      exact .inr ⟨hbody, hafter, last, hreach, hlast⟩
  · rintro (rfl | ⟨hbody, hafter, last, hreach, hlast⟩)
    · exact ⟨id, .refl, hturn⟩
    · exact ⟨last, .head ⟨hturn, hbody, hafter⟩ hreach, hlast⟩

namespace Graph

open Chain (follow joined)

variable {g : Graph} {ctx : Context} {chain : List Nat} {body : Nat}
    {after : Option Nat}
  {order : Expr → Expr → FloatOrder}

/-- The test of a block that jumps on a three-way comparison of floating-point
numbers. -/
def floatTest? (g : Graph) (ctx : Context) (id : Nat) : Option FloatTest :=
  match ctx.simulate (g.block id).start (g.block id).stop [],
    ctx.method.instr (g.block id).breakPoint with
  | .ok (stack, []), .ifZero op _ =>
    match stack.exprs with
    | [.compare how lhs rhs] =>
      if how.isFloating then some ⟨op, how, lhs, rhs⟩ else none
    | _ => none
  | _, _ => none

/-- Where control goes from a test of floating-point numbers. -/
def floatTurn? (g : Graph) (ctx : Context) (order : Expr → Expr → FloatOrder)
    (id : Nat) : Option Nat :=
  (g.floatTest? ctx id).bind fun t =>
    if t.jumps order then (g.exit id).target? else (g.exit id).otherwise?

/-- A block with a floating-point test asks that test. -/
theorem test_of_floatTest? {id : Nat} {t : FloatTest}
    (h : g.floatTest? ctx id = some t) : g.test ctx id = .ok t.condition := by
  unfold floatTest? at h
  split at h
  · rename_i stack op l hsimulate hinstr
    split at h
    · rename_i how lhs rhs hstack
      simp only [Option.ite_none_right_eq_some, Option.some.injEq] at h
      obtain ⟨-, rfl⟩ := h
      rw [test, hsimulate]
      simp only [bind, Except.bind, List.isEmpty_nil, Bool.not_true,
        Bool.false_eq_true, if_false, hinstr, hstack]
      rfl
    · cases h
  · cases h

/-- Whether control that comes to where an edge leads enters the body. -/
def EntersFrom (g : Graph) (ctx : Context) (order : Expr → Expr → FloatOrder)
    (chain : List Nat) (body : Nat) (after : Option Nat) : Dest → Prop
  | .body => True
  | .exit => False
  | .test p =>
    ∃ id, chain[p]? = some id ∧
    EntersBody (g.floatTurn? ctx order) body after id

/-- The block of an edge tells where it leads. -/
theorem enters_iff_of_leads {next : Nat} {d : Dest}
    (hd : Leads chain body after next d) :
    g.EntersFrom ctx order chain body after d ↔ next = body ∨ next ≠ body ∧
      after ≠ some next ∧ EntersBody (g.floatTurn? ctx order) body after
        next := by
  cases d with
  | body => exact iff_of_true trivial (.inl hd)
  | exit =>
    obtain ⟨hbody, hafter⟩ := hd
    refine iff_of_false id ?_
    rintro (h | ⟨-, h, -⟩)
    · exact hbody h
    · exact h hafter
  | test p =>
    obtain ⟨hbody, hafter, hp⟩ := hd
    constructor
    · rintro ⟨id, hid, h⟩
      obtain rfl : next = id := Option.some.inj (hp.symm.trans hid)
      exact .inr ⟨hbody, hafter, h⟩
    · rintro (h | ⟨-, -, h⟩)
      · exact absurd h hbody
      · exact ⟨next, hp, h⟩

/-- What there is to know of a test in a chain: how it is read, and that control
enters the body from it if it does from where the side leads that control
takes. -/
theorem ReadsAs.floatTest {tests : List Condition} {forks : List Fork}
    (hr : g.ReadsAs ctx chain body after tests forks)
    (order : Expr → Expr → FloatOrder) {p id : Nat} (hid : chain[p]? = some id)
    {t : FloatTest} (ht : g.floatTest? ctx id = some t) :
    tests[p]? = some t.condition ∧ ∃ fork, forks[p]? = some fork ∧
      (g.EntersFrom ctx order chain body after (.test p) ↔
        g.EntersFrom ctx order chain body after
          (if t.jumps order then fork.taken else fork.fallen)) ∧
      ∀ d, d = fork.taken ∨ d = fork.fallen → ∀ q, d = .test q →
        ∃ id', chain[q]? = some id' := by
  obtain ⟨c, hc, htest⟩ := hr.test p id hid
  cases (test_of_floatTest? ht).symm.trans htest
  obtain ⟨fork, hfork, hedges⟩ := hr.fork p id hid
  obtain ⟨⟨taken, htaken, ltaken⟩, fallen, hfallen, lfallen⟩ :=
    leads_of_fork hedges
  refine ⟨hc, fork, hfork, ?_, ?_⟩
  · have hwhole : g.EntersFrom ctx order chain body after (.test p) ↔
        EntersBody (g.floatTurn? ctx order) body after id := by
      constructor
      · rintro ⟨id', hid', h⟩
        obtain rfl : id = id' := Option.some.inj (hid.symm.trans hid')
        exact h
      · exact fun h => ⟨id, hid, h⟩
    rw [hwhole]
    cases hjumps : t.jumps order with
    | true =>
      have hturn : g.floatTurn? ctx order id = some taken := by
        rw [floatTurn?, ht, Option.bind_some, hjumps, if_pos rfl, htaken]
      exact (entersBody_iff hturn).trans (enters_iff_of_leads ltaken).symm
    | false =>
      have hturn : g.floatTurn? ctx order id = some fallen := by
        rw [floatTurn?, ht, Option.bind_some, hjumps, if_neg Bool.false_ne_true,
          hfallen]
      exact (entersBody_iff hturn).trans (enters_iff_of_leads lfallen).symm
  · rintro d (rfl | rfl) q hq
    · rw [hq] at ltaken
      exact ⟨taken, ltaken.2.2⟩
    · rw [hq] at lfallen
      exact ⟨fallen, lfallen.2.2⟩

/-- **From one test on.**  What is put together from a test holds only if
control enters the body from there, and holds if control does unless some test
is misread in it. -/
theorem joined_of_follow {tests : List Condition} {forks : List Fork}
    (ho : Condition.Congruent (floatTruth order))
    (hr : g.ReadsAs ctx chain body after tests forks)
    (hfloats : ∀ id ∈ chain, ∃ t, g.floatTest? ctx id = some t) {fuel : Nat}
    {seen : List Nat} {d : Dest} {ps : List Path}
    (hps : follow forks fuel seen d = .ok ps)
    (hd : ∀ p, d = .test p → ∃ id, chain[p]? = some id) :
    ((joined tests forks fuel d).value (floatTruth order) = true →
        g.EntersFrom ctx order chain body after d) ∧
      ((∀ id ∈ chain, ∀ t, g.floatTest? ctx id = some t →
          ¬ t.Misread order (joined tests forks fuel d)) →
        g.EntersFrom ctx order chain body after d →
          (joined tests forks fuel d).value (floatTruth order) = true) := by
  induction fuel generalizing seen d ps with
  | zero =>
    cases d with
    | body => exact ⟨fun _ => trivial, fun _ _ => rfl⟩
    | exit => exact ⟨fun h => Bool.noConfusion h, fun _ h => h.elim⟩
    | test p => cases hps
  | succ n ih =>
    cases d with
    | body => exact ⟨fun _ => trivial, fun _ _ => rfl⟩
    | exit => exact ⟨fun h => Bool.noConfusion h, fun _ h => h.elim⟩
    | test p =>
      obtain ⟨id, hid⟩ := hd p rfl
      have hmem : id ∈ chain := List.mem_of_getElem? hid
      obtain ⟨t, ht⟩ := hfloats id hmem
      obtain ⟨htest, fork, hfork, henters, hleads⟩ := hr.floatTest order hid ht
      obtain ⟨ps₁, ps₂, hps₁, hps₂, -⟩ := Chain.exists_follow_of_paths hps hfork
      have hjoined : joined tests forks (n + 1) (.test p) = .select t.condition
          (joined tests forks n fork.taken)
          (joined tests forks n fork.fallen) := by
        rw [joined, hfork, List.getD_eq_getElem?_getD, htest]
        rfl
      -- the side that control takes
      have hside : Condition.side (joined tests forks n fork.taken)
          (joined tests forks n fork.fallen) (t.jumps order) =
          joined tests forks n
            (if t.jumps order then fork.taken else fork.fallen) := by
        cases t.jumps order <;> rfl
      obtain ⟨d, hd, hlead, qs, hqs⟩ :
          ∃ d, (if t.jumps order then fork.taken else fork.fallen) = d ∧
            (∀ q, d = .test q → ∃ id', chain[q]? = some id') ∧
            ∃ qs, follow forks n (p :: seen) d = .ok qs := by
        split
        · exact ⟨fork.taken, rfl, hleads _ (.inl rfl), ps₁, hps₁⟩
        · exact ⟨fork.fallen, rfl, hleads _ (.inr rfl), ps₂, hps₂⟩
      rw [hd] at hside henters
      obtain ⟨hsound, hcomplete⟩ := ih hqs hlead
      have hforms :=
        Condition.forms_select t.condition (joined tests forks n fork.taken)
          (joined tests forks n fork.fallen)
      rw [hjoined, henters]
      constructor
      · intro h
        refine hsound ?_
        rw [← hside]
        exact hforms.side_holds ho (fun b hb => FloatTest.jumps_of_literal hb) h
      · intro hread h
        refine hforms.holds_of_side ho
          (FloatTest.literal_of_not_misread (hread id hmem t ht)) ?_
        rw [hside]
        refine hcomplete (fun id' hid' t' ht' => ?_) h
        rw [← hside]
        exact FloatTest.not_misread_side hforms (hread id' hid' t' ht')

/-- **Tests of floating-point numbers.**  However the pairs that a chain
compares come out, its guard holds only if control enters the body; and where
control enters the body and the guard fails, it asks for a test that comes out
for an unordered pair as no unordered pair passes it. -/
theorem enters_iff_of_guard {first : Nat} {rest : List Nat} {c : Condition}
    (ho : ∀ a b c d : Expr, a.same b = true → c.same d = true →
      order a c = order b d)
    (hfloats : ∀ id ∈ first :: rest, ∃ t, g.floatTest? ctx id = some t)
    (h : g.guard ctx (first :: rest) body after = .ok c) :
    (c.value (floatTruth order) = true →
        EntersBody (g.floatTurn? ctx order) body after first) ∧
      ((∀ id ∈ first :: rest, ∀ t, g.floatTest? ctx id = some t →
        ¬ t.Misread order c) → (c.value (floatTruth order) = true ↔
          EntersBody (g.floatTurn? ctx order) body after first)) := by
  obtain ⟨tests, forks, ps, hr, hps, rfl⟩ := eq_joined_of_guard h
  have hfollow : follow forks (first :: rest).length [] (.test 0) = .ok ps :=
    hps
  obtain ⟨hsound, hcomplete⟩ :=
    joined_of_follow (congruent_floatTruth ho) hr hfloats hfollow
      fun p hp => by
        cases hp
        exact ⟨first, rfl⟩
  have hfirst : g.EntersFrom ctx order (first :: rest) body after (.test 0) ↔
      EntersBody (g.floatTurn? ctx order) body after first := by
    constructor
    · rintro ⟨id, hid, henters⟩
      cases hid
      exact henters
    · exact fun henters => ⟨first, rfl, henters⟩
  rw [hfirst] at hsound hcomplete
  exact ⟨hsound, fun hread => ⟨hsound, hcomplete hread⟩⟩

/-- `if (x < y)` as it is compiled, with the form that answers 1 for an
unordered pair: its guard fails where control does not enter the body. -/
theorem enters_iff_of_guard_less :
    let m : Method :=
      { instrs := [.load .float 0, .load .float 1, .compare .floatHigh,
          .ifZero .ge ⟨1⟩, .call .static ⟨"C", "x", "()V"⟩, .label ⟨1⟩,
          .ret none], ranges := [] }
    let ctx : Context := ⟨m, LocalTable.empty.lookup, {}⟩
    let g : Graph := { labels := [], blocks := [
      { id := 0, breakPoint := 3, start := 0, stop := 3,
        exit := .branches 2 (some 1) },
      { id := 1, breakPoint := 5, start := 4, stop := 5,
        exit := .falls (some 2) },
      { id := 2, breakPoint := 6, start := 6, stop := 7, exit := .returns }] }
    let x : Expr := .var ⟨0, "local0", some "F"⟩
    let y : Expr := .var ⟨1, "local1", some "F"⟩
    let order (_ _ : Expr) : FloatOrder := .unordered
    (∀ id ∈ [0], ∃ t, g.floatTest? ctx id = some t) ∧
      g.guard ctx [0] 1 (some 2) = .ok (.compare x .lt y) ∧
      (∀ id ∈ [0], ∀ t, g.floatTest? ctx id = some t →
        ¬ t.Misread order (.compare x .lt y)) ∧
      ((Condition.compare x .lt y).value (floatTruth order) = true ↔
        EntersBody (g.floatTurn? ctx order) 1 (some 2) 0) := by
  intro m ctx g x y order
  have htest : g.floatTest? ctx 0 = some ⟨.ge, .floatHigh, x, y⟩ := by cbv
  have hfloats : ∀ id ∈ [0], ∃ t, g.floatTest? ctx id = some t :=
    List.forall_mem_singleton.2 ⟨_, htest⟩
  have hguard : g.guard ctx [0] 1 (some 2) = .ok (.compare x .lt y) := by cbv
  have hread : ∀ id ∈ [0], ∀ t, g.floatTest? ctx id = some t →
      ¬ t.Misread order (.compare x .lt y) := by
    refine List.forall_mem_singleton.2 fun t ht hmisread => ?_
    cases htest.symm.trans ht
    -- the guard asks for the opposite comparison
    rcases hmisread.asked with hasked | hasked
    · cases hasked
    · exact absurd hasked (by decide)
  exact ⟨hfloats, hguard, hread,
    (enters_iff_of_guard (fun _ _ _ _ _ _ => rfl) hfloats hguard).2 hread⟩

/-- **NaN.**  `if (!(x >= y))` is compiled with the form that answers -1 for an
unordered pair, which enters the body; but it is read as `if (x < y)`, which no
unordered pair passes. -/
theorem guard_misses_unordered :
    let m : Method :=
      { instrs := [.load .float 0, .load .float 1, .compare .floatLow,
          .ifZero .ge ⟨1⟩, .call .static ⟨"C", "x", "()V"⟩, .label ⟨1⟩,
          .ret none], ranges := [] }
    let ctx : Context := ⟨m, LocalTable.empty.lookup, {}⟩
    let g : Graph := { labels := [], blocks := [
      { id := 0, breakPoint := 3, start := 0, stop := 3,
        exit := .branches 2 (some 1) },
      { id := 1, breakPoint := 5, start := 4, stop := 5,
        exit := .falls (some 2) },
      { id := 2, breakPoint := 6, start := 6, stop := 7, exit := .returns }] }
    let x : Expr := .var ⟨0, "local0", some "F"⟩
    let y : Expr := .var ⟨1, "local1", some "F"⟩
    let order (_ _ : Expr) : FloatOrder := .unordered
    g.floatTest? ctx 0 = some ⟨.ge, .floatLow, x, y⟩ ∧
      g.guard ctx [0] 1 (some 2) = .ok (.compare x .lt y) ∧
      (Condition.compare x .lt y).value (floatTruth order) = false ∧
      EntersBody (g.floatTurn? ctx order) 1 (some 2) 0 := by
  intro m ctx g x y order
  have hturn : g.floatTurn? ctx order 0 = some 1 := by cbv
  exact ⟨by cbv, by cbv, rfl, 0, .refl, hturn⟩

end Graph

end Decompiler
