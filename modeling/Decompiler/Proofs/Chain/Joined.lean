import Decompiler.Proofs.Chain.Factored
import Decompiler.Proofs.Chain.Walk
import Decompiler.Proofs.Condition.Normal

/-!
# Guards fork by fork

The paths through a chain are told apart on the first test that they share, and
so the condition that is made of them is put together like the chain itself:
each test chooses between what its two edges lead to.

The forms in which a test and its two sides are written open junctions of their
own kind as they go, and what is left of a side without its tail is a single
member or has the kind of the side.  So the condition is in normal form before
it is normalized.

* `Condition.isReduced_select`: one test and two sides that are not the same.
* `Chain.factors_of_paths`, `Chain.ofPaths_eq_joined`: the paths through a chain
  are told apart fork by fork.
* `Chain.isNormal_joined`: what is put together is in normal form.
* `Graph.eq_joined_of_guard`: a guard is what is put together.
* `Graph.factors_of_guard`: no paths are written down one by one, and nothing is
  left to normalize.
-/

namespace Decompiler

namespace Junction

variable {j : Junction} {a b c tail x : Condition}

/-- The members of two reduced conditions can stand in one junction. -/
theorem areReduced_join (ha : a.isReduced = true) (hb : b.isReduced = true) :
    Condition.areReduced j (j.members a ++ j.members b) = true := by
  rw [Condition.areReduced_iff]
  intro d hd
  rcases List.mem_append.1 hd with hd | hd
  · exact Condition.areReduced_iff.1 (areReduced_members ha) d hd
  · exact Condition.areReduced_iff.1 (areReduced_members hb) d hd

/-- Two reduced conditions have at least two members between them. -/
theorem two_le_length_join (ha : a.isReduced = true) (hb : b.isReduced = true) :
    2 ≤ (j.members a ++ j.members b).length := by
  have hleft := length_members_pos (j := j) ha
  have hright := length_members_pos (j := j) hb
  rw [List.length_append]
  omega

/-- The join of reduced conditions is reduced. -/
theorem isReduced_join (ha : a.isReduced = true) (hb : b.isReduced = true) :
    (j.join a b).isReduced = true :=
  isReduced_of (Nat.lt_of_lt_of_le Nat.two_pos (two_le_length_join ha hb))
    (areReduced_join ha hb)

/-- A join of reduced conditions is a junction of its own kind and of no
other. -/
theorem isKindOf_join {k : Junction} (ha : a.isReduced = true)
    (hb : b.isReduced = true) :
    k.isKindOf (j.join a b) = (k == j) := isKindOf_of (two_le_length_join ha hb)

/-- What is left of a reduced condition without its tail is reduced. -/
theorem isReduced_of_withoutTail? (hc : c.isReduced = true)
    (h : j.withoutTail? c tail = some x) : x.isReduced = true := by
  unfold withoutTail? at h
  simp only [Option.ite_none_right_eq_some, Option.some.injEq, Bool.and_eq_true,
    decide_eq_true_eq] at h
  obtain ⟨⟨hlt, _⟩, rfl⟩ := h
  refine isReduced_of ?_ (Condition.areReduced_iff.2 fun d hd => ?_)
  · rw [List.length_take]
    omega
  · exact Condition.areReduced_iff.1 (areReduced_members hc) d
      (List.mem_of_mem_take hd)

end Junction

namespace Condition

variable {p t f : Condition}

/-- A condition in normal form that is no constant is reduced. -/
theorem isReduced_of_isNormal {c : Condition} (hc : c.IsNormal)
    (hopen : c.isConstant = false) : c.isReduced = true := by
  refine hc.resolve_left ?_
  rintro ⟨b, rfl⟩
  cases b <;> cases hopen

/-- A test and two normal sides that are not the same make up a reduced
condition. -/
theorem isReduced_select (hp : p.isTest = true) (ht : t.IsNormal)
    (hf : f.IsNormal) (hne : t.same f = false) :
    (select p t f).isReduced = true := by
  have hliteral (b : Bool) : (p.literal b).isReduced = true := by
    cases b
    · exact isReduced_of_isTest (isTest_negate hp)
    · exact isReduced_of_isTest hp
  have hside {b : Bool} (hopen : (side t f b).isConstant = false) :
      (side t f b).isReduced = true := by
    refine isReduced_of_isNormal ?_ hopen
    cases b
    · exact hf
    · exact ht
  have hforms := forms_select p t f
  generalize select p t f = s at hforms ⊢
  cases hforms with
  | alike h => exact absurd h (Bool.eq_false_iff.1 hne)
  | bare b => exact hliteral b
  | orElse b _ hopen => exact Junction.isReduced_join (hliteral b) (hside hopen)
  | andThen b _ hopen =>
    exact Junction.isReduced_join (hliteral b) (hside hopen)
  | orTail b hx hopen =>
    exact Junction.isReduced_join (Junction.isReduced_join (hliteral b)
      (Junction.isReduced_of_withoutTail? (hside (hopen b)) hx))
      (hside (hopen !b))
  | andTail b hx hopen =>
    exact Junction.isReduced_join (Junction.isReduced_join (hliteral b)
      (Junction.isReduced_of_withoutTail? (hside (hopen !b)) hx))
      (hside (hopen b))
  | plain _ hopen =>
    have htrue := hliteral true
    have hfalse := hliteral false
    have hyes := hside (hopen true)
    have hno := hside (hopen false)
    simp only [literal, side, if_true, Bool.false_eq_true,
      if_false] at htrue hfalse hyes hno
    simp [isReduced, areReduced, Junction.isReduced_join htrue hyes,
      Junction.isReduced_join hfalse hno, Junction.isKindOf_join htrue hyes,
      Junction.isKindOf_join hfalse hno]

/-- A choice between sides in normal form is in normal form. -/
theorem isNormal_select (hp : p.isTest = true) (ht : t.IsNormal)
    (hf : f.IsNormal) : (select p t f).IsNormal := by
  by_cases hsame : t.same f = true
  · unfold select
    rwa [if_pos hsame]
  · exact .inr (isReduced_select hp ht hf (Bool.eq_false_iff.2 hsame))

end Condition

namespace Chain

/-- The condition under which control goes on into the body from where an edge
leads, put together fork by fork. -/
def joined (tests : List Condition) (forks : List Fork) : (fuel : Nat) → Dest →
      Condition
  | _, .body => .const true
  | _, .exit | 0, .test _ => .const false
  | n + 1, .test position =>
    match forks[position]? with
    | none => .const false
    | some fork =>
      .select (tests.getD position (.const false))
        (joined tests forks n fork.taken) (joined tests forks n fork.fallen)

/-- The collected paths are told apart fork by fork. -/
theorem factors_of_paths {tests : List Condition} {forks : List Fork}
    {fuel : Nat} {seen : List Nat} {position : Nat} {ps : List Path}
    (h : paths forks fuel seen position = .ok ps) :
    Condition.Factors tests fuel ps
      (joined tests forks fuel (.test position)) := by
  induction fuel generalizing seen position ps with
  | zero => cases h
  | succ n ih =>
    cases hfork : forks[position]? with
    | none =>
      have hfresh := not_mem_of_paths h
      rw [paths, if_neg (mt List.contains_iff_mem.1 hfresh), hfork] at h
      cases h
      rw [joined, hfork]
      exact .never
    | some fork =>
      obtain ⟨ps₁, ps₂, hps₁, hps₂, rfl⟩ := exists_follow_of_paths h hfork
      -- each side of the fork is followed in the same way
      have side {d : Dest} {qs : List Path}
          (hqs : follow forks n (position :: seen) d = .ok qs) :
          Condition.Factors tests n qs (joined tests forks n d) := by
        cases d with
        | body =>
          cases hqs
          rw [joined]
          exact .always List.mem_cons_self
        | exit =>
          cases hqs
          rw [joined]
          exact .never
        | test next => exact ih hqs
      rw [joined, hfork]
      exact (side hps₁).fork (side hps₂) position

/-- The condition of the collected paths is the one put together fork by
fork. -/
theorem ofPaths_eq_joined {tests : List Condition} {forks : List Fork}
    {fuel : Nat} {seen : List Nat} {position : Nat} {ps : List Path}
    (h : paths forks fuel seen position = .ok ps) :
    Condition.ofPaths tests fuel ps = joined tests forks fuel
      (.test position) :=
  (factors_of_paths h).ofPaths_eq

/-- What is put together from tests is in normal form. -/
theorem isNormal_joined {tests : List Condition} {forks : List Fork}
    (htests : ∀ c ∈ tests, c.isTest = true)
    (hlength : forks.length ≤ tests.length) (fuel : Nat) (d : Dest) :
    (joined tests forks fuel d).IsNormal := by
  induction fuel generalizing d with
  | zero => cases d <;> exact .inl ⟨_, rfl⟩
  | succ n ih =>
    cases d with
    | body | exit => exact .inl ⟨_, rfl⟩
    | test position =>
      cases hfork : forks[position]? with
      | none =>
        rw [joined, hfork]
        exact .inl ⟨_, rfl⟩
      | some fork =>
        have hlt : position < tests.length :=
          Nat.lt_of_lt_of_le (List.getElem?_eq_some_iff.1 hfork).1 hlength
        rw [joined, hfork, List.getD_eq_getElem _ _ hlt]
        exact Condition.isNormal_select (htests _ (List.getElem_mem hlt))
          (ih _) (ih _)

end Chain

namespace Graph

variable {g : Graph} {ctx : Context} {chain : List Nat} {body : Nat}
    {after : Option Nat}

/-- The condition of comparing a value with zero is a single test. -/
theorem isTest_ofZeroTest (op : Comparison) (value : Expr) :
    (Condition.ofZeroTest op value).isTest = true := by
  unfold Condition.ofZeroTest
  split
  · rfl
  · split_ifs <;> rfl

/-- The condition on which an instruction jumps is a test. -/
theorem isTest_jumpCondition {i : Instr} {operands : List Expr} {p : Condition}
    (h : i.jumpCondition operands = .ok p) : p.isTest = true := by
  unfold Instr.jumpCondition at h
  split at h
  · cases h
    exact isTest_ofZeroTest _ _
  all_goals
    first
    | cases h; rfl
    | split_ifs at h

/-- The test of a block is a single one. -/
theorem isTest_of_test {id : Nat} {p : Condition} (h : g.test ctx id = .ok p) :
    p.isTest = true := by
  obtain ⟨⟨stack, actions⟩, _, h⟩ := bind_eq_ok.1 h
  cases hempty : actions.isEmpty with
  | false =>
    simp only [hempty, Bool.not_false, if_true] at h
    cases h
  | true =>
    simp only [hempty, Bool.not_true, Bool.false_eq_true, if_false] at h
    cases hp : (ctx.method.instr (g.block id).breakPoint).jumpCondition
      stack.exprs with
    | ok p' =>
      rw [hp] at h
      cases h
      exact isTest_jumpCondition hp
    | error _ =>
      rw [hp] at h
      cases h

/-- What the tests of a chain are put together to is in normal form. -/
theorem isNormal_joined_of_mapM {tests : List Condition} {forks : List Fork}
    (htests : chain.mapM (g.test ctx) = .ok tests)
    (hforks : chain.mapM (g.fork chain body after) = .ok forks) (fuel : Nat)
    (d : Dest) : (Chain.joined tests forks fuel d).IsNormal := by
  refine Chain.isNormal_joined (fun c hc => ?_) ?_ fuel d
  · obtain ⟨id, _, htest⟩ := exists_mem_of_mapM_eq_ok htests hc
    exact isTest_of_test htest
  · rw [length_of_mapM_eq_ok htests, length_of_mapM_eq_ok hforks]

/-- **Guards are put together fork by fork.** -/
theorem eq_joined_of_guard {c : Condition}
    (h : g.guard ctx chain body after = .ok c) :
    ∃ tests forks ps, g.ReadsAs ctx chain body after tests forks ∧
      Chain.paths forks chain.length [] 0 = .ok ps ∧
      c = Chain.joined tests forks chain.length (.test 0) := by
  obtain ⟨tests, forks, ps, htests, hforks, hps, rfl⟩ := parts_of_guard h
  refine ⟨tests, forks, ps, readsAs_of_mapM htests hforks, hps, ?_⟩
  rw [Chain.ofPaths_eq_joined hps]
  exact Condition.normalize_eq_self (isNormal_joined_of_mapM htests hforks _ _)

/-- **Guards need no normal form.**  The paths through a chain always start with
the same test while they are told apart, so that they are never written down one
by one, and the condition that they are turned into is in normal form as it
is. -/
theorem factors_of_guard {c : Condition}
    (h : g.guard ctx chain body after = .ok c) :
    ∃ tests forks ps, chain.mapM (g.test ctx) = .ok tests ∧
      chain.mapM (g.fork chain body after) = .ok forks ∧
      Chain.paths forks chain.length [] 0 = .ok ps ∧
      Condition.Factors tests chain.length ps
        (Condition.ofPaths tests chain.length ps) ∧
      (Condition.ofPaths tests chain.length ps).IsNormal ∧
      (Condition.ofPaths tests chain.length ps).normalize =
        Condition.ofPaths tests chain.length ps ∧
      c = Condition.ofPaths tests chain.length ps := by
  obtain ⟨tests, forks, ps, htests, hforks, hps, rfl⟩ := parts_of_guard h
  have hjoined : Condition.ofPaths tests chain.length ps =
      Chain.joined tests forks chain.length (.test 0) :=
        Chain.ofPaths_eq_joined hps
  have hnormal : (Condition.ofPaths tests chain.length ps).IsNormal := by
    rw [hjoined]
    exact isNormal_joined_of_mapM htests hforks _ _
  have hself := Condition.normalize_eq_self hnormal
  refine ⟨tests, forks, ps, htests, hforks, hps, ?_, hnormal, hself, hself⟩
  rw [hjoined]
  exact Chain.factors_of_paths hps

/-- In `if (a() ? b() && c() : c())` both sides of the first test end in the
same test, which is taken off them. -/
theorem factors_of_guard_shared_tail :
    let call (name : String) : Member := ⟨"C", name, "()Z"⟩
    let m : Method :=
      { instrs :=
        [.call .static (call "a"), .ifZero .eq ⟨1⟩, .call .static (call "b"),
          .ifZero .eq ⟨2⟩, .label ⟨1⟩, .call .static (call "c"),
          .ifZero .eq ⟨2⟩,
          .call .static ⟨"C", "d", "()V"⟩, .label ⟨2⟩, .ret none],
        ranges := [] }
    let ctx : Context := ⟨m, LocalTable.empty.lookup, {}⟩
    let g : Graph := { labels := [], blocks := [
      { id := 0, breakPoint := 1, start := 0, stop := 1,
        exit := .branches 2 (some 1) },
      { id := 1, breakPoint := 3, start := 2, stop := 3,
        exit := .branches 4 (some 2) },
      { id := 2, breakPoint := 6, start := 5, stop := 6,
        exit := .branches 4 (some 3) },
      { id := 3, breakPoint := 8, start := 7, stop := 8,
        exit := .falls (some 4) },
      { id := 4, breakPoint := 9, start := 9, stop := 10, exit := .returns }] }
    let test (name : String) (negated : Bool) : Condition :=
      .test (.callStatic (call name) []) negated
    g.guard ctx [0, 1, 2] 3 (some 4) =
        .ok (.all [.any [test "a" true, test "b" false], test "c" false]) ∧
      ∃ tests, Condition.Factors tests 3
        [[⟨0, true⟩, ⟨2, false⟩], [⟨0, false⟩, ⟨1, false⟩, ⟨2, false⟩]]
        (.all [.any [test "a" true, test "b" false], test "c" false]) := by
  intro call m ctx g test
  have hguard : g.guard ctx [0, 1, 2] 3 (some 4) =
      .ok (.all [.any [test "a" true, test "b" false], test "c" false]) := by
        cbv
  obtain ⟨tests, forks, ps, -, hforks, hps, hfactors, -, -, hc⟩ :=
    factors_of_guard hguard
  have hforks' : [0, 1, 2].mapM (g.fork [0, 1, 2] 3 (some 4)) =
      .ok [⟨.test 2, .test 1⟩, ⟨.exit, .test 2⟩, ⟨.exit, .body⟩] := rfl
  cases hforks.symm.trans hforks'
  cases hps
  rw [← hc] at hfactors
  exact ⟨hguard, tests, hfactors⟩

end Graph

end Decompiler
