import Decompiler.Proofs.Chain.Order
import Decompiler.Proofs.Calls.Code
import Decompiler.Proofs.Chain.Shapes

/-!
# Tests in a row

In compiled `if` statements each test of a chain either goes on to the next one
or skips the body.  Such a row asks a conjunction, in which every test is a
group of its own: the guard is the conjunction of the tests, each of them
failing to jump.

* `Row.inTurn`: a row asks the negations of its tests one after another.
* `guard_row`: the guard of a row is found, and asks its tests in order.
-/

namespace Decompiler

variable {g : Graph} {ctx : Context}

/-- A condition that calls a method to test its answer. -/
def Condition.IsPlainTest (c : Condition) : Prop :=
  ∃ f negated, c = .test (.callStatic f []) negated

/-- Each test of a row skips to `skip` or goes on to the next test, and the
last one goes on to the body. -/
inductive Row (g : Graph) (ctx : Context) (skip body : Nat) : List Nat →
      List Condition → Prop
  | last {id : Nat} {test : Condition}
      (exit : g.exit id = .branches skip (some body))
      (hasTest : g.test ctx id = .ok test) (plain : test.IsPlainTest) :
      Row g ctx skip body [id] [test]
  | cons {id next : Nat} {ids : List Nat} {test : Condition}
      {tests : List Condition}
      (exit : g.exit id = .branches skip (some next))
      (hasTest : g.test ctx id = .ok test)
      (plain : test.IsPlainTest)
      (rest : Row g ctx skip body (next :: ids) tests) :
      Row g ctx skip body (id :: next :: ids) (test :: tests)

namespace Row

variable {skip body : Nat} {chain : List Nat} {tests : List Condition}

/-- A row has at least one test. -/
theorem ne_nil (h : Row g ctx skip body chain tests) : tests ≠ [] := by
  cases h <;> simp

/-- The tests of a row are plain. -/
theorem plain_of_mem (h : Row g ctx skip body chain tests) :
    ∀ c ∈ tests, c.IsPlainTest := by
  induction h with
  | last _ _ plain => simpa using plain
  | cons _ _ plain _ ih => exact List.forall_mem_cons.2 ⟨plain, ih⟩

/-- A row starts with a block. -/
theorem exists_cons (h : Row g ctx skip body chain tests) :
    ∃ id ids, chain = id :: ids := by
  cases h <;> exact ⟨_, _, rfl⟩

/-- A row asks that each of its tests fails. -/
theorem inTurn {id : Nat} {ids : List Nat}
    (h : Row g ctx skip body (id :: ids) tests) :
    Junction.all.InTurn (Junction.any.InTurn (g.Asks ctx))
      (tests.map fun test => [test.negate])
      id ids fun b => if b then body else skip := by
  have asks {id next : Nat} {test : Condition}
      (exit : g.exit id = .branches skip (some next))
      (hasTest : g.test ctx id = .ok test) (plain : test.IsPlainTest)
      (goal : Bool → Nat) (hyes : goal true = next) (hno : goal false = skip) :
      Junction.any.InTurn (g.Asks ctx) [test.negate] id [] goal := by
    obtain ⟨f, negated, rfl⟩ := plain
    refine .last ⟨rfl, false, ?_, ?_⟩
    · simpa [Condition.literal, Condition.negate] using hasTest
    · rw [exit, hno, Bool.not_false, hyes]
  generalize hchain : id :: ids = chain at h
  induction h generalizing id ids with
  | last exit hasTest plain =>
    cases hchain
    exact .last (asks exit hasTest plain _ rfl rfl)
  | @cons id next ids test tests exit hasTest plain _ ih =>
    cases hchain
    exact .next (asks exit hasTest plain _ (Function.update_self ..) (by simp [Junction.neutral]))
      (ih rfl)

end Row

/-- The conjunction that no test jumps. -/
def allFail (tests : List Condition) : Condition :=
  Junction.all.of (tests.map Condition.negate)

/-! ### The guard -/

/-- A conjunction of tests asks the tests that control meets. -/
theorem Row.asksAllAlong {skip body : Nat} {chain ids : List Nat}
    {tests : List Condition} (h : Row g ctx skip body ids tests)
    (hids : ids ⊆ chain) {yes no : Nat → Bool} (hyes : yes body = true)
    (hno : no skip = true) :
    g.asksAllAlong ctx chain (tests.map Condition.negate) yes no (ids.headD 0) =
      true := by
  have hsame {test : Condition} (plain : test.IsPlainTest) :
      test.negate.same test = false ∧ test.negate.same test.negate = true := by
    obtain ⟨f, negated, rfl⟩ := plain
    cases negated <;>
      simp [Condition.negate, Condition.same, Expr.same, Expr.sameAll]
  have hasks {id next : Nat} {test : Condition} {yes : Nat → Bool}
      (hid : id ∈ chain)
      (exit : g.exit id = .branches skip (some next))
      (hasTest : g.test ctx id = .ok test)
      (plain : test.IsPlainTest) (hyes : yes next = true) :
      g.asksAlong ctx chain test.negate yes no id = true := by
    have hat : g.asksAt ctx chain test.negate yes no id = true := by
      rw [Graph.asksAt, List.contains_iff_mem.2 hid, hasTest, exit]
      simp [Exit.target?, Exit.otherwise?, hsame plain, hyes, hno]
    obtain ⟨f, negated, rfl⟩ := plain
    exact hat
  induction h with
  | last exit hasTest plain =>
    rw [List.map_cons, List.map_nil, Graph.asksAllAlong]
    refine hasks (hids List.mem_cons_self) exit hasTest plain ?_
    rw [Graph.asksAllAlong]
    exact hyes
  | cons exit hasTest plain rest ih =>
    rw [List.map_cons, Graph.asksAllAlong]
    exact hasks (hids List.mem_cons_self) exit hasTest plain
      (ih fun id hid => hids (List.mem_cons_of_mem _ hid))

/-- A conjunction is asked along a chain as its members are. -/
theorem asksAlong_of {chain : List Nat} {cs : List Condition} (hcs : cs ≠ [])
    (yes no : Nat → Bool) (id : Nat) :
    g.asksAlong ctx chain (Junction.all.of cs) yes no id =
      g.asksAllAlong ctx chain cs yes no id := by
  match cs with
  | [c] =>
    have hyes : g.asksAllAlong ctx chain [] yes no = yes := by
      funext id
      rw [Graph.asksAllAlong]
    rw [Graph.asksAllAlong, hyes]
    rfl
  | c :: d :: cs =>
    rw [Junction.of, Graph.asksAlong]
    simp

/-- That all tests of a row fail starts with a test. -/
theorem starts_allFail {tests : List Condition} (htests : tests ≠ [])
    (h : ∀ c ∈ tests, c.IsPlainTest) : (allFail tests).starts = true := by
  match tests with
  | [c] =>
    obtain ⟨f, n, rfl⟩ := h c List.mem_cons_self
    rfl
  | c :: d :: cs =>
    obtain ⟨f, n, rfl⟩ := h c List.mem_cons_self
    rfl

/-- **Rows of tests.**  The guard of a row is the conjunction of its tests, each
of them failing to jump, and asks them as control meets them. -/
theorem guard_row {skip body : Nat} {chain : List Nat} {tests : List Condition}
    (h : Row g ctx skip body chain tests) (hskip : skip ∉ chain)
    (hbody : body ∉ chain) (hne : skip ≠ body) :
    g.guard ctx chain body (some skip) = .ok (allFail tests) ∧
      g.keepsOrder ctx chain body (some skip) (allFail tests) = true := by
  constructor
  · obtain ⟨id, ids, rfl⟩ := h.exists_cons
    have hNaN : ∀ cs ∈ tests.map fun test => [test.negate],
        Condition.haveNaN cs = false := by
      intro cs hcs
      obtain ⟨test, htest, rfl⟩ := List.mem_map.1 hcs
      obtain ⟨f, negated, rfl⟩ := h.plain_of_mem test htest
      rfl
    rw [Graph.guard_eq_ofGroups h.inTurn hNaN
      (List.not_mem_of_not_mem_cons hbody)
      (List.not_mem_of_not_mem_cons hskip) hne,
      Junction.ofGroups_of_ne_nil (by simpa using h.ne_nil), List.map_map]
    rfl
  · have hmap : tests.map Condition.negate ≠ [] := by simpa using h.ne_nil
    rw [Graph.keepsOrder, starts_allFail h.ne_nil h.plain_of_mem, Bool.true_and,
      allFail, asksAlong_of hmap]
    exact h.asksAllAlong (List.Subset.refl _) (by simp) (by simp [hne])

end Decompiler
