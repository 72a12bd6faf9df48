import Decompiler.Proofs.Chain.Joined
import Decompiler.Proofs.Condition.Asked

/-!
# The tests that a guard asks

Control that walks a chain of tests runs one test after the other.  A guard
that has been put together from the chain asks tests too, from left to right
and only as far as it takes.  This file says when the two are the same tests in
the same order, each once.

Where the two sides of a test are the same, factoring leaves the test out, and
two sides that neither is a constant nor share a tail are written
`(p && t) || (!p && f)`, which asks `p` again when `t` fails.  In every other
case `p ? t : f` is written so that `p` is asked once and first.

* `chooses_select`: where factoring asks once, the chosen form asks `p` and then
  what the side asks that `p` tells.
* `asksAsMet_of_guard`: a guard all of whose forks ask once asks the tests that
  the walk meets.
* `guard_leaves_out_or_repeats_test`: a test both of whose edges lead into the
  body is met and not asked, and `a() ? b() : c()` is asked with `a()` twice.
-/

namespace Decompiler

/-- An inquiry that is made after a test. -/
def Inquiry.after (q : Condition) (rest : Inquiry) : Inquiry :=
  ⟨rest.holds, q :: rest.asked⟩

/-- Like inquiries stay alike behind a common question. -/
theorem Inquiry.Like.after {a b : Inquiry} (q : Condition) (h : a.Like b) :
    (a.after q).Like (b.after q) :=
  ⟨h.holds, .cons (.inl rfl) h.asked⟩

variable {v : Nat → Valuation}

namespace Junction

variable {q x t : Condition}

/-- A junction whose first member is a test. -/
theorem ask_join_test (hq : q.isTest = true) (j : Junction) (b : Condition)
    (n : Nat) :
    (j.join q b).ask v n =
      if q.holds (v n) = j.neutral then (b.ask v (n + 1)).after q
      else ⟨q.holds (v n), [q]⟩ := by
  rw [ask_join, Condition.ask_of_isTest hq]
  rfl

/-- The form with a tail taken off: a test, and then the tail either at once or
behind what it has been taken off. -/
theorem ask_join_join (hq : q.isTest = true) {j k : Junction}
    (hjk : j.neutral = !k.neutral) (x t : Condition) (n : Nat) :
    (j.join (k.join q x) t).ask v n =
      (if q.holds (v n) = k.neutral then (j.join x t).ask v (n + 1)
        else t.ask v (n + 1)).after q := by
  rw [ask_join, ask_join_test hq]
  split_ifs with h
  · rw [ask_join]
    by_cases hx : (x.ask v (n + 1)).holds = j.neutral <;>
      simp [Inquiry.andThen, Inquiry.after, hx, Nat.add_assoc, Nat.add_comm 1]
  · have hopen : q.holds (v n) = j.neutral := by
      rw [hjk]
      exact Bool.eq_not_of_ne h
    simp [Inquiry.andThen, Inquiry.after, hopen]

end Junction

namespace Condition

/-- Whether factoring writes `p ? t : f` so that `p` is asked once. -/
def asksOnce (t f : Condition) : Bool :=
  !t.same f && (t.isConstant || f.isConstant || sharesTail t f)

variable {p t f x : Condition} {n : Nat}

/-- What `p ? t : f` should ask: a test that puts `p`, and then what the side
asks that `p` tells. -/
def Chooses (v : Nat → Valuation) (p t f : Condition) (n : Nat)
    (whole : Inquiry) : Prop :=
  ∃ q : Condition, q.Puts p ∧
    (((if p.holds (v n) then t else f).ask v (n + 1)).after q).Like whole

/-- A test puts itself, whichever way it is written. -/
theorem puts_literal (p : Condition) (b : Bool) : (p.literal b).Puts p := by
  cases b
  · exact .inr (.inl rfl)
  · exact .inl (.inl rfl)

/-- The form with a tail taken off chooses between the side that has only the
tail and the side that has more. -/
theorem chooses_join_join (hv : ∀ n, (v n).Faithful) {q c tail : Condition}
    (hq : q.isTest = true) (hputs : q.Puts p) {j k : Junction}
    (hjk : j.neutral = !k.neutral) (hx : j.withoutTail? c tail = some x)
    (hside : (if p.holds (v n) then t else f) = if q.holds (v n) =
      k.neutral then c else tail) :
    Chooses v p t f n ((j.join (k.join q x) tail).ask v n) := by
  refine ⟨q, hputs, ?_⟩
  rw [hside, Junction.ask_join_join hq hjk]
  split_ifs
  · exact (Junction.ask_like_of_withoutTail? hv hx (n + 1)).after q
  · exact .refl _

/-- **A fork that asks once.**  Where factoring asks once, the form it chooses
for `p ? t : f` asks `p` and then the side that `p` tells. -/
theorem chooses_select (hv : ∀ n, (v n).Faithful) (hp : p.isTest = true)
    (h : asksOnce t f = true) : Chooses v p t f n ((select p t f).ask v n) := by
  simp only [asksOnce, Bool.and_eq_true, Bool.not_eq_true'] at h
  have hliteral (b : Bool) : (p.literal b).isTest = true := by
    cases b
    · exact isTest_negate hp
    · exact hp
  have hholds (b : Bool) :
      (p.literal b).holds (v n) = (p.holds (v n) == b) := by
    cases b <;> simp [literal, holds_negate (hv n).opposed]
  have htold (b : Bool) : (if p.holds (v n) then t else f) =
      if p.holds (v n) == b then side t f b else side t f !b := by
    cases b <;> cases p.holds (v n) <;> rfl
  have hforms := forms_select p t f
  generalize select p t f = s at hforms ⊢
  cases hforms with
  | alike hsame => exact absurd hsame (Bool.eq_false_iff.1 h.1)
  | bare b hyes hno =>
    refine ⟨p.literal b, puts_literal p b, ?_⟩
    rw [htold b, hyes, hno, ask_of_isTest (hliteral b), hholds]
    cases p.holds (v n) == b <;> exact .refl _
  | orElse b hyes _ =>
    refine ⟨p.literal b, puts_literal p b, ?_⟩
    rw [htold b, hyes, Junction.ask_join_test (hliteral b), hholds]
    cases p.holds (v n) == b <;> exact .refl _
  | andThen b hno _ =>
    refine ⟨p.literal b, puts_literal p b, ?_⟩
    rw [htold b, hno, Junction.ask_join_test (hliteral b), hholds]
    cases p.holds (v n) == b <;> exact .refl _
  | orTail b hx _ =>
    refine chooses_join_join hv (hliteral b) (puts_literal p b) rfl hx ?_
    rw [htold b, hholds]
    cases p.holds (v n) == b <;> rfl
  | andTail b hx _ =>
    refine chooses_join_join hv (hliteral b) (puts_literal p b) rfl hx ?_
    rw [htold b, hholds]
    cases p.holds (v n) == b <;> rfl
  | plain hshared hopen =>
    have ht : t.isConstant = false := hopen true
    have hf : f.isConstant = false := hopen false
    simp [ht, hf, hshared] at h

end Condition

namespace Chain

/-- Whether factoring asks the test of every fork once that control can come
to from where an edge leads. -/
def asksOnce (tests : List Condition) (forks : List Fork) : (fuel : Nat) →
      Dest → Bool
  | _, .body | _, .exit => true
  | 0, .test _ => false
  | n + 1, .test position =>
    match forks[position]? with
    | none => false
    | some fork =>
      Condition.asksOnce (joined tests forks n fork.taken)
        (joined tests forks n fork.fallen) &&
        asksOnce tests forks n fork.taken && asksOnce tests forks n fork.fallen

end Chain

namespace Graph

variable {g : Graph} {ctx : Context} {chain : List Nat} {body : Nat}
    {after : Option Nat}

/-- Whether no test of a chain is left out or repeated when the guard of a body
is put together: at every fork one side is a constant and the other one is
not the same, or the sides are different and share a tail. -/
def asksOnce (g : Graph) (ctx : Context) (chain : List Nat) (body : Nat)
    (after : Option Nat) :
    Bool :=
  match chain.mapM (g.test ctx), chain.mapM (g.fork chain body after) with
  | .ok tests, .ok forks => Chain.asksOnce tests forks chain.length (.test 0)
  | _, _ => false

/-- The walk from a test meets the tests of the blocks `ids`, the first of them
after `n` others, each answered by a valuation of its own.  It arrives in the
body (`true`) or past it (`false`). -/
inductive Meets (g : Graph) (ctx : Context) (v : Nat → Valuation) (body : Nat)
    (after : Option Nat) : (n id : Nat) → Bool → (ids : List Nat) → Prop
  | enters {n id : Nat} (turn : g.turn? ctx (v n) id = some body) :
    Meets g ctx v body after n id true [id]
  | passes {n id next : Nat} (turn : g.turn? ctx (v n) id = some next)
      (out : next ≠ body)
    (past : after = some next) : Meets g ctx v body after n id false [id]
  | goesOn {n id next : Nat} {arrives : Bool} {ids : List Nat}
    (turn : g.turn? ctx (v n) id = some next) (out : next ≠ body)
    (short : after ≠ some next)
    (rest : Meets g ctx v body after (n + 1) next arrives ids) :
    Meets g ctx v body after n id arrives (id :: ids)

/-- A walk meets the same tests whenever it is made. -/
theorem Meets.unique {n id : Nat} {b c : Bool} {ids ids' : List Nat}
    (hb : g.Meets ctx v body after n id b ids)
    (hc : g.Meets ctx v body after n id c ids') : b = c ∧ ids = ids' := by
  induction hb generalizing ids' with
  | enters turn =>
    cases hc with
    | enters _ => exact ⟨rfl, rfl⟩
    | passes turn' out _ =>
      exact absurd (Option.some.inj (turn'.symm.trans turn)) out
    | goesOn turn' out _ _ =>
      exact absurd (Option.some.inj (turn'.symm.trans turn)) out
  | passes turn out past =>
    cases hc with
    | enters turn' => exact absurd (Option.some.inj (turn.symm.trans turn')) out
    | passes _ _ _ => exact ⟨rfl, rfl⟩
    | goesOn turn' _ short _ =>
      cases Option.some.inj (turn.symm.trans turn')
      exact absurd past short
  | goesOn turn out short _ ih =>
    cases hc with
    | enters turn' => exact absurd (Option.some.inj (turn.symm.trans turn')) out
    | passes turn' _ past =>
      cases Option.some.inj (turn.symm.trans turn')
      exact absurd past short
    | goesOn turn' _ _ rest' =>
      cases Option.some.inj (turn.symm.trans turn')
      obtain ⟨rfl, rfl⟩ := ih rest'
      exact ⟨rfl, rfl⟩

/-- Whether asking some tests is running those of some blocks, one by one. -/
def AsksTests (g : Graph) (ctx : Context) (ids : List Nat)
    (asked : List Condition) : Prop :=
  List.Forall₂ (fun id q => ∃ p, g.test ctx id = .ok p ∧ q.Puts p) ids asked

/-- A walk that asks some tests asks any that are like them. -/
theorem AsksTests.alike {ids : List Nat} {asked asked' : List Condition}
    (h : g.AsksTests ctx ids asked)
    (hlike : List.Forall₂ Condition.Alike asked asked') :
    g.AsksTests ctx ids asked' := by
  induction h generalizing asked' with
  | nil =>
    cases hlike
    exact .nil
  | cons head _ ih =>
    cases hlike with
    | cons hhead hrest =>
      obtain ⟨p, htest, hputs⟩ := head
      exact .cons ⟨p, htest, hputs.alike hhead⟩ (ih hrest)

/-- Whether a condition asks the tests that control meets on its walk from a
block, in the same order and each once, and tells where the walk arrives.  The
first test is the one after `n` others. -/
def AsksAsMet (g : Graph) (ctx : Context) (v : Nat → Valuation) (body : Nat)
    (after : Option Nat) (n id : Nat) (c : Condition) : Prop :=
  ∃ ids, g.Meets ctx v body after n id (c.ask v n).holds ids ∧
    g.AsksTests ctx ids (c.ask v n).asked

/-- The walk through a test goes on to what its side leads to. -/
theorem exists_meets_of_turn {n id next : Nat} {d : Dest} {c : Condition}
    (turn : g.turn? ctx (v n) id = some next)
    (hd : Leads chain body after next d) (hside : match d with
      | .body => c = .const true
      | .exit => c = .const false
      | .test _ => g.AsksAsMet ctx v body after (n + 1) next c) :
    ∃ ids, g.Meets ctx v body after n id (c.ask v (n + 1)).holds (id :: ids) ∧
      g.AsksTests ctx ids (c.ask v (n + 1)).asked := by
  cases d with
  | body =>
    cases hside
    exact ⟨[], .enters (hd ▸ turn), .nil⟩
  | exit =>
    cases hside
    exact ⟨[], .passes turn hd.1 hd.2, .nil⟩
  | test _ =>
    obtain ⟨ids, hmeets, hasks⟩ := hside
    exact ⟨ids, .goesOn turn hd.1 hd.2.1 hmeets, hasks⟩

/-- **Factoring fork by fork.**  If every fork asks once, the condition that is
put together from a test asks the tests that the walk meets from there. -/
theorem asksAsMet_joined (hv : ∀ n, (v n).Faithful) {tests : List Condition}
    {forks : List Fork} (hr : g.ReadsAs ctx chain body after tests forks)
    {fuel : Nat} {position id : Nat} (hid : chain[position]? = some id)
    (h : Chain.asksOnce tests forks fuel (.test position) = true) (n : Nat) :
    (Chain.joined tests forks fuel (.test position)).isReduced = true ∧
      g.AsksAsMet ctx v body after n id
        (Chain.joined tests forks fuel (.test position)) := by
  induction fuel generalizing position id n with
  | zero => simp [Chain.asksOnce] at h
  | succ k ih =>
    obtain ⟨p, hp, htest⟩ := hr.test position id hid
    obtain ⟨fork, hfork, hedges⟩ := hr.fork position id hid
    obtain ⟨⟨taken, htaken, ltaken⟩, fallen, hfallen, lfallen⟩ :=
      leads_of_fork hedges
    simp only [Chain.asksOnce, hfork, Bool.and_eq_true] at h
    obtain ⟨⟨honce, htakenOnce⟩, hfallenOnce⟩ := h
    have hsingle := isTest_of_test htest
    have hjoined : Chain.joined tests forks (k + 1) (.test position) =
        .select p (Chain.joined tests forks k fork.taken)
          (Chain.joined tests forks k fork.fallen) := by
      simp [Chain.joined, hfork, List.getD_eq_getElem?_getD, hp]
    rw [hjoined]
    -- what either side of the fork is, and what is met on it
    have normal {next : Nat} {d : Dest} (hd : Leads chain body after next d)
        (hd' : Chain.asksOnce tests forks k d = true) :
        (Chain.joined tests forks k d).IsNormal := by
      cases d with
      | body | exit => exact .inl ⟨_, by cases k <;> rfl⟩
      | test _ => exact .inr (ih hd.2.2 hd' 0).1
    have side {next : Nat} {d : Dest} (hd : Leads chain body after next d)
        (hd' : Chain.asksOnce tests forks k d = true)
        (turn : g.turn? ctx (v n) id = some next) :
        ∃ ids, g.Meets ctx v body after n id
            ((Chain.joined tests forks k d).ask v (n + 1)).holds (id :: ids) ∧
          g.AsksTests ctx ids
            ((Chain.joined tests forks k d).ask v (n + 1)).asked := by
      refine exists_meets_of_turn turn hd ?_
      cases d with
      | body => cases k <;> rfl
      | exit => cases k <;> rfl
      | test _ => exact (ih hd.2.2 hd' (n + 1)).2
    have hdiffer : (Chain.joined tests forks k fork.taken).same
        (Chain.joined tests forks k fork.fallen) = false := by
      simp only [Condition.asksOnce, Bool.and_eq_true,
        Bool.not_eq_true'] at honce
      exact honce.1
    refine ⟨Condition.isReduced_select hsingle (normal ltaken htakenOnce)
      (normal lfallen hfallenOnce) hdiffer, ?_⟩
    obtain ⟨q, hputs, hlike⟩ :=
      Condition.chooses_select (n := n) hv hsingle honce
    have met : ∃ ids, g.Meets ctx v body after n id
          ((if p.holds (v n) then Chain.joined tests forks k fork.taken
            else
              Chain.joined tests forks k fork.fallen).ask v (n + 1)).holds
              (id :: ids) ∧
        g.AsksTests ctx ids
          ((if p.holds (v n) then Chain.joined tests forks k fork.taken
            else
              Chain.joined tests forks k fork.fallen).ask v (n + 1)).asked := by
      cases hval : p.holds (v n) with
      | true =>
        exact side ltaken htakenOnce (by simp [turn?, htest, hval, htaken])
      | false =>
        exact side lfallen hfallenOnce (by simp [turn?, htest, hval, hfallen])
    obtain ⟨ids, hmeets, hasks⟩ := met
    refine ⟨id :: ids, hlike.holds ▸ hmeets, ?_⟩
    exact AsksTests.alike (.cons ⟨p, htest, hputs⟩ hasks) hlike.asked

/-- **Guards ask what control meets.**  If every fork of a chain asks once, the
guard of a body asks the tests that the walk from the first one meets, in the
same order and each once, whatever comes out each time a test is asked. -/
theorem asksAsMet_of_guard {first : Nat} {rest : List Nat} {c : Condition}
    (h : g.guard ctx (first :: rest) body after = .ok c)
    (honce : g.asksOnce ctx (first :: rest) body after = true)
    (hv : ∀ n, (v n).Faithful) : g.AsksAsMet ctx v body after 0 first c := by
  obtain ⟨tests, forks, ps, htests, hforks, hps, rfl⟩ := parts_of_guard h
  simp only [asksOnce, htests, hforks] at honce
  obtain ⟨solid, asks⟩ :=
    asksAsMet_joined hv (readsAs_of_mapM htests hforks) rfl honce 0
  rw [Chain.ofPaths_eq_joined hps]
  unfold AsksAsMet at *
  rwa [Condition.ask_normalize _ solid]

/-- In `if ((a() || b()) && c())` both `a()` and `b()` lead to `c()`.  When
`a()` says no and the others say yes, all three are met and asked in this
order. -/
theorem asksAsMet_of_guard_shared_test :
    let call (name : String) : Member := ⟨"C", name, "()Z"⟩
    let m : Method :=
      { instrs :=
        [.call .static (call "a"), .ifZero .ne ⟨1⟩, .call .static (call "b"),
          .ifZero .eq ⟨2⟩, .label ⟨1⟩, .call .static (call "c"),
          .ifZero .eq ⟨2⟩,
          .call .static ⟨"C", "d", "()V"⟩, .label ⟨2⟩, .ret none],
        ranges := [] }
    let ctx : Context := ⟨m, LocalTable.empty.lookup, {}⟩
    let g : Graph := { labels := [], blocks := [
      { id := 0, breakPoint := 1, start := 0, stop := 1,
        exit := .branches 2 (some 1) },
      { id := 1, breakPoint := 3, start := 2, stop := 3,
        exit := .branches 4 (some 2) },
      { id := 2, breakPoint := 6, start := 5, stop := 6,
        exit := .branches 4 (some 3) },
      { id := 3, breakPoint := 8, start := 7, stop := 8,
        exit := .falls (some 4) },
      { id := 4, breakPoint := 9, start := 9, stop := 10, exit := .returns }] }
    let v (n : Nat) : Valuation :=
      { test := fun _ => n != 0,
        compare := fun _ op _ => op == .eq || op == .lt || op == .gt }
    let c : Condition := .all [
      .any [.test (.callStatic (call "a") []) false, .test (.callStatic (call "b") []) false],
      .test (.callStatic (call "c") []) false]
    g.guard ctx [0, 1, 2] 3 (some 4) = .ok c ∧
      g.asksOnce ctx [0, 1, 2] 3 (some 4) = true ∧ (∀ n, (v n).Faithful) ∧
      g.AsksAsMet ctx v 3 (some 4) 0 0 c := by
  intro call m ctx g v c
  have hguard : g.guard ctx [0, 1, 2] 3 (some 4) = .ok c := by cbv
  have honce : g.asksOnce ctx [0, 1, 2] 3 (some 4) = true := by cbv
  have hv : ∀ n, (v n).Faithful := fun _ =>
    ⟨fun _ op _ => by cases op <;> rfl, fun _ _ _ => rfl, fun _ _ _ _ _ _ _ => rfl⟩
  exact ⟨hguard, honce, hv, asksAsMet_of_guard hguard honce hv⟩

/-- A test both of whose edges lead into the body is met by every walk, and the
guard is a constant that does not ask it.  In `a() ? b() : c()` every walk meets
two tests, while the guard `!a() && c() || a() && b()` asks `a()` twice if it
says yes. -/
theorem guard_leaves_out_or_repeats_test :
    let call (name : String) : Member := ⟨"C", name, "()Z"⟩
    let v (_ : Nat) : Valuation :=
      { test := fun _ => true,
        compare := fun _ op _ => op == .eq || op == .lt || op == .gt }
    let once : Method :=
      { instrs := [.call .static (call "a"), .ifZero .ne ⟨1⟩, .label ⟨1⟩,
          .call .static ⟨"C", "x", "()V"⟩, .ret none], ranges := [] }
    let onceGraph : Graph := { labels := [], blocks := [
      { id := 0, breakPoint := 1, start := 0, stop := 1,
        exit := .branches 1 (some 1) },
      { id := 1, breakPoint := 4, start := 3, stop := 5, exit := .returns }] }
    let choice : Method :=
      { instrs :=
        [.call .static (call "a"), .ifZero .eq ⟨1⟩, .call .static (call "b"),
          .ifZero .ne ⟨2⟩, .label ⟨3⟩, .ret none, .label ⟨1⟩,
          .call .static (call "c"),
          .ifZero .eq ⟨3⟩, .label ⟨2⟩, .call .static ⟨"C", "x", "()V"⟩,
          .ret none],
        ranges := [] }
    let choiceGraph : Graph := { labels := [], blocks := [
      { id := 0, breakPoint := 1, start := 0, stop := 1,
        exit := .branches 3 (some 1) },
      { id := 1, breakPoint := 3, start := 2, stop := 3,
        exit := .branches 4 (some 2) },
      { id := 2, breakPoint := 5, start := 5, stop := 6, exit := .returns },
      { id := 3, breakPoint := 8, start := 7, stop := 8,
        exit := .branches 2 (some 4) },
      { id := 4, breakPoint := 11, start := 10, stop := 12, exit := .returns }]
      }
    (∀ n, (v n).Faithful) ∧
      (∃ c, onceGraph.guard ⟨once, LocalTable.empty.lookup, {}⟩ [0] 1
        (some 1) = .ok c ∧
        ¬ onceGraph.AsksAsMet ⟨once, LocalTable.empty.lookup, {}⟩ v 1
          (some 1) 0 0 c) ∧
      ∃ c, choiceGraph.guard ⟨choice, LocalTable.empty.lookup, {}⟩ [0, 1, 3] 4
        (some 2) = .ok c ∧
        ¬ choiceGraph.AsksAsMet ⟨choice, LocalTable.empty.lookup, {}⟩ v 4
          (some 2) 0 0 c := by
  intro call v once onceGraph choice choiceGraph
  refine ⟨fun _ => ⟨fun _ op _ => by cases op <;> rfl, fun _ _ _ => rfl,
    fun _ _ _ _ _ _ _ => rfl⟩, ?_, ?_⟩
  · refine ⟨.const true, by cbv, ?_⟩
    rintro ⟨ids, hids, hasks⟩
    cases hasks
    cases hids
  · let a : Condition := .test (.callStatic (call "a") []) true
    let b : Condition := .test (.callStatic (call "b") []) false
    let c : Condition := .test (.callStatic (call "c") []) false
    have met : choiceGraph.Meets ⟨choice, LocalTable.empty.lookup, {}⟩ v 4
        (some 2) 0 0 true [0, 1] :=
      .goesOn (by cbv) (by decide) (by decide) (.enters (by cbv))
    refine ⟨.any [.all [a, c], .all [a.negate, b]], by cbv, ?_⟩
    rintro ⟨ids, hids, hasks⟩
    obtain rfl := (hids.unique met).2
    exact absurd hasks.length_eq (by decide)

end Graph

end Decompiler
