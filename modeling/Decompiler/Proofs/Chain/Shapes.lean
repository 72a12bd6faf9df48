import Decompiler.Proofs.Chain.Broken
import Decompiler.Proofs.Chain.Groups

/-!
# Conditions come back

A condition of two levels is compiled to a chain of blocks that ask its tests
from left to right.  A test that leaves its group open leads to the next test of
the group, one that decides the group leads to the next group, and a group that
decides the whole leads into the body or past it.  Any test may be asked with
its jump taken when it holds or when it fails.

The guard of such a chain is put together from the last test back to the first,
and after each step it is the condition from that test on.

* `Junction.InTurn`: blocks that ask the members of a junction one after
  another.
* `Graph.yields_of_asks`, `Graph.yields_group`, `Graph.yields_groups`: what such
  blocks are put together to.
* `Graph.guard_of_inTurn`: the guard of a chain that asks a condition of two
  levels is that condition.
-/

namespace Decompiler

/-! ### Blocks in turn -/

/-- Blocks that ask the members of a junction one after another.  `asks a entry
rest goal` tells that the blocks `entry :: rest` ask `a` and lead to `goal` of
what it comes to; a member that is neutral leads on to the next one. -/
inductive Junction.InTurn {α : Type} (j : Junction)
    (asks : α → (entry : Nat) → (rest : List Nat) → (goal : Bool → Nat) →
      Prop) :
    List α → (entry : Nat) → (rest : List Nat) → (goal : Bool → Nat) → Prop
  | last {a : α} {entry : Nat} {rest : List Nat} {goal : Bool → Nat}
      (asked : asks a entry rest goal) : InTurn j asks [a] entry rest goal
  | next {a : α} {as : List α} {entry entry' : Nat} {rest rest' : List Nat}
      {goal : Bool → Nat}
      (asked : asks a entry rest (Function.update goal j.neutral entry'))
      (others : InTurn j asks as entry' rest' goal) :
      InTurn j asks (a :: as) entry (rest ++ entry' :: rest') goal

namespace Junction.InTurn

variable {α : Type} {j : Junction} {asks : α → Nat → List Nat → (Bool → Nat) →
      Prop} {as : List α}
  {entry : Nat} {rest : List Nat} {goal : Bool → Nat}

/-- There is at least one member in turn. -/
theorem ne_nil (h : j.InTurn asks as entry rest goal) : as ≠ [] := by
  cases h <;> exact List.cons_ne_nil _ _

/-- What can be told of whatever is asked holds of all the members. -/
theorem forall_mem {P : α → Prop}
    (hasks : ∀ a entry rest goal, asks a entry rest goal → P a)
    (h : j.InTurn asks as entry rest goal) : ∀ a ∈ as, P a := by
  induction h with
  | last asked => exact List.forall_mem_singleton.2 (hasks _ _ _ _ asked)
  | next asked _ ih => exact List.forall_mem_cons.2 ⟨hasks _ _ _ _ asked, ih⟩

/-- If the blocks of every member lead to one another and to its goals, so do
the blocks of all of them. -/
theorem exists_goal {asked : Nat → (Bool → Nat) → Prop}
    (hasks : ∀ a entry rest goal, asks a entry rest goal → ∀ id ∈ entry :: rest,
      ∃ goal', asked id goal' ∧ ∀ b, goal' b ∈ entry :: rest ∨ ∃ b',
        goal' b = goal b')
    (h : j.InTurn asks as entry rest goal) : ∀ id ∈ entry :: rest,
      ∃ goal', asked id goal' ∧ ∀ b, goal' b ∈ entry :: rest ∨ ∃ b',
        goal' b = goal b' := by
  induction h with
  | last h => exact hasks _ _ _ _ h
  | @next a as entry entry' rest rest' goal h _ ih =>
    intro id hid
    rw [← List.cons_append] at hid ⊢
    rcases List.mem_append.1 hid with hid | hid
    · obtain ⟨goal', hasked, hgoal'⟩ := hasks _ _ _ _ h id hid
      refine ⟨goal', hasked, fun b => ?_⟩
      rcases hgoal' b with hb | ⟨b', hb⟩
      · exact .inl (List.mem_append_left _ hb)
      rw [hb]
      -- the goal of a neutral member is the first block of the next one
      by_cases hneutral : b' = j.neutral
      · rw [hneutral, Function.update_self]
        exact .inl (List.mem_append_right _ List.mem_cons_self)
      · rw [Function.update_of_ne hneutral]
        exact .inr ⟨b', rfl⟩
    · obtain ⟨goal', hasked, hgoal'⟩ := ih id hid
      exact ⟨goal', hasked, fun b =>
        (hgoal' b).imp_left (List.mem_append_right _)⟩

end Junction.InTurn

namespace Graph

open Chain (GoesTo joined)

variable {g : Graph} {ctx : Context} {chain : List Nat} {body : Nat}
    {after : Option Nat}
  {tests : List Condition} {forks : List Fork} {j : Junction}

/-- A single block that asks a test, and jumps if the test comes to `jump`. -/
def Asks (g : Graph) (ctx : Context) (c : Condition) (entry : Nat)
    (rest : List Nat) (goal : Bool → Nat) : Prop :=
  rest = [] ∧ ∃ jump : Bool, g.test ctx entry = .ok (c.literal jump) ∧
    g.exit entry = .branches (goal jump) (some (goal !jump))

/-- Control that comes to a block leaves the chain in the end, and what is put
together from there, with fuel for `depth` tests, is a given condition. -/
def Resolves (chain : List Nat) (body : Nat) (after : Option Nat)
    (tests : List Condition) (forks : List Fork) (next : Nat) (c : Condition)
    (depth : Nat) : Prop :=
  ∀ d, Leads chain body after next d →
    (∀ p, d = .test p → Acc (fun q p => GoesTo forks p q) p) ∧
      ∀ fuel, depth ≤ fuel → joined tests forks fuel d = c

/-- Control that is at a block of the chain leaves the chain in the end, and
what is put together from there, with fuel for `depth` tests, is a given
condition.  The block may be where the body starts: an edge to it then leads
into the body, but control starts with its test. -/
def Yields (chain : List Nat) (tests : List Condition) (forks : List Fork)
    (id : Nat) (c : Condition) (depth : Nat) : Prop :=
  ∀ p, chain[p]? = some id →
    Acc (fun q p => GoesTo forks p q) p ∧
      ∀ fuel, depth ≤ fuel → joined tests forks fuel (.test p) = c

/-- More fuel changes nothing. -/
theorem Resolves.mono {next depth depth' : Nat} {c : Condition}
    (hle : depth ≤ depth')
    (h : Resolves chain body after tests forks next c depth) :
    Resolves chain body after tests forks next c depth' := fun d hd =>
  ⟨(h d hd).1, fun fuel hfuel => (h d hd).2 fuel (Nat.le_trans hle hfuel)⟩

/-- An edge into the body stands for what holds. -/
theorem resolves_body : Resolves chain body after tests forks body
      (.const true) 0 := by
  intro d hd
  cases d with
  | body =>
    exact ⟨fun p hp => Dest.noConfusion hp, fun fuel _ => by cases fuel <;> rfl⟩
  | exit => exact absurd rfl hd.1
  | test p => exact absurd rfl hd.1

/-- An edge past the body stands for what fails. -/
theorem resolves_after {next : Nat} (hbody : next ≠ body) :
    Resolves chain body (some next) tests forks next (.const false) 0 := by
  intro d hd
  cases d with
  | body => exact absurd hd hbody
  | exit =>
    exact ⟨fun p hp => Dest.noConfusion hp, fun fuel _ => by cases fuel <;> rfl⟩
  | test p => exact absurd rfl hd.2.1

/-- An edge to a block that is neither the body's nor past it starts with the
test of the block. -/
theorem Yields.resolves {id depth : Nat} {c : Condition}
    (h : Yields chain tests forks id c depth) (hbody : id ≠ body)
    (hafter : after ≠ some id) :
    Resolves chain body after tests forks id c depth := by
  intro d hd
  cases d with
  | body => exact absurd hd hbody
  | exit => exact absurd hd.2 hafter
  | test p =>
    refine ⟨fun q hq => ?_, (h p hd.2.2).2⟩
    cases hq
    exact (h p hd.2.2).1

/-- **One test.**  A block that asks a test chooses between what its two edges
are put together to. -/
theorem yields_of_asks (hr : g.ReadsAs ctx chain body after tests forks)
    {c whole : Condition} {id depth : Nat} {rest : List Nat} {goal : Bool → Nat}
    {side : Bool → Condition} (hasks : g.Asks ctx c id rest goal)
    (hside : ∀ b, Resolves chain body after tests forks (goal b) (side b) depth)
    (hturn : ∀ jump, Condition.turn jump c side = whole) :
    Yields chain tests forks id whole (depth + 1) := by
  obtain ⟨-, jump, htest, hexit⟩ := hasks
  intro p hid
  obtain ⟨test, hp, htest'⟩ := hr.test p id hid
  cases htest.symm.trans htest'
  obtain ⟨fork, hfork, hedges⟩ := hr.fork p id hid
  obtain ⟨⟨taken, htaken, ltaken⟩, fallen, hfallen, lfallen⟩ :=
    leads_of_fork hedges
  rw [hexit] at htaken hfallen
  cases htaken
  cases hfallen
  have htaken := hside jump fork.taken ltaken
  have hfallen := hside (!jump) fork.fallen lfallen
  refine ⟨.intro p fun q hnext => ?_, fun fuel hfuel => ?_⟩
  · obtain ⟨fork', hfork', hedge⟩ := hnext
    obtain rfl : fork = fork' := Option.some.inj (hfork.symm.trans hfork')
    exact hedge.elim (htaken.1 q) (hfallen.1 q)
  · obtain ⟨n, rfl⟩ : ∃ n, fuel = n + 1 := ⟨fuel - 1, by omega⟩
    have hn : depth ≤ n := Nat.le_of_succ_le_succ hfuel
    rw [joined, hfork, List.getD_eq_getElem?_getD, hp]
    change Condition.select _ (joined tests forks n fork.taken)
      (joined tests forks n fork.fallen) = whole
    rw [htaken.2 n hn, hfallen.2 n hn, ← hturn jump]
    rfl

/-- The two sides of a test by what is neutral. -/
theorem resolves_sides {goal : Bool → Nat} {onward decided : Condition}
    {depth : Nat}
    (hopen : Resolves chain body after tests forks (goal j.neutral)
      onward depth)
    (hdecided : Resolves chain body after tests forks (goal !j.neutral) decided
      depth) (b : Bool) :
    Resolves chain body after tests forks (goal b)
      (Function.update (fun _ => decided) j.neutral onward b) depth := by
  by_cases hb : b = j.neutral
  · rw [hb, Function.update_self]
    exact hopen
  · rw [Function.update_of_ne hb, Bool.eq_not.2 hb]
    exact hdecided

/-- What a block asks is a test. -/
theorem isTest_of_asks {c : Condition} {entry : Nat} {rest : List Nat}
    {goal : Bool → Nat} (h : g.Asks ctx c entry rest goal) :
    c.isTest = true := by
  obtain ⟨-, jump, htest, -⟩ := h
  have hjump := isTest_of_test htest
  cases jump with
  | true => exact hjump
  | false => exact Condition.isTest_of_isTest_negate hjump

/-- **One group.**  Blocks that ask the tests of a group in turn are put
together to the group and the groups that follow. -/
theorem yields_group (hr : g.ReadsAs ctx chain body after tests forks)
    {cs : List Condition} {groups : List (List Condition)} {entry depth : Nat}
    {rest : List Nat} {goal : Bool → Nat}
    (h : j.dual.InTurn (g.Asks ctx) cs entry rest goal)
    (hcs : Condition.haveNaN cs = false)
    (hgroups : ∀ cs ∈ groups, Junction.IsGroup cs)
    (hout : ∀ id ∈ rest, id ≠ body ∧ after ≠ some id)
    (hopen : Resolves chain body after tests forks (goal j.neutral)
      (j.ofGroups groups) depth)
    (hdecided : Resolves chain body after tests forks (goal !j.neutral)
      (.const !j.neutral) depth) :
    Yields chain tests forks entry (j.ofGroups (cs :: groups))
      (depth + (entry :: rest).length) := by
  induction h with
  | @last c entry rest goal asked =>
    obtain rfl := asked.1
    refine yields_of_asks hr asked (resolves_sides hopen hdecided) fun jump =>
      ?_
    exact Junction.turn_last (isTest_of_asks asked) hgroups
      (Function.update_self ..) (Function.update_of_ne (by simp) ..)
  | @next c cs entry entry' rest rest' goal asked others ih =>
    obtain rfl := asked.1
    obtain ⟨⟨hbody, hafter⟩, hout⟩ := List.forall_mem_cons.1 hout
    obtain ⟨hNaN, hcs⟩ := Bool.or_eq_false_iff.1 hcs
    have hgroup : Junction.IsGroup cs :=
      ⟨others.ne_nil, others.forall_mem fun _ _ _ _ => isTest_of_asks, hcs⟩
    have hrest := (ih hcs hout hopen hdecided).resolves hbody hafter
    -- the test leads to the next one if it leaves the group open
    have hsides : ∀ b, Resolves chain body after tests forks
        (Function.update goal j.dual.neutral entry' b)
        (Function.update (fun _ => j.ofGroups (cs :: groups)) j.neutral
          (j.ofGroups groups) b)
        (depth + (entry' :: rest').length) := by
      refine resolves_sides ?_ ?_
      · rw [Function.update_of_ne (by rw [Junction.neutral_dual]; simp)]
        exact hopen.mono (Nat.le_add_right _ _)
      · rw [← Junction.neutral_dual, Function.update_self]
        exact hrest
    refine yields_of_asks hr asked hsides fun jump => ?_
    exact Junction.turn_cons (isTest_of_asks asked) hNaN hgroup hgroups
      (Function.update_self ..) (Function.update_of_ne (by simp) ..)

/-- **All groups.**  Blocks that ask a condition of two levels are put together
to that condition. -/
theorem yields_groups (hr : g.ReadsAs ctx chain body after tests forks)
    {groups : List (List Condition)} {entry : Nat} {rest : List Nat}
    {goal : Bool → Nat}
    (h : j.InTurn (j.dual.InTurn (g.Asks ctx)) groups entry rest goal)
    (hNaN : ∀ cs ∈ groups, Condition.haveNaN cs = false)
    (hout : ∀ id ∈ rest, id ≠ body ∧ after ≠ some id)
    (hgoal : ∀ b, Resolves chain body after tests forks (goal b) (.const b) 0) :
    (∀ cs ∈ groups, Junction.IsGroup cs) ∧
      Yields chain tests forks entry (j.ofGroups groups)
        (entry :: rest).length := by
  induction h with
  | @last cs entry rest goal asked =>
    have hcs := hNaN cs List.mem_cons_self
    refine ⟨List.forall_mem_singleton.2
      ⟨asked.ne_nil, asked.forall_mem fun _ _ _ _ => isTest_of_asks, hcs⟩, ?_⟩
    rw [← Nat.zero_add (entry :: rest).length]
    exact yields_group hr asked hcs (by simp) hout (hgoal _) (hgoal _)
  | @next cs groups entry entry' rest rest' goal asked others ih =>
    obtain ⟨hcs, hNaN⟩ := List.forall_mem_cons.1 hNaN
    obtain ⟨houtGroup, hout⟩ := List.forall_mem_append.1 hout
    obtain ⟨⟨hbody, hafter⟩, hout⟩ := List.forall_mem_cons.1 hout
    obtain ⟨hgroups, hrest⟩ := ih hNaN hout hgoal
    refine ⟨List.forall_mem_cons.2
      ⟨⟨asked.ne_nil, asked.forall_mem fun _ _ _ _ => isTest_of_asks, hcs⟩,
        hgroups⟩, ?_⟩
    rw [← List.cons_append, List.length_append, Nat.add_comm]
    refine yields_group hr asked hcs hgroups houtGroup ?_ ?_
    · rw [Function.update_self]
      exact hrest.resolves hbody hafter
    · rw [Function.update_of_ne (by simp)]
      exact (hgoal _).mono (Nat.zero_le _)

/-! ### The guard -/

/-- Where every edge leads to the body, past it or to a test, and control leaves
the chain, the guard is what is put together fork by fork. -/
theorem guard_eq_joined {first : Nat} {rest : List Nat}
    (htests : (first :: rest).mapM (g.test ctx) = .ok tests)
    (hforks : (first :: rest).mapM (g.fork (first :: rest) body after) =
      .ok forks)
    (hends : Acc (fun q p => GoesTo forks p q) 0) :
    g.guard ctx (first :: rest) body after =
      .ok (joined tests forks (first :: rest).length (.test 0)) := by
  have hr := readsAs_of_mapM htests hforks
  have hlength := length_of_mapM_eq_ok hforks
  obtain ⟨ps, hps⟩ := (Chain.exists_paths_iff
    (fun p q h => (hr.staysIn_of_goesTo hlength h).2) (Nat.zero_lt_succ _)).2
    (Chain.not_circles_of_acc hends)
  rw [guard_of_paths htests hforks hps, Chain.ofPaths_eq_joined hps,
    Condition.normalize_eq_self (isNormal_joined_of_mapM htests hforks _ _)]

/-- Every block of a chain that asks groups of tests has a test, and its edges
lead to the body, past it or to another test. -/
theorem exists_mapM_of_inTurn {groups : List (List Condition)}
    {first past : Nat} {rest : List Nat}
    (hasks : j.InTurn (j.dual.InTurn (g.Asks ctx)) groups first rest
      fun b => if b then body else past) :
    ∃ tests forks, (first :: rest).mapM (g.test ctx) = .ok tests ∧
      (first :: rest).mapM (g.fork (first :: rest) body (some past)) =
        .ok forks := by
  have hasked : ∀ id ∈ first :: rest, ∃ goal', (∃ c, g.Asks ctx c id [] goal') ∧
      ∀ b, goal' b ∈ first :: rest ∨ ∃ b' : Bool, goal' b = if b' then body
        else past :=
    hasks.exists_goal fun cs entry rest goal hcs =>
      hcs.exists_goal fun c entry rest goal hc => by
        obtain rfl := hc.1
        exact List.forall_mem_singleton.2
          ⟨goal, ⟨c, hc⟩, fun b => .inr ⟨b, rfl⟩⟩
  have htests : ∀ id ∈ first :: rest, ∃ test, g.test ctx id = .ok test := by
    intro id hid
    obtain ⟨_, ⟨c, -, jump, htest, -⟩, -⟩ := hasked id hid
    exact ⟨_, htest⟩
  have hescapes : ¬ ∃ id ∈ first :: rest,
      Escapes (first :: rest) body (some past) (g.exit id).target? ∨
        Escapes (first :: rest) body (some past) (g.exit id).otherwise? := by
    rintro ⟨id, hid, hedge⟩
    obtain ⟨goal', ⟨c, -, jump, -, hexit⟩, hgoal'⟩ := hasked id hid
    have stays (b : Bool) : ¬ Escapes (first :: rest) body (some past)
        (some (goal' b)) := by
      intro hescapes
      obtain ⟨hbody, hpast, hchain⟩ := hescapes _ rfl
      obtain ⟨b', hb'⟩ := (hgoal' b).resolve_left hchain
      cases b'
      · exact hpast (congrArg some hb'.symm)
      · exact hbody hb'
    rw [hexit] at hedge
    exact hedge.elim (stays _) (stays _)
  obtain ⟨tests, htests⟩ := exists_mapM_eq_ok htests
  obtain ⟨forks, hforks⟩ := exists_mapM_fork hescapes
  exact ⟨tests, forks, htests, hforks⟩

/-- A chain that asks groups of tests has a guard, which is what the groups make
up. -/
theorem guard_eq_ofGroups {groups : List (List Condition)} {first past : Nat}
    {rest : List Nat}
    (hasks : j.InTurn (j.dual.InTurn (g.Asks ctx)) groups first rest
      fun b => if b then body else past)
    (hNaN : ∀ cs ∈ groups, Condition.haveNaN cs = false) (hbody : body ∉ rest)
    (hpast : past ∉ rest) (hne : past ≠ body) :
    g.guard ctx (first :: rest) body (some past) = .ok (j.ofGroups groups) := by
  obtain ⟨tests, forks, htests, hforks⟩ := exists_mapM_of_inTurn hasks
  have hr := readsAs_of_mapM htests hforks
  have hout : ∀ id ∈ rest, id ≠ body ∧ some past ≠ some id := by
    intro id hid
    exact ⟨fun h => hbody (h ▸ hid), fun h => hpast (Option.some.inj h ▸ hid)⟩
  have hgoal (b : Bool) : Resolves (first :: rest) body (some past) tests forks
      (if b then body else past) (.const b) 0 := by
    cases b
    · exact resolves_after hne
    · exact resolves_body
  obtain ⟨hends, hjoined⟩ := (yields_groups hr hasks hNaN hout hgoal).2 0 rfl
  rw [guard_eq_joined htests hforks hends, hjoined _ (Nat.le_refl _)]

/-- **Conditions come back.**  If a chain asks the tests of a condition of two
levels from left to right, and leads into the body if it holds and past the body
if it fails, the guard of the body is that condition.  The body may start with
the first test of the chain, as the body of `do { } while (a() && b())` does. -/
theorem guard_of_inTurn {groups : List (List Condition)} {first past : Nat}
    {rest : List Nat}
    (hasks : j.InTurn (j.dual.InTurn (g.Asks ctx)) groups first rest
      fun b => if b then body else past)
    (hNaN : (j.of (groups.map j.dual.of)).hasNaN = false)
    (hbody : body ∉ rest) (hpast : past ∉ rest) (hne : past ≠ body) :
    g.guard ctx (first :: rest) body (some past) =
      .ok (j.of (groups.map j.dual.of)) := by
  rw [Junction.hasNaN_of, Junction.haveNaN_map_of] at hNaN
  rw [guard_eq_ofGroups hasks hNaN hbody hpast hne,
    Junction.ofGroups_of_ne_nil hasks.ne_nil]

/-- `if (a() && b() || !c() && d())`, where the tests of `b()` and `c()` jump if
the method answers yes and the other two if it answers no. -/
theorem guard_of_inTurn_two_terms :
    let call (name : String) : Member := ⟨"C", name, "()Z"⟩
    let m : Method :=
      { instrs :=
        [.call .static (call "a"), .ifZero .eq ⟨1⟩, .call .static (call "b"),
          .ifZero .ne ⟨2⟩, .label ⟨1⟩, .call .static (call "c"),
          .ifZero .ne ⟨3⟩,
          .call .static (call "d"), .ifZero .eq ⟨3⟩, .label ⟨2⟩,
          .call .static ⟨"C", "x", "()V"⟩, .label ⟨3⟩, .ret none],
        ranges := [] }
    let ctx : Context := ⟨m, LocalTable.empty.lookup, {}⟩
    let g : Graph := { labels := [], blocks := [
      { id := 0, breakPoint := 1, start := 0, stop := 1,
        exit := .branches 2 (some 1) },
      { id := 1, breakPoint := 3, start := 2, stop := 3,
        exit := .branches 4 (some 2) },
      { id := 2, breakPoint := 6, start := 5, stop := 6,
        exit := .branches 5 (some 3) },
      { id := 3, breakPoint := 8, start := 7, stop := 8,
        exit := .branches 5 (some 4) },
      { id := 4, breakPoint := 11, start := 10, stop := 11,
        exit := .falls (some 5) },
      { id := 5, breakPoint := 12, start := 12, stop := 13, exit := .returns }]
      }
    let answers (name : String) (negated : Bool) : Condition :=
      .test (.callStatic (call name) []) negated
    Junction.any.InTurn (Junction.all.InTurn (g.Asks ctx))
        [[answers "a" false, answers "b" false],
          [answers "c" true, answers "d" false]]
        0 [1, 2, 3] (fun b => if b then 4 else 5) ∧
      g.guard ctx [0, 1, 2, 3] 4 (some 5) = .ok (.any [
        .all [answers "a" false, answers "b" false],
        .all [answers "c" true, answers "d" false]]) := by
  intro call m ctx g answers
  let goal (b : Bool) : Nat := if b then 4 else 5
  have hfirst :
      Junction.all.InTurn (g.Asks ctx) [answers "a" false, answers "b" false]
      0 ([] ++ 1 :: []) (Function.update goal false 2) := by
    refine .next ⟨rfl, false, ?_, ?_⟩ (.last ⟨rfl, true, ?_, ?_⟩)
    all_goals cbv
  have hsecond :
      Junction.all.InTurn (g.Asks ctx) [answers "c" true, answers "d" false]
      2 ([] ++ 3 :: []) goal := by
    refine .next ⟨rfl, false, ?_, ?_⟩ (.last ⟨rfl, false, ?_, ?_⟩)
    all_goals cbv
  have hasks : Junction.any.InTurn (Junction.any.dual.InTurn (g.Asks ctx))
      [[answers "a" false, answers "b" false],
        [answers "c" true, answers "d" false]]
      0 ([1] ++ 2 :: [3]) goal := .next hfirst (.last hsecond)
  exact ⟨hasks, guard_of_inTurn hasks (by decide) (by decide) (by decide)
    (by decide)⟩

end Graph

end Decompiler
