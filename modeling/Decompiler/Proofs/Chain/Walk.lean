import Decompiler.Proofs.Chain.Paths
import Decompiler.Proofs.Chain.Truth
import Mathlib

/-!
# Walking a chain of tests

Control that enters a chain of tests walks from one to the next along the
edges that they tell, until it arrives in the body or past it.

* `walks_of_paths`: of the paths that are collected from a test exactly those
  that are taken lead into the body.
* `guard_holds_iff_walks`: the guard of a body holds exactly if the walk from
  the first test arrives in the body.
-/

namespace Decompiler.Graph

variable {g : Graph} {ctx : Context} {v : Valuation} {chain : List Nat}
    {body : Nat}
  {after : Option Nat}

/-- The block that a test leads to. -/
def turn? (g : Graph) (ctx : Context) (v : Valuation) (id : Nat) : Option Nat :=
  match g.test ctx id with
  | .ok c => if c.holds v then (g.exit id).target? else (g.exit id).otherwise?
  | .error _ => none

/-- The walk from a test arrives in the body (`true`) or at `after` and so
past it (`false`).  An edge to the body leads into it even when the body is
also what comes after. -/
inductive Walks (g : Graph) (ctx : Context) (v : Valuation) (body : Nat)
    (after : Option Nat) :
    Nat → Bool → Prop
  | enters {id : Nat} (turn : g.turn? ctx v id = some body) :
      Walks g ctx v body after id true
  | passes {id next : Nat} (turn : g.turn? ctx v id = some next)
      (out : next ≠ body) (past : after = some next) :
      Walks g ctx v body after id false
  | goesOn {id next : Nat} {arrives : Bool}
      (turn : g.turn? ctx v id = some next)
      (out : next ≠ body) (short : after ≠ some next)
      (rest : Walks g ctx v body after next arrives) :
      Walks g ctx v body after id arrives

/-- A walk arrives at one place only. -/
theorem Walks.unique {id : Nat} {b c : Bool}
    (hb : g.Walks ctx v body after id b) (hc : g.Walks ctx v body after id c) :
    b = c := by
  induction hb with
  | enters turn =>
    cases hc with
    | enters _ => rfl
    | passes turn' out _ =>
      exact absurd (Option.some.inj (turn'.symm.trans turn)) out
    | goesOn turn' out _ _ =>
      exact absurd (Option.some.inj (turn'.symm.trans turn)) out
  | passes turn out past =>
    cases hc with
    | enters turn' => exact absurd (Option.some.inj (turn.symm.trans turn')) out
    | passes _ _ _ => rfl
    | goesOn turn' _ short _ =>
      cases Option.some.inj (turn.symm.trans turn')
      exact absurd past short
  | goesOn turn out short _ ih =>
    cases hc with
    | enters turn' => exact absurd (Option.some.inj (turn.symm.trans turn')) out
    | passes turn' _ past =>
      cases Option.some.inj (turn.symm.trans turn')
      exact absurd past short
    | goesOn turn' _ _ rest' =>
      cases Option.some.inj (turn.symm.trans turn')
      exact ih rest'

/-- Where an edge leads, told from the chain it is in. -/
def Leads (chain : List Nat) (body : Nat) (after : Option Nat) (next : Nat) :
    Dest → Prop
  | .body => next = body
  | .exit => next ≠ body ∧ after = some next
  | .test position =>
    next ≠ body ∧ after ≠ some next ∧ chain[position]? = some next

/-- An edge with a destination leads there. -/
theorem leads_of_dest {source : Nat} {edge : Option Nat} {d : Dest}
    (h : g.dest chain body after source edge = .ok d) :
    ∃ next, edge = some next ∧ Leads chain body after next d := by
  cases edge with
  | none => simp [dest] at h
  | some next =>
    refine ⟨next, rfl, ?_⟩
    simp only [dest] at h
    split_ifs at h with hbody hafter hchain
    · cases h
      exact hbody
    · cases h
      exact ⟨hbody, hafter⟩
    · cases h
      have hmem : next ∈ chain := by simpa using hchain
      refine ⟨hbody, hafter, ?_⟩
      rw [List.getElem?_eq_getElem (List.idxOf_lt_length_iff.2 hmem),
        List.getElem_idxOf]

/-- The two edges of a test in a chain lead where its fork says. -/
theorem leads_of_fork {id : Nat} {fork : Fork}
    (h : g.fork chain body after id = .ok fork) :
    (∃ next, (g.exit id).target? = some next ∧
        Leads chain body after next fork.taken) ∧
      ∃ next, (g.exit id).otherwise? = some next ∧
        Leads chain body after next fork.fallen := by
  obtain ⟨taken, htaken, h⟩ := bind_eq_ok.1 h
  obtain ⟨fallen, hfallen, h⟩ := bind_eq_ok.1 h
  cases h
  exact ⟨leads_of_dest htaken, leads_of_dest hfallen⟩

/-- The test at each position of a chain, and its edges. -/
structure ReadsAs (g : Graph) (ctx : Context) (chain : List Nat) (body : Nat)
    (after : Option Nat) (tests : List Condition) (forks : List Fork) :
    Prop where
  test : ∀ (position id : Nat), chain[position]? = some id →
    ∃ c, tests[position]? = some c ∧ g.test ctx id = .ok c
  fork : ∀ (position id : Nat), chain[position]? = some id →
    ∃ f, forks[position]? = some f ∧ g.fork chain body after id = .ok f

/-- Of the paths that start with one test, those count whose side it takes. -/
theorem any_taken_fork (hv : v.Opposed) {tests : List Condition}
    {position : Nat} {c : Condition} (hc : tests[position]? = some c)
    (ps qs : List Path) :
    (ps.map (⟨position, true⟩ :: ·) ++ qs.map (⟨position, false⟩ :: ·)).any
        (Condition.taken v tests) =
      if c.holds v then
        ps.any (Condition.taken v tests)
        else qs.any (Condition.taken v tests) := by
  have hget : tests.getD position (.const false) = c := by
    rw [List.getD_eq_getElem?_getD, hc, Option.getD_some]
  simp only [List.any_append, List.any_map, Function.comp_def,
    Condition.taken_cons hv, hget]
  cases c.holds v <;> simp

/-- The end of a walk, from the side that its first test takes. -/
theorem Walks.of_turn {id next : Nat} {d : Dest} {arrives : Bool}
    (turn : g.turn? ctx v id = some next) (hd : Leads chain body after next d)
    (harrives : match d with
      | .body => arrives = true
      | .exit => arrives = false
      | .test _ => g.Walks ctx v body after next arrives) :
    g.Walks ctx v body after id arrives := by
  cases d with
  | body =>
    cases harrives
    exact .enters (hd ▸ turn)
  | exit =>
    cases harrives
    exact .passes turn hd.1 hd.2
  | test position => exact .goesOn turn hd.1 hd.2.1 harrives

/-- **Paths and walks.**  The walk from a test arrives in the body if one of
the paths collected from there is taken, and past it if none is. -/
theorem walks_of_paths (hv : v.Opposed) {tests : List Condition}
    {forks : List Fork} (hr : g.ReadsAs ctx chain body after tests forks)
    {fuel : Nat} {seen : List Nat} {position id : Nat} {ps : List Path}
    (hid : chain[position]? = some id)
    (hps : Chain.paths forks fuel seen position = .ok ps) :
    g.Walks ctx v body after id (ps.any (Condition.taken v tests)) := by
  induction fuel generalizing seen position id ps with
  | zero => cases hps
  | succ n ih =>
    obtain ⟨c, hc, htest⟩ := hr.test position id hid
    obtain ⟨fork, hfork, hedges⟩ := hr.fork position id hid
    obtain ⟨⟨taken, htaken, ltaken⟩, fallen, hfallen, lfallen⟩ :=
      leads_of_fork hedges
    obtain ⟨ps₁, ps₂, hps₁, hps₂, rfl⟩ := Chain.exists_follow_of_paths hps hfork
    -- each side of the fork is followed in the same way
    have side {next : Nat} {d : Dest} {qs : List Path}
        (hqs : Chain.follow forks n (position :: seen) d = .ok qs)
        (hd : Leads chain body after next d)
        (turn : g.turn? ctx v id = some next) :
        g.Walks ctx v body after id (qs.any (Condition.taken v tests)) := by
      refine Walks.of_turn turn hd ?_
      cases d with
      | body =>
        cases hqs
        rfl
      | exit =>
        cases hqs
        rfl
      | test p => exact ih hd.2.2 hqs
    rw [any_taken_fork hv hc]
    cases hval : c.holds v with
    | true => exact side hps₁ ltaken (by simp [turn?, htest, hval, htaken])
    | false => exact side hps₂ lfallen (by simp [turn?, htest, hval, hfallen])

/-- What a guard is made of. -/
theorem parts_of_guard {c : Condition}
    (h : g.guard ctx chain body after = .ok c) :
    ∃ tests forks ps, chain.mapM (g.test ctx) = .ok tests ∧
      chain.mapM (g.fork chain body after) = .ok forks ∧
      Chain.paths forks chain.length [] 0 = .ok ps ∧
      c = (Condition.ofPaths tests chain.length ps).normalize := by
  obtain ⟨tests, htests, h⟩ := bind_eq_ok.1 h
  obtain ⟨forks, hforks, h⟩ := bind_eq_ok.1 h
  cases hps : Chain.paths forks chain.length [] 0 with
  | error position =>
    rw [hps] at h
    cases h
  | ok ps =>
    rw [hps] at h
    cases h
    exact ⟨tests, forks, ps, htests, hforks, hps, rfl⟩

/-- A guard is made of the paths through its chain. -/
theorem guard_of_paths {tests : List Condition} {forks : List Fork}
    {ps : List Path} (htests : chain.mapM (g.test ctx) = .ok tests)
    (hforks : chain.mapM (g.fork chain body after) = .ok forks)
    (hps : Chain.paths forks chain.length [] 0 = .ok ps) :
    g.guard ctx chain body after =
      .ok (Condition.ofPaths tests chain.length ps).normalize := by
  rw [guard, htests, hforks]
  simp only [bind, Except.bind, hps]
  rfl

/-- A chain whose blocks all have a test and a fork is read as these. -/
theorem readsAs_of_mapM {tests : List Condition} {forks : List Fork}
    (htests : chain.mapM (g.test ctx) = .ok tests)
    (hforks : chain.mapM (g.fork chain body after) = .ok forks) :
    g.ReadsAs ctx chain body after tests forks :=
  ⟨fun _ _ hid => getElem?_of_mapM_eq_ok htests hid,
    fun _ _ hid => getElem?_of_mapM_eq_ok hforks hid⟩

/-- A guard that is found reads its chain. -/
theorem readsAs_of_guard {c : Condition}
    (h : g.guard ctx chain body after = .ok c) :
    ∃ tests forks ps, g.ReadsAs ctx chain body after tests forks ∧
      Chain.paths forks chain.length [] 0 = .ok ps ∧
      c = (Condition.ofPaths tests chain.length ps).normalize := by
  obtain ⟨tests, forks, ps, htests, hforks, hps, hc⟩ := parts_of_guard h
  exact ⟨tests, forks, ps, readsAs_of_mapM htests hforks, hps, hc⟩

/-- A guard is found for branches only, whose edges stay in the chain or lead
out of it to the body or past it. -/
theorem exists_branches_of_guard {c : Condition}
    (h : g.guard ctx chain body after = .ok c) {id : Nat} (hid : id ∈ chain) :
    ∃ taken fallen d e, g.exit id = .branches taken (some fallen) ∧
      Leads chain body after taken d ∧ Leads chain body after fallen e := by
  obtain ⟨tests, forks, ps, hreads, _⟩ := readsAs_of_guard h
  obtain ⟨p, hp⟩ := List.mem_iff_getElem?.1 hid
  obtain ⟨fork, _, hfork⟩ := hreads.fork p id hp
  obtain ⟨⟨taken, htaken, ltaken⟩, fallen, hfallen, lfallen⟩ :=
    leads_of_fork hfork
  exact ⟨taken, fallen, fork.taken, fork.fallen,
    Exit.eq_branches_of_otherwise? htaken hfallen, ltaken, lfallen⟩

/-- The walk from the first test of a chain arrives in the body if the guard
holds, and past it if the guard fails. -/
theorem walks_of_guard (hv : v.Faithful) {first : Nat} {rest : List Nat}
    {c : Condition} (h : g.guard ctx (first :: rest) body after = .ok c) :
    g.Walks ctx v body after first (c.holds v) := by
  obtain ⟨tests, forks, ps, hr, hps, rfl⟩ := readsAs_of_guard h
  rw [Condition.holds_normalize, Condition.holds_ofPaths hv]
  exact walks_of_paths hv.opposed hr rfl hps

/-- **Guards are right.**  A guard holds exactly if the walk that starts at
the first test of its chain arrives in the body, and fails exactly if the walk
arrives past it. -/
theorem guard_holds_iff_walks {first : Nat} {rest : List Nat} {c : Condition}
    (h : g.guard ctx (first :: rest) body after = .ok c) (hv : v.Faithful) :
    (c.holds v = true ↔ g.Walks ctx v body after first true) ∧
      (c.holds v = false ↔ g.Walks ctx v body after first false) := by
  have walk := walks_of_guard hv h
  exact ⟨⟨fun hc => hc ▸ walk, fun hw => walk.unique hw⟩,
    ⟨fun hc => hc ▸ walk, fun hw => walk.unique hw⟩⟩

/-- In `if ((a() || b()) && c())` two tests lead to the third; when all of them
answer yes the walk arrives in the body. -/
theorem guard_holds_iff_walks_shared_test :
    let call (name : String) : Member := ⟨"C", name, "()Z"⟩
    let m : Method :=
      { instrs :=
        [.call .static (call "a"), .ifZero .ne ⟨1⟩, .call .static (call "b"),
          .ifZero .eq ⟨2⟩, .label ⟨1⟩, .call .static (call "c"),
          .ifZero .eq ⟨2⟩,
          .call .static ⟨"C", "d", "()V"⟩, .label ⟨2⟩, .ret none],
        ranges := [] }
    let ctx : Context := ⟨m, LocalTable.empty.lookup, {}⟩
    let g : Graph := { labels := [], blocks := [
      { id := 0, breakPoint := 1, start := 0, stop := 1,
        exit := .branches 2 (some 1) },
      { id := 1, breakPoint := 3, start := 2, stop := 3,
        exit := .branches 4 (some 2) },
      { id := 2, breakPoint := 6, start := 5, stop := 6,
        exit := .branches 4 (some 3) },
      { id := 3, breakPoint := 8, start := 7, stop := 8,
        exit := .falls (some 4) },
      { id := 4, breakPoint := 9, start := 9, stop := 10, exit := .returns }] }
    let v : Valuation :=
      { test := fun _ => true,
        compare := fun _ op _ => op == .eq || op == .lt || op == .gt }
    let c : Condition := .all [
      .any [.test (.callStatic (call "a") []) false, .test (.callStatic (call "b") []) false],
      .test (.callStatic (call "c") []) false]
    g.guard ctx [0, 1, 2] 3 (some 4) = .ok c ∧ v.Faithful ∧ c.holds v = true ∧
      g.Walks ctx v 3 (some 4) 0 true := by
  intro call m ctx g v c
  have hguard : g.guard ctx [0, 1, 2] 3 (some 4) = .ok c := by cbv
  have hv : v.Faithful :=
    ⟨fun _ op _ => by cases op <;> rfl, fun _ _ _ => rfl, fun _ _ _ _ _ _ _ => rfl⟩
  have hc : c.holds v = true := by decide
  exact ⟨hguard, hv, hc, ((guard_holds_iff_walks hguard hv).1).1 hc⟩

end Decompiler.Graph
