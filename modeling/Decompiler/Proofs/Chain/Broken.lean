import Decompiler.Proofs.Chain.Paths
import Decompiler.Proofs.Chain.Walk

/-!
# Chains without a guard

A chain of tests has no guard for two reasons.  An edge of some test is missing,
or leads to a block that is neither the body, nor what comes after it, nor a
test of the chain; or control can go round in a circle of tests without coming
into the body or past it.  Edges into the body or past it count as leaving the
chain even where these blocks are tests of the chain themselves, and circles
that control cannot come to from the first test do no harm.

* `Graph.Escapes`, `Graph.StaysIn`: edges out of a chain, and inside.
* `Graph.circles_iff`: circles of positions are circles of blocks.
* `Graph.guard_edgeEscapes_iff_broken`: these are all the reasons, and in every
  other case there is a guard.
-/

namespace Decompiler.Graph

open Relation (ReflTransGen TransGen)

variable {g : Graph} {ctx : Context} {chain : List Nat} {body : Nat}
    {after : Option Nat}

/-- Whether an edge is missing, or leads neither to the body nor past it nor to
a test of the chain. -/
def Escapes (chain : List Nat) (body : Nat) (after edge : Option Nat) : Prop :=
  ∀ next, edge = some next → next ≠ body ∧ after ≠ some next ∧ next ∉ chain

/-- Whether an edge of a test leads to a test of the chain, which is neither the
body nor what comes after it. -/
def StaysIn (g : Graph) (chain : List Nat) (body : Nat) (after : Option Nat)
    (id next : Nat) :
    Prop :=
  id ∈ chain ∧ next ∈ chain ∧ next ≠ body ∧ after ≠ some next ∧
    ((g.exit id).target? = some next ∨ (g.exit id).otherwise? = some next)

/-- Whether some edge of a chain escapes, or control can come from the first
test to one that it can come back to. -/
def Broken (g : Graph) (chain : List Nat) (body : Nat) (after : Option Nat)
    (first : Nat) : Prop :=
  (∃ id ∈ chain, Escapes chain body after (g.exit id).target? ∨
    Escapes chain body after (g.exit id).otherwise?) ∨
  ∃ id, ReflTransGen (g.StaysIn chain body after) first id ∧
    TransGen (g.StaysIn chain body after) id id

/-! ### Edges -/

/-- An edge that escapes has no destination. -/
theorem dest_of_escapes {edge : Option Nat} (source : Nat)
    (h : Escapes chain body after edge) :
    g.dest chain body after source edge = .error
      (.edgeEscapes (g.block source).breakPoint) := by
  cases edge with
  | none => rfl
  | some next =>
    obtain ⟨hbody, hafter, hchain⟩ := h next rfl
    rw [dest, if_neg hbody, if_neg hafter,
      if_neg (mt List.contains_iff_mem.1 hchain)]

/-- An edge to a block of the chain leads to the first test of that block. -/
theorem dest_of_mem {next : Nat} (source : Nat) (hbody : next ≠ body)
    (hafter : after ≠ some next) (hchain : next ∈ chain) :
    g.dest chain body after source (some next) =
      .ok (.test (chain.idxOf next)) := by
  rw [dest, if_neg hbody, if_neg hafter,
    if_pos (List.contains_iff_mem.2 hchain)]

/-- An edge that does not escape leads somewhere. -/
theorem exists_dest {edge : Option Nat} (source : Nat)
    (h : ¬ Escapes chain body after edge) :
    ∃ d, g.dest chain body after source edge = .ok d := by
  cases edge with
  | none =>
    refine absurd (fun _ hnext => ?_) h
    cases hnext
  | some next =>
    by_cases hbody : next = body
    · exact ⟨.body, by rw [dest, if_pos hbody]⟩
    by_cases hafter : after = some next
    · exact ⟨.exit, by rw [dest, if_neg hbody, if_pos hafter]⟩
    by_cases hchain : next ∈ chain
    · exact ⟨_, dest_of_mem source hbody hafter hchain⟩
    refine absurd (fun n hn => ?_) h
    cases hn
    exact ⟨hbody, hafter, hchain⟩

/-- The edges of a test are read exactly if neither escapes. -/
theorem exists_fork_or_edgeEscapes (id : Nat) :
    (¬ (Escapes chain body after (g.exit id).target? ∨
        Escapes chain body after (g.exit id).otherwise?) ∧
      ∃ fork, g.fork chain body after id = .ok fork) ∨
    (Escapes chain body after (g.exit id).target? ∨
        Escapes chain body after (g.exit id).otherwise?) ∧
      g.fork chain body after id = .error
        (.edgeEscapes (g.block id).breakPoint) := by
  by_cases htaken : Escapes chain body after (g.exit id).target?
  · exact .inr ⟨.inl htaken, bind_eq_error.2 (.inl (dest_of_escapes id htaken))⟩
  obtain ⟨taken, hdest⟩ := exists_dest (g := g) id htaken
  by_cases hfallen : Escapes chain body after (g.exit id).otherwise?
  · exact .inr ⟨.inr hfallen, bind_eq_error.2
      (.inr ⟨taken, hdest, bind_eq_error.2 (.inl (dest_of_escapes id hfallen))⟩)⟩
  obtain ⟨fallen, hdest'⟩ := exists_dest (g := g) id hfallen
  exact .inl ⟨not_or.2 ⟨htaken, hfallen⟩, _,
    bind_eq_ok.2 ⟨taken, hdest, bind_eq_ok.2 ⟨fallen, hdest', rfl⟩⟩⟩

/-- If some edge of a test escapes, the edges are not read, and the first such
test is named. -/
theorem mapM_fork_of_escapes {ids : List Nat}
    (h : ∃ id ∈ ids, Escapes chain body after (g.exit id).target? ∨
      Escapes chain body after (g.exit id).otherwise?) :
    ∃ index, ids.mapM (g.fork chain body after) = .error
      (.edgeEscapes index) := by
  obtain ⟨id, hid, hedge⟩ := h
  obtain ⟨fault, hfault⟩ := exists_mapM_eq_error hid
    ((exists_fork_or_edgeEscapes id).resolve_left fun h => h.1 hedge).2
  obtain ⟨other, _, hother⟩ := exists_mem_of_mapM_eq_error hfault
  have hfork := (exists_fork_or_edgeEscapes other).resolve_left fun h => by
    obtain ⟨fork, hfork⟩ := h.2
    cases hfork.symm.trans hother
  cases hfork.2.symm.trans hother
  exact ⟨_, hfault⟩

/-- If no edge of a test escapes, all of them are read. -/
theorem exists_mapM_fork {ids : List Nat}
    (h : ¬ ∃ id ∈ ids, Escapes chain body after (g.exit id).target? ∨
      Escapes chain body after (g.exit id).otherwise?) :
    ∃ forks, ids.mapM (g.fork chain body after) = .ok forks := by
  refine exists_mapM_eq_ok fun id hid => ?_
  exact ((exists_fork_or_edgeEscapes id).resolve_right fun hedge =>
    h ⟨id, hid, hedge.1⟩).2

/-! ### Circles -/

variable {tests : List Condition} {forks : List Fork}

/-- An edge between positions is one between the blocks that stand there. -/
theorem ReadsAs.staysIn_of_goesTo
    (hr : g.ReadsAs ctx chain body after tests forks)
    (hlength : forks.length = chain.length) {p q : Nat}
    (h : Chain.GoesTo forks p q) :
    g.StaysIn chain body after (chain.getD p 0) (chain.getD q 0) ∧
      q < chain.length := by
  obtain ⟨fork, hfork, hedge⟩ := h
  have hp : p < chain.length := hlength ▸ (List.getElem?_eq_some_iff.1 hfork).1
  obtain ⟨fork', hfork', hread⟩ :=
    hr.fork p chain[p] (List.getElem?_eq_getElem hp)
  obtain rfl : fork' = fork := Option.some.inj (hfork'.symm.trans hfork)
  obtain ⟨⟨taken, htaken, ltaken⟩, fallen, hfallen, lfallen⟩ :=
    leads_of_fork hread
  -- either edge leads to the block at the other position
  have edge {next : Nat} {d : Dest} (hd : d = .test q)
      (hleads : Leads chain body after next d)
      (hnext : (g.exit chain[p]).target? = some next ∨
        (g.exit chain[p]).otherwise? = some next) :
      g.StaysIn chain body after (chain.getD p 0) (chain.getD q 0) ∧
      q < chain.length := by
    subst hd
    obtain ⟨hbody, hafter, hq⟩ := hleads
    obtain ⟨hlt, rfl⟩ := List.getElem?_eq_some_iff.1 hq
    rw [List.getD_eq_getElem _ _ hp, List.getD_eq_getElem _ _ hlt]
    exact ⟨⟨List.getElem_mem hp, List.getElem_mem hlt, hbody, hafter, hnext⟩,
      hlt⟩
  rcases hedge with hedge | hedge
  · exact edge hedge ltaken (.inl htaken)
  · exact edge hedge lfallen (.inr hfallen)

/-- An edge between blocks is one between their positions. -/
theorem ReadsAs.goesTo_of_staysIn
    (hr : g.ReadsAs ctx chain body after tests forks) {a b : Nat}
    (h : g.StaysIn chain body after a b) :
    Chain.GoesTo forks (chain.idxOf a) (chain.idxOf b) := by
  obtain ⟨ha, hb, hbody, hafter, hedge⟩ := h
  have hpos : chain[chain.idxOf a]? = some a := by
    rw [List.getElem?_eq_getElem (List.idxOf_lt_length_iff.2 ha),
      List.getElem_idxOf]
  obtain ⟨fork, hfork, hread⟩ := hr.fork _ a hpos
  have hdest := dest_of_mem (g := g) a hbody hafter hb
  obtain ⟨taken, htaken, hread⟩ := bind_eq_ok.1 hread
  obtain ⟨fallen, hfallen, hread⟩ := bind_eq_ok.1 hread
  cases hread
  refine ⟨_, hfork, hedge.imp (fun hedge => ?_) fun hedge => ?_⟩
  · rw [hedge, hdest] at htaken
    exact (Except.ok.inj htaken).symm
  · rw [hedge, hdest] at hfallen
    exact (Except.ok.inj hfallen).symm

/-- **Circles.**  Control can go round in a circle of positions exactly if it
can in a circle of blocks. -/
theorem ReadsAs.circles_iff {first : Nat} {rest : List Nat}
    (hr : g.ReadsAs ctx (first :: rest) body after tests forks)
    (hlength : forks.length = (first :: rest).length) :
    Chain.Circles forks 0 ↔
      ∃ id, ReflTransGen (g.StaysIn (first :: rest) body after) first id ∧
        TransGen (g.StaysIn (first :: rest) body after) id id := by
  constructor
  · rintro ⟨p, hreach, hcircle⟩
    have step (p q : Nat) (h : Chain.GoesTo forks p q) :=
      (hr.staysIn_of_goesTo hlength h).1
    exact ⟨(first :: rest).getD p 0,
      hreach.lift ((first :: rest).getD · 0) step,
      hcircle.lift ((first :: rest).getD · 0) step⟩
  · rintro ⟨id, hreach, hcircle⟩
    have step (a b : Nat) (h : g.StaysIn (first :: rest) body after a b) :=
      hr.goesTo_of_staysIn h
    have hfrom : ReflTransGen (Chain.GoesTo forks) ((first :: rest).idxOf first)
        ((first :: rest).idxOf id) := hreach.lift (first :: rest).idxOf step
    rw [List.idxOf_cons_self] at hfrom
    exact ⟨(first :: rest).idxOf id, hfrom,
      hcircle.lift (first :: rest).idxOf step⟩

/-! ### The guard -/

/-- A test that control comes back to is reported by its break point. -/
theorem guard_of_paths_eq_error {position : Nat}
    (htests : chain.mapM (g.test ctx) = .ok tests)
    (hforks : chain.mapM (g.fork chain body after) = .ok forks)
    (hps : Chain.paths forks chain.length [] 0 = .error position) :
    g.guard ctx chain body after =
      .error (.edgeEscapes (g.block (chain.getD position 0)).breakPoint) := by
  rw [guard, htests, hforks]
  simp only [bind, Except.bind, hps]
  rfl

/-- **Broken chains.**  If every block of a chain is a test, an edge is reported
to escape exactly if the chain is broken; in every other case there is a
guard. -/
theorem guard_edgeEscapes_iff_broken {first : Nat} {rest : List Nat}
    (htests : ∀ id ∈ first :: rest, ∃ test, g.test ctx id = .ok test) :
    ((∃ index, g.guard ctx (first :: rest) body after = .error
      (.edgeEscapes index)) ↔ g.Broken (first :: rest) body after first) ∧
    (¬ g.Broken (first :: rest) body after first →
      ∃ c, g.guard ctx (first :: rest) body after = .ok c) := by
  obtain ⟨tests, htests⟩ := exists_mapM_eq_ok htests
  by_cases hescapes : ∃ id ∈ first :: rest,
      Escapes (first :: rest) body after (g.exit id).target? ∨
        Escapes (first :: rest) body after (g.exit id).otherwise?
  · -- the first test with such an edge is named
    have hbroken : g.Broken (first :: rest) body after first := .inl hescapes
    obtain ⟨index, hforks⟩ := mapM_fork_of_escapes hescapes
    have hguard : g.guard ctx (first :: rest) body after = .error
        (.edgeEscapes index) :=
      bind_eq_error.2 (.inr ⟨tests, htests, bind_eq_error.2 (.inl hforks)⟩)
    exact ⟨⟨fun _ => hbroken, fun _ => ⟨index, hguard⟩⟩, fun h =>
      absurd hbroken h⟩
  -- every edge leads somewhere, and only a circle is left to fail
  obtain ⟨forks, hforks⟩ := exists_mapM_fork hescapes
  have hr := readsAs_of_mapM htests hforks
  have hlength := length_of_mapM_eq_ok hforks
  have hbroken : g.Broken (first :: rest) body after first ↔
      Chain.Circles forks 0 := by
    rw [Broken, or_iff_right hescapes, hr.circles_iff hlength]
  have hpaths : (∃ ps, Chain.paths forks (first :: rest).length [] 0 = .ok ps) ↔
      ¬ Chain.Circles forks 0 :=
    Chain.exists_paths_iff (fun p q h => (hr.staysIn_of_goesTo hlength h).2)
      (Nat.zero_lt_succ _)
  rw [hbroken]
  cases hps : Chain.paths forks (first :: rest).length [] 0 with
  | ok ps =>
    have hcircles := hpaths.1 ⟨ps, hps⟩
    have hguard := guard_of_paths htests hforks hps
    refine ⟨⟨?_, fun h => absurd h hcircles⟩, fun _ => ⟨_, hguard⟩⟩
    rintro ⟨_, herror⟩
    cases hguard.symm.trans herror
  | error position =>
    have hcircles : Chain.Circles forks 0 := by
      by_contra hnone
      obtain ⟨ps, hps'⟩ := hpaths.2 hnone
      cases hps.symm.trans hps'
    have hguard := guard_of_paths_eq_error htests hforks hps
    exact ⟨⟨fun _ => hcircles, fun _ => ⟨_, hguard⟩⟩, fun h =>
      absurd hcircles h⟩

/-- In `do { } while (a());` the test leads back to itself, which is a circle
unless the test is also what comes after the body. -/
theorem guard_edgeEscapes_iff_broken_loop :
    let m : Method :=
      { instrs := [.label ⟨1⟩, .call .static ⟨"C", "a", "()Z"⟩, .ifZero .ne ⟨1⟩,
          .call .static ⟨"C", "x", "()V"⟩, .ret none], ranges := [] }
    let ctx : Context := ⟨m, LocalTable.empty.lookup, {}⟩
    let g : Graph := { labels := [], blocks := [
      { id := 0, breakPoint := 2, start := 0, stop := 2,
        exit := .branches 0 (some 1) },
      { id := 1, breakPoint := 4, start := 3, stop := 5, exit := .returns }] }
    (∀ id ∈ [0], ∃ test, g.test ctx id = .ok test) ∧
      g.Broken [0] 1 none 0 ∧
      (∃ index, g.guard ctx [0] 1 none = .error (.edgeEscapes index)) ∧
      ¬ g.Broken [0] 1 (some 0) 0 ∧ ∃ c,
      g.guard ctx [0] 1 (some 0) = .ok c := by
  intro m ctx g
  have htests : ∀ id ∈ [0], ∃ test, g.test ctx id = .ok test := by
    simp only [List.mem_singleton, forall_eq]
    exact ⟨.test (.callStatic ⟨"C", "a", "()Z"⟩ []) false, by cbv⟩
  have hcircle : g.Broken [0] 1 none 0 :=
    .inr ⟨0, .refl, .single ⟨by decide, by decide, by decide, by decide, .inl rfl⟩⟩
  have hleaves : ¬ g.Broken [0] 1 (some 0) 0 := by
    rintro (⟨id, hid, hedge⟩ | ⟨id, -, hcircle⟩)
    · obtain rfl := List.mem_singleton.1 hid
      rcases hedge with hedge | hedge
      · exact (hedge 0 rfl).2.1 rfl
      · exact (hedge 1 rfl).1 rfl
    · obtain ⟨_, -, -, hnext, -, hafter, -⟩ :=
        Relation.TransGen.tail'_iff.1 hcircle
      obtain rfl := List.mem_singleton.1 hnext
      exact hafter rfl
  exact ⟨htests, hcircle, (guard_edgeEscapes_iff_broken htests).1.2 hcircle,
    hleaves, (guard_edgeEscapes_iff_broken htests).2 hleaves⟩

end Decompiler.Graph
