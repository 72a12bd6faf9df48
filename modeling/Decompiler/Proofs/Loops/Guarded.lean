import Decompiler.Proofs.Chain.Walk
import Decompiler.Proofs.Graph.Sequential
import Decompiler.Proofs.Loops.Listed

/-!
# Tests owe nothing of their own

A guard is only found for a chain of tests that control walks without coming
back to one of them.  The tests stand one after the other and each runs into the
next, so that control can come to every one of them; a jump back inside the
chain would close a circle.  What the tests owe is therefore owed at the body
that they guard, or at what comes after it.

* `Chain.lt_of_taken`: where paths are found no test leads back.
* `Listed.settles_of_guard`: what the tests of a chain owe.
-/

namespace Decompiler

namespace Chain

variable {forks : List Fork} {n position next : Nat} {seen : List Nat}
    {ps : List Path}

/-- With whatever fuel there is, the search goes on to the tests that a test
leads to. -/
theorem exists_paths_of_fork (h : paths forks n seen position = .ok ps)
    {fork : Fork} (hfork : forks[position]? = some fork)
    (hnext : fork.taken = .test next ∨
      fork.fallen = .test next) :
      ∃ m ps', paths forks m (position :: seen) next = .ok ps' := by
  cases n with
  | zero => cases h
  | succ n => exact ⟨n, exists_paths_of_goesTo h ⟨fork, hfork, hnext⟩⟩

/-- Tests that run into one another are met in turn. -/
theorem exists_paths_of_fallen (h : paths forks n [] 0 = .ok ps)
    (hfallen : ∀ i < position, ∃ fork, forks[i]? = some fork ∧
      fork.fallen = .test (i + 1)) :
    ∃ m seen ps', paths forks m seen position = .ok ps' ∧ ∀ i < position,
      i ∈ seen := by
  induction position with
  | zero => exact ⟨n, [], ps, h, fun i hi => absurd hi (Nat.not_lt_zero i)⟩
  | succ p ih =>
    obtain ⟨m, seen, ps', hps', hseen⟩ :=
      ih fun i hi => hfallen i (Nat.lt_succ_of_lt hi)
    obtain ⟨fork, hfork, hnext⟩ := hfallen p (Nat.lt_succ_self p)
    obtain ⟨m', ps'', hps''⟩ := exists_paths_of_fork hps' hfork (.inr hnext)
    refine ⟨m', p :: seen, ps'', hps'', fun i hi => ?_⟩
    rcases Nat.eq_or_lt_of_le (Nat.lt_succ_iff.1 hi) with rfl | hlt
    · exact List.mem_cons_self
    · exact List.mem_cons_of_mem _ (hseen i hlt)

/-- None of the tests leads back. -/
theorem lt_of_taken (h : paths forks n [] 0 = .ok ps)
    (hfallen : ∀ i < position, ∃ fork, forks[i]? = some fork ∧
      fork.fallen = .test (i + 1))
    {fork : Fork} (hfork : forks[position]? = some fork)
    (htaken : fork.taken = .test next) : position < next := by
  obtain ⟨m, seen, ps', hps', hseen⟩ := exists_paths_of_fallen h hfallen
  obtain ⟨m', ps'', hps''⟩ := exists_paths_of_fork hps' hfork (.inl htaken)
  have hfresh := not_mem_of_paths hps''
  rw [List.mem_cons, not_or] at hfresh
  refine Nat.lt_of_not_le fun hle => ?_
  rcases Nat.eq_or_lt_of_le hle with heq | hlt
  · exact hfresh.1 heq
  · exact hfresh.2 (hseen next hlt)

end Chain

variable {ctx : Context} {g₀ : Graph} {w : Told} {chain list : List Nat}
    {hi body id : Nat}
  {after : Option Nat}

/-- Every block that a list covers belongs to one of its elements. -/
theorem Listed.exists_element (h : Listed g₀ w list hi) {x : Nat}
    (hlo : list.headD hi ≤ x) (hhi : x < hi) : ∃ p id, list[p]? = some id ∧
      id ≤ x ∧ x < (list.drop (p + 1)).headD hi := by
  induction list with
  | nil => exact absurd hhi (Nat.not_lt.2 hlo)
  | cons id rest ih =>
    rcases Nat.lt_or_ge x (rest.headD hi) with hlt | hge
    · exact ⟨0, id, rfl, hlo, hlt⟩
    · obtain ⟨p, id', hid', hle, hlt⟩ := ih h.2 hge
      exact ⟨p + 1, id', hid', hle, hlt⟩

/-- A test that a guard has found is a block of its own: it has an edge to where
its jump led in the beginning, and runs into the next block. -/
structure IsTest (g₀ : Graph) (w : Told) (list : List Nat)
    (hi position id : Nat) : Prop where
  stays : (g₀.exit id).isJump = false
  next : (list.drop (position + 1)).headD hi = id + 1
  otherwise : (w.graph.exit id).otherwise? = some (id + 1)
  edges : ∃ taken, (w.graph.exit id).target? = some taken ∧
  ∀ s ∈ g₀.successors id,
    s = id + 1 ∨ g₀.place (some taken) = g₀.place (some s)

/-- A block with two edges is a test. -/
theorem Listed.isTest (h : Listed g₀ w list hi) (hseq : g₀.Sequential)
    {position taken fallen : Nat} (hid : list[position]? = some id)
    (htaken : (w.graph.exit id).target? = some taken)
    (hfallen : (w.graph.exit id).otherwise? = some fallen) :
    IsTest g₀ w list hi position id := by
  have hexit := Exit.eq_branches_of_otherwise? htaken hfallen
  obtain ⟨hnext, f, hmap, hsame, hahead⟩ :=
    (h.piece hid).of_exit fun _ heq => by
      cases hexit.symm.trans heq
  rw [hexit] at hmap
  obtain ⟨t, o, hold, rfl⟩ := Exit.exists_of_mapTargets_branches hmap.symm
  obtain rfl := hseq.ahead id t o hold
  rw [hahead _ (Nat.lt_succ_self id)] at hexit
  have ht : taken = f t := by
    rw [hold] at hmap
    cases hmap
    rfl
  refine ⟨by rw [hold]; rfl, hnext, by rw [hexit]; rfl, taken, by rw [hexit]; rfl, fun s hs => ?_⟩
  simp only [Graph.successors, hold, Exit.successors, Option.toList_some,
    List.mem_cons, List.not_mem_nil, or_false] at hs
  rcases hs with rfl | rfl
  · exact .inr (ht ▸ hsame s)
  · exact .inl rfl

/-- A guard is only found for tests. -/
theorem Listed.isTest_of_guard (h : Listed g₀ w chain hi) (hseq : g₀.Sequential)
    {c : Condition} (hguard : w.graph.guard ctx chain body after = .ok c)
    {position : Nat} (hid : chain[position]? = some id) :
    IsTest g₀ w chain hi position id := by
  obtain ⟨tests, forks, ps, hreads, _⟩ := Graph.readsAs_of_guard hguard
  obtain ⟨fork, _, hfork⟩ := hreads.fork position id hid
  obtain ⟨⟨_, htaken, _⟩, _, hfallen, _⟩ := Graph.leads_of_fork hfork
  exact h.isTest hseq hid htaken hfallen

/-- The elements of a chain that are tests run into one another. -/
theorem IsTest.getElem?_succ {position : Nat}
    (h : IsTest g₀ w list hi position id) (hlt : position + 1 < list.length) :
    list[position + 1]? = some (id + 1) := by
  have hnext := h.next
  rw [List.headD_eq_head?_getD, List.head?_drop, List.getElem?_eq_getElem hlt,
    Option.getD_some] at hnext
  rw [List.getElem?_eq_getElem hlt, hnext]

section Chain

variable {tests : List Condition} {forks : List Fork} {c : Condition}

/-- The tests of a chain run into one another. -/
theorem Listed.fallen_eq (h : Listed g₀ w chain hi) (hseq : g₀.Sequential)
    (hguard : w.graph.guard ctx chain body after = .ok c)
    (hbody : body ∉ chain.tail) (hafter : ∀ a, after = some a → a ∉ chain)
    (hreads : w.graph.ReadsAs ctx chain body after tests forks) {i : Nat}
    (hi : i + 1 < chain.length) : ∃ fork, forks[i]? = some fork ∧
      fork.fallen = .test (i + 1) := by
  have hid := List.getElem?_eq_getElem (Nat.lt_of_succ_lt hi)
  have htest := h.isTest_of_guard hseq hguard hid
  obtain ⟨fork, hfork, hleads⟩ := hreads.fork i _ hid
  obtain ⟨_, next, hnext, hfallen⟩ := Graph.leads_of_fork hleads
  obtain rfl := Option.some.inj (hnext.symm.trans htest.otherwise)
  have hget := htest.getElem?_succ hi
  refine ⟨fork, hfork, ?_⟩
  cases hdest : fork.fallen with
  | body =>
    rw [hdest] at hfallen
    refine absurd (List.mem_of_getElem? (i := i) ?_) hbody
    rw [List.getElem?_tail, hget]
    exact congrArg some hfallen
  | exit =>
    rw [hdest] at hfallen
    exact absurd (List.mem_of_getElem? hget) (hafter _ hfallen.2)
  | test q =>
    rw [hdest] at hfallen
    rcases Nat.lt_trichotomy (i + 1) q with hless | rfl | hless
    · exact absurd (h.lt_of_lt hless hget hfallen.2.2) (Nat.lt_irrefl _)
    · rfl
    · exact absurd (h.lt_of_lt hless hfallen.2.2 hget) (Nat.lt_irrefl _)

/-- What is owed along an edge of a test is owed outside its chain, if the edge
does not lead back. -/
theorem Listed.owed_of_leads (h : Listed g₀ w chain hi) (hseq : g₀.Sequential)
    (hguard : w.graph.guard ctx chain body after = .ok c) {p next t : Nat}
    {d : Dest} (hid : chain[p]? = some id)
    (hd : Graph.Leads chain body after next d)
    (hfurther : ∀ q, d = .test q → p < q) (hle : t ≤ id)
    (ht : t ∈ g₀.place (some next)) :
    t ∈ g₀.place (some body) ∪ g₀.place after := by
  cases d with
  | body =>
    obtain rfl : next = body := hd
    exact .inl ht
  | exit => exact .inr (hd.2 ▸ ht)
  | test q =>
    have hnext := hd.2.2
    rw [Graph.place_of_stays (h.isTest_of_guard hseq hguard hnext).stays] at ht
    obtain rfl : t = next := ht
    exact absurd (h.lt_of_lt (hfurther q rfl) hid hnext) (Nat.not_lt.2 hle)

/-- **Tests.**  What the tests of a chain owe is owed at the body they guard, or
at what comes after it. -/
theorem Listed.settles_of_guard (h : Listed g₀ w chain hi)
    (hseq : g₀.Sequential) (hguard : w.graph.guard ctx chain body after = .ok c)
    (hbody : body ∉ chain.tail) (hafter : ∀ a, after = some a → a ∉ chain) :
    g₀.Settles (chain.headD hi) hi 0
      (g₀.place (some body) ∪ g₀.place after) := by
  obtain ⟨tests, forks, ps, hreads, hps, _⟩ := Graph.readsAs_of_guard hguard
  refine ⟨[], Nat.le_refl 0, fun x hlo hhi t ⟨hle, s, hs, ht⟩ => .inr ?_⟩
  obtain ⟨p, id, hid, hle', hless⟩ := h.exists_element hlo hhi
  have htest := h.isTest_of_guard hseq hguard hid
  obtain rfl : x = id := by
    rw [htest.next] at hless
    omega
  have hp : p < chain.length := (List.getElem?_eq_some_iff.1 hid).1
  obtain ⟨fork, hfork, hleads⟩ := hreads.fork p x hid
  obtain ⟨⟨taken, htaken, ltaken⟩, fallen, hfallen, lfallen⟩ :=
    Graph.leads_of_fork hleads
  obtain ⟨taken', htaken', hedges⟩ := htest.edges
  obtain rfl := Option.some.inj (htaken.symm.trans htaken')
  obtain rfl := Option.some.inj (hfallen.symm.trans htest.otherwise)
  rcases hedges s hs with rfl | hplace
  · refine h.owed_of_leads hseq hguard hid lfallen (fun q hq => ?_) hle ht
    rw [hq] at lfallen
    exact h.lt_of_lt_of_getElem? (Nat.lt_succ_self x) hid lfallen.2.2
  · refine h.owed_of_leads hseq hguard hid ltaken (fun q hq => ?_) hle
      (hplace ▸ ht)
    exact Chain.lt_of_taken hps
      (fun i hi => h.fallen_eq hseq hguard hbody hafter hreads (by omega))
      hfork hq

end Chain

end Decompiler
