import Decompiler.Proofs.Loops.Guarded
import Decompiler.Proofs.Region.Sound

/-!
# Sections account for edges back

Every step of taking a graph apart turns a list of blocks into sections whose
loops account for what the blocks owe, provided the work stays faithful.  What
a block of straight-line code owes is owed by what comes after it in the
sections; what is owed at the head of a region with a test, or without one, is
settled by its loop.

* `StructurerSettles`: what is known of a structurer.
* `settles_loop`, `settles_jumpEntered`, `settles_branch`: the kinds of regions.
* `settles_regionSection`: regions, with the regions inside them folded.
* `settles_sections`: lists of blocks, to any depth.
-/

namespace Decompiler

/-- What comes after a list is not among its blocks. -/
def IsPast (hi : Nat) (after : Option Nat) : Prop :=
  ∀ a, after = some a → hi ≤ a

/-- A structurer whose loops account for what the blocks of a list owe. -/
def StructurerSettles (g₀ : Graph) (inner : Structurer) : Prop :=
  ∀ (list : List Nat) (hi : Nat) (after : Option Nat) (w : Told)
    (ss : List Section) (w' : Told),
    Steady g₀.place g₀ w → Listed g₀ w list hi → IsPast hi after →
    (inner list after).told w = .ok (ss, w') → w'.faithful = true →
    g₀.Settles (list.headD hi) hi (Section.loopsOf ss) (g₀.place after)

variable {ctx : Context} {g₀ : Graph} {inner : Structurer} {w w' : Told}
    {first lo hi : Nat}
  {rest list : List Nat} {after : Option Nat} {s : Section} {left : Set Nat}

/-- What is past the end of a list is not in it. -/
theorem IsPast.not_mem {hi' : Nat} (h : IsPast hi after)
    (hlist : Listed g₀ w list hi') (hle : hi' ≤ hi) : ∀ a, after = some a →
      a ∉ list := fun a ha hmem =>
  absurd (hlist.lt_of_mem hmem) (Nat.not_lt.2 (Nat.le_trans hle (h a ha)))

/-- The end is past the end. -/
theorem isPast_self (hi : Nat) : IsPast hi (some hi) := fun _ ha =>
  Nat.le_of_eq (Option.some.inj ha)

/-- What is past a later end is past an earlier one. -/
theorem IsPast.mono {hi' : Nat} (h : IsPast hi after) (hle : hi' ≤ hi) :
    IsPast hi' after :=
  fun a ha => Nat.le_trans hle (h a ha)

/-- What is owed at the start of a list is settled by the list. -/
theorem Listed.settles_through {n k : Nat} (hlist : Listed g₀ w list hi)
    (h : g₀.Settles lo (list.headD hi) n
      (g₀.place (list.head?.or after) ∪ left))
    (h' : g₀.Settles (list.headD hi) hi k (g₀.place after)) :
    g₀.Settles lo hi (n + k) (g₀.place after ∪ left) := by
  cases list with
  | nil => exact h.mono (Nat.le_add_right n k) (Set.Subset.refl _)
  | cons id others => exact h.through h' (hlist.lt_of_mem List.mem_cons_self)

/-! ### Blocks -/

namespace Piece

variable {id next t : Nat}

/-- A jump owes what is owed where it goes. -/
theorem settles_of_jumps (h : Piece g₀ w id next)
    (hexit : w.graph.exit id = .jumps t) :
    g₀.Settles id next 0 (g₀.place (some t)) := by
  obtain ⟨rfl, f, hmap, hsame, _⟩ := h.of_exit fun _ heq => by
    cases hexit.symm.trans heq
  refine Graph.Settles.one fun x ⟨_, s, hs, hx⟩ => ?_
  rw [hexit] at hmap
  rw [Graph.successors] at hs
  cases hold : g₀.exit id with
  | jumps s' =>
    rw [hold] at hmap hs
    cases hmap
    obtain rfl := List.mem_singleton.1 hs
    rwa [hsame]
  | falls | branches | selects | returns | throws =>
    rw [hold] at hmap; cases hmap

/-- A block of straight-line code owes what is owed at what comes after it. -/
theorem settles_of_goesOn (hw : Steady g₀.place g₀ w) (h : Piece g₀ w id next)
    (hplain : (w.graph.block id).folded = none)
    (hgoes : w.graph.goesOn id after = true) :
    g₀.Settles id next 0 (g₀.place after) := by
  cases h with
  | folded holds =>
    rw [holds] at hplain
    cases hplain
  | @whole f _ exit same _ next_eq =>
    subst next_eq
    refine Graph.Settles.one fun x ⟨_, s, hs, hx⟩ => ?_
    rw [Graph.successors] at hs
    rw [Graph.goesOn, exit] at hgoes
    cases hold : g₀.exit id with
    | falls target =>
      rw [hold] at hs hgoes
      obtain rfl : target = some s := by simpa [Exit.successors] using hs
      rw [← (hw.place_eq_of_meets hgoes).1]
      change x ∈ g₀.place (some (f s))
      rwa [same]
    | jumps target =>
      rw [hold] at hs hgoes
      obtain rfl := List.mem_singleton.1 hs
      rw [← (hw.place_eq_of_meets hgoes).1, same]
      exact hx
    | branches | selects => rw [hold] at hgoes; cases hgoes
    | returns | throws => rw [hold] at hs; cases hs

/-- A folded region owes what is owed at what comes after it. -/
theorem settles_folded (hw : Steady g₀.place g₀ w) (h : Piece g₀ w id next)
    (hfolded : (w.graph.block id).folded = some s)
    (hgoes : w.graph.goesOn id after = true) :
    g₀.Settles id next s.loops (g₀.place after) := by
  cases h with
  | whole plain =>
    rw [plain] at hfolded
    cases hfolded
  | folded holds exit _ settles =>
    obtain rfl := Option.some.inj (holds.symm.trans hfolded)
    rw [Graph.goesOn, exit] at hgoes
    rw [← (hw.place_eq_of_meets hgoes).1]
    exact settles

end Piece

/-- What the tests of a guard owe, and the work as it is left. -/
theorem settles_guard (hseq : g₀.Sequential) (hw : Steady g₀.place g₀ w)
    {body : Nat} {cond : Condition} (hlist : Listed g₀ w list hi)
    (h : (Partition.guard ctx list body after).told w = .ok (cond, w'))
    (hbody : body ∉ list.tail) (hafter : ∀ a, after = some a → a ∉ list) :
    Steady g₀.place g₀ w' ∧ w'.graph = w.graph ∧
      (∀ id ∈ list, (g₀.exit id).isJump = false) ∧
        g₀.Settles (list.headD hi) hi 0
        (g₀.place (some body) ∪ g₀.place after) := by
  obtain ⟨hw', _⟩ :=
    (Confined.guard _ _ _ : Confined g₀.place g₀ [] _) _ _ _ hw h
  obtain ⟨hguard, rfl⟩ := Partition.told_guard h
  refine ⟨hw', rfl, fun id hid =>
    ?_, hlist.settles_of_guard hseq hguard hbody hafter⟩
  obtain ⟨p, hp⟩ := List.mem_iff_getElem?.1 hid
  exact (hlist.isTest_of_guard hseq hguard hp).stays

/-- What the tests at the front of a list owe. -/
theorem settles_front (hseq : g₀.Sequential) (hw : Steady g₀.place g₀ w)
    {size body : Nat} {cond : Condition}
    (hlist : Listed g₀ w (first :: rest) hi) (hsize : 1 ≤ size)
    (h : (Partition.guard ctx ((first :: rest).take size) body after).told w =
      .ok (cond, w'))
    (hbody : ((first :: rest).drop size).headD hi ≤ body)
    (hafter : ∀ a, after = some a → a ∉ (first :: rest).take size) :
    Steady g₀.place g₀ w' ∧ w'.graph = w.graph ∧
      g₀.Settles first (((first :: rest).drop size).headD hi) 0
        (g₀.place (some body) ∪ g₀.place after) := by
  have hchain := hlist.take size
  have hhead :
      ((first :: rest).take size).headD (((first :: rest).drop size).headD hi) =
      first := by
    obtain ⟨n, rfl⟩ : ∃ n, size = n + 1 := ⟨size - 1, by omega⟩
    rfl
  obtain ⟨hw', hsame, _, htests⟩ := settles_guard hseq hw hchain h
    (fun hmem => absurd (hchain.lt_of_mem (List.mem_of_mem_tail hmem))
      (Nat.not_lt.2 hbody)) hafter
  rw [hhead] at htests
  exact ⟨hw', hsame, htests⟩

/-! ### Loops -/

/-- The last element of a list. -/
theorem Listed.dropLast (h : Listed g₀ w (first :: rest) hi) :
    Listed g₀ w (first :: rest).dropLast (rest.getLastD first) ∧
      Piece g₀ w (rest.getLastD first) hi :=
  (listed_iff_linked.1 h).dropLast.imp_left listed_iff_linked.2

/-- A loop that is closed by a jump settles what is owed at its head. -/
theorem settles_closed {n last : Nat}
    (h : g₀.Settles first last n (g₀.place (some last) ∪ g₀.place after))
    (hclose : g₀.place (some last) = g₀.place (some first))
    (hlast : g₀.Settles last hi 0 (g₀.place (some first))) :
    g₀.Settles first hi (n + 1) (g₀.place after) := by
  have hsubset : (g₀.place (some last) ∪ g₀.place after) ∪ g₀.place
      (some first) ⊆ g₀.place (some first) ∪ g₀.place after := by
    rw [hclose]
    exact Set.union_subset (Set.Subset.refl _) Set.subset_union_left
  exact ((h.append hlast).mono (Nat.le_refl _) hsubset).loop

/-- A loop with its test at the top, up to the jump at its bottom. -/
theorem settles_headTested? (hseq : g₀.Sequential)
    (hinner : StructurerSettles g₀ inner) (hw : Steady g₀.place g₀ w)
    (hlist : Listed g₀ w (first :: rest) hi) (hafter : IsPast hi after)
    (h : (Partition.headTested? ctx inner (first :: rest)
      (rest.getLastD first) after).told w =
      .ok (some s, w')) (hfaithful : w'.faithful = true) :
    ∃ n, s.loops = n + 1 ∧ g₀.Settles first (rest.getLastD first) n
      (g₀.place (some (rest.getLastD first)) ∪ g₀.place after) := by
  obtain ⟨hnone, _⟩ | ⟨k, cond, body, w₁, hk, heq, hguard, hbody⟩ :=
    Partition.told_headTested? h
  · cases hnone
  · cases heq
    obtain ⟨hpos, hle⟩ := Graph.le_of_headTests? hk
    have hnext : ((first :: rest).drop k).headD hi = (first :: rest).getD k 0 :=
      headD_drop (Nat.lt_succ_of_le hle) hi
    have hfront : ((first :: rest).dropLast.drop k).head?.or
        (some (rest.getLastD first)) =
        some ((first :: rest).getD k 0) := head?_body hle
    obtain ⟨hw₁, hsame, htests⟩ :=
      settles_front hseq hw hlist hpos hguard (Nat.le_of_eq hnext)
        (hafter.not_mem (hlist.take k) (hlist.drop k).head_le)
    rw [hnext, ← hfront, ← headD_of_head?_or hfront] at htests
    have hrest : Listed g₀ w₁ ((first :: rest).dropLast.drop k)
        (rest.getLastD first) :=
      (hlist.dropLast.1.drop k).congr fun id _ => by rw [hsame]
    have hsettles :=
      hinner _ _ _ _ _ _ hw₁ hrest (isPast_self _) hbody hfaithful
    have hthrough := hrest.settles_through htests hsettles
    rw [Nat.zero_add] at hthrough
    exact ⟨Section.loopsOf body, rfl, hthrough⟩

/-- The test at the bottom of a loop, and the body in front of it. -/
theorem settles_tested (hseq : g₀.Sequential)
    (hinner : StructurerSettles g₀ inner) (hw : Steady g₀.place g₀ w)
    (hlist : Listed g₀ w (first :: rest) hi) (hafter : IsPast hi after)
    {start test : Nat} {tests : List Nat}
    (hdrop : (first :: rest).drop start = test :: tests) {cond : Condition}
    {w₁ : Told} {body : List Section}
    (hguard : (Partition.guard ctx (test :: tests) first after).told w =
      .ok (cond, w₁))
    (hbody : (inner ((first :: rest).take start) (some test)).told w₁ =
      .ok (body, w'))
    (hfaithful : w'.faithful = true) :
    (g₀.exit test).isJump = false ∧
      g₀.Settles first test (Section.loopsOf body) (g₀.place (some test)) ∧
      g₀.Settles test hi 0 (g₀.place (some first) ∪ g₀.place after) := by
  obtain ⟨hstart, hfirst⟩ : ((first :: rest).take start).headD test = first ∧
      first ∉ tests := by
    have hnodup := List.nodup_cons.1 hlist.nodup
    cases start with
    | zero =>
      cases hdrop
      exact ⟨rfl, hnodup.1⟩
    | succ n =>
      refine ⟨rfl, fun hmem => hnodup.1 (List.drop_subset n rest ?_)⟩
      rw [List.drop_succ_cons] at hdrop
      rw [hdrop]
      exact List.mem_cons_of_mem _ hmem
  have hchain := hlist.drop start
  rw [hdrop] at hchain
  have hbefore := hlist.take start
  rw [hdrop, List.headD_cons] at hbefore
  obtain ⟨hw₁, hsame, hstays, htests⟩ :=
    settles_guard hseq hw hchain hguard hfirst
      (hafter.not_mem hchain (Nat.le_refl hi))
  have hsettles :=
    hinner _ _ _ _ _ _ hw₁ (hbefore.congr fun id _ => by rw [hsame])
      (isPast_self test) hbody hfaithful
  rw [hstart] at hsettles
  exact ⟨hstays test List.mem_cons_self, hsettles, htests⟩

/-- A loop with its test at the bottom settles what is owed at its body. -/
theorem settles_bottom {n test head : Nat}
    (h : g₀.Settles lo test n (g₀.place (some test)))
    (hstays : (g₀.exit test).isJump = false)
    (htests : g₀.Settles test hi 0 (g₀.place (some head) ∪ g₀.place after)) :
    g₀.Settles lo hi (n + 1) (g₀.place after) := by
  have hrest := (h.ahead (Nat.le_refl test) hstays).append htests
  rw [Set.empty_union] at hrest
  exact hrest.loop

/-- A loop with its test at the bottom. -/
theorem settles_tailTested (hseq : g₀.Sequential)
    (hinner : StructurerSettles g₀ inner) (hw : Steady g₀.place g₀ w)
    (hlist : Listed g₀ w (first :: rest) hi) (hafter : IsPast hi after)
    {last : Nat}
    (h : (Partition.tailTested ctx inner first last (first :: rest) after).told
      w = .ok (s, w'))
    (hfaithful : w'.faithful = true) :
    g₀.Settles first hi s.loops (g₀.place after) := by
  obtain ⟨start, test, tests, cond, body, w₁, _, hdrop, rfl, hguard, hbody⟩ :=
    Partition.told_tailTested h
  obtain ⟨hstays, hsettles, htests⟩ :=
    settles_tested hseq hinner hw hlist hafter hdrop hguard hbody hfaithful
  exact settles_bottom hsettles hstays htests

/-- A loop accounts for what is owed at its head, which is not a jump. -/
theorem settles_loop (hseq : g₀.Sequential)
    (hinner : StructurerSettles g₀ inner) (hw : Steady g₀.place g₀ w)
    (hlist : Listed g₀ w (first :: rest) hi) (hafter : IsPast hi after)
    (hfirst : (w.graph.exit first).isJump = false)
    (h : (Partition.loop ctx inner first rest after).told w = .ok (s, w'))
    (hfaithful : w'.faithful = true) :
    g₀.Settles first hi s.loops (g₀.place after) := by
  have hclosed (hexit : w.graph.exit (rest.getLastD first) = .jumps first) :
      g₀.place (some (rest.getLastD first)) = g₀.place (some first) ∧
        g₀.Settles (rest.getLastD first) hi 0 (g₀.place (some first)) ∧
        Steady g₀.place g₀ (w.closed first rest) ∧
        Listed g₀ (w.closed first rest) (first :: rest) hi := by
    have hclose := hw.jumps _ _ hexit
    -- the last block jumps and the head does not
    have hne : rest.getLastD first ≠ first := fun heq => by
      rw [heq] at hexit
      rw [hexit] at hfirst
      cases hfirst
    have hbehind : ∀ id ∈ rest.dropLast, first < id := fun id hid =>
      (List.pairwise_cons.1 (List.pairwise_append.1 hlist.pairwise_lt).1).1 id
        (List.dropLast_subset _ hid)
    exact ⟨hclose, hlist.dropLast.2.settles_of_jumps hexit,
      hw.redirect (Redirected.closed hclose w.toWork),
      hlist.continueAt hne hclose hbehind⟩
  cases Partition.told_loop h with
  | headTested closes run =>
    obtain ⟨hclose, hlast, hw₁, hlist₁⟩ := hclosed closes
    obtain ⟨n, hloops, hsettles⟩ :=
      settles_headTested? hseq hinner hw₁ hlist₁ hafter run hfaithful
    rw [hloops]
    exact settles_closed hsettles hclose hlast
  | @forever body closes run eq =>
    subst eq
    obtain ⟨hclose, hlast, hw₁, hlist₁⟩ := hclosed closes
    have hsettles :=
      hinner _ _ _ _ _ _ hw₁ hlist₁.dropLast.1 (isPast_self _) run hfaithful
    have hhead : (first :: rest).dropLast.headD (rest.getLastD first) =
        first := by
      cases rest <;> rfl
    rw [hhead] at hsettles
    exact settles_closed (hsettles.mono (Nat.le_refl _) Set.subset_union_left)
      hclose hlast
  | tailTested run =>
    exact settles_tailTested hseq hinner hw hlist hafter run hfaithful

/-- A loop that is entered by a jump accounts for what is owed at its body. -/
theorem settles_jumpEntered (hseq : g₀.Sequential)
    (hinner : StructurerSettles g₀ inner) (hw : Steady g₀.place g₀ w)
    (hlist : Listed g₀ w (first :: rest) hi) (hafter : IsPast hi after)
    (hfirst : (w.graph.exit first).isJump = true)
    (h : (Partition.jumpEntered ctx inner first rest after).told w =
      .ok (s, w'))
    (hfaithful : w'.faithful = true) :
    g₀.Settles first hi s.loops (g₀.place after) := by
  obtain ⟨start, test, tests, body, others, cond, stmts, w₁, _, rfl, hdrop,
    hexit, rfl, hguard, hbody⟩ := Partition.told_jumpEntered hfirst h
  obtain ⟨hstays, hsettles, htests⟩ :=
    settles_tested hseq hinner hw hlist.2 hafter hdrop hguard hbody hfaithful
  have hjumps := hlist.1.settles_of_jumps hexit
  have hboth := hjumps.append hsettles
  rw [Set.union_self, Nat.zero_add] at hboth
  exact settles_bottom hboth hstays htests

/-! ### Branches -/

/-- The tests of an arm and its body, up to the alternative. -/
theorem settles_arm (hseq : g₀.Sequential)
    (hkeeps : StructurerConfined g₀.place g₀ inner)
    (hinner : StructurerSettles g₀ inner) (hw : Steady g₀.place g₀ w)
    (hlist : Listed g₀ w (first :: rest) hi) (hafter : IsPast hi after)
    {cond : Condition} {body : List Section} {others : List Nat}
    (h : (Partition.arm ctx inner first rest after).told w =
      .ok ((cond, body, others), w'))
    (hfaithful : w'.faithful = true) :
    Listed g₀ w' others hi ∧ g₀.Settles first (others.headD hi)
      (Section.loopsOf body)
      (g₀.place (others.head?.or after) ∪ g₀.place after) := by
  obtain ⟨n, run, stop, w₁, _, hrun, hstop, rfl, hguard, hbody⟩ :=
    Partition.told_arm h
  have hfits := Graph.fits_of_testRun? hrun
  obtain ⟨hinside, hpast⟩ := hfits.head?_of_alternativeStart? hstop
  have hle := Graph.le_of_alternativeStart? hstop
  have hothers := hlist.drop stop
  have hfront : ((first :: rest).drop run.size).headD hi ≤ run.body := by
    have hbody := hfits.body
    rw [List.headD_eq_head?_getD, List.head?_drop]
    cases hget : (first :: rest)[run.size]? with
    | some b =>
      rw [hget] at hbody
      exact Nat.le_of_eq (Option.some.inj hbody)
    | none =>
      rw [hget] at hbody
      exact hafter _ hbody
  have hout : ∀ a, run.exit = some a → a ∉ (first :: rest).take run.size := by
    intro a ha
    rw [← hpast] at ha
    cases hhead : ((first :: rest).drop stop).head? with
    | some b =>
      rw [hhead] at ha
      obtain rfl : b = a := Option.some.inj ha
      have hmem := List.mem_of_mem_head? hhead
      rcases hle with hle | hge
      · exact fun htake => List.disjoint_take_drop hlist.nodup hle htake hmem
      · rw [List.drop_of_length_le hge] at hmem
        cases hmem
    | none =>
      rw [hhead] at ha
      exact hafter.not_mem (hlist.take run.size)
        (hlist.drop run.size).head_le a ha
  obtain ⟨hw₁, hsame, htests⟩ :=
    settles_front hseq hw hlist hfits.size hguard hfront hout
  rw [← slice_append_drop hle, headD_append, ← hinside, ← hpast] at htests
  have hslice : Listed g₀ w₁ (((first :: rest).take stop).drop run.size)
      (((first :: rest).drop stop).headD hi) :=
    (hlist.slice run.size stop).congr fun id _ => by rw [hsame]
  have hsettles :=
    hinner _ _ _ _ _ _ hw₁ hslice (hafter.mono hothers.head_le) hbody hfaithful
  have hthrough := hslice.settles_through htests hsettles
  rw [Nat.zero_add, Set.union_comm] at hthrough
  refine ⟨?_, hthrough⟩
  obtain ⟨_, hkept⟩ := hkeeps _ _ _ _ _ hw₁ hbody
  exact (hothers.congr fun id _ => by rw [hsame]).kept hkept
    (disjoint_drop_slice hlist.nodup _ _)

/-- What comes instead of a body accounts for what its blocks owe. -/
theorem settles_alternative (hseq : g₀.Sequential)
    (hkeeps : StructurerConfined g₀.place g₀ inner)
    (hinner : StructurerSettles g₀ inner) {fuel : Nat} {a : Alternative Section}
    (hw : Steady g₀.place g₀ w) (hlist : Listed g₀ w list hi)
    (hafter : IsPast hi after)
    (h : (Partition.alternative ctx inner after fuel list).told w = .ok (a, w'))
    (hfaithful : w'.faithful = true) :
    g₀.Settles (list.headD hi) hi (Section.loopsOfAlternative a)
      (g₀.place after) := by
  replace h := Partition.alternativeTaken_of_told h
  induction h with
  | none => exact Graph.Settles.nil (Nat.le_refl _) _
  | orIf _ arm run _ ih =>
    obtain ⟨hw₁, _⟩ := Confined.arm hkeeps _ _ _ _ _ _ hw arm
    obtain ⟨_, hkept⟩ := Confined.alternative hkeeps _ _ _ _ _ _ hw₁ run
    obtain ⟨hlist₁, hbody⟩ := settles_arm hseq hkeeps hinner hw hlist hafter arm
      (hkept.faithful hfaithful)
    have hthrough := hlist₁.settles_through hbody (ih hw₁ hlist₁ hfaithful)
    rwa [Set.union_self] at hthrough
  | otherwise _ run => exact hinner _ _ _ _ _ _ hw hlist hafter run hfaithful

/-- A branch region accounts for what its blocks owe. -/
theorem settles_branch (hseq : g₀.Sequential)
    (hkeeps : StructurerConfined g₀.place g₀ inner)
    (hinner : StructurerSettles g₀ inner) (hw : Steady g₀.place g₀ w)
    (hlist : Listed g₀ w (first :: rest) hi) (hafter : IsPast hi after)
    (h : (Partition.branch ctx inner first rest after).told w = .ok (s, w'))
    (hfaithful : w'.faithful = true) :
    g₀.Settles first hi s.loops (g₀.place after) := by
  obtain ⟨cond, body, others, a, w₁, rfl, harm, hothers⟩ :=
    Partition.told_branch h
  obtain ⟨hw₁, _⟩ := Confined.arm hkeeps _ _ _ _ _ _ hw harm
  obtain ⟨_, hkept⟩ := Confined.alternative hkeeps _ _ _ _ _ _ hw₁ hothers
  obtain ⟨hlist₁, hbody⟩ := settles_arm hseq hkeeps hinner hw hlist hafter harm
    (hkept.faithful hfaithful)
  have hthrough := hlist₁.settles_through hbody
    (settles_alternative hseq hkeeps hinner hw₁ hlist₁ hafter hothers hfaithful)
  rwa [Set.union_self] at hthrough

/-! ### Regions inside regions -/

/-- What is known of the way the regions inside a region are structured. -/
def RegionsSettle (g₀ : Graph) (nested : Partition.RegionStructurer) : Prop :=
  ∀ (isLoop : Bool) (list : List Nat) (hi : Nat) (after : Option Nat)
    (w : Told) (s : Section)
    (w' : Told), Steady g₀.place g₀ w → Listed g₀ w list hi → IsPast hi after →
    (isLoop = true → ∀ head ∈ list.head?, (w.graph.exit head).isJump = false) →
    (nested isLoop list after).told w = .ok (s, w') → w'.faithful = true →
    g₀.Settles (list.headD hi) hi s.loops (g₀.place after)

/-- Folding the regions inside a region leaves a region that covers the same
blocks. -/
theorem listed_of_folding {nested : Partition.RegionStructurer}
    (hnested : RegionsSettle g₀ nested) {region left : List Nat}
    (h : Partition.Folding g₀.place g₀ nested region w left w')
    (hlist : Listed g₀ w region hi) (hfaithful : w'.faithful = true) :
    Listed g₀ w' left hi := by
  induction h with
  | done => exact hlist
  | @fold region _ i stop _ next _ _ w _ _ steady here lt there head run kept
      inside rest ih =>
    have hslice : Listed g₀ w ((region.take stop).drop i) next := by
      rw [← headD_drop_of_getElem? there hi]
      exact hlist.slice i stop
    have hsettles :=
      hnested _ _ _ _ _ _ _ steady hslice (isPast_self next) head run
        (rest.faithful hfaithful)
    rw [headD_slice here lt] at hsettles
    exact ih (hlist.fold here lt there kept inside hsettles) hfaithful

/-- **Regions.**  The loops of a region account for what its blocks owe. -/
theorem settles_regionSection (hseq : g₀.Sequential)
    (hkeeps : StructurerConfined g₀.place g₀ inner)
    (hinner : StructurerSettles g₀ inner) (fuel : Nat) :
    RegionsSettle g₀ (Partition.regionSection ctx inner fuel) := by
  induction fuel with
  | zero =>
    intro isLoop list hi after w s w' hw _ _ _ h _
    cases Partition.regionFound_of_run hkeeps hw h
  | succ n ih =>
    intro isLoop list hi after w s w' hw hlist hafter hloop h hfaithful
    cases Partition.regionFound_of_run hkeeps hw h with
    | loop run =>
      exact settles_loop hseq hinner hw hlist hafter (hloop rfl _ rfl) run
        hfaithful
    | jumpEntered jump run =>
      exact settles_jumpEntered hseq hinner hw hlist hafter jump run hfaithful
    | branch folding kept run =>
      have hleft := listed_of_folding ih folding hlist (kept.faithful hfaithful)
      exact settles_branch hseq hkeeps hinner folding.steady hleft hafter run
        hfaithful

/-! ### Lists -/

/-- What comes after a part of a list is past its end. -/
theorem IsPast.headD (h : IsPast hi after) (ys : List Nat) :
    IsPast (ys.headD hi) (ys.head?.or after) := by
  cases ys with
  | nil => exact h
  | cons y ys => exact isPast_self y

/-- The section at a position of a list accounts for what its blocks owe. -/
theorem settles_sectionFound (hseq : g₀.Sequential)
    (hkeeps : StructurerConfined g₀.place g₀ inner)
    (hinner : StructurerSettles g₀ inner) (hw : Steady g₀.place g₀ w)
    {i id next : Nat} (hlist : Listed g₀ w (list.drop i) hi)
    (hid : list[i]? = some id) (hafter : IsPast hi after)
    (h : Partition.SectionFound ctx inner list after i id w s next w')
    (hfaithful : w'.faithful = true) :
    g₀.Settles id ((list.drop next).headD hi) s.loops
      (g₀.place ((list.drop next).head?.or after)) := by
  have hlinked := listed_iff_linked.1 hlist
  have hpiece : Piece g₀ w id ((list.drop (i + 1)).headD hi) :=
    hlinked.head_of_drop hid
  cases h with
  | folded holds =>
    rw [List.head?_drop]
    exact hpiece.settles_folded hw holds (Bool.and_eq_true_iff.1 hfaithful).2
  | inline plain =>
    rw [List.head?_drop]
    exact hpiece.settles_of_goesOn hw plain (Bool.and_eq_true_iff.1 hfaithful).2
  | region lt head run =>
    rw [← List.head?_drop] at run
    have hslice := listed_iff_linked.2 (hlinked.slice_of_drop (Nat.le_of_lt lt))
    have hsettles :=
      settles_regionSection hseq hkeeps hinner _ _ _ _ _ _ _ _ hw hslice
        (hafter.headD _)
        (fun hl => Partition.isJump_head?_slice hid lt (head hl)) run hfaithful
    rwa [headD_slice hid lt] at hsettles

/-- The sections of a list from a position on. -/
theorem settles_sectionsFound (hseq : g₀.Sequential)
    (hkeeps : StructurerConfined g₀.place g₀ inner)
    (hinner : StructurerSettles g₀ inner) (hnodup : list.Nodup)
    (hafter : IsPast hi after) {i : Nat} {ss : List Section}
    (h : Partition.SectionsFound g₀.place g₀ ctx inner list after i w ss w')
    (hlist : Listed g₀ w (list.drop i) hi) (hfaithful : w'.faithful = true) :
    g₀.Settles ((list.drop i).headD hi) hi (Section.loopsOf ss)
      (g₀.place after) := by
  induction h with
  | ends past =>
    rw [List.drop_of_length_le past]
    exact Graph.Settles.nil (Nat.le_refl hi) _
  | @takes i id next _ _ w w₁ _ steady here lt found kept rest ih =>
    have hrest : Listed g₀ w (list.drop next) hi :=
      listed_iff_linked.2
        ((listed_iff_linked.1 hlist).drop_of_drop (Nat.le_of_lt lt))
    have hrest₁ : Listed g₀ w₁ (list.drop next) hi :=
      hrest.kept kept (disjoint_drop_slice hnodup _ _)
    have hhere :=
      settles_sectionFound hseq hkeeps hinner steady hlist here hafter found
        (rest.faithful hfaithful)
    have hthrough := hrest₁.settles_through
      (hhere.mono (Nat.le_refl _) (Set.subset_union_left (t := g₀.place after)))
      (ih hrest₁ hfaithful)
    rw [Set.union_self] at hthrough
    rwa [headD_drop_of_getElem? here]

/-- **Lists of blocks.**  While the work stays faithful, the loops of a list
without gaps account for what its blocks owe. -/
theorem settles_sections (hseq : g₀.Sequential) (depth : Nat) :
    StructurerSettles g₀ (Partition.sections ctx depth) := by
  induction depth with
  | zero =>
    intro list hi after w ss w' _ _ _ h _
    cases h
  | succ n ih =>
    intro list hi after w ss w' hw hlist hafter h hfaithful
    have hall : Listed g₀ w (list.drop 0) hi := hlist
    have hkeeps : StructurerConfined g₀.place g₀ (Partition.sections ctx n) :=
      Confined.sections n
    exact settles_sectionsFound hseq hkeeps ih hlist.nodup hafter
      (Partition.sectionsFound_of_told hkeeps hw h) hall
      hfaithful

end Decompiler
