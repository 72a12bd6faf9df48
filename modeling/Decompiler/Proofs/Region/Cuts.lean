import Decompiler.Region.Branch
import Mathlib.Data.List.Basic

/-!
# Where regions are cut

A region is taken apart in slices of the list that it is in: the tests at one
end of it, a body, and what comes behind.  No block is in two of them, and none
is left out between two that lie next to one another.

* `mem_slice_iff`, `slice_append_drop`, `headD_slice`: slices.
* `dropLast_append_getLastD`: a region and its last block.
* `Graph.le_of_headTests?`, `TestRun.Fits`, `Graph.le_of_alternativeStart?`: the
  tests at the front of a region, and what comes behind the body.
-/

namespace Decompiler

variable {list rest : List Nat} {first id : Nat} {after : Option Nat}

/-! ### Slices -/

/-- A slice is part of the list. -/
theorem slice_subset (list : List Nat) (start stop : Nat) :
    (list.take stop).drop start ⊆ list :=
  fun _ hmem => List.take_subset _ _ (List.drop_subset _ _ hmem)

/-- What a list holds from one position up to another. -/
theorem mem_slice_iff {start stop : Nat} : id ∈ (list.take stop).drop start ↔
    ∃ p, start ≤ p ∧ p < stop ∧ list[p]? = some id := by
  rw [List.mem_iff_getElem?]
  constructor
  · rintro ⟨k, hk⟩
    rw [List.getElem?_drop, List.getElem?_take] at hk
    split at hk
    · exact ⟨start + k, Nat.le_add_right _ _, by assumption, hk⟩
    · cases hk
  · rintro ⟨p, hstart, hstop, hp⟩
    refine ⟨p - start, ?_⟩
    rw [List.getElem?_drop, List.getElem?_take, Nat.add_sub_cancel' hstart,
      if_pos hstop, hp]

/-- The block at a position is in a slice that starts there. -/
theorem mem_slice_of_getElem? {i next : Nat} (hid : list[i]? = some id)
    (hnext : i < next) : id ∈ (list.take next).drop i :=
  mem_slice_iff.2 ⟨i, Nat.le_refl i, hnext, hid⟩

/-- What comes behind a slice is not in it. -/
theorem disjoint_drop_slice (h : list.Nodup) (start stop : Nat) :
    (list.drop stop).Disjoint ((list.take stop).drop start) :=
  fun _ hdrop hslice =>
  List.disjoint_take_drop h (Nat.le_refl stop) (List.drop_subset _ _ hslice)
    hdrop

/-- What comes before a slice is not in it. -/
theorem disjoint_take_slice (h : list.Nodup) {start stop : Nat}
    (hle : start ≤ stop) :
    (list.take start).Disjoint ((list.take stop).drop start) := by
  have hdisjoint :=
    List.disjoint_take_drop (h.sublist (List.take_sublist stop _))
      (Nat.le_refl start)
  rwa [List.take_take, Nat.min_eq_left hle] at hdisjoint

/-- A slice of an ascending list ascends. -/
theorem pairwise_slice (h : list.Pairwise (· < ·)) (start stop : Nat) :
    ((list.take stop).drop start).Pairwise (· < ·) :=
  h.sublist ((List.drop_sublist _ _).trans (List.take_sublist _ _))

/-- Elements of an ascending list ascend with their positions. -/
theorem lt_of_getElem?_of_lt (h : list.Pairwise (· < ·)) {p q a b : Nat}
    (hpq : p < q) (ha : list[p]? = some a) (hb : list[q]? = some b) :
    a < b := by
  obtain ⟨hp, rfl⟩ := List.getElem?_eq_some_iff.1 ha
  obtain ⟨hq, rfl⟩ := List.getElem?_eq_some_iff.1 hb
  exact List.pairwise_iff_getElem.1 h p q hp hq hpq

/-- Positions in an ascending list ascend with the elements. -/
theorem position_lt_of_lt (h : list.Pairwise (· < ·)) {p q a b : Nat}
    (hab : a < b) (ha : list[p]? = some a) (hb : list[q]? = some b) :
    p < q := by
  rcases Nat.lt_trichotomy p q with hlt | rfl | hgt
  · exact hlt
  · exact absurd (Option.some.inj (ha.symm.trans hb)) (Nat.ne_of_lt hab)
  · exact absurd (lt_of_getElem?_of_lt h hgt hb ha) (Nat.lt_asymm hab)

/-- Behind an element of a sorted list stand the greater ones, and the end. -/
theorem lt_idxOf_of_lt (h : list.Pairwise (· ≤ ·)) {i x : Nat}
    (hid : list[i]? = some id) (hlt : id < x) : i < list.idxOf x := by
  obtain ⟨hi, rfl⟩ := List.getElem?_eq_some_iff.1 hid
  refine Nat.lt_of_not_le fun hle => ?_
  have hx : list.idxOf x < list.length := Nat.lt_of_le_of_lt hle hi
  rcases Nat.eq_or_lt_of_le hle with heq | hbefore
  · have hget := List.getElem_idxOf hx
    simp only [heq] at hget
    exact absurd hget (Nat.ne_of_lt hlt)
  · have hget := List.pairwise_iff_getElem.1 h _ _ hx hi hbefore
    rw [List.getElem_idxOf hx] at hget
    exact absurd hget (Nat.not_le.2 hlt)

/-- A member is in the front of a list or in the back. -/
theorem mem_take_or_drop (h : id ∈ list) (k : Nat) : id ∈ list.take k ∨
      id ∈ list.drop k := by
  rw [← List.take_append_drop k list] at h
  exact List.mem_append.1 h

/-- Leaving out a run of a list leaves what is in front of it and behind it. -/
theorem take_append_drop_sublist {i stop : Nat} (h : i ≤ stop) :
    (list.take i ++ list.drop stop).Sublist list := by
  have hsub := (List.drop_sublist_drop_left list h).append_left (list.take i)
  rwa [List.take_append_drop] at hsub

/-- A slice and what is behind it are the list from its start on. -/
theorem slice_append_drop {size stop : Nat}
    (h : size ≤ stop ∨ list.length ≤ stop) :
    (list.take stop).drop size ++ list.drop stop = list.drop size := by
  rcases h with hle | hge
  · have hsplit := congrArg (List.drop size) (List.take_append_drop stop list)
    rcases Nat.lt_or_ge stop list.length with hlt | hge
    · rwa [List.drop_append_of_le_length (by rw [List.length_take]; omega)] at hsplit
    · rw [List.take_of_length_le hge, List.drop_of_length_le hge,
        List.append_nil]
  · rw [List.take_of_length_le hge, List.drop_of_length_le hge, List.append_nil]

/-- What is left of a list from an element on starts with it. -/
theorem eq_of_drop_idxOf {list ts : List Nat} {x t : Nat}
    (h : list.drop (list.idxOf x) = t :: ts) : t = x := by
  have hget : list[list.idxOf x]? = some t := by
    rw [← List.head?_drop, h]
    rfl
  obtain ⟨hlt, heq⟩ := List.getElem?_eq_some_iff.1 hget
  rw [← heq, List.getElem_idxOf hlt]

/-- A slice starts with the block at its start. -/
theorem head?_slice {i stop : Nat} (hid : list[i]? = some id)
    (hstop : i < stop) : ((list.take stop).drop i).head? = some id := by
  rw [List.head?_drop, List.getElem?_take, if_pos hstop, hid]

/-- The front of a list starts as the list does. -/
theorem headD_take_cons {k : Nat} (hk : 0 < k) (x : Nat) :
    ((first :: rest).take k).headD x = first := by
  cases k with
  | zero => cases hk
  | succ n => rfl

/-- A list starts with what is left of it if nothing is taken off its front. -/
theorem head?_take_or_of_drop {k test : Nat} {tests : List Nat}
    (h : list.drop k = test :: tests) :
    (list.take k).head?.or (some test) = list.head? := by
  cases k with
  | zero =>
    rw [List.drop_zero] at h
    rw [h]
    rfl
  | succ n =>
    cases list with
    | nil => cases h
    | cons first rest => rfl

/-- Two lists start as the first does, or else the second. -/
theorem headD_append (xs ys : List Nat) (x : Nat) :
    (xs ++ ys).headD x = xs.headD (ys.headD x) := by
  cases xs <;> rfl

/-- The back of a list starts with the block at its position. -/
theorem headD_drop_of_getElem? {i : Nat} (h : list[i]? = some id) (x : Nat) :
    (list.drop i).headD x = id := by
  rw [List.headD_eq_head?_getD, List.head?_drop, h, Option.getD_some]

theorem headD_drop {k : Nat} (hk : k < list.length) (x : Nat) :
    (list.drop k).headD x = list.getD k 0 := by
  rw [headD_drop_of_getElem? (List.getElem?_eq_getElem hk),
    List.getD_eq_getElem?_getD, List.getElem?_eq_getElem hk, Option.getD_some]

/-- A slice starts with the block at its start. -/
theorem headD_slice {i stop : Nat} (hid : list[i]? = some id) (hstop : i < stop)
    (x : Nat) : ((list.take stop).drop i).headD x = id := by
  rw [List.headD_eq_head?_getD, head?_slice hid hstop, Option.getD_some]

/-- The numbers up to a bound start with zero. -/
theorem headD_range (n : Nat) : (List.range n).headD n = 0 := by
  cases n with
  | zero => rfl
  | succ n =>
    rw [List.range_succ_eq_map]
    rfl

/-- What comes first or after is what a list starts with, if it ends there. -/
theorem headD_of_head?_or {ys : List Nat} {x y : Nat}
    (h : ys.head?.or (some x) = some y) : ys.headD x = y := by
  cases ys <;> exact Option.some.inj h

/-! ### The last block -/

/-- A list is all but its last member and that one. -/
theorem dropLast_append_getLastD (first : Nat) (rest : List Nat) :
    (first :: rest).dropLast ++ [rest.getLastD first] = first :: rest := by
  rw [← List.getLast_eq_getLastD (List.cons_ne_nil first rest),
    List.dropLast_append_getLast]

/-- All blocks of a region but the last one, and the last one. -/
theorem mem_dropLast_or (h : id ∈ first :: rest) :
    id ∈ (first :: rest).dropLast ∨ id = rest.getLastD first := by
  rw [← dropLast_append_getLastD] at h
  exact (List.mem_append.1 h).imp_right List.mem_singleton.1

/-- The last of different blocks is not among the others. -/
theorem getLastD_not_mem_of_nodup (h : (first :: rest).Nodup) :
    rest.getLastD first ∉ (first :: rest).dropLast := by
  rw [← dropLast_append_getLastD] at h
  exact fun hmem => (List.nodup_append.1 h).2.2 _ hmem _
    (List.mem_singleton_self _) rfl

/-- The last of distinct members is not among the others. -/
theorem getLastD_not_mem_dropLast_of_nodup (h : (first :: rest).Nodup) :
    rest.getLastD first ∉ rest.dropLast := by
  intro hmem
  apply getLastD_not_mem_of_nodup h
  cases rest with
  | nil => cases hmem
  | cons second others => exact List.mem_cons_of_mem first hmem

/-- The last block of an ascending region is not among the others. -/
theorem getLastD_not_mem (hasc : (first :: rest).Pairwise (· < ·)) :
    rest.getLastD first ∉ (first :: rest).dropLast :=
  getLastD_not_mem_of_nodup (hasc.imp Nat.ne_of_lt)

/-- The last of ascending members is not among the others. -/
theorem getLastD_not_mem_dropLast (hasc : (first :: rest).Pairwise (· < ·)) :
    rest.getLastD first ∉ rest.dropLast :=
  getLastD_not_mem_dropLast_of_nodup (hasc.imp Nat.ne_of_lt)

/-! ### Tests and alternatives -/

/-- The largest number up to a bound is positive and up to the bound. -/
theorem le_of_largestUpTo {p : Nat → Bool} {bound n : Nat}
    (h : largestUpTo p bound = some n) : 1 ≤ n ∧ n ≤ bound := by
  induction bound with
  | zero => cases h
  | succ m ih =>
    unfold largestUpTo at h
    split at h
    · cases h
      omega
    · have := ih h
      omega

/-- The tests at the front of a loop leave its last block to the body. -/
theorem Graph.le_of_headTests? {g : Graph} {k : Nat}
    (h : g.headTests? (first :: rest) = some k) : 1 ≤ k ∧ k ≤ rest.length := by
  obtain ⟨hpos, hle⟩ := le_of_largestUpTo h
  have hlen := (List.takeWhile_prefix (l := (first :: rest).dropLast)
    (p := fun id => (g.exit id).isBranch)).length_le
  rw [List.length_dropLast, List.length_cons] at hlen
  omega

/-- A region with tests at its top starts with a branch. -/
theorem Graph.isBranch_of_headTests? {g : Graph} {k : Nat}
    (h : g.headTests? (first :: rest) = some k) :
    (g.exit first).isBranch = true := by
  obtain ⟨hpos, hle⟩ := le_of_largestUpTo h
  cases rest with
  | nil =>
    simp only [List.dropLast_singleton, List.takeWhile_nil,
      List.length_nil] at hle
    omega
  | cons second others =>
    by_contra hbranch
    rw [List.dropLast_cons_cons, List.takeWhile_cons, if_neg hbranch,
      List.length_nil] at hle
    omega

/-- The body of a loop starts after its tests, or is the jump that closes it. -/
theorem head?_body {k : Nat} (hk : k ≤ rest.length) :
    ((first :: rest).dropLast.drop k).head?.or (some (rest.getLastD first)) =
      some ((first :: rest).getD k 0) := by
  rw [List.head?_drop, List.getElem?_dropLast, List.length_cons,
    Nat.add_sub_cancel]
  have hlt : k < (first :: rest).length := Nat.lt_succ_of_le hk
  have hget : (first :: rest)[k]? = some ((first :: rest).getD k 0) := by
    rw [List.getD_eq_getElem?_getD, List.getElem?_eq_getElem hlt,
      Option.getD_some]
  split
  · rw [hget, Option.some_or]
  · obtain rfl : k = rest.length := by omega
    have hlast : (first :: rest).getLast? = some (rest.getLastD first) := by
      rw [List.getLast?_cons, List.getLastD_eq_getLast?]
    rw [Option.none_or, ← hlast, List.getLast?_eq_getElem?, ← hget]
    rfl

/-- A run of tests has at least one; its body comes right after them, and what
it leads to past the body is not the body. -/
structure TestRun.Fits (run : TestRun) (region : List Nat)
    (after : Option Nat) : Prop where
  size : 1 ≤ run.size
  body : region[run.size]?.or after = some run.body
  exit : run.exit = after ∨ run.exit ≠ some run.body

/-- A run of tests in front of its body fits. -/
theorem Graph.fits_testRunOf {g : Graph} {region : List Nat} {size body : Nat}
    (hsize : 1 ≤ size) (hbody : region[size]?.or after = some body) :
    (g.testRunOf region after size body).Fits region after := by
  refine ⟨hsize, hbody, ?_⟩
  simp only [testRunOf]
  cases hfind :
    List.find? (fun t => t != body && !(region.take size).contains t)
      ((region.take size).filterMap fun id => (g.exit id).target?) with
  | none => exact .inl rfl
  | some t =>
    have hleaves := List.find?_some hfind
    simp only [Bool.and_eq_true, bne_iff_ne] at hleaves
    exact .inr fun heq => hleaves.1 (Option.some.inj heq)

/-- A run of tests that is found fits. -/
theorem Graph.fits_of_testRun? {g : Graph} {region : List Nat} {n : Nat}
    {run : TestRun} (h : g.testRun? region after n = some run) :
    run.Fits region after := by
  induction n with
  | zero =>
    obtain ⟨body, hbody, rfl⟩ := Option.map_eq_some_iff.1 h
    exact fits_testRunOf (Nat.le_refl 1) hbody
  | succ n ih =>
    obtain ⟨body, hbody, h⟩ := Option.bind_eq_some_iff.1 h
    dsimp only at h
    split at h
    · cases h
      exact fits_testRunOf (by omega) hbody
    · exact ih h

/-- Past the body of a run comes its alternative, or what follows the region. -/
theorem TestRun.Fits.head?_of_alternativeStart? {run : TestRun}
    {region : List Nat} {stop : Nat} (hfits : run.Fits region after)
    (h : Graph.alternativeStart? region after run = some stop) :
    ((region.take stop).drop run.size).head?.or after = some run.body ∧
      (region.drop stop).head?.or after = run.exit := by
  have hbody := hfits.body
  rw [List.head?_drop, List.head?_drop, List.getElem?_take]
  unfold Graph.alternativeStart? at h
  split at h
  · rename_i hexit
    cases h
    rw [List.getElem?_eq_none (Nat.le_refl _), hexit]
    refine ⟨?_, rfl⟩
    split
    · exact hbody
    · rename_i hge
      rwa [List.getElem?_eq_none (Nat.le_of_not_lt hge)] at hbody
  · rename_i hexit
    split at h
    · cases h
    · rename_i e he
      dsimp only at h
      split at h
      · rename_i hp
        cases h
        have hget : region[region.idxOf e]? = some e := by
          rw [List.getElem?_eq_getElem hp.2, List.getElem_idxOf hp.2]
        rw [hget, he]
        refine ⟨?_, rfl⟩
        -- the alternative is not the body
        have hne : run.size ≠ region.idxOf e := by
          intro heq
          rw [heq, hget] at hbody
          rcases hfits.exit with heq | hne
          · exact hexit heq
          · exact hne (he.trans hbody)
        rw [if_pos (by omega)]
        exact hbody
      · cases h

/-- The alternative of an arm starts behind its tests, or there is none. -/
theorem Graph.le_and_lt_of_alternativeStart? {run : TestRun} {region : List Nat}
    {stop : Nat} (h : Graph.alternativeStart? region after run = some stop) :
    run.size ≤ stop ∧ stop < region.length ∨ stop = region.length := by
  unfold Graph.alternativeStart? at h
  split at h
  · cases h
    exact .inr rfl
  · split at h
    · cases h
    · dsimp only at h
      split at h
      · rename_i hp
        cases h
        exact .inl hp
      · cases h

/-- The alternative starts behind the tests. -/
theorem Graph.le_of_alternativeStart? {run : TestRun} {region : List Nat}
    {stop : Nat} (h : Graph.alternativeStart? region after run = some stop) :
    run.size ≤ stop ∨ region.length ≤ stop :=
  (Graph.le_and_lt_of_alternativeStart? h).imp And.left fun heq =>
    Nat.le_of_eq heq.symm

end Decompiler
