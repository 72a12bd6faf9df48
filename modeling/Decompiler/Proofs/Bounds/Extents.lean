import Decompiler.Proofs.Bounds.Plans

/-!
# Regions and tests stay in range

The extent of a region and the tests at its ends are found by searches of a list
of blocks.  Each search has an end: growing a region takes its end further along
the list, and the tests of a loop or a branch are tried from the longest run to
the shortest.  So the checks change nothing, and what is found lies inside the
list.

* `Checked.extent?_eq`, `Graph.extent?_le_length`: regions.
* `Checked.lastBackEdge?_eq`, `Checked.jumpsIntoTest_eq`: loops.
* `Checked.headTests?_eq`, `Checked.tailTestStart_eq`, `Checked.testRun?_eq`:
  tests.
-/

namespace Decompiler

/-! ## Regions -/

namespace Checked

variable {g : Graph} {list : List Nat} {i : Nat}

/-- Looking for an edge back stays inside a list of blocks. -/
theorem lastBackEdge?_eq (h : ∀ id ∈ list, id < g.blocks.length)
    (hi : i < list.length) :
    lastBackEdge? g list i = some (g.lastBackEdge? list i) := by
  rw [lastBackEdge?, demand_eq hi, known_eq h]
  rfl

/-- Looking for the test that a jump enters stays inside a list of blocks. -/
theorem jumpsIntoTest_eq (h : ∀ id ∈ list, id < g.blocks.length)
    (hi : i < list.length) :
    jumpsIntoTest g list i = some (g.jumpsIntoTest list i) := by
  rw [jumpsIntoTest, demand_eq hi, known_eq h]
  rfl

end Checked

/-- A run is stretched further along the list, and not beyond its end. -/
theorem Graph.bounds_of_stretch {g : Graph} {list ids : List Nat}
    {stop far : Nat} (h : ids.findSome? (g.beyond? list stop) = some far) :
    stop < far ∧ far ≤ list.length := by
  obtain ⟨id, -, hid⟩ := List.exists_of_findSome?_eq_some h
  obtain ⟨t, -, rfl⟩ :=
    List.mem_map.1 (List.max?_mem (Option.filter_eq_some_iff.1 hid).1)
  exact ⟨lt_of_beyond? hid, List.idxOf_le_length⟩

/-- A run never grows past the end of its list. -/
theorem Graph.grow_le_length (g : Graph) {list : List Nat} (start fuel : Nat)
    {stop : Nat} (hstop : stop ≤ list.length) :
    g.grow list start fuel stop ≤ list.length := by
  induction fuel generalizing stop with
  | zero => exact hstop
  | succ n ih =>
    rw [grow]
    split
    · rename_i far hfar
      exact ih (bounds_of_stretch hfar).2
    · exact hstop

/-- Growing comes to an end: each step takes the end further along the list. -/
theorem Checked.grow_eq {g : Graph} {list : List Nat} {start stop : Nat}
    {fuel : Nat} (hfuel : list.length ≤ stop + fuel) :
    grow g list start fuel stop = some (g.grow list start fuel stop) := by
  induction fuel generalizing stop with
  | zero =>
    unfold grow Graph.grow
    cases hfar : ((list.take stop).drop (start + 1)).findSome?
      (g.beyond? list stop) with
    | none => rfl
    | some far =>
      obtain ⟨hlt, hle⟩ := Graph.bounds_of_stretch hfar
      omega
  | succ n ih =>
    unfold grow Graph.grow
    cases hfar : ((list.take stop).drop (start + 1)).findSome?
      (g.beyond? list stop) with
    | none => rfl
    | some far =>
      have hlt := (Graph.bounds_of_stretch hfar).1
      exact ih (by omega)

/-- The tests at the bottom of a loop are inside its list. -/
theorem Graph.bottomTests_le {g : Graph} {list : List Nat} {start stop : Nat}
    (hstop : stop ≤ list.length) : stop + g.bottomTests list start stop ≤
      list.length := by
  have htests := (List.takeWhile_prefix (l := list.drop stop)
    (p := fun id => (g.exit id).isBranch)).length_le
  have hlast := (List.dropWhile_suffix (l := ((list.drop stop).takeWhile
    fun id => (g.exit id).isBranch).reverse) fun id =>
      !g.enters list start stop id).length_le
  rw [List.length_drop] at htests
  rw [List.length_reverse] at hlast
  unfold bottomTests
  dsimp only
  omega

/-- A region ends in the list, or where the list does. -/
theorem Graph.extent?_le_length {g : Graph} {list : List Nat} {start stop : Nat}
    (h : g.extent? list start = some stop) : stop ≤ list.length := by
  obtain ⟨head, -, h⟩ := Option.bind_eq_some_iff.1 h
  obtain ⟨target, -, h⟩ := Option.bind_eq_some_iff.1 h
  dsimp only at h
  have hother : (((g.exit head).otherwise?.map (list.idxOf ·)).getD 0) ≤
      list.length := by
    cases (g.exit head).otherwise? with
    | none => exact Nat.zero_le _
    | some t => exact List.idxOf_le_length
  have hgrown := grow_le_length g start list.length
    (Nat.max_le.2 ⟨List.idxOf_le_length (a := target), hother⟩)
  generalize g.grow list start list.length _ = grown at h hgrown
  have hextended :
      (if (g.exit head).isJump = true then grown + g.bottomTests list
        start grown
      else grown) ≤ list.length := by
    split
    · exact bottomTests_le hgrown
    · exact hgrown
  generalize (if (g.exit head).isJump = true then _ else grown) =
    extended at h hextended
  split at h
  · cases h
  · split at h
    · cases h
    · split at h
      · cases h
      · cases h
        exact hextended

/-- The last edge back to a block comes from the list. -/
theorem Graph.lastBackEdge?_lt_length {g : Graph} {list : List Nat}
    {i last : Nat} (h : g.lastBackEdge? list i = some last) :
    last < list.length := by
  obtain ⟨head, -, h⟩ := Option.bind_eq_some_iff.1 h
  dsimp only at h
  split at h
  · cases h
  · exact List.mem_range.1 (List.mem_reverse.1 (List.mem_of_find?_eq_some h))

namespace Checked

variable {g : Graph} {list region : List Nat} {i : Nat}

/-- Looking for the end of a region stays inside a list of blocks, and its fuel
suffices. -/
theorem extent?_eq (h : ∀ id ∈ list, id < g.blocks.length)
    (hi : i < list.length) : extent? g list i = some (g.extent? list i) := by
  rw [extent?, Graph.extent?, List.getElem?_eq_getElem hi, known_eq h]
  simp only [Option.bind_eq_bind, Option.bind_some]
  cases (g.exit list[i]).target? with
  | none => rfl
  | some target =>
    dsimp only
    rw [Option.bind_some]
    split
    · rfl
    · rw [grow_eq (Nat.le_add_left _ _), Option.bind_some]
      generalize (if (g.exit list[i]).isJump = true then _ else _) = extended
      split
      · rfl
      · split <;> rfl

/-! ## Tests -/

/-- Trying one number after the other, each with a definite answer. -/
theorem largestUpTo_eq {p : Nat → Option Bool} {q : Nat → Bool} {bound : Nat}
    (h : ∀ k, 1 ≤ k → k ≤ bound → p k = some (q k)) :
    largestUpTo p bound = some (Decompiler.largestUpTo q bound) := by
  induction bound with
  | zero => rfl
  | succ n ih =>
    rw [largestUpTo, Decompiler.largestUpTo,
      h (n + 1) (Nat.le_add_left 1 n) (Nat.le_refl _)]
    simp only [Option.bind_eq_bind, Option.bind_some]
    split
    · rfl
    · exact ih fun k hpos hk => h k hpos (Nat.le_succ_of_le hk)

/-- Looking for the tests at the top of a loop stays inside the loop. -/
theorem headTests?_eq (h : ∀ id ∈ region, id < g.blocks.length)
    (hne : region ≠ []) : headTests? g region = some (g.headTests? region) := by
  rw [headTests?, Graph.headTests?, known_eq h]
  simp only [Option.bind_eq_bind, Option.bind_some]
  refine largestUpTo_eq fun k _ hk => ?_
  have hpos := List.length_pos_of_ne_nil hne
  have htests := (List.takeWhile_prefix (l := region.dropLast)
    (p := fun id => (g.exit id).isBranch)).length_le
  rw [List.length_dropLast] at htests
  have hlt : k < region.length := by omega
  rw [slice_front (Nat.le_of_lt hlt), List.getElem?_eq_getElem hlt,
    List.getD_eq_getElem?_getD, List.getElem?_eq_getElem hlt]
  rfl

/-- Looking for the tests at the bottom of a loop stays inside the loop. -/
theorem tailTestStart_eq (h : ∀ id ∈ region, id < g.blocks.length) (first : Nat)
    {n : Nat} (hn : n ≤ region.length) :
    tailTestStart g first region n = some (g.tailTestStart first region n) := by
  induction n with
  | zero => rfl
  | succ n ih =>
    rw [tailTestStart, Graph.tailTestStart, List.getElem?_eq_getElem hn,
      List.getD_eq_getElem?_getD, List.getElem?_eq_getElem hn]
    simp only [Option.bind_eq_bind, Option.bind_some, Option.getD_some]
    rw [exit_eq (h _ (List.getElem_mem hn)), slice_back (Nat.le_of_succ_le hn)]
    simp only [Option.bind_some]
    split
    · exact ih (Nat.le_of_succ_le hn)
    · rfl

/-- Looking for the tests of a branch stays inside its region. -/
theorem testRun?_eq (h : ∀ id ∈ region, id < g.blocks.length) {n : Nat}
    (hn : n < region.length) (after : Option Nat) :
    testRun? g region after n = some (g.testRun? region after n) := by
  rw [testRun?, demand_eq hn, known_eq h]
  rfl

end Checked

/-- The tests at the bottom of a loop start inside the loop. -/
theorem Graph.tailTestStart_le (g : Graph) (first : Nat) (region : List Nat)
    (n : Nat) : g.tailTestStart first region n ≤ n := by
  induction n with
  | zero => exact Nat.le_refl 0
  | succ n ih =>
    rw [tailTestStart]
    split
    · exact Nat.le_succ_of_le ih
    · exact Nat.le_refl _

/-- A run of tests is no longer than the tests that there are. -/
theorem Graph.size_le_of_testRun? {g : Graph} {region : List Nat}
    {after : Option Nat} {n : Nat} {run : TestRun}
    (h : g.testRun? region after n = some run) : run.size ≤ n + 1 := by
  induction n with
  | zero =>
    obtain ⟨body, -, rfl⟩ := Option.map_eq_some_iff.1 h
    exact Nat.le_refl 1
  | succ n ih =>
    obtain ⟨body, -, h⟩ := Option.bind_eq_some_iff.1 h
    dsimp only at h
    split at h
    · cases h
      exact Nat.le_refl (n + 2)
    · exact Nat.le_succ_of_le (ih h)

/-- The alternative of an arm starts in the region or at its end. -/
theorem Graph.alternativeStart?_le_length {run : TestRun} {region : List Nat}
    {after : Option Nat} {stop : Nat}
    (h : alternativeStart? region after run = some stop) :
    stop ≤ region.length :=
  (le_and_lt_of_alternativeStart? h).elim (fun h => Nat.le_of_lt h.2)
    Nat.le_of_eq

end Decompiler
