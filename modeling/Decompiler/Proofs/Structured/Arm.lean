import Decompiler.Proofs.Chain.Row
import Decompiler.Proofs.Region.Sound
import Decompiler.Proofs.Structured.Fold

/-!
# The branches of a flat layout

In a flat layout a branch is a run of tests that all lead to what comes after
it, with one body behind them, or it is a single test with a body and an
alternative.  Both kinds of runs are rows, so they have guards.

* `exists_row_of_closed`: closed runs of tests are rows.
* `Layout.Fits.told_arm`: the tests and the body at the front of a region.
* `Layout.Fits.told_branch`: a flat branch is taken apart.
-/

namespace Decompiler

variable {ctx : Context} {g₀ g : Graph} {w w' : Told}
    {l body other rest : Layout} {b n : Nat}
  {next : Option Nat}

/-- The blocks of a graph do what their simulation and their edges say. -/
def AllStand (ctx : Context) (g₀ : Graph) : Prop :=
  ∀ id < g₀.blocks.length, Stands ctx (g₀.behavior ctx.method) (g₀.block id)

/-- The test of a block that nothing has been done to. -/
theorem AllStand.exists_test (h : AllStand ctx g₀) {k : Nat} {o : Option Nat}
    (huntouched : g₀.Untouched g b) (hexit : g.exit b = .branches k o) :
    ∃ test, g.test ctx b = .ok test ∧ test.IsPlainTest := by
  have hexit' : (g₀.block b).exit = .branches k o := by
    rw [← huntouched.1]
    exact hexit
  have hlt : b < g₀.blocks.length := by
    refine Nat.lt_of_not_le fun hge => ?_
    rw [Graph.block_of_length_le hge] at hexit'
    cases hexit'
  have hstands := h b hlt
  rw [← huntouched.1] at hstands
  cases hstands with
  | @branches _ _ f negated _ test =>
    exact ⟨_, test g b rfl rfl rfl, f, negated, rfl⟩
  | falls exit => cases hexit.symm.trans exit
  | jumps exit => cases hexit.symm.trans exit
  | returns exit => cases hexit.symm.trans exit

namespace Layout

/-- A flat layout that starts with a branch is this branch. -/
theorem Fits.eq_branch_of_flat (h : l.Fits ctx g₀ g next) (hflat : l.Flat)
    (hhead : l.ids.head? = some b) (hbranch : (g.exit b).isBranch = true) :
    ∃ body other, l = Layout.branch b body other .stop ∧ body.Flat ∧
      other.Flat := by
  cases h with
  | stop => cases hhead
  | leave _ exit =>
    cases hhead
    rw [exit] at hbranch
    cases hbranch
  | ret _ exit =>
    cases hhead
    rw [exit] at hbranch
    cases hbranch
  | plain runs =>
    cases hhead
    rw [runs.exit] at hbranch
    cases hbranch
  | branch =>
    cases hhead
    obtain ⟨rfl, hbody, hother⟩ := hflat
    exact ⟨_, _, rfl, hbody, hother⟩

/-- A flat layout that ends in a jump does not start with a test. -/
theorem Fits.takeWhile_of_leaves (h : l.Fits ctx g₀ g next) (hflat : l.Flat)
    (hleaves : l.leaves = true) (more : List Nat) :
    (l.ids ++ more).takeWhile (fun id => (g.exit id).isBranch) = [] := by
  obtain ⟨x, xs, hids⟩ :=
    List.exists_cons_of_ne_nil (ids_ne_nil_of_leaves hleaves)
  rw [hids, List.cons_append]
  refine List.takeWhile_cons_of_neg fun hbranch => ?_
  obtain ⟨body, other, rfl, _⟩ :=
    h.eq_branch_of_flat hflat (by rw [hids]; rfl) hbranch
  cases hleaves

end Layout

/-- A test with an alternative is not in a closed run behind another test, since
it leads to the alternative. -/
theorem Layout.Fits.not_closed_of_other {x m next : Nat} {inside : Layout}
    (hfits : (Layout.branch x inside other .stop).Fits ctx g₀ g (some n))
    (hasc : Ascends (b :: (Layout.branch x inside other .stop).ids) (some n))
    (hflat : inside.Flat) (hleaves : inside.leaves = true)
    (hne : other.ids ≠ [])
    (hsize : m + 1 ≤
      ((Layout.branch x inside other .stop).ids.takeWhile fun id =>
      (g.exit id).isBranch).length)
    (hnext : (Layout.branch x inside other .stop).ids[m + 1]? = some next) :
    ¬ ∀ id ∈ (b :: (Layout.branch x inside other .stop).ids).take (m + 2),
      ∀ t ∈ g.successors id, t = next ∨ t = n ∨
        t ∈ (b :: (Layout.branch x inside other .stop).ids).take (m + 2) := by
  intro hclosed
  have hnodup := hasc.nodup
  have hout : n ∉ b :: (Layout.branch x inside other .stop).ids := hasc.notMem
  cases hfits with
  | @branch _ k _ _ _ _ _ exit skip nonempty _ _ insideFits =>
    have hbranch : (g.exit x).isBranch = true := by rw [exit]; rfl
    -- the run ends with the test, because what is inside does not start with
    -- one
    have hinside :=
      insideFits.takeWhile_of_leaves hflat hleaves (other.ids ++ [])
    simp only [Layout.ids, List.takeWhile_cons, hbranch, if_true, hinside,
      List.length_singleton] at hsize
    obtain rfl : m = 0 := by omega
    obtain ⟨y, ys, hinsideIds⟩ := List.exists_cons_of_ne_nil nonempty
    obtain ⟨z, zs, hotherIds⟩ := List.exists_cons_of_ne_nil hne
    obtain rfl : z = k := by simpa [Layout.first, hotherIds] using skip
    obtain rfl : y = next := by simpa [Layout.ids, hinsideIds] using hnext
    have hedge : z ∈ g.successors x := by
      simp [Graph.successors, exit, Exit.successors]
    have hwhere := hclosed x (by simp [Layout.ids]) z hedge
    simp only [Layout.ids, hinsideIds, hotherIds] at hnodup hout hwhere
    grind

/-- A closed run stays closed without its first test. -/
theorem closed_tail {ids : List Nat} {m next : Nat}
    (hasc : Ascends (b :: ids) (some n))
    (hahead : ∀ id ∈ ids, ∀ t ∈ g.successors id, id < t)
    (hclosed : ∀ id ∈ (b :: ids).take (m + 1), ∀ t ∈ g.successors id,
      t = next ∨ t = n ∨ t ∈ (b :: ids).take (m + 1)) :
    ∀ id ∈ ids.take m, ∀ t ∈ g.successors id, t = next ∨ t = n ∨
      t ∈ ids.take m := by
  intro id hid t ht
  have hlater := hahead id (List.take_subset _ _ hid) t ht
  have hfront := hasc.lt_of_head id (.inl (List.take_subset _ _ hid))
  rcases hclosed id (List.mem_cons_of_mem _ hid) t ht with heq | heq | hmem
  · exact .inl heq
  · exact .inr (.inl heq)
  · rcases List.mem_cons.1 hmem with rfl | hmem
    · omega
    · exact .inr (.inr hmem)

/-- **Runs of tests.**  A closed run of tests at the front of a flat branch is a
row, and what comes behind it is a layout. -/
theorem exists_row_of_closed (hstands : AllStand ctx g₀) {m : Nat}
    (hfits : (Layout.branch b body .stop .stop).Fits ctx g₀ g (some n))
    (hasc : Ascends (b :: body.ids) (some n)) (hflat : body.Flat)
    (hsize : m ≤ (body.ids.takeWhile fun id => (g.exit id).isBranch).length)
    {next : Nat} (hnext : body.ids[m]? = some next)
    (hclosed : 0 < m → ∀ id ∈ (b :: body.ids).take (m + 1),
      ∀ t ∈ g.successors id, t = next ∨ t = n ∨
        t ∈ (b :: body.ids).take (m + 1)) :
    ∃ tests, ∃ l : Layout,
      Row g ctx n next ((b :: body.ids).take (m + 1)) tests ∧
      l.Fits ctx g₀ g (some n) ∧ l.ids = body.ids.drop m ∧
        l.ids.head? = some next := by
  induction m generalizing b body with
  | zero =>
    cases hfits with
    | branch untouched exit skip _ _ _ bodyFits =>
      cases skip
      obtain ⟨test, htest, hplain⟩ := hstands.exists_test untouched exit
      have hhead : body.ids.head? = some next := by
        rw [List.head?_eq_getElem?, hnext]
      rw [hhead] at exit
      exact ⟨[test], body, .last exit htest hplain, bodyFits, rfl, hhead⟩
  | succ m ih =>
    have hclosed := hclosed (Nat.succ_pos m)
    cases hfits with
    | branch untouched exit skip nonempty _ _ bodyFits =>
      cases skip
      obtain ⟨x, xs, hids⟩ := List.exists_cons_of_ne_nil nonempty
      have hbranch : (g.exit x).isBranch = true := by
        by_contra hplain
        simp [hids, hplain] at hsize
      obtain ⟨inside, other, rfl, hinside, hother⟩ :=
        bodyFits.eq_branch_of_flat hflat (by rw [hids]; rfl) hbranch
      have hfits := bodyFits
      cases bodyFits with
      | branch _ _ _ _ ends =>
        rcases ends with ⟨rfl, _⟩ | ⟨hne, hleaves⟩
        · -- the body starts with another test of the run
          have hids' : (Layout.branch x inside .stop .stop).ids = x ::
              inside.ids := by
            simp [Layout.ids]
          have htail :=
            closed_tail hasc (hfits.lt_of_successors hasc.tail) hclosed
          rw [hids'] at hasc hsize hnext htail exit ⊢
          obtain ⟨tests, l, hrow, hl, hrest, hhead⟩ :=
            ih hfits hasc.tail hinside
              (by simpa [List.takeWhile_cons, hbranch] using hsize)
              (by simpa using hnext)
              fun _ => htail
          obtain ⟨test, htest, hplain⟩ := hstands.exists_test untouched exit
          exact ⟨test :: tests, l, .cons exit htest hplain hrow, hl,
            hrest, hhead⟩
        · exact absurd hclosed
            (hfits.not_closed_of_other hasc hinside hleaves hne hsize hnext)

/-! ### The front of a region -/

/-- Layouts of a limited size can be taken apart. -/
def TakesLayouts (ctx : Context) (g₀ : Graph) (size : Nat)
    (inner : Structurer) : Prop :=
  ∀ (l : Layout) (next : Option Nat) (w : Told), OnCourse ctx g₀ w →
    l.Fits ctx g₀ w.graph next → Ascends l.ids next → l.ids.length < size →
    ∃ ss w', (inner l.ids next).told w = .ok (ss, w') ∧ Assembles ctx g₀ ss ∧
      Taken ctx g₀ w l.ids next w'

/-- A run of tests is found in front of what follows a region. -/
theorem Graph.exists_testRun (g : Graph) (region : List Nat) (n k : Nat) :
    ∃ m body,
      g.testRun? region (some n) k =
      some (g.testRunOf region (some n) (m + 1) body) ∧
      m ≤ k ∧ region[m + 1]?.or (some n) = some body ∧
      (0 < m → g.isClosed region (g.testRunOf region (some n) (m + 1) body) =
          true) := by
  have hbody (m : Nat) : ∃ body, region[m]?.or (some n) = some body := by
    cases region[m]? with
    | none => exact ⟨n, rfl⟩
    | some t => exact ⟨t, rfl⟩
  induction k with
  | zero =>
    obtain ⟨body, hbody⟩ := hbody 1
    refine ⟨0, body, ?_, Nat.le_refl 0, hbody, fun h =>
      absurd h (Nat.lt_irrefl 0)⟩
    rw [Graph.testRun?, hbody, Option.map_some]
  | succ k ih =>
    obtain ⟨body, hbody⟩ := hbody (k + 2)
    by_cases hclosed :
      g.isClosed region (g.testRunOf region (some n) (k + 2) body) = true
    · refine ⟨k + 1, body, ?_, Nat.le_refl _, hbody, fun _ => hclosed⟩
      rw [Graph.testRun?, hbody, Option.bind_eq_bind, Option.bind_some]
      exact if_pos hclosed
    · obtain ⟨m, body', hrun, hle, hrest⟩ := ih
      refine ⟨m, body', ?_, by omega, hrest⟩
      rw [Graph.testRun?, hbody, Option.bind_eq_bind, Option.bind_some]
      exact (if_neg hclosed).trans hrun

/-- Past a run leads the first edge that does. -/
theorem Graph.testRunOf_eq {region : List Nat} {after : Option Nat}
    {size next k : Nat} (hsize : 0 < size) (hb : region.head? = some b)
    (htarget : (g.exit b).target? = some k) (hne : k ≠ next)
    (hout : k ∉ region.take size) :
    g.testRunOf region after size next = ⟨size, next, some k⟩ := by
  obtain ⟨ids, rfl⟩ : ∃ ids, region = b :: ids :=
    ⟨region.tail, List.eq_cons_of_mem_head? hb⟩
  obtain ⟨m, rfl⟩ : ∃ m, size = m + 1 := ⟨size - 1, by omega⟩
  rw [List.take_succ_cons] at hout
  simp only [Graph.testRunOf, List.take_succ_cons, List.filterMap_cons, htarget]
  rw [List.find?_cons_of_pos]
  · rfl
  · simpa [hne] using hout

namespace Partition

variable {inner : Structurer}

theorem told_guard_of_ok {chain : List Nat} {next : Nat} {after : Option Nat}
    {c : Condition} (h : w.graph.guard ctx chain next after = .ok c)
    (hkeeps : w.graph.keepsOrder ctx chain next after c = true) :
    (guard ctx chain next after).told w = .ok (c, w) := by
  refine bind_eq_ok.2 ⟨(c, w.toWork), map_eq_ok.2 ⟨c, h, rfl⟩, ?_⟩
  rw [Step.faithful, hkeeps, Bool.and_true]
  rfl

/-- Taking apart the front of a region, when each of its parts can be. -/
theorem told_arm_of {first : Nat} {rest : List Nat} {after : Option Nat}
    {run : TestRun} {c : Condition} {stop : Nat} {ss : List Section}
    (hrun : w.graph.testRun? (first :: rest) after
      (rest.takeWhile fun id => (w.graph.exit id).isBranch).length = some run)
    (hguard : w.graph.guard ctx ((first :: rest).take run.size) run.body
      run.exit = .ok c)
    (hkeeps : w.graph.keepsOrder ctx ((first :: rest).take run.size) run.body
      run.exit c = true)
    (hstop : Graph.alternativeStart? (first :: rest) after run = some stop)
    (hinner : (inner (((first :: rest).take stop).drop run.size) after).told w =
      .ok (ss, w')) :
    (arm ctx inner first rest after).told w =
      .ok ((c, ss, (first :: rest).drop stop), w') := by
  simp only [arm, told_graph_bind, told_testRun?_bind, hrun, told_slice_bind,
    List.drop_zero, told_bind_of_ok (told_guard_of_ok hguard hkeeps), hstop,
    told_bind_of_ok hinner, List.take_length]
  rfl

end Partition

/-- Some block of a layout is not a test. -/
theorem Layout.Fits.exists_not_branch (h : l.Fits ctx g₀ g next)
    (hne : l.ids ≠ []) : ∃ id ∈ l.ids, (g.exit id).isBranch = false := by
  induction h with
  | stop => exact absurd rfl hne
  | leave _ exit => exact ⟨_, List.mem_cons_self, by rw [exit]; rfl⟩
  | ret _ exit => exact ⟨_, List.mem_cons_self, by rw [exit]; rfl⟩
  | plain runs => exact ⟨_, List.mem_cons_self, by rw [runs.exit]; rfl⟩
  | branch _ _ _ nonempty _ _ _ _ _ ihBody =>
    obtain ⟨id, hid, hplain⟩ := ihBody nonempty
    exact ⟨id, by simp [Layout.ids, hid], hplain⟩

/-- So the tests at the front of a layout are not all of it. -/
theorem Layout.Fits.length_takeWhile_lt (h : l.Fits ctx g₀ g next)
    (hne : l.ids ≠ []) :
    (l.ids.takeWhile fun id => (g.exit id).isBranch).length < l.ids.length := by
  obtain ⟨id, hid, hplain⟩ := h.exists_not_branch hne
  refine Nat.lt_of_not_le fun hge => ?_
  have hfront := List.takeWhile_prefix (l := l.ids) fun id =>
    (g.exit id).isBranch
  have hall := hfront.eq_of_length (Nat.le_antisymm hfront.length_le hge)
  rw [← hall] at hid
  have hbranch := List.all_eq_true.1 List.all_takeWhile id hid
  rw [hplain] at hbranch
  cases hbranch

/-- A test whose body ends in a jump is a run of its own, and leads past the
body. -/
theorem Layout.Fits.testRun?_of_leaves {x z n : Nat} {more : List Nat}
    (h : l.Fits ctx g₀ g next) (hflat : l.Flat) (hleaves : l.leaves = true)
    (hx : l.ids.head? = some x) (htarget : (g.exit b).target? = some z)
    (hzx : z ≠ x) (hzb : z ≠ b) :
    g.testRun? (b :: (l.ids ++ more)) (some n)
      ((l.ids ++ more).takeWhile fun id => (g.exit id).isBranch).length =
        some ⟨1, x, some z⟩ := by
  have hsecond : (b :: (l.ids ++ more))[1]?.or (some n) = some x := by
    obtain ⟨ids, hids⟩ : ∃ ids, l.ids = x :: ids :=
      ⟨_, List.eq_cons_of_mem_head? hx⟩
    simp [hids]
  rw [h.takeWhile_of_leaves hflat hleaves, List.length_nil, Graph.testRun?,
    hsecond, Option.map_some, Graph.testRunOf_eq (b := b) Nat.one_pos rfl
      htarget hzx (by simpa using hzb)]

/-- The alternative starts behind the body. -/
theorem Graph.alternativeStart?_of_head {x z n : Nat} {body other : List Nat}
    (hnodup : ((b :: body) ++ other).Nodup) (hz : other.head? = some z)
    (hzn : z ≠ n) :
    Graph.alternativeStart? ((b :: body) ++ other) (some n) ⟨1, x, some z⟩ =
      some (b :: body).length := by
  have hpos : 0 < other.length := by
    cases other with
    | nil => cases hz
    | cons => exact Nat.succ_pos _
  rw [Graph.alternativeStart?, if_neg fun heq => hzn (Option.some.inj heq)]
  simp only [idxOf_eq_of_head? hnodup hz]
  rw [if_pos]
  simp only [List.length_cons, List.length_append]
  omega

namespace Layout.Fits

variable {inner : Structurer} {size : Nat}

/-- A run of tests in front of a body without an alternative. -/
theorem told_arm_of_stop (hinner : TakesLayouts ctx g₀ size inner)
    (hstands : AllStand ctx g₀) (hw : OnCourse ctx g₀ w)
    (hfits : (Layout.branch b body .stop .stop).Fits ctx g₀ w.graph (some n))
    (hasc : Ascends (b :: body.ids) (some n)) (hflat : body.Flat)
    (hsize : body.ids.length < size) :
    ∃ c ss w', (Partition.arm ctx inner b body.ids (some n)).told w =
      .ok ((c, ss, []), w') ∧
      Assembles ctx g₀ ss ∧ Taken ctx g₀ w body.ids (some n) w' := by
  have hnodup := hasc.nodup
  have hout : n ∉ b :: body.ids := hasc.notMem
  obtain ⟨m, next, hrun, hle, hnext, hclosed⟩ :=
    w.graph.exists_testRun (b :: body.ids) n
      (body.ids.takeWhile fun id => (w.graph.exit id).isBranch).length
  have hfits' := hfits
  cases hfits' with
  | @branch _ k _ _ _ _ untouched exit skip nonempty _ _ bodyFits =>
    cases skip
    have hm : m < body.ids.length :=
      Nat.lt_of_le_of_lt hle (bodyFits.length_takeWhile_lt nonempty)
    have hnext : body.ids[m]? = some next := by
      rw [List.getElem?_cons_succ, List.getElem?_eq_getElem hm,
        Option.some_or] at hnext
      rw [List.getElem?_eq_getElem hm, hnext]
    have hmem : next ∈ body.ids := List.mem_of_getElem? hnext
    have heq : w.graph.testRunOf (b :: body.ids) (some n) (m + 1) next =
        ⟨m + 1, next, some n⟩ := by
      refine Graph.testRunOf_eq (Nat.succ_pos m) rfl (by rw [exit]; rfl)
        (fun h => ?_)
        fun h => hout (List.take_subset _ _ h)
      exact hout (h ▸ List.mem_cons_of_mem _ hmem)
    rw [heq] at hrun hclosed
    obtain ⟨tests, l, hrow, hl, hrest, hhead⟩ :=
      exists_row_of_closed hstands hfits hasc hflat hle
        hnext fun hpos id hid t ht => by
          have hall := hclosed hpos
          simp only [Graph.isClosed, List.all_eq_true] at hall
          have hwhere := hall id hid t ht
          simpa [Bool.or_eq_true, or_assoc] using hwhere
    have hrest' : l.ids = (b :: body.ids).drop (m + 1) := hrest
    have hnext' : next ∉ (b :: body.ids).take (m + 1) := fun hmem' =>
      List.disjoint_take_drop hnodup (Nat.le_refl _) hmem'
        (hrest' ▸ List.mem_of_mem_head? hhead)
    have hout' : n ∉ (b :: body.ids).take (m + 1) :=
      fun h => hout (List.take_subset _ _ h)
    obtain ⟨hguard, hkeeps⟩ := guard_row hrow hout' hnext'
      fun h => hout (h ▸ List.mem_cons_of_mem _ hmem)
    have hasc' : Ascends l.ids (some n) := by
      refine hasc.tail.of_sublist ?_
      rw [hrest]
      exact (List.drop_sublist _ _).append_right _
    obtain ⟨ss, w', hss, hassembles, htaken⟩ :=
      hinner l (some n) w hw hl hasc' (by
        rw [hrest, List.length_drop]
        omega)
    refine ⟨allFail tests, ss, w', ?_, hassembles,
      htaken.widen _ _ (fun id hid => ?_) (fun t ht => .inr ht) bodyFits.within⟩
    · have hends : Graph.alternativeStart? (b :: body.ids) (some n)
          ⟨m + 1, next, some n⟩ = some (b :: body.ids).length := if_pos rfl
      have hbody :
          (inner (((b :: body.ids).take (b :: body.ids).length).drop (m + 1))
          (some n)).told w = .ok (ss, w') := by
        rw [List.take_length, List.drop_succ_cons, ← hrest]
        exact hss
      rw [Partition.told_arm_of hrun hguard hkeeps hends hbody, List.drop_length]
    · rw [hrest] at hid
      exact List.drop_subset _ _ hid

/-- A single test in front of a body with an alternative. -/
theorem told_arm_of_other (hinner : TakesLayouts ctx g₀ size inner)
    (hstands : AllStand ctx g₀) (hw : OnCourse ctx g₀ w)
    (hfits : (Layout.branch b body other .stop).Fits ctx g₀ w.graph (some n))
    (hasc : Ascends (region b body other) (some n)) (hflat : body.Flat)
    (hother : other.ids ≠ []) (hsize : body.ids.length < size) :
    ∃ c ss w',
      (Partition.arm ctx inner b (body.ids ++ other.ids) (some n)).told w =
        .ok ((c, ss, other.ids), w') ∧
      Assembles ctx g₀ ss ∧ Taken ctx g₀ w body.ids (some n) w' := by
  have hnodup := hasc.nodup
  have hout := hasc.notMem
  have hbodyAsc : Ascends body.ids (some n) := by
    refine hasc.of_sublist (List.Sublist.append_right ?_ _)
    exact (List.sublist_append_left _ _).cons b
  cases hfits with
  | @branch _ k _ _ _ _ untouched exit skip nonempty ends _ bodyFits =>
    have hleaves : body.leaves = true := by
      rcases ends with ⟨rfl, _⟩ | ⟨_, hleaves⟩
      · exact absurd rfl hother
      · exact hleaves
    obtain ⟨x, xs, hbodyIds⟩ := List.exists_cons_of_ne_nil nonempty
    obtain ⟨z, zs, hotherIds⟩ := List.exists_cons_of_ne_nil hother
    obtain rfl : z = k := by simpa [first, hotherIds] using skip
    obtain ⟨test, htest, hplain⟩ := hstands.exists_test untouched exit
    obtain ⟨ss, w', hss, hassembles, htaken⟩ :=
      hinner body (some n) w hw bodyFits hbodyAsc hsize
    have hz : z ∈ other.ids := by simp [hotherIds]
    have hx : x ∈ body.ids := by simp [hbodyIds]
    have hzn : z ≠ n := fun heq => hout (by simp [region, ← heq, hz])
    have hbody : z ∉ b :: body.ids := fun hmem =>
      (List.nodup_append.1 (by simpa [region] using hnodup :
        ((b :: body.ids) ++ other.ids).Nodup)).2.2 z hmem z hz rfl
    have hxb : x ≠ b :=
      fun heq => (List.nodup_cons.1 hnodup).1 (by simp [← heq, hx])
    have hzb : z ≠ b := fun heq => hbody (heq ▸ List.mem_cons_self)
    have hzx : z ≠ x := fun heq => hbody (heq ▸ List.mem_cons_of_mem _ hx)
    have hrun : w.graph.testRun? (b :: (body.ids ++ other.ids)) (some n)
        ((body.ids ++ other.ids).takeWhile fun id =>
          (w.graph.exit id).isBranch).length =
        some ⟨1, x, some z⟩ :=
      bodyFits.testRun?_of_leaves hflat hleaves (by rw [hbodyIds]; rfl)
        (by rw [exit]; rfl) hzx hzb
    rw [hbodyIds] at exit
    obtain ⟨hguard, hkeeps⟩ :=
      guard_row (.last exit htest hplain) (by simpa using hzb)
        (by simpa using hxb) hzx
    have hstop : Graph.alternativeStart? (b :: (body.ids ++ other.ids)) (some n)
        ⟨1, x, some z⟩ = some (b :: body.ids).length :=
      Graph.alternativeStart?_of_head hnodup (by rw [hotherIds]; rfl) hzn
    refine ⟨allFail [test], ss, w', ?_, hassembles, htaken⟩
    have hsplit : b :: (body.ids ++ other.ids) = (b :: body.ids) ++ other.ids :=
      rfl
    have hinside :
        (inner (((b :: (body.ids ++ other.ids)).take (b :: body.ids).length).drop 1)
        (some n)).told w = .ok (ss, w') := by
      rw [hsplit, List.take_left, List.drop_succ_cons, List.drop_zero]
      exact hss
    rw [Partition.told_arm_of hrun hguard hkeeps hstop hinside, hsplit,
      List.drop_left]

/-- The front of a flat branch and what comes instead of its body, when that
can be taken apart. -/
theorem told_arm (hinner : TakesLayouts ctx g₀ size inner)
    (hstands : AllStand ctx g₀) (hw : OnCourse ctx g₀ w)
    (hfits : (Layout.branch b body other .stop).Fits ctx g₀ w.graph (some n))
    (hasc : Ascends (region b body other) (some n)) (hflat : body.Flat)
    (hsize : body.ids.length < size) (fuel : Nat)
    (hinstead : ∀ w₁, OnCourse ctx g₀ w₁ → other.Fits ctx g₀ w₁.graph (some n) →
      ∃ alt w', (Partition.alternative ctx inner (some n) fuel other.ids).told
        w₁ = .ok (alt, w') ∧
        AssemblesInstead ctx g₀ alt ∧ Taken ctx g₀ w₁ other.ids (some n) w') :
    ∃ c ss alt w₁ w',
      (Partition.arm ctx inner b (body.ids ++ other.ids) (some n)).told w =
        .ok ((c, ss, other.ids), w₁) ∧
      (Partition.alternative ctx inner (some n) fuel other.ids).told w₁ =
        .ok (alt, w') ∧
      Assembles ctx g₀ ss ∧ AssemblesInstead ctx g₀ alt ∧
      Taken ctx g₀ w (region b body other) (some n) w' := by
  have hwithin : w.graph.Within (region b body other) (some n) := by
    rw [← ids_branch_stop]
    exact hfits.within
  have harm :
      ∃ c ss w',
      (Partition.arm ctx inner b (body.ids ++ other.ids) (some n)).told w =
      .ok ((c, ss, other.ids), w') ∧ Assembles ctx g₀ ss ∧
      Taken ctx g₀ w body.ids (some n) w' := by
    by_cases hother : other = .stop
    · subst hother
      have hids : body.ids ++ Layout.stop.ids = body.ids := List.append_nil _
      rw [region, hids] at hasc
      rw [hids]
      exact hfits.told_arm_of_stop hinner hstands hw hasc hflat hsize
    · exact hfits.told_arm_of_other hinner hstands hw hasc hflat
        (mt ids_eq_nil_iff.1 hother) hsize
  obtain ⟨c, ss, w₁, hrun, hassembles, htaken⟩ := harm
  have hotherFits : other.Fits ctx g₀ w₁.graph (some n) := by
    cases hfits with
    | branch _ _ _ _ _ _ _ otherFits =>
      refine otherFits.congr fun id hid => htaken.others id fun hmem => ?_
      have hnodup := (List.nodup_cons.1 hasc.nodup).2
      exact (List.nodup_append.1 hnodup).2.2 id hmem id hid rfl
  obtain ⟨alt, w', hrun', hassembles', htaken'⟩ :=
    hinstead w₁ htaken.course hotherFits
  have hwide := htaken.widen (region b body other) _
    (fun id hid => by simp [region, hid]) (fun t ht => .inr ht) hwithin
  exact ⟨c, ss, alt, w₁, w', hrun, hrun', hassembles, hassembles', hwide.trans
    (htaken'.widen _ _ (fun id hid => by simp [region, hid])
      (fun t ht => .inr ht) hwide.within)⟩

/-- What comes instead of a body is taken apart. -/
theorem told_alternative (hinner : TakesLayouts ctx g₀ size inner)
    (hstands : AllStand ctx g₀) {fuel : Nat} (hw : OnCourse ctx g₀ w)
    (hfits : l.Fits ctx g₀ w.graph (some n)) (hasc : Ascends l.ids (some n))
    (hflat : l.Flat) (hstops : l.stops = true) (hfuel : l.ids.length ≤ fuel)
    (hsize : l.ids.length < size) :
    ∃ alt w', (Partition.alternative ctx inner (some n) fuel l.ids).told w =
      .ok (alt, w') ∧
      AssemblesInstead ctx g₀ alt ∧ Taken ctx g₀ w l.ids (some n) w' := by
  induction fuel generalizing l w with
  | zero =>
    obtain rfl :=
      ids_eq_nil_iff.1 (List.length_eq_zero_iff.1 (Nat.le_zero.1 hfuel))
    exact ⟨.none, w, rfl, .none, .refl hw hfits.within⟩
  | succ fuel ih =>
    cases l with
    | stop => exact ⟨.none, w, rfl, .none, .refl hw hfits.within⟩
    | leave => cases hstops
    | ret => cases hstops
    | plain b rest =>
      obtain ⟨ss, w', hrun, hassembles, htaken⟩ :=
        hinner _ _ w hw hfits hasc hsize
      refine ⟨.otherwise ss, w', ?_, .otherwise hassembles, htaken⟩
      have hplain : (w.graph.exit b).isBranch = false := by
        cases hfits with
        | plain runs => rw [runs.exit]; rfl
      rw [ids, Partition.alternative, Partition.told_exit_bind, hplain]
      exact Partition.told_bind.2 ⟨ss, w', hrun, rfl⟩
    | branch b body other rest =>
      obtain ⟨rfl, hbody, hother⟩ := hflat
      rw [ids_branch_stop] at hasc hfuel hsize ⊢
      simp only [region, List.length_cons, List.length_append] at hfuel hsize
      have hstops' : other.stops = true := by
        cases hfits with
        | branch _ _ _ _ _ otherStops => exact otherStops
      have hbranch : (w.graph.exit b).isBranch = true := by
        cases hfits with
        | branch _ exit => rw [exit]; rfl
      have hotherAsc : Ascends other.ids (some n) := by
        refine hasc.of_sublist (List.Sublist.append_right ?_ _)
        exact (List.sublist_append_right _ _).cons b
      obtain ⟨c, ss, alt, w₁, w', hrun, hrun', hassembles, hassembles',
          htaken⟩ :=
        hfits.told_arm hinner hstands hw hasc hbody (by omega) fuel
          fun w₁ hw₁ hfits₁ => ih hw₁ hfits₁ hotherAsc hother hstops' (by omega)
            (by omega)
      refine ⟨.orIf c ss alt, w', ?_, .orIf hassembles hassembles', htaken⟩
      rw [region, Partition.alternative, Partition.told_exit_bind, hbranch]
      exact Partition.told_bind.2
        ⟨_, w₁, hrun, Partition.told_bind.2 ⟨alt, w', hrun', rfl⟩⟩

/-- **Branches.**  A flat branch is taken apart. -/
theorem told_branch (hinner : TakesLayouts ctx g₀ size inner)
    (hstands : AllStand ctx g₀) (hw : OnCourse ctx g₀ w)
    (hfits : (Layout.branch b body other .stop).Fits ctx g₀ w.graph (some n))
    (hasc : Ascends (region b body other) (some n)) (hbody : body.Flat)
    (hother : other.Flat) (hsize : (region b body other).length ≤ size) :
    ∃ s w', (Partition.branch ctx inner b (body.ids ++ other.ids) (some n)).told
      w = .ok (s, w') ∧
      Assembles ctx g₀ [s] ∧ Taken ctx g₀ w (region b body other)
        (some n) w' := by
  simp only [region, List.length_cons, List.length_append] at hsize
  have hstops : other.stops = true := by
    cases hfits with
    | branch _ _ _ _ _ otherStops => exact otherStops
  have hotherAsc : Ascends other.ids (some n) := by
    refine hasc.of_sublist (List.Sublist.append_right ?_ _)
    exact (List.sublist_append_right _ _).cons b
  obtain ⟨c, ss, alt, w₁, w', hrun, hrun', hassembles, hassembles', htaken⟩ :=
    hfits.told_arm hinner hstands hw hasc hbody (by omega) other.ids.length
      fun w₁ hw₁ hfits₁ => hfits₁.told_alternative hinner hstands hw₁ hotherAsc
        hother hstops (Nat.le_refl _) (by omega)
  refine ⟨.ifElse c ss alt, w', ?_, .ifElse hassembles hassembles', htaken⟩
  exact Partition.told_bind.2
    ⟨_, w₁, hrun, Partition.told_bind.2 ⟨alt, w', hrun', rfl⟩⟩

end Layout.Fits

end Decompiler
