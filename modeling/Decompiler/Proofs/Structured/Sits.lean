import Decompiler.Proofs.Structured.Layout

/-!
# Layouts inside a list of blocks

A list of blocks is taken apart from its front to its end.  What is left to do
is a layout; the blocks before it lead at most to its first block, and those
behind it do not lead into it at all.  So the region of a branch is found, and
no block heads a loop.

* `Layout.Sits`: where in a list a layout stands.
* `Layout.Sits.extent?`: the region of a branch is the branch with its body and
  its alternative.
-/

namespace Decompiler

variable {g : Graph} {pre mid post list : List Nat}

/-! ### Positions -/

theorem take_drop_middle (pre mid post : List Nat) :
    ((pre ++ (mid ++ post)).take (pre.length + mid.length)).drop pre.length =
      mid := by
  rw [← List.append_assoc, ← List.length_append, List.take_left, List.drop_left]

theorem getElem?_middle (pre mid post : List Nat) :
    (pre ++ (mid ++ post))[pre.length]? = (mid ++ post).head? := by
  rw [List.getElem?_append_right (Nat.le_refl _), Nat.sub_self,
    List.head?_eq_getElem?]

theorem idxOf_lt_of_mem_left (post : List Nat) {t : Nat} (h : t ∈ pre) :
    (pre ++ post).idxOf t < pre.length := by
  rw [List.idxOf_append, if_pos h]
  exact List.idxOf_lt_length_iff.2 h

theorem le_idxOf_of_notMem {t : Nat} (h : t ∉ pre) :
    pre.length ≤ (pre ++ post).idxOf t := by
  rw [List.idxOf_append, if_neg h]
  omega

/-- The block in the middle of a list is at its place. -/
theorem idxOf_eq_of_head? {t : Nat} (hnodup : (pre ++ mid).Nodup)
    (h : mid.head? = some t) : (pre ++ mid).idxOf t = pre.length := by
  have hmem : t ∈ mid := List.mem_of_mem_head? h
  have hpre : t ∉ pre :=
    fun hmem' => (List.nodup_append.1 hnodup).2.2 t hmem' t hmem rfl
  obtain ⟨mid, rfl⟩ : ∃ ts, mid = t :: ts :=
    ⟨mid.tail, List.eq_cons_of_mem_head? h⟩
  rw [List.idxOf_append, if_neg hpre, List.idxOf_cons_self, Nat.zero_add]

/-- Blocks that lead at most to the first block of a run do not enter it. -/
theorem Graph.enters_eq_false (hnodup : (pre ++ (mid ++ post)).Nodup) {id : Nat}
    (h : ∀ t ∈ g.successors id, t ∈ mid → mid.head? = some t) :
    g.enters (pre ++ (mid ++ post)) pre.length (pre.length + mid.length) id =
      false := by
  rw [Graph.enters, Graph.landings, List.any_eq_false]
  intro p hp
  obtain ⟨t, ht, rfl⟩ := List.mem_map.1 hp
  simp only [Bool.and_eq_true, decide_eq_true_eq, not_and, Nat.not_lt]
  intro hlt
  have hpre : t ∉ pre := fun hmem => by
    have := idxOf_lt_of_mem_left (mid ++ post) hmem
    omega
  by_cases hmid : t ∈ mid
  · have hhead : (mid ++ post).head? = some t := by
      rw [List.head?_append, h t ht hmid, Option.some_or]
    rw [idxOf_eq_of_head? hnodup hhead] at hlt
    omega
  · rw [← List.append_assoc, ← List.length_append]
    exact le_idxOf_of_notMem (by simp [hpre, hmid])

/-! ### Growing a run -/

theorem Graph.beyond?_eq_none {stop id : Nat}
    (h : ∀ t ∈ g.successors id, list.idxOf t ≤ stop) :
    g.beyond? list stop id = none := by
  refine Option.eq_none_iff_forall_not_mem.2 fun far hfar => ?_
  obtain ⟨hmax, hlt⟩ := Option.filter_eq_some_iff.1 hfar
  obtain ⟨t, ht, rfl⟩ := List.mem_map.1 (List.max?_eq_some_iff.1 hmax).1
  have := h t ht
  simp only [decide_eq_true_eq] at hlt
  omega

/-- A run that no edge of its inside leaves does not grow. -/
theorem Graph.grow_eq_self {start stop : Nat} (fuel : Nat)
    (h : ∀ id ∈ (list.take stop).drop (start + 1), ∀ t ∈ g.successors id,
      list.idxOf t ≤ stop) :
    g.grow list start fuel stop = stop := by
  cases fuel with
  | zero => rfl
  | succ n =>
    have hnone : ((list.take stop).drop (start + 1)).findSome?
        (g.beyond? list stop) = none :=
      List.findSome?_eq_none_iff.2 fun id hid =>
        Graph.beyond?_eq_none (h id hid)
    rw [Graph.grow, hnone]

/-- A run grows to the only place beyond its end that its inside leads to. -/
theorem Graph.grow_eq_grow {start stop : Nat} (far : Nat) {fuel : Nat}
    (hfar : stop < far)
    (h : ∀ id ∈ (list.take stop).drop (start + 1), ∀ t ∈ g.successors id,
      list.idxOf t ≤ stop ∨ list.idxOf t = far)
    (hleaves : ∃ id ∈ (list.take stop).drop (start + 1), ∃ t ∈ g.successors id,
      list.idxOf t = far) :
    g.grow list start (fuel + 1) stop = g.grow list start fuel far := by
  have hfound : ((list.take stop).drop (start + 1)).findSome?
      (g.beyond? list stop) = some far := by
    cases hfind : ((list.take stop).drop (start + 1)).findSome?
      (g.beyond? list stop) with
    | none =>
      obtain ⟨id, hid, t, ht, hpos⟩ := hleaves
      have hnone := List.findSome?_eq_none_iff.1 hfind id hid
      have hmem : far ∈ g.landings list id := List.mem_map.2 ⟨t, ht, hpos⟩
      obtain ⟨p, hp⟩ :=
        Option.isSome_iff_exists.1 (List.isSome_max?_of_mem hmem)
      have hle : far ≤ p := (List.max?_eq_some_iff.1 hp).2 far hmem
      rw [Graph.beyond?, hp, Option.filter_some,
        if_pos (by simpa using by omega)] at hnone
      cases hnone
    | some p =>
      obtain ⟨id, hid, hp⟩ := List.exists_of_findSome?_eq_some hfind
      have hlt := Graph.lt_of_beyond? hp
      obtain ⟨t, ht, rfl⟩ := List.mem_map.1
        (List.max?_eq_some_iff.1 (Option.filter_eq_some_iff.1 hp).1).1
      rcases h id hid t ht with hle | heq
      · omega
      · rw [heq]
  rw [Graph.grow, hfound]

theorem take_drop_inside (pre : List Nat) (b : Nat) (mid post : List Nat) :
    ((pre ++ (b :: (mid ++ post))).take (pre.length + (mid.length + 1))).drop
      (pre.length + 1) =
      mid := by
  have h := take_drop_middle (pre ++ [b]) mid post
  have hlength :
      pre.length + 1 + mid.length = pre.length + (mid.length + 1) := by omega
  rw [List.length_append, List.length_singleton, hlength,
    List.append_assoc] at h
  exact h

/-- The run of a branch and its body grows to what comes after the
alternative. -/
theorem Graph.grow_region {b n : Nat} {body other : List Nat}
    (hlist : list = pre ++ (b :: (body ++ (other ++ post))))
    (hn : list.idxOf n = pre.length + ((body ++ other).length + 1))
    (hbody : g.Within body (some n)) (hother : g.Within other (some n))
    {start fuel : Nat} (hstart : start = list.idxOf n ∨
      start = pre.length + (body.length + 1) ∧ other ≠ [] ∧ ∃ id ∈ body,
        n ∈ g.successors id) :
    g.grow list pre.length (fuel + 1) start = list.idxOf n := by
  have hinBody {t : Nat} (ht : t ∈ body) :
      list.idxOf t < pre.length + (body.length + 1) := by
    have hlt := idxOf_lt_of_mem_left (other ++ post)
      (show t ∈ pre ++ b :: body by simp [ht])
    simpa [hlist] using hlt
  have hinOther {t : Nat} (ht : t ∈ other) : list.idxOf t < list.idxOf n := by
    have hlt := idxOf_lt_of_mem_left post
      (show t ∈ pre ++ b :: (body ++ other) by simp [ht])
    rw [hn]
    simpa [hlist] using hlt
  have hclosed (fuel : Nat) : g.grow list pre.length fuel (list.idxOf n) =
      list.idxOf n := by
    refine Graph.grow_eq_self fuel fun id hid t ht => ?_
    rw [hn, hlist, ← List.append_assoc body, take_drop_inside] at hid
    rcases List.mem_append.1 hid with hid | hid
    · rcases hbody id hid t ht with hmem | hnext
      · have := hinBody hmem
        simp only [List.length_append] at hn
        omega
      · exact Nat.le_of_eq (by rw [Option.some.inj hnext])
    · rcases hother id hid t ht with hmem | hnext
      · exact Nat.le_of_lt (hinOther hmem)
      · exact Nat.le_of_eq (by rw [Option.some.inj hnext])
  rcases hstart with rfl | ⟨rfl, hne, id, hid, hedge⟩
  · exact hclosed _
  · -- the jump at the end of the body leads past the alternative
    have hpos := List.length_pos_iff.2 hne
    rw [Graph.grow_eq_grow (list.idxOf n), hclosed]
    · simp only [List.length_append] at hn
      omega
    · intro id hid t ht
      rw [hlist, take_drop_inside] at hid
      rcases hbody id hid t ht with hmem | hnext
      · exact .inl (Nat.le_of_lt (hinBody hmem))
      · exact .inr (by rw [Option.some.inj hnext])
    · refine ⟨id, ?_, n, hedge, rfl⟩
      rw [hlist, take_drop_inside]
      exact hid

/-! ### Layouts in a list -/

/-- A layout stands in a list of blocks between those of `pre` and those of
`post`. -/
structure Layout.Sits (ctx : Context) (g₀ g : Graph) (pre : List Nat)
    (l : Layout) (post : List Nat) (next : Option Nat) : Prop where
  fits : l.Fits ctx g₀ g next
  ascends : Ascends l.ids next
  nodup : (pre ++ (l.ids ++ post)).Nodup
  before : ∀ id ∈ pre, ∀ t ∈ g.successors id, t ∈ l.ids → l.ids.head? = some t
  after : ∀ id ∈ post, ∀ t ∈ g.successors id, t ∉ l.ids
  outside : ∀ n, next = some n → n ∉ pre ++ (l.ids ++ post)
  ends : post = [] ∨ l.leaves = true

namespace Layout.Sits

variable {ctx : Context} {g₀ : Graph} {l body other rest : Layout} {b : Nat}
    {next : Option Nat}

theorem post_eq_nil (h : l.Sits ctx g₀ g pre post next)
    (hleaves : l.leaves = false) : post = [] := by
  rcases h.ends with hpost | hends
  · exact hpost
  · rw [hleaves] at hends
    cases hends

/-- A layout without blocks stands at the end of its list. -/
theorem post_eq_nil_of_ids (h : l.Sits ctx g₀ g pre post next)
    (hids : l.ids = []) : post = [] := by
  refine h.post_eq_nil (Bool.eq_false_iff.2 fun hleaves => ?_)
  exact ids_ne_nil_of_leaves hleaves hids

/-- The first block of a layout heads no loop. -/
theorem lastBackEdge?_eq_none (h : l.Sits ctx g₀ g pre post next) :
    g.lastBackEdge? (pre ++ (l.ids ++ post)) pre.length = none := by
  rw [Graph.lastBackEdge?, getElem?_middle]
  cases hids : l.ids with
  | nil => rw [h.post_eq_nil_of_ids hids]; rfl
  | cons b ids =>
    rw [List.cons_append, List.head?_cons, Option.bind_eq_bind,
      Option.bind_some]
    dsimp only
    split
    · rfl
    · refine List.find?_eq_none.2 fun j _ hback => ?_
      simp only [Bool.and_eq_true, decide_eq_true_eq] at hback
      obtain ⟨hlt, hback⟩ := hback
      cases hid : (pre ++ b :: (ids ++ post))[j]? with
      | none => rw [hid] at hback; cases hback
      | some id =>
        have hedge : b ∈ g.successors id := by simpa [hid] using hback
        have hmem : id ∈ ids ++ post := by
          rw [List.getElem?_append_right (by omega)] at hid
          obtain ⟨k, hk⟩ : ∃ k, j - pre.length = k + 1 :=
            ⟨j - pre.length - 1, by omega⟩
          rw [hk, List.getElem?_cons_succ] at hid
          exact List.mem_of_getElem? hid
        rcases List.mem_append.1 hmem with hmem | hmem
        · -- the edge would lead back
          have hahead :=
            h.fits.lt_of_successors h.ascends id (by simp [hids, hmem]) b hedge
          have hlater := (hids ▸ h.ascends).lt_of_head id (.inl hmem)
          omega
        · exact h.after id hmem b hedge (by simp [hids])

/-- The first block of a layout does not jump into the test of a loop. -/
theorem jumpsIntoTest_eq_false (h : l.Sits ctx g₀ g pre post next) :
    g.jumpsIntoTest (pre ++ (l.ids ++ post)) pre.length = false := by
  have hfits := h.fits
  rw [Graph.jumpsIntoTest, getElem?_middle]
  cases hfits with
  | stop => rw [h.post_eq_nil_of_ids rfl]; rfl
  | @leave j n _ exit =>
    have hjump : (((leave j).ids ++ post).head?.map g.exit >>= Exit.jump?) =
        some n := by
      change (g.exit j).jump? = some n
      rw [exit]
      rfl
    rw [hjump]
    simp [List.idxOf_eq_length (h.outside n rfl)]
  | ret _ exit => simp [ids, exit, Exit.jump?]
  | plain runs => simp [ids, runs.exit, Exit.jump?]
  | branch _ exit => simp [ids, exit, Exit.jump?]

/-- Behind a branch stands what comes after it, if it is in the list at all. -/
theorem idxOf_first (h : (branch b body other rest).Sits ctx g₀ g pre post next)
    {n : Nat} (hn : rest.first next = some n) :
    (pre ++ ((branch b body other rest).ids ++ post)).idxOf n =
      pre.length + (region b body other).length := by
  have hnodup := h.nodup
  have houtside := h.outside n
  rw [ids_branch, List.append_assoc, ← List.append_assoc] at hnodup houtside ⊢
  rw [← List.length_append]
  cases hids : rest.ids with
  | nil =>
    have hpost : post = [] := by
      refine h.post_eq_nil (Bool.eq_false_iff.2 fun hleaves => ?_)
      exact ids_ne_nil_of_leaves (l := rest) hleaves hids
    rw [first, hids] at hn
    rw [hids, hpost] at houtside
    rw [hpost, List.idxOf_eq_length (houtside hn)]
    simp
  | cons x xs =>
    rw [first, hids] at hn
    rw [hids] at hnodup
    exact idxOf_eq_of_head? hnodup hn

/-- No block outside a branch enters it behind its test. -/
theorem enters_eq_false
    (h : (branch b body other rest).Sits ctx g₀ g pre post next) {id : Nat}
    (hid : id ∈ pre ∨ id ∈ rest.ids ++ post) :
    g.enters (pre ++ ((branch b body other rest).ids ++ post)) pre.length
      (pre.length + (region b body other).length) id = false := by
  have hnodup := h.nodup
  rw [ids_branch, List.append_assoc] at hnodup ⊢
  refine Graph.enters_eq_false hnodup fun t ht hmem => ?_
  rcases hid with hid | hid
  · have hhead := h.before id hid t ht (by simp [ids_branch, hmem])
    rwa [ids_branch, region, List.cons_append] at hhead
  · exfalso
    rcases List.mem_append.1 hid with hid | hid
    · -- what comes after a branch leads ahead
      have hmem' : t ∈ (branch b body other rest).ids := by
        simp [ids_branch, hmem]
      have hlater :=
        h.fits.lt_of_successors h.ascends id (by simp [ids_branch, hid]) t ht
      have hsorted := (List.pairwise_append.1 h.ascends).1
      rw [ids_branch] at hsorted
      have := (List.pairwise_append.1 hsorted).2.2 t hmem id hid
      omega
    · exact h.after id hid t ht (by simp [ids_branch, hmem])

/-- The body of a branch stands behind its test. -/
theorem idxOf_body (h : (branch b body other rest).Sits ctx g₀ g pre post next)
    {c : Nat} (hc : body.ids.head? = some c) :
    (pre ++ ((branch b body other rest).ids ++ post)).idxOf c =
      pre.length + 1 := by
  have hlist : pre ++ ((branch b body other rest).ids ++ post) =
      pre ++ [b] ++ (body.ids ++ (other.ids ++ (rest.ids ++ post))) := by
        simp [ids]
  have hnodup := h.nodup
  rw [hlist] at hnodup ⊢
  rw [idxOf_eq_of_head? hnodup (by rw [List.head?_append, hc, Option.some_or])]
  simp

/-- The alternative of a branch stands behind its body. -/
theorem idxOf_other (h : (branch b body other rest).Sits ctx g₀ g pre post next)
    {k : Nat} (hk : other.ids.head? = some k) :
    (pre ++ ((branch b body other rest).ids ++ post)).idxOf k =
      pre.length + (body.ids.length + 1) := by
  have hlist : pre ++ ((branch b body other rest).ids ++ post) =
      pre ++ b :: body.ids ++ (other.ids ++ (rest.ids ++ post)) := by simp [ids]
  have hnodup := h.nodup
  rw [hlist] at hnodup ⊢
  rw [idxOf_eq_of_head? hnodup (by rw [List.head?_append, hk, Option.some_or])]
  simp

/-- From where its edges lead the run of a branch grows to its region. -/
theorem grow_branch (h : (branch b body other rest).Sits ctx g₀ g pre post next)
    {k c : Nat} (hexit : g.exit b = .branches k (some c))
    (hc : body.ids.head? = some c) {list : List Nat}
    (hlist : pre ++ ((branch b body other rest).ids ++ post) = list) :
    g.grow list pre.length list.length (max (list.idxOf k) (list.idxOf c)) =
      pre.length + (region b body other).length := by
  have hfits := h.fits
  cases hfits with
  | branch _ exit skip nonempty ends _ bodyFits otherFits fits =>
    rw [hc] at exit
    cases exit.symm.trans hexit
    obtain ⟨n, hn⟩ := Option.isSome_iff_exists.1 fits.first_isSome
    have hbody := h.idxOf_body hc
    have hplace := h.idxOf_first hn
    have hsplit :
        list = pre ++
        (b :: (body.ids ++ (other.ids ++ (rest.ids ++ post)))) := by
      simp [← hlist, ids]
    have hstart : max (list.idxOf k) (list.idxOf c) = list.idxOf n ∨
        max (list.idxOf k) (list.idxOf c) = pre.length + (body.ids.length + 1) ∧
          other.ids ≠ [] ∧ ∃ id ∈ body.ids, n ∈ g.successors id := by
      rcases ends with ⟨rfl, _⟩ | ⟨hne, hleaves⟩
      · cases hn.symm.trans skip
        refine .inl (Nat.max_eq_left ?_)
        rw [hlist] at hbody hplace
        rw [hbody, hplace, region, List.length_cons]
        omega
      · obtain ⟨x, xs, hother⟩ := List.exists_cons_of_ne_nil hne
        have hk := h.idxOf_other (k := k) (by
          rw [first, hother] at skip
          rw [hother]
          exact skip)
        rw [hlist] at hbody hk
        rw [hk, hbody, Nat.max_eq_left (by omega)]
        exact .inr ⟨rfl, hne, bodyFits.exists_edge_of_leaves hleaves hn⟩
    obtain ⟨fuel, hfuel⟩ : ∃ fuel, list.length = fuel + 1 :=
      ⟨list.length - 1, by simp [hsplit]; omega⟩
    rw [hlist] at hplace
    rw [hfuel,
      Graph.grow_region hsplit hplace (hn ▸ bodyFits.within)
      (hn ▸ otherFits.within) hstart, hplace]

/-- **Regions.**  The region of a branch is the branch with its body and its
alternative. -/
theorem extent? (h : (branch b body other rest).Sits ctx g₀ g pre post next) :
    g.extent? (pre ++ ((branch b body other rest).ids ++ post)) pre.length =
      some (pre.length + (region b body other).length) := by
  have hfits := h.fits
  cases hfits with
  | @branch _ k _ _ _ _ _ exit _ nonempty =>
    obtain ⟨c, cs, hbody⟩ := List.exists_cons_of_ne_nil nonempty
    have hc : body.ids.head? = some c := by rw [hbody, List.head?_cons]
    rw [hc] at exit
    have hlater : b < k :=
      h.fits.lt_of_successors h.ascends b (by simp [ids]) k (by
        simp [Graph.successors, exit, Exit.successors])
    have hgrow := h.grow_branch exit hc rfl
    have hhead :
        (pre ++ ((branch b body other rest).ids ++ post))[pre.length]? =
        some b := by
      rw [getElem?_middle]
      rfl
    have hbefore :
        ((pre ++ ((branch b body other rest).ids ++ post)).take pre.length).any
        (g.enters (pre ++ ((branch b body other rest).ids ++ post)) pre.length
          (pre.length + (region b body other).length)) = false := by
      rw [List.any_eq_false, List.take_left]
      intro id hid
      rw [h.enters_eq_false (.inl hid)]
      exact Bool.false_ne_true
    have hafter : ((pre ++ ((branch b body other rest).ids ++ post)).drop
        (pre.length + (region b body other).length)).any
        (g.enters (pre ++ ((branch b body other rest).ids ++ post)) pre.length
          (pre.length + (region b body other).length)) = false := by
      have hdrop : (pre ++ ((branch b body other rest).ids ++ post)).drop
          (pre.length + (region b body other).length) = rest.ids ++ post := by
        rw [ids_branch, List.append_assoc, ← List.append_assoc,
          ← List.length_append, List.drop_left]
      rw [List.any_eq_false, hdrop]
      intro id hid
      rw [h.enters_eq_false (.inr hid)]
      exact Bool.false_ne_true
    rw [Graph.extent?, hhead]
    simp only [Option.bind_eq_bind, Option.bind_some, exit, Exit.target?,
      Exit.otherwise?, Option.map_some, Option.getD_some,
      if_neg (Nat.not_le.2 hlater), hgrow, Exit.isJump,
      Exit.jump?, Option.isSome_none, hbefore, hafter, Bool.false_eq_true,
      if_false]

/-! ### Going on -/

variable {g' : Graph} {front keep : List Nat}

/-- The rest of a layout stands behind what is kept of its front. -/
theorem of_front (h : l.Sits ctx g₀ g pre post next)
    (hids : l.ids = front ++ rest.ids) (hfront : front ≠ [])
    (hends : post = [] ∨ rest.leaves = true) (hkeep : keep.Sublist front)
    (hfits : rest.Fits ctx g₀ g' next)
    (hsame : ∀ id, id ∉ front → g'.block id = g.block id)
    (hedges : ∀ id ∈ keep, ∀ t ∈ g'.successors id, t ∈ front ∨
      rest.first next = some t) :
    rest.Sits ctx g₀ g' (pre ++ keep) post next := by
  have hnodup := h.nodup
  have houtside := h.outside
  rw [hids, List.append_assoc] at hnodup houtside
  have hsub : (pre ++ keep ++ (rest.ids ++ post)).Sublist
      (pre ++ (front ++ (rest.ids ++ post))) := by
    rw [List.append_assoc]
    exact (hkeep.append_right _).append_left _
  have hinner := (List.nodup_append.1 hnodup).2
  have hapart {t : Nat} (ht : t ∈ front) (ht' : t ∈ rest.ids) : False :=
    (List.nodup_append.1 hinner.1).2.2 t ht t (List.mem_append_left _ ht') rfl
  have hkept {id : Nat} (hid : id ∈ pre ∨ id ∈ post) :
      g'.successors id = g.successors id := by
    have hid' : id ∉ front := fun hmem => by
      rcases hid with hid | hid
      · exact hinner.2 id hid id (by simp [hmem]) rfl
      · exact (List.nodup_append.1 hinner.1).2.2 id hmem id (by simp [hid]) rfl
    rw [Graph.successors, Graph.exit, hsame id hid', Graph.successors,
      Graph.exit]
  refine ⟨hfits, ?_, hnodup.sublist hsub, fun id hid t ht hmem =>
    ?_, fun id hid t ht => ?_,
    fun n hn hmem => houtside n hn (hsub.subset hmem), hends⟩
  · have hascends := h.ascends
    rw [hids] at hascends
    refine hascends.of_sublist ?_
    rw [List.append_assoc]
    exact List.sublist_append_right _ _
  · rcases List.mem_append.1 hid with hid | hid
    · rw [hkept (.inl hid)] at ht
      have hhead := h.before id hid t ht (by simp [hids, hmem])
      rw [hids, List.head?_append_of_ne_nil _ hfront] at hhead
      exact (hapart (List.mem_of_mem_head? hhead) hmem).elim
    · rcases hedges id hid t ht with hmem' | hfirst
      · exact (hapart hmem' hmem).elim
      · obtain ⟨x, xs, hrest⟩ :=
          List.exists_cons_of_ne_nil (List.ne_nil_of_mem hmem)
        rw [first, hrest] at hfirst
        rw [hrest]
        exact hfirst
  · rw [hkept (.inr hid)] at ht
    exact fun hmem => h.after id hid t ht (by simp [hids, hmem])

/-- Where the blocks of the last branch of a list are. -/
theorem nodup_of_last
    (h : (branch b body other stop).Sits ctx g₀ g pre post next) :
    post = [] ∧ (pre ++ [b] ++ (body.ids ++ other.ids)).Nodup ∧
      ∀ n, next = some n → n ∉ pre ++ [b] ++ (body.ids ++ other.ids) := by
  obtain rfl := h.post_eq_nil rfl
  have hlist : pre ++ ((branch b body other stop).ids ++ []) =
      pre ++ [b] ++ (body.ids ++ other.ids) := by simp [ids]
  exact ⟨rfl, hlist ▸ h.nodup, hlist ▸ h.outside⟩

/-- The body of the last branch stands behind its test. -/
theorem of_body (h : (branch b body other stop).Sits ctx g₀ g pre post next) :
    body.Sits ctx g₀ g (pre ++ [b]) other.ids next := by
  obtain ⟨-, hnodup, houtside⟩ := h.nodup_of_last
  obtain ⟨-, hinner, hpre⟩ := List.nodup_append.1 hnodup
  have hapart {t : Nat} (ht : t ∈ body.ids) (ht' : t ∈ other.ids) : False :=
    (List.nodup_append.1 hinner).2.2 t ht t ht' rfl
  have hnext {t : Nat} (ht : t ∈ body.ids) : next ≠ some t := fun heq =>
    houtside t heq (by simp [ht])
  have hfits := h.fits
  cases hfits with
  | branch _ exit skip nonempty ends _ bodyFits otherFits _ =>
    refine ⟨bodyFits, h.ascends.of_body, hnodup, fun id hid t ht hmem => ?_,
      fun id hid t ht hmem => ?_, houtside,
        ends.imp (fun hends => ?_) fun hends => hends.2⟩
    · rcases List.mem_append.1 hid with hid' | hid'
      · have hhead := h.before id hid' t ht (by simp [ids, hmem])
        cases hhead
        exact (hpre _ (by simp) _ (List.mem_append_left _ hmem) rfl).elim
      · obtain rfl := List.mem_singleton.1 hid'
        rw [Graph.successors, exit, Exit.successors, List.mem_cons,
          Option.mem_toList] at ht
        rcases ht with rfl | ht
        · rcases mem_or_eq_of_first skip with hmem' | heq
          · exact (hapart hmem hmem').elim
          · exact (hnext hmem heq).elim
        · exact ht
    · rcases otherFits.within id hid t ht with hmem' | heq
      · exact hapart hmem hmem'
      · exact hnext hmem heq
    · rw [hends.1]
      rfl

/-- The alternative of the last branch stands behind what is kept of its
body. -/
theorem of_other (h : (branch b body other stop).Sits ctx g₀ g pre post next)
    (hkeep : keep.Sublist body.ids)
    (hsame : ∀ id, id ∉ body.ids → g'.block id = g.block id)
    (hedges : g'.Within body.ids next) :
    other.Sits ctx g₀ g' (pre ++ [b] ++ keep) [] next := by
  obtain ⟨-, hnodup, houtside⟩ := h.nodup_of_last
  obtain ⟨-, hinner, hpre⟩ := List.nodup_append.1 hnodup
  have hapart {t : Nat} (ht : t ∈ body.ids) (ht' : t ∈ other.ids) : False :=
    (List.nodup_append.1 hinner).2.2 t ht t ht' rfl
  have hnext {t : Nat} (ht : t ∈ other.ids) : next ≠ some t := fun heq =>
    houtside t heq (by simp [ht])
  have hsub : (pre ++ [b] ++ keep ++ (other.ids ++ [])).Sublist
      (pre ++ [b] ++ (body.ids ++ other.ids)) := by
    rw [List.append_nil, List.append_assoc (pre ++ [b])]
    exact (hkeep.append_right _).append_left _
  have hkept {id : Nat} (hid : id ∈ pre ++ [b]) :
      g'.successors id = g.successors id := by
    have hid' : id ∉ body.ids := fun hmem => hpre id hid id (by simp [hmem]) rfl
    rw [Graph.successors, Graph.exit, hsame id hid', Graph.successors,
      Graph.exit]
  have hfits := h.fits
  cases hfits with
  | branch _ exit skip nonempty _ _ _ otherFits _ =>
    refine ⟨otherFits.congr fun id hid => hsame id fun hmem => hapart hmem hid,
      h.ascends.of_other, hnodup.sublist hsub, fun id hid t ht hmem => ?_,
      fun id hid => absurd hid List.not_mem_nil,
      fun n hn hmem => houtside n hn (hsub.subset hmem), .inl rfl⟩
    rcases List.mem_append.1 hid with hid' | hid'
    · rw [hkept hid'] at ht
      rcases List.mem_append.1 hid' with hid'' | hid''
      · have hhead := h.before id hid'' t ht (by simp [ids, hmem])
        cases hhead
        exact (hpre _ (by simp) _ (List.mem_append_right _ hmem) rfl).elim
      · obtain rfl := List.mem_singleton.1 hid''
        rw [Graph.successors, exit, Exit.successors, List.mem_cons,
          Option.mem_toList] at ht
        rcases ht with rfl | ht
        · obtain ⟨x, xs, hother⟩ :=
            List.exists_cons_of_ne_nil (List.ne_nil_of_mem hmem)
          rw [first, hother] at skip
          rw [hother]
          exact skip
        · exact (hapart (List.mem_of_mem_head? ht) hmem).elim
    · rcases hedges id (hkeep.subset hid') t ht with hmem' | heq
      · exact (hapart hmem' hmem).elim
      · exact (hnext hmem heq).elim

end Layout.Sits

end Decompiler
