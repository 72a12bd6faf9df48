import Decompiler.Proofs.Graph.Idempotent
import Decompiler.Proofs.Region.Found
import Mathlib.Order.Bounds.Defs

/-!
# Edges back are on record

A block heads a loop if a block behind it has an edge to it.  Whether there may
be one is told from the predecessors that were found when the graph was made;
the blocks of the list are looked at only then.  The predecessors are not found
again while the graph is taken apart: a region that is folded takes its edges
along, and the block that it is folded into gets a new one.

Predecessors that are gone do no harm.  What matters is that no edge back is
missing, and it is enough that every new edge leads forward or is recorded.

* `Graph.Recorded`: every edge back is recorded with the block it leads to.
* `Graph.FindsLoops`: the last edge back to each block of a list is found.
* `Graph.Recorded.findsLoops`: the first brings about the second.
* `Graph.recorded_of_tidy`, `Graph.Recorded.continueAt`, `Graph.Recorded.fold`:
  the record at the start, and after each change.
-/

namespace Decompiler.Graph

/-- Whether each edge back from a block is recorded with the block that it leads
to. -/
def Recorded (g : Graph) : Prop :=
  ∀ id head, head < id → head ∈ g.successors id → id ∈ (g.block head).preds

/-- Whether the block at a later position of a list has an edge to a block. -/
def LeadsBack (g : Graph) (list : List Nat) (i head j : Nat) : Prop :=
  i < j ∧ ∃ id, list[j]? = some id ∧ head ∈ g.successors id

/-- Whether the loops that the blocks of a list head are found.  A block that is
no jump heads one exactly if a later block of the list has an edge to it, and
what is found is the last such block. -/
def FindsLoops (g : Graph) (list : List Nat) : Prop :=
  ∀ i head, list[i]? = some head → (g.exit head).isJump = false →
    ((g.lastBackEdge? list i).isSome = true ↔ ∃ j, g.LeadsBack list i head j) ∧
      ∀ j, g.lastBackEdge? list i = some j ↔
        IsGreatest {j | g.LeadsBack list i head j} j

variable {g : Graph} {list : List Nat} {i j head id : Nat}

/-! ### Finding loops -/

/-- The test that the search for a loop makes at a position. -/
theorem leadsBack_iff :
    (i < j && (list[j]?.map g.successors).any (·.contains head)) = true ↔
    g.LeadsBack list i head j := by
  cases hj : list[j]? with
  | none => simp [LeadsBack, hj]
  | some id => simp [LeadsBack, hj]

/-- An edge back comes from a block of the list. -/
theorem LeadsBack.lt_length (h : g.LeadsBack list i head j) :
    j < list.length := by
  obtain ⟨-, id, hid, -⟩ := h
  exact (List.getElem?_eq_some_iff.1 hid).1

/-- Searching backwards finds the greatest number with a property. -/
theorem find?_reverse_range {n : Nat} {p : Nat → Bool} :
    (List.range n).reverse.find? p = some j ↔
      IsGreatest {k | k < n ∧ p k = true} j := by
  induction n with
  | zero =>
    constructor
    · intro h
      cases h
    · rintro ⟨⟨hlt, -⟩, -⟩
      exact absurd hlt (Nat.not_lt_zero j)
  | succ n ih =>
    rw [List.range_succ, List.reverse_append, List.reverse_singleton,
      List.singleton_append]
    by_cases hp : p n = true
    · have hgreatest : IsGreatest {k | k < n + 1 ∧ p k = true} n :=
        ⟨⟨Nat.lt_succ_self n, hp⟩, fun k hk => Nat.le_of_lt_succ hk.1⟩
      rw [List.find?_cons_of_pos hp, Option.some.injEq]
      constructor
      · rintro rfl
        exact hgreatest
      · intro h
        exact hgreatest.unique h
    · have hsame : {k | k < n + 1 ∧ p k = true} = {k | k < n ∧ p k = true} := by
        ext k
        refine and_congr_left fun hk => ?_
        have hne : k ≠ n := fun heq => hp (heq ▸ hk)
        omega
      rw [List.find?_cons_of_neg hp, hsame]
      exact ih

/-- What the search along a list finds is the last block with an edge back. -/
theorem find?_leadsBack : ((List.range list.length).reverse.find? fun j =>
      i < j && (list[j]?.map g.successors).any (·.contains head)) = some j ↔
    IsGreatest {j | g.LeadsBack list i head j} j := by
  have hset : {k | k < list.length ∧
      (i < k && (list[k]?.map g.successors).any (·.contains head)) = true} =
      {k | g.LeadsBack list i head k} := by
    ext k
    refine Iff.trans (and_congr_right fun _ => leadsBack_iff) ?_
    exact and_iff_right_of_imp LeadsBack.lt_length
  rw [find?_reverse_range, hset]

namespace Recorded

/-- Where no predecessor is behind a block, no later block of a list has an edge
to it. -/
theorem not_leadsBack (h : g.Recorded) (hlist : list.Pairwise (· < ·))
    (hhead : list[i]? = some head)
    (hpreds : (g.block head).preds.all (· ≤ head) = true) :
    ¬ g.LeadsBack list i head j := by
  rintro ⟨hlt, id, hid, hedge⟩
  have hbehind : head < id := lt_of_getElem?_of_lt hlist hlt hhead hid
  have hle := List.all_eq_true.1 hpreds id (h id head hbehind hedge)
  exact absurd (of_decide_eq_true hle) (Nat.not_le.2 hbehind)

/-- **Finding loops.**  Where every edge back is on record, the loops that the
blocks of an ascending list head are found. -/
theorem findsLoops (h : g.Recorded) (hlist : list.Pairwise (· < ·)) :
    g.FindsLoops list := by
  intro i head hhead hjump
  rw [lastBackEdge?, hhead]
  simp only [Option.bind_eq_bind, Option.bind_some, exit] at hjump ⊢
  rw [hjump, Bool.false_or]
  by_cases hpreds : (g.block head).preds.all (· ≤ head) = true
  · rw [if_pos hpreds]
    constructor
    · constructor
      · intro hsome
        cases hsome
      · rintro ⟨j, hj⟩
        exact absurd hj (h.not_leadsBack hlist hhead hpreds)
    · intro j
      constructor
      · intro hnone
        cases hnone
      · rintro ⟨hj, -⟩
        exact absurd hj (h.not_leadsBack hlist hhead hpreds)
  · rw [if_neg hpreds]
    constructor
    · rw [List.find?_isSome]
      constructor
      · rintro ⟨j, -, hj⟩
        exact ⟨j, leadsBack_iff.1 hj⟩
      · rintro ⟨j, hj⟩
        exact ⟨j, by simpa using hj.lt_length, leadsBack_iff.2 hj⟩
    · intro j
      exact find?_leadsBack

end Recorded

/-! ### The record at the start -/

/-- Only a block that there is has edges. -/
theorem lt_length_of_mem_successors {t : Nat} (h : t ∈ g.successors id) :
    id < g.blocks.length := by
  by_contra hge
  rw [successors, exit, block_of_length_le (Nat.le_of_not_lt hge)] at h
  cases h

/-- Once the edges are followed back, all of them are recorded. -/
theorem recorded_linkBack (g : Graph) : g.linkBack.Recorded := by
  intro id head hlt hedge
  have hid : id < g.blocks.length :=
    g.length_linkBack ▸ lt_length_of_mem_successors hedge
  rw [successors, exit, preds_linkBack hid] at hedge
  rw [preds_linkBack (Nat.lt_trans hlt hid)]
  simpa [hid] using hedge

/-- A tidied graph has its edges back on record. -/
theorem recorded_of_tidy {m : Method} {g' : Graph} (h : g.tidy m = .ok g') :
    g'.Recorded := by
  obtain ⟨isolated, -, h⟩ := bind_eq_ok.1 h
  cases h
  exact recorded_linkBack _

/-! ### The record after a change -/

/-- Adding a predecessor adds just that one. -/
theorem mem_insertPred {x : Nat} {ps : List Nat} : x ∈ insertPred id ps ↔
      x = id ∨ x ∈ ps := by
  induction ps with
  | nil => simp [insertPred]
  | cons p ps ih =>
    rw [insertPred]
    split_ifs with hlt heq
    · exact List.mem_cons
    · simp [heq]
    · rw [List.mem_cons, ih, List.mem_cons, or_left_comm]

/-- A change that keeps the exit of a block keeps all exits. -/
theorem exit_modify_of_exit {f : Block → Block} (hf : ∀ b, (f b).exit = b.exit)
    (x : Nat) : (g.modify id f).exit x = g.exit x := by
  rcases g.block_modify id x f with hsame | ⟨-, hchanged⟩
  · rw [exit, hsame, exit]
  · rw [exit, hchanged, hf, exit]

/-- A predecessor stays on record through a change that keeps those of the
changed block. -/
theorem mem_preds_modify {f : Block → Block} {x t : Nat}
    (h : x ∈ (g.block t).preds)
    (hf : t = id → ∀ b : Block, x ∈ b.preds → x ∈ (f b).preds) :
    x ∈ ((g.modify id f).block t).preds := by
  rcases g.block_modify id t f with hsame | ⟨ht, hchanged⟩
  · rwa [hsame]
  · rw [hchanged]
    exact hf ht _ h

namespace Recorded

/-- A change of one block that leaves its predecessors as they are, and gives it
no new edge back. -/
theorem modify (h : g.Recorded) {f : Block → Block}
    (hpreds : ∀ b, (f b).preds = b.preds)
    (hedges : ∀ t, t < id → t ∈ (f (g.block id)).exit.successors →
      t ∈ g.successors id) :
    (g.modify id f).Recorded := by
  intro x t hlt hedge
  have hold : t ∈ g.successors x := by
    rw [successors, exit] at hedge
    rcases g.block_modify id x f with hsame | ⟨rfl, hchanged⟩
    · rwa [hsame] at hedge
    · rw [hchanged] at hedge
      exact hedges t hlt hedge
  refine mem_preds_modify (h x t hlt hold) fun _ b hb => ?_
  rwa [hpreds]

/-- A region is folded into a block that what comes after it is behind. -/
theorem fold (h : g.Recorded) (s : Section) {next : Option Nat}
    (hnext : ∀ t ∈ next, id < t) : (g.fold id s next).Recorded := by
  refine h.modify (fun _ => rfl) fun t hlt hedge => ?_
  have hbehind := hnext t (Option.mem_toList.1 hedge)
  exact absurd hlt (Nat.lt_asymm hbehind)

/-- Taking the structure out of a block keeps edges back on record. -/
theorem unfold (h : g.Recorded) (id : Nat) : (g.unfold id).Recorded :=
  h.modify (fun _ => rfl) fun _ _ hedge => hedge

/-- The edges of a block to the head of a loop are led to the jump that closes
the loop.  The head loses a predecessor that has no edge to it any more. -/
theorem continueAt (h : g.Recorded) (head closing id : Nat) :
    (g.continueAt head closing id).Recorded := by
  unfold Graph.continueAt
  split
  case isFalse => exact h
  intro x t hlt hedge
  dsimp only at hedge ⊢
  rw [successors, exit_modify_of_exit (by exact fun _ => rfl),
    exit_modify_of_exit (by exact fun _ => rfl)] at hedge
  by_cases hx : x = id
  · subst hx
    have hlength : x < g.blocks.length := by
      simpa [redirect, length_modify] using lt_length_of_mem_successors hedge
    rw [redirect, exit, block_modify_self _ _ hlength,
      Exit.successors_mapTargets, List.mem_map] at hedge
    obtain ⟨s, hs, rfl⟩ := hedge
    by_cases hhead : s = head
    · -- the edge now leads to the jump, where it is entered
      rw [if_pos hhead] at hlt ⊢
      rw [block_modify_self _ _
        (by simpa [redirect, length_modify] using Nat.lt_trans hlt hlength)]
      exact mem_insertPred.2 (.inl rfl)
    · rw [if_neg hhead] at hlt ⊢
      refine mem_preds_modify
        (mem_preds_modify (mem_preds_modify (h x s hlt hs) ?_) ?_) ?_
      · exact fun _ _ hb => hb
      · exact fun heq => absurd heq hhead
      · exact fun _ _ hb => mem_insertPred.2 (.inr hb)
  · rw [redirect, exit, block_modify_of_ne _ _ (Ne.symm hx)] at hedge
    refine mem_preds_modify
      (mem_preds_modify (mem_preds_modify (h x t hlt hedge) ?_) ?_) ?_
    · exact fun _ _ hb => hb
    · exact fun _ _ hb => (List.mem_erase_of_ne hx).2 hb
    · exact fun _ _ hb => mem_insertPred.2 (.inr hb)

/-- Continuing at the jump that closes a loop keeps edges back on record, for
any number of blocks. -/
theorem foldl_continueAt (h : g.Recorded) (head closing : Nat)
    (ids : List Nat) :
    (ids.foldl (fun g id => g.continueAt head closing id) g).Recorded := by
  induction ids generalizing g with
  | nil => exact h
  | cons id ids ih => exact ih (h.continueAt head closing id)

end Recorded

end Decompiler.Graph
