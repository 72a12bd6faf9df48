import Decompiler.Proofs.Graph.Idempotent
import Decompiler.Proofs.Graph.Sequential
import Decompiler.Proofs.Likeness.Mirrors

/-!
# Blocks in line

On the way to a tidy graph some blocks are dropped, others are split, and at the
end the rest are numbered in the order of their instructions.  So the numbers
that blocks have in between do not matter.  A line lists the blocks that stay in
the order of their instructions, and a graph is read along it: each block with
the places in the line where its edges lead.

Splitting a block puts a new one in front of it in the line and moves the places
behind on by one; numbering the blocks anew gives each its place for a number.

* `Graph.rows`: the blocks of a line with places for numbers.
* `Lined`: what a line is; `Lined.split`, `Graph.rows_split` for a split block.
* `Graph.linkBack_renumber`: the tidy graph is read off the line.
-/

namespace Decompiler

variable {g g' : Graph} {dropped live : List Nat} {m : Method}

namespace Graph

/-- A block with the places in a line for numbers. -/
def row (g : Graph) (live : List Nat) (n : Nat) : Block :=
  { g.block n with
    id := live.idxOf n,
    exit := (g.block n).exit.mapTargets (live.idxOf ·),
    preds := [] }

/-- The blocks of a line with their places in it. -/
def rows (g : Graph) (live : List Nat) : List Block := live.map (g.row live)

/-- The place in a line of the block that starts after a label. -/
def place? (g : Graph) (live : List Nat) (l : Label) : Option Nat :=
  (g.blockAt? l).map (live.idxOf ·)

end Graph

/-- A block starts in front of another, with its operands and its jump. -/
def Block.Precedes (b c : Block) : Prop :=
  b.start < c.start ∧ (b.exit.hasJump = true → b.stop < c.start)

/-- A line: the blocks that are not dropped, in the order of their
instructions. -/
structure Lined (g : Graph) (dropped live : List Nat) : Prop where
  mem : ∀ n, n ∈ live ↔ g.Stays dropped n
  order : live.Pairwise fun n k => (g.block n).Precedes (g.block k)
  numbered : g.Numbered
  bound : ∀ n ∈ dropped, n < g.blocks.length
  closed : ∀ n < g.blocks.length, ∀ t ∈ (g.block n).exit.successors,
  t < g.blocks.length
  labels : ∀ p ∈ g.labels, p.2 < g.blocks.length

/-! ## Places -/

namespace Graph

/-- There is one row for each live block. -/
theorem length_rows (g : Graph) (live : List Nat) :
    (g.rows live).length = live.length :=
  List.length_map _

/-- An exit is renamed as its successors are. -/
theorem mapTargets_congr {e : Exit} {f h : Nat → Nat}
    (hfh : ∀ t ∈ e.successors, f t = h t) :
    e.mapTargets f = e.mapTargets h := by
  cases e with
  | falls next =>
    cases next with
    | none => rfl
    | some t => simp [Exit.mapTargets, hfh t (by simp [Exit.successors])]
  | jumps t => simp [Exit.mapTargets, hfh t (by simp [Exit.successors])]
  | branches t o =>
    have ht := hfh t (by simp [Exit.successors])
    cases o with
    | none => simp [Exit.mapTargets, ht]
    | some o => simp [Exit.mapTargets, ht, hfh o (by simp [Exit.successors])]
  | selects arms default =>
    have harms : ∀ a ∈ arms, f a.target = h a.target := fun a ha =>
      hfh _ (List.mem_append_left _ (List.mem_map_of_mem ha))
    have hdefault : f default = h default := hfh _ (by simp [Exit.successors])
    rw [Exit.mapTargets, Exit.mapTargets, hdefault]
    congr 1
    exact List.map_congr_left fun a ha => by rw [harms a ha]
  | returns | throws => rfl

/-- Redirecting moves the block of a label. -/
theorem blockAt?_redirectAll (g : Graph) (f : Nat → Nat) (l : Label) :
    (g.redirectAll f).blockAt? l = (g.blockAt? l).map f := by
  simp only [blockAt?, redirectAll]
  induction g.labels with
  | nil => rfl
  | cons p ps ih =>
    rw [List.map_cons, List.lookup_cons, List.lookup_cons]
    split
    · rfl
    · exact ih

end Graph

/-- Moves the places behind one on by one. -/
def shift (i p : Nat) : Nat := if p ≤ i then p else p + 1

/-- A block in a line that another is put into, in front of place `i`. -/
def Block.shift (i : Nat) (b : Block) : Block :=
  { b with
    id := Decompiler.shift i b.id,
    exit := b.exit.mapTargets (Decompiler.shift i) }

section Split

variable {before behind : List Nat} {id new k : Nat}

/-- Edges that led to a block lead to what is put in front of it. -/
theorem idxOf_insert (hnodup : (before ++ id :: behind).Nodup)
    (hnew : new ∉ before ++ id :: behind) {t : Nat} (ht : t ≠ new) :
    (before ++ new :: id :: behind).idxOf (if t = id then new else t) =
      shift before.length ((before ++ id :: behind).idxOf t) := by
  have hid : id ∉ before := fun hmem =>
    (List.nodup_append.1 hnodup).2.2 id hmem id List.mem_cons_self rfl
  have hfront : new ∉ before := fun hmem => hnew (List.mem_append_left _ hmem)
  by_cases heq : t = id
  · subst heq
    rw [if_pos rfl, List.idxOf_append_of_notMem hfront,
      List.idxOf_append_of_notMem hid, List.idxOf_cons_self,
      List.idxOf_cons_self, Nat.add_zero, shift, if_pos (Nat.le_refl _)]
  · rw [if_neg heq]
    by_cases hmem : t ∈ before
    · have hlt := List.idxOf_lt_length_of_mem hmem
      rw [List.idxOf_append_of_mem hmem, List.idxOf_append_of_mem hmem, shift,
        if_pos (by omega)]
    · rw [List.idxOf_append_of_notMem hmem, List.idxOf_append_of_notMem hmem,
        List.idxOf_cons_ne _ (Ne.symm ht), List.idxOf_cons_ne _ (Ne.symm heq),
        shift, if_neg (by omega)]
      omega

/-- The same for a block that edges still lead to. -/
theorem idxOf_insert_of_ne (hnodup : (before ++ id :: behind).Nodup)
    (hnew : new ∉ before ++ id :: behind) {t : Nat} (ht : t ≠ new)
    (hne : t ≠ id) :
    (before ++ new :: id :: behind).idxOf t =
      shift before.length ((before ++ id :: behind).idxOf t) := by
  have h := idxOf_insert hnodup hnew ht
  rwa [if_neg hne] at h

namespace Lined

/-- A live block stays. -/
theorem stays (h : Lined g dropped live) {n : Nat} (hn : n ∈ live) :
    g.Stays dropped n :=
  (h.mem n).1 hn

/-- A live block is one of the graph. -/
theorem lt (h : Lined g dropped live) {n : Nat} (hn : n ∈ live) :
    n < g.blocks.length :=
  (h.stays hn).1

/-- The live blocks are distinct. -/
theorem nodup (h : Lined g dropped live) : live.Nodup :=
  h.order.imp fun hlt heq => absurd hlt.1 (by rw [heq]; exact Nat.lt_irrefl _)

/-- The number of the next block is not that of a live one. -/
theorem fresh (h : Lined g dropped live) : g.blocks.length ∉ live := fun hmem =>
  absurd (h.lt hmem) (Nat.lt_irrefl _)

/-- The order of blocks does not depend on where edges lead. -/
theorem precedes_of_mapTargets {b c b' c' : Block} {f : Nat → Nat}
    (h : b.Precedes c) (hstart : b'.start = b.start) (hstop : b'.stop = b.stop)
    (hexit : b'.exit = b.exit.mapTargets f) (hc : c'.start = c.start) :
    b'.Precedes c' := by
  rw [Block.Precedes, hstart, hstop, hexit, hc, Exit.hasJump_mapTargets]
  exact h

section Around

variable (h : Lined g dropped (before ++ id :: behind))
include h

theorem id_lt : id < g.blocks.length := h.lt (by simp)

/-- A block beside the one that is split is one of the graph. -/
theorem lt_of_beside {n : Nat} (hn : n ∈ before ∨ n ∈ behind) :
    n < g.blocks.length := by
  refine h.lt ?_
  rw [List.mem_append, List.mem_cons]
  exact hn.imp_right .inr

/-- A block beside the one that is split is another one. -/
theorem ne_of_beside {n : Nat} (hn : n ∈ before ∨ n ∈ behind) : n ≠ id := by
  rintro rfl
  have hnodup := h.nodup
  rw [List.nodup_middle, List.nodup_cons, List.mem_append] at hnodup
  exact hnodup.1 hn

/-- Blocks before and behind the one that is split only have their edges led
elsewhere. -/
theorem block_split_of_beside {n : Nat} (hn : n ∈ before ∨ n ∈ behind) :
    (g.split id k).block n =
      { g.block n with exit := (g.block n).exit.mapTargets (g.toFront id) } :=
  Graph.block_split_of_ne (h.lt_of_beside hn) (h.ne_of_beside hn)

/-- The blocks that are left are those from before, and the new one. -/
theorem mem_split_iff (n : Nat) : n ∈ before ++ g.blocks.length :: id ::
      behind ↔
    (g.split id k).Stays dropped n := by
  have hfresh : g.blocks.length ∉ dropped := fun hmem =>
    absurd (h.bound _ hmem) (Nat.lt_irrefl _)
  have hold := h.mem n
  simp only [List.mem_append, List.mem_cons, Graph.Stays,
    Graph.length_split] at hold ⊢
  rcases Nat.lt_trichotomy n g.blocks.length with hlt | rfl | hgt
  · simp [Nat.ne_of_lt hlt, hold, hlt, Nat.lt_succ_of_lt hlt]
  · simp [hfresh]
  · simp [Nat.ne_of_gt hgt, hold, Nat.lt_asymm hgt, Nat.not_lt.2 hgt]

/-- The new block comes right in front of what is left of the one that is
split. -/
theorem pairwise_split (hstart : (g.block id).start < k)
    (hstop : k ≤ (g.block id).stop) (hjump : (g.block id).exit.hasJump = true) :
    (before ++ g.blocks.length :: id :: behind).Pairwise fun n j =>
      ((g.split id k).block n).Precedes ((g.split id k).block j) := by
  have hself := @Graph.block_split_self g id k h.id_lt
  have hfront := @Graph.block_split_front g id k
  have hother {n : Nat} (hn : n ∈ before ∨ n ∈ behind) :=
    h.block_split_of_beside (k := k) hn
  obtain ⟨hbefore, htail, hacross⟩ := List.pairwise_append.1 h.order
  obtain ⟨hhead, hbehind⟩ := List.pairwise_cons.1 htail
  refine List.pairwise_append.2
    ⟨?_, List.pairwise_cons.2 ⟨?_, List.pairwise_cons.2 ⟨?_, ?_⟩⟩, ?_⟩
  · refine hbefore.imp_of_mem fun {a b} ha hb hab => ?_
    rw [hother (.inl ha), hother (.inl hb)]
    exact precedes_of_mapTargets hab rfl rfl rfl rfl
  · intro n hn
    rw [hfront]
    rcases List.mem_cons.1 hn with rfl | hn
    · rw [hself]
      exact ⟨hstart, nofun⟩
    · rw [hother (.inr hn)]
      exact ⟨(hhead n hn).1, nofun⟩
  · intro n hn
    rw [hself, hother (.inr hn)]
    have hbehind := (hhead n hn).2 hjump
    exact ⟨Nat.lt_of_le_of_lt hstop hbehind, fun _ => hbehind⟩
  · refine hbehind.imp_of_mem fun {a b} ha hb hab => ?_
    rw [hother (.inr ha), hother (.inr hb)]
    exact precedes_of_mapTargets hab rfl rfl rfl rfl
  · intro a ha b hb
    have hprecedes := hacross a ha id List.mem_cons_self
    rw [hother (.inl ha)]
    rcases List.mem_cons.1 hb with rfl | hb
    · rw [hfront]
      exact precedes_of_mapTargets hprecedes rfl rfl rfl rfl
    rcases List.mem_cons.1 hb with rfl | hb
    · rw [hself]
      refine ⟨Nat.lt_trans hprecedes.1 hstart, fun hends => ?_⟩
      rw [Exit.hasJump_mapTargets] at hends
      exact Nat.lt_trans (hprecedes.2 hends) hstart
    · rw [hother (.inr hb)]
      exact precedes_of_mapTargets (hacross a ha b (List.mem_cons_of_mem _ hb))
        rfl rfl rfl rfl

theorem numbered_split : (g.split id k).Numbered := fun n hn => by
  rcases Graph.eq_or_ne_of_lt_split h.id_lt hn with rfl | rfl | ⟨hn, hne⟩
  · rw [Graph.block_split_self h.id_lt]
    exact h.numbered n h.id_lt
  · rw [Graph.block_split_front]
  · rw [Graph.block_split_of_ne hn hne]
    exact h.numbered n hn

/-- Edges stay among the blocks. -/
theorem closed_split {n : Nat} (hn : n < (g.split id k).blocks.length) {t : Nat}
    (ht : t ∈ ((g.split id k).block n).exit.successors) :
    t < (g.split id k).blocks.length := by
  have hredirected {e : Exit} (he : ∀ t ∈ e.successors, t < g.blocks.length)
      (ht : t ∈ (e.mapTargets (g.toFront id)).successors) :
      t < g.blocks.length + 1 := by
    rw [Exit.successors_mapTargets] at ht
    obtain ⟨s, hs, rfl⟩ := List.mem_map.1 ht
    have hlt := he s hs
    unfold Graph.toFront
    split <;> omega
  rw [Graph.length_split]
  rcases Graph.eq_or_ne_of_lt_split h.id_lt hn with rfl | rfl | ⟨hn, hne⟩
  · rw [Graph.block_split_self h.id_lt] at ht
    exact hredirected (h.closed n h.id_lt) ht
  · rw [Graph.block_split_front] at ht
    obtain rfl := List.mem_singleton.1 ht
    exact Nat.lt_succ_of_lt h.id_lt
  · rw [Graph.block_split_of_ne hn hne] at ht
    exact hredirected (h.closed n hn) ht

/-- **Splitting.**  The new block goes in front of the one that is split. -/
theorem split (hstart : (g.block id).start < k) (hstop : k ≤ (g.block id).stop)
    (hjump : (g.block id).exit.hasJump = true) :
    Lined (g.split id k) dropped (before ++ g.blocks.length :: id :: behind)
      where
  mem := h.mem_split_iff
  order := h.pairwise_split hstart hstop hjump
  numbered := h.numbered_split
  bound n hn := by
    rw [Graph.length_split]
    exact Nat.lt_succ_of_lt (h.bound n hn)
  closed n hn t := h.closed_split hn
  labels p hp := by
    obtain ⟨q, hq, rfl⟩ := List.mem_map.1 hp
    have hlt := h.labels q hq
    rw [Graph.length_split]
    simp only
    split <;> omega

end Around

/-- Where an edge leads after a split. -/
theorem idxOf_toFront (h : Lined g dropped (before ++ id :: behind)) {t : Nat}
    (ht : t < g.blocks.length) :
    (before ++ g.blocks.length :: id :: behind).idxOf (g.toFront id t) =
      shift before.length ((before ++ id :: behind).idxOf t) :=
  idxOf_insert h.nodup h.fresh (Nat.ne_of_lt ht)

/-- Where a label leads after a split. -/
theorem place?_split (h : Lined g dropped (before ++ id :: behind))
    (l : Label) :
    (g.split id k).place? (before ++ g.blocks.length :: id :: behind) l =
      (g.place? (before ++ id :: behind) l).map (shift before.length) := by
  have hlabels : (g.split id k).blockAt? l = (g.blockAt? l).map
      (g.toFront id) :=
    g.blockAt?_redirectAll (g.toFront id) l
  rw [Graph.place?, Graph.place?, hlabels]
  cases hfound : g.blockAt? l with
  | none => rfl
  | some t =>
    obtain ⟨_, _, hsplit, _⟩ := List.lookup_eq_some_iff.1 hfound
    have ht := h.labels (l, t) (by rw [hsplit]; simp)
    exact congrArg some (h.idxOf_toFront ht)

/-- The blocks of the line after a split. -/
theorem rows_split (h : Lined g dropped (before ++ id :: behind)) :
    (g.split id k).rows (before ++ g.blocks.length :: id :: behind) =
      (before.map (g.row (before ++ id :: behind))).map
        (Block.shift before.length) ++
      { id := before.length, breakPoint := k, start := (g.block id).start,
        stop := k,
        exit := .falls (some (before.length + 1)),
        entry :=
          (g.block id).entry } ::
      { (g.row (before ++ id :: behind) id).shift before.length with
        id := before.length + 1, start := k, entry := .plain } ::
      (behind.map (g.row (before ++ id :: behind))).map
      (Block.shift before.length) := by
  have hfresh := h.fresh
  simp only [List.mem_append, List.mem_cons, not_or] at hfresh
  have hredirected {n : Nat} (hn : n < g.blocks.length) :
      ((g.block n).exit.mapTargets (g.toFront id)).mapTargets
          ((before ++ g.blocks.length :: id :: behind).idxOf ·) =
        ((g.block n).exit.mapTargets
          ((before ++ id :: behind).idxOf ·)).mapTargets
          (shift before.length) := by
    rw [Exit.mapTargets_mapTargets, Exit.mapTargets_mapTargets]
    exact Graph.mapTargets_congr fun t ht =>
      h.idxOf_toFront (h.closed n hn t ht)
  have hother {n : Nat} (hn : n ∈ before ∨ n ∈ behind) :
      (g.split id k).row (before ++ g.blocks.length :: id :: behind) n =
        (g.row (before ++ id :: behind) n).shift before.length := by
    have hlt := h.lt_of_beside hn
    have hplace :=
      idxOf_insert_of_ne h.nodup h.fresh (Nat.ne_of_lt hlt) (h.ne_of_beside hn)
    simp only [Graph.row, Block.shift, h.block_split_of_beside hn,
      hredirected hlt, hplace]
  have hback : (before ++ g.blocks.length :: id :: behind).idxOf id =
      before.length + 1 := by
    rw [List.idxOf_append_of_notMem fun hmem => h.ne_of_beside (.inl hmem) rfl,
      List.idxOf_cons_ne _ hfresh.2.1, List.idxOf_cons_self]
  have hfront :
      (before ++ g.blocks.length :: id :: behind).idxOf g.blocks.length =
      before.length := by
    rw [List.idxOf_append_of_notMem hfresh.1, List.idxOf_cons_self,
      Nat.add_zero]
  simp only [Graph.rows, List.map_append, List.map_cons, List.map_map]
  refine congrArg₂ _ (List.map_congr_left fun n hn => hother (.inl hn))
    (congrArg₂ _ ?_ (congrArg₂ _ ?_ (List.map_congr_left fun n hn => hother (.inr hn))))
  · simp only [Graph.row, g.block_split_front, hfront, Exit.mapTargets,
      Option.map_some, hback]
  · simp only [Graph.row, Block.shift, g.block_split_self h.id_lt,
      hredirected h.id_lt, hback]

end Lined

end Split

/-! ## Numbering -/

/-- A block that does not know where control comes from. -/
def Block.forgetPreds (b : Block) : Block := { b with preds := [] }

/-- The predecessors that blocks had do not matter to finding them. -/
theorem Graph.linkBack_forgetPreds (g : Graph) :
    Graph.linkBack ⟨g.blocks.map Block.forgetPreds, g.labels⟩ = g.linkBack := by
  simp only [linkBack, List.zipIdx_map, List.filter_map, List.map_map]
  rfl

namespace Lined

/-- No two blocks of a line start together. -/
theorem apart (h : Lined g dropped live) {n k : Nat} (hn : n ∈ live)
    (hk : k ∈ live) (heq : (g.block n).start = (g.block k).start) : n = k := by
  have hne : live.Pairwise fun n k => (g.block n).start ≠ (g.block k).start :=
    h.order.imp fun hlt => Nat.ne_of_lt hlt.1
  have : Std.Symm fun n k => (g.block n).start ≠ (g.block k).start :=
    ⟨fun _ _ hne heq => hne heq.symm⟩
  by_contra hnk
  exact hne.forall hn hk hnk heq

/-- The blocks that are left stand in line. -/
theorem kept_eq (h : Lined g dropped live) :
    g.kept dropped = live.map g.block := by
  have hperm : (g.kept dropped).Perm (live.map g.block) := by
    refine (Order.perm_sortOnPair _ _).trans ?_
    have hall : (g.blocks.filter fun b => !dropped.contains b.id) =
        ((List.range g.blocks.length).filter fun n => !dropped.contains n).map
        g.block := by
      have hblocks : g.blocks = (List.range g.blocks.length).map g.block := by
        have hpairs := congrArg (List.map Prod.fst) g.zipIdx_blocks
        rwa [List.map_map, List.zipIdx_map_fst] at hpairs
      rw [hblocks, List.filter_map, ← hblocks]
      refine congrArg _ (List.filter_congr fun n hn => ?_)
      rw [Function.comp_apply, h.numbered n (List.mem_range.1 hn)]
    rw [hall]
    refine List.Perm.map _
      ((List.perm_ext_iff_of_nodup ?_ h.nodup).2 fun n => ?_)
    · exact List.nodup_range.filter _
    · simp [h.mem, Graph.Stays]
  refine hperm.eq_of_pairwise (fun b c hb hc hbc hcb => ?_)
    (Order.pairwise_notBehind_sortOnPair _ _)
    (List.pairwise_map.2 (h.order.imp fun hlt => .inl hlt.1))
  obtain ⟨n, hn, rfl⟩ := List.mem_map.1 (hperm.mem_iff.1 hb)
  obtain ⟨k, hk, rfl⟩ := List.mem_map.1 hc
  refine congrArg g.block (h.apart hn hk ?_)
  unfold Order.notBehind at hbc hcb
  omega

/-- The new number of a block is its place in the line. -/
theorem renumbered_eq (h : Lined g dropped live) (n : Nat) :
    g.renumbered dropped n = live.idxOf n := by
  rw [Graph.renumbered, h.kept_eq, List.findIdx_map, List.idxOf]
  have hall : ∀ k ∈ live, ((fun b : Block => b.id == n) ∘ g.block) k =
      (k == n) := fun k hk => by
    rw [Function.comp_apply, h.numbered k (h.lt hk)]
  clear h
  induction live with
  | nil => rfl
  | cons k live ih =>
    rw [List.findIdx_cons, List.findIdx_cons, hall k List.mem_cons_self,
      ih fun j hj => hall j (List.mem_cons_of_mem _ hj)]

/-- **Numbering.**  The tidy graph is read off the line. -/
theorem linkBack_renumber (h : Lined g dropped live) :
    (g.renumber dropped).linkBack =
      Graph.linkBack ⟨g.rows live, g.labels.map fun (l, n) =>
          (l, live.idxOf n)⟩ := by
  have hnumber : g.renumbered dropped = (live.idxOf ·) := funext h.renumbered_eq
  have hlabels : (g.renumber dropped).labels = g.labels.map fun (l, n) =>
      (l, live.idxOf n) := by
    change g.labels.map (fun (l, n) => (l, g.renumbered dropped n)) = _
    rw [hnumber]
  have hblocks : (g.renumber dropped).blocks.map Block.forgetPreds =
      g.rows live := by
    refine List.ext_getElem? fun n => ?_
    rcases Nat.lt_or_ge n live.length with hlt | hge
    · have hkept : (g.kept dropped)[n]? = some (g.block live[n]) := by
        rw [h.kept_eq, List.getElem?_map, List.getElem?_eq_getElem hlt,
          Option.map_some]
      have hlength : n < (g.renumber dropped).blocks.length := by
        rw [Graph.length_renumber, h.kept_eq, List.length_map]
        exact hlt
      rw [List.getElem?_map, Graph.block_mem hlength,
        Graph.block_renumber hkept, Graph.rows, List.getElem?_map,
        List.getElem?_eq_getElem hlt, Option.map_some, Option.map_some,
        Graph.row, hnumber, h.nodup.idxOf_getElem n hlt]
      rfl
    · rw [List.getElem?_eq_none, List.getElem?_eq_none]
      · rw [Graph.length_rows]
        exact hge
      · rw [List.length_map, Graph.length_renumber, h.kept_eq, List.length_map]
        exact hge
  rw [← Graph.linkBack_forgetPreds, hblocks, hlabels]

end Lined

end Decompiler
