import Decompiler.Proofs.Likeness.Tidy

/-!
# Blocks that do nothing

A block that does nothing and runs into another leaves no trace in a tidy graph:
an edge to it leads on to the first block behind it that is kept.  So what
matters about the number of a block is how many blocks that are kept come before
it.  Two graphs that are alike once their edges are told by these counts have
tidy graphs that are alike.

* `Graph.rank`: how many blocks that are kept come before a block.
* `Graph.settled`: the blocks that are kept, with ranks for numbers.
* `Graph.SettlesLike.tidy_like`: the tidy graphs of two graphs that are alike.
* `Graph.Skips.settlesLike`: what two graphs need for it.
-/

namespace Decompiler

variable {m m' : Method} {φ : Nat → Nat} {g g' : Graph}

namespace Graph

/-- Whether a block is kept. -/
def isBusy (g : Graph) (m : Method) (n : Nat) : Bool :=
  !((g.block n).bypass? m).isSome

/-- The blocks that are kept. -/
def busy (g : Graph) (m : Method) : List Nat :=
  (List.range g.blocks.length).filter (g.isBusy m)

/-- How many blocks that are kept come before a block. -/
def rank (g : Graph) (m : Method) (n : Nat) : Nat :=
  ((List.range n).filter (g.isBusy m)).length

/-- A block with ranks for numbers. -/
def settledRow (g : Graph) (m : Method) (n : Nat) : Block :=
  { g.block n with
    id := g.rank m n,
    exit := (g.block n).exit.mapTargets (g.rank m),
    preds := [] }

/-- The blocks that are kept, with ranks for numbers. -/
def settled (g : Graph) (m : Method) : List Block :=
  (g.busy m).map (g.settledRow m)

/-- A block counts in the rank if it is busy. -/
theorem rank_succ (g : Graph) (m : Method) (n : Nat) :
    g.rank m (n + 1) = if g.isBusy m n then g.rank m n + 1 else g.rank m n := by
  rw [rank, List.range_succ, List.filter_append, List.length_append,
    List.filter_singleton]
  cases g.isBusy m n <;> rfl

/-- A block that is kept is found in its rank. -/
theorem idxOf_busy {n : Nat} (hn : n < g.blocks.length)
    (hbusy : g.isBusy m n = true) : (g.busy m).idxOf n = g.rank m n := by
  obtain ⟨k, hk⟩ := Nat.exists_eq_add_of_lt hn
  obtain ⟨rest, hsplit⟩ :
      ∃ rest, g.busy m = (List.range n).filter (g.isBusy m) ++ n :: rest := by
    rw [busy, hk, show n + k + 1 = n + (k + 1) by omega, List.range_add,
      List.filter_append, List.range_succ_eq_map, List.map_cons, Nat.add_zero,
      List.filter_cons_of_pos hbusy]
    exact ⟨_, rfl⟩
  have hfresh : n ∉ (List.range n).filter (g.isBusy m) := fun hmem =>
    absurd (List.mem_range.1 (List.mem_filter.1 hmem).1) (Nat.lt_irrefl n)
  rw [hsplit, List.idxOf_append_of_notMem hfresh, List.idxOf_cons_self,
    Nat.add_zero, rank]

end Graph

namespace MadeFrom

variable {ends : Nat → Bool} {spans : List Span}

/-- Going on past blocks that do nothing keeps the rank. -/
theorem rank_settle (h : MadeFrom m g ends spans) (fuel t : Nat) :
    g.rank m (g.settle m fuel t) = g.rank m t := by
  induction fuel generalizing t with
  | zero => rfl
  | succ n ih =>
    rw [Graph.settle]
    split
    · rename_i next hnext
      obtain rfl := h.eq_of_falls (Graph.bypass?_eq_some hnext).1
      rw [ih, Graph.rank_succ, if_neg (by simp [Graph.isBusy, hnext])]
    · rfl

/-- An edge leads on to the block in its rank. -/
theorem idxOf_settle (h : MadeFrom m g ends spans) {t : Nat}
    (ht : t < g.blocks.length) :
    (g.busy m).idxOf (g.settle m g.blocks.length t) = g.rank m t := by
  have hlt :=
    Graph.settle_lt (m := m) (fun n t ht => h.lt_of_successors ht)
      g.blocks.length ht
  have hkept : (g.block (g.settle m g.blocks.length t)).bypass? m = none :=
    Graph.bypass?_settle (fun n t hexit => h.forward hexit) g.blocks.length
      (by omega)
  rw [Graph.idxOf_busy hlt (by simp [Graph.isBusy, hkept]), h.rank_settle]

end MadeFrom

namespace Graph

/-- With edges led past the blocks that do nothing, the others stand in line. -/
theorem lined_bypass (hbuilt : m.graph = .ok g) :
    Lined (g.bypass m) (g.idle m) (g.busy m) := by
  obtain ⟨ends, bs, _, hmade⟩ := madeFrom_of_graph hbuilt
  have hclosed (n t : Nat) (ht : t ∈ (g.block n).exit.successors) :=
    hmade.lt_of_successors ht
  refine
    { mem := fun n => ?_
      order := ?_
      numbered := fun n hn => ?_
      bound := fun n hn => ?_
      closed := fun n hn t ht => ?_
      labels := fun p hp => ?_ }
  · rw [Stays, length_bypass, busy, idle, List.mem_filter, List.mem_filter,
      List.mem_range, isBusy]
    refine and_congr_right fun hn => ?_
    simp [hn]
  · refine (List.pairwise_lt_range.filter _).imp_of_mem fun {n k} hn hk hlt =>
      ?_
    have hk := List.mem_range.1 (List.mem_filter.1 hk).1
    rw [Block.Precedes, block_bypass, block_bypass, Exit.hasJump_mapTargets]
    exact ⟨hmade.start_lt_start hlt hk, fun hjump =>
      hmade.stop_lt_start hjump hlt hk⟩
  · rw [length_bypass] at hn
    obtain ⟨s, hs⟩ := hmade.exists_span hn
    obtain ⟨_, _, _, hblock⟩ := hmade.block n s hs
    rw [block_bypass, hblock]
  · rw [length_bypass]
    exact List.mem_range.1 (List.mem_filter.1 hn).1
  · rw [block_bypass, Exit.successors_mapTargets] at ht
    obtain ⟨s, hs, rfl⟩ := List.mem_map.1 ht
    rw [length_bypass]
    exact settle_lt hclosed _ (hclosed n s hs)
  · obtain ⟨q, hq, rfl⟩ := List.mem_map.1 hp
    rw [length_bypass]
    exact settle_lt hclosed _ (Method.lt_of_mem_labels hbuilt hq)

/-- Along the line, edges lead to ranks. -/
theorem rows_bypass (hbuilt : m.graph = .ok g) :
    (g.bypass m).rows (g.busy m) = g.settled m := by
  obtain ⟨ends, bs, _, hmade⟩ := madeFrom_of_graph hbuilt
  refine List.map_congr_left fun n hn => ?_
  obtain ⟨hmem, hbusy⟩ := List.mem_filter.1 hn
  have hexit :
      ((g.block n).exit.mapTargets (g.settle m g.blocks.length)).mapTargets
      ((g.busy m).idxOf ·) = (g.block n).exit.mapTargets (g.rank m) := by
    rw [Exit.mapTargets_mapTargets]
    exact mapTargets_congr fun t ht =>
      hmade.idxOf_settle (hmade.lt_of_successors ht)
  rw [row, settledRow, block_bypass, hexit,
    idxOf_busy (List.mem_range.1 hmem) hbusy]

/-- A label leads to a rank. -/
theorem place?_bypass (hbuilt : m.graph = .ok g) (l : Label) :
    (g.bypass m).place? (g.busy m) l = (g.blockAt? l).map (g.rank m) := by
  obtain ⟨ends, bs, _, hmade⟩ := madeFrom_of_graph hbuilt
  have hlabel : (g.bypass m).blockAt? l = (g.blockAt? l).map
      (g.settle m g.blocks.length) :=
    g.blockAt?_redirectAll _ l
  rw [place?, hlabel]
  cases hfound : g.blockAt? l with
  | none => rfl
  | some t =>
    obtain ⟨_, _, hsplit, _⟩ := List.lookup_eq_some_iff.1 hfound
    have ht :=
      Method.lt_of_mem_labels hbuilt (p := (l, t)) (by rw [hsplit]; simp)
    exact congrArg some (hmade.idxOf_settle ht)

/-- Two graphs that are alike once the blocks that do nothing are left out. -/
structure SettlesLike (m m' : Method) (φ : Nat → Nat)
    (sim : Label → Label → Prop) (g g' : Graph) : Prop where
  rows : List.Forall₂ (Block.Like m m' φ) (g.settled m) (g'.settled m')
  places : ∀ l l', sim l l' →
  (g'.blockAt? l').map (g'.rank m') = (g.blockAt? l).map (g.rank m)

/-- **Tidy graphs are alike** if the blocks that are kept are, with ranks for
numbers. -/
theorem SettlesLike.tidy_like {sim : Label → Label → Prop}
    (h : SettlesLike m m' φ sim g g') (hm : m.Mirrors m' φ)
    (hbuilt : m.graph = .ok g) (hbuilt' : m'.graph = .ok g') :
    EndsAlike (fun t t' => t.Like m m' φ t' ∧ ∀ l l', sim l l' →
        t'.blockAt? l' = t.blockAt? l)
      (g.tidy m) (g'.tidy m') := by
  have halong : Alongside m m' φ sim (g.bypass m) ([] ++ g.busy m)
      (g'.bypass m') ([] ++ g'.busy m') := by
    rw [List.nil_append, List.nil_append]
    refine ⟨?_, fun l l' hl => ?_⟩
    · rw [rows_bypass hbuilt, rows_bypass hbuilt']
      exact h.rows
    · rw [place?_bypass hbuilt, place?_bypass hbuilt', h.places l l' hl]
  have hall :=
    halong.isolateAll hm (lined_bypass hbuilt) (lined_bypass hbuilt') rfl
  refine hall.bind fun a a' ⟨live, live', ha, ha', h⟩ => ?_
  exact .ok (h.renumber ha ha')

end Graph

/-! ## Blocks that match -/

/-- Two blocks that are alike when their edges are read through two maps of
numbers. -/
structure Block.Matches (m m' : Method) (φ f f' : Nat → Nat) (b b' : Block) :
    Prop where
  exit : b'.exit.mapTargets f' = b.exit.mapTargets f
  entry : b'.entry = b.entry
  folded : b'.folded = b.folded
  start : m.Level φ b.start b'.start
  stop : m.Level φ b.stop b'.stop
  last : (m'.instr b'.breakPoint).bare = (m.instr b.breakPoint).bare
  jump : b.exit.isJump = true → (m'.instr b'.stop).bare = (m.instr b.stop).bare

namespace Block.Matches

variable {b b' : Block} {f f' : Nat → Nat}

/-- Either both blocks are kept, or none is. -/
theorem isSome_bypass? (h : b.Matches m m' φ f f' b') (hm : m.Mirrors m' φ) :
    (b'.bypass? m').isSome = (b.bypass? m).isSome := by
  have hexit := h.exit
  rw [Block.bypass?, Block.bypass?, h.entry, hm.acts_eq h.start h.stop]
  cases he : b.exit with
  | falls next =>
    rw [he] at hexit
    cases he' : b'.exit with
    | falls next' =>
      rw [he'] at hexit
      cases next with
      | none =>
        cases next' with
        | none => rfl
        | some t' => cases hexit
      | some t =>
        cases next' with
        | none => cases hexit
        | some t' =>
          cases b.entry with
          | plain =>
            simp only
            split <;> rfl
          | handler type => rfl
    | jumps | branches | selects | returns | throws =>
      rw [he'] at hexit
      cases hexit
  | jumps | branches | selects | returns | throws =>
    rw [he] at hexit
    cases he' : b'.exit with
    | falls next' =>
      rw [he'] at hexit
      cases hexit
    | jumps | branches | selects | returns | throws => rfl

/-- Numbers may be read on. -/
theorem map (h : b.Matches m m' φ f f' b') (k : Nat → Nat) :
    b.Matches m m' φ (k ∘ f) (k ∘ f') b' where
  exit := by
    rw [← Exit.mapTargets_mapTargets, ← Exit.mapTargets_mapTargets, h.exit]
  entry := h.entry
  folded := h.folded
  start := h.start
  stop := h.stop
  last := h.last
  jump := h.jump

/-- Read through the ranks of blocks, and with one number, the blocks are
alike. -/
theorem like (h : b.Matches m m' φ f f' b') (id : Nat) :
    Block.Like m m' φ { b with id, exit := b.exit.mapTargets f, preds := [] }
      { b' with id, exit := b'.exit.mapTargets f', preds := [] } :=
  ⟨rfl, h.exit, h.entry, rfl, h.folded, h.start, h.stop, h.last, fun hjump =>
    h.jump ((Exit.isJump_mapTargets f b.exit).symm.trans hjump)⟩

end Block.Matches

/-! ## Numbers with gaps -/

namespace Graph

/-- The numbers of blocks are counted by `f`, which stands still only at blocks
that are not kept; and `u` finds the block of a count. -/
structure Skips (g : Graph) (m : Method) (f u : Nat → Nat) : Prop where
  zero : f 0 = 0
  step : ∀ n, (g.isBusy m n = false ∧ f (n + 1) = f n) ∨
  (f (n + 1) = f n + 1 ∧ u (f n) = n)

/-- Numbers may stay as they are. -/
theorem skips_id (g : Graph) (m : Method) : g.Skips m id id :=
  ⟨rfl, fun _ => .inr ⟨rfl, rfl⟩⟩

namespace Skips

variable {f u f' u' : Nat → Nat}

/-- A count belongs to the block that it finds. -/
theorem count_eq (h : g.Skips m f u) {n t : Nat} (ht : t < f n) :
    f (u t) = t := by
  induction n with
  | zero =>
    rw [h.zero] at ht
    omega
  | succ n ih =>
    rcases h.step n with ⟨_, hf⟩ | ⟨hf, hu⟩
    · exact ih (by omega)
    · rcases Nat.lt_or_ge t (f n) with hlt | hge
      · exact ih hlt
      · obtain rfl : t = f n := by omega
        rw [hu]

/-- The blocks that are kept, by their counts. -/
theorem filter_isBusy (h : g.Skips m f u) (n : Nat) :
    (List.range n).filter (g.isBusy m) =
    ((List.range (f n)).filter fun t => g.isBusy m (u t)).map u := by
  induction n with
  | zero =>
    rw [h.zero]
    rfl
  | succ n ih =>
    rw [List.range_succ, List.filter_append, ih, List.filter_singleton]
    rcases h.step n with ⟨hidle, hf⟩ | ⟨hf, hu⟩
    · rw [hf, hidle]
      exact List.append_nil _
    · rw [hf, List.range_succ, List.filter_append, List.map_append,
        List.filter_singleton, hu]
      cases g.isBusy m n
      · rfl
      · exact congrArg _ (congrArg (fun k => [k]) hu.symm)

/-- There are no blocks behind the last one. -/
theorem length_le (h : g.Skips m f u) {t : Nat} (ht : f g.blocks.length ≤ t) :
    g.blocks.length ≤ u t := by
  have hstep (j : Nat) :
      f (g.blocks.length + j + 1) = f (g.blocks.length + j) + 1 ∧
      u (f (g.blocks.length + j)) = g.blocks.length + j := by
    refine (h.step _).resolve_left fun ⟨hidle, _⟩ => ?_
    rw [isBusy, block_of_length_le (Nat.le_add_right _ _)] at hidle
    cases hidle
  have hcount (j : Nat) : f (g.blocks.length + j) = f g.blocks.length + j := by
    induction j with
    | zero => rfl
    | succ j ih => rw [← Nat.add_assoc, (hstep j).1, ih, Nat.add_assoc]
  obtain ⟨j, rfl⟩ := Nat.exists_eq_add_of_le ht
  rw [← hcount, (hstep j).2]
  exact Nat.le_add_right _ _

/-- **Two graphs are alike without the blocks that do nothing**, if the blocks
of one count match. -/
theorem settlesLike {sim : Label → Label → Prop} (h : g.Skips m f u)
    (h' : g'.Skips m' f' u') (hm : m.Mirrors m' φ)
    (hlength : f' g'.blocks.length = f g.blocks.length)
    (hblocks : ∀ t < f g.blocks.length,
      (g.block (u t)).Matches m m' φ f f' (g'.block (u' t)))
    (hplaces : ∀ l l', sim l l' →
      (g'.blockAt? l').map f' = (g.blockAt? l).map f) :
    SettlesLike m m' φ sim g g' := by
  have hbusy : (fun t => g'.isBusy m' (u' t)) = fun t => g.isBusy m (u t) := by
    funext t
    rcases Nat.lt_or_ge t (f g.blocks.length) with hlt | hge
    · rw [isBusy, isBusy, (hblocks t hlt).isSome_bypass? hm]
    · rw [isBusy, isBusy, block_of_length_le (h.length_le hge),
        block_of_length_le (h'.length_le (hlength.symm ▸ hge))]
      rfl
  let base (t : Nat) : Nat :=
    ((List.range t).filter fun t => g.isBusy m (u t)).length
  have hrank : g.rank m = base ∘ f := funext fun n => by
    rw [rank, h.filter_isBusy, List.length_map]
    rfl
  have hrank' : g'.rank m' = base ∘ f' := funext fun n => by
    rw [rank, h'.filter_isBusy, List.length_map, hbusy]
    rfl
  refine ⟨?_, fun l l' hl => ?_⟩
  · rw [settled, settled, busy, busy, h.filter_isBusy, h'.filter_isBusy, hbusy,
      hlength, List.map_map, List.map_map, List.forall₂_map_left_iff,
      List.forall₂_map_right_iff, List.forall₂_same]
    intro t ht
    have hlt : t < f g.blocks.length :=
      List.mem_range.1 (List.mem_filter.1 ht).1
    have hid : g.rank m (u t) = base t := by
      rw [hrank, Function.comp_apply, h.count_eq hlt]
    have hid' : g'.rank m' (u' t) = base t := by
      rw [hrank', Function.comp_apply, h'.count_eq (hlength.symm ▸ hlt)]
    rw [Function.comp_apply, Function.comp_apply, settledRow, settledRow, hid,
      hid', hrank, hrank']
    exact ((hblocks t hlt).map base).like _
  · rw [hrank, hrank', ← Option.map_map, ← Option.map_map, hplaces l l' hl]

end Skips

end Graph

end Decompiler
