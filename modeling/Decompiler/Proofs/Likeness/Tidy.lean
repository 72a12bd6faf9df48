import Decompiler.Proofs.Likeness.Rows

/-!
# Tidy graphs of methods that differ in what does nothing

Two blocks are alike if the one is read as the other: edges lead to the same
numbers, and the positions between which instructions are run stand level.  Two
graphs whose blocks are alike along a line stay so while blocks are split, and
so their tidy graphs are alike block by block.

* `Block.Like`, `Alongside`, `Graph.Like`: blocks, graphs in line, tidy graphs.
* `Alongside.isolate`, `Alongside.isolateAll`: splitting one block, and all.
* `Alongside.renumber`: the tidy graphs are alike, and so are the blocks of
  labels.
-/

namespace Decompiler

/-- Two blocks that are alike, of a method and of one that mirrors it. -/
structure Block.Like (m m' : Method) (φ : Nat → Nat) (b b' : Block) : Prop where
  id : b'.id = b.id
  exit : b'.exit = b.exit
  entry : b'.entry = b.entry
  preds : b'.preds = b.preds
  folded : b'.folded = b.folded
  start : m.Level φ b.start b'.start
  stop : m.Level φ b.stop b'.stop
  last : (m'.instr b'.breakPoint).bare = (m.instr b.breakPoint).bare
  jump : b.exit.isJump = true → (m'.instr b'.stop).bare = (m.instr b.stop).bare

/-- Two graphs whose blocks are alike along two lines, and where labels that are
related lead to the same places. -/
structure Alongside (m m' : Method) (φ : Nat → Nat) (sim : Label → Label → Prop)
    (g : Graph) (live : List Nat) (g' : Graph) (live' : List Nat) : Prop where
  rows : List.Forall₂ (Block.Like m m' φ) (g.rows live) (g'.rows live')
  places : ∀ l l', sim l l' → g'.place? live' l' = g.place? live l

/-- Two graphs whose blocks are alike, number by number. -/
structure Graph.Like (m m' : Method) (φ : Nat → Nat) (g g' : Graph) : Prop where
  length : g'.blocks.length = g.blocks.length
  block : ∀ n < g.blocks.length, (g.block n).Like m m' φ (g'.block n)

variable {m m' : Method} {φ : Nat → Nat} {g g' : Graph} {b b' : Block}

/-- Two positions that stand level and hold the same instruction. -/
def Method.Beside (m m' : Method) (φ : Nat → Nat) (k k' : Nat) : Prop :=
  m.Level φ k k' ∧ (m'.instr k').bare = (m.instr k).bare

namespace Block.Like

/-- Moving places on keeps blocks alike. -/
theorem shift (h : b.Like m m' φ b') (i : Nat) :
    (b.shift i).Like m m' φ (b'.shift i) where
  id := congrArg (Decompiler.shift i) h.id
  exit := congrArg (Exit.mapTargets (Decompiler.shift i)) h.exit
  entry := h.entry
  preds := h.preds
  folded := h.folded
  start := h.start
  stop := h.stop
  last := h.last
  jump hjump := h.jump ((Exit.isJump_mapTargets _ _).symm.trans hjump)

/-- Blocks that are alike are split at the same place. -/
theorem splitPoint? (h : b.Like m m' φ b') (hm : m.Mirrors m' φ) :
    EndsAlike (Option.Rel (m.Beside m' φ)) (b.splitPoint? m)
      (b'.splitPoint? m') := by
  have hoperands : EndsAlike (Option.Rel (m.Beside m' φ)) (b.operandsFrom? m)
      (b'.operandsFrom? m') := by
    rw [Block.operandsFrom?, Block.operandsFrom?,
      Instr.effect_eq_of_bare h.last]
    refine (EndsAlike.refl _).bind fun e _ he => he ▸ ?_
    refine (hm.operandsFrom? h.start h.stop e.pops).mono fun k k' hk => ?_
    subst hk
    cases k with
    | none => exact .none
    | some k => exact .some ⟨hm.level k, hm.bare k⟩
  rw [Block.splitPoint?, Block.splitPoint?, h.exit]
  cases hexit : b.exit with
  | jumps => exact .ok (.some ⟨h.stop, h.jump (by rw [hexit]; rfl)⟩)
  | branches | selects => exact hoperands
  | falls | returns | throws => exact .ok .none

end Block.Like

/-- Lists that are put together of parts that match. -/
theorem forall₂_of_append {α β : Type} {R : α → β → Prop} {as bs : List α}
    {cs ds : List β} (hlen : as.length = cs.length)
    (h : List.Forall₂ R (as ++ bs) (cs ++ ds)) :
    List.Forall₂ R as cs ∧ List.Forall₂ R bs ds := by
  have hfront := List.forall₂_take_append (as ++ bs) cs ds h
  have hback := List.forall₂_drop_append (as ++ bs) cs ds h
  rw [← hlen, List.take_left] at hfront
  rw [← hlen, List.drop_left] at hback
  exact ⟨hfront, hback⟩

namespace Alongside

variable {sim : Label → Label → Prop}
    {dropped dropped' before before' behind behind' : List Nat}
  {live live' : List Nat} {id id' : Nat}

/-- Equally many blocks are live alongside. -/
theorem length_eq (h : Alongside m m' φ sim g live g' live') :
    live.length = live'.length := by
  rw [← g.length_rows, ← g'.length_rows]
  exact h.rows.length_eq

/-- The blocks at one place of two lines, and those before and behind. -/
theorem parts
    (h : Alongside m m' φ sim g (before ++ id :: behind) g'
      (before' ++ id' :: behind'))
    (hlen : before.length = before'.length) :
    List.Forall₂ (Block.Like m m' φ)
      (before.map (g.row (before ++ id :: behind)))
        (before'.map (g'.row (before' ++ id' :: behind'))) ∧
      (g.row (before ++ id :: behind) id).Like m m' φ
        (g'.row (before' ++ id' :: behind') id') ∧
      List.Forall₂ (Block.Like m m' φ)
        (behind.map (g.row (before ++ id :: behind)))
        (behind'.map (g'.row (before' ++ id' :: behind'))) := by
  have hrows := h.rows
  rw [Graph.rows, Graph.rows, List.map_append, List.map_append] at hrows
  obtain ⟨hbefore, hrest⟩ := forall₂_of_append (by simp [hlen]) hrows
  rw [List.map_cons, List.map_cons, List.forall₂_cons] at hrest
  exact ⟨hbefore, hrest.1, hrest.2⟩

variable {k k' : Nat}

/-- **Splitting two blocks that are alike** at positions that stand level. -/
theorem split
    (h : Alongside m m' φ sim g (before ++ id :: behind) g'
      (before' ++ id' :: behind'))
    (hg : Lined g dropped (before ++ id :: behind))
    (hg' : Lined g' dropped' (before' ++ id' :: behind'))
    (hlen : before.length = before'.length) (hk : m.Beside m' φ k k') :
    Alongside m m' φ sim (g.split id k)
      (before ++ g.blocks.length :: id :: behind)
      (g'.split id' k') (before' ++ g'.blocks.length :: id' :: behind') where
  rows := by
    obtain ⟨hbefore, hself, hbehind⟩ := h.parts hlen
    have hshift {bs bs' : List Block}
        (hbs : List.Forall₂ (Block.Like m m' φ) bs bs') :
        List.Forall₂ (Block.Like m m' φ) (bs.map (Block.shift before.length))
          (bs'.map (Block.shift before.length)) := by
      rw [List.forall₂_map_left_iff, List.forall₂_map_right_iff]
      exact hbs.imp fun b b' hb => hb.shift before.length
    rw [hg.rows_split, hg'.rows_split, ← hlen]
    refine List.rel_append (hshift hbefore)
      (.cons ?_ (.cons ?_ (hshift hbehind)))
    · exact ⟨rfl, rfl, hself.entry, rfl, rfl, hself.start, hk.1, hk.2, nofun⟩
    · have hmoved := hself.shift before.length
      exact ⟨rfl, hmoved.exit, rfl, rfl, hself.folded, hk.1, hself.stop,
        hself.last, hmoved.jump⟩
  places l l' hl := by
    rw [hg.place?_split, hg'.place?_split, h.places l l' hl, hlen]

/-- What splitting the block behind `before` may leave: the line as it was, or
with the new block in it. -/
def Isolated (m m' : Method) (φ : Nat → Nat) (sim : Label → Label → Prop)
    (dropped dropped' before before' behind behind' : List Nat) (g g' : Graph) :
    Prop :=
  ∃ front front', (before ++ front).length = (before' ++ front').length ∧
    Lined g dropped (before ++ front ++ behind) ∧
    Lined g' dropped' (before' ++ front' ++ behind') ∧
    Alongside m m' φ sim g (before ++ front ++ behind) g'
      (before' ++ front' ++ behind')

/-- **One block has its turn.** -/
theorem isolate
    (h : Alongside m m' φ sim g (before ++ id :: behind) g'
      (before' ++ id' :: behind'))
    (hm : m.Mirrors m' φ) (hg : Lined g dropped (before ++ id :: behind))
    (hg' : Lined g' dropped' (before' ++ id' :: behind'))
    (hlen : before.length = before'.length) :
    EndsAlike (Isolated m m' φ sim dropped dropped' before before' behind behind')
      (g.isolate m id) (g'.isolate m' id') := by
  obtain ⟨_, hself, _⟩ := h.parts hlen
  have hsame : Isolated m m' φ sim dropped dropped' before before' behind
      behind' g g' := by
    refine ⟨[id], [id'], by simp [hlen], ?_⟩
    simpa using ⟨hg, hg', h⟩
  have hpoint := hself.splitPoint? hm
  have hthis : (g.row (before ++ id :: behind) id).splitPoint? m =
      (g.block id).splitPoint? m :=
    Block.splitPoint?_eq_of_mapTargets rfl rfl rfl rfl
  have hthis' : (g'.row (before' ++ id' :: behind') id').splitPoint? m' =
      (g'.block id').splitPoint? m' :=
    Block.splitPoint?_eq_of_mapTargets rfl rfl rfl rfl
  rw [hthis, hthis'] at hpoint
  rw [Graph.isolate, Graph.isolate]
  refine hpoint.bind_of_eq fun point point' hfound hfound' hrel => ?_
  cases hrel with
  | none => exact .ok hsame
  | @some k k' hk =>
    have hacts :
        m'.acts (g'.block id').start k' = m.acts (g.block id).start k :=
      hm.acts_eq hself.start hk.1
    simp only [hacts]
    split
    · rename_i hacts'
      refine .ok ⟨[g.blocks.length, id], [g'.blocks.length, id'], by simp [hlen], ?_⟩
      have hsplit :=
        hg.split (Method.lt_of_acts hacts') (Block.le_of_splitPoint? hfound)
          (Block.hasJump_of_splitPoint? hfound)
      have hsplit' := hg'.split (Method.lt_of_acts (hacts.trans hacts'))
        (Block.le_of_splitPoint? hfound') (Block.hasJump_of_splitPoint? hfound')
      simpa using ⟨hsplit, hsplit', h.split hg hg' hlen hk⟩
    · exact .ok hsame

/-- What is known of two graphs whose blocks stand in line. -/
def InLine (m m' : Method) (φ : Nat → Nat) (sim : Label → Label → Prop)
    (dropped dropped' : List Nat) (g g' : Graph) : Prop :=
  ∃ live live', Lined g dropped live ∧ Lined g' dropped' live' ∧
    Alongside m m' φ sim g live g' live'

/-- **Every block has its turn.** -/
theorem isolateAll
    (h : Alongside m m' φ sim g (before ++ behind) g' (before' ++ behind'))
    (hm : m.Mirrors m' φ) (hg : Lined g dropped (before ++ behind))
    (hg' : Lined g' dropped' (before' ++ behind'))
    (hlen : before.length = before'.length) :
    EndsAlike (InLine m m' φ sim dropped dropped') (g.isolateAll m behind)
      (g'.isolateAll m' behind') := by
  induction behind generalizing g g' before before' behind' with
  | nil =>
    cases behind' with
    | nil => exact .ok ⟨_, _, hg, hg', h⟩
    | cons id' behind' => exact absurd h.length_eq (by simp [hlen])
  | cons id behind ih =>
    cases behind' with
    | nil => exact absurd h.length_eq (by simp [hlen])
    | cons id' behind' =>
      rw [Graph.isolateAll, Graph.isolateAll]
      refine (h.isolate hm hg hg' hlen).bind ?_
      rintro a a' ⟨front, front', hlen, ha, ha', halong⟩
      exact ih halong ha ha' hlen

/-- The blocks of labels are found by their places in the line. -/
theorem blockAt?_rows (g : Graph) (live : List Nat) (l : Label) :
    (Graph.linkBack ⟨g.rows live, g.labels.map fun (l, n) =>
        (l, live.idxOf n)⟩).blockAt? l =
      g.place? live l := g.blockAt?_redirectAll (live.idxOf ·) l

/-- **Numbering the blocks.**  The tidy graphs are alike, and labels that are
related lead to the same numbers. -/
theorem renumber (h : Alongside m m' φ sim g live g' live')
    (hg : Lined g dropped live) (hg' : Lined g' dropped' live') :
    (g.renumber dropped).linkBack.Like m m' φ (g'.renumber dropped').linkBack ∧
      ∀ l l', sim l l' → (g'.renumber dropped').linkBack.blockAt? l' =
        (g.renumber dropped).linkBack.blockAt? l := by
  rw [hg.linkBack_renumber, hg'.linkBack_renumber]
  refine ⟨⟨?_, fun n hn => ?_⟩, fun l l' hl => ?_⟩
  · rw [Graph.length_linkBack, Graph.length_linkBack]
    exact h.rows.length_eq.symm
  · have hlen := h.rows.length_eq
    have hrow (n : Nat) (hn : n < (g.rows live).length) :
        (Graph.block ⟨g.rows live, g.labels.map fun (l, n) => (l, live.idxOf n)⟩
          n).Like m m' φ
          (Graph.block ⟨g'.rows live', g'.labels.map fun (l, n) =>
            (l, live'.idxOf n)⟩ n) := by
      have hget := h.rows.get hn (hlen ▸ hn)
      rw [Graph.block_eq_of_getElem? (List.getElem?_eq_getElem hn),
        Graph.block_eq_of_getElem? (List.getElem?_eq_getElem (hlen ▸ hn))]
      exact hget
    rw [Graph.length_linkBack] at hn
    have hn' : n < (g'.rows live').length := hlen ▸ hn
    rw [Graph.preds_linkBack hn, Graph.preds_linkBack hn']
    have hblock := hrow n hn
    refine ⟨hblock.id, hblock.exit, hblock.entry, ?_, hblock.folded,
      hblock.start, hblock.stop, hblock.last, hblock.jump⟩
    simp only [← hlen]
    exact List.filter_congr fun j hj => by
      rw [(hrow j (List.mem_range.1 hj)).exit]
  · rw [blockAt?_rows, blockAt?_rows, h.places l l' hl]

end Alongside

end Decompiler
