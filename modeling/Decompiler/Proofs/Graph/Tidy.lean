import Decompiler.Graph.Tidy
import Decompiler.Proofs.Graph.Cut

/-!
# Tidy graphs of call code

Making a graph tidy leads edges past the blocks that do nothing, takes the
calls off the front of jumps and tests, and numbers the blocks in the order of
their instructions.  Each step keeps the blocks cut right: its edges lead
where they led before.

* `Sliced`: what every step keeps.  It tells the dropped blocks apart, which no
  edge leads to.
* `Bare`: a jump or a test has no calls in front of it, and a block that runs
  into another one has some.
* `Tidied`: what is known of the graph in the end; `tidied_of_tidy`.
-/

namespace Decompiler

variable {m : Method} {g g' : Graph} {dropped : List Nat}

/-- The blocks of a graph on the way to a tidy one.  Some are to be dropped. -/
structure Sliced (m : Method) (g : Graph) (dropped : List Nat) : Prop where
  wellCut : g.WellCut m
  fresh : ∀ n < g.blocks.length, (g.block n).IsFresh n
  start_lt : ∀ n < g.blocks.length, (g.block n).start < m.length
  bound : ∀ n ∈ dropped, n < g.blocks.length
  live : ∀ n < g.blocks.length, ∀ t ∈ (g.block n).exit.successors, t ∉ dropped
  apart : ∀ n < g.blocks.length, ∀ k < g.blocks.length, n ≠ k →
    (g.block n).Before (g.block k) ∨ (g.block k).Before (g.block n)
  covers : ∀ k < m.length, (m.instr k).isMarker = false →
    ∃ n < g.blocks.length, n ∉ dropped ∧ (g.block n).start ≤ k ∧
      k < (g.block n).finish

/-- A jump has nothing in front of it, a branch nothing but its test, and a
block that runs into another one does something. -/
def Bare (m : Method) (b : Block) : Prop :=
  match b.exit with
  | .falls (some _) => m.acts b.start b.stop = true
  | .jumps _ => m.acts b.start b.stop = false
  | .branches .. => m.acts b.start (b.stop - 1) = false
  | _ => True

/-- A block ends behind its start. -/
theorem Cut.start_le_finish {b : Block} (h : Cut m g b) :
    b.start ≤ b.finish := by
  cases h with
  | falls exit le => simpa [Block.finish, exit] using le
  | jumps exit le => simpa [Block.finish, exit] using Nat.le_succ_of_le le
  | branches exit stop le => simp only [Block.finish, exit]; omega
  | returns exit stop le => simp only [Block.finish, exit]; omega

/-- A stretch in front of a block leads to where the block leads. -/
theorem Graph.Reaches.of_acts {i j : Nat} {next : Option Nat} (hij : i ≤ j)
    (hacts : m.acts i j = false) (h : g.Reaches m j next) :
    g.Reaches m i next := by
  cases next with
  | none => exact Method.acts_trans hacts h
  | some t => exact ⟨h.1, Nat.le_trans hij h.2.1, Method.acts_trans hacts h.2.2⟩

/-- A block ends at the same place when its targets are renamed. -/
theorem Block.finish_eq_of_mapTargets {b b' : Block} {f : Nat → Nat}
    (hexit : b'.exit = b.exit.mapTargets f) (hstop : b'.stop = b.stop) :
    b'.finish = b.finish := by
  unfold Block.finish
  rw [hexit, hstop]
  cases b.exit <;> rfl

namespace Graph

/-- Redirecting renames the targets of each block. -/
theorem block_redirectAll (g : Graph) (f : Nat → Nat) (n : Nat) :
    (g.redirectAll f).block n =
      { g.block n with exit := (g.block n).exit.mapTargets f } := by
  rcases Nat.lt_or_ge n g.blocks.length with hlt | hge
  · simp [redirectAll, block, List.getD_eq_getElem?_getD, hlt]
  · rw [block_of_length_le hge,
      block_of_length_le (by simpa [redirectAll] using hge)]
    rfl

/-- Redirecting makes no block. -/
theorem length_redirectAll (g : Graph) (f : Nat → Nat) :
    (g.redirectAll f).blocks.length = g.blocks.length := by
  simp [redirectAll]

/-- Going past empty blocks moves the targets of each block to where they
settle. -/
theorem block_bypass (g : Graph) (m : Method) (n : Nat) : (g.bypass m).block n =
    { g.block n with
      exit := (g.block n).exit.mapTargets (g.settle m g.blocks.length) } :=
  g.block_redirectAll _ n

/-- Going past empty blocks makes no block. -/
theorem length_bypass (g : Graph) (m : Method) :
    (g.bypass m).blocks.length = g.blocks.length := g.length_redirectAll _

/-- A block that does nothing runs into the next. -/
theorem bypass?_eq_some {b : Block} {next : Nat} (h : b.bypass? m = some next) :
    b.exit = .falls (some next) ∧ m.acts b.start b.stop = false := by
  unfold Block.bypass? at h
  split at h
  · rename_i exit _
    split at h
    · cases h
    · rename_i hacts
      cases h
      exact ⟨exit, by simpa using hacts⟩
  · cases h

/-- Redirecting edges leaves the blocks in their places. -/
theorem Reaches.redirectAll (f : Nat → Nat) {i : Nat} {next : Option Nat}
    (h : g.Reaches m i next) : (g.redirectAll f).Reaches m i next := by
  cases next with
  | none => exact h
  | some t =>
    obtain ⟨hlt, hle, hacts⟩ := h
    refine ⟨(g.length_redirectAll f).symm ▸ hlt, ?_, ?_⟩
    · rw [block_redirectAll]
      exact hle
    · rw [block_redirectAll]
      exact hacts

/-- A block that runs into another one reaches it. -/
def FallsRight (g : Graph) (m : Method) : Prop :=
  ∀ t < g.blocks.length, ∀ next, (g.block t).exit = .falls next →
    (g.block t).start ≤ (g.block t).stop ∧ g.Reaches m (g.block t).stop next

/-- Blocks that are well cut fall through to the right ones. -/
theorem WellCut.fallsRight (h : g.WellCut m) : g.FallsRight m :=
  fun t ht next hexit => by
  obtain ⟨le, _, leads⟩ := (h t ht).of_falls hexit
  exact ⟨le, leads⟩

/-- What leads to a block leads to where the block settles. -/
theorem Reaches.settle (hfalls : g.FallsRight m) (fuel : Nat) {i t : Nat}
    (h : g.Reaches m i (some t)) :
    g.Reaches m i (some (g.settle m fuel t)) := by
  induction fuel generalizing t with
  | zero => exact h
  | succ n ih =>
    rw [Graph.settle]
    split
    · rename_i next hnext
      obtain ⟨hexit, hacts⟩ := bypass?_eq_some hnext
      obtain ⟨le, leads⟩ := hfalls t h.1 _ hexit
      exact ih ((leads.of_acts le hacts).of_acts h.2.1 h.2.2)
    · exact h

/-- What leads to a block leads past it if it does nothing. -/
theorem Reaches.bypass (hfalls : g.FallsRight m) {i : Nat} {next : Option Nat}
    (h : g.Reaches m i next) :
    (g.bypass m).Reaches m i (next.map (g.settle m g.blocks.length)) := by
  cases next with
  | none => exact h
  | some t => exact (h.settle hfalls g.blocks.length).redirectAll _

/-- Every block settles on one that does something or ends the code. -/
theorem bypass?_settle
    (hforward : ∀ n t, (g.block n).exit = .falls (some t) → n < t) (fuel : Nat)
    {id : Nat} (hfuel : g.blocks.length ≤ id + fuel) :
    (g.block (g.settle m fuel id)).bypass? m = none := by
  induction fuel generalizing id with
  | zero =>
    rw [settle, block_of_length_le (by simpa using hfuel)]
    rfl
  | succ n ih =>
    rw [settle]
    split
    · rename_i next hnext
      have hlt := hforward id next (bypass?_eq_some hnext).1
      exact ih (by omega)
    · assumption

/-- The blocks that are to be dropped: they do nothing and run into another. -/
def idle (g : Graph) (m : Method) : List Nat :=
  (List.range g.blocks.length).filter fun id => ((g.block id).bypass? m).isSome

/-- A block that is not gone past is not idle. -/
theorem not_mem_idle {n : Nat} (h : (g.block n).bypass? m = none) :
    n ∉ g.idle m := by
  simp [idle, h]

/-- A block that is not idle is not gone past. -/
theorem bypass?_of_not_mem_idle {n : Nat} (hn : n < g.blocks.length)
    (h : n ∉ g.idle m) : (g.block n).bypass? m = none := by
  simpa [idle, hn] using h

/-- The blocks that are not idle are there and stay. -/
theorem stays_of_mem_busy (g : Graph) :
    ∀ id ∈ (List.range g.blocks.length).filter
    (fun id => !((g.block id).bypass? m).isSome),
    id < (g.bypass m).blocks.length ∧ id ∉ g.idle m := by
  intro id hid
  obtain ⟨hmem, hidle⟩ := List.mem_filter.1 hid
  refine ⟨(g.length_bypass m).symm ▸ List.mem_range.1 hmem, not_mem_idle ?_⟩
  simpa using hidle

end Graph

/-- Leading every edge past the blocks that do nothing keeps blocks cut
right. -/
theorem sliced_bypass (h : Built m g) : Sliced m (g.bypass m) (g.idle m) := by
  have hlen := g.length_bypass m
  have hblock := g.block_bypass m
  have hfinish (n : Nat) : ((g.bypass m).block n).finish = (g.block n).finish :=
    Block.finish_eq_of_mapTargets (by rw [hblock]) (by rw [hblock])
  have hbefore {n k : Nat} (hb : (g.block n).Before (g.block k)) :
      ((g.bypass m).block n).Before ((g.bypass m).block k) := by
    unfold Block.Before
    rw [hfinish, hblock, hblock]
    exact hb
  refine
    { wellCut := fun n hn => ?_
      fresh := fun n hn => by rw [hblock]; exact h.fresh n (hlen ▸ hn)
      start_lt := fun n hn => by rw [hblock]; exact h.start_lt n (hlen ▸ hn)
      bound := fun n hn => by
        rw [hlen]
        exact List.mem_range.1 (List.mem_filter.1 hn).1
      live := fun n hn t ht => ?_
      apart := fun n hn k hk hne => ?_
      covers := fun k hk hacts => ?_ }
  · rw [hblock]
    exact (h.wellCut n (hlen ▸ hn)).map rfl rfl rfl rfl fun i next _ hreaches =>
      hreaches.bypass h.wellCut.fallsRight
  · rw [hblock, Exit.successors_mapTargets] at ht
    obtain ⟨s, _, rfl⟩ := List.mem_map.1 ht
    exact Graph.not_mem_idle (Graph.bypass?_settle h.forward _ (by omega))
  · rcases Nat.lt_or_gt_of_ne hne with hlt | hgt
    · exact .inl (hbefore (h.before n k hlt (hlen ▸ hk)))
    · exact .inr (hbefore (h.before k n hgt (hlen ▸ hn)))
  · obtain ⟨n, hn, hstart, hlt⟩ := h.covers k hk hacts
    refine ⟨n, hlen ▸ hn, fun hmem =>
      ?_, by rw [hblock]; exact hstart, hfinish n ▸ hlt⟩
    -- a block that does nothing does not hold the instruction
    simp only [Graph.idle, List.mem_filter, Option.isSome_iff_exists] at hmem
    obtain ⟨_, next, hnext⟩ := hmem
    obtain ⟨hexit, hidle⟩ := Graph.bypass?_eq_some hnext
    have hstop : k < (g.block n).stop := by
      simpa [Block.finish, hexit] using hlt
    have hmarker := Method.acts_eq_false_iff.1 hidle k hstart hstop hk
    rw [hacts] at hmarker
    cases hmarker

/-- Blocks that stay and run into another one do something. -/
theorem lean_bypass (h : Built m g) {n : Nat}
    (hn : n < (g.bypass m).blocks.length) (hlive : n ∉ g.idle m) :
    Bare m ((g.bypass m).block n) ∨
      ((g.bypass m).exit n).isJump = true ∨
        ((g.bypass m).exit n).isBranch = true := by
  have hlen := g.length_bypass m
  have hblock := g.block_bypass m n
  have hbypass := Graph.bypass?_of_not_mem_idle (hlen ▸ hn) hlive
  rw [Graph.exit, hblock]
  cases h.wellCut n (hlen ▸ hn) with
  | @falls next exit =>
    refine .inl ?_
    simp only [Bare, exit, Exit.mapTargets]
    cases next with
    | none => trivial
    | some t =>
      simpa [Block.bypass?, exit, (h.fresh n (hlen ▸ hn)).2.1] using hbypass
  | jumps exit =>
    exact .inr (.inl (by simp [exit, Exit.mapTargets, Exit.isJump, Exit.jump?]))
  | branches exit =>
    exact .inr (.inr (by simp [exit, Exit.mapTargets, Exit.isBranch]))
  | returns exit => exact .inl (by simp [Bare, exit, Exit.mapTargets])

/-- A place to split a block at: right in front of its jump or its test, with
something before. -/
inductive SplitsAt (b : Block) (k : Nat) : Prop
  | jump {t : Nat} (exit : b.exit = .jumps t) (eq : k = b.stop)
      (lt : b.start < k)
  | branch {t : Nat} {o : Option Nat} (exit : b.exit = .branches t o)
      (eq : k + 1 = b.stop) (lt : b.start < k)

namespace SplitsAt

variable {b : Block} {k : Nat}

/-- A split is behind the start of its block. -/
theorem lt (h : SplitsAt b k) : b.start < k := by
  cases h <;> assumption

/-- A split is in front of the end of its block. -/
theorem lt_finish (h : SplitsAt b k) : k < b.finish := by
  cases h with
  | jump exit eq => simp only [Block.finish, exit]; omega
  | branch exit eq => simp only [Block.finish, exit]; omega

/-- The part in front is straight. -/
theorem straight (h : SplitsAt b k) (hcut : Cut m g b) :
    m.Straight b.start k := by
  cases h with
  | jump exit eq =>
    obtain ⟨_, straight, _⟩ := hcut.of_jumps exit
    exact eq ▸ straight
  | branch exit eq =>
    obtain ⟨j, f, op, l, target, stop, _, straight, _⟩ := hcut.of_branches exit
    obtain rfl : k = j := by omega
    exact straight

/-- A split is inside the method. -/
theorem lt_length (h : SplitsAt b k) (hcut : Cut m g b) : k < m.length := by
  cases h with
  | jump exit eq =>
    obtain ⟨_, _, l, _, goto, _⟩ := hcut.of_jumps exit
    exact eq ▸ Method.lt_length_of_instr goto (by simp)
  | branch exit eq =>
    obtain ⟨j, f, op, l, target, stop, _, _, call, _⟩ := hcut.of_branches exit
    obtain rfl : k = j := by omega
    exact Method.lt_length_of_instr call (by simp)

/-- The rest is cut right. -/
theorem cut (h : SplitsAt b k) (hcut : Cut m g b) :
    Cut m g { b with start := k, entry := .plain } := by
  have hlt := h.lt
  cases h with
  | jump exit eq =>
    obtain ⟨_, straight, l, target, goto, index, leads⟩ := hcut.of_jumps exit
    exact .jumps exit (Nat.le_of_eq eq)
      (fun j hj => straight j (Nat.le_trans (Nat.le_of_lt hlt) hj)) goto
      index leads
  | branch exit eq =>
    obtain ⟨j, f, op, l, target, stop, _, straight, call, answers, jump,
      equality, breakPoint, index, taken, fallen⟩ := hcut.of_branches exit
    obtain rfl : k = j := by omega
    exact .branches exit stop (Nat.le_refl k)
      (fun j hj => straight j (Nat.le_trans (Nat.le_of_lt hlt) hj)) call answers
      jump equality breakPoint index taken fallen

/-- A place to split at stays one when edges are redirected. -/
theorem map (h : SplitsAt b k) (f : Nat → Nat) :
    SplitsAt { b with exit := b.exit.mapTargets f } k := by
  cases h with
  | jump exit eq lt => exact .jump (by rw [exit, Exit.mapTargets]) eq lt
  | branch exit eq lt => exact .branch (by rw [exit, Exit.mapTargets]) eq lt

end SplitsAt

namespace Graph

variable {id k : Nat}

/-- Where the edges to a block lead once a part in front of it is split off. -/
def toFront (g : Graph) (id t : Nat) : Nat :=
  if t = id then g.blocks.length else t

/-- A split makes one block. -/
theorem length_split : (g.split id k).blocks.length = g.blocks.length + 1 := by
  simp [split, redirectAll, modify]

/-- The new block is the front of the one that is split. -/
theorem block_split_front :
    (g.split id k).block g.blocks.length =
      { id := g.blocks.length, breakPoint := k, start := (g.block id).start,
        stop := k,
        exit := .falls (some id), entry := (g.block id).entry } := by
  simp [split, block, redirectAll, modify, List.getD_eq_getElem?_getD]

/-- The blocks in front of the new one. -/
theorem block_split_of_lt {n : Nat} (hn : n < g.blocks.length) :
    (g.split id k).block n = ((g.redirectAll (g.toFront id)).modify id fun b =>
      { b with start := k, entry := .plain }).block n := by
  have hlen : n < ((g.redirectAll (g.toFront id)).modify id fun b =>
      { b with start := k, entry := .plain }).blocks.length := by
    rw [length_modify, length_redirectAll]
    exact hn
  simp only [split, block, List.getD_eq_getElem?_getD]
  exact congrArg (·.getD .blank) (List.getElem?_append_left hlen)

/-- The block that is split keeps its back. -/
theorem block_split_self (hid : id < g.blocks.length) :
    (g.split id k).block id =
      { g.block id with
        start := k, entry := .plain,
        exit := (g.block id).exit.mapTargets (g.toFront id) } := by
  rw [block_split_of_lt hid,
    block_modify_self _ _ ((g.length_redirectAll _).symm ▸ hid),
    block_redirectAll]

/-- The other blocks have their edges turned to the front. -/
theorem block_split_of_ne {n : Nat} (hn : n < g.blocks.length) (hne : n ≠ id) :
    (g.split id k).block n =
      { g.block n with
        exit := (g.block n).exit.mapTargets (g.toFront id) } := by
  rw [block_split_of_lt hn, block_modify_of_ne _ _ hne.symm, block_redirectAll]

/-- What leads to a block leads to the part in front of it, once that is split
off. -/
theorem Reaches.split (hid : id < g.blocks.length) {i : Nat} {next : Option Nat}
    (h : g.Reaches m i next) :
    (g.split id k).Reaches m i (next.map (g.toFront id)) := by
  cases next with
  | none => exact h
  | some t =>
    obtain ⟨hlt, hle, hacts⟩ := h
    by_cases ht : t = id
    · subst ht
      rw [Option.map_some, toFront, if_pos rfl]
      refine ⟨by rw [length_split]; omega, ?_, ?_⟩
      · rw [block_split_front]
        exact hle
      · rw [block_split_front]
        exact hacts
    · rw [Option.map_some, toFront, if_neg ht]
      refine ⟨by rw [length_split]; omega, ?_, ?_⟩
      · rw [block_split_of_ne hlt ht]
        exact hle
      · rw [block_split_of_ne hlt ht]
        exact hacts

end Graph

namespace Graph

variable {id k : Nat}

/-- A block is the one that was split, the new one in front of it, or
another. -/
theorem eq_or_ne_of_lt_split {n : Nat} (hid : id < g.blocks.length)
    (hn : n < (g.split id k).blocks.length) :
    n = id ∨ n = g.blocks.length ∨ n < g.blocks.length ∧ n ≠ id := by
  rw [length_split] at hn
  omega

theorem start_split_self (hid : id < g.blocks.length) :
    ((g.split id k).block id).start = k := by rw [block_split_self hid]

theorem finish_split_self (hid : id < g.blocks.length) :
    ((g.split id k).block id).finish = (g.block id).finish :=
  Block.finish_eq_of_mapTargets (by rw [block_split_self hid])
    (by rw [block_split_self hid])

theorem start_split_front :
    ((g.split id k).block g.blocks.length).start = (g.block id).start := by
  rw [block_split_front]

theorem finish_split_front :
    ((g.split id k).block g.blocks.length).finish = k := by
  rw [block_split_front]
  rfl

theorem start_split_of_ne {n : Nat} (hn : n < g.blocks.length) (hne : n ≠ id) :
    ((g.split id k).block n).start = (g.block n).start := by
  rw [block_split_of_ne hn hne]

theorem finish_split_of_ne {n : Nat} (hn : n < g.blocks.length) (hne : n ≠ id) :
    ((g.split id k).block n).finish = (g.block n).finish :=
  Block.finish_eq_of_mapTargets (by rw [block_split_of_ne hn hne])
    (by rw [block_split_of_ne hn hne])

end Graph

namespace Sliced

variable {id k : Nat}

/-- The part in front leads to the rest, and all else leads where it did. -/
theorem wellCut_split (h : Sliced m g dropped) (hid : id < g.blocks.length)
    (hk : SplitsAt (g.block id) k) : (g.split id k).WellCut m := by
  have hcut {n : Nat} (hn : n < g.blocks.length) : Cut m (g.split id k)
      { g.block n with exit := (g.block n).exit.mapTargets (g.toFront id) } :=
    (h.wellCut n hn).map rfl rfl rfl rfl fun i next _ hreaches =>
      hreaches.split hid
  intro n hn
  rcases Graph.eq_or_ne_of_lt_split hid hn with rfl | rfl | ⟨hn, hne⟩
  · rw [Graph.block_split_self hid]
    exact (hk.map _).cut (hcut hid)
  · have hlt : id < (g.split id k).blocks.length := by
      rw [Graph.length_split]
      omega
    rw [Graph.block_split_front]
    refine .falls rfl (Nat.le_of_lt hk.lt) (hk.straight (h.wellCut id hid))
      ⟨hlt, ?_, ?_⟩
    · exact Nat.le_of_eq (Graph.start_split_self hid).symm
    · rw [Graph.start_split_self hid]
      exact m.acts_self k
  · rw [Graph.block_split_of_ne hn hne]
    exact hcut hn

/-- No edge leads to a block that is to be dropped. -/
theorem live_split (h : Sliced m g dropped) (hid : id < g.blocks.length)
    (hlive : id ∉ dropped) {n t : Nat} (hn : n < (g.split id k).blocks.length)
    (ht : t ∈ ((g.split id k).block n).exit.successors) : t ∉ dropped := by
  have hedge {n t : Nat} (hn : n < g.blocks.length)
      (ht : t ∈ ((g.block n).exit.mapTargets (g.toFront id)).successors) :
      t ∉ dropped := by
    rw [Exit.successors_mapTargets] at ht
    obtain ⟨s, hs, rfl⟩ := List.mem_map.1 ht
    unfold Graph.toFront
    split
    · exact fun hmem => absurd (h.bound _ hmem) (Nat.lt_irrefl _)
    · exact h.live n hn s hs
  rcases Graph.eq_or_ne_of_lt_split hid hn with rfl | rfl | ⟨hn, hne⟩
  · rw [Graph.block_split_self hid] at ht
    exact hedge hid ht
  · rw [Graph.block_split_front] at ht
    obtain rfl : t = id := by simpa [Exit.successors] using ht
    exact hlive
  · rw [Graph.block_split_of_ne hn hne] at ht
    exact hedge hn ht

/-- A block is apart from both parts of another. -/
theorem apart_parts (h : Sliced m g dropped) (hid : id < g.blocks.length)
    (hk : SplitsAt (g.block id) k) {n : Nat} (hn : n < g.blocks.length)
    (hne : n ≠ id) :
    (((g.split id k).block n).Before ((g.split id k).block id) ∧
      ((g.split id k).block n).Before ((g.split id k).block g.blocks.length)) ∨
    (((g.split id k).block id).Before ((g.split id k).block n) ∧
      ((g.split id k).block g.blocks.length).Before
        ((g.split id k).block n)) := by
  have hlt := hk.lt
  have hltf := hk.lt_finish
  have hapart := h.apart n hn id hid hne
  simp only [Block.Before, Graph.start_split_self hid,
    Graph.finish_split_self hid, Graph.start_split_front,
    Graph.finish_split_front, Graph.start_split_of_ne hn hne,
    Graph.finish_split_of_ne hn hne] at hapart ⊢
  omega

/-- Blocks stay apart. -/
theorem apart_split (h : Sliced m g dropped) (hid : id < g.blocks.length)
    (hk : SplitsAt (g.block id) k) {n j : Nat}
    (hn : n < (g.split id k).blocks.length)
    (hj : j < (g.split id k).blocks.length) (hne : n ≠ j) :
    ((g.split id k).block n).Before ((g.split id k).block j) ∨
      ((g.split id k).block j).Before ((g.split id k).block n) := by
  have hpieces : ((g.split id k).block g.blocks.length).Before
      ((g.split id k).block id) := by
    have hlt := hk.lt
    have hltf := hk.lt_finish
    simp only [Block.Before, Graph.start_split_self hid,
      Graph.start_split_front, Graph.finish_split_front]
    omega
  rcases Graph.eq_or_ne_of_lt_split hid hn with rfl | rfl | ⟨hn', hnid⟩
  · rcases Graph.eq_or_ne_of_lt_split hid hj with rfl | rfl | ⟨hj', hjid⟩
    · exact absurd rfl hne
    · exact .inr hpieces
    · exact (h.apart_parts hid hk hj' hjid).symm.imp And.left And.left
  · rcases Graph.eq_or_ne_of_lt_split hid hj with rfl | rfl | ⟨hj', hjid⟩
    · exact .inl hpieces
    · exact absurd rfl hne
    · exact (h.apart_parts hid hk hj' hjid).symm.imp And.right And.right
  · rcases Graph.eq_or_ne_of_lt_split hid hj with rfl | rfl | ⟨hj', hjid⟩
    · exact (h.apart_parts hid hk hn' hnid).imp And.left And.left
    · exact (h.apart_parts hid hk hn' hnid).imp And.right And.right
    · simp only [Block.Before, Graph.start_split_of_ne hn' hnid,
        Graph.start_split_of_ne hj' hjid, Graph.finish_split_of_ne hn' hnid,
        Graph.finish_split_of_ne hj' hjid]
      exact h.apart n hn' j hj' hne

/-- What the block that was split has covered, one of its parts covers. -/
theorem covers_split (h : Sliced m g dropped) (hid : id < g.blocks.length)
    {j : Nat} (hj : j < m.length) (hacts : (m.instr j).isMarker = false) :
    ∃ n < (g.split id k).blocks.length, n ∉ dropped ∧
      ((g.split id k).block n).start ≤ j ∧
        j < ((g.split id k).block n).finish := by
  have hlen := @Graph.length_split g id k
  obtain ⟨n, hn, hnlive, hstartn, hltn⟩ := h.covers j hj hacts
  by_cases hne : n = id
  · subst hne
    rcases Nat.lt_or_ge j k with hjk | hkj
    · refine ⟨g.blocks.length, by omega, fun hmem => ?_, ?_, ?_⟩
      · exact absurd (h.bound _ hmem) (Nat.lt_irrefl _)
      · rwa [Graph.start_split_front]
      · rwa [Graph.finish_split_front]
    · refine ⟨n, by omega, hnlive, ?_, ?_⟩
      · rwa [Graph.start_split_self hid]
      · rwa [Graph.finish_split_self hid]
  · refine ⟨n, by omega, hnlive, ?_, ?_⟩
    · rwa [Graph.start_split_of_ne hn hne]
    · rwa [Graph.finish_split_of_ne hn hne]

end Sliced

/-- Splitting a block in front of its jump or test keeps blocks cut right. -/
theorem sliced_split {id k : Nat} (h : Sliced m g dropped)
    (hid : id < g.blocks.length) (hlive : id ∉ dropped)
    (hk : SplitsAt (g.block id) k) : Sliced m (g.split id k) dropped where
  wellCut := h.wellCut_split hid hk
  fresh n hn := by
    rcases Graph.eq_or_ne_of_lt_split hid hn with rfl | rfl | ⟨hn, hne⟩
    · rw [Graph.block_split_self hid]
      exact ⟨(h.fresh _ hid).1, rfl, (h.fresh _ hid).2.2⟩
    · rw [Graph.block_split_front]
      exact ⟨rfl, (h.fresh _ hid).2.1, rfl⟩
    · rw [Graph.block_split_of_ne hn hne]
      exact h.fresh n hn
  start_lt n hn := by
    rcases Graph.eq_or_ne_of_lt_split hid hn with rfl | rfl | ⟨hn, hne⟩
    · rw [Graph.start_split_self hid]
      exact hk.lt_length (h.wellCut _ hid)
    · rw [Graph.start_split_front]
      exact h.start_lt id hid
    · rw [Graph.start_split_of_ne hn hne]
      exact h.start_lt n hn
  bound n hn := by
    rw [Graph.length_split]
    exact Nat.lt_succ_of_lt (h.bound n hn)
  live _ hn _ ht := h.live_split hid hlive hn ht
  apart _ hn _ hj hne := h.apart_split hid hk hn hj hne
  covers _ hj hacts := h.covers_split hid hj hacts

/-- The operands of a test with its jump start at the test. -/
theorem splitPoint?_of_test {b : Block} {t k : Nat} {o : Option Nat}
    {f : Member} {op : Comparison} {l : Label} (exit : b.exit = .branches t o)
    (stop : b.stop = k + 1) (le : b.start ≤ k)
    (call : m.instr k = .call .static f) (answers : f.descriptor = "()Z")
    (jump : m.instr (k + 1) = .ifZero op l)
    (breakPoint : b.breakPoint = k + 1) : b.splitPoint? m = .ok (some k) := by
  have hk : k < m.length := Method.lt_length_of_instr call (by simp)
  have hlast : (m.slice b.start b.stop).reverse = (k, .call .static f) ::
      (m.slice b.start k).reverse := by
    rw [stop, Method.slice_append le (Nat.le_succ k),
      Method.slice_of_lt (Nat.lt_succ_self k) hk, Method.slice_self, call]
    simp
  have heffect : (Instr.call .static f).effect = .ok ⟨0, 1⟩ := by
    rw [Instr.effect, answers]
    rfl
  have hneed : (m.instr b.breakPoint).effect = .ok ⟨1, 0⟩ := by
    rw [breakPoint, jump]
    rfl
  simp only [Block.splitPoint?, exit, Block.operandsFrom?, hneed, hlast]
  change Decompiler.operandsFrom? 1 _ = _
  rw [Decompiler.operandsFrom?,
    if_neg (by simp [Instr.isMarker, Instr.control]), heffect]
  rfl

/-- Only jumps and tests are split. -/
theorem splitPoint?_eq_ok {b : Block} (hcut : Cut m g b) {k : Option Nat}
    (h : b.splitPoint? m = .ok k) :
    (∃ t, b.exit = .jumps t ∧ k = some b.stop) ∨
      (∃ t o, b.exit = .branches t o ∧ k = some (b.stop - 1)) ∨
      k = none ∧ b.exit.isJump = false ∧ b.exit.isBranch = false := by
  cases hcut with
  | falls exit =>
    simp only [Block.splitPoint?, exit] at h
    cases h
    exact .inr (.inr ⟨rfl, by rw [exit]; rfl, by rw [exit]; rfl⟩)
  | returns exit =>
    simp only [Block.splitPoint?, exit] at h
    cases h
    exact .inr (.inr ⟨rfl, by rw [exit]; rfl, by rw [exit]; rfl⟩)
  | jumps exit =>
    simp only [Block.splitPoint?, exit] at h
    cases h
    exact .inl ⟨_, exit, rfl⟩
  | @branches t target j o f op l exit stop le straight call answers jump
      equality breakPoint =>
    refine .inr (.inl ⟨t, o, exit, ?_⟩)
    cases (splitPoint?_of_test exit stop le call answers jump
      breakPoint).symm.trans h
    rw [stop]
    rfl

/-- A bare block stays bare when its targets are renamed. -/
theorem Bare.map {b b' : Block} (h : Bare m b) {f : Nat → Nat}
    (hexit : b'.exit = b.exit.mapTargets f) (hstart : b'.start = b.start)
    (hstop : b'.stop = b.stop) : Bare m b' := by
  unfold Bare at *
  rw [hexit, hstart, hstop]
  cases hb : b.exit with
  | falls next =>
    cases next with
    | none => trivial
    | some t => simpa [hb, Exit.mapTargets] using h
  | jumps t => simpa [hb, Exit.mapTargets] using h
  | branches t o => simpa [hb, Exit.mapTargets] using h
  | selects arms default => trivial
  | returns => trivial
  | throws => trivial

/-- Renaming targets makes and removes no jump. -/
theorem Exit.isJump_mapTargets (f : Nat → Nat) (e : Exit) :
    (e.mapTargets f).isJump = e.isJump := by
  cases e <;> rfl

/-- Renaming targets makes and removes no branch. -/
theorem Exit.isBranch_mapTargets (f : Nat → Nat) (e : Exit) :
    (e.mapTargets f).isBranch = e.isBranch := by
  cases e <;> rfl

/-- Renaming targets makes and removes no switch. -/
theorem Exit.isSwitch_mapTargets (f : Nat → Nat) (e : Exit) :
    (e.mapTargets f).isSwitch = e.isSwitch := by
  cases e <;> rfl

/-- All blocks that stay are lean but for some jumps and branches. -/
def Leaned (m : Method) (g : Graph) (dropped rest : List Nat) : Prop :=
  ∀ n < g.blocks.length, n ∉ dropped →
    Bare m (g.block n) ∨ n ∈ rest ∧
    ((g.exit n).isJump = true ∨ (g.exit n).isBranch = true)

/-- A block that is to be split becomes lean, and so is the part in front. -/
theorem leaned_split {id k : Nat} {rest : List Nat} (hid : id < g.blocks.length)
    (h : Leaned m g dropped (id :: rest)) (hk : SplitsAt (g.block id) k)
    (hacts : m.acts (g.block id).start k = true) :
    Leaned m (g.split id k) dropped rest := by
  intro n hn hlive
  rw [Graph.length_split] at hn
  rcases Nat.lt_or_ge n g.blocks.length with hlt | hge
  · by_cases hne : n = id
    · subst hne
      refine .inl ?_
      rw [g.block_split_self hid]
      cases hk with
      | jump exit eq => simp [Bare, exit, Exit.mapTargets, eq, m.acts_self]
      | branch exit eq => simp [Bare, exit, Exit.mapTargets, ← eq, m.acts_self]
    · have hblock := g.block_split_of_ne (k := k) hlt hne
      rcases h n hlt hlive with hlean | ⟨hmem, hkind⟩
      · exact .inl (hlean.map (by rw [hblock]) (by rw [hblock]) (by rw [hblock]))
      · refine .inr ⟨(List.mem_cons.1 hmem).resolve_left hne, ?_⟩
        rw [Graph.exit, hblock, Exit.isJump_mapTargets,
          Exit.isBranch_mapTargets]
        exact hkind
  · obtain rfl : n = g.blocks.length := by omega
    refine .inl ?_
    rw [g.block_split_front]
    exact hacts

namespace Graph

/-- A block that has its turn is split where its operands start, if there is
anything in front of them. -/
theorem isolate_eq_ok {id : Nat} (hok : g.isolate m id = .ok g') :
    (∃ point, (g.block id).splitPoint? m = .ok point ∧
        (∀ k ∈ point, m.acts (g.block id).start k = false) ∧ g' = g) ∨
      ∃ k, (g.block id).splitPoint? m = .ok (some k) ∧
        m.acts (g.block id).start k = true ∧ g' = g.split id k := by
  obtain ⟨point, hpoint, hok⟩ := bind_eq_ok.1 hok
  cases point with
  | none =>
    cases hok
    exact .inl ⟨none, hpoint, (fun k hk => by cases hk), rfl⟩
  | some k =>
    by_cases hacts : m.acts (g.block id).start k = true
    · simp only [hacts, if_true] at hok
      cases hok
      exact .inr ⟨k, hpoint, hacts, rfl⟩
    · simp only [hacts] at hok
      cases hok
      refine .inl ⟨some k, hpoint, fun j hj => ?_, rfl⟩
      cases hj
      simpa using hacts

/-- What every split keeps is kept while blocks that stay have their turns. -/
theorem isolateAll_keeps {P : Graph → Prop} {ids : List Nat} (h : P g)
    (hids : ∀ id ∈ ids, id < g.blocks.length ∧ id ∉ dropped)
    (hsplit : ∀ (g : Graph) (id k : Nat), P g → id < g.blocks.length →
      id ∉ dropped → (g.block id).splitPoint? m = .ok (some k) →
        m.acts (g.block id).start k = true → P (g.split id k))
    (hok : g.isolateAll m ids = .ok g') : P g' := by
  induction ids generalizing g with
  | nil =>
    cases hok
    exact h
  | cons id ids ih =>
    obtain ⟨g₁, hfirst, hrest⟩ := bind_eq_ok.1 hok
    have hlater (n : Nat) (hn : n ∈ ids) := hids n (List.mem_cons_of_mem _ hn)
    obtain ⟨hid, hlive⟩ := hids id List.mem_cons_self
    obtain ⟨_, _, _, rfl⟩ | ⟨k, hk, hacts, rfl⟩ := isolate_eq_ok hfirst
    · exact ih h hlater hrest
    · refine ih (hsplit _ id k h hid hlive hk hacts) (fun n hn => ?_) hrest
      rw [length_split]
      exact ⟨Nat.lt_succ_of_lt (hlater n hn).1, (hlater n hn).2⟩

end Graph

/-- Taking the calls off the front of a block keeps blocks cut right and makes
the block lean. -/
theorem sliced_isolate {id : Nat} {rest : List Nat} (h : Sliced m g dropped)
    (hid : id < g.blocks.length) (hlive : id ∉ dropped)
    (hlean : Leaned m g dropped (id :: rest)) (hok : g.isolate m id = .ok g') :
    Sliced m g' dropped ∧ Leaned m g' dropped rest ∧
      g.blocks.length ≤ g'.blocks.length := by
  -- nothing is split off a block that is lean already
  have hsame (hthis : Bare m (g.block id)) : Leaned m g dropped rest := by
    intro n hn hnlive
    rcases hlean n hn hnlive with hl | ⟨hmem, hkind⟩
    · exact .inl hl
    · rcases List.mem_cons.1 hmem with rfl | hmem
      · exact .inl hthis
      · exact .inr ⟨hmem, hkind⟩
  obtain ⟨point, hk, hidle, rfl⟩ | ⟨k, hk, hacts, rfl⟩ :=
    Graph.isolate_eq_ok hok
  · refine ⟨h, hsame ?_, Nat.le_refl _⟩
    rcases splitPoint?_eq_ok (h.wellCut id hid) hk with
      ⟨t, hexit, rfl⟩ | ⟨t, o, hexit, rfl⟩ | ⟨_, hjump, hbranch⟩
    · simpa [Bare, hexit] using hidle _ rfl
    · simpa [Bare, hexit] using hidle _ rfl
    · refine (hlean id hid hlive).resolve_right fun ⟨_, hkind⟩ => ?_
      simp only [Graph.exit, hjump, hbranch] at hkind
      exact hkind.elim Bool.noConfusion Bool.noConfusion
  · have hat : SplitsAt (g.block id) k := by
      rcases splitPoint?_eq_ok (h.wellCut id hid) hk with
        ⟨t, hexit, hstop⟩ | ⟨t, o, hexit, hstop⟩ | ⟨hnone, _⟩
      · cases hstop
        exact .jump hexit rfl (Method.lt_of_acts hacts)
      · cases hstop
        obtain ⟨j, _, _, _, _, hj, _⟩ := (h.wellCut id hid).of_branches hexit
        exact .branch hexit (by omega) (Method.lt_of_acts hacts)
      · cases hnone
    exact ⟨sliced_split h hid hlive hat, leaned_split hid hlean hat hacts,
      by rw [Graph.length_split]; omega⟩

/-- Taking the calls off the front of every jump and test leaves lean blocks. -/
theorem sliced_isolateAll {ids : List Nat} (h : Sliced m g dropped)
    (hids : ∀ id ∈ ids, id < g.blocks.length ∧ id ∉ dropped)
    (hlean : Leaned m g dropped ids) (hok : g.isolateAll m ids = .ok g') :
    Sliced m g' dropped ∧ Leaned m g' dropped [] := by
  induction ids generalizing g with
  | nil =>
    cases hok
    exact ⟨h, hlean⟩
  | cons id ids ih =>
    obtain ⟨g₁, hfirst, hok⟩ := bind_eq_ok.1 hok
    have hid := hids id List.mem_cons_self
    obtain ⟨hsliced, hleaned, hlen⟩ := sliced_isolate h hid.1 hid.2 hlean hfirst
    refine ih hsliced (fun n hn => ?_) hleaned hok
    have hn := hids n (List.mem_cons_of_mem _ hn)
    exact ⟨Nat.lt_of_lt_of_le hn.1 hlen, hn.2⟩

/-- What is known of a tidy graph of call code. -/
structure Tidied (m : Method) (g : Graph) : Prop where
  wellCut : g.WellCut m
  fresh : ∀ n < g.blocks.length, (g.block n).IsFresh n
  start_lt : ∀ n < g.blocks.length, (g.block n).start < m.length
  lean : ∀ n < g.blocks.length, Bare m (g.block n)
  before : ∀ n k, n < k → k < g.blocks.length → (g.block n).Before (g.block k)
  /-- The code starts with the first block. -/
  first : g.Reaches m 0 (if 0 < g.blocks.length then some 0 else none)
  /-- Behind a block the next one starts. -/
  next : ∀ n < g.blocks.length,
    g.Reaches m (g.block n).finish (if n + 1 < g.blocks.length then some (n + 1)
      else none)

/-- The blocks of a sliced graph have their numbers. -/
theorem Sliced.numbered (h : Sliced m g dropped) (n : Nat)
    (hn : n < g.blocks.length) :
    (g.block n).id = n := (h.fresh n hn).1

namespace Graph

/-- Every block has its place for a number. -/
def Numbered (g : Graph) : Prop := ∀ n < g.blocks.length, (g.block n).id = n

/-- The blocks that are left, in the order of their instructions. -/
def kept (g : Graph) (dropped : List Nat) : List Block :=
  Order.sortOnPair (fun b => (b.start, b.breakPoint))
    (g.blocks.filter fun b => !dropped.contains b.id)

/-- The new number of a block. -/
def renumbered (g : Graph) (dropped : List Nat) (id : Nat) : Nat :=
  (g.kept dropped).findIdx (·.id == id)

/-- Renumbering leaves the blocks that are kept. -/
theorem length_renumber :
    (g.renumber dropped).blocks.length = (g.kept dropped).length := by
  simp [renumber, redirectAll, kept]

/-- A block that is kept gets its position as its number. -/
theorem block_renumber {n : Nat} {b : Block}
    (h : (g.kept dropped)[n]? = some b) :
    (g.renumber dropped).block n =
      { b with id := n, exit := b.exit.mapTargets (g.renumbered dropped) } := by
  apply block_eq_of_getElem?
  have h' := h
  unfold kept at h'
  simp only [renumber, redirectAll, List.getElem?_map, List.getElem?_zipIdx, h',
    Option.map_some, Nat.zero_add]
  rfl

/-- Linking back makes no block. -/
theorem length_linkBack (g : Graph) :
    g.linkBack.blocks.length = g.blocks.length := by
  simp [linkBack]

/-- A block that stays, with its new number and edges to new numbers. -/
theorem block_linkBack_renumber {n : Nat} {b : Block}
    (h : (g.kept dropped)[n]? = some b) :
    ∃ preds, (g.renumber dropped).linkBack.block n =
      { b with
        id := n, exit := b.exit.mapTargets (g.renumbered dropped), preds } := by
  obtain ⟨hn, _⟩ := List.getElem?_eq_some_iff.1 h
  rw [← length_renumber] at hn
  have hget := List.getElem?_eq_getElem hn
  obtain ⟨preds, hlinked⟩ := getElem?_linkBack hget
  refine ⟨preds, (block_eq_of_getElem? hlinked).trans ?_⟩
  rw [← block_eq_of_getElem? hget, block_renumber h]

/-- A block that is not dropped is kept. -/
theorem block_mem_kept (h : g.Numbered) {n : Nat} (hn : n < g.blocks.length)
    (hlive : n ∉ dropped) : g.block n ∈ g.kept dropped := by
  refine (Order.perm_sortOnPair _ _).mem_iff.2 (List.mem_filter.2 ⟨?_, ?_⟩)
  · rw [block, List.getD_eq_getElem?_getD, List.getElem?_eq_getElem hn,
      Option.getD_some]
    exact List.getElem_mem hn
  · rw [h n hn]
    simpa using hlive

/-- A block that is kept is one of the graph and not dropped. -/
theorem exists_of_mem_kept (h : g.Numbered) {b : Block}
    (hb : b ∈ g.kept dropped) :
    ∃ n < g.blocks.length, n ∉ dropped ∧ b = g.block n := by
  obtain ⟨hmem, hlive⟩ :=
    List.mem_filter.1 ((Order.perm_sortOnPair _ _).mem_iff.1 hb)
  obtain ⟨n, hn, rfl⟩ := List.mem_iff_getElem.1 hmem
  have hblock : g.block n = g.blocks[n] :=
    block_eq_of_getElem? (List.getElem?_eq_getElem hn)
  refine ⟨n, hn, ?_, hblock.symm⟩
  rw [← hblock, h n hn] at hlive
  simpa using hlive

/-- A block that stays is found under its new number. -/
theorem getElem?_kept_renumbered (h : g.Numbered) {n : Nat}
    (hn : n < g.blocks.length) (hlive : n ∉ dropped) :
    (g.kept dropped)[g.renumbered dropped n]? = some (g.block n) := by
  have hfound : ∃ b ∈ g.kept dropped, (b.id == n) = true :=
    ⟨g.block n, block_mem_kept h hn hlive, by simpa using h n hn⟩
  have hlt := List.findIdx_lt_length_of_exists hfound
  have hid := List.findIdx_getElem (w := hlt)
  obtain ⟨k, hk, _, hblock⟩ := exists_of_mem_kept h (List.getElem_mem hlt)
  rw [hblock, h k hk, beq_iff_eq] at hid
  subst hid
  rw [renumbered, List.getElem?_eq_getElem hlt, hblock]

/-- Every number is that of a block that stays. -/
theorem exists_of_lt_length_kept (h : g.Numbered) {n : Nat}
    (hn : n < (g.kept dropped).length) :
    ∃ p < g.blocks.length, p ∉ dropped ∧
      (g.kept dropped)[n]? = some (g.block p) := by
  obtain ⟨p, hp, hlive, heq⟩ := exists_of_mem_kept h (List.getElem_mem hn)
  exact ⟨p, hp, hlive, heq ▸ List.getElem?_eq_getElem hn⟩

/-- Each number after renumbering is that of a block that is kept. -/
theorem exists_of_lt_renumber (h : g.Numbered) {n : Nat}
    (hn : n < (g.renumber dropped).linkBack.blocks.length) :
    ∃ p < g.blocks.length, p ∉ dropped ∧
      (g.kept dropped)[n]? = some (g.block p) := by
  rw [length_linkBack, length_renumber] at hn
  exact exists_of_lt_length_kept h hn

section Renumbered

variable {n : Nat} {b : Block}

/-- A block that is kept has a number after renumbering. -/
theorem lt_length_renumber (h : (g.kept dropped)[n]? = some b) :
    n < (g.renumber dropped).linkBack.blocks.length := by
  rw [length_linkBack, length_renumber]
  exact (List.getElem?_eq_some_iff.1 h).1

/-- A block that is kept starts where it did. -/
theorem start_renumber (h : (g.kept dropped)[n]? = some b) :
    ((g.renumber dropped).linkBack.block n).start = b.start := by
  obtain ⟨preds, heq⟩ := block_linkBack_renumber h
  rw [heq]

/-- A block that is kept ends where it did. -/
theorem finish_renumber (h : (g.kept dropped)[n]? = some b) :
    ((g.renumber dropped).linkBack.block n).finish = b.finish := by
  obtain ⟨preds, heq⟩ := block_linkBack_renumber h
  exact Block.finish_eq_of_mapTargets (by rw [heq]) (by rw [heq])

end Renumbered

/-- What leads to a block that stays leads to it under its new number. -/
theorem Reaches.renumber (hnumbered : g.Numbered) {i : Nat} {next : Option Nat}
    (h : g.Reaches m i next) (hlive : ∀ t ∈ next, t ∉ dropped) :
    (g.renumber dropped).linkBack.Reaches m i
      (next.map (g.renumbered dropped)) := by
  cases next with
  | none => exact h
  | some t =>
    have htarget := getElem?_kept_renumbered hnumbered h.1 (hlive t rfl)
    exact ⟨lt_length_renumber htarget, (start_renumber htarget) ▸ h.2.1,
      (start_renumber htarget) ▸ h.2.2⟩

/-- Of two blocks that stay the one with the smaller number does not start
later. -/
theorem exists_of_lt_kept (h : g.Numbered) {n k : Nat} {b c : Block}
    (hnk : n < k) (hb : (g.kept dropped)[n]? = some b)
    (hc : (g.kept dropped)[k]? = some c) :
    ∃ p q, (p < g.blocks.length ∧ p ∉ dropped) ∧
      (q < g.blocks.length ∧ q ∉ dropped) ∧ p ≠ q ∧ b = g.block p ∧
        c = g.block q ∧ b.start ≤ c.start := by
  obtain ⟨hn, rfl⟩ := List.getElem?_eq_some_iff.1 hb
  obtain ⟨hk, rfl⟩ := List.getElem?_eq_some_iff.1 hc
  have hsorted := List.pairwise_iff_getElem.1
    (Order.pairwise_sortOnPair (fun b : Block => (b.start, b.breakPoint)) _) n k
    hn hk hnk
  have hids : (g.kept dropped).Pairwise fun a b => a.id ≠ b.id := by
    refine ((Order.perm_sortOnPair _ _).pairwise_iff Ne.symm).2
      (List.Pairwise.filter _ ?_)
    refine List.pairwise_iff_getElem.2 fun i j hi hj hij => ?_
    have hblock (i : Nat) (hi : i < g.blocks.length) :
        g.blocks[i] = g.block i :=
      (block_eq_of_getElem? (List.getElem?_eq_getElem hi)).symm
    rw [hblock i hi, hblock j hj, h i hi, h j hj]
    omega
  have hdiffer := List.pairwise_iff_getElem.1 hids n k hn hk hnk
  obtain ⟨p, hp, hplive, hbp⟩ := exists_of_mem_kept h (List.getElem_mem hn)
  obtain ⟨q, hq, hqlive, hcq⟩ := exists_of_mem_kept h (List.getElem_mem hk)
  refine ⟨p, q, ⟨hp, hplive⟩, ⟨hq, hqlive⟩, ?_, hbp, hcq, hsorted⟩
  rintro rfl
  rw [hbp, hcq] at hdiffer
  exact hdiffer rfl

/-- The blocks that stay follow one another. -/
theorem before_kept (h : Sliced m g dropped) {n k : Nat} {b c : Block}
    (hnk : n < k) (hb : (g.kept dropped)[n]? = some b)
    (hc : (g.kept dropped)[k]? = some c) : b.Before c := by
  obtain ⟨p, q, hp, hq, hne, rfl, rfl, hle⟩ :=
    exists_of_lt_kept h.numbered hnk hb hc
  rcases h.apart p hp.1 q hq.1 hne with hbefore | hafter
  · exact hbefore
  · exact absurd hafter.2 (Nat.not_lt.2 hle)

end Graph

/-- Where no block stands in between nothing happens. -/
theorem acts_between {i j : Nat}
    (hcovers : ∀ k < m.length, (m.instr k).isMarker = false →
      ∃ n < g.blocks.length, (g.block n).start ≤ k ∧ k < (g.block n).finish)
    (h : ∀ n < g.blocks.length, (g.block n).finish ≤ i ∨
      j ≤ (g.block n).start) :
    m.acts i j = false := by
  refine Method.acts_eq_false_iff.2 fun k hik hkj hk => ?_
  cases hacts : (m.instr k).isMarker with
  | true => rfl
  | false =>
    obtain ⟨n, hn, hstart, hlt⟩ := hcovers k hk hacts
    have hn := h n hn
    omega

/-- What the blocks of a graph do is what the code does, block by block. -/
structure Graph.InOrder (g : Graph) (m : Method) : Prop where
  before : ∀ n k, n < k → k < g.blocks.length → (g.block n).Before (g.block k)
  start_le : ∀ n < g.blocks.length, (g.block n).start ≤ (g.block n).finish
  covers : ∀ k < m.length, (m.instr k).isMarker = false →
    ∃ n < g.blocks.length, (g.block n).start ≤ k ∧ k < (g.block n).finish

namespace Graph.InOrder

/-- The code starts with the first block. -/
theorem reaches_first (h : g.InOrder m) :
    g.Reaches m 0 (if 0 < g.blocks.length then some 0 else none) := by
  split
  · rename_i hpos
    refine ⟨hpos, Nat.zero_le _, acts_between h.covers fun n hn => .inr ?_⟩
    rcases Nat.eq_zero_or_pos n with rfl | hn0
    · exact Nat.le_refl _
    · exact Nat.le_of_lt (h.before 0 n hn0 hn).2
  · rename_i hempty
    exact acts_between h.covers fun n hn => absurd (Nat.zero_lt_of_lt hn) hempty

/-- Behind a block the next one starts. -/
theorem reaches_next (h : g.InOrder m) {n : Nat} (hn : n < g.blocks.length) :
    g.Reaches m (g.block n).finish (if n + 1 < g.blocks.length then some (n + 1)
        else none) := by
  have hpast : ∀ k < g.blocks.length, k ≤ n →
      (g.block k).finish ≤ (g.block n).finish := by
    intro k hk hkn
    rcases Nat.eq_or_lt_of_le hkn with rfl | hlt
    · exact Nat.le_refl _
    · exact Nat.le_trans (h.before k n hlt hn).1 (h.start_le n hn)
  split
  · rename_i hnext
    refine ⟨hnext, (h.before n (n + 1) (Nat.lt_succ_self n) hnext).1,
      acts_between h.covers fun k hk => ?_⟩
    rcases Nat.lt_or_ge n k with hnk | hkn
    · rcases Nat.eq_or_lt_of_le (Nat.succ_le_of_lt hnk) with rfl | hlt
      · exact .inr (Nat.le_refl _)
      · exact .inr (Nat.le_of_lt (h.before (n + 1) k hlt hk).2)
    · exact .inl (hpast k hk hkn)
  · rename_i hlast
    exact acts_between h.covers fun k hk => .inl (hpast k hk (by omega))

end Graph.InOrder

/-- The blocks that stay are numbered in the order of their instructions. -/
theorem Sliced.inOrder (h : Sliced m g dropped) :
    (g.renumber dropped).linkBack.InOrder m where
  before n k hnk hk := by
    obtain ⟨p, _, _, hp⟩ :=
      Graph.exists_of_lt_renumber h.numbered (Nat.lt_trans hnk hk)
    obtain ⟨q, _, _, hq⟩ := Graph.exists_of_lt_renumber h.numbered hk
    have hpq := Graph.before_kept h hnk hp hq
    unfold Block.Before
    rw [Graph.finish_renumber hp, Graph.start_renumber hp,
      Graph.start_renumber hq]
    exact hpq
  start_le n hn := by
    obtain ⟨p, hp, _, hget⟩ := Graph.exists_of_lt_renumber h.numbered hn
    rw [Graph.start_renumber hget, Graph.finish_renumber hget]
    exact (h.wellCut p hp).start_le_finish
  covers k hk hacts := by
    obtain ⟨n, hn, hlive, hle, hlt⟩ := h.covers k hk hacts
    have hget := Graph.getElem?_kept_renumbered h.numbered hn hlive
    exact ⟨_, Graph.lt_length_renumber hget, (Graph.start_renumber hget) ▸ hle,
      (Graph.finish_renumber hget) ▸ hlt⟩

/-- Numbering the blocks that stay makes a tidy graph of them. -/
theorem tidied_of_sliced (h : Sliced m g dropped)
    (hlean : Leaned m g dropped []) :
    Tidied m (g.renumber dropped).linkBack := by
  refine
    { wellCut := fun n hn => ?_
      fresh := fun n hn => ?_
      start_lt := fun n hn => ?_
      lean := fun n hn => ?_
      before := h.inOrder.before
      first := h.inOrder.reaches_first
      next := fun n hn => h.inOrder.reaches_next hn }
  · obtain ⟨p, hp, hlive, hget⟩ := Graph.exists_of_lt_renumber h.numbered hn
    obtain ⟨preds, heq⟩ := Graph.block_linkBack_renumber hget
    exact (h.wellCut p hp).map (f := g.renumbered dropped) (by rw [heq])
      (by rw [heq]) (by rw [heq]) (by rw [heq]) fun i next hnext hreaches =>
        hreaches.renumber h.numbered fun t ht => h.live p hp t (hnext t ht)
  · obtain ⟨p, hp, _, hget⟩ := Graph.exists_of_lt_renumber h.numbered hn
    obtain ⟨preds, heq⟩ := Graph.block_linkBack_renumber hget
    rw [heq]
    exact ⟨rfl, (h.fresh p hp).2⟩
  · obtain ⟨p, hp, _, hget⟩ := Graph.exists_of_lt_renumber h.numbered hn
    exact (Graph.start_renumber hget) ▸ h.start_lt p hp
  · obtain ⟨p, hp, hlive, hget⟩ := Graph.exists_of_lt_renumber h.numbered hn
    obtain ⟨preds, heq⟩ := Graph.block_linkBack_renumber hget
    rcases hlean p hp hlive with hl | ⟨hmem, _⟩
    · exact hl.map (f := g.renumbered dropped) (by rw [heq]) (by rw [heq])
        (by rw [heq])
    · cases hmem

/-- The blocks that are not idle are there to be split, and all others are lean
already. -/
theorem leaned_start {built : Graph} (h : Built m built) {ids : List Nat}
    (hids : ids = (List.range built.blocks.length).filter fun id =>
      !((built.block id).bypass? m).isSome) :
    (∀ id ∈ ids, id < (built.bypass m).blocks.length ∧ id ∉ built.idle m) ∧
      Leaned m (built.bypass m) (built.idle m) ids := by
  subst hids
  have hlen := built.length_bypass m
  refine ⟨built.stays_of_mem_busy, fun n hn hlive => ?_⟩
  refine (lean_bypass h hn hlive).imp_right fun hkind =>
    ⟨List.mem_filter.2 ⟨?_, ?_⟩, hkind⟩
  · exact List.mem_range.2 (hlen ▸ hn)
  · simp [Graph.bypass?_of_not_mem_idle (hlen ▸ hn) hlive]

/-- **Tidy graphs.**  The tidy graph of call code is cut right and its blocks
are lean. -/
theorem tidied_of_tidy {built tidy : Graph} (hcode : isCallCode m.instrs = true)
    (hranges : m.ranges = []) (hbuilt : m.graph = .ok built)
    (htidy : built.tidy m = .ok tidy) : Tidied m tidy := by
  have h := built_of_graph hcode hranges hbuilt
  obtain ⟨isolated, hisolated, htidy⟩ := bind_eq_ok.1 htidy
  cases htidy
  obtain ⟨hids, hlean⟩ := leaned_start h rfl
  obtain ⟨hsliced, hleaned⟩ :=
    sliced_isolateAll (sliced_bypass h) hids hlean hisolated
  exact tidied_of_sliced hsliced hleaned

end Decompiler
