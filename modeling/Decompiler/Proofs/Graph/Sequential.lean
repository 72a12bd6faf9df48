import Decompiler.Proofs.Graph.Edges
import Decompiler.Proofs.Graph.SameRuns

/-!
# The order of the blocks of a tidy graph

A branch that is not taken runs ahead, into the block that starts next.  In the
graph that is built of a method this is the block with the next number.  Making
the graph tidy drops blocks that do nothing, moves the front of others into
blocks of their own and numbers all blocks anew; the next number is still the
block that a branch runs into.

* `Graph.Sequential`: the order of blocks, for methods without switches and
  exception ranges.
* `Spaced`: no two blocks start together, and a jump has its place; kept on the
  way to a tidy graph of every method.
* `InTurn`: what is kept besides; `inTurn_bypass`, `inTurn_isolateAll`.
* `sequential_of_tidy`: tidy graphs are sequential.
-/

namespace Decompiler

/-- Whether no instruction of a method is a switch. -/
def Method.HasNoSwitch (m : Method) : Prop :=
  ∀ i ∈ m.instrs, i.switchTable? = none

instance (m : Method) : Decidable m.HasNoSwitch :=
  inferInstanceAs (Decidable (∀ i ∈ m.instrs, i.switchTable? = none))

/-- A block that control enters and leaves without handlers and switches, and
that holds no structure yet. -/
structure Block.IsPlain (b : Block) : Prop where
  entry : b.entry = .plain
  folded : b.folded = none
  noSwitch : b.exit.isSwitch = false

/-- A graph of plain blocks where a branch that is not taken runs into the next
block. -/
structure Graph.Sequential (g : Graph) : Prop where
  plain : ∀ n, (g.block n).IsPlain
  ahead : ∀ n t o, g.exit n = .branches t (some o) → o = n + 1

/-- Whether a block is there and not to be dropped. -/
def Graph.Stays (g : Graph) (dropped : List Nat) (n : Nat) : Prop :=
  n < g.blocks.length ∧ n ∉ dropped

/-- A graph on the way to a sequential one.  No two blocks that stay start
together, none starts between the operands of a jump and the jump, and a branch
runs into the one that starts next. -/
structure InTurn (g : Graph) (dropped : List Nat) : Prop where
  plain : ∀ n < g.blocks.length, (g.block n).IsPlain
  apart : ∀ n k, g.Stays dropped n → g.Stays dropped k →
    (g.block n).start = (g.block k).start → n = k
  room : ∀ n k, g.Stays dropped n → g.Stays dropped k →
    (g.block n).exit.hasJump = true → (g.block n).start < (g.block k).start →
    (g.block n).stop < (g.block k).start
  ahead : ∀ n t o, g.Stays dropped n → (g.block n).exit = .branches t (some o) →
    (g.block n).start < (g.block o).start ∧ ∀ k, g.Stays dropped k →
      (g.block n).start < (g.block k).start →
      (g.block o).start ≤ (g.block k).start

/-- A graph on the way to a tidy one, whatever its method: no two blocks that
stay start together, and none starts between the operands of a jump and the
jump. -/
structure Spaced (g : Graph) (dropped : List Nat) : Prop where
  apart : ∀ n k, g.Stays dropped n → g.Stays dropped k →
    (g.block n).start = (g.block k).start → n = k
  room : ∀ n k, g.Stays dropped n → g.Stays dropped k →
    (g.block n).exit.hasJump = true → (g.block n).start < (g.block k).start →
    (g.block n).stop < (g.block k).start

variable {m : Method} {g g' : Graph} {dropped : List Nat}

/-- Blocks in turn are spaced. -/
theorem InTurn.spaced (h : InTurn g dropped) : Spaced g dropped :=
  ⟨h.apart, h.room⟩

/-- A blank block is plain. -/
theorem Block.isPlain_blank : Block.blank.IsPlain := ⟨rfl, rfl, rfl⟩

/-! ## The graph that is built -/

/-- In a method without switches no instruction has a table. -/
theorem Method.HasNoSwitch.switchTable?_instr (h : m.HasNoSwitch) (i : Nat) :
    (m.instr i).switchTable? = none := by
  rcases Nat.lt_or_ge i m.instrs.length with hlt | hge
  · rw [Method.instr, List.getD_eq_getElem?_getD, List.getElem?_eq_getElem hlt,
      Option.getD_some]
    exact h _ (List.getElem_mem hlt)
  · rw [Method.instr_of_length_le hge]
    rfl

namespace Graph

/-- No block settles in front of itself. -/
theorem le_settle (hforward : ∀ n t, (g.block n).exit = .falls (some t) → n < t)
    (fuel id : Nat) : id ≤ g.settle m fuel id := by
  induction fuel generalizing id with
  | zero => exact Nat.le_refl _
  | succ n ih =>
    rw [settle]
    split
    · rename_i next hnext
      exact Nat.le_trans (Nat.le_of_lt (hforward _ _ (bypass?_eq_some hnext).1))
        (ih next)
    · exact Nat.le_refl _

end Graph

namespace MadeFrom

variable {ends : Nat → Bool} {spans : List Span} {n : Nat} {s : Span}

/-- A block has a span. -/
theorem exists_span (h : MadeFrom m g ends spans) (hn : n < g.blocks.length) :
    ∃ s, spans[n]? = some s :=
  ⟨_, List.getElem?_eq_getElem (h.length_eq ▸ hn)⟩

/-- Blocks start in the order of their numbers. -/
theorem start_lt_start (h : MadeFrom m g ends spans) {k : Nat} (hnk : n < k)
    (hk : k < g.blocks.length) : (g.block n).start < (g.block k).start := by
  obtain ⟨s, hs⟩ := h.exists_span (Nat.lt_trans hnk hk)
  exact Nat.lt_of_le_of_lt (h.start_le_breakPoint hs (Nat.le_refl n))
    (h.breakPoint_lt_start hs hnk hk)

/-- Blocks start in the order of their numbers. -/
theorem start_le_start (h : MadeFrom m g ends spans) {k : Nat} (hnk : n ≤ k)
    (hk : k < g.blocks.length) : (g.block n).start ≤ (g.block k).start := by
  rcases Nat.eq_or_lt_of_le hnk with rfl | hlt
  · exact Nat.le_refl _
  · exact Nat.le_of_lt (h.start_lt_start hlt hk)

/-- A block that starts earlier has a smaller number. -/
theorem lt_of_start_lt (h : MadeFrom m g ends spans) {k : Nat}
    (hn : n < g.blocks.length) (hlt : (g.block n).start < (g.block k).start) :
    n < k :=
  Nat.lt_of_not_le fun hle =>
    absurd (h.start_le_start hle hn) (Nat.not_le.2 hlt)

/-- A block with a jump at its end is over before the next one starts. -/
theorem stop_lt_start (h : MadeFrom m g ends spans)
    (hjump : (g.block n).exit.hasJump = true) {k : Nat} (hnk : n < k)
    (hk : k < g.blocks.length) : (g.block n).stop < (g.block k).start := by
  obtain ⟨s, hs⟩ := h.exists_span (Nat.lt_trans hnk hk)
  obtain ⟨targets, preds, htargets, hblock⟩ := h.block n s hs
  have hdirected :=
    h.directed htargets (if n + 1 < spans.length then some (n + 1) else none)
  have hstop : (g.block n).stop = s.breakPoint := by
    rw [(h.leads hs).stop, hblock]
    rw [hblock] at hjump
    simp only at hjump
    generalize Method.exitTo _ _ targets = exit at hdirected hjump
    cases hdirected with
    | jumps control => simp [Method.bodyStop, control]
    | branches control => simp [Method.bodyStop, control]
    | selects control => simp [Method.bodyStop, control]
    | falls | returns | throws => cases hjump
  rw [hstop]
  exact h.breakPoint_lt_start hs hnk hk

/-- A branch that is not taken runs into the next block. -/
theorem eq_of_branches (h : MadeFrom m g ends spans) {t o : Nat}
    (hexit : (g.block n).exit = .branches t (some o)) : o = n + 1 := by
  cases hs : spans[n]? with
  | none =>
    rw [Graph.block_of_length_le (h.length_eq ▸ List.getElem?_eq_none_iff.1 hs)] at hexit
    cases hexit
  | some s =>
    obtain ⟨targets, preds, htargets, hblock⟩ := h.block n s hs
    have hdirected :=
      h.directed htargets (if n + 1 < spans.length then some (n + 1) else none)
    rw [hblock] at hexit
    simp only at hexit
    rw [hexit] at hdirected
    generalize hnext : (if n + 1 < spans.length then some (n + 1) else none) =
      next at hdirected
    cases hdirected with
    | branches =>
      split at hnext
      · exact (Option.some.inj hnext).symm
      · cases hnext

/-- A block of a method without switches and exception ranges is plain. -/
theorem isPlain (h : MadeFrom m g ends spans) (hswitch : m.HasNoSwitch)
    (hranges : m.ranges = []) (n : Nat) : (g.block n).IsPlain := by
  cases hs : spans[n]? with
  | none =>
    rw [Graph.block_of_length_le (h.length_eq ▸ List.getElem?_eq_none_iff.1 hs)]
    exact Block.isPlain_blank
  | some s =>
    obtain ⟨targets, preds, htargets, hblock⟩ := h.block n s hs
    have hdirected :=
      h.directed htargets (if n + 1 < spans.length then some (n + 1) else none)
    rw [hblock]
    refine ⟨by simp [Method.entryOf, hranges], rfl, ?_⟩
    simp only
    generalize Method.exitTo _ _ targets = exit at hdirected
    cases hdirected with
    | selects _ _ table => cases (hswitch.switchTable?_instr _).symm.trans table
    | falls | jumps | branches | returns | throws => rfl

end MadeFrom

/-- Going past empty blocks leaves the blocks spaced. -/
theorem spaced_bypass (hbuilt : m.graph = .ok g) :
    Spaced (g.bypass m) (g.idle m) := by
  obtain ⟨ends, bs, _, hmade⟩ := madeFrom_of_graph hbuilt
  have hlen := g.length_bypass m
  have hblock := g.block_bypass m
  refine ⟨fun n k hn hk heq => ?_, fun n k hn hk hjump hlt => ?_⟩
  · rw [hblock, hblock] at heq
    rcases Nat.lt_trichotomy n k with hlt | heq' | hgt
    · exact absurd heq (Nat.ne_of_lt (hmade.start_lt_start hlt (hlen ▸ hk.1)))
    · exact heq'
    · exact absurd heq (Nat.ne_of_gt (hmade.start_lt_start hgt (hlen ▸ hn.1)))
  · rw [hblock, Exit.hasJump_mapTargets] at hjump
    rw [hblock, hblock] at hlt ⊢
    exact hmade.stop_lt_start hjump (hmade.lt_of_start_lt (hlen ▸ hn.1) hlt)
      (hlen ▸ hk.1)

/-- Leading edges past the blocks that do nothing keeps the order. -/
theorem inTurn_bypass (hbuilt : m.graph = .ok g) (hswitch : m.HasNoSwitch)
    (hranges : m.ranges = []) : InTurn (g.bypass m) (g.idle m) := by
  obtain ⟨ends, bs, _, hmade⟩ := madeFrom_of_graph hbuilt
  have hlen := g.length_bypass m
  have hblock := g.block_bypass m
  have hforward (n t : Nat) (hexit : (g.block n).exit = .falls (some t)) :=
    hmade.forward hexit
  have hspaced := spaced_bypass hbuilt
  refine
    { plain := fun n _ => ?_
      apart := hspaced.apart
      room := hspaced.room
      ahead := fun n t o hn hexit => ?_ }
  · obtain ⟨hentry, hfolded, hplain⟩ := hmade.isPlain hswitch hranges n
    rw [hblock]
    exact ⟨hentry, hfolded, (Exit.isSwitch_mapTargets _ _).trans hplain⟩
  · rw [hblock] at hexit
    have hn' : n < g.blocks.length := hlen ▸ hn.1
    obtain ⟨s, hs, rfl⟩ :
        ∃ s, (∃ t', (g.block n).exit = .branches t' (some s)) ∧
        o = g.settle m g.blocks.length s := by
      cases hold : (g.block n).exit with
      | branches t' o' =>
        rw [hold, Exit.mapTargets] at hexit
        cases o' with
        | none => cases hexit
        | some s =>
          cases hexit
          exact ⟨s, ⟨t', rfl⟩, rfl⟩
      | falls | jumps | selects | returns | throws =>
        rw [hold] at hexit; cases hexit
    obtain ⟨t', hold⟩ := hs
    obtain rfl := hmade.eq_of_branches hold
    have hnext : n + 1 < g.blocks.length :=
      hmade.lt_of_successors (n := n) (by simp [hold, Exit.successors])
    have hlt :=
      Graph.settle_lt (m := m) (fun n t ht => hmade.lt_of_successors ht)
        g.blocks.length hnext
    have hge := Graph.le_settle (m := m) hforward g.blocks.length (n + 1)
    simp only [hblock]
    refine ⟨hmade.start_lt_start hge hlt, fun k hk hnk => ?_⟩
    have hidle := Graph.bypass?_of_not_mem_idle (hlen ▸ hk.1) hk.2
    exact hmade.start_le_start
      (hmade.settle_le hidle _ (hmade.lt_of_start_lt hn' hnk)) (hlen ▸ hk.1)

/-! ## Splitting -/

/-- The exit of a branch was one before its edges were redirected. -/
theorem Exit.exists_of_mapTargets_branches {f : Nat → Nat} {e : Exit}
    {t o : Nat} (h : e.mapTargets f = .branches t (some o)) :
    ∃ t' o', e = .branches t' (some o') ∧ o = f o' := by
  cases e with
  | branches t' o' =>
    cases o' with
    | none => cases h
    | some o' =>
      cases h
      exact ⟨t', o', rfl, rfl⟩
  | falls | jumps | selects | returns | throws => cases h

section Split

variable {first id k : Nat}

/-- A block that stays is the new one, the one that was split, or another that
has stayed. -/
theorem stays_split {n : Nat} (hn : (g.split id k).Stays dropped n) :
    n = g.blocks.length ∨ n = id ∨ g.Stays dropped n ∧ n ≠ id := by
  have hlt := hn.1
  rw [Graph.length_split] at hlt
  rcases Nat.lt_or_ge n g.blocks.length with hless | hge
  · rcases Nat.decEq n id with hne | heq
    · exact .inr (.inr ⟨⟨hless, hn.2⟩, hne⟩)
    · exact .inr (.inl heq)
  · exact .inl (by omega)

/-- Splitting a block leaves the starts of the others. -/
theorem start_split_other {n : Nat} (hn : g.Stays dropped n ∧ n ≠ id) :
    ((g.split id k).block n).start = (g.block n).start :=
  Graph.start_split_of_ne hn.1.1 hn.2

/-- Where an edge leads after a split the same instruction starts. -/
theorem start_toFront {t : Nat} (ht : t < g.blocks.length) :
    ((g.split id k).block (g.toFront id t)).start = (g.block t).start := by
  unfold Graph.toFront
  split
  · rename_i heq
    rw [Graph.start_split_front, heq]
  · rename_i hne
    exact Graph.start_split_of_ne ht hne

namespace Spaced

/-- Any other block starts in front of both parts of a block, or behind both. -/
theorem side (h : Spaced g dropped) (hid : g.Stays dropped id)
    (hstop : k ≤ (g.block id).stop) (hjump : (g.block id).exit.hasJump = true)
    {n : Nat} (hn : g.Stays dropped n ∧ n ≠ id) :
    (g.block n).start < (g.block id).start ∨ k < (g.block n).start := by
  rcases Nat.lt_trichotomy (g.block n).start (g.block id).start
    with hlt | heq | hgt
  · exact .inl hlt
  · exact absurd (h.apart n id hn.1 hid heq) hn.2
  · exact .inr (Nat.lt_of_le_of_lt hstop (h.room id n hid hn.1 hjump hgt))

variable {n j : Nat}

/-- After a split, blocks still start at different instructions. -/
theorem apart_split (h : Spaced g dropped) (hid : g.Stays dropped id)
    (hstart : (g.block id).start < k) (hstop : k ≤ (g.block id).stop)
    (hjump : (g.block id).exit.hasJump = true)
    (hn : (g.split id k).Stays dropped n) (hj : (g.split id k).Stays dropped j)
    (heq : ((g.split id k).block n).start = ((g.split id k).block j).start) :
    n = j := by
  have hself := Graph.start_split_self (k := k) hid.1
  have hfront := @Graph.start_split_front g id k
  rcases stays_split hn with rfl | rfl | hn
  · rcases stays_split hj with rfl | rfl | hj
    · rfl
    · omega
    · have := h.side hid hstop hjump hj
      rw [hfront, start_split_other hj] at heq
      omega
  · rcases stays_split hj with rfl | rfl | hj
    · omega
    · rfl
    · have := h.side hid hstop hjump hj
      rw [hself, start_split_other hj] at heq
      omega
  · have := h.side hid hstop hjump hn
    rcases stays_split hj with rfl | rfl | hj
    · rw [hfront, start_split_other hn] at heq
      omega
    · rw [hself, start_split_other hn] at heq
      omega
    · rw [start_split_other hn, start_split_other hj] at heq
      exact h.apart n j hn.1 hj.1 heq

/-- After a split, a block that ends in a jump still ends in front of the
next. -/
theorem room_split (h : Spaced g dropped) (hid : g.Stays dropped id)
    (hstart : (g.block id).start < k) (hstop : k ≤ (g.block id).stop)
    (hjump : (g.block id).exit.hasJump = true)
    (hn : (g.split id k).Stays dropped n) (hj : (g.split id k).Stays dropped j)
    (hends : ((g.split id k).block n).exit.hasJump = true)
    (hlt : ((g.split id k).block n).start < ((g.split id k).block j).start) :
    ((g.split id k).block n).stop < ((g.split id k).block j).start := by
  have hself := Graph.start_split_self (k := k) hid.1
  have hfront := @Graph.start_split_front g id k
  rcases stays_split hn with rfl | rfl | hn
  · rw [Graph.block_split_front] at hends
    cases hends
  · have hsame : ((g.split n k).block n).stop = (g.block n).stop := by
      rw [Graph.block_split_self hid.1]
    rw [hself] at hlt
    rw [hsame]
    rcases stays_split hj with rfl | rfl | hj
    · omega
    · omega
    · rw [start_split_other hj] at hlt ⊢
      exact h.room n j hid hj.1 hjump (by omega)
  · have hsame : ((g.split id k).block n).stop = (g.block n).stop := by
      rw [Graph.block_split_of_ne hn.1.1 hn.2]
    rw [Graph.exit_split hid.1 hn.1.1, Exit.hasJump_mapTargets] at hends
    have := h.side hid hstop hjump hn
    rw [start_split_other hn] at hlt
    rw [hsame]
    rcases stays_split hj with rfl | rfl | hj
    · rw [hfront] at hlt ⊢
      exact h.room n id hn.1 hid hends hlt
    · rw [hself] at hlt ⊢
      exact Nat.lt_trans (h.room n j hn.1 hid hends (by omega)) hstart
    · rw [start_split_other hj] at hlt ⊢
      exact h.room n j hn.1 hj.1 hends hlt

end Spaced

/-- Splitting a block with a jump at its end leaves room for the jump. -/
theorem spaced_split (h : Spaced g dropped) (hid : g.Stays dropped id)
    (hstart : (g.block id).start < k) (hstop : k ≤ (g.block id).stop)
    (hjump : (g.block id).exit.hasJump = true) :
    Spaced (g.split id k) dropped where
  apart _ _ hn hj := h.apart_split hid hstart hstop hjump hn hj
  room _ _ hn hj := h.room_split hid hstart hstop hjump hn hj

namespace InTurn

variable {n j : Nat}

/-- After a split, blocks are still plain. -/
theorem plain_split (h : InTurn g dropped) (hid : id < g.blocks.length)
    {n : Nat} (hn : n < (g.split id k).blocks.length) :
    ((g.split id k).block n).IsPlain := by
  obtain ⟨hentry, hfolded, hplain⟩ := h.plain id hid
  rcases Graph.eq_or_ne_of_lt_split hid hn with rfl | rfl | ⟨hn, hne⟩
  · rw [Graph.block_split_self hid]
    exact ⟨rfl, hfolded, (Exit.isSwitch_mapTargets _ _).trans hplain⟩
  · rw [Graph.block_split_front]
    exact ⟨hentry, rfl, rfl⟩
  · obtain ⟨hentry, hfolded, hplain⟩ := h.plain n hn
    rw [Graph.block_split_of_ne hn hne]
    exact ⟨hentry, hfolded, (Exit.isSwitch_mapTargets _ _).trans hplain⟩

/-- After a split, branches still lead ahead or fall through to the next
block. -/
theorem ahead_split (ht : Tracked g dropped first) (h : InTurn g dropped)
    (hid : g.Stays dropped id) (hstart : (g.block id).start < k)
    (hstop : k ≤ (g.block id).stop) (hjump : (g.block id).exit.hasJump = true)
    (hn : (g.split id k).Stays dropped n) {t o : Nat}
    (hexit : ((g.split id k).block n).exit = .branches t (some o)) :
    ((g.split id k).block n).start < ((g.split id k).block o).start ∧
      ∀ j, (g.split id k).Stays dropped j →
        ((g.split id k).block n).start < ((g.split id k).block j).start →
          ((g.split id k).block o).start ≤ ((g.split id k).block j).start := by
  have hself := Graph.start_split_self (k := k) hid.1
  have hfront := @Graph.start_split_front g id k
  have hold : g.Stays dropped n := by
    rcases stays_split hn with rfl | rfl | hn
    · rw [Graph.block_split_front] at hexit
      cases hexit
    · exact hid
    · exact hn.1
  rw [Graph.exit_split hid.1 hold.1] at hexit
  obtain ⟨t', o', hexit', rfl⟩ := Exit.exists_of_mapTargets_branches hexit
  have ho := ht.live n hold.1 o' (by simp [hexit', Exit.successors])
  obtain ⟨hlt, hnext⟩ := h.ahead n t' o' hold hexit'
  rw [start_toFront ho.1]
  by_cases hne : n = id
  · subst hne
    have hbehind : k < (g.block o').start :=
      Nat.lt_of_le_of_lt hstop (h.room n o' hid ho hjump hlt)
    rw [hself]
    refine ⟨hbehind, fun j hj hkj => ?_⟩
    rcases stays_split hj with rfl | rfl | hj
    · omega
    · omega
    · rw [start_split_other hj] at hkj ⊢
      exact hnext j hj.1 (by omega)
  · have := h.spaced.side hid hstop hjump ⟨hold, hne⟩
    rw [start_split_other ⟨hold, hne⟩]
    refine ⟨hlt, fun j hj hnj => ?_⟩
    rcases stays_split hj with rfl | rfl | hj
    · rw [hfront] at hnj ⊢
      exact hnext id hid hnj
    · rw [hself] at hnj ⊢
      exact Nat.le_trans (hnext j hid (by omega)) (Nat.le_of_lt hstart)
    · rw [start_split_other hj] at hnj ⊢
      exact hnext j hj.1 hnj

end InTurn

/-- Splitting a block keeps the order. -/
theorem inTurn_split (ht : Tracked g dropped first) (h : InTurn g dropped)
    (hid : g.Stays dropped id) (hstart : (g.block id).start < k)
    (hstop : k ≤ (g.block id).stop) (hjump : (g.block id).exit.hasJump = true) :
    InTurn (g.split id k) dropped where
  plain _ hn := h.plain_split hid.1 hn
  apart := (spaced_split h.spaced hid hstart hstop hjump).apart
  room := (spaced_split h.spaced hid hstart hstop hjump).room
  ahead _ _ _ hn := h.ahead_split ht hid hstart hstop hjump hn

end Split

/-- Splitting blocks keeps the order. -/
theorem inTurn_isolateAll {ids : List Nat} {first : Nat}
    (ht : Tracked g dropped first) (h : InTurn g dropped)
    (hids : ∀ id ∈ ids, g.Stays dropped id)
    (hok : g.isolateAll m ids = .ok g') : InTurn g' dropped := by
  refine (Graph.isolateAll_keeps
    (P := fun g' => (∃ first, Tracked g' dropped first) ∧
    InTurn g' dropped) ⟨⟨first, ht⟩, h⟩ hids
      (fun g₁ id k h₁ hid hlive hk hacts => ?_) hok).2
  obtain ⟨⟨first₁, ht₁⟩, h₁⟩ := h₁
  have hlt := Method.lt_of_acts hacts
  exact ⟨⟨_, tracked_split ht₁ hid hlive hlt⟩,
    inTurn_split ht₁ h₁ ⟨hid, hlive⟩ hlt
    (Block.le_of_splitPoint? hk) (Block.hasJump_of_splitPoint? hk)⟩

/-! ## Numbers -/

/-- Blocks that stay are numbered in the order in which they start. -/
theorem Spaced.start_lt_of_kept (hnumbered : g.Numbered) (h : Spaced g dropped)
    {n k : Nat} {b c : Block} (hnk : n < k) (hb : (g.kept dropped)[n]? = some b)
    (hc : (g.kept dropped)[k]? = some c) : b.start < c.start := by
  obtain ⟨p, q, hp, hq, hne, rfl, rfl, hle⟩ :=
    Graph.exists_of_lt_kept hnumbered hnk hb hc
  exact Nat.lt_of_le_of_ne hle fun heq => hne (h.apart p q hp hq heq)

/-- A branch runs into the block with the next number. -/
theorem InTurn.renumbered_ahead {first : Nat} (ht : Tracked g dropped first)
    (h : InTurn g dropped) {n p t o : Nat} (hp : g.Stays dropped p)
    (hkept : (g.kept dropped)[n]? = some (g.block p))
    (hexit : (g.block p).exit = .branches t (some o)) :
    g.renumbered dropped o = n + 1 := by
  have ho := ht.live p hp.1 o (by simp [hexit, Exit.successors])
  obtain ⟨hlt, hnext⟩ := h.ahead p t o hp hexit
  have hfound := Graph.getElem?_kept_renumbered ht.numbered ho.1 ho.2
  generalize g.renumbered dropped o = r at hfound
  have hnr : n < r := by
    rcases Nat.lt_trichotomy n r with hlt | rfl | hgt
    · exact hlt
    · rw [Option.some.inj (hkept.symm.trans hfound)] at hlt
      exact absurd hlt (Nat.lt_irrefl _)
    · exact absurd (h.spaced.start_lt_of_kept ht.numbered hgt hfound hkept)
        (Nat.lt_asymm hlt)
  -- a block in between would start before the one that the branch runs into
  by_contra hne
  obtain ⟨hr, _⟩ := List.getElem?_eq_some_iff.1 hfound
  obtain ⟨q, hq, hqlive, hget⟩ := Graph.exists_of_lt_length_kept ht.numbered
    (show n + 1 < (g.kept dropped).length by omega)
  have hbefore :=
    h.spaced.start_lt_of_kept ht.numbered (Nat.lt_succ_self n) hkept hget
  have hafter :=
    h.spaced.start_lt_of_kept ht.numbered (show n + 1 < r by omega) hget hfound
  have hle := hnext q ⟨hq, hqlive⟩ hbefore
  omega

/-- Once its blocks are numbered in the order of their instructions, a graph is
sequential. -/
theorem sequential_renumber {first : Nat} (ht : Tracked g dropped first)
    (h : InTurn g dropped) : (g.renumber dropped).linkBack.Sequential := by
  have hblock (n : Nat) : (g.renumber dropped).linkBack.block n = .blank ∨
      ∃ p preds, g.Stays dropped p ∧ (g.kept dropped)[n]? = some (g.block p) ∧
        (g.renumber dropped).linkBack.block n = { g.block p with
          id := n, exit := (g.block p).exit.mapTargets (g.renumbered dropped),
          preds } := by
    rcases Nat.lt_or_ge n (g.renumber dropped).linkBack.blocks.length
      with hlt | hge
    · obtain ⟨p, hp, hlive, hget⟩ := Graph.exists_of_lt_renumber ht.numbered hlt
      obtain ⟨preds, heq⟩ := Graph.block_linkBack_renumber hget
      exact .inr ⟨p, preds, ⟨hp, hlive⟩, hget, heq⟩
    · exact .inl (Graph.block_of_length_le hge)
  refine ⟨fun n => ?_, fun n t o hexit => ?_⟩
  · rcases hblock n with heq | ⟨p, preds, hp, _, heq⟩
    · rw [heq]
      exact Block.isPlain_blank
    · obtain ⟨hentry, hfolded, hplain⟩ := h.plain p hp.1
      rw [heq]
      exact ⟨hentry, hfolded, (Exit.isSwitch_mapTargets _ _).trans hplain⟩
  · rcases hblock n with heq | ⟨p, preds, hp, hkept, heq⟩
    · rw [Graph.exit, heq] at hexit
      cases hexit
    · rw [Graph.exit, heq] at hexit
      obtain ⟨t', o', hexit', rfl⟩ := Exit.exists_of_mapTargets_branches hexit
      exact h.renumbered_ahead ht hp hkept hexit'

/-- Without blocks there is nothing to say. -/
theorem sequential_of_length_eq_zero (h : g.blocks.length = 0) :
    g.Sequential := by
  have hblock (n : Nat) : g.block n = .blank :=
    Graph.block_of_length_le (h ▸ Nat.zero_le n)
  refine ⟨fun n => ?_, fun n t o hexit => ?_⟩
  · rw [hblock]
    exact Block.isPlain_blank
  · rw [Graph.exit, hblock] at hexit
    cases hexit

/-- **Order of blocks.**  In the tidy graph of a method without switches and
exception ranges a branch that is not taken runs into the next block. -/
theorem sequential_of_tidy {built tidy : Graph} (hswitch : m.HasNoSwitch)
    (hranges : m.ranges = []) (hbuilt : m.graph = .ok built)
    (htidy : built.tidy m = .ok tidy) :
    tidy.Sequential := by
  obtain ⟨isolated, hisolated, htidy⟩ := bind_eq_ok.1 htidy
  cases htidy
  rcases Nat.eq_zero_or_pos built.blocks.length with hzero | hpos
  · rw [hzero] at hisolated
    cases hisolated
    simp only [hzero, List.range_zero, List.filter_nil]
    exact sequential_of_length_eq_zero (Graph.length_tidy_of_empty hzero)
  · have htracked := tracked_bypass hbuilt hpos
    obtain ⟨first, hfirst, _⟩ :=
      tracked_isolateAll htracked built.stays_of_mem_busy hisolated
    exact sequential_renumber hfirst (inTurn_isolateAll htracked
      (inTurn_bypass hbuilt hswitch hranges) built.stays_of_mem_busy hisolated)

end Decompiler
