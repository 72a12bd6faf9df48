import Decompiler.Proofs.Graph.Idempotent
import Decompiler.Proofs.Graph.Sequential

/-!
# Tidy graphs are well formed

Regions are found in the tidy graph of a method, and nothing there looks at its
blocks again: a number stands for the block at its place, an edge for a block
that is there, and the bodies of the blocks share out the instructions.

On the way to a tidy graph none of this is so.  Idle blocks are still in the
list when nothing leads to them any more, and the front of a block that is split
stands behind all others, whatever it starts with.  What does hold all along is
said of the blocks that stay: those that start earlier are over when the others
start, and what is not left out is run in one of them.  The numbers follow the
starts in the end, and then the same is true of neighbours.

* `Graph.WellFormed`: what the blocks of a graph share out, and where its edges
  lead.
* `Carved`: how the blocks that stay lie to one another; `carved_bypass`,
  `carved_split`, `carved_isolateAll`.
* `wellFormed_of_tidy`: tidy graphs are well formed.
-/

namespace Decompiler

/-- Whether an instruction is run in the body of a block: it does something, and
neither a jump nor a switch ends the block with it. -/
def Instr.RunsInside (i : Instr) : Prop :=
  i.isMarker = false ∧ i.jumpTarget? = none ∧ i.switchTable? = none

/-- A block whose body has an instruction. -/
def Block.Holds (b : Block) (i : Nat) : Prop := b.start ≤ i ∧ i < b.stop

/-- A graph that can be relied on without looking: numbers are places, edges and
labels lead to blocks, every block knows where it is entered from, no block is
there for nothing, and the bodies are ranges that follow one another and share
out the instructions. -/
structure Graph.WellFormed (g : Graph) (m : Method) : Prop where
  numbered : g.Numbered
  closed : ∀ n < g.blocks.length, ∀ t ∈ g.successors n, t < g.blocks.length
  labels : ∀ p ∈ g.labels, p.2 < g.blocks.length
  /-- The blocks that lead to a block, each of them once. -/
  preds : ∀ n < g.blocks.length, (g.block n).preds.Pairwise (· < ·) ∧
    ∀ k, k ∈ (g.block n).preds ↔ k < g.blocks.length ∧ n ∈ g.successors k
  /-- A jump that is always taken stands alone. -/
  alone : ∀ n < g.blocks.length, ∀ t, g.exit n = .jumps t →
    m.acts (g.block n).start (g.block n).stop = false
  /-- A block that runs into another does something or handles exceptions. -/
  busy : ∀ n < g.blocks.length, ∀ t, g.exit n = .falls (some t) →
    (g.block n).entry = .plain →
    m.acts (g.block n).start (g.block n).stop = true
  range : ∀ n < g.blocks.length, (g.block n).start ≤ (g.block n).stop
  ascending : ∀ n k, n < k → k < g.blocks.length →
  (g.block n).start < (g.block k).start
  apart : ∀ n k, n < k → k < g.blocks.length →
  (g.block n).stop ≤ (g.block k).start
  covers : ∀ i < m.length, (m.instr i).RunsInside →
    ∃! n, n < g.blocks.length ∧ (g.block n).Holds i

/-- A graph on the way to a tidy one, as far as the bodies of its blocks go: of
two blocks that stay one is over when the other starts, and what is run inside
of blocks is run in one that stays. -/
structure Carved (m : Method) (g : Graph) (dropped : List Nat) : Prop where
  numbered : g.Numbered
  bound : ∀ n ∈ dropped, n < g.blocks.length
  spaced : Spaced g dropped
  range : ∀ n, g.Stays dropped n → (g.block n).start ≤ (g.block n).stop
  follows : ∀ n k, g.Stays dropped n → g.Stays dropped k →
    (g.block n).start < (g.block k).start → (g.block n).stop ≤ (g.block k).start
  covers : ∀ i < m.length, (m.instr i).RunsInside → ∃ n, g.Stays dropped n ∧
  (g.block n).Holds i

variable {m : Method} {g g' : Graph} {dropped : List Nat}

/-! ## The graph that is built -/

namespace Method

/-- A break point is the last of its block's instructions, or behind them. -/
theorem le_bodyStop (m : Method) (breakPoint : Nat) :
    breakPoint ≤ m.bodyStop breakPoint := by
  unfold bodyStop
  split <;> omega

/-- The body of a block ends at its break point or behind it. -/
theorem bodyStop_le (m : Method) (breakPoint : Nat) :
    m.bodyStop breakPoint ≤ breakPoint + 1 := by
  unfold bodyStop
  split <;> omega

/-- A break point that is run inside of a block is run in the one that it
ends. -/
theorem lt_bodyStop {breakPoint : Nat} (hruns : (m.instr breakPoint).RunsInside)
    (hends : (m.instr breakPoint).endsBlock = true ∨ ∃ l,
      (m.instr breakPoint).label? = some l) :
    breakPoint < m.bodyStop breakPoint := by
  obtain ⟨hmarker, hjump, htable⟩ := hruns
  rw [bodyStop]
  generalize m.instr breakPoint = i at hmarker hjump htable hends
  rcases Instr.control_of_none hjump htable with hplain | hmark | hret | hthrow
  · rcases hends with hends | ⟨l, hlabel⟩
    · simp [Instr.endsBlock, hplain] at hends
    · cases i with
      | label => cases hmarker
      | _ => cases hlabel
  · simp [Instr.isMarker, hmark] at hmarker
  · simp [hret]
  · simp [hthrow]

end Method

namespace MadeFrom

variable {ends : Nat → Bool} {spans : List Span} {n k : Nat}

/-- The block of a span ends with it. -/
theorem stop_eq (h : MadeFrom m g ends spans) {s : Span}
    (hs : spans[n]? = some s) : (g.block n).stop = m.bodyStop s.breakPoint := by
  obtain ⟨_, _, _, hblock⟩ := h.block n s hs
  rw [(h.leads hs).stop, hblock]

/-- The body of a block ends behind its start. -/
theorem start_le_stop (h : MadeFrom m g ends spans) (hn : n < g.blocks.length) :
    (g.block n).start ≤ (g.block n).stop := by
  obtain ⟨s, hs⟩ := h.exists_span hn
  rw [h.stop_eq hs]
  exact Nat.le_trans (h.start_le_breakPoint hs (Nat.le_refl n))
    (m.le_bodyStop _)

/-- The body of a block ends in front of the later blocks. -/
theorem stop_le_start (h : MadeFrom m g ends spans) (hnk : n < k)
    (hk : k < g.blocks.length) : (g.block n).stop ≤ (g.block k).start := by
  obtain ⟨s, hs⟩ := h.exists_span (Nat.lt_trans hnk hk)
  rw [h.stop_eq hs]
  exact Nat.le_trans (m.bodyStop_le _) (h.breakPoint_lt_start hs hnk hk)

/-- What is run inside of blocks is run in the block of its span. -/
theorem exists_holds {bs : List Nat} (hbreaks : m.BreaksFrom ends 0 bs)
    (h : MadeFrom m g ends (m.cut 0 bs)) {i : Nat} (hi : i < m.length)
    (hruns : (m.instr i).RunsInside) : ∃ n < g.blocks.length,
      (g.block n).Holds i := by
  obtain ⟨n, s, hs, hstart, hbreak⟩ :=
    Method.exists_span_of_cut hbreaks (Nat.zero_le i) hi hruns.1
  obtain ⟨hn, _⟩ := List.getElem?_eq_some_iff.1 hs
  refine ⟨n, h.length_eq ▸ hn, h.start_eq hs ▸ hstart, ?_⟩
  rw [h.stop_eq hs]
  rcases Nat.eq_or_lt_of_le hbreak with rfl | hlt
  · exact Method.lt_bodyStop hruns (h.of_ends _ ((h.fits n s hs).closed hi).1)
  · exact Nat.lt_of_lt_of_le hlt (m.le_bodyStop _)

end MadeFrom

/-- A block that does nothing has nothing in it that is run. -/
theorem Graph.not_mem_idle_of_holds {n i : Nat} (hi : i < m.length)
    (hmarker : (m.instr i).isMarker = false) (hholds : (g.block n).Holds i) :
    n ∉ g.idle m := by
  refine not_mem_idle ?_
  cases hbypass : (g.block n).bypass? m with
  | none => rfl
  | some next =>
    have hidle := (bypass?_eq_some hbypass).2
    rw [Method.acts_eq_false_iff.1 hidle i hholds.1 hholds.2 hi] at hmarker
    cases hmarker

/-- Going past empty blocks leaves the graph carved. -/
theorem carved_bypass (hbuilt : m.graph = .ok g) :
    Carved m (g.bypass m) (g.idle m) := by
  obtain ⟨ends, bs, hbreaks, hmade⟩ := madeFrom_of_graph hbuilt
  have hlen := g.length_bypass m
  have hblock := g.block_bypass m
  refine
    { numbered := hmade.numbered.redirectAll _
      bound := fun n hn => hlen ▸ List.mem_range.1 (List.mem_filter.1 hn).1
      spaced := spaced_bypass hbuilt
      range := fun n hn => ?_
      follows := fun n k hn hk hlt => ?_
      covers := fun i hi hruns => ?_ }
  · rw [hblock]
    exact hmade.start_le_stop (hlen ▸ hn.1)
  · rw [hblock, hblock] at hlt ⊢
    exact hmade.stop_le_start (hmade.lt_of_start_lt (hlen ▸ hn.1) hlt)
      (hlen ▸ hk.1)
  · obtain ⟨n, hn, hholds⟩ := hmade.exists_holds hbreaks hi hruns
    refine ⟨n, ⟨hlen ▸ hn, Graph.not_mem_idle_of_holds hi hruns.1 hholds⟩, ?_⟩
    rw [hblock]
    exact hholds

/-! ## Splitting -/

namespace Carved

variable {id k : Nat}

/-- After a split, bodies end behind their starts. -/
theorem range_split (h : Carved m g dropped) (hid : g.Stays dropped id)
    (hstart : (g.block id).start < k) (hstop : k ≤ (g.block id).stop) {n : Nat}
    (hn : (g.split id k).Stays dropped n) :
    ((g.split id k).block n).start ≤ ((g.split id k).block n).stop := by
  rcases stays_split hn with rfl | rfl | hn
  · rw [Graph.block_split_front]
    exact Nat.le_of_lt hstart
  · rw [Graph.block_split_self hid.1]
    exact hstop
  · rw [Graph.block_split_of_ne hn.1.1 hn.2]
    exact h.range n hn.1

/-- The front of a block is over where the rest starts, and both lie to any
other block as the whole did. -/
theorem follows_split (h : Carved m g dropped) (hid : g.Stays dropped id)
    (hstart : (g.block id).start < k) (hstop : k ≤ (g.block id).stop)
    (hjump : (g.block id).exit.hasJump = true) {n j : Nat}
    (hn : (g.split id k).Stays dropped n) (hj : (g.split id k).Stays dropped j)
    (hlt : ((g.split id k).block n).start < ((g.split id k).block j).start) :
    ((g.split id k).block n).stop ≤ ((g.split id k).block j).start := by
  have hself := Graph.block_split_self (k := k) hid.1
  have hfront := @Graph.block_split_front g id k
  have hother {n : Nat} (hn : g.Stays dropped n ∧ n ≠ id) :=
    Graph.block_split_of_ne (k := k) hn.1.1 hn.2
  rcases stays_split hn with rfl | rfl | hn
  · rw [hfront] at hlt ⊢
    rcases stays_split hj with rfl | rfl | hj
    · rw [hfront] at hlt
      exact absurd hlt (Nat.lt_irrefl _)
    · rw [hself]
    · have hside := h.spaced.side hid hstop hjump hj
      rw [hother hj] at hlt ⊢
      simp only at hlt ⊢
      omega
  · rw [hself] at hlt ⊢
    rcases stays_split hj with rfl | rfl | hj
    · rw [hfront] at hlt
      exact absurd hlt (Nat.lt_asymm hstart)
    · rw [hself] at hlt
      exact absurd hlt (Nat.lt_irrefl _)
    · rw [hother hj] at hlt ⊢
      exact h.follows n j hid hj.1 (Nat.lt_trans hstart hlt)
  · have hside := h.spaced.side hid hstop hjump hn
    rw [hother hn] at hlt ⊢
    rcases stays_split hj with rfl | rfl | hj
    · rw [hfront] at hlt ⊢
      exact h.follows n id hn.1 hid hlt
    · rw [hself] at hlt ⊢
      have hbefore : (g.block n).start < (g.block j).start :=
        hside.resolve_right (Nat.lt_asymm hlt)
      exact Nat.le_trans (h.follows n j hn.1 hid hbefore) (Nat.le_of_lt hstart)
    · rw [hother hj] at hlt ⊢
      exact h.follows n j hn.1 hj.1 hlt

/-- What is run in a block is run in its front or in the rest. -/
theorem covers_split (h : Carved m g dropped) {i : Nat} (hi : i < m.length)
    (hruns : (m.instr i).RunsInside) :
    ∃ n, (g.split id k).Stays dropped n ∧ ((g.split id k).block n).Holds i := by
  have hstays {n : Nat} (hn : g.Stays dropped n) :
      (g.split id k).Stays dropped n :=
    ⟨Graph.length_split (g := g) ▸ Nat.lt_succ_of_lt hn.1, hn.2⟩
  obtain ⟨n, hn, hlow, hhigh⟩ := h.covers i hi hruns
  by_cases hne : n = id
  · subst hne
    rcases Nat.lt_or_ge i k with hlt | hge
    · have hfresh : g.blocks.length ∉ dropped := fun hmem =>
        absurd (h.bound _ hmem) (Nat.lt_irrefl _)
      refine ⟨g.blocks.length,
        ⟨Graph.length_split (g := g) ▸ Nat.lt_succ_self _, hfresh⟩, ?_⟩
      rw [Graph.block_split_front]
      exact ⟨hlow, hlt⟩
    · refine ⟨n, hstays hn, ?_⟩
      rw [Graph.block_split_self hn.1]
      exact ⟨hge, hhigh⟩
  · refine ⟨n, hstays hn, ?_⟩
    rw [Graph.block_split_of_ne hn.1 hne]
    exact ⟨hlow, hhigh⟩

end Carved

/-- Splitting a block in front of its jump leaves the graph carved. -/
theorem carved_split {id k : Nat} (h : Carved m g dropped)
    (hid : g.Stays dropped id) (hstart : (g.block id).start < k)
    (hstop : k ≤ (g.block id).stop) (hjump : (g.block id).exit.hasJump = true) :
    Carved m (g.split id k) dropped where
  numbered := h.numbered.split hid.1
  bound n hn := Graph.length_split (g := g) ▸ Nat.lt_succ_of_lt (h.bound n hn)
  spaced := spaced_split h.spaced hid hstart hstop hjump
  range _ hn := h.range_split hid hstart hstop hn
  follows _ _ hn hj := h.follows_split hid hstart hstop hjump hn hj
  covers _ hi hruns := h.covers_split hi hruns

/-- Splitting blocks shares out the same instructions. -/
theorem carved_isolateAll {ids : List Nat} (h : Carved m g dropped)
    (hids : ∀ id ∈ ids, g.Stays dropped id)
    (hok : g.isolateAll m ids = .ok g') : Carved m g' dropped :=
  Graph.isolateAll_keeps h hids (fun _ _ _ h₁ hid hlive hk hacts =>
    carved_split h₁ ⟨hid, hlive⟩ (Method.lt_of_acts hacts)
      (Block.le_of_splitPoint? hk) (Block.hasJump_of_splitPoint? hk)) hok

/-! ## Numbers -/

/-- Bodies that follow one another share no instruction. -/
theorem Graph.eq_of_holds (hapart : ∀ n k, n < k → k < g.blocks.length →
      (g.block n).stop ≤ (g.block k).start) {n k i : Nat}
        (hn : n < g.blocks.length)
    (hk : k < g.blocks.length) (hni : (g.block n).Holds i)
    (hki : (g.block k).Holds i) : n = k := by
  obtain ⟨hnstart, hnstop⟩ := hni
  obtain ⟨hkstart, hkstop⟩ := hki
  rcases Nat.lt_trichotomy n k with hlt | heq | hgt
  · have hover := hapart n k hlt hk
    omega
  · exact heq
  · have hover := hapart k n hgt hn
    omega

/-- Every block knows where it is entered from, once the edges are followed
back. -/
theorem Graph.mem_preds_linkBack {n : Nat} (hn : n < g.blocks.length) :
    (g.linkBack.block n).preds.Pairwise (· < ·) ∧ ∀ k,
      k ∈ (g.linkBack.block n).preds ↔
      k < g.blocks.length ∧ n ∈ g.successors k := by
  rw [preds_linkBack hn]
  exact ⟨List.pairwise_lt_range.filter _, fun k => by simp [successors, exit]⟩

namespace Graph

/-- A block that is kept has the body that it had. -/
theorem stop_renumber {n : Nat} {b : Block}
    (h : (g.kept dropped)[n]? = some b) :
    ((g.renumber dropped).linkBack.block n).stop = b.stop := by
  obtain ⟨preds, heq⟩ := block_linkBack_renumber h
  rw [heq]

/-- A block has its instructions under any number. -/
theorem holds_renumber {n i : Nat} {b : Block}
    (h : (g.kept dropped)[n]? = some b) :
    ((g.renumber dropped).linkBack.block n).Holds i ↔ b.Holds i := by
  rw [Block.Holds, start_renumber h, stop_renumber h, Block.Holds]

end Graph

namespace Carved

variable {n k : Nat}

/-- Under their new numbers the blocks that stay start one after another, and
each is over when the next starts. -/
theorem in_order (h : Carved m g dropped) (hnk : n < k)
    (hk : k < (g.renumber dropped).linkBack.blocks.length) :
    let tidy := (g.renumber dropped).linkBack
    (tidy.block n).start < (tidy.block k).start ∧
    (tidy.block n).stop ≤ (tidy.block k).start := by
  obtain ⟨p, hp, hplive, hn⟩ :=
    Graph.exists_of_lt_renumber h.numbered (Nat.lt_trans hnk hk)
  obtain ⟨q, hq, hqlive, hk⟩ := Graph.exists_of_lt_renumber h.numbered hk
  have hlt := h.spaced.start_lt_of_kept h.numbered hnk hn hk
  simp only [Graph.start_renumber hn, Graph.start_renumber hk,
    Graph.stop_renumber hn]
  exact ⟨hlt, h.follows p q ⟨hp, hplive⟩ ⟨hq, hqlive⟩ hlt⟩

/-- After renumbering, bodies end behind their starts. -/
theorem range_renumber (h : Carved m g dropped)
    (hn : n < (g.renumber dropped).linkBack.blocks.length) :
    ((g.renumber dropped).linkBack.block n).start ≤
      ((g.renumber dropped).linkBack.block n).stop := by
  obtain ⟨p, hp, hlive, hget⟩ := Graph.exists_of_lt_renumber h.numbered hn
  rw [Graph.start_renumber hget, Graph.stop_renumber hget]
  exact h.range p ⟨hp, hlive⟩

/-- After renumbering, each instruction that runs inside a block is in one. -/
theorem covers_renumber (h : Carved m g dropped) {i : Nat} (hi : i < m.length)
    (hruns : (m.instr i).RunsInside) :
    ∃ n < (g.renumber dropped).linkBack.blocks.length,
      ((g.renumber dropped).linkBack.block n).Holds i := by
  obtain ⟨p, ⟨hp, hlive⟩, hholds⟩ := h.covers i hi hruns
  have hget := Graph.getElem?_kept_renumbered h.numbered hp hlive
  exact ⟨_, Graph.lt_length_renumber hget, (Graph.holds_renumber hget).2 hholds⟩

end Carved

/-- What the blocks that stay share out, they share out under their new
numbers. -/
theorem wellFormed_of_carved (h : Carved m g dropped)
    (hrest : (g.renumber dropped).linkBack.AtRest m) :
    (g.renumber dropped).linkBack.WellFormed m where
  numbered := hrest.numbered
  closed := hrest.closed
  labels := hrest.labels
  preds n hn := by
    have hpreds := Graph.mem_preds_linkBack hn
    rwa [hrest.linked] at hpreds
  alone n hn _ hexit := (hrest.isolated n hn).acts_eq_false hexit
  busy n hn _ hexit hentry :=
    Block.acts_of_bypass? (hrest.busy n hn) hexit hentry
  range _ hn := h.range_renumber hn
  ascending _ _ hnk hk := (h.in_order hnk hk).1
  apart _ _ hnk hk := (h.in_order hnk hk).2
  covers i hi hruns := by
    obtain ⟨n, hn, hholds⟩ := h.covers_renumber hi hruns
    refine ⟨n, ⟨hn, hholds⟩, fun k ⟨hk, hkholds⟩ => ?_⟩
    exact Graph.eq_of_holds (fun _ _ hnk hk => (h.in_order hnk hk).2) hk hn
      hkholds hholds

/-- **Well-formedness.**  Whenever the graph of a method can be built and made
tidy, the tidy graph is well formed. -/
theorem wellFormed_of_tidy {built tidy : Graph} (hbuilt : m.graph = .ok built)
    (htidy : built.tidy m = .ok tidy) : tidy.WellFormed m := by
  have hrest := atRest_of_tidy hbuilt htidy
  obtain ⟨isolated, hisolated, htidy⟩ := bind_eq_ok.1 htidy
  cases htidy
  exact wellFormed_of_carved
    (carved_isolateAll (carved_bypass hbuilt) built.stays_of_mem_busy hisolated)
    hrest

/-- A loop whose jump back has a call in front of it, and a handler: two of six
blocks are dropped, one is split, and the jump stands alone in a block of its
own. -/
theorem wellFormed_of_guardedLoop :
    let m : Method :=
      { instrs := [.label ⟨0⟩, .call .static ⟨"C", "a", "()Z"⟩, .ifZero .eq ⟨1⟩,
          .call .static ⟨"C", "b", "()V"⟩, .goto ⟨0⟩, .label ⟨2⟩,
          .store .reference 0, .label ⟨1⟩, .ret none],
        ranges := [⟨⟨0⟩, ⟨2⟩, ⟨2⟩, none⟩] }
    let bodies (g : Graph) := g.blocks.map fun b => (b.start, b.stop)
    ∃ built tidy, m.graph = .ok built ∧ built.tidy m = .ok tidy ∧
      bodies built = [(0, 0), (1, 2), (3, 4), (5, 5), (6, 7), (8, 9)] ∧
      bodies tidy = [(1, 2), (3, 4), (4, 4), (6, 7), (8, 9)] ∧
      tidy.WellFormed m := by
  intro m bodies
  have hrun : (do
      let built ← m.graph
      let tidy ← built.tidy m
      return (bodies built, bodies tidy)) =
      .ok ([(0, 0), (1, 2), (3, 4), (5, 5), (6, 7), (8, 9)],
        [(1, 2), (3, 4), (4, 4), (6, 7), (8, 9)]) := by decide +kernel
  obtain ⟨built, hbuilt, hrun⟩ := bind_eq_ok.1 hrun
  obtain ⟨tidy, htidy, hrun⟩ := bind_eq_ok.1 hrun
  obtain ⟨hbefore, hafter⟩ := Prod.mk.inj (Except.ok.inj hrun)
  exact ⟨built, tidy, hbuilt, htidy, hbefore, hafter,
    wellFormed_of_tidy hbuilt htidy⟩

end Decompiler
