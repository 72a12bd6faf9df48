import Decompiler.Proofs.Graph.Runs
import Decompiler.Proofs.Graph.Tidy
import Mathlib

/-!
# Tidy graphs run the same

Making a graph tidy redirects edges, moves instructions into blocks of their
own, drops blocks and numbers all others anew.  None of this shows in a run.
A step of it takes each block to another one, from which the runs are the same
as from the block before; only the part in front of a block that has been split
stands for no block of the old graph, and its runs start inside of one.

* `Graph.shows_bypass_iff`, `Graph.shows_split_iff`, `Graph.shows_renumber_iff`:
  the steps of making a graph tidy.
* `Tracked`: what is kept on the way, and the block that runs start with;
  `tracked_bypass`, `tracked_isolateAll`.
* `shows_tidy_iff`: the tidy graph of a method shows the same runs.
-/

namespace Decompiler

variable {m : Method} {g g' : Graph}

namespace Graph

variable {ds : Decisions} {es : List Event} {at? : Option Nat}

/-! ## Bypassed blocks -/

/-- A block that is bypassed shows nothing. -/
theorem shows_of_bypass? {id next : Nat}
    (h : (g.block id).bypass? m = some next)
    (hshows : g.Shows m (some next) ds es) : g.Shows m (some id) ds es := by
  obtain ⟨hexit, hacts⟩ := bypass?_eq_some h
  have hgoes : (g.block id).exit.Goes (g.Shows m) ds es := by
    rw [hexit]
    exact hshows
  have hevents : (g.block id).events m = [] := by
    rw [Block.events, hexit, Method.executes_eq_nil hacts]
    rfl
  have hblock := shows_block hgoes
  rwa [hevents, List.nil_append] at hblock

/-- What shows from where an edge settles shows from where it led. -/
theorem shows_of_settle (fuel : Nat) {id : Nat}
    (h : g.Shows m (some (g.settle m fuel id)) ds es) :
    g.Shows m (some id) ds es := by
  induction fuel generalizing id with
  | zero => exact h
  | succ n ih =>
    rw [settle] at h
    split at h
    · rename_i next hnext
      exact shows_of_bypass? hnext (ih h)
    · exact h

/-- Where an edge has settled it stays. -/
theorem settle_succ {fuel id : Nat}
    (h : (g.block (g.settle m fuel id)).bypass? m = none) :
    g.settle m (fuel + 1) id = g.settle m fuel id := by
  induction fuel generalizing id with
  | zero =>
    have hid : (g.block id).bypass? m = none := h
    simp [settle, hid]
  | succ n ih =>
    rw [settle] at h
    rw [settle, settle]
    cases hnext : (g.block id).bypass? m with
    | none => rfl
    | some next =>
      rw [hnext] at h
      exact ih h

/-- A block that is bypassed settles where the next one does. -/
theorem settle_of_bypass?
    (hforward : ∀ n t, (g.block n).exit = .falls (some t) → n < t)
    {id next : Nat} (h : (g.block id).bypass? m = some next) :
    g.settle m g.blocks.length id = g.settle m g.blocks.length next := by
  have hlt : id < next := hforward id next (bypass?_eq_some h).1
  have hid : id < g.blocks.length := by
    refine Nat.lt_of_not_le fun hge => ?_
    rw [block_of_length_le hge] at h
    cases h
  obtain ⟨n, hn⟩ : ∃ n, g.blocks.length = n + 1 :=
    ⟨g.blocks.length - 1, by omega⟩
  have hsettled : (g.block (g.settle m n next)).bypass? m = none :=
    bypass?_settle hforward n (by omega)
  rw [hn, settle_succ hsettled, settle, h]

/-- Leading every edge past the blocks that do nothing leaves runs as they
are. -/
theorem shows_bypass_iff (hforward : ∀ n t, (g.block n).exit = .falls (some t) →
      n < t) :
    (g.bypass m).Shows m (at?.map (g.settle m g.blocks.length)) ds es ↔
      g.Shows m at? ds es := by
  have hblock := g.block_bypass m
  have hevents (n : Nat) :
      ((g.bypass m).block n).events m = (g.block n).events m :=
    Block.events_eq_of_mapTargets (by rw [hblock]) (by rw [hblock])
      (by rw [hblock]) (by rw [hblock])
  have hunsettled {at? : Option Nat} {ds : Decisions} {es : List Event}
      (h : g.Shows m (at?.map (g.settle m g.blocks.length)) ds es) :
      g.Shows m at? ds es := by
    cases at? with
    | none => exact h
    | some id => exact shows_of_settle _ h
  constructor
  · intro h
    have hallows : (g.bypass m).Allows m (g.Shows m) := by
      refine ⟨g.shows_nil m, g.shows_ends m, fun id ds es hgoes => ?_⟩
      rw [hevents]
      apply shows_block
      rw [hblock] at hgoes
      exact (Exit.goes_mapTargets.1 hgoes).mono fun _ _ _ _ hshows =>
        hunsettled hshows
    exact hunsettled
      (hallows.of_shows (fun _ _ hinitial h => h.of_initial hinitial) h)
  · intro h
    have hallows : g.Allows m fun at? =>
        (g.bypass m).Shows m (at?.map (g.settle m g.blocks.length)) := by
      refine ⟨fun _ => shows_nil _ m _, fun ds => shows_ends _ m ds,
        fun id ds es hgoes => ?_⟩
      cases hbypass : (g.block id).bypass? m with
      | some next =>
        obtain ⟨hexit, hacts⟩ := bypass?_eq_some hbypass
        rw [hexit] at hgoes
        rw [Block.events, hexit, Method.executes_eq_nil hacts, Option.map_some,
          settle_of_bypass? hforward hbypass]
        exact hgoes
      | none =>
        have hsettle : g.settle m g.blocks.length id = id := by
          cases g.blocks.length with
          | zero => rfl
          | succ n => rw [settle, hbypass]
        rw [Option.map_some, hsettle, ← hevents]
        apply shows_block
        rw [hblock]
        exact Exit.goes_mapTargets.2 hgoes
    exact hallows.of_shows (fun _ _ hinitial h => h.of_initial hinitial) h

/-! ## Split blocks -/

/-- The runs of a graph, as a graph shows them in which a block has been split:
behind the part in front the run of the block goes on. -/
private def partRuns (g : Graph) (m : Method) (id k : Nat) : RunFamily
  | none, ds, es => g.Shows m none ds es
  | some t, ds, es =>
    if t = g.blocks.length then g.Shows m (some id) ds es
    else if t = id then
      g.Shows m (some id) ds (m.executes (g.block id).start k ++ es)
    else t < g.blocks.length → g.Shows m (some t) ds es

private theorem partRuns_front (g : Graph) (m : Method) (id k : Nat) :
    partRuns g m id k (some g.blocks.length) = g.Shows m (some id) := by
  funext ds es
  simp [partRuns]

private theorem partRuns_back {id : Nat} (k : Nat)
    (hid : id < g.blocks.length) :
    partRuns g m id k (some id) ds es =
      g.Shows m (some id) ds (m.executes (g.block id).start k ++ es) := by
  simp [partRuns, Nat.ne_of_lt hid]

private theorem partRuns_other {id t : Nat} (k : Nat)
    (hlen : t ≠ g.blocks.length) (ht : t ≠ id) :
    partRuns g m id k (some t) ds es =
      (t < g.blocks.length → g.Shows m (some t) ds es) := by
  simp [partRuns, hlen, ht]

private theorem partRuns_of_initial {id k : Nat} (hid : id < g.blocks.length)
    {es' : List Event} (hinitial : es' <+: es)
    (h : partRuns g m id k at? ds es) : partRuns g m id k at? ds es' := by
  cases at? with
  | none => exact Shows.of_initial h hinitial
  | some t =>
    by_cases hlen : t = g.blocks.length
    · subst hlen
      rw [partRuns_front] at *
      exact h.of_initial hinitial
    · by_cases ht : t = id
      · subst ht
        rw [partRuns_back k hid] at *
        exact h.of_initial ((List.prefix_append_right_inj _).2 hinitial)
      · rw [partRuns_other k hlen ht] at *
        exact fun hlt => (h hlt).of_initial hinitial

/-- From where an edge leads now, the runs are those from where it led. -/
private theorem shows_of_partRuns {id k : Nat}
    (hat : ∀ t, at? = some t → t < g.blocks.length)
    (h : partRuns g m id k (at?.map (g.toFront id)) ds es) :
    g.Shows m at? ds es := by
  cases at? with
  | none => exact h
  | some t =>
    have hlt := hat t rfl
    rw [Option.map_some, toFront] at h
    by_cases ht : t = id
    · rw [if_pos ht, partRuns_front] at h
      exact ht ▸ h
    · rw [if_neg ht, partRuns_other k (Nat.ne_of_lt hlt) ht] at h
      exact h hlt

/-- Splitting a block turns edges to its front. -/
theorem exit_split {id k n : Nat} (hid : id < g.blocks.length)
    (hn : n < g.blocks.length) :
    ((g.split id k).block n).exit = (g.block n).exit.mapTargets
      (g.toFront id) := by
  by_cases hne : n = id
  · rw [hne, block_split_self hid]
  · rw [block_split_of_ne hn hne]

/-- Splitting a block leaves the events of the others. -/
theorem events_split_of_ne {id k n : Nat} (hn : n < g.blocks.length)
    (hne : n ≠ id) :
    ((g.split id k).block n).events m = (g.block n).events m := by
  have hblock := g.block_split_of_ne (k := k) hn hne
  exact Block.events_eq_of_mapTargets (by rw [hblock]) (by rw [hblock])
    (by rw [hblock]) (by rw [hblock])

/-- The front of a split block has the events up to the split. -/
theorem events_split_front (g : Graph) (m : Method) (id k : Nat) :
    ((g.split id k).block g.blocks.length).events m = m.executes
      (g.block id).start k := by
  rw [Block.events, block_split_front]
  exact List.append_nil _

/-- The two parts of a block execute what the block does. -/
theorem events_split {id k : Nat} (hid : id < g.blocks.length)
    (hstart : (g.block id).start ≤ k) (hstop : k ≤ (g.block id).stop) :
    (g.block id).events m =
      m.executes (g.block id).start k ++
        ((g.split id k).block id).events m := by
  rw [Block.events, Block.events, block_split_self hid,
    Method.executes_append hstart hstop, Exit.hasJump_mapTargets,
    List.append_assoc]

/-- The blocks of the graph that has been split allow the runs of the other. -/
private theorem allows_partRuns {id k : Nat} (hid : id < g.blocks.length)
    (hclosed : ∀ n < g.blocks.length, ∀ t ∈ (g.block n).exit.successors,
      t < g.blocks.length)
    (hstart : (g.block id).start ≤ k) (hstop : k ≤ (g.block id).stop) :
    (g.split id k).Allows m (partRuns g m id k) := by
  have hparts := events_split (m := m) hid hstart hstop
  refine ⟨fun at? ds => ?_, g.shows_ends m, fun n ds es hgoes => ?_⟩
  · cases at? with
    | none => exact g.shows_nil m none ds
    | some t =>
      by_cases hlen : t = g.blocks.length
      · rw [hlen, partRuns_front]
        exact g.shows_nil m _ ds
      · by_cases ht : t = id
        · rw [ht, partRuns_back k hid, List.append_nil]
          apply (g.shows_events m id ds).of_initial
          rw [hparts]
          exact List.prefix_append _ _
        · rw [partRuns_other k hlen ht]
          exact fun _ => g.shows_nil m _ ds
  · by_cases hlen : n = g.blocks.length
    · subst hlen
      rw [block_split_front] at hgoes
      have hback : partRuns g m id k (some id) ds es := hgoes
      rw [partRuns_back k hid] at hback
      rw [events_split_front, partRuns_front]
      exact hback
    · by_cases hlt : n < g.blocks.length
      · rw [exit_split hid hlt] at hgoes
        have hshows :=
          shows_block
            ((Exit.goes_mapTargets.1 hgoes).mono fun at? hin _ _ hruns =>
            shows_of_partRuns (fun t ht => hclosed n hlt t (hin t ht)) hruns)
        by_cases hne : n = id
        · subst hne
          rw [partRuns_back k hid, ← List.append_assoc, ← hparts]
          exact hshows
        · rw [partRuns_other k hlen hne, events_split_of_ne hlt hne]
          exact fun _ => hshows
      · rw [partRuns_other k hlen (by omega)]
        exact fun h => absurd h hlt

/-- The blocks of a graph allow the runs of the graph in which one of them has
been split. -/
private theorem allows_split {id k : Nat} (hid : id < g.blocks.length)
    (hclosed : ∀ n < g.blocks.length, ∀ t ∈ (g.block n).exit.successors,
      t < g.blocks.length)
    (hstart : (g.block id).start ≤ k) (hstop : k ≤ (g.block id).stop) :
    g.Allows m fun at? ds es => (∀ t, at? = some t → t < g.blocks.length) →
      (g.split id k).Shows m (at?.map (g.toFront id)) ds es := by
  refine ⟨fun _ _ _ => shows_nil _ m _ _, fun ds _ => shows_ends _ m ds,
    fun n ds es hgoes hn => ?_⟩
  have hlt := hn n rfl
  have hgoes : ((g.split id k).block n).exit.Goes ((g.split id k).Shows m) ds
      es := by
    rw [exit_split hid hlt]
    exact Exit.goes_mapTargets.2 (hgoes.mono fun at? hin ds es hshows =>
      hshows fun t ht => hclosed n hlt t (hin t ht))
  by_cases hne : n = id
  · subst hne
    rw [Option.map_some, toFront, if_pos rfl, events_split hid hstart hstop,
      List.append_assoc, ← events_split_front]
    apply shows_block
    rw [block_split_front]
    exact shows_block hgoes
  · rw [Option.map_some, toFront, if_neg hne, ← events_split_of_ne hlt hne]
    exact shows_block hgoes

/-- Moving what a block does first into a block of its own leaves runs as they
are. -/
theorem shows_split_iff {id k : Nat} (hid : id < g.blocks.length)
    (hclosed : ∀ n < g.blocks.length, ∀ t ∈ (g.block n).exit.successors,
      t < g.blocks.length)
    (hstart : (g.block id).start ≤ k) (hstop : k ≤ (g.block id).stop)
    (hat : ∀ t, at? = some t → t < g.blocks.length) :
    (g.split id k).Shows m (at?.map (g.toFront id)) ds es ↔
      g.Shows m at? ds es := by
  constructor
  · intro h
    apply shows_of_partRuns hat
    exact (allows_partRuns hid hclosed hstart hstop).of_shows
      (fun _ _ hinitial h => partRuns_of_initial hid hinitial h) h
  · intro h
    exact (allows_split hid hclosed hstart hstop).of_shows
      (fun _ _ hinitial h hat => (h hat).of_initial hinitial) h hat

/-! ## Renumbered blocks -/

/-- Dropping blocks that no edge leads to, and numbering the others, leaves
runs as they are. -/
theorem shows_renumber_iff {dropped : List Nat} (hnumbered : g.Numbered)
    (hlive : ∀ n < g.blocks.length, ∀ t ∈ (g.block n).exit.successors,
      t < g.blocks.length ∧ t ∉ dropped)
    (hat : ∀ t, at? = some t → t < g.blocks.length ∧ t ∉ dropped) :
    (g.renumber dropped).linkBack.Shows m (at?.map (g.renumbered dropped))
      ds es ↔ g.Shows m at? ds es := by
  have hevents {n : Nat} {b : Block} (hb : (g.kept dropped)[n]? = some b) :
      ((g.renumber dropped).linkBack.block n).events m = b.events m := by
    obtain ⟨preds, hblock⟩ := block_linkBack_renumber hb
    exact Block.events_eq_of_mapTargets (by rw [hblock]) (by rw [hblock])
      (by rw [hblock]) (by rw [hblock])
  have hexit {n : Nat} {b : Block} (hb : (g.kept dropped)[n]? = some b) :
      ((g.renumber dropped).linkBack.block n).exit =
        b.exit.mapTargets (g.renumbered dropped) := by
    obtain ⟨preds, hblock⟩ := block_linkBack_renumber hb
    rw [hblock]
  constructor
  · intro h
    have hallows : (g.renumber dropped).linkBack.Allows m fun at? ds es =>
        ∀ old : Option Nat,
          (∀ t, old = some t → t < g.blocks.length ∧ t ∉ dropped) →
          at? = old.map (g.renumbered dropped) → g.Shows m old ds es := by
      refine ⟨fun _ _ _ _ _ => g.shows_nil m _ _, fun ds old _ hold => ?_,
        fun n ds es hgoes old hat hold => ?_⟩
      · obtain rfl : old = none := by simpa using hold.symm
        exact g.shows_ends m ds
      · obtain ⟨t, rfl, rfl⟩ := Option.map_eq_some_iff.1 hold.symm
        obtain ⟨hlt, ht⟩ := hat t rfl
        have hkept := getElem?_kept_renumbered hnumbered hlt ht
        rw [hexit hkept] at hgoes
        rw [hevents hkept]
        exact shows_block
          ((Exit.goes_mapTargets.1 hgoes).mono fun at? hin _ _ hruns =>
          hruns at? (fun t' ht' => hlive t hlt t' (hin t' ht')) rfl)
    exact hallows.of_shows (fun _ _ hinitial h old hat hold =>
      (h old hat hold).of_initial hinitial) h at? hat rfl
  · intro h
    have hallows : g.Allows m fun at? ds es =>
        (∀ t, at? = some t → t < g.blocks.length ∧ t ∉ dropped) →
          (g.renumber dropped).linkBack.Shows m (at?.map (g.renumbered dropped))
          ds es := by
      refine ⟨fun _ _ _ => shows_nil _ m _ _, fun ds _ => shows_ends _ m ds,
        fun n ds es hgoes hn => ?_⟩
      obtain ⟨hlt, hn⟩ := hn n rfl
      have hkept := getElem?_kept_renumbered hnumbered hlt hn
      rw [Option.map_some, ← hevents hkept]
      apply shows_block
      rw [hexit hkept]
      exact Exit.goes_mapTargets.2 (hgoes.mono fun at? hin _ _ hshows =>
        hshows fun t ht => hlive n hlt t (hin t ht))
    exact hallows.of_shows
      (fun _ _ hinitial h hat => (h hat).of_initial hinitial) h hat

end Graph

/-! ## The way to a tidy graph -/

/-- A graph on the way to a tidy one: no edge leads to a block that is to be
dropped, and of the others one starts before all. -/
structure Tracked (g : Graph) (dropped : List Nat) (first : Nat) : Prop where
  numbered : g.Numbered
  bound : ∀ n ∈ dropped, n < g.blocks.length
  live : ∀ n < g.blocks.length, ∀ t ∈ (g.block n).exit.successors,
    t < g.blocks.length ∧ t ∉ dropped
  first_lt : first < g.blocks.length
  first_live : first ∉ dropped
  least : ∀ n < g.blocks.length, n ∉ dropped → n ≠ first →
    (g.block first).start < (g.block n).start

/-- The targets of arms are those of the table. -/
theorem Method.mem_of_arms {pairs : List (Int32 × Nat)} {t : Nat}
    (h : t ∈ (arms pairs).map (·.target)) : t ∈ pairs.map (·.2) := by
  suffices hfold : ∀ (done : List SwitchArm),
      t ∈ (pairs.foldl (fun as p => addKey p.1 p.2 as) done).map (·.target) →
        t ∈ done.map (·.target) ∨ t ∈ pairs.map (·.2)
          from (hfold [] h).resolve_left (by simp)
  clear h
  induction pairs with
  | nil => exact fun done h => .inl h
  | cons p pairs ih =>
    intro done h
    rcases ih _ h with hdone | hlater
    · rw [map_target_addKey] at hdone
      split at hdone
      · exact .inl hdone
      · simp only [List.mem_append, List.mem_singleton] at hdone
        exact hdone.imp_right fun ht => by simp [ht]
    · exact .inr (List.mem_cons_of_mem _ hlater)

/-- Edges lead to targets of the instruction, or ahead. -/
theorem Method.mem_of_exitTo {i : Instr} {next : Option Nat}
    {targets : List Nat} {t : Nat}
    (h : t ∈ (exitTo i next targets).successors) : t ∈ targets ∨
    next = some t := by
  unfold exitTo at h
  split at h
  · simp_all [Exit.successors]
  · simp only [Exit.successors, List.mem_cons, Option.mem_toList] at h
    exact h.imp_left fun ht => by simp [ht]
  · rename_i pairs _ default _ _ hlast
    simp only [Exit.successors, List.mem_append, List.mem_singleton] at h
    rcases h with harms | rfl
    · obtain ⟨p, hp, rfl⟩ := List.mem_map.1 (mem_of_arms harms)
      exact .inl (List.of_mem_zip hp).2
    · exact .inl (List.mem_of_getLast? hlast)
  · cases h
  · cases h
  · exact .inr (by simpa [Exit.successors] using h)

/-- Edges lead to blocks. -/
theorem MadeFrom.lt_of_successors {ends : Nat → Bool} {spans : List Span}
    {n t : Nat} (h : MadeFrom m g ends spans)
    (ht : t ∈ (g.block n).exit.successors) : t < g.blocks.length := by
  cases hs : spans[n]? with
  | none =>
    have hlen : g.blocks.length ≤ n :=
      h.length_eq ▸ List.getElem?_eq_none_iff.1 hs
    rw [Graph.block_of_length_le hlen] at ht
    cases ht
  | some s =>
    obtain ⟨targets, preds, htargets, hblock⟩ := h.block n s hs
    rw [hblock] at ht
    rw [h.length_eq]
    rcases Method.mem_of_exitTo ht with hmem | hnext
    · obtain ⟨l, hl⟩ := Method.mem_of_locate htargets hmem
      obtain ⟨k, _, rfl, hlt, _⟩ := Method.span_of_lookup hl
      exact hlt
    · split at hnext
      · cases hnext
        assumption
      · cases hnext

/-- Blocks settle on blocks. -/
theorem Graph.settle_lt
    (hclosed : ∀ n, ∀ t ∈ (g.block n).exit.successors, t < g.blocks.length)
    (fuel : Nat) {id : Nat} (hid : id < g.blocks.length) :
    g.settle m fuel id < g.blocks.length := by
  induction fuel generalizing id with
  | zero => exact hid
  | succ n ih =>
    rw [settle]
    split
    · rename_i next hnext
      have hexit := (bypass?_eq_some hnext).1
      exact ih (hclosed id next (by simp [hexit, Exit.successors]))
    · exact hid

/-- A block does not settle behind one that stays. -/
theorem MadeFrom.settle_le {ends : Nat → Bool} {spans : List Span} {n : Nat}
    (h : MadeFrom m g ends spans) (hn : (g.block n).bypass? m = none)
    (fuel : Nat) {id : Nat} (hid : id ≤ n) : g.settle m fuel id ≤ n := by
  induction fuel generalizing id with
  | zero => exact hid
  | succ k ih =>
    rw [Graph.settle]
    split
    · rename_i next hnext
      obtain rfl := h.eq_of_falls (Graph.bypass?_eq_some hnext).1
      have hne : id ≠ n := by
        rintro rfl
        rw [hn] at hnext
        cases hnext
      exact ih (by omega)
    · exact hid

/-- The graph that is built numbers its blocks by their places. -/
theorem MadeFrom.numbered {ends : Nat → Bool} {spans : List Span}
    (h : MadeFrom m g ends spans) : g.Numbered := by
  intro n hn
  obtain ⟨_, _, _, hblock⟩ :=
    h.block n _ (List.getElem?_eq_getElem (h.length_eq ▸ hn))
  rw [hblock]

namespace Graph.Numbered

/-- Redirecting keeps the numbers of blocks. -/
theorem redirectAll (h : g.Numbered) (f : Nat → Nat) :
    (g.redirectAll f).Numbered := by
  intro n hn
  rw [block_redirectAll]
  exact h n (g.length_redirectAll f ▸ hn)

/-- Splitting keeps the numbers of blocks. -/
theorem split {id k : Nat} (h : g.Numbered) (hid : id < g.blocks.length) :
    (g.split id k).Numbered := by
  intro n hn
  rcases eq_or_ne_of_lt_split hid hn with rfl | rfl | ⟨hn, hne⟩
  · rw [block_split_self hid]
    exact h n hid
  · rw [block_split_front]
  · rw [block_split_of_ne hn hne]
    exact h n hn

end Graph.Numbered

/-- Going past empty blocks keeps track of the first one. -/
theorem tracked_bypass (hbuilt : m.graph = .ok g) (hpos : 0 < g.blocks.length) :
    Tracked (g.bypass m) (g.idle m) (g.settle m g.blocks.length 0) := by
  obtain ⟨ends, bs, _, hmade⟩ := madeFrom_of_graph hbuilt
  have hlen := g.length_bypass m
  have hblock := g.block_bypass m
  have hclosed (n t : Nat) (ht : t ∈ (g.block n).exit.successors) :=
    hmade.lt_of_successors ht
  have hforward (n t : Nat) (hexit : (g.block n).exit = .falls (some t)) :=
    hmade.forward hexit
  have hspan : ∀ n < g.blocks.length, ∃ s, (m.cut 0 bs)[n]? = some s :=
    fun n hn =>
      ⟨_, List.getElem?_eq_getElem (hmade.length_eq ▸ hn)⟩
  have hsettled (id : Nat) : g.settle m g.blocks.length id ∉ g.idle m :=
    Graph.not_mem_idle (Graph.bypass?_settle hforward _ (by omega))
  have hfirst := Graph.settle_lt (m := m) hclosed g.blocks.length hpos
  refine
    { numbered := hmade.numbered.redirectAll _
      bound := fun n hn => by
        rw [hlen]
        exact List.mem_range.1 (List.mem_filter.1 hn).1
      live := fun n hn t ht => ?_
      first_lt := hlen ▸ hfirst
      first_live := hsettled 0
      least := fun n hn hlive hne => ?_ }
  · rw [hblock, Exit.successors_mapTargets] at ht
    obtain ⟨s, hs, rfl⟩ := List.mem_map.1 ht
    have hlt :=
      Graph.settle_lt (m := m) hclosed g.blocks.length (hclosed n s hs)
    exact ⟨hlen.symm ▸ hlt, hsettled s⟩
  · rw [hlen] at hn
    have hidle := Graph.bypass?_of_not_mem_idle hn hlive
    have hle := hmade.settle_le hidle g.blocks.length (Nat.zero_le n)
    obtain ⟨s, hs⟩ := hspan _ hfirst
    have hlater :=
      hmade.breakPoint_lt_start hs (Nat.lt_of_le_of_ne hle hne.symm) hn
    have hearlier := (hmade.fits _ s hs).le
    rw [← hmade.start_eq hs] at hearlier
    rw [hblock, hblock]
    exact Nat.lt_of_le_of_lt hearlier hlater

/-- The operands of a jump start at an instruction of the block. -/
theorem mem_of_operandsFrom? {need k : Nat} {is : List (Nat × Instr)}
    (h : operandsFrom? need is = .ok (some k)) : ∃ i, (k, i) ∈ is := by
  induction is generalizing need with
  | nil => cases h
  | cons p is ih =>
    obtain ⟨index, i⟩ := p
    have hlater {need : Nat} (h : operandsFrom? need is = .ok (some k)) :
        ∃ j, (k, j) ∈ (index, i) :: is := by
      obtain ⟨j, hj⟩ := ih h
      exact ⟨j, List.mem_cons_of_mem _ hj⟩
    rw [operandsFrom?] at h
    split at h
    · exact hlater h
    · obtain ⟨e, _, h⟩ := bind_eq_ok.1 h
      split at h
      · cases h
      · simp only at h
        split at h
        · cases h
          exact ⟨i, List.mem_cons_self⟩
        · exact hlater h

/-- What is in a slice is in front of its end. -/
theorem Method.lt_of_mem_slice {start stop k : Nat} {i : Instr}
    (h : (k, i) ∈ m.slice start stop) : k < stop := by
  simp only [slice, List.mem_map, Prod.mk.injEq] at h
  obtain ⟨⟨i', k'⟩, hmem, rfl, rfl⟩ := h
  have hle := List.le_snd_of_mem_zipIdx hmem
  have hlt := List.snd_lt_add_of_mem_zipIdx hmem
  simp only [List.length_drop, List.length_take] at hle hlt
  omega

/-- Blocks are split inside. -/
theorem Block.le_of_splitPoint? {b : Block} {k : Nat}
    (h : b.splitPoint? m = .ok (some k)) : k ≤ b.stop := by
  have hoperands (h : b.operandsFrom? m = .ok (some k)) : k ≤ b.stop := by
    obtain ⟨e, _, h⟩ := bind_eq_ok.1 h
    obtain ⟨i, hmem⟩ := mem_of_operandsFrom? h
    rw [List.mem_reverse] at hmem
    exact Nat.le_of_lt (Method.lt_of_mem_slice hmem)
  cases hexit : b.exit with
  | jumps t =>
    rw [splitPoint?, hexit] at h
    cases h
    exact Nat.le_refl _
  | branches t o =>
    rw [splitPoint?, hexit] at h
    exact hoperands h
  | selects arms default =>
    rw [splitPoint?, hexit] at h
    exact hoperands h
  | falls | returns | throws =>
    rw [splitPoint?, hexit] at h
    cases h

/-- Only blocks with a jump at their end are split. -/
theorem Block.hasJump_of_splitPoint? {b : Block} {k : Nat}
    (h : b.splitPoint? m = .ok (some k)) : b.exit.hasJump = true := by
  cases hexit : b.exit with
  | jumps | branches | selects => rfl
  | falls | returns | throws =>
    rw [splitPoint?, hexit] at h
    cases h

/-- Splitting a block keeps track of the first one. -/
theorem tracked_split {dropped : List Nat} {first id k : Nat}
    (h : Tracked g dropped first) (hid : id < g.blocks.length)
    (hlive : id ∉ dropped) (hk : (g.block id).start < k) :
    Tracked (g.split id k) dropped (g.toFront id first) := by
  have hself := g.block_split_self (k := k) hid
  have hfront := @Graph.block_split_front g id k
  have hother {n : Nat} (hn : n < g.blocks.length) (hne : n ≠ id) :=
    g.block_split_of_ne (k := k) hn hne
  have hlen := @Graph.length_split g id k
  have hcases {n : Nat} (hn : n < (g.split id k).blocks.length) :
      n = id ∨ n = g.blocks.length ∨ n < g.blocks.length ∧ n ≠ id := by
    omega
  have hfresh : g.blocks.length ∉ dropped := fun hmem =>
    absurd (h.bound _ hmem) (Nat.lt_irrefl _)
  have hmoved {t : Nat} (ht : t < g.blocks.length ∧ t ∉ dropped) :
      g.toFront id t < (g.split id k).blocks.length ∧
      g.toFront id t ∉ dropped := by
    unfold Graph.toFront
    split
    · exact ⟨by omega, hfresh⟩
    · exact ⟨by omega, ht.2⟩
  have hedge {n t : Nat} (hn : n < g.blocks.length)
      (ht : t ∈ ((g.block n).exit.mapTargets (g.toFront id)).successors) :
      t < (g.split id k).blocks.length ∧ t ∉ dropped := by
    rw [Exit.successors_mapTargets] at ht
    obtain ⟨s, hs, rfl⟩ := List.mem_map.1 ht
    exact hmoved (h.live n hn s hs)
  have hstart : ((g.split id k).block (g.toFront id first)).start =
      (g.block first).start := by
    unfold Graph.toFront
    by_cases hfirst : first = id
    · rw [if_pos hfirst, hfront, hfirst]
    · rw [if_neg hfirst, hother h.first_lt hfirst]
  refine
    { numbered := h.numbered.split hid
      bound := fun n hn => by
        have := h.bound n hn
        omega
      live := fun n hn t ht => ?_
      first_lt := (hmoved ⟨h.first_lt, h.first_live⟩).1
      first_live := (hmoved ⟨h.first_lt, h.first_live⟩).2
      least := fun n hn hnlive hne => ?_ }
  · rcases hcases hn with rfl | rfl | ⟨hn, hne⟩
    · rw [hself] at ht
      exact hedge hid ht
    · rw [hfront] at ht
      obtain rfl : t = id := by simpa [Exit.successors] using ht
      exact ⟨by omega, hlive⟩
    · rw [hother hn hne] at ht
      exact hedge hn ht
  · rw [hstart]
    have hbefore (hne : id ≠ first) := h.least id hid hlive hne
    rcases hcases hn with rfl | rfl | ⟨hn, hnid⟩
    · rw [hself]
      by_cases hfirst : n = first
      · exact hfirst ▸ hk
      · exact Nat.lt_trans (hbefore hfirst) hk
    · rw [hfront]
      refine hbefore fun hfirst => hne ?_
      rw [Graph.toFront, if_pos hfirst.symm]
    · rw [hother hn hnid]
      refine h.least n hn hnlive fun hfirst => hne ?_
      rw [Graph.toFront, if_neg (hfirst ▸ hnid), hfirst]

/-- Splitting blocks leaves runs as they are. -/
theorem tracked_isolateAll {dropped ids : List Nat} {first : Nat}
    (h : Tracked g dropped first)
    (hids : ∀ id ∈ ids, id < g.blocks.length ∧ id ∉ dropped)
    (hok : g.isolateAll m ids = .ok g') : ∃ first', Tracked g' dropped first' ∧
      ∀ ds es, g'.Shows m (some first') ds es ↔
        g.Shows m (some first) ds es := by
  refine Graph.isolateAll_keeps
    (P := fun g' => ∃ first', Tracked g' dropped first' ∧
      ∀ ds es, g'.Shows m (some first') ds es ↔ g.Shows m (some first) ds es)
    ⟨first, h, fun _ _ => Iff.rfl⟩ hids
    (fun g₁ id k h₁ hid hlive hk hacts => ?_) hok
  obtain ⟨first₁, h₁, hshows⟩ := h₁
  have hlt := Method.lt_of_acts hacts
  refine ⟨g₁.toFront id first₁, tracked_split h₁ hid hlive hlt, fun ds es => ?_⟩
  refine Iff.trans ?_ (hshows ds es)
  exact Graph.shows_split_iff hid (fun n hn t ht => (h₁.live n hn t ht).1)
    (Nat.le_of_lt hlt)
    (Block.le_of_splitPoint? hk) (fun t ht => Option.some.inj ht ▸ h₁.first_lt)

/-- The block that starts before all others gets the first number. -/
theorem Tracked.renumbered_first {dropped : List Nat} {first : Nat}
    (h : Tracked g dropped first) : g.renumbered dropped first = 0 := by
  have hget := Graph.getElem?_kept_renumbered h.numbered h.first_lt h.first_live
  obtain ⟨hlt, hblock⟩ := List.getElem?_eq_some_iff.1 hget
  have hpos : 0 < (g.kept dropped).length := Nat.zero_lt_of_lt hlt
  obtain ⟨p, hp, hplive, hfront⟩ :=
    Graph.exists_of_mem_kept h.numbered (List.getElem_mem hpos)
  have hle : (g.block p).start ≤ (g.block first).start := by
    rcases Nat.eq_zero_or_pos (g.renumbered dropped first) with hzero | hlater
    · simp only [hzero] at hblock
      exact Nat.le_of_eq (congrArg Block.start (hfront.symm.trans hblock))
    · have hsorted := List.pairwise_iff_getElem.1
        (Order.pairwise_sortOnPair (fun b : Block => (b.start, b.breakPoint)) _)
        0 _ hpos hlt hlater
      change (g.kept dropped)[0].start ≤
        (g.kept dropped)[g.renumbered dropped first].start
        at hsorted
      rwa [hfront, hblock] at hsorted
  have heq : p = first := by
    by_contra hne
    exact absurd (h.least p hp hplive hne) (Nat.not_lt.2 hle)
  rw [Graph.renumbered, List.findIdx_eq hpos]
  exact ⟨by simp [hfront, ← heq, h.numbered p hp], fun j hj => absurd hj (Nat.not_lt_zero j)⟩

/-- Of no blocks none are left. -/
theorem Graph.length_tidy_of_empty (h : g.blocks.length = 0) :
    ((g.bypass m).renumber []).linkBack.blocks.length = 0 := by
  have hbypass : (g.bypass m).blocks = [] :=
    List.length_eq_zero_iff.1 ((g.length_bypass m).trans h)
  rw [length_linkBack, length_renumber, kept, hbypass]
  rfl

/-- Without a block there is nothing to run. -/
theorem Graph.shows_none_iff {ds : Decisions} {es : List Event} :
    g.Shows m none ds es ↔ g'.Shows m none ds es := by
  have hwalk (n : Nat) : g.walk m n none ds = g'.walk m n none ds := by
    cases n <;> rfl
  simp only [Shows, hwalk]

/-- **Runs.**  The tidy graph of a method runs as the graph that is built of it
does: whatever branches and switches decide, the same instructions are executed
in the same order, and the run stops in the same way or not at all. -/
theorem shows_tidy_iff {built tidy : Graph} (hbuilt : m.graph = .ok built)
    (htidy : built.tidy m = .ok tidy) (ds : Decisions) (es : List Event) :
    tidy.Shows m tidy.first? ds es ↔ built.Shows m built.first? ds es := by
  obtain ⟨isolated, hisolated, htidy⟩ := bind_eq_ok.1 htidy
  cases htidy
  obtain ⟨ends, bs, _, hmade⟩ := madeFrom_of_graph hbuilt
  rcases Nat.eq_zero_or_pos built.blocks.length with hzero | hpos
  · rw [hzero] at hisolated
    cases hisolated
    simp only [hzero, Graph.first?, List.range_zero, List.filter_nil,
      Graph.length_tidy_of_empty hzero, Nat.lt_irrefl, if_false]
    exact Graph.shows_none_iff
  · have htracked := tracked_bypass hbuilt hpos
    obtain ⟨first, hfirst, hshows⟩ :=
      tracked_isolateAll htracked built.stays_of_mem_busy hisolated
    have hnew := hfirst.renumbered_first
    have hfound : (isolated.renumber (built.idle m)).linkBack.first? =
        some 0 := by
      have hget :=
        Graph.getElem?_kept_renumbered hfirst.numbered hfirst.first_lt
          hfirst.first_live
      rw [Graph.first?,
        if_pos (Nat.zero_lt_of_lt (Graph.lt_length_renumber hget))]
    calc (isolated.renumber (built.idle m)).linkBack.Shows m
          (isolated.renumber (built.idle m)).linkBack.first? ds es
      _ ↔ (isolated.renumber (built.idle m)).linkBack.Shows m
          ((some first).map (isolated.renumbered (built.idle m))) ds es := by
        rw [hfound, Option.map_some, hnew]
      _ ↔ isolated.Shows m (some first) ds es :=
        Graph.shows_renumber_iff hfirst.numbered hfirst.live
          (fun t ht =>
            Option.some.inj ht ▸ ⟨hfirst.first_lt, hfirst.first_live⟩)
      _ ↔
          (built.bypass m).Shows m
          ((some 0).map (built.settle m built.blocks.length)) ds es :=
        hshows ds es
      _ ↔ built.Shows m built.first? ds es := by
        rw [Graph.first?, if_pos hpos]
        exact Graph.shows_bypass_iff fun n t => hmade.forward

/-- A call in front of a test is moved to a block of its own, and the label of
a loop that holds a call is bypassed. -/
theorem shows_tidy_iff_callBeforeTest :
    let m : Method :=
      { instrs :=
        [.call .static ⟨"C", "a", "()V"⟩, .load .int 0, .ifZero .eq ⟨1⟩,
          .label ⟨2⟩, .call .static ⟨"C", "b", "()V"⟩, .goto ⟨2⟩, .label ⟨1⟩,
          .ret none], ranges := [] }
    ∃ built tidy, m.graph = .ok built ∧ built.tidy m = .ok tidy ∧
      built.exit 0 = .branches 4 (some 1) ∧ tidy.exit 0 = .falls (some 1) ∧
      ∀ (ds : Decisions) (es : List Event),
        tidy.Shows m tidy.first? ds es ↔ built.Shows m built.first? ds es := by
  intro m
  have hrun : (do
      let built ← m.graph
      let tidy ← built.tidy m
      return (built.exit 0, tidy.exit 0)) =
        .ok (.branches 4 (some 1), .falls (some 1)) := by decide +kernel
  obtain ⟨built, hbuilt, hrun⟩ := bind_eq_ok.1 hrun
  obtain ⟨tidy, htidy, hrun⟩ := bind_eq_ok.1 hrun
  obtain ⟨hbefore, hafter⟩ := Prod.mk.inj (Except.ok.inj hrun)
  exact ⟨built, tidy, hbuilt, htidy, hbefore, hafter,
    shows_tidy_iff hbuilt htidy⟩

end Decompiler
