import Decompiler.Proofs.Catches.Cover
import Decompiler.Proofs.Exits.Changes

/-!
# What becomes of the edges of a block

Sections are trusted to say where control goes.  For the tests of a guard this
is checked: each of their edges leads to a block of the list at hand or to what
comes after the list.  For straight-line code it is not; whether control goes
on at what comes next is only put on record.  A switch is not asked where it
leads, and what the layout of a switch or try statement leaves out of all its
parts is not looked at.

* `Work.Skips`: blocks that a layout leaves out.
* `Dealt`: what has become of the edges of a block.
* `Deals`: a step deals with some blocks and changes no others; `Deals.trans`.
-/

namespace Decompiler

/-- The layout of a switch or try statement in a run leaves a block of its span
out of all its parts. -/
inductive Work.LeavesOut (w : Work) (run : List Nat) (id : Nat) : Prop
  | tryStatement {i p : Nat} {t : TryGroup} {plan : TryPlan}
      (pending : t ∈ w.pending) (starts : run[i]? = some t.start)
      (plans : w.graph.tryPlan? run t = some plan)
      (here : run[p]? = some id) (behind : i ≤ p) (before : p < plan.join)
      (out : TryPlan.holding p (plan.runs i) = [])
  | switch {i p head : Nat} (starts : run[i]? = some head)
      (selects : (w.graph.exit head).isSwitch = true) (here : run[p]? = some id)
      (behind : i < p) (before : p < (w.graph.switchPlan run i).join)
      (out : ∀ c ∈ (w.graph.switchPlan run i).cases,
        ¬ (c.start ≤ p ∧ p < c.stop))

/-- The layout of a switch or try statement among the blocks of a list leaves
out a block, when it is made after some changes. -/
def Work.Skips (w : Work) (list : List Nat) (id : Nat) : Prop :=
  ∃ ids w₁ run, Changes ids w w₁ ∧ run ⊆ list ∧ w₁.LeavesOut run id

/-- A block whose edges are skipped in a list is so in a longer one. -/
theorem Work.Skips.within {w : Work} {list more : List Nat} {id : Nat}
    (h : w.Skips list id) (hsubset : list ⊆ more) : w.Skips more id := by
  obtain ⟨ids, w₁, run, hchanges, hrun, hout⟩ := h
  exact ⟨ids, w₁, run, hchanges, List.Subset.trans hrun hsubset, hout⟩

/-- A block whose edges are skipped after some changes was so before. -/
theorem Work.Skips.of_later {w w₁ : Work} {list ids : List Nat} {id : Nat}
    (h : w₁.Skips list id) (hchanges : Changes ids w w₁) : w.Skips list id := by
  obtain ⟨more, w₂, run, hlater, hrun, hout⟩ := h
  exact ⟨ids ++ more, w₂, run,
    (hchanges.mono (List.subset_append_left ids more)).trans
    (hlater.mono (List.subset_append_right ids more)), hrun, hout⟩

/-- What has become of the edges of a block, when a list with this block is
taken apart into sections, after which control goes on at `after`.  If the
sections are sound, the edges of straight-line code lead to blocks joined with a
block of the list or with what comes after it. -/
inductive Dealt (sound : Prop) (list : List Nat) (after : Option Nat) (w : Work)
    (id : Nat) : Prop
  | stays (edges : ∀ t ∈ w.graph.successors id, t ∈ list ∨ after = some t)
  | straight (noBranch : (w.graph.exit id).isBranch = false)
      (noSwitch : (w.graph.exit id).isSwitch = false)
      (goesOn : sound → ∀ t ∈ w.graph.successors id, ∃ n,
        (n ∈ list ∨ after = some n) ∧ w.graph.Joined t n)
  | selects (switch : (w.graph.exit id).isSwitch = true)
  | skipped (skips : w.Skips list id)

/-- Without switches and exception ranges nothing is left out. -/
theorem Work.not_skips {w : Work} {list : List Nat} {id : Nat}
    (hswitch : ∀ x ∈ list, (w.graph.exit x).isSwitch = false)
    (hpending : w.pending = []) : ¬ w.Skips list id := by
  rintro ⟨ids, w₁, run, hchanges, hrun, hout⟩
  cases hout with
  | tryStatement pending =>
    have hmem := hchanges.pending_subset pending
    rw [hpending] at hmem
    cases hmem
  | @switch i p head starts selects =>
    have hselects := (hchanges.redirects head).isSwitch selects
    rw [hswitch head (hrun (List.mem_of_getElem? starts))] at hselects
    cases hselects

variable {list ids more : List Nat} {after : Option Nat} {w w' w₁ w₂ : Work}
    {id : Nat}
  {sound : Prop}

/-- A list inside another one: what comes after it is in the other one, or comes
after that as well. -/
structure Within (slice : List Nat) (next : Option Nat) (list : List Nat)
    (after : Option Nat) :
    Prop where
  subset : slice ⊆ list
  next : ∀ n, next = some n → n ∈ list ∨ after = some n

namespace Within

variable {slice : List Nat} {next : Option Nat}

/-- A part of a list, with what comes after the list next. -/
theorem same (h : slice ⊆ list) : Within slice after list after :=
  ⟨h, fun _ => .inr⟩

/-- A part of a list with nothing next. -/
theorem none (h : slice ⊆ list) : Within slice none list after :=
  ⟨h, fun _ hn => nomatch hn⟩

/-- A part of a list, with an element next. -/
theorem some (after : Option Nat) {n : Nat} (h : slice ⊆ list) (hn : n ∈ list) :
    Within slice (some n) list after :=
  ⟨h, fun _ heq => .inl (Option.some.inj heq ▸ hn)⟩

/-- A part of a list, with what comes at a position next. -/
theorem part (h : slice ⊆ list) (k : Nat) :
    Within slice (list[k]?.or after) list after := by
  cases hnext : list[k]? with
  | none => exact .same h
  | some n => exact .some after h (List.mem_of_getElem? hnext)

/-- What is in a slice or comes after it is in the list or comes after that. -/
theorem mem_or (h : Within slice next list after) {n : Nat}
    (hn : n ∈ slice ∨ next = Option.some n) : n ∈ list ∨
      after = Option.some n :=
  hn.elim (fun hmem => .inl (h.subset hmem)) (h.next n)

end Within

/-! ### One block -/

namespace Dealt

/-- Edges are dealt with under a weaker condition. -/
theorem mono {less : Prop} (h : Dealt less list after w id)
    (hsound : sound → less) : Dealt sound list after w id := by
  cases h with
  | stays edges => exact .stays edges
  | straight noBranch noSwitch goesOn =>
    exact .straight noBranch noSwitch fun hs => goesOn (hsound hs)
  | selects switch => exact .selects switch
  | skipped skips => exact .skipped skips

/-- Edges that are dealt with in a slice are so in the list. -/
theorem within {slice : List Nat} {next : Option Nat}
    (h : Dealt sound slice next w id) (hwithin : Within slice next list after) :
    Dealt sound list after w id := by
  cases h with
  | stays edges => exact .stays fun t ht => hwithin.mem_or (edges t ht)
  | straight noBranch noSwitch goesOn =>
    refine .straight noBranch noSwitch fun hs t ht => ?_
    obtain ⟨n, hn, hjoined⟩ := goesOn hs t ht
    exact ⟨n, hwithin.mem_or hn, hjoined⟩
  | selects switch => exact .selects switch
  | skipped skips => exact .skipped (skips.within hwithin.subset)

/-- What becomes of a block only depends on the changes made to other blocks
before. -/
theorem of_later (h : Dealt sound list after w₁ id)
    (hchanges : Changes ids w w₁)
    (hsame : w₁.graph.block id = w.graph.block id) :
    Dealt sound list after w id := by
  have hexit : w₁.graph.exit id = w.graph.exit id := congrArg Block.exit hsame
  cases h with
  | stays edges =>
    rw [Graph.successors, hexit] at edges
    exact .stays edges
  | straight noBranch noSwitch goesOn =>
    rw [hexit] at noBranch noSwitch
    refine .straight noBranch noSwitch fun hs t ht => ?_
    rw [Graph.successors, hexit] at goesOn
    obtain ⟨n, hn, hjoined⟩ := goesOn hs t ht
    exact ⟨n, hn, hchanges.joined hjoined⟩
  | selects switch =>
    rw [hexit] at switch
    exact .selects switch
  | skipped skips => exact .skipped (skips.of_later hchanges)

/-- Leading edges to the head of a loop to the jump back to it leaves no edge
out. -/
theorem of_turned {head closing : Nat} {here : Prop}
    (h : Dealt sound list after w₁ id) (hchanges : Changes ids w w₁)
    (hhead : head ∈ list)
    (hturned : (w.graph.block id).Turned head closing here
      (w₁.graph.block id)) :
    Dealt sound list after w id := by
  obtain ⟨_, f, hexit, hother, _⟩ := hturned
  change w₁.graph.exit id = (w.graph.exit id).mapTargets f at hexit
  have hedge {t : Nat} (ht : t ∈ w.graph.successors id) :
      f t ∈ w₁.graph.successors id := by
    rw [Graph.successors, hexit, Exit.successors_mapTargets]
    exact List.mem_map_of_mem ht
  have hkind {p : Exit → Bool} {b : Bool} (hp : p (w₁.graph.exit id) = b)
      (hmap : ∀ e : Exit, p (e.mapTargets f) = p e) :
      p (w.graph.exit id) = b := by
    rw [← hmap, ← hexit]
    exact hp
  cases h with
  | stays edges =>
    refine .stays fun t ht => ?_
    by_cases heq : t = head
    · exact .inl (heq ▸ hhead)
    · have hstays := edges (f t) (hedge ht)
      rwa [hother t heq] at hstays
  | straight noBranch noSwitch goesOn =>
    refine .straight (hkind noBranch fun e => by cases e <;> rfl)
      (hkind noSwitch fun e => by cases e <;> rfl) fun hs t ht => ?_
    by_cases heq : t = head
    · exact ⟨head, .inl hhead, heq ▸ .refl _ _⟩
    · obtain ⟨n, hn, hjoined⟩ := goesOn hs (f t) (hedge ht)
      rw [hother t heq] at hjoined
      exact ⟨n, hn, hchanges.joined hjoined⟩
  | selects switch => exact .selects (hkind switch fun e => by cases e <;> rfl)
  | skipped skips => exact .skipped (skips.of_later hchanges)

/-- Where the edges of a block lead: those of a branch to blocks of the list or
to what comes after it, and all others to blocks joined with one of these, if
the sections are sound. -/
theorem edges (h : Dealt sound list after w id) (hskips : ¬ w.Skips list id)
    (hswitch : (w.graph.exit id).isSwitch = false) :
    ((w.graph.exit id).isBranch = true →
        ∀ t ∈ w.graph.successors id, t ∈ list ∨ after = some t) ∧
      (sound → ∀ t ∈ w.graph.successors id, ∃ n, (n ∈ list ∨ after = some n) ∧
        w.graph.Joined t n) := by
  cases h with
  | stays edges =>
    exact ⟨fun _ => edges, fun _ t ht => ⟨t, edges t ht, .refl _ t⟩⟩
  | straight noBranch noSwitch goesOn =>
    exact ⟨fun hbranch =>
      absurd hbranch (by rw [noBranch]; exact Bool.false_ne_true), goesOn⟩
  | selects switch =>
    exact absurd switch (by rw [hswitch]; exact Bool.false_ne_true)
  | skipped skips => exact absurd skips hskips

/-- Control that goes on at what comes next in a list. -/
theorem of_goesOn {next : Option Nat}
    (hbranch : (w.graph.exit id).isBranch = false)
    (hswitch : (w.graph.exit id).isSwitch = false)
    (hnext : ∀ n, next = some n → n ∈ list ∨ after = some n)
    (hgoes : sound → w.graph.goesOn id next = true) :
    Dealt sound list after w id := by
  refine .straight hbranch hswitch fun hs t ht => ?_
  obtain ⟨n, rfl, hjoined⟩ := Graph.joined_of_goesOn (hgoes hs) ht
  exact ⟨n, hnext n rfl, hjoined⟩

end Dealt

/-! ### Steps -/

/-- A step that deals with some blocks of a list, and changes no others. -/
structure Deals (list : List Nat) (after : Option Nat) (ids : List Nat)
    (w w' : Told) : Prop where
  changes : Told.Changes ids w w'
  dealt : ∀ id ∈ ids, Dealt (w'.faithful = true) list after w.toWork id

namespace Deals

variable {w w' w₁ w₂ : Told}

/-- Where there are no blocks there is nothing to deal with. -/
theorem nil (h : Told.Changes [] w w') : Deals list after [] w w' :=
  ⟨h, fun _ hmem => nomatch hmem⟩

/-- What comes before may already have dealt with the same blocks. -/
theorem trans (h : Deals list after ids w w₁)
    (h' : Deals list after more w₁ w₂) :
    Deals list after (ids ++ more) w w₂ := by
  have hdealt (id : Nat) (hid : id ∈ ids) :
      Dealt (w₂.faithful = true) list after w.toWork id :=
    (h.dealt id hid).mono h'.changes.faithful
  refine ⟨(h.changes.mono (List.subset_append_left _ _)).trans
    (h'.changes.mono (List.subset_append_right _ _)), fun id hid => ?_⟩
  by_cases hbefore : id ∈ ids
  · exact hdealt id hbefore
  · have hmore := (List.mem_append.1 hid).resolve_left hbefore
    exact (h'.dealt id hmore).of_later h.changes.work
      (h.changes.work.block_eq hbefore)

/-- More changes to blocks that have been dealt with. -/
theorem changed (h : Deals list after ids w w₁) (h' : Told.Changes ids w₁ w₂) :
    Deals list after ids w w₂ :=
  ⟨h.changes.trans h', fun id hid => (h.dealt id hid).mono h'.faithful⟩

/-- Blocks that are dealt with in a slice are so in the list. -/
theorem within {slice : List Nat} {next : Option Nat}
    (h : Deals slice next ids w w') (hwithin : Within slice next list after) :
    Deals list after ids w w' :=
  ⟨h.changes, fun id hid => (h.dealt id hid).within hwithin⟩

/-- Blocks that are dealt with without a change. -/
theorem of_subset (h : Deals list after ids w w') (hids : ids ⊆ more)
    (hmore : ∀ id ∈ more, id ∈ ids ∨
      Dealt (w'.faithful = true) list after w.toWork id) :
    Deals list after more w w' :=
  ⟨h.changes.mono hids, fun id hid =>
    (hmore id hid).elim (h.dealt id) fun hdealt => hdealt⟩

end Deals

/-- A structurer that deals with the blocks of its lists. -/
def StructurerDeals (inner : Structurer) : Prop :=
  ∀ (list : List Nat) (after : Option Nat) (w : Told) (ss : List Section)
    (w' : Told),
    w.Consistent → list.Pairwise (· < ·) →
    (inner list after).told w = .ok (ss, w') → Deals list after list w w'

end Decompiler
