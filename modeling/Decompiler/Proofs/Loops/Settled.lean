import Decompiler.Graph.Block
import Mathlib.Data.Set.Basic

/-!
# Edges back, and the loops that account for them

A block from which control may come back to where it has been, jumps followed,
owes a loop for it.  The loops of the sections of a stretch of blocks are to
account for what the blocks owe.  A stretch need not settle all of it: control
may leave the stretch for a place that is a way back itself, such as the jump
at the end of a loop.  What is left then is owed by the block at that place.

* `Section.loops`, `Graph.loopHeads`: the loops of sections and of a graph.
* `Graph.place`: where control comes to from a block, jumps followed.
* `Graph.Owes`: what a block owes.
* `Graph.Settles`: a number of loops accounts for what a stretch of blocks owes,
  up to some places; `Settles.through`, `Settles.loop`.
-/

namespace Decompiler

mutual

/-- The number of loops in a section, those in its parts included. -/
def Section.loops : Section → Nat
  | .inline _ => 0
  | .ifElse _ body rest => loopsOf body + loopsOfAlternative rest
  | .whileLoop _ body => loopsOf body + 1
  | .doLoop body _ => loopsOf body + 1
  | .switch _ cases => loopsOfCases cases
  | .tryCatch body handlers => loopsOf body + loopsOfHandlers handlers

/-- The number of loops in some sections. -/
def Section.loopsOf : List Section → Nat
  | [] => 0
  | s :: ss => s.loops + loopsOf ss

/-- The number of loops in what comes instead of a body. -/
def Section.loopsOfAlternative : Alternative Section → Nat
  | .none => 0
  | .orIf _ body rest => loopsOf body + loopsOfAlternative rest
  | .otherwise body => loopsOf body

/-- The number of loops in the cases of a switch. -/
def Section.loopsOfCases : List (Case Section) → Nat
  | [] => 0
  | ⟨_, _, _, body⟩ :: cs => loopsOf body + loopsOfCases cs

/-- The number of loops in the handlers of a try statement. -/
def Section.loopsOfHandlers : List (Handler Section) → Nat
  | [] => 0
  | ⟨_, _, body⟩ :: hs => loopsOf body + loopsOfHandlers hs

end

namespace Graph

/-- The blocks that a block with the same or a higher number has an edge to. -/
def loopHeads (g : Graph) : List Nat :=
  (List.range g.blocks.length).filter fun head =>
    (List.range g.blocks.length).any fun id => head ≤ id &&
      (g.successors id).contains head

/-! ## Places -/

/-- Control that comes to a block comes to another one by jumps alone, and stays
there to do something. -/
inductive Comes (g : Graph) : Nat → Nat → Prop
  | here {id : Nat} (stays : (g.exit id).isJump = false) : g.Comes id id
  | jump {id next t : Nat} (exit : g.exit id = .jumps next)
      (comes : g.Comes next t) :
      g.Comes id t

/-- Where control comes to from a block, jumps followed.  There is no such place
if the jumps go round in a circle. -/
def place (g : Graph) : Option Nat → Set Nat
  | some id => {t | g.Comes id t}
  | none => ∅

/-- A block owes what control may come to after it that does not lie ahead. -/
def Owes (g : Graph) (id t : Nat) : Prop :=
  t ≤ id ∧ ∃ next ∈ g.successors id, t ∈ g.place (some next)

/-- `n` loops account for what the blocks from `lo` up to and without `hi` owe,
but for what is owed at some places. -/
def Settles (g : Graph) (lo hi n : Nat) (left : Set Nat) : Prop :=
  ∃ heads : List Nat, heads.length ≤ n ∧
    ∀ id, lo ≤ id → id < hi → ∀ t, g.Owes id t → t ∈ heads ∨ t ∈ left

variable {g : Graph} {id next t lo mid hi n k : Nat} {left more : Set Nat}

/-- Control comes to one block only. -/
theorem Comes.unique {t' : Nat} (h : g.Comes id t) (h' : g.Comes id t') :
    t = t' := by
  induction h with
  | here stays =>
    cases h' with
    | here => rfl
    | jump exit =>
      rw [exit] at stays
      cases stays
  | jump exit _ ih =>
    cases h' with
    | here stays =>
      rw [exit] at stays
      cases stays
    | jump exit' comes' =>
      cases exit.symm.trans exit'
      exact ih comes'

/-- From a block that jumps, control comes to where it comes from the target. -/
theorem place_of_jumps (h : g.exit id = .jumps next) :
    g.place (some id) = g.place (some next) := by
  ext t
  constructor
  · intro hcomes
    cases hcomes with
    | here stays =>
      rw [h] at stays
      cases stays
    | jump exit comes =>
      cases h.symm.trans exit
      exact comes
  · exact fun hcomes => .jump h hcomes

/-- At a block that does not jump, control stays. -/
theorem place_of_stays (h : (g.exit id).isJump = false) :
    g.place (some id) = {id} := by
  ext t
  constructor
  · exact fun hcomes => hcomes.unique (.here h)
  · rintro rfl
    exact .here h

/-- What lies at a place behind a block, the block owes: it is a jump. -/
theorem owes_of_mem_place (h : t ∈ g.place (some id)) (hlt : t < id) :
    g.Owes id t := by
  cases h with
  | here => exact absurd hlt (Nat.lt_irrefl _)
  | jump exit comes =>
    exact ⟨Nat.le_of_lt hlt,
      _, by simp [successors, exit, Exit.successors], comes⟩

/-! ## Accounts -/

namespace Settles

/-- More loops may be counted, and more edges left. -/
theorem mono (h : g.Settles lo hi n left) (hn : n ≤ k) (hleft : left ⊆ more) :
    g.Settles lo hi k more := by
  obtain ⟨heads, hlen, hsettles⟩ := h
  exact ⟨heads, Nat.le_trans hlen hn, fun id hlo hhi t ht =>
    (hsettles id hlo hhi t ht).imp_right (hleft ·)⟩

/-- No blocks owe nothing. -/
theorem nil (h : hi ≤ lo) (left : Set Nat) : g.Settles lo hi 0 left :=
  ⟨[], Nat.le_refl 0, fun id hlo hhi => by omega⟩

/-- One block. -/
theorem one (h : ∀ t, g.Owes id t → t ∈ left) :
    g.Settles id (id + 1) 0 left := by
  refine ⟨[], Nat.le_refl 0, fun x hlo hhi t ht => .inr (h t ?_)⟩
  obtain rfl : x = id := by omega
  exact ht

/-- Two stretches one after the other. -/
theorem append (h : g.Settles lo mid n left) (h' : g.Settles mid hi k more) :
    g.Settles lo hi (n + k) (left ∪ more) := by
  obtain ⟨heads, hlen, hsettles⟩ := h
  obtain ⟨heads', hlen', hsettles'⟩ := h'
  refine ⟨heads ++
    heads', by rw [List.length_append]; omega, fun id hlo hhi t ht => ?_⟩
  rw [List.mem_append]
  rcases Nat.lt_or_ge id mid with hlt | hge
  · exact (hsettles id hlo hlt t ht).imp .inl .inl
  · exact (hsettles' id hge hhi t ht).imp .inr .inr

/-- What is left at the start of the next stretch is owed there, and the next
stretch settles it. -/
theorem through (h : g.Settles lo mid n (g.place (some mid) ∪ left))
    (h' : g.Settles mid hi k more) (hlt : mid < hi) :
    g.Settles lo hi (n + k) (more ∪ left) := by
  obtain ⟨heads, hlen, hsettles⟩ := h
  obtain ⟨heads', hlen', hsettles'⟩ := h'
  refine ⟨heads ++
    heads', by rw [List.length_append]; omega, fun id hlo hhi t ht => ?_⟩
  rw [List.mem_append]
  rcases Nat.lt_or_ge id mid with hless | hge
  · rcases hsettles id hlo hless t ht with hhead | hplace | hleft
    · exact .inl (.inl hhead)
    · have howes := owes_of_mem_place hplace (Nat.lt_of_le_of_lt ht.1 hless)
      exact (hsettles' mid (Nat.le_refl mid) hlt t howes).imp .inr .inl
    · exact .inr (.inr hleft)
  · exact (hsettles' id hge hhi t ht).imp .inr .inl

/-- What lies ahead is owed by none, if it is no jump. -/
theorem ahead (h : g.Settles lo hi n (g.place (some next))) (hle : hi ≤ next)
    (hstays : (g.exit next).isJump = false) : g.Settles lo hi n ∅ := by
  obtain ⟨heads, hlen, hsettles⟩ := h
  refine ⟨heads, hlen, fun id hlo hhi t ht => ?_⟩
  rcases hsettles id hlo hhi t ht with hhead | hplace
  · exact .inl hhead
  · rw [place_of_stays hstays] at hplace
    obtain rfl : t = next := hplace
    exact absurd (Nat.lt_of_lt_of_le hhi hle) (Nat.not_lt.2 ht.1)

/-- A loop settles what is owed at its head. -/
theorem loop {next : Option Nat} (h : g.Settles lo hi n (g.place next ∪ left)) :
    g.Settles lo hi (n + 1) left := by
  obtain ⟨heads, hlen, hsettles⟩ := h
  by_cases hplace : ∃ head, head ∈ g.place next
  · obtain ⟨head, hhead⟩ := hplace
    refine ⟨head :: heads, Nat.succ_le_succ hlen, fun id hlo hhi t ht => ?_⟩
    rcases hsettles id hlo hhi t ht with hmem | hmem | hmem
    · exact .inl (List.mem_cons_of_mem _ hmem)
    · refine .inl (List.mem_cons.2 (.inl ?_))
      cases next with
      | none => exact absurd hmem (Set.notMem_empty t)
      | some next => exact Comes.unique hmem hhead
    · exact .inr hmem
  · refine ⟨heads, Nat.le_succ_of_le hlen, fun id hlo hhi t ht => ?_⟩
    rcases hsettles id hlo hhi t ht with hmem | hmem | hmem
    · exact .inl hmem
    · exact absurd ⟨t, hmem⟩ hplace
    · exact .inr hmem

end Settles

end Graph

end Decompiler
