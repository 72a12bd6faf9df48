import Decompiler.Graph.Block
import Mathlib.Data.List.Nodup

/-!
# The blocks that sections hold

Straight-line code is in the sections block by block.  A test is in none of
them, since it has gone into a condition, and neither has a jump to be in one.
So the sections of a stretch of blocks hold what lies between tests and jumps,
and a stretch may be cut in two wherever it starts and ends with a block.

* `Section.inlined`: the blocks in a section, as they are read.
* `Graph.Fills`: blocks that ascend and are all that a stretch has to hold;
  `Fills.append`, `Fills.one`, `Fills.skip`.
-/

namespace Decompiler

namespace Section

mutual

/-- The blocks whose straight-line code is in a section, in the order of the
text. -/
def inlined : Section → List Nat
  | .inline id => [id]
  | .ifElse _ body rest => inlinedIn body ++ inlinedInstead rest
  | .whileLoop _ body | .doLoop body _ => inlinedIn body
  | .switch _ cases => inlinedInCases cases
  | .tryCatch body handlers => inlinedIn body ++ inlinedInHandlers handlers

/-- The same for some sections. -/
def inlinedIn : List Section → List Nat
  | [] => []
  | s :: ss => s.inlined ++ inlinedIn ss

/-- The same for what comes instead of a body. -/
def inlinedInstead : Alternative Section → List Nat
  | .none => []
  | .orIf _ body rest => inlinedIn body ++ inlinedInstead rest
  | .otherwise body => inlinedIn body

/-- The same for the cases of a switch. -/
def inlinedInCases : List (Case Section) → List Nat
  | [] => []
  | ⟨_, _, _, body⟩ :: cs => inlinedIn body ++ inlinedInCases cs

/-- The same for the clauses of a try statement. -/
def inlinedInHandlers : List (Handler Section) → List Nat
  | [] => []
  | ⟨_, _, body⟩ :: hs => inlinedIn body ++ inlinedInHandlers hs

end

end Section

/-- Some ascending blocks are blocks of the stretch from `lo` up to and without
`hi`.  They are no tests, and all others there are tests or jumps. -/
structure Graph.Fills (g : Graph) (lo hi : Nat) (ids : List Nat) : Prop where
  le : lo ≤ hi
  ascends : ids.Pairwise (· < ·)
  inside : ∀ id ∈ ids, lo ≤ id ∧ id < hi
  noTest : ∀ id ∈ ids, (g.exit id).isBranch = false
  all : ∀ id, lo ≤ id → id < hi → (g.exit id).isBranch = false →
    (g.exit id).isJump = false → id ∈ ids

namespace Graph.Fills

variable {g : Graph} {lo mid hi id : Nat} {ids others : List Nat}

/-- No sections fill no room. -/
theorem nil (g : Graph) (hi : Nat) : g.Fills hi hi [] where
  le := Nat.le_refl hi
  ascends := .nil
  inside := List.forall_mem_nil _
  noTest := List.forall_mem_nil _
  all := fun _ hlo hhi => absurd hhi (Nat.not_lt.2 hlo)

/-- Stretches that lie next to one another. -/
theorem append (h : g.Fills lo mid ids) (h' : g.Fills mid hi others) :
    g.Fills lo hi (ids ++ others) where
  le := Nat.le_trans h.le h'.le
  ascends := List.pairwise_append.2 ⟨h.ascends, h'.ascends, fun a ha b hb =>
    Nat.lt_of_lt_of_le (h.inside a ha).2 (h'.inside b hb).1⟩
  inside := List.forall_mem_append.2
    ⟨fun id hid =>
      ⟨(h.inside id hid).1, Nat.lt_of_lt_of_le (h.inside id hid).2 h'.le⟩,
      fun id hid =>
        ⟨Nat.le_trans h.le (h'.inside id hid).1, (h'.inside id hid).2⟩⟩
  noTest := List.forall_mem_append.2 ⟨h.noTest, h'.noTest⟩
  all := fun id hlo hhi htest hjump => by
    rw [List.mem_append]
    rcases Nat.lt_or_ge id mid with hlt | hge
    · exact .inl (h.all id hlo hlt htest hjump)
    · exact .inr (h'.all id hge hhi htest hjump)

/-- A block that is no test. -/
theorem one (h : (g.exit id).isBranch = false) : g.Fills id (id + 1) [id] where
  le := Nat.le_succ id
  ascends := List.pairwise_singleton _ id
  inside := List.forall_mem_singleton.2 ⟨Nat.le_refl id, Nat.lt_succ_self id⟩
  noTest := List.forall_mem_singleton.2 h
  all :=
    fun _ hlo hhi _ _ =>
      List.mem_singleton.2 (Nat.le_antisymm (Nat.le_of_lt_succ hhi) hlo)

/-- A test, or a jump. -/
theorem skip (h : (g.exit id).isBranch = true ∨ (g.exit id).isJump = true) :
    g.Fills id (id + 1) [] where
  le := Nat.le_succ id
  ascends := .nil
  inside := List.forall_mem_nil _
  noTest := List.forall_mem_nil _
  all := fun x hlo hhi htest hjump => by
    obtain rfl := Nat.le_antisymm (Nat.le_of_lt_succ hhi) hlo
    rcases h with h | h
    · rw [htest] at h
      cases h
    · rw [hjump] at h
      cases h

/-- Each block of a stretch that is neither a test nor a jump is held once. -/
theorem count_eq_one (h : g.Fills lo hi ids) (hlo : lo ≤ id) (hhi : id < hi)
    (htest : (g.exit id).isBranch = false)
    (hjump : (g.exit id).isJump = false) : ids.count id = 1 :=
  List.count_eq_one_of_mem (h.ascends.imp Nat.ne_of_lt)
    (h.all id hlo hhi htest hjump)

end Graph.Fills

end Decompiler
