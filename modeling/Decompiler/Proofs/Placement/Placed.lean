import Decompiler.Proofs.Chain.Walk
import Decompiler.Proofs.Graph.Tidy
import Decompiler.Proofs.Loops.Listed
import Decompiler.Proofs.Placement.Fills

/-!
# Lists whose elements stand for blocks in turn

While a graph is taken apart, an element of a list is a block that is still to
be placed, or a region that has been folded.  The sections of such a region hold
its blocks, so the next element is the first block behind it, and a list
accounts for each of the blocks up to its end.

* `Element`: what an element of a list stands for.
* `Placed`: lists whose elements lie next to one another; `Placed.closed`,
  `Placed.fold`.
* `fills_of_branches`, `fills_of_guard`: tests leave nothing to hold.
-/

namespace Decompiler

/-- What an element of a list stands for, up to `next`: one block whose edges
have been led elsewhere at most, or a region that has been folded into sections
which hold its blocks. -/
inductive Element (g₀ : Graph) (w : Told) (id next : Nat) : Prop
  | whole {f : Nat → Nat} (plain : (w.graph.block id).folded = none)
      (exit : w.graph.exit id = (g₀.exit id).mapTargets f)
      (next_eq : next = id + 1)
  | folded {s : Section} {after : Option Nat}
      (holds : (w.graph.block id).folded = some s)
      (exit : w.graph.exit id = .falls after) (lt : id < next)
      (fills : g₀.Fills id next s.inlined)

/-- The elements of a list lie next to one another, and the last one ends at
`hi`. -/
abbrev Placed (g₀ : Graph) (w : Told) : List Nat → (hi : Nat) → Prop :=
  Linked (Element g₀ w)

variable {g₀ : Graph} {w w' : Told} {list : List Nat} {hi id : Nat}

namespace Element

variable {next : Nat}

/-- An element ends behind its block. -/
theorem lt (h : Element g₀ w id next) : id < next := by
  cases h with
  | whole _ _ next_eq => omega
  | folded _ _ lt => exact lt

/-- A block that is no fallthrough has not been folded. -/
theorem of_exit (h : Element g₀ w id next)
    (hexit : ∀ after, w.graph.exit id ≠ .falls after) :
    next = id + 1 ∧ ∃ f, w.graph.exit id = (g₀.exit id).mapTargets f := by
  cases h with
  | whole _ exit next_eq => exact ⟨next_eq, _, exit⟩
  | folded _ exit => exact absurd exit (hexit _)

/-- A test leaves nothing to hold. -/
theorem fills_of_isBranch (h : Element g₀ w id next)
    (hbranch : (w.graph.exit id).isBranch = true) : g₀.Fills id next [] := by
  obtain ⟨rfl, f, hexit⟩ := h.of_exit fun _ heq => by
    rw [heq] at hbranch
    cases hbranch
  rw [hexit, Exit.isBranch_mapTargets] at hbranch
  exact .skip (.inl hbranch)

/-- A jump leaves nothing to hold. -/
theorem fills_of_isJump (h : Element g₀ w id next)
    (hjump : (w.graph.exit id).isJump = true) : g₀.Fills id next [] := by
  obtain ⟨rfl, f, hexit⟩ := h.of_exit fun _ heq => by
    rw [heq] at hjump
    cases hjump
  rw [hexit, Exit.isJump_mapTargets] at hjump
  exact .skip (.inr hjump)

/-- A block that is no test is held where its code stands. -/
theorem fills_inline (h : Element g₀ w id next)
    (hplain : (w.graph.block id).folded = none)
    (hbranch : (w.graph.exit id).isBranch = false) : g₀.Fills id next [id] := by
  cases h with
  | whole _ exit next_eq =>
    subst next_eq
    rw [exit, Exit.isBranch_mapTargets] at hbranch
    exact .one hbranch
  | folded holds =>
    rw [hplain] at holds
    cases holds

/-- A region that has been folded is held by its sections. -/
theorem fills_folded (h : Element g₀ w id next) {s : Section}
    (hfolded : (w.graph.block id).folded = some s) :
    g₀.Fills id next s.inlined := by
  cases h with
  | whole plain =>
    rw [plain] at hfolded
    cases hfolded
  | folded holds _ _ fills =>
    obtain rfl := Option.some.inj (holds.symm.trans hfolded)
    exact fills

end Element

theorem looksHere_element (g₀ : Graph) : LooksHere (Element g₀) := by
  intro w w' id next heq h
  cases h with
  | whole plain exit next_eq =>
    exact .whole (heq ▸ plain) (by rw [Graph.exit, heq]; exact exit) next_eq
  | folded holds exit lt fills =>
    exact .folded (heq ▸ holds) (by rw [Graph.exit, heq]; exact exit) lt fills

/-- Edges may be led elsewhere. -/
theorem Element.turned {next head closing : Nat} {here : Prop}
    (h : Element g₀ w id next)
    (hturned : (w.graph.block id).Turned head closing here
      (w'.graph.block id)) :
    Element g₀ w' id next := by
  obtain ⟨hfolded, f, hexit, _⟩ := hturned
  cases h with
  | @whole f₀ plain exit next_eq =>
    refine .whole (hfolded.trans plain) (f := f ∘ f₀) ?_ next_eq
    rw [← Exit.mapTargets_mapTargets, ← exit]
    exact hexit
  | @folded s after holds exit lt fills =>
    refine @Element.folded _ _ _ _ s (after.map f) (hfolded.trans holds) ?_
      lt fills
    change _ = (Exit.falls after).mapTargets f
    rw [← exit]
    exact hexit

namespace Placed

/-- The blocks of a placed list ascend. -/
theorem ascends (h : Placed g₀ w list hi) : list.Pairwise (· < ·) :=
  (List.pairwise_append.1 (h.pairwise_lt fun _ _ => Element.lt)).1

/-- The blocks of a placed list are distinct. -/
theorem nodup (h : Placed g₀ w list hi) : list.Nodup :=
  h.ascends.imp Nat.ne_of_lt

/-- Edges to the head of a loop may be led to the jump back to it. -/
theorem closed {first : Nat} {rest : List Nat}
    (h : Placed g₀ w (first :: rest) hi) :
    Placed g₀ (w.closed first rest) (first :: rest) hi :=
  h.imp fun id _ _ helement => helement.turned (turned_closed h.ascends id)

/-- Folding a region into its first block leaves a list that stands for the same
blocks. -/
theorem fold {i stop next : Nat} {s : Section} (h : Placed g₀ w list hi)
    (hid : list[i]? = some id) (hstop : i < stop)
    (hnext : list[stop]? = some next)
    (hkept : Kept ((list.take stop).drop i) w w')
    (hlt : id < w'.graph.blocks.length) (hfills : g₀.Fills id next s.inlined) :
    Placed g₀ { w' with graph := w'.graph.fold id s (some next) }
      (list.take (i + 1) ++ list.drop stop) hi := by
  have hfolded : (w'.graph.fold id s (some next)).block id =
      { w'.graph.block id with folded := some s, exit := .falls (some next) } :=
    Graph.block_modify_self _ _ hlt
  exact h.fold_region (looksHere_element g₀) h.nodup hid hstop hnext hkept
    (.folded (by rw [hfolded]) (by rw [Graph.exit, hfolded])
      (lt_of_getElem?_of_lt h.ascends hstop hid hnext) hfills)

end Placed

/-- Tests leave nothing to hold. -/
theorem fills_of_branches (h : Placed g₀ w list hi)
    (hbranches : ∀ id ∈ list, (w.graph.exit id).isBranch = true) :
    g₀.Fills (list.headD hi) hi [] := by
  induction list with
  | nil => exact .nil g₀ hi
  | cons id rest ih =>
    exact (h.1.fills_of_isBranch (hbranches id List.mem_cons_self)).append
      (ih h.2 fun x hx => hbranches x (List.mem_cons_of_mem id hx))

/-- A chain that has a guard consists of tests. -/
theorem fills_of_guard {ctx : Context} {body : Nat} {after : Option Nat}
    {c : Condition} (h : Placed g₀ w list hi)
    (hguard : w.graph.guard ctx list body after = .ok c) :
    g₀.Fills (list.headD hi) hi [] :=
  fills_of_branches h fun id hid => by
    obtain ⟨taken, fallen, _, _, hexit, _⟩ :=
      Graph.exists_branches_of_guard hguard hid
    rw [hexit]
    rfl

end Decompiler
