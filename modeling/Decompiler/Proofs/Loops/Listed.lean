import Decompiler.Proofs.Region.Linked
import Decompiler.Proofs.Loops.Settled

/-!
# Lists of blocks without gaps

The lists that a graph is taken apart into hold its blocks in order.  An element
stands for its block alone, or for all blocks of a region that has been folded
into it, up to the next element.  So a list covers a stretch of blocks without
gaps, and ends in front of a block of its own.

* `Piece`: what an element of a list stands for.
* `Listed`: lists without gaps; `listed_append`, `Listed.pairwise_lt`.
* `Listed.kept`, `Listed.continueAt`, `Listed.fold`: what the steps of taking a
  graph apart do to them.
-/

namespace Decompiler

/-- What an element of a list stands for, up to `next`: one block whose edges
lead to where they led in the beginning, or a folded region whose loops account
for what its blocks owe. -/
inductive Piece (g₀ : Graph) (w : Told) (id next : Nat) : Prop
  | whole {f : Nat → Nat} (plain : (w.graph.block id).folded = none)
      (exit : w.graph.exit id = (g₀.exit id).mapTargets f)
      (same : ∀ t, g₀.place (some (f t)) = g₀.place (some t))
      (ahead : ∀ t, id < t → f t = t) (next_eq : next = id + 1)
  | folded {s : Section} {after : Option Nat}
      (holds : (w.graph.block id).folded = some s)
      (exit : w.graph.exit id = .falls after) (lt : id < next)
      (settles : g₀.Settles id next s.loops (g₀.place after))

/-- The elements of a list cover the blocks from the first of them up to
`hi`. -/
def Listed (g₀ : Graph) (w : Told) : List Nat → (hi : Nat) → Prop
  | [], _ => True
  | id :: rest, hi => Piece g₀ w id (rest.headD hi) ∧ Listed g₀ w rest hi

variable {g₀ : Graph} {w w' : Told} {list : List Nat} {hi id : Nat}

namespace Piece

variable {next : Nat}

/-- A piece ends behind its block. -/
theorem lt (h : Piece g₀ w id next) : id < next := by
  cases h with
  | whole _ _ _ _ next_eq => omega
  | folded _ _ lt => exact lt

/-- A piece depends on its own block only. -/
theorem congr (h : Piece g₀ w id next)
    (heq : w'.graph.block id = w.graph.block id) : Piece g₀ w' id next := by
  cases h with
  | whole plain exit same ahead next_eq =>
    exact .whole (heq ▸ plain) (by rw [Graph.exit, heq]; exact exit) same
      ahead next_eq
  | folded holds exit lt settles =>
    exact .folded (heq ▸ holds) (by rw [Graph.exit, heq]; exact exit) lt settles

/-- A block that is no fallthrough has not been folded. -/
theorem of_exit (h : Piece g₀ w id next)
    (hexit : ∀ after, w.graph.exit id ≠ .falls after) :
    next = id + 1 ∧ ∃ f, w.graph.exit id = (g₀.exit id).mapTargets f ∧
      (∀ t, g₀.place (some (f t)) = g₀.place (some t)) ∧ ∀ t, id < t →
        f t = t := by
  cases h with
  | whole _ exit same ahead next_eq => exact ⟨next_eq, _, exit, same, ahead⟩
  | folded _ exit => exact absurd exit (hexit _)

end Piece

theorem looksHere_piece (g₀ : Graph) : LooksHere (Piece g₀) :=
  fun _ _ _ _ heq h => h.congr heq

/-- A list of blocks is linked by pieces. -/
theorem listed_iff_linked : Listed g₀ w list hi ↔
      Linked (Piece g₀ w) list hi := by
  induction list with
  | nil => exact Iff.rfl
  | cons id rest ih => rw [Listed, Linked, ih]

/-- A list in two parts is two lists, the first up to the second. -/
theorem listed_append {xs ys : List Nat} :
    Listed g₀ w (xs ++ ys) hi ↔ Listed g₀ w xs (ys.headD hi) ∧
      Listed g₀ w ys hi := by
  simp only [listed_iff_linked, linked_append]

namespace Listed

/-- The front of a list goes up to what is left. -/
theorem take (h : Listed g₀ w list hi) (k : Nat) :
    Listed g₀ w (list.take k) ((list.drop k).headD hi) :=
  listed_iff_linked.2 ((listed_iff_linked.1 h).take k)

/-- The back of a list goes up to where the list does. -/
theorem drop (h : Listed g₀ w list hi) (k : Nat) :
    Listed g₀ w (list.drop k) hi :=
  listed_iff_linked.2 ((listed_iff_linked.1 h).drop k)

/-- A slice of a list covers the blocks up to the element after it. -/
theorem slice (h : Listed g₀ w list hi) (i stop : Nat) :
    Listed g₀ w ((list.take stop).drop i) ((list.drop stop).headD hi) :=
  (h.take stop).drop i

/-- The element at a position, up to the next one. -/
theorem piece {p : Nat} (h : Listed g₀ w list hi) (hid : list[p]? = some id) :
    Piece g₀ w id ((list.drop (p + 1)).headD hi) :=
  (listed_iff_linked.1 h).getElem? hid

theorem congr (h : Listed g₀ w list hi)
    (heq : ∀ id ∈ list, w'.graph.block id = w.graph.block id) :
    Listed g₀ w' list hi :=
  listed_iff_linked.2 ((listed_iff_linked.1 h).congr (looksHere_piece g₀) heq)

/-- A step that changes other blocks leaves a list as it is. -/
theorem kept {ids : List Nat} (h : Listed g₀ w list hi) (hkept : Kept ids w w')
    (hdisjoint : list.Disjoint ids) : Listed g₀ w' list hi :=
  h.congr fun id hid => hkept.others id (hdisjoint hid)

/-- The elements ascend, and the end lies behind all of them. -/
theorem pairwise_lt (h : Listed g₀ w list hi) :
    (list ++ [hi]).Pairwise (· < ·) :=
  (listed_iff_linked.1 h).pairwise_lt fun _ _ => Piece.lt

/-- Elements ascend with their positions. -/
theorem lt_of_lt (h : Listed g₀ w list hi) {p q a b : Nat} (hpq : p < q)
    (ha : list[p]? = some a) (hb : list[q]? = some b) : a < b :=
  lt_of_getElem?_of_lt (List.pairwise_append.1 h.pairwise_lt).1 hpq ha hb

/-- A block with a smaller number stands earlier. -/
theorem lt_of_lt_of_getElem? (h : Listed g₀ w list hi) {p q a b : Nat}
    (hab : a < b) (ha : list[p]? = some a) (hb : list[q]? = some b) : p < q :=
  position_lt_of_lt (List.pairwise_append.1 h.pairwise_lt).1 hab ha hb

/-- The blocks of a list are distinct. -/
theorem nodup (h : Listed g₀ w list hi) : list.Nodup :=
  (List.pairwise_append.1 h.pairwise_lt).1.imp Nat.ne_of_lt

/-- The blocks of a list are in front of its end. -/
theorem lt_of_mem (h : Listed g₀ w list hi) (hid : id ∈ list) : id < hi :=
  (List.pairwise_append.1 h.pairwise_lt).2.2 id hid hi
    (List.mem_singleton_self hi)

/-- A list starts in front of its end. -/
theorem head_le (h : Listed g₀ w list hi) : list.headD hi ≤ hi := by
  cases list with
  | nil => exact Nat.le_refl _
  | cons id rest => exact Nat.le_of_lt (h.lt_of_mem List.mem_cons_self)

end Listed

/-! ## Edges to the head of a loop -/

/-- A block whose edges to `head` may have been turned to `closing`. -/
def Block.Turned (head closing : Nat) (here : Prop) (b b' : Block) : Prop :=
  b'.folded = b.folded ∧ ∃ f : Nat → Nat, b'.exit = b.exit.mapTargets f ∧
    (∀ t, t ≠ head → f t = t) ∧ (f head = head ∨ here ∧ f head = closing)

namespace Block.Turned

variable {head closing : Nat} {here there : Prop} {b b' b'' : Block}

/-- A block whose edges have not been turned is a turned one. -/
theorem refl (head closing : Nat) (here : Prop) (b : Block) :
    Turned head closing here b b :=
  ⟨rfl, fun t => t, (Exit.mapTargets_id _).symm, fun _ _ => rfl, .inl rfl⟩

/-- A block whose edges are turned twice is a turned one. -/
theorem trans (hne : closing ≠ head) (h : Turned head closing here b b')
    (h' : Turned head closing there b' b'') :
    Turned head closing (here ∨ there) b b'' := by
  obtain ⟨hfolded, f, hexit, hother, hhead⟩ := h
  obtain ⟨hfolded', f', hexit', hother', hhead'⟩ := h'
  refine ⟨hfolded'.trans hfolded, f' ∘ f, ?_, fun t ht => ?_, ?_⟩
  · rw [hexit', hexit, Exit.mapTargets_mapTargets]
  · rw [Function.comp_apply, hother t ht, hother' t ht]
  · rw [Function.comp_apply]
    rcases hhead with hsame | ⟨hhere, hturned⟩
    · rw [hsame]
      exact hhead'.imp_right fun hthere => ⟨.inr hthere.1, hthere.2⟩
    · rw [hturned, hother' closing hne]
      exact .inr ⟨.inl hhere, rfl⟩

end Block.Turned

namespace Graph

theorem block_modify_preds (g : Graph) (id x : Nat)
    (change : List Nat → List Nat) :
    ∃ preds, (g.modify id fun b => { b with preds := change b.preds }).block x =
      { g.block x with preds } := by
  rcases g.block_modify id x fun b => { b with preds := change b.preds }
    with hsame | ⟨_, hchanged⟩
  · exact ⟨_, hsame⟩
  · exact ⟨_, hchanged⟩

/-- Only edges to the head of a loop from the given block are turned. -/
theorem turned_continueAt (g : Graph) (head closing id x : Nat) :
    (g.block x).Turned head closing (x = id)
      ((g.continueAt head closing id).block x) := by
  unfold continueAt
  split
  · obtain ⟨preds, heq⟩ := block_modify_preds ((g.redirect id fun t =>
      if t = head then
        closing else t).modify head fun b =>
        { b with preds := b.preds.erase id })
      closing x (insertPred id)
    obtain ⟨preds', heq'⟩ := block_modify_preds (g.redirect id fun t =>
      if t = head then closing else t) head x (·.erase id)
    rw [heq, heq']
    rcases g.block_modify id x (fun b => { b with
        exit := b.exit.mapTargets fun t => if t = head then closing else t })
          with
      hsame | ⟨hx, hturned⟩
    · rw [redirect, hsame]
      exact .refl _ _ _ _
    · rw [redirect, hturned]
      exact ⟨rfl, _, rfl, fun t ht => if_neg ht, .inr ⟨hx, if_pos rfl⟩⟩
  · exact .refl _ _ _ _

/-- Continuing at the jump that closes a loop turns the blocks that do. -/
theorem turned_foldl_continueAt {head closing : Nat} (hne : closing ≠ head)
    (ids : List Nat) (g : Graph) (x : Nat) :
    (g.block x).Turned head closing (x ∈ ids)
      ((ids.foldl (fun g id => g.continueAt head closing id) g).block x) := by
  induction ids generalizing g with
  | nil => exact .refl _ _ _ _
  | cons id ids ih =>
    simp only [List.mem_cons]
    exact (g.turned_continueAt head closing id x).trans hne (ih _)

end Graph

/-- Closing a loop turns the blocks of its body. -/
theorem turned_closed {first : Nat} {rest : List Nat}
    (hasc : (first :: rest).Pairwise (· < ·)) (id : Nat) :
    (w.graph.block id).Turned first (rest.getLastD first) (id ∈ rest.dropLast)
      ((w.closed first rest).graph.block id) := by
  cases rest with
  | nil => exact .refl _ _ _ _
  | cons second others =>
    refine Graph.turned_foldl_continueAt (fun heq => getLastD_not_mem hasc ?_) _
      w.graph id
    rw [heq]
    exact List.mem_cons_self

/-- Leading edges to the head of a loop to the jump back to it leaves pieces
behind the head as they are. -/
theorem Piece.turned {next head closing : Nat} {ids : List Nat}
    (h : Piece g₀ w id next)
    (hclose : g₀.place (some closing) = g₀.place (some head))
    (hbehind : id ∈ ids → head < id)
    (hturned : (w.graph.block id).Turned head closing (id ∈ ids)
      (w'.graph.block id)) :
    Piece g₀ w' id next := by
  obtain ⟨hfolded, f, hexit, hother, hhead⟩ := hturned
  have hsame (t : Nat) : g₀.place (some (f t)) = g₀.place (some t) := by
    by_cases ht : t = head
    · subst ht
      rcases hhead with heq | ⟨_, heq⟩
      · rw [heq]
      · rw [heq, hclose]
    · rw [hother t ht]
  have hahead (t : Nat) (ht : id < t) : f t = t := by
    by_cases hthead : t = head
    · subst hthead
      refine hhead.resolve_right fun ⟨hmem, _⟩ => ?_
      exact absurd (hbehind hmem) (Nat.lt_asymm ht)
    · exact hother t hthead
  cases h with
  | @whole f₀ plain exit same ahead next_eq =>
    refine .whole (hfolded.trans plain) (f := f ∘ f₀) ?_ (fun t => ?_)
      (fun t ht => ?_) next_eq
    · rw [← Exit.mapTargets_mapTargets, ← exit]
      exact hexit
    · exact (hsame _).trans (same t)
    · rw [Function.comp_apply, ahead t ht, hahead t ht]
  | @folded s after holds exit lt settles =>
    refine @Piece.folded _ _ _ _ s (after.map f) (hfolded.trans holds) ?_ lt ?_
    · change (w'.graph.block id).exit = _
      rw [hexit]
      change ((w.graph.exit id).mapTargets f) = _
      rw [exit]
      rfl
    · cases after with
      | none => exact settles
      | some after =>
        rw [Option.map_some, hsame]
        exact settles

namespace Listed

/-- A list keeps covering its blocks when edges to its head are led to the jump
at its end. -/
theorem continueAt {head closing : Nat} {ids : List Nat}
    (h : Listed g₀ w list hi) (hne : closing ≠ head)
    (hclose : g₀.place (some closing) = g₀.place (some head))
    (hbehind : ∀ id ∈ ids, head < id) :
    Listed g₀ { w with graph := ids.foldl (fun g id => g.continueAt head closing id) w.graph }
      list hi :=
  listed_iff_linked.2 ((listed_iff_linked.1 h).imp fun id _ _ hpiece =>
    hpiece.turned hclose (hbehind id)
      (Graph.turned_foldl_continueAt hne ids w.graph id))

/-- Folding a region into its first block leaves a list that covers the same
blocks. -/
theorem fold {i stop next : Nat} {s : Section} (h : Listed g₀ w list hi)
    (hid : list[i]? = some id) (hstop : i < stop)
    (hnext : list[stop]? = some next)
    (hkept : Kept ((list.take stop).drop i) w w')
    (hlt : id < w'.graph.blocks.length)
    (hsettles : g₀.Settles id next s.loops (g₀.place (some next))) :
    Listed g₀ { w' with graph := w'.graph.fold id s (some next) }
      (list.take (i + 1) ++ list.drop stop) hi := by
  have hfolded : (w'.graph.fold id s (some next)).block id =
      { w'.graph.block id with folded := some s, exit := .falls (some next) } :=
    Graph.block_modify_self _ _ hlt
  exact listed_iff_linked.2
    ((listed_iff_linked.1 h).fold_region (looksHere_piece g₀) h.nodup hid
    hstop hnext hkept (.folded (by rw [hfolded]) (by rw [Graph.exit, hfolded])
      (h.lt_of_lt hstop hid hnext) hsettles))

end Listed

end Decompiler
