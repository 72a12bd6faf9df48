import Decompiler.Proofs.Region.Kept

/-!
# Linked lists of blocks

The lists that a graph is taken apart into hold its blocks in order.  What is
known of an element often says something about the next one, or about the end of
the list: the element stands for all blocks up to there.  So this is a relation
between neighbours, which a list keeps when it is cut into slices, and when a
slice of it is folded into its first element.

* `Linked`: neighbours are related, and the last element is to the end.
* `linked_append`, `Linked.slice`, `Linked.slice_of_drop`, `Linked.dropLast`:
  slices.
* `Linked.pairwise_lt`: lists ascend if related elements do.
* `Linked.fold`: a slice is replaced by its first element.
* `Linked.kept`, `Linked.fold_region`: what the steps of taking a graph apart do
  to relations that look at the block of an element only.
-/

namespace Decompiler

/-- Each element of a list is related to the next one, and the last to the
end. -/
def Linked (R : Nat → Nat → Prop) : List Nat → (hi : Nat) → Prop
  | [], _ => True
  | id :: rest, hi => R id (rest.headD hi) ∧ Linked R rest hi

variable {R S : Nat → Nat → Prop} {list : List Nat} {hi id : Nat}

theorem linked_append {xs ys : List Nat} :
    Linked R (xs ++ ys) hi ↔ Linked R xs (ys.headD hi) ∧ Linked R ys hi := by
  induction xs with
  | nil => exact ⟨fun h => ⟨trivial, h⟩, And.right⟩
  | cons x xs ih =>
    rw [List.cons_append, Linked, Linked, headD_append, ih, and_assoc]

namespace Linked

theorem take (h : Linked R list hi) (k : Nat) :
    Linked R (list.take k) ((list.drop k).headD hi) :=
  (linked_append.1 ((List.take_append_drop k list).symm ▸ h)).1

theorem drop (h : Linked R list hi) (k : Nat) : Linked R (list.drop k) hi :=
  (linked_append.1 ((List.take_append_drop k list).symm ▸ h)).2

/-- A slice of a list is linked up to the element after it. -/
theorem slice (h : Linked R list hi) (i stop : Nat) :
    Linked R ((list.take stop).drop i) ((list.drop stop).headD hi) :=
  (h.take stop).drop i

/-- All elements but the last one, and the last one. -/
theorem dropLast {first : Nat} {rest : List Nat}
    (h : Linked R (first :: rest) hi) :
    Linked R (first :: rest).dropLast (rest.getLastD first) ∧
      R (rest.getLastD first) hi := by
  rw [← dropLast_append_getLastD, linked_append] at h
  exact ⟨h.1, h.2.1⟩

/-- The element at a position is related to the next one. -/
theorem getElem? {p : Nat} (h : Linked R list hi) (hid : list[p]? = some id) :
    R id ((list.drop (p + 1)).headD hi) := by
  obtain ⟨hp, rfl⟩ := List.getElem?_eq_some_iff.1 hid
  have hdrop := h.drop p
  rw [List.drop_eq_getElem_cons hp] at hdrop
  exact hdrop.1

/-! What is left of a list from a position on: its first element, a slice at its
front, and what is left behind the slice. -/

section OfDrop

variable {i next : Nat}

theorem head_of_drop (h : Linked R (list.drop i) hi)
    (hid : list[i]? = some id) : R id ((list.drop (i + 1)).headD hi) := by
  have hhead : (list.drop i)[0]? = some id := by
    rw [List.getElem?_drop, Nat.add_zero, hid]
  have hrelated := h.getElem? hhead
  rwa [List.drop_drop] at hrelated

theorem slice_of_drop (h : Linked R (list.drop i) hi) (hle : i ≤ next) :
    Linked R ((list.take next).drop i) ((list.drop next).headD hi) := by
  have htake := h.take (next - i)
  rwa [List.drop_drop, Nat.add_sub_cancel' hle, ← List.drop_take] at htake

theorem drop_of_drop (h : Linked R (list.drop i) hi) (hle : i ≤ next) :
    Linked R (list.drop next) hi := by
  have hdrop := h.drop (next - i)
  rwa [List.drop_drop, Nat.add_sub_cancel' hle] at hdrop

end OfDrop

theorem imp (h : Linked R list hi)
    (himp : ∀ id ∈ list, ∀ next, R id next → S id next) : Linked S list hi := by
  induction list with
  | nil => trivial
  | cons id rest ih =>
    exact ⟨himp id List.mem_cons_self _ h.1,
      ih h.2 fun id hid => himp id (List.mem_cons_of_mem _ hid)⟩

/-- Where related elements ascend, the list does, and the end lies behind all of
them. -/
theorem pairwise_lt (h : Linked R list hi) (hlt : ∀ a b, R a b → a < b) :
    (list ++ [hi]).Pairwise (· < ·) := by
  induction list with
  | nil => exact List.pairwise_singleton _ _
  | cons id rest ih =>
    have hrest := ih h.2
    refine List.pairwise_cons.2 ⟨fun x hx => ?_, hrest⟩
    have hnext := hlt _ _ h.1
    cases rest with
    | nil =>
      obtain rfl := List.mem_singleton.1 hx
      exact hnext
    | cons second others =>
      rcases List.mem_cons.1 hx with rfl | hx
      · exact hnext
      · exact Nat.lt_trans hnext ((List.pairwise_cons.1 hrest).1 x hx)

/-- A slice is replaced by its first element, which is related to the element
behind the slice. -/
theorem fold {i stop next : Nat} (h : Linked R list hi)
    (hid : list[i]? = some id) (hnext : list[stop]? = some next)
    (hbefore : ∀ x ∈ list.take i, ∀ y, R x y → S x y)
    (hbehind : ∀ x ∈ list.drop stop, ∀ y, R x y → S x y) (hfolded : S id next) :
    Linked S (list.take (i + 1) ++ list.drop stop) hi := by
  have hhead : (list.drop stop).headD hi = next :=
    headD_drop_of_getElem? hnext hi
  have hleft := h.take i
  rw [headD_drop_of_getElem? hid hi] at hleft
  rw [List.take_add_one, hid, Option.toList_some, List.append_assoc,
    List.singleton_append, linked_append]
  refine ⟨hleft.imp hbefore, ?_, (h.drop stop).imp hbehind⟩
  rw [hhead]
  exact hfolded

end Linked

/-! ## Lists during the work -/

/-- A relation between elements and the next ones that looks at the block of the
element only. -/
def LooksHere (R : Told → Nat → Nat → Prop) : Prop :=
  ∀ (w w' : Told) (id next : Nat), w'.graph.block id = w.graph.block id →
    R w id next → R w' id next

namespace Linked

variable {R : Told → Nat → Nat → Prop} {w w' : Told}

theorem congr (h : Linked (R w) list hi) (hR : LooksHere R)
    (heq : ∀ id ∈ list, w'.graph.block id = w.graph.block id) :
    Linked (R w') list hi :=
  h.imp fun id hid next => hR w w' id next (heq id hid)

/-- A step that changes other blocks leaves a list as it is. -/
theorem kept {ids : List Nat} (h : Linked (R w) list hi) (hR : LooksHere R)
    (hkept : Kept ids w w') (hdisjoint : list.Disjoint ids) :
    Linked (R w') list hi :=
  h.congr hR fun id hid => hkept.others id (hdisjoint hid)

/-- A region is folded into its first block, whose new element is to be related
to the one behind the region. -/
theorem fold_region {i stop next : Nat} {s : Section} (h : Linked (R w) list hi)
    (hR : LooksHere R) (hnodup : list.Nodup) (hid : list[i]? = some id)
    (hstop : i < stop) (hnext : list[stop]? = some next)
    (hkept : Kept ((list.take stop).drop i) w w')
    (hfolded : R { w' with graph := w'.graph.fold id s (some next) } id next) :
    Linked (R { w' with graph := w'.graph.fold id s (some next) })
      (list.take (i + 1) ++ list.drop stop) hi := by
  have hsame (x : Nat) (hx : x ∉ (list.take stop).drop i) :
      (w'.graph.fold id s (some next)).block x = w.graph.block x := by
    have hne : id ≠ x := fun heq => hx (heq ▸ mem_slice_of_getElem? hid hstop)
    rw [Graph.fold, Graph.block_modify_of_ne _ _ hne, hkept.others x hx]
  exact h.fold hid hnext
    (fun x hx _ =>
      hR _ _ _ _ (hsame x (disjoint_take_slice hnodup (Nat.le_of_lt hstop) hx)))
    (fun x hx _ => hR _ _ _ _ (hsame x (disjoint_drop_slice hnodup _ _ hx)))
    hfolded

end Linked

end Decompiler
