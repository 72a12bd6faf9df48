/-!
# Stable sorting

Insertion sort by a natural-number key, or by a pair of keys compared in
order.  Elements with equal keys keep their order.
-/

namespace Decompiler.Order

variable {α : Type}

/-- Inserts before the first element whose key is not below that of `x`. -/
def insertBy (le : α → α → Bool) (x : α) : List α → List α
  | [] => [x]
  | y :: ys => if le x y then x :: y :: ys else y :: insertBy le x ys

/-- Sorts by `le`; the recursion goes through the tail first, so that an
element lands before the equal ones that followed it. -/
def sortBy (le : α → α → Bool) : List α → List α
  | [] => []
  | x :: xs => insertBy le x (sortBy le xs)

/-- Inserting adds the element and nothing else. -/
theorem perm_insertBy (le : α → α → Bool) (x : α) (ys : List α) :
    (insertBy le x ys).Perm (x :: ys) := by
  induction ys with
  | nil => exact List.Perm.refl _
  | cons y ys ih =>
    unfold insertBy
    split
    · exact List.Perm.refl _
    · exact (ih.cons y).trans (List.Perm.swap x y ys)

/-- Sorting keeps every element as often as it comes. -/
theorem perm_sortBy (le : α → α → Bool) (xs : List α) :
    (sortBy le xs).Perm xs := by
  induction xs with
  | nil => exact List.Perm.refl _
  | cons x xs ih => exact (perm_insertBy le x _).trans (ih.cons x)

/-- Inserting keeps a list in order. -/
theorem pairwise_insertBy {le : α → α → Bool} {x : α} {ys : List α}
    (total : ∀ a b, le a b ∨ le b a) (trans : ∀ a b c, le a b → le b c → le a c)
    (h : ys.Pairwise (le · ·)) : (insertBy le x ys).Pairwise (le · ·) := by
  induction ys with
  | nil => simp [insertBy]
  | cons y ys ih =>
    obtain ⟨below, rest⟩ := List.pairwise_cons.1 h
    unfold insertBy
    split
    · rename_i hxy
      refine List.pairwise_cons.2 ⟨fun z hz => ?_, h⟩
      rcases List.mem_cons.1 hz with rfl | hz
      · exact hxy
      · exact trans x y z hxy (below z hz)
    · rename_i hxy
      refine List.pairwise_cons.2 ⟨fun z hz => ?_, ih rest⟩
      rcases List.mem_cons.1 ((perm_insertBy le x ys).mem_iff.1 hz)
        with rfl | hz
      · exact (total y z).resolve_right hxy
      · exact below z hz

/-- Sorting by a total order puts every element before those above it. -/
theorem pairwise_sortBy {le : α → α → Bool} (total : ∀ a b, le a b ∨ le b a)
    (trans : ∀ a b c, le a b → le b c → le a c) (xs : List α) :
    (sortBy le xs).Pairwise (le · ·) := by
  induction xs with
  | nil => exact List.Pairwise.nil
  | cons x xs ih => exact pairwise_insertBy total trans ih

/-- What is in order stays as it is. -/
theorem sortBy_eq_self {le : α → α → Bool} {xs : List α}
    (h : xs.Pairwise (le · ·)) : sortBy le xs = xs := by
  induction xs with
  | nil => rfl
  | cons x xs ih =>
    obtain ⟨below, rest⟩ := List.pairwise_cons.1 h
    rw [sortBy, ih rest]
    cases xs with
    | nil => rfl
    | cons y ys => rw [insertBy, if_pos (below y List.mem_cons_self)]

/-- Where an element goes depends only on how it compares with the members. -/
theorem insertBy_congr {le le' : α → α → Bool} {x : α} {ys : List α}
    (h : ∀ y ∈ ys, le x y = le' x y) :
    insertBy le x ys = insertBy le' x ys := by
  induction ys with
  | nil => rfl
  | cons y ys ih =>
    rw [insertBy, insertBy, h y List.mem_cons_self,
      ih fun z hz => h z (List.mem_cons_of_mem _ hz)]

/-- Two orders that agree on the elements sort them alike. -/
theorem sortBy_congr {le le' : α → α → Bool} {xs : List α}
    (h : ∀ x ∈ xs, ∀ y ∈ xs, le x y = le' x y) :
    sortBy le xs = sortBy le' xs := by
  induction xs with
  | nil => rfl
  | cons x xs ih =>
    have htail : sortBy le xs = sortBy le' xs :=
      ih fun y hy z hz => h y (List.mem_cons_of_mem _ hy) z
        (List.mem_cons_of_mem _ hz)
    rw [sortBy, sortBy, htail]
    refine insertBy_congr fun y hy => ?_
    exact h x List.mem_cons_self y
      (List.mem_cons_of_mem _ ((perm_sortBy le' xs).mem_iff.1 hy))

/-- Inserting by a key commutes with taking the keys. -/
theorem map_insertBy {β : Type} (f : α → β) (le : β → β → Bool) (x : α)
    (ys : List α) :
    (insertBy (fun a b => le (f a) (f b)) x ys).map f = insertBy le (f x)
      (ys.map f) := by
  induction ys with
  | nil => rfl
  | cons y ys ih =>
    rw [insertBy, List.map_cons, insertBy, ← ih]
    split <;> rfl

/-- Sorting by what a function tells of the elements. -/
theorem map_sortBy {β : Type} (f : α → β) (le : β → β → Bool) (xs : List α) :
    (sortBy (fun a b => le (f a) (f b)) xs).map f = sortBy le (xs.map f) := by
  induction xs with
  | nil => rfl
  | cons x xs ih => rw [sortBy, map_insertBy, ih, List.map_cons, sortBy]

/-- Sorts by a key. -/
def sortOn (key : α → Nat) (xs : List α) : List α :=
  sortBy (fun a b => key a ≤ key b) xs

/-- Sorting by a key only moves the members. -/
theorem perm_sortOn (key : α → Nat) (xs : List α) : (sortOn key xs).Perm xs :=
  perm_sortBy _ xs

/-- A list sorted by a key ascends in it. -/
theorem pairwise_sortOn (key : α → Nat) (xs : List α) :
    (sortOn key xs).Pairwise (key · ≤ key ·) := by
  have total (a b : α) : decide (key a ≤ key b) ∨ decide (key b ≤ key a) := by
    simpa using Nat.le_total (key a) (key b)
  have trans (a b c : α) :
      decide (key a ≤ key b) → decide (key b ≤ key c) →
        decide (key a ≤ key c) := by
    simpa using Nat.le_trans
  simpa [sortOn] using pairwise_sortBy total trans xs

/-- Keys in the same order sort alike. -/
theorem sortOn_congr {key key' : α → Nat} {xs : List α}
    (h : ∀ x ∈ xs, ∀ y ∈ xs, key x ≤ key y ↔ key' x ≤ key' y) :
    sortOn key xs = sortOn key' xs :=
  sortBy_congr fun x hx y hy => decide_eq_decide.2 (h x hx y hy)

/-- Sorting by a key commutes with taking what the key is of. -/
theorem map_sortOn {β : Type} (f : α → β) (key : β → Nat) (xs : List α) :
    (sortOn (key ∘ f) xs).map f = sortOn key (xs.map f) :=
  map_sortBy f (fun a b => key a ≤ key b) xs

/-- The first element with a property, in the order of a key, comes first among
those with the property. -/
theorem key_le_of_find?_sortOn {key : α → Nat} {p : α → Bool} {xs : List α}
    {a b : α} (ha : (sortOn key xs).find? p = some a) (hb : b ∈ xs)
    (hp : p b = true) : key a ≤ key b := by
  obtain ⟨_, front, rest, heq, hfront⟩ := List.find?_eq_some_iff_append.1 ha
  have hsorted := heq ▸ pairwise_sortOn key xs
  have hmem : b ∈ front ++ a :: rest := heq ▸ (perm_sortOn key xs).mem_iff.2 hb
  rcases List.mem_append.1 hmem with hb | hb
  · have hnot := hfront b hb
    simp only [hp, Bool.not_true, Bool.false_eq_true] at hnot
  · rcases List.mem_cons.1 hb with rfl | hb
    · exact Nat.le_refl _
    · exact (List.pairwise_cons.1 (List.pairwise_append.1 hsorted).2.1).1 b hb

/-- Sorts by a first key and, among equals, by a second. -/
def sortOnPair (key : α → Nat × Nat) (xs : List α) : List α :=
  sortBy
    (fun a b => (key a).1 < (key b).1 || (key a).1 == (key b).1 &&
      (key a).2 ≤ (key b).2) xs

/-- Sorting by a pair of keys only moves the members. -/
theorem perm_sortOnPair (key : α → Nat × Nat) (xs : List α) :
    (sortOnPair key xs).Perm xs :=
  perm_sortBy _ xs

/-- Whether a pair of keys does not come behind another. -/
def notBehind (p q : Nat × Nat) : Prop := p.1 < q.1 ∨ p.1 = q.1 ∧ p.2 ≤ q.2

/-- Sorting by two keys puts the elements in the order of both. -/
theorem pairwise_notBehind_sortOnPair (key : α → Nat × Nat) (xs : List α) :
    (sortOnPair key xs).Pairwise fun a b => notBehind (key a) (key b) := by
  refine (pairwise_sortBy (fun a b => ?_) (fun a b c => ?_) xs).imp fun h => ?_
  all_goals
    simp only [notBehind, Bool.or_eq_true, Bool.and_eq_true, decide_eq_true_eq,
      beq_iff_eq] at *
    omega

/-- Sorting by two keys puts the elements in the order of the first. -/
theorem pairwise_sortOnPair (key : α → Nat × Nat) (xs : List α) :
    (sortOnPair key xs).Pairwise fun a b => (key a).1 ≤ (key b).1 :=
  (pairwise_notBehind_sortOnPair key xs).imp fun h => by
    unfold notBehind at h
    omega

/-- What is in the order of both keys stays as it is. -/
theorem sortOnPair_eq_self {key : α → Nat × Nat} {xs : List α}
    (h : xs.Pairwise fun a b => notBehind (key a) (key b)) :
    sortOnPair key xs = xs :=
  sortBy_eq_self (h.imp fun hab => by simpa [notBehind] using hab)

end Decompiler.Order
