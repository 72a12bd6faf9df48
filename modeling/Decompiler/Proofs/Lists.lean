import Mathlib.Data.List.Forall2

/-!
# Lists member by member

Two lists that are related member by member have as many members, and what holds
of every pair holds of the lists.  Two actions that are the same on every member
are the same on the list.
-/

namespace Decompiler

variable {α β γ : Type} {R S : α → β → Prop} {xs : List α} {ys : List β}
    {zs : List γ}

/-- A member of a list has one that goes with it. -/
theorem exists_of_forall₂ (h : List.Forall₂ R xs ys) {x : α} (hx : x ∈ xs) :
    ∃ y ∈ ys, R x y := by
  induction h with
  | nil => cases hx
  | cons head _ ih =>
    rcases List.mem_cons.1 hx with rfl | hx
    · exact ⟨_, List.mem_cons_self, head⟩
    · obtain ⟨y, hy, hR⟩ := ih hx
      exact ⟨y, List.mem_cons_of_mem _ hy, hR⟩

/-- What goes for all members may be used of each pair. -/
theorem forall₂_imp_mem (h : List.Forall₂ R xs ys)
    (hRS : ∀ x ∈ xs, ∀ y ∈ ys, R x y → S x y) : List.Forall₂ S xs ys := by
  induction h with
  | nil => exact .nil
  | cons head _ ih =>
    refine .cons (hRS _ List.mem_cons_self _ List.mem_cons_self head)
      (ih fun x hx y hy => ?_)
    exact hRS x (List.mem_cons_of_mem _ hx) y (List.mem_cons_of_mem _ hy)

/-- The members at a position go together, and so may what stands in for
them. -/
theorem forall₂_getD (h : List.Forall₂ R xs ys) {x : α} {y : β} (hxy : R x y)
    (i : Nat) : R (xs.getD i x) (ys.getD i y) := by
  induction h generalizing i with
  | nil => exact hxy
  | cons head _ ih =>
    cases i with
    | zero => exact head
    | succ i => exact ih i

/-- Lists whose members have the same values have the same values. -/
theorem map_eq_of_forall₂ {f : α → γ} {k : β → γ} (h : List.Forall₂ R xs ys)
    (hRf : ∀ x ∈ xs, ∀ y ∈ ys, R x y → f x = k y) : xs.map f = ys.map k := by
  rw [← List.forall₂_eq_eq_eq, List.forall₂_map_left_iff,
    List.forall₂_map_right_iff]
  exact forall₂_imp_mem h hRf

/-- Relations between the members of three lists compose. -/
theorem forall₂_comp {T : β → γ → Prop} {U : α → γ → Prop}
    (h : List.Forall₂ R xs ys) (h' : List.Forall₂ T ys zs)
    (hU : ∀ x y z, R x y → T y z → U x z) : List.Forall₂ U xs zs := by
  induction h generalizing zs with
  | nil =>
    cases h'
    exact .nil
  | cons head _ ih =>
    cases h' with
    | cons head' rest' => exact .cons (hU _ _ _ head head') (ih rest')

/-- Steps that are the same for every member are so for the list. -/
theorem mapM_congr {m : Type → Type} [Monad m] [LawfulMonad m] {f f' : α → m β}
    (h : ∀ x ∈ xs, f x = f' x) : xs.mapM f = xs.mapM f' := by
  induction xs with
  | nil => rfl
  | cons x xs ih =>
    rw [List.mapM_cons, List.mapM_cons, h x List.mem_cons_self,
      ih fun y hy => h y (List.mem_cons_of_mem _ hy)]

end Decompiler
