import Decompiler.Proofs.Condition.Truth
import Mathlib.Tactic.Common

/-!
# The normal form of conditions

The members of a junction are put in normal form before the junction is.  What
comes out for a member may be a constant, a junction of the same kind, or a
condition of another kind that was wrapped in a junction of its own, whatever
the member looked like before; so the three rules of `gather` are applied to
members that are in normal form themselves.

* `Condition.isReduced`: no constant inside, no junction directly in one of its
  own kind, and no junction of fewer than two members.
* `Condition.isNormal_gather`: one junction of normal members.
* `Condition.normalize_eq_self`: a reduced condition is its own normal form.
* `Condition.normalize_keeps_value`: the normal form means the same, is normal,
  and stays as it is.
-/

namespace Decompiler

/-- Whether a condition is a junction of the given kind. -/
def Junction.isKindOf (j : Junction) : Condition → Bool
  | .all _ => j == .all
  | .any _ => j == .any
  | _ => false

namespace Condition

mutual

/-- Whether a condition has no constant inside, nests no junction directly in
one of its own kind, and has at least two members in every junction. -/
def isReduced : Condition → Bool
  | test .. | compare .. => true
  | all cs => decide (2 ≤ cs.length) && areReduced .all cs
  | any cs => decide (2 ≤ cs.length) && areReduced .any cs
  | const _ => false

/-- Whether conditions are reduced and none of them is a junction of the given
kind. -/
def areReduced (j : Junction) : List Condition → Bool
  | [] => true
  | c :: cs => c.isReduced && !j.isKindOf c && areReduced j cs

end

/-- Whether a condition is a single test. -/
def isTest : Condition → Bool
  | test .. | compare .. => true
  | _ => false

/-- The negation of a test is a test. -/
theorem isTest_negate {c : Condition} (h : c.isTest = true) :
    c.negate.isTest = true := by
  cases c <;> first | rfl | simp [isTest] at h

/-- A test is reduced. -/
theorem isReduced_of_isTest {c : Condition} (h : c.isTest = true) :
    c.isReduced = true := by
  cases c <;> first | rfl | simp [isTest] at h

/-- A test is no junction. -/
theorem isKindOf_of_isTest {j : Junction} {c : Condition}
    (h : c.isTest = true) : j.isKindOf c = false := by
  cases c <;> first | rfl | simp [isTest] at h

/-- Whether a condition is a constant or reduced. -/
def IsNormal (c : Condition) : Prop := (∃ b, c = const b) ∨ c.isReduced = true

/-- The members of a junction are reduced if each is, and none is a junction of
the same kind. -/
theorem areReduced_iff {j : Junction} {cs : List Condition} :
    areReduced j cs = true ↔ ∀ c ∈ cs, c.isReduced = true ∧
      j.isKindOf c = false := by
  induction cs with
  | nil => simp [areReduced]
  | cons c cs ih => simp [areReduced, ih]

/-- A reduced condition is no constant. -/
theorem isConst_of_isReduced {c : Condition} (h : c.isReduced = true)
    (b : Bool) : c.isConst b = false := by
  cases c <;> first | rfl | simp [isReduced] at h

end Condition

namespace Junction

variable {j : Junction}

/-- What is no junction of a kind has itself as its only member. -/
theorem members_eq_singleton {c : Condition} (h : j.isKindOf c = false) :
    j.members c = [c] := by
  cases j <;> cases c <;> first | rfl | simp [isKindOf] at h

/-- Members that are no junctions of the kind are not flattened. -/
theorem flatMap_members_eq_self {cs : List Condition}
    (h : ∀ c ∈ cs, j.isKindOf c = false) : cs.flatMap j.members = cs := by
  induction cs with
  | nil => rfl
  | cons c cs ih =>
    rw [List.flatMap_cons, members_eq_singleton (h c List.mem_cons_self),
      ih fun d hd => h d (List.mem_cons_of_mem _ hd)]
    rfl

/-- Opening a reduced condition leaves conditions that fit into a junction. -/
theorem areReduced_members {c : Condition} (h : c.isReduced = true) :
    Condition.areReduced j (j.members c) = true := by
  cases j <;> cases c <;>
    simp_all [members, Condition.isReduced, Condition.areReduced, isKindOf]

/-- A reduced condition has a member. -/
theorem length_members_pos {c : Condition} (h : c.isReduced = true) :
    0 < (j.members c).length := by
  cases j <;> cases c <;> simp_all [members, Condition.isReduced] <;> omega

/-- A junction of conditions that fit into it is reduced. -/
theorem isReduced_of {cs : List Condition} (hpos : 0 < cs.length)
    (h : Condition.areReduced j cs = true) : (j.of cs).isReduced = true := by
  match j, cs with
  | all, [c] | any, [c] =>
    exact (Condition.areReduced_iff.1 h c List.mem_cons_self).1
  | all, c :: d :: cs | any, c :: d :: cs =>
    simpa [of, Condition.isReduced] using h

/-- A junction of at least two members is one of its kind. -/
theorem isKindOf_of {k : Junction} {cs : List Condition}
    (hlen : 2 ≤ cs.length) : k.isKindOf (j.of cs) = (k == j) := by
  match j, cs with
  | all, c :: d :: cs | any, c :: d :: cs => rfl

end Junction

namespace Condition

/-- **One junction.**  Members in normal form are gathered to a normal form. -/
theorem isNormal_gather {j : Junction} {cs : List Condition}
    (h : ∀ c ∈ cs, c.IsNormal) : (gather j cs).IsNormal := by
  unfold gather
  by_cases hdecided : cs.any (·.isConst !j.neutral) = true
  · rw [if_pos hdecided]
    exact .inl ⟨_, rfl⟩
  rw [if_neg hdecided]
  -- a constant among the members is either the neutral one or decides the
  -- junction
  have hkept : ∀ c ∈ cs.filter (fun c => !c.isConst j.neutral),
      c.isReduced = true := by
    intro c hc
    obtain ⟨hc, hneutral⟩ := List.mem_filter.1 hc
    refine (h c hc).resolve_left ?_
    rintro ⟨b, rfl⟩
    have hother : isConst (!j.neutral) (const b) = false := by
      simpa using fun hb => hdecided (List.any_eq_true.2 ⟨_, hc, hb⟩)
    cases b <;> cases hn : j.neutral <;> simp [isConst, hn] at hneutral hother
  have hopened :
      areReduced j ((cs.filter fun c => !c.isConst j.neutral).flatMap j.members) =
      true := by
    rw [areReduced_iff]
    intro d hd
    obtain ⟨c, hc, hd⟩ := List.mem_flatMap.1 hd
    exact areReduced_iff.1 (Junction.areReduced_members (hkept c hc)) d hd
  split
  · exact .inl ⟨_, rfl⟩
  · rename_i hne
    exact .inr (Junction.isReduced_of (List.length_pos_iff.2 hne) hopened)

mutual

/-- The normal form is normal. -/
theorem isNormal_normalize : (c : Condition) → c.normalize.IsNormal
  | test .. | compare .. => .inr rfl
  | all cs | any cs => isNormal_gather (isNormal_of_mem_normalizes cs)
  | const b => .inl ⟨b, rfl⟩

/-- Each of some normal forms is in normal form. -/
theorem isNormal_of_mem_normalizes : (cs : List Condition) →
      ∀ c ∈ normalizes cs, c.IsNormal
  | [] => by simp [normalizes]
  | c :: cs => by
    rw [normalizes, List.forall_mem_cons]
    exact ⟨isNormal_normalize c, isNormal_of_mem_normalizes cs⟩

end

/-- Members that fit into a junction are gathered as they are. -/
theorem gather_eq_of {j : Junction} {cs : List Condition} (hpos : 0 < cs.length)
    (h : areReduced j cs = true) : gather j cs = j.of cs := by
  have hconst (b : Bool) : ∀ c ∈ cs, c.isConst b = false := fun c hc =>
    isConst_of_isReduced (areReduced_iff.1 h c hc).1 b
  have hdecided : cs.any (·.isConst !j.neutral) = false := by
    simpa using hconst _
  have hkept : cs.filter (fun c => !c.isConst j.neutral) = cs :=
    List.filter_eq_self.2 fun c hc => by simp [hconst j.neutral c hc]
  rw [gather, hdecided, hkept,
    Junction.flatMap_members_eq_self fun c hc => (areReduced_iff.1 h c hc).2]
  cases cs with
  | nil => cases hpos
  | cons c cs => rfl

mutual

/-- A reduced condition is its own normal form. -/
theorem normalize_of_isReduced : (c : Condition) → c.isReduced = true →
      c.normalize = c
  | test .., _ | compare .., _ => rfl
  | all cs, h | any cs, h => by
    simp only [isReduced, Bool.and_eq_true, decide_eq_true_eq] at h
    rw [normalize, normalizes_of_areReduced cs h.2,
      gather_eq_of (Nat.lt_of_lt_of_le Nat.two_pos h.1) h.2]
    match cs, h.1 with
    | _ :: _ :: _, _ => rfl
  | const _, h => by simp [isReduced] at h

/-- Reduced members are their own normal forms. -/
theorem normalizes_of_areReduced {j : Junction} :
    (cs : List Condition) → areReduced j cs = true → normalizes cs = cs
  | [], _ => rfl
  | c :: cs, h => by
    simp only [areReduced, Bool.and_eq_true] at h
    rw [normalizes, normalize_of_isReduced c h.1.1,
      normalizes_of_areReduced cs h.2]

end

/-- A normal condition is its own normal form. -/
theorem normalize_eq_self {c : Condition} (h : c.IsNormal) :
    c.normalize = c := by
  rcases h with ⟨b, rfl⟩ | h
  · rfl
  · exact normalize_of_isReduced c h

/-- **The normal form.**  It comes to the same as the condition however the
truth of tests and comparisons is told, it is a constant or reduced, and it is
its own normal form. -/
theorem normalize_keeps_value (c : Condition) :
    (∀ truth, c.normalize.value truth = c.value truth) ∧ c.normalize.IsNormal ∧
      c.normalize.normalize = c.normalize :=
  ⟨fun truth => value_normalize truth c, isNormal_normalize c,
    normalize_eq_self (isNormal_normalize c)⟩

/-- A member that comes down to a conjunction is opened in the one around it,
and a disjunction of one is the member itself. -/
example (a b c : Expr) :
    (all [any [all [test a false, const true, test b false]],
      any [const false, test c true]]).normalize =
      all [test a false, test b false, test c true] := rfl

end Condition

end Decompiler
