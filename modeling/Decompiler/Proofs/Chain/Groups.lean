import Decompiler.Proofs.Chain.Joined
import Decompiler.Proofs.Condition.Negation
import Decompiler.Proofs.Condition.Same

/-!
# Tests in front of a condition

A condition of two levels, a conjunction of disjunctions of tests or the other
way round, can be put together from its last test back to its first, by a choice
at each test between what holds if it comes out one way and what holds if it
comes out the other.  A choice of two forms only is made on the way: one side is
a constant, or one side ends in the other.  The forms that are tried before
these never apply.

* `Junction.withoutTail?_join`, `Junction.withoutTail?_of_apart`: which tails
  are found.
* `Condition.turn_open`, `Condition.turn_shared`: one test in front of a
  condition.
* `Junction.turn_last`, `Junction.turn_cons`: one test in front of groups of
  tests.
-/

namespace Decompiler

/-! ### Junctions of tests -/

namespace Junction

variable {j : Junction} {x R : Condition} {cs : List Condition}
    {groups : List (List Condition)}

/-- The members of a junction, unless it is the only member that is opened. -/
theorem members_of (h : ∀ c ∈ cs, j.isKindOf c = false) (hcs : cs ≠ []) :
    j.members (j.of cs) = cs := by
  match cs with
  | [c] => exact members_eq_singleton (h c List.mem_cons_self)
  | c :: d :: cs => cases j <;> rfl

/-- A reduced condition is put together from its members. -/
theorem of_members (hx : x.isReduced = true) : j.of (j.members x) = x := by
  cases hkind : j.isKindOf x with
  | false =>
    rw [members_eq_singleton hkind]
    rfl
  | true =>
    cases j <;> cases x <;>
      simp only [isKindOf, Bool.false_eq_true, beq_iff_eq, reduceCtorEq]
      at hkind
    -- a junction that is reduced has two members at least
    all_goals
      rename_i cs
      obtain _ | ⟨c, _ | ⟨d, cs⟩⟩ := cs
      · cases hx
      · cases hx
      · rfl

/-- The members of a join are those of both. -/
theorem members_join (hx : x.isReduced = true) (hR : R.isReduced = true) :
    j.members (j.join x R) = j.members x ++ j.members R := by
  refine members_of (fun c hc => ?_) fun hnil => ?_
  · exact (Condition.areReduced_iff.1 (areReduced_join hx hR) c hc).2
  · have := two_le_length_join (j := j) hx hR
    rw [hnil] at this
    cases this

/-- Not-a-number is in a condition if it is in one of its members. -/
theorem haveNaN_members (j : Junction) (c : Condition) :
    Condition.haveNaN (j.members c) = c.hasNaN := by
  cases j <;> cases c <;> simp [members, Condition.hasNaN, Condition.haveNaN]

/-- Not-a-number is in a junction if it is in one of its members. -/
theorem hasNaN_of (j : Junction) (cs : List Condition) :
    (j.of cs).hasNaN = Condition.haveNaN cs := by
  match cs with
  | [c] => simp [of, Condition.haveNaN]
  | [] | c :: d :: cs => cases j <;> rfl

/-- Opened as a junction, conditions that are the same have as many members. -/
theorem length_members_of_same {c d : Condition} (h : c.same d = true) :
    (j.members c).length = (j.members d).length := by
  have hlength (cs ds : List Condition) (h : Condition.sameAll cs ds = true) :
      cs.length = ds.length := by
    induction cs generalizing ds with
    | nil =>
      cases ds with
      | nil => rfl
      | cons d ds => simp [Condition.sameAll] at h
    | cons c cs ih =>
      cases ds with
      | nil => simp [Condition.sameAll] at h
      | cons d ds =>
        simp only [Condition.sameAll, Bool.and_eq_true] at h
        rw [List.length_cons, List.length_cons, ih ds h.2]
  cases c <;> cases d <;>
    simp only [Condition.same, Bool.false_eq_true] at h <;> cases j <;>
    first
    | rfl
    | exact hlength _ _ h

/-! ### Tails -/

/-- A tail that has been joined can be taken off again. -/
theorem withoutTail?_join (hx : x.isReduced = true) (hR : R.isReduced = true)
    (hNaN : R.hasNaN = false) : j.withoutTail? (j.join x R) R = some x := by
  have hsame : Condition.sameAll (j.members R) (j.members R) = true :=
    Condition.sameAll_self _ (by rwa [haveNaN_members])
  have hpos := length_members_pos (j := j) hx
  have hkept : (j.members x ++ j.members R).length - (j.members R).length =
      (j.members x).length := by
    rw [List.length_append, Nat.add_sub_cancel]
  unfold withoutTail?
  simp only [members_join hx hR, hkept, List.drop_left, List.take_left, hsame,
    of_members hx]
  simp [hpos]

/-- A tail that is as long as the whole cannot be taken off. -/
theorem withoutTail?_of_length_le {c tail : Condition}
    (h : (j.members c).length ≤ (j.members tail).length) :
    j.withoutTail? c tail = none := by
  unfold withoutTail?
  simp [Nat.not_lt.2 h]

/-- A condition does not end in one that none of its members is the same as. -/
theorem withoutTail?_of_apart {c tail : Condition}
    (hkind : j.isKindOf tail = false)
    (h : ∀ d ∈ j.members c, d.same tail = false) :
    j.withoutTail? c tail = none := by
  unfold withoutTail?
  rw [members_eq_singleton hkind]
  have hlast :
      Condition.sameAll ((j.members c).drop ((j.members c).length - 1)) [tail] =
      false := by
    cases hdrop : (j.members c).drop ((j.members c).length - 1) with
    | nil => rfl
    | cons d ds =>
      have hd : d ∈ j.members c :=
        List.mem_of_mem_drop (hdrop ▸ List.mem_cons_self)
      simp [Condition.sameAll, h d hd]
  simp [hlast]

end Junction

namespace Condition

variable {j : Junction} {c x R : Condition} {jump : Bool}

/-- What is a test once negated is a test. -/
theorem isTest_of_isTest_negate (h : c.negate.isTest = true) :
    c.isTest = true := by
  cases c <;> first | rfl | simp [isTest, negate] at h

/-! ### One test in front of a condition -/

/-- What a test and its two sides are put together to, if its jump is taken when
it comes to `jump`. -/
def turn (jump : Bool) (c : Condition) (side : Bool → Condition) : Condition :=
  select (c.literal jump) (side jump) (side !jump)

/-- A choice between different reduced sides shares what they have in common. -/
theorem select_of_isReduced {p t f : Condition} (ht : t.isReduced = true)
    (hf : f.isReduced = true) (hne : t.same f = false) :
    select p t f = selectShared p t f := by
  unfold select
  rw [hne]
  cases t <;> cases f <;> first | rfl | simp [isReduced] at ht hf

/-- A test with a constant on one side. -/
theorem select_const (hR : R.isReduced = true) :
    select c (const true) R = Junction.any.join c R ∧
      select c R (const true) = Junction.any.join c.negate R ∧
      select c R (const false) = Junction.all.join c R ∧
      select c (const false) R = Junction.all.join c.negate R := by
  cases R with
  | const => cases hR
  | test | compare | all | any => exact ⟨rfl, rfl, rfl, rfl⟩

/-- A test that decides by itself. -/
theorem turn_const (jump : Bool) (c : Condition) : turn jump c const = c := by
  cases jump
  · exact negate_negate c
  · rfl

/-- A test that decides if it is not neutral, in front of a condition. -/
theorem turn_open {side : Bool → Condition} (hR : R.isReduced = true)
    (hopen : side j.neutral = R)
    (hdecided : side (!j.neutral) = const !j.neutral) :
    turn jump c side = j.join c R := by
  cases j <;> cases jump <;>
    simp only [Junction.neutral, Bool.not_true, Bool.not_false] at * <;>
    simp only [turn, literal, hopen, hdecided, Bool.not_true, Bool.not_false,
      if_true, Bool.false_eq_true, if_false, select_const hR, negate_negate]

/-- A test in front of its group: if it is neutral for the junction of the
groups, it leads to the same condition that follows the rest `x` of its
group. -/
theorem turn_shared {side : Bool → Condition} (hx : x.isReduced = true)
    (hR : R.isReduced = true) (hNaN : R.hasNaN = false)
    (hapart : ∀ d ∈ j.dual.members R, d.same (j.join x R) = false)
    (hopen : side j.neutral = R) (hrest : side (!j.neutral) = j.join x R) :
    turn jump c side = j.join (j.dual.join c x) R := by
  have hnegate := negate_negate c
  have hwhole : (j.join x R).isReduced = true := Junction.isReduced_join hx hR
  have hpos := Junction.length_members_pos (j := j) hx
  have hlonger : (j.members R).length < (j.members (j.join x R)).length := by
    rw [Junction.members_join hx hR, List.length_append]
    omega
  have hsame : R.same (j.join x R) = false := by
    rw [Bool.eq_false_iff]
    intro h
    exact Nat.ne_of_lt hlonger (Junction.length_members_of_same h)
  have hsame' : (j.join x R).same R = false := by
    rw [Bool.eq_false_iff]
    intro h
    exact Nat.ne_of_gt hlonger (Junction.length_members_of_same h)
  -- of the four tails that are tried only one is there
  have htail := Junction.withoutTail?_join (j := j) hx hR hNaN
  have hnone := Junction.withoutTail?_of_length_le hlonger.le
  have hkind : j.dual.isKindOf (j.join x R) = false := by
    rw [Junction.isKindOf_join hx hR]
    cases j <;> rfl
  have hdual := Junction.withoutTail?_of_apart hkind hapart
  have hdual' : j.dual.withoutTail? (j.join x R) R = none := by
    refine Junction.withoutTail?_of_length_le ?_
    rw [Junction.members_eq_singleton hkind]
    exact Junction.length_members_pos hR
  cases j <;> cases jump <;>
    simp only [Junction.neutral, Junction.dual, Bool.not_true,
      Bool.not_false] at * <;>
    simp only [turn, literal, hopen, hrest, Bool.not_true, Bool.not_false,
      if_true, Bool.false_eq_true, if_false] <;>
    simp only [select_of_isReduced, hR, hwhole, hsame, hsame', selectShared,
      htail, hnone, hdual, hdual', hnegate]

end Condition

/-! ### Groups of tests -/

namespace Junction

variable {j : Junction} {c : Condition} {cs : List Condition}
    {groups : List (List Condition)}
  {jump : Bool} {side : Bool → Condition}

/-- What some groups of tests make up.  Without a group there is nothing to
decide. -/
def ofGroups (j : Junction) : List (List Condition) → Condition
  | [] => .const j.neutral
  | groups => j.of (groups.map j.dual.of)

/-- At least one group makes up a junction of groups. -/
theorem ofGroups_of_ne_nil (hne : groups ≠ []) :
    j.ofGroups groups = j.of (groups.map j.dual.of) := by
  cases groups with
  | nil => exact absurd rfl hne
  | cons cs groups => rfl

/-- Whether a group has tests only, at least one of them, and none has a NaN. -/
structure IsGroup (cs : List Condition) : Prop where
  ne_nil : cs ≠ []
  isTest : ∀ c ∈ cs, c.isTest = true
  hasNaN : Condition.haveNaN cs = false

/-- A test without not-a-number can be put in front of a group. -/
theorem IsGroup.cons (hc : c.isTest = true) (hNaN : c.hasNaN = false)
    (hcs : IsGroup cs) :
    IsGroup (c :: cs) where
  ne_nil := List.cons_ne_nil c cs
  isTest := List.forall_mem_cons.2 ⟨hc, hcs.isTest⟩
  hasNaN := by simp [Condition.haveNaN, hNaN, hcs.hasNaN]

/-- The tests of a group can stand in a junction of either kind. -/
theorem IsGroup.areReduced (hcs : IsGroup cs) (k : Junction) :
    Condition.areReduced k cs = true :=
  Condition.areReduced_iff.2 fun c hc =>
    ⟨Condition.isReduced_of_isTest (hcs.isTest c hc),
      Condition.isKindOf_of_isTest (hcs.isTest c hc)⟩

/-- A junction of a group is reduced. -/
theorem IsGroup.isReduced_of (hcs : IsGroup cs) (k : Junction) :
    (k.of cs).isReduced = true :=
  Junction.isReduced_of (List.length_pos_iff.2 hcs.ne_nil) (hcs.areReduced k)

/-- A group is opened by its own junction only. -/
theorem IsGroup.isKindOf_of (hcs : IsGroup cs) (j : Junction) :
    j.isKindOf (j.dual.of cs) = false := by
  match cs, hcs with
  | [c], hcs =>
    exact Condition.isKindOf_of_isTest (hcs.isTest c List.mem_cons_self)
  | c :: d :: cs, _ => cases j <;> rfl

/-- The members of a junction of a group are the group. -/
theorem IsGroup.members_of (hcs : IsGroup cs) (k : Junction) :
    k.members (k.of cs) = cs :=
  Junction.members_of
    (fun c hc => Condition.isKindOf_of_isTest (hcs.isTest c hc)) hcs.ne_nil

/-- One more test in a group. -/
theorem join_of_group (hc : c.isTest = true) (hcs : IsGroup cs) (k : Junction) :
    k.join c (k.of cs) = k.of (c :: cs) := by
  rw [join, hcs.members_of,
    members_eq_singleton (Condition.isKindOf_of_isTest hc)]
  rfl

/-- The members of what groups make up are the groups, each put together. -/
theorem members_ofGroups (hgroups : ∀ cs ∈ groups, IsGroup cs)
    (hne : groups ≠ []) :
    j.members (j.ofGroups groups) = groups.map j.dual.of := by
  rw [ofGroups_of_ne_nil hne]
  refine members_of (fun c hc => ?_) (by simpa using hne)
  obtain ⟨cs, hcs, rfl⟩ := List.mem_map.1 hc
  exact (hgroups cs hcs).isKindOf_of j

/-- One more group. -/
theorem join_ofGroups (hcs : IsGroup cs) (hgroups : ∀ cs ∈ groups, IsGroup cs)
    (hne : groups ≠ []) :
    j.join (j.dual.of cs) (j.ofGroups groups) = j.ofGroups (cs :: groups) := by
  rw [join, members_ofGroups hgroups hne,
    members_eq_singleton (hcs.isKindOf_of j)]
  rfl

/-- What groups make up is reduced. -/
theorem isReduced_ofGroups (hgroups : ∀ cs ∈ groups, IsGroup cs)
    (hne : groups ≠ []) : (j.ofGroups groups).isReduced = true := by
  rw [ofGroups_of_ne_nil hne]
  refine isReduced_of (by simpa [List.length_pos_iff] using hne)
    (Condition.areReduced_iff.2 fun c hc => ?_)
  obtain ⟨cs, hcs, rfl⟩ := List.mem_map.1 hc
  exact ⟨(hgroups cs hcs).isReduced_of _, (hgroups cs hcs).isKindOf_of j⟩

/-- Not-a-number is in none of the groups put together if it is in none of the
groups. -/
theorem haveNaN_map_of (k : Junction) :
    Condition.haveNaN (groups.map k.of) = false ↔
      ∀ cs ∈ groups, Condition.haveNaN cs = false := by
  induction groups with
  | nil => simp [Condition.haveNaN]
  | cons cs groups ih => simp [Condition.haveNaN, hasNaN_of, ih]

/-- What groups make up has no not-a-number. -/
theorem hasNaN_ofGroups (hgroups : ∀ cs ∈ groups, IsGroup cs) :
    (j.ofGroups groups).hasNaN = false := by
  by_cases hne : groups = []
  · rw [hne]
    rfl
  · rw [ofGroups_of_ne_nil hne, hasNaN_of, haveNaN_map_of]
    exact fun cs hcs => (hgroups cs hcs).hasNaN

/-- A group at the end is not mistaken for a whole: opened, it has tests
only. -/
theorem apart_of_groups (hcs : IsGroup cs) (hgroups : ∀ cs ∈ groups, IsGroup cs)
    (hne : groups ≠ []) :
    ∀ d ∈ j.dual.members (j.ofGroups groups),
      d.same (j.ofGroups (cs :: groups)) = false := by
  intro d hd
  match groups, hne with
  | [cs'], _ =>
    have hcs' := hgroups cs' List.mem_cons_self
    change d ∈ j.dual.members (j.dual.of cs') at hd
    rw [hcs'.members_of] at hd
    have htest := hcs'.isTest d hd
    cases j <;> cases d <;> first | rfl | cases htest
  | cs' :: cs'' :: groups, _ =>
    rw [members_eq_singleton (by cases j <;> rfl), List.mem_singleton] at hd
    rw [hd, Bool.eq_false_iff]
    intro hsame
    have hlength := length_members_of_same (j := j) hsame
    rw [members_ofGroups hgroups (List.cons_ne_nil _ _),
      members_ofGroups (List.forall_mem_cons.2 ⟨hcs, hgroups⟩)
        (List.cons_ne_nil _ _)] at hlength
    simp at hlength

/-- The last test of a group, in front of the groups that follow. -/
theorem turn_last (hc : c.isTest = true) (hgroups : ∀ cs ∈ groups, IsGroup cs)
    (hopen : side j.neutral = j.ofGroups groups)
    (hdecided : side (!j.neutral) = .const !j.neutral) :
    Condition.turn jump c side = j.ofGroups ([c] :: groups) := by
  cases groups with
  | nil =>
    have hside : side = .const := by
      funext b
      by_cases hb : b = j.neutral
      · rw [hb, hopen]
        rfl
      · obtain rfl : b = !j.neutral := Bool.eq_not.2 hb
        exact hdecided
    rw [hside, Condition.turn_const]
    rfl
  | cons cs groups =>
    have hne := List.cons_ne_nil cs groups
    rw [Condition.turn_open (isReduced_ofGroups hgroups hne) hopen hdecided,
      join, members_ofGroups hgroups hne,
      members_eq_singleton (Condition.isKindOf_of_isTest hc)]
    rfl

/-- A test in front of the rest of its group and the groups that follow. -/
theorem turn_cons (hc : c.isTest = true) (hNaN : c.hasNaN = false)
    (hcs : IsGroup cs) (hgroups : ∀ cs ∈ groups, IsGroup cs)
    (hopen : side j.neutral = j.ofGroups groups)
    (hrest : side (!j.neutral) = j.ofGroups (cs :: groups)) :
    Condition.turn jump c side = j.ofGroups ((c :: cs) :: groups) := by
  by_cases hne : groups = []
  · subst hne
    -- the group is the last one, and a test that is not neutral for it decides
    -- the whole
    have hopen' : side (!j.dual.neutral) = .const !j.dual.neutral := by
      rw [neutral_dual, Bool.not_not]
      exact hopen
    rw [Condition.turn_open (j := j.dual) (hcs.isReduced_of _)
      (by rwa [neutral_dual]) hopen', join_of_group hc hcs]
    rfl
  · rw [← join_ofGroups hcs hgroups hne] at hrest
    have hapart := apart_of_groups (j := j) hcs hgroups hne
    rw [← join_ofGroups hcs hgroups hne] at hapart
    rw [Condition.turn_shared (hcs.isReduced_of _)
      (isReduced_ofGroups hgroups hne)
      (hasNaN_ofGroups hgroups) hapart hopen hrest, join_of_group hc hcs,
      join_ofGroups (hcs.cons hc hNaN) hgroups hne]

end Junction

end Decompiler
