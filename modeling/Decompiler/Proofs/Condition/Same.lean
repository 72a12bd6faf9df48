import Decompiler.Source.Condition.Basic

/-!
# Sameness

Factoring a condition takes a tail off one side when the other side ends in
the same tests, and the tail that stays may be compared again further out.  So
a test may stand for another one through several comparisons, which is right
because sameness is transitive: of numbers (a NaN is the same as nothing, and
the two zeros are the same), of expressions, and of conditions.

It is symmetric, too, but a condition is the same as itself only if there is no
NaN in it.

* `Expr.same_trans`, `Condition.same_trans`: sameness is transitive.
* `Expr.same_symm`, `Condition.same_symm`: sameness is symmetric.
* `Expr.same_self`, `Condition.same_self`: what has no NaN is the same as
  itself.
-/

namespace Decompiler

/-- Sameness of numbers is transitive. -/
theorem Numeric.Format.same_trans {f : Numeric.Format} {a b c : Nat}
    (hab : f.same a b = true) (hbc : f.same b c = true) :
    f.same a c = true := by
  simp only [Numeric.Format.same, Bool.and_eq_true, Bool.or_eq_true,
    Bool.not_eq_true', beq_iff_eq] at *
  grind

/-- Sameness of numbers is symmetric. -/
theorem Numeric.Format.same_symm {f : Numeric.Format} {a b : Nat}
    (h : f.same a b = true) : f.same b a = true := by
  simp only [Numeric.Format.same, Bool.and_eq_true, Bool.or_eq_true,
    Bool.not_eq_true', beq_iff_eq] at *
  grind

/-- A number is the same as itself, unless it is not-a-number. -/
theorem Numeric.Format.same_self {f : Numeric.Format} {a : Nat}
    (h : f.isNaN a = false) : f.same a a = true := by
  simp [Numeric.Format.same, h]

namespace Expr

mutual

/-- Whether a NaN is written anywhere in an expression. -/
def hasNaN : Expr → Bool
  | float word => Numeric.Format.single.isNaN word.toNat
  | double word => Numeric.Format.double.isNaN word.toNat
  | instanceField e _ | length e | neg _ e | cast _ e | instanceOf _
      e | newArray _ e => e.hasNaN
  | element a b _ | binary _ _ a b | compare _ a b => a.hasNaN || b.hasNaN
  | callInstance _ receiver _ args => receiver.hasNaN || haveNaN args
  | callStatic _ args | callDynamic _ _ args | construct _ _ args | concat args
  | newMultiArray _ args => haveNaN args
  | arrayLiteral _ size values => size.hasNaN || haveNaN values
  | _ => false

/-- Whether a NaN is written in some expression of a list. -/
def haveNaN : List Expr → Bool
  | [] => false
  | e :: es => e.hasNaN || haveNaN es

end

mutual

/-- Sameness of expressions is transitive. -/
theorem same_trans : (a b c : Expr) → a.same b = true → b.same c = true →
      a.same c = true
  | null, b, c, hab, hbc => by
    cases b <;> simp only [same, Bool.false_eq_true] at hab
    exact hbc
  | int _, b, c, hab, hbc | long _, b, c, hab, hbc | string _, b, c, hab, hbc
  | classLiteral _, b, c, hab, hbc | var _, b, c, hab, hbc
  | staticField _, b, c, hab, hbc
  | uninitialized _, b, c, hab, hbc | caught _, b, c, hab, hbc => by
    cases b <;> simp only [same, Bool.false_eq_true, beq_iff_eq] at hab
    exact hab ▸ hbc
  | float _, b, c, hab, hbc | double _, b, c, hab, hbc => by
    cases b <;> simp only [same, Bool.false_eq_true] at hab
    cases c <;> simp only [same, Bool.false_eq_true] at hbc
    exact Numeric.Format.same_trans hab hbc
  | instanceField a _, b, c, hab, hbc | length a, b, c, hab, hbc
  | neg _ a, b, c, hab, hbc
  | cast _ a, b, c, hab, hbc | instanceOf _ a, b, c, hab, hbc | newArray _ a, b,
      c, hab, hbc => by
    cases b <;> simp only [same, Bool.false_eq_true] at hab
    cases c <;> simp only [same, Bool.false_eq_true] at hbc
    have ih := same_trans a
    simp only [same, Bool.and_eq_true, beq_iff_eq] at *
    grind
  | element a a' _, b, c, hab, hbc | binary _ _ a a', b, c, hab, hbc
  | compare _ a a', b, c, hab, hbc => by
    cases b <;> simp only [same, Bool.false_eq_true] at hab
    cases c <;> simp only [same, Bool.false_eq_true] at hbc
    have ih := same_trans a
    have ih' := same_trans a'
    simp only [same, Bool.and_eq_true, beq_iff_eq] at *
    grind
  | callStatic _ as, b, c, hab, hbc | callDynamic _ _ as, b, c, hab, hbc
  | construct _ _ as, b, c, hab, hbc | newMultiArray _ as, b, c, hab, hbc
  | concat as, b, c, hab, hbc => by
    cases b <;> simp only [same, Bool.false_eq_true] at hab
    cases c <;> simp only [same, Bool.false_eq_true] at hbc
    have ih := sameAll_trans as
    simp only [same, Bool.and_eq_true, beq_iff_eq] at *
    grind
  | callInstance _ a _ as, b, c, hab, hbc | arrayLiteral _ a as, b, c, hab,
      hbc => by
    cases b <;> simp only [same, Bool.false_eq_true] at hab
    cases c <;> simp only [same, Bool.false_eq_true] at hbc
    have ih := same_trans a
    have ih' := sameAll_trans as
    simp only [same, Bool.and_eq_true, beq_iff_eq] at *
    grind

theorem sameAll_trans : (as bs cs : List Expr) → sameAll as bs = true →
    sameAll bs cs = true → sameAll as cs = true
  | [], [], [], _, _ => rfl
  | a :: as, b :: bs, c :: cs, hab, hbc => by
    simp only [sameAll, Bool.and_eq_true] at *
    exact ⟨same_trans a b c hab.1 hbc.1, sameAll_trans as bs cs hab.2 hbc.2⟩

end

mutual

/-- Sameness of expressions is symmetric. -/
theorem same_symm : (a b : Expr) → a.same b = true → b.same a = true
  | null, b, h => by
    cases b <;> simp only [same, Bool.false_eq_true] at h
    rfl
  | int _, b, h | long _, b, h | string _, b, h | classLiteral _, b, h
  | var _, b, h
  | staticField _, b, h | uninitialized _, b, h | caught _, b, h => by
    cases b <;> simp only [same, Bool.false_eq_true, beq_iff_eq] at h
    simp [same, h]
  | float _, b, h | double _, b, h => by
    cases b <;> simp only [same, Bool.false_eq_true] at h
    exact Numeric.Format.same_symm h
  | instanceField a _, b, h | length a, b, h | neg _ a, b, h | cast _ a, b, h
  | instanceOf _ a, b, h | newArray _ a, b, h => by
    cases b <;> simp only [same, Bool.false_eq_true] at h
    have ih := same_symm a
    simp only [same, Bool.and_eq_true, beq_iff_eq] at *
    grind
  | element a a' _, b, h | binary _ _ a a', b, h | compare _ a a', b, h => by
    cases b <;> simp only [same, Bool.false_eq_true] at h
    have ih := same_symm a
    have ih' := same_symm a'
    simp only [same, Bool.and_eq_true, beq_iff_eq] at *
    grind
  | callStatic _ as, b, h | callDynamic _ _ as, b, h | construct _ _ as, b, h
  | newMultiArray _ as, b, h | concat as, b, h => by
    cases b <;> simp only [same, Bool.false_eq_true] at h
    have ih := sameAll_symm as
    simp only [same, Bool.and_eq_true, beq_iff_eq] at *
    grind
  | callInstance _ a _ as, b, h | arrayLiteral _ a as, b, h => by
    cases b <;> simp only [same, Bool.false_eq_true] at h
    have ih := same_symm a
    have ih' := sameAll_symm as
    simp only [same, Bool.and_eq_true, beq_iff_eq] at *
    grind

theorem sameAll_symm : (as bs : List Expr) → sameAll as bs = true →
      sameAll bs as = true
  | [], [], _ => rfl
  | a :: as, b :: bs, h => by
    simp only [sameAll, Bool.and_eq_true] at *
    exact ⟨same_symm a b h.1, sameAll_symm as bs h.2⟩

end

mutual

/-- An expression without not-a-number is the same as itself. -/
theorem same_self : (e : Expr) → e.hasNaN = false → e.same e = true
  | null, _ => rfl
  | int _, _ | long _, _ | string _, _ | classLiteral _, _ | var _, _
  | staticField _, _
  | uninitialized _, _ | caught _, _ => by simp [same]
  | float _, h | double _, h => Numeric.Format.same_self h
  | instanceField a _, h | length a, h | neg _ a, h | cast _ a, h
  | instanceOf _ a, h
  | newArray _ a, h => by simp [same, same_self a h]
  | element a a' _, h | binary _ _ a a', h | compare _ a a', h => by
    obtain ⟨h, h'⟩ := Bool.or_eq_false_iff.1 h
    simp [same, same_self a h, same_self a' h']
  | callStatic _ as, h | callDynamic _ _ as, h | construct _ _ as, h
  | newMultiArray _ as, h
  | concat as, h => by simp [same, sameAll_self as h]
  | callInstance _ a _ as, h | arrayLiteral _ a as, h => by
    obtain ⟨h, h'⟩ := Bool.or_eq_false_iff.1 h
    simp [same, same_self a h, sameAll_self as h']

theorem sameAll_self : (es : List Expr) → haveNaN es = false →
      sameAll es es = true
  | [], _ => rfl
  | e :: es, h => by
    obtain ⟨h, h'⟩ := Bool.or_eq_false_iff.1 h
    simp [sameAll, same_self e h, sameAll_self es h']

end

end Expr

namespace Condition

mutual

/-- Whether a NaN is written anywhere in a condition. -/
def hasNaN : Condition → Bool
  | test e _ => e.hasNaN
  | compare a _ b => a.hasNaN || b.hasNaN
  | all cs | any cs => haveNaN cs
  | const _ => false

/-- Whether a NaN is written in some condition of a list. -/
def haveNaN : List Condition → Bool
  | [] => false
  | c :: cs => c.hasNaN || haveNaN cs

end

mutual

/-- Sameness of conditions is transitive. -/
theorem same_trans : (a b c : Condition) → a.same b = true → b.same c = true →
      a.same c = true
  | test e _, b, c, hab, hbc => by
    cases b <;> simp only [same, Bool.false_eq_true] at hab
    cases c <;> simp only [same, Bool.false_eq_true] at hbc
    have ih := e.same_trans
    simp only [same, Bool.and_eq_true, beq_iff_eq] at *
    grind
  | compare l _ r, b, c, hab, hbc => by
    cases b <;> simp only [same, Bool.false_eq_true] at hab
    cases c <;> simp only [same, Bool.false_eq_true] at hbc
    have left := l.same_trans
    have right := r.same_trans
    simp only [same, Bool.and_eq_true, beq_iff_eq] at *
    grind
  | all as, b, c, hab, hbc | any as, b, c, hab, hbc => by
    cases b <;> simp only [same, Bool.false_eq_true] at hab
    cases c <;> simp only [same, Bool.false_eq_true] at hbc
    exact sameAll_trans as _ _ hab hbc
  | const _, b, c, hab, hbc => by
    cases b <;> simp only [same, Bool.false_eq_true, beq_iff_eq] at hab
    exact hab ▸ hbc

theorem sameAll_trans : (as bs cs : List Condition) → sameAll as bs = true →
    sameAll bs cs = true → sameAll as cs = true
  | [], [], [], _, _ => rfl
  | a :: as, b :: bs, c :: cs, hab, hbc => by
    simp only [sameAll, Bool.and_eq_true] at *
    exact ⟨same_trans a b c hab.1 hbc.1, sameAll_trans as bs cs hab.2 hbc.2⟩

end

mutual

/-- Sameness of conditions is symmetric. -/
theorem same_symm : (c d : Condition) → c.same d = true → d.same c = true
  | test e _, d, h => by
    cases d <;> simp only [same, Bool.false_eq_true] at h
    have ih := e.same_symm
    simp only [same, Bool.and_eq_true, beq_iff_eq] at *
    grind
  | compare l _ r, d, h => by
    cases d <;> simp only [same, Bool.false_eq_true] at h
    have left := l.same_symm
    have right := r.same_symm
    simp only [same, Bool.and_eq_true, beq_iff_eq] at *
    grind
  | all cs, d, h | any cs, d, h => by
    cases d <;> simp only [same, Bool.false_eq_true] at h
    exact sameAll_symm cs _ h
  | const _, d, h => by
    cases d <;> simp only [same, Bool.false_eq_true, beq_iff_eq] at h
    simp [same, h]

theorem sameAll_symm : (cs ds : List Condition) → sameAll cs ds = true →
      sameAll ds cs = true
  | [], [], _ => rfl
  | c :: cs, d :: ds, h => by
    simp only [sameAll, Bool.and_eq_true] at *
    exact ⟨same_symm c d h.1, sameAll_symm cs ds h.2⟩

end

mutual

/-- A condition without not-a-number is the same as itself. -/
theorem same_self : (c : Condition) → c.hasNaN = false → c.same c = true
  | test e _, h => by simp [same, e.same_self h]
  | compare l _ r, h => by
    obtain ⟨h, h'⟩ := Bool.or_eq_false_iff.1 h
    simp [same, l.same_self h, r.same_self h']
  | all cs, h | any cs, h => sameAll_self cs h
  | const _, _ => by simp [same]

theorem sameAll_self : (cs : List Condition) → haveNaN cs = false →
      sameAll cs cs = true
  | [], _ => rfl
  | c :: cs, h => by
    obtain ⟨h, h'⟩ := Bool.or_eq_false_iff.1 h
    simp [sameAll, same_self c h, sameAll_self cs h']

end

/-- Whether two tests are equal or the same. -/
def Alike (c d : Condition) : Prop := c = d ∨ c.same d = true

/-- Likeness of tests is transitive. -/
theorem Alike.trans {a b c : Condition} (hab : a.Alike b) (hbc : b.Alike c) :
    a.Alike c := by
  rcases hab with rfl | hab
  · exact hbc
  rcases hbc with rfl | hbc
  · exact .inr hab
  · exact .inr (same_trans a b c hab hbc)

/-- Likeness of tests is symmetric. -/
theorem Alike.symm {a b : Condition} (h : a.Alike b) : b.Alike a :=
  h.imp Eq.symm (same_symm a b)

end Condition

end Decompiler
