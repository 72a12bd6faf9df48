import Decompiler.Chain.Paths
import Decompiler.Proofs.Condition.Normal
import Decompiler.Proofs.Condition.Same
import Mathlib.Data.Bool.Basic

/-!
# Between two sides

A test stands between what holds where its jump is taken and what holds where it
is not.  The choice between the two sides is written in one of a few forms,
which ask the test itself, its negation, or both; what is said of a choice is
said form by form.

If the test and its negation cannot both hold, the form never holds where the
side that control takes does not; and where that side holds the form can only
fail because it asks for the test as it comes out there, and that fails.  Every
form keeps all the tests of both sides, up to sameness, so what is not asked for
in the end is not asked for on the way.

* `Condition.AsksFor`: whether a test is asked for in a condition.
* `Condition.forms_select`: the forms of a choice.
* `Condition.Forms.asksFor`: no test of the two sides is lost.
* `Condition.Forms.side_holds`: what holds, holds on the side that control
  takes.
* `Condition.Forms.holds_of_side`: when a form holds where that side does.
-/

namespace Decompiler

/-! ### The tests of a condition -/

namespace Condition

mutual

/-- Whether a test or one that is the same is asked for in a condition. -/
def AsksFor (q : Condition) : Condition → Prop
  | test e negated => q.Alike (test e negated)
  | compare lhs op rhs => q.Alike (compare lhs op rhs)
  | all cs | any cs => SomeAsksFor q cs
  | const _ => False

/-- Whether a test is asked for in some condition of a list. -/
def SomeAsksFor (q : Condition) : List Condition → Prop
  | [] => False
  | c :: cs => AsksFor q c ∨ SomeAsksFor q cs

end

variable {q p c d : Condition}

/-- Some member asks for a test. -/
theorem someAsksFor_iff {cs : List Condition} : SomeAsksFor q cs ↔
      ∃ c ∈ cs, q.AsksFor c := by
  induction cs with
  | nil => simp [SomeAsksFor]
  | cons c cs ih => simp [SomeAsksFor, ih]

/-- A test asks for itself. -/
theorem asksFor_self (hp : p.isTest = true) : p.AsksFor p := by
  cases p <;> first | exact .inl rfl | cases hp

mutual

/-- Conditions that are the same ask for the same tests. -/
theorem asksFor_of_same : (c d : Condition) → c.same d = true → q.AsksFor c →
      q.AsksFor d
  | test .., test .., h, hc | compare .., compare .., h, hc => hc.trans (.inr h)
  | all as, all bs, h, hc | any as, any bs, h, hc =>
    someAsksFor_of_sameAll as bs h hc

theorem someAsksFor_of_sameAll : (cs ds : List Condition) →
    sameAll cs ds = true → SomeAsksFor q cs → SomeAsksFor q ds
  | c :: cs, d :: ds, h, hc => by
    simp only [sameAll, Bool.and_eq_true] at h
    exact hc.imp (asksFor_of_same c d h.1) (someAsksFor_of_sameAll cs ds h.2)

end

end Condition

namespace Junction

variable {j : Junction} {q a b c tail x : Condition} {cs : List Condition}

/-- A junction asks for what some member asks for. -/
theorem asksFor_of : q.AsksFor (j.of cs) ↔ Condition.SomeAsksFor q cs := by
  match j, cs with
  | all, [c] | any, [c] => simp [of, Condition.SomeAsksFor]
  | all, [] | any, [] => exact Iff.rfl
  | all, c :: d :: cs | any, c :: d :: cs => exact Iff.rfl

/-- The members of a condition ask for what it asks for. -/
theorem someAsksFor_members : Condition.SomeAsksFor q (j.members c) ↔
      q.AsksFor c := by
  cases j <;> cases c <;>
    simp [members, Condition.SomeAsksFor, Condition.AsksFor]

/-- A join asks for what one of its sides asks for. -/
theorem asksFor_join : q.AsksFor (j.join a b) ↔ q.AsksFor a ∨ q.AsksFor b := by
  rw [join, asksFor_of, ← someAsksFor_members (j := j) (c := a),
    ← someAsksFor_members (j := j) (c := b)]
  simp only [Condition.someAsksFor_iff, List.mem_append, or_and_right,
    exists_or]

/-- Every test of a condition is left in front of its tail, or is in the
tail. -/
theorem asksFor_of_withoutTail? (h : j.withoutTail? c tail = some x)
    (hc : q.AsksFor c) : q.AsksFor x ∨ q.AsksFor tail := by
  unfold withoutTail? at h
  simp only [Option.ite_none_right_eq_some, Option.some.injEq,
    Bool.and_eq_true] at h
  obtain ⟨⟨_, hsame⟩, rfl⟩ := h
  rw [← someAsksFor_members (j := j), Condition.someAsksFor_iff] at hc
  obtain ⟨d, hd, hasks⟩ := hc
  rw [← List.take_append_drop ((j.members c).length - (j.members tail).length)
    (j.members c)] at hd
  rcases List.mem_append.1 hd with hd | hd
  · exact .inl (asksFor_of.2 (Condition.someAsksFor_iff.2 ⟨d, hd, hasks⟩))
  · exact .inr
      (someAsksFor_members.1 (Condition.someAsksFor_of_sameAll _ _ hsame
      (Condition.someAsksFor_iff.2 ⟨d, hd, hasks⟩)))

end Junction

/-! ### The forms of a choice -/

namespace Condition

/-- A test as it comes out: itself or its negation. -/
def literal (p : Condition) (jump : Bool) : Condition :=
  if jump then p else p.negate

/-- The side of a choice that a test tells. -/
def side (t f : Condition) (jump : Bool) : Condition := if jump then t else f

/-- Whether a condition is a constant. -/
def isConstant (c : Condition) : Bool := c.isConst true || c.isConst false

/-- Whether two conditions end in a tail that factoring takes off one of
them. -/
def sharesTail (t f : Condition) : Bool :=
  (Junction.any.withoutTail? f t).isSome ||
    (Junction.any.withoutTail? t f).isSome ||
    (Junction.all.withoutTail? f t).isSome ||
    (Junction.all.withoutTail? t f).isSome

/-- The forms in which a choice between two sides is written.  Each of them goes
by one of the sides, `b`, except for the two at the ends. -/
inductive Forms (p t f : Condition) : Condition → Prop
  | alike (h : t.same f = true) : Forms p t f t
  | bare (b : Bool) (hyes : side t f b = const true)
      (hno : side t f (!b) = const false) :
    Forms p t f (p.literal b)
  | orElse (b : Bool) (h : side t f b = const true)
      (hopen : (side t f !b).isConstant = false) :
    Forms p t f (Junction.any.join (p.literal b) (side t f !b))
  | andThen (b : Bool) (h : side t f (!b) = const false)
      (hopen : (side t f b).isConstant = false) :
    Forms p t f (Junction.all.join (p.literal b) (side t f b))
  | orTail (b : Bool) {x : Condition}
    (h : Junction.any.withoutTail? (side t f b) (side t f !b) = some x)
    (hopen : ∀ b, (side t f b).isConstant = false) :
    Forms p t f (Junction.any.join (Junction.all.join (p.literal b) x) (side t f !b))
  | andTail (b : Bool) {x : Condition}
    (h : Junction.all.withoutTail? (side t f !b) (side t f b) = some x)
    (hopen : ∀ b, (side t f b).isConstant = false) :
    Forms p t f (Junction.all.join (Junction.any.join (p.literal b) x) (side t f b))
  | plain (h : sharesTail t f = false)
      (hopen : ∀ b, (side t f b).isConstant = false) :
    Forms p t f (any [Junction.all.join p t, Junction.all.join p.negate f])

variable {truth : Condition → Bool} {p t f q s : Condition} {jump : Bool}

/-- What a choice between two sides comes to, once the sides share what they
have in common, is in one of the forms. -/
theorem forms_selectShared (p : Condition)
    (hopen : ∀ b, (side t f b).isConstant = false) :
    Forms p t f (selectShared p t f) := by
  unfold selectShared
  split
  · rename_i h
    exact .orTail false h hopen
  split
  · rename_i h
    exact .orTail true h hopen
  split
  · rename_i h
    exact .andTail true h hopen
  split
  · rename_i h
    exact .andTail false h hopen
  · refine .plain ?_ hopen
    simp_all [sharesTail]

/-- **The forms.**  A choice between two sides is written in one of the
forms. -/
theorem forms_select (p t f : Condition) : Forms p t f (select p t f) := by
  -- a constant side that meets no rule for constants is the same as the other
  -- side
  have other {c : Condition} (hc : ∀ b, c ≠ const b) :
      c.isConstant = false := by
    cases c with
    | const b => exact absurd rfl (hc b)
    | test | compare | all | any => rfl
  unfold select
  by_cases hsame : t.same f = true
  · rw [if_pos hsame]
    exact .alike hsame
  rw [if_neg hsame]
  split
  · exact .bare true rfl rfl
  · exact .bare false rfl rfl
  · refine .orElse true rfl (other fun b hb => ?_)
    subst hb
    cases b <;> simp_all [same]
  · refine .andThen true rfl (other fun b hb => ?_)
    subst hb
    cases b <;> simp_all [same]
  · refine .andThen false rfl (other fun b hb => ?_)
    subst hb
    cases b <;> simp_all [same]
  · refine .orElse false rfl (other fun b hb => ?_)
    subst hb
    cases b <;> simp_all
  · refine forms_selectShared p fun b => other fun b' hb' => ?_
    cases b <;> cases b' <;> simp_all [side]

/-- **No test is lost.**  A choice between two sides asks for every test of
either side. -/
theorem Forms.asksFor (hs : Forms p t f s) (b : Bool)
    (h : q.AsksFor (side t f b)) : q.AsksFor s := by
  cases hs with
  | alike hsame =>
    cases b
    · exact asksFor_of_same f t (same_symm t f hsame) h
    · exact h
  | bare b' hyes hno =>
    obtain rfl | rfl := Bool.eq_or_eq_not b b'
    · rw [hyes] at h
      exact h.elim
    · rw [hno] at h
      exact h.elim
  | orElse b' hyes _ =>
    obtain rfl | rfl := Bool.eq_or_eq_not b b'
    · rw [hyes] at h
      exact h.elim
    · exact Junction.asksFor_join.2 (.inr h)
  | andThen b' hno _ =>
    obtain rfl | rfl := Bool.eq_or_eq_not b b'
    · exact Junction.asksFor_join.2 (.inr h)
    · rw [hno] at h
      exact h.elim
  | orTail b' hx _ =>
    obtain rfl | rfl := Bool.eq_or_eq_not b b'
    · rw [Junction.asksFor_join, Junction.asksFor_join]
      exact (Junction.asksFor_of_withoutTail? hx h).imp_left .inr
    · exact Junction.asksFor_join.2 (.inr h)
  | andTail b' hx _ =>
    obtain rfl | rfl := Bool.eq_or_eq_not b b'
    · exact Junction.asksFor_join.2 (.inr h)
    · rw [Junction.asksFor_join, Junction.asksFor_join]
      exact (Junction.asksFor_of_withoutTail? hx h).imp_left .inr
  | plain =>
    cases b
    · exact .inr (.inl (Junction.asksFor_join.2 (.inr h)))
    · exact .inl (Junction.asksFor_join.2 (.inr h))

/-- **What holds, holds on the side that control takes**, if control goes where
the test tells whenever it or its negation holds. -/
theorem Forms.side_holds (hs : Forms p t f s) (ht : Congruent truth)
    (hlit : ∀ b, (p.literal b).value truth = true → jump = b)
    (h : s.value truth = true) : (side t f jump).value truth = true := by
  cases hs with
  | alike hsame =>
    cases jump
    · exact value_eq_of_same ht t f hsame ▸ h
    · exact h
  | bare b hyes _ =>
    rw [hlit b h, hyes]
    rfl
  | orElse b hyes _ =>
    rw [Junction.value_join] at h
    obtain rfl | rfl := Bool.eq_or_eq_not jump b
    · rw [hyes]
      rfl
    · exact (Bool.or_eq_true_iff.1 h).resolve_left fun hb =>
        Bool.not_ne_self b (hlit b hb)
  | andThen b hno _ =>
    rw [Junction.value_join] at h
    obtain ⟨hb, h⟩ := Bool.and_eq_true_iff.1 h
    rw [hlit b hb]
    exact h
  | @orTail b x hx _ =>
    have htail := Junction.value_of_withoutTail? ht hx
    have hb := hlit b
    rw [Junction.value_join] at h htail
    rw [Junction.value_join] at h
    obtain rfl | rfl := Bool.eq_or_eq_not jump b <;> grind
  | @andTail b x hx _ =>
    have htail := Junction.value_of_withoutTail? ht hx
    have hb := hlit b
    rw [Junction.value_join] at h htail
    rw [Junction.value_join] at h
    obtain rfl | rfl := Bool.eq_or_eq_not jump b <;> grind
  | plain =>
    simp only [value, anyValue, Junction.value_join, Bool.or_false,
      Bool.or_eq_true, Bool.and_eq_true] at h
    rcases h with ⟨hp, h⟩ | ⟨hn, h⟩
    · rw [hlit true hp]
      exact h
    · rw [hlit false hn]
      exact h

/-- **When the form holds.**  Where the side that control takes holds, the form
can only fail because it asks for the test as it comes out there, and that
fails. -/
theorem Forms.holds_of_side (hs : Forms p t f s) (ht : Congruent truth)
    (hlit : (p.literal jump).value truth = true ∨
      p.isTest = true ∧ ¬ (p.literal jump).AsksFor s)
    (h : (side t f jump).value truth = true) : s.value truth = true := by
  have hasks (hs : p.isTest = true → (p.literal jump).AsksFor s) :
      (p.literal jump).value truth = true :=
        hlit.resolve_right fun h => h.2 (hs h.1)
  have hself (hp : p.isTest = true) :
      (p.literal jump).AsksFor (p.literal jump) := by
    refine asksFor_self ?_
    cases jump
    · exact isTest_negate hp
    · exact hp
  cases hs with
  | alike hsame =>
    cases jump
    · rw [value_eq_of_same ht t f hsame]
      exact h
    · exact h
  | bare b hyes hno =>
    obtain rfl | rfl := Bool.eq_or_eq_not jump b
    · exact hasks hself
    · rw [hno] at h
      cases h
  | orElse b hyes _ =>
    rw [Junction.value_join]
    obtain rfl | rfl := Bool.eq_or_eq_not jump b
    · exact Bool.or_eq_true_iff.2
        (.inl (hasks fun hp => Junction.asksFor_join.2 (.inl (hself hp))))
    · exact Bool.or_eq_true_iff.2 (.inr h)
  | andThen b hno _ =>
    rw [Junction.value_join]
    obtain rfl | rfl := Bool.eq_or_eq_not jump b
    · exact Bool.and_eq_true_iff.2
        ⟨hasks fun hp => Junction.asksFor_join.2 (.inl (hself hp)), h⟩
    · rw [hno] at h
      cases h
  | @orTail b x hx _ | @andTail b x hx _ =>
    have htail := Junction.value_of_withoutTail? ht hx
    rw [Junction.value_join, Junction.value_join]
    rw [Junction.value_join] at htail
    obtain rfl | rfl := Bool.eq_or_eq_not jump b
    · have hb := hasks fun hp =>
        Junction.asksFor_join.2
          (.inl (Junction.asksFor_join.2 (.inl (hself hp))))
      grind
    · grind
  | plain =>
    simp only [value, anyValue, Junction.value_join, Bool.or_false,
      Bool.or_eq_true, Bool.and_eq_true]
    cases jump
    · exact .inr ⟨hasks fun hp => .inr (.inl (Junction.asksFor_join.2 (.inl (hself hp)))), h⟩
    · exact .inl ⟨hasks fun hp => .inl (Junction.asksFor_join.2 (.inl (hself hp))), h⟩

end Condition

end Decompiler
