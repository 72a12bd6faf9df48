import Decompiler.Proofs.Condition.Normal
import Decompiler.Proofs.Condition.Same
import Mathlib.Data.List.Forall2

/-!
# What a condition asks

A condition is evaluated from left to right, and `&&` and `||` stop as soon as
they are decided.  A test may have effects, so it matters which tests are
evaluated, and in which order; the same test may come out differently when it
is evaluated again.  Here every test that is asked has a valuation of its own:
the `n`-th one is answered by `v n`.

* `ask_join`: joining two conditions asks the first, and then the second if the
  first leaves the junction open.
* `ask_like_of_same`: conditions that are the same ask the same.
* `ask_like_of_withoutTail?`: a condition asks what it asks without its tail
  and then what the tail asks.
-/

namespace Decompiler

/-- What came of asking: the answer, and the tests that were asked, in order. -/
structure Inquiry where
  holds : Bool
  asked : List Condition

/-- An inquiry into a member of a junction and, if it leaves the junction open,
the inquiry into the members behind it. -/
def Inquiry.andThen (j : Junction) (first rest : Inquiry) : Inquiry :=
  if first.holds = j.neutral then
    ⟨rest.holds, first.asked ++ rest.asked⟩ else first

namespace Condition

mutual

/-- What a condition asks when `n` tests have been asked before. -/
def ask (v : Nat → Valuation) : Condition → (n : Nat) → Inquiry
  | test e negated, n => ⟨(v n).test e != negated, [test e negated]⟩
  | compare lhs op rhs, n => ⟨(v n).compare lhs op rhs, [compare lhs op rhs]⟩
  | all cs, n => askMembers v .all cs n
  | any cs, n => askMembers v .any cs n
  | const b, _ => ⟨b, []⟩

/-- What a junction of some conditions asks. -/
def askMembers (v : Nat → Valuation) (j : Junction) : List Condition →
      (n : Nat) → Inquiry
  | [], _ => ⟨j.neutral, []⟩
  | c :: cs, n =>
    (c.ask v n).andThen j (askMembers v j cs (n + (c.ask v n).asked.length))

end

/-- Whether asking `c` is asking the test `p`, for its truth or for its
falsehood. -/
def Puts (c p : Condition) : Prop := p.Alike c ∨ p.negate.Alike c

/-- What is like a test puts it too. -/
theorem Puts.alike {p c d : Condition} (h : c.Puts p) (hcd : c.Alike d) :
    d.Puts p :=
  h.imp (·.trans hcd) (·.trans hcd)

end Condition

/-- Whether two inquiries have the same answer and ask the same. -/
structure Inquiry.Like (a b : Inquiry) : Prop where
  holds : a.holds = b.holds
  asked : List.Forall₂ Condition.Alike a.asked b.asked

namespace Inquiry

/-- An inquiry is like itself. -/
theorem Like.refl (a : Inquiry) : a.Like a :=
  ⟨rfl, List.forall₂_same.2 fun _ _ => .inl rfl⟩

/-- Like inquiries ask equally many tests. -/
theorem Like.length_asked {a b : Inquiry} (h : a.Like b) :
    a.asked.length = b.asked.length :=
  h.asked.length_eq

/-- Of three inquiries, it does not matter which two are put together first. -/
theorem andThen_assoc (j : Junction) (a b c : Inquiry) :
    (a.andThen j b).andThen j c = a.andThen j (b.andThen j c) := by
  unfold andThen
  split_ifs <;> simp_all

/-- Nothing asked at the end changes nothing. -/
theorem andThen_neutral (j : Junction) (a : Inquiry) :
    a.andThen j ⟨j.neutral, []⟩ = a := by
  obtain ⟨b, asked⟩ := a
  unfold andThen
  split_ifs with h
  · simp_all
  · rfl

/-- Nothing asked at the start changes nothing. -/
theorem neutral_andThen (j : Junction) (a : Inquiry) :
    Inquiry.andThen j ⟨j.neutral, []⟩ a = a := by
  simp [andThen]

/-- Inquiries put together are alike if their parts are. -/
theorem Like.andThen {j : Junction} {a b a' b' : Inquiry} (ha : a.Like a')
    (hb : b.Like b') : (a.andThen j b).Like (a'.andThen j b') := by
  unfold Inquiry.andThen
  rw [ha.holds]
  split_ifs
  · exact ⟨hb.holds, List.rel_append ha.asked hb.asked⟩
  · exact ha

end Inquiry

variable {v : Nat → Valuation}

namespace Condition

/-- A test asks itself and nothing else. -/
theorem ask_of_isTest {c : Condition} (h : c.isTest = true) (n : Nat) :
    c.ask v n = ⟨c.holds (v n), [c]⟩ := by
  cases c <;> first | rfl | simp [isTest] at h

/-- Members are asked one after the other. -/
theorem askMembers_append (v : Nat → Valuation) (j : Junction)
    (as bs : List Condition) (n : Nat) :
    askMembers v j (as ++ bs) n = (askMembers v j as n).andThen j
      (askMembers v j bs (n + (askMembers v j as n).asked.length)) := by
  induction as generalizing n with
  | nil => simp [askMembers, Inquiry.neutral_andThen]
  | cons a as ih =>
    simp only [List.cons_append, askMembers, ih, Inquiry.andThen_assoc]
    -- if the first member decides the junction, nothing else is asked
    by_cases h : (a.ask v n).holds = j.neutral
    · simp [Inquiry.andThen, h, Nat.add_assoc]
    · simp [Inquiry.andThen, h]

end Condition

namespace Junction

open Condition (askMembers)

/-- A junction asks its members. -/
theorem ask_of (v : Nat → Valuation) (j : Junction) (cs : List Condition)
    (n : Nat) : (j.of cs).ask v n = askMembers v j cs n := by
  match j, cs with
  | all, [c] | any, [c] => simp [of, askMembers, Inquiry.andThen_neutral]
  | all, [] | any, [] => rfl
  | all, c :: d :: cs | any, c :: d :: cs => rfl

/-- A condition asks what its members ask. -/
theorem ask_members (v : Nat → Valuation) (j : Junction) (c : Condition)
    (n : Nat) : askMembers v j (j.members c) n = c.ask v n := by
  cases j <;> cases c <;>
    simp [members, askMembers, Inquiry.andThen_neutral, Condition.ask]

/-- A junction of two conditions asks the first, and the second if the first
leaves the junction open. -/
theorem ask_join (v : Nat → Valuation) (j : Junction) (a b : Condition)
    (n : Nat) :
    (j.join a b).ask v n =
      (a.ask v n).andThen j (b.ask v (n + (a.ask v n).asked.length)) := by
  rw [join, ask_of, Condition.askMembers_append, ask_members, ask_members]

end Junction

namespace Condition

mutual

/-- Conditions that are the same ask the same. -/
theorem ask_like_of_same (hv : ∀ n, (v n).Faithful) :
    (c d : Condition) → c.same d = true → (n : Nat) →
    (c.ask v n).Like (d.ask v n)
  | test a m, test b k, h, n => by
    refine ⟨?_, .cons (.inr h) .nil⟩
    simp only [same, Bool.and_eq_true, beq_iff_eq] at h
    simp [ask, (hv n).test_congr a b h.1, h.2]
  | compare a o b, compare c p d, h, n => by
    refine ⟨?_, .cons (.inr h) .nil⟩
    simp only [same, Bool.and_eq_true, beq_iff_eq] at h
    obtain ⟨⟨hac, rfl⟩, hbd⟩ := h
    exact (hv n).compare_congr a c b d o hac hbd
  | all as, all bs, h, n => askMembers_like_of_same hv .all as bs h n
  | any as, any bs, h, n => askMembers_like_of_same hv .any as bs h n
  | const a, const b, h, n => by
    simp only [same, beq_iff_eq] at h
    exact h ▸ .refl _

/-- Junctions of conditions that are the same member by member ask the same. -/
theorem askMembers_like_of_same (hv : ∀ n, (v n).Faithful) (j : Junction) :
    (as bs : List Condition) → sameAll as bs = true → (n : Nat) →
      (askMembers v j as n).Like (askMembers v j bs n)
  | [], [], _, _ => .refl _
  | a :: as, b :: bs, h, n => by
    simp only [sameAll, Bool.and_eq_true] at h
    have head := ask_like_of_same hv a b h.1 n
    simp only [askMembers, ← head.length_asked]
    exact head.andThen (askMembers_like_of_same hv j as bs h.2 _)

end

end Condition

/-- A condition asks what it asks without its tail, and then what the tail
asks. -/
theorem Junction.ask_like_of_withoutTail? (hv : ∀ n, (v n).Faithful)
    {j : Junction} {c tail x : Condition} (h : j.withoutTail? c tail = some x)
    (n : Nat) : (c.ask v n).Like ((j.join x tail).ask v n) := by
  unfold withoutTail? at h
  simp only [Option.ite_none_right_eq_some, Option.some.injEq,
    Bool.and_eq_true] at h
  obtain ⟨⟨_, hsame⟩, rfl⟩ := h
  let kept := (j.members c).length - (j.members tail).length
  have hsplit : c.ask v n =
      Condition.askMembers v j
        ((j.members c).take kept ++ (j.members c).drop kept) n := by
    rw [List.take_append_drop, ask_members]
  rw [hsplit, Condition.askMembers_append, ask_join, ask_of,
    ← ask_members v j tail]
  exact (Inquiry.Like.refl _).andThen
    (Condition.askMembers_like_of_same hv j _ _ hsame _)

namespace Condition

/-- A reduced condition and its normal form ask the same. -/
theorem ask_normalize (c : Condition) (h : c.isReduced = true) (n : Nat) :
    c.normalize.ask v n = c.ask v n := by
  rw [normalize_of_isReduced c h]

end Condition

end Decompiler
