import Decompiler.Proofs.Condition.Grammar
import Decompiler.Source.Condition.Meaning

/-!
# Written conditions are read back

Only a disjunction that is a member of a conjunction is put in parentheses.  All
other junctions are written without a mark of where they begin and end: one
inside another of its kind is read as part of it, and one with a single member
is not seen at all.  So what is read back may be another condition, but it means
the same.

What carries the induction is where a condition stands.  As a member of a
conjunction it is spelled as some factors that together mean what it means, as a
member of a disjunction as some terms; how it is written depends on that place
only if it is a disjunction.

* `Condition.SpelledAs`: pieces that mean the junction of some conditions.
* `Condition.spelledAs_tokens`: a condition in its place.
* `Condition.parse_tokens_keeps_value`: what is read back means the same.
-/

namespace Decompiler

/-- The token between the members of a junction. -/
def Junction.connective : Junction → Token
  | all => .and
  | any => .or

namespace Condition

mutual

/-- Whether every junction in a condition has a member. -/
def isInhabited : Condition → Bool
  | all cs | any cs => !cs.isEmpty && areInhabited cs
  | _ => true

/-- Whether every junction in some conditions has a member. -/
def areInhabited : List Condition → Bool
  | [] => true
  | c :: cs => c.isInhabited && areInhabited cs

end

mutual

/-- The tests and constants in a condition. -/
def leaves : Condition → List Condition
  | all cs | any cs => leavesOf cs
  | c => [c]

/-- The tests and constants in some conditions. -/
def leavesOf : List Condition → List Condition
  | [] => []
  | c :: cs => c.leaves ++ leavesOf cs

end

/-- Whether the tests and constants in some conditions come to the same as what
their texts are read as. -/
def ReadAlike (read : String → Condition) (truth : Condition → Bool)
    (cs : List Condition) : Prop :=
  ∀ leaf ∈ leavesOf cs, (read leaf.text).value truth = leaf.value truth

/-- The layer that spells the members of a junction. -/
def Layer.members : Junction → Layer
  | .all => .term
  | .any => .disjunction

/-- Pieces that spell members of a junction, which together mean the junction of
some conditions. -/
def SpelledAs (read : String → Condition) (j : Junction) (ts : List Lexeme)
    (cs : List Condition) : Prop :=
  ∃ ds, Spells (.members j) ts ds ∧
    ∀ truth, ReadAlike read truth cs → j.value truth ds = j.value truth cs

variable {read : String → Condition} {truth : Condition → Bool} {j : Junction}
  {ts us : List Lexeme} {c : Condition} {cs ds : List Condition}

/-- Conditions that are read alike begin with one that is. -/
theorem ReadAlike.head (h : ReadAlike read truth (c :: cs)) :
    ReadAlike read truth [c] := by
  intro leaf hleaf
  rw [leavesOf, leavesOf, List.append_nil] at hleaf
  exact h leaf (List.mem_append_left _ hleaf)

/-- Conditions that are read alike go on with some that are. -/
theorem ReadAlike.tail (h : ReadAlike read truth (c :: cs)) :
    ReadAlike read truth cs :=
  fun leaf hleaf => h leaf (List.mem_append_right _ hleaf)

/-! ### Pieces in their place -/

namespace SpelledAs

/-- A junction in the place of a member of its kind. -/
theorem nested (h : SpelledAs read j ts cs) (hleaves : c.leaves = leavesOf cs)
    (hvalue : ∀ truth, c.value truth = j.value truth cs) :
    SpelledAs read j ts [c] := by
  obtain ⟨ds, hspells, hmeans⟩ := h
  refine ⟨ds, hspells, fun truth halike => ?_⟩
  have halike' : ReadAlike read truth cs := by
    rwa [ReadAlike, leavesOf, leavesOf, List.append_nil, hleaves] at halike
  calc j.value truth ds
      = j.value truth cs := hmeans truth halike'
    _ = (j.of [c]).value truth := (hvalue truth).symm
    _ = j.value truth [c] := j.value_of truth [c]

/-- Factors make up a term. -/
theorem alone (h : SpelledAs read .all ts [c]) :
    SpelledAs read .any ts [c] := by
  obtain ⟨ds, hspells, hmeans⟩ := h
  refine ⟨_, .alone hspells, fun truth halike => ?_⟩
  calc Junction.any.value truth [Junction.all.of ds]
      = (Junction.all.of ds).value truth :=
        (Junction.any.value_of truth [_]).symm
    _ = Junction.all.value truth ds := Junction.all.value_of truth ds
    _ = Junction.all.value truth [c] := hmeans truth halike
    _ = c.value truth := (Junction.all.value_of truth [c]).symm
    _ = Junction.any.value truth [c] := Junction.any.value_of truth [c]

/-- In parentheses, terms make up a factor. -/
theorem enclosed (h : SpelledAs read .any ts [c]) :
    SpelledAs read .all (.opening :: (ts ++ [.closing])) [c] := by
  obtain ⟨ds, hspells, hmeans⟩ := h
  refine ⟨_, .one (.enclosed hspells), fun truth halike => ?_⟩
  calc Junction.all.value truth [Junction.any.of ds]
      = (Junction.any.of ds).value truth :=
        (Junction.all.value_of truth [_]).symm
    _ = Junction.any.value truth ds := Junction.any.value_of truth ds
    _ = Junction.any.value truth [c] := hmeans truth halike
    _ = c.value truth := (Junction.any.value_of truth [c]).symm
    _ = Junction.all.value truth [c] := Junction.all.value_of truth [c]

/-- A connective in between joins members. -/
theorem cons (h : SpelledAs read j ts [c]) (h' : SpelledAs read j us cs) :
    SpelledAs read j (ts ++ j.connective.lexeme read :: us) (c :: cs) := by
  obtain ⟨ds, hspells, hmeans⟩ := h
  obtain ⟨ds', hspells', hmeans'⟩ := h'
  refine ⟨ds ++ ds', ?_, fun truth halike => ?_⟩
  · cases j with
    | all => exact hspells.and_append hspells'
    | any => exact hspells.or_append hspells'
  · rw [← List.singleton_append, Junction.value_append, Junction.value_append,
      hmeans truth halike.head, hmeans' truth halike.tail]

end SpelledAs

/-- A test or constant is a factor and a term. -/
theorem spelledAs_leaf {t : String} (hleaves : c.leaves = [c])
    (htokens : c.tokens = [.atom t]) :
    SpelledAs read .all (c.tokens.map (Token.lexeme read)) [c] ∧
      SpelledAs read .any (c.tokens.map (Token.lexeme read)) [c] := by
  have htext : c.text = t := by simp [text, htokens, Token.text, String.join]
  have hfactor : SpelledAs read .all (c.tokens.map (Token.lexeme read))
      [c] := by
    rw [htokens, ← htext]
    refine ⟨[read c.text], .one (.leaf _), fun truth halike => ?_⟩
    have hread : (read c.text).value truth = c.value truth :=
      halike c (by simp [leavesOf, hleaves])
    simpa [Junction.value] using hread
  exact ⟨hfactor, hfactor.alone⟩

/-- A junction is inhabited if it has members and each of them is. -/
theorem isInhabited_junction : (!cs.isEmpty && areInhabited cs) = true ↔
    cs ≠ [] ∧ areInhabited cs = true := by
  cases cs <;> simp

/-- The pieces of a separated text are those of its parts, with the separator in
between. -/
theorem map_intercalate_cons (t : Token) (ts : List Token)
    {tss : List (List Token)} (hne : tss ≠ []) :
    ([t].intercalate (ts :: tss)).map (Token.lexeme read) =
      ts.map (Token.lexeme read) ++
        t.lexeme read :: ([t].intercalate tss).map (Token.lexeme read) := by
  rw [List.intercalate_cons_of_ne_nil hne]
  simp

/-! ### Conditions in their place -/

mutual

/-- **A condition in its place** is spelled as a member of a conjunction or of a
disjunction. -/
theorem spelledAs_tokens (read : String → Condition) :
    (c : Condition) → c.isInhabited = true →
      SpelledAs read .all ((parenthesized c c.tokens).map (Token.lexeme read))
        [c] ∧ SpelledAs read .any (c.tokens.map (Token.lexeme read)) [c]
  | test .., _ => spelledAs_leaf rfl rfl
  | compare .., _ => spelledAs_leaf rfl rfl
  | const _, _ => spelledAs_leaf rfl rfl
  | all cs, hinhabited => by
    obtain ⟨hne, hmembers⟩ := isInhabited_junction.1 hinhabited
    have h : SpelledAs read .all _ [all cs] :=
      (spelledAs_members read cs hmembers hne).1.nested rfl
        fun truth => allValue_eq_all truth cs
    exact ⟨h, h.alone⟩
  | any cs, hinhabited => by
    obtain ⟨hne, hmembers⟩ := isInhabited_junction.1 hinhabited
    have h : SpelledAs read .any _ [any cs] :=
      (spelledAs_members read cs hmembers hne).2.nested rfl
        fun truth => anyValue_eq_any truth cs
    refine ⟨?_, h⟩
    simpa [parenthesized, tokens, Token.lexeme] using h.enclosed

/-- The members of a junction are spelled as such. -/
theorem spelledAs_members (read : String → Condition) :
    (cs : List Condition) → areInhabited cs = true → cs ≠ [] →
      SpelledAs read .all
        (([Token.and].intercalate (factors cs)).map (Token.lexeme read)) cs ∧
        SpelledAs read .any
          (([Token.or].intercalate (terms cs)).map (Token.lexeme read)) cs
  | [], _, hne => absurd rfl hne
  | [c], hinhabited, _ => by
    simp only [areInhabited, Bool.and_true] at hinhabited
    simpa [factors, terms] using spelledAs_tokens read c hinhabited
  | c :: d :: cs, hinhabited, _ => by
    rw [areInhabited, Bool.and_eq_true] at hinhabited
    obtain ⟨hall, hany⟩ := spelledAs_tokens read c hinhabited.1
    obtain ⟨hall', hany'⟩ :=
      spelledAs_members read (d :: cs) hinhabited.2 (List.cons_ne_nil d cs)
    rw [factors, terms, map_intercalate_cons _ _ (by simp [factors]),
      map_intercalate_cons _ _ (by simp [terms])]
    exact ⟨hall.cons hall', hany.cons hany'⟩

end

/-- **Written conditions are read back.**  Whatever the tests and constants in a
condition without empty junctions are read as, its tokens are spelled by the
grammar, and the condition that they are read as means the same wherever these
do. -/
theorem parse_tokens_keeps_value (hinhabited : c.isInhabited = true)
    (read : String → Condition) :
    ∃ ds, Spells .disjunction (c.tokens.map (Token.lexeme read)) ds ∧
      parse (c.tokens.map (Token.lexeme read)) = some (Junction.any.of ds) ∧
      ∀ truth,
        (∀ leaf ∈ c.leaves, (read leaf.text).value truth = leaf.value truth) →
        (Junction.any.of ds).value truth = c.value truth := by
  obtain ⟨ds, hspells, hmeans⟩ := (spelledAs_tokens read c hinhabited).2
  refine ⟨ds, hspells, parse_of_spells hspells, fun truth halike => ?_⟩
  have halike' : ReadAlike read truth [c] := by
    rwa [ReadAlike, leavesOf, leavesOf, List.append_nil]
  calc (Junction.any.of ds).value truth
      = Junction.any.value truth ds := Junction.any.value_of truth ds
    _ = Junction.any.value truth [c] := hmeans truth halike'
    _ = c.value truth := (Junction.any.value_of truth [c]).symm

/-- Junctions inside others of their kind, junctions with a single member, and a
constant: what is read back is another condition, which means the same. -/
theorem parse_tokens_keeps_value_nested :
    let a : Condition := .test (.var (.ofSlot 0)) true
    let b : Condition := .test (.staticField ⟨"A", "b", "Z"⟩) false
    let c : Condition :=
      .all [.any [a, .all [b, .all [a]]], .all [b, .any [.any [.const true]]]]
    let d : Condition := .all [.any [a, .all [b, a]], b, .const true]
    let read (t : String) : Condition :=
      if t = a.text then a else if t = b.text then b else .const true
    c.isInhabited = true ∧
      c.text = "(!local0 || A.b && !local0) && A.b && (true)" ∧
      parse (c.tokens.map (Token.lexeme read)) = some d ∧
      ∀ truth, d.value truth = c.value truth := by
  intro a b c d read
  have hinhabited : c.isInhabited = true := rfl
  obtain ⟨ds, -, hparse, hmeans⟩ := parse_tokens_keeps_value hinhabited read
  have hread : parse (c.tokens.map (Token.lexeme read)) = some d := rfl
  have hd : Junction.any.of ds = d := Option.some.inj (hparse.symm.trans hread)
  refine ⟨hinhabited, ?_, hread, fun truth => ?_⟩
  · decide
  · rw [← hd]
    refine hmeans truth fun leaf hleaf => ?_
    have hleaves : leaf ∈ [a, b, a, b, .const true] := hleaf
    have hreadLeaf : ∀ l ∈ [a, b, a, b, .const true], read l.text = l := by
      simp only [List.forall_mem_cons]
      exact ⟨rfl, rfl, rfl, rfl, rfl, nofun⟩
    rw [hreadLeaf leaf hleaves]

end Condition

end Decompiler
