import Decompiler.Source.Condition.Text

/-!
# The grammar of written conditions

A written condition is a disjunction of terms, a term is a conjunction of
factors, and a factor is a test, a constant, or a written condition in
parentheses.  So conjunction binds tighter than disjunction.  A test or constant
is one piece of the text, which stands for a condition.

A text is read from left to right.  What has been read of the conditions in the
parentheses that are still open is kept; it tells what to do at the next piece.

* `Condition.Spells`: the grammar; `Spells.and_append`, `Spells.or_append`:
  longer terms and disjunctions.
* `Condition.parse`: reading.
* `Condition.parse_of_spells`: what the grammar spells is read as it says, so
  that a text is spelled in one way only.
-/

namespace Decompiler

/-- A piece of a text, with the condition that a test or constant stands for. -/
inductive Lexeme
  | leaf (c : Condition)
  | and
  | or
  | opening
  | closing

/-- What a token stands for, if one knows what to read a test or constant as. -/
def Token.lexeme (read : String → Condition) : Token → Lexeme
  | atom t => .leaf (read t)
  | and => .and
  | or => .or
  | opening => .opening
  | closing => .closing

namespace Condition

/-! ### Grammar -/

/-- The layers of a written condition. -/
inductive Layer
  | factor
  | term
  | disjunction

/-- The pieces of a factor, of the factors of a term, and of the terms of a
disjunction, with the conditions that they are read as. -/
inductive Spells : Layer → List Lexeme → List Condition → Prop
  | leaf (c : Condition) : Spells .factor [.leaf c] [c]
  | enclosed {ts : List Lexeme} {cs : List Condition}
      (inside : Spells .disjunction ts cs) :
      Spells .factor (.opening :: (ts ++ [.closing])) [Junction.any.of cs]
  | one {ts : List Lexeme} {cs : List Condition}
      (first : Spells .factor ts cs) :
      Spells .term ts cs
  | and {ts us : List Lexeme} {cs ds : List Condition}
      (first : Spells .factor ts cs)
      (rest : Spells .term us ds) : Spells .term (ts ++ .and :: us) (cs ++ ds)
  | alone {ts : List Lexeme} {cs : List Condition}
      (first : Spells .term ts cs) :
      Spells .disjunction ts [Junction.all.of cs]
  | or {ts us : List Lexeme} {cs ds : List Condition}
      (first : Spells .term ts cs) (rest : Spells .disjunction us ds) :
      Spells .disjunction (ts ++ .or :: us) (Junction.all.of cs :: ds)

variable {ts us : List Lexeme} {cs ds : List Condition}

/-- The factors of two terms make up a longer one. -/
theorem Spells.and_append (h : Spells .term ts cs) (h' : Spells .term us ds) :
    Spells .term (ts ++ .and :: us) (cs ++ ds) := by
  generalize hlayer : Layer.term = layer at h
  induction h with
  | one first => exact .and first h'
  | and first _ _ ih =>
    rw [List.append_assoc, List.cons_append, List.append_assoc]
    exact .and first (ih hlayer)
  | leaf | enclosed | alone | or => cases hlayer

/-- The terms of two disjunctions make up a longer one. -/
theorem Spells.or_append (h : Spells .disjunction ts cs)
    (h' : Spells .disjunction us ds) :
    Spells .disjunction (ts ++ .or :: us) (cs ++ ds) := by
  generalize hlayer : Layer.disjunction = layer at h
  induction h with
  | alone first => exact .or first h'
  | or first _ _ ih =>
    rw [List.append_assoc, List.cons_append, List.cons_append]
    exact .or first (ih hlayer)
  | leaf | enclosed | one | and => cases hlayer

/-! ### Reading -/

/-- What has been read of a disjunction: the terms that have come to an end, and
the factors of the one that has not, both from the last to the first. -/
structure Partial where
  terms : List Condition
  factors : List Condition

namespace Partial

def start : Partial := ⟨[], []⟩

/-- Takes up a factor. -/
def factor (p : Partial) (c : Condition) : Partial :=
  { p with factors := c :: p.factors }

/-- All terms, the one that has been read last among them. -/
def allTerms (p : Partial) : List Condition :=
  Junction.all.of p.factors.reverse :: p.terms

/-- Goes on to the next term. -/
def nextTerm (p : Partial) : Partial := ⟨p.allTerms, []⟩

/-- The disjunction, if it ends here. -/
def whole (p : Partial) : Condition := Junction.any.of p.allTerms.reverse

end Partial

/-- What has been read of a text: the disjunction that is being read, and those
around it, from the inside out. -/
inductive Progress
  /-- A factor has to come next. -/
  | due (outer : List Partial) (here : Partial)
  /-- A factor has come to an end. -/
  | done (outer : List Partial) (here : Partial)

/-- Reads one more piece. -/
def Progress.step : Progress → Lexeme → Option Progress
  | due outer p, .leaf c => some (done outer (p.factor c))
  | due outer p, .opening => some (due (p :: outer) .start)
  | done outer p, .and => some (due outer p)
  | done outer p, .or => some (due outer p.nextTerm)
  | done (q :: outer) p, .closing => some (done outer (q.factor p.whole))
  | _, _ => none

/-- Reads a condition. -/
def parse (ts : List Lexeme) : Option Condition :=
  match ts.foldlM Progress.step (.due [] .start) with
  | some (.done [] p) => some p.whole
  | _ => none

/-- How reading goes on through the pieces of a layer.  Of a disjunction only
the terms are known, since the last of them may go on. -/
def Layer.Reads (ts : List Lexeme) (cs : List Condition) : Layer → Prop
  | factor | term => ∀ (outer : List Partial) (p : Partial),
      ts.foldlM Progress.step (.due outer p) =
        some (.done outer { p with factors := cs.reverse ++ p.factors })
  | disjunction => ∀ (outer : List Partial) (terms : List Condition),
      ∃ q, ts.foldlM Progress.step (.due outer ⟨terms, []⟩) =
        some (.done outer q) ∧ q.allTerms = cs.reverse ++ terms

/-- **Each layer is read as the grammar says.** -/
theorem Spells.reads {layer : Layer} (h : Spells layer ts cs) :
    layer.Reads ts cs := by
  induction h with
  | leaf c =>
    intro outer p
    rfl
  | @enclosed ts cs _ ih =>
    intro outer p
    obtain ⟨q, hrun, hterms⟩ := ih (p :: outer) []
    have hwhole : q.whole = Junction.any.of cs := by
      rw [Partial.whole, hterms, List.append_nil, List.reverse_reverse]
    rw [List.foldlM_cons]
    change List.foldlM Progress.step (.due (p :: outer) .start)
      (ts ++ [.closing]) = _
    rw [List.foldlM_append, Partial.start, hrun, ← hwhole]
    rfl
  | one _ ih => exact ih
  | and _ _ ih ih' =>
    intro outer p
    rw [List.foldlM_append, ih outer p, List.reverse_append, List.append_assoc]
    exact ih' outer _
  | alone _ ih =>
    intro outer terms
    refine ⟨_, ih outer ⟨terms, []⟩, ?_⟩
    simp [Partial.allTerms]
  | @or ts us cs ds _ _ ih ih' =>
    intro outer terms
    obtain ⟨q, hrun, hterms⟩ := ih' outer (Junction.all.of cs :: terms)
    refine ⟨q, ?_, ?_⟩
    · rw [List.foldlM_append, ih outer ⟨terms, []⟩, ← hrun]
      simp [Progress.step, Partial.nextTerm, Partial.allTerms]
    · rw [hterms, List.reverse_cons, List.append_assoc, List.singleton_append]

/-- **Reading.**  A text that the grammar spells is read as the grammar says. -/
theorem parse_of_spells (h : Spells .disjunction ts cs) :
    parse ts = some (Junction.any.of cs) := by
  obtain ⟨q, hrun, hterms⟩ := h.reads [] []
  rw [parse, Partial.start, hrun]
  simp [Partial.whole, hterms]

/-- Conjunction binds tighter than disjunction. -/
example (a b c : Condition) :
    parse [.leaf a, .or, .leaf b, .and, .leaf c] =
      some (.any [a, .all [b, c]]) := rfl

end Condition

end Decompiler
