import Decompiler.Source.Condition.Basic
import Decompiler.Source.Expr.Text

/-!
# The written form of conditions

A condition is written as a sequence of tokens: tests, the two connectives,
and parentheses.  Conjunction binds tighter than disjunction, so only a
disjunction among the members of a conjunction is put in parentheses.
-/

namespace Decompiler

/-- A piece of a written condition. -/
inductive Token
  /-- A test or a constant. -/
  | atom (text : String)
  | and
  | or
  | opening
  | closing
deriving Repr, DecidableEq

/-- The spelling of a token. -/
def Token.text : Token → String
  | atom t => t
  | and => " && "
  | or => " || "
  | opening => "("
  | closing => ")"

namespace Condition

/-- Puts the tokens of a disjunction in parentheses. -/
def parenthesized (c : Condition) (tokens : List Token) : List Token :=
  match c with
  | any _ => .opening :: tokens ++ [.closing]
  | _ => tokens

mutual

/-- The tokens of a condition. -/
def tokens : Condition → List Token
  | test e negated => [.atom ((if negated then "!" else "") ++ e.text)]
  | compare lhs op rhs =>
    [.atom (lhs.text ++ " " ++ op.symbol ++ " " ++ rhs.text)]
  | all cs => [Token.and].intercalate (factors cs)
  | any cs => [Token.or].intercalate (terms cs)
  | const b => [.atom (if b then "true" else "false")]

/-- The tokens of each member of a conjunction. -/
def factors : List Condition → List (List Token)
  | [] => []
  | c :: cs => parenthesized c c.tokens :: factors cs

/-- The tokens of each member of a disjunction. -/
def terms : List Condition → List (List Token)
  | [] => []
  | c :: cs => c.tokens :: terms cs

end

/-- The written form of a condition. -/
def text (c : Condition) : String := String.join (c.tokens.map Token.text)

end Condition

end Decompiler
