import Decompiler.Source.Statement

/-!
# Sections

The structure of a method while its straight-line parts are still basic
blocks.  A section is a statement whose leaves, switch selectors and handler
entries are block numbers.
-/

namespace Decompiler

/-- Code that handles the exceptions of one range, entered at `block`. -/
structure Handler (α : Type) where
  type : Option String
  block : Nat
  body : List α
deriving Repr

/-- A structured piece of a method. -/
inductive Section
  /-- The straight-line code of one block. -/
  | inline (block : Nat)
  | ifElse (cond : Condition) (body : List Section) (rest : Alternative Section)
  | whileLoop (cond : Condition) (body : List Section)
  | doLoop (body : List Section) (cond : Condition)
  /-- The selector is computed by a block that ends in a switch. -/
  | switch (selector : Nat) (cases : List (Case Section))
  | tryCatch (body : List Section) (handlers : List (Handler Section))
deriving Repr

end Decompiler
