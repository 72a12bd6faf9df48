/-!
# Recoveries

Source constructs that are recovered on top of plain structure.  Each of them
can be left out, and then the code is shown the way it was compiled.
-/

namespace Decompiler

/-- Which source constructs to recover. -/
structure Recoveries where
  /-- String concatenations, from chains of appends. -/
  concatenations : Bool := true
  /-- Switches on enum values, from switches on their ordinals. -/
  enumSwitches : Bool := true
  /-- `for` loops, from loops that test a variable set right before. -/
  forLoops : Bool := true
  /-- `try` statements, from exception ranges.  Without them handlers are
  plain code. -/
  tryStatements : Bool := true
  /-- Array initializers, from stores into a fresh array. -/
  arrayLiterals : Bool := true
deriving Repr, DecidableEq

end Decompiler
