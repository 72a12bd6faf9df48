import Decompiler.Graph.Block

/-!
# Listings of block graphs

One line for each block, for a reader.
-/

namespace Decompiler

namespace Exit

/-- The word for a way to leave a block. -/
def word : Exit → String
  | falls _ => "Fallthrough"
  | jumps _ => "Goto"
  | branches .. => "Branch"
  | selects .. => "Switch"
  | returns => "Return"
  | throws => "Throw"

/-- An edge that may be missing. -/
def edgeText : Option Nat → String
  | none => "-"
  | some id => toString id

/-- The keys of an arm. -/
def keysText (keys : List Int32) : String :=
  "[" ++ ", ".intercalate (keys.map fun k => toString k.toInt) ++ "]"

/-- The arms of a switch; empty for every other exit. -/
def armsText : Exit → String
  | selects arms default =>
    String.join (arms.map fun a => " case " ++ keysText a.keys ++ "->" ++
      toString a.target) ++ " default->" ++ toString default
  | _ => ""

end Exit

/-- The line of a block. -/
def Block.listing (b : Block) : String :=
  s!"block {b.id} @{b.breakPoint} body {b.start}..{b.stop} {b.exit.word}"
    ++ " target " ++ Exit.edgeText b.exit.target? ++ " else " ++
    Exit.edgeText b.exit.otherwise? ++ b.exit.armsText ++ "\n"

/-- The lines of all blocks. -/
def Graph.listing (g : Graph) : String :=
  String.join (g.blocks.map Block.listing)

end Decompiler
