import Decompiler.Assembly
import Decompiler.Graph.Build
import Decompiler.Graph.Tidy
import Decompiler.Region.Partition

/-!
# Decompiling a method

Instructions are cut into blocks, the block graph is tidied, the graph is
partitioned into sections, and the sections become statements.
-/

namespace Decompiler

/-- The statements of a method. -/
def Context.decompile (ctx : Context) : Except Fault (List Statement) := do
  let built ← ctx.method.graph
  let tidied ← built.tidy ctx.method
  let (sections, g) ← tidied.partition ctx
  g.statements ctx [] sections

/-- The statements of a method with the variables of a debug table. -/
def Method.decompile (m : Method) (table : LocalTable := .empty)
    (recover : Recoveries := {}) : Except Fault (List Statement) :=
  Context.decompile ⟨m, table.lookup, recover⟩

end Decompiler
