import Decompiler.Bytecode.Local
import Decompiler.Recoveries

/-!
# What stays fixed while a method is decompiled
-/

namespace Decompiler

/-- A method with the variables of its slots and the recoveries asked for. -/
structure Context where
  method : Method
  locals : LocalLookup
  recover : Recoveries

/-- The variable that an instruction uses.  Without a table entry the kind of
the access still tells a primitive type. -/
def Context.localAt (ctx : Context) (kind : Kind) (slot index : Nat) : Local :=
  let v := ctx.locals slot index
  if v.descriptor.isNone && kind != .reference then
    { v with descriptor := some kind.descriptor }
  else v

end Decompiler
