import Decompiler.Bytecode.Signature
import Decompiler.Bytecode.Instr

/-!
# Stack effects

How many values an instruction takes from the operand stack and how many it
leaves there.  Values are counted, not slots, so a `long` counts once.
-/

namespace Decompiler

/-- The number of values taken and left. -/
structure Effect where
  pops : Nat
  pushes : Nat
deriving Repr, DecidableEq

/-- The effect of calling a method with `receivers` values below the
arguments. -/
def Signature.effect (s : Signature) (receivers : Nat) : Effect :=
  ⟨s.parameters.length + receivers, if s.isVoid then 0 else 1⟩

/-- The effect of an instruction.  The instructions that copy two slots are
counted as if both held narrow values.  Only a call can fail, for want of a
descriptor. -/
def Instr.effect : Instr → Except Fault Effect
  | label _ | line _ | frame | nop => .ok ⟨0, 0⟩
  | null | constant _ | load .. => .ok ⟨0, 1⟩
  | store .. => .ok ⟨1, 0⟩
  | arrayLoad _ => .ok ⟨2, 1⟩
  | arrayStore _ => .ok ⟨3, 0⟩
  | pop => .ok ⟨1, 0⟩
  | pop2 => .ok ⟨2, 0⟩
  | dup => .ok ⟨1, 2⟩
  | dupX1 => .ok ⟨2, 3⟩
  | dupX2 => .ok ⟨3, 4⟩
  | dup2 => .ok ⟨2, 4⟩
  | dup2X1 => .ok ⟨3, 5⟩
  | dup2X2 => .ok ⟨4, 6⟩
  | swap => .ok ⟨2, 2⟩
  | arith .. => .ok ⟨2, 1⟩
  | neg _ => .ok ⟨1, 1⟩
  | increment .. => .ok ⟨0, 0⟩
  | convert .. => .ok ⟨1, 1⟩
  | compare _ => .ok ⟨2, 1⟩
  | ifZero .. | ifNull _ | ifNonNull _ => .ok ⟨1, 0⟩
  | ifInts .. | ifReferences .. => .ok ⟨2, 0⟩
  | goto _ => .ok ⟨0, 0⟩
  | tableSwitch .. | lookupSwitch .. => .ok ⟨1, 0⟩
  | ret kind => .ok ⟨if kind.isSome then 1 else 0, 0⟩
  | throw => .ok ⟨1, 0⟩
  | getStatic _ => .ok ⟨0, 1⟩
  | putStatic _ => .ok ⟨1, 0⟩
  | getField _ => .ok ⟨1, 1⟩
  | putField _ => .ok ⟨2, 0⟩
  | call .static method =>
    (·.effect 0) <$> Signature.ofDescriptor method.descriptor
  | call _ method => (·.effect 1) <$> Signature.ofDescriptor method.descriptor
  | callDynamic _ descriptor =>
    (·.effect 0) <$> Signature.ofDescriptor descriptor
  | new _ => .ok ⟨0, 1⟩
  | newArray _ | arrayLength | checkCast _ | instanceOf _ => .ok ⟨1, 1⟩
  | monitorEnter | monitorExit => .ok ⟨1, 0⟩
  | newMultiArray _ dimensions => .ok ⟨dimensions, 1⟩

end Decompiler
