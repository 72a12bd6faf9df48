import Decompiler.Bytecode.Instr
import Decompiler.Fault

/-!
# Methods

A method is its instruction stream with the exception ranges over it.  No
label is placed twice, so a label names at most one point of the stream.
-/

namespace Decompiler

/-- A range of instructions, up to and without `stop`, whose exceptions of the
given type go to a handler.  No type means every exception. -/
structure ExceptionRange where
  start : Label
  stop : Label
  handler : Label
  type : Option String
deriving Repr, DecidableEq

/-- A method body. -/
structure Method where
  instrs : List Instr
  ranges : List ExceptionRange
  /-- No label is placed twice. -/
  labels_nodup : (instrs.filterMap Instr.label?).Nodup := by decide
deriving DecidableEq

/-- The first element that occurs earlier in the list or in `seen`. -/
def firstRepeat? (seen : List Label) : List Label → Option Label
  | [] => none
  | l :: ls => if l ∈ seen then some l else firstRepeat? (l :: seen) ls

/-- Labels among which no repetition is found are distinct, and none of them has
been seen. -/
theorem firstRepeat?_eq_none {seen ls : List Label}
    (h : firstRepeat? seen ls = none) : ls.Nodup ∧ ∀ l ∈ ls, l ∉ seen := by
  induction ls generalizing seen with
  | nil => simp
  | cons l ls ih =>
    unfold firstRepeat? at h
    split at h
    · cases h
    · rename_i hl
      obtain ⟨nodup, fresh⟩ := ih h
      refine ⟨List.nodup_cons.2 ⟨fun hmem => fresh l hmem (by simp), nodup⟩, ?_⟩
      intro x hx
      rcases List.mem_cons.1 hx with rfl | hx
      · exact hl
      · exact fun hs => fresh x hx (List.mem_cons_of_mem _ hs)

namespace Method

/-- Builds a method, or reports the first label that is placed again. -/
def ofInstrs (instrs : List Instr) (ranges : List ExceptionRange) :
    Except Fault Method :=
  match h : firstRepeat? [] (instrs.filterMap Instr.label?) with
  | some l => .error (.duplicateLabel l.number)
  | none => .ok ⟨instrs, ranges, (firstRepeat?_eq_none h).1⟩

/-- The number of instructions. -/
def length (m : Method) : Nat := m.instrs.length

/-- The instruction at an index; nothing happens outside the stream. -/
def instr (m : Method) (i : Nat) : Instr := m.instrs.getD i .nop

/-- Where a label is placed. -/
def labelIndex? (m : Method) (l : Label) : Option Nat :=
  m.instrs.findIdx? fun i => i.label? == some l

/-- A label stands where it is found. -/
theorem label?_instr_of_labelIndex? {m : Method} {l : Label} {i : Nat}
    (h : m.labelIndex? l = some i) : (m.instr i).label? = some l := by
  obtain ⟨hi, hl, _⟩ := List.findIdx?_eq_some_iff_getElem.1 h
  simpa [instr, List.getD_eq_getElem?_getD, hi] using hl

/-- The instructions of the range `[start, stop)` with their indices. -/
def slice (m : Method) (start stop : Nat) : List (Nat × Instr) :=
  ((m.instrs.take stop).drop start).zipIdx start |>.map fun (i, n) => (n, i)

/-- Whether some instruction of the range `[start, stop)` does something. -/
def acts (m : Method) (start stop : Nat) : Bool :=
  ((m.instrs.take stop).drop start).any fun i => !i.isMarker

end Method

end Decompiler
