import Decompiler.Bytecode.Method

/-!
# Local variables

A slot of the frame may hold different variables at different points of a
method.  A debug table lists variables with the ranges of instructions where
they live; this file turns such a table into an answer to the question which
variable a slot holds at an instruction.
-/

namespace Decompiler

/-- A local variable as it appears in source code. -/
structure Local where
  slot : Nat
  name : String
  /-- The field descriptor of its type, if known. -/
  descriptor : Option String
deriving Repr, DecidableEq

/-- The variable that stands for a slot without a name. -/
def Local.ofSlot (slot : Nat) : Local := ⟨slot, s!"local{slot}", none⟩

/-- Which variable a slot holds at an instruction. -/
abbrev LocalLookup := (slot index : Nat) → Local

/-- A line of a debug table: a variable that lives between two labels. -/
structure LocalEntry where
  slot : Nat
  name : String
  descriptor : String
  start : Label
  stop : Label
deriving Repr, DecidableEq

/-- A variable that lives in the range `[start, stop)` of instructions. -/
structure LocalRange where
  var : Local
  start : Nat
  stop : Nat
deriving Repr, DecidableEq

/-- Whether the range covers an instruction that uses the slot.  The store
that gives a variable its first value comes just before the range. -/
def LocalRange.covers (r : LocalRange) (slot index : Nat) : Bool :=
  r.var.slot == slot && r.start ≤ index + 1 && index < r.stop

/-- Variables with their ranges, in table order. -/
structure LocalTable where
  ranges : List LocalRange
deriving Repr, DecidableEq

namespace LocalTable

/-- The table without entries. -/
def empty : LocalTable := ⟨[]⟩

/-- The index of a label that bounds the range of a variable. -/
def boundary (m : Method) (name : String) (l : Label) : Except Fault Nat :=
  match m.labelIndex? l with
  | some i => .ok i
  | none => .error (.unknownLocalLabel name l.number)

/-- Places the ranges of a debug table in a method. -/
def ofEntries (m : Method) : List LocalEntry → Except Fault LocalTable
  | [] => .ok empty
  | e :: es => do
    let start ← boundary m e.name e.start
    let stop ← boundary m e.name e.stop
    let rest ← ofEntries m es
    return ⟨⟨⟨e.slot, e.name, some e.descriptor⟩, start, stop⟩ :: rest.ranges⟩

/-- The range that starts last, and of several such the last in the list. -/
def latest? : List LocalRange → Option LocalRange
  | [] => none
  | r :: rs =>
    match latest? rs with
    | none => some r
    | some other => if r.start ≤ other.start then some other else some r

/-- The latest of some ranges is one of them. -/
theorem mem_of_latest? {rs : List LocalRange} {r : LocalRange}
    (h : latest? rs = some r) : r ∈ rs := by
  induction rs generalizing r with
  | nil => simp [latest?] at h
  | cons q rs ih =>
    unfold latest? at h
    split at h
    · exact List.mem_cons.2 (.inl (Option.some.inj h).symm)
    · rename_i other ho
      split at h <;> cases h
      · exact List.mem_cons_of_mem _ (ih ho)
      · exact List.mem_cons_self

/-- The range chosen starts no earlier than any other. -/
theorem start_le_of_latest? {rs : List LocalRange} {r q : LocalRange}
    (h : latest? rs = some r) (hq : q ∈ rs) : q.start ≤ r.start := by
  induction rs generalizing r with
  | nil => simp at hq
  | cons p rs ih =>
    unfold latest? at h
    split at h
    · rename_i hn
      cases h
      rcases List.mem_cons.1 hq with rfl | hq
      · exact Nat.le_refl _
      · cases rs with
        | nil => simp at hq
        | cons x xs =>
          unfold latest? at hn
          split at hn
          · cases hn
          · split at hn <;> cases hn
    · rename_i other ho
      split at h <;> cases h
      · rename_i hle
        rcases List.mem_cons.1 hq with rfl | hq
        · exact hle
        · exact ih ho hq
      · rename_i hle
        rcases List.mem_cons.1 hq with rfl | hq
        · exact Nat.le_refl _
        · exact Nat.le_trans (ih ho hq) (Nat.le_of_not_le hle)

/-- The variable that a slot holds at an instruction: the one whose range
started last among those that cover it, and an ofSlot one if none does. -/
def lookup (t : LocalTable) : LocalLookup := fun slot index =>
  match latest? (t.ranges.filter (·.covers slot index)) with
  | some r => r.var
  | none => .ofSlot slot

end LocalTable

end Decompiler
