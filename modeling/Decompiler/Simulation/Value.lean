import Decompiler.Fault
import Decompiler.Source.Expr.Basic

/-!
# The stack of a simulation

Simulating an instruction leaves expressions where running it would leave
values.  Copies of a value share its identity: a later instruction that
completes an object or an array changes every copy at once.  The identity is
the place where the value was made.
-/

namespace Decompiler

/-- Where a value on the stack was made. -/
inductive Origin
  /-- It was there at the start, at this position from the bottom. -/
  | entry (position : Nat)
  /-- The instruction at this index made it. -/
  | made (index : Nat)
deriving Repr, DecidableEq

/-- An expression on the stack with its identity. -/
structure Value where
  origin : Origin
  expr : Expr
deriving Repr

/-- The operand stack, top first. -/
abbrev Stack := List Value

namespace Stack

variable {α : Type}

/-- Takes the top of the stack for the instruction at `index`. -/
def pop (index : Nat) (s : Stack) (k : Value → Stack → Except Fault α) :
    Except Fault α :=
  match s with
  | v :: rest => k v rest
  | [] => .error (.stackUnderflow index)

/-- Takes `n` values, which come in the order they were pushed in. -/
def popMany (index n : Nat) (s : Stack)
    (k : List Expr → Stack → Except Fault α) : Except Fault α :=
  if s.length < n then .error (.stackUnderflow index)
  else k ((s.take n).reverse.map (·.expr)) (s.drop n)

/-- Whether some value on the stack has the given identity. -/
def holds (s : Stack) (o : Origin) : Bool := s.any (·.origin == o)

/-- Puts a value in the place of all copies of another. -/
def replace (s : Stack) (o : Origin) (new : Value) : Stack :=
  s.map fun v => if v.origin = o then new else v

theorem replace_of_not_holds {s : Stack} {o : Origin} (h : s.holds o = false)
    (new : Value) : s.replace o new = s := by
  induction s with
  | nil => rfl
  | cons v s ih =>
    simp only [holds, List.any_cons, Bool.or_eq_false_iff,
      beq_eq_false_iff_ne] at h
    simp [replace, h.1]
    exact ih h.2

@[simp] theorem length_replace (s : Stack) (o : Origin) (new : Value) :
    (s.replace o new).length = s.length := by
  simp [replace]

theorem replace_append (s t : Stack) (o : Origin) (new : Value) :
    replace (s ++ t) o new = s.replace o new ++ t.replace o new := by
  simp [replace]

/-- The stack at the start, from its expressions bottom first, each with the
position of the value it is a copy of. -/
def ofEntries (entries : List (Nat × Expr)) : Stack :=
  (entries.map fun (position, e) => ⟨.entry position, e⟩).reverse

/-- The expressions on the stack, bottom first. -/
def exprs (s : Stack) : List Expr := s.reverse.map (·.expr)

end Stack

end Decompiler
