import Decompiler.Graph.Build
import Decompiler.Proofs.Calls.Stretch

/-!
# Executing switches

The calls of a method whose only tests are switches on its local variables.
Nothing is stored, so the values of the variables stay as they are given, and
they alone decide which calls are made.

* `Method.select` is one step of the execution, `Method.selecting` the
  behavior from an instruction on.
* `Method.isSwitchCode` says which methods these are: every instruction is a
  label, a call, a forward jump, a return, or one half of a switch on a local;
  `SelectInstr` lists what an instruction of one of them can be.
* `selecting_of_label` and its siblings say what the execution from an
  instruction on is, for each kind of instruction.
-/

namespace Decompiler

/-- The ints that the slots of a frame hold. -/
abbrev Values := Nat → Int32

/-- Where a switch goes for a value. -/
def Instr.selected? (i : Instr) (value : Int32) : Option Label :=
  i.switchTable?.map fun (pairs, default) => (pairs.lookup value).getD default

namespace Method

/-- One step of the execution of a method, at an instruction and with a stack
of ints.  It halts where the code ends. -/
def select (m : Method) (values : Values) : Nat × List Int32 →
      Act (Nat × List Int32)
  | (i, stack) =>
    match m.instr i, stack with
    | .label _, _ => .moves (i + 1, stack)
    | .call .static f, _ =>
      if f.descriptor = "()V" then .calls f (i + 1, stack) else .halts
    | .load .int slot, _ => .moves (i + 1, values slot :: stack)
    | .goto l, _ =>
      match m.labelIndex? l with
      | some target => .moves (target, stack)
      | none => .halts
    | instr, value :: below =>
      match (instr.selected? value).bind m.labelIndex? with
      | some target => .moves (target, below)
      | none => .halts
    | _, [] => .halts

/-- The calls that a method makes from an instruction on. -/
def selecting (m : Method) (values : Values) (i : Nat) : Behavior :=
  Makes (m.select values) (i, [])

/-- The instructions that an execution comes to within a number of steps. -/
def visits (m : Method) (values : Values) : (steps : Nat) → Nat × List Int32 →
      List Nat
  | 0, _ => []
  | n + 1, s =>
    s.1 :: match m.select values s with
      | .moves t | .calls _ t => m.visits values n t
      | .halts | .asks .. => []

/-- Whether the instruction at an index is a label, a jump, a return, a call
that returns nothing, or belongs to a switch on a local variable.  The keys of
the switch are different. -/
def selectsAt (m : Method) (i : Nat) : Bool :=
  match m.instr i with
  | .label _ | .goto _ | .ret none => true
  | .call .static f => f.descriptor == "()V"
  | .load .int _ => (m.instr (i + 1)).switchTable?.isSome
  | instr =>
    match i, instr.switchTable? with
    | k + 1, some (pairs, _) =>
      (m.instr k matches .load .int _) && decide (pairs.map (·.1)).Nodup
    | _, _ => false

/-- Whether the instruction at an index goes forward only. -/
def isForwardAt (m : Method) (i : Nat) : Bool :=
  (m.instr i).destinations.all fun l => (m.labelIndex? l).any (i < ·)

/-- Whether a method is made of labels, calls that return nothing, switches on
local variables, jumps and returns, and all its jumps and switches go
forward. -/
def isSwitchCode (m : Method) : Bool :=
  (List.range m.length).all fun i => m.selectsAt i && m.isForwardAt i

end Method

/-- What an instruction at a place of such code can be. -/
inductive SelectInstr (m : Method) : (i : Nat) → Instr → Prop
  | label {i : Nat} (l : Label) : SelectInstr m i (.label l)
  | goto {i : Nat} (l : Label) : SelectInstr m i (.goto l)
  | ret {i : Nat} : SelectInstr m i (.ret none)
  | call {i : Nat} {f : Member} (hf : f.descriptor = "()V") :
      SelectInstr m i (.call .static f)
  | load {i slot : Nat} {table : List (Int32 × Label) × Label}
      (next : (m.instr (i + 1)).switchTable? = some table) :
      SelectInstr m i (.load .int slot)
  | switch {i slot : Nat} {instr : Instr} {pairs : List (Int32 × Label)}
      {default : Label}
      (load : m.instr i = .load .int slot)
      (table : instr.switchTable? = some (pairs, default))
      (nodup : (pairs.map (·.1)).Nodup) : SelectInstr m (i + 1) instr

namespace Method

variable {m : Method} {values : Values} {i j k : Nat}

theorem selectInstr_of_selectsAt (h : m.selectsAt i = true) :
    SelectInstr m i (m.instr i) := by
  unfold selectsAt at h
  split at h
  · rename_i l hi
    exact hi ▸ .label l
  · rename_i l hi
    exact hi ▸ .goto l
  · rename_i hi
    exact hi ▸ .ret
  · rename_i f hi
    exact hi ▸ .call (by simpa using h)
  · rename_i slot hi
    obtain ⟨table, htable⟩ := Option.isSome_iff_exists.1 h
    exact hi ▸ .load htable
  · split at h
    · rename_i k pairs default htable
      rw [Bool.and_eq_true] at h
      obtain ⟨hload, hnodup⟩ := h
      split at hload
      · rename_i slot hslot
        exact .switch hslot htable (by simpa using hnodup)
      · cases hload
    · cases h

/-- Each instruction is of one of the listed kinds. -/
theorem selectInstr (h : m.isSwitchCode = true) (hi : i < m.length) :
    SelectInstr m i (m.instr i) := by
  have hat := List.all_eq_true.1 h i (List.mem_range.2 hi)
  rw [Bool.and_eq_true] at hat
  exact selectInstr_of_selectsAt hat.1

/-- Jumps and switches go forward. -/
theorem exists_lt_of_mem_destinations (h : m.isSwitchCode = true)
    (hi : i < m.length) {l : Label} (hl : l ∈ (m.instr i).destinations) :
    ∃ target, m.labelIndex? l = some target ∧ i < target := by
  have hat := List.all_eq_true.1 h i (List.mem_range.2 hi)
  rw [Bool.and_eq_true] at hat
  have hforward := List.all_eq_true.1 hat.2 l hl
  rw [Option.any_eq_true] at hforward
  obtain ⟨target, htarget, hlt⟩ := hforward
  exact ⟨target, htarget, by simpa using hlt⟩

theorem selecting_of_label {l : Label} (h : m.instr i = .label l) :
    m.selecting values i = m.selecting values (i + 1) :=
  makes_of_moves (by simp [select, h])

theorem selecting_of_call {f : Member} (h : m.instr i = .call .static f)
    (hf : f.descriptor = "()V") :
    m.selecting values i = .call f (m.selecting values (i + 1)) :=
  makes_of_calls (by simp [select, h, hf])

theorem selecting_of_goto {l : Label} {target : Nat} (h : m.instr i = .goto l)
    (hl : m.labelIndex? l = some target) :
    m.selecting values i = m.selecting values target :=
  makes_of_moves (by simp [select, h, hl])

theorem selecting_of_ret (h : m.instr i = .ret none) :
    m.selecting values i = .halt :=
  makes_of_halts (by simp [select, h])

/-- Nothing runs after the end of the code. -/
theorem selecting_of_length_le (h : m.length ≤ i) :
    m.selecting values i = .halt :=
  makes_of_halts (by simp [select, instr_of_length_le h])

/-- A local is loaded, and the switch goes where its value tells. -/
theorem selecting_of_switch {slot target : Nat} {pairs : List (Int32 × Label)}
    {default : Label} (hload : m.instr i = .load .int slot)
    (htable : (m.instr (i + 1)).switchTable? = some (pairs, default))
    (hl : m.labelIndex? ((pairs.lookup (values slot)).getD default) =
      some target) :
    m.selecting values i = m.selecting values target := by
  have hmoves : m.select values (i, []) = .moves (i + 1, [values slot]) := by
    simp [select, hload]
  rw [selecting, makes_of_moves hmoves]
  refine makes_of_moves ?_
  have hselected :
      ((m.instr (i + 1)).selected? (values slot)).bind m.labelIndex? =
      some target := by
    rw [Instr.selected?, htable]
    exact hl
  generalize hx : m.instr (i + 1) = x at htable hselected
  cases x with
  | tableSwitch | lookupSwitch => simp only [select, hx, hselected]
  | _ => cases htable

/-- Execution makes the calls of a stretch first. -/
theorem Stretch.selecting {fs : List Member} (h : m.Stretch i j fs) :
    m.selecting values i = .callAll fs (m.selecting values j) := by
  induction h with
  | nil => rfl
  | label hl _ ih => rw [selecting_of_label hl, ih]
  | call hcall hf _ ih =>
    rw [selecting_of_call hcall hf, ih]
    rfl

/-- The only markers in switch code are labels. -/
theorem exists_label_of_isSwitchCode (hcode : m.isSwitchCode = true)
    (hi : i < m.length) (h : (m.instr i).isMarker = true) :
    ∃ l, m.instr i = .label l := by
  have hkind := selectInstr hcode hi
  generalize m.instr i = x at h hkind
  cases hkind with
  | label l => exact ⟨l, rfl⟩
  | goto | ret | call | load => cases h
  | switch _ table =>
    cases x with
    | label | line | frame => cases table
    | _ => cases h

/-- Labels do nothing in execution. -/
theorem selecting_of_acts_eq_false (hcode : m.isSwitchCode = true) (hij : i ≤ j)
    (h : m.acts i j = false) : m.selecting values i = m.selecting values j := by
  refine eq_of_acts_eq_false (fun i hi hmarker => ?_) (fun i hi => ?_) hij h
  · obtain ⟨l, hl⟩ := exists_label_of_isSwitchCode hcode hi hmarker
    rw [selecting_of_label hl]
  · rw [selecting_of_length_le hi, selecting_of_length_le (Nat.le_refl _)]

end Method

end Decompiler
