import Decompiler.Bytecode.Method
import Decompiler.Proofs.Calls.Behavior

/-!
# Executing bytecode

The calls that a method makes which consists of labels, static calls without
arguments, jumps and returns.  A call either returns nothing or answers a test
for the conditional jump right after it.

* `Method.act` is one step of the execution, at an instruction and with the
  answers that wait on the stack.
* `IsCallCode` says which instructions there are; `CallInstr` lists what one
  of them can be.
* `running_of_label` and its siblings say what the execution of a method from
  an instruction on is, for each kind of instruction.
-/

namespace Decompiler

/-- How an answer compares with zero.  Yes stands for one and no for zero. -/
def Comparison.ofAnswer : Comparison → Bool → Bool
  | .eq, answer | .le, answer => !answer
  | .ne, answer | .gt, answer => answer
  | .lt, _ => false
  | .ge, _ => true

/-- One step of the execution of a method, at an instruction and with a stack
of answers.  It halts where the code ends. -/
def Method.act (m : Method) : Nat × List Bool → Act (Nat × List Bool)
  | (i, stack) =>
    match m.instr i, stack with
    | .label _, _ => .moves (i + 1, stack)
    | .call .static f, _ =>
      if f.descriptor = "()V" then .calls f (i + 1, stack)
      else if f.descriptor = "()Z" then
        .asks f fun answer => (i + 1, answer :: stack)
      else .halts
    | .ifZero op l, answer :: below =>
      if op.ofAnswer answer then
        match m.labelIndex? l with
        | some target => .moves (target, below)
        | none => .halts
      else .moves (i + 1, below)
    | .goto l, _ =>
      match m.labelIndex? l with
      | some target => .moves (target, stack)
      | none => .halts
    | _, _ => .halts

/-- The calls that a method makes from an instruction on. -/
def Method.running (m : Method) (i : Nat) : Behavior := Makes m.act (i, [])

/-- Whether code consists of labels, jumps, returns, calls that return
nothing, and calls that answer a test of the next instruction. -/
def isCallCode : List Instr → Bool
  | [] => true
  | .label _ :: is | .goto _ :: is | .ret none :: is => isCallCode is
  | .call .static f :: .ifZero op _ :: is =>
    f.descriptor == "()Z" && (op == .eq || op == .ne) && isCallCode is
  | .call .static f :: is => f.descriptor == "()V" && isCallCode is
  | _ => false

/-- What an instruction at a place of such code can be. -/
inductive CallInstr (m : Method) : (i : Nat) → Instr → Prop
  | label {i : Nat} (l : Label) : CallInstr m i (.label l)
  | goto {i : Nat} (l : Label) : CallInstr m i (.goto l)
  | ret {i : Nat} : CallInstr m i (.ret none)
  | call {i : Nat} {f : Member} (hf : f.descriptor = "()V") :
      CallInstr m i (.call .static f)
  | test {i : Nat} {f : Member} {op : Comparison} {l : Label}
      (hf : f.descriptor = "()Z")
      (hnext : m.instr (i + 1) = .ifZero op l) : CallInstr m i (.call .static f)
  | branch {i : Nat} {f : Member} {op : Comparison} {l : Label}
      (hf : f.descriptor = "()Z")
      (hop : op = .eq ∨ op = .ne) (hprev : m.instr i = .call .static f) :
      CallInstr m (i + 1) (.ifZero op l)

namespace Method

variable {m : Method} {i : Nat}

/-- Past the end of a method there is nothing to do. -/
theorem instr_of_length_le (h : m.length ≤ i) : m.instr i = .nop := by
  have hlen : m.instrs.length ≤ i := h
  rw [instr, List.getD_eq_getElem?_getD, List.getElem?_eq_none hlen]
  rfl

/-- An instruction that does something is inside the method. -/
theorem lt_length_of_instr {x : Instr} (h : m.instr i = x) (hx : x ≠ .nop) :
    i < m.length :=
  Nat.lt_of_not_le fun hi => hx (h.symm.trans (instr_of_length_le hi))

/-- The rest of the code from an instruction on starts with it. -/
theorem instr_of_drop {x : Instr} {rest : List Instr}
    (h : m.instrs.drop i = x :: rest) :
    m.instr i = x ∧ m.instrs.drop (i + 1) = rest := by
  constructor
  · have hget : m.instrs[i]? = some x := by
      rw [← Nat.add_zero i, ← List.getElem?_drop, h]
      rfl
    rw [instr, List.getD_eq_getElem?_getD, hget, Option.getD_some]
  · rw [← List.tail_drop, h, List.tail_cons]

/-- The instructions of call code from `i` on are of the listed kinds. -/
theorem callInstr_of_drop {is : List Instr} (hdrop : m.instrs.drop i = is)
    (h : isCallCode is = true) : ∀ k, i ≤ k → k < m.length →
      CallInstr m k (m.instr k) := by
  induction is using isCallCode.induct generalizing i with
  | case1 =>
    intro k hik hk
    have hlen : m.instrs.length ≤ i := List.drop_eq_nil_iff.1 hdrop
    have hm : m.length = m.instrs.length := rfl
    omega
  | case2 l is ih =>
    obtain ⟨hx, hrest⟩ := instr_of_drop hdrop
    intro k hik hk
    rcases Nat.eq_or_lt_of_le hik with rfl | hlt
    · exact hx ▸ .label l
    · exact ih hrest h k hlt hk
  | case3 l is ih =>
    obtain ⟨hx, hrest⟩ := instr_of_drop hdrop
    intro k hik hk
    rcases Nat.eq_or_lt_of_le hik with rfl | hlt
    · exact hx ▸ .goto l
    · exact ih hrest h k hlt hk
  | case4 is ih =>
    obtain ⟨hx, hrest⟩ := instr_of_drop hdrop
    intro k hik hk
    rcases Nat.eq_or_lt_of_le hik with rfl | hlt
    · exact hx ▸ .ret
    · exact ih hrest h k hlt hk
  | case5 f op l is ih =>
    simp only [isCallCode, Bool.and_eq_true, Bool.or_eq_true, beq_iff_eq] at h
    obtain ⟨⟨hf, hop⟩, h⟩ := h
    obtain ⟨hx, hdrop⟩ := instr_of_drop hdrop
    obtain ⟨hy, hrest⟩ := instr_of_drop hdrop
    intro k hik hk
    -- the call and its jump come together
    rcases Nat.eq_or_lt_of_le hik with rfl | hlt
    · exact hx ▸ .test hf hy
    rcases Nat.eq_or_lt_of_le hlt with rfl | hlt
    · exact hy ▸ .branch hf hop hx
    · exact ih hrest h k hlt hk
  | case6 f is hnext ih =>
    rw [isCallCode, Bool.and_eq_true, beq_iff_eq] at h
    · obtain ⟨hx, hrest⟩ := instr_of_drop hdrop
      intro k hik hk
      rcases Nat.eq_or_lt_of_le hik with rfl | hlt
      · exact hx ▸ .call h.1
      · exact ih hrest h.2 k hlt hk
    · exact hnext
  | case7 is h1 h2 h3 h4 h5 h6 =>
    rw [isCallCode] at h
    · cases h
    all_goals assumption

/-- Each instruction of call code is of one of the listed kinds. -/
theorem callInstr (h : isCallCode m.instrs = true) (hi : i < m.length) :
    CallInstr m i (m.instr i) :=
  callInstr_of_drop (List.drop_zero) h i (Nat.zero_le i) hi

/-- A label is passed without a call. -/
theorem running_of_label {l : Label} (h : m.instr i = .label l) :
    m.running i = m.running (i + 1) :=
  makes_of_moves (by simp [act, h])

/-- A call without a result is made, and control goes on. -/
theorem running_of_call {f : Member} (h : m.instr i = .call .static f)
    (hf : f.descriptor = "()V") : m.running i = .call f (m.running (i + 1)) :=
  makes_of_calls (by simp [act, h, hf])

/-- A jump goes on at its label. -/
theorem running_of_goto {l : Label} {target : Nat} (h : m.instr i = .goto l)
    (hl : m.labelIndex? l = some target) : m.running i = m.running target :=
  makes_of_moves (by simp [act, h, hl])

/-- A return ends the calls. -/
theorem running_of_ret (h : m.instr i = .ret none) : m.running i = .halt :=
  makes_of_halts (by simp [act, h])

/-- Nothing runs after the end of the code. -/
theorem running_of_length_le (h : m.length ≤ i) : m.running i = .halt :=
  makes_of_halts (by simp [act, instr_of_length_le h])

/-- A call that answers a test, and the jump that takes the answer. -/
theorem running_of_test {f : Member} {op : Comparison} {l : Label}
    {target : Nat} (h : m.instr i = .call .static f) (hf : f.descriptor = "()Z")
    (hnext : m.instr (i + 1) = .ifZero op l)
    (hl : m.labelIndex? l = some target) :
    m.running i = .ask f fun answer =>
      if op.ofAnswer answer then m.running target else m.running (i + 2) := by
  have hasks : m.act (i, []) = .asks f fun answer => (i + 1, [answer]) := by
    simp [act, h, hf]
  rw [running, makes_of_asks hasks]
  congr 1
  funext answer
  rw [makes_of_moves (t := (if op.ofAnswer answer then target else i + 2, []))]
  · split <;> rfl
  · simp only [act, hnext, hl]
    split <;> rfl

end Method

end Decompiler
