import Mathlib.Logic.Function.Basic
import Decompiler.Proofs.Result
import Decompiler.Simulation.Step

/-!
# Straight-line code computes the same values

Instructions on ints run on a machine with a frame of slots and an operand
stack.  Their simulation leaves an expression where the machine leaves a
value, and evaluates it only when an action uses it.  In between the frame may
have changed: an expression that reads a slot which has been written since no
longer stands for the value on the stack.

The main theorem says that nothing else can go wrong.  If no store takes such
an overtaken value, the actions leave every slot as the instructions do,
however the pushes, the copies and the writes are interleaved.
`increment_overtakes_load` is the shortest code where a store takes one.
-/

namespace Decompiler

/-- Int arithmetic of the machine.  Results wrap, shifts use the low five bits
of their right operand, and division by zero has no result. -/
def ArithOp.onInts : ArithOp → Int32 → Int32 → Option Int32
  | add, a, b => some (a + b)
  | sub, a, b => some (a - b)
  | mul, a, b => some (a * b)
  | div, a, b => if b = 0 then none else some (a / b)
  | rem, a, b => if b = 0 then none else some (a % b)
  | shiftLeft, a, b => some (a <<< b)
  | shiftRight, a, b => some (a >>> b)
  | shiftRightUnsigned, a, b => some (a.toUInt32 >>> b.toUInt32).toInt32
  | and, a, b => some (a &&& b)
  | or, a, b => some (a ||| b)
  | xor, a, b => some (a ^^^ b)

/-- The value of every slot. -/
abbrev Frame := Nat → Int32

/-- The instructions that work on ints and slots alone. -/
inductive Instr.IsIntCode : Instr → Prop
  | constant (v : Int32) : IsIntCode (.constant (.int v))
  | load (kind : Kind) (slot : Nat) : IsIntCode (.load kind slot)
  | store (kind : Kind) (slot : Nat) : IsIntCode (.store kind slot)
  | increment (slot : Nat) (delta : Int32) : IsIntCode (.increment slot delta)
  | arith (op : ArithOp) : IsIntCode (.arith op .int)
  | dup : IsIntCode .dup
  | swap : IsIntCode .swap
  | pop : IsIntCode .pop

/-- What an instruction does to the frame and the stack, top first. -/
def Instr.onInts : Instr → Frame × List Int32 → Option (Frame × List Int32)
  | .constant (.int v), (f, s) => some (f, v :: s)
  | .load _ slot, (f, s) => some (f, f slot :: s)
  | .store _ slot, (f, v :: s) => some (Function.update f slot v, s)
  | .increment slot delta, (f, s) =>
    some (Function.update f slot (f slot + delta), s)
  | .arith op .int, (f, b :: a :: s) => (op.onInts a b).map fun v => (f, v :: s)
  | .dup, (f, v :: s) => some (f, v :: v :: s)
  | .swap, (f, b :: a :: s) => some (f, a :: b :: s)
  | .pop, (f, _ :: s) => some (f, s)
  | _, _ => none

/-- Runs instructions in order; there is no result when one of them fails. -/
def Instr.runInts : List Instr → Frame × List Int32 →
      Option (Frame × List Int32)
  | [], c => some c
  | i :: is, c => i.onInts c >>= runInts is

/-- The value of an expression over ints and variables. -/
def Expr.onInts (f : Frame) : Expr → Option Int32
  | .int v => some v
  | .var v => some (f v.slot)
  | .binary op .int a b => do op.onInts (← a.onInts f) (← b.onInts f)
  | _ => none

/-- What an action does to the frame. -/
def Action.onInts : Action → Frame → Option Frame
  | .assign v value, f => (value.onInts f).map (Function.update f v.slot)
  | .increment v delta, f => some (Function.update f v.slot (f v.slot + delta))
  | _, _ => none

/-- Performs actions in order. -/
def Action.runInts : List Action → Frame → Option Frame
  | [], f => some f
  | a :: as, f => a.onInts f >>= runInts as

theorem Action.runInts_append (as bs : List Action) (f : Frame) :
    runInts (as ++ bs) f = runInts as f >>= runInts bs := by
  induction as generalizing f with
  | nil => rfl
  | cons a as ih =>
    cases h : a.onInts f with
    | none => simp [runInts, h]
    | some g => simp [runInts, h, ih]

/-- The slots that a pending value was computed from, or nothing if one of
them has been written since. -/
abbrev Reads := Option (List Nat)

namespace Reads

/-- What is left of a value's reads when a slot is written. -/
def overtake (slot : Nat) (r : Reads) : Reads := r.filter (slot ∉ ·)

/-- The reads of a value computed from two others. -/
def both : Reads → Reads → Reads
  | some r, some q => some (r ++ q)
  | _, _ => none

/-- How an instruction changes the reads of the pending values. -/
def after : Instr → List Reads → List Reads
  | .constant _, rs => some [] :: rs
  | .load _ slot, rs => some [slot] :: rs
  | .store _ slot, _ :: rs => rs.map (overtake slot)
  | .increment slot _, rs => rs.map (overtake slot)
  | .arith .., r :: q :: rs => both q r :: rs
  | .dup, r :: rs => r :: r :: rs
  | .swap, r :: q :: rs => q :: r :: rs
  | .pop, _ :: rs => rs
  | _, rs => rs

/-- Whether an instruction stores a value that has been overtaken. -/
def isLate : Instr → List Reads → Bool
  | .store .., none :: _ => true
  | _, _ => false

/-- Whether no instruction stores a value that has been overtaken. -/
def inTime : List Instr → List Reads → Bool
  | [], _ => true
  | i :: is, rs => !isLate i rs && inTime is (after i rs)

end Reads

/-- An expression has a value in a frame and in every other frame that agrees
on the slots it was computed from.  Nothing is known of an overtaken value. -/
def Expr.Stands (f : Frame) (e : Expr) (v : Int32) : Reads → Prop
  | some r => ∀ g : Frame, (∀ slot ∈ r, g slot = f slot) → e.onInts g = some v
  | none => True

namespace Expr.Stands

variable {f : Frame} {e d : Expr} {v w : Int32} {r q : Reads}

theorem onInts {rs : List Nat} (h : e.Stands f v (some rs)) :
    e.onInts f = some v :=
  h f fun _ _ => rfl

/-- A write leaves a pending expression its value unless it overtakes it. -/
theorem update (h : e.Stands f v r) (slot : Nat) (x : Int32) :
    e.Stands (Function.update f slot x) v (r.overtake slot) := by
  cases r with
  | none => trivial
  | some rs =>
    by_cases hmem : slot ∈ rs
    · simp [Reads.overtake, Option.filter, hmem, Stands]
    · have : Reads.overtake slot (some rs) = some rs := by
        simp [Reads.overtake, Option.filter, hmem]
      rw [this]
      intro g hg
      refine h g fun s hs => ?_
      have hne : s ≠ slot := fun heq => hmem (heq ▸ hs)
      rw [hg s hs, Function.update_of_ne hne]

/-- A computed value stands as long as both operands do. -/
theorem binary {op : ArithOp} {x : Int32} (ha : e.Stands f v r)
    (hb : d.Stands f w q) (hx : op.onInts v w = some x) :
    (Expr.binary op .int e d).Stands f x (r.both q) := by
  match r, q with
  | none, _ => trivial
  | some _, none => trivial
  | some rs, some qs =>
    intro g hg
    have he : e.onInts g = some v :=
      ha g fun s hs => hg s (List.mem_append_left _ hs)
    have hd : d.onInts g = some w :=
      hb g fun s hs => hg s (List.mem_append_right _ hs)
    simp [Expr.onInts, he, hd, hx]

end Expr.Stands

/-- Every expression on the stack stands for the value on the machine's, and
none of them is a call. -/
inductive Stack.Stands (f : Frame) : Stack → List Reads → List Int32 → Prop
  | nil : Stands f [] [] []
  | cons {v : Value} {s : Stack} {r : Reads} {rs : List Reads} {x : Int32}
      {xs : List Int32}
      (head : v.expr.Stands f x r) (pure : v.expr.isCall = false)
      (tail : Stands f s rs xs) :
      Stands f (v :: s) (r :: rs) (x :: xs)

theorem Stack.Stands.update {f : Frame} {s : Stack} {rs : List Reads}
    {xs : List Int32} (h : s.Stands f rs xs) (slot : Nat) (x : Int32) :
    s.Stands (Function.update f slot x) (rs.map (Reads.overtake slot)) xs := by
  induction h with
  | nil => exact .nil
  | cons head pure _ ih => exact .cons (head.update slot x) pure ih

/-- What the value that is taken off a stack stands for, and those below it. -/
theorem Stack.Stands.of_pop {f : Frame} {s : Stack} {rs : List Reads}
    {xs : List Int32} {index : Nat} {k : Value → Stack → Except Fault Outcome}
    {o : Outcome} (h : s.Stands f rs xs) (hk : s.pop index k = .ok o) :
    ∃ v rest r rs' x xs', rs = r :: rs' ∧ xs = x :: xs' ∧ v.expr.Stands f x r ∧
      v.expr.isCall = false ∧ Stack.Stands f rest rs' xs' ∧
        k v rest = .ok o := by
  cases h with
  | nil => cases hk
  | @cons v rest r rs x xs head pure tail =>
    exact ⟨v, rest, r, rs, x, xs, rfl, rfl, head, pure, tail, hk⟩

/-- A debug table answers with a variable of the slot it is asked for. -/
theorem LocalTable.slot_lookup (t : LocalTable) (slot index : Nat) :
    (t.lookup slot index).slot = slot := by
  unfold lookup
  split
  · rename_i r h
    have hmem := List.mem_filter.1 (mem_of_latest? h)
    simp only [LocalRange.covers, Bool.and_eq_true, beq_iff_eq] at hmem
    exact hmem.2.1.1
  · rfl

/-- The variable of an access belongs to the slot that is accessed. -/
theorem Context.slot_localAt {ctx : Context}
    (h : ∀ slot index, (ctx.locals slot index).slot = slot) (kind : Kind)
    (slot index : Nat) : (ctx.localAt kind slot index).slot = slot := by
  simp only [localAt]
  split <;> exact h slot index

namespace Context

variable {ctx : Context} {f f' : Frame} {s s' : Stack} {rs : List Reads}
    {xs xs' : List Int32}

/-- One instruction: unless it stores an overtaken value, its actions change
the frame as it does, and the expressions it leaves stand for the values it
leaves. -/
theorem stands_step (hslot : ∀ slot index, (ctx.locals slot index).slot = slot)
    {index : Nat} {i : Instr} {actions : List Action} (hi : i.IsIntCode)
    (hs : s.Stands f rs xs) (hlate : Reads.isLate i rs = false)
    (hsim : ctx.step index i s = .ok (s', actions))
    (hrun : i.onInts (f, xs) = some (f', xs')) :
    Action.runInts actions f = some f' ∧
      s'.Stands f' (Reads.after i rs) xs' := by
  cases hi with
  | constant v =>
    cases hsim
    cases hrun
    exact ⟨rfl, .cons (fun _ _ => rfl) rfl hs⟩
  | load kind slot =>
    cases hsim
    cases hrun
    refine ⟨rfl, .cons (fun g hg => ?_) rfl hs⟩
    simp [Expr.onInts, slot_localAt hslot, hg slot (by simp)]
  | store kind slot =>
    obtain ⟨v, rest, r, rs, x, xs, rfl, rfl, hv, _, hrest, hsim⟩ :=
      hs.of_pop hsim
    cases r with
    | none => simp [Reads.isLate] at hlate
    | some reads =>
      cases hsim
      cases hrun
      refine ⟨?_, hrest.update slot x⟩
      simp [Action.runInts, Action.onInts, hv.onInts, slot_localAt hslot]
  | increment slot delta =>
    cases hsim
    cases hrun
    refine ⟨?_, hs.update slot _⟩
    simp [Action.runInts, Action.onInts, slot_localAt hslot]
  | arith op =>
    obtain ⟨b, rest, r, rs, y, ys, rfl, rfl, hb, _, hrest, hsim⟩ :=
      hs.of_pop hsim
    obtain ⟨a, rest, r', rs, x, xs, rfl, rfl, ha, _, hrest, hsim⟩ :=
      hrest.of_pop hsim
    cases hsim
    obtain ⟨z, hz, heq⟩ := Option.map_eq_some_iff.1 hrun
    cases heq
    exact ⟨rfl, .cons (ha.binary hb hz) rfl hrest⟩
  | dup =>
    obtain ⟨v, rest, r, rs, x, xs, rfl, rfl, hv, pure, hrest, hsim⟩ :=
      hs.of_pop hsim
    cases hsim
    cases hrun
    exact ⟨rfl, .cons hv pure (.cons hv pure hrest)⟩
  | swap =>
    obtain ⟨b, rest, r, rs, y, ys, rfl, rfl, hb, pure, hrest, hsim⟩ :=
      hs.of_pop hsim
    obtain ⟨a, rest, r', rs, x, xs, rfl, rfl, ha, pure', hrest, hsim⟩ :=
      hrest.of_pop hsim
    cases hsim
    cases hrun
    exact ⟨rfl, .cons ha pure' (.cons hb pure hrest)⟩
  | pop =>
    obtain ⟨v, rest, r, rs, x, xs, rfl, rfl, _, pure, hrest, hsim⟩ :=
      hs.of_pop hsim
    have hnone : v.discard = [] := by simp [Value.discard, pure]
    cases hsim
    cases hrun
    rw [hnone]
    exact ⟨rfl, hrest⟩

/-- A whole run, from expressions that stand for the values below. -/
theorem stands_run (hslot : ∀ slot index, (ctx.locals slot index).slot = slot)
    {code : List (Nat × Instr)} {actions : List Action}
    (hcode : ∀ p ∈ code, p.2.IsIntCode) (hs : s.Stands f rs xs)
    (htime : Reads.inTime (code.map (·.2)) rs = true)
    (hsim : ctx.run code s = .ok (s', actions))
    (hrun : Instr.runInts (code.map (·.2)) (f, xs) = some (f', xs')) :
    Action.runInts actions f = some f' := by
  induction code generalizing f s rs xs actions with
  | nil =>
    cases hsim
    cases hrun
    rfl
  | cons p code ih =>
    obtain ⟨index, i⟩ := p
    simp only [List.map_cons, Reads.inTime, Bool.and_eq_true,
      Bool.not_eq_true'] at htime
    obtain ⟨hlate, htime⟩ := htime
    obtain ⟨⟨f₁, xs₁⟩, hstep, hrest⟩ := Option.bind_eq_some_iff.1 hrun
    obtain ⟨⟨s₁, first⟩, hfirst, hsim⟩ := bind_eq_ok.1 hsim
    obtain ⟨⟨s₂, others⟩, hothers, hsim⟩ := bind_eq_ok.1 hsim
    cases hsim
    have hi : i.IsIntCode := hcode (index, i) List.mem_cons_self
    obtain ⟨hact, hs₁⟩ := stands_step hslot hi hs hlate hfirst hstep
    have hact' :=
      ih (fun p hp => hcode p (List.mem_cons_of_mem _ hp)) hs₁ htime
        hothers hrest
    rw [Action.runInts_append, hact]
    exact hact'

end Context

/-- **Values are kept.**  When no store takes an overtaken value, the actions
of straight-line code leave every slot with the value that the instructions
leave there. -/
theorem runInts_actions_of_simulate {m : Method} {table : LocalTable}
    {recover : Recoveries} {start stop : Nat} {s : Stack}
    {actions : List Action} {f f' : Frame} {xs : List Int32}
    (hcode : ∀ p ∈ m.slice start stop, p.2.IsIntCode)
    (htime : Reads.inTime ((m.slice start stop).map (·.2)) [] = true)
    (hsim : Context.simulate ⟨m, table.lookup, recover⟩ start stop [] =
      .ok (s, actions))
    (hrun : Instr.runInts ((m.slice start stop).map (·.2)) (f, []) =
      some (f', xs)) :
    Action.runInts actions f = some f' :=
  Context.stands_run table.slot_lookup hcode .nil htime hsim hrun

/-- Values wait on the stack while other slots are written. -/
theorem runInts_actions_of_waiting_value :
    let m : Method :=
      { instrs := [.load .int 0, .dup, .constant (.int 1), .arith .add .int,
          .store .int 1, .increment 2 5, .load .int 2, .swap, .arith .sub .int,
          .store .int 0], ranges := [] }
    let f : Frame := fun slot => if slot = 0 then 7 else 30
    ∃ actions f',
      (∀ p ∈ m.slice 0 10, p.2.IsIntCode) ∧
      Reads.inTime ((m.slice 0 10).map (·.2)) [] = true ∧
      Context.simulate ⟨m, LocalTable.empty.lookup, {}⟩ 0 10 [] =
      .ok ([], actions) ∧
      Instr.runInts ((m.slice 0 10).map (·.2)) (f, []) = some (f', []) ∧
      Action.runInts actions f = some f' ∧ f' 0 = 28 ∧ f' 1 = 8 ∧
      f' 2 = 35 := by
  intro m f
  have hcode : ∀ p ∈ m.slice 0 10, p.2.IsIntCode := by
    simp only [m, Method.slice, List.take, List.drop, List.zipIdx, List.map,
      List.mem_cons, List.not_mem_nil, or_false]
    rintro p (rfl | rfl | rfl | rfl | rfl | rfl | rfl | rfl | rfl | rfl) <;>
      constructor
  have htime : Reads.inTime ((m.slice 0 10).map (·.2)) [] = true := by decide
  exact ⟨_, _, hcode, htime, rfl, rfl,
    runInts_actions_of_simulate hcode htime rfl (Eq.refl (some (_, []))),
    by decide, by decide, by decide⟩

/-- Without the condition values change: an increment overtakes the value
loaded before it, and the store that follows takes the new one. -/
theorem increment_overtakes_load :
    let m : Method :=
      { instrs := [.load .int 0, .increment 0 1, .store .int 1], ranges := [] }
    let f : Frame := fun _ => 0
    ∃ actions f' g,
      (∀ p ∈ m.slice 0 3, p.2.IsIntCode) ∧
      Context.simulate ⟨m, LocalTable.empty.lookup, {}⟩ 0 3 [] =
      .ok ([], actions) ∧
      Instr.runInts ((m.slice 0 3).map (·.2)) (f, []) = some (f', []) ∧
      Action.runInts actions f = some g ∧ f' 1 = 0 ∧ g 1 = 1 := by
  intro m f
  have hcode : ∀ p ∈ m.slice 0 3, p.2.IsIntCode := by
    simp only [m, Method.slice, List.take, List.drop, List.zipIdx, List.map,
      List.mem_cons, List.not_mem_nil, or_false]
    rintro p (rfl | rfl | rfl) <;> constructor
  exact ⟨_, _, _, hcode, rfl, rfl, rfl, rfl, rfl⟩

end Decompiler
