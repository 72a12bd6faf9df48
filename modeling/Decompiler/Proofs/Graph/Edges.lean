import Decompiler.Proofs.Graph.Cut
import Mathlib.Data.List.Nodup

/-!
# Edges lead where instructions go

The instruction at the break point of a block says how control leaves it:
ahead to the next instruction, by a jump to a label, or to the label of a
switch key.  The edges of the block say the same in terms of blocks.  Break
points are where a block ends and where a label is jumped to, so behind each
of them a block starts, unless nothing is done there any more.

* `MadeFrom.startingAt?_next`: the block behind a break point.
* `Grouped`: arms that hold each key beside the target it came with.
* `leads_of_graph`: the edges of every block are those of its last instruction.
-/

namespace Decompiler

variable {m : Method} {g : Graph}

/-- A way to go on after an instruction. -/
inductive Turn
  /-- To the next instruction. -/
  | ahead
  /-- To the label of a jump. -/
  | jump
  /-- To the label that a switch has for a value. -/
  | value (key : Int32)
deriving Repr, DecidableEq

/-- The keys of a switch, in table order. -/
def Instr.keys (i : Instr) : List Int32 :=
  match i.switchTable? with
  | some (pairs, _) => pairs.map (·.1)
  | none => []

/-- Whether an instruction has at most one label for a turn.  A switch may
list a key again. -/
def Turn.Clear (i : Instr) : Turn → Prop
  | value key => i.keys.count key ≤ 1
  | _ => True

/-- The index behind a label. -/
def Method.behind? (m : Method) (l : Label) : Option Nat :=
  (m.labelIndex? l).map (· + 1)

/-- The index that control goes to after the instruction at `i`.  A label does
nothing and is passed at once. -/
def Method.next? (m : Method) (i : Nat) : Turn → Option Nat
  | .ahead =>
    match (m.instr i).control with
    | .plain | .marker | .branch => some (i + 1)
    | .jump | .switch | .ret | .throw => none
  | .jump => (m.instr i).jumpTarget?.bind m.behind?
  | .value key => (m.instr i).switchTable?.bind fun (pairs, default) =>
    m.behind? ((pairs.lookup key).getD default)

/-- The block that control goes to. -/
def Exit.next? : Exit → Turn → Option Nat
  | falls next, .ahead => next
  | jumps target, .jump => some target
  | branches taken _, .jump => some taken
  | branches _ otherwise, .ahead => otherwise
  | selects arms default, .value key =>
    some ((arms.find? (·.keys.contains key)).elim default (·.target))
  | _, _ => none

/-- Where control goes there is an edge. -/
theorem Exit.mem_successors_of_next? {e : Exit} {turn : Turn} {t : Nat}
    (h : e.next? turn = some t) : t ∈ e.successors := by
  cases e with
  | falls next | jumps target | branches taken otherwise =>
    cases turn <;> simp_all [next?, successors]
  | selects arms default =>
    cases turn with
    | value key =>
      simp only [next?, Option.some.injEq] at h
      cases hfind : arms.find? (·.keys.contains key) with
      | none =>
        rw [hfind] at h
        simp [successors, ← h]
      | some a =>
        rw [hfind] at h
        have ha :=
          List.mem_map_of_mem (f := (·.target))
            (List.mem_of_find?_eq_some hfind)
        exact List.mem_append_left _ (h ▸ ha)
    | ahead | jump => cases h
  | returns | throws => cases turn <;> cases h

/-- The block that starts with an instruction. -/
def Graph.startingAt? (g : Graph) (i : Nat) : Option Nat :=
  (List.range g.blocks.length).find? fun id => (g.block id).start == i

/-- The edges of a block are those of the instruction at its break point. -/
structure Block.Leads (b : Block) (m : Method) (g : Graph) : Prop where
  le : b.start ≤ b.breakPoint
  /-- Control does not leave the block before its break point. -/
  inside : ∀ k, b.start ≤ k → k < b.breakPoint → (m.instr k).endsBlock = false
  stop : b.stop = m.bodyStop b.breakPoint
  /-- Where an edge leads, the instruction goes; there is none only if the
  instruction does not go on, or no block starts where it goes. -/
  next : ∀ turn : Turn, turn.Clear (m.instr b.breakPoint) →
    b.exit.next? turn = (m.next? b.breakPoint turn).bind g.startingAt?
  /-- Jumps and switches always lead to a block. -/
  directed : ∀ turn : Turn, turn ≠ .ahead → (m.next? b.breakPoint turn).isSome →
    (b.exit.next? turn).isSome
  /-- Each key of a switch is in one arm, which leads to the key's label, and
  the arms lead to different blocks. -/
  arms : ∀ (pairs : List (Int32 × Label)) (default : Label),
    (m.instr b.breakPoint).switchTable? = some (pairs, default) → ∃ arms other,
      b.exit = .selects arms other ∧ (arms.map (·.target)).Nodup ∧
        ∀ (key : Int32) (l : Label), (key, l) ∈ pairs →
          (pairs.map (·.1)).count key = 1 → ∃ a ∈ arms, key ∈ a.keys ∧
            (m.behind? l).bind g.startingAt? = some a.target ∧ ∀ a' ∈ arms,
            key ∈ a'.keys → a' = a

namespace Instr

/-- An instruction with a target is a jump or a branch. -/
theorem control_of_jumpTarget? {i : Instr} {l : Label}
    (h : i.jumpTarget? = some l) :
    (i.control = .jump ∧ i.switchTable? = none) ∨
      (i.control = .branch ∧ i.switchTable? = none) := by
  cases i with
  | goto => exact .inl ⟨rfl, rfl⟩
  | ifZero | ifInts | ifReferences | ifNull | ifNonNull => exact .inr ⟨rfl, rfl⟩
  | _ => cases h

/-- An instruction with a table is a switch. -/
theorem control_of_switchTable? {i : Instr}
    {table : List (Int32 × Label) × Label} (h : i.switchTable? = some table) :
    i.control = .switch := by
  cases i with
  | tableSwitch | lookupSwitch => rfl
  | _ => cases h

/-- An instruction with neither does not transfer control inside the method. -/
theorem control_of_none {i : Instr} (hjump : i.jumpTarget? = none)
    (htable : i.switchTable? = none) :
    i.control = .plain ∨ i.control = .marker ∨ i.control = .ret ∨
      i.control = .throw := by
  cases i with
  | goto | ifZero | ifInts | ifReferences | ifNull | ifNonNull => cases hjump
  | tableSwitch | lookupSwitch => cases htable
  | label | line | frame => exact .inr (.inl rfl)
  | ret => exact .inr (.inr (.inl rfl))
  | throw => exact .inr (.inr (.inr rfl))
  | _ => exact .inl rfl

end Instr

/-! ## The arms of a switch -/

/-- The arms have the keys and targets of a table, each target once. -/
structure Grouped (arms : List SwitchArm) (pairs : List (Int32 × Nat)) :
    Prop where
  apart : (arms.map (·.target)).Nodup
  mem_iff : ∀ key target, (∃ a ∈ arms, a.target = target ∧ key ∈ a.keys) ↔
  (key, target) ∈ pairs

namespace Method

/-- A key adds its target to the arms if no arm leads there yet. -/
theorem map_target_addKey (key : Int32) (target : Nat) (arms : List SwitchArm) :
    (addKey key target arms).map (·.target) =
      if target ∈ arms.map (·.target) then arms.map (·.target)
      else arms.map (·.target) ++ [target] := by
  induction arms with
  | nil => rfl
  | cons a arms ih =>
    rw [addKey]
    by_cases ha : a.target = target
    · rw [if_pos ha, if_pos (by simp [ha])]
      rfl
    · rw [if_neg ha, List.map_cons, ih]
      simp only [List.map_cons, List.mem_cons, Ne.symm ha, false_or]
      split <;> rfl

/-- Adding a key to the arms selects its target with it, and nothing else. -/
theorem mem_addKey {key other : Int32} {target place : Nat}
    {arms : List SwitchArm} :
    (∃ a ∈ addKey key target arms, a.target = place ∧ other ∈ a.keys) ↔
      (∃ a ∈ arms, a.target = place ∧ other ∈ a.keys) ∨ other = key ∧
        place = target := by
  induction arms with
  | nil =>
    rw [addKey]
    simp [and_comm, eq_comm]
  | cons a arms ih =>
    rw [addKey]
    by_cases ha : a.target = target
    · rw [if_pos ha]
      simp only [List.mem_cons, exists_eq_or_imp, List.mem_append,
        List.not_mem_nil, or_false]
      grind
    · rw [if_neg ha]
      simp only [List.mem_cons, exists_eq_or_imp, ih, or_assoc]

/-- Arms stay grouped by target when a key is added. -/
theorem grouped_addKey {arms : List SwitchArm} {pairs : List (Int32 × Nat)}
    {key : Int32} {target : Nat} (h : Grouped arms pairs) :
    Grouped (addKey key target arms) (pairs ++ [(key, target)]) := by
  refine ⟨?_, fun other place => ?_⟩
  · rw [map_target_addKey]
    by_cases hmem : target ∈ arms.map (·.target)
    · rw [if_pos hmem]
      exact h.apart
    · rw [if_neg hmem]
      exact List.nodup_append.2 ⟨h.apart, by simp, by grind⟩
  · rw [mem_addKey, h.mem_iff, List.mem_append, List.mem_singleton,
      Prod.mk.injEq]

/-- The keys of a table are grouped by their targets. -/
theorem grouped_arms (pairs : List (Int32 × Nat)) :
    Grouped (arms pairs) pairs := by
  suffices hfold : ∀ (done : List SwitchArm) (before : List (Int32 × Nat)),
    Grouped done before →
      Grouped (pairs.foldl (fun as p => addKey p.1 p.2 as) done)
        (before ++ pairs) from hfold [] [] ⟨List.nodup_nil, by simp⟩
  induction pairs with
  | nil =>
    intro done before h
    rwa [List.append_nil]
  | cons p pairs ih =>
    intro done before h
    have hstep := ih (addKey p.1 p.2 done) (before ++ [p]) (grouped_addKey h)
    rwa [List.append_assoc] at hstep

end Method

namespace Grouped

variable {arms : List SwitchArm} {pairs : List (Int32 × Nat)} {key : Int32}
    {target : Nat}

/-- A key that is listed once has one target. -/
private theorem eq_of_count (hcount : (pairs.map (·.1)).count key ≤ 1)
    {other : Nat} (h : (key, target) ∈ pairs) (hother : (key, other) ∈ pairs) :
    target = other := by
  obtain ⟨before, later, rfl⟩ := List.append_of_mem h
  simp only [List.map_append, List.map_cons, List.count_append,
    List.count_cons_self] at hcount
  have hbefore : key ∉ before.map (·.1) := List.count_eq_zero.1 (by omega)
  have hlater : key ∉ later.map (·.1) := List.count_eq_zero.1 (by omega)
  grind

/-- The only arm of a key that is listed once. -/
theorem exists_arm (h : Grouped arms pairs)
    (hcount : (pairs.map (·.1)).count key ≤ 1) (hmem : (key, target) ∈ pairs) :
    ∃ a ∈ arms, key ∈ a.keys ∧ a.target = target ∧ ∀ a' ∈ arms, key ∈ a'.keys →
      a' = a := by
  obtain ⟨a, ha, htarget, hkey⟩ := (h.mem_iff key target).2 hmem
  refine ⟨a, ha, hkey, htarget, fun a' ha' hkey' => ?_⟩
  have hmem' := (h.mem_iff key a'.target).1 ⟨a', ha', rfl, hkey'⟩
  have heq : a'.target = a.target :=
    (eq_of_count hcount hmem' hmem).trans htarget.symm
  exact List.inj_on_of_nodup_map h.apart ha' ha heq

/-- Looking for the arm of a key finds its target. -/
theorem find?_eq (h : Grouped arms pairs)
    (hcount : (pairs.map (·.1)).count key ≤ 1) (hmem : (key, target) ∈ pairs)
    (default : Nat) :
    (arms.find? (·.keys.contains key)).elim default (·.target) = target := by
  obtain ⟨a, ha, hkey, htarget, honly⟩ := h.exists_arm hcount hmem
  cases hfind : arms.find? (·.keys.contains key) with
  | none =>
    have hnot := List.find?_eq_none.1 hfind a ha
    simp [hkey] at hnot
  | some a' =>
    have hkey' := List.find?_some hfind
    rw [List.contains_iff_mem] at hkey'
    rw [honly a' (List.mem_of_find?_eq_some hfind) hkey']
    exact htarget

/-- No arm is found for a value that is no key. -/
theorem find?_eq_default (h : Grouped arms pairs) (hmem : key ∉ pairs.map (·.1))
    (default : Nat) : (arms.find? (·.keys.contains key)).elim default
      (·.target) = default := by
  have hnone : arms.find? (·.keys.contains key) = none := by
    refine List.find?_eq_none.2 fun a ha hkey => hmem ?_
    rw [List.contains_iff_mem] at hkey
    exact List.mem_map_of_mem ((h.mem_iff key a.target).1 ⟨a, ha, rfl, hkey⟩)
  rw [hnone]
  rfl

end Grouped

/-! ## Exits and the instructions they come from -/

/-- The exit of a block that ends with an instruction and runs into `next`:
its edges lead behind the labels of the instruction. -/
inductive Directed (m : Method) (g : Graph) (i : Instr) (next : Option Nat) :
    Exit → Prop
  | falls (control : i.control = .plain ∨ i.control = .marker)
      (jump : i.jumpTarget? = none) (table : i.switchTable? = none) :
      Directed m g i next (.falls next)
  | jumps {l : Label} {t : Nat} (control : i.control = .jump)
      (jump : i.jumpTarget? = some l)
      (table : i.switchTable? = none)
      (leads : (m.behind? l).bind g.startingAt? = some t) :
      Directed m g i next (.jumps t)
  | branches {l : Label} {t : Nat} (control : i.control = .branch)
      (jump : i.jumpTarget? = some l) (table : i.switchTable? = none)
      (leads : (m.behind? l).bind g.startingAt? = some t) :
      Directed m g i next (.branches t next)
  | selects {pairs : List (Int32 × Label)} {default : Label}
      {arms : List SwitchArm}
      {targets : List (Int32 × Nat)} {other : Nat}
      (control : i.control = .switch)
      (jump : i.jumpTarget? = none)
      (table : i.switchTable? = some (pairs, default))
      (grouped : Grouped arms targets)
      (keys : targets.map (·.1) = pairs.map (·.1))
      (leads : ∀ (key : Int32) (l : Label), (key, l) ∈ pairs →
        ∃ t, (key, t) ∈ targets ∧ (m.behind? l).bind g.startingAt? = some t)
      (otherwise : (m.behind? default).bind g.startingAt? = some other) :
      Directed m g i next (.selects arms other)
  | returns (control : i.control = .ret) (jump : i.jumpTarget? = none)
      (table : i.switchTable? = none) : Directed m g i next .returns
  | throws (control : i.control = .throw) (jump : i.jumpTarget? = none)
      (table : i.switchTable? = none) : Directed m g i next .throws

namespace Directed

variable {index : Nat} {next : Option Nat} {e : Exit} {turn : Turn}

/-- An exit leads where its instruction does, block for instruction. -/
theorem next_eq (h : Directed m g (m.instr index) next e)
    (hnext : g.startingAt? (index + 1) = next)
    (hclear : turn.Clear (m.instr index)) :
    e.next? turn = (m.next? index turn).bind g.startingAt? := by
  cases h with
  | falls control jump table =>
    cases turn with
    | ahead =>
      rcases control with hcontrol | hcontrol
      · simp [Exit.next?, Method.next?, hcontrol, hnext]
      · simp [Exit.next?, Method.next?, hcontrol, hnext]
    | jump => simp [Exit.next?, Method.next?, jump]
    | value key => simp [Exit.next?, Method.next?, table]
  | jumps control jump table leads =>
    cases turn <;> simp [Exit.next?, Method.next?, control, jump, table, leads]
  | branches control jump table leads =>
    cases turn <;>
      simp [Exit.next?, Method.next?, control, jump, table, leads, hnext]
  | @selects pairs default arms targets other control jump table grouped keys
      leads otherwise =>
    cases turn with
    | ahead => simp [Exit.next?, Method.next?, control]
    | jump => simp [Exit.next?, Method.next?, jump]
    | value key =>
      rw [Turn.Clear, Instr.keys, table] at hclear
      simp only [Exit.next?, Method.next?, table, Option.bind_some]
      cases hlookup : pairs.lookup key with
      | some l =>
        obtain ⟨before, later, hsplit, _⟩ := List.lookup_eq_some_iff.1 hlookup
        obtain ⟨t, hmem, ht⟩ := leads key l (by simp [hsplit])
        rw [grouped.find?_eq (keys ▸ hclear) hmem, Option.getD_some, ht]
      | none =>
        have hnot : key ∉ targets.map (·.1) := by
          rw [keys, List.mem_map]
          rintro ⟨p, hp, rfl⟩
          simpa using List.lookup_eq_none_iff.1 hlookup p hp
        rw [grouped.find?_eq_default hnot, Option.getD_none, otherwise]
  | returns control jump table | throws control jump table =>
    cases turn <;> simp [Exit.next?, Method.next?, control, jump, table]

/-- An exit leads somewhere if its instruction does. -/
theorem isSome_next? (h : Directed m g (m.instr index) next e)
    (hturn : turn ≠ .ahead) (hsome : (m.next? index turn).isSome) :
    (e.next? turn).isSome := by
  cases turn with
  | ahead => exact absurd rfl hturn
  | jump =>
    rw [Method.next?, Option.isSome_bind] at hsome
    cases h with
    | jumps | branches => rfl
    | falls _ jump | selects _ jump | returns _ jump | throws _ jump =>
      simp [jump] at hsome
  | value key =>
    rw [Method.next?, Option.isSome_bind] at hsome
    cases h with
    | selects => rfl
    | falls _ _ table | jumps _ _ table | branches _ _ table | returns _ _ table
    | throws _ _ table => simp [table] at hsome

/-- The exit of a switch has one arm for each target, and each key that occurs
once is in the arm of its target. -/
theorem exists_arms (h : Directed m g (m.instr index) next e)
    {pairs : List (Int32 × Label)} {default : Label}
    (htable : (m.instr index).switchTable? = some (pairs, default)) :
    ∃ arms other, e = .selects arms other ∧ (arms.map (·.target)).Nodup ∧
      ∀ (key : Int32) (l : Label), (key, l) ∈ pairs →
        (pairs.map (·.1)).count key = 1 → ∃ a ∈ arms, key ∈ a.keys ∧
          (m.behind? l).bind g.startingAt? = some a.target ∧ ∀ a' ∈ arms,
            key ∈ a'.keys → a' = a := by
  cases h with
  | @selects _ _ arms targets other control jump table grouped keys leads
      otherwise =>
    cases table.symm.trans htable
    refine ⟨arms, other, rfl, grouped.apart, fun key l hmem hcount => ?_⟩
    obtain ⟨t, ht, hlabel⟩ := leads key l hmem
    obtain ⟨a, ha, hkey, rfl, honly⟩ :=
      grouped.exists_arm (keys ▸ Nat.le_of_eq hcount) ht
    exact ⟨a, ha, hkey, hlabel, honly⟩
  | falls _ _ table | jumps _ _ table | branches _ _ table | returns _ _ table
  | throws _ _ table => cases table.symm.trans htable

end Directed

/-! ## The blocks of labels -/

namespace Method

/-- The labels of located places are where they are. -/
theorem map_of_locate {find : Label → Option Nat} {index : Nat}
    {ls : List Label} {targets : List Nat}
    (h : locate find index ls = .ok targets) :
    ls.map find = targets.map some := by
  induction ls generalizing targets with
  | nil =>
    cases h
    rfl
  | cons l ls ih =>
    rw [locate] at h
    split at h
    · cases h
    · rename_i t ht
      obtain ⟨others, hothers, rfl⟩ := map_eq_ok.1 h
      rw [List.map_cons, List.map_cons, ih hothers, ht]

end Method

namespace MadeFrom

variable {ends : Nat → Bool} {spans : List Span} {n : Nat} {s : Span}

/-- No block that comes before ends later. -/
theorem start_le_breakPoint (h : MadeFrom m g ends spans)
    (hs : spans[n]? = some s) {k : Nat} (hk : k ≤ n) :
    (g.block k).start ≤ s.breakPoint := by
  have hle := (h.fits n s hs).le
  rw [← h.start_eq hs] at hle
  rcases Nat.eq_or_lt_of_le hk with rfl | hlt
  · exact hle
  · obtain ⟨hn, _⟩ := List.getElem?_eq_some_iff.1 hs
    obtain ⟨s', hs'⟩ : ∃ s', spans[k]? = some s' :=
      ⟨_, List.getElem?_eq_getElem (by omega)⟩
    have hbefore := h.breakPoint_lt_start hs' hlt (h.length_eq ▸ hn)
    have hle' := (h.fits k s' hs').le
    rw [← h.start_eq hs'] at hle'
    omega

/-- Behind a break point the next block starts, or none. -/
theorem startingAt?_next (h : MadeFrom m g ends spans)
    (hs : spans[n]? = some s) :
    g.startingAt? (s.breakPoint + 1) = if n + 1 < spans.length then some (n + 1)
      else none := by
  have hsmaller : ∀ k ≤ n, (g.block k).start ≠ s.breakPoint + 1 :=
    fun k hk => by
      have := h.start_le_breakPoint hs hk
      omega
  by_cases hlt : n + 1 < spans.length
  · rw [if_pos hlt]
    have hnext : spans[n + 1]? = some spans[n + 1] :=
      List.getElem?_eq_getElem hlt
    have hstart : (g.block (n + 1)).start = s.breakPoint + 1 := by
      rw [h.start_eq hnext]
      exact ((h.fits n s hs).next _ hnext).2
    refine List.find?_range_eq_some.2 ⟨by simp [hstart], ?_, fun k hk => ?_⟩
    · rw [List.mem_range, h.length_eq]
      exact hlt
    · simpa using hsmaller k (by omega)
  · rw [if_neg hlt]
    refine List.find?_eq_none.2 fun k hk => ?_
    rw [List.mem_range, h.length_eq] at hk
    simpa using hsmaller k (by omega)

/-- The block of a label starts behind it. -/
theorem startingAt?_label (h : MadeFrom m g ends spans) {l : Label} {t : Nat}
    (ht : (m.spanLabels spans).lookup l = some t) :
    (m.behind? l).bind g.startingAt? = some t := by
  obtain ⟨k, s, rfl, hlt, hs, hlabel⟩ := Method.span_of_lookup ht
  rw [Method.behind?, Method.labelIndex?_of_label? hlabel, Option.map_some,
    Option.bind_some, h.startingAt?_next hs, if_pos hlt]

/-- Where the labels of a switch lead. -/
private theorem exists_table (h : MadeFrom m g ends spans) {i : Instr}
    {targets : List Nat} {index : Nat} {pairs : List (Int32 × Label)}
    {default : Label} (hjump : i.jumpTarget? = none)
    (htable : i.switchTable? = some (pairs, default))
    (htargets : Method.locate ((m.spanLabels spans).lookup ·) index
      i.destinations = .ok targets) :
    ∃ ts other, targets = ts ++ [other] ∧
      (m.behind? default).bind g.startingAt? = some other ∧
      (pairs.map (·.1)).length = ts.length ∧ ∀ (key : Int32) (l : Label),
        (key, l) ∈ pairs →
        ∃ t, (key, t) ∈ (pairs.map (·.1)).zip ts ∧
          (m.behind? l).bind g.startingAt? = some t := by
  have hmap := Method.map_of_locate htargets
  have hdest : i.destinations = pairs.map (·.2) ++ [default] := by
    rw [Instr.destinations, hjump, htable]
  rw [hdest, List.map_append, List.map_singleton] at hmap
  obtain ⟨ts, ds, rfl, hts, hds⟩ := List.map_eq_append_iff.1 hmap.symm
  obtain ⟨other, rfl, hother⟩ := List.map_eq_singleton_iff.1 hds
  have hlength : (pairs.map (·.1)).length = ts.length := by
    have hlen := congrArg List.length hts
    simpa using hlen.symm
  refine ⟨ts, other, rfl, h.startingAt?_label hother.symm, hlength,
    fun key l hmem => ?_⟩
  obtain ⟨n, hn, hget⟩ := List.mem_iff_getElem.1 hmem
  have hnts : n < ts.length := by simpa [← hlength] using hn
  have hlookup : (m.spanLabels spans).lookup l = some ts[n] := by
    have hsame := congrArg (·[n]?) hts
    simp [hn, hnts, hget] at hsame
    exact hsame.symm
  have hzipped : n < ((pairs.map (·.1)).zip ts).length := by
    rw [List.length_zip, hlength, Nat.min_self]
    exact hnts
  refine ⟨ts[n], List.mem_iff_getElem.2 ⟨n, hzipped, ?_⟩,
    h.startingAt?_label hlookup⟩
  simp [hget]

/-- The exit of a block does what its instruction does. -/
theorem directed (h : MadeFrom m g ends spans) {i : Instr} {index : Nat}
    {targets : List Nat}
    (htargets : Method.locate ((m.spanLabels spans).lookup ·) index
      i.destinations = .ok targets)
    (next : Option Nat) :
    Directed m g i next (Method.exitTo i next targets) := by
  cases hjump : i.jumpTarget? with
  | some l =>
    rw [Instr.destinations, hjump] at htargets
    obtain ⟨t, ht, rfl⟩ := Method.locate_singleton htargets
    have hlabel := h.startingAt?_label ht
    rcases Instr.control_of_jumpTarget? hjump
      with ⟨hcontrol, htable⟩ | ⟨hcontrol, htable⟩
    · have hexit : Method.exitTo i next [t] = .jumps t := by
        simp [Method.exitTo, hcontrol]
      exact hexit ▸ .jumps hcontrol hjump htable hlabel
    · have hexit : Method.exitTo i next [t] = .branches t next := by
        simp [Method.exitTo, hcontrol]
      exact hexit ▸ .branches hcontrol hjump htable hlabel
  | none =>
    cases htable : i.switchTable? with
    | some table =>
      obtain ⟨pairs, default⟩ := table
      obtain ⟨ts, other, rfl, hdefault, hlength, hpairs⟩ :=
        h.exists_table hjump htable htargets
      have hcontrol := Instr.control_of_switchTable? htable
      have hzip : (pairs.map (·.1)).zip (ts ++ [other]) = (pairs.map (·.1)).zip
          ts := by
        rw [← List.append_nil (pairs.map _), List.zip_append hlength,
          List.append_nil]
        exact List.append_nil _
      have hexit : Method.exitTo i next (ts ++ [other]) =
          .selects (Method.arms ((pairs.map (·.1)).zip ts)) other := by
        simp [Method.exitTo, hcontrol, htable, hzip]
      rw [hexit]
      refine .selects hcontrol hjump htable (Method.grouped_arms _) ?_ hpairs
        hdefault
      exact List.map_fst_zip (Nat.le_of_eq hlength)
    | none =>
      rcases Instr.control_of_none hjump htable
        with hcontrol | hcontrol | hcontrol | hcontrol
      · have hexit : Method.exitTo i next targets = .falls next := by
          simp [Method.exitTo, hcontrol]
        exact hexit ▸ .falls (.inl hcontrol) hjump htable
      · have hexit : Method.exitTo i next targets = .falls next := by
          simp [Method.exitTo, hcontrol]
        exact hexit ▸ .falls (.inr hcontrol) hjump htable
      · have hexit : Method.exitTo i next targets = .returns := by
          simp [Method.exitTo, hcontrol]
        exact hexit ▸ .returns hcontrol hjump htable
      · have hexit : Method.exitTo i next targets = .throws := by
          simp [Method.exitTo, hcontrol]
        exact hexit ▸ .throws hcontrol hjump htable

/-- Control leaves a block as its last instruction says. -/
theorem leads (h : MadeFrom m g ends spans) (hs : spans[n]? = some s) :
    (g.block n).Leads m g := by
  have hnext := h.startingAt?_next hs
  have hfits := h.fits n s hs
  have hstop : s.stop = m.bodyStop s.breakPoint := by
    rcases Nat.lt_or_ge s.breakPoint m.length with hlt | hge
    · exact (hfits.closed hlt).2
    · obtain ⟨heq, hstop⟩ := hfits.open_ hge
      rw [Method.bodyStop, Method.instr_of_length_le hge]
      exact hstop.trans heq.symm
  obtain ⟨targets, preds, htargets, hblock⟩ := h.block n s hs
  have hdirected :=
    h.directed htargets (if n + 1 < spans.length then some (n + 1) else none)
  rw [hblock]
  exact
    { le := hfits.le
      inside := h.inside hs
      stop := hstop
      next := fun _ => hdirected.next_eq hnext
      directed := fun _ => hdirected.isSome_next?
      arms := fun _ _ => hdirected.exists_arms }

end MadeFrom

/-- **Edges.**  In the graph that is built of a method every block is left as
the instruction at its break point says: the edge for each way to go on leads
to the block that starts where control goes. -/
theorem leads_of_graph (h : m.graph = .ok g) :
    ∀ id < g.blocks.length, (g.block id).Leads m g := by
  obtain ⟨ends, bs, _, hmade⟩ := madeFrom_of_graph h
  intro id hid
  exact hmade.leads (List.getElem?_eq_getElem (hmade.length_eq ▸ hid))

/-- A switch with three keys and two labels, one of them its default. -/
theorem leads_of_sharedLabel :
    let m : Method :=
      { instrs :=
        [.constant (.int 1), .lookupSwitch ⟨2⟩ [(7, ⟨1⟩), (3, ⟨2⟩), (9, ⟨1⟩)],
          .label ⟨1⟩, .ret none, .label ⟨2⟩, .throw], ranges := [] }
    ∃ g, m.graph = .ok g ∧ g.exit 0 = .selects [⟨[7, 9], 2⟩, ⟨[3], 4⟩] 4 ∧
      ∀ id < g.blocks.length, (g.block id).Leads m g := by
  intro m
  exact ⟨_, rfl, rfl, leads_of_graph rfl⟩

end Decompiler
