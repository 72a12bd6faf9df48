import Decompiler.Bytecode.Local
import Decompiler.Proofs.Result
import Mathlib.Data.List.Pairwise
import Mathlib.Data.List.Perm.Basic
import Mathlib.Tactic.ByContra

/-!
# Which variable a slot holds

The range of a variable starts behind the store that gives it its first value.
That store has to count as a use of the variable, so a look-up looks one
instruction ahead; at the border of two ranges both are candidates, and the one
that starts there is meant.

Where the ranges of a slot have no instruction in common, at most one of them
starts at a given place and at most one holds a given instruction.  Then it does
not matter in which order the table lists them, and the rule of the last range
of those that start last is never needed.

* `LocalTable.Answers`: the variable that a slot is to hold at an instruction.
* `LocalTable.Answers.unique`, `LocalTable.answers_lookup`: there is one, and a
  look-up finds it.
* `LocalTable.ofEntries_eq_ok_iff`: the ranges of a table.
* `LocalTable.lookup_of_apart`: look-ups in tables without common instructions.
-/

namespace Decompiler

/-- Whether an instruction is one of a range. -/
def LocalRange.Holds (r : LocalRange) (index : Nat) : Prop :=
  r.start ≤ index ∧ index < r.stop

/-- The range that a line of a debug table stands for. -/
structure LocalEntry.Spans (m : Method) (e : LocalEntry) (r : LocalRange) :
    Prop where
  var : r.var = ⟨e.slot, e.name, some e.descriptor⟩
  start : m.labelIndex? e.start = some r.start
  stop : m.labelIndex? e.stop = some r.stop

/-- Two ranges that have no instruction in common, if they are of one slot. -/
def LocalRange.Apart (r q : LocalRange) : Prop :=
  r.var.slot = q.var.slot → ∀ index, ¬ (r.Holds index ∧ q.Holds index)

instance : Std.Symm LocalRange.Apart where
  symm _ _ h hslot index hboth := h hslot.symm index hboth.symm

namespace LocalTable

/-- Whether every range of a table holds an instruction, and no two ranges of
one slot have one in common. -/
structure Apart (t : LocalTable) : Prop where
  nonempty : ∀ r ∈ t.ranges, ∃ index, r.Holds index
  disjoint : t.ranges.Pairwise LocalRange.Apart

/-- Whether the range of a variable of the slot starts at an instruction. -/
def OpensAt (t : LocalTable) (slot index : Nat) : Prop :=
  ∃ r ∈ t.ranges, r.var.slot = slot ∧ r.start = index

/-- The variable that a slot is to hold at an instruction: the one whose range
starts at the next instruction, or else the one whose range holds this one, or
else one without a name. -/
inductive Answers (t : LocalTable) (slot index : Nat) : Local → Prop
  | opens {r : LocalRange} (mem : r ∈ t.ranges) (of_slot : r.var.slot = slot)
      (starts : r.start = index + 1) : t.Answers slot index r.var
  | lives {r : LocalRange} (mem : r ∈ t.ranges) (of_slot : r.var.slot = slot)
      (holds : r.Holds index) (noNext : ¬ t.OpensAt slot (index + 1)) :
      t.Answers slot index r.var
  | unnamed (noNext : ¬ t.OpensAt slot (index + 1))
      (noHere : ¬ ∃ r ∈ t.ranges, r.var.slot = slot ∧ r.Holds index) :
      t.Answers slot index (.ofSlot slot)

variable {t t' : LocalTable} {slot index : Nat} {m : Method}

/-! ### One answer -/

namespace Apart

/-- A range that is apart from the others is not empty. -/
theorem lt (h : t.Apart) {r : LocalRange} (hr : r ∈ t.ranges) :
    r.start < r.stop := by
  obtain ⟨i, hle, hlt⟩ := h.nonempty r hr
  exact Nat.lt_of_le_of_lt hle hlt

/-- A range holds the position at its start. -/
theorem holds_start (h : t.Apart) {r : LocalRange} (hr : r ∈ t.ranges) :
    r.Holds r.start :=
  ⟨Nat.le_refl _, h.lt hr⟩

/-- An instruction is in one range of a slot only. -/
theorem eq_of_holds (h : t.Apart) {r q : LocalRange} (hr : r ∈ t.ranges)
    (hq : q ∈ t.ranges) (hslot : r.var.slot = q.var.slot)
    (hrange : r.Holds index) (hother : q.Holds index) : r = q := by
  by_contra hne
  exact h.disjoint.forall hr hq hne hslot index ⟨hrange, hother⟩

/-- Ranges stay apart in any order. -/
theorem perm (h : t.Apart) (hperm : t'.ranges.Perm t.ranges) : t'.Apart where
  nonempty r hr := h.nonempty r (hperm.mem_iff.1 hr)
  disjoint := (hperm.pairwise_iff fun h => Std.Symm.symm _ _ h).2 h.disjoint

end Apart

/-- There is one variable that a slot is to hold. -/
theorem Answers.unique (happart : t.Apart) {v v' : Local}
    (h : t.Answers slot index v) (h' : t.Answers slot index v') : v = v' := by
  cases h with
  | @opens r mem of_slot starts =>
    cases h' with
    | @opens q mem' of_slot' starts' =>
      have hr := happart.holds_start mem
      have hq := happart.holds_start mem'
      rw [starts] at hr
      rw [starts'] at hq
      rw [happart.eq_of_holds mem mem' (of_slot.trans of_slot'.symm) hr hq]
    | lives _ _ _ noNext => exact absurd ⟨r, mem, of_slot, starts⟩ noNext
    | unnamed noNext => exact absurd ⟨r, mem, of_slot, starts⟩ noNext
  | @lives r mem of_slot holds noNext =>
    cases h' with
    | @opens q mem' of_slot' starts' =>
      exact absurd ⟨q, mem', of_slot', starts'⟩ noNext
    | lives mem' of_slot' holds' _ =>
      rw [happart.eq_of_holds mem mem' (of_slot.trans of_slot'.symm)
        holds holds']
    | unnamed _ noHere => exact absurd ⟨r, mem, of_slot, holds⟩ noHere
  | unnamed noNext noHere =>
    cases h' with
    | @opens q mem' of_slot' starts' =>
      exact absurd ⟨q, mem', of_slot', starts'⟩ noNext
    | @lives q mem' of_slot' holds' _ =>
      exact absurd ⟨q, mem', of_slot', holds'⟩ noHere
    | unnamed => rfl

/-- The order of the ranges does not matter for what a slot is to hold. -/
theorem Answers.perm {v : Local} (h : t.Answers slot index v)
    (hperm : t'.ranges.Perm t.ranges) : t'.Answers slot index v := by
  have hopens : t'.OpensAt slot (index + 1) → t.OpensAt slot (index + 1) := by
    rintro ⟨r, hr, hstarts⟩
    exact ⟨r, hperm.mem_iff.1 hr, hstarts⟩
  cases h with
  | opens mem of_slot starts =>
    exact .opens (hperm.mem_iff.2 mem) of_slot starts
  | lives mem of_slot holds noNext =>
    exact .lives (hperm.mem_iff.2 mem) of_slot holds (mt hopens noNext)
  | unnamed noNext noHere =>
    refine .unnamed (mt hopens noNext) ?_
    rintro ⟨r, hr, hholds⟩
    exact noHere ⟨r, hperm.mem_iff.1 hr, hholds⟩

/-! ### Look-ups -/

/-- A range is a candidate if it starts at the next instruction or holds this
one. -/
theorem covers_iff (happart : t.Apart) {r : LocalRange} (hr : r ∈ t.ranges) :
    r.covers slot index = true ↔
      r.var.slot = slot ∧ (r.start = index + 1 ∨ r.Holds index) := by
  have hlt := happart.lt hr
  simp only [LocalRange.covers, Bool.and_eq_true, beq_iff_eq, decide_eq_true_eq,
    LocalRange.Holds]
  constructor
  · rintro ⟨⟨hslot, hstart⟩, hstop⟩
    exact ⟨hslot, by omega⟩
  · rintro ⟨hslot, hnext | hholds⟩
    · exact ⟨⟨hslot, Nat.le_of_eq hnext⟩, by omega⟩
    · exact ⟨⟨hslot, by omega⟩, hholds.2⟩

/-- Only of no ranges there is no latest. -/
theorem latest?_eq_none {rs : List LocalRange} (h : latest? rs = none) :
    rs = [] := by
  cases rs with
  | nil => rfl
  | cons r rs =>
    unfold latest? at h
    split at h
    · cases h
    · split at h <;> cases h

/-- **Look-ups.**  A look-up finds the variable that the slot is to hold. -/
theorem answers_lookup (happart : t.Apart) (slot index : Nat) :
    t.Answers slot index (t.lookup slot index) := by
  have candidate {r : LocalRange} : r ∈ t.ranges.filter (·.covers slot index) ↔
      r ∈ t.ranges ∧ r.var.slot = slot ∧
      (r.start = index + 1 ∨ r.Holds index) := by
    rw [List.mem_filter]
    exact and_congr_right fun hr => covers_iff happart hr
  unfold lookup
  cases hlatest : latest? (t.ranges.filter (·.covers slot index)) with
  | none =>
    have hnone : ∀ r, r ∉ t.ranges.filter (·.covers slot index) := by
      rw [latest?_eq_none hlatest]
      exact fun r => List.not_mem_nil
    apply Answers.unnamed
    · rintro ⟨r, hr, hslot, hstarts⟩
      exact hnone r (candidate.2 ⟨hr, hslot, .inl hstarts⟩)
    · rintro ⟨r, hr, hslot, hholds⟩
      exact hnone r (candidate.2 ⟨hr, hslot, .inr hholds⟩)
  | some r =>
    obtain ⟨hr, hslot, hnext | hholds⟩ := candidate.1 (mem_of_latest? hlatest)
    · exact .opens hr hslot hnext
    · -- no candidate starts later than the one chosen
      refine .lives hr hslot hholds ?_
      rintro ⟨q, hq, hqslot, hstarts⟩
      have hle :=
        start_le_of_latest? hlatest (candidate.2 ⟨hq, hqslot, .inl hstarts⟩)
      have hhere := hholds.1
      omega

/-! ### Debug tables -/

/-- A boundary is where its label is. -/
theorem boundary_eq_ok {name : String} {l : Label} {i : Nat} :
    boundary m name l = .ok i ↔ m.labelIndex? l = some i := by
  unfold boundary
  cases m.labelIndex? l <;> simp

/-- A debug table is accepted exactly if each of its lines has a range, and
these are the ranges of the table. -/
theorem ofEntries_eq_ok_iff {es : List LocalEntry} :
    ofEntries m es = .ok t ↔ List.Forall₂ (LocalEntry.Spans m) es t.ranges := by
  induction es generalizing t with
  | nil =>
    obtain ⟨ranges⟩ := t
    simp [ofEntries, empty, eq_comm]
  | cons e es ih =>
    constructor
    · intro h
      obtain ⟨start, hstart, h⟩ := bind_eq_ok.1 h
      obtain ⟨stop, hstop, h⟩ := bind_eq_ok.1 h
      obtain ⟨rest, hrest, h⟩ := bind_eq_ok.1 h
      cases h
      exact .cons ⟨rfl, boundary_eq_ok.1 hstart, boundary_eq_ok.1 hstop⟩
        (ih.1 hrest)
    · intro h
      obtain ⟨ranges⟩ := t
      obtain ⟨⟨var, start, stop⟩, rest, hspans, hrest, rfl⟩ :=
        List.forall₂_cons_left_iff.1 h
      obtain rfl := hspans.var
      have hothers : ofEntries m es = .ok ⟨rest⟩ := ih.2 hrest
      rw [ofEntries, boundary_eq_ok.2 hspans.start,
        boundary_eq_ok.2 hspans.stop, hothers]
      rfl

/-- **Tables without common instructions.**  If the ranges of each slot hold an
instruction and have none in common, a slot holds the variable whose range
starts at the next instruction, or else the one whose range holds this one, or
else one without a name; and the lines may be listed in any order. -/
theorem lookup_of_apart {es : List LocalEntry} (h : ofEntries m es = .ok t)
    (happart : t.Apart) :
    List.Forall₂ (LocalEntry.Spans m) es t.ranges ∧
      (∀ slot index v, t.lookup slot index = v ↔ t.Answers slot index v) ∧
      ∀ es' : List LocalEntry, es'.Perm es →
        ∃ t', ofEntries m es' = .ok t' ∧ t'.lookup = t.lookup := by
  have hspans := ofEntries_eq_ok_iff.1 h
  refine ⟨hspans, fun slot index v => ?_, fun es' hperm => ?_⟩
  · constructor
    · rintro rfl
      exact answers_lookup happart slot index
    · exact (answers_lookup happart slot index).unique happart
  · obtain ⟨ranges', hspans', hranges⟩ := List.perm_comp_forall₂ hperm hspans
    refine ⟨⟨ranges'⟩, ofEntries_eq_ok_iff.2 hspans', ?_⟩
    have happart' : Apart ⟨ranges'⟩ := happart.perm hranges
    funext slot index
    have hanswer : Answers ⟨ranges'⟩ slot index (t.lookup slot index) :=
      (answers_lookup happart slot index).perm hranges
    exact (answers_lookup happart' slot index).unique happart' hanswer

/-- A slot that is used again: at the store in front of the second range the
first one still holds the instruction, and the second variable is meant. -/
theorem lookup_of_apart_reused :
    let m : Method :=
      { instrs := [.nop, .label ⟨0⟩, .nop, .label ⟨1⟩, .nop, .label ⟨2⟩],
        ranges := [] }
    let a : LocalEntry := ⟨1, "a", "I", ⟨0⟩, ⟨1⟩⟩
    let b : LocalEntry := ⟨1, "b", "I", ⟨1⟩, ⟨2⟩⟩
    let t : LocalTable :=
      ⟨[⟨⟨1, "a", some "I"⟩, 1, 3⟩, ⟨⟨1, "b", some "I"⟩, 3, 5⟩]⟩
    ofEntries m [a, b] = .ok t ∧ t.Apart ∧
      (∃ r ∈ t.ranges, r.var.name = "a" ∧ r.Holds 2) ∧
      t.lookup 1 2 = ⟨1, "b", some "I"⟩ ∧
      ∃ t', ofEntries m [b, a] = .ok t' ∧ t'.lookup = t.lookup := by
  intro m a b t
  have hok : ofEntries m [a, b] = .ok t := by decide
  have happart : t.Apart := by
    constructor
    · intro r hr
      refine ⟨r.start, Nat.le_refl _, ?_⟩
      revert r
      decide
    · refine .cons ?_ (List.pairwise_singleton _ _)
      intro q hq _ index hboth
      obtain rfl := List.mem_singleton.1 hq
      obtain ⟨⟨_, hlt⟩, hle, _⟩ := hboth
      exact absurd hlt (Nat.not_lt.2 hle)
  obtain ⟨-, hanswers, hperm⟩ := lookup_of_apart hok happart
  refine ⟨hok, happart, ⟨_, List.mem_cons_self, rfl, by decide, by decide⟩, ?_,
    hperm [b, a] (.swap a b [])⟩
  exact (hanswers 1 2 _).2
    (.opens (List.mem_cons_of_mem _ List.mem_cons_self) rfl rfl)

end LocalTable

end Decompiler
