import Decompiler.Proofs.Likeness.Points
import Decompiler.Proofs.Lists

/-!
# One label for another

Nothing happens between two labels that only labels and debug markers separate.
If a method refers to one of them where another method refers to the other, the
two may be cut at different labels at that point; elsewhere they are cut at the
same instructions, and the parts before and behind the point are alike.

* `Method.Swaps`: two methods that refer to one label or the other.
* `Method.Moved`: break points that correspond.
* `Method.Swaps.partsBefore_like`, `Method.Swaps.partsBehind_like`: the parts of
  the two methods.
-/

namespace Decompiler

/-- Only a label is read as one. -/
theorem Instr.eq_label_of_label? {i : Instr} {l : Label}
    (h : i.label? = some l) : i = .label l := by
  cases i with
  | label =>
    cases h
    rfl
  | _ => cases h

/-! ## One label for the other -/

/-- The second label stands for the first one: it is the same, or both are among
two given labels. -/
def Label.Swaps (a b l l' : Label) : Prop :=
  l' = l ∨ (l = a ∨ l = b) ∧ (l' = a ∨ l' = b)

/-- Swapping two labels works both ways. -/
theorem Label.Swaps.symm {a b l l' : Label} (h : Swaps a b l l') :
    Swaps a b l' l :=
  h.imp Eq.symm And.symm

/-- The same instruction with labels that stand for its labels. -/
structure Instr.Redirected (sim : Label → Label → Prop) (i i' : Instr) :
    Prop where
  bare : i'.bare = i.bare
  label : i'.label? = i.label?
  destinations : List.Forall₂ sim i.destinations i'.destinations

/-- An instruction is redirected to itself. -/
theorem Instr.Redirected.refl {a b : Label} (i : Instr) :
    i.Redirected (Label.Swaps a b) i :=
  ⟨rfl, rfl, List.forall₂_same.2 fun _ _ => .inl rfl⟩

/-- Two keys of a switch have one label in both instructions, or in none. -/
def Instr.GroupsLike (i i' : Instr) : Prop :=
  ∀ keys, i.switchKeys? = some keys → ∀ n < keys.length, ∀ k < keys.length,
    (i.destinations[n]? = i.destinations[k]? ↔
      i'.destinations[n]? = i'.destinations[k]?)

/-! ## Two methods -/

namespace Method

/-- Nothing happens from one label to another, and wherever the one method
refers to one of them, the other method refers to one of them. -/
structure Swaps (m m' : Method) (a b : Label) (p q : Nat) : Prop where
  first : m.labelIndex? a = some p
  last : m.labelIndex? b = some q
  le : p ≤ q
  idle : m.acts p q = false
  instrs : List.Forall₂ (Instr.Redirected (Label.Swaps a b)) m.instrs m'.instrs
  ranges : List.Forall₂ (ExceptionRange.Like (Label.Swaps a b)) m.ranges
    m'.ranges

namespace Swaps

variable {m m' : Method} {a b : Label} {p q : Nat} (h : m.Swaps m' a b p q)
include h

/-- Swapping two labels keeps the length. -/
theorem length_eq : m'.length = m.length := h.instrs.length_eq.symm

/-- The instructions at a position differ in swapped labels only. -/
theorem instr (i : Nat) :
    (m.instr i).Redirected (Label.Swaps a b) (m'.instr i) :=
  forall₂_getD h.instrs ⟨rfl, rfl, .nil⟩ i

/-- The labels themselves stay. -/
theorem labelIndex?_eq : m'.labelIndex? = m.labelIndex? := by
  have hinstrs := h.instrs
  funext l
  rw [labelIndex?, labelIndex?]
  generalize m.instrs = is, m'.instrs = is' at hinstrs
  induction hinstrs with
  | nil => rfl
  | cons head _ ih =>
    rw [List.findIdx?_cons, List.findIdx?_cons, head.label, ih]

/-- Nothing moves. -/
theorem mirrors : m.Mirrors m' id where
  mono := strictMono_id
  inside i := by rw [h.length_eq]; rfl
  bare i := (h.instr i).bare
  onto j _ _ := ⟨j, rfl⟩

/-- Swapping two labels twice gives the method back. -/
theorem symm : m'.Swaps m a b p q where
  first := h.labelIndex?_eq.symm ▸ h.first
  last := h.labelIndex?_eq.symm ▸ h.last
  le := h.le
  idle :=
    (h.mirrors.acts_eq (h.mirrors.level p) (h.mirrors.level q)).trans h.idle
  instrs := h.instrs.flip.imp fun _ _ hi =>
    ⟨hi.bare.symm, hi.label.symm, hi.destinations.flip.imp fun _ _ =>
      Label.Swaps.symm⟩
  ranges := h.ranges.flip.imp fun _ _ hr =>
    ⟨hr.type.symm, hr.start.symm, hr.stop.symm, hr.handler.symm⟩

/-- The second label is inside the method. -/
theorem lt_length : q < m.length := lt_length_of_instr rfl fun hnop => by
  have hlabel := label?_instr_of_labelIndex? h.last
  rw [hnop] at hlabel
  cases hlabel

/-- From the one label to the other there are only labels and markers. -/
theorem isMarker {k : Nat} (hp : p ≤ k) (hq : k ≤ q) :
    (m.instr k).isMarker = true := by
  rcases Nat.lt_or_eq_of_le hq with hlt | rfl
  · exact acts_eq_false_iff.1 h.idle k hp hlt (Nat.lt_trans hlt h.lt_length)
  · rw [Instr.eq_label_of_label? (label?_instr_of_labelIndex? h.last)]
    rfl

/-- Positions at the point are level. -/
theorem level {k k' : Nat} (hp : p ≤ k) (hq : k ≤ q + 1) (hp' : p ≤ k')
    (hq' : k' ≤ q + 1) :
    m.Level id k k' := fun i _ hacts => by
  have hout : i < p ∨ q < i := by
    by_contra hin
    rw [h.isMarker (by omega) (by omega)] at hacts
    cases hacts
  change k ≤ i ↔ k' ≤ i
  omega

/-- The labels that are referred to correspond. -/
theorem targets : List.Forall₂ (Label.Swaps a b) m.targets m'.targets :=
  List.rel_flatMap h.instrs fun _ _ hi => hi.destinations

/-- The boundaries of the ranges differ in swapped labels only. -/
theorem boundaries :
    List.Forall₂ (Label.Swaps a b) m.boundaries m'.boundaries :=
  List.rel_flatMap h.ranges fun _ _ hr =>
    .cons hr.start (.cons hr.stop (.cons hr.handler .nil))

/-- The labels referred to differ in swapped ones only. -/
theorem referred : List.Forall₂ (Label.Swaps a b) m.referred m'.referred :=
  List.rel_append h.targets h.boundaries

/-- A label at the point stands for a label at the point, and one elsewhere for
itself. -/
theorem at_point {l l' : Label} (hl : Label.Swaps a b l l') :
    l' = l ∨ ∃ k k', m.labelIndex? l = some k ∧ m.labelIndex? l' = some k' ∧
      (p ≤ k ∧ k ≤ q) ∧ p ≤ k' ∧ k' ≤ q := by
  have hle := h.le
  refine hl.imp_right fun ⟨hone, hother⟩ => ?_
  have hfound {l : Label} : l = a ∨ l = b → ∃ k, m.labelIndex? l = some k ∧
      p ≤ k ∧ k ≤ q := by
    rintro (rfl | rfl)
    · exact ⟨p, h.first, Nat.le_refl p, hle⟩
    · exact ⟨q, h.last, hle, Nat.le_refl q⟩
  obtain ⟨k, hk, hin⟩ := hfound hone
  obtain ⟨k', hk', hin'⟩ := hfound hother
  exact ⟨k, k', hk, hk', hin, hin'⟩

/-- What ends a block at the point is a label that is referred to. -/
theorem exists_label {k : Nat} (hp : p ≤ k) (hq : k ≤ q)
    (hends : m.ends k = true) : ∃ l ∈ m.referred, m.labelIndex? l = some k := by
  refine (ends_iff.1 hends).resolve_left fun hblock => ?_
  have hmarker : (m.instr k).control = .marker := eq_of_beq (h.isMarker hp hq)
  rw [Instr.endsBlock, hmarker] at hblock
  cases hblock

/-- Elsewhere the same ends a block. -/
theorem ends_of_ends {k : Nat} (hk : k < p ∨ q < k) (hends : m.ends k = true) :
    m'.ends k = true := by
  refine ends_iff.2 ((ends_iff.1 hends).imp (fun hblock => ?_) fun ⟨l, hl, hindex⟩ => ?_)
  · exact (Instr.endsBlock_eq_of_bare (h.instr k).bare).trans hblock
  · obtain ⟨l', hl', hswap⟩ := exists_of_forall₂ h.referred hl
    rcases h.at_point hswap with rfl | ⟨i, _, hi, _, hin, _⟩
    · exact ⟨l', hl', h.labelIndex?_eq ▸ hindex⟩
    · cases hindex.symm.trans hi
      omega

/-- Outside the two labels, blocks end at the same positions. -/
theorem ends_eq {k : Nat} (hk : k < p ∨ q < k) : m'.ends k = m.ends k :=
  Bool.eq_iff_iff.2 ⟨h.symm.ends_of_ends hk, h.ends_of_ends hk⟩

/-- If a block ends at the point in one method, one does so in the other. -/
theorem exists_ends {k : Nat} (hp : p ≤ k) (hq : k ≤ q)
    (hends : m.ends k = true) : ∃ k', p ≤ k' ∧ k' ≤ q ∧ m'.ends k' = true := by
  obtain ⟨l, hl, hk⟩ := h.exists_label hp hq hends
  obtain ⟨l', hl', hswap⟩ := exists_of_forall₂ h.referred hl
  obtain ⟨k', hk', hp', hq'⟩ : ∃ k', m.labelIndex? l' = some k' ∧ p ≤ k' ∧
      k' ≤ q := by
    rcases h.at_point hswap with rfl | ⟨_, k', _, hk', _, hin'⟩
    · exact ⟨k, hk, hp, hq⟩
    · exact ⟨k', hk', hin'⟩
  exact ⟨k', hp', hq', ends_iff.2 (.inr ⟨l', hl', h.labelIndex?_eq ▸ hk'⟩)⟩

end Swaps

/-! ## The parts of two methods -/

/-- Break points that correspond: one elsewhere to itself, and one at the point
to one there. -/
inductive Moved (m m' : Method) (p q : Nat) : Nat → Nat → Prop
  | outside {k : Nat} (hk : k < p ∨ q < k) : Moved m m' p q k k
  | inside {k k' : Nat} (hp : p ≤ k) (hq : k ≤ q) (hp' : p ≤ k') (hq' : k' ≤ q)
    (hends : m.ends k = true) (hends' : m'.ends k' = true) : Moved m m' p q k k'

/-- Outside the two labels, positions do not move. -/
theorem Moved.eq_of_outside {m m' : Method} {p q k k' : Nat}
    (h : Moved m m' p q k k') (hout : ¬ (p ≤ k ∧ k ≤ q)) : k' = k := by
  cases h with
  | outside => rfl
  | inside hp hq => exact absurd ⟨hp, hq⟩ hout

namespace Swaps

variable {m m' : Method} {a b : Label} {p q : Nat} (h : m.Swaps m' a b p q)
include h

/-- A break point at the point is a label. -/
theorem instr_eq_label {k : Nat} (hp : p ≤ k) (hq : k ≤ q)
    (hends : m.ends k = true) : ∃ l, m.instr k = .label l := by
  obtain ⟨l, _, hk⟩ := h.exists_label hp hq hends
  exact ⟨l, Instr.eq_label_of_label? (label?_instr_of_labelIndex? hk)⟩

/-- Between the two labels there is nothing but labels. -/
theorem bodyStop_eq {k : Nat} (hp : p ≤ k) (hq : k ≤ q) : m.bodyStop k = k := by
  rw [bodyStop,
    show (m.instr k).control = .marker from eq_of_beq (h.isMarker hp hq)]

/-- Break points that correspond are followed by positions that are level. -/
theorem level_of_moved {k k' : Nat} (hk : Moved m m' p q k k') :
    m.Level id (k + 1) (k' + 1) ∧
      m.Level id (m.bodyStop k) (m'.bodyStop k') := by
  cases hk with
  | outside => exact ⟨h.mirrors.level_succ k, h.mirrors.level_bodyStop k⟩
  | inside hp hq hp' hq' =>
    rw [h.bodyStop_eq hp hq, h.symm.bodyStop_eq hp' hq']
    exact ⟨h.level (by omega) (by omega) (by omega) (by omega),
      h.level hp (by omega) hp' (by omega)⟩

/-- Instructions at moved positions differ in labels only. -/
theorem bare_of_moved {k k' : Nat} (hk : Moved m m' p q k k') :
    (m'.instr k').bare = (m.instr k).bare := by
  cases hk with
  | outside => exact (h.instr k).bare
  | inside hp hq hp' hq' hends hends' =>
    obtain ⟨_, hl⟩ := h.instr_eq_label hp hq hends
    obtain ⟨_, hl'⟩ := h.symm.instr_eq_label hp' hq' hends'
    rw [hl, hl']
    rfl

/-- Break points that correspond go to labels that correspond. -/
theorem destinations_of_moved {k k' : Nat} (hk : Moved m m' p q k k') :
    List.Forall₂ (Label.Swaps a b) (m.instr k).destinations
      (m'.instr k').destinations := by
  cases hk with
  | outside => exact (h.instr k).destinations
  | inside hp hq hp' hq' hends hends' =>
    obtain ⟨_, hl⟩ := h.instr_eq_label hp hq hends
    obtain ⟨_, hl'⟩ := h.symm.instr_eq_label hp' hq' hends'
    rw [hl, hl']
    exact .nil

/-- The keys of a switch are grouped alike. -/
theorem groups_of_moved
    (hgroups : List.Forall₂ Instr.GroupsLike m.instrs m'.instrs) {k k' : Nat}
    (hk : Moved m m' p q k k') : (m.instr k).GroupsLike (m'.instr k') := by
  cases hk with
  | outside => exact forall₂_getD hgroups (fun _ hkeys => by cases hkeys) k
  | inside hp hq _ _ hends _ =>
    obtain ⟨_, hl⟩ := h.instr_eq_label hp hq hends
    rw [hl]
    intro keys hkeys
    cases hkeys

/-- Break points elsewhere stay. -/
theorem moved_breaksIn {start stop : Nat} (hout : stop ≤ p ∨ q < start) :
    List.Forall₂ (Moved m m' p q) (m.breaksIn start stop)
      (m'.breaksIn start stop) := by
  have hsame : m'.breaksIn start stop = m.breaksIn start stop :=
    List.filter_congr fun k hk => by
      have hrange := List.mem_range'_1.1 hk
      exact h.ends_eq (by omega)
  rw [hsame, List.forall₂_same]
  intro k hk
  have hin := mem_breaksIn.1 hk
  exact .outside (by omega)

/-- The first break points at the point correspond. -/
theorem moved_take :
    List.Forall₂ (Moved m m' p q) ((m.breaksIn p (q + 1)).take 1)
    ((m'.breaksIn p (q + 1)).take 1) := by
  have hnone {m m' : Method} (h : m.Swaps m' a b p q)
      (hnil : m'.breaksIn p (q + 1) = []) :
      m.breaksIn p (q + 1) = [] :=
        List.eq_nil_iff_forall_not_mem.2 fun k hk => by
    obtain ⟨hp, hq, hends⟩ := mem_breaksIn.1 hk
    obtain ⟨k', hp', hq', hends'⟩ :=
      h.exists_ends hp (Nat.le_of_lt_succ hq) hends
    exact absurd
      (hnil ▸ mem_breaksIn.2 ⟨hp', Nat.lt_succ_of_le hq', hends'⟩ : k' ∈ [])
      List.not_mem_nil
  rcases hxs : m.breaksIn p (q + 1) with _ | ⟨x, xs⟩
  · rw [hnone h.symm hxs]
    exact .nil
  rcases hys : m'.breaksIn p (q + 1) with _ | ⟨y, ys⟩
  · rw [hnone h hys] at hxs
    cases hxs
  obtain ⟨hp, hq, hends⟩ :=
    mem_breaksIn.1 (hxs ▸ List.mem_cons_self : x ∈ m.breaksIn p (q + 1))
  obtain ⟨hp', hq', hends'⟩ :=
    mem_breaksIn.1 (hys ▸ List.mem_cons_self : y ∈ m'.breaksIn p (q + 1))
  exact .cons (.inside hp (Nat.le_of_lt_succ hq) hp' (Nat.le_of_lt_succ hq') hends hends') .nil

/-- The breaks up to the two labels are moved ones. -/
theorem moved_upTo : List.Forall₂ (Moved m m' p q) (m.upTo p q) (m'.upTo p q) :=
  List.rel_append (h.moved_breaksIn (.inl (Nat.le_refl p))) h.moved_take

/-- **The parts before the point are alike.** -/
theorem partsBefore_like :
    List.Forall₂ (Span.Like m id (Moved m m' p q)) (m.partsBefore p q)
      (m'.partsBefore p q) :=
  (Mirrors.cutAt_like (fun _ _ => h.level_of_moved) h.moved_upTo
    Mirrors.level_zero).1

/-- **The parts behind the point are alike.** -/
theorem partsBehind_like :
    List.Forall₂ (Span.Like m id (Moved m m' p q)) (m.partsBehind p q)
      (m'.partsBehind p q) := by
  refine Mirrors.cut_like (fun _ _ => h.level_of_moved) h.mirrors ?_ ?_ ?_
  · rw [h.length_eq]
    exact .outside (.inr h.lt_length)
  · rw [h.length_eq]
    exact h.moved_breaksIn (.inr (Nat.lt_succ_self q))
  · have hupTo := (Mirrors.cutAt_like (fun _ _ => h.level_of_moved) h.moved_upTo
      Mirrors.level_zero).2
    have htake := h.moved_take
    rcases hxs : m.breaksIn p (q + 1) with _ | ⟨x, xs⟩
    · rcases hys : m'.breaksIn p (q + 1) with _ | ⟨y, ys⟩
      · exact hupTo
      · rw [hxs, hys] at htake
        cases htake
    · rcases hys : m'.breaksIn p (q + 1) with _ | ⟨y, ys⟩
      · rw [hxs, hys] at htake
        cases htake
      · obtain ⟨hp, hq⟩ := after_breaksIn hxs
        obtain ⟨hp', hq'⟩ := after_breaksIn hys
        rw [after_upTo hxs, after_upTo hys]
        exact h.level hp hq hp' hq'

end Swaps

end Method

end Decompiler
