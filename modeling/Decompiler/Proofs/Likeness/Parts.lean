import Decompiler.Proofs.Likeness.Built

/-!
# Parts that are alike

Two methods that differ in what does nothing are cut at break points of their
own.  If these correspond, so do the parts between them.  How control comes into
a part and leaves it is told by numbers of parts, and two methods may number
their parts in different ways; so these numbers are read through maps.

* `Span.Like`, `Method.Mirrors.cutAt_like`, `Method.Mirrors.cut_like`: parts.
* `Method.exitTo_like`, `Method.entryOf_like`: edges and entries.
* `Method.find?_of_span`: the part after a label.
-/

namespace Decompiler

/-- Two parts that are alike, when their break points correspond. -/
structure Span.Like (m : Method) (φ : Nat → Nat) (R : Nat → Nat → Prop)
    (s s' : Span) :
    Prop where
  breakPoint : R s.breakPoint s'.breakPoint
  start : m.Level φ s.start s'.start
  stop : m.Level φ s.stop s'.stop

/-- Two arms with the same keys, when their targets correspond. -/
structure SwitchArm.Like (S : Nat → Nat → Prop) (a a' : SwitchArm) : Prop where
  keys : a'.keys = a.keys
  target : S a.target a'.target

namespace Method

variable {m m' : Method} {φ : Nat → Nat}

/-! ## Cutting -/

/-- The parts that end at the break points. -/
def cutAt (m : Method) : (start : Nat) → List Nat → List Span
  | _, [] => []
  | start, b :: bs => ⟨b, start, m.bodyStop b⟩ :: m.cutAt (b + 1) bs

/-- Where the instructions go on behind the last break point. -/
def after : (start : Nat) → List Nat → Nat
  | start, [] => start
  | _, b :: bs => after (b + 1) bs

/-- Cutting at some breaks and then at others. -/
theorem cut_append (m : Method) (start : Nat) (bs cs : List Nat) :
    m.cut start (bs ++ cs) = m.cutAt start bs ++ m.cut (after start bs) cs := by
  induction bs generalizing start with
  | nil => rfl
  | cons b bs ih => exact congrArg _ (ih (b + 1))

/-- Each part of a cut has its break as break point. -/
theorem map_breakPoint_cutAt (m : Method) (start : Nat) (bs : List Nat) :
    (m.cutAt start bs).map (·.breakPoint) = bs := by
  induction bs generalizing start with
  | nil => rfl
  | cons b bs ih => exact congrArg _ (ih (b + 1))

/-- The parts of a whole cut have the breaks as break points, and maybe the
end. -/
theorem map_breakPoint_cut (m : Method) (start : Nat) (bs : List Nat) :
    ∃ rest, (m.cut start bs).map (·.breakPoint) = bs ++ rest ∧
      (rest = [] ∨ rest = [m.length]) := by
  have hsplit := m.cut_append start bs []
  rw [List.append_nil] at hsplit
  refine ⟨_, by rw [hsplit, List.map_append, map_breakPoint_cutAt], ?_⟩
  rw [cut]
  split
  · exact .inr rfl
  · exact .inl rfl

/-- Parts start where the one before has ended. -/
theorem le_of_mem_cutAt {start : Nat} {bs : List Nat} {s : Span}
    (hsorted : (start :: bs.map (· + 1)).Pairwise (· < ·))
    (hs : s ∈ m.cutAt start bs) :
    start ≤ s.start ∧ s.start ≤ s.breakPoint ∧ s.breakPoint ∈ bs := by
  induction bs generalizing start with
  | nil => cases hs
  | cons b bs ih =>
    obtain ⟨hfirst, hrest⟩ := List.pairwise_cons.1 hsorted
    have hb : start < b + 1 := hfirst (b + 1) List.mem_cons_self
    rcases List.mem_cons.1 hs with rfl | hs
    · exact ⟨Nat.le_refl _, Nat.le_of_lt_succ hb, List.mem_cons_self⟩
    · obtain ⟨hstart, hle, hmem⟩ := ih hrest hs
      exact ⟨Nat.le_trans (Nat.le_of_lt hb) hstart, hle,
        List.mem_cons_of_mem _ hmem⟩

namespace Mirrors

variable {R : Nat → Nat → Prop} {start start' : Nat} {bs bs' : List Nat}

/-- A part that stops at an instruction stops level with it. -/
theorem level_bodyStop (h : m.Mirrors m' φ) (b : Nat) :
    m.Level φ (m.bodyStop b) (m'.bodyStop (φ b)) := by
  rw [bodyStop, bodyStop, Instr.control_eq_of_bare (h.bare b)]
  split
  · exact h.level_succ b
  · exact h.level_succ b
  · exact h.level b

variable (hR : ∀ b b', R b b' →
  m.Level φ (b + 1) (b' + 1) ∧ m.Level φ (m.bodyStop b) (m'.bodyStop b'))
include hR

/-- Break points that correspond cut parts that are alike. -/
theorem cutAt_like (hbs : List.Forall₂ R bs bs')
    (hstart : m.Level φ start start') :
    List.Forall₂ (Span.Like m φ R) (m.cutAt start bs) (m'.cutAt start' bs') ∧
      m.Level φ (after start bs) (after start' bs') := by
  induction hbs generalizing start start' with
  | nil => exact ⟨.nil, hstart⟩
  | cons head _ ih =>
    obtain ⟨hparts, hafter⟩ := ih (hR _ _ head).1
    exact ⟨.cons ⟨head, hstart, (hR _ _ head).2⟩ hparts, hafter⟩

/-- Methods that mirror each other are cut into like spans. -/
theorem cut_like (h : m.Mirrors m' φ) (hlength : R m.length m'.length)
    (hbs : List.Forall₂ R bs bs') (hstart : m.Level φ start start') :
    List.Forall₂ (Span.Like m φ R) (m.cut start bs) (m'.cut start' bs') := by
  obtain ⟨hparts, hafter⟩ := cutAt_like hR hbs hstart
  have hsplit := m.cut_append start bs []
  have hsplit' := m'.cut_append start' bs' []
  rw [List.append_nil] at hsplit hsplit'
  rw [hsplit, hsplit']
  refine List.rel_append hparts ?_
  rw [cut, cut, h.acts_eq hafter h.level_length]
  split
  · exact .cons ⟨hlength, hafter, h.level_length⟩ .nil
  · exact .nil

end Mirrors

/-! ## The part after a label -/

/-- The breaks of a method are its breaks from the start on. -/
theorem breaksFrom_breaks (m : Method) : m.BreaksFrom m.ends 0 m.breaks :=
  ⟨m.pairwise_breaks, fun _ => by simp [mem_breaks]⟩

/-- No two parts end at one break point. -/
theorem eq_of_getElem?_spans {n k : Nat} {s s' : Span}
    (hs : m.spans[n]? = some s) (hs' : m.spans[k]? = some s')
    (h : s.breakPoint = s'.breakPoint) : n = k := by
  obtain ⟨rest, hmap, hrest⟩ := m.map_breakPoint_cut 0 m.breaks
  have hnodup : (m.spans.map (·.breakPoint)).Nodup := by
    rw [spans, hmap]
    refine List.Nodup.append (m.pairwise_breaks.imp Nat.ne_of_lt)
      ?_ fun b hb hrest' => ?_
    · rcases hrest with rfl | rfl <;> simp
    · have hlt := (mem_breaks.1 hb).1
      rcases hrest with rfl | rfl
      · cases hrest'
      · exact absurd (List.mem_singleton.1 hrest') (Nat.ne_of_lt hlt)
  have hn : (m.spans.map (·.breakPoint))[n]? = some s.breakPoint := by simp [hs]
  have hk : (m.spans.map (·.breakPoint))[k]? = some s.breakPoint := by
    simp [hs', h]
  obtain ⟨hlt, hn⟩ := List.getElem?_eq_some_iff.1 hn
  obtain ⟨hlt', hk⟩ := List.getElem?_eq_some_iff.1 hk
  exact (hnodup.getElem_inj_iff).1 (hn.trans hk.symm)

/-- A label without a place starts no block. -/
theorem find?_eq_none {l : Label} (h : m.labelIndex? l = none) :
    m.find? l = none :=
  Option.eq_none_iff_forall_ne_some.2 fun t ht => by
    obtain ⟨_, _, _, _, _, hl⟩ := span_of_find? ht
    cases h.symm.trans hl

/-- Where a part ends at a label, the next one is found for it, if there is
one. -/
theorem find?_of_span {n : Nat} {s : Span} {l : Label}
    (hs : m.spans[n]? = some s) (hl : m.labelIndex? l = some s.breakPoint) :
    m.find? l = if n + 1 < m.spans.length then some (n + 1) else none := by
  have hlabel := label?_instr_of_labelIndex? hl
  have hfound {t : Nat} (ht : m.find? l = some t) : t = n + 1 ∧
      n + 1 < m.spans.length := by
    obtain ⟨k, s', rfl, hlt, hs', hl'⟩ := span_of_find? ht
    obtain rfl :=
      eq_of_getElem?_spans hs hs' (Option.some.inj (hl.symm.trans hl'))
    exact ⟨rfl, hlt⟩
  split
  · rename_i hlt
    have hmem : (l, n + 1) ∈ m.spanLabels m.spans := by
      refine List.mem_filterMap.2
        ⟨(s, n), List.mem_zipIdx_iff_getElem?.2 hs, ?_⟩
      simp only [hlabel, if_pos hlt]
    obtain ⟨t, ht⟩ := Option.isSome_iff_exists.1
      (List.lookup_isSome_iff.2 ⟨(l, n + 1), hmem, beq_self_eq_true l⟩)
    exact (hfound ht).1 ▸ ht
  · rename_i hge
    exact Option.eq_none_iff_forall_ne_some.2 fun t ht => hge (hfound ht).2

/-! ## Exits -/

section Arms

variable {S : Nat → Nat → Prop}

/-- A key joins the same arm, if targets are related one to one. -/
theorem addKey_like (hS : ∀ t t' u u', S t t' → S u u' → (t = u ↔ t' = u'))
    {as as' : List SwitchArm} (h : List.Forall₂ (SwitchArm.Like S) as as')
    (key : Int32) {t t' : Nat} (ht : S t t') :
    List.Forall₂ (SwitchArm.Like S) (addKey key t as) (addKey key t' as') := by
  induction h with
  | nil => exact .cons ⟨rfl, ht⟩ .nil
  | cons head rest ih =>
    rw [addKey, addKey]
    simp only [hS _ _ _ _ head.target ht]
    split
    · exact .cons ⟨congrArg (· ++ [key]) head.keys, head.target⟩ rest
    · exact .cons head ih

/-- Like keys are added to like arms, one after the other. -/
theorem foldl_addKey_like
    (hS : ∀ t t' u u', S t t' → S u u' → (t = u ↔ t' = u'))
    {pairs pairs' : List (Int32 × Nat)}
    (h : List.Forall₂ (fun x y => y.1 = x.1 ∧ S x.2 y.2) pairs pairs')
    {as as' : List SwitchArm} (has : List.Forall₂ (SwitchArm.Like S) as as') :
    List.Forall₂ (SwitchArm.Like S)
      (pairs.foldl (fun as (key, target) => addKey key target as) as)
      (pairs'.foldl (fun as (key, target) => addKey key target as) as') := by
  induction h generalizing as as' with
  | nil => exact has
  | @cons x y _ _ head _ ih =>
    obtain ⟨key, t⟩ := x
    obtain ⟨key', t'⟩ := y
    obtain ⟨rfl, ht⟩ : key' = key ∧ S t t' := head
    exact ih (addKey_like hS has key' ht)

/-- Like keys make up like arms. -/
theorem arms_like (hS : ∀ t t' u u', S t t' → S u u' → (t = u ↔ t' = u'))
    {pairs pairs' : List (Int32 × Nat)}
    (h : List.Forall₂ (fun x y => y.1 = x.1 ∧ S x.2 y.2) pairs pairs') :
    List.Forall₂ (SwitchArm.Like S) (arms pairs) (arms pairs') :=
  foldl_addKey_like hS h .nil

end Arms

/-- The pairs of a switch, when the targets of its keys are grouped in the same
way. -/
theorem arms_zip_like {f f' : Nat → Nat} {keys keys' : List Int32}
    {targets targets' : List Nat} (hkeys : keys' = keys)
    (htargets : targets'.map f' = targets.map f)
    (hgroups : ∀ n < keys.length, ∀ k < keys.length,
      (targets[n]? = targets[k]? ↔ targets'[n]? = targets'[k]?)) :
    (arms (keys'.zip targets')).map
      (fun a => { a with target := f' a.target }) =
      (arms (keys.zip targets)).map fun a =>
        { a with target := f a.target } := by
  subst hkeys
  let S (t t' : Nat) : Prop :=
    ∃ n < keys'.length, targets[n]? = some t ∧ targets'[n]? = some t'
  have hlength : targets'.length = targets.length := by
    simpa using congrArg List.length htargets
  have hS (t t' u u' : Nat) : S t t' → S u u' → (t = u ↔ t' = u') := by
    rintro ⟨n, hn, ht, ht'⟩ ⟨k, hk, hu, hu'⟩
    have hiff := hgroups n hn k hk
    rw [ht, hu, ht', hu'] at hiff
    simpa using hiff
  have hread {t t' : Nat} : S t t' → f' t' = f t := by
    rintro ⟨n, _, ht, ht'⟩
    have hget := congrArg (·[n]?) htargets
    simpa [List.getElem?_map, ht, ht'] using hget
  have hpairs : List.Forall₂ (fun x y => y.1 = x.1 ∧ S x.2 y.2)
      (keys'.zip targets) (keys'.zip targets') := by
    refine List.forall₂_iff_get.2 ⟨by simp [hlength], fun n hn hn' => ?_⟩
    simp only [List.length_zip, lt_min_iff] at hn hn'
    simp only [List.get_eq_getElem, List.getElem_zip, true_and]
    exact ⟨n, hn.1, List.getElem?_eq_getElem hn.2,
      List.getElem?_eq_getElem hn'.2⟩
  have harms := arms_like hS hpairs
  generalize arms (keys'.zip targets) = as,
    arms (keys'.zip targets') = as' at harms
  induction harms with
  | nil => rfl
  | @cons a a' _ _ head _ ih =>
    rw [List.map_cons, List.map_cons, ih, head.keys, hread head.target]

/-- **Edges are the same**, read through two maps of numbers, if targets are and
the keys of a switch are grouped in the same way. -/
theorem exitTo_like {f f' : Nat → Nat} {i i' : Instr} {next next' : Option Nat}
    {targets targets' : List Nat} (hbare : i'.bare = i.bare)
    (hnext : next'.map f' = next.map f)
    (htargets : targets'.map f' = targets.map f)
    (hgroups : ∀ keys, i.switchKeys? = some keys → ∀ n < keys.length,
      ∀ k < keys.length,
        (targets[n]? = targets[k]? ↔ targets'[n]? = targets'[k]?)) :
    (exitTo i' next' targets').mapTargets f' =
      (exitTo i next targets).mapTargets f := by
  have hfalls :
      (Exit.falls next').mapTargets f' = (Exit.falls next).mapTargets f :=
    congrArg Exit.falls hnext
  unfold exitTo
  rw [Instr.control_eq_of_bare hbare]
  cases i.control with
  | plain | marker => exact hfalls
  | ret | throw => rfl
  | jump =>
    cases targets with
    | nil =>
      obtain rfl := List.map_eq_nil_iff.1 htargets
      exact hfalls
    | cons t ts =>
      obtain ⟨t', ts', rfl, ht, _⟩ := List.map_eq_cons_iff.1 htargets
      exact congrArg Exit.jumps ht
  | branch =>
    cases targets with
    | nil =>
      obtain rfl := List.map_eq_nil_iff.1 htargets
      exact hfalls
    | cons t ts =>
      obtain ⟨t', ts', rfl, ht, _⟩ := List.map_eq_cons_iff.1 htargets
      exact congrArg₂ Exit.branches ht hnext
  | switch =>
    have hlast : targets'.getLast?.map f' = targets.getLast?.map f := by
      rw [← List.getLast?_map, ← List.getLast?_map, htargets]
    have hkeys := Instr.switchKeys?_eq_of_bare hbare
    rw [Instr.switchKeys?, Instr.switchKeys?] at hkeys
    cases htable : i.switchTable? with
    | none =>
      rw [htable, Option.map_none, Option.map_eq_none_iff] at hkeys
      rw [hkeys]
      exact hfalls
    | some table =>
      rw [htable] at hkeys
      obtain ⟨table', htable', hkeys⟩ := Option.map_eq_some_iff.1 hkeys
      rw [htable']
      cases hdefault : targets.getLast? with
      | none =>
        rw [hdefault, Option.map_none, Option.map_eq_none_iff] at hlast
        rw [hlast]
        exact hfalls
      | some default =>
        rw [hdefault] at hlast
        obtain ⟨default', hdefault', hlast⟩ := Option.map_eq_some_iff.1 hlast
        rw [hdefault']
        have hgroups :=
          hgroups _ (by rw [Instr.switchKeys?, htable, Option.map_some])
        exact congrArg₂ Exit.selects (arms_zip_like hkeys htargets hgroups)
          hlast

/-! ## Entries -/

/-- Where no exception is handled, control comes in from other parts only. -/
theorem entryOf_eq_plain {find : Label → Option Nat} {id : Nat}
    (h : ∀ r ∈ m.ranges, find r.handler ≠ some id) :
    m.entryOf find id = .plain := by
  have hnone : m.ranges.filter (fun r => find r.handler == some id) = [] :=
    List.filter_eq_nil_iff.2 fun r hr => by simpa using h r hr
  rw [entryOf, hnone]
  rfl

/-- **Control comes in alike**, if ranges that correspond have their handlers at
the two parts or elsewhere. -/
theorem entryOf_like {find find' : Label → Option Nat} {id id' : Nat}
    (h : List.Forall₂ (fun r r' : ExceptionRange => r'.type = r.type ∧
      (find' r'.handler = some id' ↔ find r.handler = some id)) m.ranges
        m'.ranges) :
    m'.entryOf find' id' = m.entryOf find id := by
  have htypes : (m'.ranges.filter fun r => find' r.handler == some id').map
      (·.type) =
      (m.ranges.filter fun r => find r.handler == some id).map (·.type) := by
    generalize m.ranges = rs, m'.ranges = rs' at h
    induction h with
    | nil => rfl
    | @cons r r' _ _ head _ ih =>
      obtain ⟨htype, hfind⟩ := head
      by_cases hr : find r.handler = some id
      · rw [List.filter_cons_of_pos (by simpa using hfind.2 hr),
          List.filter_cons_of_pos (by simpa using hr), List.map_cons,
          List.map_cons, ih, htype]
      · rw [List.filter_cons_of_neg (by simpa using mt hfind.1 hr),
          List.filter_cons_of_neg (by simpa using hr), ih]
  have hlast := congrArg List.getLast? htypes
  rw [List.getLast?_map, List.getLast?_map] at hlast
  rw [entryOf, entryOf]
  cases hr : (m.ranges.filter fun r => find r.handler == some id).getLast? with
  | none =>
    rw [hr, Option.map_none, Option.map_eq_none_iff] at hlast
    rw [hlast]
  | some r =>
    rw [hr] at hlast
    obtain ⟨r', hr', htype⟩ := Option.map_eq_some_iff.1 hlast
    rw [hr']
    exact congrArg Entry.handler htype

end Method

end Decompiler
