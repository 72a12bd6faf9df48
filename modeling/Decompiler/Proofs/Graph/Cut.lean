import Decompiler.Graph.Build
import Decompiler.Proofs.Calls.Stretch

/-!
# Blocks of call code

A block of call code is a stretch and the instruction that ends it: a jump, a
test with its jump, or a return.  Its edges lead where the instruction goes:
up to labels, the code there is the code of the block that the edge names.

* `Graph.Reaches`: nothing but labels stands between an instruction and a
  block, or the end of the code.
* `Cut`: a block is a stretch with its ending, and its edges are right.
* `MadeFrom.cut`: every block of a graph that is built is cut like that.
-/

namespace Decompiler

variable {m : Method} {g g' : Graph}

/-- Only labels stand between an instruction and a block; without a block,
between the instruction and the end of the code. -/
def Graph.Reaches (g : Graph) (m : Method) (i : Nat) : Option Nat → Prop
  | some t =>
    t < g.blocks.length ∧ i ≤ (g.block t).start ∧
    m.acts i (g.block t).start = false
  | none => m.acts i m.length = false

/-- A block is a stretch with its ending, and its edges lead where the ending
goes. -/
inductive Cut (m : Method) (g : Graph) (b : Block) : Prop
  | falls {next : Option Nat} (exit : b.exit = .falls next)
      (le : b.start ≤ b.stop) (straight : m.Straight b.start b.stop)
      (leads : g.Reaches m b.stop next)
  | jumps {t target : Nat} {l : Label} (exit : b.exit = .jumps t)
      (le : b.start ≤ b.stop)
      (straight : m.Straight b.start b.stop) (goto : m.instr b.stop = .goto l)
      (index : m.labelIndex? l = some target)
      (leads : g.Reaches m target (some t))
  | branches {t target k : Nat} {o : Option Nat} {f : Member} {op : Comparison}
      {l : Label}
      (exit : b.exit = .branches t o) (stop : b.stop = k + 1) (le : b.start ≤ k)
      (straight : m.Straight b.start k) (call : m.instr k = .call .static f)
      (answers : f.descriptor = "()Z") (jump : m.instr (k + 1) = .ifZero op l)
      (equality : op = .eq ∨ op = .ne) (breakPoint : b.breakPoint = k + 1)
      (index : m.labelIndex? l = some target)
      (taken : g.Reaches m target (some t)) (fallen : g.Reaches m (k + 2) o)
  | returns {k : Nat} (exit : b.exit = .returns) (stop : b.stop = k + 1)
      (le : b.start ≤ k)
      (straight : m.Straight b.start k) (ret : m.instr k = .ret none)

namespace Cut

variable {b : Block}

/-- A block that is fallen through is straight code, and control goes on behind
it. -/
theorem of_falls (h : Cut m g b) {next : Option Nat}
    (hexit : b.exit = .falls next) :
    b.start ≤ b.stop ∧ m.Straight b.start b.stop ∧ g.Reaches m b.stop next := by
  cases h with
  | falls exit le straight leads =>
    cases hexit.symm.trans exit
    exact ⟨le, straight, leads⟩
  | jumps exit | branches exit | returns exit => cases hexit.symm.trans exit

/-- A block that jumps is straight code up to the jump. -/
theorem of_jumps (h : Cut m g b) {t : Nat} (hexit : b.exit = .jumps t) :
    b.start ≤ b.stop ∧ m.Straight b.start b.stop ∧ ∃ l target,
      m.instr b.stop = .goto l ∧
      m.labelIndex? l = some target ∧ g.Reaches m target (some t) := by
  cases h with
  | jumps exit le straight goto index leads =>
    cases hexit.symm.trans exit
    exact ⟨le, straight, _, _, goto, index, leads⟩
  | falls exit | branches exit | returns exit => cases hexit.symm.trans exit

/-- A block that branches is straight code up to a call and the jump on its
answer. -/
theorem of_branches (h : Cut m g b) {t : Nat} {o : Option Nat}
    (hexit : b.exit = .branches t o) : ∃ k f op l target, b.stop = k + 1 ∧
      b.start ≤ k ∧ m.Straight b.start k ∧ m.instr k = .call .static f ∧
      f.descriptor = "()Z" ∧ m.instr (k + 1) = .ifZero op l ∧
      (op = .eq ∨ op = .ne) ∧ b.breakPoint = k + 1 ∧
        m.labelIndex? l = some target ∧ g.Reaches m target (some t) ∧
        g.Reaches m (k + 2) o := by
  cases h with
  | branches exit stop le straight call answers jump equality breakPoint index
      taken fallen =>
    cases hexit.symm.trans exit
    exact ⟨_, _, _, _, _, stop, le, straight, call, answers, jump, equality,
      breakPoint, index, taken, fallen⟩
  | falls exit | jumps exit | returns exit => cases hexit.symm.trans exit

end Cut

/-- A block with redirected edges is cut if they lead where they led before. -/
theorem Cut.map {b b' : Block} (h : Cut m g b) {f : Nat → Nat}
    (hexit : b'.exit = b.exit.mapTargets f) (hstart : b'.start = b.start)
    (hstop : b'.stop = b.stop) (hbreak : b'.breakPoint = b.breakPoint)
    (hreaches : ∀ (i : Nat) (next : Option Nat),
      (∀ t ∈ next, t ∈ b.exit.successors) →
      g.Reaches m i next → g'.Reaches m i (next.map f)) : Cut m g' b' := by
  cases h with
  | falls exit le straight leads =>
    rw [exit] at hexit
    rw [← hstart, ← hstop] at le straight
    rw [← hstop] at leads
    exact .falls hexit le straight
      (hreaches _ _ (by simp [exit, Exit.successors]) leads)
  | jumps exit le straight goto index leads =>
    rw [exit] at hexit
    rw [← hstart, ← hstop] at le straight
    rw [← hstop] at goto
    exact .jumps hexit le straight goto index
      (hreaches _ _ (by simp [exit, Exit.successors]) leads)
  | branches exit stop le straight call answers jump equality breakPoint index
      taken fallen =>
    rw [exit] at hexit
    rw [← hstop] at stop
    rw [← hstart] at le straight
    rw [← hbreak] at breakPoint
    exact .branches hexit stop le straight call answers jump equality
      breakPoint index (hreaches _ _ (by simp [exit, Exit.successors]) taken)
      (hreaches _ _ (by simp +contextual [exit, Exit.successors]) fallen)
  | returns exit stop le straight ret =>
    rw [exit] at hexit
    rw [← hstop] at stop
    rw [← hstart] at le straight
    exact .returns hexit stop le straight ret

/-- Every block of a graph is cut. -/
def Graph.WellCut (g : Graph) (m : Method) : Prop :=
  ∀ id < g.blocks.length, Cut m g (g.block id)

/-- What is known of the `n`th of the spans that code is cut into: its
instructions do not end a block, and the next span starts behind it. -/
structure SpanFits (m : Method) (ends : Nat → Bool) (spans : List Span)
    (n : Nat) (s : Span) :
    Prop where
  le : s.start ≤ s.breakPoint
  start_lt : s.start < m.length
  first : s.start = 0 ∨ ∃ p, s.start = p + 1 ∧ ends p = true
  inside : ∀ k, s.start ≤ k → k < s.breakPoint → ends k = false
  closed : s.breakPoint < m.length →
    ends s.breakPoint = true ∧ s.stop = m.bodyStop s.breakPoint
  next : ∀ s', spans[n + 1]? = some s' → s.breakPoint < m.length ∧
    s'.start = s.breakPoint + 1
  last : spans[n + 1]? = none → m.acts (s.breakPoint + 1) m.length = false
  open_ : m.length ≤ s.breakPoint → s.breakPoint = m.length ∧ s.stop = m.length

namespace Method

/-- Break points in ascending order from `start` on, all of those that end a
block. -/
structure BreaksFrom (m : Method) (ends : Nat → Bool) (start : Nat)
    (bs : List Nat) : Prop where
  sorted : bs.Pairwise (· < ·)
  mem_iff : ∀ b, b ∈ bs ↔ start ≤ b ∧ b < m.length ∧ ends b = true

/-- The breaks behind the first one are those from there on. -/
theorem BreaksFrom.tail {ends : Nat → Bool} {start b : Nat} {bs : List Nat}
    (h : m.BreaksFrom ends start (b :: bs)) : m.BreaksFrom ends (b + 1) bs := by
  have hsorted := List.pairwise_cons.1 h.sorted
  refine ⟨hsorted.2, fun c => ⟨fun hc => ?_, fun ⟨hbc, hlen, hends⟩ => ?_⟩⟩
  · have hmem := (h.mem_iff c).1 (List.mem_cons_of_mem _ hc)
    exact ⟨hsorted.1 c hc, hmem.2⟩
  · have hb := (h.mem_iff b).1 List.mem_cons_self
    rcases List.mem_cons.1 ((h.mem_iff c).2 ⟨by omega, hlen, hends⟩)
      with rfl | hc
    · omega
    · exact hc

/-- The first span starts where the cutting does. -/
theorem cut_getElem?_zero {start : Nat} {bs : List Nat} {s : Span}
    (h : (m.cut start bs)[0]? = some s) : s.start = start := by
  cases bs with
  | nil =>
    rw [cut] at h
    split at h
    · cases h
      rfl
    · cases h
  | cons b bs =>
    cases h
    rfl

/-- Without a first span nothing happens from `start` on. -/
theorem acts_of_cut_getElem?_zero {start : Nat} {bs : List Nat}
    (h : (m.cut start bs)[0]? = none) : m.acts start m.length = false := by
  cases bs with
  | nil =>
    rw [cut] at h
    split at h
    · cases h
    · rename_i hacts
      simpa using hacts
  | cons b bs => cases h

/-- Each span of a cut fits. -/
theorem spanFits_of_cut {ends : Nat → Bool} {start n : Nat} {bs : List Nat}
    {s : Span} (hbs : m.BreaksFrom ends start bs) (hstart : start ≤ m.length)
    (hfirst : start = 0 ∨ ∃ p, start = p + 1 ∧ ends p = true)
    (h : (m.cut start bs)[n]? = some s) :
    SpanFits m ends (m.cut start bs) n s := by
  induction bs generalizing start n with
  | nil =>
    have hends : ∀ k, start ≤ k → k < m.length → ends k = false := by
      intro k hk hlen
      have hmem := (hbs.mem_iff k).2
      simpa [hk, hlen] using hmem
    rw [cut] at h ⊢
    split at h
    · rename_i hacts
      cases n with
      | zero =>
        cases h
        exact
          { le := hstart
            start_lt := lt_of_acts hacts
            first := hfirst
            inside := hends
            closed := fun hlt => absurd hlt (Nat.lt_irrefl _)
            next := fun s' hs' => by simp_all
            last := fun _ => acts_eq_false_iff.2 fun k hk hlt => by
              change m.length + 1 ≤ k at hk
              omega
            open_ := fun _ => ⟨rfl, rfl⟩ }
      | succ n => cases h
    · cases h
  | cons b bs ih =>
    have hb := (hbs.mem_iff b).1 List.mem_cons_self
    cases n with
    | zero =>
      cases h
      have hinside : ∀ k, start ≤ k → k < b → ends k = false := by
        intro k hk hkb
        refine Bool.eq_false_iff.2 fun hends => ?_
        rcases List.mem_cons.1 ((hbs.mem_iff k).2 ⟨hk, by omega, hends⟩)
          with rfl | hmem
        · omega
        · have hlater := ((hbs.tail.mem_iff k).1 hmem).1
          omega
      exact
        { le := hb.1
          start_lt := Nat.lt_of_le_of_lt hb.1 hb.2.1
          first := hfirst
          inside := hinside
          closed := fun _ => ⟨hb.2.2, rfl⟩
          next := fun s' hs' => ⟨hb.2.1, cut_getElem?_zero hs'⟩
          last := fun hnone => acts_of_cut_getElem?_zero hnone
          open_ := fun hlen => absurd hb.2.1 (Nat.not_lt.2 hlen) }
    | succ n =>
      have hfits := ih hbs.tail (by omega) (.inr ⟨b, rfl, hb.2.2⟩) h
      exact ⟨hfits.le, hfits.start_lt, hfits.first, hfits.inside, hfits.closed,
        hfits.next, hfits.last, hfits.open_⟩

/-- Every instruction that does something is in a span. -/
theorem exists_span_of_cut {ends : Nat → Bool} {start k : Nat} {bs : List Nat}
    (hbs : m.BreaksFrom ends start bs) (hk : start ≤ k) (hlen : k < m.length)
    (hacts : (m.instr k).isMarker = false) :
    ∃ (n : Nat) (s : Span),
      (m.cut start bs)[n]? = some s ∧ s.start ≤ k ∧ k ≤ s.breakPoint := by
  induction bs generalizing start with
  | nil =>
    rw [cut]
    split
    · exact ⟨0, _, rfl, hk, Nat.le_of_lt hlen⟩
    · rename_i hidle
      have hmarker :=
        acts_eq_false_iff.1 (Bool.not_eq_true _ ▸ hidle) k hk hlen hlen
      rw [hacts] at hmarker
      cases hmarker
  | cons b bs ih =>
    by_cases hkb : k ≤ b
    · exact ⟨0, _, rfl, hk, hkb⟩
    · obtain ⟨n, s, hs, hin⟩ := ih hbs.tail (by omega)
      exact ⟨n + 1, s, hs, hin⟩

/-- What is located is where a label is. -/
theorem mem_of_locate {find : Label → Option Nat} {index : Nat}
    {ls : List Label} {targets : List Nat}
    (h : locate find index ls = .ok targets) {t : Nat} (ht : t ∈ targets) :
    ∃ l, find l = some t := by
  induction ls generalizing targets with
  | nil =>
    cases h
    cases ht
  | cons l ls ih =>
    rw [locate] at h
    split at h
    · cases h
    · rename_i a ha
      obtain ⟨rest, hrest, rfl⟩ := map_eq_ok.1 h
      rcases List.mem_cons.1 ht with rfl | ht
      · exact ⟨l, ha⟩
      · exact ih hrest ht

/-- One label that is located has one place. -/
theorem locate_singleton {find : Label → Option Nat} {index : Nat} {l : Label}
    {targets : List Nat} (h : locate find index [l] = .ok targets) :
    ∃ t, find l = some t ∧ targets = [t] := by
  rw [locate] at h
  split at h
  · cases h
  · rename_i t ht
    cases h
    exact ⟨t, ht, rfl⟩

/-- Jumps lead to labels. -/
theorem exists_label_of_destinations {xs : List (Nat × Instr)} {ds : List Nat}
    (h : m.destinations xs = .ok ds) {d : Nat} (hd : d ∈ ds) :
    ∃ l, m.labelIndex? l = some d := by
  induction xs generalizing ds with
  | nil =>
    cases h
    cases hd
  | cons x xs ih =>
    obtain ⟨here, hhere, h⟩ := bind_eq_ok.1 h
    obtain ⟨others, hothers, h⟩ := bind_eq_ok.1 h
    cases h
    rcases List.mem_append.1 hd with hd | hd
    · exact mem_of_locate hhere hd
    · exact ih hothers hd

/-- The boundaries of exception ranges are labels. -/
theorem exists_label_of_rangeBoundaries {i : Nat} (h : i ∈ m.rangeBoundaries) :
    ∃ l, m.labelIndex? l = some i := by
  obtain ⟨l, _, hl⟩ := List.mem_filterMap.1 h
  exact ⟨l, hl⟩

/-- The break points of a method are the instructions that end a block and
some labels. -/
theorem breaksFrom_of_breakPoints {bs : List Nat} (h : m.breakPoints = .ok bs) :
    ∃ ends : Nat → Bool, m.BreaksFrom ends 0 bs ∧
      (∀ i, (m.instr i).endsBlock = true → ends i = true) ∧
      ∀ i, ends i = true →
        (m.instr i).endsBlock = true ∨ ∃ l, (m.instr i).label? = some l := by
  obtain ⟨destinations, hdest, h⟩ := bind_eq_ok.1 h
  cases h
  refine ⟨fun i => (m.instr i).endsBlock || destinations.contains i ||
      m.rangeBoundaries.contains i,
      ⟨List.pairwise_lt_range.filter _, fun b => ?_⟩,
    fun i hi => ?_, fun i hi => ?_⟩
  · simp only [List.mem_filter, List.mem_range, Nat.zero_le, true_and]
  · simp only [hi, Bool.true_or]
  · simp only [Bool.or_eq_true, List.contains_iff_mem, or_assoc] at hi
    refine hi.imp_right fun hmem => ?_
    obtain ⟨l, hl⟩ := hmem.elim (exists_label_of_destinations hdest)
      exists_label_of_rangeBoundaries
    exact ⟨l, label?_instr_of_labelIndex? hl⟩

/-- A label is found where it stands. -/
theorem labelIndex?_of_label? {l : Label} {i : Nat}
    (h : (m.instr i).label? = some l) : m.labelIndex? l = some i := by
  have hi : i < m.instrs.length := lt_length_of_instr rfl fun hnop => by
    rw [hnop] at h
    cases h
  have hget : m.instrs[i].label? = some l := by
    rw [← h, instr, List.getD_eq_getElem?_getD, List.getElem?_eq_getElem hi,
      Option.getD_some]
  refine List.findIdx?_eq_some_iff_getElem.2
    ⟨hi, by simp [hget], fun j hj => ?_⟩
  have hdiffer :=
    List.pairwise_iff_getElem.1 (List.pairwise_filterMap.1 m.labels_nodup) j i
      (by omega) hi hj
  intro hlabel
  exact hdiffer l (by simpa using hlabel) l hget rfl

/-- A block of a graph is made from its span. -/
theorem getElem?_of_blocksOf {find : Label → Option Nat} {count id n : Nat}
    {spans : List Span} {blocks : List Block}
    (h : m.blocksOf find count id spans = .ok blocks) {s : Span}
    (hs : spans[n]? = some s) :
    ∃ targets, locate find s.breakPoint (m.instr s.breakPoint).destinations =
      .ok targets ∧ blocks[n]? = some
        { id := id + n, breakPoint := s.breakPoint, start := s.start,
          stop := s.stop,
          exit := exitTo (m.instr s.breakPoint)
            (if id + n + 1 < count then some (id + n + 1) else none) targets,
          entry := m.entryOf find (id + n) } := by
  induction spans generalizing id n blocks with
  | nil => cases hs
  | cons span spans ih =>
    obtain ⟨targets, htargets, h⟩ := bind_eq_ok.1 h
    obtain ⟨rest, hrest, h⟩ := bind_eq_ok.1 h
    cases h
    cases n with
    | zero =>
      cases hs
      exact ⟨targets, htargets, rfl⟩
    | succ n =>
      have hfound := ih hrest hs
      rw [show id + 1 + n = id + (n + 1) by omega] at hfound
      exact hfound

/-- There is one block for each span. -/
theorem length_of_blocksOf {find : Label → Option Nat} {count id : Nat}
    {spans : List Span} {blocks : List Block}
    (h : m.blocksOf find count id spans = .ok blocks) :
    blocks.length = spans.length := by
  induction spans generalizing id blocks with
  | nil =>
    cases h
    rfl
  | cons span spans ih =>
    obtain ⟨targets, htargets, h⟩ := bind_eq_ok.1 h
    obtain ⟨rest, hrest, h⟩ := bind_eq_ok.1 h
    cases h
    rw [List.length_cons, List.length_cons, ih hrest]

/-- The block of a label starts behind it. -/
theorem span_of_lookup {spans : List Span} {l : Label} {t : Nat}
    (h : (m.spanLabels spans).lookup l = some t) :
    ∃ n s, t = n + 1 ∧ n + 1 < spans.length ∧ spans[n]? = some s ∧
      (m.instr s.breakPoint).label? = some l := by
  obtain ⟨before, later, hsplit, _⟩ := List.lookup_eq_some_iff.1 h
  have hmem : (l, t) ∈ m.spanLabels spans := by simp [hsplit]
  obtain ⟨⟨s, n⟩, hs, hlabel⟩ := List.mem_filterMap.1 hmem
  have hget : spans[n]? = some s := by
    simpa using List.mem_zipIdx_iff_getElem?.1 hs
  simp only at hlabel
  split at hlabel
  · rename_i l' hl'
    split at hlabel
    · rename_i hlt
      cases hlabel
      exact ⟨n, s, rfl, hlt, hget, hl'⟩
    · cases hlabel
  · cases hlabel

end Method

/-- Where the instructions of a block end, its jump or switch included. -/
def Block.finish (b : Block) : Nat :=
  match b.exit with
  | .jumps _ | .branches .. | .selects .. => b.stop + 1
  | _ => b.stop

/-- A numbered block that nothing has been folded into and that no exception
comes into. -/
def Block.IsFresh (b : Block) (n : Nat) : Prop :=
  b.id = n ∧ b.entry = .plain ∧ b.folded = none

/-- One block is over before another starts, and starts before it. -/
def Block.Before (b c : Block) : Prop := b.finish ≤ c.start ∧ b.start < c.start

/-- The graph of call code: its blocks are cut right and follow one another,
and every instruction that does something is in one of them. -/
structure Built (m : Method) (g : Graph) : Prop where
  wellCut : g.WellCut m
  fresh : ∀ n < g.blocks.length, (g.block n).IsFresh n
  start_lt : ∀ n < g.blocks.length, (g.block n).start < m.length
  forward : ∀ n t, (g.block n).exit = .falls (some t) → n < t
  before : ∀ n k, n < k → k < g.blocks.length → (g.block n).Before (g.block k)
  covers : ∀ k < m.length, (m.instr k).isMarker = false →
    ∃ n < g.blocks.length, (g.block n).start ≤ k ∧ k < (g.block n).finish

/-- A marker is passed on the way. -/
theorem Graph.Reaches.of_marker {i : Nat} {next : Option Nat}
    (hmarker : (m.instr i).isMarker = true) (h : g.Reaches m (i + 1) next) :
    g.Reaches m i next := by
  have hfirst : m.acts i (i + 1) = false :=
    Method.acts_eq_false_iff.2 fun k hik hki _ => by
      obtain rfl : k = i := by omega
      exact hmarker
  cases next with
  | none => exact Method.acts_trans hfirst h
  | some t =>
    exact ⟨h.1, by have := h.2.1; omega, Method.acts_trans hfirst h.2.2⟩

/-- A block of call code up to its break point: labels and calls that return
nothing, and at most one test for the jump at the break point. -/
theorem Method.straight_or_test (hcode : isCallCode m.instrs = true)
    {start stop k : Nat} (hstop : stop ≤ m.length)
    (hinside : ∀ k, start ≤ k → k < stop → (m.instr k).endsBlock = false)
    (hk : start ≤ k) (hkstop : k < stop) :
    ((∃ l, m.instr k = .label l) ∨ ∃ f, m.instr k = .call .static f ∧
        f.descriptor = "()V") ∨
      k + 1 = stop ∧ ∃ op l, m.instr stop = .ifZero op l := by
  have hkind := callInstr hcode (show k < m.length by omega)
  have hplain := hinside k hk hkstop
  generalize m.instr k = x at hkind hplain
  cases hkind with
  | label l => exact .inl (.inl ⟨l, rfl⟩)
  | goto l => cases hplain
  | ret => cases hplain
  | branch => cases hplain
  | call hf => exact .inl (.inr ⟨_, rfl, hf⟩)
  | @test _ f op l hf hnext =>
    have hlast : k + 1 = stop := by
      rcases Nat.lt_or_ge (k + 1) stop with hlt | hge
      · have hjump := hinside (k + 1) (by omega) hlt
        rw [hnext] at hjump
        cases hjump
      · omega
    exact .inr ⟨hlast, op, l, hlast ▸ hnext⟩

/-- A number past the last block is that of a blank one. -/
theorem Graph.block_of_length_le {n : Nat} (h : g.blocks.length ≤ n) :
    g.block n = .blank := by
  rw [Graph.block, List.getD_eq_getElem?_getD, List.getElem?_eq_none h,
    Option.getD_none]

/-- Changing one block changes no other. -/
theorem Graph.block_modify (g : Graph) (id x : Nat) (change : Block → Block) :
    (g.modify id change).block x = g.block x ∨
      x = id ∧ (g.modify id change).block x = change (g.block x) := by
  by_cases hx : id = x
  · subst hx
    rcases Nat.lt_or_ge id g.blocks.length with hlt | hge
    · exact .inr ⟨rfl, g.block_modify_self change hlt⟩
    · rw [block_of_length_le hge,
        block_of_length_le (by rw [g.length_modify]; exact hge)]
      exact .inl rfl
  · exact .inl (g.block_modify_of_ne change hx)

/-- The block of a number is the one at that position. -/
theorem Graph.block_eq_of_getElem? {n : Nat} {b : Block}
    (h : g.blocks[n]? = some b) : g.block n = b := by
  rw [Graph.block, List.getD_eq_getElem?_getD, h, Option.getD_some]

/-- A block that there is is at its position. -/
theorem Graph.block_mem {n : Nat} (hn : n < g.blocks.length) :
    g.blocks[n]? = some (g.block n) := by
  rw [Graph.block_eq_of_getElem? (List.getElem?_eq_getElem hn),
    List.getElem?_eq_getElem hn]

/-- An exit that runs into a block runs into the next one. -/
theorem eq_of_exitTo {i : Instr} {next other : Option Nat} {targets : List Nat}
    (h : Method.exitTo i next targets = .falls other) : next = other := by
  unfold Method.exitTo at h
  split at h <;> simp_all

/-- Linking back changes predecessors only. -/
theorem Graph.getElem?_linkBack {n : Nat} {b : Block}
    (h : g.blocks[n]? = some b) :
    ∃ preds, g.linkBack.blocks[n]? = some { b with preds } := by
  simp [Graph.linkBack, List.getElem?_zipIdx, h]

/-- A graph whose blocks are made from spans of the code. -/
structure MadeFrom (m : Method) (g : Graph) (ends : Nat → Bool)
    (spans : List Span) : Prop where
  length_eq : g.blocks.length = spans.length
  fits : ∀ (n : Nat) (s : Span), spans[n]? = some s → SpanFits m ends spans n s
  ends_of_endsBlock : ∀ i, (m.instr i).endsBlock = true → ends i = true
  of_ends : ∀ i, ends i = true →
    (m.instr i).endsBlock = true ∨ ∃ l, (m.instr i).label? = some l
  block : ∀ (n : Nat) (s : Span), spans[n]? = some s → ∃ targets preds,
    Method.locate ((m.spanLabels spans).lookup ·) s.breakPoint
      (m.instr s.breakPoint).destinations = .ok targets ∧
    g.block n =
      { id := n, breakPoint := s.breakPoint, start := s.start, stop := s.stop,
        exit := Method.exitTo (m.instr s.breakPoint)
          (if n + 1 < spans.length then some (n + 1) else none) targets,
        entry := m.entryOf ((m.spanLabels spans).lookup ·) n,
        preds }

namespace MadeFrom

variable {ends : Nat → Bool} {spans : List Span} {n : Nat} {s : Span}

/-- A block starts where its span does. -/
theorem start_eq (h : MadeFrom m g ends spans) (hs : spans[n]? = some s) :
    (g.block n).start = s.start := by
  obtain ⟨_, _, _, hblock⟩ := h.block n s hs
  rw [hblock]

/-- Behind a break point the next block starts, or the code ends. -/
theorem reaches_next (h : MadeFrom m g ends spans) (hs : spans[n]? = some s) :
    g.Reaches m (s.breakPoint + 1) (if n + 1 < spans.length then some (n + 1)
        else none) := by
  have hfits := h.fits n s hs
  by_cases hlt : n + 1 < spans.length
  · have hnext : spans[n + 1]? = some spans[n + 1] :=
      List.getElem?_eq_getElem hlt
    have hstart := (hfits.next _ hnext).2
    rw [if_pos hlt]
    refine ⟨h.length_eq ▸ hlt, ?_, ?_⟩
    · exact Nat.le_of_eq (hstart.symm.trans (h.start_eq hnext).symm)
    · rw [h.start_eq hnext, hstart]
      exact m.acts_self _
  · rw [if_neg hlt]
    exact hfits.last (List.getElem?_eq_none (by omega))

/-- The block of a label is reached from it. -/
theorem reaches_label (h : MadeFrom m g ends spans) {l : Label} {t : Nat}
    (ht : (m.spanLabels spans).lookup l = some t) :
    ∃ i, m.labelIndex? l = some i ∧ g.Reaches m i (some t) := by
  obtain ⟨k, s, rfl, hlt, hs, hlabel⟩ := Method.span_of_lookup ht
  have hreaches := h.reaches_next hs
  rw [if_pos hlt] at hreaches
  refine ⟨s.breakPoint, Method.labelIndex?_of_label? hlabel,
    hreaches.of_marker ?_⟩
  generalize m.instr s.breakPoint = x at hlabel
  cases x with
  | label l => rfl
  | _ => cases hlabel

/-- The instructions of a block before its break point do not end it. -/
theorem inside (h : MadeFrom m g ends spans) (hs : spans[n]? = some s) :
    ∀ k, s.start ≤ k → k < s.breakPoint → (m.instr k).endsBlock = false := by
  intro k hk hlt
  have hends := (h.fits n s hs).inside k hk hlt
  refine Bool.eq_false_iff.2 fun hblock => ?_
  rw [h.ends_of_endsBlock k hblock] at hends
  cases hends

/-- A block breaks inside the method. -/
theorem breakPoint_le (h : MadeFrom m g ends spans) (hs : spans[n]? = some s) :
    s.breakPoint ≤ m.length := by
  rcases Nat.lt_or_ge m.length s.breakPoint with hlt | hle
  · have heq := ((h.fits n s hs).open_ (Nat.le_of_lt hlt)).1
    omega
  · exact hle

/-- Without a conditional jump at its end a block is straight. -/
theorem straight (h : MadeFrom m g ends spans)
    (hcode : isCallCode m.instrs = true) (hs : spans[n]? = some s)
    (hjump : ∀ op l, m.instr s.breakPoint ≠ .ifZero op l) :
    m.Straight s.start s.breakPoint := by
  intro k hk hlt
  rcases Method.straight_or_test hcode (h.breakPoint_le hs) (h.inside hs) hk
    hlt with
    hplain | ⟨_, op, l, hif⟩
  · exact hplain
  · exact absurd hif (hjump op l)

/-- A jump does not stand at the start of a block, where the instruction in
front of it would be missing, if that one does not end a block. -/
theorem start_lt (h : MadeFrom m g ends spans) (hs : spans[n]? = some s)
    {k : Nat} (hbreak : s.breakPoint = k + 1)
    (hplain : (m.instr k).endsBlock = false)
    (hlabel : (m.instr k).label? = none) : s.start ≤ k := by
  have hfits := h.fits n s hs
  have hle := hfits.le
  rcases hfits.first with hzero | ⟨p, hp, hends⟩
  · omega
  · rcases Nat.lt_or_ge k s.start with hlt | hge
    · obtain rfl : p = k := by omega
      rcases h.of_ends p hends with hblock | ⟨l, hl⟩
      · rw [hplain] at hblock
        cases hblock
      · rw [hlabel] at hl
        cases hl
    · exact hge

/-- Only the last block ends with the code, behind its last instruction. -/
theorem of_length_le (h : MadeFrom m g ends spans) (hs : spans[n]? = some s)
    (hge : m.length ≤ s.breakPoint) : s.stop = s.breakPoint ∧
      m.instr s.breakPoint = .nop ∧ ¬ n + 1 < spans.length ∧
        g.Reaches m s.stop none := by
  obtain ⟨heq, hstop⟩ := (h.fits n s hs).open_ hge
  refine ⟨hstop.trans heq.symm, Method.instr_of_length_le hge,
    fun hlt => ?_, ?_⟩
  · have hbefore := ((h.fits n _ hs).next _ (List.getElem?_eq_getElem hlt)).1
    exact Nat.not_lt.2 hge hbefore
  · rw [hstop]
    exact m.acts_self _

/-- The block of a span is cut right. -/
theorem cut (h : MadeFrom m g ends spans) (hcode : isCallCode m.instrs = true)
    (hs : spans[n]? = some s) : Cut m g (g.block n) := by
  have hle := (h.fits n s hs).le
  have hclosed := (h.fits n s hs).closed
  have hopen := h.of_length_le hs
  have hnext := h.reaches_next hs
  have hplain := h.straight hcode hs
  have hstart {k : Nat} := h.start_lt (k := k) hs
  have hinside := h.inside hs
  obtain ⟨targets, preds, htargets, hblock⟩ := h.block n s hs
  obtain ⟨bp, start, stop⟩ := s
  rw [hblock]
  rcases Nat.lt_or_ge bp m.length with hlt | hge
  · obtain ⟨hends, hstop⟩ := hclosed hlt
    have hof := h.of_ends _ hends
    have hkind := Method.callInstr hcode hlt
    generalize hi : m.instr bp = x at hkind hof htargets hplain ⊢
    simp only [Method.bodyStop, hi] at hstop
    cases hkind with
    | label l =>
      obtain rfl : stop = bp := hstop
      exact .falls rfl hle (hplain (by simp))
        (hnext.of_marker (by rw [hi]; rfl))
    | goto l =>
      obtain rfl : stop = bp := hstop
      obtain ⟨t, ht, rfl⟩ := Method.locate_singleton htargets
      obtain ⟨i, hindex, hreaches⟩ := h.reaches_label ht
      exact .jumps rfl hle (hplain (by simp)) hi hindex hreaches
    | ret => exact .returns rfl hstop hle (hplain (by simp)) hi
    | call => simp [Instr.endsBlock, Instr.control, Instr.label?] at hof
    | test => simp [Instr.endsBlock, Instr.control, Instr.label?] at hof
    | @branch k f op l hf hop hprev =>
      obtain rfl : stop = k + 1 := hstop
      have hstart := hstart rfl (by rw [hprev]; rfl) (by rw [hprev]; rfl)
      obtain ⟨t, ht, rfl⟩ := Method.locate_singleton htargets
      obtain ⟨i, hindex, hreaches⟩ := h.reaches_label ht
      have hstraight : m.Straight start k := by
        intro j hj hjk
        rcases Method.straight_or_test hcode (Nat.le_of_lt hlt) hinside hj
          (by omega) with
          hfree | ⟨hjump, _⟩
        · exact hfree
        · omega
      exact .branches rfl rfl hstart hstraight hprev hf hi hop rfl hindex
        hreaches hnext
  · obtain ⟨hstop, hnop, hnone, hreaches⟩ := hopen hge
    obtain rfl : stop = bp := hstop
    change m.instr stop = .nop at hnop
    rw [hnop, if_neg hnone]
    exact .falls rfl hle (hplain (by simp [hnop])) hreaches

/-- A block ends behind its break point, or at it if that is a label or the
end of the code. -/
theorem finish_eq (h : MadeFrom m g ends spans)
    (hcode : isCallCode m.instrs = true) (hs : spans[n]? = some s) :
    (g.block n).finish = s.breakPoint + 1 ∨
      (g.block n).finish = s.breakPoint ∧
        (s.breakPoint < m.length → (m.instr s.breakPoint).isMarker = true) := by
  have hfits := h.fits n s hs
  obtain ⟨targets, preds, htargets, hblock⟩ := h.block n s hs
  obtain ⟨bp, start, stop⟩ := s
  rw [hblock]
  rcases Nat.lt_or_ge bp m.length with hlt | hge
  · obtain ⟨hends, hstop⟩ := hfits.closed hlt
    have hof := h.of_ends _ hends
    have hkind := Method.callInstr hcode hlt
    generalize hi : m.instr bp = x at hkind hof htargets ⊢
    simp only [Method.bodyStop, hi] at hstop
    cases hkind with
    | label l => exact .inr ⟨hstop, fun _ => rfl⟩
    | goto l =>
      obtain ⟨t, ht, rfl⟩ := Method.locate_singleton htargets
      exact .inl (congrArg (· + 1) hstop)
    | ret => exact .inl hstop
    | call => simp [Instr.endsBlock, Instr.control, Instr.label?] at hof
    | test => simp [Instr.endsBlock, Instr.control, Instr.label?] at hof
    | branch =>
      obtain ⟨t, ht, rfl⟩ := Method.locate_singleton htargets
      exact .inl (congrArg (· + 1) hstop)
  · obtain ⟨heq, hstop⟩ := hfits.open_ hge
    have hnop : m.instr bp = .nop := Method.instr_of_length_le hge
    rw [hnop]
    exact .inr ⟨hstop.trans heq.symm, fun hlt => absurd hlt (Nat.not_lt.2 hge)⟩

/-- Every break point lies before the blocks that come later. -/
theorem breakPoint_lt_start (h : MadeFrom m g ends spans)
    (hs : spans[n]? = some s) {k : Nat} (hk : n < k)
    (hlen : k < g.blocks.length) : s.breakPoint < (g.block k).start := by
  induction k with
  | zero => exact absurd hk (Nat.not_lt_zero n)
  | succ k ih =>
    obtain ⟨s', hs'⟩ : ∃ s', spans[k + 1]? = some s' :=
      ⟨_, List.getElem?_eq_getElem (h.length_eq ▸ hlen)⟩
    obtain ⟨p, hp⟩ : ∃ p, spans[k]? = some p :=
      ⟨_, List.getElem?_eq_getElem (by have := h.length_eq; omega)⟩
    have hnext := ((h.fits k p hp).next s' hs').2
    rw [h.start_eq hs', hnext]
    rcases Nat.eq_or_lt_of_le (Nat.lt_succ_iff.1 hk) with rfl | hlt
    · cases hs.symm.trans hp
      exact Nat.lt_succ_self _
    · have hbefore := ih hlt (by omega)
      have hle := (h.fits k p hp).le
      rw [h.start_eq hp] at hbefore
      omega

/-- A block is over before a later one starts. -/
theorem before (h : MadeFrom m g ends spans)
    (hcode : isCallCode m.instrs = true) {k : Nat} (hk : n < k)
    (hlen : k < g.blocks.length) : (g.block n).Before (g.block k) := by
  obtain ⟨s, hs⟩ : ∃ s, spans[n]? = some s :=
    ⟨_, List.getElem?_eq_getElem (by have := h.length_eq; omega)⟩
  have hle := (h.fits n s hs).le
  have hfinish := h.finish_eq hcode hs
  have hlater := h.breakPoint_lt_start hs hk hlen
  rw [← h.start_eq hs] at hle
  exact ⟨by omega, by omega⟩

/-- A block that runs into another one runs into the next one. -/
theorem eq_of_falls (h : MadeFrom m g ends spans) {t : Nat}
    (hexit : (g.block n).exit = .falls (some t)) : t = n + 1 := by
  cases hs : spans[n]? with
  | none =>
    have hlen : g.blocks.length ≤ n :=
      h.length_eq ▸ List.getElem?_eq_none_iff.1 hs
    rw [Graph.block_of_length_le hlen] at hexit
    cases hexit
  | some s =>
    obtain ⟨targets, preds, htargets, hblock⟩ := h.block n s hs
    rw [hblock] at hexit
    have hnext := eq_of_exitTo hexit
    split at hnext
    · cases hnext
      rfl
    · cases hnext

/-- A block falls through to a later one. -/
theorem forward (h : MadeFrom m g ends spans) {t : Nat}
    (hexit : (g.block n).exit = .falls (some t)) : n < t :=
  h.eq_of_falls hexit ▸ Nat.lt_succ_self n

end MadeFrom

/-- The graph that is built of a method is made from spans of its code. -/
theorem madeFrom_of_graph (h : m.graph = .ok g) :
    ∃ ends bs, m.BreaksFrom ends 0 bs ∧ MadeFrom m g ends (m.cut 0 bs) := by
  obtain ⟨bs, hbs, h⟩ := bind_eq_ok.1 h
  obtain ⟨blocks, hblocks, h⟩ := bind_eq_ok.1 h
  cases h
  obtain ⟨ends, hbreaks, hends, hof⟩ := Method.breaksFrom_of_breakPoints hbs
  refine ⟨ends, bs, hbreaks, ?_⟩
  refine
    { length_eq := by simp [Graph.linkBack, Method.length_of_blocksOf hblocks]
      fits :=
        fun n s hs => Method.spanFits_of_cut hbreaks (Nat.zero_le _)
          (.inl rfl) hs
      ends_of_endsBlock := hends
      of_ends := hof
      block := fun n s hs => ?_ }
  obtain ⟨targets, htargets, hget⟩ := Method.getElem?_of_blocksOf hblocks hs
  obtain ⟨preds, hlinked⟩ :=
    Graph.getElem?_linkBack (g := ⟨blocks, m.spanLabels (m.cut 0 bs)⟩) hget
  refine ⟨targets, preds, htargets, ?_⟩
  rw [Graph.block_eq_of_getElem? hlinked]
  simp

/-- **Cutting.**  The graph that is built of call code is cut right. -/
theorem built_of_graph (hcode : isCallCode m.instrs = true)
    (hranges : m.ranges = []) (h : m.graph = .ok g) : Built m g := by
  obtain ⟨ends, bs, hbreaks, hmade⟩ := madeFrom_of_graph h
  have hspan : ∀ n < g.blocks.length, ∃ s, (m.cut 0 bs)[n]? = some s :=
    fun n hn =>
      ⟨_, List.getElem?_eq_getElem (hmade.length_eq ▸ hn)⟩
  refine
    { wellCut := fun n hn => ?_
      fresh := fun n hn => ?_
      start_lt := fun n hn => ?_
      forward := fun n t => hmade.forward
      before := fun n k => hmade.before hcode
      covers := fun k hk hacts => ?_ }
  · obtain ⟨s, hs⟩ := hspan n hn
    exact hmade.cut hcode hs
  · obtain ⟨s, hs⟩ := hspan n hn
    obtain ⟨_, _, _, hblock⟩ := hmade.block n s hs
    rw [hblock]
    exact ⟨rfl, by simp [Method.entryOf, hranges], rfl⟩
  · obtain ⟨s, hs⟩ := hspan n hn
    rw [hmade.start_eq hs]
    exact (hmade.fits n s hs).start_lt
  · obtain ⟨n, s, hs, hstart, hbreak⟩ :=
      Method.exists_span_of_cut hbreaks (Nat.zero_le k) hk hacts
    obtain ⟨hn, _⟩ := List.getElem?_eq_some_iff.1 hs
    refine ⟨n, hmade.length_eq ▸ hn, hmade.start_eq hs ▸ hstart, ?_⟩
    rcases hmade.finish_eq hcode hs with hfinish | ⟨hfinish, hmarker⟩
    · omega
    · have hne : k ≠ s.breakPoint := by
        rintro rfl
        rw [hmarker hk] at hacts
        cases hacts
      omega

end Decompiler
