import Decompiler.Proofs.Likeness.Parts

/-!
# Labels at one point

Where only labels and debug markers stand, each label that is referred to ends a
part.  The parts between two of them do nothing, and if no exception comes in
there and a part comes behind, they are left out of the tidy graph.  So parts
are given numbers that do not count them.

* `Method.Seamless`: no label at a point, but the last, keeps a part of its own.
* `Method.partsBefore`, `Method.partsAt`, `Method.partsBehind`: the parts of a
  method before, at and behind a point.
* `Method.number`, `Method.numbered`, `Method.size`: numbers that do not count
  the parts at a point.
-/

namespace Decompiler

namespace Method

/-- Something that does something, or ends a block, comes behind an
instruction. -/
def goesOn (m : Method) (k : Nat) : Prop :=
  ∃ j, k < j ∧ j < m.length ∧ ((m.instr j).isMarker = false ∨ m.ends j = true)

/-- Of two labels that are referred to between two positions, the first one
handles no exceptions, and something comes behind the second one. -/
def Seamless (m : Method) (p q : Nat) : Prop :=
  ∀ k k', p ≤ k → k < k' → k' ≤ q → m.ends k = true → m.ends k' = true →
    (∀ r ∈ m.ranges, m.labelIndex? r.handler ≠ some k) ∧ m.goesOn k'

/-! ## The parts at a point -/

/-- The instructions of the range `[start, stop)` that end a block. -/
def breaksIn (m : Method) (start stop : Nat) : List Nat :=
  (List.range' start (stop - start)).filter m.ends

/-- The first of the break points at a point, with those before. -/
def upTo (m : Method) (p q : Nat) : List Nat :=
  m.breaksIn 0 p ++ (m.breaksIn p (q + 1)).take 1

/-- The parts up to the first break point at a point. -/
def partsBefore (m : Method) (p q : Nat) : List Span := m.cutAt 0 (m.upTo p q)

/-- The parts between break points at a point. -/
def partsAt (m : Method) (p q : Nat) : List Span :=
  m.cutAt (after 0 (m.upTo p q)) ((m.breaksIn p (q + 1)).drop 1)

/-- The parts behind the break points at a point. -/
def partsBehind (m : Method) (p q : Nat) : List Span :=
  m.cut (after (after 0 (m.upTo p q)) ((m.breaksIn p (q + 1)).drop 1))
    (m.breaksIn (q + 1) m.length)

section Parts

variable {m : Method} {p q : Nat}

/-- The breaks of a stretch are the positions in it at which a block ends. -/
theorem mem_breaksIn {start stop k : Nat} :
    k ∈ m.breaksIn start stop ↔ start ≤ k ∧ k < stop ∧ m.ends k = true := by
  rw [breaksIn, List.mem_filter, List.mem_range'_1, and_assoc]
  refine and_congr_right fun hle => and_congr_left fun _ => ?_
  omega

/-- The breaks of a stretch ascend. -/
theorem pairwise_breaksIn (m : Method) (start stop : Nat) :
    (m.breaksIn start stop).Pairwise (· < ·) :=
  (List.pairwise_lt_range' 1).filter _

/-- The breaks of two stretches, one behind the other, are those of both
together. -/
theorem breaksIn_append {i j k : Nat} (hij : i ≤ j) (hjk : j ≤ k) :
    m.breaksIn i j ++ m.breaksIn j k = m.breaksIn i k := by
  obtain ⟨u, rfl⟩ := Nat.exists_eq_add_of_le hij
  obtain ⟨v, rfl⟩ := Nat.exists_eq_add_of_le hjk
  rw [breaksIn, breaksIn, breaksIn, ← List.filter_append,
    Nat.add_sub_cancel_left, Nat.add_sub_cancel_left, Nat.add_assoc,
    Nat.add_sub_cancel_left, List.range'_append_1]

/-- The breaks of a method are those before, at and behind a place. -/
theorem breaks_eq_append (hle : p ≤ q) (hq : q < m.length) :
    m.breaks = m.breaksIn 0 p ++
      (m.breaksIn p (q + 1) ++ m.breaksIn (q + 1) m.length) := by
  rw [breaksIn_append (by omega) (by omega),
    breaksIn_append (by omega) (by omega), breaks, List.range_eq_range']
  rfl

/-- The spans of a method are those before, at and behind a place. -/
theorem spans_eq_append (hle : p ≤ q) (hq : q < m.length) :
    m.spans = m.partsBefore p q ++ (m.partsAt p q ++ m.partsBehind p q) := by
  rw [spans, breaks_eq_append hle hq, partsBefore, partsAt, partsBehind,
    ← cut_append, ← cut_append, upTo, List.append_assoc,
    ← List.append_assoc (List.take 1 _), List.take_append_drop]

/-- How many spans there are before a place. -/
theorem length_partsBefore (m : Method) (p q : Nat) :
    (m.partsBefore p q).length =
      (m.breaksIn 0 p).length + min 1 (m.breaksIn p (q + 1)).length := by
  have hmap := congrArg List.length (m.map_breakPoint_cutAt 0 (m.upTo p q))
  rw [List.length_map] at hmap
  rw [partsBefore, hmap, upTo, List.length_append, List.length_take]

/-- How many spans there are at a place. -/
theorem length_partsAt (m : Method) (p q : Nat) :
    (m.partsAt p q).length = (m.breaksIn p (q + 1)).length - 1 := by
  have hmap := congrArg List.length
    (m.map_breakPoint_cutAt (after 0 (m.upTo p q))
      ((m.breaksIn p (q + 1)).drop 1))
  rw [List.length_map] at hmap
  rw [partsAt, hmap, List.length_drop]

/-- A part that ends at a point is between break points there, or the one
before. -/
theorem place_of_span (hle : p ≤ q) (hq : q < m.length) {n : Nat} {s : Span}
    (hs : m.spans[n]? = some s) (hp : p ≤ s.breakPoint)
    (hp' : s.breakPoint ≤ q) :
    (m.partsBefore p q).length ≤ n + 1 ∧
      n < (m.partsBefore p q).length + (m.partsAt p q).length := by
  obtain ⟨rest, hmap, hrest⟩ := m.map_breakPoint_cut 0 m.breaks
  have hget : (m.spans.map (·.breakPoint))[n]? = some s.breakPoint := by
    simp [hs]
  rw [spans, hmap, breaks_eq_append hle hq, List.append_assoc,
    List.append_assoc] at hget
  have hfrom : (m.breaksIn 0 p).length ≤ n := by
    by_contra hlt
    rw [List.getElem?_append_left (by omega)] at hget
    have hbefore := mem_breaksIn.1 (List.mem_of_getElem? hget)
    omega
  rw [List.getElem?_append_right hfrom] at hget
  have hto : n - (m.breaksIn 0 p).length < (m.breaksIn p (q + 1)).length := by
    by_contra hge
    rw [List.getElem?_append_right (by omega)] at hget
    rcases List.mem_append.1 (List.mem_of_getElem? hget) with hmem | hmem
    · have hbehind := mem_breaksIn.1 hmem
      omega
    · rcases hrest with rfl | rfl
      · cases hmem
      · have hend := List.mem_singleton.1 hmem
        omega
  rw [length_partsBefore, length_partsAt]
  omega

/-- After some breaks, one goes on behind the last. -/
theorem after_append_singleton (start : Nat) (bs : List Nat) (b : Nat) :
    after start (bs ++ [b]) = b + 1 := by
  induction bs generalizing start with
  | nil => rfl
  | cons c bs ih => exact ih (c + 1)

/-- After the breaks up to a place, one goes on behind the first break there. -/
theorem after_upTo {x : Nat} {xs : List Nat}
    (hxs : m.breaksIn p (q + 1) = x :: xs) : after 0 (m.upTo p q) = x + 1 := by
  rw [upTo, hxs]
  exact after_append_singleton 0 _ x

/-- Behind break points the instructions go on after one of them. -/
theorem after_mem {start : Nat} {bs : List Nat} :
    after start bs = start ∨ ∃ b ∈ bs, after start bs = b + 1 := by
  induction bs generalizing start with
  | nil => exact .inl rfl
  | cons b bs ih =>
    rcases @ih (b + 1) with hb | ⟨c, hc, hafter⟩
    · exact .inr ⟨b, List.mem_cons_self, hb⟩
    · exact .inr ⟨c, List.mem_cons_of_mem _ hc, hafter⟩

/-- Behind the break points at a point the instructions go on there. -/
theorem after_breaksIn {x : Nat} {xs : List Nat}
    (hxs : m.breaksIn p (q + 1) = x :: xs) :
    p ≤ after (x + 1) xs ∧ after (x + 1) xs ≤ q + 1 := by
  have hin {k : Nat} (hk : k ∈ x :: xs) : p ≤ k + 1 ∧ k + 1 ≤ q + 1 := by
    have hmem := mem_breaksIn.1 (hxs ▸ hk : k ∈ m.breaksIn p (q + 1))
    omega
  rcases @after_mem (x + 1) xs with heq | ⟨k, hk, heq⟩
  · rw [heq]
    exact hin List.mem_cons_self
  · rw [heq]
    exact hin (List.mem_cons_of_mem x hk)

/-- A part between break points at a point lies there. -/
theorem mem_partsAt {s : Span} (hs : s ∈ m.partsAt p q) :
    p < s.start ∧ s.start ≤ s.breakPoint ∧ s.breakPoint ≤ q ∧
      m.ends s.breakPoint = true := by
  cases hxs : m.breaksIn p (q + 1) with
  | nil =>
    rw [partsAt, hxs] at hs
    cases hs
  | cons x xs =>
    rw [partsAt, after_upTo hxs, hxs] at hs
    have hsorted : ((x :: xs).map (· + 1)).Pairwise (· < ·) :=
      (hxs ▸ m.pairwise_breaksIn p (q + 1)).map _ fun _ _ hlt =>
        Nat.succ_lt_succ hlt
    obtain ⟨hstart, hle, hmem⟩ := le_of_mem_cutAt hsorted hs
    have hx :=
      mem_breaksIn.1 (hxs ▸ List.mem_cons_self : x ∈ m.breaksIn p (q + 1))
    have hb := mem_breaksIn.1 (hxs ▸ List.mem_cons_of_mem x hmem :
      s.breakPoint ∈ m.breaksIn p (q + 1))
    exact ⟨Nat.lt_of_le_of_lt hx.1 hstart, hle, Nat.le_of_lt_succ hb.2.1,
      hb.2.2⟩

/-- If something comes behind a point, so does a part. -/
theorem partsBehind_ne_nil (hseam : m.Seamless p q) (hne : m.partsAt p q ≠ [])
    (hmarkers : ∀ k, p ≤ k → k ≤ q → (m.instr k).isMarker = true) :
    m.partsBehind p q ≠ [] := by
  rcases hxs : m.breaksIn p (q + 1) with _ | ⟨x, xs⟩
  · rw [partsAt, hxs] at hne
    exact absurd rfl hne
  rcases xs.eq_nil_or_concat' with rfl | ⟨xs, y, rfl⟩
  · rw [partsAt, hxs] at hne
    exact absurd rfl hne
  have hmem {k : Nat} : k ∈ x :: xs ++ [y] ↔ p ≤ k ∧ k < q + 1 ∧
      m.ends k = true := by
    rw [← mem_breaksIn, hxs, List.cons_append]
  have hbefore : ∀ k ∈ x :: xs, k < y := fun k hk =>
    (List.pairwise_append.1
      (List.cons_append ▸ hxs ▸ m.pairwise_breaksIn p (q + 1))).2.2 k hk y
      List.mem_cons_self
  obtain ⟨hx, _, hxends⟩ := hmem.1 (List.mem_append_left _ List.mem_cons_self)
  obtain ⟨hy, hyq, hyends⟩ :=
    hmem.1 (List.mem_append_right _ List.mem_cons_self)
  obtain ⟨j, hyj, hj, hdoes⟩ :=
    (hseam x y hx (hbefore x List.mem_cons_self) (Nat.le_of_lt_succ hyq) hxends
      hyends).2
  -- the last break point at the point is `y`, so what comes behind it comes
  -- behind the point
  have hqj : q < j := by
    by_contra hle
    have hends : m.ends j = true := hdoes.resolve_left fun hacts => by
      rw [hmarkers j (by omega) (by omega)] at hacts
      cases hacts
    rcases List.mem_append.1 (hmem.2 ⟨by omega, by omega, hends⟩) with hin | hin
    · exact absurd (hbefore j hin) (by omega)
    · exact absurd (List.mem_singleton.1 hin) (by omega)
  rw [partsBehind, after_upTo hxs, hxs, List.drop_one, List.tail_cons,
    after_append_singleton]
  rcases hbs : m.breaksIn (q + 1) m.length with _ | ⟨b, bs⟩
  · have hacts : m.acts (y + 1) m.length = true := by
      by_contra hidle
      rcases hdoes with hdoes | hends
      · rw [acts_eq_false_iff.1 (Bool.not_eq_true _ ▸ hidle) j hyj hj hj] at hdoes
        cases hdoes
      · exact absurd (hbs ▸ mem_breaksIn.2 ⟨hqj, hj, hends⟩ : j ∈ [])
          List.not_mem_nil
    rw [cut, if_pos hacts]
    exact List.cons_ne_nil _ _
  · exact List.cons_ne_nil _ _

/-- A number between those before a place and those behind it is that of a span
there. -/
theorem exists_partsAt (hle : p ≤ q) (hq : q < m.length) {n : Nat}
    (hn : (m.partsBefore p q).length ≤ n)
    (hn' : n < (m.partsBefore p q).length + (m.partsAt p q).length) :
    ∃ s, m.spans[n]? = some s ∧ s ∈ m.partsAt p q := by
  rw [spans_eq_append hle hq, List.getElem?_append_right hn,
    List.getElem?_append_left (by omega)]
  have hin : n - (m.partsBefore p q).length < (m.partsAt p q).length := by omega
  exact ⟨_, List.getElem?_eq_getElem hin, List.getElem_mem hin⟩

/-- Of the labels at a point only the last one that is referred to handles
exceptions. -/
theorem find?_handler_ne (hle : p ≤ q) (hq : q < m.length)
    (hseam : m.Seamless p q) {r : ExceptionRange} (hr : r ∈ m.ranges) {t : Nat}
    (ht : (m.partsBefore p q).length ≤ t)
    (ht' : t < (m.partsBefore p q).length + (m.partsAt p q).length) :
    m.find? r.handler ≠ some t := by
  intro hfound
  obtain ⟨n, s, rfl, hlt, hs, hlabel⟩ := span_of_find? hfound
  obtain ⟨s', hs', hmem⟩ := exists_partsAt hle hq ht ht'
  have hfits :=
    spanFits_of_cut m.breaksFrom_breaks (Nat.zero_le _) (.inl rfl) hs
  obtain ⟨hlength, hstart⟩ := hfits.next s' hs'
  obtain ⟨hfrom, hwithin, hto, hends⟩ := mem_partsAt hmem
  exact (hseam s.breakPoint s'.breakPoint (by omega) (by omega) hto
    (hfits.closed hlength).1 hends).1 r hr hlabel

end Parts

/-! ## Numbers -/

/-- How many parts come before one, those between break points at a point not
counted. -/
def number (m : Method) (p q n : Nat) : Nat :=
  let c := (m.partsBefore p q).length
  let w := (m.partsAt p q).length
  if n < c then n else if n ≤ c + w then c else n - w

/-- The part before which a number of others come, those between break points at
a point not counted. -/
def numbered (m : Method) (p q n : Nat) : Nat :=
  if n < (m.partsBefore p q).length then n else n + (m.partsAt p q).length

/-- How many parts there are besides those between break points at a point. -/
def size (m : Method) (p q : Nat) : Nat :=
  (m.partsBefore p q).length + (m.partsBehind p q).length

section Numbers

variable {m : Method} {p q : Nat}

/-- Behind the place, the numbers go on without a gap. -/
theorem number_numbered_succ (m : Method) (p q n : Nat) :
    m.number p q (m.numbered p q n + 1) = n + 1 := by
  simp only [number, numbered]
  split <;> split <;> (try split) <;> omega

/-- Outside the place, numbering is undone. -/
theorem numbered_number {n : Nat}
    (hn : n < (m.partsBefore p q).length ∨
      (m.partsBefore p q).length + (m.partsAt p q).length ≤ n) :
    m.numbered p q (m.number p q n) = n := by
  simp only [number, numbered]
  split
  · rfl
  · split
    · rw [if_neg (Nat.lt_irrefl _)]
      omega
    · rw [if_neg (by omega)]
      omega

/-- The spans are counted part by part. -/
theorem length_spans (hle : p ≤ q) (hq : q < m.length) : m.spans.length =
    (m.partsBefore p q).length +
      ((m.partsAt p q).length + (m.partsBehind p q).length) := by
  rw [spans_eq_append hle hq, List.length_append, List.length_append]

/-- The part of a number. -/
theorem getElem?_numbered (hle : p ≤ q) (hq : q < m.length) (t : Nat) :
    m.spans[m.numbered p q t]? =
      (m.partsBefore p q ++ m.partsBehind p q)[t]? := by
  rw [spans_eq_append hle hq, numbered]
  split
  · rw [List.getElem?_append_left ‹_›, List.getElem?_append_left ‹_›]
  · rw [List.getElem?_append_right (by omega),
      List.getElem?_append_right (by omega),
      List.getElem?_append_right (by omega)]
    exact congrArg (fun i => (m.partsBehind p q)[i]?) (by omega)

/-- A part that does not end at a point has a number. -/
theorem exists_numbered (hle : p ≤ q) (hq : q < m.length) {n : Nat} {s : Span}
    (hs : m.spans[n]? = some s)
    (hout : ¬ (p ≤ s.breakPoint ∧ s.breakPoint ≤ q)) :
    ∃ t < m.size p q, m.numbered p q t = n := by
  have hn : n < (m.partsBefore p q).length ∨
      (m.partsBefore p q).length + (m.partsAt p q).length ≤ n := by
    by_contra hin
    obtain ⟨s', hs', hmem⟩ :=
      exists_partsAt hle hq (n := n) (by omega) (by omega)
    obtain rfl := Option.some.inj (hs'.symm.trans hs)
    have hpoint := mem_partsAt hmem
    omega
  refine ⟨m.number p q n, ?_, numbered_number hn⟩
  have hlt := (List.getElem?_eq_some_iff.1 hs).1
  rw [length_spans hle hq] at hlt
  simp only [number, size]
  split <;> (try split) <;> omega

/-- Outside the place, a number is the one given exactly if it is taken back to
it. -/
theorem eq_numbered_iff {n t : Nat}
    (hn : ¬ ((m.partsBefore p q).length ≤ n ∧
      n < (m.partsBefore p q).length + (m.partsAt p q).length)) :
    n = m.numbered p q t ↔ m.number p q n = t := by
  simp only [number, numbered]
  split <;> split <;> (try split) <;> omega

variable (hseam : m.Seamless p q)
    (hmarkers : ∀ k, p ≤ k → k ≤ q → (m.instr k).isMarker = true)
include hseam hmarkers

/-- Where there are spans at a place there are some behind it. -/
theorem partsAt_or_partsBehind :
    (m.partsAt p q).length = 0 ∨ 0 < (m.partsBehind p q).length := by
  refine or_iff_not_imp_left.2 fun hne => List.length_pos_iff.2 ?_
  exact partsBehind_ne_nil hseam (mt List.length_eq_zero_iff.2 hne) hmarkers

variable (hle : p ≤ q) (hq : q < m.length)
include hle hq

/-- The number of all spans becomes the size. -/
theorem number_length_spans : m.number p q m.spans.length = m.size p q := by
  have hcase := partsAt_or_partsBehind hseam hmarkers
  rw [length_spans hle hq]
  simp only [number, size]
  split <;> (try split) <;> omega

/-- The number of the next part. -/
theorem map_number_next {t : Nat} (ht : t < m.size p q) :
    (if m.numbered p q t + 1 < m.spans.length then some (m.numbered p q t + 1)
        else none).map
      (m.number p q) = if t + 1 < m.size p q then some (t + 1) else none := by
  have hcase := partsAt_or_partsBehind hseam hmarkers
  have hiff : m.numbered p q t + 1 < m.spans.length ↔ t + 1 < m.size p q := by
    rw [length_spans hle hq]
    simp only [numbered, size] at ht ⊢
    split <;> omega
  simp only [hiff]
  split
  · exact congrArg some (m.number_numbered_succ p q t)
  · rfl

end Numbers

/-! ## Labels that are referred to -/

/-- The destinations of an instruction are referred to. -/
theorem mem_referred_of_destinations {m : Method} {k : Nat} {l : Label}
    (hl : l ∈ (m.instr k).destinations) : l ∈ m.referred := by
  have hlen : k < m.length := lt_length_of_instr rfl fun hnop => by
    rw [hnop] at hl
    cases hl
  exact List.mem_append_left _ (mem_targets.2 ⟨k, hlen, hl⟩)

/-- The labels of an exception range are referred to. -/
theorem mem_referred_of_ranges {m : Method} {r : ExceptionRange}
    (hr : r ∈ m.ranges) :
    r.start ∈ m.referred ∧ r.stop ∈ m.referred ∧ r.handler ∈ m.referred := by
  have hmem {l : Label} (hl : l ∈ [r.start, r.stop, r.handler]) :
      l ∈ m.referred :=
    List.mem_append_right _ (List.mem_flatMap.2 ⟨r, hr, hl⟩)
  exact ⟨hmem (by simp), hmem (by simp), hmem (by simp)⟩

/-- Targets are grouped like the labels that lead to them. -/
theorem getElem?_targets_iff {m : Method} {ls : List Label} {ts : List Nat}
    (h : ls.map m.find? = ts.map some) (n k : Nat) : ts[n]? = ts[k]? ↔
      ls[n]? = ls[k]? := by
  have hget (n : Nat) : ls[n]?.map m.find? = ts[n]?.map some := by
    rw [← List.getElem?_map, ← List.getElem?_map, h]
  have hinj : Function.Injective (Option.map (some : Nat → Option Nat)) :=
    Option.map_injective (Option.some_injective Nat)
  rw [← hinj.eq_iff, ← hget, ← hget]
  refine ⟨fun heq => ?_, congrArg _⟩
  have hn := hget n
  cases hl : ls[n]? with
  | none =>
    rw [hl] at heq
    exact (Option.map_eq_none_iff.1 heq.symm).symm
  | some l =>
    rw [hl] at heq hn
    obtain ⟨l', hl', heq⟩ := Option.map_eq_some_iff.1 heq.symm
    obtain ⟨t, _, ht⟩ := Option.map_eq_some_iff.1 hn.symm
    -- both labels stand in front of the same part
    obtain ⟨_, s, rfl, _, hs, hfound⟩ := span_of_find? ht.symm
    obtain ⟨_, s', hsucc, _, hs', hfound'⟩ := span_of_find? (heq.trans ht.symm)
    obtain rfl := Nat.succ.inj hsucc
    obtain rfl := Option.some.inj (hs.symm.trans hs')
    have hlabel := (label?_instr_of_labelIndex? hfound).symm.trans
      (label?_instr_of_labelIndex? hfound')
    rw [hl', Option.some.inj hlabel]

end Method

end Decompiler
