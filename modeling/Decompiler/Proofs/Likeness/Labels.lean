import Decompiler.Proofs.Likeness.Swaps

/-!
# Labels at one point are interchangeable

It does not matter which of two labels at one point a jump, a switch or an
exception range refers to, with three exceptions.  A label that handles
exceptions keeps a block of its own, even if another one at its point is
referred to.  Where no block comes behind, there is none to lead on to.  And the
keys of a switch are told apart by their labels.

* `Method.Swaps.number_find?`: a label leads to the same number.
* `Method.Swaps.settlesLike`: the graphs are alike.
* `decompile_of_swaps`: the statements are the same, or the kind of the fault.
-/

namespace Decompiler

namespace Method

/-! ## The graphs of two methods -/

namespace Swaps

variable {m m' : Method} {a b : Label} {p q : Nat} (h : m.Swaps m' a b p q)
  (hseam : m.Seamless p q)
include h

/-- Equally many spans stand in front. -/
theorem length_partsBefore_eq :
    (m'.partsBefore p q).length = (m.partsBefore p q).length :=
  h.partsBefore_like.length_eq.symm

/-- Equally many spans there are in all. -/
theorem size_eq : m'.size p q = m.size p q := by
  rw [size, size, h.length_partsBefore_eq, h.partsBehind_like.length_eq]

/-- The parts of one number are alike. -/
theorem span_like {t : Nat} (ht : t < m.size p q) : ∃ s s',
    m.spans[m.numbered p q t]? = some s ∧
      m'.spans[m'.numbered p q t]? = some s' ∧
        s.Like m id (Moved m m' p q) s' := by
  have hparts := List.rel_append h.partsBefore_like h.partsBehind_like
  have hlt : t < (m.partsBefore p q ++ m.partsBehind p q).length := by
    rwa [List.length_append]
  have hlt' := hparts.length_eq ▸ hlt
  rw [getElem?_numbered h.le h.lt_length,
    getElem?_numbered h.le h.symm.lt_length]
  exact ⟨_, _, List.getElem?_eq_getElem hlt, List.getElem?_eq_getElem hlt',
    hparts.get hlt hlt'⟩

include hseam

/-- A block between break points at the point does nothing and runs into the
next one. -/
theorem isBusy_partsAt {g : Graph} (hg : m.graph = .ok g) {n : Nat}
    (hn : (m.partsBefore p q).length ≤ n)
    (hn' : n < (m.partsBefore p q).length + (m.partsAt p q).length) :
    g.isBusy m n = false := by
  obtain ⟨s, hs, hmem⟩ := exists_partsAt h.le h.lt_length hn hn'
  obtain ⟨hstart, hwithin, hstop, hends⟩ := mem_partsAt hmem
  obtain ⟨l, hl⟩ := h.instr_eq_label (by omega) hstop hends
  obtain ⟨targets, preds, _, hblock⟩ := block_of_graph hg hs
  have hnext : n + 1 < m.spans.length := by
    have hcase := partsAt_or_partsBehind hseam fun _ => h.isMarker
    rw [length_spans h.le h.lt_length]
    omega
  have hentry : m.entryOf m.find? n = .plain := entryOf_eq_plain fun r hr =>
    find?_handler_ne h.le h.lt_length hseam hr hn hn'
  have hidle : m.acts s.start s.stop = false := by
    rw [stop_of_mem_cut (List.mem_of_getElem? hs),
      h.bodyStop_eq (by omega) hstop]
    exact acts_eq_false_iff.2 fun k hk hlt _ => h.isMarker (by omega) (by omega)
  rw [Graph.isBusy, hblock, Block.bypass?]
  simp only [hentry, hl, if_pos hnext, hidle]
  rfl

/-- Numbers skip the blocks between break points at the point. -/
theorem skips {g : Graph} (hg : m.graph = .ok g) :
    g.Skips m (m.number p q) (m.numbered p q) where
  zero := by
    simp only [number]
    split <;> (try split) <;> omega
  step n := by
    by_cases hin : (m.partsBefore p q).length ≤ n ∧
        n < (m.partsBefore p q).length + (m.partsAt p q).length
    · refine .inl ⟨h.isBusy_partsAt hseam hg hin.1 hin.2, ?_⟩
      simp only [number]
      rw [if_neg (by omega), if_pos (by omega), if_neg (by omega),
        if_pos (by omega)]
    · have hback :=
        numbered_number (m := m) (p := p) (q := q) (n := n) (by omega)
      have hsucc := m.number_numbered_succ p q (m.number p q n)
      rw [hback] at hsucc
      exact .inr ⟨hsucc, hback⟩

/-- A label at the point leads behind it. -/
theorem number_find?_at {l : Label} (hl : l ∈ m.referred) {k : Nat}
    (hk : m.labelIndex? l = some k) (hp : p ≤ k) (hq : k ≤ q) :
    (m.find? l).map (m.number p q) = if (m.partsBefore p q).length <
      m.size p q then
      some (m.partsBefore p q).length else none := by
  have hbreak : k ∈ m.breaks :=
    mem_breaks.2 ⟨Nat.lt_of_le_of_lt hq h.lt_length, ends_iff.2 (.inr ⟨l, hl, hk⟩)⟩
  obtain ⟨n, s, hs, rfl⟩ := exists_span_of_mem (m := m) 0 hbreak
  obtain ⟨hfrom, hto⟩ := place_of_span h.le h.lt_length hs hp hq
  have hcase := partsAt_or_partsBehind hseam fun _ => h.isMarker
  have hiff : n + 1 < m.spans.length ↔
      (m.partsBefore p q).length < m.size p q := by
    rw [length_spans h.le h.lt_length, size]
    omega
  rw [find?_of_span hs hk]
  simp only [hiff]
  split
  · rw [Option.map_some, number, if_neg (by omega), if_pos (by omega)]
  · rfl

/-- A handler is found at a part if it is found at its number. -/
theorem find?_handler_iff {r : ExceptionRange} (hr : r ∈ m.ranges)
    (t : Nat) : m.find? r.handler = some (m.numbered p q t) ↔
      (m.find? r.handler).map (m.number p q) = some t := by
  cases hfound : m.find? r.handler with
  | none => simp
  | some n =>
    have hout : ¬ ((m.partsBefore p q).length ≤ n ∧
        n < (m.partsBefore p q).length + (m.partsAt p q).length) := fun hin =>
      find?_handler_ne h.le h.lt_length hseam hr hin.1 hin.2 hfound
    rw [Option.map_some, Option.some_inj, Option.some_inj]
    exact eq_numbered_iff hout

variable (hseam' : m'.Seamless p q)
include hseam'

/-- **A label leads to the same number.** -/
theorem number_find? {l l' : Label} (hl : l ∈ m.referred)
    (hl' : l' ∈ m'.referred) (hswap : Label.Swaps a b l l') :
    (m'.find? l').map (m'.number p q) = (m.find? l).map (m.number p q) := by
  have hpoint {k k' : Nat} (hk : m.labelIndex? l = some k)
      (hk' : m.labelIndex? l' = some k')
      (hin : p ≤ k ∧ k ≤ q) (hin' : p ≤ k' ∧ k' ≤ q) :
      (m'.find? l').map (m'.number p q) = (m.find? l).map (m.number p q) := by
    rw [h.number_find?_at hseam hl hk hin.1 hin.2,
      h.symm.number_find?_at hseam' hl' (h.labelIndex?_eq ▸ hk') hin'.1 hin'.2,
      h.length_partsBefore_eq, h.size_eq]
  rcases h.at_point hswap with rfl | ⟨k, k', hk, hk', hin, hin'⟩
  · cases hk : m.labelIndex? l' with
    | none =>
      rw [find?_eq_none hk, find?_eq_none (h.labelIndex?_eq ▸ hk)]
      rfl
    | some k =>
      by_cases hin : p ≤ k ∧ k ≤ q
      · exact hpoint hk hk hin hin
      have hlen : k < m.length := lt_length_of_instr rfl fun hnop => by
        have hlabel := label?_instr_of_labelIndex? hk
        rw [hnop] at hlabel
        cases hlabel
      obtain ⟨n, s, hs, rfl⟩ := exists_span_of_mem (m := m) 0
        (mem_breaks.2 ⟨hlen, ends_iff.2 (.inr ⟨l', hl, hk⟩)⟩)
      -- the part that the label ends has its number in both methods
      obtain ⟨t, ht, rfl⟩ := exists_numbered h.le h.lt_length hs hin
      obtain ⟨s, s', hs₀, hs', hlike⟩ := h.span_like ht
      obtain rfl := Option.some.inj (hs₀.symm.trans hs)
      have hstays := hlike.breakPoint.eq_of_outside hin
      rw [find?_of_span hs hk,
        find?_of_span hs' (h.labelIndex?_eq ▸ hstays ▸ hk),
        map_number_next hseam (fun _ => h.isMarker) h.le h.lt_length ht,
        map_number_next hseam' (fun _ => h.symm.isMarker) h.le h.symm.lt_length
          (h.size_eq.symm ▸ ht), h.size_eq]
  · exact hpoint hk hk' hin hin'

/-- Break points that correspond have targets of the same numbers. -/
theorem map_number_eq {k k' : Nat} (hk : Moved m m' p q k k')
    {ts ts' : List Nat}
    (hts : (m.instr k).destinations.map m.find? = ts.map some)
    (hts' : (m'.instr k').destinations.map m'.find? = ts'.map some) :
    ts'.map (m'.number p q) = ts.map (m.number p q) := by
  have hread {find : Label → Option Nat} {f : Nat → Nat} {ls : List Label}
      {ts : List Nat} (hts : ls.map find = ts.map some) :
      ls.map (fun l => (find l).map f) = (ts.map f).map some := by
    have hmap := congrArg (List.map (Option.map f)) hts
    rw [List.map_map, List.map_map] at hmap
    rw [List.map_map]
    exact hmap
  refine List.map_injective_iff.2 (Option.some_injective Nat) ?_
  rw [← hread hts, ← hread hts']
  refine (map_eq_of_forall₂
    (h.destinations_of_moved hk) fun l hl l' hl' hswap => ?_).symm
  exact (h.number_find? hseam hseam' (mem_referred_of_destinations hl)
    (mem_referred_of_destinations hl') hswap).symm

/-- The blocks of one number match. -/
theorem matches_block
    (hgroups : List.Forall₂ Instr.GroupsLike m.instrs m'.instrs) {g g' : Graph}
    (hg : m.graph = .ok g) (hg' : m'.graph = .ok g') {t : Nat}
    (ht : t < m.size p q) :
    (g.block (m.numbered p q t)).Matches m m' id (m.number p q) (m'.number p q)
      (g'.block (m'.numbered p q t)) := by
  obtain ⟨s, s', hs, hs', hlike⟩ := h.span_like ht
  obtain ⟨targets, _, htargets, hblock⟩ := block_of_graph hg hs
  obtain ⟨targets', _, htargets', hblock'⟩ := block_of_graph hg' hs'
  have hbare := h.bare_of_moved hlike.breakPoint
  refine matches_of_graph hg hg' hs hs' hbare hlike.start hlike.stop ?_ ?_
  · rw [hblock, hblock']
    refine exitTo_like hbare ?_ ?_ fun keys hkeys n hn k hk => ?_
    · rw [map_number_next hseam (fun _ => h.isMarker) h.le h.lt_length ht,
        map_number_next hseam' (fun _ => h.symm.isMarker) h.le h.symm.lt_length
          (h.size_eq.symm ▸ ht), h.size_eq]
    · exact h.map_number_eq hseam hseam' hlike.breakPoint htargets htargets'
    · rw [getElem?_targets_iff htargets, getElem?_targets_iff htargets']
      exact h.groups_of_moved hgroups hlike.breakPoint keys hkeys n hn k hk
  · rw [hblock, hblock']
    refine entryOf_like (forall₂_imp_mem h.ranges fun r hr r' hr' hlike =>
      ⟨hlike.type, ?_⟩)
    rw [h.find?_handler_iff hseam hr, h.symm.find?_handler_iff hseam' hr',
      h.number_find? hseam hseam' (mem_referred_of_ranges hr).2.2
        (mem_referred_of_ranges hr').2.2 hlike.handler]

/-- **The graphs are alike.** -/
theorem settlesLike (hgroups : List.Forall₂ Instr.GroupsLike m.instrs m'.instrs)
    {g g' : Graph} (hg : m.graph = .ok g) (hg' : m'.graph = .ok g') :
    Graph.SettlesLike m m' id
      (fun l l' => Label.Swaps a b l l' ∧ l ∈ m.referred ∧ l' ∈ m'.referred) g
        g' := by
  have hcount : m.number p q g.blocks.length = m.size p q := by
    rw [length_of_graph hg,
      number_length_spans hseam (fun _ => h.isMarker) h.le h.lt_length]
  have hcount' : m'.number p q g'.blocks.length = m.size p q := by
    rw [length_of_graph hg',
      number_length_spans hseam' (fun _ => h.symm.isMarker) h.le
      h.symm.lt_length, h.size_eq]
  refine (h.skips hseam hg).settlesLike (h.symm.skips hseam' hg') h.mirrors
    (hcount'.trans hcount.symm)
    (fun t ht => h.matches_block hseam hseam' hgroups hg hg' (hcount ▸ ht))
    fun l l' ⟨hswap, hl, hl'⟩ => ?_
  rw [blockAt?_of_graph hg, blockAt?_of_graph hg',
    h.number_find? hseam hseam' hl hl' hswap]

/-- The labels of jumps and switches are found in both methods, or not. -/
theorem found_iff : (∀ l ∈ m.targets, ∃ t, m.find? l = some t) ↔
    ∀ l ∈ m'.targets, ∃ t, m'.find? l = some t := by
  have hmap : m.targets.map (fun l => (m.find? l).isSome) =
      m'.targets.map fun l => (m'.find? l).isSome :=
    map_eq_of_forall₂ h.targets fun l hl l' hl' hswap => by
      have hnumber := congrArg Option.isSome (h.number_find? hseam hseam'
        (List.mem_append_left _ hl) (List.mem_append_left _ hl') hswap)
      rw [Option.isSome_map, Option.isSome_map] at hnumber
      exact hnumber.symm
  simp only [← Option.isSome_iff_exists]
  rw [← List.forall_mem_map (P := (· = true))
    (f := fun l => (m.find? l).isSome), hmap, List.forall_mem_map]

end Swaps

end Method

/-! ## Decompiling -/

/-- **Labels at one point are interchangeable**, as long as none of them keeps a
block of its own and the keys of switches are grouped alike.  The statements are
the same, whichever label is referred to; and if there are none, the fault is of
the same kind. -/
theorem decompile_of_swaps {m m' : Method} {a b : Label} {p q : Nat}
    (h : m.Swaps m' a b p q) (hseam : m.Seamless p q) (hseam' : m'.Seamless p q)
    (hgroups : List.Forall₂ Instr.GroupsLike m.instrs m'.instrs)
    (recover : Recoveries) :
    (m'.decompile .empty recover).mapError Fault.kind =
      (m.decompile .empty recover).mapError Fault.kind := by
  let ctx (m : Method) : Context := ⟨m, LocalTable.empty.lookup, recover⟩
  have hctx : (ctx m).Mirrors (ctx m') id := ⟨h.mirrors, rfl, fun _ _ => rfl⟩
  have hgraph :=
    Method.endsAlike_graph (h.found_iff hseam hseam') fun g g' hg hg' =>
      h.settlesLike hseam hseam' hgroups hg hg'
  refine (hctx.decompile (forall₂_imp_mem h.ranges fun r hr r' hr' hlike => ?_)
    hgraph).symm.mapError_eq
  obtain ⟨hstart, hstop, hhandler⟩ := Method.mem_referred_of_ranges hr
  obtain ⟨hstart', hstop', hhandler'⟩ := Method.mem_referred_of_ranges hr'
  exact ⟨hlike.type, ⟨hlike.start, hstart, hstart'⟩,
    ⟨hlike.stop, hstop, hstop'⟩, hlike.handler, hhandler, hhandler'⟩

/-- Two keys and the default of a switch, and a jump, at the other of two
labels. -/
theorem decompile_of_swaps_switch :
    let m : Method :=
      { instrs :=
        [.load .int 0, .lookupSwitch ⟨2⟩ [(1, ⟨1⟩), (2, ⟨1⟩), (3, ⟨3⟩)],
          .label ⟨3⟩, .call .static ⟨"C", "x", "()V"⟩, .goto ⟨2⟩, .label ⟨1⟩,
          .line 5, .label ⟨2⟩,
          .call .static ⟨"C", "y", "()V"⟩, .ret none], ranges := [] }
    let m' : Method :=
      { instrs :=
        [.load .int 0, .lookupSwitch ⟨1⟩ [(1, ⟨2⟩), (2, ⟨2⟩), (3, ⟨3⟩)],
          .label ⟨3⟩, .call .static ⟨"C", "x", "()V"⟩, .goto ⟨1⟩, .label ⟨1⟩,
          .line 5, .label ⟨2⟩,
          .call .static ⟨"C", "y", "()V"⟩, .ret none], ranges := [] }
    m.Swaps m' ⟨1⟩ ⟨2⟩ 5 7 ∧ m.Seamless 5 7 ∧ m'.Seamless 5 7 ∧
      List.Forall₂ Instr.GroupsLike m.instrs m'.instrs ∧
      (m'.decompile .empty {}).mapError Fault.kind =
        (m.decompile .empty {}).mapError Fault.kind ∧
      (m.decompile .empty {}).toOption.map List.length = some 3 := by
  intro m m'
  have hfirst : Label.Swaps ⟨1⟩ ⟨2⟩ ⟨1⟩ ⟨2⟩ := .inr ⟨.inl rfl, .inr rfl⟩
  have hswitch :
      (Instr.lookupSwitch ⟨2⟩ [(1, ⟨1⟩), (2, ⟨1⟩), (3, ⟨3⟩)]).Redirected
      (Label.Swaps ⟨1⟩ ⟨2⟩)
      (.lookupSwitch ⟨1⟩ [(1, ⟨2⟩), (2, ⟨2⟩), (3, ⟨3⟩)]) :=
    ⟨rfl, rfl,
      .cons hfirst (.cons hfirst (.cons (.inl rfl) (.cons hfirst.symm .nil)))⟩
  have hgoto : (Instr.goto ⟨2⟩).Redirected (Label.Swaps ⟨1⟩ ⟨2⟩) (.goto ⟨1⟩) :=
    ⟨rfl, rfl, .cons hfirst.symm .nil⟩
  have hswaps : m.Swaps m' ⟨1⟩ ⟨2⟩ 5 7 :=
    { first := rfl
      last := rfl
      le := by decide
      idle := rfl
      instrs := .cons (.refl _) <| .cons hswitch <| .cons (.refl _) <|
      .cons (.refl _) <|
        .cons hgoto <| .cons (.refl _) <| .cons (.refl _) <| .cons (.refl _) <|
        .cons (.refl _) <| .cons (.refl _) .nil
      ranges := .nil }
  have hseam : m.Seamless 5 7 := fun k k' _ _ hk' _ _ =>
    ⟨fun _ hr => (List.not_mem_nil hr).elim, 8,
      Nat.lt_succ_of_le hk', by decide, .inl rfl⟩
  have hseam' : m'.Seamless 5 7 := fun k k' _ _ hk' _ _ =>
    ⟨fun _ hr => (List.not_mem_nil hr).elim, 8,
      Nat.lt_succ_of_le hk', by decide, .inl rfl⟩
  have hplain {i i' : Instr} (hi : i.switchKeys? = none) : i.GroupsLike i' :=
    fun _ hkeys => by
      rw [hi] at hkeys
      cases hkeys
  have hkeys :
      (Instr.lookupSwitch ⟨2⟩ [(1, ⟨1⟩), (2, ⟨1⟩), (3, ⟨3⟩)]).GroupsLike
      (.lookupSwitch ⟨1⟩ [(1, ⟨2⟩), (2, ⟨2⟩), (3, ⟨3⟩)]) := fun keys hkeys => by
    obtain rfl := Option.some.inj hkeys
    decide
  have hgroups : List.Forall₂ Instr.GroupsLike m.instrs m'.instrs :=
    .cons (hplain rfl) <| .cons hkeys <| .cons (hplain rfl) <|
      .cons (hplain rfl) <|
      .cons (hplain rfl) <| .cons (hplain rfl) <| .cons (hplain rfl) <|
      .cons (hplain rfl) <| .cons (hplain rfl) <| .cons (hplain rfl) .nil
  exact ⟨hswaps, hseam, hseam', hgroups,
    decompile_of_swaps hswaps hseam hseam' hgroups {}, by decide +kernel⟩

/-- How many cases or handlers a statement has. -/
def Statement.width : Statement → Nat
  | .switch _ _ cases => cases.length
  | .tryCatch _ catches => catches.length
  | _ => 0

/-- How many cases or handlers the statements of a method have, if there are
statements. -/
def Method.widths? (m : Method) : Option (List Nat) :=
  (m.decompile .empty {}).toOption.map (·.map Statement.width)

/-- Methods of different widths are not decompiled alike. -/
theorem Method.decompile_ne_of_widths? {m m' : Method}
    (h : m'.widths? ≠ m.widths?) :
    (m'.decompile .empty {}).mapError Fault.kind ≠
      (m.decompile .empty {}).mapError Fault.kind :=
  fun heq => h <| by
    have hread (x : Except Fault (List Statement)) :
        (x.mapError Fault.kind).toOption = x.toOption := by cases x <;> rfl
    rw [widths?, widths?, ← hread, ← hread, heq]

/-- Where a label keeps a block of its own, or keys are told apart, it matters
which of two labels is referred to.  A jump to the label of a handler takes the
try statement away; a jump to the last label of a method is not resolved; and
two keys of a switch with a label each have a case each. -/
theorem swaps_matter :
    let call (name : String) : Instr := .call .static ⟨"C", name, "()V"⟩
    let handled (l : Label) : Method :=
      { instrs := [.label ⟨0⟩, call "x", .label ⟨1⟩, .goto l, .label ⟨2⟩,
          .label ⟨3⟩, call "y", .ret none],
        ranges := [⟨⟨0⟩, ⟨1⟩, ⟨2⟩, some "A"⟩]
        labels_nodup := (by decide : [(⟨0⟩ : Label), ⟨1⟩, ⟨2⟩, ⟨3⟩].Nodup) }
    let ended (l : Label) : Method :=
      { instrs := [.label ⟨0⟩, call "x", .goto l, .label ⟨3⟩, call "y",
        .label ⟨1⟩, .label ⟨2⟩],
        ranges := [⟨⟨0⟩, ⟨2⟩, ⟨3⟩, some "A"⟩]
        labels_nodup := (by decide : [(⟨0⟩ : Label), ⟨3⟩, ⟨1⟩, ⟨2⟩].Nodup) }
    let selected (l : Label) : Method :=
      { instrs := [.load .int 0, .lookupSwitch ⟨9⟩ [(1, ⟨1⟩), (2, l)],
          .label ⟨1⟩, .label ⟨2⟩, call "x", .label ⟨9⟩, .ret none],
        ranges := []
        labels_nodup := (by decide : [(⟨1⟩ : Label), ⟨2⟩, ⟨9⟩].Nodup) }
    let result (m : Method) : Except Fault.Kind (List Statement) :=
      (m.decompile .empty {}).mapError Fault.kind
    (handled ⟨3⟩).Swaps (handled ⟨2⟩) ⟨2⟩ ⟨3⟩ 4 5 ∧
    result (handled ⟨2⟩) ≠ result (handled ⟨3⟩) ∧
    (ended ⟨1⟩).Swaps (ended ⟨2⟩) ⟨1⟩ ⟨2⟩ 5 6 ∧
    result (ended ⟨2⟩) ≠ result (ended ⟨1⟩) ∧
      (selected ⟨1⟩).Swaps (selected ⟨2⟩) ⟨1⟩ ⟨2⟩ 2 3 ∧
      result (selected ⟨2⟩) ≠ result (selected ⟨1⟩) := by
  intro call handled ended selected result
  have hother {a b : Label} : Label.Swaps a b a b := .inr ⟨.inl rfl, .inr rfl⟩
  have hgoto {a b l l' : Label} (hl : Label.Swaps a b l l') :
      (Instr.goto l).Redirected (Label.Swaps a b) (.goto l') :=
        ⟨rfl, rfl, .cons hl .nil⟩
  have hranges {a b : Label} (rs : List ExceptionRange) :
      List.Forall₂ (ExceptionRange.Like (Label.Swaps a b)) rs rs :=
    List.forall₂_same.2 fun _ _ => ⟨rfl, .inl rfl, .inl rfl, .inl rfl⟩
  refine ⟨⟨rfl, rfl, by decide, rfl, ?_, hranges _⟩, ?_,
    ⟨rfl, rfl, by decide, rfl, ?_, hranges _⟩, ?_,
    ⟨rfl, rfl, by decide, rfl, ?_, .nil⟩, ?_⟩
  · exact .cons (.refl _) <| .cons (.refl _) <| .cons (.refl _) <|
      .cons (hgoto hother.symm) <|
      .cons (.refl _) <| .cons (.refl _) <| .cons (.refl _) <|
      .cons (.refl _) .nil
  · have hthree : (handled ⟨3⟩).widths? = some [1, 0, 0] := by decide +kernel
    have htwo : (handled ⟨2⟩).widths? = some [0, 0, 0] := by decide +kernel
    exact Method.decompile_ne_of_widths? (by rw [hthree, htwo]; decide)
  · exact .cons (.refl _) <| .cons (.refl _) <| .cons (hgoto hother) <|
      .cons (.refl _) <|
      .cons (.refl _) <| .cons (.refl _) <| .cons (.refl _) .nil
  · have hone : (ended ⟨1⟩).widths? = some [0, 0] := by decide +kernel
    have htwo : (ended ⟨2⟩).widths? = none := by decide +kernel
    exact Method.decompile_ne_of_widths? (by rw [hone, htwo]; decide)
  · exact .cons (.refl _) <|
      .cons ⟨rfl, rfl, .cons (.inl rfl) (.cons hother (.cons (.inl rfl) .nil))⟩ <|
      .cons (.refl _) <| .cons (.refl _) <| .cons (.refl _) <|
      .cons (.refl _) <| .cons (.refl _) .nil
  · have hone : (selected ⟨1⟩).widths? = some [1, 0] := by decide +kernel
    have htwo : (selected ⟨2⟩).widths? = some [2, 0] := by decide +kernel
    exact Method.decompile_ne_of_widths? (by rw [hone, htwo]; decide)

end Decompiler
