import Decompiler.Proofs.Graph.Idempotent
import Decompiler.Proofs.Switches.Bytecode

/-!
# Blocks of switch code

A block of switch code is a stretch of calls and the instruction that ends it:
a jump, a return, or a local variable with the switch on it.  Its edges lead
where that instruction goes, and for a switch this means: for every value the
arm that lists it leads where the table sends it.

* `Routed`: a block is a stretch with its ending, and its edges are right;
  `MadeFrom.routed` says so of the blocks that a method is cut into.
* `Routing`: every block is routed while a graph is made tidy.
* `Graph.Selects`: what is known of the tidy graph; `selects_of_tidy`.
-/

namespace Decompiler

variable {m : Method} {g g' : Graph} {dropped : List Nat} {first : Nat}

/-- A block is a stretch with its ending, and its edges lead where the ending
goes. -/
inductive Routed (m : Method) (g : Graph) (b : Block) : Prop
  | falls {next : Option Nat} (exit : b.exit = .falls next)
      (le : b.start ≤ b.stop) (straight : m.Straight b.start b.stop)
      (leads : g.Reaches m b.stop next)
  | jumps {t target : Nat} {l : Label} (exit : b.exit = .jumps t)
      (le : b.start ≤ b.stop)
      (straight : m.Straight b.start b.stop) (goto : m.instr b.stop = .goto l)
      (index : m.labelIndex? l = some target)
      (leads : g.Reaches m target (some t)) (forward : b.stop < target)
  | selects {arms : List SwitchArm} {other k slot : Nat}
      {pairs : List (Int32 × Label)}
      {default : Label} (exit : b.exit = .selects arms other)
      (stop : b.stop = k + 1)
      (le : b.start ≤ k) (straight : m.Straight b.start k)
      (load : m.instr k = .load .int slot)
      (table : (m.instr (k + 1)).switchTable? = some (pairs, default))
      (breakPoint : b.breakPoint = k + 1)
      (apart : arms.Pairwise fun a c => ∀ key ∈ a.keys, key ∉ c.keys)
      (leads : ∀ value, ∃ t target, b.exit.next? (.value value) = some t ∧
        m.labelIndex? ((pairs.lookup value).getD default) = some target ∧
        g.Reaches m target (some t))
      (forward : ∀ t ∈ b.exit.successors, ∃ target, k + 1 < target ∧
        g.Reaches m target (some t))
  | returns {k : Nat} (exit : b.exit = .returns) (stop : b.stop = k + 1)
      (le : b.start ≤ k)
      (straight : m.Straight b.start k) (ret : m.instr k = .ret none)

namespace Routed

variable {b b' : Block}

theorem of_falls (h : Routed m g b) {next : Option Nat}
    (hexit : b.exit = .falls next) :
    b.start ≤ b.stop ∧ m.Straight b.start b.stop ∧ g.Reaches m b.stop next := by
  cases h with
  | falls exit le straight leads =>
    cases hexit.symm.trans exit
    exact ⟨le, straight, leads⟩
  | jumps exit | selects exit | returns exit => cases hexit.symm.trans exit

/-- A block with redirected edges is routed if they lead where they led
before. -/
theorem map (h : Routed m g b) {f : Nat → Nat}
    (hexit : b'.exit = b.exit.mapTargets f) (hstart : b'.start = b.start)
    (hstop : b'.stop = b.stop) (hbreak : b'.breakPoint = b.breakPoint)
    (hreaches : ∀ (i : Nat) (next : Option Nat),
      (∀ t ∈ next, t ∈ b.exit.successors) →
      g.Reaches m i next → g'.Reaches m i (next.map f)) : Routed m g' b' := by
  cases h with
  | falls exit le straight leads =>
    rw [exit] at hexit
    rw [← hstart, ← hstop] at le straight
    rw [← hstop] at leads
    exact .falls hexit le straight
      (hreaches _ _ (by simp [exit, Exit.successors]) leads)
  | jumps exit le straight goto index leads forward =>
    rw [exit] at hexit
    rw [← hstart, ← hstop] at le straight
    rw [← hstop] at goto forward
    exact .jumps hexit le straight goto index
      (hreaches _ _ (by simp [exit, Exit.successors]) leads) forward
  | selects exit stop le straight load table breakPoint apart leads forward =>
    have hnext (value : Int32) := Exit.next?_mapTargets b.exit f (.value value)
    have hsuccessors := Exit.successors_mapTargets f b.exit
    rw [← hexit] at hnext hsuccessors
    rw [exit] at hexit
    rw [← hstop] at stop
    rw [← hstart] at le straight
    rw [← hbreak] at breakPoint
    refine .selects hexit stop le straight load table breakPoint
      (List.pairwise_map.2 apart) (fun value => ?_) fun t ht => ?_
    · obtain ⟨t, target, ht, htarget, hleads⟩ := leads value
      refine ⟨f t, target, by rw [hnext, ht, Option.map_some], htarget, ?_⟩
      exact hreaches target (some t)
        (fun s hs => Option.some.inj hs ▸ Exit.mem_successors_of_next? ht)
        hleads
    · rw [hsuccessors] at ht
      obtain ⟨s, hs, rfl⟩ := List.mem_map.1 ht
      obtain ⟨target, hlt, hleads⟩ := forward s hs
      exact ⟨target, hlt,
        hreaches target (some s) (fun r hr => Option.some.inj hr ▸ hs) hleads⟩
  | returns exit stop le straight ret =>
    rw [exit] at hexit
    rw [← hstop] at stop
    rw [← hstart] at le straight
    exact .returns hexit stop le straight ret

end Routed

/-! ## Graphs that are built -/

/-- A block of switch code up to its break point: labels and calls that return
nothing, and at most the local that the switch at the break point is on. -/
theorem Method.straight_or_load (hcode : m.isSwitchCode = true)
    {start stop k : Nat} (hstop : stop ≤ m.length)
    (hinside : ∀ k, start ≤ k → k < stop → (m.instr k).endsBlock = false)
    (hk : start ≤ k) (hkstop : k < stop) :
    ((∃ l, m.instr k = .label l) ∨ ∃ f, m.instr k = .call .static f ∧
        f.descriptor = "()V") ∨
      k + 1 = stop ∧ ∃ table, (m.instr stop).switchTable? = some table := by
  have hends {i : Instr} {table : List (Int32 × Label) × Label}
      (h : i.switchTable? = some table) : i.endsBlock = true := by
    rw [Instr.endsBlock, Instr.control_of_switchTable? h]
  have hkind := selectInstr hcode (show k < m.length by omega)
  have hplain := hinside k hk hkstop
  generalize m.instr k = x at hkind hplain
  cases hkind with
  | label l => exact .inl (.inl ⟨l, rfl⟩)
  | goto | ret => cases hplain
  | call hf => exact .inl (.inr ⟨_, rfl, hf⟩)
  | load next =>
    have hlast : k + 1 = stop := by
      rcases Nat.lt_or_ge (k + 1) stop with hlt | hge
      · have hswitch := hinside (k + 1) (by omega) hlt
        rw [hends next] at hswitch
        cases hswitch
      · omega
    exact .inr ⟨hlast, _, hlast ▸ next⟩
  | switch _ table =>
    rw [hends table] at hplain
    cases hplain

/-- A block that starts behind a label is reached from the label. -/
theorem Graph.reaches_of_startingAt? {l : Label} {t : Nat}
    (h : (m.behind? l).bind g.startingAt? = some t) :
    ∃ i, m.labelIndex? l = some i ∧ g.Reaches m i (some t) := by
  obtain ⟨j, hj, ht⟩ := Option.bind_eq_some_iff.1 h
  obtain ⟨i, hi, rfl⟩ := Option.map_eq_some_iff.1 hj
  have hstart : (g.block t).start = i + 1 := by simpa using List.find?_some ht
  have hlt : t < g.blocks.length :=
    List.mem_range.1 (List.mem_of_find?_eq_some ht)
  have hreaches : g.Reaches m (i + 1) (some t) :=
    ⟨hlt, Nat.le_of_eq hstart.symm, by rw [hstart]; exact m.acts_self _⟩
  refine ⟨i, hi, hreaches.of_marker ?_⟩
  have hlabel := Method.label?_instr_of_labelIndex? hi
  generalize m.instr i = x at hlabel
  cases x with
  | label => rfl
  | _ => cases hlabel

/-- Keys that are listed once are in one arm. -/
theorem Grouped.pairwise {arms : List SwitchArm} {pairs : List (Int32 × Nat)}
    (h : Grouped arms pairs) (hnodup : (pairs.map (·.1)).Nodup) :
    arms.Pairwise fun a c => ∀ key ∈ a.keys, key ∉ c.keys := by
  have hapart : arms.Pairwise fun a c => a.target ≠ c.target :=
    List.pairwise_map.1 h.apart
  refine hapart.imp_of_mem fun {a c} ha hc hne key hkey hkey' => hne ?_
  have hmem := (h.mem_iff key a.target).1 ⟨a, ha, rfl, hkey⟩
  obtain ⟨_, _, _, _, honly⟩ :=
    h.exists_arm (List.nodup_iff_count_le_one.1 hnodup key) hmem
  rw [honly a ha hkey, honly c hc hkey']

/-- The edges of a switch lead to its targets. -/
theorem Method.mem_of_exitTo_eq_selects {i : Instr} {next : Option Nat}
    {targets : List Nat} {arms : List SwitchArm} {other t : Nat}
    (h : exitTo i next targets = .selects arms other)
    (ht : t ∈ (Exit.selects arms other).successors) : t ∈ targets := by
  unfold exitTo at h
  split at h <;> cases h
  rename_i hlast
  rcases List.mem_append.1 ht with harms | hother
  · obtain ⟨p, hp, rfl⟩ := List.mem_map.1 (mem_of_arms harms)
    exact (List.of_mem_zip hp).2
  · rw [List.mem_singleton.1 hother]
    exact List.mem_of_getLast? hlast

namespace MadeFrom

variable {ends : Nat → Bool} {spans : List Span} {n : Nat} {s : Span}

/-- Labels that an instruction refers to are located where they lead. -/
theorem exists_destination (h : MadeFrom m g ends spans) {i : Instr}
    {index t : Nat} {targets : List Nat}
    (htargets : Method.locate ((m.spanLabels spans).lookup ·) index
      i.destinations = .ok targets)
    (ht : t ∈ targets) :
    ∃ l ∈ i.destinations, ∃ target,
      m.labelIndex? l = some target ∧ g.Reaches m target (some t) := by
  have hmem : some t ∈ i.destinations.map ((m.spanLabels spans).lookup ·) :=
    Method.map_of_locate htargets ▸ List.mem_map_of_mem ht
  obtain ⟨l, hl, hlookup⟩ := List.mem_map.1 hmem
  exact ⟨l, hl, h.reaches_label hlookup⟩

/-- Without a switch at its end a block is straight. -/
theorem straight_of_switchTable? (h : MadeFrom m g ends spans)
    (hcode : m.isSwitchCode = true) (hs : spans[n]? = some s)
    (hswitch : (m.instr s.breakPoint).switchTable? = none) :
    m.Straight s.start s.breakPoint := by
  intro k hk hlt
  rcases Method.straight_or_load hcode (h.breakPoint_le hs) (h.inside hs) hk
    hlt with
    hfree | ⟨_, table, htable⟩
  · exact hfree
  · rw [hswitch] at htable
    cases htable

/-- The block of a span has its edges right. -/
theorem routed (h : MadeFrom m g ends spans) (hcode : m.isSwitchCode = true)
    (hs : spans[n]? = some s) : Routed m g (g.block n) := by
  have hle := (h.fits n s hs).le
  have hclosed := (h.fits n s hs).closed
  have hopen := h.of_length_le hs
  have hnext := h.reaches_next hs
  have hafter := h.startingAt?_next hs
  have hstart {k : Nat} := h.start_lt (k := k) hs
  have hplain := h.straight_of_switchTable? hcode hs
  have hinside := h.inside hs
  obtain ⟨targets, preds, htargets, hblock⟩ := h.block n s hs
  have hdirected :=
    h.directed htargets (if n + 1 < spans.length then some (n + 1) else none)
  obtain ⟨bp, start, stop⟩ := s
  rw [hblock]
  rcases Nat.lt_or_ge bp m.length with hlt | hge
  · obtain ⟨hends, hstop⟩ := hclosed hlt
    have hof := h.of_ends _ hends
    have hkind := Method.selectInstr hcode hlt
    generalize hi : m.instr bp = x at hkind hof htargets hplain ⊢
    simp only [Method.bodyStop, hi] at hstop
    cases hkind with
    | label l =>
      obtain rfl : stop = bp := hstop
      exact .falls rfl hle (hplain rfl) (hnext.of_marker (by rw [hi]; rfl))
    | goto l =>
      obtain rfl : stop = bp := hstop
      obtain ⟨t, ht, rfl⟩ := Method.locate_singleton htargets
      obtain ⟨i, hindex, hreaches⟩ := h.reaches_label ht
      obtain ⟨target, htarget, hforward⟩ :=
        Method.exists_lt_of_mem_destinations hcode hlt (l := l)
          (by rw [hi]; exact List.mem_singleton_self l)
      cases hindex.symm.trans htarget
      exact .jumps rfl hle (hplain rfl) hi hindex hreaches hforward
    | ret => exact .returns rfl hstop hle (hplain rfl) hi
    | call | load => simp [Instr.endsBlock, Instr.control, Instr.label?] at hof
    | @switch k slot _ pairs default load table nodup =>
      have hcontrol := Instr.control_of_switchTable? table
      have hstart := hstart rfl (by rw [load]; rfl) (by rw [load]; rfl)
      have hstraight : m.Straight start k := by
        intro j hj hjk
        rcases Method.straight_or_load hcode (Nat.le_of_lt hlt) hinside hj
          (by omega) with
          hfree | ⟨hlast, _⟩
        · exact hfree
        · omega
      have hclear (value : Int32) :
          (Turn.value value).Clear (m.instr (k + 1)) := by
        rw [Turn.Clear, Instr.keys, hi, table]
        exact List.nodup_iff_count_le_one.1 nodup value
      have hleads (value : Int32) := hdirected.next_eq hafter (hclear value)
      rw [hcontrol] at hstop
      obtain rfl : stop = k + 1 := hstop
      rw [hi] at hdirected hleads
      generalize hexit : Method.exitTo x _ targets = e at hdirected hleads ⊢
      cases hdirected with
      | selects control jump table' grouped keys leads otherwise =>
        cases table'.symm.trans table
        refine .selects rfl rfl hstart hstraight load (hi ▸ table) rfl
          (grouped.pairwise (keys ▸ nodup)) (fun value => ?_) fun t ht => ?_
        · have hvalue := hleads value
          simp only [Method.next?, hi, table, Option.bind_some] at hvalue
          obtain ⟨target, htarget, hreaches⟩ :=
            Graph.reaches_of_startingAt? hvalue.symm
          exact ⟨_, target, rfl, htarget, hreaches⟩
        · obtain ⟨l, hl, target, htarget, hreaches⟩ :=
            h.exists_destination htargets
              (Method.mem_of_exitTo_eq_selects hexit ht)
          obtain ⟨index, hindex, hforward⟩ :=
            Method.exists_lt_of_mem_destinations hcode hlt (hi ▸ hl)
          cases htarget.symm.trans hindex
          exact ⟨target, hforward, hreaches⟩
      | falls _ _ table' | jumps _ _ table' | branches _ _ table'
      | returns _ _ table'
      | throws _ _ table' => cases table'.symm.trans table
  · obtain ⟨hstop, hnop, hnone, hreaches⟩ := hopen hge
    obtain rfl : stop = bp := hstop
    change m.instr stop = .nop at hnop
    rw [hnop, if_neg hnone]
    exact .falls rfl hle (hplain (by rw [hnop]; rfl)) hreaches

end MadeFrom

/-! ## The way to a tidy graph -/

/-- A graph on the way to a tidy one: its blocks are routed, no exception comes
into them, and the code starts with the first of them. -/
structure Routing (m : Method) (g : Graph) (dropped : List Nat) (first : Nat) :
    Prop extends Tracked g dropped first where
  routed : ∀ n < g.blocks.length, Routed m g (g.block n)
  plain : ∀ n < g.blocks.length, (g.block n).entry = .plain
  opens : g.Reaches m 0 (some first)

/-- Leading every edge past the blocks that do nothing keeps blocks routed. -/
theorem routing_bypass (hcode : m.isSwitchCode = true) (hranges : m.ranges = [])
    (hbuilt : m.graph = .ok g) (hpos : 0 < g.blocks.length) :
    Routing m (g.bypass m) (g.idle m) (g.settle m g.blocks.length 0) := by
  obtain ⟨ends, bs, _, hmade⟩ := madeFrom_of_graph hbuilt
  have hlen : (g.bypass m).blocks.length = g.blocks.length :=
    g.length_redirectAll _
  have hblock (n : Nat) : (g.bypass m).block n =
      { g.block n with
        exit := (g.block n).exit.mapTargets (g.settle m g.blocks.length) } :=
    g.block_redirectAll _ n
  have hspan : ∀ n < g.blocks.length, ∃ s, (m.cut 0 bs)[n]? = some s :=
    fun n hn =>
      ⟨_, List.getElem?_eq_getElem (hmade.length_eq ▸ hn)⟩
  have hrouted : ∀ n < g.blocks.length, Routed m g (g.block n) := fun n hn => by
    obtain ⟨s, hs⟩ := hspan n hn
    exact hmade.routed hcode hs
  have hfalls : g.FallsRight m := fun t ht next hexit => by
    obtain ⟨le, _, leads⟩ := (hrouted t ht).of_falls hexit
    exact ⟨le, leads⟩
  have hopens : g.Reaches m 0 (some 0) := by
    obtain ⟨s, hs⟩ := hspan 0 hpos
    have hstart : (g.block 0).start = 0 :=
      (hmade.start_eq hs).trans (Method.cut_getElem?_zero hs)
    exact ⟨hpos, Nat.zero_le _, by rw [hstart]; exact m.acts_self 0⟩
  refine
    { toTracked := tracked_bypass hbuilt hpos
      routed := fun n hn => ?_
      plain := fun n hn => ?_
      opens := hopens.bypass hfalls }
  · rw [hblock]
    exact (hrouted n (hlen ▸ hn)).map rfl rfl rfl rfl fun i next _ hreaches =>
      hreaches.bypass hfalls
  · obtain ⟨s, hs⟩ := hspan n (hlen ▸ hn)
    obtain ⟨_, _, _, hmadeBlock⟩ := hmade.block n s hs
    rw [hblock, hmadeBlock]
    simp [Method.entryOf, hranges]

/-- The operand of a switch is the local in front of it. -/
theorem operandsFrom?_of_load {start k slot : Nat}
    (hload : m.instr k = .load .int slot) (hle : start ≤ k) :
    operandsFrom? 1 (m.slice start (k + 1)).reverse = .ok (some k) := by
  have hk : k < m.length := Method.lt_length_of_instr hload (by simp)
  rw [Method.slice_succ hle hk, List.reverse_append, List.reverse_singleton,
    List.singleton_append, hload, operandsFrom?]
  rfl

/-- The two parts of a block that is split. -/
theorem Routed.parts {b : Block} (h : Routed m g b) {k : Nat}
    (hk : b.splitPoint? m = .ok (some k)) :
    m.Straight b.start k ∧
      Routed m g { b with start := k, entry := .plain } := by
  cases h with
  | falls exit | returns exit =>
    rw [Block.splitPoint?, exit] at hk
    cases hk
  | jumps exit le straight goto index leads forward =>
    rw [Block.splitPoint?, exit] at hk
    cases hk
    exact ⟨straight,
      .jumps exit (Nat.le_refl _) (fun j hj hjk => absurd hjk (Nat.not_lt.2 hj))
      goto index leads forward⟩
  | @selects arms other p slot pairs default exit stop le straight load table breakPoint apart
      leads forward =>
    have heffect : (m.instr b.breakPoint).effect = .ok ⟨1, 0⟩ := by
      rw [breakPoint]
      generalize m.instr (p + 1) = x at table
      cases x with
      | tableSwitch | lookupSwitch => rfl
      | _ => cases table
    rw [Block.splitPoint?, exit, Block.operandsFrom?, heffect, stop] at hk
    obtain rfl : p = k := by
      have hp := operandsFrom?_of_load load le
      exact Option.some.inj (Except.ok.inj (hp.symm.trans hk))
    exact ⟨straight, .selects exit stop (Nat.le_refl p)
      (fun j hj hjk => absurd hjk (Nat.not_lt.2 hj)) load table breakPoint apart
      leads forward⟩

namespace Routing

variable {id k : Nat}

/-- Splitting a block where its operands start. -/
theorem split (h : Routing m g dropped first) (hid : id < g.blocks.length)
    (hlive : id ∉ dropped) (hk : (g.block id).splitPoint? m = .ok (some k))
    (hacts : m.acts (g.block id).start k = true) :
    Routing m (g.split id k) dropped (g.toFront id first) := by
  have hself := g.block_split_self (k := k) hid
  have hother {n : Nat} (hn : n < g.blocks.length) (hne : n ≠ id) :=
    g.block_split_of_ne (k := k) hn hne
  have hlt := Method.lt_of_acts hacts
  obtain ⟨hstraight, hrest⟩ := (h.routed id hid).parts hk
  refine
    { toTracked := tracked_split h.toTracked hid hlive hlt
      routed := fun n hn => ?_
      plain := fun n hn => ?_
      opens := h.opens.split hid }
  · rcases Graph.eq_or_ne_of_lt_split hid hn with rfl | rfl | ⟨hn, hne⟩
    · exact hrest.map (by rw [hself]) (by rw [hself]) (by rw [hself])
        (by rw [hself])
        fun i next _ hreaches => hreaches.split hid
    · rw [Graph.block_split_front]
      refine .falls rfl (Nat.le_of_lt hlt) hstraight
        ⟨by rw [Graph.length_split]; omega, ?_, ?_⟩
      · exact Nat.le_of_eq (congrArg Block.start hself).symm
      · rw [hself]
        exact m.acts_self k
    · exact (h.routed n hn).map (by rw [hother hn hne]) (by rw [hother hn hne])
        (by rw [hother hn hne]) (by rw [hother hn hne]) fun i next _ hreaches =>
          hreaches.split hid
  · rcases Graph.eq_or_ne_of_lt_split hid hn with rfl | rfl | ⟨hn, hne⟩
    · rw [hself]
    · rw [Graph.block_split_front]
      exact h.plain id hid
    · rw [hother hn hne]
      exact h.plain n hn

/-- Every block has its turn. -/
theorem isolateAll {ids : List Nat} (h : Routing m g dropped first)
    (hids : ∀ id ∈ ids, id < g.blocks.length ∧ id ∉ dropped)
    (hok : g.isolateAll m ids = .ok g') :
    ∃ first', Routing m g' dropped first' :=
  Graph.isolateAll_keeps (P := fun g => ∃ first, Routing m g dropped first)
    ⟨first, h⟩ hids
    (fun _ _ _ ⟨_, h⟩ hid hlive hk hacts => ⟨_, h.split hid hlive hk hacts⟩) hok

end Routing

/-! ## Tidy graphs -/

/-- What is known of a tidy graph of switch code. -/
structure Graph.Selects (g : Graph) (m : Method) : Prop where
  routed : ∀ n < g.blocks.length, Routed m g (g.block n)
  plain : ∀ n < g.blocks.length, (g.block n).entry = .plain
  opens : g.Reaches m 0 g.first?

/-- Numbering the blocks that stay keeps blocks routed. -/
theorem Routing.selects (h : Routing m g dropped first) :
    (g.renumber dropped).linkBack.Selects m := by
  have hfirst :=
    Graph.getElem?_kept_renumbered h.numbered h.first_lt h.first_live
  refine
    { routed := fun n hn => ?_
      plain := fun n hn => ?_
      opens := ?_ }
  · obtain ⟨p, hp, _, hget⟩ := Graph.exists_of_lt_renumber h.numbered hn
    obtain ⟨preds, hblock⟩ := Graph.block_linkBack_renumber hget
    exact (h.routed p hp).map (f := g.renumbered dropped) (by rw [hblock])
      (by rw [hblock])
      (by rw [hblock]) (by rw [hblock]) fun i next hnext hreaches =>
        hreaches.renumber h.numbered fun t ht => (h.live p hp t (hnext t ht)).2
  · obtain ⟨p, hp, _, hget⟩ := Graph.exists_of_lt_renumber h.numbered hn
    obtain ⟨preds, hblock⟩ := Graph.block_linkBack_renumber hget
    rw [hblock]
    exact h.plain p hp
  · have hopens := h.opens.renumber h.numbered fun t ht =>
      Option.some.inj ht ▸ h.first_live
    rw [Option.map_some, h.toTracked.renumbered_first] at hopens
    rwa [Graph.first?, if_pos hopens.1]

/-- **Routes.**  In the tidy graph of switch code every block is a stretch with
its ending, and its edges lead where the ending goes. -/
theorem selects_of_tidy {built tidy : Graph} (hcode : m.isSwitchCode = true)
    (hranges : m.ranges = []) (hbuilt : m.graph = .ok built)
    (htidy : built.tidy m = .ok tidy) : tidy.Selects m := by
  obtain ⟨isolated, hisolated, htidy⟩ := bind_eq_ok.1 htidy
  cases htidy
  rcases Nat.eq_zero_or_pos built.blocks.length with hzero | hpos
  · obtain ⟨ends, bs, _, hmade⟩ := madeFrom_of_graph hbuilt
    have hempty : (m.cut 0 bs)[0]? = none :=
      List.getElem?_eq_none (Nat.le_of_eq (hmade.length_eq.symm.trans hzero))
    rw [hzero] at hisolated
    cases hisolated
    simp only [hzero, List.range_zero, List.filter_nil]
    have hlen := Graph.length_tidy_of_empty (m := m) hzero
    refine ⟨fun n hn => by omega, fun n hn => by omega, ?_⟩
    rw [Graph.first?, if_neg (by omega)]
    exact Method.acts_of_cut_getElem?_zero hempty
  · obtain ⟨first, hrouting⟩ :=
      (routing_bypass hcode hranges hbuilt hpos).isolateAll
        built.stays_of_mem_busy hisolated
    exact hrouting.selects

end Decompiler
