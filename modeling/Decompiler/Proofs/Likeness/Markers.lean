import Decompiler.Proofs.Likeness.Parts

/-!
# Debug markers do not count

Line numbers, frames and labels that nothing refers to may be put into a method
anywhere.  Every instruction behind them moves on, and with it every break
point, every range of instructions and every origin of a value; but the parts
that the method is cut into keep their numbers, and what they do.

* `Marked`: a stream of instructions with such markers put in.
* `exists_inserts`: where the instructions of the other stream are found.
* `decompile_of_marked`: the statements are the same, or the kind of the fault.
-/

namespace Decompiler

/-- The second stream is the first with labels and debug markers put in.  The
labels are not among the given ones. -/
inductive Marked (names : List Label) : List Instr → List Instr → Prop
  | nil : Marked names [] []
  | keep (i : Instr) {is is' : List Instr} (rest : Marked names is is') :
    Marked names (i :: is) (i :: is')
  | mark (i : Instr) {is is' : List Instr} (marker : i.isMarker = true)
      (fresh : ∀ l ∈ names, i.label? ≠ some l) (rest : Marked names is is') :
    Marked names is (i :: is')

/-- Where the instructions of a stream stand in one with markers put in.  What
stands elsewhere is a marker. -/
structure Inserts (names : List Label) (is is' : List Instr) (φ : Nat → Nat) :
    Prop where
  mono : StrictMono φ
  ending : φ is.length = is'.length
  same : ∀ i, is'.getD (φ i) .nop = is.getD i .nop
  others : ∀ j < is'.length, (∃ i, φ i = j) ∨
    (is'.getD j .nop).isMarker = true ∧ ∀ l ∈ names,
    (is'.getD j .nop).label? ≠ some l

/-- Every instruction has its place. -/
theorem exists_inserts {names : List Label} {is is' : List Instr}
    (h : Marked names is is') : ∃ φ, Inserts names is is' φ := by
  induction h with
  | nil =>
    exact ⟨id, strictMono_id, rfl, fun _ => rfl, fun _ hj =>
      absurd hj (by simp)⟩
  | keep i _ ih =>
    obtain ⟨φ, hmono, hending, hsame, hothers⟩ := ih
    refine ⟨Nat.rec 0 fun k _ => φ k + 1, strictMono_nat_of_lt_succ fun k =>
      ?_, ?_,
      fun k => ?_, fun j hj => ?_⟩
    · cases k with
      | zero => exact Nat.succ_pos _
      | succ k => exact Nat.succ_lt_succ (hmono (Nat.lt_succ_self k))
    · exact congrArg (· + 1) hending
    · cases k with
      | zero => rfl
      | succ k => exact hsame k
    · cases j with
      | zero => exact .inl ⟨0, rfl⟩
      | succ j =>
        refine (hothers j (Nat.lt_of_succ_lt_succ hj)).imp_left ?_
        rintro ⟨k, hk⟩
        exact ⟨k + 1, congrArg (· + 1) hk⟩
  | mark i marker fresh _ ih =>
    obtain ⟨φ, hmono, hending, hsame, hothers⟩ := ih
    refine ⟨fun k => φ k + 1, fun a b hab => Nat.succ_lt_succ (hmono hab),
      congrArg (· + 1) hending, hsame, fun j hj => ?_⟩
    cases j with
    | zero => exact .inr ⟨marker, fresh⟩
    | succ j =>
      refine (hothers j (Nat.lt_of_succ_lt_succ hj)).imp_left ?_
      rintro ⟨k, hk⟩
      exact ⟨k, congrArg (· + 1) hk⟩

/-- Markers go nowhere. -/
theorem Marked.flatMap_destinations {names : List Label} {is is' : List Instr}
    (h : Marked names is is') :
    is'.flatMap Instr.destinations = is.flatMap Instr.destinations := by
  induction h with
  | nil => rfl
  | keep i _ ih => rw [List.flatMap_cons, List.flatMap_cons, ih]
  | mark i marker _ _ ih =>
    have hnone : i.destinations = [] := by
      cases i with
      | label | line | frame => rfl
      | _ => cases marker
    rw [List.flatMap_cons, hnone, List.nil_append, ih]

namespace Inserts

variable {m m' : Method} {φ : Nat → Nat}
    (h : Inserts m.referred m.instrs m'.instrs φ)
include h

/-- The instructions are the same at corresponding positions. -/
theorem instr_eq (i : Nat) : m'.instr (φ i) = m.instr i := h.same i

/-- Positions inside a method correspond to positions inside the other. -/
theorem lt_iff (i : Nat) : φ i < m'.length ↔ i < m.length := by
  rw [← show φ m.length = m'.length from h.ending]
  exact h.mono.lt_iff_lt

/-- What does something stands in its place. -/
theorem mirrors : m.Mirrors m' φ where
  mono := h.mono
  inside := h.lt_iff
  bare i := by rw [h.instr_eq]
  onto j hj hacts := by
    refine (h.others j hj).resolve_right fun ⟨hmarker, _⟩ => ?_
    rw [show (m'.instrs.getD j .nop).isMarker = (m'.instr j).isMarker from rfl,
      hacts] at hmarker
    cases hmarker

/-- A label that something refers to has moved with the instructions. -/
theorem labelIndex?_eq {l : Label} (hl : l ∈ m.referred) :
    m'.labelIndex? l = (m.labelIndex? l).map φ := by
  cases hfound : m.labelIndex? l with
  | some i =>
    refine Method.labelIndex?_of_label? ?_
    rw [h.instr_eq]
    exact Method.label?_instr_of_labelIndex? hfound
  | none =>
    rw [Option.map_none, Option.eq_none_iff_forall_ne_some]
    intro j hj
    have hlabel := Method.label?_instr_of_labelIndex? hj
    have hlt : j < m'.length := Method.lt_length_of_instr rfl fun hnop => by
      rw [hnop] at hlabel
      cases hlabel
    rcases h.others j hlt with ⟨i, rfl⟩ | ⟨_, hfresh⟩
    · rw [h.instr_eq] at hlabel
      rw [Method.labelIndex?_of_label? hlabel] at hfound
      cases hfound
    · exact hfresh l hl hlabel

variable (hreferred : m'.referred = m.referred)
include hreferred

/-- Blocks end at corresponding positions. -/
theorem ends_eq (i : Nat) : m'.ends (φ i) = m.ends i := by
  rw [Bool.eq_iff_iff, Method.ends_iff, Method.ends_iff, h.instr_eq, hreferred]
  refine or_congr_right (exists_congr fun l => and_congr_right fun hl => ?_)
  rw [h.labelIndex?_eq hl, Option.map_eq_some_iff]
  constructor
  · rintro ⟨j, hj, heq⟩
    exact h.mono.injective heq ▸ hj
  · exact fun hi => ⟨i, hi, rfl⟩

/-- Break points have moved with the instructions. -/
theorem breaks_eq : m'.breaks = m.breaks.map φ := by
  refine List.Pairwise.eq_of_mem_iff m'.pairwise_breaks
    (m.pairwise_breaks.map φ fun _ _ hlt => h.mono hlt) fun j => ?_
  rw [Method.mem_breaks, List.mem_map]
  constructor
  · rintro ⟨hlt, hends⟩
    rcases h.others j hlt with ⟨i, rfl⟩ | ⟨hmarker, hfresh⟩
    · exact ⟨i,
        Method.mem_breaks.2
        ⟨(h.lt_iff i).1 hlt, (h.ends_eq hreferred i) ▸ hends⟩, rfl⟩
    · exfalso
      rcases Method.ends_iff.1 hends with hblock | ⟨l, hl, hindex⟩
      · rw [Instr.endsBlock,
          show (m'.instr j).control = .marker from eq_of_beq hmarker] at hblock
        cases hblock
      · exact hfresh l (hreferred ▸ hl)
          (Method.label?_instr_of_labelIndex? hindex)
  · rintro ⟨i, hi, rfl⟩
    obtain ⟨hlt, hends⟩ := Method.mem_breaks.1 hi
    exact ⟨(h.lt_iff i).2 hlt, (h.ends_eq hreferred i).trans hends⟩

end Inserts

/-! ## Parts -/

namespace Inserts

variable {m m' : Method} {φ : Nat → Nat}

section Spans

variable (h : Inserts m.referred m.instrs m'.instrs φ)
    (hreferred : m'.referred = m.referred)
include h hreferred

/-- The parts keep their numbers. -/
theorem spans_like : List.Forall₂ (Span.Like m φ fun b b' => b' = φ b) m.spans
      m'.spans := by
  rw [Method.spans, Method.spans, h.breaks_eq hreferred]
  refine h.mirrors.cut_like ?_ h.ending.symm ?_ Method.Mirrors.level_zero
  · rintro b _ rfl
    exact ⟨h.mirrors.level_succ b, h.mirrors.level_bodyStop b⟩
  · rw [List.forall₂_map_right_iff, List.forall₂_same]
    exact fun _ _ => rfl

/-- The part after a label keeps its number. -/
theorem find?_eq : m'.find? = m.find? := by
  have hspans := h.spans_like hreferred
  have hlabels : m'.endLabels m'.spans = m.endLabels m.spans := by
    generalize m.spans = spans, m'.spans = spans' at hspans
    induction hspans with
    | nil => rfl
    | cons head _ ih =>
      rw [Method.endLabels, Method.endLabels, List.map_cons, List.map_cons,
        head.breakPoint, h.instr_eq]
      exact congrArg _ ih
  funext l
  rw [Method.find?, Method.find?, Method.spanLabels_eq, Method.spanLabels_eq,
    hlabels, hspans.length_eq]

variable (hranges : m'.ranges = m.ranges) {g g' : Graph} (hg : m.graph = .ok g)
  (hg' : m'.graph = .ok g')
include hranges hg hg'

/-- The blocks of one number match. -/
theorem matches_block {n : Nat} (hn : n < g.blocks.length) :
    (g.block n).Matches m m' φ id id (g'.block n) := by
  have hspans := h.spans_like hreferred
  have hfind := h.find?_eq hreferred
  have hlt : n < m.spans.length := Method.length_of_graph hg ▸ hn
  have hs := List.getElem?_eq_getElem hlt
  have hs' := List.getElem?_eq_getElem (hspans.length_eq ▸ hlt)
  have hlike := hspans.get hlt (hspans.length_eq ▸ hlt)
  simp only [List.get_eq_getElem] at hlike
  have hinstr := h.instr_eq (m.spans[n]).breakPoint
  rw [← hlike.breakPoint] at hinstr
  refine Method.matches_of_graph hg hg' hs hs' (by rw [hinstr]) hlike.start
    hlike.stop ?_ ?_
  · obtain ⟨targets, preds, htargets, hblock⟩ := Method.block_of_graph hg hs
    obtain ⟨targets', preds', htargets', hblock'⟩ :=
      Method.block_of_graph hg' hs'
    rw [hinstr, hfind, htargets] at htargets'
    obtain rfl := List.map_injective_iff.2 (Option.some_injective Nat) htargets'
    simp only [hblock, hblock', hinstr, hspans.length_eq]
  · obtain ⟨_, _, _, hblock⟩ := Method.block_of_graph hg hs
    obtain ⟨_, _, _, hblock'⟩ := Method.block_of_graph hg' hs'
    rw [hblock, hblock', Method.entryOf, Method.entryOf, hranges, hfind]

/-- **The graphs are alike.** -/
theorem settlesLike (sim : Label → Label → Prop)
    (hsim : ∀ l l', sim l l' → l' = l) : Graph.SettlesLike m m' φ sim g g' := by
  have hlength : g'.blocks.length = g.blocks.length := by
    rw [Method.length_of_graph hg, Method.length_of_graph hg']
    exact (h.spans_like hreferred).length_eq.symm
  refine (g.skips_id m).settlesLike (g'.skips_id m') h.mirrors hlength
    (fun n hn => h.matches_block hreferred hranges hg hg' hn) fun l l' hl => ?_
  rw [Method.blockAt?_of_graph hg, Method.blockAt?_of_graph hg', hsim l l' hl,
    h.find?_eq hreferred]

end Spans

end Inserts

/-! ## Decompiling -/

/-- **Line numbers, frames and labels that nothing refers to change nothing.**
However many of them are put into a method, the statements stay the same; and if
there are none, the fault stays of the same kind. -/
theorem decompile_of_marked {m m' : Method} (hranges : m'.ranges = m.ranges)
    (h : Marked m.referred m.instrs m'.instrs) (recover : Recoveries) :
    (m'.decompile .empty recover).mapError Fault.kind =
      (m.decompile .empty recover).mapError Fault.kind := by
  obtain ⟨φ, hinserts⟩ := exists_inserts h
  have htargets : m'.targets = m.targets := h.flatMap_destinations
  have hreferred : m'.referred = m.referred := by
    rw [Method.referred, Method.referred, htargets, Method.boundaries,
      Method.boundaries, hranges]
  let ctx (m : Method) : Context := ⟨m, LocalTable.empty.lookup, recover⟩
  have hctx : (ctx m).Mirrors (ctx m') φ :=
    ⟨hinserts.mirrors, rfl, fun _ _ => rfl⟩
  have hgraph : EndsAlike (Graph.SettlesLike m m' φ fun l l' => l' = l) m.graph
      m'.graph := by
    refine Method.endsAlike_graph ?_ fun g g' hg hg' =>
      hinserts.settlesLike hreferred hranges hg hg' _ fun _ _ hl => hl
    rw [htargets, hinserts.find?_eq hreferred]
  have hsame : List.Forall₂ (ExceptionRange.Like fun l l' => l' = l) m.ranges
      m'.ranges := by
    rw [hranges, List.forall₂_same]
    exact fun _ _ => ⟨rfl, rfl, rfl, rfl⟩
  exact (hctx.decompile hsame hgraph).symm.mapError_eq

/-- A try statement with markers around and inside of its parts. -/
theorem decompile_of_marked_handler :
    let m : Method :=
      { instrs := [.label ⟨0⟩, .call .static ⟨"C", "x", "()V"⟩, .label ⟨1⟩,
          .goto ⟨9⟩, .label ⟨2⟩, .store .reference 1, .label ⟨9⟩, .ret none],
        ranges := [⟨⟨0⟩, ⟨1⟩, ⟨2⟩, some "A"⟩] }
    let m' : Method :=
      { instrs := [.line 1, .label ⟨0⟩, .call .static ⟨"C", "x", "()V"⟩,
          .label ⟨5⟩, .label ⟨1⟩, .line 2, .goto ⟨9⟩, .label ⟨2⟩, .frame,
          .store .reference 1, .label ⟨9⟩, .frame, .ret none, .line 3],
        ranges := m.ranges }
    Marked m.referred m.instrs m'.instrs ∧
      (m'.decompile .empty {}).mapError Fault.kind =
        (m.decompile .empty {}).mapError Fault.kind ∧
      (m.decompile .empty {}).toOption.map List.length = some 2 := by
  intro m m'
  have hreferred : m.referred = [⟨9⟩, ⟨0⟩, ⟨1⟩, ⟨2⟩] := by rfl
  have hmarked : Marked m.referred m.instrs m'.instrs := by
    rw [hreferred]
    exact .mark _ rfl (by decide) <| .keep _ <| .keep _ <|
      .mark _ rfl (by decide) <| .keep _ <|
      .mark _ rfl (by decide) <| .keep _ <| .keep _ <|
      .mark _ rfl (by decide) <| .keep _ <|
      .keep _ <| .mark _ rfl (by decide) <| .keep _ <|
      .mark _ rfl (by decide) .nil
  have hranges : m'.ranges = m.ranges := rfl
  exact ⟨hmarked, decompile_of_marked hranges hmarked {}, by decide +kernel⟩

end Decompiler
