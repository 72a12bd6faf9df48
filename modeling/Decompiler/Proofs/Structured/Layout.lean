import Decompiler.Proofs.Structured.Assembles
import Mathlib.Data.List.Basic

/-!
# Layouts of structured code

The blocks of compiled `if` statements stand in a row in which all edges lead
ahead: into the body, to the alternative, or to what comes after the statement.
A layout says which block is which.

* `Layout`: a row of blocks, and what each of them is.
* `Layout.Fits`: the edges of a graph are those of a layout.
* `Layout.Fits.lt_of_successors`, `Layout.Fits.stays`: where edges lead.
-/

namespace Decompiler

/-- A row of blocks of structured code. -/
inductive Layout
  | stop
  /-- The jump at the end of a body that has an alternative. -/
  | leave (block : Nat)
  | ret (block : Nat)
  | plain (block : Nat) (rest : Layout)
  /-- A test with its body and what comes instead, which is `stop` if there is
  no alternative. -/
  | branch (block : Nat) (body other rest : Layout)
deriving DecidableEq

namespace Layout

/-- The blocks of a layout. -/
def ids : Layout → List Nat
  | stop => []
  | leave j => [j]
  | ret r => [r]
  | plain b rest => b :: rest.ids
  | branch b body other rest => b :: (body.ids ++ (other.ids ++ rest.ids))

/-- The blocks of one branch with its body and its alternative. -/
def region (b : Nat) (body other : Layout) : List Nat :=
  b :: (body.ids ++ other.ids)

theorem ids_branch (b : Nat) (body other rest : Layout) :
    (branch b body other rest).ids = region b body other ++ rest.ids := by
  simp [ids, region]

theorem ids_branch_stop (b : Nat) (body other : Layout) :
    (branch b body other stop).ids = region b body other := by
  simp [ids, region]

/-- The block that a layout starts with when `next` comes after it. -/
def first (l : Layout) (next : Option Nat) : Option Nat := l.ids.head?.or next

/-- Whether control runs off the end of a layout. -/
def stops : Layout → Bool
  | stop => true
  | leave _ | ret _ => false
  | plain _ rest | branch _ _ _ rest => rest.stops

/-- Whether a layout ends in a jump. -/
def leaves : Layout → Bool
  | leave _ => true
  | stop | ret _ => false
  | plain _ rest | branch _ _ _ rest => rest.leaves

theorem ids_eq_nil_iff {l : Layout} : l.ids = [] ↔ l = stop := by
  cases l <;> simp [ids]

theorem ids_ne_nil_of_leaves {l : Layout} (h : l.leaves = true) :
    l.ids ≠ [] := by
  cases l with
  | stop => cases h
  | _ => exact List.cons_ne_nil _ _

end Layout

/-- A block that nothing has been done to. -/
def Graph.Untouched (g₀ g : Graph) (id : Nat) : Prop :=
  g.block id = g₀.block id ∧ (g₀.block id).folded = none

/-- A block that runs on to another, straight-line code or a folded region. -/
structure Graph.RunsTo (ctx : Context) (g₀ g : Graph) (id : Nat)
    (next : Option Nat) : Prop where
  exit : g.exit id = .falls next
  untouched : (g.block id).folded = none → g₀.Untouched g id
  assembles : ∀ s, (g.block id).folded = some s → Assembles ctx g₀ [s]

/-- The edges of a graph are those of a layout that `next` comes after. -/
inductive Layout.Fits (ctx : Context) (g₀ g : Graph) : Layout →
      Option Nat → Prop
  | stop {n : Nat} : Fits ctx g₀ g .stop (some n)
  | leave {j n : Nat} (untouched : g₀.Untouched g j)
      (exit : g.exit j = .jumps n) :
      Fits ctx g₀ g (.leave j) (some n)
  | ret {r : Nat} (untouched : g₀.Untouched g r) (exit : g.exit r = .returns) :
      Fits ctx g₀ g (.ret r) none
  | plain {b : Nat} {rest : Layout} {next : Option Nat}
      (runs : g₀.RunsTo ctx g b (rest.first next))
      (fits : Fits ctx g₀ g rest next) :
      Fits ctx g₀ g (.plain b rest) next
  | branch {b k : Nat} {body other rest : Layout} {next : Option Nat}
      (untouched : g₀.Untouched g b)
      (exit : g.exit b = .branches k body.ids.head?)
      (skip : other.first (rest.first next) = some k) (nonempty : body.ids ≠ [])
      (ends : other = .stop ∧ body.stops = true ∨ other.ids ≠ [] ∧
        body.leaves = true)
      (otherStops : other.stops = true)
      (bodyFits : Fits ctx g₀ g body (rest.first next))
      (otherFits : Fits ctx g₀ g other (rest.first next))
      (fits : Fits ctx g₀ g rest next) :
      Fits ctx g₀ g (.branch b body other rest) next

/-- Blocks in ascending order, before the one that comes after them. -/
def Ascends (ids : List Nat) (next : Option Nat) : Prop :=
  (ids ++ next.toList).Pairwise (· < ·)

/-- No edge of some blocks leads anywhere else but to them and to `next`. -/
def Graph.Within (g : Graph) (ids : List Nat) (next : Option Nat) : Prop :=
  ∀ id ∈ ids, ∀ t ∈ g.successors id, t ∈ ids ∨ next = some t

variable {ctx : Context} {g₀ g g' : Graph} {l : Layout} {next : Option Nat}

theorem Graph.RunsTo.congr {id : Nat} (h : g₀.RunsTo ctx g id next)
    (hsame : g'.block id = g.block id) : g₀.RunsTo ctx g' id next := by
  refine ⟨?_, fun hnone => ?_, fun s hs => ?_⟩
  · rw [Graph.exit, hsame]
    exact h.exit
  · rw [hsame] at hnone
    obtain ⟨heq, hfresh⟩ := h.untouched hnone
    exact ⟨hsame.trans heq, hfresh⟩
  · rw [hsame] at hs
    exact h.assembles s hs

theorem Ascends.of_sublist {ids ids' : List Nat} {next' : Option Nat}
    (h : Ascends ids next)
    (hsub : (ids' ++ next'.toList).Sublist (ids ++ next.toList)) :
    Ascends ids' next' :=
  h.sublist hsub

theorem Ascends.nodup {ids : List Nat} (h : Ascends ids next) : ids.Nodup :=
  (List.pairwise_append.1 h).1.imp Nat.ne_of_lt

theorem Ascends.notMem {ids : List Nat} {n : Nat} (h : Ascends ids (some n)) :
    n ∉ ids :=
  fun hmem =>
    Nat.lt_irrefl n ((List.pairwise_append.1 h).2.2 n hmem n List.mem_cons_self)

theorem Ascends.lt_of_head {b : Nat} {ids : List Nat}
    (h : Ascends (b :: ids) next) : ∀ t, t ∈ ids ∨ next = some t → b < t := by
  intro t ht
  refine (List.pairwise_cons.1 h).1 t (List.mem_append.2 ?_)
  exact ht.imp_right Option.mem_toList.2

theorem Ascends.tail {b : Nat} {ids : List Nat} (h : Ascends (b :: ids) next) :
    Ascends ids next := (List.pairwise_cons.1 h).2

namespace Layout

theorem first_toList_sublist (l : Layout) (next : Option Nat) :
    (l.first next).toList.Sublist (l.ids ++ next.toList) := by
  unfold first
  cases l.ids with
  | nil => exact List.Sublist.refl _
  | cons x xs => exact List.singleton_sublist.2 List.mem_cons_self

theorem mem_or_eq_of_first {t : Nat} (h : l.first next = some t) : t ∈ l.ids ∨
      next = some t := by
  have hmem : t ∈ (l.first next).toList := by simp [h]
  simpa [Option.mem_toList] using (l.first_toList_sublist next).subset hmem

end Layout

namespace Ascends

open Layout

variable {b : Nat} {body other rest : Layout}

theorem of_rest
    (h : Ascends (b :: (body.ids ++ (other.ids ++ rest.ids))) next) :
    Ascends rest.ids next := by
  refine h.tail.of_sublist ?_
  rw [List.append_assoc, List.append_assoc]
  exact (List.sublist_append_right _ _).trans (List.sublist_append_right _ _)

theorem of_other
    (h : Ascends (b :: (body.ids ++ (other.ids ++ rest.ids))) next) :
    Ascends other.ids (rest.first next) := by
  refine h.tail.of_sublist ?_
  rw [List.append_assoc, List.append_assoc]
  exact ((rest.first_toList_sublist next).append_left _).trans
    (List.sublist_append_right _ _)

theorem of_body
    (h : Ascends (b :: (body.ids ++ (other.ids ++ rest.ids))) next) :
    Ascends body.ids (rest.first next) := by
  refine h.tail.of_sublist ?_
  rw [List.append_assoc, List.append_assoc]
  exact ((rest.first_toList_sublist next).trans
    (List.sublist_append_right _ _)).append_left _

theorem of_branch (h : Ascends (branch b body other rest).ids next) {n : Nat}
    (hn : rest.first next = some n) :
    Ascends (region b body other) (some n) := by
  refine h.of_sublist ?_
  rw [ids_branch, List.append_assoc, ← hn]
  exact (rest.first_toList_sublist next).append_left _

end Ascends

namespace Layout.Fits

theorem first_isSome (h : l.Fits ctx g₀ g next) :
    (l.first next).isSome = true := by
  cases h <;> rfl

/-- Only the blocks of a layout matter. -/
theorem congr (h : l.Fits ctx g₀ g next)
    (hsame : ∀ id ∈ l.ids, g'.block id = g.block id) :
    l.Fits ctx g₀ g' next := by
  have hexit {id : Nat} (hid : g'.block id = g.block id) :
      g'.exit id = g.exit id := by
    rw [Graph.exit, hid, Graph.exit]
  induction h with
  | stop => exact .stop
  | leave untouched exit =>
    have hj := hsame _ List.mem_cons_self
    exact .leave ⟨hj.trans untouched.1, untouched.2⟩ ((hexit hj).trans exit)
  | ret untouched exit =>
    have hr := hsame _ List.mem_cons_self
    exact .ret ⟨hr.trans untouched.1, untouched.2⟩ ((hexit hr).trans exit)
  | plain runs _ ih =>
    have hb := hsame _ List.mem_cons_self
    exact .plain (runs.congr hb)
      (ih fun id hid => hsame id (List.mem_cons_of_mem _ hid))
  | branch untouched exit skip nonempty ends otherStops _ _ _ ihBody ihOther
      ihRest =>
    have hb := hsame _ List.mem_cons_self
    refine .branch ⟨hb.trans untouched.1, untouched.2⟩ ((hexit hb).trans exit)
      skip nonempty ends
      otherStops (ihBody fun id hid => ?_) (ihOther fun id hid => ?_)
        (ihRest fun id hid => ?_)
    · exact hsame id (by simp [ids, hid])
    · exact hsame id (by simp [ids, hid])
    · exact hsame id (by simp [ids, hid])

/-- A branch is a layout of its own. -/
theorem of_branch {b : Nat} {body other rest : Layout}
    (h : (Layout.branch b body other rest).Fits ctx g₀ g next) {n : Nat}
    (hn : rest.first next = some n) :
    (Layout.branch b body other .stop).Fits ctx g₀ g (some n) := by
  cases h with
  | branch untouched exit skip nonempty ends otherStops bodyFits otherFits _ =>
    rw [hn] at skip bodyFits otherFits
    exact .branch untouched exit skip nonempty ends otherStops bodyFits
      otherFits .stop

/-- Every block of a layout leads somewhere, or is the last. -/
theorem lt_length (h : l.Fits ctx g₀ g next) : ∀ id ∈ l.ids,
      id < g.blocks.length := by
  have hreal {id : Nat} (hexit : g.exit id ≠ .falls none) :
      id < g.blocks.length := by
    refine Nat.lt_of_not_le fun hge => hexit ?_
    rw [Graph.exit, Graph.block_of_length_le hge]
    rfl
  induction h with
  | stop => simp [ids]
  | leave _ exit => simpa [ids] using hreal (by simp [exit])
  | ret _ exit => simpa [ids] using hreal (by simp [exit])
  | plain runs fits ih =>
    refine List.forall_mem_cons.2 ⟨hreal ?_, ih⟩
    rw [runs.exit]
    intro heq
    have hsome := fits.first_isSome
    rw [Exit.falls.inj heq] at hsome
    cases hsome
  | branch _ exit _ _ _ _ _ _ _ ihBody ihOther ihRest =>
    refine List.forall_mem_cons.2 ⟨hreal (by simp [exit]), fun id hid => ?_⟩
    simp only [List.mem_append] at hid
    rcases hid with hid | hid | hid
    · exact ihBody id hid
    · exact ihOther id hid
    · exact ihRest id hid

/-- All edges stay in the layout or lead to what comes after it. -/
theorem within (h : l.Fits ctx g₀ g next) : g.Within l.ids next := by
  induction h with
  | stop => simp [Graph.Within, ids]
  | leave _ exit =>
    simp [Graph.Within, Graph.successors, ids, exit, Exit.successors]
  | ret _ exit =>
    simp [Graph.Within, Graph.successors, ids, exit, Exit.successors]
  | plain runs _ ih =>
    intro id hid t ht
    rcases List.mem_cons.1 hid with rfl | hid
    · rw [Graph.successors, runs.exit, Exit.successors, Option.mem_toList] at ht
      exact (mem_or_eq_of_first ht).imp_left (List.mem_cons_of_mem _)
    · exact (ih id hid t ht).imp_left (List.mem_cons_of_mem _)
  | @branch b k body other rest next _ exit skip _ _ _ _ _ _ ihBody ihOther
      ihRest =>
    have hrest {t : Nat} (ht : rest.first next = some t) :
        t ∈ (Layout.branch b body other rest).ids ∨ next = some t :=
      (mem_or_eq_of_first ht).imp_left fun hmem => by simp [ids, hmem]
    intro id hid t ht
    rw [ids, List.mem_cons, List.mem_append, List.mem_append] at hid
    rcases hid with rfl | hid | hid | hid
    · rw [Graph.successors, exit, Exit.successors, List.mem_cons,
        Option.mem_toList] at ht
      rcases ht with rfl | ht
      · rcases mem_or_eq_of_first skip with hmem | hnext
        · exact .inl (by simp [ids, hmem])
        · exact hrest hnext
      · exact .inl (by simp [ids, List.mem_of_mem_head? ht])
    · rcases ihBody id hid t ht with hmem | hnext
      · exact .inl (by simp [ids, hmem])
      · exact hrest hnext
    · rcases ihOther id hid t ht with hmem | hnext
      · exact .inl (by simp [ids, hmem])
      · exact hrest hnext
    · exact (ihRest id hid t ht).imp_left fun hmem => by simp [ids, hmem]

/-- All edges lead ahead. -/
theorem lt_of_successors (h : l.Fits ctx g₀ g next)
    (hasc : Ascends l.ids next) :
    ∀ id ∈ l.ids, ∀ t ∈ g.successors id, id < t := by
  induction h with
  | stop => simp [ids]
  | @leave j n _ exit =>
    have hlt : j < n := by simpa [Ascends, ids] using hasc
    simpa [Graph.successors, ids, exit, Exit.successors] using hlt
  | ret _ exit => simp [Graph.successors, ids, exit, Exit.successors]
  | @plain b rest next runs fits ih =>
    have hahead := hasc.lt_of_head
    intro id hid t ht
    rcases List.mem_cons.1 hid with rfl | hid
    · rw [Graph.successors, runs.exit, Exit.successors, Option.mem_toList] at ht
      exact hahead t (mem_or_eq_of_first ht)
    · exact ih hasc.tail id hid t ht
  | @branch b k body other rest next _ exit skip _ _ _ _ _ _ ihBody ihOther
      ihRest =>
    have hahead := hasc.lt_of_head
    have hskip : k ∈ body.ids ++ (other.ids ++ rest.ids) ∨ next = some k := by
      rcases mem_or_eq_of_first skip with hmem | hnext
      · exact .inl (by simp [hmem])
      · exact (mem_or_eq_of_first hnext).imp_left fun hmem => by simp [hmem]
    intro id hid t ht
    rw [ids, List.mem_cons, List.mem_append, List.mem_append] at hid
    rcases hid with rfl | hid | hid | hid
    · rw [Graph.successors, exit, Exit.successors, List.mem_cons,
        Option.mem_toList] at ht
      rcases ht with rfl | ht
      · exact hahead t hskip
      · exact hahead t (.inl (by simp [List.mem_of_mem_head? ht]))
    · exact ihBody hasc.of_body id hid t ht
    · exact ihOther hasc.of_other id hid t ht
    · exact ihRest hasc.of_rest id hid t ht

/-- A layout that ends in a jump leads to what comes after it. -/
theorem exists_edge_of_leaves (h : l.Fits ctx g₀ g next)
    (hleaves : l.leaves = true) {n : Nat} (hn : next = some n) : ∃ id ∈ l.ids,
      n ∈ g.successors id := by
  induction h with
  | stop => cases hleaves
  | @leave j k _ exit =>
    cases hn
    exact ⟨j,
      List.mem_cons_self, by simp [Graph.successors, exit, Exit.successors]⟩
  | ret => cases hleaves
  | plain _ _ ih =>
    obtain ⟨id, hid, hedge⟩ := ih hleaves hn
    exact ⟨id, List.mem_cons_of_mem _ hid, hedge⟩
  | branch _ _ _ _ _ _ _ _ _ _ _ ihRest =>
    obtain ⟨id, hid, hedge⟩ := ihRest hleaves hn
    exact ⟨id, by simp [ids, hid], hedge⟩

end Layout.Fits

end Decompiler
