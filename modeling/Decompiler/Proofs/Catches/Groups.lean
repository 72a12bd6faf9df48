import Decompiler.Region.Partition

/-!
# Groups of exception ranges

A group is found by going through the exception table once.  Its handlers are
those of the ranges over its blocks, in table order.

* `Graph.handlersOver`: the handlers of the ranges over some blocks.
* `TryGroup.handlers_of_mem_ofMethod`: the groups of a method have them.
* `TryGroup.proper_of_mem_ofMethod`, `Work.mem_ofMethod_of_start`: none of them
  is empty, and the work starts with no others.
-/

namespace Decompiler

namespace Graph

/-- The handler block of a range with the type it catches, if the range is from
the block `start` up to and without the block `stop`. -/
def handlerOver? (g : Graph) (start stop : Nat) (r : ExceptionRange) :
    Option (Nat × Option String) :=
  if g.blockAt? r.start = some start ∧ g.blockAt? r.stop = some stop then
    (g.blockAt? r.handler).map (·, r.type)
  else none

/-- The handler blocks of the ranges over some blocks with the types they catch,
in table order. -/
def handlersOver (g : Graph) (start stop : Nat) (ranges : List ExceptionRange) :
    List (Nat × Option String) :=
  ranges.filterMap (g.handlerOver? start stop)

/-- The handlers of the first range come first. -/
theorem handlersOver_cons (g : Graph) (start stop : Nat) (r : ExceptionRange)
    (rs : List ExceptionRange) :
    g.handlersOver start stop (r :: rs) =
      (g.handlerOver? start stop r).toList ++ g.handlersOver start stop rs := by
  rw [handlersOver, List.filterMap_cons]
  cases g.handlerOver? start stop r <;> rfl

end Graph

namespace TryGroup

variable {g : Graph} {ts : List TryGroup} {t : TryGroup} {start stop a b : Nat}

/-- Whether a group is over the blocks from `start` up to `stop`. -/
def isOver (start stop : Nat) (t : TryGroup) : Bool :=
  t.start = start ∧ t.stop = stop

/-- A group is over some blocks if it starts and stops with them. -/
theorem isOver_iff : t.isOver start stop = true ↔ t.start = start ∧
      t.stop = stop := by
  simp [isOver]

/-- The handlers that some groups have for a range. -/
def handlersAt (ts : List TryGroup) (start stop : Nat) :
    List (Nat × Option String) :=
  ((ts.find? (isOver start stop)).map (·.handlers)).getD []

/-- The first group over some blocks has their handlers. -/
theorem handlersAt_cons_self (h : t.isOver a b = true) (ts : List TryGroup) :
    handlersAt (t :: ts) a b = t.handlers := by
  rw [handlersAt, List.find?_cons_of_pos h]
  rfl

/-- A group over other blocks has none of their handlers. -/
theorem handlersAt_cons_of_not (h : ¬ t.isOver a b = true)
    (ts : List TryGroup) : handlersAt (t :: ts) a b = handlersAt ts a b := by
  rw [handlersAt, List.find?_cons_of_neg h, handlersAt]

/-- Groups over different ranges, none of them empty. -/
structure Apart (ts : List TryGroup) : Prop where
  distinct : ts.Pairwise fun t u => ¬ (t.start = u.start ∧ t.stop = u.stop)
  proper : ∀ t ∈ ts, t.start < t.stop

/-- Where groups are apart, each has all the handlers over its blocks. -/
theorem Apart.handlersAt_of_mem (h : Apart ts) (ht : t ∈ ts) :
    handlersAt ts t.start t.stop = t.handlers := by
  have hdistinct := h.distinct
  clear h
  induction ts with
  | nil => cases ht
  | cons u ts ih =>
    obtain ⟨hu, hts⟩ := List.pairwise_cons.1 hdistinct
    rcases List.mem_cons.1 ht with rfl | ht
    · exact handlersAt_cons_self (isOver_iff.2 ⟨rfl, rfl⟩) ts
    · rw [handlersAt_cons_of_not (fun hover => hu t ht (isOver_iff.1 hover)),
        ih ht hts]

/-- The groups after one more range are those before it, and its own. -/
theorem mem_add {h : Nat × Option String} (ht : t ∈ add start stop h ts) :
    (t.start = start ∧ t.stop = stop) ∨ t ∈ ts := by
  induction ts with
  | nil =>
    rcases List.mem_singleton.1 ht with rfl
    exact .inl ⟨rfl, rfl⟩
  | cons u ts ih =>
    unfold add at ht
    split at ht
    case isTrue hu =>
      rcases List.mem_cons.1 ht with rfl | ht
      · exact .inl hu
      · exact .inr (List.mem_cons_of_mem _ ht)
    case isFalse =>
      rcases List.mem_cons.1 ht with rfl | ht
      · exact .inr List.mem_cons_self
      · exact (ih ht).imp_right (List.mem_cons_of_mem _)

/-- Adding a handler keeps groups apart. -/
theorem Apart.add (h : Apart ts) (hlt : start < stop)
    (handler : Nat × Option String) : Apart (add start stop handler ts) := by
  constructor
  · have hdistinct := h.distinct
    clear h
    induction ts with
    | nil => exact List.pairwise_singleton _ _
    | cons u ts ih =>
      obtain ⟨hu, hts⟩ := List.pairwise_cons.1 hdistinct
      unfold TryGroup.add
      split
      case isTrue => exact List.pairwise_cons.2 ⟨hu, hts⟩
      case isFalse hne =>
        refine List.pairwise_cons.2 ⟨fun v hv => ?_, ih hts⟩
        rcases mem_add hv with ⟨hstart, hstop⟩ | hv
        · rwa [hstart, hstop]
        · exact hu v hv
  · intro t ht
    rcases mem_add ht with ⟨rfl, rfl⟩ | ht
    · exact hlt
    · exact h.proper t ht

/-- One more range adds its handler to those of its own group. -/
theorem handlersAt_add (handler : Nat × Option String) (ts : List TryGroup) :
    handlersAt (add start stop handler ts) a b =
      if start = a ∧ stop = b then
        handlersAt ts a b ++ [handler] else handlersAt ts a b := by
  induction ts with
  | nil =>
    by_cases hkey : start = a ∧ stop = b
    · rw [if_pos hkey, TryGroup.add, handlersAt_cons_self (isOver_iff.2 hkey)]
      rfl
    · rw [if_neg hkey, TryGroup.add,
        handlersAt_cons_of_not (fun h => hkey (isOver_iff.1 h))]
  | cons u ts ih =>
    unfold add
    by_cases hu : u.start = start ∧ u.stop = stop
    · obtain ⟨rfl, rfl⟩ := hu
      rw [if_pos ⟨rfl, rfl⟩]
      let more : TryGroup := { u with handlers := u.handlers ++ [handler] }
      change handlersAt (more :: ts) a b = _
      by_cases hkey : u.start = a ∧ u.stop = b
      · have hover : more.isOver a b = true := isOver_iff.2 hkey
        rw [if_pos hkey, handlersAt_cons_self hover,
          handlersAt_cons_self (isOver_iff.2 hkey)]
      · have hnot : ¬ more.isOver a b = true := fun h => hkey (isOver_iff.1 h)
        rw [if_neg hkey, handlersAt_cons_of_not hnot,
          handlersAt_cons_of_not fun h => hkey (isOver_iff.1 h)]
    · rw [if_neg hu]
      by_cases hover : u.isOver a b = true
      · obtain ⟨rfl, rfl⟩ := isOver_iff.1 hover
        rw [handlersAt_cons_self hover, handlersAt_cons_self hover,
          if_neg fun h => hu ⟨h.1.symm, h.2.symm⟩]
      · rw [handlersAt_cons_of_not hover, handlersAt_cons_of_not hover, ih]

/-- Collecting ranges keeps groups apart. -/
theorem Apart.collect (h : Apart ts) (rs : List ExceptionRange) :
    Apart (collect g ts rs) := by
  induction rs generalizing ts with
  | nil => exact h
  | cons r rs ih =>
    unfold TryGroup.collect
    split
    case h_1 start stop handler _ _ _ =>
      refine ih ?_
      by_cases hlt : start < stop
      · rw [if_pos hlt]
        exact h.add hlt _
      · rw [if_neg hlt]
        exact h
    case h_2 => exact ih h

/-- Going through a table adds the handlers of its ranges in order. -/
theorem handlersAt_collect (hlt : a < b) (ts : List TryGroup)
    (rs : List ExceptionRange) :
    handlersAt (collect g ts rs) a b = handlersAt ts a b ++
      g.handlersOver a b rs := by
  induction rs generalizing ts with
  | nil => exact (List.append_nil _).symm
  | cons r rs ih =>
    unfold collect
    split
    case h_1 start stop handler hstart hstop hhandler =>
      have hover : g.handlerOver? a b r =
          if start = a ∧ stop = b then some (handler, r.type) else none := by
        rw [Graph.handlerOver?, hstart, hstop, hhandler]
        simp only [Option.some.injEq, Option.map_some]
      rw [ih, Graph.handlersOver_cons, hover]
      by_cases hkey : start = a ∧ stop = b
      · rw [if_pos (by omega), handlersAt_add, if_pos hkey, if_pos hkey,
          List.append_assoc]
        rfl
      · rw [if_neg hkey, Option.toList_none, List.nil_append]
        split
        · rw [handlersAt_add, if_neg hkey]
        · rfl
    case h_2 hnone =>
      have hover : g.handlerOver? a b r = none := by
        unfold Graph.handlerOver?
        split
        case isTrue hkey =>
          cases hhandler : g.blockAt? r.handler with
          | none => rfl
          | some handler =>
            exact absurd hhandler (hnone a b handler hkey.1 hkey.2)
        case isFalse => rfl
      rw [ih, Graph.handlersOver_cons, hover, Option.toList_none,
        List.nil_append]

/-- The groups that are collected from nothing are apart. -/
theorem apart_collect (g : Graph) (rs : List ExceptionRange) :
    Apart (collect g [] rs) :=
  Apart.collect ⟨List.Pairwise.nil, fun _ h => nomatch h⟩ rs

/-- The handlers of a group are those of the ranges over its blocks, in table
order. -/
theorem handlers_of_mem_ofMethod {m : Method} (ht : t ∈ ofMethod g m) :
    t.handlers = g.handlersOver t.start t.stop m.ranges := by
  have hmem : t ∈ collect g [] m.ranges :=
    (Order.perm_sortOnPair _ _).mem_iff.1 ht
  have hapart := apart_collect g m.ranges
  rw [← hapart.handlersAt_of_mem hmem,
    handlersAt_collect (hapart.proper t hmem)]
  rfl

/-- The groups of a method are not empty. -/
theorem proper_of_mem_ofMethod {m : Method} (ht : t ∈ ofMethod g m) :
    t.start < t.stop :=
  (apart_collect g m.ranges).proper t ((Order.perm_sortOnPair _ _).mem_iff.1 ht)

end TryGroup

/-- The work on a method starts with its groups, or with none. -/
theorem Work.mem_ofMethod_of_start {ctx : Context} {g : Graph} {t : TryGroup}
    (ht : t ∈ (Work.start ctx g).pending) :
    t ∈ TryGroup.ofMethod g ctx.method := by
  unfold Work.start at ht
  dsimp only at ht
  split at ht
  · exact ht
  · cases ht

end Decompiler
