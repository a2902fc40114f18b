import EmbedTSDB.PartitionList.Concurrent
import EmbedTSDB.PartitionList.Refinement

/-! A call of the concurrent list that runs with no other thread between its steps does
what the sequential call does: the steps of `insert`, `remove` and `swap` compose to
`PartitionList.insert`, `PartitionList.remove` and `PartitionList.swap`, and a traversal's
`value()`s are the partitions of the chain in order. This connects the step-by-step model of
the concurrent module to the sequential model and, through `Refines`, to the list of
partitions, and is what the writers kept apart by their callers are shown to refine. -/
namespace EmbedTSDB

variable {α : Type}

/-- Where a call stands once it has returned `r`. -/
def ListPc.ofResult : Except String Unit → ListPc α
  | .ok () => .done
  | .error err => .failed err

/-- Where a scan of `remove` or `swap` ends: on the node found, with the node before it, or
failed. -/
def ScanFor.afterScan (op : ScanFor α) : Option (Option Nat × Nat) → ListPc α
  | some (prev, cur) => op.found prev cur
  | none => .failed "the given partition was not found"

namespace PartitionList

variable (minTimestamp : α → Int)

/-- The partition `remove(target)` cleans: the one on the node its scan stops on. -/
def removedBy (l : PartitionList α) (target : α) : List α :=
  if l.size ≤ 0 then []
  else
    match l.find minTimestamp (minTimestamp target) l.nodes.length none l.head with
    | some (_, cur) => (l.valueAt cur).toList
    | none => []

variable {minTimestamp} in
/-- On a list representing `xs`, `remove` cleans the first partition with the target's
minimum timestamp, if there is one. -/
theorem Refines.removedBy {l : PartitionList α} {xs : List α} (hl : l.Refines xs)
    (target : α) : l.removedBy minTimestamp target =
      (xs.find? fun x => minTimestamp x = minTimestamp target).toList := by
  obtain ⟨es, hs, -, rfl, hfind⟩ := hl.find minTimestamp (minTimestamp target)
  unfold PartitionList.removedBy
  by_cases hsize : l.size ≤ 0
  · have hnil : es.map Prod.snd = [] := by_contra fun hne => hl.size_pos.2 hne hsize
    rw [if_pos hsize, hnil]
    rfl
  rw [if_neg hsize, hfind]
  cases hf : findSpec minTimestamp (minTimestamp target) none es with
  | none =>
    rw [List.find?_eq_none.2 fun x hx => by simpa using findSpec_none_forall hf x hx]
    rfl
  | some r =>
    obtain ⟨prev, cur⟩ := r
    obtain ⟨ys, v, zs, rfl, hys, hv, -⟩ := findSpec_eq_some hf
    obtain ⟨n, hn, hnv⟩ := hs.val_of_mem (show (cur, v) ∈ ys ++ (cur, v) :: zs by simp)
    have hnone : (ys.map Prod.snd).find? (fun x => minTimestamp x = minTimestamp target) = none :=
      List.find?_eq_none.2 fun x hx => by
        obtain ⟨e, he, rfl⟩ := List.mem_map.1 hx
        simpa using hys e he
    simp [valueAt, hn, hnv, List.find?_append, hnone, hv]

end PartitionList

variable [DecidableEq α] (minTimestamp : α → Int)

/-- A thread's own steps, with no other thread between them. -/
abbrev SoloSteps : SharedList α × ListThread α → SharedList α × ListThread α → Prop :=
  Relation.ReflTransGen (listThreads minTimestamp).Solo

theorem solo_step {p : SharedList α × ListThread α} (h : p.2.returned = false) :
    (listThreads minTimestamp).Solo p (listStep minTimestamp p.1 p.2) :=
  ⟨h, (), rfl⟩

/-- The scan of `remove` and `swap` run alone walks the chain from where `next()` moves the
iterator and stops where `findSpec` does. -/
theorem scan_solo {l : PartitionList α} {c : List α} {op : ScanFor α} {snap : List α}
    {seen : List (α × Bool)} {es : List (Nat × α)} :
    ∀ {prev : Option Nat} {it : PartitionIterator}, Seg l.nodes (l.next it).2.frontier es none →
      SoloSteps minTimestamp (⟨l, c⟩, ⟨.scan op prev it, snap, seen⟩)
        (⟨l, c⟩,
          ⟨op.afterScan (findSpec minTimestamp (minTimestamp op.key) prev es), snap, seen⟩) := by
  induction es with
  | nil =>
    intro prev it hs
    have hnone : (l.next it).2.frontier = none := by simpa using hs.start_eq
    refine .single ⟨rfl, (), ?_⟩
    simp only [listThreads, listStep]
    rw [PartitionList.next_eq_frontier, hnone]
    rfl
  | cons e es ih =>
    intro prev it hs
    obtain ⟨a, v⟩ := e
    obtain ⟨ha, n, hn, rfl, hz⟩ := hs.head_inv
    have hval : l.valueAt a = some n.val := by simp [PartitionList.valueAt, hn]
    have hstep : listStep minTimestamp ⟨l, c⟩ ⟨.scan op prev it, snap, seen⟩ =
        if minTimestamp n.val = minTimestamp op.key then (⟨l, c⟩, ⟨op.found prev a, snap, seen⟩)
        else (⟨l, c⟩, ⟨.scan op (some a) ⟨some (.node a)⟩, snap, seen⟩) := by
      simp only [listStep]
      rw [PartitionList.next_eq_frontier, ha]
      simp only [Option.map_some', hval, Option.some.injEq]
    refine .head (solo_step minTimestamp rfl) ?_
    simp only [hstep, findSpec]
    split
    · exact .refl
    · refine ih ?_
      simpa [PartitionList.next, PartitionList.getNext, hn] using hz

theorem SoloSteps.of_eq {p q q' : SharedList α × ListThread α}
    (h : SoloSteps minTimestamp p q) (hq : q = q') : SoloSteps minTimestamp p q' :=
  hq ▸ h

/-- The first steps of `remove` and `swap`: the size check, then on a non-empty list the
iterator and the scan, which stops where `findSpec` does. -/
theorem sizeCheck_solo {l : PartitionList α} {es : List (Nat × α)}
    (hs : Seg l.nodes l.head es none) (c : List α) (op : ScanFor α) (snap : List α)
    (seen : List (α × Bool)) :
    SoloSteps minTimestamp (⟨l, c⟩, ⟨.sizeCheck op, snap, seen⟩)
      (⟨l, c⟩, ⟨if l.size ≤ 0 then .failed "empty partition"
        else op.afterScan (findSpec minTimestamp (minTimestamp op.key) none es), snap, seen⟩) := by
  by_cases hsize : l.size ≤ 0
  · exact .single ⟨rfl, (), by simp [listThreads, listStep, hsize]⟩
  have h1 : (listThreads minTimestamp).Solo (⟨l, c⟩, ⟨.sizeCheck op, snap, seen⟩)
      (⟨l, c⟩, ⟨.newIterator op, snap, seen⟩) := ⟨rfl, (), by simp [listThreads, listStep, hsize]⟩
  rw [if_neg hsize]
  exact .head h1 (.head (solo_step minTimestamp rfl) (scan_solo minTimestamp (by
    simpa [PartitionList.newIterator, PartitionList.next] using hs)))

/-- The last two steps of `remove`: the count goes down and the partition is cleaned. -/
theorem removeAdd_solo (l : PartitionList α) (c : List α) (cleanOk : Bool) (cur : Nat)
    (snap : List α) (seen : List (α × Bool)) :
    SoloSteps minTimestamp (⟨l, c⟩, ⟨.removeAdd cleanOk cur, snap, seen⟩)
      (⟨{ l with numPartitions := l.numPartitions - 1 }, c ++ (l.valueAt cur).toList⟩,
        ⟨ListPc.ofResult (if cleanOk then .ok ()
          else .error "failed to clean resources managed by partition to be removed"),
          snap, seen⟩) :=
  .head (solo_step minTimestamp rfl) (.single (by cases cleanOk <;> exact ⟨rfl, (), rfl⟩))

/-- `remove` run alone on a list representing some partitions leaves the list the sequential
`remove` leaves, cleans the partition it unlinked, and returns what it returns. -/
theorem remove_solo {l : PartitionList α} {xs : List α} (hl : l.Refines xs) (c : List α)
    (target : α) (cleanOk : Bool) (snap : List α) (seen : List (α × Bool)) :
    SoloSteps minTimestamp (⟨l, c⟩, ⟨.sizeCheck (.remove target cleanOk), snap, seen⟩)
      (⟨(l.remove minTimestamp cleanOk target).1, c ++ l.removedBy minTimestamp target⟩,
        ⟨ListPc.ofResult (l.remove minTimestamp cleanOk target).2, snap, seen⟩) := by
  obtain ⟨es, hs, -, -, hfind⟩ := hl.find minTimestamp (minTimestamp target)
  refine .trans (sizeCheck_solo minTimestamp hs c _ snap seen) ?_
  unfold PartitionList.remove PartitionList.removedBy
  by_cases hsize : l.size ≤ 0
  · simp only [hsize, if_true, List.append_nil]
    exact .refl
  simp only [hsize, if_false, hfind, ScanFor.key]
  cases findSpec minTimestamp (minTimestamp target) none es with
  | none => exact SoloSteps.of_eq minTimestamp .refl (by simp [ScanFor.afterScan, ListPc.ofResult])
  | some r =>
    obtain ⟨prev, cur⟩ := r
    have h2 : (listThreads minTimestamp).Solo
        (⟨l, c⟩, ⟨.removeNext cleanOk prev cur, snap, seen⟩)
        (⟨l, c⟩, ⟨.removeLink cleanOk prev cur (l.getNext cur), snap, seen⟩) :=
      solo_step minTimestamp rfl
    refine .head h2 ?_
    rcases prev with _ | p
    · exact .head (solo_step minTimestamp rfl) (removeAdd_solo minTimestamp _ _ _ _ _ _)
    · cases hn : l.getNext cur with
      | none =>
        refine .head (solo_step minTimestamp rfl) (.head (solo_step minTimestamp rfl)
          (.head (solo_step minTimestamp rfl) ?_))
        exact (removeAdd_solo minTimestamp _ _ _ _ _ _).of_eq minTimestamp (by
          simp [hn, listStep]
          exact congrArg Option.toList (PartitionList.valueAt_setNext l p cur _))
      | some n =>
        refine .head (solo_step minTimestamp rfl) ?_
        exact (removeAdd_solo minTimestamp _ _ _ _ _ _).of_eq minTimestamp (by simp [hn, listStep])

/-- `swap` run alone on a list representing some partitions leaves the list the sequential
`swap` leaves and returns what it returns. -/
theorem swap_solo {l : PartitionList α} {xs : List α} (hl : l.Refines xs) (c : List α)
    (old new : α) (snap : List α) (seen : List (α × Bool)) :
    SoloSteps minTimestamp (⟨l, c⟩, ⟨.sizeCheck (.swap old new), snap, seen⟩)
      (⟨(l.swap minTimestamp old new).1, c⟩,
        ⟨ListPc.ofResult (l.swap minTimestamp old new).2, snap, seen⟩) := by
  obtain ⟨es, hs, -, -, hfind⟩ := hl.find minTimestamp (minTimestamp old)
  refine .trans (sizeCheck_solo minTimestamp hs c _ snap seen) ?_
  unfold PartitionList.swap
  by_cases hsize : l.size ≤ 0
  · simp only [hsize, if_true]
    exact .refl
  simp only [hsize, if_false, hfind, ScanFor.key]
  cases hf : findSpec minTimestamp (minTimestamp old) none es with
  | none => exact .refl
  | some r =>
    obtain ⟨prev, cur⟩ := r
    obtain ⟨ys, v, zs, rfl, -, -, -⟩ := findSpec_eq_some hf
    have hcur : cur < l.nodes.length := hs.lt_length (cur, v) (by simp)
    have h3 : (listThreads minTimestamp).Solo
        (⟨(l.alloc ⟨new, l.getNext cur⟩).1, c⟩, ⟨.swapNext prev cur l.nodes.length, snap, seen⟩)
        (⟨(l.alloc ⟨new, l.getNext cur⟩).1, c⟩,
          ⟨.swapLink prev l.nodes.length (l.getNext cur), snap, seen⟩) :=
      ⟨rfl, (), by simp [listThreads, listStep, PartitionList.getNext_alloc _ _ hcur]⟩
    refine .head (solo_step minTimestamp rfl) (.head h3 ?_)
    dsimp only
    rcases prev with _ | p
    · exact .single (solo_step minTimestamp rfl)
    · cases hn : l.getNext cur with
      | none =>
        refine .head (solo_step minTimestamp rfl) (.single (solo_step minTimestamp rfl))
      | some n => exact .single (solo_step minTimestamp rfl)

/-- `insert` run alone is the sequential `insert`. -/
theorem insert_solo (l : PartitionList α) (c : List α) (p : α) (snap : List α)
    (seen : List (α × Bool)) :
    SoloSteps minTimestamp (⟨l, c⟩, ⟨.insert p, snap, seen⟩)
      (⟨l.insert p, c⟩, ⟨.done, snap, seen⟩) :=
  .head (solo_step minTimestamp rfl) (.head (solo_step minTimestamp rfl)
    (.single (solo_step minTimestamp rfl)))

/-- The loop `for it.next() { it.value() }` run alone returns the partitions of the chain
from where `next()` moves the iterator, each with whether it had been cleaned. -/
theorem traverseNext_solo {l : PartitionList α} {c snap : List α} {es : List (Nat × α)} :
    ∀ {seen : List (α × Bool)} {it : PartitionIterator},
      Seg l.nodes (l.next it).2.frontier es none →
      SoloSteps minTimestamp (⟨l, c⟩, ⟨.traverseNext it, snap, seen⟩)
        (⟨l, c⟩, ⟨.done, snap, seen ++ es.map fun e => (e.2, decide (e.2 ∈ c))⟩) := by
  induction es with
  | nil =>
    intro seen it hs
    have hnone : (l.next it).2.frontier = none := by simpa using hs.start_eq
    refine .single ⟨rfl, (), ?_⟩
    simp only [listThreads, listStep, List.map_nil, List.append_nil]
    rw [PartitionList.next_eq_frontier, hnone]
    rfl
  | cons e es ih =>
    intro seen it hs
    obtain ⟨a, v⟩ := e
    obtain ⟨ha, n, hn, rfl, hz⟩ := hs.head_inv
    have h1 : (listThreads minTimestamp).Solo (⟨l, c⟩, ⟨.traverseNext it, snap, seen⟩)
        (⟨l, c⟩, ⟨.traverseValue ⟨some (.node a)⟩, snap, seen⟩) := by
      refine ⟨rfl, (), ?_⟩
      simp only [listThreads, listStep]
      rw [PartitionList.next_eq_frontier, ha]
      rfl
    have h2 : (listThreads minTimestamp).Solo
        (⟨l, c⟩, ⟨.traverseValue ⟨some (.node a)⟩, snap, seen⟩)
        (⟨l, c⟩, ⟨.traverseNext ⟨some (.node a)⟩, snap, seen ++ [(n.val, decide (n.val ∈ c))]⟩) :=
      ⟨rfl, (), by simp [listThreads, listStep, PartitionList.value, PartitionList.valueAt, hn]⟩
    refine .head h1 (.head h2 ((ih ?_).of_eq minTimestamp (by simp)))
    simpa [PartitionList.next, PartitionList.getNext, hn] using hz

/-- A traversal run alone returns every partition of the chain from the head, in order, each
with whether it had been cleaned when the iterator was made. -/
theorem traverse_solo {l : PartitionList α} {es : List (Nat × α)}
    (hs : Seg l.nodes l.head es none) (c snap : List α) (seen : List (α × Bool)) :
    SoloSteps minTimestamp (⟨l, c⟩, ⟨.traverse, snap, seen⟩)
      (⟨l, c⟩, ⟨.done, c, seen ++ es.map fun e => (e.2, decide (e.2 ∈ c))⟩) :=
  .head (solo_step minTimestamp rfl)
    (traverseNext_solo minTimestamp (by
      simpa [PartitionList.newIterator, PartitionList.next] using hs))

/-- What a task does by the list model, from the partitions `xs` with `c` cleaned: the
partitions it leaves, the partitions cleaned after it, and its thread once it has returned.
`remove` cleans the first partition with the target's minimum timestamp, and a traversal
returns every partition, each with whether it had been cleaned. -/
def ListTask.spec (xs c : List α) : ListTask α → (List α × List α) × ListThread α
  | .insert p => ((p :: xs, c), ⟨.done, [], []⟩)
  | .remove target cleanOk =>
    (((PartitionList.removeSpec minTimestamp xs target cleanOk).1,
        c ++ (xs.find? fun x => minTimestamp x = minTimestamp target).toList),
      ⟨.ofResult (PartitionList.removeSpec minTimestamp xs target cleanOk).2, [], []⟩)
  | .swap old new =>
    (((PartitionList.swapSpec minTimestamp xs old new).1, c),
      ⟨.ofResult (PartitionList.swapSpec minTimestamp xs old new).2, [], []⟩)
  | .traverse => ((xs, c), ⟨.done, c, xs.map fun v => (v, decide (v ∈ c))⟩)

/-- Every task returns by the list model. -/
theorem ListTask.spec_returned (xs c : List α) (task : ListTask α) :
    (task.spec minTimestamp xs c).2.returned = true := by
  have hres : ∀ r : Except String Unit, (ListPc.ofResult r : ListPc α) = .done ∨
      ∃ err, (ListPc.ofResult r : ListPc α) = .failed err := by
    rintro (err | ⟨⟩)
    exacts [.inr ⟨err, rfl⟩, .inl rfl]
  cases task with
  | insert | traverse => rfl
  | remove target cleanOk =>
    rcases hres (PartitionList.removeSpec minTimestamp xs target cleanOk).2 with h | ⟨err, h⟩ <;>
      simp [ListTask.spec, ListThread.returned, h]
  | swap old new =>
    rcases hres (PartitionList.swapSpec minTimestamp xs old new).2 with h | ⟨err, h⟩ <;>
      simp [ListTask.spec, ListThread.returned, h]

/-- A task run with no other thread between its steps, on a list representing `xs`, ends
where the list model says: the list it leaves represents the partitions the model leaves, and
the cleaned partitions and the thread are the model's. -/
theorem ListTask.solo_refines {l : PartitionList α} {xs : List α} (hl : l.Refines xs)
    (c : List α) (task : ListTask α) :
    ∃ l' : PartitionList α, l'.Refines (task.spec minTimestamp xs c).1.1 ∧
      SoloSteps minTimestamp (⟨l, c⟩, task.start)
        (⟨l', (task.spec minTimestamp xs c).1.2⟩, (task.spec minTimestamp xs c).2) := by
  cases task with
  | insert p => exact ⟨_, hl.insert p, insert_solo minTimestamp l c p [] []⟩
  | remove target cleanOk =>
    obtain ⟨hr, hl'⟩ := hl.remove cleanOk target
    refine ⟨_, hl', ?_⟩
    simpa only [hr, hl.removedBy] using remove_solo minTimestamp hl c target cleanOk [] []
  | swap old new =>
    obtain ⟨hr, hl'⟩ := hl.swap old new
    refine ⟨_, hl', ?_⟩
    simpa only [hr] using swap_solo minTimestamp hl c old new [] []
  | traverse =>
    obtain ⟨es, hs, -, rfl⟩ := hl.chain
    exact ⟨l, hl, (traverse_solo minTimestamp hs c [] []).of_eq minTimestamp (by
      simp [ListTask.spec, Function.comp_def])⟩

/-- Tasks run one after another by the list model, each from where the one before left the
partitions and the cleaned ones: where they leave them, and each task's thread. -/
def ListTask.specAll (xs c : List α) : List (ListTask α) → (List α × List α) × List (ListThread α)
  | [] => ((xs, c), [])
  | t :: ts =>
    let r := t.spec minTimestamp xs c
    ((ListTask.specAll r.1.1 r.1.2 ts).1, r.2 :: (ListTask.specAll r.1.1 r.1.2 ts).2)

/-- Every thread of tasks run one after another by the list model has returned. -/
theorem ListTask.specAll_returned (xs c : List α) (tasks : List (ListTask α)) :
    ∀ t ∈ (ListTask.specAll minTimestamp xs c tasks).2, t.returned = true := by
  induction tasks generalizing xs c with
  | nil => simp [ListTask.specAll]
  | cons task ts ih =>
    simp only [ListTask.specAll, List.mem_cons, forall_eq_or_imp]
    exact ⟨ListTask.spec_returned minTimestamp xs c task, ih _ _⟩

example : (ListTask.specAll id [] [] [.insert (1 : Int), .insert 2, .remove 1 true]).1 =
    ([2], [1]) := by decide

end EmbedTSDB
