import Mathlib.Algebra.BigOperators.Group.List
import Mathlib.Algebra.Ring.Int.Defs
import EmbedTSDB.PartitionList.Concurrent

/-! The partition count under concurrent callers. `insert` and `remove` change
`numPartitions` only with atomic adds, so however their steps interleave, and even when a race
loses a partition from the chain, no change of the count is lost or made twice: at every point
the count is the one the list started with, plus one per `insert` that has returned, minus one
per `remove` that has passed its decrement. -/
namespace EmbedTSDB

variable {α : Type}

/-- The kinds of call on the partition list. -/
inductive ListKind
  | insert
  | remove
  | swap
  | traverse
  deriving DecidableEq

def ListTask.kind : ListTask α → ListKind
  | .insert _ => .insert
  | .remove .. => .remove
  | .swap .. => .swap
  | .traverse => .traverse

def ScanFor.kind : ScanFor α → ListKind
  | .remove .. => .remove
  | .swap .. => .swap

/-- The kind of call a thread at `pc` runs; nothing once it has returned. -/
def ListPc.kind? : ListPc α → Option ListKind
  | .insert _ | .insertSetHead _ | .insertAdd => some .insert
  | .sizeCheck op | .newIterator op | .scan op .. => some op.kind
  | .removeNext .. | .removeLink .. | .removeSetTail .. | .removeClearCache .. | .removeAdd ..
  | .removeClean .. => some .remove
  | .swapAlloc .. | .swapNext .. | .swapLink .. | .swapSetTail _ => some .swap
  | .traverse | .traverseNext _ | .traverseValue _ => some .traverse
  | .done | .failed _ => none

/-- A thread at `pc` runs `task`, or has returned. -/
def ListTask.Owns (task : ListTask α) (pc : ListPc α) : Prop :=
  pc.kind? = some task.kind ∨ pc.kind? = none

/-- What the step at `pc` adds to `numPartitions`. -/
def ListPc.countStep : ListPc α → Int
  | .insertAdd => 1
  | .removeAdd .. => -1
  | _ => 0

/-- What a call of this kind adds to `numPartitions` in all. -/
def ListKind.added : ListKind → Int
  | .insert => 1
  | .remove => -1
  | .swap | .traverse => 0

/-- What a call has added to `numPartitions` so far: an `insert` one once it has returned, a
`remove` minus one from its decrement on, that is at its `clean()` step and once it has
returned from there, done or with the clean error. -/
def ListTask.counted (task : ListTask α) : ListPc α → Int
  | .removeClean .. => -1
  | .done => task.kind.added
  | .failed err =>
    if err = "failed to clean resources managed by partition to be removed" then -1 else 0
  | _ => 0

@[simp] theorem ScanFor.kind_found (op : ScanFor α) (prev : Option Nat) (cur : Nat) :
    (op.found prev cur).kind? = some op.kind := by
  cases op <;> rfl

@[simp] theorem ScanFor.counted_found (task : ListTask α) (op : ScanFor α) (prev : Option Nat)
    (cur : Nat) : task.counted (op.found prev cur) = 0 := by
  cases op <;> rfl

theorem ListTask.owns_start (task : ListTask α) : task.Owns task.start.pc := by
  cases task <;> exact Or.inl rfl

theorem ListTask.counted_start (task : ListTask α) : task.counted task.start.pc = 0 := by
  cases task <;> rfl

/-- Replacing one entry of the right list changes the sum of a `zipWith` by the change of
that entry's term. -/
theorem sum_zipWith_set {β γ : Type} (f : β → γ → Int) :
    ∀ (xs : List β) (ys : List γ) (i : Nat) {x : β} {y₀ : γ} (y : γ), xs[i]? = some x →
      ys[i]? = some y₀ →
      (List.zipWith f xs (ys.set i y)).sum = (List.zipWith f xs ys).sum + (f x y - f x y₀)
  | _ :: _, _ :: _, 0, _, _, _, hx, hy => by
    simp only [List.getElem?_cons_zero, Option.some.injEq] at hx hy
    subst hx hy
    simp only [List.set_cons_zero, List.zipWith_cons_cons, List.sum_cons]
    omega
  | _ :: xs, _ :: ys, i + 1, _, _, y, hx, hy => by
    simp only [List.getElem?_cons_succ] at hx hy
    simp only [List.set_cons_succ, List.zipWith_cons_cons, List.sum_cons,
      sum_zipWith_set f xs ys i y hx hy]
    omega
  | [], _, _, _, _, _, hx, _ => by simp at hx
  | _ :: _, [], _, _, _, _, _, hy => by simp at hy

/-- What the calls at `calls`, started on `tasks`, have added to the count. -/
def countedAll (tasks : List (ListTask α)) (calls : List (ListThread α)) : Int :=
  (List.zipWith (fun task t => task.counted t.pc) tasks calls).sum

/-- Each thread runs the task at its index, and the count is the one the list started with,
`n₀`, plus what the calls have added. -/
structure CountInv (n₀ : Int) (tasks : List (ListTask α))
    (s : Config (SharedList α) (ListThread α)) : Prop where
  length : s.calls.length = tasks.length
  owns : ∀ (i : Nat) (task : ListTask α) (t : ListThread α), tasks[i]? = some task →
    s.calls[i]? = some t →
    task.Owns t.pc
  count : s.shared.list.numPartitions = n₀ + countedAll tasks s.calls

theorem CountInv.init (l : PartitionList α) (tasks : List (ListTask α)) :
    CountInv l.numPartitions tasks (ListSystem.init l tasks) := by
  refine ⟨List.length_map _ _, fun i task t hi ht => ?_, ?_⟩
  · simp only [ListSystem.init, List.getElem?_map, hi, Option.map_some', Option.some.injEq] at ht
    exact ht ▸ task.owns_start
  · have hz : ∀ ts : List (ListTask α), countedAll ts (ts.map ListTask.start) = 0 := by
      intro ts
      induction ts with
      | nil => rfl
      | cons task ts ih =>
        simp only [countedAll, List.map_cons, List.zipWith_cons_cons, List.sum_cons,
          task.counted_start] at ih ⊢
        omega
    simp [ListSystem.init, hz]

variable [DecidableEq α] (minTimestamp : α → Int)

/-- Only the atomic adds of `insert` and `remove` change the count. -/
theorem listStep_numPartitions (sh : SharedList α) (t : ListThread α) :
    (listStep minTimestamp sh t).1.list.numPartitions = sh.list.numPartitions + t.pc.countStep := by
  rcases t with ⟨pc, snap, seen⟩
  cases pc
  case insertAdd => rfl
  case removeAdd => exact Int.sub_eq_add_neg
  all_goals
    simp only [ListPc.countStep, Int.add_zero]
    dsimp only [listStep]
  all_goals (try split) <;> (try split_ifs) <;> rfl

/-- A step keeps a thread on its task, and what the call has counted changes by what the step
adds to the count. -/
theorem ListTask.counted_step (sh : SharedList α) {task : ListTask α} {t : ListThread α}
    (ho : task.Owns t.pc) (hrun : t.returned = false) :
    task.Owns (listStep minTimestamp sh t).2.pc ∧
      task.counted (listStep minTimestamp sh t).2.pc = task.counted t.pc + t.pc.countStep := by
  rcases t with ⟨pc, snap, seen⟩
  obtain hk | hk := ho
  · cases pc <;> simp only [ListPc.kind?, Option.some.injEq] at hk <;> dsimp only [listStep] <;>
      (try split) <;> (try split_ifs) <;> (try simp only [ListTask.Owns, ScanFor.kind_found, ScanFor.counted_found]) <;>
      simp [ListTask.Owns, ListPc.kind?, ListTask.counted, ListPc.countStep, ← hk, ListKind.added]
  · cases pc <;> simp_all [ListPc.kind?, ListThread.returned]

/-- Every step keeps the invariant: the thread that moves stays on its task, and what its call
has counted changes exactly as the count does. -/
theorem CountInv.step {n₀ : Int} {tasks : List (ListTask α)}
    {s s' : Config (SharedList α) (ListThread α)} (h : CountInv n₀ tasks s)
    (hs : Config.Step (listThreads minTimestamp) s s') : CountInv n₀ tasks s' := by
  obtain ⟨hc, hrun, x⟩ := hs
  rename_i i t
  rw [stepCall_listThreads minTimestamp hc]
  have hi : i < tasks.length := h.length ▸ (List.getElem?_eq_some_iff.1 hc).1
  obtain ⟨task, htask⟩ : ∃ task, tasks[i]? = some task := ⟨tasks[i], List.getElem?_eq_getElem hi⟩
  obtain ⟨howns, hcount⟩ := ListTask.counted_step minTimestamp s.shared
    (h.owns i task t htask hc) hrun
  refine ⟨by rw [List.length_set]; exact h.length, fun j task' t' hj ht' => ?_, ?_⟩
  · by_cases hji : i = j
    · subst hji
      rw [List.getElem?_set_self (List.getElem?_eq_some_iff.1 hc).1, Option.some.injEq] at ht'
      rw [htask, Option.some.injEq] at hj
      exact hj ▸ ht' ▸ howns
    · rw [List.getElem?_set_ne hji] at ht'
      exact h.owns j task' t' hj ht'
  · dsimp only
    rw [listStep_numPartitions, h.count]
    unfold countedAll
    rw [sum_zipWith_set _ tasks s.calls i _ htask hc, hcount]
    omega

theorem CountInv.reachable {l : PartitionList α} {tasks : List (ListTask α)}
    {s : Config (SharedList α) (ListThread α)}
    (h : Config.Reachable (listThreads minTimestamp) (ListSystem.init l tasks) s) :
    CountInv l.numPartitions tasks s := by
  induction h with
  | init => exact CountInv.init l tasks
  | tail _ hs ih => exact ih.step minTimestamp hs

/-- No change of the partition count is lost or made twice, however the calls interleave:
at every point `numPartitions` is the count the list started with, plus one for each `insert`
that has returned, minus one for each `remove` past its atomic decrement, even where a race has
lost a partition from the chain. -/
theorem listThreads_numPartitions {l : PartitionList α} {tasks : List (ListTask α)}
    {s : Config (SharedList α) (ListThread α)}
    (h : Config.Reachable (listThreads minTimestamp) (ListSystem.init l tasks) s) :
    s.shared.list.numPartitions = l.numPartitions + countedAll tasks s.calls :=
  (CountInv.reachable minTimestamp h).count

/-- In the race of two inserts on the empty list both returned, so the count is two, while the
chain holds one partition. -/
theorem listThreads_numPartitions_race :
    Config.Reachable (listThreads id) (ListSystem.init newPartitionList [.insert 1, .insert 2])
        insertRaceRun ∧
      insertRaceRun.shared.list.numPartitions =
        (newPartitionList : PartitionList Int).numPartitions +
          countedAll [.insert 1, .insert 2] insertRaceRun.calls ∧
      countedAll [(.insert 1 : ListTask Int), .insert 2] insertRaceRun.calls = 2 := by
  have h : Config.Reachable (listThreads id)
      (ListSystem.init newPartitionList [.insert 1, .insert 2]) insertRaceRun :=
    Config.Reachable.run .init (by decide)
  exact ⟨h, listThreads_numPartitions id h, by decide⟩

end EmbedTSDB
