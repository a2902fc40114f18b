import EmbedTSDB.PartitionList.Chain
import EmbedTSDB.Concurrency

/-! The partition list under concurrent callers. Each call of `insert`, `remove` and `swap`,
and each loop `for it.next() { it.value() }` over a fresh iterator, is cut into its atomic
steps: each critical section of the list's lock or of a node's lock, and each atomic load,
store and add. Work on a call's own variables, and reads of a node's partition, which never
changes, run inside the step before them. Beside the list, the shared state records the
partitions whose `clean()` has been called; a traversal records, besides what `value()`
returned, which partitions had been cleaned when it made its iterator. -/
namespace EmbedTSDB

/-- The partition list and the partitions whose `clean()` has been called. -/
structure SharedList (α : Type) where
  list : PartitionList α
  cleaned : List α
  deriving DecidableEq, Repr

/-- The call a scan of `remove` or `swap` belongs to. -/
inductive ScanFor (α : Type)
  | remove (target : α) (cleanOk : Bool)
  | swap (old new : α)
  deriving DecidableEq, Repr

/-- Where a thread stands, with the local variables it has set so far: `prev`, `current`
(`cur`), `next` and `newNode` (`node`) of `remove` and `swap`, and the iterator of a
traversal. -/
inductive ListPc (α : Type)
  | insert (partition : α)
  | insertSetHead (node : Nat)
  | insertAdd
  | sizeCheck (op : ScanFor α)
  | newIterator (op : ScanFor α)
  | scan (op : ScanFor α) (prev : Option Nat) (it : PartitionIterator)
  | removeNext (cleanOk : Bool) (prev : Option Nat) (cur : Nat)
  | removeLink (cleanOk : Bool) (prev : Option Nat) (cur : Nat) (next : Option Nat)
  | removeSetTail (cleanOk : Bool) (prev cur : Nat)
  | removeClearCache (cleanOk : Bool) (cur : Nat)
  | removeAdd (cleanOk : Bool) (cur : Nat)
  | removeClean (cleanOk : Bool) (cur : Nat)
  | swapAlloc (new : α) (prev : Option Nat) (cur : Nat)
  | swapNext (prev : Option Nat) (cur node : Nat)
  | swapLink (prev : Option Nat) (node : Nat) (next : Option Nat)
  | swapSetTail (node : Nat)
  | traverse
  | traverseNext (it : PartitionIterator)
  | traverseValue (it : PartitionIterator)
  | done
  | failed (err : String)
  deriving DecidableEq, Repr

variable {α : Type}

/-- The partition whose minimum timestamp a scan looks for. -/
def ScanFor.key : ScanFor α → α
  | .remove target _ => target
  | .swap old _ => old

/-- Where a scan goes once `samePartitions` holds of `current`. -/
def ScanFor.found : ScanFor α → Option Nat → Nat → ListPc α
  | .remove _ cleanOk, prev, cur => .removeNext cleanOk prev cur
  | .swap _ new, prev, cur => .swapAlloc new prev cur

/-- A thread: where it stands, and for a traversal the partitions cleaned when it made its
iterator and what `value()` returned, each with whether its `clean()` had been called. -/
structure ListThread (α : Type) where
  pc : ListPc α
  snapshot : List α
  seen : List (α × Bool)
  deriving DecidableEq, Repr

/-- What a thread is started to do. -/
inductive ListTask (α : Type)
  | insert (partition : α)
  | remove (target : α) (cleanOk : Bool)
  | swap (old new : α)
  | traverse
  deriving DecidableEq, Repr

/-- A thread about to run its task. -/
def ListTask.start : ListTask α → ListThread α
  | .insert p => ⟨.insert p, [], []⟩
  | .remove target cleanOk => ⟨.sizeCheck (.remove target cleanOk), [], []⟩
  | .swap old new => ⟨.sizeCheck (.swap old new), [], []⟩
  | .traverse => ⟨.traverse, [], []⟩

variable [DecidableEq α] (minTimestamp : α → Int)

/-- One atomic step of a thread. -/
def listStep (s : SharedList α) (t : ListThread α) : SharedList α × ListThread α :=
  let l := s.list
  match t.pc with
  | .insert p =>
    let r := l.alloc ⟨p, l.head⟩
    ({ s with list := r.1 }, { t with pc := .insertSetHead r.2 })
  | .insertSetHead node => ({ s with list := l.setHead (some node) }, { t with pc := .insertAdd })
  | .insertAdd =>
    ({ s with list := { l with numPartitions := l.numPartitions + 1 } }, { t with pc := .done })
  | .sizeCheck op =>
    (s, { t with pc := if l.size ≤ 0 then .failed "empty partition" else .newIterator op })
  | .newIterator op => (s, { t with pc := .scan op none l.newIterator })
  | .scan op prev it =>
    match (l.next it).2.current with
    | some (.node cur) =>
      if (l.valueAt cur).map minTimestamp = some (minTimestamp op.key) then
        (s, { t with pc := op.found prev cur })
      else (s, { t with pc := .scan op (some cur) (l.next it).2 })
    | _ => (s, { t with pc := .failed "the given partition was not found" })
  | .removeNext cleanOk prev cur =>
    (s, { t with pc := .removeLink cleanOk prev cur (l.getNext cur) })
  | .removeLink cleanOk prev cur next =>
    match prev, next with
    | none, _ => ({ s with list := l.setHead next }, { t with pc := .removeAdd cleanOk cur })
    | some p, none =>
      ({ s with list := l.setNext p none }, { t with pc := .removeSetTail cleanOk p cur })
    | some p, some n =>
      ({ s with list := l.setNext p (some n) }, { t with pc := .removeAdd cleanOk cur })
  | .removeSetTail cleanOk p cur =>
    ({ s with list := l.setTail (some p) }, { t with pc := .removeClearCache cleanOk cur })
  | .removeClearCache cleanOk cur =>
    ({ s with list := { l with headCache := none } }, { t with pc := .removeAdd cleanOk cur })
  | .removeAdd cleanOk cur =>
    ({ s with list := { l with numPartitions := l.numPartitions - 1 } },
      { t with pc := .removeClean cleanOk cur })
  | .removeClean cleanOk cur =>
    ({ s with cleaned := s.cleaned ++ (l.valueAt cur).toList },
      { t with pc := if cleanOk then .done
        else .failed "failed to clean resources managed by partition to be removed" })
  | .swapAlloc new prev cur =>
    let r := l.alloc ⟨new, l.getNext cur⟩
    ({ s with list := r.1 }, { t with pc := .swapNext prev cur r.2 })
  | .swapNext prev cur node => (s, { t with pc := .swapLink prev node (l.getNext cur) })
  | .swapLink prev node next =>
    match prev, next with
    | none, _ => ({ s with list := l.setHead (some node) }, { t with pc := .done })
    | some p, none =>
      ({ s with list := l.setNext p (some node) }, { t with pc := .swapSetTail node })
    | some p, some _ => ({ s with list := l.setNext p (some node) }, { t with pc := .done })
  | .swapSetTail node => ({ s with list := l.setTail (some node) }, { t with pc := .done })
  | .traverse => (s, { t with pc := .traverseNext l.newIterator, snapshot := s.cleaned })
  | .traverseNext it =>
    (s, { t with pc := if (l.next it).1 then .traverseValue (l.next it).2 else .done })
  | .traverseValue it =>
    (s, { t with pc := .traverseNext it,
                 seen := t.seen ++ (l.value it).toList.map fun v => (v, decide (v ∈ s.cleaned)) })
  | .done | .failed _ => (s, t)

/-- Whether a thread has returned. -/
def ListThread.returned (t : ListThread α) : Bool :=
  match t.pc with
  | .done | .failed _ => true
  | _ => false

/-- The list's callers as a program of atomic steps; no step reads an input. -/
def listThreads : Program Unit (SharedList α) (ListThread α) where
  step _ := listStep minTimestamp
  returned := ListThread.returned

/-- Scheduling call `i` runs one step of it. -/
theorem stepCall_listThreads {s : Config (SharedList α) (ListThread α)} {i : Nat}
    {t : ListThread α} (hc : s.calls[i]? = some t) (x : Unit) :
    s.stepCall (listThreads minTimestamp) i x =
      ⟨(listStep minTimestamp s.shared t).1, s.calls.set i (listStep minTimestamp s.shared t).2⟩ := by
  simp [Config.stepCall, hc, listThreads]

/-- The list `l`, nothing cleaned, and one thread per task, none of them started. -/
def ListSystem.init (l : PartitionList α) (tasks : List (ListTask α)) :
    Config (SharedList α) (ListThread α) :=
  ⟨⟨l, []⟩, tasks.map ListTask.start⟩

/-- Two inserts into an empty list: both read the nil head before either sets its node as
the head. -/
def insertRaceRun : Config (SharedList Int) (ListThread Int) :=
  (ListSystem.init newPartitionList [.insert 1, .insert 2]).run (listThreads id)
    [(0, ()), (1, ()), (0, ()), (1, ()), (0, ()), (1, ())]

/-- Both inserts return, the count says two partitions, and the chain from the head is the
node of partition `2` alone: partition `1` is lost. -/
theorem insert_race_loses_partition :
    Config.Reachable (listThreads id) (ListSystem.init newPartitionList [.insert 1, .insert 2])
        insertRaceRun ∧
      (∀ t ∈ insertRaceRun.calls, t.pc = .done) ∧
      Seg insertRaceRun.shared.list.nodes insertRaceRun.shared.list.head [(1, 2)] none ∧
      insertRaceRun.shared.list.size = 2 :=
  ⟨Config.Reachable.run .init (by decide), by decide,
    @Seg.cons Int _ 1 ⟨2, none⟩ [] none rfl (.nil none), rfl⟩

/-- A traversal makes its iterator on the one-partition list; `remove` then unlinks the
partition and cleans it, and the traversal still reaches it. -/
def cleanRaceRun : Config (SharedList Int) (ListThread Int) :=
  (ListSystem.init ((newPartitionList : PartitionList Int).insert 1) [.remove 1 true, .traverse]).run
    (listThreads id) ((1, ()) :: List.replicate 7 (0, ()) ++ [(1, ()), (1, ())])

/-- Under that schedule `remove` returns having cleaned partition `1`, and the traversal's
`value()` then returns partition `1`, already cleaned. -/
theorem traverse_sees_cleaned_partition :
    Config.Reachable (listThreads id)
        (ListSystem.init ((newPartitionList : PartitionList Int).insert 1) [.remove 1 true, .traverse])
        cleanRaceRun ∧
      cleanRaceRun.calls.map ListThread.pc = [.done, .traverseNext ⟨some (.node 0)⟩] ∧
      cleanRaceRun.shared.cleaned = [1] ∧
      ∃ t ∈ cleanRaceRun.calls, ((1 : Int), true) ∈ t.seen :=
  ⟨Config.Reachable.run .init (by decide), by decide, by decide, by decide⟩

end EmbedTSDB
