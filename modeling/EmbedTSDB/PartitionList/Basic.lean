import Mathlib.Data.List.Basic

/-! The partition list of `partitionListImpl`: a singly linked list of nodes, newest
partition first. Nodes live in a heap and are named by their address; nodes are never
freed, so an address stays valid once handed out. Partitions are compared by their minimum
timestamp, as `samePartitions` does. -/
namespace EmbedTSDB

/-- `partitionNode`: a partition and the address of the next node. -/
structure PartitionNode (α : Type) where
  val : α
  next : Option Nat
  deriving DecidableEq, Repr

/-- `partitionListImpl` over the heap `nodes`; `head`, `tail` and `headCache` are node
addresses. -/
structure PartitionList (α : Type) where
  numPartitions : Int
  head : Option Nat
  tail : Option Nat
  headCache : Option Nat
  nodes : List (PartitionNode α)
  deriving DecidableEq, Repr

/-- A call on the partition list; a `remove` carries the outcome of its target's `clean()`. -/
inductive ListCall (α : Type)
  | insert (partition : α)
  | remove (target : α) (cleanOk : Bool)
  | swap (old new : α)
  | getHead
  deriving DecidableEq, Repr

variable {α : Type}

/-- `newPartitionList`: everything nil. -/
def newPartitionList : PartitionList α := ⟨0, none, none, none, []⟩

namespace PartitionList

/-- A fresh node at the next address. -/
def alloc (l : PartitionList α) (n : PartitionNode α) : PartitionList α × Nat :=
  ({ l with nodes := l.nodes ++ [n] }, l.nodes.length)

/-- `setHead`: the head and the head cache, under the list's lock. -/
def setHead (l : PartitionList α) (node : Option Nat) : PartitionList α :=
  { l with head := node, headCache := node }

/-- `setTail`. -/
def setTail (l : PartitionList α) (node : Option Nat) : PartitionList α :=
  { l with tail := node }

/-- `partitionNode.setNext` on the node at `addr`. -/
def setNext (l : PartitionList α) (addr : Nat) (node : Option Nat) : PartitionList α :=
  { l with nodes := l.nodes.modify (fun n => { n with next := node }) addr }

/-- `partitionNode.getNext` on the node at `addr`. -/
def getNext (l : PartitionList α) (addr : Nat) : Option Nat :=
  (l.nodes[addr]?).bind (·.next)

/-- `partitionNode.value` on the node at `addr`. -/
def valueAt (l : PartitionList α) (addr : Nat) : Option α :=
  (l.nodes[addr]?).map (·.val)

@[simp] theorem valueAt_setNext (l : PartitionList α) (addr a : Nat) (node : Option Nat) :
    (l.setNext addr node).valueAt a = l.valueAt a := by
  simp only [valueAt, setNext, List.getElem?_modify]
  cases l.nodes[a]? <;> simp
  split <;> rfl

theorem getNext_alloc (l : PartitionList α) (n : PartitionNode α) {a : Nat}
    (h : a < l.nodes.length) : (l.alloc n).1.getNext a = l.getNext a := by
  simp [getNext, alloc, List.getElem?_append_left h]

/-- `size`. -/
def size (l : PartitionList α) : Int := l.numPartitions

/-- `insert(partition)`: a new head in front of the old one. -/
def insert (l : PartitionList α) (partition : α) : PartitionList α :=
  let r := l.alloc ⟨partition, l.head⟩
  { r.1.setHead (some r.2) with numPartitions := r.1.numPartitions + 1 }

/-- `getHead`: through the head cache when it is set, else through `head`, filling the
cache. -/
def getHead (l : PartitionList α) : Option α × PartitionList α :=
  if l.size ≤ 0 then (none, l)
  else
    match l.headCache with
    | some addr => (l.valueAt addr, l)
    | none =>
      match l.head with
      | some addr => (l.valueAt addr, { l with headCache := some addr })
      | none => (none, l)

section Scan

variable (minTimestamp : α → Int)

/-- The iterator loop of `remove` and `swap` from node `cur`, `prev` being the node before
it: the first node whose partition has minimum timestamp `t`, with its predecessor. It
follows at most `fuel` nodes; on an acyclic chain of the heap's nodes that bound is never
reached. -/
def find (l : PartitionList α) (t : Int) : Nat → Option Nat → Option Nat → Option (Option Nat × Nat)
  | 0, _, _ => none
  | _ + 1, _, none => none
  | fuel + 1, prev, some cur =>
    match l.nodes[cur]? with
    | some n => if minTimestamp n.val = t then some (prev, cur) else find l t fuel (some cur) n.next
    | none => none

/-- `remove(target)`, with `cleanOk` the outcome of `target`'s `clean()`. -/
def remove (cleanOk : Bool) (l : PartitionList α) (target : α) :
    PartitionList α × Except String Unit :=
  if l.size ≤ 0 then (l, .error "empty partition")
  else
    match l.find minTimestamp (minTimestamp target) l.nodes.length none l.head with
    | none => (l, .error "the given partition was not found")
    | some (prev, cur) =>
      let next := l.getNext cur
      let l' := match prev, next with
        | none, _ => l.setHead next
        | some prev, none => { (l.setNext prev none).setTail (some prev) with headCache := none }
        | some prev, some _ => l.setNext prev next
      ({ l' with numPartitions := l'.numPartitions - 1 },
        if cleanOk then .ok ()
        else .error "failed to clean resources managed by partition to be removed")

/-- `swap(old, new)`. -/
def swap (l : PartitionList α) (old new : α) : PartitionList α × Except String Unit :=
  if l.size ≤ 0 then (l, .error "empty partition")
  else
    match l.find minTimestamp (minTimestamp old) l.nodes.length none l.head with
    | none => (l, .error "the given partition was not found")
    | some (prev, cur) =>
      let r := l.alloc ⟨new, l.getNext cur⟩
      (match prev, l.getNext cur with
        | none, _ => r.1.setHead (some r.2)
        | some prev, none => (r.1.setNext prev (some r.2)).setTail (some r.2)
        | some prev, some _ => r.1.setNext prev (some r.2), .ok ())

/-- The list `remove` leaves does not depend on the outcome of `clean()`: the unlink and the
decrement come before it. -/
theorem remove_fst_cleanOk (cleanOk : Bool) (l : PartitionList α) (target : α) :
    (l.remove minTimestamp cleanOk target).1 = (l.remove minTimestamp true target).1 := by
  unfold remove
  split
  · rfl
  · split <;> rfl

/-- The errors `remove` returns before it unlinks, an empty list and no match, leave the list
as it was. -/
theorem remove_fst_of_error {l : PartitionList α} {target : α}
    (h : (l.remove minTimestamp true target).2 ≠ .ok ()) :
    (l.remove minTimestamp true target).1 = l := by
  unfold remove at h ⊢
  split
  · rfl
  · rename_i hsize
    rw [if_neg hsize] at h
    split
    · rfl
    · rename_i heq
      rw [heq] at h
      exact absurd rfl h

/-- Every error of `swap` leaves the list as it was. -/
theorem swap_fst_of_error {l : PartitionList α} {old new : α}
    (h : (l.swap minTimestamp old new).2 ≠ .ok ()) : (l.swap minTimestamp old new).1 = l := by
  unfold swap at h ⊢
  split
  · rfl
  · rename_i hsize
    rw [if_neg hsize] at h
    split
    · rfl
    · rename_i heq
      rw [heq] at h
      exact absurd rfl h

/-- One call run on its own, with what it returns: the error of `remove` and `swap`, the
partition of `getHead`. -/
def exec (l : PartitionList α) : ListCall α → PartitionList α × Except String (Option α)
  | .insert p => (l.insert p, .ok none)
  | .remove target cleanOk =>
    ((l.remove minTimestamp cleanOk target).1, (l.remove minTimestamp cleanOk target).2.map
      fun _ => none)
  | .swap old new =>
    ((l.swap minTimestamp old new).1, (l.swap minTimestamp old new).2.map fun _ => none)
  | .getHead => (l.getHead.2, .ok l.getHead.1)

/-- Calls run one at a time, with what each returns. -/
def execAll (l : PartitionList α) : List (ListCall α) →
    PartitionList α × List (Except String (Option α))
  | [] => (l, [])
  | c :: cs =>
    let r := l.exec minTimestamp c
    ((r.1.execAll cs).1, r.2 :: (r.1.execAll cs).2)

end Scan

end PartitionList

/-- Where a `partitionIteratorImpl` stands: on the dummy node `newIterator` puts before the
head it read, or on a node of the heap. -/
inductive IterPos
  | dummy (next : Option Nat)
  | node (addr : Nat)
  deriving DecidableEq, Repr

/-- `partitionIteratorImpl`; `current` is nil once it has run off the end. -/
structure PartitionIterator where
  current : Option IterPos
  deriving DecidableEq, Repr

/-- The node an iterator reads next: the head it copied, or the node it stands on. -/
def PartitionIterator.frontier (it : PartitionIterator) : Option Nat :=
  match it.current with
  | some (.dummy nx) => nx
  | some (.node a) => some a
  | none => none

@[simp] theorem PartitionIterator.frontier_map_node (o : Option Nat) :
    PartitionIterator.frontier ⟨o.map .node⟩ = o := by
  cases o <;> rfl

namespace PartitionList

/-- `newIterator`. -/
def newIterator (l : PartitionList α) : PartitionIterator := ⟨some (.dummy l.head)⟩

/-- The iterator's `next()`: move to the next node and tell whether there is one. -/
def next (l : PartitionList α) (it : PartitionIterator) : Bool × PartitionIterator :=
  match it.current with
  | none => (false, it)
  | some (.dummy nx) => (nx.isSome, ⟨nx.map .node⟩)
  | some (.node addr) => ((l.getNext addr).isSome, ⟨(l.getNext addr).map .node⟩)

/-- After `next()` the iterator stands on the node it read, and `next()` tells whether
there is one. -/
theorem next_eq_frontier (l : PartitionList α) (it : PartitionIterator) :
    l.next it = ((l.next it).2.frontier.isSome, ⟨(l.next it).2.frontier.map .node⟩) := by
  rcases it with ⟨_ | (nx | a)⟩
  · rfl
  all_goals simp [next]

/-- The iterator's `value()`: nil on the dummy node or past the end. -/
def value (l : PartitionList α) (it : PartitionIterator) : Option α :=
  match it.current with
  | some (.node addr) => l.valueAt addr
  | _ => none

/-- `for it.next() { it.value() }`, for at most `fuel` rounds. -/
def iterate (l : PartitionList α) : Nat → PartitionIterator → List (Option α)
  | 0, _ => []
  | fuel + 1, it =>
    match l.next it with
    | (true, it') => l.value it' :: iterate l fuel it'
    | (false, _) => []

end PartitionList

/-- The partition types `String` tells apart by type assertion. -/
inductive PartitionKind
  | memory
  | disk
  | unknown
  deriving DecidableEq, Repr

/-- What `String` writes for a partition of each kind. -/
def PartitionKind.text : PartitionKind → List Char
  | .memory => "[Memory Partition]".toList
  | .disk => "[Disk Partition]".toList
  | .unknown => "[Unknown Partition]".toList

namespace PartitionList

/-- `String()`, with `kind` the type of a partition; the nil partition is of no known type.
The iterator loop runs for at most one round more than the heap has nodes, which an acyclic
chain of the heap's nodes never reaches. -/
def string (kind : α → PartitionKind) (l : PartitionList α) : List Char :=
  let result := ((l.iterate (l.nodes.length + 1) l.newIterator).map fun part =>
    ((part.map kind).getD .unknown).text ++ "->".toList).flatten
  if result.length > 2 then result.take (result.length - 2) else result

end PartitionList

end EmbedTSDB
