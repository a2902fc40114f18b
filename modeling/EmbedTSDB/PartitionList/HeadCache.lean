import EmbedTSDB.PartitionList.Concurrent

/-! The head cache of `partitionListImpl` under concurrent callers. `getHead` reads the
cache with an atomic load and, when it is nil, reads `head` under the read lock and stores
it into the cache. Every write of `head` goes through `setHead`, which stores the same node
into the cache in the same locked section, and the tail path of `remove` stores nil into
the cache. So the cache is at every step nil or the head node, and the fast path of
`getHead` returns the partition at the head. -/
namespace EmbedTSDB

variable {α : Type}

/-- Where a `getHead` call stands: before its size check, before the atomic load of the
head cache, before its read-locked section, or returned with the partition it found. -/
inductive GetHeadPc (α : Type)
  | sizeCheck
  | loadCache
  | locked
  | done (result : Option α)
  deriving DecidableEq, Repr

/-- One atomic step of `getHead`. A node's partition never changes, so reading it after
the unlock runs inside the step before. -/
def getHeadStep (s : SharedList α) : GetHeadPc α → SharedList α × GetHeadPc α
  | .sizeCheck => (s, if s.list.size ≤ 0 then .done none else .loadCache)
  | .loadCache =>
    match s.list.headCache with
    | some node => (s, .done (s.list.valueAt node))
    | none => (s, .locked)
  | .locked =>
    match s.list.head with
    | some node =>
      ({ s with list := { s.list with headCache := some node } }, .done (s.list.valueAt node))
    | none => (s, .done none)
  | .done result => (s, .done result)

/-- A caller of the list: a thread of `insert`, `remove`, `swap` or a traversal, or a call
of `getHead`. -/
inductive HeadThread (α : Type)
  | list (t : ListThread α)
  | getHead (pc : GetHeadPc α)
  deriving DecidableEq, Repr

/-- Whether a caller has returned. -/
def HeadThread.returned : HeadThread α → Bool
  | .list t => t.returned
  | .getHead (.done _) => true
  | .getHead _ => false

variable [DecidableEq α] (minTimestamp : α → Int)

/-- The list's callers, `getHead` among them, as a program of atomic steps. -/
def headThreads : Program Unit (SharedList α) (HeadThread α) where
  step _ s
    | .list t => ((listStep minTimestamp s t).1, .list (listStep minTimestamp s t).2)
    | .getHead pc => ((getHeadStep s pc).1, .getHead (getHeadStep s pc).2)
  returned := HeadThread.returned

/-- The head cache is nil or the head node. -/
def CacheCoherent (l : PartitionList α) : Prop := l.headCache = none ∨ l.headCache = l.head

/-- What a step of `insert`, `remove`, `swap` or a traversal does to the head and its
cache: nothing, `setHead` of one node into both, or the nil store of `remove`'s tail path
into the cache. -/
theorem listStep_head_cases (s : SharedList α) (t : ListThread α) :
    ((listStep minTimestamp s t).1.list.head = s.list.head ∧
        (listStep minTimestamp s t).1.list.headCache = s.list.headCache) ∨
      (listStep minTimestamp s t).1.list.headCache = (listStep minTimestamp s t).1.list.head ∨
      (listStep minTimestamp s t).1.list.headCache = none := by
  unfold listStep
  dsimp only
  split <;> (try split) <;> (try split) <;>
    first
    | exact .inl ⟨rfl, rfl⟩
    | exact .inr (.inl rfl)
    | exact .inr (.inr rfl)

theorem listStep_coherent {s : SharedList α} (h : CacheCoherent s.list) (t : ListThread α) :
    CacheCoherent (listStep minTimestamp s t).1.list := by
  rcases listStep_head_cases minTimestamp s t with ⟨hh, hc⟩ | hc | hc
  · rw [CacheCoherent, hh, hc]
    exact h
  · exact .inr hc
  · exact .inl hc

omit [DecidableEq α] in
/-- `getHead` writes the cache only with the head it read under the read lock. -/
theorem getHeadStep_coherent {s : SharedList α} (h : CacheCoherent s.list) (pc : GetHeadPc α) :
    CacheCoherent (getHeadStep s pc).1.list := by
  cases pc with
  | locked =>
    dsimp only [getHeadStep]
    split
    · rename_i node hnode
      exact .inr hnode.symm
    · exact h
  | loadCache =>
    dsimp only [getHeadStep]
    split <;> exact h
  | sizeCheck | done => exact h

omit [DecidableEq α] in
/-- On a coherent list the fast path, when it finds a node in the cache, returns the
partition of the head node. -/
theorem getHeadStep_fast {s : SharedList α} (h : CacheCoherent s.list) {node : Nat}
    (hc : s.list.headCache = some node) :
    getHeadStep s .loadCache = (s, .done (s.list.head.bind s.list.valueAt)) := by
  have hhead : s.list.head = some node := by
    rcases h with h | h
    · rw [hc] at h
      cases h
    · rw [← h, hc]
  simp only [getHeadStep, hc, hhead, Option.some_bind]

/-- Every step of every caller keeps the cache coherent. -/
theorem headThreads_step_coherent {s : SharedList α} (h : CacheCoherent s.list) (x : Unit)
    (t : HeadThread α) : CacheCoherent ((headThreads minTimestamp).step x s t).1.list := by
  cases t with
  | list t => exact listStep_coherent minTimestamp h t
  | getHead pc => exact getHeadStep_coherent h pc

/-- Head-cache coherence: from a list whose cache is nil or the head, at every step boundary
of any interleaving of `insert`, `remove`, `swap`, traversals and `getHead`, the cache is nil
or the head, and the fast path of `getHead`, taken when its atomic load finds a node,
returns the partition at the head at that moment. -/
theorem headCache_coherent {init s : Config (SharedList α) (HeadThread α)}
    (h0 : CacheCoherent init.shared.list) (hs : Config.Reachable (headThreads minTimestamp) init s) :
    CacheCoherent s.shared.list ∧
      ∀ node, s.shared.list.headCache = some node →
        getHeadStep s.shared .loadCache =
          (s.shared, .done (s.shared.list.head.bind s.shared.list.valueAt)) := by
  have hcoh : CacheCoherent s.shared.list := hs.shared_inv (I := fun sh => CacheCoherent sh.list)
    h0 fun x _ t h => headThreads_step_coherent minTimestamp h x t
  exact ⟨hcoh, fun _ hc => getHeadStep_fast hcoh hc⟩

/-- An `insert` of partition `1` into an empty list beside a `getHead` call. -/
def getHeadInit : Config (SharedList Int) (HeadThread Int) :=
  ⟨⟨newPartitionList, []⟩, [.list (ListTask.start (.insert 1)), .getHead .sizeCheck]⟩

/-- The insert runs to its end, then `getHead` takes its fast path. -/
def getHeadRun : Config (SharedList Int) (HeadThread Int) :=
  getHeadInit.run (headThreads id) [(0, ()), (0, ()), (0, ()), (1, ()), (1, ())]

theorem headCache_coherent_sample :
    CacheCoherent getHeadInit.shared.list ∧
      Config.Reachable (headThreads id) getHeadInit getHeadRun ∧
      CacheCoherent getHeadRun.shared.list ∧
      ∀ node, getHeadRun.shared.list.headCache = some node →
        getHeadStep getHeadRun.shared .loadCache =
          (getHeadRun.shared, .done (getHeadRun.shared.list.head.bind getHeadRun.shared.list.valueAt)) :=
  ⟨.inl rfl, Config.Reachable.run .init (by decide),
    headCache_coherent id (.inl rfl) (Config.Reachable.run .init (by decide))⟩

end EmbedTSDB
