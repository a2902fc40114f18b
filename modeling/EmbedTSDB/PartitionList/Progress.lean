import Mathlib.Algebra.Order.BigOperators.Group.List
import Mathlib.Algebra.Order.Ring.Nat
import Mathlib.Order.Interval.Finset.Nat
import EmbedTSDB.PartitionList.Concurrent

/-! Progress of the partition list's callers. Whatever the interleaving, even one that loses
partitions, the `next` pointers never form a cycle: the nodes can be ranked so that every
`next` pointer leads to a node of higher rank. `insert` ranks its node below the head it
points to, `swap` ranks its node as the node it replaces, and `remove` and `swap` only point
a node past the node after it. A scan of `remove` or `swap` and a traversal move to a node of
higher rank at each step, so each moves at most once per node that exists or that a writer
may still allocate, and every interleaving of calls ends within a number of steps fixed by
the calls and the size of the heap. -/
namespace EmbedTSDB

variable {α : Type}

namespace PartitionList

/-- The ranks `ρ` order the heap: the head and every `next` pointer name an existing node,
and every `next` pointer leads to a node of higher rank. -/
structure RankedBy (l : PartitionList α) (ρ : Nat → Int) : Prop where
  head_lt : ∀ h, l.head = some h → h < l.nodes.length
  next_lt : ∀ a n b, l.nodes[a]? = some n → n.next = some b → b < l.nodes.length ∧ ρ a < ρ b

variable {l : PartitionList α} {ρ : Nat → Int}

theorem RankedBy.getNext (h : l.RankedBy ρ) {a b : Nat} (hb : l.getNext a = some b) :
    b < l.nodes.length ∧ ρ a < ρ b := by
  obtain ⟨n, hn, hnb⟩ := Option.bind_eq_some.1 hb
  exact h.next_lt a n b hn hnb

/-- Only the head and the `next` pointers matter. -/
theorem RankedBy.of_eq {l' : PartitionList α} (h : l.RankedBy ρ) (hn : l'.nodes = l.nodes)
    (hh : l'.head = l.head) : l'.RankedBy ρ :=
  ⟨hn ▸ hh ▸ h.head_lt, hn ▸ h.next_lt⟩

theorem RankedBy.setHead (h : l.RankedBy ρ) {node : Option Nat}
    (hn : ∀ b, node = some b → b < l.nodes.length) : (l.setHead node).RankedBy ρ :=
  ⟨hn, h.next_lt⟩

theorem RankedBy.setNext (h : l.RankedBy ρ) {p : Nat} {y : Option Nat}
    (hy : ∀ b, y = some b → b < l.nodes.length ∧ ρ p < ρ b) : (l.setNext p y).RankedBy ρ := by
  refine ⟨by simpa [PartitionList.setNext] using h.head_lt, fun a n b hn hb => ?_⟩
  simp only [PartitionList.setNext, List.getElem?_modify, List.length_modify] at hn ⊢
  rcases ha : l.nodes[a]? with _ | m
  · simp [ha] at hn
  · simp only [ha, Option.map_eq_map, Option.map_some', Option.some.injEq] at hn
    split_ifs at hn with hpa
    · subst hn hpa
      exact hy b hb
    · subst hn
      exact h.next_lt a m b ha hb

/-- A node allocated with rank `r` below the rank of the node it points to. -/
theorem RankedBy.alloc (h : l.RankedBy ρ) (n : PartitionNode α) (r : Int)
    (hn : ∀ b, n.next = some b → b < l.nodes.length ∧ r < ρ b) :
    (l.alloc n).1.RankedBy (Function.update ρ l.nodes.length r) := by
  have hne : ∀ {b}, b < l.nodes.length → b ≠ l.nodes.length := Nat.ne_of_lt
  refine ⟨fun b hb => by simpa [PartitionList.alloc] using Nat.lt_succ_of_lt (h.head_lt b hb),
    fun a m b hm hb => ?_⟩
  simp only [PartitionList.alloc, List.length_append, List.length_singleton] at hm ⊢
  rcases Nat.lt_or_ge a l.nodes.length with ha | ha
  · rw [List.getElem?_append_left ha] at hm
    obtain ⟨hbl, hab⟩ := h.next_lt a m b hm hb
    simpa [Function.update_noteq (hne ha), Function.update_noteq (hne hbl), hbl,
      Nat.lt_succ_of_lt] using hab
  · rw [List.getElem?_append_right ha] at hm
    obtain ⟨hlt, hnm⟩ := List.getElem?_eq_some_iff.1 hm
    obtain rfl : a = l.nodes.length := by simp at hlt; omega
    obtain rfl : m = n := by simpa using hnm.symm
    obtain ⟨hbl, hrb⟩ := hn b hb
    simpa [Function.update_noteq (hne hbl), hbl, Nat.lt_succ_of_lt] using hrb

theorem length_alloc (l : PartitionList α) (n : PartitionNode α) :
    (l.alloc n).1.nodes.length = l.nodes.length + 1 := by
  simp [PartitionList.alloc]

theorem length_setNext (l : PartitionList α) (addr : Nat) (node : Option Nat) :
    (l.setNext addr node).nodes.length = l.nodes.length :=
  List.length_modify ..

/-- `next()` from a node moves past its end or to a node of higher rank. -/
theorem RankedBy.next_node (h : l.RankedBy ρ) {it : PartitionIterator} {a b : Nat}
    (ha : it.current = some (.node a)) (hb : (l.next it).2.current = some (.node b)) :
    b < l.nodes.length ∧ ρ a < ρ b := by
  rcases it with ⟨_ | (nx | a')⟩ <;> simp only [Option.some.injEq, reduceCtorEq, IterPos.node.injEq] at ha
  subst ha
  simp only [PartitionList.next, Option.map_eq_some', IterPos.node.injEq, exists_eq_right] at hb
  exact h.getNext hb

/-- When `next()` says there is a node, the iterator stands on one. -/
theorem next_node_of_fst {it : PartitionIterator} (h : (l.next it).1 = true) :
    ∃ b, (l.next it).2.current = some (.node b) := by
  rcases it with ⟨_ | (nx | a)⟩ <;> simp only [PartitionList.next] at h ⊢
  · cases h
  all_goals
    obtain ⟨b, hb⟩ := Option.isSome_iff_exists.1 h
    exact ⟨b, by rw [hb]; rfl⟩

theorem newPartitionList_rankedBy (ρ : Nat → Int) :
    (newPartitionList : PartitionList α).RankedBy ρ where
  head_lt _ h := nomatch h
  next_lt _ _ _ h := by simp [newPartitionList] at h

end PartitionList

/-- The addresses below `len` of rank above that of `a`. -/
def above (len : Nat) (ρ : Nat → Int) (a : Nat) : Nat :=
  ((Finset.range len).filter fun c => ρ a < ρ c).card

theorem above_lt_above {len : Nat} {ρ : Nat → Int} {a b : Nat} (hb : b < len) (hab : ρ a < ρ b) :
    above len ρ b < above len ρ a := by
  refine Finset.card_lt_card ⟨fun c hc => ?_, fun hsub => ?_⟩
  · simp only [Finset.mem_filter] at hc ⊢
    exact ⟨hc.1, hab.trans hc.2⟩
  · have := (Finset.mem_filter.1 (hsub (Finset.mem_filter.2 ⟨Finset.mem_range.2 hb, hab⟩))).2
    exact lt_irrefl _ this

theorem above_lt {len : Nat} {ρ : Nat → Int} {a : Nat} (ha : a < len) : above len ρ a < len := by
  have h := Finset.card_lt_card (Finset.filter_ssubset.2
    ⟨a, Finset.mem_range.2 ha, lt_irrefl (ρ a)⟩ : (Finset.range len).filter (ρ a < ρ ·) ⊂ _)
  simpa using h

/-- Allocating nodes adds at most one address above `a` per new node. -/
theorem above_grow {len len' : Nat} {ρ ρ' : Nat → Int} (hlen : len ≤ len')
    (hρ : ∀ c < len, ρ' c = ρ c) {a : Nat} (ha : a < len) :
    above len' ρ' a ≤ above len ρ a + (len' - len) := by
  have hsplit : Finset.range len' = Finset.range len ∪ Finset.Ico len len' := by
    rw [Finset.range_eq_Ico, Finset.Ico_union_Ico_eq_Ico (Nat.zero_le _) hlen]
  have hold : (Finset.range len).filter (fun c => ρ' a < ρ' c) =
      (Finset.range len).filter (fun c => ρ a < ρ c) :=
    Finset.filter_congr fun c hc => by rw [hρ c (Finset.mem_range.1 hc), hρ a ha]
  unfold above
  rw [hsplit, Finset.filter_union, hold]
  refine (Finset.card_union_le _ _).trans (Nat.add_le_add_left ?_ _)
  exact (Finset.card_filter_le _ _).trans (Nat.card_Ico _ _).le

namespace PartitionIterator

/-- The iterator stands on a dummy node whose copy of the head is an address below `len`, on
a node below `len`, or past the end. -/
def Placed (len : Nat) (it : PartitionIterator) : Prop :=
  match it.current with
  | some (.dummy nx) => ∀ h, nx = some h → h < len
  | some (.node a) => a < len
  | none => True

/-- A bound on the moves the iterator can still make when `fut` nodes may still be allocated:
from the dummy node one per address, from node `a` one per address of higher rank. -/
def moves (len : Nat) (ρ : Nat → Int) (fut : Nat) (it : PartitionIterator) : Nat :=
  match it.current with
  | some (.dummy _) => len + fut
  | some (.node a) => above len ρ a + fut
  | none => 0

variable {len : Nat} {ρ : Nat → Int}

theorem Placed.grow {len' : Nat} (hlen : len ≤ len') {it : PartitionIterator}
    (h : it.Placed len) : it.Placed len' := by
  rcases it with ⟨_ | (nx | a)⟩
  · trivial
  · exact fun b hb => (h b hb).trans_le hlen
  · exact Nat.lt_of_lt_of_le h hlen

/-- `next()` moves the iterator to a node of higher rank, so the bound drops. -/
theorem moves_next {l : PartitionList α} (hl : l.RankedBy ρ) {it : PartitionIterator}
    (hit : it.Placed l.nodes.length) (fut : Nat) {b : Nat}
    (hb : (l.next it).2.current = some (.node b)) :
    b < l.nodes.length ∧ (l.next it).2.moves l.nodes.length ρ fut < it.moves l.nodes.length ρ fut := by
  rcases it with ⟨_ | (nx | a)⟩
  · simp [PartitionList.next] at hb
  · simp only [PartitionList.next, Option.map_eq_some', IterPos.node.injEq, exists_eq_right] at hb
    have hbl := hit b hb
    refine ⟨hbl, ?_⟩
    simp only [moves, PartitionList.next, hb, Option.map_some']
    have := above_lt (ρ := ρ) hbl
    omega
  · simp only [PartitionList.next, Option.map_eq_some', IterPos.node.injEq, exists_eq_right] at hb
    obtain ⟨hbl, hab⟩ := hl.getNext hb
    refine ⟨hbl, ?_⟩
    simp only [moves, PartitionList.next, hb, Option.map_some']
    have := above_lt_above hbl hab
    omega

/-- Allocations by other threads raise the bound by no more than they use up of `fut`. -/
theorem moves_grow {len' fut fut' : Nat} {ρ' : Nat → Int} (hlen : len ≤ len')
    (hρ : ∀ c < len, ρ' c = ρ c) (hfut : len' + fut' ≤ len + fut) {it : PartitionIterator}
    (h : it.Placed len) : it.moves len' ρ' fut' ≤ it.moves len ρ fut := by
  rcases it with ⟨_ | (nx | a)⟩
  · exact Nat.le_refl 0
  · simpa [moves] using hfut
  · have := above_grow hlen hρ (a := a) h
    simp only [moves]
    omega

/-- Past the end, or on a node of rank above `r`. -/
def Beyond (ρ : Nat → Int) (r : Int) (it : PartitionIterator) : Prop :=
  match it.current with
  | some (.node b) => r < ρ b
  | some (.dummy _) => False
  | none => True

theorem Beyond.next {l : PartitionList α} (hl : l.RankedBy ρ) {r : Int} {it : PartitionIterator}
    (h : it.Beyond ρ r) : (l.next it).2.Beyond ρ r := by
  rcases it with ⟨_ | (nx | a)⟩
  · trivial
  · exact h.elim
  · simp only [Beyond, PartitionList.next] at h ⊢
    rcases hb : l.getNext a with _ | b
    · trivial
    · exact h.trans (hl.getNext hb).2

/-- An iterator that leaves a node never comes back to it: the `next` pointers form no
cycle. -/
theorem iterate_next_ne {l : PartitionList α} (hl : l.RankedBy ρ) (a k : Nat) :
    (fun it => (l.next it).2)^[k + 1] ⟨some (.node a)⟩ ≠ ⟨some (.node a)⟩ := by
  have hb : ((fun it => (l.next it).2)^[k + 1] ⟨some (.node a)⟩).Beyond ρ (ρ a) := by
    induction k with
    | zero =>
      show (l.next ⟨some (.node a)⟩).2.Beyond ρ (ρ a)
      simp only [Beyond, PartitionList.next]
      rcases hb : l.getNext a with _ | b
      · trivial
      · exact (hl.getNext hb).2
    | succ k ih =>
      rw [Function.iterate_succ_apply']
      exact ih.next hl
  intro he
  rw [he] at hb
  exact lt_irrefl _ hb

end PartitionIterator

/-- What a thread's variables must satisfy against a heap of `len` nodes ranked by `ρ`: the
addresses it holds exist, a scan's `prev` is the node it stands on, `prev` is ranked below
`cur`, `next` above it, and the node `swap` allocated is ranked as the node it replaces. -/
def ListPc.Placed (len : Nat) (ρ : Nat → Int) : ListPc α → Prop
  | .insertSetHead node => node < len
  | .scan _ prev it => it.Placed len ∧ ∀ p, prev = some p → it.current = some (.node p)
  | .removeNext _ prev cur | .swapAlloc _ prev cur =>
    cur < len ∧ ∀ p, prev = some p → p < len ∧ ρ p < ρ cur
  | .removeLink _ prev cur next =>
    cur < len ∧ (∀ p, prev = some p → p < len ∧ ρ p < ρ cur) ∧
      ∀ n, next = some n → n < len ∧ ρ cur < ρ n
  | .swapNext prev cur node =>
    cur < len ∧ node < len ∧ ρ node = ρ cur ∧ ∀ p, prev = some p → p < len ∧ ρ p < ρ cur
  | .swapLink prev node _ => node < len ∧ ∀ p, prev = some p → p < len ∧ ρ p < ρ node
  | .traverseNext it | .traverseValue it => it.Placed len
  | _ => True

/-- The nodes a thread may still allocate: one for an `insert` before its first step and
for a `swap` before its `swapAlloc` step. -/
def ListPc.allocs : ListPc α → Nat
  | .insert _ | .swapAlloc .. => 1
  | .sizeCheck (.swap ..) | .newIterator (.swap ..) | .scan (.swap ..) .. => 1
  | _ => 0

/-- A bound on the steps a thread can still take on a heap of `len` nodes when `fut` nodes may
still be allocated. -/
def ListPc.bound (len : Nat) (ρ : Nat → Int) (fut : Nat) : ListPc α → Nat
  | .insert _ => 3
  | .insertSetHead _ => 2
  | .insertAdd => 1
  | .sizeCheck _ => len + fut + 9
  | .newIterator _ => len + fut + 8
  | .scan _ _ it => it.moves len ρ fut + 7
  | .removeNext .. => 6
  | .removeLink .. => 5
  | .removeSetTail .. => 4
  | .removeClearCache .. => 3
  | .removeAdd .. => 2
  | .removeClean .. => 1
  | .swapAlloc .. => 4
  | .swapNext .. => 3
  | .swapLink .. => 2
  | .swapSetTail _ => 1
  | .traverse => 2 * (len + fut) + 2
  | .traverseNext it => 2 * it.moves len ρ fut + 1
  | .traverseValue it => 2 * it.moves len ρ fut + 2
  | .done | .failed _ => 0

section Frame

variable {len len' fut fut' : Nat} {ρ ρ' : Nat → Int}

/-- Another thread's step keeps a thread placed: it only allocates and reranks nothing old. -/
theorem ListPc.Placed.grow (hlen : len ≤ len') (hρ : ∀ c < len, ρ' c = ρ c) {pc : ListPc α}
    (h : pc.Placed len ρ) : pc.Placed len' ρ' := by
  have hp : ∀ {p cur}, p < len ∧ ρ p < ρ cur → cur < len → p < len' ∧ ρ' p < ρ' cur :=
    fun hp hc => ⟨hp.1.trans_le hlen, by rw [hρ _ hp.1, hρ _ hc]; exact hp.2⟩
  cases pc with
  | insertSetHead => exact Nat.lt_of_lt_of_le h hlen
  | scan _ _ it => exact ⟨h.1.grow hlen, h.2⟩
  | removeNext _ _ cur | swapAlloc _ _ cur =>
    exact ⟨h.1.trans_le hlen, fun p hp' => hp (h.2 p hp') h.1⟩
  | removeLink _ _ cur _ =>
    refine ⟨h.1.trans_le hlen, fun p hp' => hp (h.2.1 p hp') h.1, fun n hn => ?_⟩
    obtain ⟨hnl, hcn⟩ := h.2.2 n hn
    exact ⟨hnl.trans_le hlen, by rw [hρ _ h.1, hρ _ hnl]; exact hcn⟩
  | swapNext _ cur node =>
    refine ⟨h.1.trans_le hlen, h.2.1.trans_le hlen, ?_, fun p hp' => hp (h.2.2.2 p hp') h.1⟩
    rw [hρ _ h.1, hρ _ h.2.1]
    exact h.2.2.1
  | swapLink _ node _ => exact ⟨h.1.trans_le hlen, fun p hp' => hp (h.2 p hp') h.1⟩
  | traverseNext it | traverseValue it => exact PartitionIterator.Placed.grow hlen h
  | _ => trivial

/-- Another thread's step does not raise a thread's bound: it allocates no more nodes than it
takes off `fut`. -/
theorem ListPc.bound_grow (hlen : len ≤ len') (hρ : ∀ c < len, ρ' c = ρ c)
    (hfut : len' + fut' ≤ len + fut) {pc : ListPc α} (h : pc.Placed len ρ) :
    pc.bound len' ρ' fut' ≤ pc.bound len ρ fut := by
  cases pc with
  | scan _ _ it =>
    simpa [ListPc.bound] using PartitionIterator.moves_grow hlen hρ hfut h.1
  | traverseNext it | traverseValue it =>
    have := PartitionIterator.moves_grow hlen hρ hfut h
    simp only [ListPc.bound]
    omega
  | _ => simp only [ListPc.bound]; omega

end Frame

/-- What one step of a thread does: old nodes keep their ranks and the heap only grows, by no
more nodes than the thread gives up allocating; the heap stays ranked, the thread stays
placed, and its bound drops whatever the other threads may still allocate. -/
structure RankStep (l l' : PartitionList α) (ρ ρ' : Nat → Int) (pc pc' : ListPc α) : Prop where
  ranked : l'.RankedBy ρ'
  placed : pc'.Placed l'.nodes.length ρ'
  grow : l.nodes.length ≤ l'.nodes.length
  keep : ∀ c < l.nodes.length, ρ' c = ρ c
  allocs : l'.nodes.length + pc'.allocs ≤ l.nodes.length + pc.allocs
  bound : ∀ r, pc'.bound l'.nodes.length ρ' (r + pc'.allocs) < pc.bound l.nodes.length ρ (r + pc.allocs)

section RankStep

variable {l l' : PartitionList α} {ρ : Nat → Int} {pc pc' : ListPc α}

/-- A step that allocates nothing. -/
theorem RankStep.same (hn : l'.nodes.length = l.nodes.length) (hr : l'.RankedBy ρ)
    (hp : pc'.Placed l.nodes.length ρ) (ha : pc'.allocs ≤ pc.allocs)
    (hb : ∀ r, pc'.bound l.nodes.length ρ (r + pc'.allocs) < pc.bound l.nodes.length ρ (r + pc.allocs)) :
    RankStep l l' ρ ρ pc pc' :=
  ⟨hr, hn ▸ hp, hn.ge, fun _ _ => rfl, by omega, fun r => hn ▸ hb r⟩

/-- A step that allocates one node, of rank `r`. -/
theorem RankStep.alloc (hl : l.RankedBy ρ) (n : PartitionNode α) (r : Int)
    (hn : ∀ b, n.next = some b → b < l.nodes.length ∧ r < ρ b)
    (hp : pc'.Placed (l.nodes.length + 1) (Function.update ρ l.nodes.length r))
    (ha : pc'.allocs + 1 ≤ pc.allocs)
    (hb : ∀ f, pc'.bound (l.nodes.length + 1) (Function.update ρ l.nodes.length r) (f + pc'.allocs) <
      pc.bound l.nodes.length ρ (f + pc.allocs)) :
    RankStep l (l.alloc n).1 ρ (Function.update ρ l.nodes.length r) pc pc' := by
  refine ⟨hl.alloc n r hn, ?_, ?_, fun c hc => Function.update_noteq (Nat.ne_of_lt hc) _ _, ?_, ?_⟩ <;>
    simp only [PartitionList.length_alloc]
  exacts [hp, Nat.le_succ _, by omega, hb]

end RankStep

/-- The nodes the calls in flight may still allocate. -/
def futureAllocs (calls : List (ListThread α)) : Nat :=
  (calls.map fun t => t.pc.allocs).sum

/-- A bound on the steps the calls in flight can still take, on a heap ranked by `ρ`. -/
def potential (ρ : Nat → Int) (s : Config (SharedList α) (ListThread α)) : Nat :=
  (s.calls.map fun t => t.pc.bound s.shared.list.nodes.length ρ (futureAllocs s.calls)).sum

/-- The ranks order the heap and every call in flight is placed in it. -/
structure RankInv (ρ : Nat → Int) (s : Config (SharedList α) (ListThread α)) : Prop where
  ranked : s.shared.list.RankedBy ρ
  placed : ∀ t ∈ s.calls, t.pc.Placed s.shared.list.nodes.length ρ

theorem futureAllocs_split (A B : List (ListThread α)) (t : ListThread α) :
    futureAllocs (A ++ t :: B) = futureAllocs A + futureAllocs B + t.pc.allocs := by
  simp only [futureAllocs, List.map_append, List.map_cons, List.sum_append, List.sum_cons]
  omega

theorem RankInv.init {l : PartitionList α} {ρ : Nat → Int} (hl : l.RankedBy ρ)
    (tasks : List (ListTask α)) : RankInv ρ (ListSystem.init l tasks) :=
  ⟨hl, fun t ht => by
    obtain ⟨task, -, rfl⟩ := List.mem_map.1 ht
    cases task <;> trivial⟩

/-- At the start each call can take at most `2 (len + n) + 9` steps, for `n` calls on a heap
of `len` nodes. -/
theorem potential_init_le (l : PartitionList α) (ρ : Nat → Int) (tasks : List (ListTask α)) :
    potential ρ (ListSystem.init l tasks) ≤ tasks.length * (2 * (l.nodes.length + tasks.length) + 9) := by
  have hfut : futureAllocs (tasks.map ListTask.start) ≤ tasks.length := by
    have := List.sum_le_card_nsmul ((tasks.map ListTask.start).map fun t => t.pc.allocs) 1 <| by
      simp only [List.mem_map]
      rintro _ ⟨_, ⟨task, -, rfl⟩, rfl⟩
      cases task <;> simp [ListTask.start, ListPc.allocs]
    simpa [futureAllocs] using this
  have := List.sum_le_card_nsmul ((tasks.map ListTask.start).map fun t =>
      t.pc.bound l.nodes.length ρ (futureAllocs (tasks.map ListTask.start)))
    (2 * (l.nodes.length + tasks.length) + 9) <| by
    simp only [List.mem_map]
    rintro _ ⟨_, ⟨task, -, rfl⟩, rfl⟩
    cases task <;> simp only [ListTask.start, ListPc.bound] <;> omega
  simpa [potential, ListSystem.init] using this

/-- The ranks after a step at `pc`: the node `insert` allocates is ranked just below the head
it points to, the node `swap` allocates as the node it replaces. -/
def ListPc.rankStep (pc : ListPc α) (l : PartitionList α) (ρ : Nat → Int) : Nat → Int :=
  match pc with
  | .insert _ => Function.update ρ l.nodes.length (l.head.elim 0 fun h => ρ h - 1)
  | .swapAlloc _ _ cur => Function.update ρ l.nodes.length (ρ cur)
  | _ => ρ

variable [DecidableEq α] (minTimestamp : α → Int)

/-- One step of any thread that has not returned keeps the heap ranked and the thread placed,
and lowers the thread's bound. -/
theorem listStep_rankStep {sh : SharedList α} {t : ListThread α} {ρ : Nat → Int}
    (hl : sh.list.RankedBy ρ) (ht : t.pc.Placed sh.list.nodes.length ρ)
    (hrun : t.returned = false) :
    RankStep sh.list (listStep minTimestamp sh t).1.list ρ (t.pc.rankStep sh.list ρ) t.pc
      (listStep minTimestamp sh t).2.pc := by
  rcases sh with ⟨l, cl⟩
  rcases t with ⟨pc, snap, seen⟩
  dsimp only at hl ht
  cases pc <;> dsimp only [listStep, ListPc.rankStep]
  case insert p =>
    refine RankStep.alloc hl ⟨p, l.head⟩ (l.head.elim 0 fun h => ρ h - 1)
      (fun b (hb : l.head = some b) => ⟨hl.head_lt b hb, by simp [hb]⟩) (Nat.lt_succ_self _)
      le_rfl fun _ => by simp [ListPc.bound, ListPc.allocs]
  case insertSetHead node =>
    exact .same rfl (hl.setHead fun b hb => Option.some.inj hb ▸ ht) trivial le_rfl
      fun _ => by simp [ListPc.bound, ListPc.allocs]
  case insertAdd =>
    exact .same rfl (hl.of_eq rfl rfl) trivial le_rfl fun _ => by simp [ListPc.bound, ListPc.allocs]
  case sizeCheck op =>
    refine .same rfl hl ?_ ?_ fun r => ?_ <;> split_ifs <;>
      cases op <;> simp [ListPc.Placed, ListPc.allocs, ListPc.bound]
  case newIterator op =>
    refine .same rfl hl ⟨hl.head_lt, fun _ h => by cases h⟩ ?_ fun r => ?_ <;>
      cases op <;> simp [ListPc.allocs, ListPc.bound, PartitionIterator.moves, PartitionList.newIterator]
  case scan op prev it =>
    obtain ⟨hit, hprev⟩ := ht
    split
    · rename_i cur hcur
      have hmv := fun f => PartitionIterator.moves_next hl hit f hcur
      split_ifs
      · refine .same rfl hl ?_ ?_ fun r => ?_ <;> cases op <;>
          simp only [ScanFor.found, ListPc.allocs, ListPc.bound, le_refl]
        any_goals omega
        all_goals exact ⟨(hmv 0).1, fun p hp => hl.next_node (hprev p hp) hcur |>.imp_left
          fun _ => by have := hprev p hp; simp only [PartitionIterator.Placed, this] at hit; exact hit⟩
      · refine .same rfl hl ⟨?_, fun p hp => by rw [← Option.some.inj hp, hcur]⟩ ?_ fun r => ?_
        · simp only [PartitionIterator.Placed, hcur]
          exact (hmv 0).1
        · cases op <;> rfl
        · have := (hmv (r + (op.found prev cur).allocs)).2
          cases op <;> simp only [ListPc.bound, ListPc.allocs, ScanFor.found] at this ⊢ <;> omega
    · exact .same rfl hl trivial (Nat.zero_le _) fun _ => by simp [ListPc.bound, ListPc.allocs]
  case removeNext cleanOk prev cur =>
    exact .same rfl hl ⟨ht.1, ht.2, fun _ hn => hl.getNext hn⟩ le_rfl
      fun _ => by simp [ListPc.bound, ListPc.allocs]
  case removeLink cleanOk prev cur next =>
    obtain ⟨-, hprev, hnext⟩ := ht
    rcases prev with _ | p
    · exact .same rfl (hl.setHead fun b hb => (hnext b hb).1) trivial le_rfl
        fun _ => by simp [ListPc.bound, ListPc.allocs]
    · have hpc := (hprev p rfl).2
      rcases next with _ | n
      · exact .same (l.length_setNext _ _) (hl.setNext fun _ h => by cases h) trivial le_rfl
          fun _ => by simp [ListPc.bound, ListPc.allocs]
      · exact .same (l.length_setNext _ _) (hl.setNext fun b hb =>
          (hnext b hb).imp_right hpc.trans) trivial le_rfl fun _ => by simp [ListPc.bound, ListPc.allocs]
  case removeSetTail cleanOk p cur =>
    exact .same rfl (hl.of_eq rfl rfl) trivial le_rfl fun _ => by simp [ListPc.bound, ListPc.allocs]
  case removeClearCache cleanOk cur =>
    exact .same rfl (hl.of_eq rfl rfl) trivial le_rfl fun _ => by simp [ListPc.bound, ListPc.allocs]
  case removeAdd cleanOk cur =>
    exact .same rfl (hl.of_eq rfl rfl) trivial le_rfl fun _ => by simp [ListPc.bound, ListPc.allocs]
  case removeClean cleanOk cur =>
    refine .same rfl hl ?_ ?_ fun _ => ?_ <;> split_ifs <;>
      simp [ListPc.Placed, ListPc.allocs, ListPc.bound]
  case swapAlloc new prev cur =>
    obtain ⟨hcur, hprev⟩ := ht
    have hne : cur ≠ l.nodes.length := Nat.ne_of_lt hcur
    refine RankStep.alloc hl ⟨new, l.getNext cur⟩ (ρ cur) (fun b hb => hl.getNext hb)
      ⟨Nat.lt_succ_of_lt hcur, Nat.lt_succ_self _, ?_, fun p hp => ?_⟩ le_rfl
      fun _ => by simp [ListPc.bound, ListPc.allocs]
    · simp [PartitionList.alloc, Function.update_noteq hne]
    · obtain ⟨hpl, hpc⟩ := hprev p hp
      simpa [Function.update_noteq hne, Function.update_noteq (Nat.ne_of_lt hpl),
        Nat.lt_succ_of_lt hpl] using hpc
  case swapNext prev cur node =>
    obtain ⟨-, hnode, hρ, hprev⟩ := ht
    exact .same rfl hl ⟨hnode, fun p hp => (hprev p hp).imp_right (·.trans_eq hρ.symm)⟩
      le_rfl fun _ => by simp [ListPc.bound, ListPc.allocs]
  case swapLink prev node next =>
    obtain ⟨hnode, hprev⟩ := ht
    rcases prev with _ | p
    · exact .same rfl (hl.setHead fun b hb => Option.some.inj hb ▸ hnode) trivial le_rfl
        fun _ => by simp [ListPc.bound, ListPc.allocs]
    · have hy : ∀ b, some node = some b → b < l.nodes.length ∧ ρ p < ρ b :=
        fun b hb => Option.some.inj hb ▸ ⟨hnode, (hprev p rfl).2⟩
      rcases next with _ | n
      · exact .same (l.length_setNext _ _) (hl.setNext hy) trivial le_rfl
          fun _ => by simp [ListPc.bound, ListPc.allocs]
      · exact .same (l.length_setNext _ _) (hl.setNext hy) trivial le_rfl
          fun _ => by simp [ListPc.bound, ListPc.allocs]
  case swapSetTail node =>
    exact .same rfl (hl.of_eq rfl rfl) trivial le_rfl fun _ => by simp [ListPc.bound, ListPc.allocs]
  case traverse =>
    exact .same rfl hl hl.head_lt le_rfl fun _ => by
      simp [ListPc.bound, ListPc.allocs, PartitionIterator.moves, PartitionList.newIterator]
  case traverseNext it =>
    split_ifs with h
    · obtain ⟨b, hb⟩ := l.next_node_of_fst h
      refine .same rfl hl ?_ le_rfl fun r => ?_
      · simp only [ListPc.Placed, PartitionIterator.Placed, hb]
        exact (PartitionIterator.moves_next hl ht 0 hb).1
      · have := (PartitionIterator.moves_next hl ht r hb).2
        simp only [ListPc.bound, ListPc.allocs, Nat.add_zero]
        omega
    · exact .same rfl hl trivial le_rfl fun _ => by simp [ListPc.bound, ListPc.allocs]
  case traverseValue it =>
    exact .same rfl hl ht le_rfl fun _ => by simp [ListPc.bound, ListPc.allocs]
  case done => simp [ListThread.returned] at hrun
  case failed => simp [ListThread.returned] at hrun

/-- Every step keeps the invariant under ranks extended to the nodes it allocates, and lowers
the potential: the stepping call's bound drops and no other call's bound rises. -/
theorem RankInv.step {ρ : Nat → Int} {s s' : Config (SharedList α) (ListThread α)}
    (h : RankInv ρ s) (hs : Config.Step (listThreads minTimestamp) s s') :
    ∃ ρ', RankInv ρ' s' ∧ potential ρ' s' < potential ρ s := by
  obtain ⟨hc, hrun, x⟩ := hs
  rename_i i t
  rw [stepCall_listThreads minTimestamp hc]
  obtain ⟨A, B, hcalls, hset⟩ := exists_set_split (listStep minTimestamp s.shared t).2 hc
  have hAB : ∀ u ∈ A ++ B, u.pc.Placed s.shared.list.nodes.length ρ := fun u hu =>
    h.placed u (by rw [hcalls]; simp only [List.mem_append, List.mem_cons] at hu ⊢; tauto)
  have hst := listStep_rankStep minTimestamp h.ranked
    (h.placed t (List.mem_iff_getElem?.2 ⟨i, hc⟩)) hrun
  have hfut := hst.allocs
  have hframe := fun fut fut' (hf : _ + fut' ≤ _ + fut) => List.sum_le_sum fun u hu =>
    ListPc.bound_grow hst.grow hst.keep hf (hAB u hu)
  refine ⟨_, ⟨hst.ranked, fun u hu => ?_⟩, ?_⟩
  · rw [hset, List.mem_append, List.mem_cons, or_left_comm] at hu
    rcases hu with rfl | hu
    · exact hst.placed
    · exact (hAB u (List.mem_append.2 hu)).grow hst.grow hst.keep
  · unfold potential
    rw [hset, hcalls]
    dsimp only
    rw [futureAllocs_split, futureAllocs_split]
    have hown := hst.bound (futureAllocs A + futureAllocs B)
    have hle := hframe (futureAllocs A + futureAllocs B + t.pc.allocs)
      (futureAllocs A + futureAllocs B + (listStep minTimestamp s.shared t).2.pc.allocs) (by omega)
    simp only [List.map_append, List.map_cons, List.sum_append, List.sum_cons] at hle ⊢
    omega

/-- Any interleaving of calls of `insert`, `remove`, `swap` and traversals, started on a heap
whose `next` pointers admit a ranking, takes at most `n (2 (len + n) + 9)` steps for `n` calls
on a heap of `len` nodes: the scans and traversals end, and no call waits forever. -/
theorem listThreads_steps_le {l : PartitionList α} {ρ : Nat → Int} (hl : l.RankedBy ρ)
    {tasks : List (ListTask α)} {s : Config (SharedList α) (ListThread α)} {n : Nat}
    (h : Config.RunsFor (listThreads minTimestamp) (ListSystem.init l tasks) s n) :
    n ≤ tasks.length * (2 * (l.nodes.length + tasks.length) + 9) := by
  obtain ⟨_, -, hle⟩ := h.add_le_ghost RankInv potential (RankInv.init hl tasks)
    fun hI hs => hI.step minTimestamp hs
  exact (Nat.le_add_right _ _).trans (hle.trans (potential_init_le l ρ tasks))

/-- The calls of the sample runs: two inserts, a swap, a remove and a traversal. -/
def progressTasks : List (ListTask Int) := [.insert 1, .insert 2, .swap 1 3, .remove 2 true, .traverse]

/-- The two inserts one after the other, then the other three calls round robin until each
returns. -/
def progressSchedule : List (Nat × Unit) :=
  [0, 0, 0, 1, 1, 1, 4, 2, 3, 4, 2, 3, 4, 2, 3, 4, 2, 3, 4, 2, 3, 4, 2, 3, 2, 3, 2].map (·, ())

def progressRun : Config (SharedList Int) (ListThread Int) :=
  (ListSystem.init newPartitionList progressTasks).run (listThreads id) progressSchedule

/-- Every call of the sample run returns after 27 steps, within the bound of 95. -/
theorem listThreads_steps_le_sample :
    (∀ t ∈ progressRun.calls, t.returned = true) ∧
      Config.RunsFor (listThreads id) (ListSystem.init newPartitionList progressTasks) progressRun 27 ∧
      27 ≤ progressTasks.length * (2 * ((newPartitionList : PartitionList Int).nodes.length +
        progressTasks.length) + 9) := by
  have h : Config.RunsFor (listThreads id) (ListSystem.init newPartitionList progressTasks)
      progressRun (0 + progressSchedule.length) := Config.RunsFor.run .init (by decide)
  exact ⟨by decide, h, listThreads_steps_le id (PartitionList.newPartitionList_rankedBy fun _ => 0) h⟩

/-- No interleaving of calls makes the `next` pointers form a cycle, however it interleaves
the writers: at every reachable point an iterator that leaves a node never comes back to it. -/
theorem listThreads_acyclic {l : PartitionList α} {ρ : Nat → Int} (hl : l.RankedBy ρ)
    {tasks : List (ListTask α)} {s : Config (SharedList α) (ListThread α)}
    (h : Config.Reachable (listThreads minTimestamp) (ListSystem.init l tasks) s) (a k : Nat) :
    (fun it => (s.shared.list.next it).2)^[k + 1] ⟨some (.node a)⟩ ≠ ⟨some (.node a)⟩ := by
  obtain ⟨n, hn⟩ := h.runsFor
  obtain ⟨_, hI, -⟩ := hn.add_le_ghost RankInv potential (RankInv.init hl tasks)
    fun hI hs => hI.step minTimestamp hs
  exact PartitionIterator.iterate_next_ne hI.ranked a k

/-- In the sample run the swap and the remove race, and the remove's new head points back
at the node the swap replaced; still no node is reached again from itself. -/
theorem listThreads_acyclic_sample :
    Config.Reachable (listThreads id) (ListSystem.init newPartitionList progressTasks) progressRun ∧
      (fun it => (progressRun.shared.list.next it).2)^[3] ⟨some (.node 1)⟩ ≠ ⟨some (.node 1)⟩ := by
  have h : Config.Reachable (listThreads id) (ListSystem.init newPartitionList progressTasks)
      progressRun := Config.Reachable.run .init (by decide)
  exact ⟨h, listThreads_acyclic id (PartitionList.newPartitionList_rankedBy fun _ => 0) h 1 2⟩

end EmbedTSDB
