import EmbedTSDB.PartitionList.Concurrent
import EmbedTSDB.PartitionList.Refinement

/-! What a traversal can meet when `remove` runs beside it. `remove` cleans the partition it
unlinked without waiting for traversals, so a traversal whose iterator was made before the
clean can still return the partition. When the callers never run two `remove`s at once, a
traversal never returns a partition cleaned before it made its iterator: every node
reachable from where the iterator stands was on the chain from the head at some time after
the iterator was made, and a cleaned partition never comes back on that chain. -/
namespace EmbedTSDB

variable {α : Type}

/-- Whether a thread is a writer: a call of `insert`, `remove` or `swap`. -/
def ListPc.writer : ListPc α → Bool
  | .traverse | .traverseNext _ | .traverseValue _ | .done | .failed _ => false
  | _ => true

@[simp] theorem ScanFor.writer_found (op : ScanFor α) (prev : Option Nat) (cur : Nat) :
    (op.found prev cur).writer = true := by
  cases op <;> rfl

/-- Whether a thread is a writer between its first and its last step. -/
def ListPc.busyWriter : ListPc α → Bool
  | .insert _ | .sizeCheck _ => false
  | pc => pc.writer

/-- Whether call `i` may run under callers that never run two of `insert`, `remove` and
`swap` at once: a writer takes a step only while no other thread is a writer between its
first and its last step. -/
def writersSerial (s : Config (SharedList α) (ListThread α)) (i : Nat) : Bool :=
  (s.calls[i]?.all fun t => !t.pc.writer) ||
    (List.range s.calls.length).all fun j =>
      j == i || s.calls[j]?.all fun u => !u.pc.busyWriter

theorem writersSerial_busy {s : Config (SharedList α) (ListThread α)} {i j : Nat}
    {t u : ListThread α} (h : writersSerial s i = true) (ht : s.calls[i]? = some t)
    (hw : t.pc.writer = true) (hj : s.calls[j]? = some u) (hji : j ≠ i) :
    u.pc.busyWriter = false := by
  have hjl : j < s.calls.length := (List.getElem?_eq_some_iff.1 hj).1
  simp only [writersSerial, ht, Option.all_some, hw, Bool.not_true, Bool.false_or,
    List.all_eq_true, List.mem_range, Bool.or_eq_true, beq_iff_eq] at h
  simpa [hji, hj] using h j hjl

/-- The nodes at the addresses `S` exist and point only at addresses of `S` or at nil. -/
def Closed (nodes : List (PartitionNode α)) (S : List Nat) : Prop :=
  ∀ a ∈ S, ∃ n, nodes[a]? = some n ∧ ∀ b, n.next = some b → b ∈ S

/-- What a thread can still meet: the partitions cleaned when it made its iterator were all
cleaned by now, `value()` returned none of them, and from its iterator only nodes holding
none of them are reachable. -/
structure ReaderSafe (nodes : List (PartitionNode α)) (cleaned : List α) (t : ListThread α) :
    Prop where
  snapshot_sub : t.snapshot ⊆ cleaned
  seen : ∀ v ∈ t.seen, v.1 ∉ t.snapshot
  fresh : t.pc = .traverse → t.seen = []
  reach : ∀ it, t.pc = .traverseNext it ∨ t.pc = .traverseValue it →
    ∃ S, Closed nodes S ∧ (∀ a, it.frontier = some a → a ∈ S) ∧
      ∀ a ∈ S, ∀ n, nodes[a]? = some n → n.val ∉ t.snapshot

/-- Where a `remove` stands on the chain `es` from the head: its scan is on the dummy node
before the head or on a node of the chain, `current` is on the chain after `prev` and before
`next`, and once relinked `current` is off the chain. Threads of other writers cannot be
placed. -/
def RemoveAt (l : PartitionList α) (es : List (Nat × α)) : ListPc α → Prop
  | .sizeCheck (.remove _ _) | .newIterator (.remove _ _) => True
  | .scan (.remove _ _) prev it =>
    (it.current = some (.dummy l.head) ∧ prev = none) ∨
      ∃ x, it.current = some (.node x) ∧ prev = some x ∧ x ∈ es.map Prod.fst
  | .removeNext _ prev cur =>
    ∃ ys v zs, es = ys ++ (cur, v) :: zs ∧ prev = ys.getLast?.map Prod.fst
  | .removeLink _ prev cur next =>
    ∃ ys v zs, es = ys ++ (cur, v) :: zs ∧ prev = ys.getLast?.map Prod.fst ∧
      next = zs.head?.map Prod.fst
  | .removeSetTail _ _ cur | .removeClearCache _ cur | .removeAdd _ cur | .removeClean _ cur =>
    cur ∉ es.map Prod.fst
  | .traverse | .traverseNext _ | .traverseValue _ | .done | .failed _ => True
  | _ => False

/-- The invariant of `remove`s and traversals: partitions sit in distinct nodes, the chain
from the head is acyclic and holds no cleaned partition, and every thread is placed. -/
structure CleanSafe (s : Config (SharedList α) (ListThread α)) : Prop where
  vals : (s.shared.list.nodes.map PartitionNode.val).Nodup
  chain : ∃ es, Seg s.shared.list.nodes s.shared.list.head es none ∧ (es.map Prod.fst).Nodup ∧
    (∀ e ∈ es, e.2 ∉ s.shared.cleaned) ∧ ∀ t ∈ s.calls, RemoveAt s.shared.list es t.pc
  readers : ∀ t ∈ s.calls, ReaderSafe s.shared.list.nodes s.shared.cleaned t

/-- Pointing node `p` at a node of a closed set `E`, or at nil, keeps a closed set closed
once `E` is added. -/
theorem Closed.relink {nodes : List (PartitionNode α)} {S E : List Nat} (hS : Closed nodes S)
    (hE : Closed nodes E) {p : Nat} {y : Option Nat} (hy : ∀ b, y = some b → b ∈ E) :
    Closed (nodes.modify (fun n => { n with next := y }) p) (S ++ E) := by
  intro a ha
  obtain ⟨n, hn, hnext⟩ : ∃ n, nodes[a]? = some n ∧ ∀ b, n.next = some b → b ∈ S ++ E := by
    rcases List.mem_append.1 ha with ha | ha
    · obtain ⟨n, hn, hnext⟩ := hS a ha
      exact ⟨n, hn, fun b hb => List.mem_append_left _ (hnext b hb)⟩
    · obtain ⟨n, hn, hnext⟩ := hE a ha
      exact ⟨n, hn, fun b hb => List.mem_append_right _ (hnext b hb)⟩
  by_cases hpa : p = a
  · subst hpa
    exact ⟨{ n with next := y }, by rw [List.getElem?_modify_eq, hn]; rfl,
      fun b hb => List.mem_append_right _ (hy b hb)⟩
  · exact ⟨n, by rw [List.getElem?_modify_ne _ _ hpa, hn], hnext⟩

/-- Pointing a node elsewhere keeps every node's partition. -/
theorem val_of_modify_next {nodes : List (PartitionNode α)} {p a : Nat} {y : Option Nat}
    {n : PartitionNode α} (h : (nodes.modify (fun n => { n with next := y }) p)[a]? = some n) :
    ∃ m, nodes[a]? = some m ∧ n.val = m.val := by
  rw [List.getElem?_modify] at h
  cases hm : nodes[a]? with
  | none => simp [hm] at h
  | some m =>
    rw [hm] at h
    refine ⟨m, rfl, ?_⟩
    simp only [Option.map_eq_map, Option.map_some', Option.some.injEq] at h
    split at h <;> rw [← h]

theorem map_val_modify_next (nodes : List (PartitionNode α)) (p : Nat) (y : Option Nat) :
    (nodes.modify (fun n => { n with next := y }) p).map PartitionNode.val =
      nodes.map PartitionNode.val := by
  apply List.ext_getElem?
  intro a
  rw [List.getElem?_map, List.getElem?_map]
  cases h : (nodes.modify (fun n => { n with next := y }) p)[a]? with
  | none =>
    have : nodes[a]? = none := by
      rw [List.getElem?_eq_none_iff] at h ⊢
      simpa using h
    simp [this]
  | some n =>
    obtain ⟨m, hm, hv⟩ := val_of_modify_next h
    simp [hm, hv]

/-- The partition at an address of a chain is the chain's entry there. -/
theorem Seg.val_not_mem {nodes : List (PartitionNode α)} {s t : Option Nat}
    {es : List (Nat × α)} (h : Seg nodes s es t) {C : List α} (hC : ∀ e ∈ es, e.2 ∉ C) {a : Nat}
    (ha : a ∈ es.map Prod.fst) {n : PartitionNode α} (hn : nodes[a]? = some n) : n.val ∉ C := by
  obtain ⟨e, he, rfl⟩ := List.mem_map.1 ha
  obtain ⟨m, hm, hv⟩ := h.val_of_mem he
  rw [hn, Option.some.injEq] at hm
  subst hm
  rw [hv]
  exact hC e he

/-- How a step of a `remove` changes what the other threads can see: the nodes stay and
cleaned partitions are only added, or a node is pointed at a node of the chain from the
head, which holds no cleaned partition, or at nil. -/
inductive SharedChange (s s' : SharedList α) : Prop
  | keep (hn : s'.list.nodes = s.list.nodes) (hc : s.cleaned ⊆ s'.cleaned)
  | relink {es : List (Nat × α)} {p : Nat} {y : Option Nat}
      (hs : Seg s.list.nodes s.list.head es none) (hes : ∀ e ∈ es, e.2 ∉ s.cleaned)
      (hn : s'.list.nodes = s.list.nodes.modify (fun n => { n with next := y }) p)
      (hc : s'.cleaned = s.cleaned) (hy : ∀ b, y = some b → b ∈ es.map Prod.fst)

theorem SharedChange.vals {s s' : SharedList α} (h : SharedChange s s') :
    s'.list.nodes.map PartitionNode.val = s.list.nodes.map PartitionNode.val := by
  cases h with
  | keep hn => rw [hn]
  | relink _ _ hn => rw [hn, map_val_modify_next]

theorem SharedChange.cleaned_sub {s s' : SharedList α} (h : SharedChange s s') :
    s.cleaned ⊆ s'.cleaned := by
  cases h with
  | keep _ hc => exact hc
  | relink _ _ _ hc => exact hc ▸ List.Subset.refl _

/-- A thread that does not step keeps what it can meet. -/
theorem ReaderSafe.change {s s' : SharedList α} {t : ListThread α} (hch : SharedChange s s')
    (h : ReaderSafe s.list.nodes s.cleaned t) : ReaderSafe s'.list.nodes s'.cleaned t := by
  refine ⟨fun v hv => hch.cleaned_sub (h.snapshot_sub hv), h.seen, h.fresh, fun it hit => ?_⟩
  obtain ⟨S, hS, hcov, hval⟩ := h.reach it hit
  cases hch with
  | keep hn => exact ⟨S, hn ▸ hS, hcov, hn ▸ hval⟩
  | relink hs hes hn _ hy =>
    refine ⟨S ++ _, hn ▸ hS.relink hs.closed hy, fun a ha => List.mem_append_left _ (hcov a ha),
      fun a ha n hna => ?_⟩
    rw [hn] at hna
    obtain ⟨m, hm, hv⟩ := val_of_modify_next hna
    rw [hv]
    rcases List.mem_append.1 ha with ha | ha
    · exact hval a ha m hm
    · exact fun hmem => hs.val_not_mem hes ha hm (h.snapshot_sub hmem)

/-- A thread that is no writer between its first and last step is placed anywhere. -/
theorem RemoveAt.frame {l l' : PartitionList α} {es es' : List (Nat × α)} {pc : ListPc α}
    (hb : pc.busyWriter = false) (h : RemoveAt l es pc) : RemoveAt l' es' pc := by
  cases pc with
  | sizeCheck op => cases op <;> exact h
  | insert => exact h.elim
  | traverse | traverseNext | traverseValue | done | failed => trivial
  | _ => cases hb

/-- A thread that writes keeps its snapshot and what it saw, and never becomes a
traversal. -/
theorem ReaderSafe.writer_step {nodes nodes' : List (PartitionNode α)} {cleaned cleaned' : List α}
    {t t' : ListThread α} (h : ReaderSafe nodes cleaned t) (hc : cleaned ⊆ cleaned')
    (hsnap : t'.snapshot = t.snapshot) (hseen : t'.seen = t.seen)
    (hpc : t'.pc.writer = true ∨ t'.returned = true) : ReaderSafe nodes' cleaned' t' := by
  refine ⟨hsnap ▸ fun v hv => hc (h.snapshot_sub hv), hsnap ▸ hseen ▸ h.seen, fun hp => ?_,
    fun it hit => ?_⟩
  · simp [hp, ListPc.writer, ListThread.returned] at hpc
  · rcases hit with hp | hp <;> simp [hp, ListPc.writer, ListThread.returned] at hpc

/-- Two nodes holding the same partition are the same node. -/
theorem val_inj {nodes : List (PartitionNode α)} (h : (nodes.map PartitionNode.val).Nodup)
    {a b : Nat} {n m : PartitionNode α} (hn : nodes[a]? = some n) (hm : nodes[b]? = some m)
    (hv : n.val = m.val) : a = b :=
  List.getElem?_inj (by simpa using (List.getElem?_eq_some_iff.1 hn).1) h
    (by simp [List.getElem?_map, hn, hm, hv])

/-- A step of the iterator stays within a closed set holding its frontier. -/
theorem frontier_next {l : PartitionList α} {S : List Nat} (hS : Closed l.nodes S)
    {it : PartitionIterator} (hit : ∀ a, it.frontier = some a → a ∈ S) :
    ∀ a, (l.next it).2.frontier = some a → a ∈ S := by
  intro a ha
  rcases hc : it.current with _ | (nx | c)
  · exact hit a (by simpa [PartitionList.next, hc] using ha)
  · have hf : it.frontier = nx := by simp [PartitionIterator.frontier, hc]
    exact hit a (hf ▸ by simpa [PartitionList.next, hc] using ha)
  · have hf : it.frontier = some c := by simp [PartitionIterator.frontier, hc]
    obtain ⟨n, hn, hnext⟩ := hS c (hit c hf)
    exact hnext a (by simpa [PartitionList.next, hc, PartitionList.getNext, hn] using ha)

/-- `value()` on an iterator whose frontier is in a set returns a partition of that set's
nodes. -/
theorem value_of_frontier {l : PartitionList α} {S : List Nat} {C : List α}
    {it : PartitionIterator} (hit : ∀ a, it.frontier = some a → a ∈ S)
    (hval : ∀ a ∈ S, ∀ n, l.nodes[a]? = some n → n.val ∉ C) :
    ∀ v ∈ (l.value it).toList, v ∉ C := by
  intro v hv
  rcases hc : it.current with _ | (nx | c) <;>
    simp only [PartitionList.value, hc, Option.toList_none, List.not_mem_nil] at hv
  simp only [PartitionList.valueAt, Option.mem_toList, Option.mem_def, Option.map_eq_some'] at hv
  obtain ⟨n, hn, rfl⟩ := hv
  exact hval c (hit c (by simp [PartitionIterator.frontier, hc])) n hn

/-- The address of an entry dropped from the middle of a chain with distinct addresses is
not among the rest. -/
theorem not_mem_drop_mid {ys zs : List (Nat × α)} {a b : Nat × α}
    (h : ((ys ++ a :: b :: zs).map Prod.fst).Nodup) : b.1 ∉ (ys ++ a :: zs).map Prod.fst := by
  have hp : List.Perm ((ys ++ [a]) ++ b :: zs) (b :: ((ys ++ [a]) ++ zs)) := List.perm_middle
  have hnd := (hp.map Prod.fst).nodup_iff.1 (by simpa using h)
  simpa using (List.nodup_cons.1 hnd).1

/-- A list of distinct partitions with `remove`s and traversals not yet started meets the
invariant. -/
theorem CleanSafe.init {l : PartitionList α} {xs : List α} (hl : l.Refines xs)
    (hvals : (l.nodes.map PartitionNode.val).Nodup) {tasks : List (ListTask α)}
    (htasks : ∀ t ∈ tasks, (∃ target cleanOk, t = .remove target cleanOk) ∨ t = .traverse) :
    CleanSafe (ListSystem.init l tasks) := by
  obtain ⟨es, hs, hnd, -⟩ := hl.chain
  refine ⟨hvals, ⟨es, hs, hnd, fun e _ he => List.not_mem_nil _ he, fun t ht => ?_⟩,
    fun t ht => ?_⟩ <;>
    obtain ⟨task, htask, rfl⟩ := List.mem_map.1 ht <;>
    rcases htasks task htask with ⟨target, cleanOk, rfl⟩ | rfl
  all_goals first
    | trivial
    | exact ⟨by simp [ListTask.start], by simp [ListTask.start], by simp [ListTask.start],
        by simp [ListTask.start]⟩

/-- The chain from the head is acyclic and holds no cleaned partition, and a thread at `pc`
is placed on it. -/
def ChainAt (s : SharedList α) (pc : ListPc α) : Prop :=
  ∃ es, Seg s.list.nodes s.list.head es none ∧ (es.map Prod.fst).Nodup ∧
    (∀ e ∈ es, e.2 ∉ s.cleaned) ∧ RemoveAt s.list es pc

/-- A step that keeps the nodes, the head and the cleaned partitions keeps the chain. -/
theorem ChainAt.keep {s s' : SharedList α} {pc : ListPc α} {es : List (Nat × α)}
    (hs : Seg s.list.nodes s.list.head es none) (hnd : (es.map Prod.fst).Nodup)
    (hes : ∀ e ∈ es, e.2 ∉ s.cleaned) (hn : s'.list.nodes = s.list.nodes)
    (hh : s'.list.head = s.list.head) (hc : s'.cleaned = s.cleaned) (hr : RemoveAt s'.list es pc) :
    SharedChange s s' ∧ ChainAt s' pc :=
  ⟨.keep hn (hc ▸ List.Subset.refl _), es, hn ▸ hh ▸ hs, hnd, hc ▸ hes, hr⟩

variable [DecidableEq α] (minTimestamp : α → Int)

theorem listStep_reader_shared {s : SharedList α} {t : ListThread α} (hw : t.pc.writer = false) :
    (listStep minTimestamp s t).1 = s := by
  rcases t with ⟨pc, snapshot, seen⟩
  cases pc <;> simp only [ListPc.writer, Bool.true_eq_false] at hw <;> rfl

/-- A traversal's step keeps what it can meet. -/
theorem listStep_reader_safe {s : SharedList α} {t : ListThread α} {es : List (Nat × α)}
    (hs : Seg s.list.nodes s.list.head es none) (hes : ∀ e ∈ es, e.2 ∉ s.cleaned)
    (hw : t.pc.writer = false) (hr : ReaderSafe s.list.nodes s.cleaned t) :
    RemoveAt s.list es (listStep minTimestamp s t).2.pc ∧
      ReaderSafe s.list.nodes s.cleaned (listStep minTimestamp s t).2 := by
  rcases t with ⟨pc, snapshot, seen⟩
  cases pc with
  | traverse =>
    refine ⟨trivial, List.Subset.refl _, fun v hv => by simp [listStep, hr.fresh rfl] at hv,
      by simp [listStep], fun it hit => ?_⟩
    simp only [listStep, ListPc.traverseNext.injEq, reduceCtorEq, or_false] at hit
    subst hit
    exact ⟨_, hs.closed, fun a ha => hs.head_mem ha, fun a ha n hn => hs.val_not_mem hes ha hn⟩
  | traverseNext it =>
    obtain ⟨S, hS, hcov, hval⟩ := hr.reach it (.inl rfl)
    simp only [listStep]
    split
    · refine ⟨trivial, hr.snapshot_sub, hr.seen, by simp, fun it' hit => ?_⟩
      simp only [reduceCtorEq, ListPc.traverseValue.injEq, false_or] at hit
      subst hit
      exact ⟨S, hS, frontier_next hS hcov, hval⟩
    · exact ⟨trivial, hr.snapshot_sub, hr.seen, by simp, by simp⟩
  | traverseValue it =>
    obtain ⟨S, hS, hcov, hval⟩ := hr.reach it (.inr rfl)
    refine ⟨trivial, hr.snapshot_sub, fun v hv => ?_, by simp [listStep], fun it' hit => ?_⟩
    · simp only [listStep, List.mem_append, List.mem_map] at hv
      rcases hv with hv | ⟨w, hw, rfl⟩
      · exact hr.seen v hv
      · exact value_of_frontier hcov hval w hw
    · simp only [listStep, ListPc.traverseNext.injEq, reduceCtorEq, or_false] at hit
      subst hit
      exact ⟨S, hS, hcov, hval⟩
  | done | failed => exact ⟨trivial, hr⟩
  | _ => simp [ListPc.writer] at hw

section Remove

variable {s : SharedList α} {t : ListThread α} {es : List (Nat × α)} {cleanOk : Bool}
  {prev : Option Nat}

/-- A step of the scan of `remove` moves to the next node of the chain, keeping the node
before it, or stops on the node it looks for or at the end. -/
theorem scan_step {target : α} {it : PartitionIterator}
    (hpc : t.pc = .scan (.remove target cleanOk) prev it)
    (hs : Seg s.list.nodes s.list.head es none) (hw : RemoveAt s.list es t.pc) :
    (listStep minTimestamp s t).1 = s ∧ RemoveAt s.list es (listStep minTimestamp s t).2.pc := by
  rw [hpc] at hw
  simp only [listStep, hpc]
  rcases hw with ⟨hit, rfl⟩ | ⟨x, hit, rfl, hx⟩
  · have hnext : (s.list.next it).2 = ⟨s.list.head.map .node⟩ := by
      simp [PartitionList.next, hit]
    rw [hnext]
    cases hh : s.list.head with
    | none => exact ⟨rfl, trivial⟩
    | some h =>
      rw [hh] at hs
      obtain ⟨n, rest, hn, rfl, -⟩ := hs.cons_inv
      simp only [Option.map_some', PartitionList.valueAt, hn]
      split
      · exact ⟨rfl, [], n.val, rest, rfl, rfl⟩
      · exact ⟨rfl, .inr ⟨h, rfl, rfl, by simp⟩⟩
  · obtain ⟨ys, n, zs, rfl, hn, hz⟩ := hs.split_mem hx
    have hnext : (s.list.next it).2 = ⟨n.next.map .node⟩ := by
      simp [PartitionList.next, hit, PartitionList.getNext, hn]
    rw [hnext]
    cases hnn : n.next with
    | none => exact ⟨rfl, trivial⟩
    | some y =>
      rw [hnn] at hz
      obtain ⟨m, rest, hm, rfl, -⟩ := hz.cons_inv
      simp only [Option.map_some', PartitionList.valueAt, hm]
      split
      · exact ⟨rfl, ys ++ [(x, n.val)], m.val, rest, by simp, by simp⟩
      · exact ⟨rfl, .inr ⟨y, rfl, rfl, by simp⟩⟩

/-- `remove`'s relinking takes `current` off the chain: the head moves past it, or its
predecessor is pointed past it. -/
theorem removeLink_step {cur : Nat} {next : Option Nat}
    (hpc : t.pc = .removeLink cleanOk prev cur next)
    (hs : Seg s.list.nodes s.list.head es none) (hnd : (es.map Prod.fst).Nodup)
    (hes : ∀ e ∈ es, e.2 ∉ s.cleaned) (hw : RemoveAt s.list es t.pc) :
    SharedChange s (listStep minTimestamp s t).1 ∧
      ChainAt (listStep minTimestamp s t).1 (listStep minTimestamp s t).2.pc := by
  rw [hpc] at hw
  obtain ⟨ys, v, zs, rfl, rfl, rfl⟩ := hw
  obtain ⟨n, hn, -, hnext, hz⟩ := hs.next_of_split
  simp only [listStep, hpc]
  rcases ys.eq_nil_or_concat with rfl | ⟨ys, ⟨p, vp⟩, rfl⟩
  · rw [List.nil_append, List.map_cons] at hnd
    have hcur := List.nodup_cons.1 hnd
    refine ⟨.keep rfl (List.Subset.refl _), zs, hnext ▸ hz, hcur.2,
      fun e he => hes e (by simp [he]),
      ?_⟩
    exact hcur.1
  · simp only [List.concat_eq_append, List.getLast?_append, List.getLast?_singleton,
      Option.or_some, Option.map_some', List.append_assoc, List.singleton_append] at hs hnd hes ⊢
    obtain ⟨n', hn', hseg⟩ := hs.unlink hnd
    rw [hn, Option.some.injEq] at hn'
    subst hn'
    have hnd' := PartitionList.nodup_drop_mid hnd
    have hcur : cur ∉ (ys ++ (p, vp) :: zs).map Prod.fst := not_mem_drop_mid hnd
    have hy : ∀ b, zs.head?.map Prod.fst = some b →
        b ∈ (ys ++ (p, vp) :: (cur, v) :: zs).map Prod.fst := by
      intro b hb
      cases zs with
      | nil => cases hb
      | cons z zs => simp_all
    have hes' : ∀ e ∈ ys ++ (p, vp) :: zs, e.2 ∉ s.cleaned := fun e he =>
      hes e ((((List.sublist_cons_self _ zs).cons₂ _).append_left ys).subset he)
    rw [hnext] at hseg
    cases zs with
    | nil => exact ⟨.relink hs hes rfl rfl hy, _, hseg, hnd', hes', hcur⟩
    | cons z zs => exact ⟨.relink hs hes rfl rfl hy, _, hseg, hnd', hes', hcur⟩

/-- `clean()` runs on a partition no longer on the chain. -/
theorem removeClean_step {cur : Nat} (hpc : t.pc = .removeClean cleanOk cur)
    (hvals : (s.list.nodes.map PartitionNode.val).Nodup)
    (hs : Seg s.list.nodes s.list.head es none) (hes : ∀ e ∈ es, e.2 ∉ s.cleaned)
    (hw : RemoveAt s.list es t.pc) :
    ∀ e ∈ es, e.2 ∉ (listStep minTimestamp s t).1.cleaned := by
  rw [hpc] at hw
  intro e he hmem
  simp only [listStep, hpc, List.mem_append, Option.mem_toList, PartitionList.valueAt,
    Option.mem_def, Option.map_eq_some'] at hmem
  rcases hmem with hmem | ⟨m, hm, hv⟩
  · exact hes e he hmem
  · obtain ⟨n, hn, hnv⟩ := hs.val_of_mem he
    exact hw (val_inj hvals hn hm (hnv.trans hv.symm) ▸ List.mem_map_of_mem _ he)

/-- One step of a `remove` keeps the chain acyclic and free of cleaned partitions, places
the thread on the new chain, and changes the shared state only as other threads can bear. -/
theorem listStep_remove_safe (hvals : (s.list.nodes.map PartitionNode.val).Nodup)
    (hs : Seg s.list.nodes s.list.head es none) (hnd : (es.map Prod.fst).Nodup)
    (hes : ∀ e ∈ es, e.2 ∉ s.cleaned) (hw : RemoveAt s.list es t.pc) (hwr : t.pc.writer = true) :
    SharedChange s (listStep minTimestamp s t).1 ∧
      ChainAt (listStep minTimestamp s t).1 (listStep minTimestamp s t).2.pc := by
  have keep := @ChainAt.keep _ s (listStep minTimestamp s t).1 (listStep minTimestamp s t).2.pc _
    hs hnd hes
  rcases t with ⟨pc, snapshot, seen⟩
  cases pc with
  | sizeCheck op =>
    cases op with
    | remove => exact keep rfl rfl rfl (by simp only [listStep]; split <;> trivial)
    | swap => exact hw.elim
  | newIterator op =>
    cases op with
    | remove => exact keep rfl rfl rfl (.inl ⟨rfl, rfl⟩)
    | swap => exact hw.elim
  | scan op prev it =>
    cases op with
    | remove target cleanOk =>
      obtain ⟨h1, h2⟩ := scan_step minTimestamp rfl hs hw
      exact keep (by rw [h1]) (by rw [h1]) (by rw [h1]) (by rw [h1]; exact h2)
    | swap => exact hw.elim
  | removeNext cleanOk prev cur =>
    obtain ⟨ys, v, zs, rfl, rfl⟩ := hw
    obtain ⟨n, hn, -, hnext, -⟩ := hs.next_of_split
    exact keep rfl rfl rfl ⟨ys, v, zs, rfl, rfl, by simp [PartitionList.getNext, hn, hnext]⟩
  | removeLink cleanOk prev cur next => exact removeLink_step minTimestamp rfl hs hnd hes hw
  | removeSetTail | removeClearCache | removeAdd => exact keep rfl rfl rfl hw
  | removeClean cleanOk cur =>
    refine ⟨.keep rfl (by simp [listStep]), es, hs, hnd,
      removeClean_step minTimestamp rfl hvals hs hes hw, ?_⟩
    simp only [listStep]
    split <;> trivial
  | insert | insertSetHead | insertAdd | swapAlloc | swapNext | swapLink | swapSetTail =>
    exact hw.elim
  | traverse | traverseNext | traverseValue | done | failed => cases hwr

end Remove

/-- A writer's step changes only where the thread stands, and it stays a writer or
returns. -/
theorem listStep_writer {s : SharedList α} {t : ListThread α} (hw : t.pc.writer = true) :
    (listStep minTimestamp s t).2.snapshot = t.snapshot ∧
      (listStep minTimestamp s t).2.seen = t.seen ∧
      ((listStep minTimestamp s t).2.pc.writer = true ∨
        (listStep minTimestamp s t).2.returned = true) := by
  rcases t with ⟨pc, snapshot, seen⟩
  cases pc <;> simp only [ListPc.writer, Bool.false_eq_true] at hw <;> dsimp only [listStep] <;>
    (repeat' split) <;>
    exact ⟨rfl, rfl, by
      first | exact .inl rfl | exact .inr rfl | exact .inl (ScanFor.writer_found _ _ _)⟩

/-- Every step a scheduler that keeps writers apart may take keeps the invariant. -/
theorem CleanSafe.step {s s' : Config (SharedList α) (ListThread α)} (h : CleanSafe s)
    (hs : Config.GuardedStep (listThreads minTimestamp) writersSerial s s') : CleanSafe s' := by
  cases hs with
  | @call i t hc _ hok x =>
    have hstep : s.stepCall (listThreads minTimestamp) i x =
        ⟨(listStep minTimestamp s.shared t).1,
          s.calls.set i (listStep minTimestamp s.shared t).2⟩ := by
      simp [Config.stepCall, hc, listThreads]
    rw [hstep]
    obtain ⟨es, hseg, hnd, hes, hw⟩ := h.chain
    have ht : t ∈ s.calls := List.mem_iff_getElem?.2 ⟨_, hc⟩
    have hmem : ∀ u ∈ s.calls.set i (listStep minTimestamp s.shared t).2,
        u = (listStep minTimestamp s.shared t).2 ∨ ∃ j, j ≠ i ∧ s.calls[j]? = some u :=
      fun u hu => mem_set_cases hu
    by_cases hwr : t.pc.writer = true
    · obtain ⟨hch, es', hseg', hnd', hes', hw'⟩ :=
        listStep_remove_safe minTimestamp h.vals hseg hnd hes (hw t ht) hwr
      obtain ⟨hsnap, hseen, hpc'⟩ := listStep_writer minTimestamp hwr
      refine ⟨by rw [hch.vals]; exact h.vals, ⟨es', hseg', hnd', hes', fun u hu => ?_⟩,
        fun u hu => ?_⟩
      · rcases hmem u hu with rfl | ⟨j, hji, hj⟩
        · exact hw'
        · exact (hw u (List.mem_iff_getElem?.2 ⟨_, hj⟩)).frame
            (writersSerial_busy hok hc hwr hj hji)
      · rcases hmem u hu with rfl | ⟨j, -, hj⟩
        · exact (h.readers t ht).writer_step hch.cleaned_sub hsnap hseen hpc'
        · exact (h.readers u (List.mem_iff_getElem?.2 ⟨_, hj⟩)).change hch
    · have hwr' : t.pc.writer = false := by simpa using hwr
      obtain ⟨hw', hr'⟩ := listStep_reader_safe minTimestamp hseg hes hwr' (h.readers t ht)
      simp only [listStep_reader_shared minTimestamp hwr'] at hmem ⊢
      refine ⟨h.vals, ⟨es, hseg, hnd, hes, fun u hu => ?_⟩, fun u hu => ?_⟩
      · rcases hmem u hu with rfl | ⟨j, -, hj⟩
        · exact hw'
        · exact hw u (List.mem_iff_getElem?.2 ⟨_, hj⟩)
      · rcases hmem u hu with rfl | ⟨j, -, hj⟩
        · exact hr'
        · exact h.readers u (List.mem_iff_getElem?.2 ⟨_, hj⟩)

/-- Under callers that never run two `remove`s at once, on a list of distinct partitions, no
traversal's `value()` returns a partition whose `clean()` was called before the traversal
made its iterator. -/
theorem traverse_never_sees_earlier_clean {l : PartitionList α} {xs : List α}
    (hl : l.Refines xs) (hvals : (l.nodes.map PartitionNode.val).Nodup)
    {tasks : List (ListTask α)}
    (htasks : ∀ t ∈ tasks, (∃ target cleanOk, t = .remove target cleanOk) ∨ t = .traverse)
    {s : Config (SharedList α) (ListThread α)}
    (hs : Config.GuardedReachable (listThreads minTimestamp) writersSerial
      (ListSystem.init l tasks) s) :
    ∀ t ∈ s.calls, ∀ v ∈ t.seen, v.1 ∉ t.snapshot := fun t ht =>
  ((hs.inv (CleanSafe.init hl hvals htasks) fun h hst => h.step minTimestamp hst).readers t ht).seen

/-- On the list of partitions `2` and `1`, `remove(1)` runs to its return, cleaning
partition `1`, and only then does a traversal make its iterator and run. -/
def cleanFirstRun : Config (SharedList Int) (ListThread Int) :=
  (ListSystem.init (((newPartitionList : PartitionList Int).insert 1).insert 2)
    [.remove 1 true, .traverse]).run (listThreads id)
    (List.replicate 10 (0, ()) ++ List.replicate 4 (1, ()))

/-- In the race of the concurrent module the traversal made its iterator before the clean, so
its snapshot is empty; after a `remove` that ran first, the traversal's snapshot holds the
cleaned partition `1` and its `value()`s return only partition `2`. -/
theorem traverse_never_sees_earlier_clean_sample :
    (((newPartitionList : PartitionList Int).insert 1).Refines [1] ∧
      (((newPartitionList : PartitionList Int).insert 1).nodes.map PartitionNode.val).Nodup ∧
      (∀ t ∈ [ListTask.remove (1 : Int) true, .traverse],
        (∃ target cleanOk, t = .remove target cleanOk) ∨ t = .traverse) ∧
      Config.GuardedReachable (listThreads id) writersSerial
        (ListSystem.init ((newPartitionList : PartitionList Int).insert 1)
          [.remove 1 true, .traverse]) cleanRaceRun ∧
      ∀ t ∈ cleanRaceRun.calls, ∀ v ∈ t.seen, v.1 ∉ t.snapshot) ∧
    ((((newPartitionList : PartitionList Int).insert 1).insert 2).Refines [2, 1] ∧
      ((((newPartitionList : PartitionList Int).insert 1).insert 2).nodes.map
        PartitionNode.val).Nodup ∧
      Config.GuardedReachable (listThreads id) writersSerial
        (ListSystem.init (((newPartitionList : PartitionList Int).insert 1).insert 2)
          [.remove 1 true, .traverse]) cleanFirstRun ∧
      (∀ t ∈ cleanFirstRun.calls, ∀ v ∈ t.seen, v.1 ∉ t.snapshot) ∧
      cleanFirstRun.calls.map (fun t => (t.snapshot, t.seen)) = [([], []), ([1], [(2, false)])]) := by
  have hl := PartitionList.new_refines.insert (1 : Int)
  have hl₂ := hl.insert 2
  have htasks : ∀ t ∈ [ListTask.remove (1 : Int) true, .traverse],
      (∃ target cleanOk, t = .remove target cleanOk) ∨ t = .traverse := by
    simp
  have hvals : (((newPartitionList : PartitionList Int).insert 1).nodes.map
      PartitionNode.val).Nodup := by decide
  have hvals₂ : ((((newPartitionList : PartitionList Int).insert 1).insert 2).nodes.map
      PartitionNode.val).Nodup := by decide
  have hs : Config.GuardedReachable (listThreads id) writersSerial
      (ListSystem.init ((newPartitionList : PartitionList Int).insert 1)
        [.remove 1 true, .traverse]) cleanRaceRun :=
    Config.GuardedReachable.run .init (by decide)
  have hs₂ : Config.GuardedReachable (listThreads id) writersSerial
      (ListSystem.init (((newPartitionList : PartitionList Int).insert 1).insert 2)
        [.remove 1 true, .traverse]) cleanFirstRun :=
    Config.GuardedReachable.run .init (by decide)
  exact ⟨⟨hl, hvals, htasks, hs, traverse_never_sees_earlier_clean id hl hvals htasks hs⟩,
    hl₂, hvals₂, hs₂, traverse_never_sees_earlier_clean id hl₂ hvals₂ htasks hs₂,
    by decide⟩

end EmbedTSDB
