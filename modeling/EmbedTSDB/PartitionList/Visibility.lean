import EmbedTSDB.PartitionList.Progress

/-! What a traversal can see. `newIterator` copies the head, and `insert` only ever links its
node in front of the head, so an insert that starts after a traversal has made its iterator
is invisible to it, however the steps interleave with other writers. Each node gets an
origin: an inserted node is its own origin, and the node `swap` allocates inherits the origin
of the node it replaces. No `next` pointer leads to a node of higher origin, and no origin
exceeds the node's address; so a traversal under way walks only nodes of origin below the
heap's size at that time, while an insert that starts later allocates its node, of its own
origin, at or beyond it. -/
namespace EmbedTSDB

variable {α : Type}

namespace PartitionList

/-- The origins `o` order the heap: no origin exceeds its node's address, and no `next`
pointer leads to a node of higher origin. -/
structure OriginOrdered (l : PartitionList α) (o : Nat → Nat) : Prop where
  le_self : ∀ a, o a ≤ a
  next_le : ∀ a n b, l.nodes[a]? = some n → n.next = some b → o b ≤ o a

variable {l : PartitionList α} {o : Nat → Nat}

theorem OriginOrdered.getNext (h : l.OriginOrdered o) {a b : Nat} (hb : l.getNext a = some b) :
    o b ≤ o a := by
  obtain ⟨n, hn, hnb⟩ := Option.bind_eq_some.1 hb
  exact h.next_le a n b hn hnb

theorem OriginOrdered.of_nodes {l' : PartitionList α} (h : l.OriginOrdered o)
    (hn : l'.nodes = l.nodes) : l'.OriginOrdered o :=
  ⟨h.le_self, hn ▸ h.next_le⟩

theorem OriginOrdered.setNext (h : l.OriginOrdered o) {p : Nat} {y : Option Nat}
    (hy : ∀ b, y = some b → o b ≤ o p) : (l.setNext p y).OriginOrdered o := by
  refine ⟨h.le_self, fun a n b hn hb => ?_⟩
  simp only [PartitionList.setNext, List.getElem?_modify] at hn
  rcases ha : l.nodes[a]? with _ | m
  · simp [ha] at hn
  · simp only [ha, Option.map_eq_map, Option.map_some', Option.some.injEq] at hn
    split_ifs at hn with hpa
    · subst hn hpa
      exact hy b hb
    · subst hn
      exact h.next_le a m b ha hb

/-- A node allocated with origin `v`, on a ranked heap whose pointers all name existing
nodes. -/
theorem OriginOrdered.alloc {ρ : Nat → Int} (h : l.OriginOrdered o) (hl : l.RankedBy ρ)
    (n : PartitionNode α) (v : Nat) (hv : v ≤ l.nodes.length)
    (hn : ∀ b, n.next = some b → b < l.nodes.length ∧ o b ≤ v) :
    (l.alloc n).1.OriginOrdered (Function.update o l.nodes.length v) := by
  have hne : ∀ {b}, b < l.nodes.length → b ≠ l.nodes.length := Nat.ne_of_lt
  refine ⟨fun a => ?_, fun a m b hm hb => ?_⟩
  · by_cases ha : a = l.nodes.length
    · subst ha; simpa using hv
    · simpa [Function.update_noteq ha] using h.le_self a
  simp only [PartitionList.alloc] at hm
  rcases Nat.lt_or_ge a l.nodes.length with ha | ha
  · rw [List.getElem?_append_left ha] at hm
    have hbl := (hl.next_lt a m b hm hb).1
    simpa [Function.update_noteq (hne ha), Function.update_noteq (hne hbl)] using
      h.next_le a m b hm hb
  · rw [List.getElem?_append_right ha] at hm
    obtain ⟨hlt, hnm⟩ := List.getElem?_eq_some_iff.1 hm
    obtain rfl : a = l.nodes.length := by simp at hlt; omega
    obtain rfl : m = n := by simpa using hnm.symm
    obtain ⟨hbl, hbv⟩ := hn b hb
    simpa [Function.update_noteq (hne hbl)] using hbv

end PartitionList

namespace PartitionIterator

/-- The iterator stands before or on nodes of origin below `L`, or past the end. -/
def Behind (o : Nat → Nat) (L : Nat) (it : PartitionIterator) : Prop :=
  match it.current with
  | some (.dummy nx) => ∀ h, nx = some h → o h < L
  | some (.node a) => o a < L
  | none => True

variable {o : Nat → Nat} {L : Nat}

/-- An iterator on existing nodes is behind the heap's size. -/
theorem Placed.behind {len : Nat} (ho : ∀ a, o a ≤ a) {it : PartitionIterator}
    (h : it.Placed len) : it.Behind o len := by
  rcases it with ⟨_ | (nx | a)⟩
  · trivial
  · exact fun b hb => (ho b).trans_lt (h b hb)
  · exact (ho a).trans_lt h

/-- `next()` keeps the iterator behind: pointers never raise the origin. -/
theorem Behind.next {l : PartitionList α} (hl : l.OriginOrdered o) {it : PartitionIterator}
    (h : it.Behind o L) : (l.next it).2.Behind o L := by
  rcases it with ⟨_ | (nx | a)⟩
  · trivial
  · simp only [Behind, PartitionList.next] at h ⊢
    rcases nx with _ | b
    · trivial
    · exact h b rfl
  · simp only [Behind, PartitionList.next] at h ⊢
    rcases hb : l.getNext a with _ | b
    · trivial
    · exact (hl.getNext hb).trans_lt h

theorem Behind.congr {o' : Nat → Nat} {len : Nat} (hρ : ∀ c < len, o' c = o c)
    {it : PartitionIterator} (hit : it.Placed len) (h : it.Behind o L) : it.Behind o' L := by
  rcases it with ⟨_ | (nx | a)⟩
  · trivial
  · exact fun b hb => (hρ b (hit b hb)).symm ▸ h b hb
  · show o' a < L
    exact (hρ a hit).symm ▸ h

end PartitionIterator

/-- What a thread's variables must satisfy against the origins: `prev` is of origin no lower
than `cur`, `next` no higher, and the node `swap` allocated has the origin of the node it
replaces. -/
def ListPc.OriginPlaced (o : Nat → Nat) : ListPc α → Prop
  | .removeNext _ prev cur | .swapAlloc _ prev cur => ∀ p, prev = some p → o cur ≤ o p
  | .removeLink _ prev cur next =>
    (∀ p, prev = some p → o cur ≤ o p) ∧ ∀ n, next = some n → o n ≤ o cur
  | .swapNext prev cur node => o node = o cur ∧ ∀ p, prev = some p → o cur ≤ o p
  | .swapLink prev node _ => ∀ p, prev = some p → o node ≤ o p
  | _ => True

/-- The origins after a step at `pc`: the node an `insert` allocates is its own origin, the
node a `swap` allocates inherits the origin of the node it replaces. -/
def ListPc.originStep (pc : ListPc α) (l : PartitionList α) (o : Nat → Nat) : Nat → Nat :=
  match pc with
  | .insert _ => Function.update o l.nodes.length l.nodes.length
  | .swapAlloc _ _ cur => Function.update o l.nodes.length (o cur)
  | _ => o

/-- The partition a swap in flight may still put into the list. -/
def ListPc.swapIn : ListPc α → Option α
  | .sizeCheck (.swap _ new) | .newIterator (.swap _ new) | .scan (.swap _ new) .. => some new
  | .swapAlloc new .. => some new
  | _ => none

/-- The partition a step at `pc` puts into a node it allocates. -/
def ListPc.allocVal : ListPc α → Option α
  | .insert p | .swapAlloc p .. => some p
  | _ => none

theorem ListPc.originStep_keep (pc : ListPc α) (l : PartitionList α) (o : Nat → Nat) :
    ∀ c < l.nodes.length, pc.originStep l o c = o c := by
  intro c hc
  unfold ListPc.originStep
  split <;> first | rfl | exact Function.update_noteq (Nat.ne_of_lt hc) _ _

/-- Another thread's step keeps a thread placed against the origins. -/
theorem ListPc.OriginPlaced.congr {o o' : Nat → Nat} {len : Nat} {ρ : Nat → Int}
    (hρ : ∀ c < len, o' c = o c) {pc : ListPc α} (hp : pc.Placed len ρ) (h : pc.OriginPlaced o) :
    pc.OriginPlaced o' := by
  cases pc with
  | removeNext _ _ cur | swapAlloc _ _ cur =>
    exact fun p hq => by rw [hρ _ hp.1, hρ _ (hp.2 p hq).1]; exact h p hq
  | removeLink _ _ cur _ =>
    refine ⟨fun p hq => ?_, fun n hn => ?_⟩
    · rw [hρ _ hp.1, hρ _ (hp.2.1 p hq).1]; exact h.1 p hq
    · rw [hρ _ hp.1, hρ _ (hp.2.2 n hn).1]; exact h.2 n hn
  | swapNext _ cur node =>
    refine ⟨by rw [hρ _ hp.1, hρ _ hp.2.1]; exact h.1, fun p hq => ?_⟩
    rw [hρ _ hp.1, hρ _ (hp.2.2.2 p hq).1]; exact h.2 p hq
  | swapLink _ node _ => exact fun p hq => by rw [hρ _ hp.1, hρ _ (hp.2 p hq).1]; exact h p hq
  | _ => trivial

/-- Thread `i`'s place once it is tracked: a traversal whose iterator stands behind `L`, or
returned. -/
def ListPc.Hidden (o : Nat → Nat) (L : Nat) : ListPc α → Prop
  | .traverseNext it | .traverseValue it => it.Behind o L
  | .done => True
  | _ => False

/-- The origins order the heap and every thread is placed against them. -/
structure OriginInv (o : Nat → Nat) (s : Config (SharedList α) (ListThread α)) : Prop where
  ordered : s.shared.list.OriginOrdered o
  placed : ∀ t ∈ s.calls, t.pc.OriginPlaced o

/-- Tracked from a point where the heap had `L` nodes: every node holding `p` has origin `L` or
above, no swap in flight may put `p` in, and thread `i` is a traversal whose iterator stands
behind `L` and which has not returned `p`. -/
structure MissAt (L : Nat) (p : α) (i : Nat) (o : Nat → Nat)
    (s : Config (SharedList α) (ListThread α)) : Prop where
  grown : L ≤ s.shared.list.nodes.length
  values : ∀ a, s.shared.list.valueAt a = some p → L ≤ o a
  noSwap : ∀ t ∈ s.calls, t.pc.swapIn ≠ some p
  hidden : ∀ t, s.calls[i]? = some t → t.pc.Hidden o L ∧ ∀ b, (p, b) ∉ t.seen

theorem OriginInv.init (l : PartitionList α) (tasks : List (ListTask α)) :
    OriginInv (fun _ => 0) (ListSystem.init l tasks) := by
  refine ⟨⟨fun _ => Nat.zero_le _, fun _ _ _ _ _ => le_rfl⟩, fun t ht => ?_⟩
  obtain ⟨task, -, rfl⟩ := List.mem_map.1 ht
  cases task <;> trivial

variable [DecidableEq α] (minTimestamp : α → Int)

/-- A step keeps the heap ordered by origins and the thread placed against them. -/
theorem listStep_originOrdered {sh : SharedList α} {t : ListThread α} {ρ : Nat → Int}
    {o : Nat → Nat} (hl : sh.list.RankedBy ρ) (ht : t.pc.Placed sh.list.nodes.length ρ)
    (ho : sh.list.OriginOrdered o) (hop : t.pc.OriginPlaced o) :
    (listStep minTimestamp sh t).1.list.OriginOrdered (t.pc.originStep sh.list o) ∧
      (listStep minTimestamp sh t).2.pc.OriginPlaced (t.pc.originStep sh.list o) := by
  rcases sh with ⟨l, cl⟩
  rcases t with ⟨pc, snap, seen⟩
  dsimp only at hl ht ho
  cases pc <;> dsimp only [listStep, ListPc.originStep]
  case insert p =>
    exact ⟨ho.alloc hl ⟨p, l.head⟩ _ le_rfl fun b hb => ⟨hl.head_lt b hb, ho.le_self b |>.trans
      (Nat.le_of_lt (hl.head_lt b hb))⟩, trivial⟩
  case insertSetHead | insertAdd | removeSetTail | removeClearCache | removeAdd | swapSetTail =>
    exact ⟨ho.of_nodes rfl, trivial⟩
  case sizeCheck op =>
    exact ⟨ho, by split_ifs <;> trivial⟩
  case newIterator | traverse | traverseValue => exact ⟨ho, trivial⟩
  case scan op prev it =>
    refine ⟨?_, ?_⟩ <;> split <;> (try split_ifs) <;> try exact ho
    all_goals try trivial
    rename_i cur hcur _
    cases op <;> exact fun p hp => by
      have hp' := ht.2 p hp
      simp only [PartitionList.next, hp', Option.map_eq_some', IterPos.node.injEq,
        exists_eq_right] at hcur
      exact ho.getNext hcur
  case removeNext cleanOk prev cur =>
    exact ⟨ho, And.intro hop fun n hn => ho.getNext hn⟩
  case removeLink cleanOk prev cur next =>
    rcases prev with _ | p <;> [skip; rcases next with _ | n] <;> dsimp only
    · exact ⟨ho.of_nodes rfl, trivial⟩
    · exact ⟨ho.setNext (fun _ h => by cases h), trivial⟩
    · exact ⟨ho.setNext fun b hb => (hop.2 b hb).trans (hop.1 p rfl), trivial⟩
  case removeClean => exact ⟨ho, by split_ifs <;> trivial⟩
  case swapAlloc new prev cur =>
    obtain ⟨hcur, hprev⟩ := ht
    have hne : cur ≠ l.nodes.length := Nat.ne_of_lt hcur
    refine ⟨ho.alloc hl ⟨new, l.getNext cur⟩ _ ((ho.le_self cur).trans hcur.le)
      fun b hb => ⟨(hl.getNext hb).1, ho.getNext hb⟩, ?_, fun p hp => ?_⟩
    · simp [PartitionList.alloc, Function.update_noteq hne]
    · simpa [Function.update_noteq hne, Function.update_noteq (Nat.ne_of_lt (hprev p hp).1)]
        using hop p hp
  case swapNext prev cur node =>
    exact ⟨ho, fun p hp => hop.1 ▸ hop.2 p hp⟩
  case swapLink prev node next =>
    rcases prev with _ | p <;> [skip; rcases next with _ | n] <;> dsimp only
    · exact ⟨ho.of_nodes rfl, trivial⟩
    all_goals exact ⟨ho.setNext fun b hb => Option.some.inj hb ▸ hop p rfl, trivial⟩
  case traverseNext it => exact ⟨ho, by split_ifs <;> trivial⟩
  case done | failed => exact ⟨ho, trivial⟩

/-- A step leaves the partitions of existing nodes alone and allocates at most one node, at
the heap's end, holding the partition its point names. -/
theorem listStep_valueAt (sh : SharedList α) (t : ListThread α) {a : Nat} {v : α}
    (h : (listStep minTimestamp sh t).1.list.valueAt a = some v) :
    sh.list.valueAt a = some v ∨ a = sh.list.nodes.length ∧ t.pc.allocVal = some v := by
  rcases t with ⟨pc, snap, seen⟩
  have halloc : ∀ n : PartitionNode α, (sh.list.alloc n).1.valueAt a = some v →
      sh.list.valueAt a = some v ∨ a = sh.list.nodes.length ∧ n.val = v := by
    intro n hn
    simp only [PartitionList.valueAt, PartitionList.alloc, List.getElem?_append,
      Option.map_eq_some'] at hn ⊢
    split_ifs at hn with ha
    · exact Or.inl hn
    · obtain ⟨m, hm, rfl⟩ := hn
      obtain ⟨hlt, hnm⟩ := List.getElem?_eq_some_iff.1 hm
      obtain rfl : a = sh.list.nodes.length := by simp at hlt; omega
      exact Or.inr ⟨rfl, by simp at hnm; rw [hnm]⟩
  cases pc <;> dsimp only [listStep] at h
  case insert p => exact (halloc _ h).imp_right fun h => ⟨h.1, congrArg some h.2⟩
  case swapAlloc new prev cur => exact (halloc _ h).imp_right fun h => ⟨h.1, congrArg some h.2⟩
  all_goals
    left
    (try split at h) <;> (try split_ifs at h) <;> first | exact h | simpa using h

/-- A step never makes a thread a swap that puts in a new partition. -/
theorem listStep_swapIn (sh : SharedList α) (t : ListThread α) {p : α}
    (h : (listStep minTimestamp sh t).2.pc.swapIn = some p) : t.pc.swapIn = some p := by
  rcases t with ⟨pc, snap, seen⟩
  cases pc <;> dsimp only [listStep] at h ⊢ <;> (try split at h) <;> (try split_ifs at h) <;>
    first | exact h | (cases ‹ScanFor α›) <;> simp_all [ListPc.swapIn, ScanFor.found] |
      simp [ListPc.swapIn] at h

/-- Every step keeps the origins' invariant, with the origins extended to what it allocates. -/
theorem OriginInv.step {ρ : Nat → Int} {o : Nat → Nat} {s : Config (SharedList α) (ListThread α)}
    (hr : RankInv ρ s) (h : OriginInv o s) {i : Nat} {t : ListThread α} (hc : s.calls[i]? = some t)
    (x : Unit) :
    OriginInv (t.pc.originStep s.shared.list o) (s.stepCall (listThreads minTimestamp) i x) := by
  have ht : t ∈ s.calls := List.mem_iff_getElem?.2 ⟨i, hc⟩
  obtain ⟨hord, hpl⟩ := listStep_originOrdered minTimestamp hr.ranked (hr.placed t ht)
    h.ordered (h.placed t ht)
  rw [stepCall_listThreads minTimestamp hc]
  refine ⟨hord, fun u hu => ?_⟩
  rcases mem_set_cases hu with rfl | ⟨j, -, hj⟩
  · exact hpl
  · have hu' : u ∈ s.calls := List.mem_iff_getElem?.2 ⟨j, hj⟩
    exact (h.placed u hu').congr (t.pc.originStep_keep _ o) (hr.placed u hu')

/-- Every step keeps the tracking: a new node holding `p` is one an insert allocates, of its
own origin; the tracked traversal moves along pointers that never raise the origin, and what
it returns comes from nodes behind `L`, none of which holds `p`. -/
theorem MissAt.step {ρ : Nat → Int} {o : Nat → Nat} {s : Config (SharedList α) (ListThread α)}
    {L : Nat} {p : α} {i' : Nat} (hr : RankInv ρ s) (ho : OriginInv o s) (h : MissAt L p i' o s)
    {i : Nat} {t : ListThread α} (hc : s.calls[i]? = some t) (hrun : t.returned = false)
    (x : Unit) :
    MissAt L p i' (t.pc.originStep s.shared.list o) (s.stepCall (listThreads minTimestamp) i x) := by
  have ht : t ∈ s.calls := List.mem_iff_getElem?.2 ⟨i, hc⟩
  have hst := listStep_rankStep minTimestamp hr.ranked (hr.placed t ht) hrun
  have hkeep := t.pc.originStep_keep s.shared.list o
  rw [stepCall_listThreads minTimestamp hc]
  refine ⟨h.grown.trans hst.grow, fun a ha => ?_, fun u hu => ?_, fun u hu => ?_⟩
  · rcases listStep_valueAt minTimestamp _ _ ha with ha' | ⟨rfl, hv⟩
    · have hal : a < s.shared.list.nodes.length := by
        obtain ⟨m, hm, -⟩ := Option.map_eq_some'.1 ha'
        exact (List.getElem?_eq_some_iff.1 hm).1
      exact hkeep a hal ▸ h.values a ha'
    · rcases hpc : t.pc with _ | _ | _ | _ | _ | _ | _ | _ | _ | _ | _ | _ | new <;>
        rw [hpc] at hv <;> simp only [ListPc.allocVal, reduceCtorEq] at hv
      · simp only [ListPc.originStep, Function.update_same]
        exact h.grown
      · obtain rfl := Option.some.inj hv
        exact absurd (by rw [hpc]; rfl) (h.noSwap t ht)
  · rcases mem_set_cases hu with rfl | ⟨j, -, hj⟩
    · exact fun hp => h.noSwap t ht (listStep_swapIn minTimestamp _ _ hp)
    · exact h.noSwap u (List.mem_iff_getElem?.2 ⟨j, hj⟩)
  · by_cases hii : i = i'
    · subst hii
      rw [List.getElem?_set_self (List.getElem?_eq_some_iff.1 hc).1, Option.some.injEq] at hu
      subst hu
      obtain ⟨hhid, hseen⟩ := h.hidden t hc
      rcases t with ⟨pc, snap, seen⟩
      cases pc with
      | traverseNext it =>
        refine ⟨?_, hseen⟩
        dsimp only [listStep, ListPc.originStep]
        split_ifs
        · exact hhid.next ho.ordered
        · trivial
      | traverseValue it =>
        refine ⟨hhid, fun b hb => ?_⟩
        simp only [listStep, List.mem_append, List.mem_map, Option.mem_toList] at hb
        rcases hb with hb | ⟨v, hv, hvb⟩
        · exact hseen b hb
        · obtain ⟨rfl, -⟩ := Prod.mk.inj hvb
          rcases it with ⟨_ | (nx | a)⟩ <;> simp only [PartitionList.value] at hv
          · cases hv
          · cases hv
          · exact absurd (h.values a hv) (Nat.not_le.2 hhid)
      | done => simp [ListThread.returned] at hrun
      | _ => simp [ListPc.Hidden] at hhid
    · rw [List.getElem?_set_ne hii] at hu
      obtain ⟨hhid, hseen⟩ := h.hidden u hu
      refine ⟨?_, hseen⟩
      have hpl := hr.placed u (List.mem_iff_getElem?.2 ⟨i', hu⟩)
      rcases u with ⟨pc, snap, seen⟩
      cases pc with
      | traverseNext it | traverseValue it => exact hhid.congr hkeep hpl
      | done => trivial
      | _ => simp [ListPc.Hidden] at hhid

/-- Ghost ranks and origins for which both invariants hold at every reachable point. -/
theorem reachable_ghosts {l : PartitionList α} {ρ : Nat → Int} (hl : l.RankedBy ρ)
    {tasks : List (ListTask α)} {s : Config (SharedList α) (ListThread α)}
    (h : Config.Reachable (listThreads minTimestamp) (ListSystem.init l tasks) s) :
    ∃ ρ' o, RankInv ρ' s ∧ OriginInv o s := by
  induction h with
  | init => exact ⟨ρ, fun _ => 0, RankInv.init hl tasks, OriginInv.init l tasks⟩
  | tail _ hs ih =>
    obtain ⟨ρ₁, o, hr, ho⟩ := ih
    obtain ⟨ρ₂, hr₂, -⟩ := hr.step minTimestamp hs
    obtain ⟨hc, -, x⟩ := hs
    exact ⟨ρ₂, _, hr₂, ho.step minTimestamp hr hc x⟩

theorem MissAt.reachable {L : Nat} {p : α} {i : Nat} {s₁ s₂ : Config (SharedList α) (ListThread α)}
    (h₂ : Config.Reachable (listThreads minTimestamp) s₁ s₂)
    (h : ∃ ρ o, RankInv ρ s₁ ∧ OriginInv o s₁ ∧ MissAt L p i o s₁) :
    ∃ ρ o, RankInv ρ s₂ ∧ OriginInv o s₂ ∧ MissAt L p i o s₂ := by
  induction h₂ with
  | init => exact h
  | tail _ hs ih =>
    obtain ⟨ρ₁, o, hr, ho, hm⟩ := ih
    obtain ⟨ρ₂, hr₂, -⟩ := hr.step minTimestamp hs
    obtain ⟨hc, hrun, x⟩ := hs
    exact ⟨ρ₂, _, hr₂, ho.step minTimestamp hr hc x, hm.step minTimestamp hr ho hc hrun x⟩

/-- A traversal under way sees no partition that only an insert started later puts in,
however the steps of all calls interleave: if at some point thread `i` is a traversal that
has made its iterator and has not returned `p`, no node holds `p`, and no swap in flight puts
`p` in, then that traversal never returns `p`, whichever inserts of `p` then run. -/
theorem traverse_misses_later_inserts {l : PartitionList α} {ρ : Nat → Int} (hl : l.RankedBy ρ)
    {tasks : List (ListTask α)} {s₁ s₂ : Config (SharedList α) (ListThread α)} {i : Nat}
    {t₁ t₂ : ListThread α} {p : α}
    (h₁ : Config.Reachable (listThreads minTimestamp) (ListSystem.init l tasks) s₁)
    (hi₁ : s₁.calls[i]? = some t₁) (htrav : ∃ it, t₁.pc = .traverseNext it ∨ t₁.pc = .traverseValue it)
    (hseen : ∀ b, (p, b) ∉ t₁.seen) (hheap : ∀ a, s₁.shared.list.valueAt a ≠ some p)
    (hswap : ∀ t ∈ s₁.calls, t.pc.swapIn ≠ some p)
    (h₂ : Config.Reachable (listThreads minTimestamp) s₁ s₂) (hi₂ : s₂.calls[i]? = some t₂) :
    ∀ b, (p, b) ∉ t₂.seen := by
  obtain ⟨ρ₁, o, hr, ho⟩ := reachable_ghosts minTimestamp hl h₁
  have hpl := hr.placed t₁ (List.mem_iff_getElem?.2 ⟨i, hi₁⟩)
  have hhid : t₁.pc.Hidden o s₁.shared.list.nodes.length := by
    obtain ⟨it, hit | hit⟩ := htrav <;> rw [hit] at hpl ⊢ <;>
      exact PartitionIterator.Placed.behind ho.ordered.le_self hpl
  have hm : MissAt s₁.shared.list.nodes.length p i o s₁ :=
    ⟨le_rfl, fun a ha => absurd ha (hheap a), hswap, fun t ht => by
      rw [hi₁, Option.some.injEq] at ht
      exact ht ▸ ⟨hhid, hseen⟩⟩
  obtain ⟨_, _, -, -, hm₂⟩ := MissAt.reachable minTimestamp h₂ ⟨ρ₁, o, hr, ho, hm⟩
  exact (hm₂.hidden t₂ hi₂).2

/-- The sample calls: an insert of partition `1`, a traversal, and an insert of partition `2`. -/
def visTasks : List (ListTask Int) := [.insert 1, .traverse, .insert 2]

/-- The first insert runs, and the traversal makes its iterator. -/
def visRun₁ : Config (SharedList Int) (ListThread Int) :=
  (ListSystem.init newPartitionList visTasks).run (listThreads id)
    [(0, ()), (0, ()), (0, ()), (1, ())]

/-- Then the second insert runs beside the rest of the traversal. -/
def visRun₂ : Config (SharedList Int) (ListThread Int) :=
  visRun₁.run (listThreads id) [(2, ()), (2, ()), (1, ()), (2, ()), (1, ()), (1, ())]

/-- The second insert completes, partition `2` is the head, and the traversal returns only
partition `1`. -/
theorem traverse_misses_later_inserts_sample :
    Config.Reachable (listThreads id) (ListSystem.init newPartitionList visTasks) visRun₁ ∧
      Config.Reachable (listThreads id) visRun₁ visRun₂ ∧
      visRun₂.shared.list.getHead.1 = some 2 ∧
      visRun₂.calls[1]? = some ⟨.done, [], [(1, false)]⟩ ∧
      ∀ b, ((2 : Int), b) ∉ [((1 : Int), false)] := by
  have h₁ : Config.Reachable (listThreads id) (ListSystem.init newPartitionList visTasks) visRun₁ :=
    Config.Reachable.run .init (by decide)
  have h₂ : Config.Reachable (listThreads id) visRun₁ visRun₂ := Config.Reachable.run .init (by decide)
  have hnodes : visRun₁.shared.list.nodes = [⟨1, none⟩] := by decide
  refine ⟨h₁, h₂, by decide, by decide, traverse_misses_later_inserts id
    (PartitionList.newPartitionList_rankedBy fun _ => 0) h₁
    (show visRun₁.calls[1]? = some ⟨.traverseNext ⟨some (.dummy (some 0))⟩, [], []⟩ by decide)
    ⟨⟨some (.dummy (some 0))⟩, Or.inl rfl⟩
    (show ∀ b, ((2 : Int), b) ∉ ([] : List (Int × Bool)) from fun _ h => nomatch h) (fun a h => ?_)
    (show ∀ t ∈ visRun₁.calls, t.pc.swapIn ≠ some (2 : Int) by decide) h₂
    (show visRun₂.calls[1]? = some ⟨.done, [], [(1, false)]⟩ by decide)⟩
  rw [PartitionList.valueAt, hnodes] at h
  rcases a with _ | a <;> simp at h

end EmbedTSDB
