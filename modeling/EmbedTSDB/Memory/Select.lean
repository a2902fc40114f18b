import EmbedTSDB.Memory.Interleaving

/-! The range query `selectPoints` of `memoryMetric`. It finds its bounds with `sort.Search`,
the binary search of Go's `sort` package, over the in-order points, and returns the re-slice
between them. On a well-formed series both searches return the number of points earlier
than their bound, so the query returns the in-order points of `[start, end)`, unless some
in-order point lies in `[end, start)`: then the start index passes the end index and the
re-slice panics. Out-of-order points are never returned. -/
namespace EmbedTSDB

/-- The loop of `sort.Search` on `[i, j)`. The midpoint `int(uint(i+j) >> 1)` is
`(i + j) / 2` for the non-negative `i + j` the loop meets. `f` is the caller's closure,
`none` when it panics. -/
def searchLoop (f : Int → Option Bool) (i j : Int) : Option Int :=
  if i < j then
    match f ((i + j) / 2) with
    | some false => searchLoop f ((i + j) / 2 + 1) j
    | some true => searchLoop f i ((i + j) / 2)
    | none => none
  else some i
termination_by (j - i).toNat
decreasing_by all_goals omega

/-- `sort.Search(n, f)`: the least index of `[0, n)` at which `f` holds, `n` for none, when `f`
is false and then true on `[0, n)`. -/
def sortSearch (n : Int) (f : Int → Option Bool) : Option Int := searchLoop f 0 n

/-- The re-slice `s[lo:hi]`; `none` is the panic of bounds out of range. Go allows `hi` up
to the capacity; the capacity is not modelled, so a bound past the length panics here. -/
def sliceRange {α : Type} (s : List α) (lo hi : Int) : Option (List α) :=
  if 0 ≤ lo ∧ lo ≤ hi ∧ hi ≤ s.length then some ((s.drop lo.toNat).take (hi - lo).toNat)
  else none

/-- The closure `m.points[i].Timestamp >= t` of `selectPoints`; an index out of range
panics. -/
def timestampAtLeast (points : List DataPoint) (t i : Int) : Option Bool :=
  if 0 ≤ i then (points[i.toNat]?).map fun p => decide (t ≤ p.timestamp) else none

namespace MemoryMetric

/-- `selectPoints(start, end)`. The loads of `size`,
`minTimestamp` and `maxTimestamp` and the read-locked searches run as one step here; `none`
is a panic. -/
def selectPoints (m : MemoryMetric) (start «end» : Int) : Option (List DataPoint) :=
  if «end» ≤ m.minTimestamp then some []
  else do
    let startIdx ← (if start ≤ m.minTimestamp then some 0
      else sortSearch m.size (timestampAtLeast m.points start))
    let endIdx ← (if «end» > m.maxTimestamp then some m.size
      else sortSearch m.size (timestampAtLeast m.points «end»))
    sliceRange m.points startIdx endIdx

end MemoryMetric

/-! ### The binary search over in-order points -/

section Search

variable {xs : List DataPoint} {t : Int}

/-- The number of points earlier than `t`: where `sort.Search` stops on in-order points. -/
def earlierCount (xs : List DataPoint) (t : Int) : Nat := xs.countP fun p => p.timestamp < t

theorem sorted_le (hs : xs.Pairwise fun p q => p.timestamp < q.timestamp) {k l : Nat}
    (hkl : k ≤ l) (hl : l < xs.length) :
    xs[k].timestamp ≤ xs[l].timestamp := by
  rcases Nat.lt_or_eq_of_le hkl with hlt | rfl
  · exact Int.le_of_lt (List.pairwise_iff_getElem.1 hs k l (by omega) hl hlt)
  · exact Int.le_refl _

/-- Where `sort.Search` stands when it looks for the first point not earlier than `t`: the
points before `i` are earlier than `t`, and those from `j` on are not. -/
structure SearchInv (xs : List DataPoint) (t i j : Int) : Prop where
  nonneg : 0 ≤ i
  le : i ≤ j
  le_length : j ≤ xs.length
  below : ∀ k (hk : k < xs.length), (k : Int) < i → xs[k].timestamp < t
  above : ∀ k (hk : k < xs.length), j ≤ (k : Int) → t ≤ xs[k].timestamp

variable (xs t) in
theorem SearchInv.init : SearchInv xs t 0 xs.length :=
  ⟨Int.le_refl _, by omega, Int.le_refl _, fun _ _ hk => by omega, fun _ hk hle => by omega⟩

/-- The search on in-order points returns, and where it stops both halves of the invariant
meet. -/
theorem searchLoop_sorted (hs : xs.Pairwise fun p q => p.timestamp < q.timestamp) {i j : Int}
    (h : SearchInv xs t i j) :
    ∃ r, searchLoop (timestampAtLeast xs t) i j = some r ∧ SearchInv xs t r r := by
  induction i, j using searchLoop.induct (timestampAtLeast xs t) with
  | case1 i j hij hf ih =>
    rw [searchLoop, if_pos hij, hf]
    obtain ⟨k, hk, hkeq⟩ : ∃ k, k < xs.length ∧ ((i + j) / 2 : Int) = k :=
      ⟨((i + j) / 2).toNat, by have := h.le_length; have := h.nonneg; omega,
        by have := h.nonneg; omega⟩
    have hlt : xs[k].timestamp < t := by
      simp [timestampAtLeast, hkeq, List.getElem?_eq_getElem hk] at hf
      omega
    refine ih ⟨by omega, by omega, h.le_length, fun k' hk' hlt' => ?_, h.above⟩
    exact Int.lt_of_le_of_lt (sorted_le hs (by omega) hk) hlt
  | case2 i j hij hf ih =>
    rw [searchLoop, if_pos hij, hf]
    obtain ⟨k, hk, hkeq⟩ : ∃ k, k < xs.length ∧ ((i + j) / 2 : Int) = k :=
      ⟨((i + j) / 2).toNat, by have := h.le_length; have := h.nonneg; omega,
        by have := h.nonneg; omega⟩
    have hle : t ≤ xs[k].timestamp := by
      simp [timestampAtLeast, hkeq, List.getElem?_eq_getElem hk] at hf
      omega
    refine ih ⟨h.nonneg, by omega, by omega, h.below, fun k' hk' hle' => ?_⟩
    exact Int.le_trans hle (sorted_le hs (by omega) hk')
  | case3 i j hij hf =>
    have hk : ((i + j) / 2).toNat < xs.length := by
      have := h.le_length; have := h.nonneg; omega
    simp [timestampAtLeast, List.getElem?_eq_getElem hk, show 0 ≤ (i + j) / 2 by
      have := h.nonneg; omega] at hf
  | case4 i j hij =>
    rw [searchLoop, if_neg hij]
    exact ⟨i, rfl, by rwa [show j = i by have := h.le; omega] at h⟩

/-- Where the two halves of the invariant meet is the number of points earlier than `t`. -/
theorem SearchInv.eq_earlierCount {r : Int} (h : SearchInv xs t r r) :
    r = earlierCount xs t := by
  obtain ⟨n, rfl⟩ : ∃ n : Nat, r = n := ⟨r.toNat, by have := h.nonneg; omega⟩
  have htake : (xs.take n).countP (fun p => p.timestamp < t) = n := by
    rw [List.countP_eq_length.2, List.length_take_of_le (by have := h.le_length; omega)]
    intro a ha
    obtain ⟨k, hk, rfl⟩ := List.getElem_of_mem ha
    simpa [List.getElem_take] using h.below k (by simp at hk; omega) (by simp at hk; omega)
  have hdrop : (xs.drop n).countP (fun p => p.timestamp < t) = 0 := by
    rw [List.countP_eq_zero]
    intro a ha
    obtain ⟨k, hk, rfl⟩ := List.getElem_of_mem ha
    simpa [List.getElem_drop] using Int.not_lt.2 (h.above (n + k) (by simp at hk; omega) (by omega))
  rw [earlierCount, ← List.take_append_drop n xs, List.countP_append, htake, hdrop]
  simp

/-- `sort.Search` over in-order points stops at the number of points earlier than `t`. -/
theorem sortSearch_sorted (hs : xs.Pairwise fun p q => p.timestamp < q.timestamp) :
    sortSearch xs.length (timestampAtLeast xs t) = some (earlierCount xs t : Int) := by
  obtain ⟨r, hr, hinv⟩ := searchLoop_sorted hs (SearchInv.init xs t)
  rw [sortSearch, hr, hinv.eq_earlierCount]

theorem earlierCount_cons (x : DataPoint) (xs : List DataPoint) (t : Int) :
    earlierCount (x :: xs) t = earlierCount xs t + if x.timestamp < t then 1 else 0 := by
  simp [earlierCount, List.countP_cons]

theorem earlierCount_eq_zero (h : ∀ p ∈ xs, t ≤ p.timestamp) : earlierCount xs t = 0 :=
  List.countP_eq_zero.2 fun p hp => by simpa using Int.not_lt.2 (h p hp)

/-- The points before where the search stops are those earlier than `t`. -/
theorem take_earlierCount (hs : xs.Pairwise fun p q => p.timestamp < q.timestamp) :
    xs.take (earlierCount xs t) = xs.filter fun p => p.timestamp < t := by
  induction xs with
  | nil => rfl
  | cons x xs ih =>
    obtain ⟨hx, hs⟩ := List.pairwise_cons.1 hs
    by_cases h : x.timestamp < t
    · simp [earlierCount_cons, h, ih hs]
    · have hzero : earlierCount xs t = 0 :=
        earlierCount_eq_zero fun p hp => by have := hx p hp; omega
      rw [earlierCount_cons, hzero, if_neg h, List.filter_eq_nil_iff.2 fun p hp => ?_]
      · rfl
      · rcases List.mem_cons.1 hp with rfl | hp
        · simpa using h
        · have := hx p hp
          simp only [decide_eq_true_eq]
          omega

/-- The points from where the search stops on are those not earlier than `t`. -/
theorem drop_earlierCount (hs : xs.Pairwise fun p q => p.timestamp < q.timestamp) :
    xs.drop (earlierCount xs t) = xs.filter fun p => t ≤ p.timestamp := by
  induction xs with
  | nil => rfl
  | cons x xs ih =>
    obtain ⟨hx, hs⟩ := List.pairwise_cons.1 hs
    by_cases h : x.timestamp < t
    · simp [earlierCount_cons, h, ih hs, List.filter_cons, Int.not_le.2 h]
    · have hzero : earlierCount xs t = 0 :=
        earlierCount_eq_zero fun p hp => by have := hx p hp; omega
      rw [earlierCount_cons, hzero, if_neg h, List.filter_eq_self.2 fun p hp => ?_]
      · rfl
      · rcases List.mem_cons.1 hp with rfl | hp
        · simpa using Int.not_lt.1 h
        · have := hx p hp
          simp only [decide_eq_true_eq]
          omega

/-- The search for `start` stops no later than the search for `end` exactly when no point
lies in `[end, start)`. -/
theorem earlierCount_le_iff (start «end» : Int) :
    earlierCount xs start ≤ earlierCount xs «end» ↔
      ∀ p ∈ xs, ¬ («end» ≤ p.timestamp ∧ p.timestamp < start) := by
  constructor
  · rintro hle p hp ⟨h1, h2⟩
    have hE : earlierCount xs «end» = ((xs.filter fun q => q.timestamp < start).filter
        fun q => q.timestamp < «end»).length := by
      rw [earlierCount, List.countP_eq_length_filter, List.filter_filter]
      congr 1
      exact List.filter_congr fun q _ => by
        by_cases hq : q.timestamp < «end» <;> simp [hq]
        omega
    have hlt : ((xs.filter fun q => q.timestamp < start).filter
        fun q => q.timestamp < «end»).length < (xs.filter fun q => q.timestamp < start).length :=
      List.length_filter_lt_length_iff_exists.2
        ⟨p, List.mem_filter.2 ⟨hp, by simpa using h2⟩, by simpa using Int.not_lt.2 h1⟩
    rw [earlierCount, List.countP_eq_length_filter] at hle
    omega
  · intro h
    exact List.countP_mono_left fun p hp hlt => by
      have := h p hp
      simp only [decide_eq_true_eq] at hlt ⊢
      omega

/-- When the start index does not pass the end index, the points between them are those of
`[start, «end»)`. -/
theorem slice_earlierCount (hs : xs.Pairwise fun p q => p.timestamp < q.timestamp)
    {start «end» : Int} (hle : earlierCount xs start ≤ earlierCount xs «end») :
    (xs.drop (earlierCount xs start)).take (earlierCount xs «end» - earlierCount xs start) =
      xs.filter fun p => start ≤ p.timestamp ∧ p.timestamp < «end» := by
  have hno := (earlierCount_le_iff start «end»).1 hle
  have hsplit : earlierCount xs «end» = earlierCount xs start +
      earlierCount (xs.filter fun p => start ≤ p.timestamp) «end» := by
    have := List.length_eq_countP_add_countP (fun p => decide (p.timestamp < start))
      (xs.filter fun p => p.timestamp < «end»)
    rw [← List.countP_eq_length_filter, List.countP_filter, List.countP_filter] at this
    rw [earlierCount, this, earlierCount, earlierCount, List.countP_filter]
    congr 1
    · exact List.countP_congr fun p hp => by
        have := hno p hp
        simp only [Bool.and_eq_true, decide_eq_true_eq]
        omega
    · exact List.countP_congr fun p _ => by
        simp only [Bool.and_eq_true, decide_eq_true_eq, decide_not, Bool.not_eq_true',
          decide_eq_false_iff_not]
        omega
  rw [drop_earlierCount hs, hsplit, Nat.add_sub_cancel_left, take_earlierCount (hs.filter _),
    List.filter_filter]
  exact List.filter_congr fun p _ => by
    by_cases h1 : start ≤ p.timestamp <;> by_cases h2 : p.timestamp < «end» <;> simp [h1, h2]

end Search

/-! ### The query on a well-formed series -/

namespace MemoryMetric

variable {m : MemoryMetric}

theorem Inv.min_le (h : m.Inv) : ∀ p ∈ m.points, m.minTimestamp ≤ p.timestamp := by
  intro p hp
  cases hpts : m.points with
  | nil => simp [hpts] at hp
  | cons q qs =>
    have hq := h.min_eq q (by simp [hpts])
    have hs := h.sorted
    rw [hpts] at hp hs
    rcases List.mem_cons.1 hp with rfl | hp
    · exact hq ▸ Int.le_refl _
    · have := List.rel_of_pairwise_cons hs hp
      omega

theorem Inv.le_max (h : m.Inv) : ∀ p ∈ m.points, p.timestamp ≤ m.maxTimestamp := by
  intro p hp
  obtain ⟨last, hlast⟩ := Option.isSome_iff_exists.1
    (List.getLast?_isSome.2 (List.ne_nil_of_mem hp))
  rw [h.max_eq last hlast]
  exact le_last_of_sorted h.sorted hlast p hp

/-- Both branches of the start index give the number of points earlier than `start`. -/
theorem Inv.startIdx (h : m.Inv) (start : Int) :
    (if start ≤ m.minTimestamp then some 0
      else sortSearch m.size (timestampAtLeast m.points start)) =
        some (earlierCount m.points start : Int) := by
  split
  · rw [earlierCount_eq_zero fun p hp => by have := h.min_le p hp; omega]
    rfl
  · rw [h.size_eq]
    exact sortSearch_sorted h.sorted

/-- Both branches of the end index give the number of points earlier than `end`. -/
theorem Inv.endIdx (h : m.Inv) («end» : Int) :
    (if «end» > m.maxTimestamp then some m.size
      else sortSearch m.size (timestampAtLeast m.points «end»)) =
        some (earlierCount m.points «end» : Int) := by
  split
  · rw [h.size_eq, earlierCount, List.countP_eq_length.2 fun p hp => by
      have := h.le_max p hp; simp; omega]
  · rw [h.size_eq]
    exact sortSearch_sorted h.sorted

/-- On a well-formed series `selectPoints(start, end)` panics exactly when `end` is past the
first point and some in-order point lies in `[end, start)`; otherwise it returns the in-order
points of `[start, end)`, in order. -/
theorem Inv.selectPoints (h : m.Inv) (start «end» : Int) :
    m.selectPoints start «end» =
      if m.minTimestamp < «end» ∧ ∃ p ∈ m.points, «end» ≤ p.timestamp ∧ p.timestamp < start then
        none
      else some (m.points.filter fun p => start ≤ p.timestamp ∧ p.timestamp < «end») := by
  unfold MemoryMetric.selectPoints
  by_cases hstop : «end» ≤ m.minTimestamp
  · rw [if_pos hstop, if_neg fun hc => by omega]
    exact congrArg some
      (List.filter_eq_nil_iff.2 fun p hp => by have := h.min_le p hp; simp; omega).symm
  rw [if_neg hstop]
  rw [h.startIdx, h.endIdx]
  have hlen : earlierCount m.points «end» ≤ m.points.length := List.countP_le_length _
  by_cases hle : earlierCount m.points start ≤ earlierCount m.points «end»
  · have hno := (earlierCount_le_iff start «end»).1 hle
    rw [if_neg fun ⟨_, p, hp, hc⟩ => hno p hp hc]
    simp only [Option.bind_eq_bind, Option.some_bind, sliceRange]
    rw [if_pos ⟨by omega, by omega, by omega⟩, ← slice_earlierCount h.sorted hle]
    congr 3
    omega
  · obtain ⟨p, hp, hc⟩ : ∃ p ∈ m.points, «end» ≤ p.timestamp ∧ p.timestamp < start := by
      by_contra hne
      exact hle ((earlierCount_le_iff start «end»).2 fun p hp hc => hne ⟨p, hp, hc⟩)
    rw [if_pos ⟨by omega, p, hp, hc⟩]
    simp only [Option.bind_eq_bind, Option.some_bind, sliceRange]
    rw [if_neg fun hc => by omega]

end MemoryMetric

/-- A query run between two steps of any interleaving of `insertPoint` calls on a fresh
series returns the in-order points of `[start, end)`, or panics as `Inv.selectPoints` says. -/
theorem selectPoints_reachable {points : List DataPoint} {s : Config MemoryMetric InsertCall}
    (h : Config.Reachable insertPointCalls (MetricSystem.init points) s) (start «end» : Int) :
    s.shared.selectPoints start «end» =
      if s.shared.minTimestamp < «end» ∧
          ∃ p ∈ s.shared.points, «end» ≤ p.timestamp ∧ p.timestamp < start then none
      else some (s.shared.points.filter fun p => start ≤ p.timestamp ∧ p.timestamp < «end») :=
  (MetricSystem.reachable_inv h).metric.selectPoints start «end»

/-- Three points inserted in order into a fresh series, each call run to its end before the
next one starts. -/
def orderedRun : Config MemoryMetric InsertCall :=
  (MetricSystem.init [⟨1, 0⟩, ⟨2, 0⟩, ⟨3, 0⟩]).run insertPointCalls
    [(0, ()), (0, ()), (1, ()), (1, ()), (1, ()), (2, ()), (2, ()), (2, ())]

/-- On the series of `orderedRun`, `selectPoints(3, 2)` finds start index 2 and end index 1,
and the re-slice `points[2:1]` panics. -/
theorem selectPoints_reversed_range_panics :
    Config.Reachable insertPointCalls (MetricSystem.init [⟨1, 0⟩, ⟨2, 0⟩, ⟨3, 0⟩]) orderedRun ∧
      orderedRun.shared.selectPoints 3 2 = none := by
  have hrun : Config.Reachable insertPointCalls (MetricSystem.init [⟨1, 0⟩, ⟨2, 0⟩, ⟨3, 0⟩])
      orderedRun := .run .init (by decide)
  refine ⟨hrun, ?_⟩
  rw [selectPoints_reachable hrun, if_pos (by decide)]

end EmbedTSDB
