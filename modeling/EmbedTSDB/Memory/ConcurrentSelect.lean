import EmbedTSDB.Memory.Select

/-! Queries beside inserts on one series. `selectPoints` loads `size`, `minTimestamp` and
`maxTimestamp` atomically outside the lock and only then searches the in-order points under
the read lock, so `insertPoint` calls may run between its loads. However they interleave, a
query with `start ≤ end` never panics: it returns the points of `[start, end)` among a prefix
of the in-order points, and that prefix holds every point stored in order before the query
began. -/
namespace EmbedTSDB

/-- Where a call of `selectPoints` stands: before each of its atomic loads, before the
read-locked searches with the values it loaded, or returned (`none` is a panic). -/
inductive SelectPc
  | loadSize
  | loadMin (size : Int)
  | loadMax (size minTimestamp : Int)
  | locked (size minTimestamp maxTimestamp : Int)
  | done (result : Option (List DataPoint))
  deriving DecidableEq, Repr

def SelectPc.isDone : SelectPc → Bool
  | .done _ => true
  | _ => false

/-- A call of `selectPoints(start, end)` in flight. -/
structure SelectCall where
  start : Int
  «end» : Int
  pc : SelectPc
  deriving DecidableEq, Repr

/-- The read-locked part of `selectPoints`, with the `size`, `minTimestamp` and
`maxTimestamp` the call loaded before it. -/
def selectLocked (points : List DataPoint) (size minTimestamp maxTimestamp start «end» : Int) :
    Option (List DataPoint) := do
  let startIdx ← (if start ≤ minTimestamp then some 0
    else sortSearch size (timestampAtLeast points start))
  let endIdx ← (if «end» > maxTimestamp then some size
    else sortSearch size (timestampAtLeast points «end»))
  sliceRange points startIdx endIdx

/-- One atomic step of `selectPoints` on the series `m`. The early return for
`end <= minTimestamp` follows the load of `maxTimestamp`. -/
def selectPointsStep (m : MemoryMetric) (c : SelectCall) : SelectPc :=
  match c.pc with
  | .loadSize => .loadMin m.size
  | .loadMin size => .loadMax size m.minTimestamp
  | .loadMax size minTimestamp =>
    if c.«end» ≤ minTimestamp then .done (some [])
    else .locked size minTimestamp m.maxTimestamp
  | .locked size minTimestamp maxTimestamp =>
    .done (selectLocked m.points size minTimestamp maxTimestamp c.start c.«end»)
  | .done r => .done r

/-- A call on one series. -/
inductive MetricCall
  | insert (c : InsertCall)
  | select (c : SelectCall)
  deriving DecidableEq, Repr

/-- `insertPoint` and `selectPoints` calls as a program of atomic steps on one series. -/
def metricCalls : Program Unit MemoryMetric MetricCall where
  step _ m
    | .insert c => ((insertPointCalls.step () m c).1, .insert (insertPointCalls.step () m c).2)
    | .select c => (m, .select { c with pc := selectPointsStep m c })
  returned
    | .insert c => insertPointCalls.returned c
    | .select c => c.pc.isDone

/-- A fresh series with one `insertPoint` call per point and one `selectPoints` call per
range, none of them started. -/
def MetricSystem.withQueries (points : List DataPoint) (ranges : List (Int × Int)) :
    Config MemoryMetric MetricCall :=
  ⟨MemoryMetric.fresh, points.map (fun p => .insert ⟨p, .loadSize⟩) ++
    ranges.map fun r => .select ⟨r.1, r.2, .loadSize⟩⟩

/-! ### The read-locked searches over a prefix -/

/-- `sort.Search` calls its closure only inside the range it searches. -/
theorem searchLoop_congr {f g : Int → Option Bool} {i j : Int}
    (h : ∀ k, i ≤ k → k < j → f k = g k) : searchLoop f i j = searchLoop g i j := by
  induction i, j using searchLoop.induct f with
  | case1 i j hij hf ih =>
    have hg := (h _ (by omega) (by omega)).symm.trans hf
    unfold searchLoop
    simp only [if_pos hij, hf, hg]
    exact ih fun k h1 h2 => h k (by omega) h2
  | case2 i j hij hf ih =>
    have hg := (h _ (by omega) (by omega)).symm.trans hf
    unfold searchLoop
    simp only [if_pos hij, hf, hg]
    exact ih fun k h1 h2 => h k h1 (by omega)
  | case3 i j hij hf =>
    have hg := (h _ (by omega) (by omega)).symm.trans hf
    unfold searchLoop
    simp only [if_pos hij, hf, hg]
  | case4 i j hij =>
    unfold searchLoop
    simp only [if_neg hij]

/-- A search over the first `n` points reads only those. -/
theorem sortSearch_take {points : List DataPoint} {n : Nat} (hn : n ≤ points.length) (t : Int) :
    sortSearch n (timestampAtLeast points t) =
      sortSearch (points.take n).length (timestampAtLeast (points.take n) t) := by
  rw [List.length_take_of_le hn]
  refine searchLoop_congr fun k hk hkn => ?_
  simp only [timestampAtLeast, if_pos hk, List.getElem?_take_of_lt (show k.toNat < n by omega)]

/-- With a loaded size that counts a prefix of sorted points, a loaded minimum below that
prefix and a loaded maximum above it, the read-locked searches return the points of
`[start, end)` of the prefix. -/
theorem selectLocked_take {points : List DataPoint}
    (hs : points.Pairwise fun p q => p.timestamp < q.timestamp) {n : Nat}
    (hn : n ≤ points.length) {minT maxT start «end» : Int}
    (hmin : ∀ p ∈ points.take n, minT ≤ p.timestamp)
    (hmax : ∀ p ∈ points.take n, p.timestamp ≤ maxT) (hse : start ≤ «end») :
    selectLocked points n minT maxT start «end» =
      some ((points.take n).filter fun p => start ≤ p.timestamp ∧ p.timestamp < «end») := by
  have hxs := hs.sublist (List.take_sublist n points)
  have hlen : (points.take n).length = n := List.length_take_of_le hn
  have hstart : (if start ≤ minT then some 0 else sortSearch n (timestampAtLeast points start)) =
      some (earlierCount (points.take n) start : Int) := by
    split
    · rw [earlierCount_eq_zero fun p hp => by have := hmin p hp; omega]
      rfl
    · rw [sortSearch_take hn, sortSearch_sorted hxs]
  have hend : (if «end» > maxT then some (n : Int)
      else sortSearch n (timestampAtLeast points «end»)) =
        some (earlierCount (points.take n) «end» : Int) := by
    split
    · rw [earlierCount, List.countP_eq_length.2 fun p hp => by
        have := hmax p hp; simp only [decide_eq_true_eq]; omega, hlen]
    · rw [sortSearch_take hn, sortSearch_sorted hxs]
  have hle : earlierCount (points.take n) start ≤ earlierCount (points.take n) «end» :=
    List.countP_mono_left fun p _ h => by simp only [decide_eq_true_eq] at h ⊢; omega
  have hleN : earlierCount (points.take n) «end» ≤ n := (List.countP_le_length _).trans hlen.le
  simp only [selectLocked, hstart, hend, Option.bind_eq_bind, Option.some_bind, sliceRange]
  rw [if_pos ⟨by omega, by omega, by omega⟩, ← slice_earlierCount hxs hle, List.drop_take,
    List.take_take]
  congr 2
  omega

/-! ### What a query in flight knows -/

namespace MemoryMetric

variable {m : MemoryMetric}

/-- A loaded minimum that is the first point's timestamp bounds every point of the prefix
the loaded size counts. -/
theorem Inv.loaded_min_le (hm : m.Inv) {size minT : Int}
    (hfirst : 0 < size → m.points.head?.map (·.timestamp) = some minT) :
    ∀ p ∈ m.points.take size.toNat, minT ≤ p.timestamp := by
  intro p hp
  have hpos : 0 < size := by
    by_contra h
    simp [show size.toNat = 0 by omega] at hp
  obtain ⟨q, hq⟩ := Option.isSome_iff_exists.1
    (List.head?_isSome.2 (List.ne_nil_of_mem (List.mem_of_mem_take hp)))
  have hminT : minT = m.minTimestamp := by
    simpa [hq, hm.min_eq q hq, eq_comm] using hfirst hpos
  exact hminT ▸ hm.min_le p (List.mem_of_mem_take hp)

end MemoryMetric

namespace SelectCall

/-- What a query in flight knows of the series `m`, when `m` held at least `L` in-order
points as the query began: its loaded size counts a prefix of the in-order points no
shorter than `L`, its loaded minimum is the first timestamp and its loaded maximum bounds
that prefix, and a returned answer with `start ≤ end` is the points of `[start, end)` among
such a prefix. -/
def Ok (L : Nat) (m : MemoryMetric) (c : SelectCall) : Prop :=
  match c.pc with
  | .loadSize => L ≤ m.points.length
  | .loadMin size => (L : Int) ≤ size ∧ size ≤ m.points.length
  | .loadMax size minT => ((L : Int) ≤ size ∧ size ≤ m.points.length) ∧
      (0 < size → m.points.head?.map (·.timestamp) = some minT)
  | .locked size minT maxT => ((L : Int) ≤ size ∧ size ≤ m.points.length) ∧
      (0 < size → m.points.head?.map (·.timestamp) = some minT) ∧
      ∀ p ∈ m.points.take size.toNat, p.timestamp ≤ maxT
  | .done r => c.start ≤ c.«end» → ∃ k : Nat, L ≤ k ∧ k ≤ m.points.length ∧
      r = some ((m.points.take k).filter fun p => c.start ≤ p.timestamp ∧ p.timestamp < c.«end»)

variable {L : Nat} {m m' : MemoryMetric} {c : SelectCall}

/-- What a query knows survives appends to the in-order points. -/
theorem Ok.append (h : c.Ok L m) {u : List DataPoint} (hu : m'.points = m.points ++ u) :
    c.Ok L m' := by
  have hlen : m.points.length ≤ m'.points.length := by simp [hu]
  have htake : ∀ k, k ≤ m.points.length → m'.points.take k = m.points.take k := fun k hk => by
    rw [hu, List.take_append_of_le_length hk]
  have hhead : ∀ size : Int, 0 < size → size ≤ m.points.length →
      m'.points.head? = m.points.head? := fun size h0 hs => by
    rw [hu, List.head?_append_of_ne_nil _ (List.ne_nil_of_length_pos (by omega))]
  rcases c with ⟨start, «end», pc⟩
  cases pc <;> dsimp only [Ok] at h ⊢
  case loadSize => exact Nat.le_trans h hlen
  case loadMin size => exact ⟨h.1, by omega⟩
  case loadMax size minT =>
    exact ⟨⟨h.1.1, by omega⟩, fun h0 => hhead size h0 h.1.2 ▸ h.2 h0⟩
  case locked size minT maxT =>
    exact ⟨⟨h.1.1, by omega⟩, fun h0 => hhead size h0 h.1.2 ▸ h.2.1 h0,
      htake size.toNat (by omega) ▸ h.2.2⟩
  case done r =>
    intro hse
    obtain ⟨k, hLk, hk, hr⟩ := h hse
    exact ⟨k, hLk, by omega, htake k hk ▸ hr⟩

/-- A step of the query itself keeps what it knows. -/
theorem Ok.step (hm : m.Inv) (h : c.Ok L m) : ({ c with pc := selectPointsStep m c }).Ok L m := by
  rcases c with ⟨start, «end», pc⟩
  cases pc <;> dsimp only [Ok] at h
  case loadSize => exact ⟨by have := hm.size_eq; omega, by have := hm.size_eq; omega⟩
  case loadMin size =>
    refine ⟨h, fun h0 => ?_⟩
    obtain ⟨q, hq⟩ := Option.isSome_iff_exists.1
      (List.head?_isSome.2 (List.ne_nil_of_length_pos (show 0 < m.points.length by omega)))
    simp [hq, hm.min_eq q hq]
  case loadMax size minT =>
    simp only [selectPointsStep]
    split
    · intro hse
      refine ⟨size.toNat, by omega, by omega, ?_⟩
      rw [List.filter_eq_nil_iff.2 fun p hp => by
        have := hm.loaded_min_le h.2 p hp; simp only [decide_eq_true_eq]; omega]
    · exact ⟨h.1, h.2, fun p hp => hm.le_max p (List.mem_of_mem_take hp)⟩
  case locked size minT maxT =>
    intro hse
    refine ⟨size.toNat, by omega, by omega, ?_⟩
    have hsel := selectLocked_take hm.sorted (n := size.toNat) (by omega)
      (hm.loaded_min_le h.2.1) h.2.2 hse
    rwa [show ((size.toNat : Nat) : Int) = size by omega] at hsel
  case done r => exact h

end SelectCall

/-! ### Every interleaving of inserts and queries -/

theorem insertPoint_points (p : DataPoint) (m : MemoryMetric) (pc : InsertPc) :
    ∃ u, (insertPoint p m pc).1.points = m.points ++ u := by
  rcases insertPoint_cases p m pc with ⟨hm, -⟩ | ⟨-, -, hcase⟩
  · exact ⟨[], by rw [hm, List.append_nil]⟩
  rcases hcase with ⟨-, -, -, hm⟩ | ⟨-, hm⟩ | ⟨-, -, hm⟩ <;> rw [hm]
  · exact ⟨[p], rfl⟩
  · exact ⟨[p], rfl⟩
  · exact ⟨[], (List.append_nil _).symm⟩

namespace MetricSystem

/-- At a step boundary: the series invariant, and what each query knows, with `bound i`
the number of in-order points the series held when query `i` began. -/
structure QueryInv (bound : Nat → Nat) (s : Config MemoryMetric MetricCall) : Prop where
  metric : s.shared.Inv
  queries : ∀ (i : Nat) (c : SelectCall), s.calls[i]? = some (.select c) → c.Ok (bound i) s.shared

theorem withQueries_queryInv (points : List DataPoint) (ranges : List (Int × Int)) :
    QueryInv (fun _ => 0) (withQueries points ranges) where
  metric := MemoryMetric.fresh_inv
  queries i c hc := by
    have hmem := List.mem_iff_getElem?.2 ⟨i, hc⟩
    simp only [withQueries, List.mem_append, List.mem_map] at hmem
    rcases hmem with ⟨_, _, hc⟩ | ⟨r, _, hc⟩
    · cases hc
    · cases hc
      exact Nat.zero_le _

/-- One step keeps the invariant and only appends to the in-order points. -/
theorem QueryInv.step {bound : Nat → Nat} {s t : Config MemoryMetric MetricCall}
    (h : QueryInv bound s) (hs : Config.Step metricCalls s t) :
    QueryInv bound t ∧ ∃ u, t.shared.points = s.shared.points ++ u := by
  obtain ⟨hc, -, x⟩ := hs
  rename_i i c
  have hi : i < s.calls.length := (List.getElem?_eq_some_iff.1 hc).1
  cases c with
  | insert c =>
    obtain ⟨u, hu⟩ := insertPoint_points c.point s.shared c.pc
    simp only [Config.stepCall, hc, metricCalls, insertPointCalls]
    refine ⟨⟨insertPoint_inv h.metric _ _, fun j c' hj => ?_⟩, u, hu⟩
    by_cases hij : i = j
    · subst hij
      simp [List.getElem?_set_self hi] at hj
    · rw [List.getElem?_set_ne hij] at hj
      exact (h.queries j c' hj).append hu
  | select c =>
    simp only [Config.stepCall, hc, metricCalls]
    refine ⟨⟨h.metric, fun j c' hj => ?_⟩, [], (List.append_nil _).symm⟩
    by_cases hij : i = j
    · subst hij
      rw [List.getElem?_set_self hi, Option.some.injEq, MetricCall.select.injEq] at hj
      exact hj ▸ (h.queries i c hc).step h.metric
    · rw [List.getElem?_set_ne hij] at hj
      exact h.queries j c' hj

/-- Every run keeps the invariant and only appends to the in-order points. -/
theorem QueryInv.reachable {bound : Nat → Nat} {s t : Config MemoryMetric MetricCall}
    (h : QueryInv bound s) (ht : Config.Reachable metricCalls s t) :
    QueryInv bound t ∧ ∃ u, t.shared.points = s.shared.points ++ u := by
  induction ht with
  | init => exact ⟨h, [], (List.append_nil _).symm⟩
  | tail _ hs ih =>
    obtain ⟨hi, u, hu⟩ := ih
    obtain ⟨hi', v, hv⟩ := hi.step hs
    exact ⟨hi', u ++ v, by rw [hv, hu, List.append_assoc]⟩

/-- A query that has not started may count on every in-order point already stored. -/
theorem QueryInv.start {s : Config MemoryMetric MetricCall} (h : QueryInv (fun _ => 0) s)
    {i : Nat} {start «end» : Int} (hi : s.calls[i]? = some (.select ⟨start, «end», .loadSize⟩)) :
    QueryInv (fun j => if j = i then s.shared.points.length else 0) s where
  metric := h.metric
  queries j c hj := by
    by_cases hji : j = i
    · subst hji
      rw [hi, Option.some.injEq, MetricCall.select.injEq] at hj
      subst hj
      exact if_pos rfl ▸ Nat.le_refl _
    · rw [if_neg hji]
      exact h.queries j c hj

end MetricSystem

/-- In every interleaving of `insertPoint` and `selectPoints` calls on a fresh series, a
query with `start ≤ end` returns without panicking, while the series only grows, and its
answer is the points of `[start, end)` among the first `k` in-order points of the series as
it stands at any later step boundary, for a `k` no smaller than the number of in-order
points stored when the query began. -/
theorem selectPoints_interleaving {points : List DataPoint} {ranges : List (Int × Int)}
    {s t : Config MemoryMetric MetricCall}
    (hs : Config.Reachable metricCalls (MetricSystem.withQueries points ranges) s)
    (ht : Config.Reachable metricCalls s t) {i : Nat} {start «end» : Int}
    (hi : s.calls[i]? = some (.select ⟨start, «end», .loadSize⟩)) {r : Option (List DataPoint)}
    (hr : t.calls[i]? = some (.select ⟨start, «end», .done r⟩)) (hse : start ≤ «end») :
    (∃ u, t.shared.points = s.shared.points ++ u) ∧
      ∃ k, s.shared.points.length ≤ k ∧ k ≤ t.shared.points.length ∧
        r = some ((t.shared.points.take k).filter
          fun p => start ≤ p.timestamp ∧ p.timestamp < «end») := by
  have h0 := ((MetricSystem.withQueries_queryInv points ranges).reachable hs).1
  obtain ⟨hT, hpre⟩ := (h0.start hi).reachable ht
  obtain ⟨k, hk, hkle, hr'⟩ := hT.queries i _ hr hse
  exact ⟨hpre, k, by simpa using hk, hkle, hr'⟩

/-- A query that loads `size` after the first insert has returned and searches after the
second: it answers with the first point alone, though both lie in its range. -/
theorem selectPoints_interleaving_sample :
    Config.Reachable metricCalls (MetricSystem.withQueries [⟨1, 0⟩, ⟨2, 0⟩] [(0, 10)])
        ⟨⟨1, 1, 1, [⟨1, 0⟩], []⟩, [.insert ⟨⟨1, 0⟩, .done⟩, .insert ⟨⟨2, 0⟩, .loadSize⟩,
          .select ⟨0, 10, .loadSize⟩]⟩ ∧
      Config.Reachable metricCalls
        ⟨⟨1, 1, 1, [⟨1, 0⟩], []⟩, [.insert ⟨⟨1, 0⟩, .done⟩, .insert ⟨⟨2, 0⟩, .loadSize⟩,
          .select ⟨0, 10, .loadSize⟩]⟩
        ⟨⟨2, 1, 2, [⟨1, 0⟩, ⟨2, 0⟩], []⟩, [.insert ⟨⟨1, 0⟩, .done⟩, .insert ⟨⟨2, 0⟩, .done⟩,
          .select ⟨0, 10, .done (some [⟨1, 0⟩])⟩]⟩ ∧
      (∃ u, [⟨1, 0⟩, ⟨2, 0⟩] = [(⟨1, 0⟩ : DataPoint)] ++ u) ∧
      ∃ k, 1 ≤ k ∧ k ≤ 2 ∧ some [(⟨1, 0⟩ : DataPoint)] =
        some ((([⟨1, 0⟩, ⟨2, 0⟩] : List DataPoint).take k).filter
          fun p => 0 ≤ p.timestamp ∧ p.timestamp < 10) :=
  have hs : Config.Reachable metricCalls (MetricSystem.withQueries [⟨1, 0⟩, ⟨2, 0⟩] [(0, 10)])
      ⟨⟨1, 1, 1, [⟨1, 0⟩], []⟩, [.insert ⟨⟨1, 0⟩, .done⟩, .insert ⟨⟨2, 0⟩, .loadSize⟩,
        .select ⟨0, 10, .loadSize⟩]⟩ :=
    @Config.Reachable.run _ _ _ metricCalls _ _ .init [(0, ()), (0, ())] (by decide)
  have ht : Config.Reachable metricCalls
      ⟨⟨1, 1, 1, [⟨1, 0⟩], []⟩, [.insert ⟨⟨1, 0⟩, .done⟩, .insert ⟨⟨2, 0⟩, .loadSize⟩,
        .select ⟨0, 10, .loadSize⟩]⟩
      ⟨⟨2, 1, 2, [⟨1, 0⟩, ⟨2, 0⟩], []⟩, [.insert ⟨⟨1, 0⟩, .done⟩, .insert ⟨⟨2, 0⟩, .done⟩,
        .select ⟨0, 10, .done (some [⟨1, 0⟩])⟩]⟩ :=
    @Config.Reachable.run _ _ _ metricCalls _ _ .init
      [(2, ()), (1, ()), (1, ()), (1, ()), (2, ()), (2, ()), (2, ())] (by decide)
  ⟨hs, ht, selectPoints_interleaving hs ht (i := 2) rfl rfl (by decide)⟩

end EmbedTSDB
