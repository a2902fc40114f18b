import EmbedTSDB.Memory.ConcurrentSelect
import EmbedTSDB.Memory.PartitionSystem

/-! Queries beside `insertRows` calls on one partition. A query's `getMetric` is the same
`Load` and, for a missing key, `Store` of a fresh series as in `insertRows`, each its own
step. Then `selectPoints` runs on the series it got as in the model of one series: its loads
of `size`, `minTimestamp` and `maxTimestamp` are atomic steps of their own outside the lock,
and its searches one step under the read lock, so inserts into the series may run between
them. Queries keep every invariant of the inserts, and a query with `start ≤ end` never
panics. Its `Store` can still replace a series an insert has just filled under the same key:
the point stays in memory and in `size()`, out of the map's reach. -/
namespace EmbedTSDB

/-- Where a query stands: before `getMetric`'s `Load`, before its `Store` of a fresh
series, inside `selectPoints` on the series at `addr`, or returned (`none` is a panic). -/
inductive QueryPc
  | load
  | store
  | select (addr : Nat) (pc : SelectPc)
  | done (result : Option (List DataPoint))
  deriving DecidableEq, Repr

def QueryPc.isDone : QueryPc → Bool
  | .done _ => true
  | _ => false

/-- A call of `selectDataPoints(metric, labels, start, end)` in flight. -/
structure QueryCall where
  metric : List UInt8
  labels : List Label
  start : Int
  «end» : Int
  pc : QueryPc
  deriving DecidableEq, Repr

/-- One atomic step of a query on the partition `p`. -/
def queryStep (sortSlice : NameSort) (p : MemoryPartition) (q : QueryCall) :
    MemoryPartition × QueryPc :=
  match q.pc with
  | .load =>
    match p.metrics (marshalMetricName sortSlice q.metric q.labels) with
    | some addr => (p, .select addr .loadSize)
    | none => (p, .store)
  | .store =>
    let r := p.storeFresh (marshalMetricName sortSlice q.metric q.labels)
    (r.1, .select r.2 .loadSize)
  | .select addr pc =>
    match p.heap[addr]? with
    | some m =>
      match selectPointsStep m ⟨q.start, q.«end», pc⟩ with
      | .done r => (p, .done r)
      | pc' => (p, .select addr pc')
    | none => (p, .done none)
  | .done r => (p, .done r)

/-- A call on one partition: `insertRows` or `selectDataPoints`. -/
inductive PartitionCall
  | rows (c : InsertRowsCall)
  | query (q : QueryCall)
  deriving DecidableEq, Repr

/-- `insertRows` and `selectDataPoints` calls as a program of atomic steps on one partition;
a step of `insertRows` reads the clock. -/
def partitionCalls (sortSlice : NameSort) : Program Int MemoryPartition PartitionCall where
  step now p
    | .rows c => ((insertRowsStep sortSlice now p c).1, .rows (insertRowsStep sortSlice now p c).2)
    | .query q => ((queryStep sortSlice p q).1, .query { q with pc := (queryStep sortSlice p q).2 })
  returned
    | .rows c => c.returned
    | .query q => q.pc.isDone

namespace MemoryPartition

/-- Every series of `p` is still in the heap of `p'` at its address, with in-order points
appended at most: all a query in flight needs of the series it reads. -/
def PointsGrow (p p' : MemoryPartition) : Prop :=
  ∀ (a : Nat) (m : MemoryMetric), p.heap[a]? = some m →
    ∃ m' : MemoryMetric, p'.heap[a]? = some m' ∧ ∃ u, m'.points = m.points ++ u

theorem PointsGrow.of_heap {p p' : MemoryPartition} (h : p'.heap = p.heap) : p.PointsGrow p' :=
  fun _ m hm => ⟨m, h ▸ hm, [], (List.append_nil _).symm⟩

theorem PointsGrow.storeFresh (p : MemoryPartition) (name : List UInt8) :
    p.PointsGrow (p.storeFresh name).1 := fun _ m hm =>
  ⟨m, (List.getElem?_append_left (List.getElem?_eq_some_iff.1 hm).1).trans hm, [],
    (List.append_nil _).symm⟩

theorem PointsGrow.set {p : MemoryPartition} {a : Nat} {m m' : MemoryMetric}
    (hm : p.heap[a]? = some m) (hu : ∃ u, m'.points = m.points ++ u) :
    p.PointsGrow { p with heap := p.heap.set a m' } := by
  intro b n hn
  by_cases hab : a = b
  · subst hab
    obtain rfl : m = n := Option.some.inj (hm.symm.trans hn)
    exact ⟨m', List.getElem?_set_self (List.getElem?_eq_some_iff.1 hm).1, hu⟩
  · exact ⟨n, (List.getElem?_set_ne hab).trans hn, [], (List.append_nil _).symm⟩

/-- A step of `insertRows` only stores fresh series and appends to the points of one. -/
theorem insertRowsStep_pointsGrow (sortSlice : NameSort) (now : Int) (p : MemoryPartition)
    (c : InsertRowsCall) : p.PointsGrow (insertRowsStep sortSlice now p c).1 := by
  obtain ⟨rows, pc, outdated, maxTs, rowsNum⟩ := c
  cases pc <;> simp only [insertRowsStep]
  case store => exact .storeFresh _ _
  case insert i row addr ipc =>
    split
    · exact .of_heap rfl
    · rename_i m hm
      split <;> exact .set hm (insertPoint_points row.point m ipc)
  all_goals (try split) <;> (try split) <;> exact .of_heap rfl

end MemoryPartition

namespace PartitionSystem

/-- The partition `p` with one `insertRows` call per batch and the queries `queries`, none of
them started. -/
def withQueries (p : MemoryPartition) (batches : List (List Row)) (queries : List QueryCall) :
    Config MemoryPartition PartitionCall :=
  ⟨p, batches.map (fun rows => .rows ⟨rows, .start, [], 0, 0⟩) ++
    queries.map fun q => .query { q with pc := .load }⟩

/-- The `insertRows` calls among the calls. -/
def rowsOf (calls : List PartitionCall) : List InsertRowsCall :=
  calls.filterMap fun | .rows c => some c | .query _ => none

@[simp] theorem rowsOf_append (A B : List PartitionCall) : rowsOf (A ++ B) = rowsOf A ++ rowsOf B :=
  List.filterMap_append A B _

@[simp] theorem rowsOf_cons_rows (c : InsertRowsCall) (B : List PartitionCall) :
    rowsOf (.rows c :: B) = c :: rowsOf B := rfl

@[simp] theorem rowsOf_cons_query (q : QueryCall) (B : List PartitionCall) :
    rowsOf (.query q :: B) = rowsOf B := rfl

@[simp] theorem rowsOf_map_rows {α : Type} (f : α → InsertRowsCall) (l : List α) :
    rowsOf (l.map fun x => .rows (f x)) = l.map f := by
  induction l <;> simp_all [rowsOf]

@[simp] theorem rowsOf_map_query {α : Type} (f : α → QueryCall) (l : List α) :
    rowsOf (l.map fun x => .query (f x)) = [] := by
  induction l <;> simp_all [rowsOf]

end PartitionSystem

namespace QueryCall

/-- What a query knows of the partition `p`: inside `selectPoints` it reads a series of the
heap and knows of it what a query of one series knows, and a returned answer with
`start ≤ end` holds strictly increasing points of `[start, end)`. -/
def Ok (p : MemoryPartition) (q : QueryCall) : Prop :=
  match q.pc with
  | .select addr pc => ∃ m, p.heap[addr]? = some m ∧ (⟨q.start, q.«end», pc⟩ : SelectCall).Ok 0 m
  | .done r => q.start ≤ q.«end» → ∃ l, r = some l ∧
      l.Pairwise (fun a b => a.timestamp < b.timestamp) ∧
        ∀ x ∈ l, q.start ≤ x.timestamp ∧ x.timestamp < q.«end»
  | .load | .store => True

theorem Ok.grow {p p' : MemoryPartition} {q : QueryCall} (h : q.Ok p) (hg : p.PointsGrow p') :
    q.Ok p' := by
  rcases q with ⟨metric, labels, start, «end», _ | _ | ⟨addr, pc⟩ | r⟩
  · trivial
  · trivial
  · obtain ⟨m, hm, hok⟩ := h
    obtain ⟨m', hm', u, hu⟩ := hg addr m hm
    exact ⟨m', hm', hok.append hu⟩
  · exact h

/-- A returned `selectPoints` that answered the points of `[start, end)` among a prefix of
the in-order points answered strictly increasing points of `[start, end)`. -/
theorem ok_done {p : MemoryPartition} {m : MemoryMetric} (hm : m.Inv) {q : QueryCall}
    {r : Option (List DataPoint)}
    (h : (⟨q.start, q.«end», .done r⟩ : SelectCall).Ok 0 m) :
    ({ q with pc := .done r } : QueryCall).Ok p := by
  intro hse
  obtain ⟨k, -, -, hr⟩ := h hse
  exact ⟨_, hr, (hm.sorted.sublist (List.take_sublist _ _)).filter _,
    fun x hx => by simpa using (List.mem_filter.1 hx).2⟩

/-- A query's own step keeps what it knows, and only its `Store` changes the partition. -/
theorem Ok.step (sortSlice : NameSort) {p : MemoryPartition} (hwf : p.WF) {q : QueryCall}
    (h : q.Ok p) :
    ({ q with pc := (queryStep sortSlice p q).2 } : QueryCall).Ok (queryStep sortSlice p q).1 ∧
      ((queryStep sortSlice p q).1 = p ∨
        (queryStep sortSlice p q).1 = (p.storeFresh (marshalMetricName sortSlice q.metric q.labels)).1) := by
  rcases q with ⟨metric, labels, start, «end», _ | _ | ⟨addr, pc⟩ | r⟩
  · simp only [queryStep]
    split
    · exact ⟨⟨_, List.getElem?_eq_getElem (hwf.addr_lt _ _ ‹_›), Nat.zero_le _⟩,
        .inl rfl⟩
    · exact ⟨trivial, .inl rfl⟩
  · exact ⟨⟨.fresh, by simp [queryStep, MemoryPartition.storeFresh], Nat.zero_le _⟩,
      .inr rfl⟩
  · obtain ⟨m, hm, hok⟩ := h
    have hinv := hwf.series m (List.mem_iff_getElem?.2 ⟨addr, hm⟩)
    have hstep := hok.step hinv
    simp only [queryStep, hm]
    split
    · rename_i r heq
      exact ⟨ok_done (q := ⟨metric, labels, start, «end», .select addr pc⟩) hinv
        (by simpa only [heq] using hstep), .inl rfl⟩
    · exact ⟨⟨m, hm, hstep⟩, .inl rfl⟩
  · exact ⟨h, .inl rfl⟩

end QueryCall
namespace PartitionSystem

open MemoryPartition

/-- What holds at every step boundary: the invariant of the `insertRows` calls, with the
queries beside them, and what each query knows. -/
structure QueryInv (s : Config MemoryPartition PartitionCall) : Prop where
  rows : Inv ⟨s.shared, rowsOf s.calls⟩
  queries : ∀ q, .query q ∈ s.calls → q.Ok s.shared

theorem withQueries_queryInv (partitionDuration : Int) (precision : TimestampPrecision)
    (batches : List (List Row)) (queries : List QueryCall) :
    QueryInv (withQueries (newMemoryPartition partitionDuration precision) batches queries) where
  rows := by simpa [withQueries, init] using init_inv partitionDuration precision batches
  queries q hq := by
    simp only [withQueries, List.mem_append, List.mem_map] at hq
    rcases hq with ⟨_, _, hq⟩ | ⟨q', _, hq⟩
    · cases hq
    · cases hq
      trivial

variable {sortSlice : NameSort}

/-- One scheduled step keeps the invariant. -/
theorem QueryInv.step {s t : Config MemoryPartition PartitionCall} (h : QueryInv s)
    (hs : Config.Step (partitionCalls sortSlice) s t) : QueryInv t := by
  obtain ⟨hc, hrun, now⟩ := hs
  rename_i i c
  obtain ⟨A, B, hl, hset⟩ := exists_set_split ((partitionCalls sortSlice).step now s.shared c).2 hc
  have hrows := h.rows
  have hmem : ∀ q, PartitionCall.query q ∈ A ∨ PartitionCall.query q ∈ B → q.Ok s.shared :=
    fun q hq => h.queries q (by rw [hl]; rcases hq with hq | hq <;> simp [hq])
  simp only [Config.stepCall, hc, hset]
  cases c with
  | rows c =>
    rw [hl, rowsOf_append, rowsOf_cons_rows] at hrows
    have hgrow := insertRowsStep_pointsGrow sortSlice now s.shared c
    refine ⟨?_, fun q hq => ?_⟩
    · simpa [partitionCalls] using hrows.step_at hrun now
    · simp only [partitionCalls, List.mem_append, List.mem_cons, reduceCtorEq, false_or] at hq
      exact (hmem q hq).grow hgrow
  | query q =>
    have hq := h.queries q (List.mem_iff_getElem?.2 ⟨i, hc⟩)
    obtain ⟨hok, hp⟩ := hq.step sortSlice h.rows.wf
    have hrows' : Inv ⟨(queryStep sortSlice s.shared q).1, rowsOf s.calls⟩ := by
      rcases hp with hp | hp <;> rw [hp]
      · exact hrows
      · exact hrows.storeFresh _
    have hgrow : s.shared.PointsGrow (queryStep sortSlice s.shared q).1 := by
      rcases hp with hp | hp <;> rw [hp]
      · exact .of_heap rfl
      · exact .storeFresh _ _
    refine ⟨?_, fun q' hq' => ?_⟩
    · simpa [partitionCalls, hl] using hrows'
    · simp only [partitionCalls, List.mem_append, List.mem_cons, PartitionCall.query.injEq] at hq'
      rcases hq' with hq' | rfl | hq'
      · exact (hmem q' (.inl hq')).grow hgrow
      · exact hok
      · exact (hmem q' (.inr hq')).grow hgrow

theorem reachable_queryInv {partitionDuration : Int} {precision : TimestampPrecision}
    {batches : List (List Row)} {queries : List QueryCall} {s : Config MemoryPartition PartitionCall}
    (h : Config.Reachable (partitionCalls sortSlice)
      (withQueries (newMemoryPartition partitionDuration precision) batches queries) s) :
    QueryInv s :=
  h.inv (withQueries_queryInv partitionDuration precision batches queries)
    fun _ hi hs => hi.step hs

end PartitionSystem

open PartitionSystem MemoryPartition

/-- In every interleaving of `insertRows` calls and queries on a new partition, with any
clock reading at each step, the partition stays well formed, the heap holds exactly as many
points as the inserts have counted, `size()` is the sum of what they have added, and every
query with `start ≤ end` that has returned answered strictly increasing points of
`[start, end)` without panicking. -/
theorem selectDataPoints_beside_insertRows {sortSlice : NameSort} {partitionDuration : Int}
    {precision : TimestampPrecision} {batches : List (List Row)} {queries : List QueryCall}
    {s : Config MemoryPartition PartitionCall}
    (h : Config.Reachable (partitionCalls sortSlice)
      (withQueries (newMemoryPartition partitionDuration precision) batches queries) s) :
    s.shared.WF ∧ s.shared.heapCount = ((rowsOf s.calls).map (·.rowsNum)).sum ∧
      s.shared.size = ((rowsOf s.calls).map (·.addedRows)).sum ∧
      ∀ q, .query q ∈ s.calls → ∀ r, q.pc = .done r → q.start ≤ q.«end» →
        ∃ l, r = some l ∧ l.Pairwise (fun a b => a.timestamp < b.timestamp) ∧
          ∀ x ∈ l, q.start ≤ x.timestamp ∧ x.timestamp < q.«end» := by
  have hi := reachable_queryInv h
  refine ⟨hi.rows.wf, hi.rows.heapCount, hi.rows.numPoints, fun q hq r hr => ?_⟩
  have hok := hi.queries q hq
  unfold QueryCall.Ok at hok
  rw [hr] at hok
  exact hok

/-- One call inserting a point of series `m` beside one query of `m` on `[0, 10)`: the query
misses the key in its `Load`, the insert then stores the series, fills it and returns, and
only then does the query `Store` a fresh series under the key and run `selectPoints` on it:
three loads and the read-locked searches. -/
def queryRaceRun : Config MemoryPartition PartitionCall :=
  (withQueries (newMemoryPartition 3600000000000 .nanoseconds) [[⟨[109], [], ⟨1, 1⟩⟩]]
    [⟨[109], [], 0, 10, .load⟩]).run (partitionCalls NameSort.insertion)
    ([(1, 0)] ++ List.replicate 10 (0, 0) ++ List.replicate 5 (1, 0))

/-- Under that schedule the insert has returned with its point accepted and counted, and the
query answers no point: its `Store` replaced the series the insert had filled. -/
theorem selectDataPoints_beside_insertRows_race :
    Config.Reachable (partitionCalls NameSort.insertion)
        (withQueries (newMemoryPartition 3600000000000 .nanoseconds) [[⟨[109], [], ⟨1, 1⟩⟩]]
          [⟨[109], [], 0, 10, .load⟩]) queryRaceRun ∧
      (queryRaceRun.shared.WF ∧
        queryRaceRun.shared.heapCount = ((rowsOf queryRaceRun.calls).map (·.rowsNum)).sum ∧
        queryRaceRun.shared.size = ((rowsOf queryRaceRun.calls).map (·.addedRows)).sum ∧
        ∀ q, .query q ∈ queryRaceRun.calls → ∀ r, q.pc = .done r → q.start ≤ q.«end» →
          ∃ l, r = some l ∧ l.Pairwise (fun a b => a.timestamp < b.timestamp) ∧
            ∀ x ∈ l, q.start ≤ x.timestamp ∧ x.timestamp < q.«end») ∧
      queryRaceRun.calls = [.rows ⟨[⟨[109], [], ⟨1, 1⟩⟩], .done [], [], 1, 1⟩,
        .query ⟨[109], [], 0, 10, .done (some [])⟩] ∧
      queryRaceRun.shared.size = 1 :=
  have hr : Config.Reachable (partitionCalls NameSort.insertion)
      (withQueries (newMemoryPartition 3600000000000 .nanoseconds) [[⟨[109], [], ⟨1, 1⟩⟩]]
        [⟨[109], [], 0, 10, .load⟩]) queryRaceRun := Config.Reachable.run .init (by decide)
  ⟨hr, selectDataPoints_beside_insertRows hr, by decide, by decide⟩

end EmbedTSDB
