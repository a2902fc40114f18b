import EmbedTSDB.Label
import EmbedTSDB.Memory.Select
import Mathlib.Algebra.Group.Int

/-! The memory partition of `memory_partition.go`: series keyed by `marshalMetricName`, the
point count and the time bounds. A call of `insertRows` is cut into its atomic steps:
`once.Do`, each atomic load, store, swap and add, each `sync.Map` load and store, and the
steps of `insertPoint` on the series it writes. -/
namespace EmbedTSDB

/-- `Row`: a point of the series named by a metric and its labels. -/
structure Row where
  metric : List UInt8
  labels : List Label
  point : DataPoint
  deriving DecidableEq, Repr

/-- `TimestampPrecision`: the unit of every timestamp of a storage. -/
inductive TimestampPrecision
  | nanoseconds
  | microseconds
  | milliseconds
  | seconds
  deriving DecidableEq, Repr

/-- `toUnix` of a clock reading `nanos` nanoseconds after the epoch. `UnixNano() / 1e3`
truncates toward zero, while `Unix()` rounds down. -/
def toUnix (nanos : Int) : TimestampPrecision → Int
  | .nanoseconds => nanos
  | .microseconds => nanos.tdiv 1000
  | .milliseconds => nanos.tdiv 1000000
  | .seconds => nanos.fdiv 1000000000

/-- `memoryPartition` with the no-op write-ahead log. `metrics` is the `sync.Map` from series
keys to the addresses of their `memoryMetric`s in `heap`; `once` records whether `once.Do`
has run. -/
structure MemoryPartition where
  numPoints : Int
  minT : Int
  maxT : Int
  metrics : List UInt8 → Option Nat
  heap : List MemoryMetric
  partitionDuration : Int
  timestampPrecision : TimestampPrecision
  once : Bool

/-! ### `float64` arithmetic of `Duration.Seconds()` -/

/-- The number of binary digits of `n`, halving at most `fuel` times. -/
def bitLength : Nat → Nat → Nat
  | 0, _ => 0
  | fuel + 1, n => if n = 0 then 0 else bitLength fuel (n / 2) + 1

/-- `float64(n / d)` for `0 < d`, as the pair `(m, k)` of the value `m * 2 ^ k`: the nearest
such value with `|m| < 2 ^ 53`, ties to an even `m`. No value rounded here is large enough
to overflow or small enough to be subnormal. -/
def roundFloat64 (n : Int) (d : Nat) : Int × Int :=
  let a := n.natAbs
  -- `e` is `⌊log₂ (a / d)⌋` and `k` the exponent of the last of 53 significant bits
  let e₀ : Int := (bitLength a a : Int) - bitLength d d
  let e :=
    if (if 0 ≤ e₀ then d * 2 ^ e₀.toNat ≤ a else d ≤ a * 2 ^ (-e₀).toNat) then e₀ else e₀ - 1
  let k := e - 52
  let num := if 0 ≤ k then a else a * 2 ^ (-k).toNat
  let den := if 0 ≤ k then d * 2 ^ k.toNat else d
  let q := num / den
  let r := num % den
  let m := if 2 * r < den then q else if den < 2 * r then q + 1 else if q % 2 = 0 then q else q + 1
  (n.sign * m, k)

/-- The value `m * 2 ^ k` of a `float64` as a fraction. -/
def fracOfFloat64 (x : Int × Int) : Int × Nat :=
  if 0 ≤ x.2 then (x.1 * 2 ^ x.2.toNat, 1) else (x.1, 2 ^ (-x.2).toNat)

/-- `Duration.Seconds()` of `d` nanoseconds: `float64(sec) + float64(nsec)/1e9` with
`sec := d / Second` and `nsec := d % Second`, each operation rounded. -/
def durationSeconds (d : Int) : Int × Int :=
  let sec := fracOfFloat64 (roundFloat64 (d.tdiv 1000000000) 1)
  let nsec := fracOfFloat64 (roundFloat64 (d.tmod 1000000000) 1)
  let frac := fracOfFloat64 (roundFloat64 nsec.1 (nsec.2 * 1000000000))
  roundFloat64 (sec.1 * frac.2 + frac.1 * sec.2) (sec.2 * frac.2)

/-- `int64(f)`: the `float64` truncated toward zero. -/
def int64OfFloat64 (x : Int × Int) : Int := (fracOfFloat64 x).1.tdiv (fracOfFloat64 x).2

/-- `newMemoryPartition(nil, partitionDuration, precision)`, the duration given in
nanoseconds and kept in the partition's unit. For seconds it goes through `float64`: once
the whole seconds reach `2 ^ 24`, a remainder of `999999999` nanoseconds rounds up to one
more second. -/
def newMemoryPartition (partitionDuration : Int) (precision : TimestampPrecision) :
    MemoryPartition where
  numPoints := 0
  minT := 0
  maxT := 0
  metrics := fun _ => none
  heap := []
  partitionDuration := match precision with
    | .nanoseconds => partitionDuration
    | .microseconds => partitionDuration.tdiv 1000
    | .milliseconds => partitionDuration.tdiv 1000000
    | .seconds => int64OfFloat64 (durationSeconds partitionDuration)
  timestampPrecision := precision
  once := false

namespace MemoryPartition

/-- `getMetric`'s `Store` of a fresh `memoryMetric` under `name`, at a new address. -/
def storeFresh (p : MemoryPartition) (name : List UInt8) : MemoryPartition × Nat :=
  ({ p with heap := p.heap ++ [MemoryMetric.fresh],
            metrics := Function.update p.metrics name (some p.heap.length) }, p.heap.length)

/-- `getMetric(name)` run without interruption: the address of the series stored under
`name`, created when missing. -/
def getMetric (p : MemoryPartition) (name : List UInt8) : MemoryPartition × Nat :=
  match p.metrics name with
  | some addr => (p, addr)
  | none => p.storeFresh name

@[simp] theorem getMetric_minT (p : MemoryPartition) (name : List UInt8) :
    (p.getMetric name).1.minT = p.minT := by
  unfold getMetric; split <;> rfl

@[simp] theorem getMetric_maxT (p : MemoryPartition) (name : List UInt8) :
    (p.getMetric name).1.maxT = p.maxT := by
  unfold getMetric; split <;> rfl

@[simp] theorem getMetric_numPoints (p : MemoryPartition) (name : List UInt8) :
    (p.getMetric name).1.numPoints = p.numPoints := by
  unfold getMetric; split <;> rfl

@[simp] theorem getMetric_timestampPrecision (p : MemoryPartition) (name : List UInt8) :
    (p.getMetric name).1.timestampPrecision = p.timestampPrecision := by
  unfold getMetric; split <;> rfl

/-- Everything stored in the series the map holds under `name`. -/
def seriesPoints (p : MemoryPartition) (name : List UInt8) : List DataPoint :=
  match p.metrics name with
  | some addr => (p.heap[addr]?.map MemoryMetric.stored).getD []
  | none => []

def minTimestamp (p : MemoryPartition) : Int := p.minT

def maxTimestamp (p : MemoryPartition) : Int := p.maxT

def size (p : MemoryPartition) : Int := p.numPoints

/-- Go's `int64` arithmetic: `x` wrapped into `[-2 ^ 63, 2 ^ 63)`. -/
def wrapInt64 (x : Int) : Int := (x + 2 ^ 63) % 2 ^ 64 - 2 ^ 63

/-- `active`: `maxTimestamp() - minTimestamp() + 1 < partitionDuration` in `int64`
arithmetic. -/
def active (p : MemoryPartition) : Bool :=
  decide (wrapInt64 (wrapInt64 (p.maxTimestamp - p.minTimestamp) + 1) < p.partitionDuration)

/-- `clean`: the points live on the heap, so there is nothing to release. -/
def clean (_ : MemoryPartition) : Except String Unit := .ok ()

/-- `expired`: a memory partition never expires. -/
def expired (_ : MemoryPartition) : Bool := false

/-- `selectDataPoints(metric, labels, start, end)` run without interruption:
`getMetric` of the series key, which stores a fresh series when the key is missing,
then its `selectPoints`; `none` is a panic. -/
def selectDataPoints (sortSlice : NameSort) (p : MemoryPartition) (metric : List UInt8)
    (labels : List Label) (start «end» : Int) : MemoryPartition × Option (List DataPoint) :=
  let r := p.getMetric (marshalMetricName sortSlice metric labels)
  (r.1, (r.1.heap[r.2]?).bind fun mt => mt.selectPoints start «end»)

/-- Appending a fresh series to the heap keeps what every address holds: a dangling address
that now reaches it reaches no point. -/
theorem stored_append_fresh (heap : List MemoryMetric) (addr : Nat) :
    ((heap ++ [MemoryMetric.fresh])[addr]?.map MemoryMetric.stored).getD [] =
      (heap[addr]?.map MemoryMetric.stored).getD [] := by
  rcases Nat.lt_or_ge addr heap.length with hlt | hge
  · rw [List.getElem?_append_left hlt]
  · rw [List.getElem?_append_right hge, List.getElem?_eq_none hge]
    cases addr - heap.length <;> rfl

/-- `getMetric` changes no stored point: a series it creates is empty. -/
theorem getMetric_seriesPoints (p : MemoryPartition) (key name : List UInt8) :
    (p.getMetric key).1.seriesPoints name = p.seriesPoints name := by
  unfold getMetric
  cases hkey : p.metrics key with
  | some addr => rfl
  | none =>
    simp only [storeFresh, seriesPoints]
    by_cases hname : name = key
    · subst hname
      simp [hkey, MemoryMetric.stored, MemoryMetric.fresh]
    · rw [Function.update_noteq hname]
      cases p.metrics name with
      | none => rfl
      | some addr => exact stored_append_fresh p.heap addr

/-- A query changes no stored point, count or bound: it only stores an empty series under a
missing key. -/
theorem selectDataPoints_keeps (sortSlice : NameSort) (p : MemoryPartition)
    (metric : List UInt8) (labels : List Label) (start «end» : Int) :
    (p.selectDataPoints sortSlice metric labels start «end»).1.numPoints = p.numPoints ∧
      (p.selectDataPoints sortSlice metric labels start «end»).1.minT = p.minT ∧
      (p.selectDataPoints sortSlice metric labels start «end»).1.maxT = p.maxT ∧
      ∀ name, (p.selectDataPoints sortSlice metric labels start «end»).1.seriesPoints name =
        p.seriesPoints name :=
  ⟨getMetric_numPoints p _, getMetric_minT p _, getMetric_maxT p _, getMetric_seriesPoints p _⟩

/-- A query of a missing key answers no point. -/
theorem selectDataPoints_missing {sortSlice : NameSort} {p : MemoryPartition}
    {metric : List UInt8} {labels : List Label}
    (hkey : p.metrics (marshalMetricName sortSlice metric labels) = none) (start «end» : Int) :
    (p.selectDataPoints sortSlice metric labels start «end»).2 = some [] := by
  simp only [selectDataPoints, getMetric, hkey, storeFresh, List.getElem?_concat_length,
    Option.some_bind, MemoryMetric.fresh_inv.selectPoints]
  simp [MemoryMetric.fresh]

/-- A query on a fresh partition of a series never inserted stores an empty series under its
key: the key set grows, where `diskPartition.selectDataPoints` answers `ErrNoDataPoints` and
stores nothing. -/
theorem selectDataPoints_stores_missing_key :
    (newMemoryPartition 3600000000000 .nanoseconds).metrics [109] = none ∧
      ((newMemoryPartition 3600000000000 .nanoseconds).selectDataPoints NameSort.insertion
        [109] [] 0 10).1.metrics [109] = some 0 := by
  decide

end MemoryPartition

/-- Where a call of `insertRows` stands: before its `once.Do`, before the outdated check of
row `i`, before `getMetric`'s `Load` and `Store` for a row, inside `insertPoint` on the
series at `addr`, before the atomic add of the row count, before the load and the swap of
`maxT`, or returned with its outdated rows or with an error. -/
inductive RowsPc
  | start
  | row (i : Nat)
  | load (i : Nat) (row : Row)
  | store (i : Nat) (row : Row)
  | insert (i : Nat) (row : Row) (addr : Nat) (pc : InsertPc)
  | addNumPoints
  | loadMaxT
  | swapMaxT
  | done (outdatedRows : List Row)
  | failed (err : String)
  deriving DecidableEq, Repr

/-- A call of `insertRows` in flight with its local variables. -/
structure InsertRowsCall where
  rows : List Row
  pc : RowsPc
  outdatedRows : List Row
  maxTimestamp : Int
  rowsNum : Int
  deriving DecidableEq, Repr

/-- The minimum the function given to `once.Do` computes over a batch starting with
`first`. -/
def batchMin (first : Row) (rows : List Row) : Int :=
  rows.foldl (fun min row => if row.point.timestamp < min then row.point.timestamp else min)
    first.point.timestamp

/-- The row `insertRows` inserts: a zero timestamp is stamped with the clock. -/
def stampRow (now : Int) (precision : TimestampPrecision) (row : Row) : Row :=
  if row.point.timestamp = 0 then
    { row with point := { row.point with timestamp := toUnix now precision } }
  else row

/-- One atomic step of `insertRows` with clock reading `now` (nanoseconds), read only when
a zero timestamp is stamped. -/
def insertRowsStep (sortSlice : NameSort) (now : Int) (p : MemoryPartition)
    (c : InsertRowsCall) : MemoryPartition × InsertRowsCall :=
  match c.pc with
  | .start =>
    match c.rows with
    | [] => (p, { c with pc := .failed "no rows given" })
    | first :: _ =>
      (if p.once then p else { p with minT := batchMin first c.rows, once := true },
        { c with pc := .row 0, outdatedRows := [], maxTimestamp := first.point.timestamp,
                 rowsNum := 0 })
  | .row i =>
    match c.rows[i]? with
    | none => (p, { c with pc := .addNumPoints })
    | some row =>
      if row.point.timestamp < p.minT then
        (p, { c with pc := .row (i + 1), outdatedRows := c.outdatedRows ++ [row] })
      else
        let row := stampRow now p.timestampPrecision row
        (p, { c with pc := .load i row,
                     maxTimestamp := if row.point.timestamp > c.maxTimestamp then
                       row.point.timestamp else c.maxTimestamp })
  | .load i row =>
    match p.metrics (marshalMetricName sortSlice row.metric row.labels) with
    | some addr => (p, { c with pc := .insert i row addr .loadSize })
    | none => (p, { c with pc := .store i row })
  | .store i row =>
    let r := p.storeFresh (marshalMetricName sortSlice row.metric row.labels)
    (r.1, { c with pc := .insert i row r.2 .loadSize })
  | .insert i row addr ipc =>
    match p.heap[addr]? with
    | none => (p, c)
    | some m =>
      let r := insertPoint row.point m ipc
      if r.2 = .done then
        ({ p with heap := p.heap.set addr r.1 },
          { c with pc := .row (i + 1), rowsNum := c.rowsNum + 1 })
      else ({ p with heap := p.heap.set addr r.1 }, { c with pc := .insert i row addr r.2 })
  | .addNumPoints =>
    ({ p with numPoints := p.numPoints + c.rowsNum }, { c with pc := .loadMaxT })
  | .loadMaxT =>
    (p, { c with pc := if p.maxT < c.maxTimestamp then .swapMaxT else .done c.outdatedRows })
  | .swapMaxT => ({ p with maxT := c.maxTimestamp }, { c with pc := .done c.outdatedRows })
  | .done _ | .failed _ => (p, c)

/-- Whether a call of `insertRows` has returned. -/
def InsertRowsCall.returned (c : InsertRowsCall) : Bool :=
  match c.pc with
  | .done _ | .failed _ => true
  | _ => false

/-- `insertRows` as a program of atomic steps on one partition, each step reading the clock. -/
def insertRowsCalls (sortSlice : NameSort) : Program Int MemoryPartition InsertRowsCall where
  step := insertRowsStep sortSlice
  returned := InsertRowsCall.returned

/-- The partition `p` with one `insertRows` call per batch, none of them started. -/
def PartitionSystem.init (p : MemoryPartition) (batches : List (List Row)) :
    Config MemoryPartition InsertRowsCall :=
  ⟨p, batches.map fun rows => ⟨rows, .start, [], 0, 0⟩⟩

/-- Two calls, each inserting one row of the same new series `m` at timestamp `1`, with
values `1` and `2`. -/
def raceBatches : List (List Row) := [[⟨[109], [], ⟨1, 1⟩⟩], [⟨[109], [], ⟨1, 2⟩⟩]]

/-- Both calls run `once.Do` and their outdated check and miss the key in `getMetric`'s
`Load`; then the first stores its series, inserts and returns before the second stores a
series of its own under the same key and inserts into it. -/
def raceSchedule : List (Nat × Int) :=
  [(0, 0), (1, 0), (0, 0), (1, 0), (0, 0), (1, 0)] ++ List.replicate 7 (0, 0) ++
    List.replicate 6 (1, 0)

/-- Where the race schedule leaves the partition and the calls. -/
def raceRun : Config MemoryPartition InsertRowsCall :=
  (PartitionSystem.init (newMemoryPartition 3600000000000 .nanoseconds) raceBatches).run
    (insertRowsCalls NameSort.insertion) raceSchedule

/-- Under the race schedule both calls accept their row and return, the count says two
points, and the series the map holds under the key has only the second call's point: the
first call's point went into a series the second `Store` replaced. -/
theorem insertRows_race_loses_point :
    Config.Reachable (insertRowsCalls NameSort.insertion)
        (PartitionSystem.init (newMemoryPartition 3600000000000 .nanoseconds) raceBatches)
        raceRun ∧
      (∀ c ∈ raceRun.calls, c.pc = .done []) ∧
      raceRun.shared.seriesPoints [109] = [⟨1, 2⟩] ∧ raceRun.shared.size = 2 :=
  ⟨Config.Reachable.run .init (by decide), by decide, by decide, by decide⟩

/-- One call inserting two rows of a new series at the extreme `int64` timestamps. -/
def extremeBatches : List (List Row) :=
  [[⟨[109], [], ⟨-2 ^ 63, 0⟩⟩, ⟨[109], [], ⟨2 ^ 63 - 1, 0⟩⟩]]

/-- Where that call, run to its end, leaves the partition. -/
def extremeRun : Config MemoryPartition InsertRowsCall :=
  (PartitionSystem.init (newMemoryPartition 3600000000000 .nanoseconds) extremeBatches).run
    (insertRowsCalls NameSort.insertion) (List.replicate 15 (0, 0))

/-- After the call the span `maxTimestamp() - minTimestamp()` is `2^64 - 1`, which wraps to
`-1` in `int64`: `active()` holds although the span is far past the partition's duration. -/
theorem active_span_overflows :
    Config.Reachable (insertRowsCalls NameSort.insertion)
        (PartitionSystem.init (newMemoryPartition 3600000000000 .nanoseconds) extremeBatches)
        extremeRun ∧
      (∀ c ∈ extremeRun.calls, c.pc = .done []) ∧
      extremeRun.shared.active = true ∧
      ¬ extremeRun.shared.maxTimestamp - extremeRun.shared.minTimestamp + 1 <
        extremeRun.shared.partitionDuration :=
  ⟨Config.Reachable.run .init (by decide), by decide, by decide, by decide⟩

/-- Two calls, each inserting one row of the series `m`, at timestamps `10` and `20`. -/
def maxRaceBatches : List (List Row) := [[⟨[109], [], ⟨10, 0⟩⟩], [⟨[109], [], ⟨20, 0⟩⟩]]

/-- The first call runs up to its swap of `maxT`, having loaded `maxT = 0 < 10`; then the
second call runs to its end and swaps in `20`. -/
def maxRaceRun : Config MemoryPartition InsertRowsCall :=
  (PartitionSystem.init (newMemoryPartition 3600000000000 .nanoseconds) maxRaceBatches).run
    (insertRowsCalls NameSort.insertion) (List.replicate 9 (0, 0) ++ List.replicate 10 (1, 0))

/-- From `maxRaceRun` the first call's swap moves `maxTimestamp()` back from `20` to `10`;
then both calls have returned and the series holds the point at `20`, past that bound. -/
theorem insertRows_race_lowers_maxT :
    Config.Reachable (insertRowsCalls NameSort.insertion)
        (PartitionSystem.init (newMemoryPartition 3600000000000 .nanoseconds) maxRaceBatches)
        maxRaceRun ∧
      Config.Step (insertRowsCalls NameSort.insertion) maxRaceRun
        (maxRaceRun.stepCall (insertRowsCalls NameSort.insertion) 0 0) ∧
      (maxRaceRun.stepCall (insertRowsCalls NameSort.insertion) 0 0).shared.maxTimestamp <
        maxRaceRun.shared.maxTimestamp ∧
      (∀ c ∈ (maxRaceRun.stepCall (insertRowsCalls NameSort.insertion) 0 0).calls,
        c.pc = .done []) ∧
      ∃ p ∈ (maxRaceRun.stepCall (insertRowsCalls NameSort.insertion) 0 0).shared.seriesPoints
          [109],
        (maxRaceRun.stepCall (insertRowsCalls NameSort.insertion) 0 0).shared.maxTimestamp <
          p.timestamp :=
  ⟨Config.Reachable.run .init (by decide), Config.Step.of_schedulable (by decide), by decide,
    by decide, by decide⟩

end EmbedTSDB
