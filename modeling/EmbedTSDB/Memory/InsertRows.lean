import EmbedTSDB.Memory.Partition

/-! `insertRows` run alone: a call with no other call between its steps and one clock
reading. The step model run that way ends where the sequential `MemoryPartition.insertRows`
says. Over the partitions that such calls reach from `newMemoryPartition`, a call keeps the
minimum set by the first call, returns the rows whose raw timestamp is below it, inserts
every other row stamped into its series, grows the count by their number and raises the
maximum to the largest stamped timestamp. The minimum and the outdated check both read the
raw timestamp: a zero timestamp counts as `0` there, not as the clock reading it is
stamped with. -/
namespace EmbedTSDB

/-! ### `insertPoint` run alone -/

namespace InsertPc

/-- The most steps `insertPoint` can still take: its steps move forward through `loadSize`,
`readLast`, `appendLocked` and `slowPath`. -/
def stepsLeft : InsertPc → Nat
  | .loadSize => 4
  | .readLast => 3
  | .appendLocked => 2
  | .slowPath => 1
  | .done | .panicked => 0

theorem stepsLeft_pos {pc : InsertPc} : 0 < pc.stepsLeft ↔ pc ≠ .done ∧ pc ≠ .panicked := by
  cases pc <;> decide

end InsertPc

theorem insertPoint_stepsLeft (point : DataPoint) (m : MemoryMetric) {pc : InsertPc}
    (hpos : 0 < pc.stepsLeft) : (insertPoint point m pc).2.stepsLeft < pc.stepsLeft := by
  cases pc with
  | done | panicked => exact absurd hpos (by decide)
  | _ =>
    simp only [insertPoint]
    repeat' split
    all_goals simp [InsertPc.stepsLeft]

/-- From a well-formed series, `stepsLeft` steps of `insertPoint` return, keep the invariant
and store the point once. -/
theorem insertPoint_iterate (point : DataPoint) (k : Nat) {m : MemoryMetric} {pc : InsertPc}
    (h : m.Inv) (hpos : 0 < pc.stepsLeft) (hk : pc.stepsLeft ≤ k) :
    ((fun r : MemoryMetric × InsertPc => insertPoint point r.1 r.2)^[k] (m, pc)).2 = .done ∧
      ((fun r : MemoryMetric × InsertPc => insertPoint point r.1 r.2)^[k] (m, pc)).1.Inv ∧
      ((fun r : MemoryMetric × InsertPc => insertPoint point r.1 r.2)^[k] (m, pc)).1.stored.Perm
        (point :: m.stored) := by
  induction k generalizing pc with
  | zero => omega
  | succ k ih =>
    rw [Function.iterate_succ_apply]
    obtain ⟨hd, hp⟩ := InsertPc.stepsLeft_pos.1 hpos
    rcases insertPoint_stored point m hd with ⟨hdone, hperm⟩ | ⟨hnd, hm⟩
    · rw [show insertPoint point m pc = ((insertPoint point m pc).1, .done) from Prod.ext rfl hdone,
        Function.iterate_fixed rfl]
      exact ⟨rfl, insertPoint_inv h point pc, hperm⟩
    · have hlt := insertPoint_stepsLeft point m hpos
      rw [show insertPoint point m pc = (m, (insertPoint point m pc).2) from Prod.ext hm rfl]
      exact ih (InsertPc.stepsLeft_pos.2 ⟨hnd, insertPoint_ne_panicked h point hp⟩) (by omega)

/-- `insertPoint(point)` with no other call between its steps: at most four steps, after
which the call stays where it is. -/
def insertPointAlone (point : DataPoint) (m : MemoryMetric) : MemoryMetric :=
  ((fun r : MemoryMetric × InsertPc => insertPoint point r.1 r.2)^[4] (m, .loadSize)).1

theorem insertPointAlone_spec (point : DataPoint) {m : MemoryMetric} (h : m.Inv) :
    (insertPointAlone point m).Inv ∧ (insertPointAlone point m).stored.Perm (point :: m.stored) :=
  (insertPoint_iterate point 4 h (by decide) (show InsertPc.loadSize.stepsLeft ≤ 4 from le_rfl)).2

instance : Inhabited MemoryMetric := ⟨MemoryMetric.fresh⟩

/-! ### `insertRows` run alone -/

/-- The variables of `insertRows`'s loop: the partition it writes, the outdated rows so far,
the largest timestamp and the number of inserted rows. -/
structure RowsLoop where
  partition : MemoryPartition
  outdatedRows : List Row
  maxTimestamp : Int
  rowsNum : Int

/-- The call of `insertRows` over `rows` about to check row `i`, with the loop's variables. -/
def RowsLoop.call (s : RowsLoop) (rows : List Row) (i : Nat) : InsertRowsCall :=
  ⟨rows, .row i, s.outdatedRows, s.maxTimestamp, s.rowsNum⟩

namespace MemoryPartition

variable (sortSlice : NameSort) (now : Int)

/-- The loop body of `insertRows` for a row that passed the outdated check, stamped:
`getMetric` of its key, then `insertPoint` on that series. -/
def insertStamped (s : RowsLoop) (row : Row) : RowsLoop :=
  let r := s.partition.getMetric (marshalMetricName sortSlice row.metric row.labels)
  { partition := { r.1 with heap := r.1.heap.modify (insertPointAlone row.point) r.2 }
    outdatedRows := s.outdatedRows
    maxTimestamp :=
      if row.point.timestamp > s.maxTimestamp then row.point.timestamp else s.maxTimestamp
    rowsNum := s.rowsNum + 1 }

/-- The loop body of `insertRows` for one row, with clock reading `now`. -/
def insertRow (s : RowsLoop) (row : Row) : RowsLoop :=
  if row.point.timestamp < s.partition.minT then
    { s with outdatedRows := s.outdatedRows ++ [row] }
  else insertStamped sortSlice s (stampRow now s.partition.timestampPrecision row)

/-- `once.Do` of `insertRows` over a batch starting with `first`. -/
def setMinOnce (p : MemoryPartition) (first : Row) (rows : List Row) : MemoryPartition :=
  if p.once then p else { p with minT := batchMin first rows, once := true }

/-- After the loop: the atomic add of the row count, then the load and the swap of `maxT`. -/
def finishRows (s : RowsLoop) : MemoryPartition :=
  let p := { s.partition with numPoints := s.partition.numPoints + s.rowsNum }
  if p.maxT < s.maxTimestamp then { p with maxT := s.maxTimestamp } else p

/-- `insertRows(rows)` with no other call between its steps and clock reading `now`. -/
def insertRows (p : MemoryPartition) : List Row → MemoryPartition × Except String (List Row)
  | [] => (p, .error "no rows given")
  | first :: rest =>
    let s := (first :: rest).foldl (insertRow sortSlice now)
      ⟨setMinOnce p first (first :: rest), [], first.point.timestamp, 0⟩
    (finishRows s, .ok s.outdatedRows)

end MemoryPartition

/-- The rows of a batch that `insertRows` returns: those whose raw timestamp is below
`minT`. -/
def outdatedOf (minT : Int) (rows : List Row) : List Row :=
  rows.filter fun r => r.point.timestamp < minT

/-- The rows of a batch that `insertRows` inserts, stamped with the clock reading `now`. -/
def insertedOf (now : Int) (precision : TimestampPrecision) (minT : Int) (rows : List Row) :
    List Row :=
  (rows.filter fun r => ¬ r.point.timestamp < minT).map (stampRow now precision)

/-- The points of the rows whose series key is `name`. -/
def pointsOf (sortSlice : NameSort) (name : List UInt8) (rows : List Row) : List DataPoint :=
  rows.filterMap fun r =>
    if marshalMetricName sortSlice r.metric r.labels = name then some r.point else none

@[simp] theorem stampRow_timestamp (now : Int) (precision : TimestampPrecision) (row : Row) :
    (stampRow now precision row).point.timestamp =
      if row.point.timestamp = 0 then toUnix now precision else row.point.timestamp := by
  unfold stampRow
  split <;> rfl

theorem pointsOf_append_singleton (sortSlice : NameSort) (name : List UInt8) (rows : List Row)
    (row : Row) :
    pointsOf sortSlice name (rows ++ [row]) = pointsOf sortSlice name rows ++
      if marshalMetricName sortSlice row.metric row.labels = name then [row.point] else [] := by
  simp only [pointsOf, List.filterMap_append, List.filterMap_cons, List.filterMap_nil]
  split <;> simp_all

/-! ### The invariant of a partition's map and heap -/

namespace MemoryPartition

/-- What calls of `insertRows` keep: each key of the map names a series of the heap, no two
keys the same one, and every series keeps the series invariant. -/
structure WF (p : MemoryPartition) : Prop where
  addr_lt : ∀ name addr, p.metrics name = some addr → addr < p.heap.length
  addr_inj : ∀ a b addr, p.metrics a = some addr → p.metrics b = some addr → a = b
  series : ∀ m ∈ p.heap, m.Inv

variable {q : MemoryPartition}

/-- `getMetric`'s `Store` keeps the invariant, whether or not the key is already stored:
the entry it overwrites leaves its series orphaned. -/
theorem WF.storeFresh (h : q.WF) (name : List UInt8) : (q.storeFresh name).1.WF := by
  -- an entry of the new map is the fresh series under `name` or an entry of the old one
  have hval : ∀ n x, (q.storeFresh name).1.metrics n = some x →
      (n = name ∧ x = q.heap.length) ∨ (x < q.heap.length ∧ q.metrics n = some x) := by
    intro n x hx
    simp only [MemoryPartition.storeFresh, Function.update_apply] at hx
    split_ifs at hx with hn
    · exact .inl ⟨hn, (Option.some.inj hx).symm⟩
    · exact .inr ⟨h.addr_lt n x hx, hx⟩
  refine ⟨fun n x hx => ?_, fun a b x ha hb => ?_, fun m hm => ?_⟩
  · simp only [MemoryPartition.storeFresh, List.length_append, List.length_singleton]
    rcases hval n x hx with ⟨-, rfl⟩ | ⟨hlt, -⟩ <;> omega
  · have hb' := hval b x hb
    rcases hval a x ha with ⟨rfl, rfl⟩ | ⟨hlt, ha⟩ <;> rcases hb' with ⟨rfl, hx⟩ | ⟨hlt', hb⟩
    · rfl
    · omega
    · omega
    · exact h.addr_inj a b x ha hb
  · simp only [MemoryPartition.storeFresh, List.mem_append, List.mem_singleton] at hm
    exact hm.elim (h.series m) fun e => e ▸ MemoryMetric.fresh_inv

/-- `getMetric` keeps the invariant and leaves the key naming the series it returns. -/
theorem getMetric_wf (h : q.WF) (name : List UInt8) :
    (q.getMetric name).1.WF ∧ (q.getMetric name).1.metrics name = some (q.getMetric name).2 := by
  unfold getMetric
  cases hkey : q.metrics name with
  | some addr => exact ⟨h, hkey⟩
  | none => exact ⟨h.storeFresh name, by simp [storeFresh]⟩

/-- Writing a well-formed series at an address of the heap keeps the invariant. -/
theorem WF.set (h : q.WF) (a : Nat) {m : MemoryMetric} (hm : m.Inv) :
    ({ q with heap := q.heap.set a m } : MemoryPartition).WF :=
  ⟨fun n x hx => by simpa using h.addr_lt n x hx, h.addr_inj,
    fun m' hm' => (List.mem_or_eq_of_mem_set hm').elim (h.series m') fun e => e ▸ hm⟩

/-- Writing the series of `key` changes the points of `key` alone. -/
theorem WF.seriesPoints_set (h : q.WF) {key : List UInt8} {a : Nat} (ha : q.metrics key = some a)
    (m : MemoryMetric) (name : List UInt8) :
    ({ q with heap := q.heap.set a m } : MemoryPartition).seriesPoints name =
      if name = key then m.stored else q.seriesPoints name := by
  simp only [seriesPoints]
  split_ifs with hn
  · subst hn
    simp [ha, List.getElem?_set_self (h.addr_lt _ _ ha)]
  · cases hb : q.metrics name with
    | none => rfl
    | some b =>
      have hab : a ≠ b := fun e => hn (h.addr_inj name key b hb (e ▸ ha))
      simp [List.getElem?_set_ne hab]

variable (sortSlice : NameSort) (now : Int)

/-- The loop body writes the series of the row's key, found or created by `getMetric`, with
`insertPoint` run alone on it. -/
theorem insertStamped_partition {s : RowsLoop} {row : Row} {m : MemoryMetric}
    (hm : (s.partition.getMetric (marshalMetricName sortSlice row.metric row.labels)).1.heap[
      (s.partition.getMetric (marshalMetricName sortSlice row.metric row.labels)).2]? = some m) :
    (insertStamped sortSlice s row).partition =
      { (s.partition.getMetric (marshalMetricName sortSlice row.metric row.labels)).1 with
        heap := (s.partition.getMetric (marshalMetricName sortSlice row.metric row.labels)).1.heap.set
          (s.partition.getMetric (marshalMetricName sortSlice row.metric row.labels)).2
          (insertPointAlone row.point m) } := by
  simp only [insertStamped, List.modify_eq_set, hm, Option.getD_some]

/-- The loop body for an inserted row keeps the invariant and adds the row's point to the
series of its key. -/
theorem insertStamped_wf {s : RowsLoop} (h : s.partition.WF) (row : Row) :
    (insertStamped sortSlice s row).partition.WF ∧
      ∀ name, ((insertStamped sortSlice s row).partition.seriesPoints name).Perm
        (s.partition.seriesPoints name ++
          if marshalMetricName sortSlice row.metric row.labels = name then [row.point] else []) := by
  set key := marshalMetricName sortSlice row.metric row.labels
  obtain ⟨hq, hkey⟩ := getMetric_wf h key
  set r := s.partition.getMetric key with hr
  have hlt := hq.addr_lt _ _ hkey
  have hmi := insertPointAlone_spec row.point (hq.series _ (List.getElem_mem hlt))
  rw [insertStamped_partition sortSlice (List.getElem?_eq_getElem hlt)]
  refine ⟨hq.set r.2 hmi.1, fun name => ?_⟩
  rw [hq.seriesPoints_set hkey, ← getMetric_seriesPoints s.partition key name, ← hr]
  by_cases hn : name = key
  · subst hn
    rw [if_pos rfl, if_pos rfl]
    simp only [seriesPoints, hkey, List.getElem?_eq_getElem hlt, Option.map_some', Option.getD_some]
    exact hmi.2.trans (List.perm_append_singleton _ _).symm
  · rw [if_neg hn, if_neg (Ne.symm hn), List.append_nil]

/-! ### The loop -/

/-- What the loop keeps from its start `s₀` to a state `s` after the rows `done`: the
invariant, the partition's other fields, the outdated rows and the inserted rows as
`outdatedOf` and `insertedOf` say, and each series grown by the points of its key. -/
structure LoopSpec (s₀ s : RowsLoop) (done : List Row) : Prop where
  wf : s.partition.WF
  minT : s.partition.minT = s₀.partition.minT
  precision : s.partition.timestampPrecision = s₀.partition.timestampPrecision
  numPoints : s.partition.numPoints = s₀.partition.numPoints
  maxT : s.partition.maxT = s₀.partition.maxT
  outdated : s.outdatedRows = s₀.outdatedRows ++ outdatedOf s₀.partition.minT done
  rowsNum : s.rowsNum = s₀.rowsNum +
    (insertedOf now s₀.partition.timestampPrecision s₀.partition.minT done).length
  maxTimestamp : s.maxTimestamp =
    ((insertedOf now s₀.partition.timestampPrecision s₀.partition.minT done).map
      fun r => r.point.timestamp).foldl max s₀.maxTimestamp
  series : ∀ name, (s.partition.seriesPoints name).Perm (s₀.partition.seriesPoints name ++
    pointsOf sortSlice name (insertedOf now s₀.partition.timestampPrecision s₀.partition.minT done))

variable {sortSlice now}

theorem LoopSpec.start {s₀ : RowsLoop} (h : s₀.partition.WF) : LoopSpec sortSlice now s₀ s₀ [] :=
  ⟨h, rfl, rfl, rfl, rfl, by simp [outdatedOf], by simp [insertedOf], by simp [insertedOf],
    fun _ => by simp [insertedOf, pointsOf]⟩

/-- One row of the loop keeps the loop's specification. -/
theorem LoopSpec.insertRow {s₀ s : RowsLoop} {done : List Row} (h : LoopSpec sortSlice now s₀ s done)
    (row : Row) : LoopSpec sortSlice now s₀ (insertRow sortSlice now s row) (done ++ [row]) := by
  unfold MemoryPartition.insertRow
  rw [h.minT, h.precision]
  split
  · rename_i hlt
    have hout : outdatedOf s₀.partition.minT (done ++ [row]) =
        outdatedOf s₀.partition.minT done ++ [row] := by
      simp [outdatedOf, List.filter_append, hlt]
    have hins : insertedOf now s₀.partition.timestampPrecision s₀.partition.minT (done ++ [row]) =
        insertedOf now s₀.partition.timestampPrecision s₀.partition.minT done := by
      simp [insertedOf, List.filter_append, hlt]
    refine ⟨h.wf, h.minT, h.precision, h.numPoints, h.maxT, ?_, ?_, ?_, ?_⟩
    · rw [hout, ← List.append_assoc, ← h.outdated]
    · rw [hins]; exact h.rowsNum
    · rw [hins]; exact h.maxTimestamp
    · rw [hins]; exact h.series
  · rename_i hge
    have hout : outdatedOf s₀.partition.minT (done ++ [row]) = outdatedOf s₀.partition.minT done := by
      simp [outdatedOf, List.filter_append, hge]
    have hins : insertedOf now s₀.partition.timestampPrecision s₀.partition.minT (done ++ [row]) =
        insertedOf now s₀.partition.timestampPrecision s₀.partition.minT done ++
          [stampRow now s₀.partition.timestampPrecision row] := by
      simp [insertedOf, List.filter_append, Int.not_lt.1 hge]
    obtain ⟨hwf, hser⟩ := insertStamped_wf sortSlice h.wf (stampRow now s₀.partition.timestampPrecision row)
    refine ⟨hwf, ?_, ?_, ?_, ?_, ?_, ?_, ?_, fun name => ?_⟩
    · simp [insertStamped, h.minT]
    · simp [insertStamped, h.precision]
    · simp [insertStamped, h.numPoints]
    · simp [insertStamped, h.maxT]
    · simp [insertStamped, hout, h.outdated]
    · simp only [insertStamped, hins, h.rowsNum, List.length_append, List.length_singleton]
      omega
    · simp only [insertStamped, hins, List.map_append, List.foldl_append, List.map_cons,
        List.map_nil, List.foldl_cons, List.foldl_nil, ← h.maxTimestamp, max_def_lt, gt_iff_lt]
    · rw [hins, pointsOf_append_singleton, ← List.append_assoc]
      exact (hser name).trans ((h.series name).append_right _)

theorem LoopSpec.foldl {s₀ s : RowsLoop} {done : List Row} (h : LoopSpec sortSlice now s₀ s done)
    (rows : List Row) :
    LoopSpec sortSlice now s₀ (rows.foldl (MemoryPartition.insertRow sortSlice now) s)
      (done ++ rows) := by
  induction rows generalizing s done with
  | nil => simpa using h
  | cons row rows ih => simpa using ih (h.insertRow row)

/-! ### A call -/

theorem setMinOnce_eq (p : MemoryPartition) (first : Row) (rows : List Row) :
    setMinOnce p first rows =
      { p with minT := if p.once then p.minT else batchMin first rows, once := true } := by
  -- split on the partition's `once` flag
  obtain ⟨_, _, _, _, _, _, _, _ | _⟩ := p <;> rfl

theorem finishRows_eq (s : RowsLoop) : finishRows s =
    { s.partition with numPoints := s.partition.numPoints + s.rowsNum,
                       maxT := max s.partition.maxT s.maxTimestamp } := by
  unfold finishRows
  dsimp only
  split
  · rw [max_eq_right (by omega)]
  · rw [max_eq_left (by omega)]

/-- What every partition that calls of `insertRows` reach keeps beside `WF`: the maximum is
never negative, and once the minimum is set it is at most the maximum. -/
structure CallInv (p : MemoryPartition) : Prop where
  wf : p.WF
  maxT_nonneg : 0 ≤ p.maxT
  minT_le_maxT : p.once = true → p.minT ≤ p.maxT

theorem batchMin_eq (first : Row) (rows : List Row) :
    batchMin first rows = (rows.map fun r => r.point.timestamp).foldl min first.point.timestamp := by
  unfold batchMin
  generalize first.point.timestamp = a
  induction rows generalizing a with
  | nil => rfl
  | cons r rs ih =>
    simp only [List.foldl_cons, List.map_cons]
    rw [ih, min_def_lt]
    congr 1
    split_ifs <;> omega

theorem batchMin_le_first (first : Row) (rows : List Row) :
    batchMin first rows ≤ first.point.timestamp := by
  rw [batchMin_eq, List.foldl_min]
  exact inf_le_left

variable (now) in
/-- The local maximum of `insertRows` starts from the first row's raw timestamp; on a
partition that keeps `CallInv` that start never shows in the new maximum. A first row
below the minimum is below the old maximum, and a first row with timestamp `0` is not above
it. -/
theorem CallInv.max_foldl_first {p : MemoryPartition} (h : p.CallInv) {first : Row}
    {rest : List Row} {minT : Int}
    (hmin : minT = if p.once then p.minT else batchMin first (first :: rest)) :
    max p.maxT (((insertedOf now p.timestampPrecision minT (first :: rest)).map
      fun r => r.point.timestamp).foldl max first.point.timestamp) =
    ((insertedOf now p.timestampPrecision minT (first :: rest)).map
      fun r => r.point.timestamp).foldl max p.maxT := by
  rw [← @List.foldl_assoc Int max _ _ p.maxT first.point.timestamp]
  by_cases hf : first.point.timestamp < minT
  · have hpm : first.point.timestamp ≤ p.maxT := by
      have hb := batchMin_le_first first (first :: rest)
      cases ho : p.once
      · rw [hmin, ho] at hf
        simp only [Bool.false_eq_true, ↓reduceIte] at hf
        omega
      · have := h.minT_le_maxT ho
        rw [hmin, ho, if_pos rfl] at hf
        omega
    rw [max_eq_left hpm]
  · have hins : insertedOf now p.timestampPrecision minT (first :: rest) =
        stampRow now p.timestampPrecision first :: insertedOf now p.timestampPrecision minT rest := by
      simp [insertedOf, Int.not_lt.1 hf]
    rw [hins, List.map_cons, List.foldl_cons, List.foldl_cons]
    congr 1
    have := h.maxT_nonneg
    simp only [stampRow_timestamp]
    split_ifs <;> omega

/-- A call with a non-empty batch from a partition that keeps `CallInv`: the minimum is the
one `once.Do` leaves, the outdated rows are returned, every other row is inserted stamped,
the count grows by their number, the maximum rises to the largest stamped timestamp, and the
partition keeps `CallInv`. -/
theorem CallInv.insertRows {p p' : MemoryPartition} {res : Except String (List Row)}
    (h : p.CallInv) {first : Row} {rest : List Row}
    (hres : MemoryPartition.insertRows sortSlice now p (first :: rest) = (p', res)) :
    p'.minT = (if p.once then p.minT else batchMin first (first :: rest)) ∧
      res = .ok (outdatedOf p'.minT (first :: rest)) ∧
      (∀ name, (p'.seriesPoints name).Perm (p.seriesPoints name ++
        pointsOf sortSlice name (insertedOf now p.timestampPrecision p'.minT (first :: rest)))) ∧
      p'.numPoints = p.numPoints + (insertedOf now p.timestampPrecision p'.minT (first :: rest)).length ∧
      p'.maxT = ((insertedOf now p.timestampPrecision p'.minT (first :: rest)).map
        fun r => r.point.timestamp).foldl max p.maxT ∧
      p'.CallInv := by
  set s₀ : RowsLoop :=
    ⟨{ p with minT := if p.once then p.minT else batchMin first (first :: rest), once := true },
      [], first.point.timestamp, 0⟩
  have h0 : LoopSpec sortSlice now s₀ s₀ [] := LoopSpec.start ⟨h.wf.addr_lt, h.wf.addr_inj, h.wf.series⟩
  have hL := h0.foldl (first :: rest)
  rw [List.nil_append] at hL
  set sF := (first :: rest).foldl (insertRow sortSlice now) s₀
  have hcall : MemoryPartition.insertRows sortSlice now p (first :: rest) =
      ({ sF.partition with numPoints := sF.partition.numPoints + sF.rowsNum,
                           maxT := max sF.partition.maxT sF.maxTimestamp }, .ok sF.outdatedRows) := by
    simp only [MemoryPartition.insertRows, setMinOnce_eq, finishRows_eq]
  rw [hcall, Prod.mk.injEq] at hres
  obtain ⟨rfl, rfl⟩ := hres
  obtain ⟨hwf, hminT, -, hnum, hmaxT, hout, hrows, hmx, hser⟩ := hL
  dsimp only at hminT hnum hmaxT hout hrows hmx hser
  have hmax := h.max_foldl_first now
    (Eq.refl (if p.once then p.minT else batchMin first (first :: rest)))
  have hfirst : first.point.timestamp ≤ sF.maxTimestamp := by
    rw [hmx, List.foldl_max]
    exact le_sup_left
  have hb := batchMin_le_first first (first :: rest)
  have := h.maxT_nonneg
  dsimp only
  refine ⟨hminT, ?_, fun name => ?_, ?_, ?_, ⟨⟨hwf.addr_lt, hwf.addr_inj, hwf.series⟩, ?_, ?_⟩⟩
  · rw [hout, hminT, List.nil_append]
  · rw [hminT]
    exact hser name
  · rw [hnum, hrows, hminT, Int.zero_add]
  · rw [hmaxT, hmx, hminT]
    exact hmax
  · dsimp only
    rw [hmaxT]
    omega
  · intro _
    dsimp only
    rw [hminT, hmaxT]
    split_ifs with ho
    · have := h.minT_le_maxT ho
      omega
    · omega

/-- The partitions that calls of `insertRows` reach from a new partition, each call run alone
with a clock reading of its own. -/
inductive Reached (sortSlice : NameSort) : MemoryPartition → Prop
  | new (partitionDuration : Int) (precision : TimestampPrecision) :
      Reached sortSlice (newMemoryPartition partitionDuration precision)
  | call {p : MemoryPartition} (now : Int) (rows : List Row) :
      Reached sortSlice p → Reached sortSlice (insertRows sortSlice now p rows).1

theorem Reached.callInv {p : MemoryPartition} (h : Reached sortSlice p) : p.CallInv := by
  induction h with
  | new d precision =>
    exact ⟨⟨by simp [newMemoryPartition], by simp [newMemoryPartition],
      by simp [newMemoryPartition]⟩, le_refl 0, by simp [newMemoryPartition]⟩
  | call now rows _ ih =>
    cases rows with
    | nil => exact ih
    | cons first rest => exact (ih.insertRows rfl).2.2.2.2.2

end MemoryPartition

open MemoryPartition in
/-- `insertRows` with the zero-timestamp shorthand, over the partitions that calls run alone
reach: `minTimestamp()` is the minimum of the raw timestamps of the first non-empty batch,
and no later call changes it; each call returns, in order, the rows whose raw timestamp is
below it; every other row, stamped, is inserted into the series of its key; `size()` grows
by their number; `maxTimestamp()` becomes the largest of its old value and their stamped
timestamps. -/
theorem insertRows_reached {sortSlice : NameSort} {p p' : MemoryPartition}
    {res : Except String (List Row)} (hp : Reached sortSlice p) (now : Int) (first : Row)
    (rest : List Row) (hres : insertRows sortSlice now p (first :: rest) = (p', res)) :
    p'.minTimestamp = (if p.once then p.minTimestamp else
        ((first :: rest).map fun r => r.point.timestamp).foldl min first.point.timestamp) ∧
      res = .ok (outdatedOf p'.minTimestamp (first :: rest)) ∧
      (∀ name, (p'.seriesPoints name).Perm (p.seriesPoints name ++
        pointsOf sortSlice name (insertedOf now p.timestampPrecision p'.minTimestamp (first :: rest)))) ∧
      p'.size = p.size + (insertedOf now p.timestampPrecision p'.minTimestamp (first :: rest)).length ∧
      p'.maxTimestamp = ((insertedOf now p.timestampPrecision p'.minTimestamp (first :: rest)).map
        fun r => r.point.timestamp).foldl max p.maxTimestamp := by
  obtain ⟨hmin, hout, hser, hsize, hmax, -⟩ := hp.callInv.insertRows hres
  rw [← batchMin_eq]
  exact ⟨hmin, hout, hser, hsize, hmax⟩

/-- Two calls on a new partition, one after the other: the first inserts a row at `10`, the
second a row with timestamp `0`; every step reads the clock `20`. -/
def zeroRowRun : Config MemoryPartition InsertRowsCall :=
  (PartitionSystem.init (newMemoryPartition 3600000000000 .nanoseconds)
      [[⟨[109], [], ⟨10, 0⟩⟩], [⟨[109], [], ⟨0, 1⟩⟩]]).run
    (insertRowsCalls NameSort.insertion) (List.replicate 10 (0, 20) ++ List.replicate 5 (1, 20))

/-- The second call compares the raw timestamp `0` with the minimum `10` before stamping it:
it returns the row as outdated, unstamped, and inserts nothing, where the row stamped with
the clock reading `20` is not below the minimum. -/
theorem insertRows_rejects_zero_timestamp :
    Config.Reachable (insertRowsCalls NameSort.insertion)
        (PartitionSystem.init (newMemoryPartition 3600000000000 .nanoseconds)
          [[⟨[109], [], ⟨10, 0⟩⟩], [⟨[109], [], ⟨0, 1⟩⟩]])
        zeroRowRun ∧
      zeroRowRun.calls.map InsertRowsCall.pc = [.done [], .done [⟨[109], [], ⟨0, 1⟩⟩]] ∧
      zeroRowRun.shared.minTimestamp = 10 ∧ zeroRowRun.shared.size = 1 ∧
      zeroRowRun.shared.seriesPoints [109] = [⟨10, 0⟩] :=
  ⟨Config.Reachable.run .init (by decide), by decide, by decide, by decide, by decide⟩

/-! ### The step model run alone -/

namespace MemoryPartition

variable (sortSlice : NameSort) (now : Int)

theorem insertRow_wf {s : RowsLoop} (h : s.partition.WF) (row : Row) :
    (insertRow sortSlice now s row).partition.WF := by
  unfold insertRow
  split
  · exact h
  · exact (insertStamped_wf sortSlice h _).1

/-- The steps of `insertPoint` inside a call of `insertRows`, run alone from `ipc`: the call
writes the series at `addr` after each of them and moves on to the next row when it
returns. -/
theorem insert_alone (k : Nat) {p : MemoryPartition} {c : InsertRowsCall} {i : Nat} {row : Row}
    {addr : Nat} {m : MemoryMetric} {ipc : InsertPc} (hm : p.heap[addr]? = some m) (hinv : m.Inv)
    (hpos : 0 < ipc.stepsLeft) (hk : ipc.stepsLeft ≤ k) :
    Relation.ReflTransGen ((insertRowsCalls sortSlice).SoloWith now)
      (p, { c with pc := .insert i row addr ipc })
      ({ p with heap := (p.heap.set addr
          ((fun r : MemoryMetric × InsertPc => insertPoint row.point r.1 r.2)^[k] (m, ipc)).1) },
        { c with pc := .row (i + 1), rowsNum := c.rowsNum + 1 }) := by
  induction k generalizing p m ipc with
  | zero => omega
  | succ k ih =>
    rw [Function.iterate_succ_apply]
    obtain ⟨hd, hp⟩ := InsertPc.stepsLeft_pos.1 hpos
    have hstep : insertRowsStep sortSlice now p { c with pc := .insert i row addr ipc } =
        if (insertPoint row.point m ipc).2 = .done then
          ({ p with heap := p.heap.set addr (insertPoint row.point m ipc).1 },
            { c with pc := .row (i + 1), rowsNum := c.rowsNum + 1 })
        else ({ p with heap := p.heap.set addr (insertPoint row.point m ipc).1 },
          { c with pc := .insert i row addr (insertPoint row.point m ipc).2 }) := by
      simp only [insertRowsStep, hm]
    rcases insertPoint_stored row.point m hd with ⟨hdone, -⟩ | ⟨hnd, hm'⟩
    · rw [if_pos hdone] at hstep
      rw [show insertPoint row.point m ipc = ((insertPoint row.point m ipc).1, .done) from
        Prod.ext rfl hdone, Function.iterate_fixed rfl]
      exact .single ⟨by rfl, hstep.symm⟩
    · rw [if_neg hnd, hm'] at hstep
      rw [show insertPoint row.point m ipc = (m, (insertPoint row.point m ipc).2) from
        Prod.ext hm' rfl]
      have hlen : addr < p.heap.length := (List.getElem?_eq_some_iff.1 hm).1
      have hrest := ih (p := { p with heap := p.heap.set addr m })
        (by simp [List.getElem?_set_self hlen]) hinv
        (InsertPc.stepsLeft_pos.2 ⟨hnd, insertPoint_ne_panicked hinv row.point hp⟩)
        (by have := insertPoint_stepsLeft row.point m hpos; omega)
      simp only [List.set_set] at hrest
      exact .head ⟨by rfl, hstep.symm⟩ hrest

/-- `getMetric` inside a call of `insertRows`, run alone: its `Load`, and its `Store` when
the key is missing. -/
theorem load_alone (p : MemoryPartition) (c : InsertRowsCall) (i : Nat) (row : Row) :
    Relation.ReflTransGen ((insertRowsCalls sortSlice).SoloWith now)
      (p, { c with pc := .load i row })
      ((p.getMetric (marshalMetricName sortSlice row.metric row.labels)).1,
        { c with pc := (.insert i row
          (p.getMetric (marshalMetricName sortSlice row.metric row.labels)).2 .loadSize) }) := by
  unfold getMetric
  cases hkey : p.metrics (marshalMetricName sortSlice row.metric row.labels) with
  | some addr => exact .single ⟨by rfl, by simp [insertRowsCalls, insertRowsStep, hkey]⟩
  | none =>
    exact .head (b := (p, { c with pc := .store i row }))
      ⟨by rfl, by simp [insertRowsCalls, insertRowsStep, hkey]⟩ (.single ⟨by rfl, by rfl⟩)

/-- One row of the loop, run alone. -/
theorem row_alone {s : RowsLoop} (hwf : s.partition.WF) {rows : List Row} {i : Nat} {row : Row}
    (hrow : rows[i]? = some row) :
    Relation.ReflTransGen ((insertRowsCalls sortSlice).SoloWith now) (s.partition, s.call rows i)
      ((insertRow sortSlice now s row).partition, (insertRow sortSlice now s row).call rows (i + 1)) := by
  unfold insertRow
  split
  · rename_i hlt
    exact .single ⟨by rfl, by simp [insertRowsCalls, insertRowsStep, RowsLoop.call, hrow, hlt]⟩
  · rename_i hge
    set stamped := stampRow now s.partition.timestampPrecision row
    set key := marshalMetricName sortSlice stamped.metric stamped.labels
    obtain ⟨hq, hkey⟩ := getMetric_wf hwf key
    have hlt := hq.addr_lt _ _ hkey
    have hm := List.getElem?_eq_getElem hlt
    have hstart : Relation.ReflTransGen ((insertRowsCalls sortSlice).SoloWith now)
        (s.partition, s.call rows i)
        (s.partition, ⟨rows, .load i stamped, s.outdatedRows,
          (insertStamped sortSlice s stamped).maxTimestamp, s.rowsNum⟩) :=
      .single ⟨by rfl, by simp [insertRowsCalls, insertRowsStep, RowsLoop.call, hrow, hge, stamped,
        insertStamped]⟩
    rw [insertStamped_partition sortSlice hm]
    exact hstart.trans ((load_alone sortSlice now _
      ⟨rows, .row i, s.outdatedRows, (insertStamped sortSlice s stamped).maxTimestamp, s.rowsNum⟩
      i stamped).trans
      (insert_alone sortSlice now 4 hm (hq.series _ (List.getElem_mem hlt)) (by decide)
        (show InsertPc.loadSize.stepsLeft ≤ 4 from le_rfl)))

/-- The loop from row `pre.length` to the end of the batch, run alone. -/
theorem loop_alone {rows : List Row} (suf : List Row) :
    ∀ (pre : List Row) (s : RowsLoop), rows = pre ++ suf → s.partition.WF →
      Relation.ReflTransGen ((insertRowsCalls sortSlice).SoloWith now) (s.partition, s.call rows pre.length)
        ((suf.foldl (insertRow sortSlice now) s).partition,
          (suf.foldl (insertRow sortSlice now) s).call rows rows.length) := by
  induction suf with
  | nil =>
    intro pre s hrows _
    rw [hrows, List.append_nil]
    exact .refl
  | cons row suf ih =>
    intro pre s hrows hwf
    have hrow : rows[pre.length]? = some row := by
      rw [hrows, List.getElem?_append_right (le_refl _), Nat.sub_self, List.getElem?_cons_zero]
    have hnext := ih (pre ++ [row]) (insertRow sortSlice now s row) (by simp [hrows])
      (insertRow_wf sortSlice now hwf row)
    rw [List.length_append, List.length_singleton] at hnext
    exact (row_alone sortSlice now hwf hrow).trans hnext

/-- After the loop, run alone: the add of the row count, the load of `maxT` and its swap
when the call's maximum is larger. -/
theorem finish_alone (s : RowsLoop) (rows : List Row) :
    ∃ c : InsertRowsCall, Relation.ReflTransGen ((insertRowsCalls sortSlice).SoloWith now)
      (s.partition, s.call rows rows.length) (finishRows s, c) ∧ c.pc = .done s.outdatedRows := by
  have hend : rows[rows.length]? = none := List.getElem?_eq_none (le_refl _)
  have hadd : Relation.ReflTransGen ((insertRowsCalls sortSlice).SoloWith now)
      (s.partition, s.call rows rows.length)
      ({ s.partition with numPoints := s.partition.numPoints + s.rowsNum },
        ⟨rows, .loadMaxT, s.outdatedRows, s.maxTimestamp, s.rowsNum⟩) :=
    .head (b := (s.partition, ⟨rows, .addNumPoints, s.outdatedRows, s.maxTimestamp, s.rowsNum⟩))
      ⟨by rfl, by simp [insertRowsCalls, insertRowsStep, RowsLoop.call, hend]⟩ (.single ⟨by rfl, by rfl⟩)
  refine ⟨⟨rows, .done s.outdatedRows, s.outdatedRows, s.maxTimestamp, s.rowsNum⟩, ?_, rfl⟩
  unfold finishRows
  dsimp only
  split
  · rename_i hmx
    exact hadd.trans (.head (b := ({ s.partition with numPoints := s.partition.numPoints + s.rowsNum },
        ⟨rows, .swapMaxT, s.outdatedRows, s.maxTimestamp, s.rowsNum⟩))
      ⟨by rfl, by simp [insertRowsCalls, insertRowsStep, hmx]⟩ (.single ⟨by rfl, by rfl⟩))
  · rename_i hmx
    exact hadd.tail ⟨by rfl, by simp [insertRowsCalls, insertRowsStep, hmx]⟩

/-- `insertRows` run alone in the step model, every step reading the clock `now`, ends where
the sequential `insertRows` says, returning what it returns. -/
theorem insertRows_alone {p : MemoryPartition} (hwf : p.WF) (rows : List Row) :
    ∃ c : InsertRowsCall, Relation.ReflTransGen ((insertRowsCalls sortSlice).SoloWith now)
        (p, ⟨rows, .start, [], 0, 0⟩) ((insertRows sortSlice now p rows).1, c) ∧
      c.pc = match (insertRows sortSlice now p rows).2 with
        | .ok outdatedRows => .done outdatedRows
        | .error err => .failed err := by
  cases rows with
  | nil => exact ⟨_, .single ⟨by rfl, by rfl⟩, rfl⟩
  | cons first rest =>
    have hwf0 : (setMinOnce p first (first :: rest)).WF := by
      rw [setMinOnce_eq]
      exact ⟨hwf.addr_lt, hwf.addr_inj, hwf.series⟩
    obtain ⟨c, hfin, hc⟩ := finish_alone sortSlice now
      ((first :: rest).foldl (insertRow sortSlice now)
        ⟨setMinOnce p first (first :: rest), [], first.point.timestamp, 0⟩) (first :: rest)
    refine ⟨c, .head ⟨by rfl, by rfl⟩ ((loop_alone sortSlice now (first :: rest) [] _ rfl hwf0).trans hfin),
      hc⟩

end MemoryPartition

open MemoryPartition in
/-- A call of `insertRows` that runs alone, from its first step to its return, inside any
interleaving, ends where the sequential `insertRows` says. -/
theorem Config.Reachable.insertRows_alone {sortSlice : NameSort}
    {init s : Config MemoryPartition InsertRowsCall}
    (h : Config.Reachable (insertRowsCalls sortSlice) init s) (hwf : s.shared.WF) {i : Nat}
    {rows : List Row} (hc : s.calls[i]? = some ⟨rows, .start, [], 0, 0⟩) (now : Int) :
    ∃ c : InsertRowsCall, Config.Reachable (insertRowsCalls sortSlice) init
        ⟨(insertRows sortSlice now s.shared rows).1, s.calls.set i c⟩ ∧
      c.pc = match (insertRows sortSlice now s.shared rows).2 with
        | .ok outdatedRows => .done outdatedRows
        | .error err => .failed err := by
  obtain ⟨c, hrun, hpc⟩ := MemoryPartition.insertRows_alone sortSlice now hwf rows
  exact ⟨c, h.solo hc (hrun.mono fun _ _ hs => hs.solo), hpc⟩

end EmbedTSDB
