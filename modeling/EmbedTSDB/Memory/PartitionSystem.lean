import EmbedTSDB.Memory.InsertRows
import Mathlib.Algebra.BigOperators.Group.List
import Mathlib.Algebra.Order.Ring.Nat
import Mathlib.Algebra.Ring.Int.Defs

/-! Concurrent calls of `insertRows` on one partition, each atomic step of each call free to
run next. Whatever the interleaving, the map and the heap stay well formed and every series
keeps the series invariant; after the first `once.Do` the minimum never changes, so every call
sorts its rows into outdated and inserted ones against the same bound; the heap holds exactly
as many points as the calls have inserted and `size()` counts exactly the rows of the calls
past their atomic add; and every call returns within a bound on its own steps, so every
interleaving is finite. A race between two `getMetric` calls loses a point from the series
the map holds, not from the heap. -/
namespace EmbedTSDB

namespace MemoryPartition

/-- The in-order points of the series the map holds under `name`. -/
def inOrderPoints (p : MemoryPartition) (name : List UInt8) : List DataPoint :=
  match p.metrics name with
  | some addr => (p.heap[addr]?.map MemoryMetric.points).getD []
  | none => []

/-- The number of points the series of the heap hold together, orphaned series included. -/
def heapCount (p : MemoryPartition) : Int := (p.heap.map fun m => (m.stored.length : Int)).sum

/-- What other calls may rely on across a step: once `once.Do` has run the flag stays set and
the minimum stays, and the heap never shrinks. -/
def Grows (p p' : MemoryPartition) : Prop :=
  (p.once = true → p'.once = true ∧ p'.minT = p.minT) ∧ p.heap.length ≤ p'.heap.length

theorem Grows.refl (p : MemoryPartition) : p.Grows p := ⟨fun h => ⟨h, rfl⟩, le_rfl⟩

theorem Grows.trans {p q r : MemoryPartition} (h₁ : p.Grows q) (h₂ : q.Grows r) : p.Grows r :=
  ⟨fun h => ⟨(h₂.1 (h₁.1 h).1).1, (h₂.1 (h₁.1 h).1).2.trans (h₁.1 h).2⟩, h₁.2.trans h₂.2⟩

theorem heapCount_storeFresh (p : MemoryPartition) (name : List UInt8) :
    (p.storeFresh name).1.heapCount = p.heapCount := by
  simp [heapCount, storeFresh, MemoryMetric.stored, MemoryMetric.fresh]

/-- Writing a series changes the count by the difference of the two series' points. -/
theorem heapCount_set {p : MemoryPartition} {a : Nat} {m : MemoryMetric}
    (h : p.heap[a]? = some m) (m' : MemoryMetric) :
    ({ p with heap := p.heap.set a m' } : MemoryPartition).heapCount =
      p.heapCount + ((m'.stored.length : Int) - m.stored.length) := by
  obtain ⟨A, B, hl, hset⟩ := exists_set_split m' h
  simp only [heapCount]
  rw [hset, hl]
  simp only [List.map_append, List.map_cons, List.sum_append, List.sum_cons]
  omega

end MemoryPartition

namespace InsertRowsCall

/-- The first `k` rows of the batch are checked against the minimum `minT`: those below it
are held as outdated, and `rowsNum` counts the others. -/
def Checked (c : InsertRowsCall) (minT : Int) (k : Nat) : Prop :=
  c.outdatedRows = outdatedOf minT (c.rows.take k) ∧ c.rowsNum + c.outdatedRows.length = k

/-- Row `i` passed the outdated check and the rows before it are checked. -/
def Accepted (c : InsertRowsCall) (minT : Int) (i : Nat) : Prop :=
  ∃ row, c.rows[i]? = some row ∧ ¬ row.point.timestamp < minT ∧ c.Checked minT i

/-- What a call keeps at every step boundary, against the partition `p`: past its `once.Do`
the minimum is set and the rows it has checked are checked against it, a row it is inserting
passed the check, the series it is inserting into is allocated and its `insertPoint` has
neither returned nor panicked, and a call that failed had no rows. -/
def Ok (p : MemoryPartition) (c : InsertRowsCall) : Prop :=
  match c.pc with
  | .start => c.outdatedRows = [] ∧ c.rowsNum = 0
  | .row i => p.once = true ∧ i ≤ c.rows.length ∧ c.Checked p.minT i
  | .load i _ | .store i _ => p.once = true ∧ c.Accepted p.minT i
  | .insert i _ addr ipc =>
    p.once = true ∧ c.Accepted p.minT i ∧ addr < p.heap.length ∧ ipc ≠ .done ∧ ipc ≠ .panicked
  | .addNumPoints | .loadMaxT | .swapMaxT => p.once = true ∧ c.Checked p.minT c.rows.length
  | .done outdatedRows =>
    p.once = true ∧ c.Checked p.minT c.rows.length ∧ outdatedRows = c.outdatedRows
  | .failed _ => c.rows = [] ∧ c.outdatedRows = [] ∧ c.rowsNum = 0

/-- The most steps the call can still take: at most seven per row (the outdated check,
`getMetric`'s `Load` and `Store`, four steps of `insertPoint`), then the add, the load and the
swap of `maxT`. -/
def stepsLeft (c : InsertRowsCall) : Nat :=
  match c.pc with
  | .start => 7 * c.rows.length + 5
  | .row i => 7 * (c.rows.length - i) + 4
  | .load i _ => 7 * (c.rows.length - (i + 1)) + 10
  | .store i _ => 7 * (c.rows.length - (i + 1)) + 9
  | .insert i _ _ ipc => 7 * (c.rows.length - (i + 1)) + 4 + ipc.stepsLeft
  | .addNumPoints => 3
  | .loadMaxT => 2
  | .swapMaxT => 1
  | .done _ | .failed _ => 0

/-- The rows the call has added to `numPoints`: its `rowsNum` once its atomic add has run. -/
def addedRows (c : InsertRowsCall) : Int :=
  match c.pc with
  | .loadMaxT | .swapMaxT | .done _ => c.rowsNum
  | _ => 0

theorem Ok.grow {p p' : MemoryPartition} {c : InsertRowsCall} (h : c.Ok p) (hg : p.Grows p') :
    c.Ok p' := by
  unfold Ok at h ⊢
  split at h
  all_goals first
    | exact h
    | obtain ⟨ho, hrest⟩ := h
      obtain ⟨ho', hmin⟩ := hg.1 ho
      rw [hmin]
      first
        | exact ⟨ho', hrest⟩
        | exact ⟨ho', hrest.1, hrest.2.1.trans_le hg.2, hrest.2.2⟩

end InsertRowsCall

namespace MemoryPartition

theorem WF.of_eq {p p' : MemoryPartition} (h : p.WF) (hm : p'.metrics = p.metrics)
    (hh : p'.heap = p.heap) : p'.WF :=
  ⟨hm ▸ hh ▸ h.addr_lt, hm ▸ h.addr_inj, hh ▸ h.series⟩

/-- What one step of a call that keeps `Ok` does, as the invariants over interleavings need
it: the partition stays well formed and grows, the call keeps `Ok`, its batch and its progress
measure, the heap gains a point exactly when the call counts one, `numPoints` grows exactly by
what the call adds, and only the call's own `once.Do` sets the minimum. -/
structure StepSpec (p : MemoryPartition) (c : InsertRowsCall) (p' : MemoryPartition)
    (c' : InsertRowsCall) : Prop where
  wf : p'.WF
  grows : p.Grows p'
  ok : c'.Ok p'
  rows : c'.rows = c.rows
  not_start : c'.pc ≠ .start
  progress : c'.stepsLeft < c.stepsLeft
  heapCount : p'.heapCount = p.heapCount + (c'.rowsNum - c.rowsNum)
  numPoints : p'.numPoints = p.numPoints + (c'.addedRows - c.addedRows)
  sets_min : p.once = false → p'.once = true →
    ∃ first rest, c.rows = first :: rest ∧ p'.minT = batchMin first c.rows

/-- A step that keeps the map, the heap, `once` and the minimum, and counts no row. -/
theorem StepSpec.of_keep {p p' : MemoryPartition} {c c' : InsertRowsCall} (hwf : p.WF)
    (hm : p'.metrics = p.metrics) (hh : p'.heap = p.heap) (honce : p'.once = p.once)
    (hmin : p'.minT = p.minT) (hok : c'.Ok p') (hrows : c'.rows = c.rows)
    (hpc : c'.pc ≠ .start) (hlt : c'.stepsLeft < c.stepsLeft) (hnum : c'.rowsNum = c.rowsNum)
    (hadd : p'.numPoints = p.numPoints + (c'.addedRows - c.addedRows)) : StepSpec p c p' c' where
  wf := hwf.of_eq hm hh
  grows := ⟨fun h => ⟨honce ▸ h, hmin⟩, hh ▸ le_rfl⟩
  ok := hok
  rows := hrows
  not_start := hpc
  progress := hlt
  heapCount := by simp only [MemoryPartition.heapCount, hh, hnum, sub_self, add_zero]
  numPoints := hadd
  sets_min := fun h h' => by rw [honce, h] at h'; cases h'

/-- A step that leaves the partition as it was and counts no row. -/
theorem StepSpec.of_same {p : MemoryPartition} {c c' : InsertRowsCall} (hwf : p.WF)
    (hok : c'.Ok p) (hrows : c'.rows = c.rows) (hpc : c'.pc ≠ .start)
    (hlt : c'.stepsLeft < c.stepsLeft) (hnum : c'.rowsNum = c.rowsNum)
    (hadd : c'.addedRows = c.addedRows) : StepSpec p c p c' :=
  .of_keep hwf rfl rfl rfl rfl hok hrows hpc hlt hnum (by rw [hadd, sub_self, add_zero])

theorem outdatedOf_take_succ (minT : Int) {rows : List Row} {i : Nat} {row : Row}
    (h : rows[i]? = some row) :
    outdatedOf minT (rows.take (i + 1)) =
      outdatedOf minT (rows.take i) ++ if row.point.timestamp < minT then [row] else [] := by
  rw [List.take_succ, h, outdatedOf, List.filter_append]
  by_cases hlt : row.point.timestamp < minT <;> simp [hlt, outdatedOf]

variable (sortSlice : NameSort) (now : Int)

/-- Every step of a call that keeps `Ok` on a well-formed partition meets `StepSpec`. -/
theorem insertRowsStep_spec {p : MemoryPartition} {c : InsertRowsCall} (hwf : p.WF)
    (hok : c.Ok p) (hrun : c.returned = false) :
    StepSpec p c (insertRowsStep sortSlice now p c).1 (insertRowsStep sortSlice now p c).2 := by
  obtain ⟨rows, pc, outdated, maxTs, rowsNum⟩ := c
  cases pc <;> simp only [InsertRowsCall.Ok, InsertRowsCall.Checked, InsertRowsCall.Accepted] at hok
  case start =>
    obtain ⟨rfl, rfl⟩ := hok
    cases rows with
    | nil =>
      simp only [insertRowsStep]
      exact .of_same hwf ⟨rfl, rfl, rfl⟩ rfl (by simp) (by simp [InsertRowsCall.stepsLeft])
        rfl rfl
    | cons first rest =>
      have hchk : InsertRowsCall.Checked ⟨first :: rest, .row 0, [], first.point.timestamp, 0⟩
          (if p.once then p.minT else batchMin first (first :: rest)) 0 := ⟨rfl, rfl⟩
      by_cases ho : p.once = true
      · simp only [insertRowsStep, ho, ↓reduceIte, if_pos ho] at hchk ⊢
        exact .of_same hwf ⟨ho, by simp, hchk⟩ rfl (by simp)
          (by simp [InsertRowsCall.stepsLeft]) rfl rfl
      · simp only [insertRowsStep, ho, Bool.false_eq_true, ↓reduceIte] at hchk ⊢
        refine ⟨hwf.of_eq rfl rfl, ⟨fun h => absurd h ho, le_rfl⟩, ⟨rfl, by simp, hchk⟩, rfl,
          by simp, by simp [InsertRowsCall.stepsLeft], ?_, by simp [InsertRowsCall.addedRows],
          fun _ _ => ⟨first, rest, rfl, rfl⟩⟩
        simp [MemoryPartition.heapCount]
  case row i =>
    obtain ⟨ho, hle, hout, hnum⟩ := hok
    cases hri : rows[i]? with
    | none =>
      have hi : i = rows.length := le_antisymm hle (List.getElem?_eq_none_iff.1 hri)
      subst hi
      simp only [insertRowsStep, hri]
      exact .of_same hwf ⟨ho, hout, hnum⟩ rfl (by simp)
        (by simp [InsertRowsCall.stepsLeft]) rfl rfl
    | some row =>
      have hi : i < rows.length := (List.getElem?_eq_some_iff.1 hri).1
      simp only [insertRowsStep, hri]
      split
      · rename_i hlt
        refine .of_same hwf ⟨ho, hi, ?_, ?_⟩ rfl (by simp)
          (by dsimp only [InsertRowsCall.stepsLeft]; omega) rfl rfl
        · simp only [hout, outdatedOf_take_succ p.minT hri, if_pos hlt]
        · simp only [List.length_append, List.length_singleton]
          omega
      · rename_i hge
        exact .of_same hwf ⟨ho, row, hri, hge, hout, hnum⟩ rfl (by simp)
          (by dsimp only [InsertRowsCall.stepsLeft]; omega) rfl rfl
  case load i row =>
    obtain ⟨ho, hacc⟩ := hok
    simp only [insertRowsStep]
    split
    · rename_i addr hkey
      exact .of_same hwf ⟨ho, hacc, hwf.addr_lt _ _ hkey, by decide, by decide⟩
        rfl (by simp) (by simp [InsertRowsCall.stepsLeft, InsertPc.stepsLeft]) rfl
        rfl
    · exact .of_same hwf ⟨ho, hacc⟩ rfl (by simp)
        (by simp [InsertRowsCall.stepsLeft]) rfl rfl
  case store i row =>
    obtain ⟨ho, hacc⟩ := hok
    simp only [insertRowsStep]
    refine ⟨hwf.storeFresh _, ⟨fun h => ⟨h, rfl⟩, by simp [storeFresh]⟩,
      ⟨ho, hacc, by simp [storeFresh], by decide, by decide⟩, rfl, by simp,
      by simp [InsertRowsCall.stepsLeft, InsertPc.stepsLeft], ?_, ?_, fun h h' => ?_⟩
    · simp only [heapCount_storeFresh, sub_self, add_zero]
    · simp [storeFresh, InsertRowsCall.addedRows]
    · simp only [storeFresh] at h'
      rw [h] at h'
      cases h'
  case insert i row addr ipc =>
    obtain ⟨ho, ⟨r, hri, hge, hout, hnum⟩, hlt, hnd, hnp⟩ := hok
    have hm := List.getElem?_eq_getElem hlt
    have hmi := hwf.series _ (List.getElem_mem hlt)
    have hi : i < rows.length := (List.getElem?_eq_some_iff.1 hri).1
    set m := p.heap[addr]
    have hset := heapCount_set hm (insertPoint row.point m ipc).1
    have hwf' := hwf.set addr (insertPoint_inv hmi row.point ipc)
    simp only [insertRowsStep, hm]
    rcases insertPoint_stored row.point m hnd with ⟨hdone, hperm⟩ | ⟨hnd', hsame⟩
    · rw [if_pos hdone]
      dsimp only
      refine ⟨hwf', ⟨fun h => ⟨h, rfl⟩, by simp⟩, ⟨ho, hi, ?_, ?_⟩, rfl, by simp, ?_, ?_,
        by simp [InsertRowsCall.addedRows], fun h h' => by rw [h] at h'; cases h'⟩
      · simp only [hout, outdatedOf_take_succ p.minT hri, if_neg hge, List.append_nil]
      · dsimp only
        omega
      · have := InsertPc.stepsLeft_pos.2 ⟨hnd, hnp⟩
        dsimp only [InsertRowsCall.stepsLeft]
        omega
      · rw [hset, hperm.length_eq, List.length_cons]
        dsimp only
        omega
    · rw [if_neg hnd']
      dsimp only
      refine ⟨hwf', ⟨fun h => ⟨h, rfl⟩, by simp⟩,
        ⟨ho, ⟨r, hri, hge, hout, hnum⟩, by simpa using hlt, hnd',
          insertPoint_ne_panicked hmi row.point hnp⟩, rfl, by simp, ?_, ?_,
        by simp [InsertRowsCall.addedRows], fun h h' => by rw [h] at h'; cases h'⟩
      · have := insertPoint_stepsLeft row.point m (InsertPc.stepsLeft_pos.2 ⟨hnd, hnp⟩)
        dsimp only [InsertRowsCall.stepsLeft]
        omega
      · rw [hset, hsame, sub_self, add_zero, sub_self, add_zero]
  case addNumPoints =>
    obtain ⟨ho, hchk⟩ := hok
    simp only [insertRowsStep]
    exact .of_keep hwf rfl rfl rfl rfl ⟨ho, hchk⟩ rfl (by simp)
      (by simp [InsertRowsCall.stepsLeft]) rfl (by simp [InsertRowsCall.addedRows])
  case loadMaxT =>
    obtain ⟨ho, hchk⟩ := hok
    simp only [insertRowsStep]
    split
    · exact .of_same hwf ⟨ho, hchk⟩ rfl (by simp)
        (by simp [InsertRowsCall.stepsLeft]) rfl rfl
    · exact .of_same hwf ⟨ho, hchk, rfl⟩ rfl (by simp)
        (by simp [InsertRowsCall.stepsLeft]) rfl rfl
  case swapMaxT =>
    obtain ⟨ho, hchk⟩ := hok
    simp only [insertRowsStep]
    exact .of_keep hwf rfl rfl rfl rfl ⟨ho, hchk, rfl⟩ rfl (by simp)
      (by simp [InsertRowsCall.stepsLeft]) rfl (by simp [InsertRowsCall.addedRows])
  all_goals simp [InsertRowsCall.returned] at hrun

end MemoryPartition

namespace PartitionSystem

open MemoryPartition

/-- What holds at every step boundary of every interleaving of `insertRows` calls on a new
partition: the partition is well formed, every call keeps `Ok`, the heap holds as many points
as the calls have counted, `numPoints` is the sum of what they have added, and a set minimum
is the minimum of the batch of a call that has run its `once.Do`. -/
structure Inv (s : Config MemoryPartition InsertRowsCall) : Prop where
  wf : s.shared.WF
  calls : ∀ c ∈ s.calls, c.Ok s.shared
  heapCount : s.shared.heapCount = (s.calls.map (·.rowsNum)).sum
  numPoints : s.shared.numPoints = (s.calls.map (·.addedRows)).sum
  minT : s.shared.once = true → ∃ c ∈ s.calls, c.pc ≠ .start ∧
    ∃ first rest, c.rows = first :: rest ∧ s.shared.minT = batchMin first c.rows

theorem init_inv (partitionDuration : Int) (precision : TimestampPrecision)
    (batches : List (List Row)) : Inv (init (newMemoryPartition partitionDuration precision) batches) where
  wf := ⟨by simp [init, newMemoryPartition], by simp [init, newMemoryPartition],
    by simp [init, newMemoryPartition]⟩
  calls := by simp [init, InsertRowsCall.Ok]
  heapCount := by simp [init, heapCount, newMemoryPartition, Function.comp_def, nsmul_zero]
  numPoints := by simp [init, InsertRowsCall.addedRows, newMemoryPartition, Function.comp_def, nsmul_zero]
  minT := by simp [init, newMemoryPartition]

variable {sortSlice : NameSort}

/-- A step of the call `c`, between the calls `A` before it and `B` after it, keeps the
invariant. -/
theorem Inv.step_at {p : MemoryPartition} {A B : List InsertRowsCall} {c : InsertRowsCall}
    (h : Inv ⟨p, A ++ c :: B⟩) (hrun : c.returned = false) (now : Int) :
    Inv ⟨(insertRowsStep sortSlice now p c).1, A ++ (insertRowsStep sortSlice now p c).2 :: B⟩ := by
  have hspec := insertRowsStep_spec sortSlice now (p := p) h.wf (h.calls c (by simp)) hrun
  have hother : ∀ x, x ∈ A ∨ x ∈ B → x.Ok (insertRowsStep sortSlice now p c).1 :=
    fun x hx => (h.calls x (by rcases hx with hx | hx <;> simp [hx])).grow hspec.grows
  refine ⟨hspec.wf, fun x hx => ?_, ?_, ?_, fun ho' => ?_⟩
  · rcases List.mem_append.1 hx with hx | hx
    · exact hother x (.inl hx)
    rcases List.mem_cons.1 hx with rfl | hx
    · exact hspec.ok
    · exact hother x (.inr hx)
  · have := h.heapCount
    simp only [List.map_append, List.map_cons, List.sum_append, List.sum_cons] at this ⊢
    rw [hspec.heapCount]
    omega
  · have := h.numPoints
    simp only [List.map_append, List.map_cons, List.sum_append, List.sum_cons] at this ⊢
    rw [hspec.numPoints]
    omega
  · by_cases ho : p.once = true
    · obtain ⟨w, hw, hws, first, rest, hrows, hmin⟩ := h.minT ho
      rw [(hspec.grows.1 ho).2, hmin]
      rcases List.mem_append.1 hw with hw | hw
      · exact ⟨w, by simp [hw], hws, first, rest, hrows, rfl⟩
      rcases List.mem_cons.1 hw with rfl | hw
      · exact ⟨_, by simp, hspec.not_start, first, rest, hspec.rows.trans hrows, by rw [hspec.rows]⟩
      · exact ⟨w, by simp [hw], hws, first, rest, hrows, rfl⟩
    · obtain ⟨first, rest, hrows, hmin⟩ := hspec.sets_min (by simpa using ho) ho'
      exact ⟨_, by simp, hspec.not_start, first, rest, hspec.rows.trans hrows,
        by rw [hspec.rows]; exact hmin⟩

/-- One scheduled step keeps the invariant. -/
theorem Inv.step {s t : Config MemoryPartition InsertRowsCall} (h : Inv s)
    (hs : Config.Step (insertRowsCalls sortSlice) s t) : Inv t := by
  obtain ⟨hc, hrun, now⟩ := hs
  rename_i i c
  obtain ⟨A, B, hl, hset⟩ := exists_set_split (insertRowsStep sortSlice now s.shared c).2 hc
  simp only [Config.stepCall, hc, insertRowsCalls, hset]
  exact Inv.step_at (by rw [← hl]; exact h) hrun now

/-- `getMetric`'s `Store` by a caller beside the calls keeps the invariant. -/
theorem Inv.storeFresh {p : MemoryPartition} {cs : List InsertRowsCall} (h : Inv ⟨p, cs⟩)
    (name : List UInt8) : Inv ⟨(p.storeFresh name).1, cs⟩ where
  wf := h.wf.storeFresh name
  calls c hc := (h.calls c hc).grow ⟨fun h => ⟨h, rfl⟩, by simp [MemoryPartition.storeFresh]⟩
  heapCount := (heapCount_storeFresh p name).trans h.heapCount
  numPoints := h.numPoints
  minT := h.minT

/-- A step lowers the calls' total measure of steps left and lets the partition only grow. -/
theorem Inv.step_progress {s t : Config MemoryPartition InsertRowsCall} (h : Inv s)
    (hs : Config.Step (insertRowsCalls sortSlice) s t) :
    (t.calls.map InsertRowsCall.stepsLeft).sum < (s.calls.map InsertRowsCall.stepsLeft).sum ∧
      s.shared.Grows t.shared := by
  obtain ⟨hc, hrun, now⟩ := hs
  rename_i i c
  have hspec := insertRowsStep_spec sortSlice now h.wf (h.calls c (List.mem_iff_getElem?.2 ⟨i, hc⟩)) hrun
  obtain ⟨A, B, hl, hset⟩ := exists_set_split (insertRowsStep sortSlice now s.shared c).2 hc
  simp only [Config.stepCall, hc, insertRowsCalls, hset]
  rw [hl]
  simp only [List.map_append, List.map_cons, List.sum_append, List.sum_cons]
  exact ⟨by have := hspec.progress; omega, hspec.grows⟩

variable {partitionDuration : Int} {precision : TimestampPrecision} {batches : List (List Row)}

theorem reachable_inv {s : Config MemoryPartition InsertRowsCall}
    (h : Config.Reachable (insertRowsCalls sortSlice)
      (init (newMemoryPartition partitionDuration precision) batches) s) : Inv s :=
  h.inv (init_inv partitionDuration precision batches) fun _ hi hs => hi.step hs

/-- From a reachable configuration, every later one only grows the partition. -/
theorem reachable_grows {s t : Config MemoryPartition InsertRowsCall}
    (h₀ : Config.Reachable (insertRowsCalls sortSlice)
      (init (newMemoryPartition partitionDuration precision) batches) s)
    (h : Config.Reachable (insertRowsCalls sortSlice) s t) : s.shared.Grows t.shared := by
  induction h with
  | init => exact .refl _
  | tail hr hs ih => exact ih.trans ((reachable_inv (h₀.trans hr)).step_progress hs).2

/-- A call that has returned counted every row of its batch it did not return as outdated
and added them all to `numPoints`. -/
theorem Inv.returned_counts {s : Config MemoryPartition InsertRowsCall} (h : Inv s)
    {c : InsertRowsCall} (hc : c ∈ s.calls) (hret : c.returned = true) :
    c.addedRows = c.rowsNum ∧ c.rowsNum = c.rows.length - c.outdatedRows.length := by
  have hok := h.calls c hc
  unfold InsertRowsCall.returned at hret
  unfold InsertRowsCall.Ok at hok
  unfold InsertRowsCall.addedRows
  split at hret
  · rename_i o hpc
    rw [hpc] at hok ⊢
    obtain ⟨-, ⟨-, hnum⟩, -⟩ := hok
    exact ⟨rfl, by omega⟩
  · rename_i e hpc
    rw [hpc] at hok ⊢
    obtain ⟨hrows, hout, hnum⟩ := hok
    simp [hrows, hout, hnum]
  · cases hret

end PartitionSystem

open PartitionSystem MemoryPartition

variable {sortSlice : NameSort} {partitionDuration : Int} {precision : TimestampPrecision}
  {batches : List (List Row)} {s : Config MemoryPartition InsertRowsCall}

/-- At every step boundary of every interleaving of `insertRows` calls on a new partition,
with any clock reading at each step, the partition is well formed: every key of the map names
a series of the heap, no two keys the same one, and every series keeps the series invariant
(in-order points strictly increasing, `size`, `minTimestamp` and `maxTimestamp` agreeing with
them, no out-of-order point past the last in-order one). -/
theorem insertRows_interleaving_wf
    (h : Config.Reachable (insertRowsCalls sortSlice)
      (PartitionSystem.init (newMemoryPartition partitionDuration precision) batches) s) :
    s.shared.WF :=
  (reachable_inv h).wf

theorem insertRows_interleaving_wf_race :
    Config.Reachable (insertRowsCalls NameSort.insertion)
        (PartitionSystem.init (newMemoryPartition 3600000000000 .nanoseconds) raceBatches)
        raceRun ∧
      raceRun.shared.WF :=
  have hr : Config.Reachable (insertRowsCalls NameSort.insertion)
      (PartitionSystem.init (newMemoryPartition 3600000000000 .nanoseconds) raceBatches)
      raceRun := Config.Reachable.run .init (by decide)
  ⟨hr, insertRows_interleaving_wf hr⟩

/-- Every interleaving of `insertRows` calls on a new partition is finite: whatever the
scheduler and the clock, it has at most `7 * rows.length + 5` steps per call, so no step
leaves a call where it was and every call returns. -/
theorem insertRows_interleaving_steps_le {n : Nat}
    (h : Config.RunsFor (insertRowsCalls sortSlice)
      (PartitionSystem.init (newMemoryPartition partitionDuration precision) batches) s n) :
    n ≤ (batches.map fun rows => 7 * rows.length + 5).sum := by
  have hb := h.add_le_measure (fun s => (s.calls.map InsertRowsCall.stepsLeft).sum)
    fun hr hs => ((reachable_inv hr).step_progress hs).1
  simp only [PartitionSystem.init, List.map_map, Function.comp_def, InsertRowsCall.stepsLeft] at hb
  omega

theorem insertRows_interleaving_steps_le_race :
    Config.RunsFor (insertRowsCalls NameSort.insertion)
        (PartitionSystem.init (newMemoryPartition 3600000000000 .nanoseconds) raceBatches)
        raceRun (0 + raceSchedule.length) ∧
      0 + raceSchedule.length ≤ (raceBatches.map fun rows => 7 * rows.length + 5).sum :=
  have hr : Config.RunsFor (insertRowsCalls NameSort.insertion)
      (PartitionSystem.init (newMemoryPartition 3600000000000 .nanoseconds) raceBatches)
      raceRun (0 + raceSchedule.length) := Config.RunsFor.run .init (by decide)
  ⟨hr, insertRows_interleaving_steps_le hr⟩

/-- Over every interleaving of `insertRows` calls on a new partition `minTimestamp()` is set
once: after the first `once.Do` it is the minimum raw timestamp of that call's batch, no later
step changes it, and every call that has returned gave back exactly the rows of its batch
whose raw timestamp is below it. -/
theorem insertRows_interleaving_minT
    (h : Config.Reachable (insertRowsCalls sortSlice)
      (PartitionSystem.init (newMemoryPartition partitionDuration precision) batches) s) :
    (s.shared.once = true → ∃ c ∈ s.calls, c.pc ≠ .start ∧ ∃ first rest,
      c.rows = first :: rest ∧
        s.shared.minTimestamp = (c.rows.map fun r => r.point.timestamp).foldl min
          first.point.timestamp) ∧
      (s.shared.once = true → ∀ t, Config.Reachable (insertRowsCalls sortSlice) s t →
        t.shared.minTimestamp = s.shared.minTimestamp) ∧
      ∀ c ∈ s.calls, ∀ outdatedRows, c.pc = .done outdatedRows →
        outdatedRows = outdatedOf s.shared.minTimestamp c.rows := by
  have hi := reachable_inv h
  refine ⟨fun ho => ?_, fun ho t ht => ((reachable_grows h ht).1 ho).2, fun c hc o hpc => ?_⟩
  · obtain ⟨c, hc, hpc, first, rest, hrows, hmin⟩ := hi.minT ho
    exact ⟨c, hc, hpc, first, rest, hrows, by rw [minTimestamp, hmin, ← batchMin_eq]⟩
  · have hok := hi.calls c hc
    unfold InsertRowsCall.Ok at hok
    rw [hpc] at hok
    obtain ⟨-, ⟨hout, -⟩, rfl⟩ := hok
    rw [hout, List.take_length]
    rfl

theorem insertRows_interleaving_minT_race :
    Config.Reachable (insertRowsCalls NameSort.insertion)
        (PartitionSystem.init (newMemoryPartition 3600000000000 .nanoseconds) raceBatches)
        raceRun ∧
      (raceRun.shared.once = true → ∃ c ∈ raceRun.calls, c.pc ≠ .start ∧ ∃ first rest,
        c.rows = first :: rest ∧
          raceRun.shared.minTimestamp = (c.rows.map fun r => r.point.timestamp).foldl min
            first.point.timestamp) ∧
        (raceRun.shared.once = true → ∀ t, Config.Reachable (insertRowsCalls NameSort.insertion)
          raceRun t → t.shared.minTimestamp = raceRun.shared.minTimestamp) ∧
        ∀ c ∈ raceRun.calls, ∀ outdatedRows, c.pc = .done outdatedRows →
          outdatedRows = outdatedOf raceRun.shared.minTimestamp c.rows :=
  have hr : Config.Reachable (insertRowsCalls NameSort.insertion)
      (PartitionSystem.init (newMemoryPartition 3600000000000 .nanoseconds) raceBatches)
      raceRun := Config.Reachable.run .init (by decide)
  ⟨hr, insertRows_interleaving_minT hr⟩

/-- Over every interleaving of `insertRows` calls on a new partition, the series of the heap,
orphaned ones included, hold together exactly as many points as the calls have counted, and
`size()` is the sum of the counts of the calls past their atomic add. Once every call has
returned, `size()` is both the number of points held in memory and the number of rows the
calls did not return as outdated: a point that a race of `getMetric` hides from the map is
still counted and still held. -/
theorem insertRows_interleaving_counts
    (h : Config.Reachable (insertRowsCalls sortSlice)
      (PartitionSystem.init (newMemoryPartition partitionDuration precision) batches) s) :
    s.shared.heapCount = (s.calls.map (·.rowsNum)).sum ∧
      s.shared.size = (s.calls.map (·.addedRows)).sum ∧
      ((∀ c ∈ s.calls, c.returned = true) →
        s.shared.size = s.shared.heapCount ∧
          s.shared.size = (s.calls.map fun c => (c.rows.length : Int) - c.outdatedRows.length).sum) := by
  have hi := reachable_inv h
  refine ⟨hi.heapCount, hi.numPoints, fun hret => ?_⟩
  have hcounts := fun c hc => hi.returned_counts hc (hret c hc)
  rw [size, hi.numPoints, hi.heapCount, List.map_congr_left fun c hc => (hcounts c hc).1]
  exact ⟨rfl, congrArg List.sum (List.map_congr_left fun c hc => (hcounts c hc).2)⟩

theorem insertRows_interleaving_counts_race :
    Config.Reachable (insertRowsCalls NameSort.insertion)
        (PartitionSystem.init (newMemoryPartition 3600000000000 .nanoseconds) raceBatches)
        raceRun ∧
      raceRun.shared.heapCount = (raceRun.calls.map (·.rowsNum)).sum ∧
      raceRun.shared.size = (raceRun.calls.map (·.addedRows)).sum ∧
      ((∀ c ∈ raceRun.calls, c.returned = true) →
        raceRun.shared.size = raceRun.shared.heapCount ∧
          raceRun.shared.size =
            (raceRun.calls.map fun c => (c.rows.length : Int) - c.outdatedRows.length).sum) :=
  have hr : Config.Reachable (insertRowsCalls NameSort.insertion)
      (PartitionSystem.init (newMemoryPartition 3600000000000 .nanoseconds) raceBatches)
      raceRun := Config.Reachable.run .init (by decide)
  ⟨hr, insertRows_interleaving_counts hr⟩

/-- A query run without interruption between any two steps of any interleaving of
`insertRows` calls on a new partition, with `start ≤ end`, never panics: it answers the
in-order points of `[start, end)` of the series the map holds under its key, and leaves the
partition well formed. -/
theorem selectDataPoints_interleaving
    (h : Config.Reachable (insertRowsCalls sortSlice)
      (PartitionSystem.init (newMemoryPartition partitionDuration precision) batches) s)
    (metric : List UInt8) (labels : List Label) {start «end» : Int} (hse : start ≤ «end») :
    (s.shared.selectDataPoints sortSlice metric labels start «end»).1.WF ∧
      (s.shared.selectDataPoints sortSlice metric labels start «end»).2 =
        some ((s.shared.inOrderPoints (marshalMetricName sortSlice metric labels)).filter
          fun p => start ≤ p.timestamp ∧ p.timestamp < «end») := by
  have hwf := (reachable_inv h).wf
  refine ⟨(getMetric_wf hwf _).1, ?_⟩
  cases hkey : s.shared.metrics (marshalMetricName sortSlice metric labels) with
  | none =>
    rw [selectDataPoints_missing hkey, inOrderPoints, hkey]
    rfl
  | some addr =>
    have hm := List.getElem?_eq_getElem (hwf.addr_lt _ _ hkey)
    have hinv := hwf.series _ (List.getElem_mem (hwf.addr_lt _ _ hkey))
    simp only [selectDataPoints, getMetric, hkey, hm, inOrderPoints, Option.some_bind,
      Option.map_some', Option.getD_some, hinv.selectPoints]
    rw [if_neg fun ⟨_, p, _, hp⟩ => by omega]

theorem selectDataPoints_interleaving_race :
    Config.Reachable (insertRowsCalls NameSort.insertion)
        (PartitionSystem.init (newMemoryPartition 3600000000000 .nanoseconds) raceBatches)
        raceRun ∧ (0 : Int) ≤ 10 ∧
      (raceRun.shared.selectDataPoints NameSort.insertion [109] [] 0 10).1.WF ∧
      (raceRun.shared.selectDataPoints NameSort.insertion [109] [] 0 10).2 =
        some ((raceRun.shared.inOrderPoints (marshalMetricName NameSort.insertion [109] [])).filter
          fun p => 0 ≤ p.timestamp ∧ p.timestamp < 10) :=
  have hr : Config.Reachable (insertRowsCalls NameSort.insertion)
      (PartitionSystem.init (newMemoryPartition 3600000000000 .nanoseconds) raceBatches)
      raceRun := Config.Reachable.run .init (by decide)
  ⟨hr, by decide, selectDataPoints_interleaving hr [109] [] (by decide)⟩

end EmbedTSDB
