import Mathlib.Data.List.Perm.Basic
import Mathlib.Data.List.Pairwise

/-! The in-memory series `memoryMetric` of `memory_partition.go`. A call of `insertPoint`
is cut into its atomic steps: one per atomic load outside the lock and one per locked
section, so that concurrent calls may run between any two of them. -/
namespace EmbedTSDB

/-- `DataPoint`. The `float64` value is kept as its IEEE bits: no modelled code reads it. -/
structure DataPoint where
  timestamp : Int
  value : UInt64
  deriving DecidableEq, Repr

/-- `memoryMetric`. Its name is written once by `getMetric` and never read, and its lock is
the atomicity of the steps of `insertPoint`, so neither is a field here. -/
structure MemoryMetric where
  size : Int
  minTimestamp : Int
  maxTimestamp : Int
  points : List DataPoint
  outOfOrderPoints : List DataPoint
  deriving DecidableEq, Repr

namespace MemoryMetric

/-- The metric `getMetric` creates for a name it does not find. -/
def fresh : MemoryMetric := ⟨0, 0, 0, [], []⟩

/-- The read-locked read of the fast path: the last in-order timestamp, `0` for none. -/
def lastTimestamp (m : MemoryMetric) : Int :=
  match m.points.getLast? with
  | some p => p.timestamp
  | none => 0

/-- The in-order append shared by the fast path and the slow path. -/
def appendPoint (m : MemoryMetric) (point : DataPoint) : MemoryMetric :=
  { m with points := m.points ++ [point], maxTimestamp := point.timestamp, size := m.size + 1 }

/-- The slow path's first insertion. -/
def firstPoint (m : MemoryMetric) (point : DataPoint) : MemoryMetric :=
  { m.appendPoint point with minTimestamp := point.timestamp }

/-- The slow path's out-of-order append. -/
def appendOutOfOrder (m : MemoryMetric) (point : DataPoint) : MemoryMetric :=
  { m with outOfOrderPoints := m.outOfOrderPoints ++ [point] }

/-- Everything the metric stores. -/
def stored (m : MemoryMetric) : List DataPoint := m.points ++ m.outOfOrderPoints

end MemoryMetric

/-- Where a call of `insertPoint` stands: before its load of `size`, before the read-locked
read of the last timestamp, before the write-locked double check of the fast path, before
the write-locked slow path, returned, or stopped by the panic of an out-of-range index. -/
inductive InsertPc
  | loadSize
  | readLast
  | appendLocked
  | slowPath
  | done
  | panicked
  deriving DecidableEq, Repr

open MemoryMetric

/-- One atomic step of `insertPoint(point)` on `m` from `pc`: the new metric and where the
call stands next. -/
def insertPoint (point : DataPoint) (m : MemoryMetric) : InsertPc → MemoryMetric × InsertPc
  | .loadSize => (m, if m.size > 0 then .readLast else .slowPath)
  | .readLast => (m, if point.timestamp > m.lastTimestamp then .appendLocked else .slowPath)
  | .appendLocked =>
    match m.points.getLast? with
    | some last =>
      if point.timestamp > last.timestamp then (m.appendPoint point, .done) else (m, .slowPath)
    | none => (m, .slowPath)
  | .slowPath =>
    if m.size = 0 then (m.firstPoint point, .done)
    else if m.size > 0 ∧ m.points ≠ [] then
      match m.points[(m.size - 1).toNat]? with
      | some last =>
        if last.timestamp < point.timestamp then (m.appendPoint point, .done)
        else (m.appendOutOfOrder point, .done)
      | none => (m, .panicked)
    else (m.appendOutOfOrder point, .done)
  | .done => (m, .done)
  | .panicked => (m, .panicked)

namespace MemoryMetric

@[simp] theorem stored_appendPoint (m : MemoryMetric) (p : DataPoint) :
    (m.appendPoint p).stored.Perm (p :: m.stored) := by
  simp only [stored, appendPoint, List.append_assoc, List.singleton_append]
  exact List.perm_middle

@[simp] theorem stored_firstPoint (m : MemoryMetric) (p : DataPoint) :
    (m.firstPoint p).stored.Perm (p :: m.stored) :=
  m.stored_appendPoint p

@[simp] theorem stored_appendOutOfOrder (m : MemoryMetric) (p : DataPoint) :
    (m.appendOutOfOrder p).stored.Perm (p :: m.stored) := by
  simp only [stored, appendOutOfOrder, ← List.append_assoc]
  exact List.perm_append_comm

end MemoryMetric

/-- Everything one step of `insertPoint` can do: leave the metric alone without returning,
or return after an in-order append behind a smaller last point, a first insertion into an
empty metric, or an out-of-order append that no indexed last point exceeds. -/
theorem insertPoint_cases (p : DataPoint) (m : MemoryMetric) (pc : InsertPc) :
    ((insertPoint p m pc).1 = m ∧ ((insertPoint p m pc).2 = .done → pc = .done)) ∨
      (pc ≠ .done ∧ (insertPoint p m pc).2 = .done ∧
        ((∃ last, (m.points.getLast? = some last ∨ m.points[(m.size - 1).toNat]? = some last) ∧
            last.timestamp < p.timestamp ∧ (insertPoint p m pc).1 = m.appendPoint p) ∨
          (m.size = 0 ∧ (insertPoint p m pc).1 = m.firstPoint p) ∨
          (m.size ≠ 0 ∧ (m.size > 0 ∧ m.points ≠ [] →
              ∀ last, m.points[(m.size - 1).toNat]? = some last → p.timestamp ≤ last.timestamp) ∧
            (insertPoint p m pc).1 = m.appendOutOfOrder p))) := by
  cases pc with
  | loadSize => left; simp only [insertPoint]; split <;> simp
  | readLast => left; simp only [insertPoint]; split <;> simp
  | done => left; simp [insertPoint]
  | panicked => left; simp [insertPoint]
  | appendLocked =>
    simp only [insertPoint]
    split
    · rename_i last hlast
      split
      · exact .inr ⟨by simp, rfl, .inl ⟨last, .inl hlast, by omega, rfl⟩⟩
      · simp
    · simp
  | slowPath =>
    simp only [insertPoint]
    split
    · exact .inr ⟨by simp, rfl, .inr (.inl ⟨‹_›, rfl⟩)⟩
    split
    · split
      · rename_i last hlast
        split
        · exact .inr ⟨by simp, rfl, .inl ⟨last, .inr hlast, ‹_›, rfl⟩⟩
        · refine .inr ⟨by simp, rfl, .inr (.inr ⟨‹_›, fun _ l hl => ?_, rfl⟩)⟩
          rw [hlast, Option.some.injEq] at hl
          subst hl
          omega
      · simp
    · exact .inr ⟨by simp, rfl, .inr (.inr ⟨‹_›, fun h => absurd h ‹_›, rfl⟩)⟩

/-- In a strictly increasing list no timestamp exceeds the last one. -/
theorem le_last_of_sorted {l : List DataPoint} {last : DataPoint}
    (hs : l.Pairwise fun p q => p.timestamp < q.timestamp) (hlast : l.getLast? = some last) :
    ∀ a ∈ l, a.timestamp ≤ last.timestamp := by
  obtain ⟨ys, rfl⟩ := List.getLast?_eq_some_iff.1 hlast
  intro a ha
  rcases List.mem_append.1 ha with ha | ha
  · exact Int.le_of_lt ((List.pairwise_append.1 hs).2.2 a ha last (List.mem_singleton_self _))
  · exact List.mem_singleton.1 ha ▸ Int.le_refl _

namespace MemoryMetric

/-- The representation invariant of a series: in-order points strictly increase, `size`
counts them, the bounds are their first and last timestamps, and no out-of-order point is
later than the last in-order one. -/
structure Inv (m : MemoryMetric) : Prop where
  sorted : m.points.Pairwise fun p q => p.timestamp < q.timestamp
  size_eq : m.size = m.points.length
  min_eq : ∀ p ∈ m.points.head?, m.minTimestamp = p.timestamp
  max_eq : ∀ p ∈ m.points.getLast?, m.maxTimestamp = p.timestamp
  outOfOrder_le : ∀ q ∈ m.outOfOrderPoints, ∃ last ∈ m.points.getLast?,
    q.timestamp ≤ last.timestamp

theorem fresh_inv : fresh.Inv where
  sorted := List.Pairwise.nil
  size_eq := rfl
  min_eq := by simp [fresh]
  max_eq := by simp [fresh]
  outOfOrder_le := by simp [fresh]

variable {m : MemoryMetric} {p last : DataPoint}

/-- Under the invariant the slow path's index `size - 1` reads the last in-order point. -/
theorem Inv.getElem?_size_sub_one (h : m.Inv) :
    m.points[(m.size - 1).toNat]? = m.points.getLast? := by
  rw [List.getLast?_eq_getElem?, h.size_eq]
  congr 1
  omega

theorem Inv.appendPoint (h : m.Inv) (hlast : m.points.getLast? = some last)
    (hlt : last.timestamp < p.timestamp) : (m.appendPoint p).Inv where
  sorted := List.pairwise_append.2 ⟨h.sorted, List.pairwise_singleton _ _, fun a ha b hb => by
    rw [List.mem_singleton.1 hb]
    exact Int.lt_of_le_of_lt (le_last_of_sorted h.sorted hlast a ha) hlt⟩
  size_eq := by simp [MemoryMetric.appendPoint, h.size_eq]
  min_eq q hq := h.min_eq q <| by
    rwa [MemoryMetric.appendPoint, List.head?_append_of_ne_nil _
      (List.getLast?_isSome.1 (by simp [hlast]))] at hq
  max_eq q hq := by simp_all [MemoryMetric.appendPoint]
  outOfOrder_le q hq := by
    obtain ⟨l, hl, hle⟩ := h.outOfOrder_le q hq
    rw [hlast, Option.mem_def, Option.some.injEq] at hl
    subst hl
    exact ⟨p, by simp [MemoryMetric.appendPoint], by omega⟩

theorem Inv.firstPoint (h : m.Inv) (hsize : m.size = 0) : (m.firstPoint p).Inv := by
  have hnil : m.points = [] := List.length_eq_zero.1 (by have := h.size_eq; omega)
  have hooo : m.outOfOrderPoints = [] := List.eq_nil_iff_forall_not_mem.2 fun q hq => by
    simpa [hnil] using h.outOfOrder_le q hq
  exact ⟨by simp [MemoryMetric.firstPoint, MemoryMetric.appendPoint, hnil],
    by simp [MemoryMetric.firstPoint, MemoryMetric.appendPoint, hnil, hsize],
    by simp [MemoryMetric.firstPoint, MemoryMetric.appendPoint, hnil],
    by simp [MemoryMetric.firstPoint, MemoryMetric.appendPoint, hnil],
    by simp [MemoryMetric.firstPoint, MemoryMetric.appendPoint, hooo]⟩

theorem Inv.appendOutOfOrder (h : m.Inv) (hlast : m.points.getLast? = some last)
    (hle : p.timestamp ≤ last.timestamp) : (m.appendOutOfOrder p).Inv where
  sorted := h.sorted
  size_eq := h.size_eq
  min_eq := h.min_eq
  max_eq := h.max_eq
  outOfOrder_le q hq := by
    rcases List.mem_append.1 hq with hq | hq
    · exact h.outOfOrder_le q hq
    · exact ⟨last, hlast, List.mem_singleton.1 hq ▸ hle⟩

end MemoryMetric

open MemoryMetric

/-- Every step of `insertPoint` keeps the representation invariant. -/
theorem insertPoint_inv {m : MemoryMetric} (h : m.Inv) (p : DataPoint) (pc : InsertPc) :
    (insertPoint p m pc).1.Inv := by
  rcases insertPoint_cases p m pc with ⟨hm, -⟩ | ⟨-, -, hcase⟩
  · rwa [hm]
  rcases hcase with ⟨last, hlast, hlt, hm⟩ | ⟨hsize, hm⟩ | ⟨hsize, hle, hm⟩ <;> rw [hm]
  · rw [h.getElem?_size_sub_one, or_self] at hlast
    exact h.appendPoint hlast hlt
  · exact h.firstPoint hsize
  · have hpos : m.size > 0 := by have := h.size_eq; omega
    have hne : m.points ≠ [] := fun e => by simp [h.size_eq, e] at hsize
    obtain ⟨last, hlast⟩ := Option.isSome_iff_exists.1 (List.getLast?_isSome.2 hne)
    exact h.appendOutOfOrder hlast (hle ⟨hpos, hne⟩ last (h.getElem?_size_sub_one ▸ hlast))

/-- Under the invariant no step of `insertPoint` panics. -/
theorem insertPoint_ne_panicked {m : MemoryMetric} (h : m.Inv) (p : DataPoint)
    {pc : InsertPc} (hpc : pc ≠ .panicked) : (insertPoint p m pc).2 ≠ .panicked := by
  cases pc with
  | panicked => exact absurd rfl hpc
  | slowPath =>
    simp only [insertPoint, h.getElem?_size_sub_one]
    split
    · simp
    split
    · rename_i hne
      obtain ⟨last, hlast⟩ := Option.isSome_iff_exists.1 (List.getLast?_isSome.2 hne.2)
      simp only [hlast]
      split <;> simp
    · simp
  | appendLocked =>
    simp only [insertPoint]
    split
    · split <;> simp
    · simp
  | loadSize | readLast => simp only [insertPoint]; split <;> simp
  | done => simp [insertPoint]

/-- A step that returns stores the point once more; any other step stores nothing. -/
theorem insertPoint_stored (p : DataPoint) (m : MemoryMetric) {pc : InsertPc}
    (hpc : pc ≠ .done) :
    ((insertPoint p m pc).2 = .done ∧ (insertPoint p m pc).1.stored.Perm (p :: m.stored)) ∨
      ((insertPoint p m pc).2 ≠ .done ∧ (insertPoint p m pc).1 = m) := by
  rcases insertPoint_cases p m pc with ⟨hm, hdone⟩ | ⟨-, hdone, hcase⟩
  · exact .inr ⟨fun e => hpc (hdone e), hm⟩
  refine .inl ⟨hdone, ?_⟩
  rcases hcase with ⟨-, -, -, hm⟩ | ⟨-, hm⟩ | ⟨-, -, hm⟩ <;> rw [hm] <;> simp

end EmbedTSDB
