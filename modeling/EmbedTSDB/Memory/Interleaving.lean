import EmbedTSDB.Memory.Metric
import EmbedTSDB.Concurrency

/-! Concurrent calls of `insertPoint` on one series. A scheduler runs, at each step, one
atomic step of any call that has not returned; the series invariant holds at every step
boundary, and once every call has returned each inserted point is stored exactly once. -/
namespace EmbedTSDB

/-- A call of `insertPoint` in flight: its point and where it stands. -/
structure InsertCall where
  point : DataPoint
  pc : InsertPc
  deriving DecidableEq, Repr

/-- `insertPoint` as a program of atomic steps on one series; its steps read no input. -/
def insertPointCalls : Program Unit MemoryMetric InsertCall where
  step _ m c := ((insertPoint c.point m c.pc).1, ⟨c.point, (insertPoint c.point m c.pc).2⟩)
  returned c := c.pc == .done

namespace MetricSystem

/-- The fresh metric of `getMetric`, with one call per point, none of them started. -/
def init (points : List DataPoint) : Config MemoryMetric InsertCall :=
  ⟨MemoryMetric.fresh, points.map fun p => ⟨p, .loadSize⟩⟩

/-- The points of the calls that have returned, in call order. -/
def returned (calls : List InsertCall) : List DataPoint :=
  calls.filterMap fun c => if c.pc = .done then some c.point else none

@[simp] theorem returned_append_cons (A B : List InsertCall) (c : InsertCall) :
    returned (A ++ c :: B) =
      returned A ++ (if c.pc = .done then [c.point] else []) ++ returned B := by
  by_cases hc : c.pc = .done <;> simp [returned, List.filterMap_append, hc]

theorem returned_of_forall_done {calls : List InsertCall} (h : ∀ c ∈ calls, c.pc = .done) :
    returned calls = calls.map (·.point) := by
  induction calls with
  | nil => rfl
  | cons c rest ih =>
    have hrest := ih fun x hx => h x (List.mem_cons_of_mem _ hx)
    simpa [returned, h c (List.mem_cons_self _ _)] using hrest

/-- What holds at every step boundary: the series invariant, no call has panicked, the
calls keep their points, and the series stores exactly the points of the returned calls. -/
structure Inv (points : List DataPoint) (s : Config MemoryMetric InsertCall) : Prop where
  metric : s.shared.Inv
  no_panic : ∀ c ∈ s.calls, c.pc ≠ .panicked
  points_eq : s.calls.map (·.point) = points
  stored : s.shared.stored.Perm (returned s.calls)

theorem init_inv (points : List DataPoint) : Inv points (init points) where
  metric := MemoryMetric.fresh_inv
  no_panic := by simp [init]
  points_eq := by simp [init, Function.comp_def]
  stored := by simp [init, returned, MemoryMetric.stored, MemoryMetric.fresh]

/-- One scheduled step keeps the invariant. -/
theorem Inv.step {points : List DataPoint} {s t : Config MemoryMetric InsertCall}
    (h : Inv points s) (hs : Config.Step insertPointCalls s t) : Inv points t := by
  obtain ⟨hc, hrun, x⟩ := hs
  rename_i i c
  have hpc : c.pc ≠ .done := by simpa [insertPointCalls] using hrun
  obtain ⟨A, B, hl, hset⟩ :=
    exists_set_split ⟨c.point, (insertPoint c.point s.shared c.pc).2⟩ hc
  have hcur : c.pc ≠ .panicked := h.no_panic c (by simp [hl])
  simp only [Config.stepCall, hc, insertPointCalls, hset]
  refine ⟨insertPoint_inv h.metric _ _, ?_, ?_, ?_⟩
  · intro x hx
    rcases List.mem_append.1 hx with hx | hx
    · exact h.no_panic x (by simp [hl, hx])
    rcases List.mem_cons.1 hx with rfl | hx
    · exact insertPoint_ne_panicked h.metric _ hcur
    · exact h.no_panic x (by simp [hl, hx])
  · simpa [hl] using h.points_eq
  · have hold := h.stored
    rw [hl, returned_append_cons, if_neg hpc] at hold
    rcases insertPoint_stored c.point s.shared hpc with ⟨hdone, hperm⟩ | ⟨hdone, hm⟩
    · rw [returned_append_cons, if_pos hdone]
      refine hperm.trans ((hold.cons _).trans ?_)
      simpa using List.perm_middle.symm
    · rw [returned_append_cons, if_neg hdone, hm]
      simpa using hold

theorem reachable_inv {points : List DataPoint} {s : Config MemoryMetric InsertCall}
    (h : Config.Reachable insertPointCalls (init points) s) : Inv points s :=
  h.inv (init_inv points) fun _ hi hs => Inv.step hi hs

end MetricSystem

open MetricSystem

/-- At every step boundary of every interleaving of `insertPoint` calls the series is well
formed, and once all calls have returned it stores each inserted point exactly once. -/
theorem insertPoint_interleaving {points : List DataPoint} {s : Config MemoryMetric InsertCall}
    (h : Config.Reachable insertPointCalls (MetricSystem.init points) s) :
    s.shared.points.Pairwise (fun p q => p.timestamp < q.timestamp) ∧
      s.shared.size = s.shared.points.length ∧
      (0 < s.shared.size →
        s.shared.points.head?.map (·.timestamp) = some s.shared.minTimestamp ∧
          s.shared.points[(s.shared.size - 1).toNat]?.map (·.timestamp) =
            some s.shared.maxTimestamp) ∧
      (∀ q ∈ s.shared.outOfOrderPoints, ∃ last ∈ s.shared.points.getLast?,
        q.timestamp ≤ last.timestamp) ∧
      ((∀ c ∈ s.calls, c.pc = .done) →
        (s.shared.points ++ s.shared.outOfOrderPoints).Perm points) := by
  have hi := reachable_inv h
  refine ⟨hi.metric.sorted, hi.metric.size_eq, fun hpos => ?_, hi.metric.outOfOrder_le,
    fun hdone => ?_⟩
  · have hne : s.shared.points ≠ [] := fun e => by simp [hi.metric.size_eq, e] at hpos
    obtain ⟨x, hx⟩ := Option.isSome_iff_exists.1 (List.head?_isSome.2 hne)
    obtain ⟨y, hy⟩ := Option.isSome_iff_exists.1 (List.getLast?_isSome.2 hne)
    rw [hi.metric.getElem?_size_sub_one, hx, hy, hi.metric.min_eq x hx, hi.metric.max_eq y hy]
    exact ⟨rfl, rfl⟩
  · simpa [returned_of_forall_done hdone, hi.points_eq] using hi.stored

/-- Two calls on a fresh series that both load `size` zero before either stores: both fall
to the locked slow path, where the first stores the first point and the second, older, point
goes out of order. -/
def slowPathSchedule : List (Nat × Unit) := [(0, ()), (1, ()), (0, ()), (1, ())]

def slowPathRun : Config MemoryMetric InsertCall :=
  (MetricSystem.init [⟨2, 1⟩, ⟨1, 2⟩]).run insertPointCalls slowPathSchedule

theorem insertPoint_interleaving_sample :
    ((MetricSystem.init [⟨2, 1⟩, ⟨1, 2⟩]).run insertPointCalls (slowPathSchedule.take 2)).calls.map
        (·.pc) = [.slowPath, .slowPath] ∧
      Config.Reachable insertPointCalls (MetricSystem.init [⟨2, 1⟩, ⟨1, 2⟩]) slowPathRun ∧
      (slowPathRun.shared.points.Pairwise (fun p q => p.timestamp < q.timestamp) ∧
        slowPathRun.shared.size = slowPathRun.shared.points.length ∧
        (0 < slowPathRun.shared.size →
          slowPathRun.shared.points.head?.map (·.timestamp) =
              some slowPathRun.shared.minTimestamp ∧
            slowPathRun.shared.points[(slowPathRun.shared.size - 1).toNat]?.map (·.timestamp) =
              some slowPathRun.shared.maxTimestamp) ∧
        (∀ q ∈ slowPathRun.shared.outOfOrderPoints, ∃ last ∈ slowPathRun.shared.points.getLast?,
          q.timestamp ≤ last.timestamp) ∧
        ((∀ c ∈ slowPathRun.calls, c.pc = .done) →
          (slowPathRun.shared.points ++ slowPathRun.shared.outOfOrderPoints).Perm
            [⟨2, 1⟩, ⟨1, 2⟩])) ∧
      slowPathRun.calls.map (·.pc) = [.done, .done] ∧
      slowPathRun.shared.outOfOrderPoints = [⟨1, 2⟩] :=
  have hr : Config.Reachable insertPointCalls (MetricSystem.init [⟨2, 1⟩, ⟨1, 2⟩]) slowPathRun :=
    Config.Reachable.run .init (by decide)
  ⟨by decide, hr, insertPoint_interleaving hr, by decide, by decide⟩

end EmbedTSDB
