import EmbedTSDB.Memory.Interleaving
import Mathlib.Data.List.Sort

/-! Flushing a series: `encodeAllPoints` sorts the out-of-order points and merges them with
the in-order ones into one encoder, and the filtering loop of the disk partition's
`selectDataPoints` reads the encoded series back. -/
namespace EmbedTSDB

/-- A result `sort.Slice` may give for
`outOfOrderPoints[i].Timestamp < outOfOrderPoints[j].Timestamp`: a permutation by
non-decreasing timestamp. The sort is not stable. -/
structure PointSort where
  sort : List DataPoint → List DataPoint
  perm : ∀ points, (sort points).Perm points
  sorted : ∀ points, (sort points).Sorted fun p q => p.timestamp ≤ q.timestamp

/-- `p` may stand before `q` in a slice sorted by timestamp. -/
def DataPoint.TimestampLE (p q : DataPoint) : Prop := p.timestamp ≤ q.timestamp

instance : DecidableRel DataPoint.TimestampLE := fun p q =>
  inferInstanceAs (Decidable (p.timestamp ≤ q.timestamp))

instance : IsTotal DataPoint DataPoint.TimestampLE := ⟨fun _ _ => Int.le_total _ _⟩

instance : IsTrans DataPoint DataPoint.TimestampLE := ⟨fun _ _ _ => Int.le_trans⟩

/-- The insertion sort `sort.Slice` runs on slices of fewer than 13 elements. -/
def PointSort.insertion : PointSort where
  sort := List.insertionSort DataPoint.TimestampLE
  perm := List.perm_insertionSort _
  sorted := List.sorted_insertionSort DataPoint.TimestampLE

section Encode

variable {σ ε : Type} (encodePoint : σ → DataPoint → Except ε σ)

/-- The second and third loops of `encodeAllPoints`: encode the rest of one slice. -/
def encodeEach : List DataPoint → σ → Except ε σ
  | [], s => pure s
  | point :: rest, s => encodePoint s point >>= encodeEach rest

/-- The three loops of `encodeAllPoints` over the out-of-order points `ooo` and the
in-order points `points`: an out-of-order point goes first only when strictly earlier. -/
def encodeMerge : List DataPoint → List DataPoint → σ → Except ε σ
  | o :: ooo, p :: points, s =>
    if o.timestamp < p.timestamp then encodePoint s o >>= encodeMerge ooo (p :: points)
    else encodePoint s p >>= encodeMerge (o :: ooo) points
  | ooo, points, s => encodeEach encodePoint ooo s >>= encodeEach encodePoint points

/-- `encodeAllPoints`, with `sort.Slice` taken as a parameter. -/
def encodeAllPoints (sortSlice : PointSort) (m : MemoryMetric) (s : σ) : Except ε σ :=
  encodeMerge encodePoint (sortSlice.sort m.outOfOrderPoints) m.points s

/-- The order in which `encodeAllPoints` hands points to the encoder: the merge of the
in-order points with the out-of-order ones, an in-order point first unless the other is
strictly earlier. -/
def flushOrder (ooo points : List DataPoint) : List DataPoint :=
  points.merge ooo fun p o => decide (p.timestamp ≤ o.timestamp)

theorem encodeEach_eq_foldlM (l : List DataPoint) (s : σ) :
    encodeEach encodePoint l s = l.foldlM encodePoint s := by
  induction l generalizing s with
  | nil => rfl
  | cons p rest ih => exact congrArg (encodePoint s p >>= ·) (funext ih)

/-- The loops of `encodeAllPoints` call the encoder on `flushOrder`, one point at a time,
stopping at the first error. -/
theorem encodeMerge_eq_foldlM (ooo points : List DataPoint) (s : σ) :
    encodeMerge encodePoint ooo points s = (flushOrder ooo points).foldlM encodePoint s := by
  induction ooo, points, s using encodeMerge.induct encodePoint with
  | case1 o ooo p points s h ih =>
    have hle : ¬ p.timestamp ≤ o.timestamp := by omega
    simp only [encodeMerge, if_pos h, flushOrder, List.cons_merge_cons, decide_eq_true_eq,
      if_neg hle, List.foldlM_cons]
    exact congrArg _ (funext ih)
  | case2 o ooo p points s h ih =>
    have hle : p.timestamp ≤ o.timestamp := by omega
    simp only [encodeMerge, if_neg h, flushOrder, List.cons_merge_cons, decide_eq_true_eq,
      if_pos hle, List.foldlM_cons]
    exact congrArg _ (funext ih)
  | case3 ooo points s h =>
    have hnil : encodeEach encodePoint [] = pure := rfl
    rcases ooo with _ | ⟨o, ooo⟩
    · rw [encodeMerge, hnil, pure_bind, encodeEach_eq_foldlM, flushOrder, List.merge_right]
      exact h
    rcases points with _ | ⟨p, points⟩
    · rw [encodeMerge, hnil, bind_pure, encodeEach_eq_foldlM, flushOrder, List.nil_merge]
      exact h
    · exact (h o ooo p points rfl rfl).elim

theorem encodeAllPoints_eq_foldlM (sortSlice : PointSort) (m : MemoryMetric) (s : σ) :
    encodeAllPoints encodePoint sortSlice m s =
      (flushOrder (sortSlice.sort m.outOfOrderPoints) m.points).foldlM encodePoint s :=
  encodeMerge_eq_foldlM encodePoint _ _ s

end Encode

theorem flushOrder_perm (ooo points : List DataPoint) :
    (flushOrder ooo points).Perm (points ++ ooo) :=
  List.merge_perm_append _

/-- The merge of two lists sorted by timestamp is sorted by timestamp. -/
theorem flushOrder_sorted {ooo points : List DataPoint}
    (ho : ooo.Sorted fun p q => p.timestamp ≤ q.timestamp)
    (hp : points.Sorted fun p q => p.timestamp ≤ q.timestamp) :
    (flushOrder ooo points).Sorted fun p q => p.timestamp ≤ q.timestamp := by
  have h := List.sorted_merge (fun a b c hab hbc => by simp only [decide_eq_true_eq] at *; omega)
    (fun a b => by simp only [Bool.or_eq_true, decide_eq_true_eq]; omega) points ooo
    (hp.imp fun h => decide_eq_true h) (ho.imp fun h => decide_eq_true h)
  exact h.imp fun h => of_decide_eq_true h

/-- The filtering loop of the disk partition's `selectDataPoints` over the points its
decoder yields: `numDataPoints` of them, skipping those before `start` and stopping at the
first at or after `end`. A decoder that runs dry fails. -/
def selectLoop (start «end» : Int) : Nat → List DataPoint → Except String (List DataPoint)
  | 0, _ => .ok []
  | _ + 1, [] => .error "failed to decode point"
  | n + 1, point :: rest =>
    if point.timestamp < start then selectLoop start «end» n rest
    else if point.timestamp ≥ «end» then .ok []
    else (point :: ·) <$> selectLoop start «end» n rest

/-- On a series sorted by timestamp the early break loses nothing: the loop returns the
points of `[start, end)`. -/
theorem selectLoop_of_sorted (start «end» : Int) {l : List DataPoint}
    (hl : l.Sorted fun p q => p.timestamp ≤ q.timestamp) :
    selectLoop start «end» l.length l =
      .ok (l.filter fun p => decide (start ≤ p.timestamp ∧ p.timestamp < «end»)) := by
  induction l with
  | nil => rfl
  | cons p rest ih =>
    have hrest := ih hl.of_cons
    simp only [List.length_cons, selectLoop]
    by_cases hs : p.timestamp < start
    · simp [hs, hrest]
    by_cases he : p.timestamp ≥ «end»
    · have hnil : rest.filter (fun p => decide (start ≤ p.timestamp ∧ p.timestamp < «end»)) = [] :=
        List.filter_eq_nil_iff.2 fun a ha => by
          have := List.rel_of_sorted_cons hl a ha
          simp only [decide_eq_true_eq]
          omega
      rw [if_neg hs, if_pos he, List.filter_cons, hnil,
        if_neg (by simp only [decide_eq_true_eq]; omega)]
    · simp only [if_neg hs, if_neg he, hrest]
      simp only [List.filter_cons, decide_eq_true_eq]
      rw [if_pos ⟨by omega, by omega⟩]
      rfl

/-- Flushing a series reached by any interleaving of `insertPoint` calls hands the encoder
every stored point exactly once, by non-decreasing timestamp, so the disk partition's
filtering loop over the encoded series returns the stored points of any range, in order. -/
theorem encodeAllPoints_select (sortSlice : PointSort) {points : List DataPoint}
    {s : Config MemoryMetric InsertCall}
    (h : Config.Reachable insertPointCalls (MetricSystem.init points) s) :
    ∃ out : List DataPoint,
      (∀ {σ ε : Type} (encodePoint : σ → DataPoint → Except ε σ) (st : σ),
        encodeAllPoints encodePoint sortSlice s.shared st = out.foldlM encodePoint st) ∧
      out.Perm (s.shared.points ++ s.shared.outOfOrderPoints) ∧
      out.Sorted (fun p q => p.timestamp ≤ q.timestamp) ∧
      ∀ start «end» : Int, ∃ r, selectLoop start «end» out.length out = .ok r ∧
        r.Perm ((s.shared.points ++ s.shared.outOfOrderPoints).filter
          fun p => decide (start ≤ p.timestamp ∧ p.timestamp < «end»)) ∧
        r.Sorted (fun p q => p.timestamp ≤ q.timestamp) := by
  have hsorted : s.shared.points.Sorted fun p q => p.timestamp ≤ q.timestamp :=
    (MetricSystem.reachable_inv h).metric.sorted.imp Int.le_of_lt
  have hperm := (flushOrder_perm (sortSlice.sort s.shared.outOfOrderPoints) s.shared.points).trans
    ((sortSlice.perm _).append_left _)
  have hout := flushOrder_sorted (sortSlice.sorted s.shared.outOfOrderPoints) hsorted
  refine ⟨_, fun encodePoint st => encodeAllPoints_eq_foldlM encodePoint sortSlice s.shared st,
    hperm, hout, fun start «end» => ⟨_, selectLoop_of_sorted start «end» hout,
      hperm.filter _, hout.filter _⟩⟩

theorem encodeAllPoints_select_sample :
    Config.Reachable insertPointCalls (MetricSystem.init [⟨2, 0⟩, ⟨1, 0⟩])
        ⟨⟨1, 2, 2, [⟨2, 0⟩], [⟨1, 0⟩]⟩, [⟨⟨2, 0⟩, .done⟩, ⟨⟨1, 0⟩, .done⟩]⟩ ∧
      ∃ out : List DataPoint,
        (∀ {σ ε : Type} (encodePoint : σ → DataPoint → Except ε σ) (st : σ),
          encodeAllPoints encodePoint PointSort.insertion ⟨1, 2, 2, [⟨2, 0⟩], [⟨1, 0⟩]⟩ st =
            out.foldlM encodePoint st) ∧
        out.Perm ([⟨2, 0⟩] ++ [⟨1, 0⟩]) ∧
        out.Sorted (fun p q => p.timestamp ≤ q.timestamp) ∧
        ∀ start «end» : Int, ∃ r, selectLoop start «end» out.length out = .ok r ∧
          r.Perm (([⟨2, 0⟩] ++ [⟨1, 0⟩] : List DataPoint).filter
            fun p => decide (start ≤ p.timestamp ∧ p.timestamp < «end»)) ∧
          r.Sorted (fun p q => p.timestamp ≤ q.timestamp) :=
  have hr : Config.Reachable insertPointCalls (MetricSystem.init [⟨2, 0⟩, ⟨1, 0⟩])
      ⟨⟨1, 2, 2, [⟨2, 0⟩], [⟨1, 0⟩]⟩, [⟨⟨2, 0⟩, .done⟩, ⟨⟨1, 0⟩, .done⟩]⟩ :=
    @Config.Reachable.run _ _ _ insertPointCalls _ _ .init
      [(0, ()), (0, ()), (1, ()), (1, ()), (1, ())] (by decide)
  ⟨hr, encodeAllPoints_select PointSort.insertion hr⟩

end EmbedTSDB
