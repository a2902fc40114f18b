import Mathlib.Data.List.Sort
import Mathlib.Algebra.Group.Nat.Basic

/-! Series keys of `label.go`. A key is the length-prefixed metric followed by the
length-prefixed names and values of the valid labels, sorted by name and truncated. Go
strings are byte strings, so names, values and keys are lists of bytes. -/
namespace EmbedTSDB

/-- `Label`: a time-series label. A label with a missing name or value is invalid. -/
structure Label where
  name : List UInt8
  value : List UInt8
  deriving DecidableEq, Repr

def maxLabelNameLen : Nat := 256

def maxLabelValueLen : Nat := 16 * 1024

/-- Modelled from the spec: `encoding.MarshalUint16` of the absent package
`internal/encoding`, the spec's `u16_be`: the two big-endian bytes of `u`. -/
def marshalUint16 (dst : List UInt8) (u : Nat) : List UInt8 :=
  dst ++ [UInt8.ofNat (u / 256), UInt8.ofNat u]

namespace Label

/-- The `invalid` closure of `marshalMetricName`. -/
def invalid (l : Label) : Bool := l.name.isEmpty || l.value.isEmpty

/-- The first loop's in-place truncation of a valid label. -/
def truncate (l : Label) : Label :=
  { name := if l.name.length > maxLabelNameLen then l.name.take maxLabelNameLen else l.name,
    value := if l.value.length > maxLabelValueLen then l.value.take maxLabelValueLen else l.value }

/-- The bytes the second loop appends for one label. -/
def marshal (out : List UInt8) (l : Label) : List UInt8 :=
  marshalUint16 (marshalUint16 out (l.name.length % 2 ^ 16) ++ l.name) (l.value.length % 2 ^ 16) ++
    l.value

end Label

/-- `a` may stand before `b` in a slice sorted by `labels[i].Name < labels[j].Name`, Go's
byte-wise string order. -/
def Label.NameLE (a b : Label) : Prop := ¬ List.lt b.name a.name

instance : DecidableRel Label.NameLE := fun a b =>
  @instDecidableNot _ (List.hasDecidableLt b.name a.name)

/-- A result `sort.Slice` may give for `labels[i].Name < labels[j].Name`: a permutation in
which no label has a smaller name than the one before it. The sort is not stable. -/
structure NameSort where
  sort : List Label → List Label
  perm : ∀ labels, (sort labels).Perm labels
  sorted : ∀ labels, (sort labels).Sorted Label.NameLE

/-! ### Go's byte-wise string order -/

private theorem uint8_not_lt_trans {x y z : UInt8} (h₁ : ¬ x < y) (h₂ : ¬ y < z) : ¬ x < z := by
  rw [UInt8.not_lt] at h₁ h₂ ⊢
  exact UInt8.le_trans h₂ h₁

private theorem uint8_antisymm {x y : UInt8} (h₁ : ¬ x < y) (h₂ : ¬ y < x) : x = y := by
  rw [UInt8.lt_def, BitVec.lt_def] at h₁ h₂
  exact UInt8.eq_of_toBitVec_eq (BitVec.eq_of_toNat_eq (by omega))

theorem name_lt_trans {a b c : List UInt8} (h₁ : List.lt a b) (h₂ : List.lt b c) : List.lt a c :=
  List.lt_trans UInt8.lt_trans uint8_not_lt_trans h₁ h₂

theorem name_antisymm {a b : List UInt8} (h₁ : ¬ List.lt a b) (h₂ : ¬ List.lt b a) : a = b :=
  List.lt_antisymm uint8_antisymm h₁ h₂

instance : IsTotal Label Label.NameLE where
  total _ _ := or_iff_not_imp_left.2 fun hba hab =>
    List.lt_irrefl UInt8.lt_irrefl _ (name_lt_trans (not_not.1 hba) hab)

instance : IsTrans Label Label.NameLE where
  trans a b c hab hbc hca := by
    by_cases hab' : List.lt a.name b.name
    · exact hbc (name_lt_trans hca hab')
    · exact hbc (name_antisymm hab' hab ▸ hca)

/-- The insertion sort `sort.Slice` runs on slices of fewer than 13 elements. It is
stable, so labels sharing a name keep their input order. -/
def NameSort.insertion : NameSort where
  sort := List.insertionSort Label.NameLE
  perm := List.perm_insertionSort _
  sorted := List.sorted_insertionSort _

/-- `marshalMetricName`, with `sort.Slice` taken as a parameter. -/
def marshalMetricName (sortSlice : NameSort) (metric : List UInt8) (labels : List Label) :
    List UInt8 :=
  if labels.length = 0 then metric
  else
    let labels := (sortSlice.sort labels).map fun l => if l.invalid then l else l.truncate
    let out := marshalUint16 [] (metric.length % 2 ^ 16) ++ metric
    labels.foldl (fun out l => if l.invalid then out else l.marshal out) out

/-! ### The shape of a key -/

theorem marshalUint16_eq (dst : List UInt8) (u : Nat) :
    marshalUint16 dst u = dst ++ marshalUint16 [] u := rfl

/-- Two length prefixes below `2 ^ 16` are equal only for equal lengths. -/
theorem marshalUint16_inj {a b : Nat} (ha : a < 2 ^ 16) (hb : b < 2 ^ 16)
    (h : marshalUint16 [] a = marshalUint16 [] b) : a = b := by
  simp only [marshalUint16, List.nil_append, List.cons.injEq, and_true] at h
  have e1 := congrArg UInt8.toNat h.1
  have e2 := congrArg UInt8.toNat h.2
  simp only [UInt8.toNat, UInt8.ofNat, BitVec.toNat_ofNat] at e1 e2
  omega

/-- A field of fewer than `2 ^ 16` bytes behind its length prefix is read back unambiguously. -/
theorem prefixed_append_inj {x y rest rest' : List UInt8} (hx : x.length < 2 ^ 16)
    (hy : y.length < 2 ^ 16)
    (h : marshalUint16 [] (x.length % 2 ^ 16) ++ (x ++ rest) =
      marshalUint16 [] (y.length % 2 ^ 16) ++ (y ++ rest')) :
    x = y ∧ rest = rest' := by
  rw [Nat.mod_eq_of_lt hx, Nat.mod_eq_of_lt hy] at h
  obtain ⟨hpre, hrest⟩ := List.append_inj h rfl
  exact List.append_inj hrest (marshalUint16_inj hx hy hpre)

namespace Label

theorem marshal_eq (out : List UInt8) (l : Label) : l.marshal out = out ++ l.marshal [] := by
  simp [marshal, marshalUint16]

theorem marshal_nil (l : Label) :
    l.marshal [] = marshalUint16 [] (l.name.length % 2 ^ 16) ++ l.name ++
      (marshalUint16 [] (l.value.length % 2 ^ 16) ++ l.value) := by
  simp [marshal, marshalUint16]

theorem length_marshal_nil (l : Label) :
    (l.marshal []).length = l.name.length + l.value.length + 4 := by
  simp [marshal_nil, marshalUint16]
  omega

theorem marshal_ne_nil (l : Label) : l.marshal [] ≠ [] := by
  simp [marshal_nil, marshalUint16]

private theorem isEmpty_take_of_pos (l : List UInt8) {n : Nat} (hn : 0 < n) :
    (l.take n).isEmpty = l.isEmpty := by
  cases l <;> cases n <;> simp_all

/-- Truncation keeps a label valid: both limits are positive. -/
@[simp] theorem invalid_truncate (l : Label) : l.truncate.invalid = l.invalid := by
  simp only [invalid, truncate, maxLabelNameLen, maxLabelValueLen]
  split_ifs <;> simp [isEmpty_take_of_pos]

theorem truncate_name_length_lt (l : Label) : l.truncate.name.length < 2 ^ 16 := by
  simp only [truncate, maxLabelNameLen]
  split_ifs with h
  · simp
  · omega

theorem truncate_value_length_lt (l : Label) : l.truncate.value.length < 2 ^ 16 := by
  simp only [truncate, maxLabelValueLen]
  split_ifs with h
  · simp
  · omega

end Label

/-- The second loop appends the marshalled truncated valid labels, in their order. -/
theorem foldl_marshal (labels : List Label) (out : List UInt8) :
    (labels.map fun l => if l.invalid then l else l.truncate).foldl
        (fun out l => if l.invalid then out else l.marshal out) out =
      out ++ ((labels.filter fun l => !l.invalid).map Label.truncate).flatMap (·.marshal []) := by
  induction labels generalizing out with
  | nil => simp
  | cons l rest ih =>
    cases hl : l.invalid
    · simp [hl, ih, Label.marshal_eq out l.truncate]
    · simp [hl, ih]

/-- The key of a non-empty label list: the prefixed metric, then the valid labels in the
order the sort leaves them, truncated and marshalled. -/
theorem marshalMetricName_of_ne_nil (s : NameSort) (metric : List UInt8) {labels : List Label}
    (h : labels ≠ []) :
    marshalMetricName s metric labels =
      marshalUint16 [] (metric.length % 2 ^ 16) ++ metric ++
        (((s.sort labels).filter fun l => !l.invalid).map Label.truncate).flatMap
          (·.marshal []) := by
  simp only [marshalMetricName, List.length_eq_zero, h, if_false]
  exact foldl_marshal _ _

/-- Labels of at most `2 ^ 16 - 1` bytes per field are read back from their marshalled
concatenation. -/
theorem flatMap_marshal_inj {A B : List Label}
    (hA : ∀ l ∈ A, l.name.length < 2 ^ 16 ∧ l.value.length < 2 ^ 16)
    (hB : ∀ l ∈ B, l.name.length < 2 ^ 16 ∧ l.value.length < 2 ^ 16)
    (h : A.flatMap (·.marshal []) = B.flatMap (·.marshal [])) : A = B := by
  induction A generalizing B with
  | nil =>
    cases B with
    | nil => rfl
    | cons b B => simp [Label.marshal_ne_nil] at h
  | cons a A ih =>
    cases B with
    | nil => simp [Label.marshal_ne_nil] at h
    | cons b B =>
      obtain ⟨ha₁, ha₂⟩ := hA a (List.mem_cons_self _ _)
      obtain ⟨hb₁, hb₂⟩ := hB b (List.mem_cons_self _ _)
      rw [List.flatMap_cons, List.flatMap_cons, Label.marshal_nil a, Label.marshal_nil b] at h
      simp only [List.append_assoc] at h
      obtain ⟨hname, h⟩ := prefixed_append_inj ha₁ hb₁ h
      obtain ⟨hvalue, h⟩ := prefixed_append_inj ha₂ hb₂ h
      rw [ih (fun l hl => hA l (List.mem_cons_of_mem _ hl))
        (fun l hl => hB l (List.mem_cons_of_mem _ hl)) h]
      obtain ⟨name, value⟩ := a
      obtain ⟨name', value'⟩ := b
      dsimp only at hname hvalue
      rw [hname, hvalue]

/-! ### Canonicity -/

/-- Two name-sorted permutations of one list agree when its labels sharing a name are equal. -/
theorem eq_of_perm_of_sorted_name {l₁ l₂ : List Label} (hp : l₁.Perm l₂)
    (h₁ : l₁.Sorted Label.NameLE) (h₂ : l₂.Sorted Label.NameLE)
    (hname : ∀ a ∈ l₁, ∀ b ∈ l₁, a.name = b.name → a = b) : l₁ = l₂ := by
  induction l₁ generalizing l₂ with
  | nil => exact List.Perm.nil_eq hp
  | cons a t ih =>
    cases l₂ with
    | nil => exact absurd hp.length_eq (by simp)
    | cons b u =>
      have hab : a = b := by
        have ha : a ∈ b :: u := hp.subset (List.mem_cons_self _ _)
        have hb : b ∈ a :: t := hp.symm.subset (List.mem_cons_self _ _)
        rcases List.mem_cons.1 ha with e | ha
        · exact e
        rcases List.mem_cons.1 hb with e | hb
        · exact e.symm
        exact hname a (List.mem_cons_self _ _) b (List.mem_cons_of_mem _ hb)
          (name_antisymm (List.rel_of_sorted_cons h₂ a ha) (List.rel_of_sorted_cons h₁ b hb))
      subst hab
      rw [ih (List.Perm.cons_inv hp) h₁.of_cons h₂.of_cons
        (fun x hx y hy => hname x (List.mem_cons_of_mem _ hx) y (List.mem_cons_of_mem _ hy))]

/-- Labels sharing a name and the length-prefix shortcut for an empty list both break
canonicity: an empty list against a list of one invalid label, and two orders of labels
named alike under the insertion sort `sort.Slice` runs on short slices. -/
theorem marshalMetricName_not_canonical :
    (∀ s : NameSort, marshalMetricName s [109] [] ≠ marshalMetricName s [109] [⟨[], [49]⟩]) ∧
      marshalMetricName NameSort.insertion [109] [⟨[97], [49]⟩, ⟨[97], [50]⟩] ≠
        marshalMetricName NameSort.insertion [109] [⟨[97], [50]⟩, ⟨[97], [49]⟩] := by
  refine ⟨fun s h => ?_, by decide⟩
  rw [marshalMetricName_of_ne_nil s _ (List.cons_ne_nil _ _)] at h
  have := congrArg List.length h
  simp [marshalMetricName, marshalUint16] at this

/-- The key of a non-empty label list depends only on the metric and the multiset of valid
labels, provided valid labels sharing a name are equal. -/
theorem marshalMetricName_eq_of_perm (s : NameSort) (metric : List UInt8) {L₁ L₂ : List Label}
    (hempty : L₁ = [] ↔ L₂ = [])
    (hperm : (L₁.filter fun l => !l.invalid).Perm (L₂.filter fun l => !l.invalid))
    (hname : ∀ a ∈ L₁, ∀ b ∈ L₁, a.invalid = false → b.invalid = false → a.name = b.name →
      a = b) :
    marshalMetricName s metric L₁ = marshalMetricName s metric L₂ := by
  by_cases h₁ : L₁ = []
  · rw [h₁, hempty.1 h₁]
  have h₂ : L₂ ≠ [] := fun e => h₁ (hempty.2 e)
  rw [marshalMetricName_of_ne_nil s metric h₁, marshalMetricName_of_ne_nil s metric h₂]
  have hsorted : ((s.sort L₁).filter fun l => !l.invalid) =
      ((s.sort L₂).filter fun l => !l.invalid) := by
    refine eq_of_perm_of_sorted_name
      (((s.perm L₁).filter _).trans (hperm.trans ((s.perm L₂).filter _).symm))
      ((s.sorted L₁).filter _) ((s.sorted L₂).filter _) ?_
    simp only [List.mem_filter, Bool.not_eq_true']
    rintro a ⟨ha, hva⟩ b ⟨hb, hvb⟩
    exact hname a ((s.perm L₁).subset ha) b ((s.perm L₁).subset hb) hva hvb
  rw [hsorted]

theorem marshalMetricName_eq_of_perm_sample :
    (([⟨[98], [50]⟩, ⟨[], [1]⟩, ⟨[97], [49]⟩] : List Label) = [] ↔
        ([⟨[97], [49]⟩, ⟨[98], [50]⟩] : List Label) = []) ∧
      (([⟨[98], [50]⟩, ⟨[], [1]⟩, ⟨[97], [49]⟩] : List Label).filter fun l => !l.invalid).Perm
        (([⟨[97], [49]⟩, ⟨[98], [50]⟩] : List Label).filter fun l => !l.invalid) ∧
      (∀ a ∈ ([⟨[98], [50]⟩, ⟨[], [1]⟩, ⟨[97], [49]⟩] : List Label),
        ∀ b ∈ ([⟨[98], [50]⟩, ⟨[], [1]⟩, ⟨[97], [49]⟩] : List Label),
          a.invalid = false → b.invalid = false → a.name = b.name → a = b) ∧
      marshalMetricName NameSort.insertion [109] [⟨[98], [50]⟩, ⟨[], [1]⟩, ⟨[97], [49]⟩] =
        marshalMetricName NameSort.insertion [109] [⟨[97], [49]⟩, ⟨[98], [50]⟩] :=
  ⟨by decide, by decide, by decide,
    marshalMetricName_eq_of_perm _ _ (by decide) (by decide) (by decide)⟩

private theorem truncate_fields_lt (A : List Label) :
    ∀ l ∈ A.map Label.truncate, l.name.length < 2 ^ 16 ∧ l.value.length < 2 ^ 16 := by
  simp only [List.mem_map]
  rintro _ ⟨l, -, rfl⟩
  exact ⟨l.truncate_name_length_lt, l.truncate_value_length_lt⟩

/-- Equal keys of two non-empty label lists, or of two empty ones, with metrics shorter
than the `uint16` length prefix can count, come from equal metrics and equal multisets of
truncated valid labels. -/
theorem marshalMetricName_injective (s : NameSort) {m₁ m₂ : List UInt8} {L₁ L₂ : List Label}
    (hm₁ : m₁.length < 2 ^ 16) (hm₂ : m₂.length < 2 ^ 16) (hempty : L₁ = [] ↔ L₂ = [])
    (h : marshalMetricName s m₁ L₁ = marshalMetricName s m₂ L₂) :
    m₁ = m₂ ∧ ((L₁.filter fun l => !l.invalid).map Label.truncate).Perm
      ((L₂.filter fun l => !l.invalid).map Label.truncate) := by
  by_cases h₁ : L₁ = []
  · rw [h₁, hempty.1 h₁] at h ⊢
    exact ⟨h, List.Perm.refl _⟩
  have h₂ : L₂ ≠ [] := fun e => h₁ (hempty.2 e)
  rw [marshalMetricName_of_ne_nil s m₁ h₁, marshalMetricName_of_ne_nil s m₂ h₂,
    List.append_assoc, List.append_assoc] at h
  obtain ⟨rfl, hlabels⟩ := prefixed_append_inj hm₁ hm₂ h
  have e := flatMap_marshal_inj (truncate_fields_lt _) (truncate_fields_lt _) hlabels
  exact ⟨rfl, (((s.perm L₁).filter _).map _).symm.trans (e ▸ ((s.perm L₂).filter _).map _)⟩

theorem marshalMetricName_injective_sample :
    ([109] : List UInt8).length < 2 ^ 16 ∧ ([109] : List UInt8).length < 2 ^ 16 ∧
      (([⟨[97], [49]⟩, ⟨[], [2]⟩] : List Label) = [] ↔ ([⟨[97], [49]⟩] : List Label) = []) ∧
      marshalMetricName NameSort.insertion [109] [⟨[97], [49]⟩, ⟨[], [2]⟩] =
        marshalMetricName NameSort.insertion [109] [⟨[97], [49]⟩] ∧
      ([109] : List UInt8) = [109] ∧
      ((([⟨[97], [49]⟩, ⟨[], [2]⟩] : List Label).filter fun l => !l.invalid).map
        Label.truncate).Perm
        ((([⟨[97], [49]⟩] : List Label).filter fun l => !l.invalid).map Label.truncate) :=
  ⟨by decide, by decide, by decide, by decide,
    marshalMetricName_injective NameSort.insertion (by decide) (by decide) (by decide) (by decide)⟩

/-- A label value of `16379` bytes, below `maxLabelValueLen`. -/
def wrapValue : List UInt8 := List.replicate 16379 0

theorem wrapValue_length : wrapValue.length = 16379 := List.length_replicate _ _

/-- Four valid labels whose marshalled bytes fill exactly `2 ^ 16` bytes. -/
def wrapLabels : List Label := [1, 2, 3, 4].map fun n => ⟨[n], wrapValue⟩

/-- Keys collide across different metrics, whatever the sort: the bare metric of an empty
label list against a prefixed one, and a metric of `2 ^ 16` bytes, whose prefix wraps to
zero, against the empty metric. -/
theorem marshalMetricName_collision_of_sort (s : NameSort) :
    marshalMetricName s [0, 1, 109] [] = marshalMetricName s [109] [⟨[], [49]⟩] ∧
      marshalMetricName s (wrapLabels.flatMap (·.marshal [])) [⟨[], [49]⟩] =
        marshalMetricName s [] wrapLabels ∧
      wrapLabels.flatMap (·.marshal []) ≠ [] := by
  have hsingle : s.sort [⟨[], [49]⟩] = [⟨[], [49]⟩] := List.perm_singleton.1 (s.perm _)
  have hsort : s.sort wrapLabels = wrapLabels :=
    (eq_of_perm_of_sorted_name (s.perm _).symm (by decide) (s.sorted _) (by simp [wrapLabels])).symm
  refine ⟨?_, ?_, by simp [wrapLabels, Label.marshal_ne_nil]⟩
  · rw [marshalMetricName_of_ne_nil s _ (List.cons_ne_nil _ _), hsingle]
    simp [marshalMetricName, Label.invalid, marshalUint16]
  · have hne : wrapValue.isEmpty = false := by
      rw [List.isEmpty_eq_false_iff_exists_mem]
      exact ⟨0, List.mem_replicate.2 ⟨by decide, rfl⟩⟩
    have hvalid : (wrapLabels.filter fun l => !l.invalid) = wrapLabels := by
      simp [hne, wrapLabels, Label.invalid]
    have htrunc : wrapLabels.map Label.truncate = wrapLabels := by
      simp [wrapLabels, Label.truncate, maxLabelNameLen, maxLabelValueLen, wrapValue_length]
    have hlen : (wrapLabels.flatMap (·.marshal [])).length = 2 ^ 16 := by
      simp [wrapLabels, Label.length_marshal_nil, wrapValue_length]
    rw [marshalMetricName_of_ne_nil s _ (List.cons_ne_nil _ _), hsingle,
      marshalMetricName_of_ne_nil s _ (by simp [wrapLabels]), hsort, hvalid, htrunc, hlen]
    simp [Label.invalid]

/-- The collisions under the insertion sort `sort.Slice` runs on short slices. -/
theorem marshalMetricName_collision :
    marshalMetricName NameSort.insertion [0, 1, 109] [] =
        marshalMetricName NameSort.insertion [109] [⟨[], [49]⟩] ∧
      marshalMetricName NameSort.insertion (wrapLabels.flatMap (·.marshal [])) [⟨[], [49]⟩] =
        marshalMetricName NameSort.insertion [] wrapLabels ∧
      wrapLabels.flatMap (·.marshal []) ≠ [] :=
  marshalMetricName_collision_of_sort _

end EmbedTSDB
