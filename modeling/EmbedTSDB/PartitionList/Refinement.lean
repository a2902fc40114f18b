import EmbedTSDB.PartitionList.Chain

/-! The partition list refines a list of partitions, newest first. `insert` conses,
`remove` erases the first partition with the target's minimum timestamp, `swap` replaces
it, and every call returns what the abstract list predicts, when calls run one at a
time. -/
namespace EmbedTSDB

variable {α : Type} (minTimestamp : α → Int)

/-- The scan of `remove` and `swap` read off the entries of the chain. -/
def findSpec (t : Int) : Option Nat → List (Nat × α) → Option (Option Nat × Nat)
  | _, [] => none
  | prev, (a, v) :: es => if minTimestamp v = t then some (prev, a) else findSpec t (some a) es

variable {minTimestamp}

theorem find_eq_findSpec {l : PartitionList α} {s t : Option Nat} {es : List (Nat × α)}
    (h : Seg l.nodes s es t) (ht : t = none) (ts : Int) {fuel : Nat} (hfuel : es.length ≤ fuel)
    (prev : Option Nat) :
    l.find minTimestamp ts fuel prev s = findSpec minTimestamp ts prev es := by
  induction h generalizing fuel prev with
  | nil => subst ht; cases fuel <;> rfl
  | cons hn _ ih =>
    obtain ⟨fuel, rfl⟩ : ∃ f, fuel = f + 1 := ⟨fuel - 1, by simp at hfuel; omega⟩
    simp only [PartitionList.find, hn, findSpec]
    split
    · rfl
    · exact ih ht (by simp at hfuel; omega) _

theorem findSpec_eq_some {t : Int} {prev pv : Option Nat} {c : Nat} {es : List (Nat × α)}
    (h : findSpec minTimestamp t prev es = some (pv, c)) :
    ∃ ys v zs, es = ys ++ (c, v) :: zs ∧ (∀ e ∈ ys, minTimestamp e.2 ≠ t) ∧
      minTimestamp v = t ∧ pv = (ys.getLast?.map Prod.fst).or prev := by
  induction es generalizing prev with
  | nil => cases h
  | cons e es ih =>
    obtain ⟨a, v⟩ := e
    simp only [findSpec] at h
    split at h
    · cases h
      exact ⟨[], v, es, rfl, by simp, ‹_›, rfl⟩
    · rename_i hne
      obtain ⟨ys, w, zs, rfl, hys, hw, rfl⟩ := ih h
      refine ⟨(a, v) :: ys, w, zs, rfl, ?_, hw, ?_⟩
      · intro e he
        rcases List.mem_cons.1 he with rfl | he
        · exact hne
        · exact hys e he
      · cases ys <;> simp [List.getLast?_cons]

theorem findSpec_eq_none_iff {t : Int} {prev : Option Nat} {es : List (Nat × α)} :
    findSpec minTimestamp t prev es = none ↔ ∀ e ∈ es, minTimestamp e.2 ≠ t := by
  induction es generalizing prev with
  | nil => simp [findSpec]
  | cons e es ih =>
    obtain ⟨a, v⟩ := e
    simp only [findSpec]
    split <;> simp_all

namespace PartitionList

/-- `l` represents the partitions `xs`: the chain from the head is finite and acyclic and
lists `xs`, the count is its length, and the head cache is nil or the head. -/
structure Refines (l : PartitionList α) (xs : List α) : Prop where
  chain : ∃ es, Seg l.nodes l.head es none ∧ (es.map Prod.fst).Nodup ∧ es.map Prod.snd = xs
  size_eq : l.numPartitions = xs.length
  cache : l.headCache = none ∨ l.headCache = l.head

theorem new_refines : (newPartitionList : PartitionList α).Refines [] :=
  ⟨⟨[], .nil _, List.nodup_nil, rfl⟩, rfl, .inl rfl⟩

variable {l : PartitionList α} {xs : List α}

theorem Refines.size (h : l.Refines xs) : l.size = xs.length := h.size_eq

theorem Refines.insert (h : l.Refines xs) (p : α) : (l.insert p).Refines (p :: xs) := by
  obtain ⟨es, hs, hnd, rfl⟩ := h.chain
  have hk : (l.nodes ++ [⟨p, l.head⟩])[l.nodes.length]? = some ⟨p, l.head⟩ := by simp
  refine ⟨⟨(l.nodes.length, p) :: es, .cons hk (hs.alloc _), ?_, rfl⟩, ?_, .inr rfl⟩
  · refine List.nodup_cons.2 ⟨fun hmem => ?_, hnd⟩
    obtain ⟨e, he, hek⟩ := List.mem_map.1 hmem
    exact absurd (hs.lt_length e he) (by omega)
  · simp [PartitionList.insert, alloc, setHead, h.size_eq]

/-- The value at the head of a chain listing `xs` is the first of `xs`. -/
theorem valueAt_head {s : Option Nat} {es : List (Nat × α)} (hs : Seg l.nodes s es none)
    {a : Nat} (ha : s = some a) : l.valueAt a = (es.map Prod.snd).head? := by
  subst ha
  obtain ⟨n, rest, hn, rfl, -⟩ := hs.cons_inv
  simp [valueAt, hn]

theorem Refines.getHead (h : l.Refines xs) : l.getHead.1 = xs.head? ∧ l.getHead.2.Refines xs := by
  obtain ⟨es, hs, hnd, rfl⟩ := h.chain
  unfold PartitionList.getHead
  split
  · rename_i hsize
    have hnil : es = [] := List.length_eq_zero.1 <| by
      have h1 := h.size_eq
      rw [List.length_map] at h1
      change l.numPartitions ≤ 0 at hsize
      omega
    subst hnil
    exact ⟨rfl, h⟩
  cases hc : l.headCache with
  | some a =>
    have ha : l.head = some a := by rcases h.cache with e | e <;> simp_all
    exact ⟨valueAt_head hs ha, h⟩
  | none =>
    dsimp only
    cases hd : l.head with
    | some a =>
      rw [hd] at hs
      exact ⟨valueAt_head hs rfl, ⟨⟨es, hs, hnd, rfl⟩, h.size_eq, .inr rfl⟩⟩
    | none =>
      rw [hd] at hs
      rw [hs.of_none.1]
      exact ⟨rfl, by simpa [hs.of_none.1] using h⟩

/-- A loop `for it.next() { it.value() }` from a position whose successor starts a chain
lists the chain's partitions and stops. -/
theorem iterate_of_seg {s t : Option Nat} {es : List (Nat × α)} (hs : Seg l.nodes s es t)
    (ht : t = none) {it : PartitionIterator} (hit : l.next it = (s.isSome, ⟨s.map .node⟩))
    {fuel : Nat} (hfuel : es.length < fuel) : l.iterate fuel it = es.map (some ∘ Prod.snd) := by
  induction hs generalizing it fuel with
  | nil =>
    subst ht
    obtain ⟨fuel, rfl⟩ : ∃ f, fuel = f + 1 := ⟨fuel - 1, by simp at hfuel; omega⟩
    simp [iterate, hit]
  | @cons a n es t hn _ ih =>
    obtain ⟨fuel, rfl⟩ : ∃ f, fuel = f + 1 := ⟨fuel - 1, by simp at hfuel; omega⟩
    simp only [iterate, hit, Option.isSome_some, Option.map_some']
    rw [ih ht (by simp [next, getNext, hn]) (by simp at hfuel; omega)]
    simp [value, valueAt, hn]

theorem Refines.iterate (h : l.Refines xs) {fuel : Nat} (hfuel : xs.length < fuel) :
    l.iterate fuel l.newIterator = xs.map some := by
  obtain ⟨es, hs, -, rfl⟩ := h.chain
  rw [iterate_of_seg hs rfl
    (show l.next l.newIterator = (l.head.isSome, ⟨l.head.map .node⟩) from rfl)
    (by simpa using hfuel)]
  simp [Function.comp_def]

variable (minTimestamp) in
/-- What `remove` does to the partitions `xs`: an error on an empty list or when nothing has
the target's minimum timestamp, else the first such partition goes and `clean()`'s outcome
is returned. -/
def removeSpec (xs : List α) (target : α) (cleanOk : Bool) : List α × Except String Unit :=
  if xs.isEmpty then (xs, .error "empty partition")
  else if xs.any fun x => minTimestamp x = minTimestamp target then
    (xs.eraseP fun x => minTimestamp x = minTimestamp target,
      if cleanOk then .ok ()
      else .error "failed to clean resources managed by partition to be removed")
  else (xs, .error "the given partition was not found")

variable (minTimestamp) in
/-- What `swap` does to the partitions `xs`: the same errors as `remove`, else the first
partition with `old`'s minimum timestamp is replaced by `new`. -/
def swapSpec (xs : List α) (old new : α) : List α × Except String Unit :=
  if xs.isEmpty then (xs, .error "empty partition")
  else if xs.any fun x => minTimestamp x = minTimestamp old then
    (xs.replaceF fun x => if minTimestamp x = minTimestamp old then some new else none, .ok ())
  else (xs, .error "the given partition was not found")

section Spec

variable {xs ys zs : List α} {x : α}

/-- `replaceF` replaces the first entry it maps to some value. -/
theorem replaceF_first {f : α → Option α} (y : α) (hys : ∀ a ∈ ys, f a = none)
    (hx : f x = some y) : (ys ++ x :: zs).replaceF f = ys ++ y :: zs := by
  induction ys with
  | nil => exact List.replaceF_cons_of_some f hx
  | cons a ys ih =>
    rw [List.cons_append, List.replaceF_cons_of_none f (hys a (.head _)),
      ih fun b hb => hys b (.tail _ hb), List.cons_append]

/-- `remove` takes out exactly the first partition with the target's minimum timestamp. -/
theorem removeSpec_first {target : α} (hys : ∀ y ∈ ys, minTimestamp y ≠ minTimestamp target)
    (hx : minTimestamp x = minTimestamp target) (cleanOk : Bool) :
    removeSpec minTimestamp (ys ++ x :: zs) target cleanOk =
      (ys ++ zs, if cleanOk then .ok ()
        else .error "failed to clean resources managed by partition to be removed") := by
  have hne : (ys ++ x :: zs).isEmpty = false := by simp
  have hany : ((ys ++ x :: zs).any fun y => minTimestamp y = minTimestamp target) = true :=
    List.any_eq_true.2 ⟨x, by simp, by simpa using hx⟩
  simp only [removeSpec, hne, hany, Bool.false_eq_true, ↓reduceIte]
  rw [List.eraseP_append_right _ fun y hy => by simpa using hys y hy,
    List.eraseP_cons_of_pos (by simpa using hx)]

/-- `swap` replaces exactly the first partition with `old`'s minimum timestamp and keeps the
rest in place. -/
theorem swapSpec_first {old new : α} (hys : ∀ y ∈ ys, minTimestamp y ≠ minTimestamp old)
    (hx : minTimestamp x = minTimestamp old) :
    swapSpec minTimestamp (ys ++ x :: zs) old new = (ys ++ new :: zs, .ok ()) := by
  have hne : (ys ++ x :: zs).isEmpty = false := by simp
  have hany : ((ys ++ x :: zs).any fun y => minTimestamp y = minTimestamp old) = true :=
    List.any_eq_true.2 ⟨x, by simp, by simpa using hx⟩
  simp only [swapSpec, hne, hany, Bool.false_eq_true, ↓reduceIte]
  rw [replaceF_first new (fun y hy => by simp [hys y hy]) (by simp [hx])]

/-- Without a partition of the target's minimum timestamp, `remove` fails and changes
nothing. -/
theorem removeSpec_of_forall_ne {target : α} (h : ∀ y ∈ xs, minTimestamp y ≠ minTimestamp target)
    (cleanOk : Bool) :
    removeSpec minTimestamp xs target cleanOk =
      (xs, if xs.isEmpty then .error "empty partition"
        else .error "the given partition was not found") := by
  have hany : (xs.any fun y => minTimestamp y = minTimestamp target) = false :=
    List.any_eq_false.2 fun y hy => by simpa using h y hy
  unfold removeSpec
  split <;> simp_all

/-- Without a partition of `old`'s minimum timestamp, `swap` fails and changes nothing. -/
theorem swapSpec_of_forall_ne {old new : α} (h : ∀ y ∈ xs, minTimestamp y ≠ minTimestamp old) :
    swapSpec minTimestamp xs old new =
      (xs, if xs.isEmpty then .error "empty partition"
        else .error "the given partition was not found") := by
  have hany : (xs.any fun y => minTimestamp y = minTimestamp old) = false :=
    List.any_eq_false.2 fun y hy => by simpa using h y hy
  unfold swapSpec
  split <;> simp_all

end Spec

variable (minTimestamp) in
/-- What a call does to the partitions `xs` and returns. -/
def ListCall.spec (xs : List α) : ListCall α → List α × Except String (Option α)
  | .insert p => (p :: xs, .ok none)
  | .remove target cleanOk =>
    ((removeSpec minTimestamp xs target cleanOk).1,
      (removeSpec minTimestamp xs target cleanOk).2.map fun _ => none)
  | .swap old new =>
    ((swapSpec minTimestamp xs old new).1, (swapSpec minTimestamp xs old new).2.map fun _ => none)
  | .getHead => (xs, .ok xs.head?)

variable (minTimestamp) in
/-- Calls on the partitions `xs`, one at a time. -/
def ListCall.specAll (xs : List α) : List (ListCall α) → List α × List (Except String (Option α))
  | [] => (xs, [])
  | c :: cs =>
    let r := ListCall.spec minTimestamp xs c
    ((ListCall.specAll r.1 cs).1, r.2 :: (ListCall.specAll r.1 cs).2)

theorem Refines.size_pos (h : l.Refines xs) : ¬ l.size ≤ 0 ↔ xs ≠ [] := by
  rw [h.size, ← List.length_pos]
  omega

variable (minTimestamp) in
/-- The scan of `remove` and `swap` on a list representing `xs`. -/
theorem Refines.find (h : l.Refines xs) (t : Int) :
    ∃ es, Seg l.nodes l.head es none ∧ (es.map Prod.fst).Nodup ∧ es.map Prod.snd = xs ∧
      l.find minTimestamp t l.nodes.length none l.head = findSpec minTimestamp t none es := by
  obtain ⟨es, hs, hnd, rfl⟩ := h.chain
  exact ⟨es, hs, hnd, rfl, find_eq_findSpec hs rfl t (hs.length_le hnd) none⟩

/-- Dropping one entry from the middle of a chain keeps its addresses distinct. -/
theorem nodup_drop_mid {ys zs : List (Nat × α)} {a b : Nat × α}
    (h : ((ys ++ a :: b :: zs).map Prod.fst).Nodup) : ((ys ++ a :: zs).map Prod.fst).Nodup :=
  h.sublist (((List.sublist_cons_self b zs).cons₂ a).append_left ys |>.map _)

/-- Putting a fresh address in place of one entry keeps the addresses distinct. -/
theorem nodup_replace_fresh {ys zs : List (Nat × α)} {b : Nat × α} (b' : Nat × α)
    (h : ((ys ++ b :: zs).map Prod.fst).Nodup) (hb' : ∀ e ∈ ys ++ b :: zs, e.1 ≠ b'.1) :
    ((ys ++ b' :: zs).map Prod.fst).Nodup := by
  rw [List.map_append, List.map_cons, List.nodup_middle, List.nodup_cons] at h ⊢
  refine ⟨fun hm => ?_, h.2⟩
  simp only [List.mem_append, List.mem_map] at hm
  rcases hm with ⟨e, he, hel⟩ | ⟨e, he, hel⟩ <;> exact hb' e (by simp [he]) hel

/-- A scan that finds nothing leaves `remove` and `swap` with their spec's error. -/
theorem findSpec_none_forall {t : Int} {es : List (Nat × α)}
    (hf : findSpec minTimestamp t none es = none) : ∀ y ∈ es.map Prod.snd, minTimestamp y ≠ t := by
  intro y hy
  obtain ⟨e, he, rfl⟩ := List.mem_map.1 hy
  exact findSpec_eq_none_iff.1 hf e he

theorem Refines.remove (h : l.Refines xs) (cleanOk : Bool) (target : α) :
    (l.remove minTimestamp cleanOk target).2 = (removeSpec minTimestamp xs target cleanOk).2 ∧
      (l.remove minTimestamp cleanOk target).1.Refines
        (removeSpec minTimestamp xs target cleanOk).1 := by
  obtain ⟨es, hs, hnd, rfl, hfind⟩ := h.find minTimestamp (minTimestamp target)
  unfold PartitionList.remove
  by_cases hnil : es = []
  · subst hnil
    rw [if_pos (by simpa using mt h.size_pos.1)]
    exact ⟨rfl, h⟩
  have hne : (es.map Prod.snd).isEmpty = false := by simpa using hnil
  rw [if_neg (h.size_pos.2 (by simpa using hnil)), hfind]
  cases hf : findSpec minTimestamp (minTimestamp target) none es with
  | none =>
    rw [removeSpec_of_forall_ne (findSpec_none_forall hf)]
    simp only [hne, Bool.false_eq_true, ↓reduceIte]
    exact ⟨trivial, h⟩
  | some r =>
    obtain ⟨pv, c⟩ := r
    obtain ⟨ys, v, zs, rfl, hys, hv, hpv⟩ := findSpec_eq_some hf
    rw [List.map_append, List.map_cons,
      removeSpec_first (fun y hy => by obtain ⟨e, he, rfl⟩ := List.mem_map.1 hy; exact hys e he) hv,
      ← List.map_append]
    refine ⟨rfl, ?_⟩
    have hsize := h.size_eq
    rcases ys.eq_nil_or_concat with rfl | ⟨ys, ⟨p, vp⟩, rfl⟩
    · obtain ⟨-, n, hn, rfl, hz⟩ := hs.head_inv
      simp only [List.getLast?_nil, Option.map_none', Option.or_none] at hpv
      subst hpv
      refine ⟨⟨zs, by simpa [setHead, getNext, hn] using hz, (List.nodup_cons.1 hnd).2, rfl⟩,
        ?_, .inr rfl⟩
      simp [setHead, hsize]
    · simp only [List.concat_eq_append, List.getLast?_append, List.getLast?_singleton,
        Option.or_some, Option.map_some'] at hpv
      subst hpv
      simp only [List.concat_eq_append, List.append_assoc, List.singleton_append] at hs hnd hsize ⊢
      obtain ⟨n, hn, hseg⟩ := hs.unlink hnd
      have hnd' := nodup_drop_mid hnd
      have hnext : l.getNext c = n.next := by simp [getNext, hn]
      rw [hnext]
      cases hn' : n.next with
      | none =>
        rw [hn'] at hseg
        exact ⟨⟨_, hseg, hnd', rfl⟩, by simp [setNext, setTail, hsize]; omega, .inl rfl⟩
      | some x =>
        rw [hn'] at hseg
        exact ⟨⟨_, hseg, hnd', rfl⟩, by simp [setNext, hsize]; omega, h.cache⟩

theorem Refines.swap (h : l.Refines xs) (old new : α) :
    (l.swap minTimestamp old new).2 = (swapSpec minTimestamp xs old new).2 ∧
      (l.swap minTimestamp old new).1.Refines (swapSpec minTimestamp xs old new).1 := by
  obtain ⟨es, hs, hnd, rfl, hfind⟩ := h.find minTimestamp (minTimestamp old)
  unfold PartitionList.swap
  by_cases hnil : es = []
  · subst hnil
    rw [if_pos (by simpa using mt h.size_pos.1)]
    exact ⟨rfl, h⟩
  have hne : (es.map Prod.snd).isEmpty = false := by simpa using hnil
  rw [if_neg (h.size_pos.2 (by simpa using hnil)), hfind]
  cases hf : findSpec minTimestamp (minTimestamp old) none es with
  | none =>
    rw [swapSpec_of_forall_ne (findSpec_none_forall hf)]
    simp only [hne, Bool.false_eq_true, ↓reduceIte]
    exact ⟨trivial, h⟩
  | some r =>
    obtain ⟨pv, c⟩ := r
    obtain ⟨ys, v, zs, rfl, hys, hv, hpv⟩ := findSpec_eq_some hf
    rw [List.map_append, List.map_cons,
      swapSpec_first (fun y hy => by obtain ⟨e, he, rfl⟩ := List.mem_map.1 hy; exact hys e he) hv]
    refine ⟨rfl, ?_⟩
    have hsize := h.size_eq
    have hnd' := nodup_replace_fresh (l.nodes.length, new) hnd fun e he =>
      Nat.ne_of_lt (hs.lt_length e he)
    rcases ys.eq_nil_or_concat with rfl | ⟨ys, ⟨p, vp⟩, rfl⟩
    · simp only [List.getLast?_nil, Option.map_none', Option.or_none] at hpv
      subst hpv
      obtain ⟨hhead, -⟩ := hs.head_inv
      rw [hhead] at hs
      obtain ⟨n, hn, hseg⟩ := hs.relink_head new
      have hnext : l.getNext c = n.next := by simp [getNext, hn]
      exact ⟨⟨(l.nodes.length, new) :: zs, by simpa [alloc, setHead, hnext] using hseg,
        by simpa using hnd', rfl⟩, by simpa using hsize, .inr rfl⟩
    · simp only [List.concat_eq_append, List.getLast?_append, List.getLast?_singleton,
        Option.or_some, Option.map_some'] at hpv
      subst hpv
      simp only [List.concat_eq_append, List.append_assoc, List.singleton_append]
        at hs hnd hnd' hsize ⊢
      obtain ⟨n, hn, hseg⟩ := hs.relink new hnd
      have hnext : l.getNext c = n.next := by simp [getNext, hn]
      rw [hnext]
      cases hn' : n.next <;> rw [hn'] at hseg <;>
        exact ⟨⟨ys ++ (p, vp) :: (l.nodes.length, new) :: zs,
          by simpa [alloc, setNext, setTail] using hseg, hnd', by simp⟩, by simpa using hsize,
          h.cache⟩

/-- One call on a list representing `xs` returns what the spec predicts and leaves a list
representing the spec's partitions. -/
theorem Refines.exec (h : l.Refines xs) (c : ListCall α) :
    (l.exec minTimestamp c).2 = (ListCall.spec minTimestamp xs c).2 ∧
      (l.exec minTimestamp c).1.Refines (ListCall.spec minTimestamp xs c).1 := by
  cases c with
  | insert p => exact ⟨rfl, h.insert p⟩
  | remove target cleanOk =>
    obtain ⟨h₁, h₂⟩ := h.remove cleanOk target
    exact ⟨congrArg (Except.map _) h₁, h₂⟩
  | swap old new =>
    obtain ⟨h₁, h₂⟩ := h.swap old new
    exact ⟨congrArg (Except.map _) h₁, h₂⟩
  | getHead =>
    obtain ⟨h₁, h₂⟩ := h.getHead
    exact ⟨congrArg Except.ok h₁, h₂⟩

variable (minTimestamp) in
theorem Refines.execAll (h : l.Refines xs) (cs : List (ListCall α)) :
    (l.execAll minTimestamp cs).2 = (ListCall.specAll minTimestamp xs cs).2 ∧
      (l.execAll minTimestamp cs).1.Refines (ListCall.specAll minTimestamp xs cs).1 := by
  induction cs generalizing l xs with
  | nil => exact ⟨rfl, h⟩
  | cons c cs ih =>
    obtain ⟨h₁, h₂⟩ := h.exec c
    obtain ⟨ih₁, ih₂⟩ := ih h₂
    exact ⟨by simp only [PartitionList.execAll, ListCall.specAll, h₁, ih₁], ih₂⟩

variable (minTimestamp) in
/-- Any calls run one at a time from `newPartitionList` return what the spec on the list of
partitions predicts; afterwards the chain from the head is finite, acyclic and lists the
spec's partitions, `size` is their number, `getHead` gives the first, and a fresh iterator
yields them all in order and stops. -/
theorem execAll_refines_spec (cs : List (ListCall α)) {l : PartitionList α} {xs : List α}
    {rs rs' : List (Except String (Option α))}
    (hrun : (newPartitionList : PartitionList α).execAll minTimestamp cs = (l, rs))
    (hspec : ListCall.specAll minTimestamp [] cs = (xs, rs')) :
    rs = rs' ∧
      (∃ es, Seg l.nodes l.head es none ∧ (es.map Prod.fst).Nodup ∧ es.map Prod.snd = xs) ∧
      l.size = xs.length ∧ l.getHead.1 = xs.head? ∧
      ∀ fuel, xs.length < fuel → l.iterate fuel l.newIterator = xs.map some := by
  obtain ⟨h₁, h₂⟩ := new_refines.execAll minTimestamp cs
  rw [hrun, hspec] at h₁ h₂
  exact ⟨h₁, h₂.chain, h₂.size, h₂.getHead.1, fun _ => h₂.iterate⟩

theorem execAll_refines_spec_sample :
    (newPartitionList : PartitionList Int).execAll id [.insert 5, .insert 7, .remove 5 true] =
        (⟨1, some 1, some 1, none, [⟨5, none⟩, ⟨7, none⟩]⟩, [.ok none, .ok none, .ok none]) ∧
      ListCall.specAll id [] [.insert 5, .insert 7, .remove 5 true] =
        ([7], [.ok none, .ok none, .ok none]) ∧
      ([.ok none, .ok none, .ok none] : List (Except String (Option Int))) =
          [.ok none, .ok none, .ok none] ∧
      (∃ es, Seg ([⟨5, none⟩, ⟨7, none⟩] : List (PartitionNode Int)) (some 1) es none ∧ (es.map Prod.fst).Nodup ∧
        es.map Prod.snd = [7]) ∧
      (⟨1, some 1, some 1, none, [⟨5, none⟩, ⟨7, none⟩]⟩ : PartitionList Int).size = 1 ∧
      (⟨1, some 1, some 1, none, [⟨5, none⟩, ⟨7, none⟩]⟩ : PartitionList Int).getHead.1 = some 7 ∧
      ∀ fuel, 1 < fuel →
        (⟨1, some 1, some 1, none, [⟨5, none⟩, ⟨7, none⟩]⟩ : PartitionList Int).iterate fuel
          (⟨1, some 1, some 1, none, [⟨5, none⟩, ⟨7, none⟩]⟩ : PartitionList Int).newIterator =
          [some 7] :=
  ⟨rfl, rfl, execAll_refines_spec id [.insert 5, .insert 7, .remove 5 true] rfl rfl⟩

/-- `insert` never writes `tail`. -/
theorem execAll_inserts_tail (l : PartitionList α) (ps : List α) :
    (l.execAll minTimestamp (ps.map .insert)).1.tail = l.tail := by
  induction ps generalizing l with
  | nil => rfl
  | cons p ps ih => exact ih (l.insert p)

theorem specAll_inserts (xs ps : List α) :
    (ListCall.specAll minTimestamp xs (ps.map .insert)).1 = ps.reverse ++ xs := by
  induction ps generalizing xs with
  | nil => rfl
  | cons p ps ih => simp [ListCall.specAll, ListCall.spec, ih]

variable (minTimestamp) in
/-- Inserts from `newPartitionList` build a non-empty chain, newest first, and leave `tail`
nil: the chain's last node is never recorded. -/
theorem inserts_leave_tail_nil (ps : List α) (hps : ps ≠ []) {l : PartitionList α}
    (hrun : ((newPartitionList : PartitionList α).execAll minTimestamp (ps.map .insert)).1 = l) :
    l.tail = none ∧ l.head.isSome ∧ l.Refines ps.reverse := by
  have h := (new_refines.execAll minTimestamp (ps.map .insert)).2
  rw [specAll_inserts, List.append_nil, hrun] at h
  refine ⟨hrun ▸ execAll_inserts_tail _ _, Option.isSome_iff_ne_none.2 fun hn => hps ?_, h⟩
  obtain ⟨es, hs, -, hes⟩ := h.chain
  rw [hn] at hs
  simpa [hs.of_none.1] using hes.symm

theorem inserts_leave_tail_nil_sample :
    [(5 : Int)] ≠ [] ∧
      ((newPartitionList : PartitionList Int).execAll id ([5].map .insert)).1 =
        ⟨1, some 0, none, some 0, [⟨5, none⟩]⟩ ∧
      (⟨1, some 0, none, some 0, [⟨5, none⟩]⟩ : PartitionList Int).tail = none ∧
      (⟨1, some 0, none, some 0, [⟨5, none⟩]⟩ : PartitionList Int).head.isSome ∧
      (⟨1, some 0, none, some 0, [⟨5, none⟩]⟩ : PartitionList Int).Refines [5] :=
  ⟨by decide, by decide, inserts_leave_tail_nil id [5] (by decide) (by decide)⟩

/-- Writing each text followed by the separator and cutting the last separator off joins
the texts with the separator, when no text is empty. -/
theorem trim_flatten_append {β : Type} (f : β → List Char) (sep : List Char) {xs : List β}
    (hf : ∀ x ∈ xs, f x ≠ []) :
    (if ((xs.map fun x => f x ++ sep).flatten).length > sep.length then
      ((xs.map fun x => f x ++ sep).flatten).take
        (((xs.map fun x => f x ++ sep).flatten).length - sep.length)
    else (xs.map fun x => f x ++ sep).flatten) = sep.intercalate (xs.map f) := by
  rcases xs with _ | ⟨x, xs⟩
  · simp [List.intercalate]
  have hjoin : ∀ x, ((x :: xs).map fun x => f x ++ sep).flatten =
      (((x :: xs).map f).intersperse sep).flatten ++ sep := by
    clear hf
    induction xs with
    | nil => simp
    | cons y xs ih =>
      intro x
      rw [List.map_cons, List.flatten_cons, ih y]
      simp
  have hlen : 0 < (((x :: xs).map f).intersperse sep).flatten.length := by
    have := List.length_pos.2 (hf x (List.mem_cons_self _ _))
    rcases xs with _ | ⟨y, xs⟩ <;> simp <;> omega
  rw [hjoin, List.length_append, if_pos (by omega), Nat.add_sub_cancel, List.take_left]
  rfl

variable (minTimestamp) in
/-- After any calls run one at a time from `newPartitionList`, `String` names the kinds of
the spec's partitions, newest first, joined by `->` with no trailing arrow. -/
theorem string_execAll (kind : α → PartitionKind) (cs : List (ListCall α)) :
    ((newPartitionList : PartitionList α).execAll minTimestamp cs).1.string kind =
      "->".toList.intercalate
        ((ListCall.specAll minTimestamp [] cs).1.map fun p => (kind p).text) := by
  have h := (new_refines.execAll minTimestamp cs).2
  obtain ⟨es, hs, hnd, hes⟩ := h.chain
  have hfuel : (ListCall.specAll minTimestamp [] cs).1.length <
      ((newPartitionList : PartitionList α).execAll minTimestamp cs).1.nodes.length + 1 := by
    have := hs.length_le hnd
    rw [← hes, List.length_map]
    omega
  have htext : ∀ k : PartitionKind, k.text ≠ [] := fun k => by cases k <;> decide
  simp only [PartitionList.string, h.iterate hfuel, List.map_map, Function.comp_def,
    Option.map_some', Option.getD_some]
  exact trim_flatten_append (fun p => (kind p).text) "->".toList fun p _ => htext (kind p)

/-! ### Newest first

The list keeps its partitions newest first, as its interface documents, only while callers
insert partitions newer than every partition in it and swap in a partition with the old
one's minimum timestamp; `insert` itself checks nothing. Then no two partitions share a
minimum timestamp, so `samePartitions` matches at most one node, and `getHead` gives the
newest partition. -/

/-- The partition an `insert` call adds. -/
def ListCall.inserted : ListCall α → Option α
  | .insert p => some p
  | _ => none

/-- Replacing an entry by one with the same minimum timestamp keeps every timestamp. -/
theorem map_replaceF_of_eq {f : α → Option α} (hf : ∀ x y, f x = some y → minTimestamp y = minTimestamp x)
    (xs : List α) : (xs.replaceF f).map minTimestamp = xs.map minTimestamp := by
  induction xs with
  | nil => rfl
  | cons x xs ih =>
    rw [List.replaceF_cons]
    cases h : f x with
    | none => simp [ih]
    | some y => simp [hf x y h]

variable (minTimestamp) in
/-- One call by such a caller keeps the partitions strictly decreasing in minimum timestamp
and older than every partition inserted later. -/
theorem ListCall.spec_newest_first {xs later : List α} {c : ListCall α}
    (hxs : xs.Pairwise fun a b => minTimestamp b < minTimestamp a)
    (hnew : ∀ p ∈ (ListCall.inserted c).toList ++ later, ∀ x ∈ xs, minTimestamp x < minTimestamp p)
    (hlater : ∀ p ∈ ListCall.inserted c, ∀ q ∈ later, minTimestamp p < minTimestamp q)
    (hswap : ∀ old new, c = .swap old new → minTimestamp new = minTimestamp old) :
    ((ListCall.spec minTimestamp xs c).1.Pairwise fun a b => minTimestamp b < minTimestamp a) ∧
      ∀ q ∈ later, ∀ x ∈ (ListCall.spec minTimestamp xs c).1, minTimestamp x < minTimestamp q := by
  have hold : ∀ q ∈ later, ∀ x ∈ xs, minTimestamp x < minTimestamp q :=
    fun q hq => hnew q (List.mem_append_right _ hq)
  cases c with
  | insert p =>
    have hp := hnew p (by simp [ListCall.inserted])
    refine ⟨List.pairwise_cons.2 ⟨hp, hxs⟩, fun q hq x hx => ?_⟩
    rcases List.mem_cons.1 hx with rfl | hx
    · exact hlater x rfl q hq
    · exact hold q hq x hx
  | remove target cleanOk =>
    have hsub : (ListCall.spec minTimestamp xs (.remove target cleanOk)).1.Sublist xs := by
      simp only [ListCall.spec, removeSpec]
      split_ifs <;> dsimp only <;> first | exact List.Sublist.refl _ | exact List.eraseP_sublist _
    exact ⟨hxs.sublist hsub, fun q hq x hx => hold q hq x (hsub.subset hx)⟩
  | swap old new =>
    have hmap : (ListCall.spec minTimestamp xs (.swap old new)).1.map minTimestamp =
        xs.map minTimestamp := by
      simp only [ListCall.spec, swapSpec]
      split_ifs
      · rfl
      · exact map_replaceF_of_eq (fun x y h => by
          split_ifs at h with hx
          exact (Option.some.inj h) ▸ (hswap old new rfl).trans hx.symm) xs
      · rfl
    refine ⟨?_, fun q hq x hx => ?_⟩
    · have h := (List.pairwise_map.2 hxs : (xs.map minTimestamp).Pairwise fun x y => y < x)
      rw [← hmap] at h
      exact List.pairwise_map.1 h
    · obtain ⟨y, hy, he⟩ := List.mem_map.1 (hmap ▸ List.mem_map_of_mem minTimestamp hx)
      exact he ▸ hold q hq y hy
  | getHead => exact ⟨hxs, hold⟩

variable (minTimestamp) in
theorem ListCall.specAll_newest_first {xs : List α} {cs : List (ListCall α)}
    (hxs : xs.Pairwise fun a b => minTimestamp b < minTimestamp a)
    (hnew : ∀ p ∈ cs.filterMap ListCall.inserted, ∀ x ∈ xs, minTimestamp x < minTimestamp p)
    (hins : (cs.filterMap ListCall.inserted).Pairwise fun p q => minTimestamp p < minTimestamp q)
    (hswap : ∀ old new, ListCall.swap old new ∈ cs → minTimestamp new = minTimestamp old) :
    (ListCall.specAll minTimestamp xs cs).1.Pairwise fun a b => minTimestamp b < minTimestamp a := by
  induction cs generalizing xs with
  | nil => exact hxs
  | cons c cs ih =>
    have hsplit : (c :: cs).filterMap ListCall.inserted =
        (ListCall.inserted c).toList ++ cs.filterMap ListCall.inserted := by
      cases c <;> rfl
    rw [hsplit, List.pairwise_append] at hins
    rw [hsplit] at hnew
    obtain ⟨hxs', hnew'⟩ := ListCall.spec_newest_first minTimestamp hxs hnew
      (fun p hp q hq => hins.2.2 p (Option.mem_toList.2 hp) q hq)
      (fun old new e => hswap old new (e ▸ List.mem_cons_self _ _))
    exact ih hxs' hnew' hins.2.1 fun old new h => hswap old new (List.mem_cons_of_mem _ h)

variable (minTimestamp) in
/-- When every `insert` adds a partition newer than every partition inserted before it and
every `swap` puts in a partition with the old one's minimum timestamp, the calls run one at a
time from `newPartitionList` leave the chain from the head strictly decreasing in minimum
timestamp, newest first, and `getHead` returns a partition no older than any on the chain. -/
theorem execAll_newest_first (cs : List (ListCall α))
    (hins : (cs.filterMap ListCall.inserted).Pairwise fun p q => minTimestamp p < minTimestamp q)
    (hswap : ∀ old new, ListCall.swap old new ∈ cs → minTimestamp new = minTimestamp old) :
    ∃ es, Seg ((newPartitionList : PartitionList α).execAll minTimestamp cs).1.nodes
        ((newPartitionList : PartitionList α).execAll minTimestamp cs).1.head es none ∧
      (es.Pairwise fun a b => minTimestamp b.2 < minTimestamp a.2) ∧
      ∀ p, ((newPartitionList : PartitionList α).execAll minTimestamp cs).1.getHead.1 = some p →
        ∀ e ∈ es, minTimestamp e.2 ≤ minTimestamp p := by
  have h := (new_refines.execAll minTimestamp cs).2
  have hsorted := ListCall.specAll_newest_first minTimestamp List.Pairwise.nil
    (fun _ _ x hx => absurd hx (List.not_mem_nil x)) hins hswap
  obtain ⟨es, hs, -, hes⟩ := h.chain
  rw [← hes, List.pairwise_map] at hsorted
  refine ⟨es, hs, hsorted, fun p hp e he => ?_⟩
  rw [h.getHead.1, ← hes] at hp
  rcases es with _ | ⟨e₀, es⟩
  · cases hp
  · obtain rfl : e₀.2 = p := Option.some.inj hp
    rcases List.mem_cons.1 he with rfl | he
    · exact le_rfl
    · exact (List.rel_of_pairwise_cons hsorted he).le

theorem execAll_newest_first_sample :
    (([ListCall.insert ((1 : Int), 0), .insert (5, 0), .swap (5, 0) (5, 1), .remove (1, 0) true,
        .insert (7, 0)].filterMap ListCall.inserted).Pairwise fun p q => p.1 < q.1) ∧
      (∀ old new, ListCall.swap old new ∈ [ListCall.insert ((1 : Int), 0), .insert (5, 0),
        .swap (5, 0) (5, 1), .remove (1, 0) true, .insert (7, 0)] → new.1 = old.1) ∧
      ∃ es, Seg ((newPartitionList : PartitionList (Int × Nat)).execAll Prod.fst
          [.insert (1, 0), .insert (5, 0), .swap (5, 0) (5, 1), .remove (1, 0) true,
            .insert (7, 0)]).1.nodes
          ((newPartitionList : PartitionList (Int × Nat)).execAll Prod.fst
            [.insert (1, 0), .insert (5, 0), .swap (5, 0) (5, 1), .remove (1, 0) true,
              .insert (7, 0)]).1.head es none ∧
        (es.Pairwise fun a b => b.2.1 < a.2.1) ∧
        ∀ p, ((newPartitionList : PartitionList (Int × Nat)).execAll Prod.fst
            [.insert (1, 0), .insert (5, 0), .swap (5, 0) (5, 1), .remove (1, 0) true,
              .insert (7, 0)]).1.getHead.1 = some p →
          ∀ e ∈ es, e.2.1 ≤ p.1 :=
  have hins : ([ListCall.insert ((1 : Int), 0), .insert (5, 0), .swap (5, 0) (5, 1),
      .remove (1, 0) true, .insert (7, 0)].filterMap ListCall.inserted).Pairwise
      fun p q => p.1 < q.1 := by decide
  have hswap : ∀ old new, ListCall.swap old new ∈ [ListCall.insert ((1 : Int), 0), .insert (5, 0),
      .swap (5, 0) (5, 1), .remove (1, 0) true, .insert (7, 0)] → new.1 = old.1 := by
    intro old new h
    simp only [List.mem_cons, reduceCtorEq, ListCall.swap.injEq, List.mem_nil_iff, false_or,
      or_false] at h
    rw [h.1, h.2]
  ⟨hins, hswap, execAll_newest_first Prod.fst _ hins hswap⟩

end PartitionList

end EmbedTSDB
