import EmbedTSDB.PartitionList.Basic
import Mathlib.Data.List.Perm.Subperm
import Mathlib.Data.List.Nodup

/-! Chains of nodes in the heap. `Seg nodes s es t` says that following `next` from `s`
visits the nodes `es`, each with its partition, and then reaches `t`; the chain from the
head is the segment that reaches nil. Writes to nodes off a segment and fresh allocations
leave it in place. -/
namespace EmbedTSDB

variable {α : Type}

/-- Following `next` from `s` visits the nodes `es` (address and partition), then reaches
`t`. -/
inductive Seg (nodes : List (PartitionNode α)) : Option Nat → List (Nat × α) → Option Nat → Prop
  | nil (s : Option Nat) : Seg nodes s [] s
  | cons {a : Nat} {n : PartitionNode α} {es : List (Nat × α)} {t : Option Nat}
      (h : nodes[a]? = some n) (rest : Seg nodes n.next es t) : Seg nodes (some a) ((a, n.val) :: es) t

namespace Seg

variable {nodes : List (PartitionNode α)}

theorem append {s m t : Option Nat} {es₁ es₂ : List (Nat × α)} (h₁ : Seg nodes s es₁ m)
    (h₂ : Seg nodes m es₂ t) : Seg nodes s (es₁ ++ es₂) t := by
  induction h₁ with
  | nil => exact h₂
  | cons h _ ih => exact .cons h (ih h₂)

theorem split {s t : Option Nat} {es₁ es₂ : List (Nat × α)} (h : Seg nodes s (es₁ ++ es₂) t) :
    ∃ m, Seg nodes s es₁ m ∧ Seg nodes m es₂ t := by
  induction es₁ generalizing s with
  | nil => exact ⟨s, .nil s, h⟩
  | cons e es₁ ih =>
    cases h with
    | cons hn rest =>
      obtain ⟨m, h₁, h₂⟩ := ih rest
      exact ⟨m, .cons hn h₁, h₂⟩

theorem lt_length {s t : Option Nat} {es : List (Nat × α)} (h : Seg nodes s es t) :
    ∀ e ∈ es, e.1 < nodes.length := by
  induction h with
  | nil => simp
  | cons hn _ ih =>
    intro e he
    rcases List.mem_cons.1 he with rfl | he
    · exact (List.getElem?_eq_some_iff.1 hn).1
    · exact ih e he

/-- A fresh node leaves every segment in place. -/
theorem alloc {s t : Option Nat} {es : List (Nat × α)} (h : Seg nodes s es t)
    (n : PartitionNode α) : Seg (nodes ++ [n]) s es t := by
  induction h with
  | nil => exact .nil _
  | cons hn _ ih =>
    exact .cons (by rw [List.getElem?_append_left (List.getElem?_eq_some_iff.1 hn).1, hn]) ih

/-- A write to the `next` of a node off the segment leaves it in place. -/
theorem setNext {s t : Option Nat} {es : List (Nat × α)} (h : Seg nodes s es t) {addr : Nat}
    (hoff : ∀ e ∈ es, e.1 ≠ addr) (x : Option Nat) :
    Seg (nodes.modify (fun n => { n with next := x }) addr) s es t := by
  induction h with
  | nil => exact .nil _
  | cons hn _ ih =>
    refine .cons ?_ (ih fun e he => hoff e (List.mem_cons_of_mem _ he))
    rw [List.getElem?_modify_ne _ _ (hoff _ (List.mem_cons_self _ _)).symm, hn]

/-- Redirecting the last node of a segment redirects where the segment ends. -/
theorem setNext_last {s t : Option Nat} {es : List (Nat × α)} {a : Nat} {v : α}
    (h : Seg nodes s (es ++ [(a, v)]) t) (hoff : ∀ e ∈ es, e.1 ≠ a) (x : Option Nat) :
    Seg (nodes.modify (fun n => { n with next := x }) a) s (es ++ [(a, v)]) x := by
  obtain ⟨m, h₁, h₂⟩ := h.split
  refine (h₁.setNext hoff x).append ?_
  cases h₂ with
  | @cons _ n _ _ hn _ =>
    have hn' : (nodes.modify (fun n => { n with next := x }) a)[a]? =
        some { n with next := x } := by
      rw [List.getElem?_modify_eq, hn]
      rfl
    exact @Seg.cons _ _ a { n with next := x } [] x hn' (.nil x)

theorem of_none {es : List (Nat × α)} {t : Option Nat} (h : Seg nodes none es t) :
    es = [] ∧ t = none := by
  cases h
  exact ⟨rfl, rfl⟩

theorem cons_inv {a : Nat} {es : List (Nat × α)} (h : Seg nodes (some a) es none) :
    ∃ n rest, nodes[a]? = some n ∧ es = (a, n.val) :: rest ∧ Seg nodes n.next rest none := by
  cases h with
  | cons hn rest => exact ⟨_, _, hn, rfl, rest⟩

theorem head_inv {s t : Option Nat} {a : Nat} {v : α} {es : List (Nat × α)}
    (h : Seg nodes s ((a, v) :: es) t) :
    s = some a ∧ ∃ n, nodes[a]? = some n ∧ n.val = v ∧ Seg nodes n.next es t := by
  cases h with
  | cons hn rest => exact ⟨rfl, _, hn, rfl, rest⟩

/-- A segment starts at its first node, or where it ends when it has none. -/
theorem start_eq {s t : Option Nat} {es : List (Nat × α)} (h : Seg nodes s es t) :
    s = (es.head?.map Prod.fst).or t := by
  cases h <;> rfl

theorem val_of_mem {s t : Option Nat} {es : List (Nat × α)} (h : Seg nodes s es t)
    {e : Nat × α} (he : e ∈ es) : ∃ n, nodes[e.1]? = some n ∧ n.val = e.2 := by
  induction h with
  | nil => cases he
  | cons hn _ ih =>
    rcases List.mem_cons.1 he with rfl | he
    · exact ⟨_, hn, rfl⟩
    · exact ih he

/-- A node of a segment cuts it in two. -/
theorem split_mem {s t : Option Nat} {es : List (Nat × α)} (h : Seg nodes s es t) {x : Nat}
    (hx : x ∈ es.map Prod.fst) :
    ∃ ys n zs, es = ys ++ (x, n.val) :: zs ∧ nodes[x]? = some n ∧ Seg nodes n.next zs t := by
  induction h with
  | nil => simp at hx
  | @cons a n es t hn rest ih =>
    by_cases hax : a = x
    · subst hax
      exact ⟨[], n, es, rfl, hn, rest⟩
    · obtain ⟨ys, m, zs, rfl, hm, hz⟩ := ih (by simpa [Ne.symm hax] using hx)
      exact ⟨(a, n.val) :: ys, m, zs, rfl, hm, hz⟩

/-- In a chain ending in nil, the node at `c` points at the entry after `c`. -/
theorem next_of_split {s : Option Nat} {ys zs : List (Nat × α)} {c : Nat} {v : α}
    (h : Seg nodes s (ys ++ (c, v) :: zs) none) :
    ∃ n, nodes[c]? = some n ∧ n.val = v ∧ n.next = zs.head?.map Prod.fst ∧
      Seg nodes n.next zs none := by
  obtain ⟨m, -, h₂⟩ := h.split
  obtain ⟨-, n, hn, hv, hz⟩ := h₂.head_inv
  exact ⟨n, hn, hv, by simpa using hz.start_eq, hz⟩

/-- The nodes of a chain ending in nil point at nodes of the chain or at nil. -/
theorem closed {s : Option Nat} {es : List (Nat × α)} (h : Seg nodes s es none) :
    ∀ a ∈ es.map Prod.fst,
      ∃ n, nodes[a]? = some n ∧ ∀ b, n.next = some b → b ∈ es.map Prod.fst := by
  intro a ha
  obtain ⟨ys, n, zs, rfl, hn, hz⟩ := h.split_mem ha
  refine ⟨n, hn, fun b hb => ?_⟩
  have hstart := hz.start_eq
  rw [hb] at hstart
  cases zs with
  | nil => simp at hstart
  | cons z zs =>
    simp only [List.head?_cons, Option.map_some', Option.or_some, Option.some.injEq] at hstart
    simp [hstart]

theorem head_mem {s : Option Nat} {es : List (Nat × α)} (h : Seg nodes s es none) {a : Nat}
    (ha : s = some a) : a ∈ es.map Prod.fst := by
  have hstart := h.start_eq
  rw [ha] at hstart
  cases es with
  | nil => simp at hstart
  | cons e es =>
    simp only [List.head?_cons, Option.map_some', Option.or_some, Option.some.injEq] at hstart
    simp [hstart]

/-- A chain through distinct nodes that passes `p` and then `c`: the part up to `p`, which
ends at `c`, the node at `c` and the chain after it, and `p` nowhere else in the chain. -/
theorem split_next {s : Option Nat} {ys zs : List (Nat × α)} {p c : Nat} {vp v : α}
    (h : Seg nodes s (ys ++ (p, vp) :: (c, v) :: zs) none)
    (hnd : ((ys ++ (p, vp) :: (c, v) :: zs).map Prod.fst).Nodup) :
    ∃ n, nodes[c]? = some n ∧ Seg nodes s (ys ++ [(p, vp)]) (some c) ∧
      Seg nodes n.next zs none ∧ (∀ e ∈ ys, e.1 ≠ p) ∧ ∀ e ∈ zs, e.1 ≠ p := by
  have hp : (∀ e ∈ ys, e.1 ≠ p) ∧ ∀ e ∈ zs, e.1 ≠ p := by
    simp only [List.map_append, List.map_cons, List.nodup_append, List.nodup_cons,
      List.mem_cons, List.mem_map, List.disjoint_cons_right] at hnd
    exact ⟨fun e he hep => hnd.2.2.1 ⟨e, he, hep⟩,
      fun e he hep => hnd.2.1.1 (.inr ⟨e, he, hep⟩)⟩
  rw [show ys ++ (p, vp) :: (c, v) :: zs = (ys ++ [(p, vp)]) ++ (c, v) :: zs by simp] at h
  obtain ⟨m, h₁, h₂⟩ := h.split
  cases h₂ with
  | @cons _ n _ _ hn rest => exact ⟨n, hn, h₁, rest, hp⟩

/-- Unlinking the node after `p` by pointing `p` past it. -/
theorem unlink {s : Option Nat} {ys zs : List (Nat × α)} {p c : Nat} {vp v : α}
    (h : Seg nodes s (ys ++ (p, vp) :: (c, v) :: zs) none)
    (hnd : ((ys ++ (p, vp) :: (c, v) :: zs).map Prod.fst).Nodup) :
    ∃ n, nodes[c]? = some n ∧
      Seg (nodes.modify (fun m => { m with next := n.next }) p) s (ys ++ (p, vp) :: zs) none := by
  obtain ⟨n, hn, h₁, rest, hys, hzs⟩ := h.split_next hnd
  exact ⟨n, hn, by simpa using (h₁.setNext_last hys n.next).append (rest.setNext hzs n.next)⟩

/-- A fresh node in place of the first node of a chain, with the same successor. -/
theorem relink_head {c : Nat} {v : α} {zs : List (Nat × α)} (new : α)
    (h : Seg nodes (some c) ((c, v) :: zs) none) :
    ∃ n : PartitionNode α, nodes[c]? = some n ∧
      Seg (nodes ++ [(⟨new, n.next⟩ : PartitionNode α)]) (some nodes.length)
        ((nodes.length, new) :: zs) none := by
  cases h with
  | @cons _ n _ _ hn rest =>
    exact ⟨n, hn, @Seg.cons α _ _ ⟨new, n.next⟩ _ _ (by simp) (rest.alloc _)⟩

/-- A fresh node in place of the node after `p`, with the same successor. -/
theorem relink {s : Option Nat} {ys zs : List (Nat × α)} {p c : Nat} {vp v : α} (new : α)
    (h : Seg nodes s (ys ++ (p, vp) :: (c, v) :: zs) none)
    (hnd : ((ys ++ (p, vp) :: (c, v) :: zs).map Prod.fst).Nodup) :
    ∃ n : PartitionNode α, nodes[c]? = some n ∧
      Seg ((nodes ++ [(⟨new, n.next⟩ : PartitionNode α)]).modify
          (fun m => { m with next := some nodes.length }) p)
        s (ys ++ (p, vp) :: (nodes.length, new) :: zs) none := by
  have hplt : p < nodes.length := h.lt_length (p, vp) (by simp)
  obtain ⟨n, hn, h₁, rest, hys, hzs⟩ := h.split_next hnd
  refine ⟨n, hn, ?_⟩
  have hk : Seg ((nodes ++ [(⟨new, n.next⟩ : PartitionNode α)]).modify
        (fun m => { m with next := some nodes.length }) p)
      (some nodes.length) [(nodes.length, new)] n.next :=
    @Seg.cons α _ _ ⟨new, n.next⟩ _ _
      (by rw [List.getElem?_modify_ne _ _ (by omega)]; simp) (.nil _)
  simpa using ((h₁.alloc _).setNext_last hys (some nodes.length)).append
    (hk.append ((rest.alloc _).setNext hzs _))

/-- A segment through distinct nodes of the heap has at most as many nodes as the heap. -/
theorem length_le {s t : Option Nat} {es : List (Nat × α)} (h : Seg nodes s es t)
    (hnd : (es.map Prod.fst).Nodup) : es.length ≤ nodes.length := by
  have hsub : es.map Prod.fst ⊆ List.range nodes.length := fun a ha => by
    obtain ⟨e, he, rfl⟩ := List.mem_map.1 ha
    exact List.mem_range.2 (h.lt_length e he)
  simpa using (hnd.subperm hsub).length_le

end Seg

end EmbedTSDB
