import Mathlib.Logic.Relation

/-! Concurrent calls on shared state. Each call in flight is a thread state; a scheduler
repeatedly picks a call that has not returned and runs one atomic step of it. A step may
read an input the environment chooses, such as a clock reading. -/
namespace EmbedTSDB

/-- The atomic steps of one kind of call: `step x s c` runs one step of call `c` on the
shared state `s` with input `x`; `returned c` tells whether the call has returned. -/
structure Program (ι σ τ : Type) where
  step : ι → σ → τ → σ × τ
  returned : τ → Bool

/-- The shared state and the calls in flight. -/
structure Config (σ τ : Type) where
  shared : σ
  calls : List τ

namespace Config

variable {ι σ τ : Type} (P : Program ι σ τ)

/-- Call `i` runs its next atomic step with input `x`. -/
def stepCall (s : Config σ τ) (i : Nat) (x : ι) : Config σ τ :=
  match s.calls[i]? with
  | some c => ⟨(P.step x s.shared c).1, s.calls.set i (P.step x s.shared c).2⟩
  | none => s

/-- The scheduler may run any call that has not returned. -/
inductive Step : Config σ τ → Config σ τ → Prop
  | call {s : Config σ τ} {i : Nat} {c : τ} (hc : s.calls[i]? = some c)
      (hrun : P.returned c = false) (x : ι) : Step s (s.stepCall P i x)

/-- The configurations some interleaving reaches from `init`. -/
inductive Reachable (init : Config σ τ) : Config σ τ → Prop
  | init : Reachable init init
  | tail {s t : Config σ τ} (h : Reachable init s) (hs : Step P s t) : Reachable init t

/-- A scheduler that runs call `i` only when `allowed s i` holds: a discipline the callers
keep, such as a lock of their own around some of the calls. -/
inductive GuardedStep (allowed : Config σ τ → Nat → Bool) : Config σ τ → Config σ τ → Prop
  | call {s : Config σ τ} {i : Nat} {c : τ} (hc : s.calls[i]? = some c)
      (hrun : P.returned c = false) (hok : allowed s i = true) (x : ι) :
      GuardedStep allowed s (s.stepCall P i x)

/-- The configurations such a scheduler reaches from `init`. -/
inductive GuardedReachable (allowed : Config σ τ → Nat → Bool) (init : Config σ τ) :
    Config σ τ → Prop
  | init : GuardedReachable allowed init init
  | tail {s t : Config σ τ} (h : GuardedReachable allowed init s)
      (hs : GuardedStep P allowed s t) : GuardedReachable allowed init t

/-- The configurations an interleaving of exactly `n` scheduled steps reaches from `init`. -/
inductive RunsFor (init : Config σ τ) : Config σ τ → Nat → Prop
  | init : RunsFor init init 0
  | tail {s t : Config σ τ} {n : Nat} (h : RunsFor init s n) (hs : Step P s t) :
      RunsFor init t (n + 1)

variable {P}

/-- A property of `init` that every scheduled step keeps holds at every reachable
configuration. -/
theorem Reachable.inv {init s : Config σ τ} {Inv : Config σ τ → Prop} (h : Reachable P init s)
    (h0 : Inv init) (hstep : ∀ {s t}, Reachable P init s → Inv s → Step P s t → Inv t) :
    Inv s := by
  induction h with
  | init => exact h0
  | tail hr hs ih => exact hstep hr ih hs

/-- A property of the shared state that every step of every call keeps holds at every
reachable configuration, whatever the calls in flight. -/
theorem Reachable.shared_inv {init s : Config σ τ} {I : σ → Prop} (h : Reachable P init s)
    (h0 : I init.shared) (hstep : ∀ x sh c, I sh → I (P.step x sh c).1) : I s.shared := by
  induction h with
  | init => exact h0
  | tail _ hs ih =>
    obtain ⟨hc, -, x⟩ := hs
    simp only [stepCall, hc]
    exact hstep _ _ _ ih

/-- A property of `init` that every step the guard allows keeps holds at every
configuration such a scheduler reaches. -/
theorem GuardedReachable.inv {allowed : Config σ τ → Nat → Bool} {init s : Config σ τ}
    {Inv : Config σ τ → Prop} (h : GuardedReachable P allowed init s) (h0 : Inv init)
    (hstep : ∀ {s t}, Inv s → GuardedStep P allowed s t → Inv t) : Inv s := by
  induction h with
  | init => exact h0
  | tail _ hs ih => exact hstep ih hs

/-- A guarded scheduler is one of the schedulers `Reachable` allows. -/
theorem GuardedReachable.reachable {allowed : Config σ τ → Nat → Bool} {init s : Config σ τ}
    (h : GuardedReachable P allowed init s) : Reachable P init s := by
  induction h with
  | init => exact .init
  | tail _ hs ih =>
    cases hs with
    | call hc hrun _ x => exact ih.tail (.call hc hrun x)

theorem Reachable.trans {init s t : Config σ τ} (h₁ : Reachable P init s)
    (h₂ : Reachable P s t) : Reachable P init t := by
  induction h₂ with
  | init => exact h₁
  | tail _ hs ih => exact ih.tail hs

theorem RunsFor.reachable {init s : Config σ τ} {n : Nat} (h : RunsFor P init s n) :
    Reachable P init s := by
  induction h with
  | init => exact .init
  | tail _ hs ih => exact ih.tail hs

theorem Reachable.runsFor {init s : Config σ τ} (h : Reachable P init s) :
    ∃ n, RunsFor P init s n := by
  induction h with
  | init => exact ⟨0, .init⟩
  | tail _ hs ih =>
    obtain ⟨n, hn⟩ := ih
    exact ⟨n + 1, hn.tail hs⟩

/-- A measure that every step from a reachable configuration lowers bounds every run: after
`n` steps the measure has dropped by at least `n`. -/
theorem RunsFor.add_le_measure {init s : Config σ τ} {n : Nat} (μ : Config σ τ → Nat)
    (h : RunsFor P init s n)
    (hdec : ∀ {s t}, Reachable P init s → Step P s t → μ t < μ s) : n + μ s ≤ μ init := by
  induction h with
  | init => omega
  | tail hr hs ih =>
    have := hdec hr.reachable hs
    omega

/-- The same with a measure that also reads ghost data chosen along the run, such as ranks
given to nodes as they are allocated: if every step from a configuration that fits some ghost
data can choose new ghost data that fits and lowers the measure, the measure at `init`
bounds every run. -/
theorem RunsFor.add_le_ghost {G : Type} {init s : Config σ τ} {n : Nat}
    (I : G → Config σ τ → Prop) (μ : G → Config σ τ → Nat) {g : G} (hinit : I g init)
    (h : RunsFor P init s n) (hdec : ∀ {g s t}, I g s → Step P s t → ∃ g', I g' t ∧ μ g' t < μ g s) :
    ∃ g', I g' s ∧ n + μ g' s ≤ μ g init := by
  induction h with
  | init => exact ⟨g, hinit, by omega⟩
  | tail _ hs ih =>
    obtain ⟨g₁, hI₁, hle⟩ := ih
    obtain ⟨g₂, hI₂, hlt⟩ := hdec hI₁ hs
    exact ⟨g₂, hI₂, by omega⟩

variable (P)

/-- Run a schedule: each entry names a call and the input of its step. -/
def run (s : Config σ τ) : List (Nat × ι) → Config σ τ
  | [] => s
  | (i, x) :: rest => run (s.stepCall P i x) rest

/-- Every entry of the schedule names a call that exists and has not returned. -/
def Schedulable (s : Config σ τ) : List (Nat × ι) → Bool
  | [] => true
  | (i, x) :: rest =>
    (match s.calls[i]? with
      | some c => !P.returned c
      | none => false) && Schedulable (s.stepCall P i x) rest

/-- Every entry of the schedule names a call that exists, has not returned and may run. -/
def GuardedSchedulable (allowed : Config σ τ → Nat → Bool) (s : Config σ τ) :
    List (Nat × ι) → Bool
  | [] => true
  | (i, x) :: rest =>
    (match s.calls[i]? with
      | some c => !P.returned c && allowed s i
      | none => false) && GuardedSchedulable allowed (s.stepCall P i x) rest

variable {P} in
theorem Reachable.run {init s : Config σ τ} (h : Reachable P init s) {sched : List (Nat × ι)}
    (hs : Schedulable P s sched = true) : Reachable P init (s.run P sched) := by
  induction sched generalizing s with
  | nil => exact h
  | cons e rest ih =>
    obtain ⟨i, x⟩ := e
    simp only [Schedulable, Bool.and_eq_true] at hs
    obtain ⟨hcall, hrest⟩ := hs
    split at hcall
    · rename_i c hc
      exact ih (h.tail (Step.call hc (by simpa using hcall) x)) hrest
    · cases hcall

variable {P} in
theorem RunsFor.run {init s : Config σ τ} {n : Nat} (h : RunsFor P init s n)
    {sched : List (Nat × ι)} (hs : Schedulable P s sched = true) :
    RunsFor P init (s.run P sched) (n + sched.length) := by
  induction sched generalizing s n with
  | nil => exact h
  | cons e rest ih =>
    obtain ⟨i, x⟩ := e
    simp only [Schedulable, Bool.and_eq_true] at hs
    obtain ⟨hcall, hrest⟩ := hs
    split at hcall
    · rename_i c hc
      have := ih (h.tail (Step.call hc (by simpa using hcall) x)) hrest
      rwa [List.length_cons, ← Nat.add_assoc, Nat.add_right_comm]
    · cases hcall

variable {P} in
/-- A one-entry schedule that is schedulable is a step. -/
theorem Step.of_schedulable {s : Config σ τ} {i : Nat} {x : ι}
    (h : Schedulable P s [(i, x)] = true) : Step P s (s.stepCall P i x) := by
  simp only [Schedulable, Bool.and_true] at h
  split at h
  · rename_i c hc
    exact .call hc (by simpa using h) x
  · cases h

variable {P} in
theorem GuardedReachable.run {allowed : Config σ τ → Nat → Bool} {init s : Config σ τ}
    (h : GuardedReachable P allowed init s) {sched : List (Nat × ι)}
    (hs : GuardedSchedulable P allowed s sched = true) :
    GuardedReachable P allowed init (s.run P sched) := by
  induction sched generalizing s with
  | nil => exact h
  | cons e rest ih =>
    obtain ⟨i, x⟩ := e
    simp only [GuardedSchedulable, Bool.and_eq_true] at hs
    obtain ⟨hcall, hrest⟩ := hs
    split at hcall
    · rename_i c hc
      simp only [Bool.and_eq_true, Bool.not_eq_true'] at hcall
      exact ih (h.tail (GuardedStep.call hc hcall.1 hcall.2 x)) hrest
    · cases hcall

end Config

/-- Replacing entry `i` of a list changes it in one place between a fixed prefix and suffix. -/
theorem exists_set_split {α : Type} {l : List α} {i : Nat} {a : α} (b : α)
    (h : l[i]? = some a) : ∃ A B, l = A ++ a :: B ∧ l.set i b = A ++ b :: B := by
  obtain ⟨hi, rfl⟩ := List.getElem?_eq_some_iff.1 h
  refine ⟨l.take i, l.drop (i + 1), ?_, ?_⟩
  · rw [← List.drop_eq_getElem_cons hi, List.take_append_drop]
  · rw [List.set_eq_take_append_cons_drop, if_pos hi]

theorem set_of_getElem? {α : Type} {l : List α} {i : Nat} {a : α} (h : l[i]? = some a) :
    l.set i a = l := by
  obtain ⟨A, B, h₁, h₂⟩ := exists_set_split a h
  rw [h₂, ← h₁]

/-- One step of a call on its own, with some input. -/
def Program.Solo {ι σ τ : Type} (P : Program ι σ τ) (p q : σ × τ) : Prop :=
  P.returned p.2 = false ∧ ∃ x, q = P.step x p.1 p.2

/-- One step of a call on its own, with input `x`. -/
def Program.SoloWith {ι σ τ : Type} (P : Program ι σ τ) (x : ι) (p q : σ × τ) : Prop :=
  P.returned p.2 = false ∧ q = P.step x p.1 p.2

theorem Program.SoloWith.solo {ι σ τ : Type} {P : Program ι σ τ} {x : ι} {p q : σ × τ}
    (h : P.SoloWith x p q) : P.Solo p q :=
  ⟨h.1, x, h.2⟩

/-- Steps of call `i` one after another, with no other call between them, are an
interleaving. -/
theorem Config.Reachable.solo {ι σ τ : Type} {P : Program ι σ τ} {init s : Config σ τ}
    (h : Config.Reachable P init s) {i : Nat} {t : τ} (ht : s.calls[i]? = some t) {p : σ × τ}
    (hp : Relation.ReflTransGen P.Solo (s.shared, t) p) :
    Config.Reachable P init ⟨p.1, s.calls.set i p.2⟩ := by
  have hi : i < s.calls.length := (List.getElem?_eq_some_iff.1 ht).1
  induction hp with
  | refl => rwa [set_of_getElem? ht]
  | @tail b c _ hstep ih =>
    obtain ⟨hrun, x, rfl⟩ := hstep
    have hb : (s.calls.set i b.2)[i]? = some b.2 := List.getElem?_set_self hi
    have := ih.tail (@Config.Step.call ι σ τ P ⟨b.1, s.calls.set i b.2⟩ i b.2 hb hrun x)
    simpa [Config.stepCall, hb, List.set_set] using this

/-- An entry of a list with entry `i` replaced is the new entry or an entry at another
place. -/
theorem mem_set_cases {α : Type} {l : List α} {i : Nat} {b u : α} (h : u ∈ l.set i b) :
    u = b ∨ ∃ j, j ≠ i ∧ l[j]? = some u := by
  obtain ⟨j, hj⟩ := List.mem_iff_getElem?.1 h
  by_cases hij : i = j
  · subst hij
    rw [List.getElem?_set, if_pos rfl] at hj
    split at hj <;> simp_all
  · exact .inr ⟨j, Ne.symm hij, by rwa [List.getElem?_set_ne hij] at hj⟩

end EmbedTSDB
