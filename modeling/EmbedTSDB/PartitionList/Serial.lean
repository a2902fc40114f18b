import EmbedTSDB.PartitionList.Atomic
import EmbedTSDB.PartitionList.CleanSafety

/-! Writers kept apart by their callers. When no call of `insert`, `remove` or `swap` takes a
step while another is between its first and its last step, the traversals beside them change
nothing, and each writer runs its steps on the list as the writer before it left it. So at
every point where no writer is midway, the list is what the list model gives for the writers
run one after another in the order they started, and each writer that returned returned what
the model says. The lost partitions of the concurrent module need two writers to overlap. -/
namespace EmbedTSDB

variable {α : Type}

/-- Whether a task is a call of `insert`, `remove` or `swap`. -/
def ListTask.writer : ListTask α → Bool
  | .traverse => false
  | _ => true

@[simp] theorem ListTask.writer_traverse : (ListTask.traverse : ListTask α).writer = false := rfl

@[simp] theorem ListTask.start_writer (task : ListTask α) : task.start.pc.writer = task.writer := by
  cases task <;> rfl

@[simp] theorem ListTask.start_busyWriter (task : ListTask α) :
    task.start.pc.busyWriter = false := by
  cases task <;> rfl

theorem ListPc.writer_of_busyWriter {pc : ListPc α} (h : pc.busyWriter = true) :
    pc.writer = true := by
  cases pc <;> simp_all [ListPc.busyWriter]

theorem ScanFor.busyWriter_found (op : ScanFor α) (prev : Option Nat) (cur : Nat) :
    (op.found prev cur).busyWriter = true := by
  cases op <;> rfl

/-- The tasks at the indices `order`, in that order. -/
def tasksAt (tasks : List (ListTask α)) (order : List Nat) : List (ListTask α) :=
  order.filterMap fun j => tasks[j]?

theorem tasksAt_append_single {tasks : List (ListTask α)} {order : List Nat} {b : Nat}
    {task : ListTask α} (h : tasks[b]? = some task) :
    tasksAt tasks (order ++ [b]) = tasksAt tasks order ++ [task] := by
  simp [tasksAt, List.filterMap_append, h]

/-- The writers that have started, in order, once call `j` takes a step: a writer's first
step appends it. -/
def startStep (tasks : List (ListTask α)) (order : List Nat) (j : Nat) : List Nat :=
  if j ∉ order ∧ tasks[j]?.any ListTask.writer then order ++ [j] else order

/-- The writers of `tasks` a schedule runs, in the order of their first steps. -/
def startOrder {ι : Type} (tasks : List (ListTask α)) (sched : List (Nat × ι)) : List Nat :=
  (sched.map Prod.fst).foldl (startStep tasks) []

/-- Replacing an entry at an index off `order` leaves the entries at `order` alone. -/
theorem map_getElem?_set {β : Type} {l : List β} {i : Nat} {u : β} {order : List Nat}
    (hi : i ∉ order) : order.map (fun j => (l.set i u)[j]?) = order.map fun j => l[j]? :=
  List.map_congr_left fun j hj => List.getElem?_set_ne fun e : i = j => hi (e ▸ hj)

variable [DecidableEq α] (minTimestamp : α → Int)

theorem ListTask.specAll_append_single (xs c : List α) (ts : List (ListTask α)) (t : ListTask α) :
    ListTask.specAll minTimestamp xs c (ts ++ [t]) =
      ((t.spec minTimestamp (ListTask.specAll minTimestamp xs c ts).1.1
          (ListTask.specAll minTimestamp xs c ts).1.2).1,
        (ListTask.specAll minTimestamp xs c ts).2 ++
          [(t.spec minTimestamp (ListTask.specAll minTimestamp xs c ts).1.1
            (ListTask.specAll minTimestamp xs c ts).1.2).2]) := by
  induction ts generalizing xs c with
  | nil => rfl
  | cons u ts ih => simp [ListTask.specAll, ih]

/-- A traversal stays a traversal. -/
theorem listStep_reader_pc {s : SharedList α} {t : ListThread α} (hw : t.pc.writer = false) :
    (listStep minTimestamp s t).2.pc.writer = false := by
  rcases t with ⟨pc, snapshot, seen⟩
  cases pc <;> simp only [ListPc.writer, Bool.true_eq_false] at hw <;> dsimp only [listStep] <;>
    (repeat' split) <;> rfl

/-- After a writer's step the writer is midway or has returned. -/
theorem listStep_busy {s : SharedList α} {t : ListThread α} (hw : t.pc.writer = true) :
    (listStep minTimestamp s t).2.pc.busyWriter = true ∨
      (listStep minTimestamp s t).2.returned = true := by
  rcases t with ⟨pc, snapshot, seen⟩
  cases pc <;> simp only [ListPc.writer, Bool.false_eq_true] at hw <;> dsimp only [listStep] <;>
    (repeat' split) <;>
    first | exact .inl rfl | exact .inr rfl | exact .inl (ScanFor.busyWriter_found _ _ _)

theorem solo_eq {p q : SharedList α × ListThread α} (h : (listThreads minTimestamp).Solo p q) :
    q = listStep minTimestamp p.1 p.2 := by
  obtain ⟨-, ⟨⟩, rfl⟩ := h
  rfl

/-- A thread's own steps are determined: two runs of them from one point that both end with
the thread returned end at the same point. -/
theorem SoloSteps.eq_of_returned {p q r : SharedList α × ListThread α}
    (hq : SoloSteps minTimestamp p q) (hr : SoloSteps minTimestamp p r)
    (hq' : q.2.returned = true) (hr' : r.2.returned = true) : q = r := by
  induction hq using Relation.ReflTransGen.head_induction_on with
  | refl =>
    rcases hr.cases_head with rfl | ⟨c, hc, -⟩
    · rfl
    · exact absurd hc.1 (by simp [listThreads, hq'])
  | head hab _ ih =>
    rcases hr.cases_head with rfl | ⟨c, hc, hcr⟩
    · exact absurd hab.1 (by simp [listThreads, hr'])
    · exact ih (((solo_eq minTimestamp hc).trans (solo_eq minTimestamp hab).symm) ▸ hcr)

section Serial

variable (xs : List α) (tasks : List (ListTask α))

/-- The writer at `b` is midway: it started on a list representing what the model gives for
the writers at `order`, and its own steps took it from there to the shared state `sh` and the
thread `t`. -/
def Midway (order : List Nat) (b : Nat) (sh : SharedList α) (t : ListThread α) : Prop :=
  ∃ l task, l.Refines (ListTask.specAll minTimestamp xs [] (tasksAt tasks order)).1.1 ∧
    tasks[b]? = some task ∧
    SoloSteps minTimestamp
      (⟨l, (ListTask.specAll minTimestamp xs [] (tasksAt tasks order)).1.2⟩, task.start) (sh, t)

/-- The list and the cleaned partitions are what the model gives for the writers at
`order`. -/
def Settled (order : List Nat) (sh : SharedList α) : Prop :=
  sh.list.Refines (ListTask.specAll minTimestamp xs [] (tasksAt tasks order)).1.1 ∧
    sh.cleaned = (ListTask.specAll minTimestamp xs [] (tasksAt tasks order)).1.2

/-- The callers of the tasks `tasks`, where the writers at `order` have returned in that
order and the writer at `busy`, if any, is midway: traversals stay traversals, every other
writer has not started, the returned ones returned what the model says, and the shared state
is settled or the midway writer's own doing. -/
structure SerialAt (s : Config (SharedList α) (ListThread α)) (order : List Nat)
    (busy : Option Nat) : Prop where
  length : s.calls.length = tasks.length
  readers : ∀ (j : Nat) (t : ListThread α), tasks[j]? = some .traverse → s.calls[j]? = some t →
    t.pc.writer = false
  nodup : (order ++ busy.toList).Nodup
  writers : ∀ j ∈ order ++ busy.toList, ∃ task, tasks[j]? = some task ∧ task.writer = true
  waiting : ∀ (j : Nat) (task : ListTask α), tasks[j]? = some task → task.writer = true →
    j ∉ order ++ busy.toList → s.calls[j]? = some task.start
  finished : order.map (fun j => s.calls[j]?) =
    (ListTask.specAll minTimestamp xs [] (tasksAt tasks order)).2.map some
  shared : busy.elim (Settled minTimestamp xs tasks order s.shared) fun b =>
    ∃ t, s.calls[b]? = some t ∧ t.pc.busyWriter = true ∧ Midway minTimestamp xs tasks order b s.shared t

variable {minTimestamp xs tasks}

/-- A midway writer that has returned settles the list as the model's writers at `order`
followed by it, and returned the model's thread. -/
theorem Midway.finish {order : List Nat} {b : Nat} {sh : SharedList α} {t : ListThread α}
    (h : Midway minTimestamp xs tasks order b sh t) (ht : t.returned = true) :
    Settled minTimestamp xs tasks (order ++ [b]) sh ∧
      (ListTask.specAll minTimestamp xs [] (tasksAt tasks (order ++ [b]))).2 =
        (ListTask.specAll minTimestamp xs [] (tasksAt tasks order)).2 ++ [t] := by
  obtain ⟨l, task, hl, hb, hsolo⟩ := h
  obtain ⟨l', hl', hsolo'⟩ := ListTask.solo_refines minTimestamp hl _ task
  obtain ⟨rfl, rfl⟩ := Prod.mk.inj (SoloSteps.eq_of_returned minTimestamp hsolo hsolo' ht
    (ListTask.spec_returned minTimestamp _ _ task))
  unfold Settled
  rw [tasksAt_append_single hb, ListTask.specAll_append_single]
  exact ⟨⟨hl', rfl⟩, rfl⟩

theorem SerialAt.init {l : PartitionList α} (hl : l.Refines xs) :
    SerialAt minTimestamp xs tasks (ListSystem.init l tasks) [] none where
  length := List.length_map _ _
  readers j t hj ht := by
    simp only [ListSystem.init, List.getElem?_map, hj, Option.map_some', Option.some.injEq] at ht
    rw [← ht]
    rfl
  nodup := List.nodup_nil
  writers j hj := absurd hj (List.not_mem_nil j)
  waiting j task hj _ _ := by simp [ListSystem.init, hj]
  finished := rfl
  shared := ⟨hl, rfl⟩

/-- The threads at `order` have returned. -/
theorem SerialAt.returned {s : Config (SharedList α) (ListThread α)} {order : List Nat}
    {busy : Option Nat} (h : SerialAt minTimestamp xs tasks s order busy) {j : Nat}
    (hj : j ∈ order) {u : ListThread α} (hu : s.calls[j]? = some u) : u.returned = true := by
  have hm : some u ∈ order.map fun j => s.calls[j]? := List.mem_map.2 ⟨j, hj, hu⟩
  rw [h.finished] at hm
  obtain ⟨v, hv, he⟩ := List.mem_map.1 hm
  exact Option.some.inj he ▸ ListTask.specAll_returned minTimestamp xs [] _ v hv

/-- A writer at `i` that is now midway or has returned, with the shared state `sh` its own
doing, keeps the invariant, with the writer recorded as midway or as the last to return. -/
theorem SerialAt.of_midway {s : Config (SharedList α) (ListThread α)} {order : List Nat}
    {busy : Option Nat} (h : SerialAt minTimestamp xs tasks s order busy) {i : Nat}
    {u : ListThread α} {sh : SharedList α} (hi : i ∉ order) (hbusy : ∀ b, busy = some b → b = i)
    (htask : ∃ task, tasks[i]? = some task ∧ task.writer = true)
    (hmid : Midway minTimestamp xs tasks order i sh u)
    (hu : u.pc.busyWriter = true ∨ u.returned = true) :
    ∃ order' busy', SerialAt minTimestamp xs tasks ⟨sh, s.calls.set i u⟩ order' busy' ∧
      order' ++ busy'.toList = order ++ [i] := by
  have hilen : i < s.calls.length := by
    obtain ⟨task, ht, -⟩ := htask
    rw [h.length]
    exact (List.getElem?_eq_some_iff.1 ht).1
  have hnd : (order ++ [i]).Nodup :=
    List.nodup_append.2 ⟨(List.nodup_append.1 h.nodup).1, List.nodup_singleton i,
      List.disjoint_singleton.2 hi⟩
  have hsub : ∀ j, j ∉ order ++ [i] → j ≠ i ∧ j ∉ order ++ busy.toList := fun j hj => by
    refine ⟨fun e => hj (by simp [e]), fun hj' => hj ?_⟩
    rcases List.mem_append.1 hj' with hj' | hj'
    · exact List.mem_append_left _ hj'
    · rw [hbusy j (Option.mem_toList.1 hj')]
      simp
  have hreaders : ∀ (j : Nat) (t : ListThread α), tasks[j]? = some .traverse →
      (s.calls.set i u)[j]? = some t →
      t.pc.writer = false := fun j t hj ht => by
    have hji : i ≠ j := fun e => by
      obtain ⟨task, ht', hw⟩ := htask
      rw [e, hj, Option.some.injEq] at ht'
      simp [← ht'] at hw
    exact h.readers j t hj (by rwa [List.getElem?_set_ne hji] at ht)
  have hwriters : ∀ j ∈ order ++ [i], ∃ task, tasks[j]? = some task ∧ task.writer = true :=
    fun j hj => by
      rcases List.mem_append.1 hj with hj | hj
      · exact h.writers j (List.mem_append_left _ hj)
      · exact List.eq_of_mem_singleton hj ▸ htask
  have hwaiting : ∀ (j : Nat) (task : ListTask α), tasks[j]? = some task → task.writer = true →
      j ∉ order ++ [i] → (s.calls.set i u)[j]? = some task.start := fun j task hj hw hn => by
    rw [List.getElem?_set_ne (hsub j hn).1.symm]
    exact h.waiting j task hj hw (hsub j hn).2
  rcases hu with hu | hu
  · exact ⟨order, some i, ⟨by simp [h.length], hreaders, hnd, hwriters, hwaiting,
      by rw [map_getElem?_set hi]; exact h.finished,
      ⟨u, List.getElem?_set_self hilen, hu, hmid⟩⟩, rfl⟩
  · obtain ⟨hset, hspec⟩ := hmid.finish hu
    refine ⟨order ++ [i], none, ⟨by simp [h.length], hreaders, by simpa using hnd,
      by simpa using hwriters, by simpa using hwaiting, ?_, hset⟩, List.append_nil _⟩
    rw [List.map_append, map_getElem?_set hi, h.finished, hspec, List.map_append]
    simp [List.getElem?_set_self hilen]

section Step

variable {s : Config (SharedList α) (ListThread α)} {order : List Nat} {busy : Option Nat}
  (h : SerialAt minTimestamp xs tasks s order busy) {i : Nat} {t : ListThread α}
  (hc : s.calls[i]? = some t)
include h hc

theorem SerialAt.task_of_call : ∃ task, tasks[i]? = some task :=
  ⟨_, List.getElem?_eq_getElem (h.length ▸ (List.getElem?_eq_some_iff.1 hc).1)⟩

/-- A thread that stands as a writer runs a writer's task. -/
theorem SerialAt.writer_task (hwr : t.pc.writer = true) :
    ∃ task, tasks[i]? = some task ∧ task.writer = true := by
  obtain ⟨task, htask⟩ := h.task_of_call hc
  refine ⟨task, htask, ?_⟩
  cases task with
  | traverse => exact absurd (h.readers i t htask hc) (by simp [hwr])
  | _ => rfl

/-- A thread that has not returned and does not stand as a writer runs a traversal: an
unstarted writer stands as one, and so does the midway writer. -/
theorem SerialAt.traverse_at (hrun : t.returned = false) (hi : i ∉ order)
    (hwr : t.pc.writer = false) : tasks[i]? = some .traverse := by
  obtain ⟨task, htask⟩ := h.task_of_call hc
  cases hw : task.writer
  · cases task <;> first | exact htask | simp [ListTask.writer] at hw
  · have hbusy : busy ≠ some i := fun e => by
      have hsh := h.shared
      rw [e] at hsh
      obtain ⟨tb, hb, hbw, -⟩ := hsh
      obtain rfl : tb = t := Option.some.inj (hb.symm.trans hc)
      exact absurd (ListPc.writer_of_busyWriter hbw) (by simp [hwr])
    have hnb : i ∉ busy.toList := fun hm => hbusy (Option.mem_toList.1 hm)
    obtain rfl : task.start = t :=
      Option.some.inj ((h.waiting i task htask hw (by simp [hi, hnb])).symm.trans hc)
    simp [hw] at hwr

/-- A traversal's step keeps the invariant with the same writers: it changes neither the
shared state nor any writer's thread. -/
theorem SerialAt.traverse_step (htask : tasks[i]? = some .traverse) (hwr : t.pc.writer = false) :
    SerialAt minTimestamp xs tasks
      ⟨(listStep minTimestamp s.shared t).1, s.calls.set i (listStep minTimestamp s.shared t).2⟩
      order busy := by
  have hne : ∀ j, j ∈ order ++ busy.toList → i ≠ j := fun j hj e => by
    obtain ⟨task, ht, hw⟩ := h.writers j hj
    rw [← e, htask, Option.some.injEq] at ht
    simp [← ht] at hw
  rw [listStep_reader_shared minTimestamp hwr]
  refine ⟨by simp [h.length], fun j u hj hu => ?_, h.nodup, h.writers,
    fun j task' hj hw hn => ?_, ?_, ?_⟩
  · by_cases hji : i = j
    · subst hji
      rw [List.getElem?_set_self (List.getElem?_eq_some_iff.1 hc).1, Option.some.injEq] at hu
      exact hu ▸ listStep_reader_pc minTimestamp hwr
    · exact h.readers j u hj (by rwa [List.getElem?_set_ne hji] at hu)
  · have hji : i ≠ j := by
      rintro rfl
      rw [htask, Option.some.injEq] at hj
      simp [← hj] at hw
    rw [List.getElem?_set_ne hji]
    exact h.waiting j task' hj hw hn
  · rw [map_getElem?_set fun hi => hne i (List.mem_append_left _ hi) rfl]
    exact h.finished
  · rcases busy with _ | b
    · exact h.shared
    · obtain ⟨tb, hb, hbw, hmid⟩ := h.shared
      exact ⟨tb, by rw [List.getElem?_set_ne (hne b (by simp))]; exact hb, hbw, hmid⟩

end Step

/-- Every step a scheduler that keeps writers apart may take keeps the invariant, and a
writer's first step appends it to the writers that have started. -/
theorem SerialAt.stepCall {s : Config (SharedList α) (ListThread α)} {order : List Nat}
    {busy : Option Nat} (h : SerialAt minTimestamp xs tasks s order busy) {i : Nat}
    {t : ListThread α} (hc : s.calls[i]? = some t) (hrun : t.returned = false)
    (hok : writersSerial s i = true) (x : Unit) :
    ∃ order' busy', SerialAt minTimestamp xs tasks (s.stepCall (listThreads minTimestamp) i x)
      order' busy' ∧ order' ++ busy'.toList = startStep tasks (order ++ busy.toList) i := by
  rw [stepCall_listThreads minTimestamp hc]
  have hi : i ∉ order := fun hi => by simp [h.returned hi hc] at hrun
  by_cases hwr : t.pc.writer = true
  · obtain ⟨task, htask, hw⟩ := h.writer_task hc hwr
    rcases busy with _ | b
    · -- no writer is midway: the writer at `i` takes its first step
      have ht : t = task.start := Option.some.inj (hc.symm.trans
        (h.waiting i task htask hw (by simpa using hi)))
      obtain ⟨hl, hcl⟩ := h.shared
      have hmid : Midway minTimestamp xs tasks order i (listStep minTimestamp s.shared t).1
          (listStep minTimestamp s.shared t).2 :=
        ⟨_, task, hl, htask, .single ⟨by rw [← ht]; exact hrun, (), by rw [← hcl, ← ht]; rfl⟩⟩
      obtain ⟨order', busy', h', he⟩ := h.of_midway hi (fun _ hb => nomatch hb)
        ⟨task, htask, hw⟩ hmid (listStep_busy minTimestamp hwr)
      exact ⟨order', busy', h', by simp [he, startStep, hi, htask, hw]⟩
    · -- the writer at `b` is midway, so it is the one that steps
      obtain ⟨tb, hb, hbusy, l, task', hl, hb', hsolo⟩ := h.shared
      obtain rfl : b = i := by
        by_contra hne
        exact absurd (writersSerial_busy hok hc hwr hb hne) (by simp [hbusy])
      obtain rfl : tb = t := Option.some.inj (hb.symm.trans hc)
      obtain ⟨order', busy', h', he⟩ := h.of_midway hi (fun _ e => (Option.some.inj e).symm)
        ⟨task, htask, hw⟩ ⟨l, task', hl, hb', hsolo.tail ⟨hrun, (), rfl⟩⟩
        (listStep_busy minTimestamp hwr)
      exact ⟨order', busy', h', by simp [he, startStep]⟩
  · have hwr : t.pc.writer = false := by simpa using hwr
    have htrav := h.traverse_at hc hrun hi hwr
    exact ⟨order, busy, h.traverse_step hc htrav hwr, by simp [startStep, htrav]⟩

/-- A schedule such a scheduler may run keeps the invariant, with the writers that have
started extended by those the schedule starts, in the order of their first steps. -/
theorem SerialAt.run {s : Config (SharedList α) (ListThread α)} {order : List Nat}
    {busy : Option Nat} (h : SerialAt minTimestamp xs tasks s order busy)
    {sched : List (Nat × Unit)}
    (hs : Config.GuardedSchedulable (listThreads minTimestamp) writersSerial s sched = true) :
    ∃ order' busy', SerialAt minTimestamp xs tasks (s.run (listThreads minTimestamp) sched)
      order' busy' ∧
      order' ++ busy'.toList =
        (sched.map Prod.fst).foldl (startStep tasks) (order ++ busy.toList) := by
  induction sched generalizing s order busy with
  | nil => exact ⟨order, busy, h, rfl⟩
  | cons e rest ih =>
    obtain ⟨i, x⟩ := e
    simp only [Config.GuardedSchedulable, Bool.and_eq_true] at hs
    obtain ⟨hcall, hrest⟩ := hs
    split at hcall
    · rename_i t hc
      simp only [Bool.and_eq_true, Bool.not_eq_true'] at hcall
      obtain ⟨order', busy', h', he⟩ := h.stepCall hc hcall.1 hcall.2 x
      obtain ⟨order'', busy'', h'', he'⟩ := ih h' hrest
      exact ⟨order'', busy'', h'', by rw [he', he]; rfl⟩
    · cases hcall

end Serial

/-- Under callers that never run two of `insert`, `remove` and `swap` at once, on a list
representing `xs`, with traversals interleaved anywhere: at every point a schedule reaches
where no writer is midway, the writers that have not started are as they were, and the list
and the cleaned partitions are what the list model gives for the writers run one after
another in the order the schedule started them, each returning what the model says. -/
theorem writersSerial_refines {l : PartitionList α} {xs : List α} (hl : l.Refines xs)
    {tasks : List (ListTask α)} {sched : List (Nat × Unit)}
    (hs : Config.GuardedSchedulable (listThreads minTimestamp) writersSerial
      (ListSystem.init l tasks) sched = true)
    {s : Config (SharedList α) (ListThread α)}
    (hrun : s = (ListSystem.init l tasks).run (listThreads minTimestamp) sched)
    (hidle : ∀ t ∈ s.calls, t.pc.busyWriter = false) :
    (startOrder tasks sched).Nodup ∧
      (∀ j ∈ startOrder tasks sched, ∃ task, tasks[j]? = some task ∧ task.writer = true) ∧
      (∀ j task, tasks[j]? = some task → task.writer = true → j ∉ startOrder tasks sched →
        s.calls[j]? = some task.start) ∧
      s.shared.list.Refines
        (ListTask.specAll minTimestamp xs [] (tasksAt tasks (startOrder tasks sched))).1.1 ∧
      s.shared.cleaned =
        (ListTask.specAll minTimestamp xs [] (tasksAt tasks (startOrder tasks sched))).1.2 ∧
      (startOrder tasks sched).map (fun j => s.calls[j]?) =
        (ListTask.specAll minTimestamp xs [] (tasksAt tasks (startOrder tasks sched))).2.map some := by
  have h0 : SerialAt minTimestamp xs tasks (ListSystem.init l tasks) [] none := .init hl
  obtain ⟨order, busy, h, he⟩ := h0.run hs
  subst hrun
  rcases busy with _ | b
  · obtain rfl : order = startOrder tasks sched := by simpa [startOrder] using he
    exact ⟨by simpa using h.nodup, by simpa using h.writers, by simpa using h.waiting,
      h.shared.1, h.shared.2, h.finished⟩
  · obtain ⟨t, hb, hbusy, -⟩ := h.shared
    exact absurd (hidle t (List.mem_iff_getElem?.2 ⟨b, hb⟩)) (by simp [hbusy])

/-- On the list of partition `1`, a traversal makes its iterator; `remove(1)` then runs its
steps between the traversal's, and `insert(2)` runs after it, before the traversal's last
step. -/
def serialSchedule : List (Nat × Unit) :=
  [(1, ()), (2, ()), (2, ()), (2, ()), (1, ()), (2, ()), (2, ()), (1, ()), (2, ()), (2, ()),
    (0, ()), (0, ()), (1, ()), (0, ())]

def serialRun : Config (SharedList Int) (ListThread Int) :=
  (ListSystem.init ((newPartitionList : PartitionList Int).insert 1)
    [.insert 2, .traverse, .remove 1 true]).run (listThreads id) serialSchedule

/-- The schedule starts `remove(1)` and then `insert(2)`, and leaves the list as the model
does for that order. -/
theorem writersSerial_refines_sample :
    ((newPartitionList : PartitionList Int).insert 1).Refines [1] ∧
      Config.GuardedSchedulable (listThreads id) writersSerial
        (ListSystem.init ((newPartitionList : PartitionList Int).insert 1)
          [.insert 2, .traverse, .remove 1 true]) serialSchedule = true ∧
      (∀ t ∈ serialRun.calls, t.pc.busyWriter = false) ∧
      startOrder [ListTask.insert (2 : Int), .traverse, .remove 1 true] serialSchedule = [2, 0] ∧
      ((startOrder [ListTask.insert (2 : Int), .traverse, .remove 1 true] serialSchedule).Nodup ∧
        (∀ j ∈ startOrder [ListTask.insert (2 : Int), .traverse, .remove 1 true] serialSchedule,
          ∃ task, [ListTask.insert (2 : Int), .traverse, .remove 1 true][j]? = some task ∧
            task.writer = true) ∧
        (∀ j task, [ListTask.insert (2 : Int), .traverse, .remove 1 true][j]? = some task →
          task.writer = true →
          j ∉ startOrder [ListTask.insert (2 : Int), .traverse, .remove 1 true] serialSchedule →
          serialRun.calls[j]? = some task.start) ∧
        serialRun.shared.list.Refines (ListTask.specAll id [1] [] (tasksAt
          [.insert 2, .traverse, .remove 1 true]
          (startOrder [ListTask.insert (2 : Int), .traverse, .remove 1 true] serialSchedule))).1.1 ∧
        serialRun.shared.cleaned = (ListTask.specAll id [1] [] (tasksAt
          [.insert 2, .traverse, .remove 1 true]
          (startOrder [ListTask.insert (2 : Int), .traverse, .remove 1 true] serialSchedule))).1.2 ∧
        (startOrder [ListTask.insert (2 : Int), .traverse, .remove 1 true] serialSchedule).map
          (fun j => serialRun.calls[j]?) = (ListTask.specAll id [1] [] (tasksAt
            [.insert 2, .traverse, .remove 1 true]
            (startOrder [ListTask.insert (2 : Int), .traverse, .remove 1 true]
              serialSchedule))).2.map some) :=
  have hl := PartitionList.new_refines.insert (1 : Int)
  have hs : Config.GuardedSchedulable (listThreads id) writersSerial
      (ListSystem.init ((newPartitionList : PartitionList Int).insert 1)
        [.insert 2, .traverse, .remove 1 true]) serialSchedule = true := by decide
  have hidle : ∀ t ∈ serialRun.calls, t.pc.busyWriter = false := by decide
  ⟨hl, hs, hidle, by decide, writersSerial_refines id hl hs rfl hidle⟩

end EmbedTSDB
