import DistributedLabs.MrSchedule

/-! The `waitTask` goroutines. A timer belongs to one assignment, but when it
fires it resets whatever it finds in progress and does not look at the owner.
That is safe because a task is handed out again only after the timer of its
assignment has fired: no timer outlives its assignment unless the task is
completed. -/

namespace DistributedLabs.MrTimers
open GuardedRuns MrCoordinator MrTasks MrSchedule
open MrWorker (Assignment)

def pending (s : Schedule) (type : TaskType) (i : ℕ) : List ℕ :=
  s.waits.filter fun k => s.assignments[k]?.any fun assigned =>
    assigned.type = type ∧ assigned.index = i

/-- Assignment `k` is the last one of task `i`, and its worker owns the task. -/
structure Current (s : Schedule) (type : TaskType) (i k : ℕ) : Prop where
  owner : ∃ task, (tasksOf s.coordinator type)[i]? = some task ∧
    s.assignments[k]? = some ⟨type, i, task.workerID⟩
  last : ∀ k' workerID, s.assignments[k']? = some ⟨type, i, workerID⟩ → k' ≤ k

def Timed (s : Schedule) : Prop :=
  ∀ type i, statusOf s.coordinator type i = some .inProgress → ∃ k ∈ s.waits, Current s type i k

section Keep
variable {files : List Path} {n : ℕ} {s s' : Schedule} {type : TaskType} {i k : ℕ}

theorem Current.setCoordinator (h : Current s type i k) {c : Coordinator}
    (same : (tasksOf c type)[i]? = (tasksOf s.coordinator type)[i]?) (waits : List ℕ) :
    Current ⟨c, s.assignments, waits⟩ type i k where
  owner := by
    have ⟨task, found, started⟩ := h.owner
    exact ⟨task, same.trans found, started⟩
  last := h.last

theorem Current.handOut (h : Current s type i k) {workerID : ℤ} {handed : Handed}
    (same : (tasksOf handed.coordinator type)[i]? = (tasksOf s.coordinator type)[i]?)
    (other : handed.wait ≠ some (type, i)) :
    Current (s.handOut workerID handed) type i k where
  owner := by
    have ⟨task, found, started⟩ := h.owner
    refine ⟨task, ?_, handOut_assigned.mpr (.inl started)⟩
    rw [handOut_coordinator, same, found]
  last k' owner assigned := by
    rcases handOut_assigned.mp assigned with old | ⟨wait, _⟩
    · exact h.last k' owner old
    · exact absurd wait other

theorem Timed.request (h : Timed s) (kept : Kept files n s.coordinator) {workerID : ℤ}
    {handed : Handed} (requested : Requested s.coordinator workerID handed) :
    Timed (s.handOut workerID handed) := by
  intro type i running
  have ⟨given, untouched⟩ := task_requested kept requested type i
  by_cases wait : handed.wait = some (type, i)
  · obtain ⟨task, _, _, after⟩ := given wait
    refine ⟨s.assignments.length, handOut_waits.mpr (.inr ⟨by simp [wait], rfl⟩), ?_, ?_⟩
    · refine ⟨task.assign workerID, ?_, handOut_assigned.mpr (.inr ⟨wait, rfl, rfl⟩)⟩
      rw [handOut_coordinator, after]
    · intro k' owner assigned
      rcases handOut_assigned.mp assigned with old | ⟨_, _, last⟩
      · exact (List.getElem?_eq_some_iff.mp old).1.le
      · exact last.le
  · have same := untouched wait
    rw [handOut_coordinator, statusOf, same] at running
    obtain ⟨k, asleep, current⟩ := h type i running
    exact ⟨k, handOut_waits.mpr (.inl asleep), current.handOut same wait⟩

theorem Timed.notify (h : Timed s) {args : TaskCompletion} {c : Coordinator}
    (notified : Notified s.coordinator args c) : Timed { s with coordinator := c } := by
  intro type i running
  rcases task_notified notified type i with same | ⟨_, task, _, _, after⟩
  · rw [statusOf, same] at running
    obtain ⟨k, asleep, current⟩ := h type i running
    exact ⟨k, asleep, current.setCoordinator same _⟩
  · rw [statusOf, after] at running
    simp [Task.complete] at running

theorem Timed.expire (h : Timed s) {assigned : Assignment}
    (started : s.assignments[k]? = some assigned) :
    Timed { s with
      coordinator := waitTask s.coordinator assigned.type assigned.index
      waits := s.waits.erase k } := by
  intro type i running
  -- a task that is still in progress is not the one the timer was started for
  have other : ¬ (assigned.type = type ∧ assigned.index = i) := by
    intro here
    rw [statusOf_waitTask] at running
    split at running
    · simp at running
    · rename_i kept
      exact kept ⟨here.1, here.2, running⟩
  have same : (tasksOf (waitTask s.coordinator assigned.type assigned.index) type)[i]? =
      (tasksOf s.coordinator type)[i]? := by
    rw [task_waitTask, if_neg other]
  rw [statusOf, same] at running
  obtain ⟨k', asleep, current⟩ := h type i running
  refine ⟨k', (List.mem_erase_of_ne fun here => other ?_).mpr asleep,
    current.setCoordinator same _⟩
  obtain ⟨task, _, found⟩ := current.owner
  rw [here, started, Option.some.injEq] at found
  rw [found]
  exact ⟨rfl, rfl⟩

theorem timed_step (h : Timed s) (scheduled : Scheduled files n s) {call : Call}
    (taken : step s call = some s') : Timed s' := by
  cases step_called taken with
  | request workerID handed requested => exact h.request scheduled.kept requested
  | notify args c notified => exact h.notify notified
  | expire k assigned asleep started => exact h.expire started

theorem run_timed {ok : Schedule → Call → Prop} (run : Run step ok (init files n) s) :
    Timed s := by
  refine run.invariant_under (Scheduled files n) Timed
    (fun scheduled _ taken => scheduled_step scheduled taken)
    (fun scheduled _ h _ taken => timed_step h scheduled taken) (scheduled_init files n) ?_
  intro type i running
  have ⟨task, found, status⟩ := Option.map_eq_some_iff.mp running
  rw [idle_init found] at status
  exact TaskStatus.noConfusion status

end Keep

section Results
variable {files : List Path} {n : ℕ} {s s' : Schedule} {type : TaskType} {i k : ℕ}

theorem mem_pending : k ∈ pending s type i ↔ Asleep s type i k := by
  unfold pending Asleep
  rw [List.mem_filter]
  refine and_congr_right fun _ => ?_
  cases s.assignments[k]? with
  | none => simp
  | some assigned =>
    cases assigned
    simp

theorem pending_eq (scheduled : Scheduled files n s) (asleep : Asleep s type i k) :
    pending s type i = [k] := by
  have distinct : (pending s type i).Nodup := scheduled.distinct.filter _
  refine List.perm_singleton.mp ((List.perm_ext_iff_of_nodup distinct
    (List.nodup_singleton k)).mpr fun k' => ?_)
  rw [mem_pending, List.mem_singleton]
  constructor
  · intro other
    exact scheduled.alone type i k' k other asleep
  · intro same
    rw [same]
    exact asleep

theorem pending_length (scheduled : Scheduled files n s) (type : TaskType) (i : ℕ) :
    (pending s type i).length ≤ 1 := by
  cases found : pending s type i with
  | nil => exact Nat.zero_le 1
  | cons k rest =>
    have asleep : Asleep s type i k := mem_pending.mp (by rw [found]; exact List.mem_cons_self)
    rw [← found, pending_eq scheduled asleep]
    exact le_rfl

theorem running_timer (scheduled : Scheduled files n s) (timed : Timed s)
    (running : statusOf s.coordinator type i = some .inProgress) :
    ∃ k, pending s type i = [k] ∧ Current s type i k := by
  have ⟨k, sleeping, current⟩ := timed type i running
  have ⟨task, _, started⟩ := current.owner
  exact ⟨k, pending_eq scheduled ⟨sleeping, task.workerID, started⟩, current⟩

theorem expire_changes {found : Option Task} (changed : found.map Task.expire ≠ found) :
    found.map Task.status = some .inProgress := by
  cases found with
  | none => exact absurd rfl changed
  | some task =>
    by_contra other
    refine changed (congrArg some (if_neg fun running => other ?_))
    rw [Option.map_some, running]

theorem expire_current (scheduled : Scheduled files n s) (timed : Timed s)
    (taken : step s (.expire k) = some s')
    (changed : (tasksOf s'.coordinator type)[i]? ≠ (tasksOf s.coordinator type)[i]?) :
    Current s type i k := by
  cases step_called taken with
  | expire k assigned asleep started =>
    rw [task_waitTask] at changed
    split at changed
    · rename_i here
      have mine : Asleep s type i k := by
        refine ⟨asleep, assigned.workerID, ?_⟩
        rw [started, ← here.1, ← here.2]
      obtain ⟨k', only, current⟩ := running_timer scheduled timed (expire_changes changed)
      have own := mem_pending.mpr mine
      rw [only, List.mem_singleton] at own
      rw [own]
      exact current
    · exact absurd rfl changed

theorem statusOf_inJob (kept : Kept files n s.coordinator) (inJob : InJob files n type i) :
    ∃ status, statusOf s.coordinator type i = some status := by
  rcases inJob with ⟨same, bound⟩ | ⟨same, bound⟩
  · rw [← kept.maps.length] at bound
    rw [same]
    exact ⟨_, congrArg (Option.map Task.status) (List.getElem?_eq_getElem bound)⟩
  · rw [← kept.reduces.length] at bound
    rw [same]
    exact ⟨_, congrArg (Option.map Task.status) (List.getElem?_eq_getElem bound)⟩

theorem expire_resets (asleep : Asleep s type i k)
    (running : statusOf s.coordinator type i = some .inProgress) :
    ∃ s', step s (.expire k) = some s' ∧ statusOf s'.coordinator type i = some .idle := by
  have ⟨sleeping, workerID, started⟩ := asleep
  have taken : step s (.expire k) = some { s with
      coordinator := waitTask s.coordinator type i
      waits := s.waits.erase k } := by
    rw [step, if_pos sleeping, started, Option.map_some]
  refine ⟨_, taken, ?_⟩
  rw [statusOf_waitTask, if_pos ⟨rfl, rfl, running⟩]

/-- In every state that clients can bring about, idle tasks have no timer, a
task in progress has one, which its present owner's assignment started, and a
completed task has at most one left. So a timer takes a task from nobody but the
worker it was started for, and a task that is not completed is idle or will be
reset. -/
theorem timers_match (run : Run step free (init files n) s) :
    (∀ type i, statusOf s.coordinator type i = some .idle → pending s type i = []) ∧
    (∀ type i, statusOf s.coordinator type i = some .inProgress →
      ∃ k, pending s type i = [k] ∧ Current s type i k) ∧
    (∀ type i, statusOf s.coordinator type i = some .completed →
      (pending s type i).length ≤ 1) ∧
    (∀ k s', step s (.expire k) = some s' → ∀ type i,
      (tasksOf s'.coordinator type)[i]? ≠ (tasksOf s.coordinator type)[i]? →
        Current s type i k) ∧
    ∀ type i, InJob files n type i → statusOf s.coordinator type i ≠ some .completed →
      statusOf s.coordinator type i = some .idle ∨
        ∃ k ∈ pending s type i, ∃ s', step s (.expire k) = some s' ∧
          statusOf s'.coordinator type i = some .idle := by
  have scheduled := run_scheduled run
  have timed := run_timed run
  refine ⟨fun type i idle => ?_, fun type i running => running_timer scheduled timed running,
    fun type i _ => pending_length scheduled type i,
    fun k s' taken type i changed => expire_current scheduled timed taken changed,
    fun type i inJob unfinished => ?_⟩
  · refine List.eq_nil_iff_forall_not_mem.mpr fun k member => ?_
    exact scheduled.busy type i k (mem_pending.mp member) idle
  · have ⟨status, known⟩ := statusOf_inJob scheduled.kept inJob
    cases status with
    | idle => exact .inl known
    | inProgress =>
      obtain ⟨k, only, _⟩ := running_timer scheduled timed known
      have member : k ∈ pending s type i := by
        rw [only]
        exact List.mem_singleton_self k
      exact .inr ⟨k, member, expire_resets (mem_pending.mp member) known⟩
    | completed => exact absurd known unfinished

/-- The task of a worker that went away is handed to a second one, whose timer
is the only one. -/
theorem timers_match_retry : ∃ s : Schedule, Run step free (init [[]] 1) s ∧
    statusOf s.coordinator .mapTask 0 = some .inProgress ∧
    ∃ k, pending s .mapTask 0 = [k] ∧ Current s .mapTask 0 k := by
  obtain ⟨s, run, running⟩ := exec_test step free (init [[]] 1)
    [.request 1, .expire 0, .request 2]
    (fun s => statusOf s.coordinator .mapTask 0 = some .inProgress) (by decide)
  have status := of_decide_eq_true running
  exact ⟨s, run, status, (timers_match run).2.1 .mapTask 0 status⟩

end Results

end DistributedLabs.MrTimers
