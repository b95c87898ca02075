import DistributedLabs.MrMoves

/-! The coordinator under any clients. Requests, reports and expiries come in any
order and with any arguments; the state keeps the assignments made so far and
the `waitTask` goroutines still asleep, as in the job as a whole. -/

namespace DistributedLabs.MrSchedule
open GuardedRuns MrCoordinator MrTasks MrWorker

structure Schedule where
  coordinator : Coordinator
  assignments : List Assignment
  waits : List ℕ

def init (files : List Path) (nReduce : ℕ) : Schedule where
  coordinator := makeCoordinator files nReduce
  assignments := []
  waits := []

inductive Call
  | request (workerID : ℤ)
  | notify (args : TaskCompletion)
  | expire (k : ℕ)

def Schedule.handOut (s : Schedule) (workerID : ℤ) (handed : Handed) : Schedule :=
  match handed.wait with
  | none => { s with coordinator := handed.coordinator }
  | some (type, index) =>
    { coordinator := handed.coordinator
      assignments := s.assignments ++ [⟨type, index, workerID⟩]
      waits := s.waits ++ [s.assignments.length] }

def step (s : Schedule) : Call → Option Schedule
  | .request workerID => (requestTask s.coordinator workerID).map (s.handOut workerID)
  | .notify args =>
    (notifyTaskCompletion s.coordinator args).map fun c => { s with coordinator := c }
  | .expire k =>
    if k ∈ s.waits then
      s.assignments[k]?.map fun assigned =>
        { s with
          coordinator := waitTask s.coordinator assigned.type assigned.index
          waits := s.waits.erase k }
    else none

inductive Called (s : Schedule) : Call → Schedule → Prop
  | request (workerID : ℤ) (handed : Handed)
      (requested : Requested s.coordinator workerID handed) :
      Called s (.request workerID) (s.handOut workerID handed)
  | notify (args : TaskCompletion) (c : Coordinator) (notified : Notified s.coordinator args c) :
      Called s (.notify args) { s with coordinator := c }
  | expire (k : ℕ) (assigned : Assignment) (asleep : k ∈ s.waits)
      (started : s.assignments[k]? = some assigned) :
      Called s (.expire k)
        { s with
          coordinator := waitTask s.coordinator assigned.type assigned.index
          waits := s.waits.erase k }

theorem step_called {s s' : Schedule} {call : Call} (taken : step s call = some s') :
    Called s call s' := by
  cases call with
  | request workerID =>
    obtain ⟨handed, answered, rfl⟩ := Option.map_eq_some_iff.mp taken
    exact .request workerID handed (requestTask_requested answered)
  | notify args =>
    obtain ⟨c, answered, rfl⟩ := Option.map_eq_some_iff.mp taken
    exact .notify args c (notifyTaskCompletion_notified answered)
  | expire k =>
    simp only [step, Option.ite_none_right_eq_some] at taken
    obtain ⟨assigned, started, rfl⟩ := Option.map_eq_some_iff.mp taken.2
    exact .expire k assigned taken.1 started

def Asleep (s : Schedule) (type : TaskType) (i k : ℕ) : Prop :=
  k ∈ s.waits ∧ ∃ workerID, s.assignments[k]? = some ⟨type, i, workerID⟩

/-- What holds under any clients, for a job over `files` with `n` reduce tasks. -/
structure Scheduled (files : List Path) (n : ℕ) (s : Schedule) : Prop where
  kept : Kept files n s.coordinator
  lists : s.coordinator.intermediateFiles.length = n
  started : ∀ k ∈ s.waits, k < s.assignments.length
  distinct : s.waits.Nodup
  alone : ∀ type i k k', Asleep s type i k → Asleep s type i k' → k = k'
  busy : ∀ type i k, Asleep s type i k → statusOf s.coordinator type i ≠ some .idle

section Keep
variable {files : List Path} {n : ℕ} {s s' : Schedule}

theorem recordFiles_length {names : List Path} {lists lists' : List (List Path)}
    (recorded : recordFiles names lists = some lists') : lists'.length = lists.length := by
  induction names generalizing lists with
  | nil =>
    rw [← Option.some.inj recorded]
  | cons file rest ih =>
    simp only [recordFiles, Option.bind_eq_bind, Option.bind_eq_some_iff] at recorded
    have ⟨_, _, _, _, _, _, tail⟩ := recorded
    rw [ih tail, List.length_set]

theorem nextPhase_lists (c : Coordinator) :
    c.nextPhase.intermediateFiles = c.intermediateFiles := by
  unfold Coordinator.nextPhase
  split
  · rfl
  · split <;> rfl

theorem requested_lists {c : Coordinator} {workerID : ℤ} {handed : Handed}
    (requested : Requested c workerID handed) :
    handed.coordinator.intermediateFiles = c.intermediateFiles := by
  cases requested <;> exact nextPhase_lists c

theorem notified_lists {c c' : Coordinator} {args : TaskCompletion}
    (notified : Notified c args c') :
    c'.intermediateFiles.length = c.intermediateFiles.length := by
  cases notified with
  | ignored => rfl
  | map task lists kind found owned listed => exact recordFiles_length listed
  | reduce task kind found owned => rfl

theorem waitTask_lists (c : Coordinator) (kind : TaskType) (j : ℕ) :
    (waitTask c kind j).intermediateFiles = c.intermediateFiles := by
  cases kind <;> rfl

@[simp]
theorem handOut_coordinator (workerID : ℤ) (handed : Handed) :
    (s.handOut workerID handed).coordinator = handed.coordinator := by
  unfold Schedule.handOut
  split <;> rfl

theorem handOut_assigned {workerID : ℤ} {handed : Handed} {k : ℕ} {assigned : Assignment} :
    (s.handOut workerID handed).assignments[k]? = some assigned ↔
      s.assignments[k]? = some assigned ∨
        (handed.wait = some (assigned.type, assigned.index) ∧ assigned.workerID = workerID ∧
          k = s.assignments.length) := by
  unfold Schedule.handOut
  cases wait : handed.wait with
  | none => simp
  | some task =>
    obtain ⟨kind, j⟩ := task
    rcases lt_trichotomy k s.assignments.length with inside | last | beyond
    · simp [List.getElem?_append_left inside, inside.ne]
    · cases assigned
      simp [last, eq_comm, and_assoc]
    · have past : (s.assignments ++ [(⟨kind, j, workerID⟩ : Assignment)]).length ≤ k := by
        simpa using beyond
      simp [List.getElem?_eq_none past, beyond.le, beyond.ne']

theorem handOut_waits {workerID : ℤ} {handed : Handed} {k : ℕ} :
    k ∈ (s.handOut workerID handed).waits ↔
      k ∈ s.waits ∨ (handed.wait ≠ none ∧ k = s.assignments.length) := by
  unfold Schedule.handOut
  cases handed.wait <;> simp

theorem asleep_handOut {workerID : ℤ} {handed : Handed} {type : TaskType} {i k : ℕ}
    (asleep : Asleep (s.handOut workerID handed) type i k) :
    (Asleep s type i k ∧ k ≠ s.assignments.length) ∨
      (handed.wait = some (type, i) ∧ k = s.assignments.length) := by
  have ⟨member, owner, found⟩ := asleep
  rcases handOut_assigned.mp found with old | ⟨wait, _, last⟩
  · have inside := (List.getElem?_eq_some_iff.mp old).1
    rcases handOut_waits.mp member with sleeping | ⟨_, last⟩
    · exact .inl ⟨⟨sleeping, owner, old⟩, inside.ne⟩
    · exact absurd last inside.ne
  · exact .inr ⟨wait, last⟩

theorem Scheduled.request (h : Scheduled files n s) {workerID : ℤ} {handed : Handed}
    (requested : Requested s.coordinator workerID handed) :
    Scheduled files n (s.handOut workerID handed) where
  kept := by simpa using h.kept.requested requested
  lists := by simpa [requested_lists requested] using h.lists
  started k member := by
    unfold Schedule.handOut at member ⊢
    split at member
    · exact h.started k member
    · simp only [List.mem_append, List.mem_singleton, List.length_append,
        List.length_singleton] at member ⊢
      rcases member with old | new
      · have inside := h.started k old
        omega
      · omega
  distinct := by
    unfold Schedule.handOut
    split
    · exact h.distinct
    · refine List.nodup_append.mpr ⟨h.distinct, List.nodup_singleton _, fun k old k' new => ?_⟩
      rw [List.mem_singleton.mp new]
      exact (h.started k old).ne
  alone type i k k' first second := by
    -- only an idle task is handed out, and no timer sleeps for an idle task
    have idle := (statusOf_requested h.kept requested type i).2
    rcases asleep_handOut first with ⟨old, _⟩ | ⟨handedOut, last⟩
    · rcases asleep_handOut second with ⟨old', _⟩ | ⟨handedOut, _⟩
      · exact h.alone type i k k' old old'
      · exact absurd (idle handedOut) (h.busy type i k old)
    · rcases asleep_handOut second with ⟨old', _⟩ | ⟨_, last'⟩
      · exact absurd (idle handedOut) (h.busy type i k' old')
      · exact last.trans last'.symm
  busy type i k asleep := by
    rw [handOut_coordinator, (statusOf_requested h.kept requested type i).1]
    split
    · simp
    · rename_i other
      rcases asleep_handOut asleep with ⟨old, _⟩ | ⟨handedOut, _⟩
      · exact h.busy type i k old
      · exact absurd handedOut other

theorem Scheduled.notify (h : Scheduled files n s) {args : TaskCompletion} {c : Coordinator}
    (notified : Notified s.coordinator args c) :
    Scheduled files n { s with coordinator := c } where
  kept := h.kept.notified notified
  lists := (notified_lists notified).trans h.lists
  started := h.started
  distinct := h.distinct
  alone := h.alone
  busy type i k asleep := by
    rcases statusOf_notified notified type i with same | ⟨_, _, completed⟩
    · rw [same]
      exact h.busy type i k asleep
    · simp [completed]

theorem Scheduled.expire (h : Scheduled files n s) {k : ℕ} {assigned : Assignment}
    (asleep : k ∈ s.waits) (started : s.assignments[k]? = some assigned) :
    Scheduled files n
      { s with
        coordinator := waitTask s.coordinator assigned.type assigned.index
        waits := s.waits.erase k } where
  kept := h.kept.waitTask _ _
  lists := by rw [waitTask_lists, h.lists]
  started j member := h.started j (List.mem_of_mem_erase member)
  distinct := h.distinct.erase k
  alone type i j j' first second :=
    h.alone type i j j' ⟨List.mem_of_mem_erase first.1, first.2⟩
      ⟨List.mem_of_mem_erase second.1, second.2⟩
  busy type i j other := by
    have ⟨apart, member⟩ := h.distinct.mem_erase_iff.mp other.1
    have before : Asleep s type i j := ⟨member, other.2⟩
    rw [statusOf_waitTask]
    split
    · -- the freed task had the timer that expired and no other
      rename_i freed
      have own : Asleep s type i k := by
        refine ⟨asleep, assigned.workerID, ?_⟩
        rw [started, ← freed.1, ← freed.2.1]
      exact absurd (h.alone type i j k before own) apart
    · exact h.busy type i j before

theorem scheduled_step (h : Scheduled files n s) {call : Call} (taken : step s call = some s') :
    Scheduled files n s' := by
  cases step_called taken with
  | request workerID handed requested => exact h.request requested
  | notify args c notified => exact h.notify notified
  | expire k assigned asleep started => exact h.expire asleep started

theorem scheduled_init (files : List Path) (n : ℕ) : Scheduled files n (init files n) where
  kept := kept_makeCoordinator files n
  lists := List.length_replicate
  started _ member := absurd member List.not_mem_nil
  distinct := List.nodup_nil
  alone _ _ _ _ asleep := absurd asleep.1 List.not_mem_nil
  busy _ _ _ asleep := absurd asleep.1 List.not_mem_nil

theorem run_scheduled {ok : Schedule → Call → Prop} (run : Run step ok (init files n) s) :
    Scheduled files n s :=
  run.invariant (Scheduled files n) (fun h _ taken => scheduled_step h taken)
    (scheduled_init files n)

end Keep

section Answers
variable {files : List Path} {n : ℕ} {s s' : Schedule}

def InJob (files : List Path) (n : ℕ) (type : TaskType) (i : ℕ) : Prop :=
  (type = .mapTask ∧ i < files.length) ∨ (type = .reduceTask ∧ i < n)

/-- A report about a task of the job that names files of its reduce tasks. -/
structure Reports (files : List Path) (n : ℕ) (args : TaskCompletion) : Prop where
  task : args.taskType = .mapTask ∧ args.taskID < files.length ∨
    args.taskType = .reduceTask ∧ args.taskID < n
  names : ∀ file ∈ args.outputFiles, ∃ r : ℕ, r < n ∧ extractReduceTaskNum file = some (r : ℤ)

theorem recordFiles_total (names : List Path) (lists : List (List Path))
    (known : ∀ file ∈ names, ∃ r : ℕ, r < lists.length ∧
      extractReduceTaskNum file = some (r : ℤ)) :
    ∃ lists', recordFiles names lists = some lists' := by
  induction names generalizing lists with
  | nil => exact ⟨lists, rfl⟩
  | cons file rest ih =>
    have ⟨r, inside, extracted⟩ := known file List.mem_cons_self
    have ⟨lists', recorded⟩ := ih (lists.set r (lists[r] ++ [file])) (by
      intro other member
      rw [List.length_set]
      exact known other (List.mem_cons_of_mem _ member))
    refine ⟨lists', ?_⟩
    simp [recordFiles, extracted, inside, recorded, Int.toNat?]

theorem Scheduled.answers_request (h : Scheduled files n s) (workerID : ℤ) :
    ∃ handed, requestTask s.coordinator workerID = some handed := by
  have next := h.kept.nextPhase
  unfold requestTask
  cases phase : s.coordinator.nextPhase.status with
  | mapPhase =>
    simp only [phase]
    cases firstIdle s.coordinator.nextPhase.mapTasks <;> exact ⟨_, rfl⟩
  | reducePhase =>
    simp only [phase]
    cases first : firstIdle s.coordinator.nextPhase.reduceTasks with
    | none => exact ⟨_, rfl⟩
    | some found =>
      obtain ⟨i, task⟩ := found
      have ⟨at_i, _⟩ := firstIdle_some first
      have id := next.reduces.fitting i task at_i
      have inside := (List.getElem?_eq_some_iff.mp at_i).1
      rw [next.reduces.length] at inside
      have listed : task.taskID < s.coordinator.nextPhase.intermediateFiles.length := by
        rw [nextPhase_lists, h.lists, id]
        exact inside
      simp only [List.getElem?_eq_getElem listed, Option.map_some]
      exact ⟨_, rfl⟩
  | existPhase =>
    simp only [phase]
    exact ⟨_, rfl⟩

theorem Scheduled.answers_notify (h : Scheduled files n s) {args : TaskCompletion}
    (reports : Reports files n args) :
    ∃ c, notifyTaskCompletion s.coordinator args = some c := by
  unfold notifyTaskCompletion
  rcases reports.task with ⟨kind, inside⟩ | ⟨kind, inside⟩
  · have bound : args.taskID < s.coordinator.mapTasks.length := by
      rw [h.kept.maps.length]
      exact inside
    have ⟨lists, recorded⟩ := recordFiles_total args.outputFiles s.coordinator.intermediateFiles
      (by rw [h.lists]; exact reports.names)
    simp only [kind, List.getElem?_eq_getElem bound, Option.bind_eq_bind, Option.bind_some,
      recorded]
    split <;> exact ⟨_, rfl⟩
  · have bound : args.taskID < s.coordinator.reduceTasks.length := by
      rw [h.kept.reduces.length]
      exact inside
    simp only [kind, List.getElem?_eq_getElem bound, Option.bind_eq_bind, Option.bind_some]
    split <;> exact ⟨_, rfl⟩

end Answers

section Results
variable {files : List Path} {n : ℕ} {s s' : Schedule} {call : Call}

def Follows (p q : Phase) : Prop :=
  q = p ∨ (p = .mapPhase ∧ q = .reducePhase) ∨ (p = .reducePhase ∧ q = .existPhase)

theorem nextPhase_follows (c : Coordinator) : Follows c.status c.nextPhase.status := by
  unfold Coordinator.nextPhase
  split
  · rename_i full
    exact .inr (.inl ⟨full.1, rfl⟩)
  · split
    · rename_i full
      exact .inr (.inr ⟨full.1, rfl⟩)
    · exact .inl rfl

theorem step_follows (taken : step s call = some s') :
    Follows s.coordinator.status s'.coordinator.status := by
  cases step_called taken with
  | request workerID handed requested =>
    have phase : handed.coordinator.status = s.coordinator.nextPhase.status := by
      cases requested <;> rfl
    rw [handOut_coordinator, phase]
    exact nextPhase_follows s.coordinator
  | notify args c notified => cases notified <;> exact .inl rfl
  | expire k assigned asleep started => cases assigned.type <;> exact .inl rfl

theorem step_completed (h : Scheduled files n s) (taken : step s call = some s')
    {type : TaskType} {i : ℕ} (completed : Completed s.coordinator type i) :
    Completed s'.coordinator type i := by
  cases step_called taken with
  | request workerID handed requested =>
    rw [handOut_coordinator]
    exact (h.kept.completed_requested requested).mpr completed
  | notify args c notified => exact (completed_notified notified).mpr (.inl completed)
  | expire k assigned asleep started => exact completed_waitTask.mpr completed

def Finished (files : List Path) (n : ℕ) (c : Coordinator) : Prop :=
  (∀ m < files.length, Completed c .mapTask m) ∧ ∀ r < n, Completed c .reduceTask r

/-- A reply that `RequestTask` may give: a task in the reply is one that is not
completed and for which no timer sleeps, reduce tasks come when all map tasks
are completed, and the exit comes when everything is. -/
structure Proper (files : List Path) (n : ℕ) (s : Schedule) (handed : Handed) : Prop where
  task : handed.reply.taskType = .mapTask ∨ handed.reply.taskType = .reduceTask →
    handed.wait = some (handed.reply.taskType, handed.reply.taskID) ∧
      ¬ Completed s.coordinator handed.reply.taskType handed.reply.taskID ∧
      ∀ k, ¬ Asleep s handed.reply.taskType handed.reply.taskID k
  reduce : handed.reply.taskType = .reduceTask →
    ∀ m < files.length, Completed s.coordinator .mapTask m
  exit : handed.reply.taskType = .exitTask → Finished files n s.coordinator

theorem finished_of_exist (h : Kept files n s.coordinator)
    (phase : s.coordinator.status = .existPhase) : Finished files n s.coordinator :=
  ⟨fun _ bound => h.completed_map (by simp [phase]) bound,
    fun _ bound => h.completed_reduce phase bound⟩

theorem Scheduled.proper (h : Scheduled files n s) {workerID : ℤ} {handed : Handed}
    (requested : Requested s.coordinator workerID handed) : Proper files n s handed := by
  have next := h.kept.nextPhase
  -- what is handed out was idle
  have free {type : TaskType} {i : ℕ} (wait : handed.wait = some (type, i)) :
      ¬ Completed s.coordinator type i ∧ ∀ k, ¬ Asleep s type i k := by
    have idle := (statusOf_requested h.kept requested type i).2 wait
    refine ⟨fun completed => ?_, fun k asleep => h.busy type i k asleep idle⟩
    rw [completed_iff, idle] at completed
    cases completed
  cases requested with
  | map i task phase found idle =>
    have id := (next.maps.fitting i task found).1
    refine ⟨fun _ => ?_, by simp, by simp⟩
    simp only [id]
    exact ⟨trivial, free rfl⟩
  | reduce i task files phase found idle listed =>
    have id := next.reduces.fitting i task found
    refine ⟨fun _ => ?_, fun _ m bound => ?_, by simp⟩
    · simp only [id]
      exact ⟨trivial, free rfl⟩
    · exact h.kept.completed_nextPhase.mp (next.completed_map (by simp [phase]) bound)
  | wait phase => exact ⟨by simp, by simp, by simp⟩
  | exit phase =>
    refine ⟨by simp, by simp, fun _ => ⟨fun m bound => ?_, fun r bound => ?_⟩⟩
    · exact h.kept.completed_nextPhase.mp (next.completed_map (by simp [phase]) bound)
    · exact h.kept.completed_nextPhase.mp (next.completed_reduce phase bound)

/-- Under any clients the counters are exact, every call is answered and every
reply proper, `Done` waits for all tasks, the phase only moves on, and a task
once completed stays completed and is never handed out again. -/
theorem schedule_correct (run : Run step free (init files n) s) :
    (s.coordinator.mapTasksCompleted =
        s.coordinator.mapTasks.countP (fun task => task.status = .completed) ∧
      s.coordinator.reduceTasksCompleted =
        s.coordinator.reduceTasks.countP fun task => task.status = .completed) ∧
    (∀ workerID, ∃ handed, requestTask s.coordinator workerID = some handed ∧
      Proper files n s handed) ∧
    (∀ args, Reports files n args → ∃ c, notifyTaskCompletion s.coordinator args = some c) ∧
    (done s.coordinator = true → Finished files n s.coordinator) ∧
    (∀ call s', step s call = some s' →
      Follows s.coordinator.status s'.coordinator.status) ∧
    ∀ s', Run step free s s' → ∀ type i, Completed s.coordinator type i →
      Completed s'.coordinator type i ∧
        ∀ workerID handed, requestTask s'.coordinator workerID = some handed →
          ¬ (handed.reply.taskType = type ∧ handed.reply.taskID = i) := by
  have h := run_scheduled run
  refine ⟨⟨h.kept.maps.counted, h.kept.reduces.counted⟩, fun workerID => ?_,
    fun args reports => h.answers_notify reports, fun finished => ?_,
    fun call s' taken => step_follows taken, fun s' later type i completed => ?_⟩
  · obtain ⟨handed, requested⟩ := h.answers_request workerID
    exact ⟨handed, requested, h.proper (requestTask_requested requested)⟩
  · simp only [done, decide_eq_true_eq] at finished
    exact finished_of_exist h.kept finished.1
  · have stays : Scheduled files n s' ∧ Completed s'.coordinator type i :=
      later.invariant (fun t => Scheduled files n t ∧ Completed t.coordinator type i)
        (fun ⟨inside, kept⟩ _ taken =>
          ⟨scheduled_step inside taken, step_completed inside taken kept⟩)
        ⟨h, completed⟩
    refine ⟨stays.2, fun workerID handed requested ⟨kind, id⟩ => ?_⟩
    have proper := stays.1.proper (requestTask_requested requested)
    have named : type = .mapTask ∨ type = .reduceTask := by
      obtain ⟨task, found, _⟩ := completed
      cases type with
      | mapTask => exact .inl rfl
      | reduceTask => exact .inr rfl
      | exitTask => simp [tasksOf] at found
      | noTask => simp [tasksOf] at found
    rw [← kind] at named
    obtain ⟨_, pending, _⟩ := proper.task named
    rw [kind, id] at pending
    exact pending stays.2

/-- A task is handed out, its timer expires, a second worker gets it and reports. -/
theorem schedule_correct_retry : ∃ s : Schedule, Run step free (init [[]] 1) s ∧
    s.coordinator.mapTasksCompleted = 1 ∧
    s.coordinator.mapTasks.countP (fun task => task.status = .completed) = 1 := by
  obtain ⟨s, run, one⟩ := exec_test step free (init [[]] 1)
    [.request 1, .expire 0, .request 2, .notify ⟨2, .mapTask, 0, []⟩, .expire 1]
    (fun s => s.coordinator.mapTasksCompleted = 1) (by decide)
  have counted := of_decide_eq_true one
  exact ⟨s, run, counted, (schedule_correct run).1.1.symm.trans counted⟩

end Results

section Jobs
variable {job : Job} {sys sys' : System}

def schedule (sys : System) : Schedule := ⟨sys.coordinator, sys.assignments, sys.waits⟩

theorem schedule_handOut (pid : ℤ) (handed : Handed) :
    schedule (sys.handOut pid handed) = (schedule sys).handOut pid handed := by
  unfold System.handOut Schedule.handOut
  cases handed.wait <;> rfl

theorem step_schedule {action : Action} (taken : MrWorker.step job sys action = some sys') :
    schedule sys' = schedule sys ∨ ∃ call, step (schedule sys) call = some (schedule sys') ∧
      ∀ args, call = .notify args → args ∈ sys.reports := by
  cases action with
  | start pid =>
    simp only [MrWorker.step] at taken
    split at taken
    · rw [← Option.some.inj taken]
      exact .inl rfl
    · cases taken
  | request pid =>
    simp only [MrWorker.step] at taken
    split at taken
    · obtain ⟨handed, requested, same⟩ := Option.map_eq_some_iff.mp taken
      refine .inr ⟨.request pid, ?_, by simp⟩
      rw [← same]
      refine Option.map_eq_some_iff.mpr ⟨handed, requested, ?_⟩
      rw [← schedule_handOut]
      rfl
    · cases taken
  | requestLost pid =>
    obtain ⟨handed, requested, same⟩ := Option.map_eq_some_iff.mp taken
    refine .inr ⟨.request pid, Option.map_eq_some_iff.mpr ⟨handed, requested, ?_⟩, by simp⟩
    rw [← same, schedule_handOut]
  | expire k =>
    simp only [MrWorker.step, Option.ite_none_right_eq_some] at taken
    obtain ⟨asleep, rest⟩ := taken
    obtain ⟨assigned, started, same⟩ := Option.map_eq_some_iff.mp rest
    have sleeping : k ∈ (schedule sys).waits := asleep
    refine .inr ⟨.expire k, ?_, by simp⟩
    rw [← same, step, if_pos sleeping]
    exact Option.map_eq_some_iff.mpr ⟨assigned, started, rfl⟩
  | work pid act =>
    obtain ⟨_, _, same⟩ := Option.map_eq_some_iff.mp taken
    rw [← same]
    exact .inl rfl
  | report pid =>
    simp only [MrWorker.step] at taken
    split at taken
    · rw [← Option.some.inj taken]
      exact .inl rfl
    · cases taken
  | handle i =>
    obtain ⟨args, sent, rest⟩ := Option.bind_eq_some_iff.mp taken
    obtain ⟨c, notified, same⟩ := Option.bind_eq_some_iff.mp rest
    refine .inr ⟨.notify args, ?_, fun other made => ?_⟩
    · rw [← Option.some.inj same]
      exact Option.map_eq_some_iff.mpr ⟨c, notified, rfl⟩
    · injection made with made
      rw [← made]
      exact List.mem_of_getElem? sent
  | lose i =>
    simp only [MrWorker.step, Option.ite_none_right_eq_some, Option.some.injEq] at taken
    rw [← taken.2]
    exact .inl rfl
  | crash pid =>
    rw [← Option.some.inj taken]
    exact .inl rfl

theorem reaches_schedule {start : Directory} {ok : System → Action → Prop}
    (run : Reaches job start ok sys) :
    Run step free (init job.files job.nReduce) (schedule sys) := by
  refine run.invariant (fun sys => Run step free (init job.files job.nReduce) (schedule sys))
    (fun before _ taken => ?_) .refl
  rcases step_schedule taken with same | ⟨call, made, _⟩
  · rw [same]
    exact before
  · exact before.tail trivial made

end Jobs

end DistributedLabs.MrSchedule
