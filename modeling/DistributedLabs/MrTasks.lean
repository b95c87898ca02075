import DistributedLabs.MrCoordinator

/-! What the coordinator's operations do to its tasks, and what they keep: the
counters count the completed tasks, each task stands at the index that is its
id, and the phase moves on only when all tasks of the phase before are completed. -/

namespace DistributedLabs.MrTasks
open MrCoordinator

/-- A list of tasks with its counter; `fits` ties a task to its index. -/
structure Board (fits : ℕ → Task → Prop) (size count : ℕ) (tasks : List Task) : Prop where
  length : tasks.length = size
  fitting : ∀ i task, tasks[i]? = some task → fits i task
  counted : count = tasks.countP fun task => task.status = .completed

section Boards
variable {fits : ℕ → Task → Prop} {size count i : ℕ} {tasks : List Task} {old : Task}

theorem Board.set (h : Board fits size count tasks) (new : Task) (found : tasks[i]? = some old)
    (pending : old.status ≠ .completed) (fit : fits i new) :
    Board fits size (count + if new.status = .completed then 1 else 0) (tasks.set i new) := by
  obtain ⟨bound, value⟩ := List.getElem?_eq_some_iff.mp found
  refine ⟨by rw [List.length_set, h.length], fun j task at_j => ?_, ?_⟩
  · rcases eq_or_ne i j with rfl | apart
    · rw [List.getElem?_set_self bound] at at_j
      obtain rfl := Option.some.inj at_j
      exact fit
    · rw [List.getElem?_set_ne apart] at at_j
      exact h.fitting j task at_j
  · rw [List.countP_set bound, value, h.counted]
    simp [pending]

theorem Board.full (h : Board fits size count tasks) (all : count = size) {task : Task}
    (found : tasks[i]? = some task) : task.status = .completed := by
  have every : tasks.countP (fun task => task.status = .completed) = tasks.length := by
    rw [← h.counted, all, h.length]
  have member := List.countP_eq_length.mp every task (List.mem_of_getElem? found)
  exact of_decide_eq_true member

theorem firstIdle_some {task : Task} (found : firstIdle tasks = some (i, task)) :
    tasks[i]? = some task ∧ task.status = .idle := by
  obtain ⟨k, first, rest⟩ := Option.bind_eq_some_iff.mp found
  obtain ⟨t, at_k, pair⟩ := Option.map_eq_some_iff.mp rest
  obtain ⟨rfl, rfl⟩ := Prod.mk.inj pair
  obtain ⟨bound, idle, -⟩ := List.findIdx?_eq_some_iff_getElem.mp first
  rw [List.getElem?_eq_getElem bound] at at_k
  obtain rfl := Option.some.inj at_k
  exact ⟨List.getElem?_eq_getElem bound, of_decide_eq_true idle⟩

theorem modify_expire (tasks : List Task) (i : ℕ) :
    tasks.modify i Task.expire = tasks ∨
      ∃ task, tasks[i]? = some task ∧ task.status = .inProgress ∧
        tasks.modify i Task.expire = tasks.set i task.release := by
  cases found : tasks[i]? with
  | none =>
    refine .inl (List.modify_eq_self ?_)
    exact List.getElem?_eq_none_iff.mp found
  | some task =>
    have modified : tasks.modify i Task.expire = tasks.set i task.expire := by
      refine List.ext_getElem? fun j => ?_
      rw [List.getElem?_modify, List.getElem?_set]
      split
      · rename_i same
        subst same
        have bound := (List.getElem?_eq_some_iff.mp found).1
        rw [if_pos bound, found]
        simp
      · simp
    by_cases running : task.status = .inProgress
    · right
      refine ⟨task, rfl, running, ?_⟩
      rw [modified, Task.expire, if_pos running]
    · left
      obtain ⟨bound, rfl⟩ := List.getElem?_eq_some_iff.mp found
      rw [modified, Task.expire, if_neg running, List.set_getElem_self]

end Boards

inductive Requested (c : Coordinator) (workerID : ℤ) : Handed → Prop
  | map (i : ℕ) (task : Task) (phase : c.nextPhase.status = .mapPhase)
      (found : c.nextPhase.mapTasks[i]? = some task) (idle : task.status = .idle) :
      Requested c workerID
        ⟨c.nextPhase.setMap i (task.assign workerID),
          { taskType := .mapTask, taskID := task.taskID, mapFile := task.file,
            nReduce := c.nextPhase.nReduce },
          some (.mapTask, i)⟩
  | reduce (i : ℕ) (task : Task) (files : List Path) (phase : c.nextPhase.status = .reducePhase)
      (found : c.nextPhase.reduceTasks[i]? = some task) (idle : task.status = .idle)
      (listed : c.nextPhase.intermediateFiles[task.taskID]? = some files) :
      Requested c workerID
        ⟨c.nextPhase.setReduce i (task.assign workerID),
          { taskType := .reduceTask, taskID := task.taskID, reduceFiles := files },
          some (.reduceTask, i)⟩
  | wait (phase : c.nextPhase.status ≠ .existPhase) :
      Requested c workerID ⟨c.nextPhase, { taskType := .noTask }, none⟩
  | exit (phase : c.nextPhase.status = .existPhase) :
      Requested c workerID ⟨c.nextPhase, { taskType := .exitTask }, none⟩

theorem requestTask_requested {c : Coordinator} {workerID : ℤ} {handed : Handed}
    (taken : requestTask c workerID = some handed) : Requested c workerID handed := by
  unfold requestTask at taken
  cases phase : c.nextPhase.status with
  | mapPhase =>
    simp only [phase] at taken
    cases first : firstIdle c.nextPhase.mapTasks with
    | none =>
      obtain rfl : _ = handed := by simpa [first] using taken
      exact .wait (by simp [phase])
    | some found =>
      obtain ⟨i, task⟩ := found
      obtain rfl : _ = handed := by simpa [first] using taken
      obtain ⟨found, idle⟩ := firstIdle_some first
      exact .map i task phase found idle
  | reducePhase =>
    simp only [phase] at taken
    cases first : firstIdle c.nextPhase.reduceTasks with
    | none =>
      obtain rfl : _ = handed := by simpa [first] using taken
      exact .wait (by simp [phase])
    | some found =>
      obtain ⟨i, task⟩ := found
      obtain ⟨files, listed, rfl⟩ := Option.map_eq_some_iff.mp (by simpa [first] using taken)
      obtain ⟨found, idle⟩ := firstIdle_some first
      exact .reduce i task files phase found idle listed
  | existPhase =>
    obtain rfl : _ = handed := by simpa [phase] using taken
    exact .exit phase

inductive Notified (c : Coordinator) (args : TaskCompletion) : Coordinator → Prop
  | ignored : Notified c args c
  | map (task : Task) (lists : List (List Path)) (kind : args.taskType = .mapTask)
      (found : c.mapTasks[args.taskID]? = some task) (owned : task.ownedBy args.workerID)
      (listed : recordFiles args.outputFiles c.intermediateFiles = some lists) :
      Notified c args
        { c.setMap args.taskID task.complete with
          mapTasksCompleted := c.mapTasksCompleted + 1
          intermediateFiles := lists }
  | reduce (task : Task) (kind : args.taskType = .reduceTask)
      (found : c.reduceTasks[args.taskID]? = some task) (owned : task.ownedBy args.workerID) :
      Notified c args
        { c.setReduce args.taskID task.complete with
          reduceTasksCompleted := c.reduceTasksCompleted + 1 }

theorem notifyTaskCompletion_notified {c c' : Coordinator} {args : TaskCompletion}
    (taken : notifyTaskCompletion c args = some c') : Notified c args c' := by
  unfold notifyTaskCompletion at taken
  split at taken
  · rename_i kind
    obtain ⟨task, found, rest⟩ := Option.bind_eq_some_iff.mp taken
    split at rest
    · rename_i owned
      obtain ⟨lists, listed, done⟩ := Option.bind_eq_some_iff.mp rest
      obtain rfl := Option.some.inj done
      exact .map task lists kind found owned listed
    · obtain rfl := Option.some.inj rest
      exact .ignored
  · rename_i kind
    obtain ⟨task, found, rest⟩ := Option.bind_eq_some_iff.mp taken
    split at rest
    · rename_i owned
      obtain rfl := Option.some.inj rest
      exact .reduce task kind found owned
    · obtain rfl := Option.some.inj rest
      exact .ignored
  · obtain rfl := Option.some.inj taken
    exact .ignored

/-- What every operation of the coordinator keeps, for a job over `files` with
`n` reduce tasks. -/
structure Kept (files : List Path) (n : ℕ) (c : Coordinator) : Prop where
  nMap : c.nMap = files.length
  nReduce : c.nReduce = n
  maps : Board (fun i task => task.taskID = i ∧ files[i]? = some task.file) files.length
    c.mapTasksCompleted c.mapTasks
  reduces : Board (fun i task => task.taskID = i) n c.reduceTasksCompleted c.reduceTasks
  mapped : c.status ≠ .mapPhase → c.mapTasksCompleted = files.length
  reduced : c.status = .existPhase → c.reduceTasksCompleted = n

section Keep
variable {files : List Path} {n : ℕ} {c c' : Coordinator}

theorem newReduceTasks_board (n : ℕ) :
    Board (fun i task => task.taskID = i) n 0 (newReduceTasks n) := by
  refine ⟨by simp [newReduceTasks], fun i task found => ?_, ?_⟩
  · obtain ⟨k, at_k, rfl⟩ := Option.map_eq_some_iff.mp (List.getElem?_map ▸ found)
    exact (List.getElem?_eq_some_iff.mp at_k).2 ▸ List.getElem_range _
  · symm
    rw [List.countP_eq_zero]
    intro task member
    obtain ⟨i, -, rfl⟩ := List.mem_map.mp member
    simp

theorem kept_makeCoordinator (files : List Path) (n : ℕ) :
    Kept files n (makeCoordinator files n) where
  nMap := rfl
  nReduce := rfl
  maps := by
    refine ⟨by simp [makeCoordinator], fun i task found => ?_, ?_⟩
    · simp only [makeCoordinator, List.getElem?_mapIdx] at found
      obtain ⟨file, at_i, rfl⟩ := Option.map_eq_some_iff.mp found
      exact ⟨rfl, at_i⟩
    · symm
      simp only [makeCoordinator]
      rw [List.countP_eq_zero]
      intro task member
      obtain ⟨i, bound, rfl⟩ := List.mem_mapIdx.mp member
      simp
  reduces := newReduceTasks_board n
  mapped away := absurd rfl away
  reduced finished := by simp [makeCoordinator] at finished

theorem Kept.nextPhase_reduceTasks (h : Kept files n c) :
    c.nextPhase.reduceTasks = c.reduceTasks := by
  unfold Coordinator.nextPhase
  split
  · simp only [ite_eq_right_iff]
    intro empty
    have zero : n = 0 := h.reduces.length.symm.trans empty
    rw [List.length_eq_zero_iff.mp empty, h.nReduce, zero]
    rfl
  · split <;> rfl

theorem nextPhase_mapTasks (c : Coordinator) : c.nextPhase.mapTasks = c.mapTasks := by
  unfold Coordinator.nextPhase
  split
  · rfl
  · split <;> rfl

theorem Kept.nextPhase (h : Kept files n c) : Kept files n c.nextPhase := by
  have reduces := h.nextPhase_reduceTasks ▸ h.reduces
  unfold Coordinator.nextPhase at reduces ⊢
  split
  · rename_i full
    rw [if_pos full] at reduces
    exact { h with
      reduces := reduces
      mapped := fun _ => full.2.trans h.nMap
      reduced := fun finished => absurd finished (by simp) }
  · split
    · rename_i full
      exact { h with
        mapped := fun _ => h.mapped (by simp [full.1])
        reduced := fun _ => full.2.trans h.nReduce }
    · exact h

theorem Kept.requested {workerID : ℤ} {handed : Handed} (h : Kept files n c)
    (taken : Requested c workerID handed) : Kept files n handed.coordinator := by
  have next := h.nextPhase
  cases taken with
  | map i task phase found idle =>
    exact { next with
      maps := next.maps.set (task.assign workerID) found (by simp [idle])
        (next.maps.fitting i task found) }
  | reduce i task files phase found idle listed =>
    exact { next with
      reduces := next.reduces.set (task.assign workerID) found (by simp [idle])
        (next.reduces.fitting i task found) }
  | wait phase => exact next
  | exit phase => exact next

theorem Kept.notified {args : TaskCompletion} (h : Kept files n c)
    (taken : Notified c args c') : Kept files n c' := by
  cases taken with
  | ignored => exact h
  | map task lists kind found owned listed =>
    have pending : task.status ≠ .completed := by simp [owned.1]
    have open_ : c.status = .mapPhase := by
      by_contra away
      exact pending (h.maps.full (h.mapped away) found)
    exact { h with
      maps := h.maps.set task.complete found pending (h.maps.fitting _ task found)
      mapped := fun away => absurd open_ away }
  | reduce task kind found owned =>
    have pending : task.status ≠ .completed := by simp [owned.1]
    exact { h with
      reduces := h.reduces.set task.complete found pending (h.reduces.fitting _ task found)
      reduced := fun finished => absurd (h.reduces.full (h.reduced finished) found) pending }

theorem Kept.waitTask (h : Kept files n c) (type : TaskType) (i : ℕ) :
    Kept files n (waitTask c type i) := by
  cases type with
  | mapTask =>
    rcases modify_expire c.mapTasks i with same | ⟨task, found, running, changed⟩
    · simpa [MrCoordinator.waitTask, same] using h
    · simp only [MrCoordinator.waitTask, changed]
      exact { h with
        maps := h.maps.set task.release found (by simp [running]) (h.maps.fitting i task found) }
  | reduceTask =>
    rcases modify_expire c.reduceTasks i with same | ⟨task, found, running, changed⟩
    · simpa [MrCoordinator.waitTask, same] using h
    · simp only [MrCoordinator.waitTask, changed]
      exact { h with
        reduces := h.reduces.set task.release found (by simp [running])
          (h.reduces.fitting i task found) }
  | exitTask => exact h
  | noTask => exact h

end Keep

def tasksOf (c : Coordinator) : TaskType → List Task
  | .mapTask => c.mapTasks
  | .reduceTask => c.reduceTasks
  | _ => []

def Completed (c : Coordinator) (type : TaskType) (i : ℕ) : Prop :=
  ∃ task, (tasksOf c type)[i]? = some task ∧ task.status = .completed

section Status
variable {files : List Path} {n : ℕ} {c c' : Coordinator} {type : TaskType} {i : ℕ}

def statusOf (c : Coordinator) (type : TaskType) (i : ℕ) : Option TaskStatus :=
  (tasksOf c type)[i]?.map Task.status

theorem set_found {tasks : List Task} {j : ℕ} {old : Task} (found : tasks[j]? = some old)
    (new : Task) (i : ℕ) :
    (tasks.set j new)[i]? = if i = j then some new else tasks[i]? := by
  have bound := (List.getElem?_eq_some_iff.mp found).1
  by_cases same : i = j
  · rw [if_pos same, same, List.getElem?_set_self bound]
  · rw [if_neg same, List.getElem?_set_ne (Ne.symm same)]

theorem tasksOf_setMap {j : ℕ} {old : Task} (found : c.mapTasks[j]? = some old) (new : Task) :
    (tasksOf (c.setMap j new) type)[i]? =
      if type = .mapTask ∧ i = j then some new else (tasksOf c type)[i]? := by
  cases type with
  | mapTask => simpa [tasksOf, Coordinator.setMap] using set_found found new i
  | reduceTask => simp [tasksOf, Coordinator.setMap]
  | exitTask => simp [tasksOf]
  | noTask => simp [tasksOf]

theorem tasksOf_setReduce {j : ℕ} {old : Task} (found : c.reduceTasks[j]? = some old)
    (new : Task) :
    (tasksOf (c.setReduce j new) type)[i]? =
      if type = .reduceTask ∧ i = j then some new else (tasksOf c type)[i]? := by
  cases type with
  | mapTask => simp [tasksOf, Coordinator.setReduce]
  | reduceTask => simpa [tasksOf, Coordinator.setReduce] using set_found found new i
  | exitTask => simp [tasksOf]
  | noTask => simp [tasksOf]

theorem tasksOf_nextPhase (h : Kept files n c) (type : TaskType) :
    tasksOf c.nextPhase type = tasksOf c type := by
  cases type with
  | mapTask => exact nextPhase_mapTasks c
  | reduceTask => exact h.nextPhase_reduceTasks
  | exitTask => rfl
  | noTask => rfl

theorem task_requested (h : Kept files n c) {workerID : ℤ} {handed : Handed}
    (requested : Requested c workerID handed) (type : TaskType) (i : ℕ) :
    (handed.wait = some (type, i) → ∃ task, (tasksOf c type)[i]? = some task ∧
      task.status = .idle ∧
      (tasksOf handed.coordinator type)[i]? = some (task.assign workerID)) ∧
    (handed.wait ≠ some (type, i) →
      (tasksOf handed.coordinator type)[i]? = (tasksOf c type)[i]?) := by
  cases requested with
  | map j task phase found idle =>
    rw [tasksOf_setMap found, tasksOf_nextPhase h]
    constructor
    · intro same
      obtain ⟨rfl, rfl⟩ : .mapTask = type ∧ j = i := by simpa using same
      refine ⟨task, ?_, idle, if_pos ⟨rfl, rfl⟩⟩
      rwa [← tasksOf_nextPhase h]
    · intro other
      exact if_neg fun here => other (by rw [here.1, here.2])
  | reduce j task files phase found idle listed =>
    rw [tasksOf_setReduce found, tasksOf_nextPhase h]
    constructor
    · intro same
      obtain ⟨rfl, rfl⟩ : .reduceTask = type ∧ j = i := by simpa using same
      refine ⟨task, ?_, idle, if_pos ⟨rfl, rfl⟩⟩
      rwa [← tasksOf_nextPhase h]
    · intro other
      exact if_neg fun here => other (by rw [here.1, here.2])
  | wait phase => simp [tasksOf_nextPhase h]
  | exit phase => simp [tasksOf_nextPhase h]

theorem task_notified {args : TaskCompletion} (notified : Notified c args c')
    (type : TaskType) (i : ℕ) :
    (tasksOf c' type)[i]? = (tasksOf c type)[i]? ∨
      ((args.taskType = type ∧ args.taskID = i) ∧
        ∃ task, (tasksOf c type)[i]? = some task ∧ task.ownedBy args.workerID ∧
          (tasksOf c' type)[i]? = some task.complete) := by
  cases notified with
  | ignored => exact .inl rfl
  | map task lists kind found owned listed =>
    have after : (tasksOf (c.setMap args.taskID task.complete) type)[i]? = _ :=
      tasksOf_setMap found task.complete
    by_cases here : type = .mapTask ∧ i = args.taskID
    · rw [if_pos here] at after
      refine .inr ⟨⟨kind.trans here.1.symm, here.2.symm⟩, task, ?_, owned, after⟩
      rw [here.1, here.2]
      exact found
    · rw [if_neg here] at after
      exact .inl after
  | reduce task kind found owned =>
    have after : (tasksOf (c.setReduce args.taskID task.complete) type)[i]? = _ :=
      tasksOf_setReduce found task.complete
    by_cases here : type = .reduceTask ∧ i = args.taskID
    · rw [if_pos here] at after
      refine .inr ⟨⟨kind.trans here.1.symm, here.2.symm⟩, task, ?_, owned, after⟩
      rw [here.1, here.2]
      exact found
    · rw [if_neg here] at after
      exact .inl after

theorem task_waitTask (kind : TaskType) (j : ℕ) :
    (tasksOf (waitTask c kind j) type)[i]? =
      if kind = type ∧ j = i then (tasksOf c type)[i]?.map Task.expire
      else (tasksOf c type)[i]? := by
  have modified (tasks : List Task) : (tasks.modify j Task.expire)[i]? =
      if j = i then tasks[i]?.map Task.expire else tasks[i]? := by
    rw [List.getElem?_modify]
    split
    · rfl
    · simp
  cases kind <;> cases type <;> simp [tasksOf, waitTask, modified]

theorem statusOf_requested (h : Kept files n c) {workerID : ℤ} {handed : Handed}
    (requested : Requested c workerID handed) (type : TaskType) (i : ℕ) :
    statusOf handed.coordinator type i =
        (if handed.wait = some (type, i) then some .inProgress else statusOf c type i) ∧
      (handed.wait = some (type, i) → statusOf c type i = some .idle) := by
  have ⟨given, kept⟩ := task_requested h requested type i
  by_cases wait : handed.wait = some (type, i)
  · obtain ⟨task, found, idle, after⟩ := given wait
    rw [if_pos wait, statusOf, statusOf, found, after]
    exact ⟨rfl, fun _ => congrArg some idle⟩
  · rw [if_neg wait, statusOf, kept wait]
    exact ⟨rfl, fun same => absurd same wait⟩

theorem statusOf_notified {args : TaskCompletion} (notified : Notified c args c')
    (type : TaskType) (i : ℕ) :
    statusOf c' type i = statusOf c type i ∨
      ((args.taskType = type ∧ args.taskID = i) ∧
        statusOf c type i = some .inProgress ∧ statusOf c' type i = some .completed) := by
  unfold statusOf
  rcases task_notified notified type i with same | ⟨named, task, found, owned, after⟩
  · exact .inl (by rw [same])
  · rw [found, after]
    exact .inr ⟨named, congrArg some owned.1, rfl⟩

theorem statusOf_waitTask (kind : TaskType) (j : ℕ) :
    statusOf (waitTask c kind j) type i =
      if kind = type ∧ j = i ∧ statusOf c type i = some .inProgress then some .idle
      else statusOf c type i := by
  unfold statusOf
  rw [task_waitTask]
  cases (tasksOf c type)[i]? with
  | none => simp
  | some task =>
    by_cases here : kind = type ∧ j = i
    · by_cases running : task.status = .inProgress
      · simp [here, running, Task.expire, Task.release]
      · simp [here, running, Task.expire]
    · rw [if_neg here, if_neg fun freed => here ⟨freed.1, freed.2.1⟩]

end Status

section Completion
variable {files : List Path} {n : ℕ} {c c' : Coordinator} {type : TaskType} {i : ℕ}

theorem completed_iff : Completed c type i ↔ statusOf c type i = some .completed :=
  Option.map_eq_some_iff.symm

theorem idle_init {task : Task} (found : (tasksOf (makeCoordinator files n) type)[i]? = some task) :
    task.status = .idle := by
  cases type with
  | mapTask =>
    simp only [tasksOf, makeCoordinator, List.getElem?_mapIdx] at found
    have ⟨file, _, same⟩ := Option.map_eq_some_iff.mp found
    rw [← same]
  | reduceTask =>
    simp only [tasksOf, makeCoordinator, newReduceTasks, List.getElem?_map] at found
    have ⟨r, _, same⟩ := Option.map_eq_some_iff.mp found
    rw [← same]
  | exitTask => simp [tasksOf] at found
  | noTask => simp [tasksOf] at found

theorem not_completed_init (files : List Path) (n : ℕ) (type : TaskType) (i : ℕ) :
    ¬ Completed (makeCoordinator files n) type i := by
  rintro ⟨task, found, status⟩
  rw [idle_init found] at status
  exact TaskStatus.noConfusion status

theorem Kept.completed_nextPhase (h : Kept files n c) :
    Completed c.nextPhase type i ↔ Completed c type i := by
  rw [Completed, Completed, tasksOf_nextPhase h]

theorem Kept.completed_requested {workerID : ℤ} {handed : Handed} (h : Kept files n c)
    (taken : Requested c workerID handed) :
    Completed handed.coordinator type i ↔ Completed c type i := by
  have ⟨after, idle⟩ := statusOf_requested h taken type i
  rw [completed_iff, completed_iff, after]
  split
  · rename_i here
    simp [idle here]
  · rfl

theorem completed_notified {args : TaskCompletion} (taken : Notified c args c') :
    Completed c' type i ↔ Completed c type i ∨
      (args.taskType = type ∧ args.taskID = i ∧ statusOf c' type i = some .completed) := by
  rw [completed_iff, completed_iff]
  rcases statusOf_notified taken type i with same | ⟨⟨kind, id⟩, running, done⟩
  · rw [same]
    exact ⟨.inl, fun either => either.elim id fun new => new.2.2⟩
  · simp [done, kind, id]

theorem completed_waitTask {kind : TaskType} {j : ℕ} :
    Completed (waitTask c kind j) type i ↔ Completed c type i := by
  rw [completed_iff, completed_iff, statusOf_waitTask]
  split
  · rename_i freed
    simp [freed.2.2]
  · rfl

theorem Kept.completed_map (h : Kept files n c) (away : c.status ≠ .mapPhase) {m : ℕ}
    (bound : m < files.length) : Completed c .mapTask m := by
  have inside : m < c.mapTasks.length := by rw [h.maps.length]; exact bound
  have found := List.getElem?_eq_getElem inside
  exact ⟨_, found, h.maps.full (h.mapped away) found⟩

theorem Kept.completed_reduce (h : Kept files n c) (finished : c.status = .existPhase) {r : ℕ}
    (bound : r < n) : Completed c .reduceTask r := by
  have inside : r < c.reduceTasks.length := by rw [h.reduces.length]; exact bound
  have found := List.getElem?_eq_getElem inside
  exact ⟨_, found, h.reduces.full (h.reduced finished) found⟩

end Completion

end DistributedLabs.MrTasks
