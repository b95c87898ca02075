import DistributedLabs.MrFiles
import DistributedLabs.MrSchedule

/-! The lists of intermediate files that the coordinator keeps for the reduce
tasks. A report names its files by text and the coordinator parses the reduce
task out of each name again. When workers report what `reportTaskDone` builds,
the lists are those of one sequence: the completed map tasks in the order in
which they were reported. -/

namespace DistributedLabs.MrBuckets
open GuardedRuns MrCoordinator MrTasks MrFiles MrSchedule
open MrWorker (System Worker Job Directory Reaches reportTaskDone received)

section Names
variable {lists lists' : List (List Path)}

theorem splitOn_intermediateName (m r : ℕ) :
    (intermediateName m r).splitOn '-' = ["temp/mr".toList, decimal m, decimal r] := by
  have shape : intermediateName m r =
      "temp/mr".toList ++ '-' :: (decimal m ++ '-' :: decimal r) := rfl
  have dash (n : ℕ) : '-' ∉ decimal n := notMem_decimal n rfl
  rw [shape, List.splitOn_append_cons_self_of_not_mem (by decide),
    List.splitOn_append_cons_self_of_not_mem (dash m), List.splitOn_eq_singleton (dash r)]

theorem atoi_decimal (k : ℕ) :
    atoi (decimal k) = if (k : ℤ) < 2 ^ 63 then some (k : ℤ) else none := by
  -- decimals carry no sign, so parsing one gives the number back if it fits
  have value : Nat.ofDigitChars 10 (decimal k) 0 = k := Nat.ofDigitChars_ten_toDigits
  have minus : '-' ∉ decimal k := notMem_decimal k rfl
  have plus : '+' ∉ decimal k := notMem_decimal k rfl
  have nonempty : decimal k ≠ [] := Nat.toDigits_ne_nil
  have digits : (decimal k).all Char.isDigit = true := by
    rw [List.all_eq_true]
    exact fun c member => Nat.isDigit_of_mem_toDigits (by decide) (by decide) member
  unfold atoi
  split
  rename_i sign digits form
  split at form
  · rename_i rest shape
    simp [shape] at minus
  · rename_i rest shape
    simp [shape] at plus
  · obtain ⟨rfl, rfl⟩ := Prod.mk.inj form
    simp [value, nonempty, digits]

theorem extract_intermediateName (m k : ℕ) :
    extractReduceTaskNum (intermediateName m k) =
      if (k : ℤ) < 2 ^ 63 then some (k : ℤ) else none := by
  rw [extractReduceTaskNum, splitOn_intermediateName]
  exact atoi_decimal k

theorem recordFiles_cons {file : Path} {rest : List Path}
    (recorded : recordFiles (file :: rest) lists = some lists') :
    ∃ (r : ℕ) (held : List Path), extractReduceTaskNum file = some (r : ℤ) ∧
      lists[r]? = some held ∧ recordFiles rest (lists.set r (held ++ [file])) = some lists' := by
  simp only [recordFiles, Option.bind_eq_bind, Option.bind_eq_some_iff] at recorded
  obtain ⟨z, extracted, r, natural, held, found, tail⟩ := recorded
  rw [Int.mem_toNat?.mp natural] at extracted
  exact ⟨r, held, extracted, found, tail⟩

theorem recordFiles_names {m : ℕ} {rs : List ℕ} (distinct : rs.Nodup)
    (recorded : recordFiles (rs.map (intermediateName m)) lists = some lists') (r : ℕ) :
    (r ∈ rs → ∃ held, lists[r]? = some held ∧
      lists'[r]? = some (held ++ [intermediateName m r])) ∧
    (r ∉ rs → lists'[r]? = lists[r]?) := by
  induction rs generalizing lists with
  | nil =>
    rw [Option.some.inj recorded]
    exact ⟨fun member => absurd member List.not_mem_nil, fun _ => rfl⟩
  | cons k rest ih =>
    have ⟨fresh, others⟩ := List.nodup_cons.mp distinct
    have ⟨j, held, extracted, found, tail⟩ := recordFiles_cons recorded
    have same : j = k := by
      rw [extract_intermediateName, Option.ite_none_right_eq_some] at extracted
      exact Int.natCast_inj.mp (Option.some.inj extracted.2).symm
    subst same
    have bound := (List.getElem?_eq_some_iff.mp found).1
    have ⟨inside, outside⟩ := ih others tail
    by_cases here : r = j
    · subst here
      rw [outside fresh, List.getElem?_set_self bound]
      exact ⟨fun _ => ⟨held, found, rfl⟩, fun away => absurd List.mem_cons_self away⟩
    · rw [List.getElem?_set_ne (Ne.symm here)] at inside outside
      exact ⟨fun member => inside ((List.mem_cons.mp member).resolve_left here),
        fun away => outside fun member => away (List.mem_cons_of_mem j member)⟩

end Names

/-- `ms` are the completed map tasks, and the list of each reduce task has their
files in this order. -/
structure Bucketed (n : ℕ) (c : Coordinator) (ms : List ℕ) : Prop where
  distinct : ms.Nodup
  completed : ∀ m, m ∈ ms ↔ Completed c .mapTask m
  lists : ∀ r < n, c.intermediateFiles[r]? = some (ms.map fun m => intermediateName m r)

def Built (n : ℕ) (args : TaskCompletion) : Prop :=
  args.outputFiles = (reportTaskDone args.workerID args.taskType n args.taskID).outputFiles

/-- The clients report what `reportTaskDone` builds, in any order and any number
of times. -/
def Honest (n : ℕ) (_ : Schedule) : Call → Prop
  | .notify args => Built n args
  | .request _ | .expire _ => True

instance (n : ℕ) (s : Schedule) (call : Call) : Decidable (Honest n s call) :=
  match call with
  | .notify args => inferInstanceAs (Decidable (args.outputFiles = _))
  | .request _ | .expire _ => isTrue trivial

section Keep
variable {files : List Path} {n : ℕ} {c c' : Coordinator} {ms : List ℕ} {s s' : Schedule}

theorem bucketed_init (files : List Path) (n : ℕ) : Bucketed n (makeCoordinator files n) [] where
  distinct := List.nodup_nil
  completed m := iff_of_false List.not_mem_nil (not_completed_init files n .mapTask m)
  lists r bound := by simp [makeCoordinator, bound]

theorem Bucketed.same (h : Bucketed n c ms) (lists : c'.intermediateFiles = c.intermediateFiles)
    (completed : ∀ m, Completed c' .mapTask m ↔ Completed c .mapTask m) : Bucketed n c' ms where
  distinct := h.distinct
  completed m := (h.completed m).trans (completed m).symm
  lists r bound := by rw [lists, h.lists r bound]

theorem Bucketed.notified (h : Bucketed n c ms) {args : TaskCompletion} (built : Built n args)
    (notified : Notified c args c') : ∃ ms', Bucketed n c' ms' := by
  cases notified with
  | ignored => exact ⟨ms, h⟩
  | reduce task kind found owned =>
    refine ⟨ms, h.same rfl fun m => ?_⟩
    change Completed (c.setReduce args.taskID task.complete) .mapTask m ↔ _
    rw [Completed, Completed, tasksOf_setReduce found]
    simp
  | map task lists kind found owned listed =>
    have fresh : args.taskID ∉ ms := by
      intro member
      obtain ⟨other, there, done⟩ := (h.completed _).mp member
      obtain rfl : task = other := Option.some.inj (found.symm.trans there)
      rw [owned.1] at done
      exact TaskStatus.noConfusion done
    refine ⟨ms ++ [args.taskID], ?_, fun m => ?_, fun r bound => ?_⟩
    · rw [List.nodup_append_comm]
      exact List.nodup_cons.mpr ⟨fresh, h.distinct⟩
    · change _ ↔ Completed (c.setMap args.taskID task.complete) .mapTask m
      rw [Completed, tasksOf_setMap found, List.mem_append, List.mem_singleton, h.completed m]
      by_cases here : m = args.taskID
      · simp [here, Task.complete]
      · simp [here, Completed]
    · rw [built, reportTaskDone, kind, if_pos rfl] at listed
      obtain ⟨held, before, after⟩ :=
        (recordFiles_names List.nodup_range listed r).1 (List.mem_range.mpr bound)
      rw [h.lists r bound, Option.some.injEq] at before
      rw [List.map_append, before]
      exact after

theorem Bucketed.step (h : Bucketed n s.coordinator ms) (kept : Kept files n s.coordinator)
    {call : Call} (honest : Honest n s call) (taken : MrSchedule.step s call = some s') :
    ∃ ms', Bucketed n s'.coordinator ms' := by
  cases step_called taken with
  | request workerID handed requested =>
    rw [handOut_coordinator]
    exact ⟨ms, h.same (requested_lists requested) fun _ => kept.completed_requested requested⟩
  | notify args c notified => exact h.notified honest notified
  | expire k assigned asleep started =>
    exact ⟨ms, h.same (waitTask_lists _ _ _) fun _ => completed_waitTask⟩

theorem run_bucketed (run : Run step (Honest n) (init files n) s) :
    ∃ ms, Bucketed n s.coordinator ms := by
  refine run.invariant_under (Scheduled files n) (fun s => ∃ ms, Bucketed n s.coordinator ms)
    (fun scheduled _ taken => scheduled_step scheduled taken) ?_ (scheduled_init files n)
    ⟨[], bucketed_init files n⟩
  intro t u call scheduled _ before honest taken
  obtain ⟨ms, h⟩ := before
  exact h.step scheduled.kept honest taken

end Keep

section Results
variable {files : List Path} {n : ℕ} {s : Schedule} {ms : List ℕ}

def completedMaps (files : List Path) (c : Coordinator) : List ℕ :=
  (List.range files.length).filter fun m => statusOf c .mapTask m = some .completed

theorem Bucketed.perm {c : Coordinator} (h : Bucketed n c ms) (kept : Kept files n c) :
    ms.Perm (completedMaps files c) := by
  refine (List.perm_ext_iff_of_nodup h.distinct (List.nodup_range.filter _)).mpr fun m => ?_
  rw [h.completed, completed_iff, List.mem_filter, List.mem_range, decide_eq_true_eq,
    iff_and_self]
  intro done
  have ⟨task, found, _⟩ := Option.map_eq_some_iff.mp done
  rw [← kept.maps.length]
  exact (List.getElem?_eq_some_iff.mp found).1

theorem completedMaps_all {c : Coordinator}
    (all : ∀ m < files.length, Completed c .mapTask m) :
    completedMaps files c = List.range files.length := by
  refine List.filter_eq_self.mpr fun m member => decide_eq_true ?_
  exact completed_iff.mp (all m (List.mem_range.mp member))

theorem Bucketed.reply (h : Bucketed n s.coordinator ms) (scheduled : Scheduled files n s)
    {workerID : ℤ} {handed : Handed} (requested : Requested s.coordinator workerID handed)
    (reduce : handed.reply.taskType = .reduceTask) :
    handed.reply.taskID < n ∧ handed.reply.reduceFiles.Perm
      ((List.range files.length).map fun m => intermediateName m handed.reply.taskID) := by
  have all := (scheduled.proper requested).reduce reduce
  have next := scheduled.kept.nextPhase
  cases requested with
  | reduce i task names phase found idle listed =>
    have id := next.reduces.fitting i task found
    have inside := (List.getElem?_eq_some_iff.mp found).1
    rw [next.reduces.length, ← id] at inside
    rw [nextPhase_lists, h.lists _ inside] at listed
    refine ⟨inside, ?_⟩
    rw [← Option.some.inj listed, ← completedMaps_all all]
    exact (h.perm scheduled.kept).map _
  | _ => exact absurd reduce (by simp)

theorem built_parsed {workerID : ℤ} {type : TaskType} {taskID : ℕ} {name : Path}
    (member : name ∈ (reportTaskDone workerID type n taskID).outputFiles) :
    ∃ r < n, extractReduceTaskNum name = if (r : ℤ) < 2 ^ 63 then some (r : ℤ) else none := by
  unfold reportTaskDone at member
  split at member
  · have ⟨r, bound, same⟩ := List.mem_map.mp member
    rw [← same]
    exact ⟨r, List.mem_range.mp bound, extract_intermediateName taskID r⟩
  · exact absurd member List.not_mem_nil

theorem built_reports (fits : n ≤ 2 ^ 63) {type : TaskType} {taskID : ℕ}
    (inJob : InJob files n type taskID) (workerID : ℤ) :
    Reports files n (reportTaskDone workerID type n taskID) where
  task := inJob
  names name member := by
    have ⟨r, bound, parsed⟩ := built_parsed member
    refine ⟨r, bound, ?_⟩
    rw [parsed, if_pos (by omega)]

/-- When workers report what `reportTaskDone` builds, the list of each reduce
task is a permutation of the files of the completed map tasks, no report leads
to a list that is not there, every report about a task of the job is answered as
long as the number of reduce tasks is an `int`, and every reduce task is handed
out with one file of each map task. -/
theorem buckets_complete (run : Run step (Honest n) (init files n) s) :
    s.coordinator.intermediateFiles.length = n ∧
    (∀ r < n, ∃ names, s.coordinator.intermediateFiles[r]? = some names ∧
      names.Perm ((completedMaps files s.coordinator).map fun m => intermediateName m r)) ∧
    (∀ workerID type taskID, ∀ name ∈ (reportTaskDone workerID type n taskID).outputFiles,
      ∀ z, extractReduceTaskNum name = some z → 0 ≤ z ∧ z < n) ∧
    (n ≤ 2 ^ 63 → ∀ workerID type taskID, InJob files n type taskID →
      ∃ c, notifyTaskCompletion s.coordinator (reportTaskDone workerID type n taskID) = some c) ∧
    ∀ workerID, ∃ handed, requestTask s.coordinator workerID = some handed ∧
      (handed.reply.taskType = .reduceTask → handed.reply.taskID < n ∧
        handed.reply.reduceFiles.Perm
          ((List.range files.length).map fun m => intermediateName m handed.reply.taskID)) := by
  have scheduled := run_scheduled run
  have ⟨ms, h⟩ := run_bucketed run
  refine ⟨scheduled.lists, fun r bound => ⟨_, h.lists r bound, (h.perm scheduled.kept).map _⟩,
    fun workerID type taskID name member z parsed => ?_,
    fun fits workerID type taskID inJob => scheduled.answers_notify
      (built_reports fits inJob workerID), fun workerID => ?_⟩
  · have ⟨r, bound, same⟩ := built_parsed member
    rw [same, Option.ite_none_right_eq_some, Option.some.injEq] at parsed
    omega
  · have ⟨handed, answered⟩ := scheduled.answers_request workerID
    exact ⟨handed, answered, h.reply scheduled (requestTask_requested answered)⟩

/-- A task is done twice and reported three times, once too late. -/
theorem buckets_complete_repeated : ∃ s : Schedule, Run step (Honest 2) (init [[]] 2) s ∧
    Completed s.coordinator .mapTask 0 ∧ ∃ names, s.coordinator.intermediateFiles[1]? = some names ∧
      names.Perm [intermediateName 0 1] := by
  obtain ⟨s, run, done⟩ := exec_test step (Honest 2) (init [[]] 2)
    [.request 1, .expire 0, .request 2, .notify (reportTaskDone 1 .mapTask 2 0),
      .notify (reportTaskDone 2 .mapTask 2 0), .notify (reportTaskDone 2 .mapTask 2 0)]
    (fun s => completedMaps [[]] s.coordinator = [0]) (by decide)
  have only := of_decide_eq_true done
  have ⟨names, listed, perm⟩ := (buckets_complete run).2.1 1 (by decide)
  rw [only] at perm
  refine ⟨s, run, ?_, names, listed, perm⟩
  have member : 0 ∈ completedMaps [[]] s.coordinator := by simp [only]
  exact completed_iff.mpr (of_decide_eq_true (List.mem_filter.mp member).2)

end Results

section Jobs
variable {job : Job} {start : Directory} {sys sys' : System}

def taskOf : Worker → Option TaskResponse
  | .mapping task | .creating task _ _ | .encoding task _ _ | .publishing task _ _
  | .reducing task | .reading task _ _ | .printing task _ _ | .finished task => some task
  | .asking | .exited => none

def Sized (n : ℕ) (worker : Worker) : Prop :=
  ∀ task, taskOf worker = some task → task.taskType = .mapTask → task.nReduce = n

/-- Workers know the number of reduce tasks, and so do their reports. -/
structure Instructed (n : ℕ) (sys : System) : Prop where
  workers : ∀ pid, Sized n (sys.workers pid)
  reports : ∀ args ∈ sys.reports, Built n args

theorem performed_task {files files' : Directory} {worker worker' : Worker} {act : MrWorker.Act}
    (performed : MrMoves.Performed job files worker act files' worker') :
    taskOf worker' = taskOf worker ∨ taskOf worker' = none := by
  cases performed <;> first | exact .inl rfl | exact .inr rfl

theorem received_sized {c : Coordinator} {n : ℕ} {workerID : ℤ} {handed : Handed}
    (size : c.nextPhase.nReduce = n) (requested : Requested c workerID handed) :
    Sized n (received handed.reply) := by
  cases requested with
  | map i task phase found idle =>
    intro given same _
    rw [← Option.some.inj same]
    exact size
  | reduce i task names phase found idle listed =>
    intro given same kind
    rw [← Option.some.inj same] at kind
    exact TaskType.noConfusion kind
  | wait phase => exact fun _ same => absurd same.symm (Option.some_ne_none _)
  | exit phase => exact fun _ same => absurd same.symm (Option.some_ne_none _)

theorem Instructed.setWorker {n : ℕ} (h : Instructed n sys) (pid : ℤ) {worker : Worker}
    (sized : Sized n worker) : Instructed n (sys.setWorker pid worker) where
  workers other := by
    by_cases same : other = pid
    · simpa [System.setWorker, same] using sized
    · simpa [System.setWorker, same] using h.workers other
  reports := h.reports

theorem Instructed.handOut {n : ℕ} (h : Instructed n sys) (pid : ℤ) (handed : Handed) :
    Instructed n (sys.handOut pid handed) := by
  unfold System.handOut
  split <;> exact { h with }

theorem Instructed.moved {n : ℕ} (h : Instructed n sys) (kept : Kept job.files n sys.coordinator)
    {action : MrWorker.Action} (move : MrMoves.Moved job sys action sys') :
    Instructed n sys' := by
  have idle : Sized n .asking := fun _ same => absurd same.symm (Option.some_ne_none _)
  cases move with
  | start pid gone => exact h.setWorker pid idle
  | request pid handed asking requested =>
    exact (h.handOut pid handed).setWorker pid (received_sized kept.nextPhase.nReduce requested)
  | requestLost pid handed requested => exact h.handOut pid handed
  | expire k assigned asleep started => exact { h with }
  | work pid act files worker performed =>
    have sized : Sized n worker := by
      intro task same
      rcases performed_task performed with kept | gone
      · exact h.workers pid task (kept.symm.trans same)
      · rw [gone] at same
        exact absurd same.symm (Option.some_ne_none _)
    exact { h.setWorker pid sized with }
  | report pid task finished =>
    refine { h.setWorker pid idle with reports := fun args member => ?_ }
    rcases List.mem_append.mp member with before | new
    · exact h.reports args before
    · have sized := h.workers pid task (by rw [finished]; rfl)
      rw [List.mem_singleton.mp new, Built]
      by_cases kind : task.taskType = .mapTask
      · rw [sized kind]
        rfl
      · simp [reportTaskDone, kind]
  | handle i args c sent notified =>
    exact { h with
      reports := fun other member => h.reports other (List.mem_of_mem_eraseIdx member) }
  | lose i =>
    exact { h with
      reports := fun other member => h.reports other (List.mem_of_mem_eraseIdx member) }
  | crash pid => exact h.setWorker pid fun _ same => absurd same.symm (Option.some_ne_none _)

/-- The workers of a job are honest clients, wherever they crash and whatever is
lost, so the lists of every job are complete. -/
theorem reaches_honest {ok : System → MrWorker.Action → Prop} (run : Reaches job start ok sys) :
    Run step (Honest job.nReduce) (init job.files job.nReduce) (schedule sys) := by
  have both : Run step (Honest job.nReduce) (init job.files job.nReduce) (schedule sys) ∧
      Instructed job.nReduce sys := by
    refine run.invariant (fun sys => Run step (Honest job.nReduce) (init job.files job.nReduce)
      (schedule sys) ∧ Instructed job.nReduce sys) ?_ ⟨.refl, ?_⟩
    · intro t u action before _ taken
      have kept : Kept job.files job.nReduce t.coordinator := (run_scheduled before.1).kept
      refine ⟨?_, before.2.moved kept (MrMoves.step_moved taken)⟩
      rcases step_schedule taken with same | ⟨call, made, known⟩
      · rw [same]
        exact before.1
      · refine before.1.tail ?_ made
        cases call with
        | request workerID => trivial
        | notify args => exact before.2.reports args (known args rfl)
        | expire k => trivial
    · exact ⟨fun _ _ same => absurd same.symm (Option.some_ne_none _),
        fun _ member => absurd member List.not_mem_nil⟩
  exact both.1

end Jobs

end DistributedLabs.MrBuckets
