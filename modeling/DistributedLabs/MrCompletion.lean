import DistributedLabs.MrAgreement
import DistributedLabs.MrBuckets
import DistributedLabs.MrTimers

/-! A job never gets stuck. Whatever workers were doing when they crashed, and
whatever messages were lost, one new worker can still complete the job alone: the
timers give back what others left unfinished, every task handed out can be
carried out to its report, and every report handled brings the job nearer to its
end. -/

namespace DistributedLabs.MrCompletion
open GuardedRuns MrCoordinator MrTasks MrWorker MrMoves MrFiles MrProgress MrAgreement MrSchedule
open MrBuckets (taskOf built_reports)
open MrTimers (running_timer mem_pending run_timed)

section Names

theorem globs_plain {path : Path} (plain : path.any Char.isDigit = false) (r : ℕ) :
    globs r path = false := by
  by_contra matched
  rw [Bool.not_eq_false] at matched
  simp only [globs, Bool.and_eq_true] at matched
  have tail := List.isSuffixOf_iff_suffix.mp matched.1.2
  obtain ⟨d, member⟩ := List.exists_mem_of_ne_nil (decimal r) Nat.toDigits_ne_nil
  have digit : d.isDigit = true := Nat.isDigit_of_mem_toDigits (by decide) (by decide) member
  have inside : d ∈ path := List.mem_of_mem_drop (tail.subset (List.mem_cons_of_mem _ member))
  exact List.any_eq_false.mp plain d inside digit

theorem pattern_plain (worker : Worker) : worker.pattern.any Char.isDigit = false := by
  unfold Worker.pattern
  split <;> rfl

theorem exists_temp (files : Directory) (worker : Worker) :
    ∃ suffix, tempFile worker.pattern suffix ∉ files ∧
      ∀ r, globs r (tempFile worker.pattern suffix) = false := by
  have apart : Function.Injective fun k => tempFile worker.pattern (List.replicate k 'x') := by
    intro k k' same
    have suffixes := List.append_cancel_left (List.append_cancel_left same)
    simpa using congrArg List.length suffixes
  obtain ⟨name, ⟨k, rfl⟩, fresh⟩ :=
    (Set.infinite_range_of_injective apart).exists_notMem_finset files.keys.toFinset
  refine ⟨List.replicate k 'x', fun member => fresh ?_, globs_plain ?_⟩
  · exact List.mem_toFinset.mpr (AList.mem_keys.mp member)
  · have directory : "temp/".toList.any Char.isDigit = false := rfl
    have random : (List.replicate k 'x').any Char.isDigit = false := by
      rw [List.any_eq_false]
      intro c member
      rw [List.eq_of_mem_replicate member]
      decide
    rw [tempFile, List.any_append, List.any_append, directory, pattern_plain, random]
    rfl

end Names

section Tasks
variable {job : Job} {files : Directory} {worker : Worker} {task : TaskResponse}

/-- How much a worker still has to do for its task: the loop it is in, and the
rounds left of it. -/
def stage : Worker → ℕ ×ₗ ℕ
  | .mapping _ | .reducing _ => toLex (4, 0)
  | .creating task _ tempFiles => toLex (3, task.nReduce - tempFiles.length)
  | .reading _ files _ => toLex (3, files.length)
  | .encoding _ kva _ => toLex (2, kva.length)
  | .printing _ _ rest => toLex (2, rest.length)
  | .publishing _ _ tempFiles => toLex (1, tempFiles.length)
  | .asking | .finished _ | .exited => toLex (0, 0)

def Room : Worker → Prop
  | .creating task _ tempFiles => tempFiles.length ≤ task.nReduce
  | _ => True

structure Advances (job : Job) (files : Directory) (worker : Worker) (task : TaskResponse)
    (act : Act) (files' : Directory) (worker' : Worker) : Prop where
  performed : perform job files worker act = some (files', worker')
  safe : ∀ suffix, act = .create suffix →
    ∀ r < job.nReduce, globs r (tempFile worker.pattern suffix) = false
  task : taskOf worker' = some task
  room : Room worker'
  less : stage worker' < stage worker

theorem later_stage {a b m n : ℕ} (less : a < b) : toLex (a, m) < toLex (b, n) :=
  Prod.Lex.toLex_lt_toLex.mpr (.inl less)

theorem next_round {a m n : ℕ} (less : m < n) : toLex (a, m) < toLex (a, n) :=
  Prod.Lex.toLex_lt_toLex.mpr (.inr ⟨rfl, less⟩)

theorem mapping_advances (inputs : ∀ file ∈ job.files, files.lookup file = job.input file)
    (readable : ∀ file ∈ job.files, job.input file ≠ none)
    (reply : MapReply job task) :
    ∃ act files' worker', Advances job files (.mapping task) task act files' worker' := by
  have listed : task.mapFile ∈ job.files := List.mem_of_getElem? reply.file
  obtain ⟨content, opened⟩ := Option.ne_none_iff_exists'.mp (readable _ listed)
  let kva := (job.mapf task.mapFile content).toList
  have mapped : perform job files (.mapping task) (.runMap kva) =
      some (files, .creating task kva []) := by
    simp [perform, inputs _ listed, opened, kva]
  exact ⟨_, _, _, mapped, by simp, rfl, Nat.zero_le _, later_stage (by decide)⟩

theorem creating_advances {kva : List KeyValue} {tempFiles : List Path}
    (room : tempFiles.length ≤ task.nReduce) :
    ∃ act files' worker',
      Advances job files (.creating task kva tempFiles) task act files' worker' := by
  rcases room.lt_or_eq with short | all
  · obtain ⟨suffix, fresh, plain⟩ := exists_temp files (.creating task kva tempFiles)
    let name := tempFile "intermediate-".toList suffix
    have created : perform job files (.creating task kva tempFiles) (.create suffix) =
        some (files.insert name [], .creating task kva (tempFiles ++ [name])) := by
      rw [perform]
      exact if_pos ⟨short, fresh⟩
    refine ⟨_, _, _, created, ?_, rfl, by simpa [Room] using short, next_round (by simp; omega)⟩
    rintro _ ⟨⟩ r -
    exact plain r
  · have left : perform job files (.creating task kva tempFiles) .leave =
        some (files, .encoding task kva tempFiles) := by
      simp [perform, all]
    exact ⟨_, _, _, left, by simp, rfl, trivial, later_stage (by decide)⟩

theorem encoding_advances (positive : 1 ≤ job.nReduce) {kva : List KeyValue}
    {tempFiles : List Path} (knows : Knows job files (.encoding task kva tempFiles)) :
    ∃ act files' worker',
      Advances job files (.encoding task kva tempFiles) task act files' worker' := by
  obtain ⟨size, written, writing⟩ := knows
  cases kva with
  | nil =>
    have left : perform job files (.encoding task [] tempFiles) .leave =
        some (files, .publishing task 0 tempFiles) := by
      simp [perform]
    exact ⟨_, _, _, left, by simp, rfl, trivial, later_stage (by decide)⟩
  | cons kv rest =>
    have bound : ihash kv.key % task.nReduce < tempFiles.length := by
      rw [size, writing.reply.buckets]
      exact Nat.mod_lt _ positive
    have chosen := List.getElem?_eq_getElem bound
    obtain ⟨content, held⟩ : ∃ content, files.lookup tempFiles[ihash kv.key % task.nReduce] =
        some content := ⟨_, writing.held _ _ chosen⟩
    have encoded : perform job files (.encoding task (kv :: rest) tempFiles) .encodeNext =
        some (files.insert tempFiles[ihash kv.key % task.nReduce] (content ++ job.encode kv),
          .encoding task rest tempFiles) := by
      simp only [perform, chosen, held, Option.map_some]
    exact ⟨_, _, _, encoded, by simp, rfl, trivial, next_round (by simp)⟩

theorem publishing_advances (i : ℕ) (tempFiles : List Path) :
    ∃ act files' worker',
      Advances job files (.publishing task i tempFiles) task act files' worker' := by
  cases tempFiles with
  | nil =>
    have left : perform job files (.publishing task i []) .leave =
        some (files, .finished task) := by
      simp [perform]
    exact ⟨_, _, _, left, by simp, rfl, trivial, later_stage (by decide)⟩
  | cons temp rest =>
    have renamed : perform job files (.publishing task i (temp :: rest)) .renameNext =
        some (rename files temp (intermediateName task.taskID i),
          .publishing task (i + 1) rest) := by
      simp [perform]
    exact ⟨_, _, _, renamed, by simp, rfl, trivial, next_round (by simp)⟩

theorem reading_advances {paths : List Path} {intermediate : AList fun _ : Bytes => List Bytes}
    (knows : Knows job files (.reading task paths intermediate)) :
    ∃ act files' worker',
      Advances job files (.reading task paths intermediate) task act files' worker' := by
  obtain ⟨reply, read, unread, records, reading, names, -⟩ := knows
  cases paths with
  | nil =>
    obtain ⟨suffix, fresh, plain⟩ := exists_temp files (.reading task [] intermediate)
    let name := tempFile "mr-out-".toList suffix
    have created : perform job files (.reading task [] intermediate) (.create suffix) =
        some (files.insert name [], .printing task name intermediate.entries) := by
      rw [perform]
      exact if_pos fresh
    refine ⟨_, _, _, created, ?_, rfl, trivial, later_stage (by decide)⟩
    rintro _ ⟨⟩ r -
    exact plain r
  | cons path rest =>
    -- the file was published before the task was handed out
    obtain ⟨m, unread, rfl, rfl, rfl⟩ := List.map_eq_cons_iff.mp names.symm
    have bound : m < job.files.length := List.mem_range.mp (reading.all.subset (by simp))
    obtain ⟨kvs, -, held⟩ := reply.ready m bound
    obtain ⟨table, opened⟩ : ∃ table, perform job files
        (.reading task (intermediateName m task.taskID ::
          unread.map fun m => intermediateName m task.taskID) intermediate) .readNext =
        some (files,
          .reading task (unread.map fun m => intermediateName m task.taskID) table) := by
      simp only [perform, held]
      exact ⟨_, rfl⟩
    exact ⟨_, _, _, opened, by simp, rfl, trivial, next_round (by simp)⟩

theorem printing_advances {outputFile : Path} {rest : List ((_ : Bytes) × List Bytes)}
    (knows : Knows job files (.printing task outputFile rest)) :
    ∃ act files' worker',
      Advances job files (.printing task outputFile rest) task act files' worker' := by
  obtain ⟨reply, records, printed, printing⟩ := knows
  cases rest with
  | nil =>
    have renamed : perform job files (.printing task outputFile []) .renameNext =
        some (rename files outputFile (outName task.taskID), .finished task) := by
      simp [perform]
    exact ⟨_, _, _, renamed, by simp, rfl, trivial, later_stage (by decide)⟩
  | cons entry rest =>
    obtain ⟨files', written⟩ : ∃ files', perform job files
        (.printing task outputFile (entry :: rest)) (.printNext 0) =
        some (files', .printing task outputFile rest) := by
      simp [perform, printing.held]
    exact ⟨_, _, _, written, by simp, rfl, trivial, next_round (by simp)⟩

theorem reducing_advances :
    ∃ act files' worker', Advances job files (.reducing task) task act files' worker' := by
  have found : perform job files (.reducing task) .globFiles =
      some (files, .reading task (glob files task.taskID) ∅) := by
    simp [perform]
  exact ⟨_, _, _, found, by simp, rfl, trivial, later_stage (by decide)⟩

theorem worker_advances (inputs : ∀ file ∈ job.files, files.lookup file = job.input file)
    (readable : ∀ file ∈ job.files, job.input file ≠ none)
    (positive : 1 ≤ job.nReduce) (knows : Knows job files worker) (room : Room worker)
    (busy : taskOf worker = some task) (unfinished : worker ≠ .finished task) :
    ∃ act files' worker', Advances job files worker task act files' worker' := by
  cases worker with
  | asking => cases busy
  | exited => cases busy
  | finished own =>
    cases busy
    exact absurd rfl unfinished
  | mapping own =>
    cases busy
    exact mapping_advances inputs readable knows
  | creating own kva tempFiles =>
    cases busy
    exact creating_advances room
  | encoding own kva tempFiles =>
    cases busy
    exact encoding_advances positive knows
  | publishing own i tempFiles =>
    cases busy
    exact publishing_advances i tempFiles
  | reducing own =>
    cases busy
    exact reducing_advances
  | reading own paths intermediate =>
    cases busy
    exact reading_advances knows
  | printing own outputFile rest =>
    cases busy
    exact printing_advances knows

end Tasks

/-- Only worker `pid` acts, and no message of it is lost. -/
def Alone (job : Job) (pid : ℤ) (sys : System) (action : Action) : Prop :=
  SafeTemp job sys action ∧
    match action with
    | .start other | .request other | .work other _ | .report other => other = pid
    | .expire _ | .handle _ => True
    | .requestLost _ | .lose _ | .crash _ => False

section Workers
variable {job : Job} {sys : System} {pid : ℤ} {task : TaskResponse}

theorem worker_finishes (readable : ∀ file ∈ job.files, job.input file ≠ none)
    (positive : 1 ≤ job.nReduce) (sound : Sound job sys)
    (busy : taskOf (sys.workers pid) = some task) (room : Room (sys.workers pid)) :
    ∃ sys', Run (MrWorker.step job) (Alone job pid) sys sys' ∧ sys'.workers pid = .finished task ∧
      schedule sys' = schedule sys ∧ sys'.reports = sys.reports := by
  induction rank : stage (sys.workers pid) using WellFoundedLT.induction generalizing sys with
  | ind rank' ih =>
    subst rank
    by_cases finished : sys.workers pid = .finished task
    · exact ⟨sys, .refl, finished, rfl, rfl⟩
    obtain ⟨act, files', worker', went⟩ :=
      worker_advances sound.inputs readable positive (sound.knows pid) room busy finished
    let next : System := { sys.setWorker pid worker' with files := files' }
    have taken : MrWorker.step job sys (.work pid act) = some next := by
      rw [MrWorker.step, went.performed, Option.map_some]
    have own : next.workers pid = worker' := Function.update_self ..
    have safe : SafeTemp job sys (.work pid act) := by
      cases act with
      | create suffix => exact went.safe suffix rfl
      | _ => trivial
    obtain ⟨sys', run, done, same, reports⟩ := ih (stage (next.workers pid))
      (by rw [own]; exact went.less) (sound.moved safe (step_moved taken))
      (by rw [own]; exact went.task) (by rw [own]; exact went.room) rfl
    exact ⟨sys', (Run.refl.tail ⟨safe, rfl⟩ taken).trans run, done, same, reports⟩

end Workers

section Coordinators
variable {files : List Path} {n : ℕ} {c c' : Coordinator}

def phaseRank : Phase → ℕ
  | .mapPhase => 2
  | .reducePhase => 1
  | .existPhase => 0

def phaseTask : Phase → TaskType
  | .mapPhase => .mapTask
  | .reducePhase => .reduceTask
  | .existPhase => .exitTask

/-- The tasks still to be completed and the phases still to come. -/
def left (c : Coordinator) : ℕ :=
  (c.nMap - c.mapTasksCompleted) + (c.nReduce - c.reduceTasksCompleted) + phaseRank c.status

theorem nextPhase_status (c : Coordinator) : c.nextPhase.status =
    if c.status = .mapPhase ∧ c.mapTasksCompleted = c.nMap then .reducePhase
    else if c.status = .reducePhase ∧ c.reduceTasksCompleted = c.nReduce then .existPhase
    else c.status := by
  unfold Coordinator.nextPhase
  split
  · rfl
  · split <;> rfl

theorem nextPhase_left (c : Coordinator) : left c.nextPhase ≤ left c ∧
    (c.nextPhase.status ≠ c.status → left c.nextPhase < left c) := by
  unfold Coordinator.nextPhase
  split
  · rename_i full
    simp [left, full.1, phaseRank]
  · split
    · rename_i full
      simp [left, full.1, phaseRank]
    · simp

theorem requested_left {pid : ℤ} {handed : Handed} (requested : Requested c pid handed) :
    left handed.coordinator = left c.nextPhase := by
  cases requested <;> rfl

theorem waitTask_left (type : TaskType) (i : ℕ) : left (waitTask c type i) = left c := by
  cases type <;> rfl

theorem waitTask_phase (type : TaskType) (i : ℕ) :
    (waitTask c type i).nextPhase.status = c.nextPhase.status := by
  rw [nextPhase_status, nextPhase_status]
  cases type <;> rfl

theorem count_le_size {fits : ℕ → Task → Prop} {size count : ℕ} {tasks : List Task}
    (h : Board fits size count tasks) : count ≤ size := by
  rw [h.counted, ← h.length]
  exact List.countP_le_length

theorem exists_not_completed {fits : ℕ → Task → Prop} {size count : ℕ} {tasks : List Task}
    (h : Board fits size count tasks) (short : count ≠ size) :
    ∃ i : ℕ, ∃ task : Task, tasks[i]? = some task ∧ task.status ≠ .completed := by
  by_contra completed
  push Not at completed
  apply short
  rw [h.counted, ← h.length]
  refine List.countP_eq_length.mpr fun task member => decide_eq_true ?_
  obtain ⟨i, found⟩ := List.mem_iff_getElem?.mp member
  exact completed i task found

theorem exists_open (kept : Kept files n c) (steady : c.nextPhase.status = c.status)
    (running : c.status ≠ .existPhase) :
    ∃ i : ℕ, ∃ task : Task, (tasksOf c (phaseTask c.status))[i]? = some task ∧
      task.status ≠ .completed := by
  rw [nextPhase_status] at steady
  cases phase : c.status with
  | existPhase => exact absurd phase running
  | mapPhase =>
    refine exists_not_completed kept.maps fun all => ?_
    simp [phase, all, kept.nMap] at steady
  | reducePhase =>
    refine exists_not_completed kept.reduces fun all => ?_
    simp [phase, all, kept.nReduce] at steady

theorem done_nextPhase (kept : Kept files n c) (phase : c.nextPhase.status = .existPhase) :
    done c.nextPhase = true := by
  have next := kept.nextPhase
  refine decide_eq_true ⟨phase, ?_, ?_⟩
  · rw [next.mapped (by simp [phase]), next.nMap]
  · rw [next.reduced phase, next.nReduce]

theorem firstIdle_isSome {tasks : List Task} {i : ℕ} {task : Task}
    (found : tasks[i]? = some task) (idle : task.status = .idle) :
    ∃ first, firstIdle tasks = some first := by
  have finds : (tasks.findIdx? fun task => task.status = .idle).isSome := by
    rw [List.findIdx?_isSome, List.any_eq_true]
    exact ⟨task, List.mem_of_getElem? found, decide_eq_true idle⟩
  obtain ⟨k, first⟩ := Option.isSome_iff_exists.mp finds
  obtain ⟨bound, -⟩ := List.findIdx?_eq_some_iff_getElem.mp first
  rw [firstIdle, first, Option.bind_some, List.getElem?_eq_getElem bound]
  exact ⟨_, rfl⟩

theorem request_hands {s : Schedule} (scheduled : Scheduled files n s) {i : ℕ}
    (idle : statusOf s.coordinator (phaseTask s.coordinator.nextPhase.status) i = some .idle)
    (pid : ℤ) :
    ∃ handed type j, requestTask s.coordinator pid = some handed ∧
      handed.wait = some (type, j) := by
  obtain ⟨handed, answered⟩ := scheduled.answers_request pid
  rw [statusOf, ← tasksOf_nextPhase scheduled.kept] at idle
  obtain ⟨task, found, status⟩ := Option.map_eq_some_iff.mp idle
  have result := answered
  unfold requestTask at result
  cases phase : s.coordinator.nextPhase.status with
  | existPhase => simp [phase, phaseTask, tasksOf] at found
  | mapPhase =>
    rw [phase] at found
    obtain ⟨first, known⟩ : ∃ first, firstIdle s.coordinator.nextPhase.mapTasks = some first :=
      firstIdle_isSome found status
    simp only [phase, known, Option.some.injEq] at result
    exact ⟨handed, _, _, answered, by rw [← result]⟩
  | reducePhase =>
    rw [phase] at found
    obtain ⟨first, known⟩ : ∃ first, firstIdle s.coordinator.nextPhase.reduceTasks = some first :=
      firstIdle_isSome found status
    simp only [phase, known] at result
    obtain ⟨names, -, result⟩ := Option.map_eq_some_iff.mp result
    exact ⟨handed, _, _, answered, by rw [← result]⟩

theorem handed_task (kept : Kept files n c) {pid : ℤ} {handed : Handed} {type : TaskType} {i : ℕ}
    (requested : Requested c pid handed) (wait : handed.wait = some (type, i)) :
    InJob files n type i ∧ taskOf (received handed.reply) = some handed.reply ∧
      Room (received handed.reply) ∧
      reportTaskDone pid handed.reply.taskType handed.reply.nReduce handed.reply.taskID =
        reportTaskDone pid type n i := by
  have next := kept.nextPhase
  cases requested with
  | map j task phase found idle =>
    cases wait
    obtain ⟨id, file⟩ := next.maps.fitting i task found
    have bound := (List.getElem?_eq_some_iff.mp found).1
    rw [next.maps.length] at bound
    exact ⟨.inl ⟨rfl, bound⟩, rfl, trivial, by rw [id, next.nReduce]⟩
  | reduce j task names phase found idle listed =>
    cases wait
    have id := next.reduces.fitting i task found
    have bound := (List.getElem?_eq_some_iff.mp found).1
    rw [next.reduces.length] at bound
    exact ⟨.inr ⟨rfl, bound⟩, rfl, trivial, by rw [id]; rfl⟩
  | wait phase => cases wait
  | exit phase => cases wait

theorem notify_completes {s : Schedule} (scheduled : Scheduled files n s) {args : TaskCompletion}
    (reports : Reports files n args) {task : Task}
    (found : (tasksOf s.coordinator args.taskType)[args.taskID]? = some task)
    (owned : task.ownedBy args.workerID) :
    ∃ c, notifyTaskCompletion s.coordinator args = some c ∧ left c < left s.coordinator := by
  obtain ⟨c, answered⟩ := scheduled.answers_notify reports
  have kept := scheduled.kept.notified (notifyTaskCompletion_notified answered)
  have maps := count_le_size kept.maps
  have reduces := count_le_size kept.reduces
  rw [← scheduled.kept.nMap] at maps
  rw [← scheduled.kept.nReduce] at reduces
  refine ⟨c, answered, ?_⟩
  unfold notifyTaskCompletion at answered
  rcases reports.task with ⟨kind, -⟩ | ⟨kind, -⟩
  · rw [kind] at found
    simp only [kind, show s.coordinator.mapTasks[args.taskID]? = some task from found, owned,
      Option.bind_eq_bind, Option.bind_some, if_true] at answered
    obtain ⟨lists, -, same⟩ := Option.bind_eq_some_iff.mp answered
    obtain rfl := Option.some.inj same
    simp only [left, Coordinator.setMap] at maps ⊢
    omega
  · rw [kind] at found
    simp only [kind, show s.coordinator.reduceTasks[args.taskID]? = some task from found, owned,
      Option.bind_eq_bind, Option.bind_some, if_true, Option.some.injEq] at answered
    subst answered
    simp only [left, Coordinator.setReduce] at reduces ⊢
    omega

end Coordinators

section Rounds
variable {job : Job} {start : Directory} {sys sys' : System} {pid : ℤ}

theorem Alone.reaches (run : Reaches job start (SafeTemp job) sys)
    (later : Run (MrWorker.step job) (Alone job pid) sys sys') :
    Reaches job start (SafeTemp job) sys' :=
  run.trans (later.mono fun _ _ alone => alone.1)

theorem request_step {handed : Handed} (asking : sys.workers pid = .asking)
    (answered : requestTask sys.coordinator pid = some handed) :
    MrWorker.step job sys (.request pid) =
      some ((sys.handOut pid handed).setWorker pid (received handed.reply)) := by
  simp only [MrWorker.step, asking, answered, Option.map_some]

theorem task_freed (run : Reaches job start (SafeTemp job) sys) {type : TaskType} {i : ℕ}
    {task : Task} (found : (tasksOf sys.coordinator type)[i]? = some task)
    (unfinished : task.status ≠ .completed) :
    ∃ sys', Run (MrWorker.step job) (Alone job pid) sys sys' ∧ sys'.workers = sys.workers ∧
      left sys'.coordinator = left sys.coordinator ∧
      sys'.coordinator.nextPhase.status = sys.coordinator.nextPhase.status ∧
      statusOf sys'.coordinator type i = some .idle := by
  have status : statusOf sys.coordinator type i = some task.status := by
    rw [statusOf, found, Option.map_some]
  cases kind : task.status with
  | completed => exact absurd kind unfinished
  | idle => exact ⟨sys, .refl, rfl, rfl, rfl, status.trans (congrArg some kind)⟩
  | inProgress =>
    have schedules := reaches_schedule run
    have running : statusOf (schedule sys).coordinator type i = some .inProgress :=
      status.trans (congrArg some kind)
    obtain ⟨k, only, -⟩ := running_timer (run_scheduled schedules) (run_timed schedules) running
    obtain ⟨sleeping, workerID, started⟩ := mem_pending.mp (only ▸ List.mem_singleton_self k)
    have fired : MrWorker.step job sys (.expire k) = some { sys with
        coordinator := waitTask sys.coordinator type i
        waits := sys.waits.erase k } := by
      rw [MrWorker.step, if_pos (show k ∈ sys.waits from sleeping),
        show sys.assignments[k]? = _ from started, Option.map_some]
    refine ⟨_, Run.refl.tail (a := .expire k) ⟨trivial, trivial⟩ fired, rfl,
      waitTask_left type i, waitTask_phase type i, ?_⟩
    rw [statusOf_waitTask]
    exact if_pos ⟨rfl, rfl, running⟩

section Jobs
variable (inputs : Inputs job start) (empty : ∀ path ∈ start, ¬ "temp/mr-".toList <+: path)
  (positive : 1 ≤ job.nReduce) (fits : job.nReduce ≤ 2 ^ 63)
  (readable : ∀ file ∈ job.files, job.input file ≠ none)
include inputs empty positive fits readable

theorem task_round (run : Reaches job start (SafeTemp job) sys)
    (asking : sys.workers pid = .asking) {i : ℕ}
    (idle : statusOf sys.coordinator (phaseTask sys.coordinator.nextPhase.status) i =
      some .idle) :
    ∃ sys', Run (MrWorker.step job) (Alone job pid) sys sys' ∧ sys'.workers pid = .asking ∧
      left sys'.coordinator < left sys.coordinator := by
  have scheduled := run_scheduled (reaches_schedule run)
  obtain ⟨handed, type, j, answered, wait⟩ := request_hands scheduled idle pid
  have requested : Requested sys.coordinator pid handed := requestTask_requested answered
  obtain ⟨inJob, busy, room, report⟩ := handed_task scheduled.kept requested wait
  obtain ⟨task, -, -, given⟩ := (task_requested scheduled.kept requested type j).1 wait
  have asked : Run (MrWorker.step job) (Alone job pid) sys _ :=
    Run.refl.tail (a := .request pid) ⟨trivial, rfl⟩ (request_step asking answered)
  have own : ((sys.handOut pid handed).setWorker pid (received handed.reply)).workers pid =
      received handed.reply := Function.update_self ..
  -- the worker carries out its task
  obtain ⟨worked, ran, finished, same, reports⟩ := worker_finishes readable positive
    (reaches_sound inputs empty (Alone.reaches run asked)) (by rw [own]; exact busy)
    (by rw [own]; exact room)
  have coordinator : worked.coordinator = handed.coordinator := by
    have kept := congrArg Schedule.coordinator same
    simpa [schedule, System.setWorker] using kept
  -- and its report arrives
  have told : MrWorker.step job worked (.report pid) = some { worked.setWorker pid .asking with
      reports := worked.reports ++ [reportTaskDone pid type job.nReduce j] } := by
    simp only [MrWorker.step, finished, report]
  have reached := Alone.reaches run (asked.trans ran)
  obtain ⟨c, notified, less⟩ := notify_completes (run_scheduled (reaches_schedule reached))
    (built_reports fits inJob pid)
    (by rw [show (schedule worked).coordinator = _ from coordinator]; exact given) ⟨rfl, rfl⟩
  have handled : MrWorker.step job { worked.setWorker pid .asking with
      reports := worked.reports ++ [reportTaskDone pid type job.nReduce j] }
      (.handle worked.reports.length) = some { worked.setWorker pid .asking with
        coordinator := c
        reports := (worked.reports ++ [reportTaskDone pid type job.nReduce j]).eraseIdx
          worked.reports.length } := by
    simp only [MrWorker.step, List.getElem?_concat_length, Option.bind_eq_bind, Option.bind_some]
    rw [show notifyTaskCompletion (worked.setWorker pid .asking).coordinator _ = some c from
      notified]
    rfl
  have reporting := (asked.trans ran).tail (a := Action.report pid) ⟨trivial, rfl⟩ told
  refine ⟨_, reporting.tail (a := .handle worked.reports.length) ⟨trivial, trivial⟩ handled,
    Function.update_self .., ?_⟩
  calc left c < left worked.coordinator := less
    _ = left sys.coordinator.nextPhase := by rw [coordinator, requested_left requested]
    _ ≤ left sys.coordinator := (nextPhase_left _).1

theorem job_advances (run : Reaches job start (SafeTemp job) sys)
    (asking : sys.workers pid = .asking) :
    ∃ sys', Run (MrWorker.step job) (Alone job pid) sys sys' ∧
      (done sys'.coordinator = true ∨
        sys'.workers pid = .asking ∧ left sys'.coordinator < left sys.coordinator) := by
  have scheduled := run_scheduled (reaches_schedule run)
  by_cases pending : ∃ i : ℕ, ∃ task : Task,
      (tasksOf sys.coordinator (phaseTask sys.coordinator.nextPhase.status))[i]? = some task ∧
        task.status ≠ .completed
  · obtain ⟨i, task, found, unfinished⟩ := pending
    obtain ⟨freed, expired, workers, same, phase, idle⟩ := task_freed run found unfinished
    obtain ⟨sys', ran, next, less⟩ := task_round inputs empty positive fits readable
      (Alone.reaches run expired) (by rw [workers, asking]) (by rw [phase]; exact idle)
    exact ⟨sys', expired.trans ran, .inr ⟨next, by rwa [← same]⟩⟩
  · -- nothing is left to hand out, so that the request only changes the phase
    have kept : Kept job.files job.nReduce sys.coordinator := scheduled.kept
    obtain ⟨handed, answered⟩ : ∃ handed, requestTask sys.coordinator pid = some handed :=
      scheduled.answers_request pid
    refine ⟨_, Run.refl.tail (a := .request pid) ⟨trivial, rfl⟩
      (request_step asking answered), ?_⟩
    have requested := requestTask_requested answered
    cases requested with
    | map i task phase found idle =>
      refine absurd ⟨i, task, ?_, by simp [idle]⟩ pending
      rw [phase, ← tasksOf_nextPhase kept]
      exact found
    | reduce i task names phase found idle listed =>
      refine absurd ⟨i, task, ?_, by simp [idle]⟩ pending
      rw [phase, ← tasksOf_nextPhase kept]
      exact found
    | exit phase => exact .inl (done_nextPhase kept phase)
    | wait phase =>
      refine .inr ⟨Function.update_self .., (nextPhase_left _).2 fun steady => pending ?_⟩
      rw [steady]
      exact exists_open kept steady (steady ▸ phase)

theorem asking_completes (run : Reaches job start (SafeTemp job) sys)
    (asking : sys.workers pid = .asking) :
    ∃ sys', Run (MrWorker.step job) (Alone job pid) sys sys' ∧ done sys'.coordinator = true := by
  induction rest : left sys.coordinator using Nat.strong_induction_on generalizing sys with
  | _ k ih =>
    obtain ⟨next, ran, finished | ⟨again, less⟩⟩ :=
      job_advances inputs empty positive fits readable run asking
    · exact ⟨next, ran, finished⟩
    · obtain ⟨sys', later, finished⟩ := ih _ (rest ▸ less) (Alone.reaches run ran) again rfl
      exact ⟨sys', ran.trans later, finished⟩

/-- At every moment of a job one new worker can complete it alone, whatever the
others have left behind. -/
theorem job_completes (run : Reaches job start (SafeTemp job) sys)
    (gone : sys.workers pid = .exited) :
    ∃ sys', Run (MrWorker.step job) (Alone job pid) sys sys' ∧ done sys'.coordinator = true := by
  have started : MrWorker.step job sys (.start pid) = some (sys.setWorker pid .asking) := by
    simp only [MrWorker.step, gone]
  have first : Run (MrWorker.step job) (Alone job pid) sys (sys.setWorker pid .asking) :=
    Run.refl.tail (a := .start pid) ⟨trivial, rfl⟩ started
  obtain ⟨sys', ran, finished⟩ := asking_completes inputs empty positive fits readable
    (Alone.reaches run first) (Function.update_self ..)
  exact ⟨sys', first.trans ran, finished⟩

end Jobs

def isExited : Worker → Bool
  | .exited => true
  | _ => false

theorem isExited_iff {worker : Worker} : isExited worker = true ↔ worker = .exited := by
  cases worker <;> simp [isExited]

/-- Worker 1 crashes between the two renames of its map task, and worker 3 while it
waits for its first reply. -/
theorem job_completes_crash : ∃ sys : System,
    Reaches twoFiles letterFiles (SafeTemp twoFiles) sys ∧ sys.workers 2 = .exited ∧
    sys.coordinator.mapTasks.map Task.status = [.inProgress, .inProgress] ∧
    ∃ sys', Run (MrWorker.step twoFiles) (Alone twoFiles 2) sys sys' ∧
      done sys'.coordinator = true := by
  obtain ⟨sys, run, seen⟩ := exec_test (MrWorker.step twoFiles) (SafeTemp twoFiles)
    (MrWorker.init twoFiles letterFiles)
    ([.start 1, .request 1] ++
      (mapScript 1 [⟨ascii "x", ascii "1"⟩, ⟨ascii "y", ascii "1"⟩] ['0'] ['1']).take 8 ++
      [.crash 1, .start 3, .requestLost 3, .crash 3])
    (fun sys => isExited (sys.workers 2) ∧
      sys.coordinator.mapTasks.map Task.status = [.inProgress, .inProgress]) (by decide +kernel)
  obtain ⟨gone, handedOut⟩ := of_decide_eq_true seen
  refine ⟨sys, run, isExited_iff.mp gone, handedOut, ?_⟩
  exact job_completes ⟨fun _ _ => rfl, by decide, by decide⟩ (by decide) (by decide)
    (by norm_num [twoFiles, letterCount]) (by decide) run (isExited_iff.mp gone)

end Rounds

end DistributedLabs.MrCompletion
