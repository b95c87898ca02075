import Mathlib.Tactic

/-! The MapReduce coordinator (mr/coordinator.go) and its messages (mr/rpc.go).
A handler returns nothing where the source ends the process: an index out of
range, or a file name that `extractReduceTaskNum` refuses. Task ids and counters
are naturals, worker ids are the source's integers. The table of workers, on
which no reply or task depends, is left out. -/

namespace DistributedLabs.MrCoordinator

abbrev Path := List Char

inductive TaskStatus
  | idle
  | inProgress
  | completed
  deriving DecidableEq

inductive TaskType
  | mapTask
  | reduceTask
  | exitTask
  | noTask
  deriving DecidableEq

structure Task where
  type : TaskType
  status : TaskStatus
  workerID : ℤ
  file : Path
  taskID : ℕ
  deriving DecidableEq

inductive Phase
  | mapPhase
  | reducePhase
  | existPhase
  deriving DecidableEq

structure Coordinator where
  mapTasks : List Task
  reduceTasks : List Task
  nReduce : ℕ
  nMap : ℕ
  intermediateFiles : List (List Path)
  mapTasksCompleted : ℕ
  reduceTasksCompleted : ℕ
  status : Phase

structure TaskResponse where
  taskType : TaskType := .mapTask
  taskID : ℕ := 0
  mapFile : Path := []
  reduceFiles : List Path := []
  nReduce : ℕ := 0

structure TaskCompletion where
  workerID : ℤ
  taskType : TaskType
  taskID : ℕ
  outputFiles : List Path

def decimal (n : ℕ) : Path := Nat.toDigits 10 n

def intermediateName (m r : ℕ) : Path :=
  "temp/mr-".toList ++ (decimal m ++ '-' :: decimal r)

def outName (r : ℕ) : Path :=
  "mr-out-".toList ++ decimal r

def newReduceTasks (nReduce : ℕ) : List Task :=
  (List.range nReduce).map fun i => ⟨.reduceTask, .idle, 0, [], i⟩

def makeCoordinator (files : List Path) (nReduce : ℕ) : Coordinator where
  mapTasks := files.mapIdx fun i file => ⟨.mapTask, .idle, 0, file, i⟩
  reduceTasks := newReduceTasks nReduce
  nReduce := nReduce
  nMap := files.length
  intermediateFiles := List.replicate nReduce []
  mapTasksCompleted := 0
  reduceTasksCompleted := 0
  status := .mapPhase

/-- The phase changes at the head of `RequestTask`. -/
def Coordinator.nextPhase (c : Coordinator) : Coordinator :=
  if c.status = .mapPhase ∧ c.mapTasksCompleted = c.nMap then
    { c with
      status := .reducePhase
      reduceTasks :=
        if c.reduceTasks.length = 0 then newReduceTasks c.nReduce else c.reduceTasks }
  else if c.status = .reducePhase ∧ c.reduceTasksCompleted = c.nReduce then
    { c with status := .existPhase }
  else c

def firstIdle (tasks : List Task) : Option (ℕ × Task) :=
  (tasks.findIdx? fun task => task.status = .idle).bind fun i => tasks[i]?.map fun task => (i, task)

def Coordinator.setMap (c : Coordinator) (i : ℕ) (task : Task) : Coordinator :=
  { c with mapTasks := c.mapTasks.set i task }

def Coordinator.setReduce (c : Coordinator) (i : ℕ) (task : Task) : Coordinator :=
  { c with reduceTasks := c.reduceTasks.set i task }

def Task.assign (task : Task) (workerID : ℤ) : Task :=
  { task with status := .inProgress, workerID := workerID }

/-- What `RequestTask` leaves behind: the coordinator, the reply and the task
for which it starts a `waitTask`. -/
structure Handed where
  coordinator : Coordinator
  reply : TaskResponse
  wait : Option (TaskType × ℕ)

def requestTask (c : Coordinator) (workerID : ℤ) : Option Handed :=
  let c := c.nextPhase
  match c.status with
  | .mapPhase =>
    match firstIdle c.mapTasks with
    | some (i, task) =>
      some ⟨c.setMap i (task.assign workerID),
        { taskType := .mapTask, taskID := task.taskID, mapFile := task.file,
          nReduce := c.nReduce },
        some (.mapTask, i)⟩
    | none => some ⟨c, { taskType := .noTask }, none⟩
  | .reducePhase =>
    match firstIdle c.reduceTasks with
    | some (i, task) =>
      c.intermediateFiles[task.taskID]?.map fun files =>
        ⟨c.setReduce i (task.assign workerID),
          { taskType := .reduceTask, taskID := task.taskID, reduceFiles := files },
          some (.reduceTask, i)⟩
    | none => some ⟨c, { taskType := .noTask }, none⟩
  | .existPhase => some ⟨c, { taskType := .exitTask }, none⟩

/-- `strconv.Atoi`: an optional sign, then digits, within 64 bits. -/
def atoi (text : List Char) : Option ℤ :=
  let (sign, digits) : ℤ × List Char :=
    match text with
    | '-' :: rest => (-1, rest)
    | '+' :: rest => (1, rest)
    | _ => (1, text)
  let num := sign * Nat.ofDigitChars 10 digits 0
  if digits ≠ [] ∧ digits.all Char.isDigit ∧ -2 ^ 63 ≤ num ∧ num < 2 ^ 63 then some num else none

def extractReduceTaskNum (filename : Path) : Option ℤ :=
  match filename.splitOn '-' with
  | [_, _, num] => atoi num
  | _ => none

def recordFiles : List Path → List (List Path) → Option (List (List Path))
  | [], lists => some lists
  | file :: rest, lists => do
    let r ← (← extractReduceTaskNum file).toNat?
    let held ← lists[r]?
    recordFiles rest (lists.set r (held ++ [file]))

def Task.ownedBy (task : Task) (workerID : ℤ) : Prop :=
  task.status = .inProgress ∧ task.workerID = workerID

instance (task : Task) (workerID : ℤ) : Decidable (task.ownedBy workerID) :=
  inferInstanceAs (Decidable (_ ∧ _))

def Task.complete (task : Task) : Task :=
  { task with status := .completed }

def notifyTaskCompletion (c : Coordinator) (args : TaskCompletion) : Option Coordinator :=
  match args.taskType with
  | .mapTask => do
    let task ← c.mapTasks[args.taskID]?
    if task.ownedBy args.workerID then
      let lists ← recordFiles args.outputFiles c.intermediateFiles
      some { c.setMap args.taskID task.complete with
        mapTasksCompleted := c.mapTasksCompleted + 1
        intermediateFiles := lists }
    else some c
  | .reduceTask => do
    let task ← c.reduceTasks[args.taskID]?
    if task.ownedBy args.workerID then
      some { c.setReduce args.taskID task.complete with
        reduceTasksCompleted := c.reduceTasksCompleted + 1 }
    else some c
  | _ => some c

def Task.release (task : Task) : Task :=
  { task with status := .idle, workerID := 0 }

/-- What `waitTask` does to its task after the sleep. -/
def Task.expire (task : Task) : Task :=
  if task.status = .inProgress then task.release else task

def waitTask (c : Coordinator) : TaskType → ℕ → Coordinator
  | .mapTask, i => { c with mapTasks := c.mapTasks.modify i Task.expire }
  | .reduceTask, i => { c with reduceTasks := c.reduceTasks.modify i Task.expire }
  | _, _ => c

def done (c : Coordinator) : Bool :=
  c.status = .existPhase ∧ c.mapTasksCompleted = c.nMap ∧ c.reduceTasksCompleted = c.nReduce

end DistributedLabs.MrCoordinator
