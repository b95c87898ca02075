import Mathlib.Data.Char
import Mathlib.Data.List.Lex
import DistributedLabs.GuardedRuns
import DistributedLabs.Grouping
import DistributedLabs.MrCoordinator

/-! A MapReduce job: the coordinator, its workers (mr/worker.go), the directory
they share and the messages between them. Go strings are lists of bytes, paths
lists of characters. A worker performs one call on the directory at a time, so
other processes may act between any two of them, and may crash before each. An
intermediate or output file gets its name only by a rename and is never written
afterwards, so that opening and reading it is one step. Input files lie in the
same directory and are read like any other; a path is a name of one file, and
no other path is. -/

namespace DistributedLabs.MrWorker
open GuardedRuns Grouping MrCoordinator

abbrev Bytes := List UInt8

abbrev Directory := AList fun _ : Path => Bytes

structure KeyValue where
  key : Bytes
  value : Bytes
  deriving DecidableEq

def sum32 (key : Bytes) : UInt32 :=
  key.foldl (fun h b => (h ^^^ b.toUInt32) * 16777619) 2166136261

def ihash (key : Bytes) : ℕ :=
  (sum32 key &&& 0x7fffffff).toNat

/-- A job with its plugin: `mapf` may list its pairs in any order, `reducef`
does not look at the order of its values. `input` is what the input files hold
when the job begins. `encode` and `decode` are the encoder and decoder of
package json, which round-trip the pairs of these files; `decode` lists what the
calls of `Decode` return before the first error. -/
structure Job where
  files : List Path
  nReduce : ℕ
  input : Path → Option Bytes
  mapf : Path → Bytes → Multiset KeyValue
  reducef : Bytes → List Bytes → Bytes
  reducef_perm : ∀ key {values values' : List Bytes}, values.Perm values' →
    reducef key values = reducef key values'
  encode : KeyValue → Bytes
  decode : Bytes → List KeyValue
  decode_encode : ∀ kvs : List KeyValue,
    (∀ kv ∈ kvs, ∃ file ∈ files, ∃ content ∈ input file, kv ∈ mapf file content) →
    decode (kvs.flatMap encode) = kvs

def Job.line (job : Job) (key : Bytes) (values : List Bytes) : Bytes :=
  key ++ 32 :: job.reducef key values ++ [10]

def globs (r : ℕ) (path : Path) : Bool :=
  let head := "temp/mr-".toList
  let rest := path.drop head.length
  head.isPrefixOf path && ('-' :: decimal r).isSuffixOf rest && !rest.contains '/'

def glob (files : Directory) (r : ℕ) : List Path :=
  (files.keys.filter (globs r)).insertionSort (· ≤ ·)

def rename (files : Directory) (old new : Path) : Directory :=
  match files.lookup old with
  | some content => (files.erase old).insert new content
  | none => files

/-- `ioutil.TempFile(TempDir, pattern)` with the random part `suffix`. -/
def tempFile (pattern suffix : Path) : Path :=
  "temp/".toList ++ (pattern ++ suffix)

/-- Where a worker process stands: in the loop of `Worker`, in one of the loops
of `performMap` and `writeMapOutput`, in `performReduce`, or gone. -/
inductive Worker
  | asking
  | mapping (task : TaskResponse)
  | creating (task : TaskResponse) (kva : List KeyValue) (tempFiles : List Path)
  | encoding (task : TaskResponse) (kva : List KeyValue) (tempFiles : List Path)
  | publishing (task : TaskResponse) (i : ℕ) (tempFiles : List Path)
  | reducing (task : TaskResponse)
  | reading (task : TaskResponse) (files : List Path)
      (intermediate : AList fun _ : Bytes => List Bytes)
  | printing (task : TaskResponse) (outputFile : Path) (rest : List ((_ : Bytes) × List Bytes))
  | finished (task : TaskResponse)
  | exited

/-- The next call of a worker; `leave` is the end of a loop. The arguments are
what the source leaves open: the order of the pairs of `mapf`, the name of a
temporary file and the entry a range over a map visits next. -/
inductive Act
  | runMap (kva : List KeyValue)
  | create (suffix : Path)
  | encodeNext
  | renameNext
  | leave
  | globFiles
  | readNext
  | printNext (i : ℕ)

def Worker.pattern : Worker → Path
  | .creating .. => "intermediate-".toList
  | _ => "mr-out-".toList

/-- One call of a worker. A worker that cannot open a file, or whose index is
out of range, exits. -/
def perform (job : Job) (files : Directory) : Worker → Act → Option (Directory × Worker)
  | .mapping task, .runMap kva =>
    match files.lookup task.mapFile with
    | none => some (files, .exited)
    | some content =>
      if (kva : Multiset KeyValue) = job.mapf task.mapFile content then
        some (files, .creating task kva [])
      else none
  | .creating task kva tempFiles, .create suffix =>
    let name := tempFile "intermediate-".toList suffix
    if tempFiles.length < task.nReduce ∧ name ∉ files then
      some (files.insert name [], .creating task kva (tempFiles ++ [name]))
    else none
  | .creating task kva tempFiles, .leave =>
    if tempFiles.length = task.nReduce then some (files, .encoding task kva tempFiles) else none
  | .encoding task (kv :: kva) tempFiles, .encodeNext =>
    match tempFiles[ihash kv.key % task.nReduce]? with
    | none => some (files, .exited)
    | some temp =>
      (files.lookup temp).map fun content =>
        (files.insert temp (content ++ job.encode kv), .encoding task kva tempFiles)
  | .encoding task [] tempFiles, .leave => some (files, .publishing task 0 tempFiles)
  | .publishing task i (temp :: tempFiles), .renameNext =>
    some (rename files temp (intermediateName task.taskID i), .publishing task (i + 1) tempFiles)
  | .publishing task _ [], .leave => some (files, .finished task)
  | .reducing task, .globFiles => some (files, .reading task (glob files task.taskID) ∅)
  | .reading task (path :: rest) intermediate, .readNext =>
    match files.lookup path with
    | none => some (files, .exited)
    | some content =>
      some (files, .reading task rest
        (collect KeyValue.key KeyValue.value intermediate (job.decode content)))
  | .reading task [] intermediate, .create suffix =>
    let name := tempFile "mr-out-".toList suffix
    if name ∉ files then some (files.insert name [], .printing task name intermediate.entries)
    else none
  | .printing task outputFile rest, .printNext i => do
    let entry ← rest[i]?
    let content ← files.lookup outputFile
    some (files.insert outputFile (content ++ job.line entry.1 entry.2),
      .printing task outputFile (rest.eraseIdx i))
  | .printing task outputFile [], .renameNext =>
    some (rename files outputFile (outName task.taskID), .finished task)
  | _, _ => none

def received (reply : TaskResponse) : Worker :=
  match reply.taskType with
  | .mapTask => .mapping reply
  | .reduceTask => .reducing reply
  | .exitTask => .exited
  | .noTask => .asking

def reportTaskDone (workerID : ℤ) (taskType : TaskType) (nReduce taskID : ℕ) : TaskCompletion where
  workerID := workerID
  taskType := taskType
  taskID := taskID
  outputFiles :=
    if taskType = .mapTask then (List.range nReduce).map (intermediateName taskID) else []

structure Assignment where
  type : TaskType
  index : ℕ
  workerID : ℤ
  deriving DecidableEq

/-- The job as it runs. `waits` are the goroutines of `waitTask` still asleep,
each named by the position in `assignments` of the assignment that started it;
`assignments` is read for that only. Workers are named by their process id,
which a later process may get again. `reports` are the calls of
`NotifyTaskCompletion` on their way; the caller may be gone by the time one is
handled. -/
structure System where
  coordinator : Coordinator
  assignments : List Assignment
  waits : List ℕ
  workers : ℤ → Worker
  reports : List TaskCompletion
  files : Directory

def init (job : Job) (start : Directory) : System where
  coordinator := makeCoordinator job.files job.nReduce
  assignments := []
  waits := []
  workers := fun _ => .exited
  reports := []
  files := start

inductive Action
  | start (pid : ℤ)
  | request (pid : ℤ)
  | requestLost (pid : ℤ)
  | expire (k : ℕ)
  | work (pid : ℤ) (act : Act)
  | report (pid : ℤ)
  | handle (i : ℕ)
  | lose (i : ℕ)
  | crash (pid : ℤ)

def System.setWorker (sys : System) (pid : ℤ) (worker : Worker) : System :=
  { sys with workers := Function.update sys.workers pid worker }

def System.handOut (sys : System) (pid : ℤ) (handed : Handed) : System :=
  match handed.wait with
  | none => { sys with coordinator := handed.coordinator }
  | some (type, index) =>
    { sys with
      coordinator := handed.coordinator
      assignments := sys.assignments ++ [⟨type, index, pid⟩]
      waits := sys.waits ++ [sys.assignments.length] }

def step (job : Job) (sys : System) : Action → Option System
  | .start pid =>
    match sys.workers pid with
    | .exited => some (sys.setWorker pid .asking)
    | _ => none
  | .request pid =>
    match sys.workers pid with
    | .asking =>
      (requestTask sys.coordinator pid).map fun handed =>
        (sys.handOut pid handed).setWorker pid (received handed.reply)
    | _ => none
  | .requestLost pid => (requestTask sys.coordinator pid).map (sys.handOut pid)
  | .expire k =>
    if k ∈ sys.waits then
      sys.assignments[k]?.map fun assigned =>
        { sys with
          coordinator := waitTask sys.coordinator assigned.type assigned.index
          waits := sys.waits.erase k }
    else none
  | .work pid act =>
    (perform job sys.files (sys.workers pid) act).map fun done =>
      { sys.setWorker pid done.2 with files := done.1 }
  | .report pid =>
    match sys.workers pid with
    | .finished task =>
      some { sys.setWorker pid .asking with
        reports := sys.reports ++ [reportTaskDone pid task.taskType task.nReduce task.taskID] }
    | _ => none
  | .handle i => do
    let args ← sys.reports[i]?
    let c ← notifyTaskCompletion sys.coordinator args
    some { sys with coordinator := c, reports := sys.reports.eraseIdx i }
  | .lose i =>
    if i < sys.reports.length then some { sys with reports := sys.reports.eraseIdx i } else none
  | .crash pid => some (sys.setWorker pid .exited)

/-- No temporary file gets a name that a reduce task would read. -/
def SafeTemp (job : Job) (sys : System) : Action → Prop
  | .work pid (.create suffix) =>
    ∀ r < job.nReduce, globs r (tempFile (sys.workers pid).pattern suffix) = false
  | _ => True

instance (job : Job) (sys : System) : (action : Action) → Decidable (SafeTemp job sys action)
  | .work _ (.create _) => Nat.decidableBallLT _ _
  | .work _ (.runMap _) | .work _ .encodeNext | .work _ .renameNext | .work _ .leave
  | .work _ .globFiles | .work _ .readNext | .work _ (.printNext _) => isTrue trivial
  | .start _ | .request _ | .requestLost _ | .expire _ | .report _ | .handle _ | .lose _
  | .crash _ => isTrue trivial

/-- The input files in the directory that the job begins in: they hold what the
job says, none of them has the name of an output file, and none that is missing
belongs into the directory of temporary files. -/
structure Inputs (job : Job) (start : Directory) : Prop where
  held : ∀ file ∈ job.files, start.lookup file = job.input file
  apart : ∀ file ∈ job.files, ∀ r < job.nReduce, file ≠ outName r
  missing : ∀ file ∈ job.files, job.input file = none → ¬ "temp/".toList <+: file

def Reaches (job : Job) (start : Directory) (ok : System → Action → Prop) (sys : System) : Prop :=
  Run (step job) ok (init job start) sys

end DistributedLabs.MrWorker
