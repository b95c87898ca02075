import DistributedLabs.MrTasks
import DistributedLabs.MrWorker

/-! What the steps of a job can do, said once: a call of a worker on the
directory, and an action of the whole system in terms of these calls and of the
coordinator's handlers. -/

namespace DistributedLabs.MrMoves
open Grouping MrCoordinator MrTasks MrWorker

inductive Performed (job : Job) (files : Directory) :
    Worker → Act → Directory → Worker → Prop
  | exits (worker : Worker) (act : Act) : Performed job files worker act files .exited
  | runMap (task : TaskResponse) (kva : List KeyValue) (content : Bytes)
      (opened : files.lookup task.mapFile = some content)
      (produced : (kva : Multiset KeyValue) = job.mapf task.mapFile content) :
      Performed job files (.mapping task) (.runMap kva) files (.creating task kva [])
  | createTemp (task : TaskResponse) (kva : List KeyValue) (tempFiles : List Path)
      (suffix : Path) (fresh : tempFile "intermediate-".toList suffix ∉ files) :
      Performed job files (.creating task kva tempFiles) (.create suffix)
        (files.insert (tempFile "intermediate-".toList suffix) [])
        (.creating task kva (tempFiles ++ [tempFile "intermediate-".toList suffix]))
  | created (task : TaskResponse) (kva : List KeyValue) (tempFiles : List Path)
      (all : tempFiles.length = task.nReduce) :
      Performed job files (.creating task kva tempFiles) .leave files
        (.encoding task kva tempFiles)
  | encode (task : TaskResponse) (kv : KeyValue) (kva : List KeyValue) (tempFiles : List Path)
      (temp : Path) (content : Bytes)
      (chosen : tempFiles[ihash kv.key % task.nReduce]? = some temp)
      (held : files.lookup temp = some content) :
      Performed job files (.encoding task (kv :: kva) tempFiles) .encodeNext
        (files.insert temp (content ++ job.encode kv)) (.encoding task kva tempFiles)
  | encoded (task : TaskResponse) (tempFiles : List Path) :
      Performed job files (.encoding task [] tempFiles) .leave files
        (.publishing task 0 tempFiles)
  | publish (task : TaskResponse) (i : ℕ) (temp : Path) (tempFiles : List Path) :
      Performed job files (.publishing task i (temp :: tempFiles)) .renameNext
        (rename files temp (intermediateName task.taskID i))
        (.publishing task (i + 1) tempFiles)
  | published (task : TaskResponse) (i : ℕ) :
      Performed job files (.publishing task i []) .leave files (.finished task)
  | globFiles (task : TaskResponse) :
      Performed job files (.reducing task) .globFiles files
        (.reading task (glob files task.taskID) ∅)
  | read (task : TaskResponse) (path : Path) (rest : List Path)
      (intermediate : AList fun _ : Bytes => List Bytes) (content : Bytes)
      (held : files.lookup path = some content) :
      Performed job files (.reading task (path :: rest) intermediate) .readNext files
        (.reading task rest
          (collect KeyValue.key KeyValue.value intermediate (job.decode content)))
  | createOutput (task : TaskResponse) (intermediate : AList fun _ : Bytes => List Bytes)
      (suffix : Path) (fresh : tempFile "mr-out-".toList suffix ∉ files) :
      Performed job files (.reading task [] intermediate) (.create suffix)
        (files.insert (tempFile "mr-out-".toList suffix) [])
        (.printing task (tempFile "mr-out-".toList suffix) intermediate.entries)
  | print (task : TaskResponse) (outputFile : Path) (rest : List ((_ : Bytes) × List Bytes))
      (i : ℕ) (entry : (_ : Bytes) × List Bytes) (content : Bytes)
      (visited : rest[i]? = some entry) (held : files.lookup outputFile = some content) :
      Performed job files (.printing task outputFile rest) (.printNext i)
        (files.insert outputFile (content ++ job.line entry.1 entry.2))
        (.printing task outputFile (rest.eraseIdx i))
  | publishOutput (task : TaskResponse) (outputFile : Path) :
      Performed job files (.printing task outputFile []) .renameNext
        (rename files outputFile (outName task.taskID)) (.finished task)

theorem perform_performed {job : Job} {files files' : Directory} {worker worker' : Worker}
    {act : Act} (taken : perform job files worker act = some (files', worker')) :
    Performed job files worker act files' worker' := by
  unfold perform at taken
  split at taken
  · rename_i task kva
    cases opened : files.lookup task.mapFile with
    | none =>
      obtain ⟨rfl, rfl⟩ : files = files' ∧ _ = worker' := by simpa [opened] using taken
      exact .exits _ _
    | some content =>
      simp only [opened, Option.ite_none_right_eq_some, Option.some.injEq, Prod.mk.injEq] at taken
      obtain ⟨produced, rfl, rfl⟩ := taken
      exact .runMap task kva content opened produced
  · rename_i task kva tempFiles suffix
    simp only [Option.ite_none_right_eq_some, Option.some.injEq, Prod.mk.injEq] at taken
    obtain ⟨⟨-, fresh⟩, rfl, rfl⟩ := taken
    exact .createTemp task kva tempFiles suffix fresh
  · rename_i task kva tempFiles
    simp only [Option.ite_none_right_eq_some, Option.some.injEq, Prod.mk.injEq] at taken
    obtain ⟨all, rfl, rfl⟩ := taken
    exact .created task kva tempFiles all
  · rename_i task kv kva tempFiles
    split at taken
    · obtain ⟨rfl, rfl⟩ : files = files' ∧ _ = worker' := by simpa using taken
      exact .exits _ _
    · rename_i temp chosen
      obtain ⟨content, held, pair⟩ := Option.map_eq_some_iff.mp taken
      obtain ⟨rfl, rfl⟩ := Prod.mk.inj pair
      exact .encode task kv kva tempFiles temp content chosen held
  · obtain ⟨rfl, rfl⟩ := Prod.mk.inj (Option.some.inj taken)
    exact .encoded _ _
  · obtain ⟨rfl, rfl⟩ := Prod.mk.inj (Option.some.inj taken)
    exact .publish _ _ _ _
  · obtain ⟨rfl, rfl⟩ := Prod.mk.inj (Option.some.inj taken)
    exact .published _ _
  · obtain ⟨rfl, rfl⟩ := Prod.mk.inj (Option.some.inj taken)
    exact .globFiles _
  · rename_i task path rest intermediate
    split at taken
    · obtain ⟨rfl, rfl⟩ : files = files' ∧ _ = worker' := by simpa using taken
      exact .exits _ _
    · rename_i content held
      obtain ⟨rfl, rfl⟩ := Prod.mk.inj (Option.some.inj taken)
      exact .read task path rest intermediate content held
  · rename_i task intermediate suffix
    simp only [Option.ite_none_right_eq_some, Option.some.injEq, Prod.mk.injEq] at taken
    obtain ⟨fresh, rfl, rfl⟩ := taken
    exact .createOutput task intermediate suffix fresh
  · rename_i task outputFile rest i
    obtain ⟨entry, visited, more⟩ := Option.bind_eq_some_iff.mp taken
    obtain ⟨content, held, pair⟩ := Option.bind_eq_some_iff.mp more
    obtain ⟨rfl, rfl⟩ := Prod.mk.inj (Option.some.inj pair)
    exact .print task outputFile rest i entry content visited held
  · obtain ⟨rfl, rfl⟩ := Prod.mk.inj (Option.some.inj taken)
    exact .publishOutput _ _
  · simp at taken

/-- What an action can do to the system. -/
inductive Moved (job : Job) (sys : System) : Action → System → Prop
  | start (pid : ℤ) (gone : sys.workers pid = .exited) :
      Moved job sys (.start pid) (sys.setWorker pid .asking)
  | request (pid : ℤ) (handed : Handed) (asking : sys.workers pid = .asking)
      (requested : Requested sys.coordinator pid handed) :
      Moved job sys (.request pid)
        ((sys.handOut pid handed).setWorker pid (received handed.reply))
  | requestLost (pid : ℤ) (handed : Handed) (requested : Requested sys.coordinator pid handed) :
      Moved job sys (.requestLost pid) (sys.handOut pid handed)
  | expire (k : ℕ) (assigned : Assignment) (asleep : k ∈ sys.waits)
      (started : sys.assignments[k]? = some assigned) :
      Moved job sys (.expire k)
        { sys with
          coordinator := waitTask sys.coordinator assigned.type assigned.index
          waits := sys.waits.erase k }
  | work (pid : ℤ) (act : Act) (files : Directory) (worker : Worker)
      (performed : Performed job sys.files (sys.workers pid) act files worker) :
      Moved job sys (.work pid act) { sys.setWorker pid worker with files := files }
  | report (pid : ℤ) (task : TaskResponse) (finished : sys.workers pid = .finished task) :
      Moved job sys (.report pid)
        { sys.setWorker pid .asking with
          reports :=
            sys.reports ++ [reportTaskDone pid task.taskType task.nReduce task.taskID] }
  | handle (i : ℕ) (args : TaskCompletion) (c : Coordinator)
      (sent : sys.reports[i]? = some args) (notified : Notified sys.coordinator args c) :
      Moved job sys (.handle i)
        { sys with coordinator := c, reports := sys.reports.eraseIdx i }
  | lose (i : ℕ) : Moved job sys (.lose i) { sys with reports := sys.reports.eraseIdx i }
  | crash (pid : ℤ) : Moved job sys (.crash pid) (sys.setWorker pid .exited)

theorem step_moved {job : Job} {sys sys' : System} {action : Action}
    (taken : step job sys action = some sys') : Moved job sys action sys' := by
  cases action with
  | start pid =>
    simp only [step] at taken
    split at taken
    · rename_i gone
      obtain rfl := Option.some.inj taken
      exact .start pid gone
    · simp at taken
  | request pid =>
    simp only [step] at taken
    split at taken
    · rename_i asking
      obtain ⟨handed, requested, rfl⟩ := Option.map_eq_some_iff.mp taken
      exact .request pid handed asking (requestTask_requested requested)
    · simp at taken
  | requestLost pid =>
    obtain ⟨handed, requested, rfl⟩ := Option.map_eq_some_iff.mp taken
    exact .requestLost pid handed (requestTask_requested requested)
  | expire k =>
    simp only [step, Option.ite_none_right_eq_some] at taken
    obtain ⟨asleep, rest⟩ := taken
    obtain ⟨assigned, started, rfl⟩ := Option.map_eq_some_iff.mp rest
    exact .expire k assigned asleep started
  | work pid act =>
    obtain ⟨⟨files, worker⟩, performed, rfl⟩ := Option.map_eq_some_iff.mp taken
    exact .work pid act files worker (perform_performed performed)
  | report pid =>
    simp only [step] at taken
    split at taken
    · rename_i task finished
      obtain rfl := Option.some.inj taken
      exact .report pid task finished
    · simp at taken
  | handle i =>
    obtain ⟨args, sent, rest⟩ := Option.bind_eq_some_iff.mp taken
    obtain ⟨c, notified, same⟩ := Option.bind_eq_some_iff.mp rest
    obtain rfl := Option.some.inj same
    exact .handle i args c sent (notifyTaskCompletion_notified notified)
  | lose i =>
    simp only [step, Option.ite_none_right_eq_some, Option.some.injEq] at taken
    obtain ⟨-, rfl⟩ := taken
    exact .lose i
  | crash pid =>
    obtain rfl := Option.some.inj taken
    exact .crash pid

end DistributedLabs.MrMoves
