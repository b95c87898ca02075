import DistributedLabs.MrAgreement
import DistributedLabs.MrBuckets

/-! A job in a directory that already has files. The coordinator collects the
names that accepted map reports list; a worker that reduces looks for names by a
pattern instead. Here only names count, not contents: which files are there,
which the coordinator lists and which a worker is told to read. -/

namespace DistributedLabs.MrLeftovers
open GuardedRuns MrCoordinator MrTasks MrWorker MrMoves MrFiles
open MrProgress hiding Effect performed_effect
open MrSchedule hiding init step handOut_coordinator
open MrBuckets (recordFiles_names)
open MrAgreement (ascii letterFiles mapScript twoFiles)

def Listed (n : ℕ) (c : Coordinator) : Prop :=
  ∀ r < n, ∀ path, path ∈ c.intermediateFiles[r]?.getD [] ↔
    ∃ m, Completed c .mapTask m ∧ path = intermediateName m r

section Lists
variable {files : List Path} {n : ℕ} {c c' : Coordinator}

theorem listed_init : Listed n (makeCoordinator files n) := by
  intro r bound path
  have empty : (makeCoordinator files n).intermediateFiles[r]?.getD [] = [] := by
    simp [makeCoordinator, bound]
  simp [empty, not_completed_init]

theorem Listed.same (h : Listed n c) (lists : c'.intermediateFiles = c.intermediateFiles)
    (completed : ∀ m, Completed c' .mapTask m ↔ Completed c .mapTask m) : Listed n c' := by
  intro r bound path
  simp only [lists, completed]
  exact h r bound path

theorem Listed.requested (h : Listed n c) (kept : Kept files n c) {workerID : ℤ}
    {handed : Handed} (requested : Requested c workerID handed) :
    Listed n handed.coordinator :=
  h.same (requested_lists requested) fun _ => kept.completed_requested requested

theorem Listed.waitTask (h : Listed n c) (kind : TaskType) (j : ℕ) :
    Listed n (waitTask c kind j) :=
  h.same (waitTask_lists c kind j) fun _ => completed_waitTask

theorem Listed.notified (h : Listed n c) {args : TaskCompletion}
    (built : args.taskType = .mapTask →
      args.outputFiles = (List.range n).map (intermediateName args.taskID))
    (notified : Notified c args c') : Listed n c' := by
  cases notified with
  | ignored => exact h
  | reduce task kind found owned =>
    refine h.same rfl fun m => ?_
    change Completed (c.setReduce args.taskID task.complete) .mapTask m ↔ _
    rw [Completed, Completed, tasksOf_setReduce found]
    simp
  | map task lists kind found owned listed =>
    intro r bound path
    have finished (m : ℕ) : Completed (c.setMap args.taskID task.complete) .mapTask m ↔
        m = args.taskID ∨ Completed c .mapTask m := by
      rw [Completed, Completed, tasksOf_setMap found]
      by_cases same : m = args.taskID <;> simp [same, Task.complete]
    rw [built kind] at listed
    obtain ⟨held, before, after⟩ :=
      (recordFiles_names List.nodup_range listed r).1 (List.mem_range.mpr bound)
    have old := h r bound path
    rw [before, Option.getD_some] at old
    change path ∈ lists[r]?.getD [] ↔
      ∃ m, Completed (c.setMap args.taskID task.complete) .mapTask m ∧ _
    rw [after, Option.getD_some, List.mem_append, List.mem_singleton, old]
    constructor
    · rintro (⟨m, done, same⟩ | here)
      · exact ⟨m, (finished m).mpr (.inr done), same⟩
      · exact ⟨args.taskID, (finished _).mpr (.inl rfl), here⟩
    · rintro ⟨m, completed, same⟩
      rcases (finished m).mp completed with here | done
      · rw [here] at same
        exact .inr same
      · exact .inl ⟨m, done, same⟩

end Lists

section Facts
variable (job : Job)

structure Open (files : Directory) (temps : List Path) : Prop where
  distinct : temps.Nodup
  present : ∀ temp ∈ temps, temp ∈ files

def Filed (files : Directory) (type : TaskType) (i : ℕ) : Prop :=
  type = .mapTask → ∀ r < job.nReduce, intermediateName i r ∈ files

/-- A reduce task as handed out: the reply lists the files of all map tasks,
and they are there. -/
structure Assigned (files : Directory) (task : TaskResponse) : Prop where
  type : task.taskType = .reduceTask
  bound : task.taskID < job.nReduce
  listed : ∀ path, path ∈ task.reduceFiles ↔
    ∃ m < job.files.length, path = intermediateName m task.taskID
  present : ∀ m < job.files.length, intermediateName m task.taskID ∈ files

def Holds (files : Directory) : Worker → Prop
  | .mapping task => MapReply job task
  | .creating task _ temps => MapReply job task ∧ Open files temps
  | .encoding task _ temps => MapReply job task ∧ Open files temps ∧ temps.length = job.nReduce
  | .publishing task i temps => MapReply job task ∧ Open files temps ∧
      i + temps.length = job.nReduce ∧ ∀ r < i, intermediateName task.taskID r ∈ files
  | .reducing task => Assigned job files task
  | .reading task _ _ => task.taskType = .reduceTask
  | .printing task outputFile _ => task.taskType = .reduceTask ∧ outputFile ∈ files
  | .finished task => Filed job files task.taskType task.taskID ∧
      (task.taskType = .mapTask → task.nReduce = job.nReduce)
  | _ => True

/-- What a call does to names: its worker's temporary files may go, and what
comes is a temporary file, a file of a map task or an output. -/
structure Effect (files : Directory) (worker : Worker) (files' : Directory)
    (worker' : Worker) : Prop where
  holds : Holds job files' worker'
  stays : ∀ path ∈ files, path ∉ tempsOf worker → path ∈ files'
  comes : ∀ path ∈ files', path ∈ files ∨ Scratch job.nReduce path ∨
    (∃ m < job.files.length, ∃ r, path = intermediateName m r) ∨ ∃ r, path = outName r
  temps : ∀ temp ∈ tempsOf worker', temp ∈ tempsOf worker ∨
    (temp ∉ files ∧ Scratch job.nReduce temp)

end Facts

section Calls
variable {job : Job} {files files' : Directory} {worker worker' : Worker}

theorem Open.frame {temps : List Path} (h : Open files temps)
    (stays : ∀ path ∈ temps, path ∈ files → path ∈ files') : Open files' temps :=
  ⟨h.distinct, fun temp member => stays temp member (h.present temp member)⟩

theorem Holds.frame (h : Holds job files worker)
    (own : ∀ temp ∈ tempsOf worker, temp ∈ files → temp ∈ files')
    (published : ∀ m, ∀ r < job.nReduce, intermediateName m r ∈ files →
      intermediateName m r ∈ files') : Holds job files' worker := by
  cases worker with
  | asking => trivial
  | mapping task => exact h
  | creating task kva temps => exact ⟨h.1, h.2.frame own⟩
  | encoding task kva temps => exact ⟨h.1, h.2.1.frame own, h.2.2⟩
  | publishing task i temps =>
    have ⟨reply, opened, size, done⟩ := h
    refine ⟨reply, opened.frame own, size, fun r below => ?_⟩
    exact published _ r (by omega) (done r below)
  | reducing task =>
    have assigned : Assigned job files task := h
    exact { assigned with
      present := fun m bound => published m _ assigned.bound (assigned.present m bound) }
  | reading task paths intermediate => exact h
  | printing task outputFile rest => exact ⟨h.1, own _ (List.mem_singleton_self _) h.2⟩
  | finished task =>
    exact ⟨fun kind r bound => published _ r bound (h.1 kind r bound), h.2⟩
  | exited => trivial

theorem Holds.present (h : Holds job files worker) {temp : Path}
    (member : temp ∈ tempsOf worker) : temp ∈ files := by
  cases worker with
  | creating task kva temps => exact h.2.present temp member
  | encoding task kva temps => exact h.2.1.present temp member
  | publishing task i temps => exact h.2.1.present temp member
  | printing task outputFile rest =>
    rw [List.mem_singleton.mp member]
    exact h.2
  | _ => simp [tempsOf] at member

theorem insert_mem {name path : Path} {content : Bytes} (member : path ∈ files) :
    path ∈ files.insert name content :=
  (AList.mem_insert files).mpr (.inr member)

theorem mem_rename_self {old new : Path} (present : old ∈ files) :
    new ∈ rename files old new := by
  have ⟨content, found⟩ := Option.isSome_iff_exists.mp (AList.lookup_isSome.mpr present)
  refine AList.lookup_isSome.mp ?_
  rw [lookup_rename found, if_pos rfl]
  rfl

theorem mem_rename_other {old new path : Path} (present : old ∈ files) (member : path ∈ files)
    (apart : path ≠ old) : path ∈ rename files old new := by
  have ⟨content, found⟩ := Option.isSome_iff_exists.mp (AList.lookup_isSome.mpr present)
  refine AList.lookup_isSome.mp ?_
  rw [lookup_rename found, if_neg apart]
  split
  · rfl
  · exact AList.lookup_isSome.mpr member

theorem rename_mem {old new path : Path} (present : old ∈ files)
    (member : path ∈ rename files old new) : path = new ∨ path ∈ files := by
  have ⟨content, found⟩ := Option.isSome_iff_exists.mp (AList.lookup_isSome.mpr present)
  exact mem_rename found member

theorem Effect.same (holds : Holds job files worker')
    (temps : tempsOf worker' ⊆ tempsOf worker) : Effect job files worker files worker' where
  holds := holds
  stays _ member _ := member
  comes _ member := .inl member
  temps _ member := .inl (temps member)

theorem Effect.insert {name : Path} {content : Bytes} (free : Scratch job.nReduce name)
    (holds : Holds job (files.insert name content) worker')
    (temps : ∀ temp ∈ tempsOf worker', temp ∈ tempsOf worker ∨ (temp = name ∧ name ∉ files)) :
    Effect job files worker (files.insert name content) worker' where
  holds := holds
  stays _ member _ := insert_mem member
  comes path member := by
    rcases (AList.mem_insert files).mp member with same | before
    · rw [same]
      exact .inr (.inl free)
    · exact .inl before
  temps temp member := by
    rcases temps temp member with before | ⟨same, fresh⟩
    · exact .inl before
    · rw [same]
      exact .inr ⟨fresh, free⟩

theorem Effect.rename {temp new : Path} (mine : temp ∈ tempsOf worker) (present : temp ∈ files)
    (target : (∃ m < job.files.length, ∃ r, new = intermediateName m r) ∨ ∃ r, new = outName r)
    (holds : Holds job (rename files temp new) worker')
    (temps : tempsOf worker' ⊆ tempsOf worker) :
    Effect job files worker (MrWorker.rename files temp new) worker' where
  holds := holds
  stays path member away := by
    refine mem_rename_other present member ?_
    rintro rfl
    exact away mine
  comes path member := by
    rcases rename_mem present member with same | before
    · rw [same]
      exact .inr (.inr target)
    · exact .inl before
  temps _ member := .inl (temps member)

theorem performed_names {act : Act} (holds : Holds job files worker)
    (scratch : ∀ temp ∈ tempsOf worker, Scratch job.nReduce temp)
    (safe : ∀ suffix, act = .create suffix →
      ∀ r < job.nReduce, globs r (tempFile worker.pattern suffix) = false)
    (taken : Performed job files worker act files' worker') :
    Effect job files worker files' worker' := by
  cases taken with
  | exits => exact .same trivial (List.nil_subset _)
  | runMap task kva content opened produced =>
    exact .same ⟨holds, List.nodup_nil, by simp⟩ (List.nil_subset _)
  | createTemp task kva temps suffix fresh =>
    have free : Scratch job.nReduce (tempFile "intermediate-".toList suffix) :=
      ⟨List.prefix_append _ _, safe suffix rfl⟩
    have ⟨reply, opened⟩ := holds
    refine .insert free ⟨reply, ?_, ?_⟩ fun temp member => ?_
    · refine List.nodup_append.mpr ⟨opened.distinct, List.nodup_singleton _, ?_⟩
      intro temp member other new same
      rw [same, List.mem_singleton.mp new] at member
      exact fresh (opened.present _ member)
    · intro temp member
      rcases List.mem_append.mp member with before | new
      · exact insert_mem (opened.present temp before)
      · rw [List.mem_singleton.mp new]
        exact (AList.mem_insert files).mpr (.inl rfl)
    · rcases List.mem_append.mp member with before | new
      · exact .inl before
      · exact .inr ⟨List.mem_singleton.mp new, fresh⟩
  | created task kva temps all =>
    have ⟨reply, opened⟩ := holds
    exact .same ⟨reply, opened, all.trans reply.buckets⟩ (List.Subset.refl _)
  | encode task kv kva temps temp content chosen held =>
    have ⟨reply, opened, size⟩ := holds
    have member : temp ∈ temps := List.mem_of_getElem? chosen
    exact .insert (scratch temp member)
      ⟨reply, opened.frame fun _ _ => insert_mem, size⟩ fun _ => .inl
  | encoded task temps =>
    have ⟨reply, opened, size⟩ := holds
    exact .same ⟨reply, opened, by omega, fun r below => absurd below (Nat.not_lt_zero r)⟩
      (List.Subset.refl _)
  | publish task i temp temps =>
    have ⟨reply, opened, size, done⟩ := holds
    rw [List.length_cons] at size
    have ⟨apart, distinct⟩ := List.nodup_cons.mp opened.distinct
    have present := opened.present temp List.mem_cons_self
    have inside := (List.getElem?_eq_some_iff.mp reply.file).1
    have free := scratch temp List.mem_cons_self
    refine .rename List.mem_cons_self present (.inl ⟨_, inside, i, rfl⟩)
      ⟨reply, ⟨distinct, fun other member => ?_⟩, by omega, fun r below => ?_⟩
      (List.subset_cons_self _ _)
    · refine mem_rename_other present (opened.present other (List.mem_cons_of_mem _ member)) ?_
      rintro rfl
      exact apart member
    · rcases Nat.lt_succ_iff_lt_or_eq.mp below with before | last
      · exact mem_rename_other present (done r before)
          (free.ne_intermediateName _ (by omega)).symm
      · rw [last]
        exact mem_rename_self present
  | published task i =>
    have ⟨reply, _, size, done⟩ := holds
    refine .same ⟨fun _ r bound => done r ?_, fun _ => reply.buckets⟩ (List.nil_subset _)
    simpa [← size] using bound
  | globFiles task =>
    have assigned : Assigned job files task := holds
    exact .same assigned.type (List.nil_subset _)
  | read task path rest intermediate content held => exact .same holds (List.nil_subset _)
  | createOutput task intermediate suffix fresh =>
    have free : Scratch job.nReduce (tempFile "mr-out-".toList suffix) :=
      ⟨List.prefix_append _ _, safe suffix rfl⟩
    exact .insert free ⟨holds, (AList.mem_insert files).mpr (.inl rfl)⟩
      fun temp member => .inr ⟨List.mem_singleton.mp member, fresh⟩
  | print task outputFile rest i entry content visited held =>
    have free := scratch outputFile (List.mem_singleton_self _)
    exact .insert free ⟨holds.1, insert_mem holds.2⟩ fun _ => .inl
  | publishOutput task outputFile =>
    refine .rename (List.mem_singleton_self _) holds.2 (.inr ⟨_, rfl⟩) ⟨?_, ?_⟩
      (List.nil_subset _)
    · intro kind
      rw [holds.1] at kind
      cases kind
    · intro kind
      rw [holds.1] at kind
      cases kind

end Calls

/-- What holds along a job that starts in any directory. -/
structure Named (job : Job) (start : Directory) (sys : System) : Prop where
  kept : Kept job.files job.nReduce sys.coordinator
  listed : Listed job.nReduce sys.coordinator
  holds : ∀ pid, Holds job sys.files (sys.workers pid)
  scratch : ∀ pid, ∀ temp ∈ tempsOf (sys.workers pid), Scratch job.nReduce temp ∧ temp ∉ start
  apart : ∀ pid other, pid ≠ other → ∀ temp ∈ tempsOf (sys.workers pid),
    temp ∉ tempsOf (sys.workers other)
  reported : ∀ args ∈ sys.reports, Filed job sys.files args.taskType args.taskID ∧
    (args.taskType = .mapTask →
      args.outputFiles = (List.range job.nReduce).map (intermediateName args.taskID))
  completed : ∀ m, Completed sys.coordinator .mapTask m → Filed job sys.files .mapTask m
  stays : ∀ path ∈ start, path ∈ sys.files
  comes : ∀ path ∈ sys.files, ∀ r < job.nReduce, globs r path = true →
    path ∈ start ∨ ∃ m < job.files.length, path = intermediateName m r

section Keep
variable {job : Job} {start : Directory} {sys sys' : System}

theorem Named.setWorker (h : Named job start sys) (pid : ℤ) {worker : Worker}
    (holds : Holds job sys.files worker) (closed : tempsOf worker = []) :
    Named job start (sys.setWorker pid worker) where
  kept := h.kept
  listed := h.listed
  holds other := by
    by_cases same : other = pid
    · simpa [System.setWorker, same] using holds
    · simpa [System.setWorker, same] using h.holds other
  scratch other temp member := by
    by_cases same : other = pid
    · simp [System.setWorker, same, closed] at member
    · simp only [System.setWorker, Function.update_of_ne same] at member
      exact h.scratch other temp member
  apart := temps_update h.apart fun _ _ temp member => by simp [closed] at member
  reported := h.reported
  completed := h.completed
  stays := h.stays
  comes := h.comes

theorem Named.handOut (h : Named job start sys) {pid : ℤ} {handed : Handed}
    (requested : Requested sys.coordinator pid handed) :
    Named job start (sys.handOut pid handed) where
  kept := by simpa using h.kept.requested requested
  listed := by simpa using h.listed.requested h.kept requested
  holds := by simpa using h.holds
  scratch := by simpa using h.scratch
  apart := by simpa using h.apart
  reported := by simpa using h.reported
  completed m finished := by
    simp only [MrAgreement.handOut_coordinator, MrAgreement.handOut_files] at finished ⊢
    exact h.completed m ((h.kept.completed_requested requested).mp finished)
  stays := by simpa using h.stays
  comes := by simpa using h.comes

theorem Named.received (h : Named job start sys) {pid : ℤ} {handed : Handed}
    (requested : Requested sys.coordinator pid handed) :
    Holds job sys.files (received handed.reply) := by
  have next := h.kept.nextPhase
  cases requested with
  | map i task phase found idle =>
    have ⟨id, file⟩ := next.maps.fitting i task found
    exact ⟨rfl, id ▸ file, next.nReduce⟩
  | reduce i task files phase found idle listed =>
    have id := next.reduces.fitting i task found
    have inside := (List.getElem?_eq_some_iff.mp found).1
    rw [next.reduces.length, ← id] at inside
    have all (m : ℕ) (bound : m < job.files.length) : Completed sys.coordinator .mapTask m :=
      h.kept.completed_nextPhase.mp (next.completed_map (by simp [phase]) bound)
    have lists := h.listed task.taskID inside
    rw [nextPhase_lists] at listed
    rw [listed, Option.getD_some] at lists
    refine ⟨rfl, inside, fun path => ?_, fun m bound => h.completed m (all m bound) rfl _ inside⟩
    rw [lists path]
    constructor
    · rintro ⟨m, ⟨_, present, _⟩, same⟩
      have bound := (List.getElem?_eq_some_iff.mp present).1
      exact ⟨m, h.kept.maps.length ▸ bound, same⟩
    · rintro ⟨m, bound, same⟩
      exact ⟨m, all m bound, same⟩
  | wait phase => trivial
  | exit phase => trivial

theorem Named.work (h : Named job start sys) {pid : ℤ} {files : Directory} {worker : Worker}
    (effect : Effect job sys.files (sys.workers pid) files worker) :
    Named job start { sys.setWorker pid worker with files := files } := by
  -- no name of a map task's file is a temporary file of this worker
  have published (m r : ℕ) (bound : r < job.nReduce)
      (present : intermediateName m r ∈ sys.files) : intermediateName m r ∈ files := by
    refine effect.stays _ present fun member => ?_
    exact (h.scratch pid _ member).1.ne_intermediateName m bound rfl
  have filed {type : TaskType} {i : ℕ} (before : Filed job sys.files type i) :
      Filed job files type i := fun kind r bound => published i r bound (before kind r bound)
  refine
    { kept := h.kept
      listed := h.listed
      holds := fun other => ?_
      scratch := fun other temp member => ?_
      apart := temps_update h.apart fun other away temp mine theirs => ?_
      reported := fun args member => ⟨filed (h.reported args member).1, (h.reported args member).2⟩
      completed := fun m finished => filed (h.completed m finished)
      stays := fun path member => effect.stays path (h.stays path member) fun mine =>
        (h.scratch pid path mine).2 member
      comes := fun path member r bound matched => ?_ }
  · by_cases same : other = pid
    · simpa [System.setWorker, same] using effect.holds
    · simp only [System.setWorker, Function.update_of_ne same]
      refine (h.holds other).frame (fun temp member present => ?_) published
      exact effect.stays temp present (h.apart other pid same temp member)
  · by_cases same : other = pid
    · simp only [System.setWorker, same, Function.update_self] at member
      rcases effect.temps temp member with before | ⟨fresh, free⟩
      · exact h.scratch pid temp before
      · exact ⟨free, fun old => fresh (h.stays temp old)⟩
    · simp only [System.setWorker, Function.update_of_ne same] at member
      exact h.scratch other temp member
  · rcases effect.temps temp mine with before | ⟨fresh, _⟩
    · exact h.apart other pid away temp theirs before
    · exact fresh ((h.holds other).present theirs)
  · rcases effect.comes path member with old | free | ⟨m, task, k, same⟩ | ⟨k, same⟩
    · exact h.comes path old r bound matched
    · exact absurd matched (by simp [free.2 r bound])
    · rw [same] at matched ⊢
      rw [(globs_intermediateName m k r).mp matched]
      exact .inr ⟨m, task, rfl⟩
    · rw [same, globs_outName] at matched
      cases matched

theorem Named.moved (h : Named job start sys) {action : Action} (safe : SafeTemp job sys action)
    (move : Moved job sys action sys') : Named job start sys' := by
  cases move with
  | start pid gone => exact h.setWorker pid trivial rfl
  | request pid handed asking requested =>
    refine (h.handOut requested).setWorker pid ?_ (MrAgreement.received_temps _)
    simpa using h.received requested
  | requestLost pid handed requested => exact h.handOut requested
  | expire k assigned asleep started =>
    exact { h with
      kept := h.kept.waitTask _ _
      listed := h.listed.waitTask _ _
      completed := fun m finished => h.completed m (completed_waitTask.mp finished) }
  | work pid act files worker performed =>
    refine h.work (performed_names (h.holds pid) (fun temp member => (h.scratch pid temp member).1)
      ?_ performed)
    intro suffix same
    rw [same] at safe
    exact safe
  | report pid task finished =>
    have done := h.holds pid
    rw [finished] at done
    have idle : Named job start (sys.setWorker pid .asking) := h.setWorker pid trivial rfl
    refine { idle with reported := fun args member => ?_ }
    rcases List.mem_append.mp member with before | new
    · exact h.reported args before
    · rw [List.mem_singleton.mp new]
      refine ⟨done.1, fun kind => ?_⟩
      have map : task.taskType = .mapTask := kind
      simp only [reportTaskDone, map, if_true, done.2 map]
  | handle i args c sent notified =>
    obtain ⟨filed, built⟩ := h.reported args (List.mem_of_getElem? sent)
    refine { h with
      kept := h.kept.notified notified
      listed := h.listed.notified built notified
      reported := fun other member => h.reported other (List.mem_of_mem_eraseIdx member)
      completed := fun m finished => ?_ }
    rcases (completed_notified notified).mp finished with before | ⟨kind, same, _⟩
    · exact h.completed m before
    · rw [kind, same] at filed
      exact filed
  | lose i =>
    exact { h with
      reported := fun args member => h.reported args (List.mem_of_mem_eraseIdx member) }
  | crash pid => exact h.setWorker pid trivial rfl

theorem named_init (job : Job) (start : Directory) : Named job start (init job start) where
  kept := kept_makeCoordinator job.files job.nReduce
  listed := listed_init
  holds _ := trivial
  scratch _ _ member := absurd member List.not_mem_nil
  apart _ _ _ _ member := absurd member List.not_mem_nil
  reported _ member := absurd member List.not_mem_nil
  completed m finished := absurd finished (not_completed_init _ _ .mapTask m)
  stays _ member := member
  comes _ member _ _ _ := .inl member

theorem reaches_named (run : Reaches job start (SafeTemp job) sys) : Named job start sys :=
  run.invariant (Named job start) (fun h safe taken => h.moved safe (step_moved taken))
    (named_init job start)

end Keep

/-- A worker about to reduce finds exactly the files it was told to read if, and
only if, the job started without a foreign file that its pattern matches. -/
theorem reduce_reads_own {job : Job} {start : Directory} {sys : System}
    (run : Reaches job start (SafeTemp job) sys) {pid : ℤ} {task : TaskResponse}
    (reducing : sys.workers pid = .reducing task) :
    (∀ path, path ∈ glob sys.files task.taskID ↔ path ∈ task.reduceFiles) ↔
      ∀ path ∈ start, globs task.taskID path = true →
        ∃ m < job.files.length, path = intermediateName m task.taskID := by
  have named := reaches_named run
  have assigned : Assigned job sys.files task := by
    have held := named.holds pid
    rw [reducing] at held
    exact held
  constructor
  · intro same path member matched
    exact (assigned.listed path).mp ((same path).mp
      (mem_glob.mpr ⟨named.stays path member, matched⟩))
  · intro own path
    rw [mem_glob, assigned.listed]
    constructor
    · rintro ⟨member, matched⟩
      rcases named.comes path member task.taskID assigned.bound matched with old | mine
      · exact own path old matched
      · exact mine
    · rintro ⟨m, bound, same⟩
      rw [same]
      exact ⟨assigned.present m bound, (globs_intermediateName m _ _).mpr rfl⟩

def untilReduce : List Action :=
  List.flatten [[.start 2, .request 2],
    mapScript 2 [⟨ascii "x", ascii "1"⟩, ⟨ascii "y", ascii "1"⟩] ['0'] ['1'], [.request 2],
    mapScript 2 [⟨ascii "x", ascii "1"⟩] ['2'] ['3'], [.request 2]]

def reduceTask : Worker → Option TaskResponse
  | .reducing task => some task
  | _ => none

theorem reduceTask_some {worker : Worker} {task : TaskResponse}
    (reducing : reduceTask worker = some task) : worker = .reducing task := by
  cases worker with
  | reducing other => rw [Option.some.inj reducing]
  | _ => cases reducing

theorem reduce_reads_own_fresh : ∃ (sys : System) (task : TaskResponse),
    Reaches twoFiles letterFiles (SafeTemp twoFiles) sys ∧ sys.workers 2 = .reducing task ∧
      ∀ path, path ∈ glob sys.files task.taskID ↔ path ∈ task.reduceFiles := by
  obtain ⟨sys, run, seen⟩ := exec_test (step twoFiles) (SafeTemp twoFiles)
    (init twoFiles letterFiles) untilReduce (fun sys => (reduceTask (sys.workers 2)).isSome)
    (by decide +kernel)
  obtain ⟨task, found⟩ := Option.isSome_iff_exists.mp seen
  have reducing := reduceTask_some found
  have others : ∀ path ∈ letterFiles, ¬ "temp/mr-".toList <+: path := by decide
  exact ⟨sys, task, run, reducing, (reduce_reads_own run reducing).mpr fun path member matched =>
    absurd (globs_head matched) (others path member)⟩

/-- An earlier job with more inputs has left the file of its eighth map task,
which the worker finds and was not told to read. -/
theorem reduce_reads_foreign : ¬ ∀ (start : Directory) (sys : System) (pid : ℤ)
    (task : TaskResponse), Reaches twoFiles start (SafeTemp twoFiles) sys →
      sys.workers pid = .reducing task →
        ∀ path, path ∈ glob sys.files task.taskID ↔ path ∈ task.reduceFiles := by
  obtain ⟨sys, run, seen⟩ := exec_test (step twoFiles) (SafeTemp twoFiles)
    (init twoFiles (letterFiles.insert (intermediateName 7 0) [])) untilReduce
    (fun sys => (reduceTask (sys.workers 2)).map (fun task =>
      decide (intermediateName 7 0 ∈ glob sys.files task.taskID ∧
        intermediateName 7 0 ∉ task.reduceFiles)) = some true) (by decide +kernel)
  obtain ⟨task, found, both⟩ := Option.map_eq_some_iff.mp (of_decide_eq_true seen)
  obtain ⟨present, unlisted⟩ := of_decide_eq_true both
  intro same
  exact unlisted ((same _ sys 2 task run (reduceTask_some found) _).mp present)

end DistributedLabs.MrLeftovers
