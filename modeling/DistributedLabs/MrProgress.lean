import DistributedLabs.MrFiles
import DistributedLabs.MrMoves

/-! What a worker knows at each point of its program, and that each of its calls
keeps it, for this worker and for the others: a worker changes its own temporary
files and publishes, nothing else. -/

namespace DistributedLabs.MrProgress
open Grouping MrCoordinator MrWorker MrMoves MrSequential MrFiles

def tempsOf : Worker → List Path
  | .creating _ _ tempFiles => tempFiles
  | .encoding _ _ tempFiles => tempFiles
  | .publishing _ _ tempFiles => tempFiles
  | .printing _ outputFile _ => [outputFile]
  | _ => []

theorem temps_update {workers : ℤ → Worker} {pid : ℤ} {worker : Worker}
    (apart : ∀ first second, first ≠ second → ∀ temp ∈ tempsOf (workers first),
      temp ∉ tempsOf (workers second))
    (clash : ∀ other, other ≠ pid → ∀ temp ∈ tempsOf worker, temp ∉ tempsOf (workers other))
    (first second : ℤ) (different : first ≠ second) :
    ∀ temp ∈ tempsOf (Function.update workers pid worker first),
      temp ∉ tempsOf (Function.update workers pid worker second) := by
  intro temp member inside
  by_cases here : first = pid
  · subst here
    rw [Function.update_self] at member
    rw [Function.update_of_ne different.symm] at inside
    exact clash second different.symm temp member inside
  · rw [Function.update_of_ne here] at member
    by_cases there : second = pid
    · subst there
      rw [Function.update_self] at inside
      exact clash first here temp inside member
    · rw [Function.update_of_ne there] at inside
      exact apart first second different temp member inside

section Facts
variable (job : Job)

structure MapReply (task : TaskResponse) : Prop where
  type : task.taskType = .mapTask
  file : job.files[task.taskID]? = some task.mapFile
  buckets : task.nReduce = job.nReduce

structure ReduceReply (files : Directory) (task : TaskResponse) : Prop where
  type : task.taskType = .reduceTask
  bound : task.taskID < job.nReduce
  ready : ∀ m < job.files.length, Published job files m task.taskID

/-- `writeMapOutput` has encoded `written` and not yet `kva`; its open files are
those of the buckets from `i` on. -/
structure Writing (files : Directory) (task : TaskResponse) (written kva : List KeyValue) (i : ℕ)
    (tempFiles : List Path) : Prop where
  reply : MapReply job task
  readable : Readable job task.taskID
  pairs : ((written ++ kva : List KeyValue) : Multiset KeyValue) = mapped job task.taskID
  distinct : tempFiles.Nodup
  held : ∀ k temp, tempFiles[k]? = some temp → files.lookup temp =
    some ((written.filter fun kv => ihash kv.key % job.nReduce = i + k).flatMap job.encode)

/-- `performReduce` has read the files of the map tasks `read` and not yet of `unread`. -/
structure Reading (r : ℕ) (read unread : List ℕ) (records : List KeyValue) : Prop where
  all : (read ++ unread).Perm (List.range job.files.length)
  pairs : (records : Multiset KeyValue) = (read.map fun m => bucket job m r).sum

/-- `performReduce` has printed some entries of the table of `records`. -/
structure Printing (files : Directory) (r : ℕ) (outputFile : Path)
    (rest : List ((_ : Bytes) × List Bytes)) (records : List KeyValue)
    (printed : List ((_ : Bytes) × List Bytes)) : Prop where
  pairs : (records : Multiset KeyValue) = share job r
  entries : (printed ++ rest).Perm (collect KeyValue.key KeyValue.value ∅ records).entries
  held : files.lookup outputFile =
    some (printed.flatMap fun entry => job.line entry.1 entry.2)

def Reported (files : Directory) (type : TaskType) (i : ℕ) : Prop :=
  match type with
  | .mapTask => Readable job i ∧ ∀ r < job.nReduce, Published job files i r
  | .reduceTask => Printed job files i
  | _ => True

def Knows (files : Directory) : Worker → Prop
  | .asking => True
  | .mapping task => MapReply job task
  | .creating task kva tempFiles => Writing job files task [] kva 0 tempFiles
  | .encoding task kva tempFiles =>
    tempFiles.length = job.nReduce ∧ ∃ written, Writing job files task written kva 0 tempFiles
  | .publishing task i tempFiles =>
    i + tempFiles.length = job.nReduce ∧ (∀ r < i, Published job files task.taskID r) ∧
      ∃ written, Writing job files task written [] i tempFiles
  | .reducing task => ReduceReply job files task
  | .reading task paths intermediate =>
    ReduceReply job files task ∧ ∃ read unread records,
      Reading job task.taskID read unread records ∧
      paths = unread.map (fun m => intermediateName m task.taskID) ∧
      intermediate = collect KeyValue.key KeyValue.value ∅ records
  | .printing task outputFile rest =>
    ReduceReply job files task ∧ ∃ records printed,
      Printing job files task.taskID outputFile rest records printed
  | .finished task => Reported job files task.taskType task.taskID
  | .exited => True

end Facts

section Frame
variable {job : Job} {files files' : Directory}

theorem ReduceReply.grows {task : TaskResponse} (h : ReduceReply job files task)
    (grows : Grows job files files') : ReduceReply job files' task :=
  { h with ready := fun m bound => grows.published m _ h.bound (h.ready m bound) }

theorem Reported.grows {type : TaskType} {i : ℕ} (h : Reported job files type i)
    (grows : Grows job files files') : Reported job files' type i := by
  cases type with
  | mapTask => exact ⟨h.1, fun r bound => grows.published i r bound (h.2 r bound)⟩
  | reduceTask => exact grows.printed i h
  | exitTask => trivial
  | noTask => trivial

theorem Writing.frame {task : TaskResponse} {written kva : List KeyValue} {i : ℕ}
    {tempFiles : List Path} (h : Writing job files task written kva i tempFiles)
    (same : ∀ temp ∈ tempFiles, files'.lookup temp = files.lookup temp) :
    Writing job files' task written kva i tempFiles :=
  { h with
    held := fun k temp found => by
      rw [same temp (List.mem_of_getElem? found)]
      exact h.held k temp found }

theorem Knows.frame {worker : Worker} (h : Knows job files worker)
    (grows : Grows job files files')
    (same : ∀ temp ∈ tempsOf worker, files'.lookup temp = files.lookup temp) :
    Knows job files' worker := by
  cases worker with
  | asking => trivial
  | mapping task => exact h
  | creating task kva tempFiles => exact Writing.frame h same
  | encoding task kva tempFiles =>
    obtain ⟨size, written, writing⟩ := h
    exact ⟨size, written, writing.frame same⟩
  | publishing task i tempFiles =>
    obtain ⟨size, done, written, writing⟩ := h
    refine ⟨size, fun r below => ?_, written, writing.frame same⟩
    exact grows.published _ r (by omega) (done r below)
  | reducing task => exact ReduceReply.grows h grows
  | reading task paths intermediate => exact ⟨h.1.grows grows, h.2⟩
  | printing task outputFile rest =>
    obtain ⟨reply, records, printed, printing⟩ := h
    exact ⟨reply.grows grows, records, printed,
      { printing with held := by rw [same outputFile (by simp [tempsOf])]; exact printing.held }⟩
  | finished task => exact Reported.grows h grows
  | exited => trivial

end Frame

section Calls
variable {job : Job} {files : Directory} {task : TaskResponse} {written kva : List KeyValue}
  {i : ℕ} {tempFiles : List Path}

theorem Writing.mem_files (h : Writing job files task written kva i tempFiles) {temp : Path}
    (member : temp ∈ tempFiles) : temp ∈ files := by
  obtain ⟨k, found⟩ := List.mem_iff_getElem?.mp member
  exact mem_of_lookup (h.held k temp found)

theorem Knows.mem_files {worker : Worker} (h : Knows job files worker) {temp : Path}
    (member : temp ∈ tempsOf worker) : temp ∈ files := by
  cases worker with
  | creating task kva tempFiles => exact Writing.mem_files h member
  | encoding task kva tempFiles =>
    obtain ⟨-, written, writing⟩ := h
    exact writing.mem_files member
  | publishing task i tempFiles =>
    obtain ⟨-, -, written, writing⟩ := h
    exact writing.mem_files member
  | printing task outputFile rest =>
    obtain ⟨-, records, printed, printing⟩ := h
    obtain rfl := List.mem_singleton.mp member
    exact mem_of_lookup printing.held
  | asking => simp [tempsOf] at member
  | mapping task => simp [tempsOf] at member
  | reducing task => simp [tempsOf] at member
  | reading task paths intermediate => simp [tempsOf] at member
  | finished task => simp [tempsOf] at member
  | exited => simp [tempsOf] at member

theorem MapReply.mapped_eq (reply : MapReply job task) {content : Bytes}
    (opened : job.input task.mapFile = some content) :
    mapped job task.taskID = job.mapf task.mapFile content := by
  simp [mapped, reply.file, output, opened]

theorem Writing.start (reply : MapReply job task) {content : Bytes}
    (opened : job.input task.mapFile = some content)
    (produced : (kva : Multiset KeyValue) = job.mapf task.mapFile content) :
    Writing job files task [] kva 0 [] where
  reply := reply
  readable := ⟨task.mapFile, reply.file, by simp [opened]⟩
  pairs := by rw [reply.mapped_eq opened, ← produced, List.nil_append]
  distinct := List.nodup_nil
  held k temp found := by simp at found

theorem Writing.create (h : Writing job files task [] kva 0 tempFiles) {name : Path}
    (fresh : name ∉ files) :
    Writing job (files.insert name []) task [] kva 0 (tempFiles ++ [name]) := by
  have apart : ∀ temp ∈ tempFiles, temp ≠ name := by
    rintro temp member rfl
    exact fresh (h.mem_files member)
  refine { h with distinct := ?_, held := fun k temp found => ?_ }
  · rw [List.nodup_append]
    refine ⟨h.distinct, List.nodup_singleton name, fun temp member other at_other => ?_⟩
    obtain rfl := List.mem_singleton.mp at_other
    exact apart temp member
  · rcases lt_or_ge k tempFiles.length with inside | beyond
    · rw [List.getElem?_append_left inside] at found
      rw [AList.lookup_insert_ne (apart temp (List.mem_of_getElem? found))]
      exact h.held k temp found
    · rw [List.getElem?_append_right beyond] at found
      obtain rfl := List.mem_singleton.mp (List.mem_of_getElem? found)
      rw [AList.lookup_insert]
      rfl

theorem Writing.encode {kv : KeyValue} (h : Writing job files task written (kv :: kva) 0 tempFiles)
    {temp : Path} {content : Bytes}
    (chosen : tempFiles[ihash kv.key % task.nReduce]? = some temp)
    (found : files.lookup temp = some content) :
    Writing job (files.insert temp (content ++ job.encode kv)) task (written ++ [kv]) kva 0
      tempFiles := by
  rw [h.reply.buckets] at chosen
  refine { h with pairs := ?_, held := fun k other at_k => ?_ }
  · rw [List.append_assoc]
    exact h.pairs
  · rw [List.filter_append, List.flatMap_append]
    by_cases same : ihash kv.key % job.nReduce = k
    · subst same
      obtain rfl : temp = other := Option.some.inj (chosen.symm.trans at_k)
      have before := h.held _ temp chosen
      rw [found, Option.some.injEq] at before
      rw [AList.lookup_insert, before]
      simp
    · have apart : other ≠ temp := by
        rintro rfl
        have inside := (List.getElem?_eq_some_iff.mp chosen).1
        exact same ((List.getElem?_inj inside h.distinct).mp (chosen.trans at_k.symm))
      rw [AList.lookup_insert_ne apart, h.held k other at_k]
      simp [same]

theorem Writing.bucket (h : Writing job files task written [] i tempFiles) (r : ℕ) :
    ((written.filter fun kv => ihash kv.key % job.nReduce = r : List KeyValue) :
      Multiset KeyValue) = MrFiles.bucket job task.taskID r := by
  rw [MrFiles.bucket, ← h.pairs, List.append_nil, Multiset.filter_coe]

theorem Writing.publish {temp : Path} (h : Writing job files task written [] i (temp :: tempFiles))
    (scratch : ∀ other ∈ temp :: tempFiles, Scratch job.nReduce other) (bound : i < job.nReduce) :
    Writing job (rename files temp (intermediateName task.taskID i)) task written [] (i + 1)
      tempFiles := by
  have first := h.held 0 temp rfl
  obtain ⟨apart, distinct⟩ := List.nodup_cons.mp h.distinct
  refine { h with distinct := distinct, held := fun k other found => ?_ }
  have member := List.mem_of_getElem? found
  have away : other ≠ temp := by
    rintro rfl
    exact apart member
  rw [lookup_rename first,
    if_neg ((scratch other (List.mem_cons_of_mem _ member)).ne_intermediateName _ bound),
    if_neg away, h.held (k + 1) other found, Nat.add_assoc, Nat.add_comm 1 k]

theorem Reading.start {paths : List Path} {r : ℕ}
    (found : paths.Perm ((List.range job.files.length).map fun m => intermediateName m r)) :
    ∃ unread, Reading job r [] unread [] ∧ paths = unread.map fun m => intermediateName m r := by
  have named : paths ∈ Set.range (List.map fun m => intermediateName m r) := by
    rw [Set.range_list_map]
    intro path member
    obtain ⟨m, -, rfl⟩ := List.mem_map.mp (found.mem_iff.mp member)
    exact ⟨m, rfl⟩
  obtain ⟨unread, rfl⟩ := named
  have perm := (List.map_perm_map_iff fun m k same => (intermediateName_inj same).1).mp found
  exact ⟨unread, ⟨perm, rfl⟩, rfl⟩

theorem Reading.read {r m : ℕ} {read unread : List ℕ} {records kvs : List KeyValue}
    (h : Reading job r read (m :: unread) records)
    (pairs : (kvs : Multiset KeyValue) = MrFiles.bucket job m r) :
    Reading job r (read ++ [m]) unread (records ++ kvs) where
  all := by simpa using h.all
  pairs := by
    rw [← Multiset.coe_add, h.pairs, pairs, List.map_append, List.sum_append]
    simp

theorem Reading.share {r : ℕ} {read : List ℕ} {records : List KeyValue}
    (h : Reading job r read [] records) :
    (records : Multiset KeyValue) = MrFiles.share job r := by
  rw [h.pairs, MrFiles.share]
  exact ((by simpa using h.all : read.Perm _).map _).sum_eq

theorem Printing.print {r : ℕ} {outputFile : Path} {rest printed : List ((_ : Bytes) × List Bytes)}
    {records : List KeyValue} {k : ℕ} {entry : (_ : Bytes) × List Bytes} {content : Bytes}
    (h : Printing job files r outputFile rest records printed) (visited : rest[k]? = some entry)
    (found : files.lookup outputFile = some content) :
    Printing job (files.insert outputFile (content ++ job.line entry.1 entry.2)) r outputFile
      (rest.eraseIdx k) records (printed ++ [entry]) where
  pairs := h.pairs
  entries := by
    obtain ⟨bound, rfl⟩ := List.getElem?_eq_some_iff.mp visited
    rw [List.append_assoc]
    exact ((List.getElem_cons_eraseIdx_perm bound).append_left printed).trans h.entries
  held := by
    obtain rfl : content = _ := Option.some.inj (found.symm.trans h.held)
    rw [AList.lookup_insert, List.flatMap_append]
    simp

end Calls

structure Effect (job : Job) (files : Directory) (worker : Worker) (files' : Directory)
    (worker' : Worker) : Prop where
  knows : Knows job files' worker'
  clean : Clean job files'
  grows : Grows job files files'
  scratch : ∀ temp ∈ tempsOf worker', Scratch job.nReduce temp
  fresh : ∀ temp ∈ tempsOf worker', temp ∈ tempsOf worker ∨ temp ∉ files
  others : ∀ path, path ∈ files ∨ ¬ "temp/".toList <+: path → path ∉ tempsOf worker →
    Untargeted job.nReduce path → files'.lookup path = files.lookup path

section Effects
variable {job : Job} {files : Directory} {worker worker' : Worker}
  (clean : Clean job files) (scratch : ∀ temp ∈ tempsOf worker, Scratch job.nReduce temp)
include clean scratch

theorem Effect.same (knows : Knows job files worker') (temps : tempsOf worker' ⊆ tempsOf worker) :
    Effect job files worker files worker' where
  knows := knows
  clean := clean
  grows := .refl
  scratch temp member := scratch temp (temps member)
  fresh _ member := .inl (temps member)
  others _ _ _ _ := rfl

theorem Effect.insert {name : Path} {content : Bytes} (free : Scratch job.nReduce name)
    (mine : name ∈ tempsOf worker ∨ name ∉ files)
    (knows : Knows job (files.insert name content) worker')
    (temps : ∀ temp ∈ tempsOf worker', temp ∈ tempsOf worker ∨ temp = name) :
    Effect job files worker (files.insert name content) worker' where
  knows := knows
  clean := insert_clean clean free content
  grows := insert_grows free content
  scratch temp member := by
    rcases temps temp member with before | rfl
    · exact scratch temp before
    · exact free
  fresh temp member := by
    rcases temps temp member with before | rfl
    · exact .inl before
    · exact mine
  others path present away _ := by
    refine AList.lookup_insert_ne ?_
    rintro rfl
    exact mine.elim away fun fresh => present.elim fresh fun outside => outside free.1

omit clean in
theorem Effect.rename {temp new : Path} {content : Bytes} (mine : temp ∈ tempsOf worker)
    (found : files.lookup temp = some content)
    (target : ∀ path, Untargeted job.nReduce path → path ≠ new)
    (clean : Clean job (rename files temp new)) (grows : Grows job files (rename files temp new))
    (knows : Knows job (rename files temp new) worker')
    (temps : tempsOf worker' ⊆ tempsOf worker) :
    Effect job files worker (rename files temp new) worker' where
  knows := knows
  clean := clean
  grows := grows
  scratch other member := scratch other (temps member)
  fresh _ member := .inl (temps member)
  others path _ away kept := by
    rw [lookup_rename found, if_neg (target path kept), if_neg]
    rintro rfl
    exact away mine

omit clean scratch in
theorem publish_effect {task : TaskResponse} {i : ℕ} {temp : Path} {tempFiles : List Path}
    (clean : Clean job files)
    (scratch : ∀ other ∈ tempsOf (.publishing task i (temp :: tempFiles)),
      Scratch job.nReduce other)
    (knows : Knows job files (.publishing task i (temp :: tempFiles))) :
    Effect job files (.publishing task i (temp :: tempFiles))
      (MrWorker.rename files temp (intermediateName task.taskID i))
      (.publishing task (i + 1) tempFiles) := by
  obtain ⟨size, done, written, writing⟩ := knows
  rw [List.length_cons] at size
  have bound : i < job.nReduce := by omega
  have found := writing.held 0 temp rfl
  rw [Nat.add_zero] at found
  have pairs := writing.bucket i
  have grows := publish_grows (scratch temp List.mem_cons_self) pairs found
  have task_lt := (List.getElem?_eq_some_iff.mp writing.reply.file).1
  refine .rename scratch List.mem_cons_self found
    (fun path kept => (kept i bound).2 task.taskID) (publish_clean clean task_lt found)
    grows ⟨by omega, fun r below => ?_, written, writing.publish scratch bound⟩
    (List.subset_cons_self _ _)
  rcases Nat.lt_succ_iff_lt_or_eq.mp below with before | rfl
  · exact grows.published _ r (by omega) (done r before)
  · exact publish_published pairs found

theorem performed_effect {act : Act} {files' : Directory} (knows : Knows job files worker)
    (inputs : ∀ file ∈ job.files, files.lookup file = job.input file)
    (safe : ∀ suffix, act = .create suffix →
      ∀ r < job.nReduce, globs r (tempFile worker.pattern suffix) = false)
    (taken : Performed job files worker act files' worker') :
    Effect job files worker files' worker' := by
  cases taken with
  | exits => exact .same clean scratch trivial (List.nil_subset _)
  | runMap task kva content opened produced =>
    have reply : MapReply job task := knows
    rw [inputs _ (List.mem_of_getElem? reply.file)] at opened
    exact .same clean scratch (Writing.start reply opened produced) (List.nil_subset _)
  | createTemp task kva tempFiles suffix fresh =>
    have free : Scratch job.nReduce (tempFile "intermediate-".toList suffix) :=
      ⟨List.prefix_append _ _, safe suffix rfl⟩
    exact .insert clean scratch free (.inr fresh) (Writing.create knows fresh)
      fun temp member => by simpa [tempsOf] using member
  | created task kva tempFiles all =>
    have writing : Writing job files task [] kva 0 tempFiles := knows
    exact .same clean scratch ⟨all.trans writing.reply.buckets, [], writing⟩ (List.Subset.refl _)
  | encode task kv kva tempFiles temp content chosen held =>
    obtain ⟨size, written, writing⟩ := knows
    have member : temp ∈ tempFiles := List.mem_of_getElem? chosen
    exact .insert clean scratch (scratch temp member) (.inl member)
      ⟨size, written ++ [kv], writing.encode chosen held⟩ fun _ => .inl
  | encoded task tempFiles =>
    obtain ⟨size, written, writing⟩ := knows
    exact .same clean scratch
      ⟨by omega, fun r below => absurd below (Nat.not_lt_zero r), written, writing⟩
      (List.Subset.refl _)
  | publish task i temp tempFiles => exact publish_effect clean scratch knows
  | published task i =>
    obtain ⟨size, done, written, writing⟩ := knows
    refine .same clean scratch ?_ (List.nil_subset _)
    simp only [Knows, writing.reply.type]
    exact ⟨writing.readable, fun r bound => done r (by simpa [← size] using bound)⟩
  | globFiles task =>
    have reply : ReduceReply job files task := knows
    obtain ⟨unread, reading, names⟩ :=
      Reading.start (glob_perm clean reply.bound reply.ready)
    exact .same clean scratch ⟨reply, [], unread, [], reading, names, rfl⟩ (List.nil_subset _)
  | read task path rest intermediate content held =>
    obtain ⟨reply, read, unread, records, reading, names, rfl⟩ := knows
    obtain ⟨m, unread, rfl, rfl, rfl⟩ := List.map_eq_cons_iff.mp names.symm
    have task_lt : m < job.files.length :=
      List.mem_range.mp (reading.all.subset (by simp))
    have pairs := (reply.ready m task_lt).decode held
    exact .same clean scratch
      ⟨reply, read ++ [m], unread, _, reading.read pairs, rfl, (collect_append ..).symm⟩
      (List.nil_subset _)
  | createOutput task intermediate suffix fresh =>
    obtain ⟨reply, read, unread, records, reading, names, rfl⟩ := knows
    obtain rfl := List.map_eq_nil_iff.mp names.symm
    have free : Scratch job.nReduce (tempFile "mr-out-".toList suffix) :=
      ⟨List.prefix_append _ _, safe suffix rfl⟩
    refine .insert clean scratch free (.inr fresh)
      ⟨reply.grows (insert_grows free []), records, [], reading.share, List.Perm.refl _, ?_⟩
      fun temp member => .inr (List.mem_singleton.mp member)
    rw [AList.lookup_insert]
    rfl
  | print task outputFile rest i entry content visited held =>
    obtain ⟨reply, records, printed, printing⟩ := knows
    have free := scratch outputFile (List.mem_singleton_self _)
    exact .insert clean scratch free (.inl (List.mem_singleton_self _))
      ⟨reply.grows (insert_grows free _), records, _, printing.print visited held⟩ fun _ => .inl
  | publishOutput task outputFile =>
    obtain ⟨reply, records, printed, printing⟩ := knows
    have free := scratch outputFile (List.mem_singleton_self _)
    have visited := printing.entries
    rw [List.append_nil] at visited
    have grows := print_grows free printing.pairs visited printing.held
    refine .rename scratch (List.mem_singleton_self _) printing.held
      (fun path kept => (kept task.taskID reply.bound).1) (print_clean clean printing.held) grows ?_
      (List.nil_subset _)
    simp only [Knows, reply.type]
    exact ⟨records, printed, printing.pairs, visited, by
      rw [lookup_rename printing.held, if_pos rfl]⟩

end Effects

end DistributedLabs.MrProgress
