import DistributedLabs.MrProgress

/-! A job and the sequential program print the same lines. Every report, and with
it every completed task, stands for files already published; reduce tasks start
when all map tasks are completed. -/

namespace DistributedLabs.MrAgreement
open GuardedRuns MrCoordinator MrTasks MrWorker MrMoves MrSequential MrFiles MrProgress

structure Sound (job : Job) (sys : System) : Prop where
  kept : Kept job.files job.nReduce sys.coordinator
  clean : Clean job sys.files
  knows : ∀ pid, Knows job sys.files (sys.workers pid)
  scratch : ∀ pid, ∀ temp ∈ tempsOf (sys.workers pid), Scratch job.nReduce temp
  apart : ∀ pid other, pid ≠ other → ∀ temp ∈ tempsOf (sys.workers pid),
    temp ∉ tempsOf (sys.workers other)
  reserved : ∀ file ∈ job.files, Untargeted job.nReduce file ∧
    (job.input file = none → ¬ "temp/".toList <+: file)
  inputs : ∀ file ∈ job.files, sys.files.lookup file = job.input file
  unopened : ∀ pid, ∀ temp ∈ tempsOf (sys.workers pid), temp ∉ job.files
  reported : ∀ args ∈ sys.reports, Reported job sys.files args.taskType args.taskID
  completed : ∀ type i, Completed sys.coordinator type i → Reported job sys.files type i

section Keep
variable {job : Job} {sys sys' : System}

@[simp]
theorem handOut_coordinator (pid : ℤ) (handed : Handed) :
    (sys.handOut pid handed).coordinator = handed.coordinator := by
  unfold System.handOut
  split <;> rfl

@[simp]
theorem handOut_workers (pid : ℤ) (handed : Handed) :
    (sys.handOut pid handed).workers = sys.workers := by
  unfold System.handOut
  split <;> rfl

@[simp]
theorem handOut_reports (pid : ℤ) (handed : Handed) :
    (sys.handOut pid handed).reports = sys.reports := by
  unfold System.handOut
  split <;> rfl

@[simp]
theorem handOut_files (pid : ℤ) (handed : Handed) :
    (sys.handOut pid handed).files = sys.files := by
  unfold System.handOut
  split <;> rfl

theorem Sound.setWorker (h : Sound job sys) (pid : ℤ) {worker : Worker}
    (knows : Knows job sys.files worker) (closed : tempsOf worker = []) :
    Sound job (sys.setWorker pid worker) := by
  have temps : ∀ other, tempsOf (Function.update sys.workers pid worker other) ⊆
      tempsOf (sys.workers other) := by
    intro other
    rcases eq_or_ne other pid with rfl | apart
    · rw [Function.update_self, closed]
      exact List.nil_subset _
    · rw [Function.update_of_ne apart]
      exact List.Subset.refl _
  exact
    { h with
      knows := fun other => by
        rcases eq_or_ne other pid with rfl | apart
        · simpa [System.setWorker] using knows
        · simpa [System.setWorker, apart] using h.knows other
      scratch := fun other temp member => h.scratch other temp (temps other member)
      apart := fun first second different temp member inside =>
        h.apart first second different temp (temps first member) (temps second inside)
      unopened := fun other temp member => h.unopened other temp (temps other member) }

theorem Sound.handOut (h : Sound job sys) {pid : ℤ} {handed : Handed}
    (requested : Requested sys.coordinator pid handed) : Sound job (sys.handOut pid handed) where
  kept := by simpa using h.kept.requested requested
  clean := by simpa using h.clean
  knows := by simpa using h.knows
  scratch := by simpa using h.scratch
  apart := by simpa using h.apart
  reserved := h.reserved
  inputs := by simpa using h.inputs
  unopened := by simpa using h.unopened
  reported := by simpa using h.reported
  completed type i finished := by
    simp only [handOut_coordinator, handOut_files] at finished ⊢
    exact h.completed type i ((h.kept.completed_requested requested).mp finished)

theorem Sound.received (h : Sound job sys) {pid : ℤ} {handed : Handed}
    (requested : Requested sys.coordinator pid handed) :
    Knows job sys.files (received handed.reply) := by
  have next := h.kept.nextPhase
  cases requested with
  | map i task phase found idle =>
    obtain ⟨id, file⟩ := next.maps.fitting i task found
    exact ⟨rfl, id ▸ file, next.nReduce⟩
  | reduce i task files phase found idle listed =>
    have id := next.reduces.fitting i task found
    have inside := (List.getElem?_eq_some_iff.mp found).1
    rw [next.reduces.length, ← id] at inside
    refine ⟨rfl, inside, fun m bound => ?_⟩
    have mapped := h.kept.completed_nextPhase.mp (next.completed_map (by simp [phase]) bound)
    exact (h.completed .mapTask m mapped).2 task.taskID inside
  | wait phase => trivial
  | exit phase => trivial

theorem received_temps (reply : TaskResponse) : tempsOf (received reply) = [] := by
  unfold received
  split <;> rfl

theorem Sound.present (h : Sound job sys) {file : Path} (listed : file ∈ job.files) :
    file ∈ sys.files ∨ ¬ "temp/".toList <+: file := by
  cases found : job.input file with
  | none => exact .inr ((h.reserved file listed).2 found)
  | some content => exact .inl (mem_of_lookup ((h.inputs file listed).trans found))

theorem Sound.work (h : Sound job sys) {pid : ℤ} {files : Directory} {worker : Worker}
    (effect : Effect job sys.files (sys.workers pid) files worker) :
    Sound job { sys.setWorker pid worker with files := files } where
  kept := h.kept
  clean := effect.clean
  knows other := by
    simp only [System.setWorker]
    rcases eq_or_ne other pid with rfl | apart
    · rw [Function.update_self]
      exact effect.knows
    · rw [Function.update_of_ne apart]
      refine (h.knows other).frame effect.grows fun temp member => ?_
      exact effect.others temp (.inl ((h.knows other).mem_files member))
        (h.apart other pid apart temp member) (h.scratch other temp member).untargeted
  scratch other temp member := by
    simp only [System.setWorker] at member
    rcases eq_or_ne other pid with rfl | apart
    · rw [Function.update_self] at member
      exact effect.scratch temp member
    · rw [Function.update_of_ne apart] at member
      exact h.scratch other temp member
  apart := by
    -- a file newly opened by `pid` did not exist, the files of others did
    refine temps_update h.apart fun other away temp mine theirs => ?_
    rcases effect.fresh temp mine with before | absent
    · exact h.apart other pid away temp theirs before
    · exact absent ((h.knows other).mem_files theirs)
  reserved := h.reserved
  inputs file listed := by
    have away : file ∉ tempsOf (sys.workers pid) := fun member =>
      h.unopened pid file member listed
    rw [effect.others file (h.present listed) away (h.reserved file listed).1]
    exact h.inputs file listed
  unopened other temp member listed := by
    simp only [System.setWorker] at member
    rcases eq_or_ne other pid with rfl | apart
    · rw [Function.update_self] at member
      rcases effect.fresh temp member with before | absent
      · exact h.unopened other temp before listed
      · exact (h.present listed).elim absent fun outside => outside (effect.scratch temp member).1
    · rw [Function.update_of_ne apart] at member
      exact h.unopened other temp member listed
  reported args member := (h.reported args member).grows effect.grows
  completed type i finished := (h.completed type i finished).grows effect.grows

theorem Sound.moved (h : Sound job sys) {action : Action} (safe : SafeTemp job sys action)
    (move : Moved job sys action sys') : Sound job sys' := by
  cases move with
  | start pid gone => exact h.setWorker pid trivial rfl
  | request pid handed asking requested =>
    refine (h.handOut requested).setWorker pid ?_ (received_temps _)
    simpa using h.received requested
  | requestLost pid handed requested => exact h.handOut requested
  | expire k assigned asleep started =>
    exact { h with
      kept := h.kept.waitTask _ _
      completed := fun type i finished => h.completed type i (completed_waitTask.mp finished) }
  | work pid act files worker performed =>
    refine h.work (performed_effect h.clean (h.scratch pid) (h.knows pid) h.inputs ?_ performed)
    rintro suffix rfl
    exact safe
  | report pid task finished =>
    have done := h.knows pid
    rw [finished] at done
    have idle : Sound job (sys.setWorker pid .asking) := h.setWorker pid trivial rfl
    refine { idle with reported := fun args member => ?_ }
    rcases List.mem_append.mp member with before | new
    · exact h.reported args before
    · obtain rfl := List.mem_singleton.mp new
      exact done
  | handle i args c sent notified =>
    have told := h.reported args (List.mem_of_getElem? sent)
    exact { h with
      kept := h.kept.notified notified
      reported := fun other member => h.reported other (List.mem_of_mem_eraseIdx member)
      completed := fun type k finished => by
        rcases (completed_notified notified).mp finished with before | ⟨rfl, rfl, -⟩
        · exact h.completed type k before
        · exact told }
  | lose i =>
    exact { h with
      reported := fun args member => h.reported args (List.mem_of_mem_eraseIdx member) }
  | crash pid => exact h.setWorker pid trivial rfl

theorem inputs_untargeted {start : Directory} (inputs : Inputs job start)
    (empty : ∀ path ∈ start, ¬ "temp/mr-".toList <+: path) {file : Path}
    (listed : file ∈ job.files) : Untargeted job.nReduce file := by
  refine fun r bound => ⟨inputs.apart file listed r bound, fun m named => ?_⟩
  have inside : "temp/mr-".toList <+: file := named ▸ List.prefix_append _ _
  cases found : job.input file with
  | none =>
    have head : "temp/".toList <+: "temp/mr-".toList := ⟨"mr-".toList, rfl⟩
    exact inputs.missing file listed found (head.trans inside)
  | some content =>
    exact empty file (mem_of_lookup ((inputs.held file listed).trans found)) inside

theorem sound_init {start : Directory} (inputs : Inputs job start)
    (empty : ∀ path ∈ start, ¬ "temp/mr-".toList <+: path) : Sound job (init job start) where
  kept := kept_makeCoordinator job.files job.nReduce
  clean path member _ _ matched := absurd (globs_head matched) (empty path member)
  knows _ := trivial
  scratch _ _ member := absurd member List.not_mem_nil
  apart _ _ _ _ member := absurd member List.not_mem_nil
  reserved file listed := ⟨inputs_untargeted inputs empty listed, inputs.missing file listed⟩
  inputs := inputs.held
  unopened _ _ member := absurd member List.not_mem_nil
  reported _ member := absurd member List.not_mem_nil
  completed type i finished := absurd finished (not_completed_init _ _ type i)

end Keep

theorem reaches_sound {job : Job} {start : Directory} {sys : System} (inputs : Inputs job start)
    (empty : ∀ path ∈ start, ¬ "temp/mr-".toList <+: path)
    (run : Reaches job start (SafeTemp job) sys) : Sound job sys :=
  run.invariant (Sound job) (fun h safe taken => h.moved safe (step_moved taken))
    (sound_init inputs empty)

def outputLines (files : Directory) (n : ℕ) : Multiset Bytes :=
  ∑ r ∈ Finset.range n,
    ((files.lookup (outName r)).elim 0 fun content => (lines content : Multiset Bytes))

/-- When `Done` returns true, the output files hold the lines the sequential
program prints. -/
theorem output_agrees {job : Job} {start : Directory} {sys : System} (inputs : Inputs job start)
    (empty : ∀ path ∈ start, ¬ "temp/mr-".toList <+: path) (positive : 1 ≤ job.nReduce)
    (run : Reaches job start (SafeTemp job) sys) (finished : done sys.coordinator = true) :
    (∀ r < job.nReduce, outName r ∈ sys.files) ∧ (∃ out, Sequential job out) ∧
      ∀ out, Sequential job out →
        outputLines sys.files job.nReduce = (lines out : Multiset Bytes) := by
  have sound := reaches_sound inputs empty run
  have exist : sys.coordinator.status = .existPhase := (of_decide_eq_true finished).1
  have printed : ∀ r < job.nReduce, Printed job sys.files r := fun r bound =>
    sound.completed .reduceTask r (sound.kept.completed_reduce exist bound)
  refine ⟨fun r bound => ?_, sequential_exists fun file member => ?_, fun out seq => ?_⟩
  · obtain ⟨records, entries, -, -, found⟩ := printed r bound
    exact mem_of_lookup found
  · obtain ⟨m, found⟩ := List.mem_iff_getElem?.mp member
    have bound := (List.getElem?_eq_some_iff.mp found).1
    obtain ⟨⟨file', found', readable⟩, -⟩ :=
      sound.completed .mapTask m (sound.kept.completed_map (by simp [exist]) bound)
    obtain rfl : file = file' := Option.some.inj (found.symm.trans found')
    exact readable
  · rw [sequential_lines seq, ← expected_shares job positive, outputLines]
    refine Finset.sum_congr rfl fun r member => ?_
    obtain ⟨records, entries, pairs, visited, found⟩ := printed r (Finset.mem_range.mp member)
    rw [found, Option.elim_some, printEntries_lines visited, pairs]

section Letters

def ascii (text : String) : Bytes :=
  text.toList.map fun c => UInt8.ofNat c.toNat

def encodeLetters (kv : KeyValue) : Bytes :=
  ascii "\x7b\"Key\":\"" ++ kv.key.headD 0 :: (ascii "\",\"Value\":\"" ++
    kv.value.headD 0 :: ascii "\"\x7d\n")

/-- Records are 24 bytes long; reading stops at the first that is malformed. -/
def decodeLetters : ℕ → Bytes → List KeyValue
  | 0, _ => []
  | fuel + 1, text =>
    match text[8]?, text[20]? with
    | some k, some v =>
      if (encodeLetters ⟨[k], [v]⟩).isPrefixOf text then
        ⟨[k], [v]⟩ :: decodeLetters fuel (text.drop 24)
      else []
    | _, _ => []

theorem decodeLetters_cons (fuel : ℕ) (k v : UInt8) (rest : Bytes) :
    decodeLetters (fuel + 1) (encodeLetters ⟨[k], [v]⟩ ++ rest) =
      ⟨[k], [v]⟩ :: decodeLetters fuel rest := by
  have head : (encodeLetters ⟨[k], [v]⟩).isPrefixOf (encodeLetters ⟨[k], [v]⟩ ++ rest) = true :=
    List.isPrefixOf_iff_prefix.mpr (List.prefix_append _ _)
  have key : (encodeLetters ⟨[k], [v]⟩ ++ rest)[8]? = some k := rfl
  have value : (encodeLetters ⟨[k], [v]⟩ ++ rest)[20]? = some v := rfl
  have tail : (encodeLetters ⟨[k], [v]⟩ ++ rest).drop 24 = rest := rfl
  rw [decodeLetters, key, value, tail]
  simp only [head, if_true]

theorem decodeLetters_encodeLetters (kvs : List KeyValue) (fuel : ℕ) (enough : kvs.length ≤ fuel)
    (letters : ∀ kv ∈ kvs, ∃ k v, kv = ⟨[k], [v]⟩) :
    decodeLetters fuel (kvs.flatMap encodeLetters) = kvs := by
  induction kvs generalizing fuel with
  | nil => cases fuel <;> rfl
  | cons kv rest ih =>
    obtain ⟨k, v, rfl⟩ := letters kv List.mem_cons_self
    obtain ⟨fuel, rfl⟩ := Nat.exists_eq_succ_of_ne_zero (by simp at enough; omega : fuel ≠ 0)
    rw [List.flatMap_cons, decodeLetters_cons, ih fuel (by simpa using enough)
      fun other inside => letters other (List.mem_cons_of_mem _ inside)]

def letterCount (files : List Path) (start : Directory) : Job where
  files := files
  nReduce := 2
  input := start.lookup
  mapf _ content :=
    ((content.filter (97 ≤ ·)).map fun b => (⟨[b], ascii "1"⟩ : KeyValue) : List KeyValue)
  reducef _ values := ascii (toString values.length)
  reducef_perm _ _ _ same := by rw [same.length_eq]
  encode := encodeLetters
  decode text := decodeLetters text.length text
  decode_encode kvs emitted := by
    refine decodeLetters_encodeLetters kvs _ ?_ fun kv member => ?_
    · have size (kv : KeyValue) : (encodeLetters kv).length = 24 := rfl
      simp only [List.length_flatMap, size, List.map_const', List.sum_replicate, smul_eq_mul]
      omega
    · obtain ⟨file, -, content, -, inside⟩ := emitted kv member
      obtain ⟨b, -, rfl⟩ := List.mem_map.mp (Multiset.mem_coe.mp inside)
      exact ⟨b, _, rfl⟩

def letterFiles : Directory :=
  ((∅ : Directory).insert "b".toList (ascii "x")).insert "a".toList (ascii "xy")

def twoFiles : Job := letterCount ["a".toList, "b".toList] letterFiles

def mapScript (pid : ℤ) (kva : List KeyValue) (first second : Path) : List Action :=
  List.flatten [[.work pid (.runMap kva), .work pid (.create first), .work pid (.create second),
    .work pid .leave], kva.map fun _ => .work pid .encodeNext,
    [.work pid .leave, .work pid .renameNext, .work pid .renameNext, .work pid .leave,
      .report pid, .handle 0]]

/-- A reduce task over `k` files that prints one key. -/
def reduceScript (pid : ℤ) (k : ℕ) (suffix : Path) : List Action :=
  List.flatten [[.work pid .globFiles], List.replicate k (.work pid .readNext),
    [.work pid (.create suffix), .work pid (.printNext 0), .work pid .renameNext, .report pid,
      .handle 0]]

/-- Worker 1 crashes between the two renames of its map task; worker 2 takes
the task over when the timer has expired. -/
theorem output_agrees_crash : ∃ sys : System,
    Reaches twoFiles letterFiles (SafeTemp twoFiles) sys ∧ done sys.coordinator = true ∧
    outputLines sys.files 2 = {ascii "x 2", ascii "y 1"} ∧
    (∀ r < 2, outName r ∈ sys.files) ∧ (∃ out, Sequential twoFiles out) ∧
    ∀ out, Sequential twoFiles out →
      outputLines sys.files 2 = (lines out : Multiset Bytes) := by
  obtain ⟨sys, run, seen⟩ := exec_test (step twoFiles) (SafeTemp twoFiles)
    (init twoFiles letterFiles)
    (List.flatten [[.start 1, .start 2, .request 1],
      (mapScript 1 [⟨ascii "x", ascii "1"⟩, ⟨ascii "y", ascii "1"⟩] ['0'] ['1']).take 8,
      [.crash 1, .request 2],
      mapScript 2 [⟨ascii "x", ascii "1"⟩] ['2'] ['3'], [.expire 0, .request 2],
      mapScript 2 [⟨ascii "y", ascii "1"⟩, ⟨ascii "x", ascii "1"⟩] ['4'] ['5'], [.request 2],
      reduceScript 2 2 ['8'], [.request 2], reduceScript 2 2 ['9'], [.request 2]])
    (fun sys => done sys.coordinator ∧
      outputLines sys.files 2 = {ascii "x 2", ascii "y 1"}) (by decide +kernel)
  obtain ⟨finished, shown⟩ := of_decide_eq_true seen
  have inputs : Inputs twoFiles letterFiles :=
    ⟨fun _ _ => rfl, by decide, by decide⟩
  exact ⟨sys, run, finished, shown, output_agrees inputs (by decide) (by decide) run finished⟩

/-- A file left by an earlier job, under the name of an output. -/
def oldOutput : Directory := (∅ : Directory).insert "mr-out-0".toList (ascii "xy")

def oneOutput : Job := letterCount ["mr-out-0".toList] oldOutput

/-- The input is named like the first output. Worker 1 is handed the map task and
sleeps until worker 2 has published the first output over the input; then it maps the
output, and its renames take a letter away from the second reduce task. -/
theorem output_disagrees : ¬ ∀ (job : Job) (start : Directory) (sys : System),
    (∀ file ∈ job.files, start.lookup file = job.input file) →
    (∀ path ∈ start, ¬ "temp/mr-".toList <+: path) → 1 ≤ job.nReduce →
    Reaches job start (SafeTemp job) sys → done sys.coordinator = true →
    ∀ out, Sequential job out →
      outputLines sys.files job.nReduce = (lines out : Multiset Bytes) := by
  obtain ⟨sys, run, seen⟩ := exec_test (step oneOutput) (SafeTemp oneOutput)
    (init oneOutput oldOutput)
    (List.flatten [[.start 1, .start 2, .request 1, .expire 0, .request 2],
      mapScript 2 [⟨ascii "x", ascii "1"⟩, ⟨ascii "y", ascii "1"⟩] ['0'] ['1'], [.request 2],
      reduceScript 2 1 ['2'],
      mapScript 1 [⟨ascii "y", ascii "1"⟩] ['3'] ['4'], [.request 2],
      [.work 2 .globFiles, .work 2 .readNext, .work 2 (.create ['5']), .work 2 .renameNext,
        .report 2, .handle 0, .request 2]])
    (fun sys => done sys.coordinator ∧ outputLines sys.files 2 = {ascii "y 1"})
    (by decide +kernel)
  obtain ⟨finished, shown⟩ := of_decide_eq_true seen
  have mapped : Mapped oneOutput oneOutput.files
      ([⟨ascii "x", ascii "1"⟩, ⟨ascii "y", ascii "1"⟩] ++ []) := .cons rfl rfl .nil
  have printed : Sequential oneOutput (ascii "x 1\ny 1\n") :=
    ⟨_, _, mapped, .refl _, by decide, rfl⟩
  intro agrees
  have same := agrees oneOutput oldOutput sys (fun _ _ => rfl) (by decide) (by decide) run
    finished _ printed
  rw [show outputLines sys.files oneOutput.nReduce = _ from shown] at same
  exact absurd same (by decide +kernel)

end Letters

end DistributedLabs.MrAgreement
