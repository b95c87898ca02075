import DistributedLabs.MrWorker

/-! Sequential MapReduce (main/mrsequential.go after its arguments are read):
map every input file, sort by key, and scan. `sort.Sort` is not stable, so that
any arrangement sorted by key may come out of it. -/

namespace DistributedLabs.MrSequential
open Grouping MrCoordinator MrWorker

inductive Mapped (job : Job) : List Path → List KeyValue → Prop
  | nil : Mapped job [] []
  | cons {file : Path} {files : List Path} {content : Bytes} {kva rest : List KeyValue} :
      job.input file = some content → (kva : Multiset KeyValue) = job.mapf file content →
      Mapped job files rest → Mapped job (file :: files) (kva ++ rest)

def printRuns (job : Job) (sorted : List KeyValue) : Bytes :=
  (runs KeyValue.key KeyValue.value sorted).flatMap fun run => job.line run.1 run.2

/-- `out` is what the program may write to `mr-out-0`. -/
def Sequential (job : Job) (out : Bytes) : Prop :=
  ∃ intermediate sorted : List KeyValue, Mapped job job.files intermediate ∧
    sorted.Perm intermediate ∧ (sorted.Pairwise fun a b => a.key ≤ b.key) ∧
    out = printRuns job sorted

def lines : Bytes → List Bytes
  | [] => []
  | b :: rest =>
    if b = 10 then [] :: lines rest
    else
      match lines rest with
      | [] => [[b]]
      | line :: more => (b :: line) :: more

theorem lines_append (body rest : Bytes) :
    lines (body ++ [10] ++ rest) = lines (body ++ [10]) ++ lines rest := by
  induction body with
  | nil => simp [lines]
  | cons b body ih =>
    simp only [List.cons_append, lines] at ih ⊢
    split
    · rw [ih, List.cons_append]
    · have some_line : lines (body ++ [10]) ≠ [] := by
        cases body with
        | nil => simp [lines]
        | cons c body =>
          simp only [List.cons_append, lines]
          split
          · exact List.cons_ne_nil _ _
          · split <;> exact List.cons_ne_nil _ _
      obtain ⟨line, more, first⟩ := List.exists_cons_of_ne_nil some_line
      rw [ih, first]
      rfl

theorem lines_flatMap {B : Type*} (pieces : List B) (print : B → Bytes)
    (ended : ∀ piece, ∃ body, print piece = body ++ [10]) :
    (lines (pieces.flatMap print) : Multiset Bytes) =
      (pieces.map fun piece => (lines (print piece) : Multiset Bytes)).sum := by
  induction pieces with
  | nil => rfl
  | cons piece rest ih =>
    obtain ⟨body, print_eq⟩ := ended piece
    rw [List.flatMap_cons, List.map_cons, List.sum_cons, ← ih, print_eq, lines_append,
      Multiset.coe_add]

section Output
variable (job : Job)

def output (file : Path) : Multiset KeyValue :=
  match job.input file with
  | some content => job.mapf file content
  | none => 0

def total : Multiset KeyValue :=
  (job.files.map (output job)).sum

def groupLines (g : Bytes × Multiset Bytes) : Multiset Bytes :=
  Quot.liftOn g.2 (fun values => (lines (job.line g.1 values) : Multiset Bytes))
    fun values values' same => by
      simp only [Job.line, job.reducef_perm g.1 same]

/-- What the job is for: the lines of the groups of all pairs. -/
def expected (records : Multiset KeyValue) : Multiset Bytes :=
  ((groups KeyValue.key KeyValue.value records).map (groupLines job)).sum

theorem line_ended (key : Bytes) (values : List Bytes) :
    ∃ body, job.line key values = body ++ [10] :=
  ⟨_, rfl⟩

variable {job}

theorem printRuns_lines {sorted : List KeyValue}
    (ordered : sorted.Pairwise fun a b => a.key ≤ b.key) :
    (lines (printRuns job sorted) : Multiset Bytes) = expected job sorted := by
  have printed := lines_flatMap (runs KeyValue.key KeyValue.value sorted)
    (fun run => job.line run.1 run.2) fun run => line_ended job run.1 run.2
  rw [printRuns, printed, expected, ← runs_groups _ _ _ ordered, Multiset.map_coe,
    Multiset.sum_coe, List.map_map]
  rfl

theorem printEntries_lines {records : List KeyValue} {entries : List ((_ : Bytes) × List Bytes)}
    (visited : entries.Perm (collect KeyValue.key KeyValue.value ∅ records).entries) :
    (lines (entries.flatMap fun entry => job.line entry.1 entry.2) : Multiset Bytes) =
      expected job records := by
  have printed := lines_flatMap entries (fun entry => job.line entry.1 entry.2)
    fun entry => line_ended job entry.1 entry.2
  rw [printed, expected, ← collect_groups, Multiset.map_coe, Multiset.sum_coe, List.map_map]
  exact (visited.map _).sum_eq

theorem mapped_total {files : List Path} {intermediate : List KeyValue}
    (mapped : Mapped job files intermediate) :
    (intermediate : Multiset KeyValue) = (files.map (output job)).sum := by
  induction mapped with
  | nil => rfl
  | cons opened produced _ ih =>
    rw [← Multiset.coe_add, produced, ih, List.map_cons, List.sum_cons]
    simp [output, opened]

theorem mapped_exists {files : List Path} (readable : ∀ file ∈ files, job.input file ≠ none) :
    ∃ intermediate, Mapped job files intermediate := by
  induction files with
  | nil => exact ⟨[], .nil⟩
  | cons file files ih =>
    obtain ⟨rest, mapped⟩ := ih fun other member => readable other (List.mem_cons_of_mem _ member)
    obtain ⟨content, opened⟩ :=
      Option.ne_none_iff_exists'.mp (readable file List.mem_cons_self)
    exact ⟨_, .cons opened (Multiset.coe_toList (job.mapf file content)) mapped⟩

theorem sequential_lines {out : Bytes} (run : Sequential job out) :
    (lines out : Multiset Bytes) = expected job (total job) := by
  obtain ⟨intermediate, sorted, mapped, perm, ordered, rfl⟩ := run
  rw [printRuns_lines ordered, Multiset.coe_eq_coe.mpr perm, mapped_total mapped, total]

theorem sequential_exists (readable : ∀ file ∈ job.files, job.input file ≠ none) :
    ∃ out, Sequential job out := by
  obtain ⟨intermediate, mapped⟩ := mapped_exists readable
  let before (a b : KeyValue) : Bool := a.key ≤ b.key
  have ordered : (intermediate.mergeSort before).Pairwise fun a b => before a b = true := by
    refine List.pairwise_mergeSort (fun a b c first second => ?_) (fun a b => ?_) intermediate
    · simp only [before, decide_eq_true_eq] at first second ⊢
      exact List.le_trans first second
    · simp only [before, Bool.or_eq_true, decide_eq_true_eq]
      exact Std.Total.total a.key b.key
  refine ⟨_, intermediate, intermediate.mergeSort before, mapped, List.mergeSort_perm _ _, ?_, rfl⟩
  exact ordered.imp fun le => of_decide_eq_true le

end Output

end DistributedLabs.MrSequential
