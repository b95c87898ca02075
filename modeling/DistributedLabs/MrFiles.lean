import DistributedLabs.MrSequential

/-! The files of a job. An intermediate name is found by the pattern of its own
reduce task only; temporary files are found by none. What an intermediate file
and an output file must hold is said here, with the two changes a worker makes
to the directory: writing a temporary file and publishing it by a rename. -/

namespace DistributedLabs.MrFiles
open Grouping MrCoordinator MrWorker MrSequential

theorem decimal_inj {a b : ℕ} (same : decimal a = decimal b) : a = b := by
  have parsed := congrArg (fun digits => Nat.ofDigitChars 10 digits 0) same
  simpa [decimal, Nat.ofDigitChars_ten_toDigits] using parsed

theorem notMem_decimal (n : ℕ) {c : Char} (other : c.isDigit = false) : c ∉ decimal n := by
  intro member
  have digit := Nat.isDigit_of_mem_toDigits (by decide) (by decide) member
  exact absurd (digit.symm.trans other) (by decide)

theorem globs_intermediateName (m r k : ℕ) : globs k (intermediateName m r) = true ↔ k = r := by
  have kept : (intermediateName m r).drop "temp/mr-".toList.length =
      decimal m ++ '-' :: decimal r := List.drop_left
  have plain : (decimal m ++ '-' :: decimal r).contains '/' = false := by
    simp [notMem_decimal _ (show ('/' : Char).isDigit = false from rfl)]
  have head : "temp/mr-".toList.isPrefixOf (intermediateName m r) = true :=
    List.isPrefixOf_iff_prefix.mpr (List.prefix_append _ _)
  simp only [globs, kept, plain, head, Bool.true_and, Bool.not_false, Bool.and_true]
  rw [List.isSuffixOf_iff_suffix]
  have dash (n : ℕ) : '-' ∉ decimal n := notMem_decimal n rfl
  constructor
  · rintro ⟨front, equal⟩
    have split := (List.append_cons_inj_of_notMem (dash m) (dash r)).mp equal.symm
    exact decimal_inj split.2.2.symm
  · rintro rfl
    exact List.suffix_append _ _

theorem globs_head {r : ℕ} {path : Path} (matched : globs r path = true) :
    "temp/mr-".toList <+: path := by
  simp only [globs, Bool.and_eq_true] at matched
  exact List.isPrefixOf_iff_prefix.mp matched.1.1

/-- A name in the directory of temporary files that no reduce task reads. -/
def Scratch (n : ℕ) (path : Path) : Prop :=
  "temp/".toList <+: path ∧ ∀ r < n, globs r path = false

theorem Scratch.ne_intermediateName {n : ℕ} {path : Path} (h : Scratch n path) (m : ℕ) {r : ℕ}
    (bound : r < n) : path ≠ intermediateName m r := by
  rintro rfl
  exact absurd ((globs_intermediateName m r r).mpr rfl) (by simp [h.2 r bound])

theorem Scratch.ne_outName {n : ℕ} {path : Path} (h : Scratch n path) (r : ℕ) :
    path ≠ outName r := by
  rintro rfl
  obtain ⟨rest, equal⟩ := h.1
  exact absurd (List.cons.inj equal).1 (by decide)

theorem outName_ne_intermediateName (k m r : ℕ) : outName k ≠ intermediateName m r := by
  intro equal
  exact absurd (List.cons.inj equal).1 (by decide)

theorem outName_inj {r k : ℕ} (same : outName r = outName k) : r = k :=
  decimal_inj (List.append_cancel_left same)

theorem globs_outName (r k : ℕ) : globs r (outName k) = false := rfl

/-- No task publishes a file under this name. -/
def Untargeted (n : ℕ) (path : Path) : Prop :=
  ∀ r < n, path ≠ outName r ∧ ∀ m, path ≠ intermediateName m r

theorem Scratch.untargeted {n : ℕ} {path : Path} (h : Scratch n path) : Untargeted n path :=
  fun r bound => ⟨h.ne_outName r, fun m => h.ne_intermediateName m bound⟩

theorem mem_glob {files : Directory} {r : ℕ} {path : Path} :
    path ∈ glob files r ↔ path ∈ files ∧ globs r path = true := by
  rw [glob, (List.perm_insertionSort _ _).mem_iff, List.mem_filter, AList.mem_keys]

theorem glob_nodup (files : Directory) (r : ℕ) : (glob files r).Nodup :=
  (List.perm_insertionSort _ _).nodup_iff.mpr (files.keys_nodup.filter _)

theorem lookup_rename {files : Directory} {old new : Path} {content : Bytes}
    (found : files.lookup old = some content) (path : Path) :
    (rename files old new).lookup path =
      if path = new then some content else if path = old then none else files.lookup path := by
  simp only [rename, found]
  split
  · rename_i same
    rw [same, AList.lookup_insert]
  · rename_i apart
    rw [AList.lookup_insert_ne apart]
    split
    · rename_i same
      rw [same, AList.lookup_erase]
    · rename_i away
      exact AList.lookup_erase_ne away

theorem mem_of_lookup {files : Directory} {path : Path} {content : Bytes}
    (found : files.lookup path = some content) : path ∈ files :=
  AList.lookup_isSome.mp (by rw [found]; rfl)

theorem intermediateName_inj {m r k s : ℕ} (same : intermediateName m r = intermediateName k s) :
    m = k ∧ r = s := by
  have dash (n : ℕ) : '-' ∉ decimal n := notMem_decimal n rfl
  have split := (List.append_cons_inj_of_notMem (dash m) (dash r)).mp
    (List.append_cancel_left same)
  exact ⟨decimal_inj split.1, decimal_inj split.2.2⟩

section Contents
variable (job : Job)

def mapped (m : ℕ) : Multiset KeyValue :=
  job.files[m]?.elim 0 (output job)

def bucket (m r : ℕ) : Multiset KeyValue :=
  (mapped job m).filter fun kv => ihash kv.key % job.nReduce = r

def share (r : ℕ) : Multiset KeyValue :=
  ((List.range job.files.length).map fun m => bucket job m r).sum

def Readable (m : ℕ) : Prop :=
  ∃ file, job.files[m]? = some file ∧ job.input file ≠ none

def Published (files : Directory) (m r : ℕ) : Prop :=
  ∃ kvs : List KeyValue, (kvs : Multiset KeyValue) = bucket job m r ∧
    files.lookup (intermediateName m r) = some (kvs.flatMap job.encode)

/-- The table of some arrangement of the pairs of `r` was printed, in some order. -/
def Printed (files : Directory) (r : ℕ) : Prop :=
  ∃ (records : List KeyValue) (entries : List ((_ : Bytes) × List Bytes)),
    (records : Multiset KeyValue) = share job r ∧
    entries.Perm (collect KeyValue.key KeyValue.value ∅ records).entries ∧
    files.lookup (outName r) = some (entries.flatMap fun entry => job.line entry.1 entry.2)

/-- A reduce task finds published files only. -/
def Clean (files : Directory) : Prop :=
  ∀ path ∈ files, ∀ r < job.nReduce, globs r path = true →
    ∃ m < job.files.length, path = intermediateName m r

structure Grows (files files' : Directory) : Prop where
  published : ∀ m r, r < job.nReduce → Published job files m r → Published job files' m r
  printed : ∀ r, Printed job files r → Printed job files' r

variable {job} {files : Directory} {temp : Path}

theorem Grows.refl : Grows job files files :=
  ⟨fun _ _ _ h => h, fun _ h => h⟩

theorem Published.decode {m r : ℕ} (h : Published job files m r) {content : Bytes}
    (found : files.lookup (intermediateName m r) = some content) :
    (job.decode content : Multiset KeyValue) = bucket job m r := by
  obtain ⟨kvs, pairs, held⟩ := h
  obtain rfl : content = _ := Option.some.inj (found.symm.trans held)
  rw [job.decode_encode kvs, pairs]
  intro kv member
  have inside : kv ∈ bucket job m r := by rw [← pairs]; exact member
  have emitted : kv ∈ mapped job m := Multiset.mem_of_mem_filter inside
  cases file : job.files[m]? with
  | none => simp [mapped, file] at emitted
  | some file' =>
    cases opened : job.input file' with
    | none => simp [mapped, file, output, opened] at emitted
    | some content =>
      exact ⟨file', List.mem_of_getElem? file, content, opened,
        by simpa [mapped, file, output, opened] using emitted⟩

theorem insert_grows (scratch : Scratch job.nReduce temp) (content : Bytes) :
    Grows job files (files.insert temp content) where
  published m r bound := by
    rintro ⟨kvs, pairs, found⟩
    exact ⟨kvs, pairs, by rwa [AList.lookup_insert_ne (scratch.ne_intermediateName m bound).symm]⟩
  printed r := by
    rintro ⟨records, entries, pairs, visited, found⟩
    exact ⟨records, entries, pairs, visited, by
      rwa [AList.lookup_insert_ne (scratch.ne_outName r).symm]⟩

theorem insert_clean (clean : Clean job files) (scratch : Scratch job.nReduce temp)
    (content : Bytes) : Clean job (files.insert temp content) := by
  intro path member r bound matched
  rcases (AList.mem_insert files).mp member with rfl | before
  · exact absurd matched (by simp [scratch.2 r bound])
  · exact clean path before r bound matched

theorem mem_rename {old new path : Path} {content : Bytes}
    (found : files.lookup old = some content) (member : path ∈ rename files old new) :
    path = new ∨ path ∈ files := by
  obtain ⟨held, present⟩ := Option.isSome_iff_exists.mp (AList.lookup_isSome.mpr member)
  rw [lookup_rename found] at present
  split at present
  · exact .inl ‹_›
  · split at present
    · simp at present
    · exact .inr (mem_of_lookup present)

theorem publish_published {m r : ℕ} {kvs : List KeyValue}
    (pairs : (kvs : Multiset KeyValue) = bucket job m r)
    (found : files.lookup temp = some (kvs.flatMap job.encode)) :
    Published job (rename files temp (intermediateName m r)) m r :=
  ⟨kvs, pairs, by rw [lookup_rename found, if_pos rfl]⟩

theorem publish_grows (scratch : Scratch job.nReduce temp) {m r : ℕ} {kvs : List KeyValue}
    (pairs : (kvs : Multiset KeyValue) = bucket job m r)
    (found : files.lookup temp = some (kvs.flatMap job.encode)) :
    Grows job files (rename files temp (intermediateName m r)) where
  published k s bound held := by
    by_cases same : intermediateName k s = intermediateName m r
    · obtain ⟨rfl, rfl⟩ := intermediateName_inj same
      exact publish_published pairs found
    · obtain ⟨kvs', pairs', found'⟩ := held
      refine ⟨kvs', pairs', ?_⟩
      rwa [lookup_rename found, if_neg same, if_neg (scratch.ne_intermediateName k bound).symm]
  printed k := by
    rintro ⟨records, entries, pairs', visited, found'⟩
    refine ⟨records, entries, pairs', visited, ?_⟩
    rwa [lookup_rename found, if_neg (outName_ne_intermediateName k m r),
      if_neg (scratch.ne_outName k).symm]

theorem publish_clean (clean : Clean job files) {m r : ℕ} {content : Bytes}
    (task : m < job.files.length) (found : files.lookup temp = some content) :
    Clean job (rename files temp (intermediateName m r)) := by
  intro path member k bound matched
  rcases mem_rename found member with rfl | before
  · obtain rfl := (globs_intermediateName m r k).mp matched
    exact ⟨m, task, rfl⟩
  · exact clean path before k bound matched

theorem print_grows (scratch : Scratch job.nReduce temp) {r : ℕ} {records : List KeyValue}
    {entries : List ((_ : Bytes) × List Bytes)}
    (pairs : (records : Multiset KeyValue) = share job r)
    (visited : entries.Perm (collect KeyValue.key KeyValue.value ∅ records).entries)
    (found : files.lookup temp =
      some (entries.flatMap fun entry => job.line entry.1 entry.2)) :
    Grows job files (rename files temp (outName r)) where
  published k s bound := by
    rintro ⟨kvs, pairs', found'⟩
    refine ⟨kvs, pairs', ?_⟩
    rwa [lookup_rename found, if_neg (outName_ne_intermediateName r k s).symm,
      if_neg (scratch.ne_intermediateName k bound).symm]
  printed k held := by
    by_cases same : outName k = outName r
    · obtain rfl := outName_inj same
      exact ⟨records, entries, pairs, visited, by rw [lookup_rename found, if_pos rfl]⟩
    · obtain ⟨records', entries', pairs', visited', found'⟩ := held
      refine ⟨records', entries', pairs', visited', ?_⟩
      rwa [lookup_rename found, if_neg same, if_neg (scratch.ne_outName k).symm]

theorem print_clean (clean : Clean job files) {r : ℕ} {content : Bytes}
    (found : files.lookup temp = some content) : Clean job (rename files temp (outName r)) := by
  intro path member k bound matched
  rcases mem_rename found member with rfl | before
  · exact absurd matched (by simp [globs_outName])
  · exact clean path before k bound matched

/-- With all maps published, the pattern of `r` finds each of their files once. -/
theorem glob_perm (clean : Clean job files) {r : ℕ} (bound : r < job.nReduce)
    (ready : ∀ m < job.files.length, Published job files m r) :
    (glob files r).Perm ((List.range job.files.length).map fun m => intermediateName m r) := by
  refine (List.perm_ext_iff_of_nodup (glob_nodup files r) ?_).mpr fun path => ?_
  · exact List.Nodup.map (fun m k same => (intermediateName_inj same).1) List.nodup_range
  · rw [mem_glob, List.mem_map]
    constructor
    · rintro ⟨member, matched⟩
      obtain ⟨m, task, rfl⟩ := clean path member r bound matched
      exact ⟨m, List.mem_range.mpr task, rfl⟩
    · rintro ⟨m, task, rfl⟩
      obtain ⟨kvs, -, found⟩ := ready m (List.mem_range.mp task)
      exact ⟨mem_of_lookup found, (globs_intermediateName m r r).mpr rfl⟩

end Contents

section Shares
variable (job : Job)

theorem total_eq : total job = ((List.range job.files.length).map (mapped job)).sum := by
  rw [total]
  congr 1
  refine List.ext_getElem (by simp) fun m inside _ => ?_
  have bound : m < job.files.length := by simpa using inside
  simp [mapped, bound]

theorem filter_sum {A B : Type*} (p : B → Prop) [DecidablePred p] (xs : List A)
    (f : A → Multiset B) :
    (xs.map f).sum.filter p = (xs.map fun x => (f x).filter p).sum := by
  induction xs with
  | nil => rfl
  | cons x rest ih => rw [List.map_cons, List.sum_cons, Multiset.filter_add, ih]; rfl

theorem share_eq (r : ℕ) :
    share job r = (total job).filter fun kv => ihash kv.key % job.nReduce = r := by
  rw [total_eq, filter_sum, share]
  rfl

theorem expected_shares (positive : 0 < job.nReduce) :
    ∑ r ∈ Finset.range job.nReduce, expected job (share job r) = expected job (total job) := by
  have parts := groups_partition KeyValue.key KeyValue.value
    (fun key => ihash key % job.nReduce) job.nReduce (total job)
    fun kv _ => Nat.mod_lt _ positive
  simp only [expected, share_eq]
  rw [← parts, ← Multiset.coe_mapAddMonoidHom, map_sum, ← Multiset.coe_sumAddMonoidHom, map_sum]

end Shares

end DistributedLabs.MrFiles
