import DistributedLabs.MrAgreement

/-! The applications of package mrapps whose pairs depend on the input alone:
word count, index, the one that exits early and the one that crashes, and what
a job leaves of each, through crashes, timeouts and tasks run twice. A crash or
a delay inside a plugin is a crash or a delay of its worker. `unicode.IsLetter`
is a parameter. -/

namespace DistributedLabs.MrApps
open GuardedRuns Grouping MrCoordinator MrTasks MrWorker MrSequential MrFiles MrProgress MrAgreement

section Words

/-- The size of a rune that starts with byte `b` and the range of its second
byte, for the bytes that start a longer one. -/
def firstByte (b : UInt8) : Option (ℕ × UInt8 × UInt8) :=
  if 0xC2 ≤ b ∧ b ≤ 0xDF then some (2, 0x80, 0xBF)
  else if b = 0xE0 then some (3, 0xA0, 0xBF)
  else if b = 0xED then some (3, 0x80, 0x9F)
  else if 0xE1 ≤ b ∧ b ≤ 0xEF then some (3, 0x80, 0xBF)
  else if b = 0xF0 then some (4, 0x90, 0xBF)
  else if 0xF1 ≤ b ∧ b ≤ 0xF3 then some (4, 0x80, 0xBF)
  else if b = 0xF4 then some (4, 0x80, 0x8F)
  else none

def continues (size : ℕ) (lo hi : UInt8) (tail : Bytes) : Bool :=
  match tail with
  | [] => false
  | second :: others =>
    tail.length = size - 1 && (lo ≤ second && second ≤ hi) &&
      others.all fun b => 0x80 ≤ b && b ≤ 0xBF

/-- The first rune of a text that starts with `b`, and its bytes. A byte that
starts none is read as the replacement rune. -/
def decodeRune (b : UInt8) (rest : Bytes) : ℕ × Bytes :=
  if b < 0x80 then (b.toNat, [b])
  else
    match firstByte b with
    | some (size, lo, hi) =>
      let tail := rest.take (size - 1)
      if continues size lo hi tail then
        (tail.foldl (fun r c => r * 64 + c.toNat % 64) (b.toNat % 2 ^ (7 - size)), b :: tail)
      else (0xFFFD, [b])
    | none => (0xFFFD, [b])

def runes : ℕ → Bytes → List (ℕ × Bytes)
  | 0, _ => []
  | _, [] => []
  | fuel + 1, b :: rest =>
    let first := decodeRune b rest
    first :: runes fuel (rest.drop (first.2.length - 1))

/-- The fields of a text, the one that has begun first. -/
def fieldsFrom (f : ℕ → Bool) (field : Bytes) : List (ℕ × Bytes) → List Bytes
  | [] => if field = [] then [] else [field]
  | (r, bytes) :: rest =>
    if f r then
      if field = [] then fieldsFrom f [] rest else field :: fieldsFrom f [] rest
    else fieldsFrom f (field ++ bytes) rest

def fieldsFunc (s : Bytes) (f : ℕ → Bool) : List Bytes :=
  fieldsFrom f [] (runes s.length s)

def words (isLetter : ℕ → Bool) (contents : Bytes) : List Bytes :=
  fieldsFunc contents fun r => !isLetter r

theorem firstByte_high {b lo hi : UInt8} {size : ℕ} (starts : firstByte b = some (size, lo, hi)) :
    0x80 ≤ lo := by
  simp only [firstByte] at starts
  split_ifs at starts <;> cases starts <;> decide

theorem continues_high {size : ℕ} {lo hi : UInt8} {tail : Bytes} (high : 0x80 ≤ lo)
    (whole : continues size lo hi tail = true) : ∀ c ∈ tail, 0x80 ≤ c := by
  cases tail with
  | nil => simp
  | cons second others =>
    simp only [continues, Bool.and_eq_true, decide_eq_true_eq, List.all_eq_true] at whole
    obtain ⟨⟨-, above, -⟩, rest⟩ := whole
    exact List.forall_mem_cons.mpr ⟨UInt8.le_trans high above, fun c member => (rest c member).1⟩

theorem newline_decodeRune {b : UInt8} {rest : Bytes} (inside : 10 ∈ (decodeRune b rest).2) :
    (decodeRune b rest).1 = 10 := by
  by_cases plain : b < 0x80
  · simp only [decodeRune, if_pos plain, List.mem_singleton] at inside ⊢
    rw [← inside]
    rfl
  · exfalso
    have apart : (10 : UInt8) ≠ b := by
      rintro rfl
      exact plain (by decide)
    simp only [decodeRune, if_neg plain] at inside
    split at inside
    · rename_i size lo hi starts
      split at inside
      · rename_i whole
        have tail := continues_high (firstByte_high starts) whole 10
          ((List.mem_cons.mp inside).resolve_left apart)
        exact absurd tail (by decide)
      · exact apart (List.mem_singleton.mp inside)
    · exact apart (List.mem_singleton.mp inside)

theorem newline_runes (fuel : ℕ) (s : Bytes) :
    ∀ rune ∈ runes fuel s, 10 ∈ rune.2 → rune.1 = 10 := by
  induction fuel generalizing s with
  | zero => simp [runes]
  | succ fuel ih =>
    cases s with
    | nil => simp [runes]
    | cons b rest =>
      rw [runes]
      exact List.forall_mem_cons.mpr ⟨newline_decodeRune, ih _⟩

theorem newline_fieldsFrom {f : ℕ → Bool} (separates : f 10 = true) (rs : List (ℕ × Bytes))
    (plain : ∀ rune ∈ rs, 10 ∈ rune.2 → rune.1 = 10) (field : Bytes) (clean : 10 ∉ field) :
    ∀ word ∈ fieldsFrom f field rs, 10 ∉ word := by
  induction rs generalizing field with
  | nil =>
    rw [fieldsFrom]
    split
    · simp
    · simpa using clean
  | cons rune rest ih =>
    obtain ⟨first, others⟩ := List.forall_mem_cons.mp plain
    rw [fieldsFrom]
    split
    · split
      · exact ih others [] (by simp)
      · exact List.forall_mem_cons.mpr ⟨clean, ih others [] (by simp)⟩
    · rename_i kept
      refine ih others _ fun inside => ?_
      rcases List.mem_append.mp inside with before | here
      · exact clean before
      · rw [first here] at kept
        exact kept separates

theorem newline_words {isLetter : ℕ → Bool} (newline : isLetter 10 = false) (contents : Bytes) :
    ∀ word ∈ words isLetter contents, 10 ∉ word :=
  newline_fieldsFrom (by simp [newline]) _ (newline_runes _ _) [] (by simp)

end Words

section Plugins

def utf8 (text : List Char) : Bytes := text.flatMap String.utf8EncodeChar

def itoa (n : ℕ) : Bytes := utf8 (decimal n)

def sortStrings (values : List Bytes) : List Bytes := values.insertionSort (· ≤ ·)

/-- `strings.Join` with a separator of one byte. -/
def join (values : List Bytes) (sep : UInt8) : Bytes := [sep].intercalate values

def wcMap (isLetter : ℕ → Bool) (_filename : Path) (contents : Bytes) : List KeyValue :=
  (words isLetter contents).map fun w => ⟨w, utf8 ['1']⟩

def wcReduce (_key : Bytes) (values : List Bytes) : Bytes := itoa values.length

/-- The pairs for the keys of a Go map, which come in any order. -/
def indexerMap (isLetter : ℕ → Bool) (document : Path) (value : Bytes) : Multiset KeyValue :=
  ((words isLetter value : Multiset Bytes).dedup).map fun w => ⟨w, utf8 document⟩

def indexerReduce (_key : Bytes) (values : List Bytes) : Bytes :=
  itoa values.length ++ 32 :: join (sortStrings values) 44

def crashMap (filename : Path) (contents : Bytes) : List KeyValue :=
  [⟨utf8 ['a'], utf8 filename⟩, ⟨utf8 ['b'], itoa (utf8 filename).length⟩,
    ⟨utf8 ['c'], itoa contents.length⟩, ⟨utf8 ['d'], utf8 "xyzzy".toList⟩]

def crashReduce (_key : Bytes) (values : List Bytes) : Bytes := join (sortStrings values) 32

def earlyExitMap (filename : Path) (_contents : Bytes) : List KeyValue :=
  [⟨utf8 filename, utf8 ['1']⟩]

def earlyExitReduce (_key : Bytes) (values : List Bytes) : Bytes := itoa values.length

end Plugins

section Lines

theorem lines_single {body : Bytes} (plain : 10 ∉ body) : lines (body ++ [10]) = [body] := by
  induction body with
  | nil => rfl
  | cons b rest ih =>
    obtain ⟨first, others⟩ := not_or.mp (List.mem_cons.not.mp plain)
    rw [List.cons_append, lines, if_neg (Ne.symm first), ih others]

variable {job : Job}

theorem expected_keys {records : Multiset KeyValue} (values : Bytes → List Bytes)
    (grouped : ∀ key ∈ records.map KeyValue.key,
      valuesOf KeyValue.key KeyValue.value key records = values key)
    (plain : ∀ key ∈ records.map KeyValue.key, 10 ∉ key ∧ 10 ∉ job.reducef key (values key)) :
    expected job records = (records.map KeyValue.key).dedup.map
      fun key => key ++ 32 :: job.reducef key (values key) := by
  have printed : ∀ key ∈ (records.map KeyValue.key).dedup,
      groupLines job (key, valuesOf KeyValue.key KeyValue.value key records) =
        {key ++ 32 :: job.reducef key (values key)} := by
    intro key member
    have occurs := Multiset.mem_dedup.mp member
    obtain ⟨left, right⟩ := plain key occurs
    have body : 10 ∉ key ++ 32 :: job.reducef key (values key) := by
      simp [left, right]
    rw [grouped key occurs]
    change (lines (job.line key (values key)) : Multiset Bytes) = _
    rw [Job.line, lines_single body]
    rfl
  rw [expected, groups_eq_map, Multiset.map_map, Multiset.toFinset_val,
    ← Multiset.sum_map_singleton (Multiset.map (fun key => key ++ _) _), Multiset.map_map]
  exact congrArg Multiset.sum (Multiset.map_congr rfl printed)

theorem mem_sum_map {A B : Type*} {l : List A} {f : A → Multiset B} {b : B} :
    b ∈ (l.map f).sum ↔ ∃ a ∈ l, b ∈ f a := by
  induction l with
  | nil => simp
  | cons a rest ih => simp [ih]

theorem valuesOf_total (key : Bytes) :
    valuesOf KeyValue.key KeyValue.value key (total job) = (job.files.map
      fun file => valuesOf KeyValue.key KeyValue.value key (output job file)).sum := by
  rw [total]
  induction job.files with
  | nil => rfl
  | cons file rest ih =>
    rw [List.map_cons, List.sum_cons, List.map_cons, List.sum_cons, ← ih]
    simp [valuesOf]

theorem keys_total : (total job).map KeyValue.key =
    (job.files.map fun file => (output job file).map KeyValue.key).sum := by
  rw [total]
  induction job.files with
  | nil => rfl
  | cons file rest ih => simp [ih]

theorem finished_lines {start : Directory} {sys : System} (inputs : Inputs job start)
    (empty : ∀ path ∈ start, ¬ "temp/mr-".toList <+: path) (positive : 1 ≤ job.nReduce)
    (run : Reaches job start (SafeTemp job) sys) (finished : done sys.coordinator = true) :
    outputLines sys.files job.nReduce = expected job (total job) := by
  have sound := reaches_sound inputs empty run
  have exist : sys.coordinator.status = .existPhase := (of_decide_eq_true finished).1
  rw [← expected_shares job positive, outputLines]
  refine Finset.sum_congr rfl fun r member => ?_
  have bound := Finset.mem_range.mp member
  obtain ⟨records, entries, pairs, visited, found⟩ : Printed job sys.files r :=
    sound.completed .reduceTask r (sound.kept.completed_reduce exist bound)
  rw [found, Option.elim_some, printEntries_lines visited, pairs]

end Lines

section Jobs

def encodeString (s : Bytes) : Bytes := s.flatMap (fun b => [1, b]) ++ [0]

def decodeString : Bytes → Option (Bytes × Bytes)
  | 0 :: rest => some ([], rest)
  | 1 :: b :: rest => (decodeString rest).map fun read => (b :: read.1, read.2)
  | _ => none

def encodePair (kv : KeyValue) : Bytes := encodeString kv.key ++ encodeString kv.value

def decodePairs : ℕ → Bytes → List KeyValue
  | 0, _ => []
  | fuel + 1, text =>
    match decodeString text with
    | some (key, rest) =>
      match decodeString rest with
      | some (value, rest) => ⟨key, value⟩ :: decodePairs fuel rest
      | none => []
    | none => []

theorem decodeString_encodeString (s rest : Bytes) :
    decodeString (encodeString s ++ rest) = some (s, rest) := by
  induction s with
  | nil => rfl
  | cons b s ih =>
    change (decodeString (encodeString s ++ rest)).map _ = _
    rw [ih]
    rfl

theorem decodePairs_encodePair (kvs : List KeyValue) (fuel : ℕ) (enough : kvs.length ≤ fuel) :
    decodePairs fuel (kvs.flatMap encodePair) = kvs := by
  induction kvs generalizing fuel with
  | nil => cases fuel <;> rfl
  | cons kv rest ih =>
    obtain ⟨fuel, rfl⟩ := Nat.exists_eq_succ_of_ne_zero (by simp at enough; omega : fuel ≠ 0)
    rw [List.flatMap_cons, encodePair, List.append_assoc, decodePairs,
      decodeString_encodeString]
    simp only [decodeString_encodeString]
    rw [ih fuel (by simpa using enough)]

theorem sortStrings_perm {values values' : List Bytes} (same : values.Perm values') :
    sortStrings values = sortStrings values' := by
  have sorted (l : List Bytes) : (sortStrings l).Pairwise (· ≤ ·) :=
    List.pairwise_insertionSort (· ≤ ·) l
  have perm : (sortStrings values).Perm (sortStrings values') :=
    (List.perm_insertionSort _ values).trans (same.trans (List.perm_insertionSort _ values').symm)
  exact perm.eq_of_pairwise (fun _ _ _ _ => List.le_antisymm) (sorted values) (sorted values')

def smallFiles : Directory :=
  ((∅ : Directory).insert ['b'] (utf8 "x".toList)).insert ['a'] (utf8 "x y".toList)

def smallJob (files : List Path) (nReduce : ℕ) (mapf : Path → Bytes → Multiset KeyValue)
    (reducef : Bytes → List Bytes → Bytes)
    (reducef_perm : ∀ key {values values' : List Bytes}, values.Perm values' →
      reducef key values = reducef key values') : Job where
  files := files
  nReduce := nReduce
  input := smallFiles.lookup
  mapf := mapf
  reducef := reducef
  reducef_perm := reducef_perm
  encode := encodePair
  decode text := decodePairs text.length text
  decode_encode kvs _ := by
    refine decodePairs_encodePair kvs _ ?_
    induction kvs with
    | nil => simp
    | cons kv rest ih =>
      have later := ih fun other member => by grind
      simp only [List.flatMap_cons, List.length_append, List.length_cons, encodePair,
        encodeString] at later ⊢
      omega

def asciiLetter (r : ℕ) : Bool := (65 ≤ r && r ≤ 90) || (97 ≤ r && r ≤ 122)

end Jobs

section Output
variable {job : Job} {isLetter : ℕ → Bool} {start : Directory} {sys : System}

def contents (job : Job) (file : Path) : Bytes := (job.input file).getD []

def allWords (job : Job) (isLetter : ℕ → Bool) : Multiset Bytes :=
  (job.files.map fun file => (words isLetter (contents job file) : Multiset Bytes)).sum

theorem newline_utf8EncodeChar {c : Char} (inside : 10 ∈ String.utf8EncodeChar c) : c = '\n' := by
  have bytes (x : ℕ) (same : (10 : UInt8) = UInt8.ofNat x) : x % 256 = 10 := by
    have value := congrArg UInt8.toNat same
    simpa [eq_comm] using value
  simp only [String.utf8EncodeChar] at inside
  split_ifs at inside <;> simp only [List.mem_cons, List.not_mem_nil, or_false] at inside
  · have value := bytes _ inside
    refine Char.ext (UInt32.toNat.inj ?_)
    change c.val.toNat = 10
    omega
  · rcases inside with same | same <;> have := bytes _ same <;> omega
  · rcases inside with same | same | same <;> have := bytes _ same <;> omega
  · rcases inside with same | same | same | same <;> have := bytes _ same <;> omega

theorem newline_utf8 {text : List Char} (plain : '\n' ∉ text) : 10 ∉ utf8 text := by
  intro inside
  obtain ⟨c, member, encoded⟩ := List.mem_flatMap.mp inside
  exact plain (newline_utf8EncodeChar encoded ▸ member)

theorem newline_itoa (n : ℕ) : 10 ∉ itoa n := newline_utf8 (notMem_decimal n rfl)

theorem newline_join {values : List Bytes} {sep : UInt8} (other : sep ≠ 10)
    (plain : ∀ value ∈ values, 10 ∉ value) : 10 ∉ join values sep := by
  induction values with
  | nil => simp [join, List.intercalate]
  | cons value rest ih =>
    obtain ⟨first, others⟩ := List.forall_mem_cons.mp plain
    have later := ih others
    cases rest with
    | nil => simpa [join, List.intercalate] using first
    | cons next rest =>
      have joined : join (value :: next :: rest) sep = value ++ sep :: join (next :: rest) sep := by
        simp [join, List.intercalate]
      rw [joined]
      simp [first, later, Ne.symm other]

theorem sortStrings_mem {values : List Bytes} {value : Bytes} :
    value ∈ sortStrings values ↔ value ∈ values :=
  (List.perm_insertionSort _ values).mem_iff

theorem finished_readable (inputs : Inputs job start)
    (empty : ∀ path ∈ start, ¬ "temp/mr-".toList <+: path)
    (run : Reaches job start (SafeTemp job) sys) (finished : done sys.coordinator = true)
    {file : Path} (listed : file ∈ job.files) : job.input file = some (contents job file) := by
  have sound := reaches_sound inputs empty run
  have exist : sys.coordinator.status = .existPhase := (of_decide_eq_true finished).1
  obtain ⟨m, found⟩ := List.mem_iff_getElem?.mp listed
  obtain ⟨⟨file', found', readable⟩, -⟩ := sound.completed .mapTask m
    (sound.kept.completed_map (by simp [exist]) (List.getElem?_eq_some_iff.mp found).1)
  obtain rfl : file = file' := Option.some.inj (found.symm.trans found')
  obtain ⟨content, opened⟩ := Option.ne_none_iff_exists'.mp readable
  rw [contents, opened, Option.getD_some]

theorem counted_lines (emit : Path → Multiset Bytes)
    (maps : ∀ file ∈ job.files, output job file = (emit file).map fun key => ⟨key, utf8 ['1']⟩)
    (reduces : ∀ key values, job.reducef key values = itoa values.length)
    (plain : ∀ file ∈ job.files, ∀ key ∈ emit file, 10 ∉ key) :
    expected job (total job) = (job.files.map emit).sum.dedup.map
      fun key => key ++ 32 :: itoa ((job.files.map emit).sum.count key) := by
  have pairs : total job = (job.files.map emit).sum.map fun key => ⟨key, utf8 ['1']⟩ := by
    rw [total, List.map_congr_left maps]
    induction job.files with
    | nil => rfl
    | cons file rest ih => simp [ih]
  have keys : (total job).map KeyValue.key = (job.files.map emit).sum := by
    rw [pairs, Multiset.map_map]
    exact Multiset.map_id' _
  rw [expected_keys fun key => List.replicate ((job.files.map emit).sum.count key) (utf8 ['1']),
    keys]
  · refine Multiset.map_congr rfl fun key _ => ?_
    rw [reduces, List.length_replicate]
  · intro key _
    rw [valuesOf, pairs, Multiset.filter_map, Multiset.map_map]
    change ((Multiset.filter (fun other => other = key) _).map fun _ => utf8 ['1']) = _
    rw [Multiset.filter_eq', Multiset.map_replicate]
    rfl
  · intro key member
    rw [keys] at member
    obtain ⟨file, known, inside⟩ := mem_sum_map.mp member
    rw [reduces]
    exact ⟨plain file known key inside, newline_itoa _⟩

theorem output_contents {plugin : Path → Bytes → Multiset KeyValue}
    (maps : ∀ file content, job.mapf file content = plugin file content)
    (nothing : ∀ file, plugin file [] = 0) (file : Path) :
    output job file = plugin file (contents job file) := by
  rw [output, contents]
  cases job.input file with
  | none => exact (nothing file).symm
  | some content => exact maps file content

/-- A finished word count lists each word of the input files with the number
of times it occurs in them. -/
theorem wc_output
    (maps : ∀ file content, job.mapf file content = (wcMap isLetter file content : List KeyValue))
    (reduces : ∀ key values, job.reducef key values = wcReduce key values)
    (newline : isLetter 10 = false) (inputs : Inputs job start)
    (empty : ∀ path ∈ start, ¬ "temp/mr-".toList <+: path) (positive : 1 ≤ job.nReduce)
    (run : Reaches job start (SafeTemp job) sys) (finished : done sys.coordinator = true) :
    outputLines sys.files job.nReduce = (allWords job isLetter).dedup.map
      fun word => word ++ 32 :: itoa ((allWords job isLetter).count word) := by
  rw [finished_lines inputs empty positive run finished]
  refine counted_lines _ (fun file _ => ?_) reduces fun file _ word member => ?_
  · exact output_contents maps (fun _ => rfl) file
  · exact newline_words newline _ word (Multiset.mem_coe.mp member)

def wcJob : Job := smallJob [['a'], ['b']] 2 (fun file content => wcMap asciiLetter file content)
  wcReduce fun _ _ _ same => by rw [wcReduce, wcReduce, same.length_eq]

/-- Worker 1 crashes in its map task; worker 2 does all the work. -/
theorem wc_output_crash : ∃ sys : System, Reaches wcJob smallFiles (SafeTemp wcJob) sys ∧
    done sys.coordinator = true ∧
    outputLines sys.files 2 = {utf8 "x 2".toList, utf8 "y 1".toList} := by
  obtain ⟨sys, run, finished⟩ := exec_test (step wcJob) (SafeTemp wcJob) (init wcJob smallFiles)
    (List.flatten [[.start 1, .start 2, .request 1],
      (mapScript 1 [⟨utf8 ['x'], utf8 ['1']⟩, ⟨utf8 ['y'], utf8 ['1']⟩] ['0'] ['1']).take 8,
      [.crash 1, .request 2],
      mapScript 2 [⟨utf8 ['x'], utf8 ['1']⟩] ['2'] ['3'], [.expire 0, .request 2],
      mapScript 2 [⟨utf8 ['x'], utf8 ['1']⟩, ⟨utf8 ['y'], utf8 ['1']⟩] ['4'] ['5'], [.request 2],
      reduceScript 2 2 ['8'], [.request 2], reduceScript 2 2 ['9'], [.request 2]])
    (fun sys => done sys.coordinator) (by decide +kernel)
  have output := wc_output (fun _ _ => rfl) (fun _ _ => rfl) (by decide)
    ⟨fun _ _ => rfl, by decide, by decide⟩ (by decide) (by decide) run finished
  refine ⟨sys, run, finished, output.trans ?_⟩
  decide +kernel

/-- The application that exits early lists each input file with the number of
times it was given. -/
theorem earlyExit_output
    (maps : ∀ file content, job.mapf file content = (earlyExitMap file content : List KeyValue))
    (reduces : ∀ key values, job.reducef key values = earlyExitReduce key values)
    (names : ∀ file ∈ job.files, '\n' ∉ file) (inputs : Inputs job start)
    (empty : ∀ path ∈ start, ¬ "temp/mr-".toList <+: path) (positive : 1 ≤ job.nReduce)
    (run : Reaches job start (SafeTemp job) sys) (finished : done sys.coordinator = true) :
    outputLines sys.files job.nReduce = (job.files.map utf8 : Multiset Bytes).dedup.map
      fun name => name ++ 32 :: itoa ((job.files.map utf8 : Multiset Bytes).count name) := by
  have given : (job.files.map fun file => ({utf8 file} : Multiset Bytes)).sum =
      job.files.map utf8 := by
    induction job.files with
    | nil => rfl
    | cons file rest ih => rw [List.map_cons, List.sum_cons, ih]; rfl
  have counted := counted_lines (fun file => {utf8 file}) (fun file listed => ?_) reduces
    fun file listed key member => ?_
  · rw [finished_lines inputs empty positive run finished, counted, given]
  · rw [output, finished_readable inputs empty run finished listed]
    exact maps file _
  · rw [Multiset.mem_singleton.mp member]
    exact newline_utf8 (names file listed)

def documents (job : Job) (isLetter : ℕ → Bool) (word : Bytes) : List Bytes :=
  (job.files.filter fun file => word ∈ words isLetter (contents job file)).map utf8

theorem indexerMap_values (document : Path) (value word : Bytes) :
    valuesOf KeyValue.key KeyValue.value word (indexerMap isLetter document value) =
      if word ∈ words isLetter value then {utf8 document} else 0 := by
  rw [valuesOf, indexerMap, Multiset.filter_map, Multiset.map_map]
  change ((Multiset.filter (fun other => other = word) _).map fun _ => utf8 document) = _
  rw [Multiset.filter_eq', Multiset.map_replicate]
  have counted : (words isLetter value : Multiset Bytes).dedup.count word =
      if word ∈ words isLetter value then 1 else 0 := by
    rw [Multiset.count_eq_of_nodup (Multiset.nodup_dedup _)]
    simp only [Multiset.mem_dedup, Multiset.mem_coe]
  rw [counted]
  split <;> rfl

theorem mem_indexerMap_keys {document : Path} {value word : Bytes} :
    word ∈ (indexerMap isLetter document value).map KeyValue.key ↔
      word ∈ words isLetter value := by
  simp [indexerMap]

/-- A finished index lists each word of the input files with the number and
the sorted names of the files that contain it. -/
theorem indexer_output
    (maps : ∀ file content, job.mapf file content = indexerMap isLetter file content)
    (reduces : ∀ key values, job.reducef key values = indexerReduce key values)
    (newline : isLetter 10 = false) (names : ∀ file ∈ job.files, '\n' ∉ file)
    (inputs : Inputs job start)
    (empty : ∀ path ∈ start, ¬ "temp/mr-".toList <+: path) (positive : 1 ≤ job.nReduce)
    (run : Reaches job start (SafeTemp job) sys) (finished : done sys.coordinator = true) :
    outputLines sys.files job.nReduce = (allWords job isLetter).dedup.map
      fun word => word ++ 32 :: (itoa (documents job isLetter word).length ++ 32 ::
        join (sortStrings (documents job isLetter word)) 44) := by
  have emitted (file : Path) : output job file = indexerMap isLetter file (contents job file) :=
    output_contents maps (fun _ => rfl) file
  have mem_keys (word : Bytes) : word ∈ (total job).map KeyValue.key ↔
      ∃ file ∈ job.files, word ∈ words isLetter (contents job file) := by
    simp only [keys_total, mem_sum_map, emitted, mem_indexerMap_keys]
  have grouped (word : Bytes) : valuesOf KeyValue.key KeyValue.value word (total job) =
      documents job isLetter word := by
    rw [valuesOf_total, documents]
    simp only [emitted, indexerMap_values]
    induction job.files with
    | nil => rfl
    | cons file rest ih =>
      rw [List.map_cons, List.sum_cons, ih, List.filter_cons]
      by_cases inside : word ∈ words isLetter (contents job file)
      · rw [if_pos inside, if_pos (by simpa using inside)]
        rfl
      · rw [if_neg inside, if_neg (by simpa using inside), zero_add]
  have keys : ((total job).map KeyValue.key).dedup = (allWords job isLetter).dedup := by
    refine Multiset.dedup_ext.mpr fun word => ?_
    rw [mem_keys, allWords, mem_sum_map]
    rfl
  rw [finished_lines inputs empty positive run finished,
    expected_keys _ (fun word _ => grouped word), keys]
  · refine Multiset.map_congr rfl fun word _ => ?_
    rw [reduces, indexerReduce]
  · intro word member
    obtain ⟨file, -, inside⟩ := (mem_keys word).mp member
    refine ⟨newline_words newline _ word inside, ?_⟩
    have joined : 10 ∉ join (sortStrings (documents job isLetter word)) 44 := by
      refine newline_join (by decide) fun value listed => ?_
      obtain ⟨file, known, rfl⟩ := List.mem_map.mp (sortStrings_mem.mp listed)
      exact newline_utf8 (names file (List.mem_of_mem_filter known))
    simp [reduces, indexerReduce, newline_itoa, joined]

def indexerJob : Job := smallJob [['b'], ['a']] 2 (indexerMap asciiLetter) indexerReduce
  fun _ _ _ same => by rw [indexerReduce, indexerReduce, same.length_eq, sortStrings_perm same]

/-- The index of two files, given in the wrong order. -/
theorem indexer_output_sorted : ∃ sys : System,
    Reaches indexerJob smallFiles (SafeTemp indexerJob) sys ∧ done sys.coordinator = true ∧
    outputLines sys.files 2 = {utf8 "x 2 a,b".toList, utf8 "y 1 a".toList} := by
  obtain ⟨sys, run, finished⟩ := exec_test (step indexerJob) (SafeTemp indexerJob)
    (init indexerJob smallFiles)
    (List.flatten [[.start 1, .request 1],
      mapScript 1 [⟨utf8 ['x'], utf8 ['b']⟩] ['0'] ['1'], [.request 1],
      mapScript 1 [⟨utf8 ['y'], utf8 ['a']⟩, ⟨utf8 ['x'], utf8 ['a']⟩] ['2'] ['3'], [.request 1],
      reduceScript 1 2 ['4'], [.request 1], reduceScript 1 2 ['5'], [.request 1]])
    (fun sys => done sys.coordinator) (by decide +kernel)
  have output := indexer_output (fun _ _ => rfl) (fun _ _ => rfl) (by decide) (by decide)
    ⟨fun _ _ => rfl, by decide, by decide⟩ (by decide) (by decide) run finished
  refine ⟨sys, run, finished, output.trans ?_⟩
  decide +kernel

def crashKeys : List Bytes := [utf8 ['a'], utf8 ['b'], utf8 ['c'], utf8 ['d']]

def crashValues (job : Job) (key : Bytes) : List Bytes :=
  job.files.flatMap fun file =>
    ((crashMap file (contents job file)).filter fun kv => kv.key = key).map KeyValue.value

theorem crashValues_plain (names : ∀ file ∈ job.files, '\n' ∉ file) (key : Bytes) :
    ∀ value ∈ crashValues job key, 10 ∉ value := by
  intro value member
  obtain ⟨file, listed, inside⟩ := List.mem_flatMap.mp member
  obtain ⟨kv, emitted, rfl⟩ := List.mem_map.mp inside
  have one := List.mem_of_mem_filter emitted
  simp only [crashMap, List.mem_cons, List.not_mem_nil, or_false] at one
  rcases one with rfl | rfl | rfl | rfl
  · exact newline_utf8 (names file listed)
  · exact newline_itoa _
  · exact newline_itoa _
  · exact newline_utf8 (by decide)

def crashLine (key : Bytes) (values : List Bytes) : Bytes :=
  key ++ 32 :: join (sortStrings values) 32

theorem crash_lines (emitted : ∀ file ∈ job.files,
      output job file = (crashMap file (contents job file) : List KeyValue))
    (reduces : ∀ key values, job.reducef key values = crashReduce key values)
    (names : ∀ file ∈ job.files, '\n' ∉ file) (some_file : job.files ≠ []) :
    expected job (total job) = (crashKeys : Multiset Bytes).map
      fun key => crashLine key (crashValues job key) := by
  have grouped (key : Bytes) : valuesOf KeyValue.key KeyValue.value key (total job) =
      crashValues job key := by
    rw [valuesOf_total, crashValues]
    have each : job.files.map (fun file => valuesOf KeyValue.key KeyValue.value key
        (output job file)) = job.files.map fun file =>
        ((((crashMap file (contents job file)).filter fun kv => kv.key = key).map
          KeyValue.value : List Bytes) : Multiset Bytes) :=
      List.map_congr_left fun file listed => by
        rw [emitted file listed, valuesOf, Multiset.filter_coe, Multiset.map_coe]
    rw [each]
    generalize job.files = files
    induction files with
    | nil => rfl
    | cons file rest ih =>
      rw [List.map_cons, List.sum_cons, ih, List.flatMap_cons, ← Multiset.coe_add]
  have mem_keys (key : Bytes) : key ∈ (total job).map KeyValue.key ↔ key ∈ crashKeys := by
    rw [keys_total, mem_sum_map]
    constructor
    · rintro ⟨file, listed, inside⟩
      rw [emitted file listed] at inside
      simpa [crashMap, crashKeys] using inside
    · intro member
      obtain ⟨file, listed⟩ := List.exists_mem_of_ne_nil _ some_file
      refine ⟨file, listed, ?_⟩
      rw [emitted file listed]
      simpa [crashMap, crashKeys] using member
  have keys : ((total job).map KeyValue.key).dedup = crashKeys := by
    have single : (crashKeys : Multiset Bytes).dedup = crashKeys := by decide
    rw [← single]
    exact Multiset.dedup_ext.mpr mem_keys
  rw [expected_keys _ (fun key _ => grouped key), keys]
  · refine Multiset.map_congr rfl fun key _ => ?_
    rw [reduces, crashReduce, crashLine]
  · intro key member
    rw [reduces]
    refine ⟨?_, newline_join (by decide) fun value listed => ?_⟩
    · have clean : ∀ key ∈ crashKeys, 10 ∉ key := by decide
      exact clean key ((mem_keys key).mp member)
    · exact crashValues_plain names key value (sortStrings_mem.mp listed)

/-- A finished job of the crashing application lists, sorted, the names of the
input files, the lengths of their names and of their contents, and a constant
for each. -/
theorem crash_output
    (maps : ∀ file content, job.mapf file content = (crashMap file content : List KeyValue))
    (reduces : ∀ key values, job.reducef key values = crashReduce key values)
    (names : ∀ file ∈ job.files, '\n' ∉ file) (some_file : job.files ≠ [])
    (inputs : Inputs job start)
    (empty : ∀ path ∈ start, ¬ "temp/mr-".toList <+: path) (positive : 1 ≤ job.nReduce)
    (run : Reaches job start (SafeTemp job) sys) (finished : done sys.coordinator = true) :
    outputLines sys.files job.nReduce =
      {crashLine (utf8 ['a']) (job.files.map utf8),
        crashLine (utf8 ['b']) (job.files.map fun file => itoa (utf8 file).length),
        crashLine (utf8 ['c']) (job.files.map fun file => itoa (contents job file).length),
        crashLine (utf8 ['d']) (job.files.map fun _ => utf8 "xyzzy".toList)} := by
  have emitted : ∀ file ∈ job.files,
      output job file = (crashMap file (contents job file) : List KeyValue) := by
    intro file listed
    rw [output, finished_readable inputs empty run finished listed]
    exact maps file _
  -- each key has one value in the pairs of a file
  have a : crashValues job (utf8 ['a']) = job.files.map utf8 := List.map_eq_flatMap.symm
  have b : crashValues job (utf8 ['b']) = job.files.map fun file => itoa (utf8 file).length :=
    List.map_eq_flatMap.symm
  have c : crashValues job (utf8 ['c']) = job.files.map fun file =>
      itoa (contents job file).length := List.map_eq_flatMap.symm
  have d : crashValues job (utf8 ['d']) = job.files.map fun _ => utf8 "xyzzy".toList :=
    List.map_eq_flatMap.symm
  rw [finished_lines inputs empty positive run finished,
    crash_lines emitted reduces names some_file, ← a, ← b, ← c, ← d]
  rfl

def crashJob : Job := smallJob [['b']] 1 (fun file content => crashMap file content) crashReduce
  fun _ _ _ same => by rw [crashReduce, crashReduce, sortStrings_perm same]

theorem crash_output_one_file : ∃ sys : System,
    Reaches crashJob smallFiles (SafeTemp crashJob) sys ∧
    done sys.coordinator = true ∧ outputLines sys.files 1 = {utf8 "a b".toList,
      utf8 "b 1".toList, utf8 "c 1".toList, utf8 "d xyzzy".toList} := by
  obtain ⟨sys, run, finished⟩ := exec_test (step crashJob) (SafeTemp crashJob)
    (init crashJob smallFiles)
    (List.flatten [[.start 1, .request 1, .work 1 (.runMap (crashMap ['b'] (utf8 ['x']))),
      .work 1 (.create ['0']), .work 1 .leave], List.replicate 4 (.work 1 .encodeNext),
      [.work 1 .leave, .work 1 .renameNext, .work 1 .leave, .report 1, .handle 0, .request 1,
        .work 1 .globFiles, .work 1 .readNext, .work 1 (.create ['1'])],
      List.replicate 4 (.work 1 (.printNext 0)),
      [.work 1 .renameNext, .report 1, .handle 0, .request 1]])
    (fun sys => done sys.coordinator) (by decide +kernel)
  have output := crash_output (fun _ _ => rfl) (fun _ _ => rfl) (by decide) (by decide)
    ⟨fun _ _ => rfl, by decide, by decide⟩ (by decide) (by decide) run finished
  refine ⟨sys, run, finished, output.trans ?_⟩
  decide +kernel

end Output

end DistributedLabs.MrApps
