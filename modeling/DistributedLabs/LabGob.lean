import DistributedLabs.GuardedRuns

/-! The checks that package labgob makes before it encodes or decodes a value:
field names that RPC and persistence would drop, and variables that are not at
their defaults. Types are the nodes of a graph that may have cycles, and every value
has its type. Any number of goroutines check at the same time; they share the types
already seen and the error count, and take the lock for each access of them. A
goroutine is the list of what it still has to do, and performs one piece at a time.
Package reflect panics when `checkDefault1` asks for the value of a lower-case field.
The fields `roots` and `decoded` are read by no check; they record what was asked for. -/

namespace DistributedLabs.LabGob
open GuardedRuns

structure Field (T : Type) where
  name : String
  type : T
  embedded : Bool

/-- What `reflect` tells of a type: `basic` stands for the kinds of bool, numbers and
strings, and `other` for those that neither check looks into. -/
inductive Kind (T : Type)
  | struct (fields : List (Field T))
  | slice (elem : T)
  | array (elem : T)
  | ptr (elem : T)
  | map (key elem : T)
  | basic
  | other

def Kind.closed {T : Type} : Kind T → Bool
  | .slice _ | .array _ | .map _ _ | .other => true
  | .struct _ | .ptr _ | .basic => false

/-- The types of a program; `isUpper` tests the first rune of a name. -/
structure Types (T : Type) where
  kind : T → Kind T
  name : T → String
  isUpper : String → Bool

/-- The values of a type, as far as `checkDefault1` looks; `zero` says whether a basic
value is the default of its type. -/
inductive Value {T : Type} (ts : Types T) : T → Type
  | struct {t : T} {fields : List (Field T)} (kind : ts.kind t = .struct fields)
      (parts : (i : Fin fields.length) → Value ts (fields.get i).type) : Value ts t
  | null {t u : T} (kind : ts.kind t = .ptr u) : Value ts t
  | ptr {t u : T} (kind : ts.kind t = .ptr u) (elem : Value ts u) : Value ts t
  | basic {t : T} (kind : ts.kind t = .basic) (zero : Bool) : Value ts t
  | other {t : T} (kind : (ts.kind t).closed = true) : Value ts t

/-- The bits of a `reflect.Value` that forbid `Interface`. -/
structure Flag where
  stickyRO : Bool
  embedRO : Bool

/-- `Field` of package reflect inherits only the first bit; `Elem` inherits both. -/
def Flag.field (flag : Flag) (exported embedded : Bool) : Flag :=
  ⟨flag.stickyRO || !exported && !embedded, !exported && embedded⟩

inductive Line
  | lowerCase (field typeName : String)
  | nonDefault (what : String)
  deriving DecidableEq

def Line.text : Line → String
  | .lowerCase field typeName =>
    s!"labgob error: lower-case field {field} of {typeName} in RPC or persist/snapshot " ++
      "will break your Raft\n"
  | .nonDefault what =>
    s!"labgob warning: Decoding into a non-default variable/field {what} may not work\n"

section Model

variable {T : Type} {m : ℕ} (ts : Types T)

/-- A call of `checkType` or `checkDefault1`, the body of the loop over the
fields of a struct, or the increment after a complaint. -/
inductive Task
  | check (t : T)
  | checkNil
  | field (t : T) (f : Field T)
  | count
  | default {t : T} (value : Value ts t) (flag : Flag) (depth : ℕ) (name : String)

structure Gob (m : ℕ) where
  checked : Finset T
  errorCount : ℕ
  printed : List Line
  threads : Fin m → List (Task ts)
  panicked : Bool
  roots : List T
  decoded : ℕ

inductive Call
  | encode (t : T)
  | decode {t : T} (value : Value ts t)
  | register (t : T)
  | absent

inductive Action (m : ℕ)
  | call (i : Fin m) (c : Call ts)
  | advance (i : Fin m)

def expand (t : T) : List (Task ts) :=
  match ts.kind t with
  | .struct fields => fields.map (.field t)
  | .slice elem | .array elem | .ptr elem => [.check elem]
  | .map key elem => [.check elem, .check key]
  | .basic | .other => []

variable {ts}

/-- The variables that `checkDefault1` complains of at a depth of four less `fuel`. -/
def nonDefaults : ℕ → {t : T} → Value ts t → ℕ
  | 0, _, _ => 0
  | fuel + 1, _, .struct _ parts => ∑ i, nonDefaults fuel (parts i)
  | fuel + 1, _, .ptr _ elem => nonDefaults fuel elem
  | _ + 1, _, .basic _ zero => if zero then 0 else 1
  | _ + 1, _, .null _ | _ + 1, _, .other _ => 0

/-- At a depth of four less `fuel`, `checkDefault1` comes to a basic variable whose
`Interface` is forbidden. -/
def Forbidden : ℕ → {t : T} → Value ts t → Flag → Prop
  | 0, _, _, _ => False
  | fuel + 1, _, @Value.struct _ _ _ fields _ parts, flag => ∃ i,
    Forbidden fuel (parts i) (flag.field (ts.isUpper (fields.get i).name) (fields.get i).embedded)
  | fuel + 1, _, .ptr _ elem, flag => Forbidden fuel elem flag
  | _ + 1, _, .basic _ _, flag => flag.stickyRO = true ∨ flag.embedRO = true
  | _ + 1, _, .null _, _ | _ + 1, _, .other _, _ => False

/-- The parts of a value that `checkDefault1` looks at, one level down. -/
def checkDefault1 (s : Gob ts m) {t : T} (value : Value ts t) (flag : Flag) (depth : ℕ)
    (name : String) : Gob ts m × List (Task ts) :=
  if depth > 3 then (s, [])
  else
    match value with
    | @Value.struct _ _ _ fields _ parts => (s, (List.finRange fields.length).map fun i =>
        let f := fields.get i
        .default (parts i) (flag.field (ts.isUpper f.name) f.embedded) (depth + 1)
          (if name ≠ "" then name ++ "." ++ f.name else f.name))
    | .null _ => (s, [])
    | .ptr _ elem => (s, [.default elem flag (depth + 1) name])
    | .basic _ zero =>
      -- `value.Interface()` is evaluated before the comparison
      if flag.stickyRO || flag.embedRO then ({ s with panicked := true }, [])
      else if zero then (s, [])
      else
        let what := if name = "" then ts.name t else name
        ({ s with
          printed := if s.errorCount < 1 then s.printed ++ [.nonDefault what] else s.printed
          errorCount := s.errorCount + 1 }, [])
    | .other _ => (s, [])

def checks : Call ts → List (Task ts)
  | .encode t | .register t => [.check t]
  | @Call.decode _ _ t value => [.check t, .default value ⟨false, false⟩ 1 ""]
  | .absent => [.checkNil]

def Call.types : Call ts → List T
  | .encode t | .register t | @Call.decode _ _ t _ => [t]
  | .absent => []

def Call.nonDefaults : Call ts → ℕ
  | .encode _ | .register _ | .absent => 0
  | .decode value => LabGob.nonDefaults 3 value

def begin (s : Gob ts m) (i : Fin m) (c : Call ts) : Option (Gob ts m) := do
  guard (s.panicked = false ∧ (s.threads i).isEmpty = true)
  some { s with
    threads := Function.update s.threads i (checks c)
    roots := s.roots ++ c.types
    decoded := s.decoded + c.nonDefaults }

variable (ts) in
def init : Gob ts m := ⟨∅, 0, [], fun _ => [], false, [], 0⟩

variable [DecidableEq T]

/-- Perform a task, up to the tasks it leaves. The type of a nil interface has no
kind to ask for. -/
def perform (s : Gob ts m) : Task ts → Gob ts m × List (Task ts)
  | .check t =>
    if t ∈ s.checked then (s, []) else ({ s with checked := insert t s.checked }, expand ts t)
  | .checkNil => ({ s with panicked := true }, [])
  | .field t f =>
    if ts.isUpper f.name = false then
      ({ s with printed := s.printed ++ [.lowerCase f.name (ts.name t)] }, [.count, .check f.type])
    else (s, [.check f.type])
  | .count => ({ s with errorCount := s.errorCount + 1 }, [])
  | .default value flag depth name => checkDefault1 s value flag depth name

def advance (s : Gob ts m) (i : Fin m) : Option (Gob ts m) :=
  if s.panicked then none
  else
    match s.threads i with
    | task :: rest =>
      let done := perform s task
      some { done.1 with threads := Function.update s.threads i (done.2 ++ rest) }
    | [] => none

def step (s : Gob ts m) : Action ts m → Option (Gob ts m)
  | .call i c => begin s i c
  | .advance i => advance s i

def Reaches (s : Gob ts m) : Prop := Run step free (init ts) s

end Model

section Reports

variable {T : Type} {m : ℕ} {ts : Types T}

def parts (t : T) (ts : Types T) : List T :=
  match ts.kind t with
  | .struct fields => fields.map Field.type
  | .slice elem | .array elem | .ptr elem => [elem]
  | .map key elem => [elem, key]
  | .basic | .other => []

inductive Inside (ts : Types T) (roots : List T) : T → Prop
  | root {t : T} : t ∈ roots → Inside ts roots t
  | part {t u : T} : Inside ts roots t → u ∈ parts t ts → Inside ts roots u

/-- The complaints that a type deserves. -/
def lowerCases (ts : Types T) (t : T) : Multiset Line :=
  match ts.kind t with
  | .struct fields =>
    ((fields.filter fun f => ts.isUpper f.name = false).map
      fun f => .lowerCase f.name (ts.name t) : List Line)
  | _ => 0

def Task.type : Task ts → Option T
  | .check t => some t
  | .field _ f => some f.type
  | .checkNil | .count | .default _ _ _ _ => none

def Task.lines : Task ts → Multiset Line
  | .field t f => if ts.isUpper f.name = false then {.lowerCase f.name (ts.name t)} else 0
  | .check _ | .checkNil | .count | .default _ _ _ _ => 0

/-- The increments of the count that a task still owes. -/
def Task.counts : Task ts → ℕ
  | .field _ f => if ts.isUpper f.name = false then 1 else 0
  | .count => 1
  | .default value _ depth _ => LabGob.nonDefaults (4 - depth) value
  | .check _ | .checkNil => 0

def Owed (W : Multiset (Task ts)) (t : T) : Prop := ∃ task ∈ W, task.type = some t

def Line.isLower : Line → Bool
  | .lowerCase _ _ => true
  | .nonDefault _ => false

/-- What holds of the shared state when the tasks `W` are left, whoever has them. -/
structure Kept (s : Gob ts m) (W : Multiset (Task ts)) : Prop where
  roots : ∀ t ∈ s.roots, t ∈ s.checked ∨ Owed W t
  closed : ∀ t ∈ s.checked, ∀ u ∈ parts t ts, u ∈ s.checked ∨ Owed W u
  inside : ∀ t, t ∈ s.checked ∨ Owed W t → Inside ts s.roots t
  lines : (s.printed.filter Line.isLower : Multiset Line) + (W.map Task.lines).sum =
    ∑ t ∈ s.checked, lowerCases ts t
  counts : s.errorCount + (W.map Task.counts).sum =
    (∑ t ∈ s.checked, (lowerCases ts t).card) + s.decoded
  warned : (s.printed.filter fun line => !line.isLower).length ≤ 1 ∧
    (s.printed.filter (fun line => !line.isLower) ≠ [] → 0 < s.errorCount)

theorem fields_lines (t : T) (fields : List (Field T)) :
    ((fields.map (Task.field t : Field T → Task ts)).map Task.lines).sum =
      ((fields.filter fun f => ts.isUpper f.name = false).map
        fun f => .lowerCase f.name (ts.name t) : List Line) := by
  induction fields with
  | nil => rfl
  | cons f rest ih =>
    rw [List.map_cons, List.map_cons, List.sum_cons, ih, List.filter_cons]
    by_cases lower : ts.isUpper f.name = false
    · simp [Task.lines, lower]
    · simp [Task.lines, lower]

theorem expand_lines (t : T) : ((expand ts t).map Task.lines).sum = lowerCases ts t := by
  unfold expand lowerCases
  cases ts.kind t with
  | struct fields => exact fields_lines t fields
  | slice _ | array _ | ptr _ | map _ _ | basic | other => rfl

theorem expand_counts (t : T) :
    ((expand ts t).map Task.counts).sum = (lowerCases ts t).card := by
  have counted : ∀ task ∈ expand ts t, Task.counts task = (Task.lines task).card := by
    intro task member
    unfold expand at member
    split at member
    · obtain ⟨f, -, rfl⟩ := List.mem_map.mp member
      simp only [Task.counts, Task.lines]
      split <;> rfl
    all_goals cases task <;> simp_all [Task.counts, Task.lines]
  rw [List.map_congr_left counted, ← expand_lines]
  induction expand ts t with
  | nil => rfl
  | cons task rest ih => simp [ih]

theorem expand_types (t u : T) : Owed (expand ts t : Multiset (Task ts)) u ↔ u ∈ parts t ts := by
  unfold Owed expand parts
  split <;> simp [Task.type, eq_comm]

theorem owed_add {W V : Multiset (Task ts)} {t : T} : Owed (W + V) t ↔ Owed W t ∨ Owed V t := by
  simp [Owed, or_and_right, exists_or]

theorem owed_cons {W : Multiset (Task ts)} {task : Task ts} {t : T} :
    Owed (task ::ₘ W) t ↔ task.type = some t ∨ Owed W t := by
  simp [Owed]

theorem Kept.pass {s : Gob ts m} {W : Multiset (Task ts)} {task : Task ts} {tasks : List (Task ts)}
    (h : Kept s (task ::ₘ W)) (printed : List Line) (errorCount : ℕ)
    (types : ∀ t, task.type = some t → t ∈ s.checked ∨ Owed (tasks : Multiset (Task ts)) t)
    (passed : ∀ t, Owed (tasks : Multiset (Task ts)) t → task.type = some t)
    (lines : (printed.filter Line.isLower : Multiset Line) + (tasks.map Task.lines).sum =
      (s.printed.filter Line.isLower : Multiset Line) + task.lines)
    (counts : errorCount + (tasks.map Task.counts).sum = s.errorCount + task.counts)
    (warned : (printed.filter fun line => !line.isLower).length ≤ 1 ∧
      (printed.filter (fun line => !line.isLower) ≠ [] → 0 < errorCount)) :
    Kept { s with printed := printed, errorCount := errorCount }
      ((tasks : Multiset (Task ts)) + W) := by
  have owed {t : T} (before : t ∈ s.checked ∨ Owed (task ::ₘ W) t) :
      t ∈ s.checked ∨ Owed ((tasks : Multiset (Task ts)) + W) t := by
    rw [owed_cons] at before
    rw [owed_add]
    rcases before with seen | own | other
    · exact .inl seen
    · exact (types t own).imp_right .inl
    · exact .inr (.inr other)
  refine ⟨fun t member => owed (h.roots t member), fun t member u part =>
    owed (h.closed t member u part), fun t known => h.inside t ?_, ?_, ?_, warned⟩
  · refine known.imp_right fun here => owed_cons.mpr ?_
    exact (owed_add.mp here).imp_left (passed t)
  · rw [← h.lines, Multiset.map_add, Multiset.sum_add, Multiset.map_cons, Multiset.sum_cons,
      ← add_assoc, ← add_assoc, ← lines]
    rfl
  · rw [← h.counts, Multiset.map_add, Multiset.sum_add, Multiset.map_cons, Multiset.sum_cons,
      ← add_assoc, ← add_assoc, ← counts]
    rfl

theorem Kept.takeApart {s : Gob ts m} {W : Multiset (Task ts)} {t : T} {value : Value ts t}
    {flag : Flag} {depth : ℕ} {name : String} {tasks : List (Task ts)}
    (h : Kept s (.default value flag depth name ::ₘ W))
    (typeless : ∀ task ∈ tasks, task.type = none ∧ task.lines = 0)
    (counts : (tasks.map Task.counts).sum = nonDefaults (4 - depth) value) :
    Kept s ((tasks : Multiset (Task ts)) + W) := by
  refine h.pass s.printed s.errorCount ?_ ?_ ?_ ?_ h.warned
  · simp [Task.type]
  · rintro t ⟨task, member, type⟩
    rw [(typeless task member).1] at type
    cases type
  · have silent : (tasks.map Task.lines).sum = 0 := by
      refine List.sum_eq_zero fun lines member => ?_
      obtain ⟨task, listed, rfl⟩ := List.mem_map.mp member
      exact (typeless task listed).2
    rw [silent]
    rfl
  · rw [counts]
    rfl

theorem Kept.complain {s : Gob ts m} {W : Multiset (Task ts)} {t : T}
    {kind : ts.kind t = .basic} {flag : Flag} {name what : String} {depth fuel : ℕ}
    (h : Kept s (.default (.basic kind false) flag depth name ::ₘ W))
    (level : 4 - depth = fuel + 1) :
    Kept { s with
        printed := if s.errorCount < 1 then s.printed ++ [.nonDefault what] else s.printed
        errorCount := s.errorCount + 1 } ((([] : List (Task ts)) : Multiset (Task ts)) + W) := by
  refine h.pass _ (s.errorCount + 1) ?_ ?_ ?_ ?_ ?_
  · simp [Task.type]
  · simp [Owed]
  · split <;> simp [Task.lines, Line.isLower]
  · simp [Task.counts, level, nonDefaults]
  · refine ⟨?_, fun _ => Nat.succ_pos _⟩
    split
    · rename_i unseen
      have silent : s.printed.filter (fun line => !line.isLower) = [] := by
        by_contra loud
        have := h.warned.2 loud
        omega
      rw [List.filter_append, silent, List.nil_append]
      exact List.length_filter_le _ _
    · exact h.warned.1

theorem Kept.default {s : Gob ts m} {W : Multiset (Task ts)} {t : T} {value : Value ts t}
    {flag : Flag} {depth : ℕ} {name : String} (h : Kept s (.default value flag depth name ::ₘ W)) :
    (checkDefault1 s value flag depth name).1.panicked = true ∨
      Kept (checkDefault1 s value flag depth name).1
        (((checkDefault1 s value flag depth name).2 : Multiset (Task ts)) + W) := by
  by_cases deep : depth > 3
  · have bottom : 4 - depth = 0 := by omega
    simp only [checkDefault1, if_pos deep]
    exact .inr (h.takeApart (by simp) (by simp [bottom, nonDefaults]))
  · obtain ⟨fuel, level⟩ : ∃ fuel, 4 - depth = fuel + 1 := ⟨3 - depth, by omega⟩
    have below : 4 - (depth + 1) = fuel := by omega
    simp only [checkDefault1, if_neg deep]
    cases value with
    | struct kind parts =>
      refine .inr (h.takeApart (by simp [Task.type, Task.lines]) ?_)
      rw [level, nonDefaults, Fin.sum_univ_def, List.map_map]
      exact congrArg List.sum (List.map_congr_left fun i _ => by simp [Task.counts, below])
    | null kind => exact .inr (h.takeApart (by simp) (by simp [level, nonDefaults]))
    | ptr kind elem =>
      exact .inr (h.takeApart (by simp [Task.type, Task.lines])
        (by simp [level, nonDefaults, Task.counts, below]))
    | basic kind zero =>
      by_cases forbidden : (flag.stickyRO || flag.embedRO) = true
      · simp [forbidden]
      · simp only [if_neg forbidden]
        cases zero with
        | true => exact .inr (h.takeApart (by simp) (by simp [level, nonDefaults]))
        | false => exact .inr (h.complain level)
    | other kind => exact .inr (h.takeApart (by simp) (by simp [level, nonDefaults]))

theorem Kept.setThreads {s : Gob ts m} {W : Multiset (Task ts)} (h : Kept s W)
    (threads : Fin m → List (Task ts)) : Kept { s with threads := threads } W :=
  ⟨h.roots, h.closed, h.inside, h.lines, h.counts, h.warned⟩

theorem Inside.mono {roots : List T} {t : T} (h : Inside ts roots t) (new : List T) :
    Inside ts (roots ++ new) t := by
  induction h with
  | root member => exact .root (List.mem_append_left _ member)
  | part _ inside ih => exact .part ih inside

theorem checks_types (c : Call ts) (t : T) :
    Owed (checks c : Multiset (Task ts)) t ↔ t ∈ c.types := by
  cases c <;> simp [Owed, checks, Task.type, Call.types, eq_comm]

theorem Kept.call {s : Gob ts m} {W : Multiset (Task ts)} (h : Kept s W) (c : Call ts) :
    Kept { s with roots := s.roots ++ c.types, decoded := s.decoded + c.nonDefaults }
      ((checks c : Multiset (Task ts)) + W) := by
  have owed {t : T} (before : t ∈ s.checked ∨ Owed W t) :
      t ∈ s.checked ∨ Owed ((checks c : Multiset (Task ts)) + W) t :=
    before.imp_right fun here => owed_add.mpr (.inr here)
  refine ⟨fun t member => ?_, fun t member u part => owed (h.closed t member u part),
    fun t known => ?_, ?_, ?_, h.warned⟩
  · rcases List.mem_append.mp member with old | new
    · exact owed (h.roots t old)
    · exact .inr (owed_add.mpr (.inl ((checks_types c t).mpr new)))
  · rw [owed_add, checks_types] at known
    rcases known with seen | new | here
    · exact (h.inside t (.inl seen)).mono c.types
    · exact .root (List.mem_append_right _ new)
    · exact (h.inside t (.inr here)).mono c.types
  · have silent : ((checks c).map Task.lines).sum = 0 := by
      cases c <;> rfl
    rw [Multiset.map_add, Multiset.sum_add, Multiset.map_coe, Multiset.sum_coe, silent, zero_add]
    exact h.lines
  · have due : ((checks c).map Task.counts).sum = c.nonDefaults := by
      cases c <;> simp [checks, Task.counts, Call.nonDefaults]
    have total := h.counts
    change s.errorCount + _ =
      (∑ t ∈ s.checked, (lowerCases ts t).card) + (s.decoded + c.nonDefaults)
    rw [Multiset.map_add, Multiset.sum_add, Multiset.map_coe, Multiset.sum_coe, due]
    omega

def work (threads : Fin m → List (Task ts)) : Multiset (Task ts) :=
  ∑ i, (threads i : Multiset (Task ts))

def others (threads : Fin m → List (Task ts)) (i : Fin m) : Multiset (Task ts) :=
  ∑ j ∈ Finset.univ \ {i}, (threads j : Multiset (Task ts))

theorem work_update (threads : Fin m → List (Task ts)) (i : Fin m) (tasks : List (Task ts)) :
    work (Function.update threads i tasks) = tasks + others threads i := by
  have pushed : (fun j => (Function.update threads i tasks j : Multiset (Task ts))) =
      Function.update (fun j => (threads j : Multiset (Task ts))) i tasks := by
    funext j
    by_cases own : j = i
    · subst own
      simp
    · simp [own]
  rw [work, pushed, Finset.sum_update_of_mem (Finset.mem_univ i)]
  rfl

theorem mem_work {threads : Fin m → List (Task ts)} {task : Task ts} :
    task ∈ work threads ↔ ∃ i, task ∈ threads i := by
  simp [work, Multiset.mem_sum]

theorem work_eq (threads : Fin m → List (Task ts)) (i : Fin m) :
    work threads = threads i + others threads i := by
  have own := work_update threads i (threads i)
  rwa [Function.update_eq_self] at own

variable [DecidableEq T]

theorem Kept.check {s : Gob ts m} {W : Multiset (Task ts)} {t : T}
    (h : Kept s (.check t ::ₘ W)) (fresh : t ∉ s.checked) :
    Kept { s with checked := insert t s.checked } ((expand ts t : Multiset (Task ts)) + W) := by
  have owed {u : T} (before : u ∈ s.checked ∨ Owed (.check t ::ₘ W) u) :
      u ∈ insert t s.checked ∨ Owed ((expand ts t : Multiset (Task ts)) + W) u := by
    rw [owed_cons] at before
    rw [owed_add]
    rcases before with seen | own | other
    · exact .inl (Finset.mem_insert_of_mem seen)
    · exact .inl (Finset.mem_insert.mpr (.inl (Option.some.inj own).symm))
    · exact .inr (.inr other)
  have here : Inside ts s.roots t := h.inside t (.inr (owed_cons.mpr (.inl rfl)))
  refine ⟨fun u member => owed (h.roots u member), fun u member v part => ?_, fun u known => ?_,
    ?_, ?_, h.warned⟩
  · rcases Finset.mem_insert.mp member with rfl | seen
    · exact .inr (owed_add.mpr (.inl ((expand_types u v).mpr part)))
    · exact owed (h.closed u seen v part)
  · rw [owed_add, expand_types] at known
    rcases known with seen | part | other
    · rcases Finset.mem_insert.mp seen with rfl | seen
      · exact here
      · exact h.inside u (.inl seen)
    · exact .part here part
    · exact h.inside u (.inr (owed_cons.mpr (.inr other)))
  · have total := h.lines
    rw [Multiset.map_cons, Multiset.sum_cons] at total
    rw [Finset.sum_insert fresh, ← total, Multiset.map_add, Multiset.sum_add, Multiset.map_coe,
      Multiset.sum_coe, expand_lines, Task.lines, zero_add]
    exact add_left_comm (_ : Multiset Line) _ _
  · have total := h.counts
    rw [Multiset.map_cons, Multiset.sum_cons] at total
    change s.errorCount + _ = (∑ u ∈ insert t s.checked, _) + s.decoded
    rw [Finset.sum_insert fresh, Multiset.map_add, Multiset.sum_add, Multiset.map_coe,
      Multiset.sum_coe, expand_counts]
    simp only [Task.counts] at total
    omega

theorem Kept.field {s : Gob ts m} {W : Multiset (Task ts)} {t : T} {f : Field T}
    (h : Kept s (.field t f ::ₘ W)) :
    Kept (perform s (.field t f)).1
      (((perform s (.field t f)).2 : Multiset (Task ts)) + W) := by
  by_cases lower : ts.isUpper f.name = false
  · simp only [perform, if_pos lower]
    refine h.pass _ s.errorCount ?_ ?_ ?_ ?_ ?_
    · simp [Owed, Task.type]
    · simp [Owed, Task.type]
    · simp [Task.lines, lower]
      rfl
    · simp [Task.counts, lower]
    · simpa [Line.isLower] using h.warned
  · simp only [perform, if_neg lower]
    refine h.pass s.printed s.errorCount ?_ ?_ ?_ ?_ h.warned
    · simp [Owed, Task.type]
    · simp [Owed, Task.type]
    · simp [Task.lines, lower]
    · simp [Task.counts, lower]

theorem Kept.count {s : Gob ts m} {W : Multiset (Task ts)} (h : Kept s (.count ::ₘ W)) :
    Kept (perform s .count).1 (((perform s .count).2 : Multiset (Task ts)) + W) := by
  simp only [perform]
  refine h.pass s.printed (s.errorCount + 1) ?_ ?_ ?_ ?_ ?_
  · simp [Task.type]
  · simp [Owed]
  · simp [Task.lines]
  · simp [Task.counts]
  · exact ⟨h.warned.1, fun _ => Nat.succ_pos _⟩

theorem Kept.perform {s : Gob ts m} {W : Multiset (Task ts)} {task : Task ts}
    (h : Kept s (task ::ₘ W)) : (perform s task).1.panicked = true ∨
      Kept (perform s task).1 (((perform s task).2 : Multiset (Task ts)) + W) := by
  cases task with
  | check t =>
    by_cases seen : t ∈ s.checked
    · simp only [LabGob.perform, if_pos seen]
      refine .inr (h.pass s.printed s.errorCount ?_ ?_ ?_ ?_ h.warned)
      · simp [Task.type, seen]
      · simp [Owed]
      · simp [Task.lines]
      · simp [Task.counts]
    · simp only [LabGob.perform, if_neg seen]
      exact .inr (h.check seen)
  | checkNil => exact .inl rfl
  | field t f => exact .inr h.field
  | count => exact .inr h.count
  | default value flag depth name => exact h.default

theorem advance_some {s s' : Gob ts m} {i : Fin m} (taken : advance s i = some s') :
    s.panicked = false ∧ ∃ task rest, s.threads i = task :: rest ∧
      s' = { (perform s task).1 with threads := s'.threads } ∧
      work s.threads = task ::ₘ ((rest : Multiset (Task ts)) + others s.threads i) ∧
      work s'.threads = ((perform s task).2 : Multiset (Task ts)) +
        ((rest : Multiset (Task ts)) + others s.threads i) := by
  unfold advance at taken
  split at taken
  · cases taken
  rename_i alive
  refine ⟨by simpa using alive, ?_⟩
  split at taken
  · rename_i task rest own
    obtain rfl := Option.some.inj taken
    refine ⟨task, rest, own, rfl, ?_, ?_⟩
    · rw [work_eq _ i, own, ← Multiset.cons_coe, Multiset.cons_add]
    · rw [work_update, ← Multiset.coe_add, add_assoc]
  · cases taken

/-- A list node: a struct with a lower-case link to its own type. -/
def nodeTypes : Types (Fin 3) where
  kind := ![.struct [⟨"next", 1, false⟩, ⟨"Val", 2, false⟩], .ptr 0, .basic]
  name := ![ "Node", "", "int"]
  isUpper name := (name.toList.headD ' ').isUpper

def lastNode (zero : Bool) : Value nodeTypes 0 :=
  .struct rfl fun i => match i with
    | ⟨0, _⟩ => .null (u := 0) rfl
    | ⟨1, _⟩ => .basic rfl zero

end Reports

section Returns

variable {T : Type} {m : ℕ} {ts : Types T}

def size : ℕ → {t : T} → Value ts t → ℕ
  | fuel + 1, _, .struct _ parts => 1 + ∑ i, size fuel (parts i)
  | fuel + 1, _, .ptr _ elem => 1 + size fuel elem
  | _, _, _ => 1

/-- A bound on the steps of a task, apart from those of the types it finds. -/
def Task.weight : Task ts → ℕ
  | .check _ | .checkNil | .count => 1
  | .field _ _ => 3
  | .default value _ depth _ => size (4 - depth) value

def Task.Panics : Task ts → Prop
  | .checkNil => True
  | .default value flag depth _ => Forbidden (4 - depth) value flag
  | .check _ | .field _ _ | .count => False

theorem expand_quiet (t : T) : ∀ task ∈ expand ts t, ¬ task.Panics := by
  intro task member
  unfold expand at member
  split at member
  · obtain ⟨f, -, rfl⟩ := List.mem_map.mp member
    exact id
  all_goals cases task <;> simp_all [Task.Panics]

theorem checkDefault1_left (s : Gob ts m) {t : T} (value : Value ts t) (flag : Flag) (depth : ℕ)
    (name : String) :
    (checkDefault1 s value flag depth name).1.checked = s.checked ∧
      ((checkDefault1 s value flag depth name).2.map Task.weight).sum < size (4 - depth) value ∧
      (((checkDefault1 s value flag depth name).1.panicked = true ∨
        ∃ task ∈ (checkDefault1 s value flag depth name).2, task.Panics) ↔
        (s.panicked = true ∨ Forbidden (4 - depth) value flag)) := by
  by_cases deep : depth > 3
  · have bottom : 4 - depth = 0 := by omega
    simp only [checkDefault1, if_pos deep, bottom]
    refine ⟨trivial, by cases value <;> simp [size], by simp [Forbidden]⟩
  · obtain ⟨fuel, level⟩ : ∃ fuel, 4 - depth = fuel + 1 := ⟨3 - depth, by omega⟩
    have below : 4 - (depth + 1) = fuel := by omega
    simp only [checkDefault1, if_neg deep, level]
    cases value with
    | struct kind parts =>
      refine ⟨rfl, ?_, by simp [Forbidden, Task.Panics, below]⟩
      simp [size, Task.weight, below, Function.comp_def, Fin.sum_univ_def]
    | null kind => simp [size, Forbidden]
    | ptr kind elem => simp [size, Task.weight, below, Forbidden, Task.Panics]
    | basic kind zero =>
      by_cases forbidden : flag.stickyRO = true ∨ flag.embedRO = true
      · simp [size, Forbidden, forbidden]
      · cases zero <;> simp [size, Forbidden, forbidden]
    | other kind => simp [size, Forbidden]

variable [DecidableEq T]

theorem perform_panics (s : Gob ts m) (task : Task ts) :
    ((perform s task).1.panicked = true ∨ ∃ next ∈ (perform s task).2, next.Panics) ↔
      (s.panicked = true ∨ task.Panics) := by
  cases task with
  | check t =>
    simp only [perform]
    split
    · simp [Task.Panics]
    · have quiet : ¬ ∃ next ∈ expand ts t, next.Panics := by simpa using expand_quiet t
      exact or_congr Iff.rfl (iff_of_false quiet id)
  | checkNil => simp [perform, Task.Panics]
  | field t f =>
    simp only [perform]
    split <;> simp [Task.Panics]
  | count => simp [perform, Task.Panics]
  | default value flag depth name => exact (checkDefault1_left s value flag depth name).2.2

theorem advance_panics {s s' : Gob ts m} {i : Fin m} (taken : advance s i = some s') :
    (s'.panicked = true ∨ ∃ task ∈ work s'.threads, task.Panics) ↔
      (s.panicked = true ∨ ∃ task ∈ work s.threads, task.Panics) := by
  obtain ⟨-, task, rest, -, after, before, left⟩ := advance_some taken
  have own := perform_panics s task
  have panicked : s'.panicked = (perform s task).1.panicked := by rw [after]
  simp only [before, left, panicked, Multiset.mem_cons, Multiset.mem_add, Multiset.mem_coe,
    or_and_right, exists_or, exists_eq_left, ← or_assoc]
  rw [own]

variable [Fintype T]

/-- What the types that are not checked yet may still cost. -/
def unseen (ts : Types T) (checked : Finset T) : ℕ :=
  ∑ t ∈ Finset.univ \ checked, ((expand ts t).map Task.weight).sum

def rank (s : Gob ts m) : ℕ :=
  unseen ts s.checked + ((work s.threads).map Task.weight).sum

theorem perform_weight (s : Gob ts m) (task : Task ts) :
    unseen ts (perform s task).1.checked + ((perform s task).2.map Task.weight).sum <
      unseen ts s.checked + task.weight := by
  cases task with
  | check t =>
    by_cases seen : t ∈ s.checked
    · simp [perform, seen, Task.weight]
    · have split' : unseen ts s.checked =
          ((expand ts t).map Task.weight).sum + unseen ts (insert t s.checked) := by
        rw [unseen, unseen, Finset.sdiff_insert]
        exact (Finset.add_sum_erase _ (fun u => ((expand ts u).map Task.weight).sum)
          (by simp [seen])).symm
      simp only [perform, if_neg seen, Task.weight]
      omega
  | checkNil => simp [perform, Task.weight]
  | field t f =>
    simp only [perform]
    split <;> simp [Task.weight]
  | count => simp [perform, Task.weight]
  | default value flag depth name =>
    obtain ⟨same, less, -⟩ := checkDefault1_left s value flag depth name
    simp only [perform, same, Task.weight]
    omega

theorem advance_rank {s s' : Gob ts m} {i : Fin m} (taken : advance s i = some s') :
    rank s' < rank s := by
  obtain ⟨-, task, rest, -, after, before, left⟩ := advance_some taken
  have less := perform_weight s task
  have checked : s'.checked = (perform s task).1.checked := by rw [after]
  rw [rank, rank, before, left, checked, Multiset.map_add, Multiset.sum_add, Multiset.map_coe,
    Multiset.sum_coe, Multiset.map_cons, Multiset.sum_cons]
  omega

theorem exec_rank {s s' : Gob ts m} {schedule : List (Fin m)}
    (ran : exec advance free s schedule = some s') : schedule.length + rank s' ≤ rank s := by
  induction schedule generalizing s with
  | nil =>
    cases ran
    simp
  | cons i rest ih =>
    rw [exec, if_pos (show free s i from trivial)] at ran
    obtain ⟨u, taken, later⟩ := Option.bind_eq_some_iff.mp ran
    have less := advance_rank taken
    have bound := ih later
    rw [List.length_cons]
    omega

/-- Checks end, on recursive types too: a schedule of the goroutines that are at work
has a bounded length. When it cannot go on, there was a panic if one of them was to come
to a variable that may not be read, and else all have returned. -/
theorem checks_return {s s' : Gob ts m} (alive : s.panicked = false) {schedule : List (Fin m)}
    (ran : exec advance free s schedule = some s') :
    schedule.length + rank s' ≤ rank s ∧
      ((∀ i, advance s' i = none) →
        (s'.panicked = true ↔ ∃ i, ∃ task ∈ s.threads i, task.Panics) ∧
        (s'.panicked = false → ∀ i, s'.threads i = [])) := by
  refine ⟨exec_rank ran, fun stuck => ?_⟩
  have returned (alive : s'.panicked = false) (i : Fin m) : s'.threads i = [] := by
    have blocked := stuck i
    simp only [advance, alive, Bool.false_eq_true, if_false] at blocked
    split at blocked
    · cases blocked
    · assumption
  refine ⟨?_, returned⟩
  have same : (s'.panicked = true ∨ ∃ task ∈ work s'.threads, task.Panics) ↔
      ∃ task ∈ work s.threads, task.Panics :=
    (exec_run ran).invariant
      (fun u => (u.panicked = true ∨ ∃ task ∈ work u.threads, task.Panics) ↔
        ∃ task ∈ work s.threads, task.Panics)
      (fun h _ taken => (advance_panics taken).trans h) (by simp [alive])
  have spread : (∃ task ∈ work s.threads, task.Panics) ↔
      ∃ i, ∃ task ∈ s.threads i, task.Panics := by
    simp only [mem_work]
    exact ⟨fun ⟨task, ⟨i, member⟩, panics⟩ => ⟨i, task, member, panics⟩,
      fun ⟨i, task, member, panics⟩ => ⟨task, ⟨i, member⟩, panics⟩⟩
  rw [← spread, ← same, iff_self_or]
  rintro ⟨task, member, -⟩
  by_contra alive'
  have nothing : work s'.threads = 0 := by simp [work, returned (by simpa using alive')]
  simp [nothing] at member

def started : Gob nodeTypes 2 :=
  { (init nodeTypes : Gob nodeTypes 2) with
    threads := ![[.check 1], checks (.decode (lastNode true))], roots := [1, 0] }

theorem checks_return_node : ∃ s' : Gob nodeTypes 2,
    exec advance free started [0, 1, 0, 1, 1, 1, 1, 1, 1, 1, 1] = some s' ∧
      11 ≤ rank started ∧ s'.panicked = false ∧ ∀ i, s'.threads i = [] := by
  obtain ⟨s', ran, seen⟩ := Option.map_eq_some_iff.mp
    (show (exec advance free started [0, 1, 0, 1, 1, 1, 1, 1, 1, 1, 1]).map
      (fun s' => decide (s'.panicked = false ∧ ∀ i, (advance s' i).isNone)) = some true by decide)
  obtain ⟨alive, stuck⟩ := of_decide_eq_true seen
  obtain ⟨bound, ended⟩ := checks_return rfl ran
  refine ⟨s', ran, le_trans (Nat.le_add_right _ _) bound, alive, ?_⟩
  exact (ended fun i => Option.isNone_iff_eq_none.mp (stuck i)).2 alive

def hiddenTypes : Types (Fin 2) where
  kind := ![.struct [⟨"no", Fin.last 1, false⟩], .basic]
  name := ![ "T4", "int"]
  isUpper name := (name.toList.headD ' ').isUpper

example : ((exec step free (init hiddenTypes : Gob hiddenTypes 1)
    (.call 0 (.decode (t := 0) (.struct rfl fun
      | ⟨0, _⟩ => .basic rfl true)) :: List.replicate 6 (.advance 0))).map Gob.panicked) =
      some true := by decide

end Returns

end DistributedLabs.LabGob
