import DistributedLabs.GuardedRuns
import DistributedLabs.PorcupineVerdict
import Mathlib.Data.List.ReduceOption

/-! `checkParallel` (porcupine/checker.go): one goroutine for each part of the
history, a buffered channel of their results, and a main thread that stops early
on a failure or a timeout and, when asked for more than an answer, waits for all
of them. The threads take their steps in any order. -/

namespace DistributedLabs.PorcupineParallel
open Linearizability hiding Entry
open GuardedRuns RealTimeOrders Porcupine PorcupineEntries PorcupineSearch PorcupineVerdict

variable {S I O T : Type}

/-- Where a goroutine is. `checkSingle` has returned in a `verdict`, and its
sequences are stored before the result is sent. -/
inductive Worker (S I O : Type)
  | start (subhistory : List (Entry I O))
  | search (search : Search S I O)
  | verdict (v : Verdict)
  | stored (ok : Bool)
  | finished (ok : Bool)

abbrev Sequences := List (Option Sequence)

structure LinearizationInfo (I O : Type) where
  history : List (List (Entry I O))
  partialLinearizations : List (List (List ℤ))
  deriving DecidableEq

/-- The loop of the main thread, what follows it, and its return. -/
inductive Phase (I O : Type)
  | looping
  | waiting
  | returned (result : CheckResult) (info : LinearizationInfo I O)
  deriving DecidableEq

structure Parallel (S I O : Type) where
  history : List (List (Entry I O))
  workers : List (Worker S I O)
  results : List Bool
  longest : List (Option Sequences)
  kill : Bool
  count : ℕ
  ok : Bool
  timedOut : Bool
  phase : Phase I O

def launch (history : List (List (Entry I O))) : Parallel S I O where
  history := history
  workers := history.map .start
  results := []
  longest := history.map fun _ => none
  kill := false
  count := 0
  ok := true
  timedOut := false
  phase := .looping

inductive Action
  | work (i : ℕ)
  | receive
  | timeout
  | wait
  | finish (partials : List (List (List ℤ)))

def work (model : FullModel S I O) (computeInfo : Bool) (p : Parallel S I O) (i : ℕ) :
    Option (Parallel S I O) := do
  match ← p.workers[i]? with
  | .start subhistory =>
    let search ← startSearch model subhistory
    some { p with workers := p.workers.set i (.search search) }
  | .search search =>
    match ← iterate model computeInfo p.kill search with
    | .inl next => some { p with workers := p.workers.set i (.search next) }
    | .inr v => some { p with workers := p.workers.set i (.verdict v) }
  | .verdict v =>
    some { p with
      workers := p.workers.set i (.stored v.ok)
      longest := p.longest.set i (some v.longest) }
  | .stored ok =>
    -- the channel has room for `len(history)` results
    guard (p.results.length < p.workers.length)
    some { p with workers := p.workers.set i (.finished ok), results := p.results ++ [ok] }
  | .finished _ => none

def receive (computeInfo : Bool) (p : Parallel S I O) (result : Bool) (rest : List Bool) :
    Parallel S I O :=
  let ok := p.ok && result
  if !ok && !computeInfo then
    { p with results := rest, count := p.count + 1, ok := ok, kill := true, phase := .waiting }
  else if p.workers.length ≤ p.count + 1 then
    { p with results := rest, count := p.count + 1, ok := ok, phase := .waiting }
  else { p with results := rest, count := p.count + 1, ok := ok }

def resultOf (ok timedOut : Bool) : CheckResult :=
  if !ok then .illegal else if timedOut then .unknown else .ok

/-- The set of pointers in `longest[i]`, and a copy of what each points to. -/
def linearizations (longest : Option Sequences) : List (List ℤ) :=
  (longest.getD []).reduceOption.dedup.map Sequence.ids

/-- The loop over the parts: each set is read in any order, as Go reads a map. -/
def Collected : List (List (List ℤ)) → List (Option Sequences) → Prop
  | [], [] => True
  | partials :: later, longest :: rest =>
    partials.Perm (linearizations longest) ∧ Collected later rest
  | _, _ => False

instance decidableCollected : (partials : List (List (List ℤ))) →
    (longest : List (Option Sequences)) → Decidable (Collected partials longest)
  | [], [] => isTrue trivial
  | _ :: later, _ :: rest =>
    have := decidableCollected later rest
    inferInstanceAs (Decidable (_ ∧ _))
  | [], _ :: _ | _ :: _, [] => isFalse id

/-- What is returned with the result: nothing when it was not asked for. -/
def infoOf (computeInfo : Bool) (p : Parallel S I O) (partials : List (List (List ℤ))) :
    Option (LinearizationInfo I O) :=
  if computeInfo then do
    guard (Collected partials p.longest)
    some ⟨p.history, partials⟩
  else some ⟨[], []⟩

/-- `timeout` says whether the duration is positive: only then can the timer fire. -/
def step (model : FullModel S I O) (computeInfo timeout : Bool) (p : Parallel S I O) :
    Action → Option (Parallel S I O)
  | .work i => work model computeInfo p i
  | .receive =>
    match p.phase, p.results with
    | .looping, result :: rest => some (receive computeInfo p result rest)
    | _, _ => none
  | .timeout =>
    match p.phase with
    | .looping =>
      if timeout then some { p with timedOut := true, kill := true, phase := .waiting } else none
    | _ => none
  | .wait =>
    match p.phase, p.results with
    | .waiting, _ :: rest =>
      if computeInfo ∧ p.count < p.workers.length then
        some { p with results := rest, count := p.count + 1 }
      else none
    | _, _ => none
  | .finish partials =>
    match p.phase with
    | .waiting =>
      if computeInfo ∧ p.count < p.workers.length then none
      else do
        let info ← infoOf computeInfo p partials
        some { p with phase := .returned (resultOf p.ok p.timedOut) info }
    | _ => none

section Invariant

variable [LT T]

structure Part (T I O : Type) [LT T] where
  h : List (Interval T I O)
  entries : List (Entry I O)
  reads : Reads h entries

def Serial (model : FullModel S I O) (part : Part T I O) : Prop :=
  ∃ calls, Serializes (specOf model) part.h calls

/-- What is known of a verdict: it decides, or the search may have been stopped. -/
structure Judged (model : FullModel S I O) (computeInfo kill : Bool) (part : Part T I O)
    (v : Verdict) : Prop where
  partials : Partials model part.h v.longest
  decides : Decides model computeInfo part.h v ∨ kill = true

/-- What holds of a goroutine and the steps that it may still take. -/
def Fits (model : FullModel S I O) (computeInfo kill : Bool) (part : Part T I O)
    (longest : Option Sequences) : Worker S I O → ℕ → Prop
  | .start subhistory, k => subhistory = part.entries ∧ k = roundsFor part.h.length + 3
  | .search search, k => ∃ (P : Problem S I O T) (frames : List (Frame S))
      (front back : List Moment),
      P.model = model ∧ P.computePartial = computeInfo ∧ P.h = part.h ∧
      P.moments = part.entries.map moment ∧ P.Searching search frames front back ∧
      k = PorcupineVerdict.work P.h.length frames back + 3
  | .verdict v, k => Judged model computeInfo kill part v ∧ k = 2
  | .stored ok, k => (∃ v, Judged model computeInfo kill part v ∧ v.ok = ok ∧
      longest = some v.longest) ∧ k = 1
  | .finished ok, k => (∃ v, Judged model computeInfo kill part v ∧ v.ok = ok ∧
      longest = some v.longest) ∧ k = 0

def Phase.weight : Phase I O → ℕ
  | .looping => 2
  | .waiting => 1
  | .returned _ _ => 0

/-- What holds in every state: the goroutines in `received` and then those in
`queued` have sent their results, in this order. -/
structure Checking (model : FullModel S I O) (computeInfo timeout : Bool)
    (parts : List (Part T I O)) (p : Parallel S I O) (received queued : List ℕ) (weight : ℕ → ℕ) :
    Prop where
  given : p.history = parts.map Part.entries
  workers : p.workers.length = parts.length
  stored : p.longest.length = parts.length
  fits : ∀ i w part, p.workers[i]? = some w → parts[i]? = some part →
    Fits model computeInfo p.kill part p.longest[i]?.join w (weight i)
  distinct : (received ++ queued).Nodup
  sent : ∀ i, i ∈ received ++ queued ↔ ∃ ok, p.workers[i]? = some (.finished ok)
  results : List.Forall₂ (fun i ok => p.workers[i]? = some (.finished ok)) queued p.results
  count : p.count = received.length
  looping : p.phase = .looping → p.kill = false ∧ p.timedOut = false ∧
    (parts = [] ∨ p.count < parts.length)
  accepted : p.ok = true → p.timedOut = false → ∀ i ∈ received, ∀ part, parts[i]? = some part →
    Serial model part
  left : p.phase ≠ .looping → p.ok = true → p.timedOut = false → parts.length ≤ p.count
  rejected : p.ok = false → Respects model → ∃ part ∈ parts, ¬ Serial model part
  timer : p.timedOut = true → timeout = true
  killed : computeInfo = true → p.kill = true → p.timedOut = true
  returned : ∀ result info, p.phase = .returned result info → result = resultOf p.ok p.timedOut ∧
    (computeInfo = true → parts.length ≤ p.count ∧ info.history = p.history ∧
      Collected info.partialLinearizations p.longest)

def total (parts : List (Part T I O)) (p : Parallel S I O) (weight : ℕ → ℕ) : ℕ :=
  ∑ i ∈ Finset.range parts.length, weight i + (parts.length - p.count) + p.phase.weight

variable {model : FullModel S I O} {computeInfo timeout kill : Bool} {part : Part T I O}
  {longest : Option Sequences} {w w' : Worker S I O} {k k' i : ℕ}

theorem Fits.stop (fits : Fits model computeInfo kill part longest w k) :
    Fits model computeInfo true part longest w k := by
  have weaken {v : Verdict} (judged : Judged model computeInfo kill part v) :
      Judged model computeInfo true part v := ⟨judged.partials, .inr rfl⟩
  cases w with
  | start | search => exact fits
  | verdict v => exact ⟨weaken fits.1, fits.2⟩
  | stored ok | finished ok =>
    obtain ⟨⟨v, judged, rest⟩, count⟩ := fits
    exact ⟨⟨v, weaken judged, rest⟩, count⟩

variable {parts : List (Part T I O)} {p : Parallel S I O} {received queued : List ℕ}
  {weight : ℕ → ℕ}

theorem Checking.bound (c : Checking model computeInfo timeout parts p received queued weight)
    (member : i ∈ received ++ queued) : i < parts.length := by
  obtain ⟨ok, found⟩ := (c.sent i).mp member
  rw [← c.workers]
  exact (List.getElem?_eq_some_iff.mp found).1

theorem Checking.room (c : Checking model computeInfo timeout parts p received queued weight) :
    received.length + queued.length ≤ parts.length := by
  have inside : received ++ queued ⊆ List.range parts.length := fun i member =>
    List.mem_range.mpr (c.bound member)
  simpa using (List.subperm_of_subset c.distinct inside).length_le

theorem Checking.room_running
    (c : Checking model computeInfo timeout parts p received queued weight)
    (found : p.workers[i]? = some w) (running : ∀ ok, w ≠ .finished ok) :
    received.length + queued.length < parts.length := by
  have fresh : i ∉ received ++ queued := fun member => by
    obtain ⟨ok, found'⟩ := (c.sent i).mp member
    exact running ok (Option.some.inj (found.symm.trans found'))
  have inside : i :: (received ++ queued) ⊆ List.range parts.length := by
    intro j member
    rw [List.mem_range]
    rcases List.mem_cons.mp member with rfl | sent
    · rw [← c.workers]
      exact (List.getElem?_eq_some_iff.mp found).1
    · exact c.bound sent
  have nodup := List.nodup_cons.mpr ⟨fresh, c.distinct⟩
  have counted := (List.subperm_of_subset nodup inside).length_le
  simp only [List.length_cons, List.length_append, List.length_range] at counted
  omega

theorem total_lt (member : i < parts.length) (less : k < weight i) {q : Parallel S I O}
    (count : q.count = p.count) (phase : q.phase = p.phase) :
    total parts q (Function.update weight i k) < total parts p weight := by
  have sum : ∑ j ∈ Finset.range parts.length, Function.update weight i k j <
      ∑ j ∈ Finset.range parts.length, weight j := by
    refine Finset.sum_lt_sum (fun j _ => ?_) ⟨i, Finset.mem_range.mpr member, by simpa⟩
    by_cases same : j = i
    · subst same
      simpa using less.le
    · simp [same]
  simp only [total, count, phase]
  omega

theorem Checking.advance (c : Checking model computeInfo timeout parts p received queued weight)
    (found : p.workers[i]? = some w) (running : ∀ ok, w ≠ .finished ok)
    (running' : ∀ ok, w' ≠ .finished ok) {longest : List (Option Sequences)}
    (sized : longest.length = p.longest.length) (others : ∀ j ≠ i, longest[j]? = p.longest[j]?)
    (fits : ∀ part, parts[i]? = some part →
      Fits model computeInfo p.kill part longest[i]?.join w' k) :
    Checking model computeInfo timeout parts
      { p with workers := p.workers.set i w', longest := longest } received queued
      (Function.update weight i k) := by
  have bound := (List.getElem?_eq_some_iff.mp found).1
  have finished (j : ℕ) (ok : Bool) : (p.workers.set i w')[j]? = some (.finished ok) ↔
      p.workers[j]? = some (.finished ok) := by
    by_cases same : i = j
    · subst same
      rw [List.getElem?_set_self bound, found]
      simp [running ok, running' ok]
    · rw [List.getElem?_set_ne same]
  exact
    { given := c.given
      workers := by simpa using c.workers
      stored := sized.trans c.stored
      fits := fun j u part atJ atPart => by
        by_cases same : i = j
        · subst same
          obtain rfl : w' = u := by simpa [bound] using atJ
          simpa using fits part atPart
        · simp only [List.getElem?_set_ne same] at atJ
          simpa [Ne.symm same, others j (Ne.symm same)] using c.fits j u part atJ atPart
      distinct := c.distinct
      sent := fun j => by simpa only [finished] using c.sent j
      results := by simpa only [finished] using c.results
      count := c.count
      looping := c.looping
      accepted := c.accepted
      left := c.left
      rejected := c.rejected
      timer := c.timer
      killed := c.killed
      returned := fun result info done => by
        obtain ⟨same, told⟩ := c.returned result info done
        refine ⟨same, fun isInfo => ?_⟩
        -- all results have been received, and this goroutine has not sent one
        have room := c.room_running found running
        have all := (told isInfo).1
        have := c.count
        omega }

theorem Checking.send (c : Checking model computeInfo timeout parts p received queued weight)
    {ok : Bool} (found : p.workers[i]? = some (.stored ok)) :
    Checking model computeInfo timeout parts
      { p with workers := p.workers.set i (.finished ok), results := p.results ++ [ok] } received
      (queued ++ [i]) (Function.update weight i 0) := by
  have bound := (List.getElem?_eq_some_iff.mp found).1
  have fresh : i ∉ received ++ queued := fun member => by
    obtain ⟨ok', found'⟩ := (c.sent i).mp member
    cases Option.some.inj (found.symm.trans found')
  have finished (j : ℕ) (apart : j ≠ i) (ok' : Bool) :
      (p.workers.set i (.finished ok))[j]? = some (.finished ok') ↔
        p.workers[j]? = some (.finished ok') := by
    rw [List.getElem?_set_ne apart.symm]
  have last : (p.workers.set i (.finished ok))[i]? = some (.finished ok) := by simp [bound]
  exact
    { given := c.given
      workers := by simpa using c.workers
      stored := c.stored
      fits := fun j u part atJ atPart => by
        by_cases same : i = j
        · subst same
          obtain rfl := Option.some.inj (last.symm.trans atJ)
          have before := c.fits i _ part found atPart
          simpa [Fits] using before.1
        · simp only [List.getElem?_set_ne same] at atJ
          simpa [Ne.symm same] using c.fits j u part atJ atPart
      distinct := by
        rw [← List.append_assoc]
        refine List.nodup_append.mpr ⟨c.distinct, List.nodup_singleton i, fun a left b right => ?_⟩
        rw [List.mem_singleton.mp right]
        exact fun same => fresh (same ▸ left)
      sent := fun j => by
        rw [← List.append_assoc, List.mem_append, List.mem_singleton]
        by_cases same : j = i
        · subst same
          simp [last]
        · simpa only [finished j same, same, or_false] using c.sent j
      results := by
        refine List.rel_append (c.results.imp fun j ok' sent => ?_) (.cons last .nil)
        refine (finished j ?_ ok').mpr sent
        rintro rfl
        cases Option.some.inj (found.symm.trans sent)
      count := c.count
      looping := c.looping
      accepted := c.accepted
      left := c.left
      rejected := c.rejected
      timer := c.timer
      killed := c.killed
      returned := c.returned }

theorem Checking.worked (c : Checking model computeInfo timeout parts p received queued weight)
    (found : p.workers[i]? = some w) (running : ∀ ok, w ≠ .finished ok) :
    ∃ q queued' weight', work model computeInfo p i = some q ∧
      Checking model computeInfo timeout parts q received queued' weight' ∧
      total parts q weight' < total parts p weight := by
  have bound : i < parts.length := by
    rw [← c.workers]
    exact (List.getElem?_eq_some_iff.mp found).1
  have atPart : parts[i]? = some parts[i] := List.getElem?_eq_getElem bound
  have fits := c.fits i w _ found atPart
  -- what is left to show when the result is not sent yet and nothing is stored
  have go (k : ℕ) (w' : Worker S I O) (running' : ∀ ok, w' ≠ .finished ok) (less : k < weight i)
      (done : work model computeInfo p i = some { p with workers := p.workers.set i w' })
      (fits' : Fits model computeInfo p.kill parts[i] p.longest[i]?.join w' k) :
      ∃ q queued' weight', work model computeInfo p i = some q ∧
        Checking model computeInfo timeout parts q received queued' weight' ∧
        total parts q weight' < total parts p weight := by
    refine ⟨_, queued, Function.update weight i k, done,
      c.advance found running running' rfl (fun _ _ => rfl) fun part same => ?_,
      total_lt bound less rfl rfl⟩
    obtain rfl := Option.some.inj (atPart.symm.trans same)
    exact fits'
  cases w with
  | start subhistory =>
    obtain ⟨rfl, count⟩ := fits
    obtain ⟨P, search, sameModel, sameInfo, sameH, moments, started, searching⟩ :=
      startSearch_searching parts[i].reads model computeInfo
    refine go (PorcupineVerdict.work P.h.length ([] : List (Frame S)) P.moments + 3)
      (.search search)
      (by simp) ?_ ?_ ?_
    · simp only [count, roundsFor, PorcupineVerdict.work, stackWork, P.matched.length, ← sameH,
        List.length_nil, Nat.sub_zero]
      omega
    · simp [work, found, started]
    · exact ⟨P, [], [], P.moments, sameModel, sameInfo, sameH, moments, searching, rfl⟩
  | search search =>
    obtain ⟨P, frames, front, back, rfl, rfl, sameH, moments, searching, count⟩ := fits
    have timeline : Timeline P.h P.moments := by
      rw [moments, sameH]
      exact parts[i].reads.toTimeline
    rcases iterate_searching searching p.kill with
      ⟨search', frames', front', back', went, searching', less⟩ | ⟨v, ended, correct⟩ |
        ⟨stopped, ended⟩
    · refine go _ (.search search') (by simp) ?_ (by simp [work, found, went])
        ⟨P, frames', front', back', rfl, rfl, sameH, moments, searching', rfl⟩
      omega
    · refine go 2 (.verdict v) (by simp) (by omega) (by simp [work, found, ended])
        ⟨⟨?_, .inl ?_⟩, rfl⟩
      · exact sameH ▸ partials timeline correct.recorded
      · exact sameH ▸ decides timeline correct
    · refine go 2 (.verdict _) (by simp) (by omega) (by simp [work, found, ended]; rfl)
        ⟨⟨?_, .inr stopped⟩, rfl⟩
      exact sameH ▸ partials timeline searching.recorded
  | verdict v =>
    obtain ⟨judged, count⟩ := fits
    have inside : i < p.longest.length := by rwa [c.stored]
    have running' : ∀ ok, (.stored v.ok : Worker S I O) ≠ .finished ok := by simp
    have others (j : ℕ) (apart : j ≠ i) : (p.longest.set i (some v.longest))[j]? = p.longest[j]? :=
      List.getElem?_set_ne apart.symm
    refine ⟨_, queued, Function.update weight i 1, by simp only [work, found]; rfl,
      c.advance found running running' List.length_set others fun part same => ?_,
      total_lt bound (by omega) rfl rfl⟩
    obtain rfl := Option.some.inj (atPart.symm.trans same)
    exact ⟨⟨v, judged, rfl, by simp [inside]⟩, rfl⟩
  | stored ok =>
    have room := c.room_running found running
    have fewer : p.results.length < p.workers.length := by
      rw [← c.results.length_eq, c.workers]
      omega
    refine ⟨_, _, _, by simp [work, found, guard, fewer], c.send found, ?_⟩
    exact total_lt bound (by rw [fits.2]; exact Nat.one_pos) rfl rfl
  | finished ok => exact absurd rfl (running ok)

theorem Checking.taken {j : ℕ} {result : Bool} {rest : List Bool} {ok : Bool} {phase : Phase I O}
    (c : Checking model computeInfo timeout parts p received (j :: queued) weight)
    (results : p.results = result :: rest) (stop : p.kill = true → kill = true)
    (looping : phase = .looping → kill = false ∧ p.timedOut = false ∧ p.count + 1 < parts.length)
    (accepted : ok = true → p.timedOut = false → ∀ i ∈ received ++ [j], ∀ part,
      parts[i]? = some part → Serial model part)
    (left : phase ≠ .looping → ok = true → p.timedOut = false → parts.length ≤ p.count + 1)
    (rejected : ok = false → Respects model → ∃ part ∈ parts, ¬ Serial model part)
    (killed : computeInfo = true → kill = true → p.timedOut = true)
    (more : ∀ result info, phase ≠ .returned result info) :
    Checking model computeInfo timeout parts
      { p with results := rest, count := p.count + 1, ok := ok, kill := kill, phase := phase }
      (received ++ [j]) queued weight where
  given := c.given
  workers := c.workers
  stored := c.stored
  fits i w part atI atPart := by
    have before := c.fits i w part atI atPart
    cases kill with
    | true => exact before.stop
    | false =>
      have off : p.kill = false := by
        by_contra on
        exact absurd (stop (by simpa using on)) Bool.false_ne_true
      rwa [off] at before
  distinct := by simpa using c.distinct
  sent i := by simpa using c.sent i
  results := by
    have both := c.results
    rw [results] at both
    exact (List.forall₂_cons.mp both).2
  count := by simp [c.count]
  looping still := (looping still).imp_right fun rest => rest.imp_right .inr
  accepted := accepted
  left := left
  rejected := rejected
  timer := c.timer
  killed := killed
  returned result info done := absurd done (more result info)

theorem total_taken {q : Parallel S I O} (count : q.count = p.count + 1)
    (fewer : p.count < parts.length) (phase : q.phase.weight ≤ p.phase.weight) :
    total parts q weight < total parts p weight := by
  simp only [total, count]
  omega

theorem Checking.decided (c : Checking model computeInfo timeout parts p received queued weight)
    {ok : Bool} (found : p.workers[i]? = some (.finished ok)) (off : p.kill = false) :
    ∃ part, parts[i]? = some part ∧ (ok = true → Serial model part) ∧
      (ok = false → Respects model → ¬ Serial model part) := by
  have bound : i < parts.length := by
    rw [← c.workers]
    exact (List.getElem?_eq_some_iff.mp found).1
  have atPart : parts[i]? = some parts[i] := List.getElem?_eq_getElem bound
  obtain ⟨⟨v, judged, rfl, -⟩, -⟩ := c.fits i _ _ found atPart
  rcases judged.decides with decides | on
  · exact ⟨_, atPart, decides.ok, decides.failed⟩
  · exact absurd (off.symm.trans on) Bool.false_ne_true

theorem Checking.receives (c : Checking model computeInfo timeout parts p received queued weight)
    (still : p.phase = .looping) {result : Bool} {rest : List Bool}
    (results : p.results = result :: rest) :
    ∃ received' queued', Checking model computeInfo timeout parts
        (receive computeInfo p result rest)
        received' queued' weight ∧
      total parts (receive computeInfo p result rest) weight < total parts p weight := by
  have sent := c.results
  rw [results] at sent
  obtain ⟨j, queued', found, -, rfl⟩ := List.forall₂_cons_right_iff.mp sent
  obtain ⟨off, early, -⟩ := c.looping still
  obtain ⟨part, atPart, good, bad⟩ := c.decided found off
  have room := c.room
  have fewer : p.count < parts.length := by
    rw [c.count]
    simp only [List.length_cons] at room
    omega
  have accepted (ok : (p.ok && result) = true) (_ : p.timedOut = false) (i : ℕ)
      (member : i ∈ received ++ [j]) (other : Part T I O) (atI : parts[i]? = some other) :
      Serial model other := by
    rw [Bool.and_eq_true] at ok
    rcases List.mem_append.mp member with old | new
    · exact c.accepted ok.1 early i old other atI
    · obtain rfl := List.mem_singleton.mp new
      obtain rfl := Option.some.inj (atPart.symm.trans atI)
      exact good ok.2
  have rejected (failed : (p.ok && result) = false) (respects : Respects model) :
      ∃ part ∈ parts, ¬ Serial model part := by
    rcases Bool.and_eq_false_iff.mp failed with old | new
    · exact c.rejected old respects
    · exact ⟨part, List.mem_of_getElem? atPart, bad new respects⟩
  unfold receive
  simp only [c.workers]
  split
  · rename_i failed
    rw [Bool.and_eq_true, Bool.not_eq_true', Bool.not_eq_true'] at failed
    refine ⟨_, _, c.taken results (fun _ => rfl) nofun accepted ?_ rejected ?_ nofun, ?_⟩
    · exact fun _ ok => absurd (failed.1.symm.trans ok) Bool.false_ne_true
    · exact fun isInfo => absurd (failed.2.symm.trans isInfo) Bool.false_ne_true
    · exact total_taken rfl fewer (by simp [still, Phase.weight])
  · split
    · rename_i all
      refine ⟨_, _, c.taken results id nofun accepted (fun _ _ _ => all) rejected
        c.killed nofun, ?_⟩
      exact total_taken rfl fewer (by simp [still, Phase.weight])
    · rename_i more
      refine ⟨_, _, c.taken results id (fun _ => ⟨off, early, by omega⟩) accepted
        (fun left => absurd still left) rejected c.killed (by simp [still]), ?_⟩
      exact total_taken rfl fewer le_rfl

theorem Checking.times (c : Checking model computeInfo timeout parts p received queued weight)
    (still : p.phase = .looping) (allowed : timeout = true) :
    Checking model computeInfo timeout parts
        { p with timedOut := true, kill := true, phase := .waiting }
        received queued weight ∧
      total parts { p with timedOut := true, kill := true, phase := .waiting } weight <
        total parts p weight := by
  refine ⟨{ c with
    fits := fun i w part atI atPart => (c.fits i w part atI atPart).stop
    looping := nofun
    accepted := nofun
    left := nofun
    timer := fun _ => allowed
    killed := fun _ _ => rfl
    returned := nofun }, ?_⟩
  simp only [total, still, Phase.weight]
  omega

theorem Checking.waits (c : Checking model computeInfo timeout parts p received queued weight)
    (left : p.phase = .waiting) {result : Bool} {rest : List Bool}
    (results : p.results = result :: rest) (fewer : p.count < parts.length) :
    ∃ received' queued', Checking model computeInfo timeout parts
        { p with results := rest, count := p.count + 1 } received' queued' weight ∧
      total parts { p with results := rest, count := p.count + 1 } weight <
        total parts p weight := by
  have sent := c.results
  rw [results] at sent
  obtain ⟨j, queued', found, -, rfl⟩ := List.forall₂_cons_right_iff.mp sent
  -- the loop ended with all results, on a failure or by the timeout
  have ended (ok : p.ok = true) (early : p.timedOut = false) : False := by
    have := c.left (by simp [left]) ok early
    omega
  refine ⟨_, _, c.taken results id (by simp [left]) (fun ok early => (ended ok early).elim)
    (fun _ ok early => (ended ok early).elim) c.rejected c.killed (by simp [left]), ?_⟩
  exact total_taken rfl fewer le_rfl

theorem Checking.finishes (c : Checking model computeInfo timeout parts p received queued weight)
    (left : p.phase = .waiting) (all : computeInfo = true → parts.length ≤ p.count)
    {partials : List (List (List ℤ))} {info : LinearizationInfo I O}
    (told : infoOf computeInfo p partials = some info) :
    Checking model computeInfo timeout parts
        { p with phase := .returned (resultOf p.ok p.timedOut) info } received queued weight ∧
      total parts { p with phase := .returned (resultOf p.ok p.timedOut) info } weight <
        total parts p weight := by
  refine ⟨{ c with
    looping := nofun
    left := fun _ => c.left (by simp [left])
    returned := fun result info' done => ?_ }, ?_⟩
  · obtain ⟨rfl, rfl⟩ := Phase.returned.inj done
    refine ⟨rfl, fun isInfo => ⟨all isInfo, ?_⟩⟩
    simp only [infoOf, isInfo, if_true] at told
    obtain ⟨_, collected, same⟩ := Option.bind_eq_some_iff.mp told
    obtain rfl := Option.some.inj same
    exact ⟨rfl, guard_some.mp collected⟩
  · simp only [total, left, Phase.weight]
    omega

theorem Checking.stepped (c : Checking model computeInfo timeout parts p received queued weight)
    {a : Action} {q : Parallel S I O} (taken : step model computeInfo timeout p a = some q) :
    ∃ received' queued' weight',
      Checking model computeInfo timeout parts q received' queued' weight' ∧
      total parts q weight' < total parts p weight := by
  cases a with
  | work i =>
    cases found : p.workers[i]? with
    | none => simp [step, work, found] at taken
    | some w =>
      have running (ok : Bool) (same : w = .finished ok) : False := by
        simp [step, work, found, same] at taken
      obtain ⟨q', queued', weight', done, c', less⟩ := c.worked found running
      obtain rfl := Option.some.inj (done.symm.trans taken)
      exact ⟨received, queued', weight', c', less⟩
  | receive =>
    simp only [step] at taken
    split at taken
    · rename_i result rest still results
      obtain rfl := Option.some.inj taken
      obtain ⟨received', queued', done⟩ := c.receives still results
      exact ⟨received', queued', weight, done⟩
    · cases taken
  | timeout =>
    simp only [step] at taken
    split at taken
    · rename_i still
      split at taken
      · rename_i allowed
        obtain rfl := Option.some.inj taken
        exact ⟨received, queued, weight, c.times still allowed⟩
      · cases taken
    · cases taken
  | wait =>
    simp only [step] at taken
    split at taken
    · rename_i result rest left results
      split at taken
      · rename_i more
        obtain rfl := Option.some.inj taken
        obtain ⟨received', queued', done⟩ := c.waits left results (c.workers ▸ more.2)
        exact ⟨received', queued', weight, done⟩
      · cases taken
    · cases taken
  | finish partials =>
    simp only [step] at taken
    split at taken
    · rename_i left
      split at taken
      · cases taken
      · rename_i done
        obtain ⟨info, told, same⟩ := Option.bind_eq_some_iff.mp taken
        obtain rfl := Option.some.inj same
        refine ⟨received, queued, weight, c.finishes left (fun isInfo => ?_) told⟩
        rw [← c.workers]
        exact not_lt.mp fun more => done ⟨isInfo, more⟩
    · cases taken

theorem launch_checking (model : FullModel S I O) (computeInfo timeout : Bool)
    (parts : List (Part T I O)) :
    Checking model computeInfo timeout parts (launch (parts.map Part.entries)) [] []
      (fun i => (parts[i]?.map fun part => roundsFor part.h.length + 3).getD 0) where
  given := rfl
  workers := by simp [launch]
  stored := by simp [launch]
  fits i w part atI atPart := by
    have shape : w = .start part.entries := by simpa [launch, atPart, eq_comm] using atI
    rw [shape]
    exact ⟨rfl, by simp [atPart]⟩
  distinct := List.nodup_nil
  sent i := by simp [launch]
  results := .nil
  count := rfl
  looping _ := ⟨rfl, rfl, by
    rcases parts with - | ⟨part, rest⟩
    · exact .inl rfl
    · exact .inr (by simp [launch])⟩
  accepted _ _ := nofun
  left ended := absurd rfl ended
  rejected := nofun
  timer := nofun
  killed _ := nofun
  returned := nofun

theorem run_checking (run : Run (step model computeInfo timeout) free
    (launch (parts.map Part.entries)) p) :
    ∃ received queued weight,
      Checking model computeInfo timeout parts p received queued weight := by
  refine run.invariant (fun p => ∃ received queued weight,
    Checking model computeInfo timeout parts p received queued weight) ?_
    ⟨[], [], _, launch_checking model computeInfo timeout parts⟩
  rintro p q a ⟨received, queued, weight, c⟩ - taken
  obtain ⟨received', queued', weight', c', -⟩ := c.stepped taken
  exact ⟨received', queued', weight', c'⟩

theorem Checking.length_le (c : Checking model computeInfo timeout parts p received queued weight)
    {actions : List Action} {q : Parallel S I O}
    (done : exec (step model computeInfo timeout) free p actions = some q) :
    actions.length ≤ total parts p weight := by
  induction actions generalizing p received queued weight with
  | nil => exact Nat.zero_le _
  | cons a rest ih =>
    rw [exec, if_pos (show free p a from trivial)] at done
    obtain ⟨next, taken, later⟩ := Option.bind_eq_some_iff.mp done
    obtain ⟨received', queued', weight', c', less⟩ := c.stepped taken
    have := ih c' later
    rw [List.length_cons]
    omega

def stepsFor (parts : List (Part T I O)) : ℕ :=
  total parts (launch (parts.map Part.entries) : Parallel Unit I O)
    fun i => (parts[i]?.map fun part => roundsFor part.h.length + 3).getD 0

theorem launch_length_le {actions : List Action}
    (done : exec (step model computeInfo timeout) free (launch (parts.map Part.entries)) actions =
      some p) : actions.length ≤ stepsFor parts :=
  (launch_checking model computeInfo timeout parts).length_le done

theorem Checking.all_finished
    (c : Checking model computeInfo timeout parts p received queued weight)
    (all : parts.length ≤ p.count) (bound : i < parts.length) :
    i ∈ received ∧ ∃ ok, p.workers[i]? = some (.finished ok) := by
  have inside : received ⊆ List.range parts.length := fun j member =>
    List.mem_range.mpr (c.bound (List.mem_append_left queued member))
  have perm := (List.subperm_of_subset (List.nodup_append.mp c.distinct).1 inside).perm_of_length_le
    (by rw [List.length_range, ← c.count]; exact all)
  have member : i ∈ received := perm.symm.subset (List.mem_range.mpr bound)
  exact ⟨member, (c.sent i).mp (List.mem_append_left queued member)⟩

theorem Checking.answer (c : Checking model computeInfo timeout parts p received queued weight)
    {result : CheckResult} {info : LinearizationInfo I O} (done : p.phase = .returned result info) :
    (result = .ok → ∀ part ∈ parts, Serial model part) ∧
    (result = .illegal → Respects model → ∃ part ∈ parts, ¬ Serial model part) ∧
    (result = .unknown → timeout = true) := by
  obtain ⟨rfl, -⟩ := c.returned result info done
  have ended : p.phase ≠ .looping := by simp [done]
  cases ok : p.ok with
  | false => exact ⟨nofun, fun _ => c.rejected ok, nofun⟩
  | true =>
    cases early : p.timedOut with
    | true => exact ⟨nofun, nofun, fun _ => c.timer early⟩
    | false =>
      refine ⟨fun _ part member => ?_, nofun, nofun⟩
      obtain ⟨i, bound, rfl⟩ := List.mem_iff_getElem.mp member
      have received := (c.all_finished (c.left ended ok early) bound).1
      exact c.accepted ok early i received _ (List.getElem?_eq_getElem bound)

/-- What the sequences returned for a part say of it. -/
structure Shows (model : FullModel S I O) (timeout : Bool) (h : List (Interval T I O))
    (partials : List (List ℤ)) : Prop where
  begins : ∀ seq ∈ partials, ∃ order : List ℕ,
    seq = order.map Nat.cast ∧ Begins (specOf model) h order
  longest : timeout = false → Respects model → ∀ order, Begins (specOf model) h order →
    ∀ i ∈ order, ∃ seq ∈ partials, (i : ℤ) ∈ seq ∧ order.length ≤ seq.length

theorem Collected.get {partials : List (List (List ℤ))} {longest : List (Option Sequences)}
    (collected : Collected partials longest) {l : Option Sequences} (found : longest[i]? = some l) :
    ∃ arrays, partials[i]? = some arrays ∧ arrays.Perm (linearizations l) := by
  induction partials generalizing longest i with
  | nil => cases longest <;> simp_all [Collected]
  | cons arrays later ih =>
    cases longest with
    | nil => cases collected
    | cons first rest =>
      cases i with
      | zero => exact ⟨arrays, rfl, by simpa using Option.some.inj found ▸ collected.1⟩
      | succ i => exact ih collected.2 found

theorem mem_linearizations {longest : Sequences} {seq : List ℤ} :
    seq ∈ linearizations (some longest) ↔ ∃ s, some s ∈ longest ∧ s.ids = seq := by
  simp [linearizations, List.reduceOption_mem_iff]

theorem Checking.sequences (c : Checking model computeInfo timeout parts p received queued weight)
    {result : CheckResult} {info : LinearizationInfo I O} (done : p.phase = .returned result info)
    (isInfo : computeInfo = true) :
    info.history = parts.map Part.entries ∧ ∀ (i : ℕ) (part : Part T I O),
      parts[i]? = some part → ∃ partials,
        info.partialLinearizations[i]? = some partials ∧ Shows model timeout part.h partials := by
  obtain ⟨all, history, collected⟩ := (c.returned result info done).2 isInfo
  refine ⟨history.trans c.given, fun i part found => ?_⟩
  have bound := (List.getElem?_eq_some_iff.mp found).1
  obtain ⟨-, ok, sent⟩ := c.all_finished all bound
  obtain ⟨⟨v, judged, -, stored⟩, -⟩ := c.fits i _ part sent found
  rw [Option.join_eq_some_iff] at stored
  obtain ⟨partials, listed, perm⟩ := collected.get stored
  refine ⟨partials, listed, fun seq member => ?_, ?_⟩
  · obtain ⟨s, inside, rfl⟩ := mem_linearizations.mp (perm.subset member)
    obtain ⟨j, recorded⟩ := List.mem_iff_getElem?.mp inside
    obtain ⟨order, same, -, begins⟩ := judged.partials j s recorded
    exact ⟨order, same, begins⟩
  · intro never respects order begins j member
    rcases judged.decides with decides | on
    · obtain ⟨s, recorded, enough⟩ := decides.longest isInfo respects order begins j member
      obtain ⟨order', same, own, -⟩ := judged.partials j s recorded
      refine ⟨s.ids, perm.symm.subset (mem_linearizations.mpr ⟨s, ?_, rfl⟩), ?_, enough⟩
      · exact List.mem_of_getElem? recorded
      · rw [same]
        exact List.mem_map_of_mem own
    · exact absurd (c.timer (c.killed isInfo on)) (by simp [never])

theorem collected_map (longest : List (Option Sequences)) :
    Collected (longest.map linearizations) longest := by
  induction longest with
  | nil => trivial
  | cons l rest ih => exact ⟨.refl _, ih⟩

/-- Until the main thread returns there is a step to take, unless there is no part
and no timeout. -/
theorem Checking.progress (c : Checking model computeInfo timeout parts p received queued weight)
    (stuck : ∀ a, step model computeInfo timeout p a = none) :
    (∃ result info, p.phase = .returned result info) ∨ (parts = [] ∧ timeout = false) := by
  have finished (i : ℕ) (bound : i < parts.length) : i ∈ received ++ queued := by
    rw [c.sent]
    have inside : i < p.workers.length := by rwa [c.workers]
    have found : p.workers[i]? = some p.workers[i] := List.getElem?_eq_getElem inside
    by_contra running
    obtain ⟨q, -, -, went, -⟩ := c.worked found fun ok same => running ⟨ok, by rw [found, same]⟩
    have blocked := stuck (.work i)
    rw [step, went] at blocked
    cases blocked
  have count : parts.length ≤ received.length + queued.length := by
    have inside : List.range parts.length ⊆ received ++ queued := fun i member =>
      finished i (List.mem_range.mp member)
    simpa using (List.subperm_of_subset List.nodup_range inside).length_le
  have results : p.count < parts.length → ∃ result rest, p.results = result :: rest := by
    intro fewer
    cases shape : p.results with
    | nil =>
      have sent := c.results.length_eq
      rw [shape, List.length_nil] at sent
      have := c.count
      omega
    | cons result rest => exact ⟨result, rest, rfl⟩
  cases phase : p.phase with
  | returned result info => exact .inl ⟨result, info, rfl⟩
  | looping =>
    right
    rcases (c.looping phase).2.2 with empty | fewer
    · refine ⟨empty, ?_⟩
      by_contra timer
      have blocked := stuck .timeout
      simp [step, phase, timer] at blocked
    · obtain ⟨result, rest, shape⟩ := results fewer
      have blocked := stuck .receive
      simp [step, phase, shape] at blocked
  | waiting =>
    exfalso
    by_cases more : computeInfo = true ∧ p.count < p.workers.length
    · obtain ⟨result, rest, shape⟩ := results (c.workers ▸ more.2)
      have blocked := stuck .wait
      simp [step, phase, shape, more.1, more.2] at blocked
    · have blocked := stuck (.finish (p.longest.map linearizations))
      simp only [step, phase, more, if_false] at blocked
      cases computeInfo <;> simp [infoOf, guard, collected_map] at blocked

theorem launch_returns {goal : CheckResult → LinearizationInfo I O → Prop}
    (waits : parts ≠ [] ∨ timeout = true)
    (right : ∀ p received queued weight result info,
      Checking model computeInfo timeout parts p received queued weight →
        p.phase = .returned result info → goal result info) :
    Eventually (step model computeInfo timeout)
      (fun p => ∃ result info, p.phase = .returned result info ∧ goal result info)
      (launch (parts.map Part.entries)) := by
  refine eventually_of_bound (fun p n => ∃ received queued weight,
    Checking model computeInfo timeout parts p received queued weight ∧ total parts p weight = n)
    ?_ ?_ ⟨[], [], _, launch_checking model computeInfo timeout parts, rfl⟩
  · rintro p q n a ⟨received, queued, weight, c, rfl⟩ taken
    obtain ⟨received', queued', weight', c', less⟩ := c.stepped taken
    exact ⟨_, less, received', queued', weight', c', rfl⟩
  · rintro p n ⟨received, queued, weight, c, -⟩ stuck
    rcases c.progress stuck with ⟨result, info, done⟩ | ⟨empty, never⟩
    · exact ⟨result, info, done, right p _ _ _ result info c done⟩
    · exact absurd waits (by simp [empty, never])

end Invariant

theorem launch_nil_looping {model : FullModel S I O} {computeInfo : Bool} {p : Parallel S I O}
    (run : Run (step model computeInfo false) free (launch []) p) : p = launch [] := by
  refine run.invariant (· = launch []) ?_ rfl
  rintro p q a rfl - taken
  cases a <;> simp [step, work, launch] at taken

end DistributedLabs.PorcupineParallel
