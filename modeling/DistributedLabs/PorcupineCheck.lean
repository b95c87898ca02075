import DistributedLabs.PorcupineEvents
import DistributedLabs.PorcupineParallel

/-! The entry points of the checker (porcupine/checker.go, porcupine/porcupine.go):
a history of operations or of events is divided by the model, each part is made
into entries, and all parts are checked at once. Every run comes to an end, and
what it returns is right about the parts, whatever the order of its steps. Only a
history that is divided into no parts at all is never answered. -/

namespace DistributedLabs.PorcupineCheck
open Linearizability hiding Entry
open GuardedRuns RealTimeOrders Porcupine PorcupineEntries PorcupineEvents PorcupineSearch
open PorcupineVerdict PorcupineParallel

variable {S I O T : Type}

def checkOperations [DecidableEq S] (model : Model S I O) (history : List (Operation I O))
    (verbose timeout : Bool) (p : Parallel S I O) : Prop :=
  ∃ l, List.Forall₂ MakeEntries ((fillDefault model).partition history) l ∧
    Run (step (fillDefault model) verbose timeout) free (launch l) p

def checkEvents [DecidableEq S] (model : Model S I O) (history : List (Event I O))
    (verbose timeout : Bool) (p : Parallel S I O) : Prop :=
  Run (step (fillDefault model) verbose timeout) free
    (launch (((fillDefault model).partitionEvent history).map fun subhistory =>
      convertEntries (renumber subhistory))) p

def CheckOperations [DecidableEq S] (model : Model S I O) (history : List (Operation I O))
    (answer : Bool) : Prop :=
  ∃ p result info, checkOperations model history false false p ∧
    p.phase = .returned result info ∧ answer = decide (result = .ok)

def CheckEvents [DecidableEq S] (model : Model S I O) (history : List (Event I O))
    (answer : Bool) : Prop :=
  ∃ p result info, checkEvents model history false false p ∧
    p.phase = .returned result info ∧ answer = decide (result = .ok)

/-- In every interleaving `checkOperations` returns, and what it returns meets `goal`. -/
def OperationsReturn [DecidableEq S] (model : Model S I O) (history : List (Operation I O))
    (verbose timeout : Bool) (goal : CheckResult → LinearizationInfo I O → Prop) : Prop :=
  ∀ l, List.Forall₂ MakeEntries ((fillDefault model).partition history) l →
    Eventually (step (fillDefault model) verbose timeout)
      (fun p => ∃ result info, p.phase = .returned result info ∧ goal result info) (launch l)

def EventsReturn [DecidableEq S] (model : Model S I O) (history : List (Event I O))
    (verbose timeout : Bool) (goal : CheckResult → LinearizationInfo I O → Prop) : Prop :=
  Eventually (step (fillDefault model) verbose timeout)
    (fun p => ∃ result info, p.phase = .returned result info ∧ goal result info)
    (launch (((fillDefault model).partitionEvent history).map fun subhistory =>
      convertEntries (renumber subhistory)))

/-- A result that is right about whether `serial` holds. -/
structure Right (timeout : Bool) (serial : Prop) (result : CheckResult) : Prop where
  ok : result = .ok → serial
  illegal : result = .illegal → ¬ serial
  unknown : result = .unknown → timeout = true

theorem Right.ok_iff {serial : Prop} {result : CheckResult} (right : Right false serial result) :
    result = .ok ↔ serial := by
  cases result with
  | ok => exact ⟨right.ok, fun _ => rfl⟩
  | illegal => exact ⟨nofun, fun holds => absurd holds (right.illegal rfl)⟩
  | unknown => exact absurd (right.unknown rfl) Bool.false_ne_true

theorem Right.accepted {timeout : Bool} {serial : Prop} {result : CheckResult}
    (right : Right timeout serial result) (holds : serial) :
    result ≠ .illegal ∧ (timeout = false → result = .ok) := by
  cases result with
  | ok => exact ⟨nofun, fun _ => rfl⟩
  | illegal => exact absurd holds (right.illegal rfl)
  | unknown => exact ⟨nofun, fun never => absurd (right.unknown rfl) (by simp [never])⟩

section Parts

variable [LT T] {model : FullModel S I O} {verbose timeout : Bool} {parts : List (Part T I O)}
  {p : Parallel S I O} {result : CheckResult} {info : LinearizationInfo I O}

theorem answer_parts {received queued : List ℕ} {weight : ℕ → ℕ}
    (c : Checking model verbose timeout parts p received queued weight)
    (done : p.phase = .returned result info) :
    (result = .ok → ∀ h ∈ parts.map Part.h, ∃ calls, Serializes (specOf model) h calls) ∧
    (result = .illegal → Respects model →
      ∃ h ∈ parts.map Part.h, ¬ ∃ calls, Serializes (specOf model) h calls) ∧
    (result = .unknown → timeout = true) := by
  obtain ⟨ok, illegal, unknown⟩ := c.answer done
  refine ⟨fun accepted h member => ?_, fun rejected respects => ?_, unknown⟩
  · obtain ⟨part, inside, rfl⟩ := List.mem_map.mp member
    exact ok accepted part inside
  · obtain ⟨part, inside, serial⟩ := illegal rejected respects
    exact ⟨part.h, List.mem_map_of_mem inside, serial⟩

theorem right_parts {received queued : List ℕ} {weight : ℕ → ℕ}
    (c : Checking model verbose timeout parts p received queued weight)
    (done : p.phase = .returned result info) (respects : Respects model) :
    Right timeout (∀ h ∈ parts.map Part.h, ∃ calls, Serializes (specOf model) h calls) result := by
  obtain ⟨ok, illegal, unknown⟩ := answer_parts c done
  refine ⟨ok, fun rejected serial => ?_, unknown⟩
  obtain ⟨h, member, failing⟩ := illegal rejected respects
  exact failing (serial h member)

theorem run_sequences
    (run : Run (step model true timeout) free (launch (parts.map Part.entries)) p)
    (done : p.phase = .returned result info) :
    info.history = parts.map Part.entries ∧ ∀ (i : ℕ) h, (parts.map Part.h)[i]? = some h →
      ∃ partials, info.partialLinearizations[i]? = some partials ∧
        Shows model timeout h partials := by
  obtain ⟨received, queued, weight, c⟩ := run_checking run
  obtain ⟨history, told⟩ := c.sequences done rfl
  refine ⟨history, fun i h found => ?_⟩
  rw [List.getElem?_map] at found
  obtain ⟨part, atPart, rfl⟩ := Option.map_eq_some_iff.mp found
  exact told i part atPart

theorem run_returns
    (run : Run (step model verbose timeout) free (launch (parts.map Part.entries)) p)
    (stuck : ∀ a, step model verbose timeout p a = none) (waits : parts ≠ [] ∨ timeout = true) :
    ∃ result info, p.phase = .returned result info := by
  obtain ⟨received, queued, weight, c⟩ := run_checking run
  refine (c.progress stuck).resolve_right ?_
  rintro ⟨empty, never⟩
  exact waits.elim (· empty) (by simp [never])

end Parts

section Operations

theorem exists_parts {subhistories : List (List (Operation I O))} {l : List (List (Entry I O))}
    (forward : ∀ sub ∈ subhistories, ∀ op ∈ sub, op.call ≤ op.ret)
    (made : List.Forall₂ MakeEntries subhistories l) :
    ∃ parts : List (Part ℤ I O), parts.map Part.entries = l ∧
      parts.map Part.h = subhistories.map fun sub => sub.map interval := by
  induction made with
  | nil => exact ⟨[], rfl, rfl⟩
  | @cons sub entries subs l first _ ih =>
    obtain ⟨parts, entriesOf, hOf⟩ := ih fun sub member =>
      forward sub (List.mem_cons_of_mem _ member)
    have reads := makeEntries_reads (forward sub List.mem_cons_self) first
    exact ⟨⟨_, entries, reads⟩ :: parts, by simp [entriesOf], by simp [hOf]⟩

variable [DecidableEq S] {model : Model S I O} {history : List (Operation I O)}
  {verbose timeout : Bool} {p : Parallel S I O}

/-- Whatever order the goroutines, the timer and the main thread take their steps
in, the result is right: a killed goroutine never turns it into `Illegal`. -/
theorem checkOperations_result
    (forward : ∀ sub ∈ (fillDefault model).partition history, ∀ op ∈ sub, op.call ≤ op.ret)
    (reached : checkOperations model history verbose timeout p) {result : CheckResult}
    {info : LinearizationInfo I O} (done : p.phase = .returned result info) :
    (result = .ok → ∀ sub ∈ (fillDefault model).partition history,
      ∃ calls, Serializes (specOf (fillDefault model)) (sub.map interval) calls) ∧
    (result = .illegal → Respects (fillDefault model) →
      ∃ sub ∈ (fillDefault model).partition history,
        ¬ ∃ calls, Serializes (specOf (fillDefault model)) (sub.map interval) calls) ∧
    (result = .unknown → timeout = true) := by
  obtain ⟨l, made, run⟩ := reached
  obtain ⟨parts, rfl, hOf⟩ := exists_parts forward made
  obtain ⟨received, queued, weight, c⟩ := run_checking run
  have answer := answer_parts c done
  rw [hOf] at answer
  simpa using answer

def staleEntries : List (Entry (Option ℕ) ℕ) :=
  [⟨.call, .inl (some 1), 0, 0, 0⟩, ⟨.call, .inl none, 1, 1, 1⟩, ⟨.ret, .inr 1, 1, 2, 1⟩,
    ⟨.call, .inl none, 2, 3, 1⟩, ⟨.ret, .inr 0, 2, 4, 1⟩, ⟨.ret, .inr 0, 0, 5, 0⟩]

theorem staleReads_checked : ∃ p, checkOperations register staleReads true false p ∧
    p.phase = .returned .illegal ⟨[staleEntries], [[[0, 1]]]⟩ := by
  obtain ⟨p, run, done⟩ := exec_test (step (fillDefault register) true false) free
    (launch [staleEntries]) (List.replicate 10 (.work 0) ++ [.receive, .finish [[[0, 1]]]])
    (fun p => p.phase = .returned .illegal ⟨[staleEntries], [[[0, 1]]]⟩) (by decide +kernel)
  exact ⟨p, ⟨_, .cons staleReads_entries .nil, run⟩, of_decide_eq_true done⟩

theorem checkOperations_result_stale :
    ∃ p result info, checkOperations register staleReads true false p ∧
      p.phase = .returned result info ∧
      (result = .illegal → Respects (fillDefault register) →
        ∃ sub ∈ (fillDefault register).partition staleReads,
          ¬ ∃ calls, Serializes (specOf (fillDefault register)) (sub.map interval) calls) := by
  obtain ⟨p, reached, done⟩ := staleReads_checked
  exact ⟨p, _, _, reached, done, (checkOperations_result (by decide) reached done).2.1⟩

/-- The verbose form waits for all goroutines before it reads their sequences: each
is the beginning of an order, and when nothing stopped the search each call is in one
that no beginning with this call is longer than. -/
theorem checkOperations_verbose
    (forward : ∀ sub ∈ (fillDefault model).partition history, ∀ op ∈ sub, op.call ≤ op.ret)
    (reached : checkOperations model history true timeout p) {result : CheckResult}
    {info : LinearizationInfo I O} (done : p.phase = .returned result info) :
    List.Forall₂ MakeEntries ((fillDefault model).partition history) info.history ∧
    ∀ (i : ℕ) (sub : List (Operation I O)),
      ((fillDefault model).partition history)[i]? = some sub → ∃ partials,
        info.partialLinearizations[i]? = some partials ∧
        Shows (fillDefault model) timeout (sub.map interval) partials := by
  obtain ⟨l, made, run⟩ := reached
  obtain ⟨parts, rfl, hOf⟩ := exists_parts forward made
  obtain ⟨history, told⟩ := run_sequences run done
  refine ⟨history ▸ made, fun i sub found => told i _ ?_⟩
  rw [hOf, List.getElem?_map, found, Option.map_some]

theorem checkOperations_verbose_stale :
    ∃ p result info, checkOperations register staleReads true false p ∧
      p.phase = .returned result info ∧ List.Forall₂ MakeEntries [staleReads] info.history ∧
      ∃ partials, info.partialLinearizations[0]? = some partials ∧
        Shows (fillDefault register) false (staleReads.map interval) partials := by
  obtain ⟨p, reached, done⟩ := staleReads_checked
  have told := checkOperations_verbose (by decide) reached done
  exact ⟨p, _, _, reached, done, told.1, told.2 0 staleReads rfl⟩

/-- A check takes boundedly many steps, and when none is left to take it has
returned, except that without parts and without a timeout it never returns. -/
theorem checkOperations_returns
    (forward : ∀ sub ∈ (fillDefault model).partition history, ∀ op ∈ sub, op.call ≤ op.ret) :
    (∀ l, List.Forall₂ MakeEntries ((fillDefault model).partition history) l →
      ∃ bound, ∀ actions p,
        exec (step (fillDefault model) verbose timeout) free (launch l) actions =
        some p → actions.length ≤ bound) ∧
    ∀ p, checkOperations model history verbose timeout p →
      (((fillDefault model).partition history ≠ [] ∨ timeout = true) →
        (∀ a, step (fillDefault model) verbose timeout p a = none) →
        ∃ result info, p.phase = .returned result info) ∧
      ((fillDefault model).partition history = [] → timeout = false → p.phase = .looping) := by
  refine ⟨fun l made => ?_, fun p reached => ⟨fun waits stuck => ?_, fun empty never => ?_⟩⟩
  · obtain ⟨parts, rfl, -⟩ := exists_parts forward made
    exact ⟨stepsFor parts, fun actions p done => launch_length_le done⟩
  · obtain ⟨l, made, run⟩ := reached
    obtain ⟨parts, rfl, hOf⟩ := exists_parts forward made
    refine run_returns run stuck (waits.imp_left fun nonempty => ?_)
    rintro rfl
    exact nonempty (by simpa using hOf.symm)
  · obtain ⟨l, made, run⟩ := reached
    rw [empty] at made
    cases made
    subst never
    rw [launch_nil_looping run]
    rfl

theorem checkOperations_returns_stale :
    (fillDefault register).partition staleReads ≠ [] ∧
    ∀ p, checkOperations register staleReads false false p →
      (((fillDefault register).partition staleReads ≠ [] ∨ false = true) →
        (∀ a, step (fillDefault register) false false p a = none) →
        ∃ result info, p.phase = .returned result info) ∧
      ((fillDefault register).partition staleReads = [] → false = false → p.phase = .looping) :=
  ⟨by decide, (checkOperations_returns (by decide)).2⟩

end Operations

section Events

theorem exists_event_parts {subhistories : List (List (Event I O))}
    (paired : ∀ sub ∈ subhistories, Paired sub) :
    ∃ parts : List (Part ℤ I O),
      parts.map Part.entries = subhistories.map (fun sub => convertEntries (renumber sub)) ∧
      parts.map Part.h = subhistories.map eventCalls := by
  induction subhistories with
  | nil => exact ⟨[], rfl, rfl⟩
  | cons sub subs ih =>
    obtain ⟨parts, entriesOf, hOf⟩ := ih fun sub member =>
      paired sub (List.mem_cons_of_mem _ member)
    exact ⟨⟨_, _, (paired sub List.mem_cons_self).reads⟩ :: parts, by simp [entriesOf],
      by simp [hOf]⟩

variable [DecidableEq S] {model : Model S I O} {history : List (Event I O)} {verbose : Bool}
  {p : Parallel S I O}

/-- Without a timeout a history of events that has parts is answered in every
interleaving, and accepted just when each part has an order that its events allow;
a history without parts is never answered. -/
theorem checkEvents_result (respects : Respects (fillDefault model))
    (paired : ∀ sub ∈ (fillDefault model).partitionEvent history, Paired sub) :
    ((fillDefault model).partitionEvent history ≠ [] → ∀ verbose,
      EventsReturn model history verbose false fun result _ =>
        (result = .ok ↔ ∀ sub ∈ (fillDefault model).partitionEvent history,
          ∃ calls, Serializes (specOf (fillDefault model)) (eventCalls sub) calls)) ∧
    (∀ answer, CheckEvents model history answer →
      (answer = true ↔ ∀ sub ∈ (fillDefault model).partitionEvent history,
        ∃ calls, Serializes (specOf (fillDefault model)) (eventCalls sub) calls)) ∧
    ((fillDefault model).partitionEvent history = [] → ∀ verbose p,
      checkEvents model history verbose false p → p.phase = .looping) := by
  obtain ⟨parts, entriesOf, hOf⟩ := exists_event_parts paired
  have right (verbose : Bool) (p : Parallel S I O) (received queued : List ℕ) (weight : ℕ → ℕ)
      (result : CheckResult) (info : LinearizationInfo I O)
      (c : Checking (fillDefault model) verbose false parts p received queued weight)
      (done : p.phase = .returned result info) :
      result = .ok ↔ ∀ sub ∈ (fillDefault model).partitionEvent history,
        ∃ calls, Serializes (specOf (fillDefault model)) (eventCalls sub) calls := by
    have right := right_parts c done respects
    rw [hOf, List.forall_mem_map] at right
    exact right.ok_iff
  refine ⟨fun nonempty verbose => ?_, ?_, fun empty verbose p reached => ?_⟩
  · rw [EventsReturn, ← entriesOf]
    refine launch_returns (.inl ?_) (right verbose)
    rintro rfl
    exact nonempty (by simpa using hOf.symm)
  · rintro answer ⟨p, result, info, reached, done, rfl⟩
    rw [checkEvents, ← entriesOf] at reached
    obtain ⟨received, queued, weight, c⟩ := run_checking reached
    rw [decide_eq_true_iff]
    exact right false p received queued weight result info c done
  · rw [checkEvents, empty] at reached
    rw [launch_nil_looping reached]
    rfl

def staleEvents : List (Event (Option ℕ) ℕ) :=
  [⟨0, .call, .inl (some 1), 10⟩, ⟨1, .call, .inl none, 30⟩, ⟨1, .ret, .inr 1, 30⟩,
    ⟨1, .call, .inl none, 20⟩, ⟨1, .ret, .inr 0, 20⟩, ⟨0, .ret, .inr 0, 10⟩]

theorem checkEvents_result_stale :
    EventsReturn register staleEvents false false fun result _ =>
      (result = .ok ↔ ∀ sub ∈ (fillDefault register).partitionEvent staleEvents,
        ∃ calls, Serializes (specOf (fillDefault register)) (eventCalls sub) calls) := by
  have paired : ∀ sub ∈ (fillDefault register).partitionEvent staleEvents, Paired sub := by
    intro sub member
    obtain rfl : sub = staleEvents :=
      by simpa [fillDefault, register, noPartitionEvent] using member
    exact ⟨by decide, by decide, by decide⟩
  exact (checkEvents_result (respects_fillDefault rfl) paired).1 (by decide) false

end Events

end DistributedLabs.PorcupineCheck
