import Mathlib.Algebra.BigOperators.Group.Finset.Basic
import Mathlib.Algebra.Order.BigOperators.Group.Finset
import Mathlib.Data.List.AList

/-!
Grouping records by key. The groups of a multiset of records are given
abstractly; a hash table filled one record at a time and a scan over records
sorted by key are two ways to compute them, and the groups of a partition by
key are the groups of the whole.
-/

namespace DistributedLabs.Grouping

variable {A K V : Type*} [DecidableEq K] (key : A → K) (value : A → V)

def valuesOf (k : K) (records : Multiset A) : Multiset V :=
  (records.filter fun a => key a = k).map value

/-- One pair for each key that occurs: the key and all its values. -/
def groups (records : Multiset A) : Multiset (K × Multiset V) :=
  ∑ k ∈ (records.map key).toFinset, {(k, valuesOf key value k records)}

theorem mem_groups {records : Multiset A} {g : K × Multiset V} :
    g ∈ groups key value records ↔
      g.1 ∈ records.map key ∧ g.2 = valuesOf key value g.1 records := by
  simp only [groups, Multiset.mem_sum, Multiset.mem_toFinset, Multiset.mem_singleton]
  constructor
  · rintro ⟨k, occurs, rfl⟩
    exact ⟨occurs, rfl⟩
  · rintro ⟨occurs, values⟩
    exact ⟨g.1, occurs, Prod.ext rfl values⟩

theorem groups_eq_map (records : Multiset A) :
    groups key value records = (records.map key).toFinset.val.map
      fun k => (k, valuesOf key value k records) := by
  have summed := Multiset.sum_map_singleton ((records.map key).toFinset.val.map
    fun k => (k, valuesOf key value k records))
  rw [Multiset.map_map] at summed
  exact summed

theorem groups_nodup (records : Multiset A) : (groups key value records).Nodup := by
  rw [groups_eq_map]
  exact Multiset.Nodup.map (fun _ _ same => congrArg Prod.fst same) (Finset.nodup _)

@[simp]
theorem groups_zero : groups key value (0 : Multiset A) = 0 := by
  simp [groups]

theorem valuesOf_cons (k : K) (a : A) (records : Multiset A) (same : key a = k) :
    valuesOf key value k (a ::ₘ records) = value a ::ₘ valuesOf key value k records := by
  rw [valuesOf, Multiset.filter_cons_of_pos records (p := fun b => key b = k) same,
    Multiset.map_cons, valuesOf]

theorem valuesOf_filter (k : K) (p : K → Prop) [DecidablePred p] (holds : p k)
    (records : Multiset A) :
    valuesOf key value k (records.filter fun a => p (key a)) = valuesOf key value k records := by
  rw [valuesOf, valuesOf, Multiset.filter_filter]
  congr 1
  refine Multiset.filter_congr fun a _ => ⟨And.left, fun same => ⟨same, ?_⟩⟩
  rw [same]
  exact holds

theorem groups_filter (p : K → Prop) [DecidablePred p] (records : Multiset A) :
    groups key value (records.filter fun a => p (key a)) =
      ∑ k ∈ (records.map key).toFinset with p k, {(k, valuesOf key value k records)} := by
  have keys : ((records.filter fun a => p (key a)).map key).toFinset =
      {k ∈ (records.map key).toFinset | p k} := by
    ext k
    simp only [Multiset.mem_toFinset, Multiset.mem_map, Multiset.mem_filter, Finset.mem_filter]
    constructor
    · rintro ⟨a, ⟨member, holds⟩, rfl⟩
      exact ⟨⟨a, member, rfl⟩, holds⟩
    · rintro ⟨⟨a, member, rfl⟩, holds⟩
      exact ⟨a, ⟨member, holds⟩, rfl⟩
  rw [groups, keys]
  refine Finset.sum_congr rfl fun k member => ?_
  rw [valuesOf_filter key value k p (Finset.mem_filter.mp member).2]

/-- Splitting the records by a bucket number of their keys splits the groups. -/
theorem groups_partition (bucket : K → Nat) (n : Nat) (records : Multiset A)
    (bounded : ∀ a ∈ records, bucket (key a) < n) :
    ∑ r ∈ Finset.range n, groups key value (records.filter fun a => bucket (key a) = r) =
      groups key value records := by
  have covered : ∀ k ∈ (records.map key).toFinset, bucket k ∈ Finset.range n := by
    intro k member
    obtain ⟨a, inside, rfl⟩ := Multiset.mem_map.mp (Multiset.mem_toFinset.mp member)
    exact Finset.mem_range.mpr (bounded a inside)
  rw [groups, ← Finset.sum_fiberwise_of_maps_to covered]
  exact Finset.sum_congr rfl fun r _ =>
    groups_filter key value (fun k => bucket k = r) records

theorem groups_cons (a : A) (records : Multiset A) :
    groups key value (a ::ₘ records) =
      {(key a, value a ::ₘ valuesOf key value (key a) records)} +
        groups key value (records.filter fun b => key b ≠ key a) := by
  have others : (a ::ₘ records).filter (fun b => key b ≠ key a) =
      records.filter fun b => key b ≠ key a :=
    Multiset.filter_cons_of_neg _ (by simp)
  rw [← others, groups_filter key value (fun k => k ≠ key a), groups,
    ← valuesOf_cons key value (key a) a records rfl,
    ← Finset.add_sum_erase _ _ (by simp : key a ∈ ((a ::ₘ records).map key).toFinset),
    Finset.filter_ne']

section Table

def appendValue (table : AList fun _ : K => List V) (k : K) (v : V) : AList fun _ : K => List V :=
  table.insert k ((table.lookup k).getD [] ++ [v])

def collect (table : AList fun _ : K => List V) (records : List A) :
    AList fun _ : K => List V :=
  records.foldl (fun table a => appendValue table (key a) (value a)) table

theorem collect_append (table : AList fun _ : K => List V) (first second : List A) :
    collect key value table (first ++ second) =
      collect key value (collect key value table first) second :=
  List.foldl_append

theorem lookup_collect (records : List A) (k : K) :
    (collect key value ∅ records).lookup k =
      if k ∈ records.map key then some ((records.filter fun a => key a = k).map value)
      else none := by
  induction records using List.reverseRecOn with
  | nil => rfl
  | append_singleton records a ih =>
    rw [collect_append]
    simp only [collect, List.foldl_cons, List.foldl_nil, appendValue] at ih ⊢
    rcases eq_or_ne k (key a) with rfl | apart
    · rw [AList.lookup_insert, ih]
      by_cases seen : key a ∈ records.map key
      · simp [seen]
      · have absent : records.filter (fun b => key b = key a) = [] := by
          simpa [List.filter_eq_nil_iff] using seen
        simp [seen, absent]
    · rw [AList.lookup_insert_ne apart, ih]
      simp [apart, apart.symm]

def entryGroup (entry : (_ : K) × List V) : K × Multiset V :=
  (entry.1, entry.2)

theorem collect_groups (records : List A) :
    ((collect key value ∅ records).entries.map entryGroup : Multiset (K × Multiset V)) =
      groups key value records := by
  refine Multiset.Nodup.ext ?_ (groups_nodup key value _) |>.mpr fun g => ?_
  · refine Multiset.coe_nodup.mpr (List.Nodup.of_map Prod.fst ?_)
    rw [List.map_map]
    exact (collect key value ∅ records).nodupKeys
  · rw [mem_groups, Multiset.mem_coe, List.mem_map]
    have listed : ∀ entry, entry ∈ (collect key value ∅ records).entries ↔
        entry.1 ∈ records.map key ∧
          entry.2 = (records.filter fun a => key a = entry.1).map value := by
      intro entry
      rw [← AList.mem_lookup_iff, lookup_collect]
      split <;> simp_all [eq_comm]
    constructor
    · rintro ⟨entry, member, rfl⟩
      obtain ⟨occurs, values⟩ := (listed entry).mp member
      refine ⟨by simpa [entryGroup] using occurs, ?_⟩
      simp [entryGroup, values, valuesOf]
    · rintro ⟨occurs, values⟩
      refine ⟨⟨g.1, (records.filter fun a => key a = g.1).map value⟩,
        (listed _).mpr ⟨by simpa using occurs, rfl⟩, Prod.ext rfl ?_⟩
      rw [values]
      simp [entryGroup, valuesOf]

end Table

section Scan

/-- The scan with the group of `k` open and `vs` its values so far. -/
def runsFrom (k : K) (vs : List V) : List A → List (K × List V)
  | [] => [(k, vs)]
  | a :: rest =>
    if key a = k then runsFrom k (vs ++ [value a]) rest
    else (k, vs) :: runsFrom (key a) [value a] rest

def runs : List A → List (K × List V)
  | [] => []
  | a :: rest => runsFrom key value (key a) [value a] rest

def runGroup (run : K × List V) : K × Multiset V :=
  (run.1, run.2)

theorem runsFrom_groups [LE K] [Std.IsPartialOrder K] (records : List A) (k : K) (vs : List V)
    (sorted : records.Pairwise fun a b => key a ≤ key b) (least : ∀ a ∈ records, k ≤ key a) :
    ((runsFrom key value k vs records).map runGroup : Multiset (K × Multiset V)) =
      {(k, (vs : Multiset V) + valuesOf key value k records)} +
        groups key value ((records : Multiset A).filter fun a => key a ≠ k) := by
  induction records generalizing k vs with
  | nil => simp [runsFrom, runGroup, valuesOf]
  | cons a rest ih =>
    obtain ⟨first, later⟩ := List.pairwise_cons.mp sorted
    by_cases same : key a = k
    · rw [runsFrom, if_pos same, ih k _ later fun b member => same ▸ first b member,
        ← Multiset.cons_coe, Multiset.filter_cons_of_neg _ (by simpa using same),
        valuesOf_cons key value k a rest same, ← Multiset.coe_add, add_assoc]
      rfl
    · have below : ∀ b ∈ a :: rest, key b ≠ k := by
        intro b member equal
        rcases List.mem_cons.mp member with rfl | inside
        · exact same equal
        · exact same (Std.le_antisymm (equal ▸ first b inside) (least a (by simp)))
      have kept : ((a :: rest : List A) : Multiset A).filter (fun b => key b ≠ k) =
          ((a :: rest : List A) : Multiset A) :=
        Multiset.filter_eq_self.mpr below
      have absent : valuesOf key value k ((a :: rest : List A) : Multiset A) = 0 := by
        rw [valuesOf, Multiset.filter_eq_nil.mpr below, Multiset.map_zero]
      rw [runsFrom, if_neg same, List.map_cons, ← Multiset.cons_coe, ih _ _ later first, kept,
        absent, add_zero, ← Multiset.cons_coe a rest, groups_cons]
      rfl

theorem runs_groups [LE K] [Std.IsPartialOrder K] (records : List A)
    (sorted : records.Pairwise fun a b => key a ≤ key b) :
    ((runs key value records).map runGroup : Multiset (K × Multiset V)) =
      groups key value records := by
  cases records with
  | nil => simp [runs]
  | cons a rest =>
    obtain ⟨first, later⟩ := List.pairwise_cons.mp sorted
    rw [runs, runsFrom_groups key value rest _ _ later first, ← Multiset.cons_coe a rest,
      groups_cons]
    rfl

end Scan

end DistributedLabs.Grouping
