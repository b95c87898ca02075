import Mathlib.Tactic

/-! Linearizable histories of a shared object. A history lists operations with
the times of their call and return; a linear order of them, in which pending
ones may be left out, must replay on the sequential object and respect real
time. An implementation that can name, for each answered operation, a moment
between its call and its return at which it took effect is linearizable. -/

namespace DistributedLabs.Linearizability

/-- The next state when the object answers input `i` by `o`, if it may. -/
structure Spec (S I O : Type*) where
  init : S
  step : S → I → O → Option S

/-- A pending operation has no result. -/
structure Op (I O : Type*) where
  input : I
  call : ℕ
  result : Option (O × ℕ)
  deriving DecidableEq

/-- The operation at position `op` of a history, with an answer. -/
structure Entry (I O : Type*) where
  op : ℕ
  input : I
  output : O
  deriving DecidableEq

structure Point (I O : Type*) extends Entry I O where
  time : ℕ

variable {S I O : Type*}

def replay (spec : Spec S I O) : S → List (Entry I O) → Option S
  | s, [] => some s
  | s, e :: rest => (spec.step s e.input e.output).bind fun t => replay spec t rest

def Precedes (h : List (Op I O)) (i j : ℕ) : Prop :=
  ∃ a ∈ h[i]?, ∃ b ∈ h[j]?, ∃ r ∈ a.result, r.2 < b.call

instance (h : List (Op I O)) (i j : ℕ) : Decidable (Precedes h i j) :=
  inferInstanceAs (Decidable (∃ a ∈ h[i]?, ∃ b ∈ h[j]?, ∃ r ∈ a.result, r.2 < b.call))

structure Linearizes (spec : Spec S I O) (h : List (Op I O)) (order : List (Entry I O)) :
    Prop where
  distinct : (order.map Entry.op).Nodup
  sound : ∀ e ∈ order, ∃ op, h[e.op]? = some op ∧ op.input = e.input ∧
    ∀ r ∈ op.result, e.output = r.1
  complete : ∀ i op, h[i]? = some op → op.result ≠ none → ∃ e ∈ order, e.op = i
  realTime : order.Pairwise fun e f => ¬ Precedes h f.op e.op
  legal : replay spec spec.init order ≠ none

def Linearizable (spec : Spec S I O) (h : List (Op I O)) : Prop :=
  ∃ order, Linearizes spec h order

theorem replay_append (spec : Spec S I O) (s : S) (front back : List (Entry I O)) :
    replay spec s (front ++ back) =
      (replay spec s front).bind fun t => replay spec t back := by
  induction front generalizing s with
  | nil => rfl
  | cons e rest ih =>
    simp only [List.cons_append, replay]
    cases spec.step s e.input e.output with
    | none => rfl
    | some t => exact ih t

theorem replay_snoc {spec : Spec S I O} {s t u : S} {entries : List (Entry I O)} {e : Entry I O}
    (before : replay spec s entries = some t) (last : spec.step t e.input e.output = some u) :
    replay spec s (entries ++ [e]) = some u := by
  rw [replay_append, before]
  simp [replay, last]

theorem replay_filter {spec : Spec S I O} {keep : Entry I O → Bool} {s t : S}
    {entries : List (Entry I O)}
    (idle : ∀ e ∈ entries, keep e = false → ∀ u w, spec.step u e.input e.output = some w → w = u)
    (done : replay spec s entries = some t) : replay spec s (entries.filter keep) = some t := by
  induction entries generalizing s with
  | nil => exact done
  | cons e rest ih =>
    obtain ⟨u, first, tail⟩ := Option.bind_eq_some_iff.mp done
    have later := ih (fun f member => idle f (List.mem_cons_of_mem e member)) tail
    cases kept : keep e with
    | true =>
      rw [List.filter_cons_of_pos kept]
      simpa [replay, first] using later
    | false =>
      rw [List.filter_cons_of_neg (by simp [kept])]
      obtain rfl := idle e List.mem_cons_self kept s u first
      exact later

/-- Operations that take effect one after the other, each between its call and
its return, are linearized in that order. -/
theorem linearizable_of_points {spec : Spec S I O} {h : List (Op I O)}
    {points : List (Point I O)} (increasing : points.Pairwise fun p q => p.time < q.time)
    (distinct : (points.map fun p => p.op).Nodup)
    (sound : ∀ p ∈ points, ∃ op, h[p.op]? = some op ∧ op.input = p.input ∧ op.call < p.time ∧
      ∀ r ∈ op.result, p.output = r.1 ∧ p.time < r.2)
    (complete : ∀ i op, h[i]? = some op → op.result ≠ none → ∃ p ∈ points, p.op = i)
    (legal : replay spec spec.init (points.map Point.toEntry) ≠ none) : Linearizable spec h := by
  refine ⟨points.map Point.toEntry,
    { distinct := by simpa [Function.comp_def] using distinct
      sound := fun e member => ?_
      complete := fun i op found done => ?_
      realTime := ?_
      legal := legal }⟩
  · obtain ⟨p, inside, rfl⟩ := List.mem_map.mp member
    obtain ⟨op, found, input, -, answer⟩ := sound p inside
    exact ⟨op, found, input, fun r returned => (answer r returned).1⟩
  · obtain ⟨p, inside, same⟩ := complete i op found done
    exact ⟨p.toEntry, List.mem_map_of_mem inside, same⟩
  · rw [List.pairwise_map]
    refine increasing.imp_of_mem fun {p q} inP inQ order precedes => ?_
    obtain ⟨a, foundA, b, foundB, r, returned, before⟩ := precedes
    obtain ⟨opP, foundP, -, callP, -⟩ := sound p inP
    obtain ⟨opQ, foundQ, -, -, answerQ⟩ := sound q inQ
    obtain rfl : a = opQ := Option.some.inj (foundA.symm.trans foundQ)
    obtain rfl : b = opP := Option.some.inj (foundB.symm.trans foundP)
    have := (answerQ r returned).2
    omega

def answered (h : List (Op I O)) : List (Entry I O) :=
  h.zipIdx.filterMap fun p => p.1.result.map fun r => ⟨p.2, p.1.input, r.1⟩

theorem mem_answered {h : List (Op I O)} {e : Entry I O} :
    e ∈ answered h ↔ ∃ op r, h[e.op]? = some op ∧ op.result = some r ∧
      op.input = e.input ∧ r.1 = e.output := by
  rw [answered, List.mem_filterMap]
  constructor
  · rintro ⟨⟨op, i⟩, inside, answer⟩
    obtain ⟨r, result, rfl⟩ := Option.map_eq_some_iff.mp answer
    exact ⟨op, r, List.mem_zipIdx_iff_getElem?.mp inside, result, rfl, rfl⟩
  · rintro ⟨op, r, found, result, input, output⟩
    refine ⟨(op, e.op), List.mem_zipIdx_iff_getElem?.mpr found, ?_⟩
    rw [result, Option.map_some, input, output]

theorem linearizable_complete {spec : Spec S I O} {h : List (Op I O)}
    (done : ∀ op ∈ h, op.result ≠ none) (nodup : (answered h).Nodup)
    (linearizable : Linearizable spec h) :
    ∃ order ∈ (answered h).permutations', (order.Pairwise fun e f => ¬ Precedes h f.op e.op) ∧
      (replay spec spec.init order).isSome := by
  obtain ⟨order, linear⟩ := linearizable
  refine ⟨order, ?_, linear.realTime, Option.isSome_iff_ne_none.mpr linear.legal⟩
  rw [List.mem_permutations']
  refine (List.perm_ext_iff_of_nodup linear.distinct.of_map nodup).mpr fun e => ?_
  rw [mem_answered]
  constructor
  · intro member
    obtain ⟨op, found, input, answer⟩ := linear.sound e member
    obtain ⟨r, result⟩ := Option.ne_none_iff_exists'.mp (done op (List.mem_of_getElem? found))
    exact ⟨op, r, found, result, input, (answer r result).symm⟩
  · rintro ⟨op, r, found, result, input, output⟩
    obtain ⟨f, member, same⟩ := linear.complete e.op op found (by simp [result])
    obtain ⟨op', found', input', answer⟩ := linear.sound f member
    rw [same] at found'
    obtain rfl : op = op' := Option.some.inj (found.symm.trans found')
    have equal : f = e := by
      cases f
      cases e
      simp_all
    rwa [← equal]

end DistributedLabs.Linearizability
