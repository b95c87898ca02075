import DistributedLabs.PorcupineEntries

/-! Histories given as events (porcupine/checker.go). `renumber` numbers the ids in
the order of their first events, and `convertEntries` takes positions for times.
When each id is called once and returns once after that, the entries are those of
the calls, in the order of these times. -/

namespace DistributedLabs.PorcupineEvents
open RealTimeOrders Porcupine PorcupineEntries

variable {I O : Type} {events : List (Event I O)} {seen : List ℤ} {id : ℤ}

/-- The ids seen and then those of the events, each where it comes first. -/
def firsts (seen : List ℤ) : List (Event I O) → List ℤ
  | [] => seen
  | v :: rest => if v.id ∈ seen then firsts seen rest else firsts (seen ++ [v.id]) rest

theorem firsts_append (seen : List ℤ) (events : List (Event I O)) :
    ∃ later, firsts seen events = seen ++ later := by
  induction events generalizing seen with
  | nil => exact ⟨[], (List.append_nil seen).symm⟩
  | cons v rest ih =>
    by_cases old : v.id ∈ seen
    · simpa [firsts, old] using ih seen
    · obtain ⟨later, shape⟩ := ih (seen ++ [v.id])
      exact ⟨v.id :: later, by simp [firsts, old, shape]⟩

theorem firsts_nodup (nodup : seen.Nodup) (events : List (Event I O)) :
    (firsts seen events).Nodup := by
  induction events generalizing seen with
  | nil => exact nodup
  | cons v rest ih =>
    by_cases old : v.id ∈ seen
    · simpa [firsts, old] using ih nodup
    · have grown : (seen ++ [v.id]).Nodup := by
        refine List.nodup_append.mpr ⟨nodup, List.nodup_singleton _, fun a left b right same => ?_⟩
        rw [List.mem_singleton.mp right] at same
        exact old (same ▸ left)
      simpa [firsts, old] using ih grown

theorem mem_firsts : id ∈ firsts seen events ↔ id ∈ seen ∨ ∃ v ∈ events, v.id = id := by
  induction events generalizing seen with
  | nil => simp [firsts]
  | cons v rest ih =>
    by_cases old : v.id ∈ seen
    · rw [firsts, if_pos old, ih]
      constructor
      · rintro (before | ⟨w, later, same⟩)
        · exact .inl before
        · exact .inr ⟨w, List.mem_cons_of_mem v later, same⟩
      · rintro (before | ⟨w, member, rfl⟩)
        · exact .inl before
        · rcases List.mem_cons.mp member with rfl | later
          · exact .inl old
          · exact .inr ⟨w, later, rfl⟩
    · rw [firsts, if_neg old, ih]
      simp [or_assoc, eq_comm]

def numbers (seen : List ℤ) (id : ℤ) : Option ℤ := if id ∈ seen then some (seen.idxOf id) else none

theorem numbers_append (fresh : id ∉ seen) :
    Function.update (numbers seen) id (some (seen.length : ℤ)) = numbers (seen ++ [id]) := by
  funext other
  by_cases same : other = id
  · subst same
    simp [numbers, List.idxOf_append_of_notMem fresh]
  · by_cases old : other ∈ seen
    · simp [numbers, same, old, List.idxOf_append_of_mem old]
    · simp [numbers, same, old]

theorem renumberFrom_firsts (seen : List ℤ) (events : List (Event I O)) :
    renumberFrom (numbers seen) seen.length events =
      events.map fun v => { v with id := (firsts seen events).idxOf v.id } := by
  induction events generalizing seen with
  | nil => rfl
  | cons v rest ih =>
    by_cases old : v.id ∈ seen
    · obtain ⟨later, shape⟩ := firsts_append seen rest
      have known : numbers seen v.id = some (seen.idxOf v.id : ℤ) := by simp [numbers, old]
      have number : (firsts seen rest).idxOf v.id = seen.idxOf v.id := by
        rw [shape, List.idxOf_append_of_mem old]
      simp only [renumberFrom, known, ih seen, List.map_cons, firsts, if_pos old, number]
    · obtain ⟨later, shape⟩ := firsts_append (seen ++ [v.id]) rest
      have unknown : numbers seen v.id = none := by simp [numbers, old]
      have number : (firsts (seen ++ [v.id]) rest).idxOf v.id = seen.length := by
        rw [shape, List.idxOf_append_of_mem (by simp), List.idxOf_append_of_notMem old]
        simp
      have tail := ih (seen ++ [v.id])
      rw [List.length_append, List.length_singleton, Nat.cast_succ] at tail
      simp only [renumberFrom, unknown, numbers_append old, tail, List.map_cons, firsts, if_neg old,
        number]

theorem renumber_firsts (events : List (Event I O)) :
    renumber events = events.map fun v => { v with id := (firsts [] events).idxOf v.id } := by
  have unnumbered : (fun _ => none) = numbers [] := by
    funext id
    simp [numbers]
  rw [renumber, unnumbered]
  exact renumberFrom_firsts [] events

theorem mem_convertFrom {i : ℤ} {e : Entry I O} : e ∈ convertFrom i events ↔
    ∃ (p : ℕ) (v : Event I O), events[p]? = some v ∧
      e = ⟨v.kind, v.value, v.id, i + p, v.clientId⟩ := by
  induction events generalizing i with
  | nil => simp [convertFrom]
  | cons elem rest ih =>
    rw [convertFrom, List.mem_cons, ih]
    constructor
    · rintro (rfl | ⟨p, v, found, rfl⟩)
      · exact ⟨0, elem, rfl, by simp⟩
      · exact ⟨p + 1, v, by simpa using found, by rw [add_assoc, add_comm 1, Nat.cast_succ]⟩
    · rintro ⟨p, v, found, rfl⟩
      cases p with
      | zero =>
        obtain rfl : elem = v := by simpa using found
        exact .inl (by simp)
      | succ p =>
        exact .inr ⟨p, v, by simpa using found, by rw [add_assoc, add_comm 1, Nat.cast_succ]⟩

theorem convertFrom_times (i : ℤ) (events : List (Event I O)) :
    (convertFrom i events).Pairwise fun a b => a.time < b.time := by
  induction events generalizing i with
  | nil => exact .nil
  | cons elem rest ih =>
    refine List.pairwise_cons.mpr ⟨fun e member => ?_, ih (i + 1)⟩
    obtain ⟨p, v, -, rfl⟩ := mem_convertFrom.mp member
    simp only
    omega

/-- Each id that occurs is called once and returns once, after the call, and the
values are of the kinds of their events. -/
structure Paired (events : List (Event I O)) : Prop where
  once : (events.map fun v => (v.kind, v.id)).Nodup
  both : ∀ v ∈ events, [(Kind.call, v.id), (Kind.ret, v.id)].Sublist
    (events.map fun v => (v.kind, v.id))
  typed : ∀ v ∈ events, (v.kind = .call ∧ v.value.isLeft) ∨ (v.kind = .ret ∧ v.value.isRight)

/-- The call with this id, at the positions of its two events. -/
def eventCall (events : List (Event I O)) (id : ℤ) : Option (Interval ℤ I O) := do
  let p := events.findIdx fun v => (v.kind, v.id) = (.call, id)
  let q := events.findIdx fun v => (v.kind, v.id) = (.ret, id)
  let input ← (← events[p]?).value.getLeft?
  let output ← (← events[q]?).value.getRight?
  some ⟨input, output, p, q⟩

def eventCalls (events : List (Event I O)) : List (Interval ℤ I O) :=
  (firsts [] events).filterMap (eventCall events)

section Paired

variable {p q : ℕ} {v : Event I O}

theorem Paired.unique (paired : Paired events) {w : Event I O} (atP : events[p]? = some v)
    (atQ : events[q]? = some w) (same : (v.kind, v.id) = (w.kind, w.id)) : p = q := by
  have bound : p < (events.map fun v => (v.kind, v.id)).length := by
    rw [List.length_map]
    exact (List.getElem?_eq_some_iff.mp atP).1
  refine (List.getElem?_inj bound paired.once).mp ?_
  simp only [List.getElem?_map, atP, atQ, Option.map_some, same]

theorem Paired.findIdx (paired : Paired events) (found : events[p]? = some v) :
    (events.findIdx fun w => (w.kind, w.id) = (v.kind, v.id)) = p := by
  obtain ⟨bound, rfl⟩ := List.getElem?_eq_some_iff.mp found
  rw [List.findIdx_eq bound]
  refine ⟨by simp, fun j before => decide_eq_false fun same => ?_⟩
  have := paired.unique (List.getElem?_eq_getElem (before.trans bound)) found same
  omega

theorem Paired.positions (paired : Paired events) (member : v ∈ events) :
    ∃ (p q : ℕ) (c r : Event I O), p < q ∧ events[p]? = some c ∧ (c.kind, c.id) = (.call, v.id) ∧
      events[q]? = some r ∧ (r.kind, r.id) = (.ret, v.id) := by
  obtain ⟨front, back, split, early⟩ := pair_split (paired.both v member)
  obtain ⟨p, before, call⟩ := List.mem_iff_getElem.mp early
  have atP : (events.map fun v => (v.kind, v.id))[p]? = some (.call, v.id) := by
    rw [split, List.getElem?_append_left before, List.getElem?_eq_getElem before, call]
  have atQ : (events.map fun v => (v.kind, v.id))[front.length]? = some (.ret, v.id) := by
    rw [split]
    simp
  rw [List.getElem?_map] at atP atQ
  obtain ⟨c, foundP, called⟩ := Option.map_eq_some_iff.mp atP
  obtain ⟨r, foundQ, returned⟩ := Option.map_eq_some_iff.mp atQ
  exact ⟨p, front.length, c, r, before, foundP, called, foundQ, returned⟩

theorem Paired.call (paired : Paired events) (member : v ∈ events) :
    ∃ a, eventCall events v.id = some a ∧ a.call < a.ret ∧
      ∀ (p : ℕ) (w : Event I O), events[p]? = some w → w.id = v.id →
        w.value = valueOf w.kind a ∧ (p : ℤ) = timeOf w.kind a := by
  obtain ⟨p, q, c, r, before, atP, called, atQ, returned⟩ := paired.positions member
  obtain ⟨callKind, callId⟩ := Prod.mk.inj called
  obtain ⟨retKind, retId⟩ := Prod.mk.inj returned
  obtain ⟨input, callValue⟩ : ∃ input, c.value = .inl input := by
    rcases paired.typed c (List.mem_of_getElem? atP) with ⟨-, left⟩ | ⟨kind, -⟩
    · exact Sum.isLeft_iff.mp left
    · cases callKind.symm.trans kind
  obtain ⟨output, retValue⟩ : ∃ output, r.value = .inr output := by
    rcases paired.typed r (List.mem_of_getElem? atQ) with ⟨kind, -⟩ | ⟨-, right⟩
    · cases retKind.symm.trans kind
    · exact Sum.isRight_iff.mp right
  have first := paired.findIdx atP
  have second := paired.findIdx atQ
  rw [called] at first
  rw [returned] at second
  refine ⟨⟨input, output, p, q⟩, ?_, by simpa using before, fun j w found same => ?_⟩
  · simp only [eventCall, first, second, atP, atQ]
    simp [callValue, retValue]
  · cases kind : w.kind with
    | call =>
      obtain rfl := paired.unique found atP (by rw [called, kind, same])
      obtain rfl := Option.some.inj (found.symm.trans atP)
      exact ⟨callValue, rfl⟩
    | ret =>
      obtain rfl := paired.unique found atQ (by rw [returned, kind, same])
      obtain rfl := Option.some.inj (found.symm.trans atQ)
      exact ⟨retValue, rfl⟩

theorem filterMap_get {A B : Type} {f : A → Option B} {l : List A} (all : ∀ x ∈ l, f x ≠ none)
    (i : ℕ) : (l.filterMap f)[i]? = l[i]?.bind f := by
  induction l generalizing i with
  | nil => rfl
  | cons x l ih =>
    obtain ⟨y, found⟩ := Option.ne_none_iff_exists'.mp (all x List.mem_cons_self)
    have tail := ih fun z inside => all z (List.mem_cons_of_mem x inside)
    cases i with
    | zero => simp [found]
    | succ i => simpa [found] using tail i

theorem Paired.call_get (paired : Paired events) (i : ℕ) :
    (eventCalls events)[i]? = (firsts [] events)[i]?.bind (eventCall events) := by
  refine filterMap_get (fun id member => ?_) i
  obtain ⟨v, inside, rfl⟩ := (mem_firsts.mp member).resolve_left List.not_mem_nil
  obtain ⟨a, found, -⟩ := paired.call inside
  simp [found]

theorem Paired.call_at (paired : Paired events) (member : v ∈ events) :
    (eventCalls events)[(firsts [] events).idxOf v.id]? = eventCall events v.id := by
  have inside : v.id ∈ firsts [] events := mem_firsts.mpr (.inr ⟨v, member, rfl⟩)
  rw [paired.call_get, List.getElem?_eq_getElem (List.idxOf_lt_length_of_mem inside),
    List.getElem_idxOf, Option.bind_some]

theorem Paired.forward (paired : Paired events) : ∀ a ∈ eventCalls events, a.call ≤ a.ret := by
  intro a member
  obtain ⟨id, inside, found⟩ := List.mem_filterMap.mp member
  obtain ⟨v, occurs, rfl⟩ := (mem_firsts.mp inside).resolve_left List.not_mem_nil
  obtain ⟨b, same, before, -⟩ := paired.call occurs
  obtain rfl := Option.some.inj (found.symm.trans same)
  exact before.le

theorem mem_entries {e : Entry I O} : e ∈ convertEntries (renumber events) ↔
    ∃ (p : ℕ) (v : Event I O), events[p]? = some v ∧
      e = ⟨v.kind, v.value, (firsts [] events).idxOf v.id, p, v.clientId⟩ := by
  rw [convertEntries, mem_convertFrom, renumber_firsts]
  simp only [List.getElem?_map, Option.map_eq_some_iff, zero_add]
  constructor
  · rintro ⟨p, -, ⟨v, found, rfl⟩, rfl⟩
    exact ⟨p, v, found, rfl⟩
  · rintro ⟨p, v, found, rfl⟩
    exact ⟨p, _, ⟨v, found, rfl⟩, rfl⟩

theorem moment_key {a b : Entry I O} {m n : ℕ} (first : a.id = m) (second : b.id = n)
    (same : moment a = moment b) : a.kind = b.kind ∧ m = n := by
  unfold moment at same
  rw [first, second, Int.toNat_natCast, Int.toNat_natCast] at same
  cases left : a.kind <;> cases right : b.kind <;> simp [left, right] at same
  · exact ⟨rfl, same⟩
  · exact ⟨rfl, same⟩

theorem Paired.moments_nodup (paired : Paired events) :
    ((convertEntries (renumber events)).map moment).Nodup := by
  have nodup : (convertEntries (renumber events)).Nodup :=
    (convertFrom_times 0 _).imp fun {a b} before same => before.ne (by rw [same])
  refine nodup.map_on fun a left b right same => ?_
  obtain ⟨p, v, atP, rfl⟩ := mem_entries.mp left
  obtain ⟨q, w, atQ, rfl⟩ := mem_entries.mp right
  obtain ⟨kind, number⟩ := moment_key rfl rfl same
  have id : v.id = w.id := List.idxOf_inj
    (mem_firsts.mpr (.inr ⟨v, List.mem_of_getElem? atP, rfl⟩)) |>.mp number
  obtain rfl := paired.unique atP atQ (Prod.ext kind id)
  rw [Option.some.inj (atP.symm.trans atQ)]

theorem Paired.occurs (paired : Paired events) {i : ℕ} (bound : i < (eventCalls events).length) :
    ∃ v ∈ events, (firsts [] events).idxOf v.id = i := by
  have found := paired.call_get i
  rw [List.getElem?_eq_getElem bound] at found
  obtain ⟨id, atI, -⟩ := Option.bind_eq_some_iff.mp found.symm
  obtain ⟨inside, rfl⟩ := List.getElem?_eq_some_iff.mp atI
  obtain ⟨v, member, same⟩ :=
    (mem_firsts.mp (List.getElem_mem inside)).resolve_left List.not_mem_nil
  refine ⟨v, member, ?_⟩
  rw [same]
  exact (firsts_nodup List.nodup_nil events).idxOf_getElem i inside

theorem Paired.sorted (paired : Paired events) :
    Sorted (eventCalls events) (convertEntries (renumber events)) where
  ofCall e member := by
    obtain ⟨p, v, found, rfl⟩ := mem_entries.mp member
    have occurs := List.mem_of_getElem? found
    obtain ⟨a, same, -, told⟩ := paired.call occurs
    refine ⟨by simp, a, ?_, told p v found rfl⟩
    rw [Int.toNat_natCast, paired.call_at occurs, same]
  nodup := paired.moments_nodup
  called i bound := by
    obtain ⟨v, member, rfl⟩ := paired.occurs bound
    obtain ⟨p, -, c, -, -, found, key, -⟩ := paired.positions member
    obtain ⟨kind, id⟩ := Prod.mk.inj key
    refine List.mem_map.mpr ⟨_, mem_entries.mpr ⟨p, c, found, rfl⟩, ?_⟩
    simp [moment, kind, id]
  returned i bound := by
    obtain ⟨v, member, rfl⟩ := paired.occurs bound
    obtain ⟨-, q, -, r, -, -, -, found, key⟩ := paired.positions member
    obtain ⟨kind, id⟩ := Prod.mk.inj key
    refine List.mem_map.mpr ⟨_, mem_entries.mpr ⟨q, r, found, rfl⟩, ?_⟩
    simp [moment, kind, id]
  sorted := (convertFrom_times 0 _).imp fun before =>
    less_eq_false.mpr ⟨before.le, fun same => absurd same before.ne⟩

theorem Paired.reads (paired : Paired events) :
    Reads (eventCalls events) (convertEntries (renumber events)) :=
  paired.sorted.reads paired.forward

end Paired

end DistributedLabs.PorcupineEvents
