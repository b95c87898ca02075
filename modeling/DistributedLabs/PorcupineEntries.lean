import DistributedLabs.Porcupine
import DistributedLabs.RealTimeOrders

/-! What the checker makes of a history before it searches: the entries in the
order of their times, and the linked nodes in which each call knows the node of
its return. -/

namespace DistributedLabs.PorcupineEntries
open LinkedCells PorcupineBitset RealTimeOrders Porcupine

variable {S I O T : Type}

def moment (e : Entry I O) : Moment :=
  match e.kind with
  | .call => .call e.id.toNat
  | .ret => .ret e.id.toNat

def valueOf (kind : Kind) (a : Interval T I O) : I ⊕ O :=
  match kind with
  | .call => .inl a.input
  | .ret => .inr a.output

/-- The entries are those of the calls of `h`, in the order of their times. -/
structure Reads [LT T] (h : List (Interval T I O)) (entries : List (Entry I O)) : Prop
    extends Timeline h (entries.map moment) where
  natural : ∀ e ∈ entries, 0 ≤ e.id
  values : ∀ e ∈ entries, ∃ a, h[e.id.toNat]? = some a ∧ e.value = valueOf e.kind a

section Layout

variable {entries : List (Entry I O)}

def returnOf (id : ℤ) : List (Entry I O) → Option ℕ
  | [] => none
  | e :: rest => if e.kind = .ret ∧ e.id = id then some rest.length else returnOf id rest

def itemOf (e : Entry I O) (rest : List (Entry I O)) : Item I O :=
  ⟨some e.value, match e.kind with | .call => returnOf e.id rest | .ret => none, e.id⟩

/-- The nodes are made from the last entry on. -/
def items : List (Entry I O) → List (Item I O)
  | [] => []
  | e :: rest => items rest ++ [itemOf e rest]

def places (n : ℕ) : List ℕ := (List.range n).reverse

theorem places_succ (n : ℕ) : places (n + 1) = n :: places n := by
  simp [places, List.range_succ]

theorem places_nodup (n : ℕ) : (places n).Nodup := by
  simp [places, List.nodup_range]

theorem items_length (entries : List (Entry I O)) : (items entries).length = entries.length := by
  induction entries with
  | nil => rfl
  | cons e rest ih => simp [items, ih]

theorem push_new {nodes : List (Node I O)} {n : ℕ} (linked : Linked nodes none (places n))
    (count : nodes.length = n) (item : Item I O) :
    ∃ nodes', insertBefore (nodes ++ [⟨item, none, none⟩]) n (places n).head? = some nodes' ∧
      Linked nodes' none (places (n + 1)) ∧
      nodes'.map Cell.item = nodes.map Cell.item ++ [item] := by
  have old : Linked (nodes ++ [⟨item, none, none⟩]) none (places n) :=
    linked.congr fun p member => List.getElem?_append_left (linked.bound member)
  have new : (nodes ++ [⟨item, none, none⟩])[n]? = some ⟨item, none, none⟩ := by
    simp [← count]
  have fresh : (n :: places n).Nodup := by
    rw [← places_succ]
    exact places_nodup (n + 1)
  obtain ⟨nodes', done, linked', same⟩ := old.push fresh new
  exact ⟨nodes', done, by rwa [places_succ], by simpa using same⟩

theorem makeLinkedEntries_linked (entries : List (Entry I O)) :
    ∃ l, makeLinkedEntries entries = some l ∧ l.nodes.map Cell.item = items entries ∧
      l.root = (places entries.length).head? ∧ Linked l.nodes none (places entries.length) ∧
      l.matching = fun id => returnOf id entries := by
  induction entries with
  | nil => exact ⟨_, rfl, rfl, rfl, trivial, rfl⟩
  | cons e rest ih =>
    obtain ⟨l, made, same, root, linked, matching⟩ := ih
    have count : l.nodes.length = rest.length := by
      rw [← items_length rest, ← same, List.length_map]
    obtain ⟨nodes, done, linked', same'⟩ := push_new linked count (itemOf e rest)
    rw [same] at same'
    cases kind : e.kind with
    | ret =>
      refine ⟨⟨nodes, rest.length, Function.update l.matching e.id (some rest.length)⟩, ?_, same',
        by simp [places_succ], linked', ?_⟩
      · simp only [itemOf, kind] at done
        simp [makeLinkedEntries, made, linkEntry, kind, count, root, done]
      · funext id
        simp only [matching, returnOf, kind, Function.update_apply, true_and, eq_comm]
    | call =>
      refine ⟨⟨nodes, rest.length, l.matching⟩, ?_, same', by simp [places_succ], linked', ?_⟩
      · simp only [itemOf, kind] at done
        simp [makeLinkedEntries, made, linkEntry, kind, count, root, matching, done]
      · funext id
        simp [matching, returnOf, kind]

theorem items_get (front : List (Entry I O)) (e : Entry I O) (back : List (Entry I O)) :
    (items (front ++ e :: back))[back.length]? = some (itemOf e back) := by
  induction front with
  | nil => simp [items, items_length]
  | cons x front ih =>
    rw [List.cons_append, items, List.getElem?_append_left, ih]
    rw [items_length, List.length_append, List.length_cons]
    omega

def place (entries : List (Entry I O)) (m : Moment) : ℕ :=
  match entries with
  | [] => 0
  | e :: rest => if moment e = m then rest.length else place rest m

theorem place_append {front back : List (Entry I O)} {e : Entry I O}
    (first : moment e ∉ front.map moment) :
    place (front ++ e :: back) (moment e) = back.length := by
  induction front with
  | nil => simp [place]
  | cons x front ih =>
    simp only [List.map_cons, List.mem_cons, not_or] at first
    simp [place, Ne.symm first.1, ih first.2]

theorem items_place {m : Moment} (nodup : (entries.map moment).Nodup)
    (member : m ∈ entries.map moment) :
    ∃ front e back, entries = front ++ e :: back ∧ moment e = m ∧
      place entries m = back.length ∧ (items entries)[place entries m]? = some (itemOf e back) := by
  obtain ⟨e, inside, rfl⟩ := List.mem_map.mp member
  obtain ⟨front, back, rfl⟩ := List.append_of_mem inside
  have first : moment e ∉ front.map moment := by
    rw [List.map_append, List.nodup_append] at nodup
    exact fun twice => nodup.2.2 _ twice _ (by simp) rfl
  have here : place (front ++ e :: back) (moment e) = back.length := place_append first
  exact ⟨front, e, back, rfl, rfl, here, by rw [here, items_get]⟩

theorem places_moments (nodup : (entries.map moment).Nodup) :
    (entries.map moment).map (place entries) = places entries.length := by
  induction entries with
  | nil => rfl
  | cons e rest ih =>
    rw [List.map_cons, List.nodup_cons] at nodup
    have later : (rest.map moment).map (place (e :: rest)) =
        (rest.map moment).map (place rest) := by
      apply List.map_congr_left
      intro m member
      have apart : moment e ≠ m := fun same => nodup.1 (same ▸ member)
      simp [place, apart]
    rw [List.map_cons, List.map_cons, later, ih nodup.2, List.length_cons, places_succ]
    simp [place]

theorem returnOf_place {i : ℕ} (natural : ∀ e ∈ entries, 0 ≤ e.id)
    (member : .ret i ∈ entries.map moment) :
    returnOf i entries = some (place entries (.ret i)) := by
  induction entries with
  | nil => simp at member
  | cons e rest ih =>
    have id := natural e List.mem_cons_self
    have same : (e.kind = .ret ∧ e.id = i) ↔ moment e = .ret i := by
      unfold moment
      cases e.kind with
      | call => simp
      | ret =>
        simp only [true_and, Moment.ret.injEq]
        omega
    by_cases here : moment e = .ret i
    · simp [returnOf, place, same, here]
    · have later : .ret i ∈ rest.map moment := by
        simpa [Ne.symm here] using member
      simp [returnOf, place, same, here, ih (fun x inside => natural x (.tail e inside)) later]

end Layout

theorem place_skip {front : List (Entry I O)} {m : Moment} (absent : m ∉ front.map moment)
    (back : List (Entry I O)) : place (front ++ back) m = place back m := by
  induction front with
  | nil => rfl
  | cons x front ih =>
    simp only [List.map_cons, List.mem_cons, not_or] at absent
    simp [place, Ne.symm absent.1, ih absent.2]

structure Laid (cells : List (Item I O)) (node : Moment → ℕ) (h : List (Interval T I O)) :
    Prop where
  call : ∀ i a, h[i]? = some a →
    cells[node (.call i)]? = some ⟨some (.inl a.input), some (node (.ret i)), i⟩
  ret : ∀ i a, h[i]? = some a → cells[node (.ret i)]? = some ⟨some (.inr a.output), none, i⟩

theorem moment_call {e : Entry I O} {i : ℕ} (natural : 0 ≤ e.id) (same : moment e = .call i) :
    e.kind = .call ∧ e.id = i := by
  unfold moment at same
  cases kind : e.kind with
  | call =>
    rw [kind] at same
    have := Moment.call.inj same
    exact ⟨rfl, by omega⟩
  | ret => simp [kind] at same

theorem moment_ret {e : Entry I O} {i : ℕ} (natural : 0 ≤ e.id) (same : moment e = .ret i) :
    e.kind = .ret ∧ e.id = i := by
  unfold moment at same
  cases kind : e.kind with
  | call => simp [kind] at same
  | ret =>
    rw [kind] at same
    have := Moment.ret.inj same
    exact ⟨rfl, by omega⟩

theorem Reads.laid [LT T] {h : List (Interval T I O)} {entries : List (Entry I O)}
    (reads : Reads h entries) : Laid (items entries) (place entries) h where
  call i a found := by
    have bound := (List.getElem?_eq_some_iff.mp found).1
    obtain ⟨front, e, back, rfl, same, -, held⟩ :=
      items_place reads.nodup ((reads.called i).mpr bound)
    have inside : e ∈ front ++ e :: back := by simp
    obtain ⟨kind, id⟩ := moment_call (reads.natural e inside) same
    obtain ⟨b, found', value⟩ := reads.values e inside
    obtain rfl : a = b := by
      rw [id, Int.toNat_natCast, found] at found'
      exact Option.some.inj found'
    -- the return of `i` comes after its call
    have returned := (reads.returned i).mpr bound
    have notFront : .ret i ∉ front.map moment := fun early => by
      refine reads.ordered i ?_
      rw [List.map_append, List.map_cons, same]
      exact List.cons_sublist_iff.mpr ⟨_, _, rfl, early, by simp⟩
    have inBack : .ret i ∈ back.map moment := by
      simpa [notFront, same] using returned
    have target : returnOf i back = some (place (front ++ e :: back) (.ret i)) := by
      rw [returnOf_place (fun x later => reads.natural x (by simp [later])) inBack,
        place_skip notFront]
      simp [place, same]
    rw [held, itemOf, value, kind, id, target]
    rfl
  ret i a found := by
    have bound := (List.getElem?_eq_some_iff.mp found).1
    obtain ⟨front, e, back, rfl, same, -, held⟩ :=
      items_place reads.nodup ((reads.returned i).mpr bound)
    have inside : e ∈ front ++ e :: back := by simp
    obtain ⟨kind, id⟩ := moment_ret (reads.natural e inside) same
    obtain ⟨b, found', value⟩ := reads.values e inside
    obtain rfl : a = b := by
      rw [id, Int.toNat_natCast, found] at found'
      exact Option.some.inj found'
    rw [held, itemOf, value, kind, id]
    rfl

theorem startSearch_linked [LT T] {h : List (Interval T I O)} {entries : List (Entry I O)}
    (reads : Reads h entries) (model : FullModel S I O) :
    ∃ nodes, startSearch model entries = some ⟨nodes, entries.length,
        ((entries.map moment).map (place entries)).head?, newBitset h.length, fun _ => [], [],
        List.replicate h.length none, model.init, 0⟩ ∧
      nodes.map Cell.item = items entries ++ [⟨none, none, -1⟩] ∧
      Linked nodes none (entries.length :: (entries.map moment).map (place entries)) := by
  obtain ⟨l, made, same, root, linked, -⟩ := makeLinkedEntries_linked entries
  have count : l.nodes.length = entries.length := by
    rw [← items_length entries, ← same, List.length_map]
  have calls : entries.length / 2 = h.length := by
    have := reads.toMatched.length
    rw [List.length_map] at this
    omega
  have walked : LinkedCells.length l.nodes l.nodes.length l.root = some entries.length := by
    rw [root, linked.length (by simp [places, count])]
    simp [places]
  obtain ⟨nodes, done, linked', same'⟩ := push_new linked count ⟨none, none, -1⟩
  rw [places_moments reads.nodup]
  refine ⟨nodes, ?_, by rw [same', same], by rwa [← places_succ]⟩
  rw [root] at walked
  simp [startSearch, made, count ▸ walked, calls, count, root, done]

section Sorted

def timeOf (kind : Kind) (a : Interval ℤ I O) : ℤ :=
  match kind with
  | .call => a.call
  | .ret => a.ret

def OfCall (h : List (Interval ℤ I O)) (e : Entry I O) : Prop :=
  0 ≤ e.id ∧ ∃ a, h[e.id.toNat]? = some a ∧ e.value = valueOf e.kind a ∧ e.time = timeOf e.kind a

/-- The entries of the calls of `h` in an order that `Less` allows. -/
structure Sorted (h : List (Interval ℤ I O)) (entries : List (Entry I O)) : Prop where
  ofCall : ∀ e ∈ entries, OfCall h e
  nodup : (entries.map moment).Nodup
  called : ∀ i, i < h.length → .call i ∈ entries.map moment
  returned : ∀ i, i < h.length → .ret i ∈ entries.map moment
  sorted : entries.Pairwise fun a b => less b a = false

variable {h : List (Interval ℤ I O)} {entries : List (Entry I O)} {i j : ℕ}
  {a b : Interval ℤ I O}

theorem less_eq_false {x y : Entry I O} :
    less y x = false ↔ x.time ≤ y.time ∧
      (x.time = y.time → ¬ (y.kind = .call ∧ x.kind = .ret)) := by
  by_cases same : y.time = x.time
  · simp [less, same]
  · rw [less, if_pos same, decide_eq_false_iff_not, not_lt]
    exact ⟨fun le => ⟨le, fun equal => absurd equal.symm same⟩, And.left⟩

theorem Sorted.call_time (reads : Sorted h entries) {e : Entry I O} (member : e ∈ entries)
    (same : moment e = .call i) (found : h[i]? = some a) : e.kind = .call ∧ e.time = a.call := by
  obtain ⟨natural, b, found', -, time⟩ := reads.ofCall e member
  obtain ⟨kind, id⟩ := moment_call natural same
  rw [id, Int.toNat_natCast, found] at found'
  obtain rfl := Option.some.inj found'
  exact ⟨kind, by rw [time, kind]; rfl⟩

theorem Sorted.ret_time (reads : Sorted h entries) {e : Entry I O} (member : e ∈ entries)
    (same : moment e = .ret i) (found : h[i]? = some a) : e.kind = .ret ∧ e.time = a.ret := by
  obtain ⟨natural, b, found', -, time⟩ := reads.ofCall e member
  obtain ⟨kind, id⟩ := moment_ret natural same
  rw [id, Int.toNat_natCast, found] at found'
  obtain rfl := Option.some.inj found'
  exact ⟨kind, by rw [time, kind]; rfl⟩

theorem Sorted.pair (reads : Sorted h entries) {m n : Moment}
    (both : [m, n].Sublist (entries.map moment)) :
    ∃ x ∈ entries, ∃ y ∈ entries, moment x = m ∧ moment y = n ∧ less y x = false := by
  obtain ⟨pair, inside, listed⟩ := List.sublist_map_iff.mp both
  match pair, listed with
  | [x, y], listed =>
    have later := List.pairwise_iff_forall_sublist.mp reads.sorted inside
    simp only [List.map_cons, List.map_nil, List.cons.injEq, and_true] at listed
    exact ⟨x, inside.subset (by simp), y, inside.subset (by simp), listed.1.symm, listed.2.symm,
      later⟩

theorem Sorted.before (reads : Sorted h entries) (atI : h[i]? = some a) (atJ : h[j]? = some b) :
    Before (entries.map moment) i j ↔ a.ret < b.call := by
  constructor
  · intro before
    obtain ⟨x, inX, y, inY, same, same', later⟩ := reads.pair before
    obtain ⟨kind, time⟩ := reads.ret_time inX same atI
    obtain ⟨kind', time'⟩ := reads.call_time inY same' atJ
    obtain ⟨le, tie⟩ := less_eq_false.mp later
    have apart : x.time ≠ y.time := fun equal => tie equal ⟨kind', kind⟩
    omega
  · intro earlier
    have returned := reads.returned i (List.getElem?_eq_some_iff.mp atI).1
    have called := reads.called j (List.getElem?_eq_some_iff.mp atJ).1
    refine (pair_of_mem returned called nofun).resolve_right fun before => ?_
    obtain ⟨y, inY, x, inX, same', same, later⟩ := reads.pair before
    obtain ⟨-, time⟩ := reads.ret_time inX same atI
    obtain ⟨-, time'⟩ := reads.call_time inY same' atJ
    have le := (less_eq_false.mp later).1
    omega

theorem Sorted.bound (reads : Sorted h entries) {m : Moment} (member : m ∈ entries.map moment) :
    m.id < h.length := by
  obtain ⟨e, inside, rfl⟩ := List.mem_map.mp member
  obtain ⟨natural, a, found, -⟩ := reads.ofCall e inside
  have id : (moment e).id = e.id.toNat := by
    unfold moment
    cases e.kind <;> rfl
  rw [id]
  exact (List.getElem?_eq_some_iff.mp found).1

theorem Sorted.reads (reads : Sorted h entries) (forward : ∀ a ∈ h, a.call ≤ a.ret) :
    Reads h entries where
  nodup := reads.nodup
  called i := ⟨reads.bound, reads.called i⟩
  returned i := ⟨reads.bound, reads.returned i⟩
  ordered i before := by
    have bound := reads.bound (before.subset (List.mem_cons_self))
    have found : h[i]? = some h[i] := List.getElem?_eq_getElem bound
    have earlier := (reads.before found found).mp before
    have := forward h[i] (List.getElem_mem bound)
    omega
  before_iff i j a b atI atJ := reads.before atI atJ
  natural e member := (reads.ofCall e member).1
  values e member := by
    obtain ⟨-, a, found, value, -⟩ := reads.ofCall e member
    exact ⟨a, found, value⟩

end Sorted

section Operations

def interval (op : Operation I O) : Interval ℤ I O := ⟨op.input, op.output, op.call, op.ret⟩

theorem mem_entriesFrom {history : List (Operation I O)} {id : ℤ} {e : Entry I O} :
    e ∈ entriesFrom id history ↔ ∃ (k : ℕ) (op : Operation I O), history[k]? = some op ∧
      (e = ⟨.call, .inl op.input, id + k, op.call, op.clientId⟩ ∨
        e = ⟨.ret, .inr op.output, id + k, op.ret, op.clientId⟩) := by
  induction history generalizing id with
  | nil => simp [entriesFrom]
  | cons elem rest ih =>
    simp only [entriesFrom, List.mem_cons, ih]
    constructor
    · rintro (rfl | rfl | ⟨k, op, found, shape⟩)
      · exact ⟨0, elem, rfl, by simp⟩
      · exact ⟨0, elem, rfl, by simp⟩
      · refine ⟨k + 1, op, by simpa using found, ?_⟩
        rwa [Nat.cast_succ, add_comm (k : ℤ), ← add_assoc]
    · rintro ⟨k, op, found, shape⟩
      cases k with
      | zero =>
        obtain rfl : elem = op := by simpa using found
        rw [Nat.cast_zero, add_zero] at shape
        exact shape.imp_right .inl
      | succ k =>
        refine .inr (.inr ⟨k, op, by simpa using found, ?_⟩)
        rwa [Nat.cast_succ, add_comm (k : ℤ), ← add_assoc] at shape

theorem entriesFrom_nodup (history : List (Operation I O)) (id : ℕ) :
    ((entriesFrom id history).map moment).Nodup := by
  induction history generalizing id with
  | nil => exact List.nodup_nil
  | cons elem rest ih =>
    have later (m : Moment) (member : m ∈ (entriesFrom (id + 1) rest).map moment) : id < m.id := by
      obtain ⟨e, inside, rfl⟩ := List.mem_map.mp member
      obtain ⟨k, op, -, rfl | rfl⟩ := mem_entriesFrom.mp inside <;>
        simp only [moment, Moment.id] <;> omega
    have tail := ih (id + 1)
    rw [Nat.cast_succ] at tail
    simp only [entriesFrom, List.map_cons, List.nodup_cons, List.mem_cons, moment,
      Int.toNat_natCast, reduceCtorEq, false_or]
    exact ⟨fun twice => (later _ twice).false, fun twice => (later _ twice).false, tail⟩

theorem makeEntries_sorted {history : List (Operation I O)} {entries : List (Entry I O)}
    (made : MakeEntries history entries) : Sorted (history.map interval) entries where
  ofCall e member := by
    obtain ⟨k, op, found, rfl | rfl⟩ := mem_entriesFrom.mp (made.1.subset member) <;>
      exact ⟨by simp, interval op, by simp [found], rfl, rfl⟩
  nodup := (made.1.map moment).nodup_iff.mpr (entriesFrom_nodup history 0)
  called i bound := by
    rw [List.length_map] at bound
    refine List.mem_map.mpr ⟨_, made.1.symm.subset (mem_entriesFrom.mpr
      ⟨i, history[i], List.getElem?_eq_getElem bound, .inl rfl⟩), ?_⟩
    simp [moment]
  returned i bound := by
    rw [List.length_map] at bound
    refine List.mem_map.mpr ⟨_, made.1.symm.subset (mem_entriesFrom.mpr
      ⟨i, history[i], List.getElem?_eq_getElem bound, .inr rfl⟩), ?_⟩
    simp [moment]
  sorted := made.2

theorem less_trans {a b c : Entry I O} (first : less b a = false) (second : less c b = false) :
    less c a = false := by
  rw [less_eq_false] at first second ⊢
  refine ⟨first.1.trans second.1, fun same => ?_⟩
  have left : a.time = b.time := le_antisymm first.1 (same ▸ second.1)
  have right : b.time = c.time := left.symm.trans same
  rintro ⟨called, returned⟩
  cases kind : b.kind with
  | call => exact first.2 left ⟨kind, returned⟩
  | ret => exact second.2 right ⟨called, kind⟩

theorem less_total (a b : Entry I O) : less b a = false ∨ less a b = false := by
  rw [less_eq_false, less_eq_false]
  rcases lt_trichotomy a.time b.time with before | same | after
  · exact .inl ⟨before.le, fun equal => absurd equal before.ne⟩
  · by_cases swapped : b.kind = .call ∧ a.kind = .ret
    · exact .inr ⟨same.ge, fun _ => by simp [swapped]⟩
    · exact .inl ⟨same.le, fun _ => swapped⟩
  · exact .inr ⟨after.le, fun equal => absurd equal after.ne⟩

theorem exists_makeEntries (history : List (Operation I O)) :
    ∃ entries, MakeEntries history entries := by
  have trans (a b c : Entry I O) (first : (!less b a) = true) (second : (!less c b) = true) :
      (!less c a) = true := by
    rw [Bool.not_eq_true'] at first second ⊢
    exact less_trans first second
  have total (a b : Entry I O) : ((!less b a) || !less a b) = true := by
    rw [Bool.or_eq_true, Bool.not_eq_true', Bool.not_eq_true']
    exact less_total a b
  refine ⟨(entriesFrom 0 history).mergeSort fun a b => !less b a, List.mergeSort_perm _ _, ?_⟩
  exact (List.pairwise_mergeSort trans total (entriesFrom 0 history)).imp fun sorted => by
    rwa [Bool.not_eq_true'] at sorted

end Operations

end DistributedLabs.PorcupineEntries
