import DistributedLabs.RealTimeOrders
import Mathlib.Data.List.MinMax

/-! An object made of one object for each key. A history of it is linearizable just
when, for each key, the calls on that key are: orders for the keys are merged by
taking, of the key whose call returns first of all that are left, the first call
left in its order. -/

namespace DistributedLabs.HistoryLocality
open Linearizability RealTimeOrders

variable {S I O K : Type} [DecidableEq K]

/-- One object for each key. -/
def keyed (spec : Spec S I O) (key : I → K) : Spec (K → S) I O where
  init := fun _ => spec.init
  step := fun data i o => (spec.step (data (key i)) i o).map (Function.update data (key i))

variable {spec : Spec S I O} {key : I → K}

theorem serve_keyed (data : K → S) (ios : List (I × O)) :
    serve (keyed spec key) data ios ≠ none ↔
      ∀ k, serve spec (data k) (ios.filter fun io => key io.1 = k) ≠ none := by
  induction ios generalizing data with
  | nil => simp [serve]
  | cons io rest ih =>
    cases stepped : spec.step (data (key io.1)) io.1 io.2 with
    | none =>
      constructor
      · simp [serve, keyed, stepped]
      · intro each
        have here := each (key io.1)
        simp [serve, stepped] at here
    | some t =>
      have whole : serve (keyed spec key) data (io :: rest) =
          serve (keyed spec key) (Function.update data (key io.1) t) rest := by
        simp [serve, keyed, stepped]
      rw [whole, ih]
      refine forall_congr' fun k => ?_
      by_cases same : key io.1 = k
      · subst same
        simp [serve, stepped]
      · simp [same, Ne.symm same]

variable {T : Type}

def onKey (key : I → K) (k : K) (h : List (Interval T I O)) : List (Interval T I O) :=
  h.filter fun a => key a.input = k

theorem onKey_io (k : K) (h : List (Interval T I O)) :
    (onKey key k h).map Interval.io = (h.map Interval.io).filter fun io => key io.1 = k := by
  rw [onKey, List.filter_map]
  rfl

theorem onKey_cons (k : K) (a : Interval T I O) (h : List (Interval T I O)) :
    onKey key k (a :: h) = if key a.input = k then a :: onKey key k h else onKey key k h := by
  simp [onKey, List.filter_cons]

variable [LinearOrder T] {h : List (Interval T I O)}

theorem exists_first_return (nonempty : h ≠ []) : ∃ x ∈ h, ∀ y ∈ h, x.ret ≤ y.ret := by
  cases first : h.argmin Interval.ret with
  | none => exact absurd (List.argmin_eq_none.mp first) nonempty
  | some x => exact ⟨x, List.argmin_mem first, fun y member => List.le_of_mem_argmin member first⟩

theorem exists_merge (forward : ∀ a ∈ h, a.call ≤ a.ret) {orders : K → List (Interval T I O)}
    (perm : ∀ k, (orders k).Perm (onKey key k h))
    (ordered : ∀ k, (orders k).Pairwise fun a b => ¬ b.ret < a.call) :
    ∃ order, order.Perm h ∧ order.Pairwise (fun a b => ¬ b.ret < a.call) ∧
      ∀ k, onKey key k order = orders k := by
  induction count : h.length generalizing h orders with
  | zero =>
    obtain rfl := List.length_eq_zero_iff.mp count
    refine ⟨[], .refl [], .nil, fun k => ?_⟩
    exact (List.Perm.eq_nil (perm k)).symm
  | succ n ih =>
    obtain ⟨x, inside, least⟩ := exists_first_return (List.ne_nil_of_length_eq_add_one count)
    have member : x ∈ orders (key x.input) := (perm _).symm.subset (by simp [onKey, inside])
    cases shape : orders (key x.input) with
    | nil => simp [shape] at member
    | cons c rest =>
      have chosen : c ∈ onKey key (key x.input) h :=
        (perm _).subset (by rw [shape]; exact List.mem_cons_self)
      obtain ⟨known, sameKey⟩ : c ∈ h ∧ key c.input = key x.input := by simpa [onKey] using chosen
      -- the chosen call begins before the least return, so nothing is before it
      have early : c.call ≤ x.ret := by
        rw [shape] at member
        rcases List.mem_cons.mp member with rfl | later
        · exact forward x inside
        · have apart := ordered (key x.input)
          rw [shape] at apart
          exact not_lt.mp ((List.pairwise_cons.mp apart).1 x later)
      obtain ⟨front, back, rfl⟩ := List.append_of_mem known
      have middle : (front ++ c :: back).Perm (c :: (front ++ back)) := List.perm_middle
      have left (y : Interval T I O) (later : y ∈ front ++ back) : y ∈ front ++ c :: back :=
        middle.symm.subset (List.mem_cons_of_mem c later)
      have fewer (k : K) :
          (Function.update orders (key x.input) rest k).Perm (onKey key k (front ++ back)) := by
        have both := (perm k).trans (middle.filter _)
        rw [← onKey, onKey_cons] at both
        by_cases same : k = key x.input
        · subst same
          rw [shape, if_pos sameKey] at both
          simpa using both.cons_inv
        · rw [if_neg (by rw [sameKey]; exact Ne.symm same)] at both
          simpa [same] using both
      have apart (k : K) : (Function.update orders (key x.input) rest k).Pairwise
          fun a b => ¬ b.ret < a.call := by
        have all := ordered k
        by_cases same : k = key x.input
        · subst same
          rw [shape] at all
          simpa using (List.pairwise_cons.mp all).2
        · simpa [same] using all
      obtain ⟨order, whole, pairs, each⟩ := ih (fun a later => forward a (left a later)) fewer apart
        (by simp only [List.length_append, List.length_cons] at count ⊢; omega)
      refine ⟨c :: order, (whole.cons c).trans middle.symm, List.pairwise_cons.mpr ⟨?_, pairs⟩, ?_⟩
      · intro y later
        exact not_lt.mpr (early.trans (least y (left y (whole.subset later))))
      · intro k
        rw [onKey_cons, each k]
        by_cases same : k = key x.input
        · subst same
          rw [if_pos sameKey, shape, Function.update_self]
        · rw [if_neg (by rw [sameKey]; exact Ne.symm same), Function.update_of_ne same]

/-- A history of the object of all keys is linearizable just when, for each key,
the calls on that key are. -/
theorem serializes_keyed (forward : ∀ a ∈ h, a.call ≤ a.ret) :
    (∃ calls, Serializes (keyed spec key) h calls) ↔
      ∀ k, ∃ calls, Serializes spec (onKey key k h) calls := by
  constructor
  · rintro ⟨calls, serial⟩ k
    have legal := (serve_keyed _ _).mp serial.legal k
    rw [← onKey_io] at legal
    exact ⟨onKey key k calls, serial.perm.filter _, serial.realTime.sublist List.filter_sublist,
      legal⟩
  · intro each
    choose orders serial using each
    obtain ⟨order, perm, ordered, split⟩ := exists_merge forward (fun k => (serial k).perm)
      fun k => (serial k).realTime
    refine ⟨order, perm, ordered, (serve_keyed _ _).mpr fun k => ?_⟩
    rw [← onKey_io, split k]
    exact (serial k).legal

end DistributedLabs.HistoryLocality
