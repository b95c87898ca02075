import DistributedLabs.Linearizability
import Mathlib.Data.Finset.Card
import Mathlib.Data.List.TakeWhile

/-! Complete histories of a shared object, as a list of calls with the times of
call and return or as the sequence of these moments. A history is linearized one
call at a time: the next one is any call that stands before the first return
left in the sequence. -/

namespace DistributedLabs.RealTimeOrders
open Linearizability

variable {S I O T : Type}

/-- The state after the object gave these answers to these inputs, if it may. -/
def serve (spec : Spec S I O) : S → List (I × O) → Option S
  | s, [] => some s
  | s, io :: rest => (spec.step s io.1 io.2).bind fun t => serve spec t rest

theorem serve_append (spec : Spec S I O) (s : S) (front back : List (I × O)) :
    serve spec s (front ++ back) = (serve spec s front).bind fun t => serve spec t back := by
  induction front generalizing s with
  | nil => rfl
  | cons io rest ih =>
    simp only [List.cons_append, serve]
    cases spec.step s io.1 io.2 with
    | none => rfl
    | some t => exact ih t

structure Interval (T I O : Type) where
  input : I
  output : O
  call : T
  ret : T
  deriving DecidableEq

def Interval.io (a : Interval T I O) : I × O := (a.input, a.output)

/-- The calls of `h` in an order that the object can serve and that keeps calls
after the returns before them. -/
structure Serializes [LT T] (spec : Spec S I O) (h order : List (Interval T I O)) : Prop where
  perm : order.Perm h
  realTime : order.Pairwise fun a b => ¬ b.ret < a.call
  legal : serve spec spec.init (order.map Interval.io) ≠ none

def pick (h : List (Interval T I O)) (order : List ℕ) : List (Interval T I O) :=
  order.filterMap fun i => h[i]?

theorem pick_of_map {order : List ℕ} {h calls : List (Interval T I O)}
    (listed : order.map (fun i => h[i]?) = calls.map some) : pick h order = calls := by
  have shape : pick h order = (order.map fun i => h[i]?).filterMap id := by
    rw [List.filterMap_map]
    rfl
  rw [shape, listed, List.filterMap_map]
  exact List.filterMap_some

theorem positions (h : List (Interval T I O)) :
    (List.range h.length).map (fun i => h[i]?) = h.map some := by
  apply List.ext_getElem <;> simp

theorem exists_pick {h calls : List (Interval T I O)} (perm : calls.Perm h) :
    ∃ order, order.Perm (List.range h.length) ∧ pick h order = calls := by
  have lifted : (calls.map some).Perm ((List.range h.length).map fun i => h[i]?) := by
    rw [positions]
    exact perm.map some
  obtain ⟨order, listed, places⟩ :=
    (congrFun₂ (List.eq_map_comp_perm fun i => h[i]?) _ _).mpr lifted
  exact ⟨order, places, pick_of_map listed.symm⟩

/-- A beginning of such an order, by positions in `h`: whatever returned before
one of its calls stands before it. -/
structure Begins [LT T] (spec : Spec S I O) (h : List (Interval T I O)) (order : List ℕ) :
    Prop where
  nodup : order.Nodup
  bound : ∀ i ∈ order, i < h.length
  closed : ∀ front j back, order = front ++ j :: back → ∀ i a b, h[i]? = some a →
    h[j]? = some b → a.ret < b.call → i ∈ front
  legal : serve spec spec.init ((pick h order).map Interval.io) ≠ none

/-- The two moments of call number `i`. -/
inductive Moment
  | call (i : ℕ)
  | ret (i : ℕ)
  deriving DecidableEq

def Moment.id : Moment → ℕ
  | .call i => i
  | .ret i => i

@[simp] theorem Moment.id_call (i : ℕ) : (Moment.call i).id = i := rfl

@[simp] theorem Moment.id_ret (i : ℕ) : (Moment.ret i).id = i := rfl

def Moment.isCall : Moment → Bool
  | .call _ => true
  | .ret _ => false

/-- Each number below `n` is called once and returns once, after its call. -/
structure Matched (n : ℕ) (moments : List Moment) : Prop where
  nodup : moments.Nodup
  called : ∀ i, .call i ∈ moments ↔ i < n
  returned : ∀ i, .ret i ∈ moments ↔ i < n
  ordered : ∀ i, ¬ [Moment.ret i, .call i].Sublist moments

def Before (moments : List Moment) (i j : ℕ) : Prop := [Moment.ret i, .call j].Sublist moments

def remaining (moments : List Moment) (used : Finset ℕ) : List Moment :=
  moments.filter fun e => e.id ∉ used

def ready (moments : List Moment) : List Moment := moments.takeWhile Moment.isCall

/-- Each number of the list is ready when those before it and those of `used` are
taken out. -/
def Picks (moments : List Moment) : Finset ℕ → List ℕ → Prop
  | _, [] => True
  | used, i :: rest => .call i ∈ ready (remaining moments used) ∧ Picks moments (insert i used) rest

section Ready

variable {n : ℕ} {moments : List Moment} {used : Finset ℕ} {i j : ℕ} {order : List ℕ}

theorem mem_remaining {e : Moment} : e ∈ remaining moments used ↔ e ∈ moments ∧ e.id ∉ used := by
  simp [remaining]

theorem remaining_insert :
    remaining moments (insert i used) = (remaining moments used).filter fun e => e.id ≠ i := by
  rw [remaining, remaining, List.filter_filter]
  apply List.filter_congr
  intro e _
  simp [not_or]

theorem paired_length {ids : Finset ℕ} (nodup : moments.Nodup)
    (called : ∀ i, .call i ∈ moments ↔ i ∈ ids) (returned : ∀ i, .ret i ∈ moments ↔ i ∈ ids) :
    moments.length = 2 * ids.card := by
  have distinct : (ids.toList.map Moment.call ++ ids.toList.map Moment.ret).Nodup := by
    rw [List.nodup_append]
    refine ⟨ids.nodup_toList.map fun _ _ => Moment.call.inj,
      ids.nodup_toList.map fun _ _ => Moment.ret.inj, ?_⟩
    simp
  have perm := (List.perm_ext_iff_of_nodup nodup distinct).mpr fun e => by
    cases e with
    | call i => simp [called i]
    | ret i => simp [returned i]
  rw [perm.length_eq]
  simp [two_mul]

theorem Matched.remaining_length (h : Matched n moments) (inside : ∀ i ∈ used, i < n) :
    (remaining moments used).length + 2 * used.card = 2 * n := by
  have left : (remaining moments used).length = 2 * (Finset.range n \ used).card := by
    refine paired_length (h.nodup.filter _) (fun i => ?_) fun i => ?_
    · rw [mem_remaining, h.called, Finset.mem_sdiff, Finset.mem_range, Moment.id_call]
    · rw [mem_remaining, h.returned, Finset.mem_sdiff, Finset.mem_range, Moment.id_ret]
  have subset : used ⊆ Finset.range n := fun i member => Finset.mem_range.mpr (inside i member)
  have counted := Finset.card_sdiff_add_card_eq_card subset
  rw [Finset.card_range] at counted
  omega

theorem Matched.length (h : Matched n moments) : moments.length = 2 * n := by
  have whole : (remaining moments ∅).length + 2 * (∅ : Finset ℕ).card = 2 * n :=
    h.remaining_length (by simp)
  simpa [remaining] using whole

theorem mem_ready_append {front back : List Moment} {e : Moment} (first : e ∉ front) :
    e ∈ ready (front ++ e :: back) ↔ e.isCall ∧ ∀ f ∈ front, f.isCall := by
  induction front with
  | nil => cases kind : e.isCall <;> simp [ready, kind]
  | cons f front ih =>
    simp only [List.mem_cons, not_or] at first
    have tail := ih first.2
    unfold ready at tail ⊢
    cases kind : f.isCall <;> simp [kind, first.1, tail]

theorem ready_stop {front back : List Moment} (calls : ∀ f ∈ front, f.isCall)
    (stop : ∀ m ∈ back.head?, m.isCall = false) : ready (front ++ back) = front := by
  rw [ready, List.takeWhile_append_of_pos calls]
  cases back with
  | nil => simp
  | cons m back => simp [stop m rfl]

theorem ready_calls {e : Moment} (h : e ∈ ready moments) : e ∈ moments ∧ e.isCall :=
  ⟨List.takeWhile_sublist _ |>.subset h, List.mem_takeWhile_imp h⟩

theorem pair_split {α : Type} {a b : α} {l : List α} (h : [a, b].Sublist l) :
    ∃ front back, l = front ++ b :: back ∧ a ∈ front := by
  obtain ⟨left, right, rfl, inLeft, rest⟩ := List.cons_sublist_iff.mp h
  obtain ⟨front, back, rfl⟩ := List.append_of_mem (List.singleton_sublist.mp rest)
  exact ⟨left ++ front, back, by simp, List.mem_append_left front inLeft⟩

theorem pair_of_mem {α : Type} {a b : α} {l : List α} (left : a ∈ l) (right : b ∈ l)
    (apart : a ≠ b) :
    [a, b].Sublist l ∨ [b, a].Sublist l := by
  obtain ⟨front, back, rfl⟩ := List.append_of_mem left
  rcases List.mem_append.mp right with early | late
  · exact .inr (List.cons_sublist_iff.mpr ⟨front, _, rfl, early, by simp⟩)
  · have behind : b ∈ back := (List.mem_cons.mp late).resolve_left apart.symm
    exact .inl (List.cons_sublist_iff.mpr ⟨front ++ [a], back, by simp, by simp, by simpa⟩)

theorem mem_ready_remaining (nodup : moments.Nodup) :
    .call j ∈ ready (remaining moments used) ↔
      .call j ∈ moments ∧ j ∉ used ∧ ∀ i, .ret i ∈ moments → Before moments i j → i ∈ used := by
  constructor
  · intro member
    obtain ⟨inside, free⟩ := mem_remaining.mp (ready_calls member).1
    rw [Moment.id_call] at free
    refine ⟨inside, free, fun i _ before => ?_⟩
    by_contra absent
    have kept : [Moment.ret i, .call j].Sublist (remaining moments used) := by
      simpa [absent, free, remaining] using
        List.Sublist.filter (fun e => decide (e.id ∉ used)) before
    obtain ⟨front, back, split, early⟩ := pair_split kept
    have once : .call j ∉ front := by
      have whole := nodup.filter fun e => decide (e.id ∉ used)
      rw [← remaining, split] at whole
      exact fun twice => (List.nodup_append.mp whole).2.2 _ twice _ List.mem_cons_self rfl
    rw [split, mem_ready_append once] at member
    exact Bool.false_ne_true (member.2 _ early)
  · rintro ⟨inside, absent, closed⟩
    obtain ⟨front, back, split, once⟩ :=
      List.eq_append_cons_of_mem (mem_remaining.mpr ⟨inside, absent⟩)
    rw [split, mem_ready_append once]
    refine ⟨rfl, fun f early => ?_⟩
    cases f with
    | call i => rfl
    | ret i =>
      have left : .ret i ∈ remaining moments used := by
        rw [split]
        exact List.mem_append_left _ early
      have before : [Moment.ret i, .call j].Sublist (remaining moments used) := by
        rw [split]
        exact List.cons_sublist_iff.mpr ⟨front, _, rfl, early, by simp⟩
      have earlier := closed i (mem_remaining.mp left).1 (before.trans List.filter_sublist)
      exact absurd earlier (mem_remaining.mp left).2

/-- The lists picked one by one are those in which whatever returned before a
call stands before it. -/
theorem picks_iff (nodup : moments.Nodup) :
    Picks moments used order ↔ order.Nodup ∧ (∀ j ∈ order, .call j ∈ moments ∧ j ∉ used) ∧
      ∀ front j back, order = front ++ j :: back → ∀ i, .ret i ∈ moments → Before moments i j →
        i ∈ used ∨ i ∈ front := by
  induction order generalizing used with
  | nil => simp [Picks]
  | cons k rest ih =>
    rw [Picks, mem_ready_remaining nodup, ih]
    constructor
    · rintro ⟨⟨inside, free, first⟩, distinct, fresh, closed⟩
      refine ⟨List.nodup_cons.mpr ⟨fun twice => ?_, distinct⟩, fun j member => ?_, ?_⟩
      · exact (fresh k twice).2 (Finset.mem_insert_self k used)
      · rcases List.mem_cons.mp member with rfl | later
        · exact ⟨inside, free⟩
        · exact ⟨(fresh j later).1, fun old => (fresh j later).2 (Finset.mem_insert_of_mem old)⟩
      · intro front j back split i returned before
        cases front with
        | nil =>
          obtain ⟨rfl, rfl⟩ := List.cons.inj split
          exact .inl (first i returned before)
        | cons x front =>
          obtain ⟨rfl, tail⟩ := List.cons.inj split
          rcases closed front j back tail i returned before with old | early
          · rcases Finset.mem_insert.mp old with rfl | old
            · exact .inr List.mem_cons_self
            · exact .inl old
          · exact .inr (List.mem_cons_of_mem k early)
    · rintro ⟨distinct, fresh, closed⟩
      obtain ⟨once, distinct⟩ := List.nodup_cons.mp distinct
      obtain ⟨inside, free⟩ := fresh k List.mem_cons_self
      refine ⟨⟨inside, free, fun i returned before => ?_⟩, distinct, fun j later => ?_, ?_⟩
      · exact (closed [] k rest rfl i returned before).resolve_right List.not_mem_nil
      · have old := fresh j (List.mem_cons_of_mem k later)
        refine ⟨old.1, fun new => ?_⟩
        rcases Finset.mem_insert.mp new with rfl | member
        · exact once later
        · exact old.2 member
      · intro front j back split i returned before
        rcases closed (k :: front) j back (by rw [split]; rfl) i returned before with old | early
        · exact .inl (Finset.mem_insert_of_mem old)
        · rcases List.mem_cons.mp early with rfl | early
          · exact .inl (Finset.mem_insert_self i used)
          · exact .inr early

theorem Picks.append {later : List ℕ} (h : Picks moments used order)
    (after : Picks moments (used ∪ order.toFinset) later) :
    Picks moments used (order ++ later) := by
  induction order generalizing used with
  | nil => simpa using after
  | cons i rest ih =>
    refine ⟨h.1, ih h.2 ?_⟩
    have shape : insert i used ∪ rest.toFinset = used ∪ (i :: rest).toFinset := by
      ext x
      simp
    rwa [shape]

theorem Picks.bound (matched : Matched n moments) (picks : Picks moments used order)
    (member : i ∈ order) : i < n :=
  (matched.called i).mp (((picks_iff matched.nodup).mp picks).2.1 i member).1

theorem Picks.length_le (matched : Matched n moments) (picks : Picks moments used order) :
    order.length ≤ n := by
  have nodup := ((picks_iff matched.nodup).mp picks).1
  have inside : order ⊆ List.range n := fun i member =>
    List.mem_range.mpr (picks.bound matched member)
  simpa using (List.subperm_of_subset nodup inside).length_le

theorem remaining_nodup (nodup : moments.Nodup) (used : Finset ℕ) :
    (remaining moments used).Nodup :=
  nodup.filter _

theorem Matched.return_later (h : Matched n moments) {front back : List Moment}
    (split : remaining moments used = front ++ .call i :: back) : .ret i ∈ back := by
  have called : .call i ∈ remaining moments used := by simp [split]
  have left := mem_remaining.mp called
  have returned : .ret i ∈ remaining moments used :=
    mem_remaining.mpr ⟨(h.returned i).mpr ((h.called i).mp left.1), left.2⟩
  rw [split, List.mem_append, List.mem_cons] at returned
  rcases returned with early | same | late
  · have before : [Moment.ret i, .call i].Sublist (remaining moments used) := by
      rw [split]
      exact List.cons_sublist_iff.mpr ⟨front, _, rfl, early, by simp⟩
    exact absurd (before.trans List.filter_sublist) (h.ordered i)
  · cases same
  · exact late

end Ready

/-- The moments of the calls of `h`, in the order of their times. -/
structure Timeline [LT T] (h : List (Interval T I O)) (moments : List Moment) : Prop
    extends Matched h.length moments where
  before_iff : ∀ i j a b, h[i]? = some a → h[j]? = some b →
    (Before moments i j ↔ a.ret < b.call)

section Timeline

variable [LT T] {spec : Spec S I O} {h : List (Interval T I O)} {moments : List Moment}
  {order : List ℕ}

theorem begins_iff_picks (timeline : Timeline h moments) :
    Begins spec h order ↔ Picks moments ∅ order ∧
      serve spec spec.init ((pick h order).map Interval.io) ≠ none := by
  rw [picks_iff timeline.nodup]
  constructor
  · intro begins
    refine ⟨⟨begins.nodup, fun j member => ?_, ?_⟩, begins.legal⟩
    · exact ⟨(timeline.called j).mpr (begins.bound j member), Finset.notMem_empty j⟩
    · intro front j back split i returned before
      have early := (timeline.returned i).mp returned
      have late := begins.bound j (by rw [split]; simp)
      right
      refine begins.closed front j back split i h[i] h[j] (by simp) (by simp) ?_
      exact (timeline.before_iff i j _ _ (by simp) (by simp)).mp before
  · rintro ⟨⟨nodup, inside, closed⟩, legal⟩
    refine ⟨nodup, fun j member => (timeline.called j).mp (inside j member).1, ?_, legal⟩
    intro front j back split i a b atI atJ earlier
    have bound := (List.getElem?_eq_some_iff.mp atI).1
    refine (closed front j back split i ((timeline.returned i).mpr bound) ?_).resolve_left
      (Finset.notMem_empty i)
    exact (timeline.before_iff i j a b atI atJ).mpr earlier

theorem serializes_iff_begins (timeline : Timeline h moments) :
    (∃ calls, Serializes spec h calls) ↔
      ∃ order, Begins spec h order ∧ order.length = h.length := by
  constructor
  · rintro ⟨calls, serial⟩
    obtain ⟨order, perm, rfl⟩ := exists_pick serial.perm
    have ordered := serial.realTime
    rw [pick, List.pairwise_filterMap] at ordered
    refine ⟨order, ⟨perm.nodup_iff.mpr List.nodup_range, fun i member => ?_, ?_, serial.legal⟩, ?_⟩
    · exact List.mem_range.mp (perm.subset member)
    · intro front j back split i a b atI atJ earlier
      have listed : i ∈ order := perm.symm.subset
        (List.mem_range.mpr (List.getElem?_eq_some_iff.mp atI).1)
      rw [split, List.mem_append, List.mem_cons] at listed
      rw [split, List.pairwise_append, List.pairwise_cons] at ordered
      rcases listed with early | rfl | late
      · exact early
      · exact absurd ((timeline.before_iff i i a b atI atJ).mpr earlier) (timeline.ordered i)
      · exact absurd earlier (ordered.2.1.1 i late b atJ a atI)
    · simpa using perm.length_eq
  · rintro ⟨order, begins, full⟩
    have perm : order.Perm (List.range h.length) :=
      (List.subperm_of_subset begins.nodup fun i member =>
        List.mem_range.mpr (begins.bound i member)).perm_of_length_le (by simp [full])
    refine ⟨pick h order, ⟨?_, ?_, begins.legal⟩⟩
    · have whole := perm.filterMap fun i => h[i]?
      rwa [← pick, ← pick, pick_of_map (positions h)] at whole
    · rw [pick, List.pairwise_filterMap, List.pairwise_iff_forall_sublist]
      intro i j both a atI b atJ earlier
      obtain ⟨front, back, split, inside⟩ := pair_split both
      obtain ⟨first, middle, rfl⟩ := List.append_of_mem inside
      have distinct := begins.nodup
      rw [List.append_assoc, List.cons_append] at split
      rw [split] at distinct
      have early := begins.closed first i _ split j b a atJ atI earlier
      exact (List.nodup_append.mp distinct).2.2 j early j (by simp) rfl

end Timeline
end DistributedLabs.RealTimeOrders
