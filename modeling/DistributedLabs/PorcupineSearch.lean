import DistributedLabs.PorcupineEntries

/-! The search of `checkSingle` (porcupine/checker.go). It picks calls before the
first return left in the list, takes a pick back when the list begins with a
return, and does not go on from what the cache holds. The nodes on the stack are
put back in the reverse order, so that the list is then what it was. What the
cache holds has either failed already or is on the stack, and what is on the
stack has fewer calls than the next pick. -/

namespace DistributedLabs.PorcupineSearch
open LinkedCells PorcupineBitset Linearizability RealTimeOrders Porcupine PorcupineEntries

variable {S I O T : Type}

def specOf (model : FullModel S I O) : Spec S I O where
  init := model.init
  step := fun s i o => if (model.step s i o).1 then some (model.step s i o).2 else none

/-- States that count as equal answer alike and stay equal. -/
def Respects (model : FullModel S I O) : Prop :=
  ∀ s t, model.equal s t = true → ∀ i o, (model.step s i o).1 = (model.step t i o).1 ∧
    ((model.step s i o).1 = true → model.equal (model.step s i o).2 (model.step t i o).2 = true)

theorem respects_fillDefault [DecidableEq S] {model : Model S I O} (default : model.equal = none) :
    Respects (fillDefault model) := by
  intro s t equal i o
  have same : s = t := by simpa [fillDefault, default, shallowEqual] using equal
  rw [same]
  exact ⟨rfl, fun _ => by simp [fillDefault, default, shallowEqual]⟩

theorem specOf_step {model : FullModel S I O} {s u : S} {i : I} {o : O} :
    (specOf model).step s i o = some u ↔
      (model.step s i o).1 = true ∧ (model.step s i o).2 = u := by
  simp [specOf]

theorem serve_respects {model : FullModel S I O} (respects : Respects model) {s t : S}
    (equal : model.equal s t = true) {ios : List (I × O)}
    (served : serve (specOf model) s ios ≠ none) : serve (specOf model) t ios ≠ none := by
  induction ios generalizing s t with
  | nil => exact Option.some_ne_none t
  | cons io rest ih =>
    obtain ⟨alike, kept⟩ := respects s t equal io.1 io.2
    cases ok : (model.step s io.1 io.2).1 with
    | false => simp [serve, specOf, ok] at served
    | true =>
      have next := kept ok
      rw [ok] at alike
      simp only [serve, specOf, ok, ← alike, if_true, Option.bind_some] at served ⊢
      exact ih next served

/-- A history laid out in nodes, with a head before them. -/
structure Problem (S I O T : Type) where
  model : FullModel S I O
  computePartial : Bool
  h : List (Interval T I O)
  moments : List Moment
  node : Moment → ℕ
  head : ℕ
  base : List (Node I O)
  matched : Matched h.length moments
  laid : Laid (base.map Cell.item) node h
  linked : Linked base none (head :: moments.map node)
  distinct : (head :: moments.map node).Nodup

section Lifting

variable {P : Problem S I O T} {nodes nodes' : List (Node I O)} {used : Finset ℕ} {i : ℕ}

theorem Problem.node_inj (P : Problem S I O T) {a b : Moment} (left : a ∈ P.moments)
    (right : b ∈ P.moments) (same : P.node a = P.node b) : a = b :=
  List.inj_on_of_nodup_map (List.nodup_cons.mp P.distinct).2 left right same

/-- The list behind the head has the moments that are left. -/
structure Problem.Holds (P : Problem S I O T) (nodes : List (Node I O)) (used : Finset ℕ) :
    Prop where
  items : nodes.map Cell.item = P.base.map Cell.item
  linked : Linked nodes none (P.head :: (remaining P.moments used).map P.node)

theorem Problem.remaining_distinct (P : Problem S I O T) (used : Finset ℕ) :
    (P.head :: (remaining P.moments used).map P.node).Nodup :=
  P.distinct.sublist ((List.filter_sublist.map P.node).cons_cons P.head)

theorem Problem.Holds.call_node (holds : P.Holds nodes used) {front back : List Moment}
    (split : remaining P.moments used = front ++ .call i :: back) :
    ∃ a prev, P.h[i]? = some a ∧ nodes[P.node (.call i)]? = some
      ⟨⟨some (.inl a.input), some (P.node (.ret i)), i⟩, (back.map P.node).head?, prev⟩ := by
  have called : .call i ∈ P.moments :=
    (mem_remaining.mp (by rw [split]; simp : .call i ∈ remaining P.moments used)).1
  have bound := (P.matched.called i).mp called
  have found : P.h[i]? = some P.h[i] := List.getElem?_eq_getElem bound
  have shape : P.head :: (remaining P.moments used).map P.node =
      (P.head :: front.map P.node) ++ P.node (.call i) :: back.map P.node := by
    rw [split]
    simp
  have linked := holds.linked
  rw [shape] at linked
  obtain ⟨item, here⟩ := linked.cell
  have held := P.laid.call i _ found
  rw [← holds.items, List.getElem?_map, here] at held
  obtain rfl : item = _ := Option.some.inj held
  exact ⟨_, _, found, here⟩

theorem Problem.Holds.call_item (holds : P.Holds nodes used) {a : Interval T I O}
    (found : P.h[i]? = some a) :
    ∃ c, nodes[P.node (.call i)]? = some c ∧
      c.item = ⟨some (.inl a.input), some (P.node (.ret i)), i⟩ := by
  have held := P.laid.call i a found
  rw [← holds.items, List.getElem?_map] at held
  exact Option.map_eq_some_iff.mp held

theorem Problem.Holds.ret_node (holds : P.Holds nodes used) {a : Interval T I O}
    (found : P.h[i]? = some a) :
    ∃ c, nodes[P.node (.ret i)]? = some c ∧ c.item = ⟨some (.inr a.output), none, i⟩ := by
  have held := P.laid.ret i a found
  rw [← holds.items, List.getElem?_map] at held
  exact Option.map_eq_some_iff.mp held

theorem Problem.Holds.head_node (holds : P.Holds nodes used) :
    ∃ item, nodes[P.head]? =
      some ⟨item, ((remaining P.moments used).map P.node).head?, none⟩ :=
  holds.linked.1

theorem erase_call_ret (member : .call i ∈ remaining P.moments used) :
    (((remaining P.moments used).map P.node).erase (P.node (.call i))).erase (P.node (.ret i)) =
      (remaining P.moments (insert i used)).map P.node := by
  have nodup := (List.nodup_cons.mp (P.remaining_distinct used)).2
  have called := (mem_remaining.mp member).1
  have returned := (P.matched.returned i).mpr ((P.matched.called i).mp called)
  rw [nodup.erase_eq_filter, (nodup.filter _).erase_eq_filter, List.filter_filter, List.filter_map,
    remaining_insert]
  congr 1
  apply List.filter_congr
  intro m inside
  have known := (mem_remaining.mp inside).1
  cases m with
  | call j =>
    have apart : P.node (.call j) ≠ P.node (.ret i) := fun same => by
      cases P.node_inj known returned same
    have same : P.node (.call j) = P.node (.call i) ↔ j = i :=
      ⟨fun same => Moment.call.inj (P.node_inj known called same), fun same => by rw [same]⟩
    rw [Bool.eq_iff_iff, decide_eq_true_iff]
    simp [apart, same]
  | ret j =>
    have apart : P.node (.ret j) ≠ P.node (.call i) := fun same => by
      cases P.node_inj known called same
    have same : P.node (.ret j) = P.node (.ret i) ↔ j = i :=
      ⟨fun same => Moment.ret.inj (P.node_inj known returned same), fun same => by rw [same]⟩
    rw [Bool.eq_iff_iff, decide_eq_true_iff]
    simp [apart, same]

theorem Problem.Holds.lift (holds : P.Holds nodes used)
    (member : .call i ∈ remaining P.moments used) :
    ∃ nodes', lift nodes (P.node (.call i)) = some nodes' ∧
      unlift nodes' (P.node (.call i)) = some nodes ∧ P.Holds nodes' (insert i used) := by
  obtain ⟨front, back, split⟩ := List.append_of_mem member
  obtain ⟨a, prev, found, here⟩ := holds.call_node split
  have later := P.matched.return_later split
  obtain ⟨next, behind⟩ : ∃ next, (back.map P.node).head? = some next := by
    cases back with
    | nil => simp at later
    | cons m back => exact ⟨_, rfl⟩
  rw [behind] at here
  have called := (mem_remaining.mp member).1
  have returned : .ret i ∈ remaining P.moments used := by rw [split]; simp [later]
  have apart : P.node (.ret i) ≠ P.node (.call i) := fun same => by
    cases P.node_inj (mem_remaining.mp returned).1 called same
  have distinct := P.remaining_distinct used
  obtain ⟨middle, done, linked, undo, items, kept⟩ :=
    holds.linked.unlink distinct (List.mem_map_of_mem member)
  have distinct' : (P.head ::
      ((remaining P.moments used).map P.node).erase (P.node (.call i))).Nodup :=
    distinct.sublist (List.erase_sublist.cons_cons P.head)
  obtain ⟨nodes', done', linked', undo', items', -⟩ :=
    linked.unlink distinct' ((List.mem_erase_of_ne apart).mpr (List.mem_map_of_mem returned))
  rw [erase_call_ret member] at linked'
  have same := items'.trans items
  refine ⟨nodes', ?_, ?_, same.trans holds.items, linked'⟩
  · simp [Porcupine.lift, here, done, done']
  · obtain ⟨c, atC, item⟩ : ∃ c, nodes'[P.node (.call i)]? = some c ∧
        c.item = ⟨some (.inl a.input), some (P.node (.ret i)), i⟩ := by
      have held := congrArg (fun l => l[P.node (.call i)]?) same
      simp only [List.getElem?_map, here, Option.map_some] at held
      exact Option.map_eq_some_iff.mp held
    simp [unlift, atC, item, undo', kept, here, undo]

end Lifting

def Problem.Serves (P : Problem S I O T) (s : S) (order : List ℕ) : Prop :=
  serve (specOf P.model) s ((pick P.h order).map Interval.io) ≠ none

/-- Each of these calls has a recorded sequence as long as all of them. -/
def Covered (longest : List (Option Sequence)) (used : Finset ℕ) (order : List ℕ) : Prop :=
  ∀ i, i ∈ used ∨ i ∈ order → ∃ seq, longest[i]? = some (some seq) ∧
    used.card + order.length ≤ seq.ids.length

/-- No order that goes on from here is complete, and every one is recorded. -/
def Problem.Dead (P : Problem S I O T) (longest : List (Option Sequence)) (used : Finset ℕ)
    (s : S) : Prop :=
  Respects P.model → ∀ order, Picks P.moments used order → P.Serves s order →
    used.card + order.length < P.h.length ∧ (P.computePartial = true → Covered longest used order)

/-- These are calls, and picking one of them next leads nowhere. -/
def Problem.Tried (P : Problem S I O T) (longest : List (Option Sequence)) (used : Finset ℕ)
    (s : S) (front : List Moment) : Prop :=
  ∀ m ∈ front, m.isCall ∧ ∀ a u, P.h[m.id]? = some a →
    (specOf P.model).step s a.input a.output = some u → P.Dead longest (insert m.id used) u

structure Frame (S : Type) where
  id : ℕ
  state : S
  left : ℕ

def usedBy (frames : List (Frame S)) : Finset ℕ := (frames.map Frame.id).toFinset

def pathOf (frames : List (Frame S)) : List ℕ := (frames.map Frame.id).reverse

/-- How the search came to its nodes and its state. -/
inductive Problem.Trail (P : Problem S I O T) (longest : List (Option Sequence)) :
    List (Frame S) → List (Node I O) → S → Prop
  | root : P.Trail longest [] P.base P.model.init
  | push {frames : List (Frame S)} {nodes nodes' : List (Node I O)} {s u : S} {i : ℕ}
      {a : Interval T I O} {front back : List Moment} (below : P.Trail longest frames nodes s)
      (split : remaining P.moments (usedBy frames) = front ++ .call i :: back)
      (tried : P.Tried longest (usedBy frames) s front) (found : P.h[i]? = some a)
      (stepped : (specOf P.model).step s a.input a.output = some u)
      (undo : unlift nodes' (P.node (.call i)) = some nodes)
      (holds : P.Holds nodes' (insert i (usedBy frames))) :
      P.Trail longest (⟨i, s, back.length⟩ :: frames) nodes' u

/-- The cached calls and state are those of the stack at some height. -/
def OnTrail (e : CacheEntry S) : List (Frame S) → S → Prop
  | [], _ => False
  | f :: frames, s =>
    (e.linearized.members = usedBy (f :: frames) ∧ e.state = s) ∨ OnTrail e frames f.state

/-- Each recorded sequence begins an order and has the call it is recorded for. -/
def Problem.Sound (P : Problem S I O T) (longest : List (Option Sequence)) : Prop :=
  ∀ i seq, longest[i]? = some (some seq) → ∃ order : List ℕ, seq.ids = order.map Nat.cast ∧
    i ∈ order ∧ Picks P.moments ∅ order ∧ P.Serves P.model.init order

/-- What holds before each round, at a place `front ++ back` in the list. -/
structure Problem.Searching (P : Problem S I O T) (search : Search S I O)
    (frames : List (Frame S)) (front back : List Moment) : Prop where
  trail : P.Trail search.longest frames search.nodes search.state
  head : search.headEntry = P.head
  calls : search.calls = frames.map fun f => ⟨P.node (.call f.id), f.state⟩
  bits : search.linearized.members = usedBy frames
  chunks : P.h.length ≤ 64 * search.linearized.data.length
  split : remaining P.moments (usedBy frames) = front ++ back
  cursor : search.entry = (back.map P.node).head?
  tried : P.Tried search.longest (usedBy frames) search.state front
  cached : ∀ hash, ∀ e ∈ search.cache hash,
    P.Dead search.longest e.linearized.members e.state ∨ OnTrail e frames search.state
  sized : search.longest.length = P.h.length
  recorded : P.Sound search.longest

structure Problem.Correct (P : Problem S I O T) (v : Verdict) : Prop where
  sound : v.ok = true → ∃ order, Picks P.moments ∅ order ∧ P.Serves P.model.init order ∧
    order.length = P.h.length
  complete : v.ok = false → Respects P.model → ∀ order, Picks P.moments ∅ order →
    P.Serves P.model.init order → order.length < P.h.length
  recorded : P.Sound v.longest
  longest : P.computePartial = true → Respects P.model → ∀ order, Picks P.moments ∅ order →
    P.Serves P.model.init order → Covered v.longest ∅ order

section Dead

variable {P : Problem S I O T} {longest longest' : List (Option Sequence)} {used : Finset ℕ}
  {s : S} {front back : List Moment}

def Longer (longest longest' : List (Option Sequence)) : Prop :=
  ∀ (i : ℕ) (seq : Sequence), longest[i]? = some (some seq) → ∃ seq' : Sequence,
    longest'[i]? = some (some seq') ∧ seq.ids.length ≤ seq'.ids.length

theorem Problem.Dead.mono (dead : P.Dead longest used s) (longer : Longer longest longest') :
    P.Dead longest' used s := by
  intro respects order picks serves
  obtain ⟨short, covered⟩ := dead respects order picks serves
  refine ⟨short, fun isPartial i member => ?_⟩
  obtain ⟨seq, found, enough⟩ := covered isPartial i member
  obtain ⟨seq', found', grown⟩ := longer i seq found
  exact ⟨seq', found', enough.trans grown⟩

theorem Problem.Tried.mono (tried : P.Tried longest used s front)
    (longer : Longer longest longest') : P.Tried longest' used s front :=
  fun m member => ⟨(tried m member).1, fun a u found stepped =>
    ((tried m member).2 a u found stepped).mono longer⟩

theorem Problem.Trail.mono {frames : List (Frame S)} {nodes : List (Node I O)}
    (trail : P.Trail longest frames nodes s) (longer : Longer longest longest') :
    P.Trail longest' frames nodes s := by
  induction trail with
  | root => exact .root
  | push _ split tried found stepped undo holds ih =>
    exact .push ih split (tried.mono longer) found stepped undo holds

theorem Problem.Dead.equal {t : S} (dead : P.Dead longest used t)
    (equal : P.model.equal s t = true) : P.Dead longest used s :=
  fun respects order picks serves =>
    dead respects order picks (serve_respects respects equal serves)

theorem Problem.Tried.dead (tried : P.Tried longest used s front)
    (split : remaining P.moments used = front ++ back)
    (stop : ∀ m ∈ back.head?, m.isCall = false) (fewer : used.card < P.h.length)
    (covered : P.computePartial = true → Covered longest used []) : P.Dead longest used s := by
  intro respects order picks serves
  cases order with
  | nil => exact ⟨fewer, covered⟩
  | cons j rest =>
    obtain ⟨ready, later⟩ := picks
    have left := mem_remaining.mp (ready_calls ready).1
    have bound : j < P.h.length := (P.matched.called j).mp left.1
    have fresh : j ∉ used := left.2
    rw [split, ready_stop (fun f inside => (tried f inside).1) stop] at ready
    have found : P.h[j]? = some P.h[j] := List.getElem?_eq_getElem bound
    have shape : pick P.h (j :: rest) = P.h[j] :: pick P.h rest := by
      simp [pick, found]
    rw [Problem.Serves, shape, List.map_cons, serve] at serves
    obtain ⟨t, served⟩ := Option.ne_none_iff_exists'.mp serves
    obtain ⟨u, stepped, tail⟩ := Option.bind_eq_some_iff.mp served
    have dead := (tried _ ready).2 _ u found stepped respects rest later
      (by rw [Problem.Serves, tail]; exact Option.some_ne_none t)
    rw [Moment.id_call, Finset.card_insert_of_notMem fresh] at dead
    refine ⟨by rw [List.length_cons]; omega, fun isPartial i member => ?_⟩
    obtain ⟨seq, recorded, enough⟩ := dead.2 isPartial i (by
      simpa [or_assoc, or_left_comm] using member)
    rw [Finset.card_insert_of_notMem fresh] at enough
    exact ⟨seq, recorded, by rw [List.length_cons]; omega⟩

end Dead

section Trail

variable {P : Problem S I O T} {longest : List (Option Sequence)} {frames : List (Frame S)}
  {nodes : List (Node I O)} {s : S}

theorem usedBy_cons (f : Frame S) (frames : List (Frame S)) :
    usedBy (f :: frames) = insert f.id (usedBy frames) := by
  simp [usedBy]

theorem pathOf_toFinset (frames : List (Frame S)) : (pathOf frames).toFinset = usedBy frames := by
  simp [pathOf, usedBy]

theorem pathOf_length (frames : List (Frame S)) : (pathOf frames).length = frames.length := by
  simp [pathOf]

theorem Problem.Trail.holds (trail : P.Trail longest frames nodes s) :
    P.Holds nodes (usedBy frames) := by
  cases trail with
  | root =>
    have whole : remaining P.moments ∅ = P.moments := by simp [remaining]
    exact ⟨rfl, by rw [usedBy, List.map_nil, List.toFinset_nil, whole]; exact P.linked⟩
  | push _ _ _ _ _ _ holds => rwa [usedBy_cons]

theorem Problem.Trail.path (trail : P.Trail longest frames nodes s) :
    Picks P.moments ∅ (pathOf frames) ∧
      serve (specOf P.model) P.model.init ((pick P.h (pathOf frames)).map Interval.io) =
        some s := by
  induction trail with
  | root => exact ⟨trivial, rfl⟩
  | @push frames nodes nodes' s u i a front back below split tried found stepped undo holds ih =>
    obtain ⟨picks, served⟩ := ih
    have shape : pathOf (⟨i, s, back.length⟩ :: frames) = pathOf frames ++ [i] := by simp [pathOf]
    have once : .call i ∉ front := by
      have nodup := remaining_nodup P.matched.nodup (usedBy frames)
      rw [split] at nodup
      exact fun twice => (List.nodup_append.mp nodup).2.2 _ twice _ List.mem_cons_self rfl
    have next : .call i ∈ ready (remaining P.moments (usedBy frames)) := by
      rw [split, mem_ready_append once]
      exact ⟨rfl, fun f inside => (tried f inside).1⟩
    rw [shape]
    refine ⟨picks.append ⟨?_, trivial⟩, ?_⟩
    · rwa [pathOf_toFinset, Finset.empty_union]
    · have last : pick P.h (pathOf frames ++ [i]) = pick P.h (pathOf frames) ++ [a] := by
        simp [pick, found]
      rw [last, List.map_append, serve_append, served]
      simpa [serve, Interval.io] using stepped

theorem Problem.Trail.serves (trail : P.Trail longest frames nodes s) :
    P.Serves P.model.init (pathOf frames) := by
  rw [Problem.Serves, trail.path.2]
  exact Option.some_ne_none s

theorem Problem.Trail.nodup (trail : P.Trail longest frames nodes s) : (pathOf frames).Nodup :=
  ((picks_iff P.matched.nodup).mp trail.path.1).1

theorem Problem.Trail.bound (trail : P.Trail longest frames nodes s) {i : ℕ}
    (member : i ∈ usedBy frames) : i < P.h.length := by
  rw [← pathOf_toFinset, List.mem_toFinset] at member
  exact (P.matched.called i).mp (((picks_iff P.matched.nodup).mp trail.path.1).2.1 i member).1

theorem Problem.Trail.card (trail : P.Trail longest frames nodes s) :
    (usedBy frames).card = frames.length := by
  rw [← pathOf_toFinset, List.toFinset_card_of_nodup trail.nodup, pathOf_length]

theorem OnTrail.card {e : CacheEntry S} (trail : P.Trail longest frames nodes s)
    (here : OnTrail e frames s) : e.linearized.members.card ≤ frames.length := by
  induction trail with
  | root => exact here.elim
  | @push frames nodes nodes' s u i a front back below split tried found stepped undo holds ih =>
    rcases here with ⟨members, -⟩ | lower
    · rw [members, (below.push split tried found stepped undo holds).card]
    · exact (ih lower).trans (Nat.le_succ _)

theorem Problem.Trail.left (trail : P.Trail longest frames nodes s) :
    (remaining P.moments (usedBy frames)).length + 2 * frames.length = 2 * P.h.length := by
  have counted := P.matched.remaining_length fun i member => trail.bound member
  rwa [trail.card] at counted

theorem mapM_map_some {A B C : Type} {f : B → Option C} {g : A → B} {k : A → C} {l : List A}
    (all : ∀ x ∈ l, f (g x) = some (k x)) : (l.map g).mapM f = some (l.map k) := by
  induction l with
  | nil => rfl
  | cons x l ih =>
    have tail := ih fun y inside => all y (List.mem_cons_of_mem x inside)
    simp [all x List.mem_cons_self, tail]

theorem Problem.Trail.collected (trail : P.Trail longest frames nodes s) :
    callIds nodes (frames.map fun f => CallsEntry.mk (P.node (.call f.id)) f.state) =
      some ((pathOf frames).map Nat.cast) := by
  have ids : ∀ f ∈ frames.reverse, (nodes[P.node (.call f.id)]?.map fun e => e.item.id) =
      some (f.id : ℤ) := by
    intro f member
    have bound : f.id < P.h.length := by
      apply trail.bound
      rw [usedBy, List.mem_toFinset]
      exact List.mem_map_of_mem (List.mem_reverse.mp member)
    obtain ⟨c, found, item⟩ := trail.holds.call_item (List.getElem?_eq_getElem bound)
    rw [found, Option.map_some, item]
  have shape : (pathOf frames).map Nat.cast = frames.reverse.map fun f => (f.id : ℤ) := by
    rw [pathOf, ← List.map_reverse, List.map_map]
    rfl
  rw [shape, callIds, ← List.map_reverse]
  exact mapM_map_some ids

end Trail

section Record

variable {longest : List (Option Sequence)} {seq : Sequence}

structure Recorded (longest longest' : List (Option Sequence)) (seq : Sequence) (ids : List ℕ) :
    Prop where
  sized : longest'.length = longest.length
  longer : Longer longest longest'
  covered : ∀ i ∈ ids, ∃ old, longest'[i]? = some (some old) ∧ seq.ids.length ≤ old.ids.length
  origin : ∀ i old, longest'[i]? = some (some old) → longest[i]? = some (some old) ∨
    (old = seq ∧ i ∈ ids)

theorem recorded_set {i : ℕ} (bound : i < longest.length)
    (shorter : ∀ old, longest[i]? = some (some old) → old.ids.length ≤ seq.ids.length) :
    Recorded longest (longest.set i (some seq)) seq [i] where
  sized := List.length_set
  longer j old found := by
    by_cases same : i = j
    · subst same
      exact ⟨seq, by simp [bound], shorter old found⟩
    · exact ⟨old, by rwa [List.getElem?_set_ne same], le_rfl⟩
  covered j member := by
    rw [List.mem_singleton] at member
    subst member
    exact ⟨seq, by simp [bound], le_rfl⟩
  origin j old found := by
    by_cases same : i = j
    · subst same
      rw [List.getElem?_set_self bound] at found
      exact .inr ⟨(Option.some.inj (Option.some.inj found)).symm, List.mem_singleton_self i⟩
    · rw [List.getElem?_set_ne same] at found
      exact .inl found

theorem recordLongest_recorded (seq : Sequence) {i : ℕ} (bound : i < longest.length) :
    ∃ longest', recordLongest seq longest i = some longest' ∧
      Recorded longest longest' seq [i] := by
  cases found : longest[i]? with
  | none => exact absurd bound (by simpa using found)
  | some slot =>
    cases slot with
    | none =>
      exact ⟨_, by simp [recordLongest, Int.toNat?, found], recorded_set bound (by simp [found])⟩
    | some old =>
      by_cases shorter : old.ids.length < seq.ids.length
      · refine ⟨_, by simp [recordLongest, Int.toNat?, found, shorter],
          recorded_set bound fun other same => ?_⟩
        obtain rfl : old = other := by simpa [found] using same
        exact shorter.le
      · refine ⟨longest, by simp [recordLongest, Int.toNat?, found, shorter], rfl, ?_, ?_, ?_⟩
        · exact fun j other same => ⟨other, same, le_rfl⟩
        · intro j member
          rw [List.mem_singleton.mp member]
          exact ⟨old, found, not_lt.mp shorter⟩
        · exact fun j other same => .inl same

theorem Recorded.trans {longest' longest'' : List (Option Sequence)} {ids later : List ℕ}
    (first : Recorded longest longest' seq ids) (second : Recorded longest' longest'' seq later) :
    Recorded longest longest'' seq (ids ++ later) where
  sized := second.sized.trans first.sized
  longer i old found := by
    obtain ⟨mid, found', grown⟩ := first.longer i old found
    obtain ⟨last, found'', grown'⟩ := second.longer i mid found'
    exact ⟨last, found'', grown.trans grown'⟩
  covered i member := by
    rcases List.mem_append.mp member with early | late
    · obtain ⟨old, found, enough⟩ := first.covered i early
      obtain ⟨last, found', grown⟩ := second.longer i old found
      exact ⟨last, found', enough.trans grown⟩
    · exact second.covered i late
  origin i old found := by
    rcases second.origin i old found with before | ⟨rfl, late⟩
    · rcases first.origin i old before with before | ⟨rfl, early⟩
      · exact .inl before
      · exact .inr ⟨rfl, List.mem_append_left later early⟩
    · exact .inr ⟨rfl, List.mem_append_right ids late⟩

theorem foldlM_recorded (seq : Sequence) {ids : List ℕ} (bounds : ∀ i ∈ ids, i < longest.length) :
    ∃ longest', (ids.map Nat.cast).foldlM (recordLongest seq) longest = some longest' ∧
      Recorded longest longest' seq ids := by
  induction ids generalizing longest with
  | nil =>
    refine ⟨longest, rfl, rfl, fun i old found => ⟨old, found, le_rfl⟩, ?_, fun i old => .inl⟩
    exact fun i member => absurd member List.not_mem_nil
  | cons i rest ih =>
    obtain ⟨middle, done, first⟩ := recordLongest_recorded seq (bounds i List.mem_cons_self)
    have bounds' : ∀ j ∈ rest, j < middle.length := fun j member => by
      rw [first.sized]
      exact bounds j (List.mem_cons_of_mem i member)
    obtain ⟨last, later, second⟩ := ih bounds'
    exact ⟨last, by simp [done, later], first.trans second⟩

end Record
end DistributedLabs.PorcupineSearch
