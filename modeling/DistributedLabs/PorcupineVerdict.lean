import DistributedLabs.PorcupineSearch

/-! The rounds of `checkSingle` and its verdict. Each round keeps the invariant of
the search and uses up some of a fixed amount of work, so that the loop ends; the
verdict is right about the history, and the sequences it returns are beginnings
of orders that none can be longer than. -/

namespace DistributedLabs.PorcupineVerdict
open Linearizability hiding Entry
open LinkedCells PorcupineBitset RealTimeOrders Porcupine PorcupineEntries PorcupineSearch

variable {S I O T : Type}

/-- The rounds allowed for one place of the list when `k` calls are left. -/
def share : ℕ → ℕ
  | 0 => 0
  | k + 1 => 2 + 2 * k * share k

/-- The rounds allowed for what the calls on the stack left behind them. -/
def stackWork (n : ℕ) : List (Frame S) → ℕ
  | [] => 0
  | f :: frames => 1 + f.left * share (n - frames.length) + stackWork n frames

def work (n : ℕ) (frames : List (Frame S)) (back : List Moment) : ℕ :=
  back.length * share (n - frames.length) + stackWork n frames

theorem share_pos {k : ℕ} (positive : 0 < k) : 0 < share k := by
  obtain ⟨k, rfl⟩ := Nat.exists_eq_succ_of_ne_zero positive.ne'
  simp [share]

section Rounds

variable {P : Problem S I O T} {search : Search S I O} {frames : List (Frame S)}
  {front back : List Moment} {i : ℕ}

theorem move (searching : P.Searching search frames front (.call i :: back))
    (dead : ∀ a u, P.h[i]? = some a → (specOf P.model).step search.state a.input a.output = some u →
      P.Dead search.longest (insert i (usedBy frames)) u) :
    P.Searching { search with entry := (back.map P.node).head? } frames
      (front ++ [.call i]) back :=
  { searching with
    split := by rw [searching.split]; simp
    cursor := rfl
    tried := by
      intro m member
      rcases List.mem_append.mp member with early | last
      · exact searching.tried m early
      · obtain rfl := List.mem_singleton.mp last
        exact ⟨rfl, dead⟩ }

theorem push (searching : P.Searching search frames front (.call i :: back))
    {a : Interval T I O} {u : S} (found : P.h[i]? = some a)
    (stepped : (specOf P.model).step search.state a.input a.output = some u)
    {linearized : Bitset} (set : search.linearized.set i = some linearized)
    {nodes : List (Node I O)} (undo : unlift nodes (P.node (.call i)) = some search.nodes)
    (holds : P.Holds nodes (insert i (usedBy frames))) (hash : BitVec 64) :
    P.Searching { search with
        nodes := nodes
        entry := ((remaining P.moments (insert i (usedBy frames))).map P.node).head?
        linearized := linearized
        cache := Function.update search.cache hash (search.cache hash ++ [⟨linearized, u⟩])
        calls := ⟨P.node (.call i), search.state⟩ :: search.calls
        state := u }
      (⟨i, search.state, back.length⟩ :: frames) []
      (remaining P.moments (insert i (usedBy frames))) := by
  obtain ⟨chunks, members⟩ := Bitset.set_members set
  have grown : linearized.members = usedBy (⟨i, search.state, back.length⟩ :: frames) := by
    rw [members, searching.bits, usedBy_cons]
  refine
    { trail := searching.trail.push searching.split searching.tried found stepped undo holds
      head := searching.head
      calls := by rw [searching.calls]; rfl
      bits := grown
      chunks := by rw [chunks]; exact searching.chunks
      split := by rw [usedBy_cons]; rfl
      cursor := rfl
      tried := fun m member => absurd member List.not_mem_nil
      cached := fun other e member => ?_
      sized := searching.sized
      recorded := searching.recorded }
  have old (inside : e ∈ search.cache other) :
      P.Dead search.longest e.linearized.members e.state ∨
        OnTrail e (⟨i, search.state, back.length⟩ :: frames) u :=
    (searching.cached other e inside).imp_right .inr
  by_cases here : other = hash
  · subst here
    simp only [Function.update_self, List.mem_append, List.mem_singleton] at member
    rcases member with inside | rfl
    · exact old inside
    · exact .inr (.inl ⟨grown, rfl⟩)
  · simp only [Function.update_of_ne here] at member
    exact old member

theorem work_move (fewer : frames.length < P.h.length) (m : Moment) :
    work P.h.length frames back < work P.h.length frames (m :: back) := by
  have positive := share_pos (Nat.sub_pos_of_lt fewer)
  simp only [work, List.length_cons, Nat.add_mul]
  omega

theorem work_push {s : S} (fewer : frames.length < P.h.length) {left : List Moment}
    (count : left.length + 2 * (frames.length + 1) = 2 * P.h.length) (m : Moment) :
    work P.h.length (⟨i, s, back.length⟩ :: frames) left <
      work P.h.length frames (m :: back) := by
  -- all places of the shorter list are allowed for
  obtain ⟨k, more⟩ := Nat.exists_eq_add_of_lt fewer
  have here : P.h.length - frames.length = k + 1 := by omega
  have next : P.h.length - (frames.length + 1) = k := by omega
  have places : left.length = 2 * k := by omega
  simp only [work, stackWork, List.length_cons, here, next, places, share, Nat.add_mul]
  omega

theorem cached_dead (searching : P.Searching search frames front (.call i :: back))
    {linearized : Bitset} (set : search.linearized.set i = some linearized) {u : S}
    (hit : cacheContains P.model search.cache ⟨linearized, u⟩ = true) :
    P.Dead search.longest (insert i (usedBy frames)) u := by
  obtain ⟨elem, inside, same⟩ := List.any_eq_true.mp hit
  rw [Bool.and_eq_true, Bitset.equals_iff] at same
  obtain ⟨bits, equal⟩ := same
  have members : elem.linearized.members = insert i (usedBy frames) := by
    rw [← bits, (Bitset.set_members set).2, searching.bits]
  have fresh : i ∉ usedBy frames := by
    have left : .call i ∈ remaining P.moments (usedBy frames) := by simp [searching.split]
    exact (mem_remaining.mp left).2
  rcases searching.cached _ elem inside with dead | here
  · rw [members] at dead
    exact dead.equal equal
  · -- the stack has fewer calls
    have fewer := here.card searching.trail
    rw [members, Finset.card_insert_of_notMem fresh, searching.trail.card] at fewer
    omega

theorem tryCall_searching (searching : P.Searching search frames front (.call i :: back))
    {e : Node I O} (here : search.nodes[P.node (.call i)]? = some e) :
    ∃ search' frames' front' back',
      tryCall P.model search (P.node (.call i)) e (P.node (.ret i)) = some search' ∧
      P.Searching search' frames' front' back' ∧
      work P.h.length frames' back' < work P.h.length frames (.call i :: back) := by
  have holds := searching.trail.holds
  have count := searching.trail.left
  obtain ⟨a, prev, found, node⟩ := holds.call_node searching.split
  obtain rfl := Option.some.inj (here.symm.trans node)
  obtain ⟨m, behind, item⟩ := holds.ret_node found
  have bound : i < P.h.length := (List.getElem?_eq_some_iff.mp found).1
  have fewer : frames.length < P.h.length := by
    rw [searching.split, List.length_append, List.length_cons] at count
    omega
  cases ok : (P.model.step search.state a.input a.output).1 with
  | false =>
    refine ⟨_, frames, front ++ [.call i], back, ?_, move searching ?_, work_move fewer _⟩
    · simp [tryCall, behind, item, ok]
    · intro b u found' stepped
      obtain rfl := Option.some.inj (found.symm.trans found')
      exact absurd (specOf_step.mp stepped).1 (by simp [ok])
  | true =>
    have stepped : (specOf P.model).step search.state a.input a.output =
        some (P.model.step search.state a.input a.output).2 := specOf_step.mpr ⟨ok, rfl⟩
    obtain ⟨linearized, set⟩ := Bitset.set_some (bound.trans_le searching.chunks)
    by_cases hit : cacheContains P.model search.cache
        ⟨linearized, (P.model.step search.state a.input a.output).2⟩ = true
    · refine ⟨_, frames, front ++ [.call i], back, ?_, move searching ?_, work_move fewer _⟩
      · simp [tryCall, behind, item, ok, Int.toNat?, set, hit]
      · intro b u found' stepped'
        obtain rfl := Option.some.inj (found.symm.trans found')
        obtain rfl := Option.some.inj (stepped.symm.trans stepped')
        exact cached_dead searching set hit
    · have member : .call i ∈ remaining P.moments (usedBy frames) := by simp [searching.split]
      obtain ⟨nodes, lifted, undo, holds'⟩ := holds.lift member
      obtain ⟨first, head⟩ := holds'.head_node
      have pushed := push searching found stepped set undo holds' linearized.hash
      have count' := pushed.trail.left
      rw [usedBy_cons] at count'
      refine ⟨_, _, _, _, ?_, pushed, work_push fewer count' _⟩
      rw [← searching.head] at head
      simp [tryCall, behind, item, ok, Int.toNat?, set, hit, lifted, head]

theorem recordCalls_recorded (searching : P.Searching search frames front back) :
    ∃ longest, recordCalls P.computePartial search = some longest ∧
      (P.computePartial = true → ∀ i ∈ usedBy frames, ∃ seq, longest[i]? = some (some seq) ∧
        (usedBy frames).card ≤ seq.ids.length) ∧
      Longer search.longest longest ∧ longest.length = P.h.length ∧ P.Sound longest := by
  cases isPartial : P.computePartial with
  | false =>
    exact ⟨search.longest, rfl, by simp, fun i seq found => ⟨seq, found, le_rfl⟩,
      searching.sized, searching.recorded⟩
  | true =>
    have bounds : ∀ i ∈ pathOf frames, i < search.longest.length := fun i member => by
      rw [searching.sized]
      apply searching.trail.bound
      rwa [← pathOf_toFinset, List.mem_toFinset]
    obtain ⟨longest, done, recorded⟩ := foldlM_recorded
      ⟨search.made, (pathOf frames).map Nat.cast⟩ bounds
    have collected := searching.trail.collected
    rw [← searching.calls] at collected
    refine ⟨longest, by simpa [recordCalls, collected] using done, fun _ i member => ?_,
      recorded.longer,
      recorded.sized.trans searching.sized, fun i seq found => ?_⟩
    · rw [← pathOf_toFinset, List.mem_toFinset] at member
      obtain ⟨seq, found, enough⟩ := recorded.covered i member
      refine ⟨seq, found, ?_⟩
      rw [searching.trail.card]
      simpa [pathOf_length] using enough
    · rcases recorded.origin i seq found with old | ⟨rfl, member⟩
      · exact searching.recorded i seq old
      · exact ⟨pathOf frames, rfl, member, searching.trail.path.1, searching.trail.serves⟩

theorem backtrack_searching {f : Frame S} (searching : P.Searching search (f :: frames) front back)
    (stop : ∀ m ∈ back.head?, m.isCall = false) (fewer : (f :: frames).length < P.h.length) :
    ∃ search' front' back',
      backtrack P.computePartial search ⟨P.node (.call f.id), f.state⟩
        (frames.map fun f => ⟨P.node (.call f.id), f.state⟩) = some search' ∧
      P.Searching search' frames front' back' ∧
      work P.h.length frames back' < work P.h.length (f :: frames) back := by
  obtain ⟨longest, recorded, covered, longer, sized, sound⟩ := recordCalls_recorded searching
  have holds := searching.trail.holds
  have dead : P.Dead longest (usedBy (f :: frames)) search.state := by
    refine (searching.tried.mono longer).dead searching.split stop ?_ fun isPartial i member => ?_
    · rwa [searching.trail.card]
    · obtain ⟨seq, found, enough⟩ := covered isPartial i (by simpa using member)
      exact ⟨seq, found, by simpa using enough⟩
  cases searching.trail with
  | @push _ nodes _ s u i a front' back' below split tried found stepped undo holds' =>
    have fresh : i ∉ usedBy frames := by
      have left : .call i ∈ remaining P.moments (usedBy frames) := by simp [split]
      exact (mem_remaining.mp left).2
    have bound : i < P.h.length := (List.getElem?_eq_some_iff.mp found).1
    obtain ⟨c, here, item⟩ := holds'.call_item found
    obtain ⟨b, prev, -, there⟩ := below.holds.call_node split
    obtain ⟨linearized, cleared⟩ := Bitset.clear_some (bound.trans_le searching.chunks)
    obtain ⟨chunks, members⟩ := Bitset.clear_members cleared
    rw [usedBy_cons] at dead
    refine ⟨{ search with
        nodes := nodes
        entry := (back'.map P.node).head?
        linearized := linearized
        calls := frames.map fun f => ⟨P.node (.call f.id), f.state⟩
        longest := longest
        state := s
        made := search.made + 1 }, front' ++ [.call i], back', ?_, ?_, ?_⟩
    · simp [backtrack, recorded, here, item, Int.toNat?, cleared, undo, there]
    · refine
        { trail := below.mono longer
          head := searching.head
          calls := rfl
          bits := ?_
          chunks := by rw [chunks]; exact searching.chunks
          split := by rw [split]; simp
          cursor := rfl
          tried := fun m member => ?_
          cached := fun hash e member => ?_
          sized := sized
          recorded := sound }
      · rw [members, searching.bits, usedBy_cons, Finset.erase_insert fresh]
      · rcases List.mem_append.mp member with early | last
        · exact tried.mono longer m early
        · obtain rfl := List.mem_singleton.mp last
          refine ⟨rfl, fun a' u' found' stepped' => ?_⟩
          obtain rfl := Option.some.inj (found.symm.trans found')
          obtain rfl := Option.some.inj (stepped.symm.trans stepped')
          exact dead
      · rcases searching.cached hash e member with old | here | lower
        · exact .inl (old.mono longer)
        · rw [here.1, here.2, usedBy_cons]
          exact .inl dead
        · exact .inr lower
    · simp only [work, stackWork]
      omega

theorem back_ne_nil (searching : P.Searching search frames front back)
    (left : remaining P.moments (usedBy frames) ≠ []) : back ≠ [] := by
  rintro rfl
  have split := searching.split
  rw [List.append_nil] at split
  cases front with
  | nil => exact left split
  | cons m rest =>
    have call := (searching.tried m List.mem_cons_self).1
    cases m with
    | ret i => cases call
    | call i =>
      have later := P.matched.return_later (split.trans (List.nil_append _).symm)
      cases (searching.tried _ (List.mem_cons_of_mem _ later)).1

theorem correct_done (searching : P.Searching search frames front back)
    (done : remaining P.moments (usedBy frames) = []) :
    P.Correct ⟨true, search.longest.map fun _ =>
      some ⟨search.made, (pathOf frames).map Nat.cast⟩⟩ := by
  have count : frames.length = P.h.length := by
    have counted := searching.trail.left
    rw [done, List.length_nil] at counted
    omega
  have whole (i : ℕ) (bound : i < P.h.length) : i ∈ pathOf frames := by
    by_contra absent
    rw [← List.mem_toFinset, pathOf_toFinset] at absent
    have left := mem_remaining.mpr ⟨(P.matched.called i).mpr bound, absent⟩
    rw [done] at left
    exact List.not_mem_nil left
  have full := (pathOf_length frames).trans count
  refine ⟨fun _ => ⟨pathOf frames, searching.trail.path.1, searching.trail.serves, full⟩, nofun,
    fun i seq found => ?_, fun _ _ order picks _ i member => ?_⟩
  · rw [List.getElem?_map] at found
    obtain ⟨old, inside, same⟩ := Option.map_eq_some_iff.mp found
    have bound := (List.getElem?_eq_some_iff.mp inside).1
    rw [searching.sized] at bound
    exact ⟨pathOf frames, by rw [← Option.some.inj same], whole i bound, searching.trail.path.1,
      searching.trail.serves⟩
  · have bound := picks.bound P.matched (member.resolve_left (Finset.notMem_empty i))
    refine ⟨⟨search.made, (pathOf frames).map Nat.cast⟩, ?_, ?_⟩
    · rw [List.getElem?_map, List.getElem?_eq_getElem (by rwa [searching.sized]), Option.map_some]
    · rw [List.length_map, full, Finset.card_empty, Nat.zero_add]
      exact picks.length_le P.matched

theorem correct_failed (searching : P.Searching search [] front back)
    (stop : ∀ m ∈ back.head?, m.isCall = false)
    (left : remaining P.moments (usedBy ([] : List (Frame S))) ≠ []) :
    P.Correct ⟨false, search.longest⟩ := by
  have nonempty : 0 < P.h.length := by
    have counted := searching.trail.left
    have positive := List.length_pos_iff.mpr left
    simp only [List.length_nil] at counted
    omega
  have state : P.model.init = search.state := Option.some.inj searching.trail.path.2
  have dead : P.Dead search.longest ∅ search.state :=
    searching.tried.dead searching.split stop nonempty fun _ i member => by simp [usedBy] at member
  rw [← state] at dead
  refine ⟨by simp, fun _ respects order picks serves => ?_, searching.recorded,
    fun isPartial respects order picks serves => (dead respects order picks serves).2 isPartial⟩
  simpa using (dead respects order picks serves).1

/-- One round: the search goes on with less work left, or its verdict is right, or
it was told to stop. -/
theorem iterate_searching (searching : P.Searching search frames front back) (killed : Bool) :
    (∃ search' frames' front' back',
      iterate P.model P.computePartial killed search = some (.inl search') ∧
      P.Searching search' frames' front' back' ∧
      work P.h.length frames' back' < work P.h.length frames back) ∨
    (∃ v, iterate P.model P.computePartial killed search = some (.inr v) ∧ P.Correct v) ∨
    (killed = true ∧
      iterate P.model P.computePartial killed search = some (.inr ⟨false, search.longest⟩)) := by
  have holds := searching.trail.holds
  obtain ⟨item, head⟩ := holds.head_node
  rw [← searching.head] at head
  by_cases done : remaining P.moments (usedBy frames) = []
  · refine .inr (.inl ⟨_, ?_, correct_done searching done⟩)
    have collected := searching.trail.collected
    rw [← searching.calls] at collected
    simp [iterate, head, done, collected]
  cases killed with
  | true => exact .inr (.inr ⟨rfl, by simp [iterate, head, done]⟩)
  | false =>
    cases back with
    | nil => exact absurd rfl (back_ne_nil searching done)
    | cons m back =>
      have cursor := searching.cursor
      cases m with
      | call i =>
        have called : .call i ∈ remaining P.moments (usedBy frames) := by simp [searching.split]
        have bound := (P.matched.called i).mp (mem_remaining.mp called).1
        obtain ⟨c, node, item⟩ := holds.call_item (List.getElem?_eq_getElem bound)
        obtain ⟨search', frames', front', back', tried, searching', less⟩ :=
          tryCall_searching searching node
        refine .inl ⟨search', frames', front', back', ?_, searching', less⟩
        simp [iterate, head, done, cursor, node, item, tried]
      | ret i =>
        have returned : .ret i ∈ remaining P.moments (usedBy frames) := by simp [searching.split]
        have bound := (P.matched.returned i).mp (mem_remaining.mp returned).1
        obtain ⟨c, node, item⟩ := holds.ret_node (List.getElem?_eq_getElem bound)
        have stop : ∀ m ∈ (Moment.ret i :: back).head?, m.isCall = false := by simp [Moment.isCall]
        cases frames with
        | nil =>
          refine .inr (.inl ⟨_, ?_, correct_failed searching stop done⟩)
          simp [iterate, head, done, cursor, node, item, searching.calls]
        | cons f frames =>
          have fewer : (f :: frames).length < P.h.length := by
            have counted := searching.trail.left
            have positive := List.length_pos_iff.mpr done
            omega
          obtain ⟨search', front', back', undone, searching', less⟩ :=
            backtrack_searching searching stop fewer
          refine .inl ⟨search', frames, front', back', ?_, searching', less⟩
          simp [iterate, head, done, cursor, node, item, searching.calls, undone]

/-- What a verdict given under `kill` says: when the search was told to stop, only
what it recorded. -/
def Answers (P : Problem S I O T) (kill : ℕ → Bool) (v : Verdict) : Prop :=
  P.Correct v ∨ (v.ok = false ∧ (∃ n, kill n = true) ∧ P.Sound v.longest)

theorem searchLoop_answers (searching : P.Searching search frames front back) {rounds : ℕ}
    (enough : work P.h.length frames back < rounds) (kill : ℕ → Bool) :
    ∃ v, searchLoop P.model P.computePartial rounds kill search = some (.inr v) ∧
      Answers P kill v := by
  induction rounds generalizing search frames front back kill with
  | zero => omega
  | succ rounds ih =>
    rcases iterate_searching searching (kill 0) with
      ⟨search', frames', front', back', went, searching', less⟩ | ⟨v, ended, correct⟩ |
        ⟨killed, ended⟩
    · obtain ⟨v, ended, answers⟩ := ih searching' (by omega) fun n => kill (n + 1)
      refine ⟨v, by simp [searchLoop, went, ended], answers.imp_right ?_⟩
      rintro ⟨failed, ⟨n, killed⟩, sound⟩
      exact ⟨failed, ⟨n + 1, killed⟩, sound⟩
    · exact ⟨v, by simp [searchLoop, ended], .inl correct⟩
    · refine ⟨_, by simp [searchLoop, ended]; rfl, .inr ⟨rfl, ⟨0, killed⟩, ?_⟩⟩
      exact searching.recorded

end Rounds

section Verdict

variable [LT T] {h : List (Interval T I O)} {entries : List (Entry I O)}

theorem startSearch_searching (reads : Reads h entries) (model : FullModel S I O)
    (computePartial : Bool) :
    ∃ (P : Problem S I O T) (search : Search S I O), P.model = model ∧
      P.computePartial = computePartial ∧ P.h = h ∧ P.moments = entries.map moment ∧
      startSearch model entries = some search ∧ P.Searching search [] [] P.moments := by
  obtain ⟨nodes, started, items, linked⟩ := startSearch_linked reads model
  have laid := reads.laid
  have inside (p : ℕ) (item : Item I O) (found : (PorcupineEntries.items entries)[p]? = some item) :
      (nodes.map Cell.item)[p]? = some item := by
    rwa [items, List.getElem?_append_left (List.getElem?_eq_some_iff.mp found).1]
  let P : Problem S I O T :=
    { model := model
      computePartial := computePartial
      h := h
      moments := entries.map moment
      node := place entries
      head := entries.length
      base := nodes
      matched := reads.toMatched
      laid := ⟨fun i a found => inside _ _ (laid.call i a found),
        fun i a found => inside _ _ (laid.ret i a found)⟩
      linked := linked
      distinct := by
        rw [places_moments reads.nodup, ← places_succ]
        exact places_nodup _ }
  refine ⟨P, _, rfl, rfl, rfl, rfl, started, ?_⟩
  exact
    { trail := .root
      head := rfl
      calls := rfl
      bits := newBitset_members _
      chunks := newBitset_length _
      split := by simp [remaining, usedBy]
      cursor := rfl
      tried := fun m member => absurd member List.not_mem_nil
      cached := fun hash e member => absurd member List.not_mem_nil
      sized := by simp [P]
      recorded := fun i seq found => by simp [List.getElem?_replicate] at found }

def Partials (model : FullModel S I O) (h : List (Interval T I O))
    (longest : List (Option Sequence)) : Prop :=
  ∀ i seq, longest[i]? = some (some seq) → ∃ order : List ℕ,
    seq.ids = order.map Nat.cast ∧ i ∈ order ∧ Begins (specOf model) h order

/-- No beginning of an order that has the call `i` is longer than what is recorded. -/
def Longest (model : FullModel S I O) (h : List (Interval T I O))
    (longest : List (Option Sequence)) : Prop :=
  ∀ order, Begins (specOf model) h order → ∀ i ∈ order,
    ∃ seq, longest[i]? = some (some seq) ∧ order.length ≤ seq.ids.length

structure Decides (model : FullModel S I O) (computePartial : Bool) (h : List (Interval T I O))
    (v : Verdict) : Prop where
  ok : v.ok = true → ∃ calls, Serializes (specOf model) h calls
  failed : v.ok = false → Respects model → ¬ ∃ calls, Serializes (specOf model) h calls
  longest : computePartial = true → Respects model → Longest model h v.longest

section History

variable {P : Problem S I O T}

theorem partials (timeline : Timeline P.h P.moments) {longest : List (Option Sequence)}
    (sound : P.Sound longest) : Partials P.model P.h longest := by
  intro i seq found
  obtain ⟨order, same, member, picks, serves⟩ := sound i seq found
  exact ⟨order, same, member, (begins_iff_picks timeline).mpr ⟨picks, serves⟩⟩

theorem decides (timeline : Timeline P.h P.moments) {v : Verdict} (correct : P.Correct v) :
    Decides P.model P.computePartial P.h v where
  ok accepted := by
    obtain ⟨order, picks, serves, full⟩ := correct.sound accepted
    exact (serializes_iff_begins timeline).mpr
      ⟨order, (begins_iff_picks timeline).mpr ⟨picks, serves⟩, full⟩
  failed rejected respects exist := by
    obtain ⟨order, begins, full⟩ := (serializes_iff_begins timeline).mp exist
    obtain ⟨picks, serves⟩ := (begins_iff_picks timeline).mp begins
    exact (correct.complete rejected respects order picks serves).ne full
  longest isPartial respects order begins i member := by
    obtain ⟨picks, serves⟩ := (begins_iff_picks timeline).mp begins
    simpa using correct.longest isPartial respects order picks serves i (.inr member)

end History

def roundsFor (n : ℕ) : ℕ := 2 * n * share n + 1

theorem checkSingle_answers (reads : Reads h entries) (model : FullModel S I O)
    (computePartial : Bool) (kill : ℕ → Bool) {rounds : ℕ} (enough : roundsFor h.length ≤ rounds) :
    ∃ v, checkSingle model entries computePartial kill rounds = some (.inr v) ∧
      Partials model h v.longest ∧
      (Decides model computePartial h v ∨ (v.ok = false ∧ ∃ n, kill n = true)) := by
  obtain ⟨P, search, rfl, rfl, rfl, moments, started, searching⟩ :=
    startSearch_searching reads model computePartial
  have timeline : Timeline P.h P.moments := moments ▸ reads.toTimeline
  have places : work P.h.length ([] : List (Frame S)) P.moments < rounds := by
    simp only [work, stackWork, P.matched.length, List.length_nil, Nat.sub_zero, Nat.add_zero]
    exact enough
  obtain ⟨v, ended, answers⟩ := searchLoop_answers searching places kill
  refine ⟨v, by simp [checkSingle, started, ended], ?_⟩
  rcases answers with correct | ⟨failed, killed, sound⟩
  · exact ⟨partials timeline correct.recorded, .inl (decides timeline correct)⟩
  · exact ⟨partials timeline sound, .inr ⟨failed, killed⟩⟩

end Verdict

section Operations

theorem makeEntries_reads {history : List (Operation I O)} {entries : List (Entry I O)}
    (forward : ∀ op ∈ history, op.call ≤ op.ret) (made : MakeEntries history entries) :
    Reads (history.map interval) entries :=
  (makeEntries_sorted made).reads (by simpa [interval] using forward)

/-- Whatever order the sort leaves equal times in, the search ends, no pointer is
nil and no index out of range, and it accepts just the linearizable histories. -/
theorem checkSingle_decides (model : FullModel S I O) (respects : Respects model)
    {history : List (Operation I O)} (forward : ∀ op ∈ history, op.call ≤ op.ret)
    {entries : List (Entry I O)} (made : MakeEntries history entries) (computePartial : Bool)
    {rounds : ℕ} (enough : roundsFor history.length ≤ rounds) :
    ∃ v, checkSingle model entries computePartial (fun _ => false) rounds = some (.inr v) ∧
      (v.ok = true ↔ ∃ calls, Serializes (specOf model) (history.map interval) calls) := by
  obtain ⟨v, ended, -, decides | ⟨-, -, killed⟩⟩ := checkSingle_answers
    (makeEntries_reads forward made) model computePartial (fun _ => false) (by simpa using enough)
  · refine ⟨v, ended, decides.ok, fun exist => ?_⟩
    by_contra rejected
    exact decides.failed (by simpa using rejected) respects exist
  · cases killed

def register : Model ℕ (Option ℕ) ℕ where
  partition := none
  partitionEvent := none
  init := 0
  step := fun s i o => match i with
    | some v => (true, v)
    | none => (o = s, s)
  equal := none

def staleReads : List (Operation (Option ℕ) ℕ) :=
  [⟨0, some 1, 0, 0, 5⟩, ⟨1, none, 1, 1, 2⟩, ⟨1, none, 3, 0, 4⟩]

theorem staleReads_entries : MakeEntries staleReads
    [⟨.call, .inl (some 1), 0, 0, 0⟩, ⟨.call, .inl none, 1, 1, 1⟩, ⟨.ret, .inr 1, 1, 2, 1⟩,
      ⟨.call, .inl none, 2, 3, 1⟩, ⟨.ret, .inr 0, 2, 4, 1⟩, ⟨.ret, .inr 0, 0, 5, 0⟩] :=
  ⟨by decide, by decide⟩

theorem checkSingle_decides_register : ∃ entries, MakeEntries staleReads entries ∧
    ∃ v, checkSingle (fillDefault register) entries false (fun _ => false) 157 = some (.inr v) ∧
      (v.ok = true ↔
        ∃ calls, Serializes (specOf (fillDefault register)) (staleReads.map interval) calls) :=
  ⟨_, staleReads_entries, checkSingle_decides (fillDefault register) (respects_fillDefault rfl)
    (by decide) staleReads_entries false (by decide)⟩

/-- The sequences that the search returns for the calls begin orders of the
history, also when it is told to stop; when it is not, none that has the call can
be longer. -/
theorem checkSingle_longest (model : FullModel S I O) {history : List (Operation I O)}
    (forward : ∀ op ∈ history, op.call ≤ op.ret) {entries : List (Entry I O)}
    (made : MakeEntries history entries) (kill : ℕ → Bool) {rounds : ℕ}
    (enough : roundsFor history.length ≤ rounds) :
    ∃ v, checkSingle model entries true kill rounds = some (.inr v) ∧
      Partials model (history.map interval) v.longest ∧
      (Respects model → (∀ n, kill n = false) →
        Longest model (history.map interval) v.longest) := by
  obtain ⟨v, ended, partials, decides | ⟨-, n, killed⟩⟩ := checkSingle_answers
    (makeEntries_reads forward made) model true kill (by simpa using enough)
  · exact ⟨v, ended, partials, fun respects _ => decides.longest rfl respects⟩
  · exact ⟨v, ended, partials, fun _ never => absurd killed (by simp [never n])⟩

theorem checkSingle_longest_register : ∃ entries, MakeEntries staleReads entries ∧
    ∃ v, checkSingle (fillDefault register) entries true (fun _ => false) 157 = some (.inr v) ∧
      Partials (fillDefault register) (staleReads.map interval) v.longest ∧
      (Respects (fillDefault register) → (∀ n, (fun _ : ℕ => false) n = false) →
        Longest (fillDefault register) (staleReads.map interval) v.longest) :=
  ⟨_, staleReads_entries, checkSingle_longest (fillDefault register) (by decide)
    staleReads_entries (fun _ => false) (by decide)⟩

example : (checkSingle (fillDefault register)
    [⟨.call, .inl (some 1), 0, 0, 0⟩, ⟨.call, .inl none, 1, 1, 1⟩, ⟨.ret, .inr 1, 1, 2, 1⟩,
      ⟨.call, .inl none, 2, 3, 1⟩, ⟨.ret, .inr 0, 2, 4, 1⟩, ⟨.ret, .inr 0, 0, 5, 0⟩]
    true (fun _ => false) 157).bind Sum.getRight? =
      some ⟨false, [some ⟨0, [0, 1]⟩, some ⟨0, [0, 1]⟩, none]⟩ := by decide +kernel

end Operations
end DistributedLabs.PorcupineVerdict
