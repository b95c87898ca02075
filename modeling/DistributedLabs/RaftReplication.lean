import DistributedLabs.PeerSections

/-! What one exchange of a leader with a follower does: how the handler merges a
request into its log, and which index the leader commits after an
acknowledgement. -/

namespace DistributedLabs.RaftReplication

open RaftPeer

variable {n : ℕ} {C : Type}

section Merging

variable {log : List (LogEntry C)} {args : AppendEntriesArgs n C} {prev : LogEntry C}

/-- The log has no entry at `prevLogIndex + 1 + j`, or has one there whose term
is not that of carried entry `j`. -/
def Differs (log : List (LogEntry C)) (args : AppendEntriesArgs n C) (j : ℕ) : Prop :=
  ∀ stored, index log (args.prevLogIndex + 1 + j) = some stored →
    args.entries[j]?.map LogEntry.term ≠ some stored.term

/-- The merge as Raft specifies it: everything before the first difference is
kept, and what is carried from there on follows it. -/
structure Merges (log : List (LogEntry C)) (args : AppendEntriesArgs n C)
    (result : List (LogEntry C)) : Prop where
  held : (∀ j < args.entries.length, ¬ Differs log args j) → result = log
  fresh : ∀ k < args.entries.length, Differs log args k → (∀ j < k, ¬ Differs log args j) →
    result = log.take (args.prevLogIndex.toNat + 1 + k) ++ args.entries.drop k

theorem Overlaps.entries_ne_nil (overlaps : Overlaps log args) : args.entries ≠ [] := by
  have ⟨first, head, _⟩ := overlaps
  intro empty
  simp [empty] at head

theorem differs_zero (carries : args.entries ≠ []) :
    Differs log args 0 ↔ ¬ Overlaps log args := by
  have ⟨first, rest, entries⟩ := List.exists_cons_of_ne_nil carries
  simp only [Differs, Overlaps, entries]
  constructor
  · intro differs ⟨first', head, stored, found, same⟩
    refine differs stored (by simpa using found) ?_
    simp_all
  · intro apart stored found same
    refine apart ⟨first, rfl, stored, by simpa using found, ?_⟩
    simpa using same.symm

theorem mergeEntries_overlap (overlaps : Overlaps log args) :
    mergeEntries log args.prevLogIndex args.entries = log ++ args.entries := by
  have ⟨first, head, stored, found, same⟩ := overlaps
  have ⟨rest, entries⟩ := List.head?_eq_some_iff.mp head
  rw [Option.mem_def] at found
  simp [mergeEntries, entries, found, same]

theorem merges_iff (nonneg : 0 ≤ args.prevLogIndex) :
    Merges log args (mergeEntries log args.prevLogIndex args.entries) ↔
      ¬ Overlaps log args := by
  constructor
  · intro merges overlaps
    have carries := Overlaps.entries_ne_nil overlaps
    have positive := List.length_pos_iff.mpr carries
    rw [mergeEntries_overlap overlaps] at merges
    by_cases all : ∀ j < args.entries.length, ¬ Differs log args j
    · exact carries (List.append_right_eq_self.mp (merges.held all))
    · push Not at all
      classical
      -- the least difference lies behind the first carried entry
      have ⟨inside, differs⟩ := Nat.find_spec all
      have least : ∀ j < Nat.find all, ¬ Differs log args j := fun j below differs =>
        Nat.find_min all below ⟨below.trans inside, differs⟩
      have later : Nat.find all ≠ 0 := by
        intro zero
        rw [zero] at differs
        exact (differs_zero carries).mp differs overlaps
      have same := congrArg List.length (merges.fresh _ inside differs least)
      simp only [List.length_append, List.length_take, List.length_drop] at same
      omega
  · intro apart
    by_cases empty : args.entries = []
    · constructor
      · intro _
        simp [mergeEntries, empty]
      · intro k inside
        simp [empty] at inside
    · have first := (differs_zero empty).mpr apart
      have positive := List.length_pos_iff.mpr empty
      rw [mergeEntries_fresh nonneg apart empty]
      constructor
      · intro all
        exact absurd first (all 0 positive)
      · intro k _ _ least
        cases k with
        | zero => simp
        | succ k => exact absurd first (least 0 k.succ_pos)

theorem overlaps_again (found : index log args.prevLogIndex = some prev)
    (carries : args.entries ≠ []) :
    Overlaps (mergeEntries log args.prevLogIndex args.entries) args := by
  have ⟨nonneg, at_prev⟩ := index_eq_some.mp found
  have inside := (List.getElem?_eq_some_iff.mp at_prev).1
  have position : (args.prevLogIndex + 1).toNat = args.prevLogIndex.toNat + 1 := by omega
  have ⟨first, rest, entries⟩ := List.exists_cons_of_ne_nil carries
  by_cases overlaps : Overlaps log args
  · rw [mergeEntries_overlap overlaps]
    have ⟨first', head, stored, at_next, same⟩ := overlaps
    refine ⟨first', head, stored, ?_, same⟩
    have ⟨next, there⟩ := index_eq_some.mp at_next
    refine index_eq_some.mpr ⟨next, ?_⟩
    rw [List.getElem?_append_left (List.getElem?_eq_some_iff.mp there).1, there]
  · rw [mergeEntries_fresh nonneg overlaps carries]
    refine ⟨first, by simp [entries], first, ?_, rfl⟩
    have short : (log.take (args.prevLogIndex.toNat + 1)).length =
        args.prevLogIndex.toNat + 1 := by
      rw [List.length_take]
      omega
    refine index_eq_some.mpr ⟨by omega, ?_⟩
    rw [position, List.getElem?_append_right short.le, short, entries]
    simp

end Merging

section Handler

variable {rf : Raft n C} {args : AppendEntriesArgs n C} {prev : LogEntry C}

theorem appendEntries_total (rf : Raft n C) (args : AppendEntriesArgs n C)
    (rooted : rf.log ≠ []) (nonneg : 0 ≤ args.prevLogIndex) :
    ∃ rf' reply, appendEntries rf args = some (rf', reply) := by
  unfold appendEntries
  split
  · exact ⟨_, _, rfl⟩
  · unfold reconcile
    rw [adoptTerm_log]
    split
    · rw [index_getLast rooted]
      exact ⟨_, _, rfl⟩
    · rename_i inside
      have found : index rf.log args.prevLogIndex = rf.log[args.prevLogIndex.toNat]? :=
        if_pos nonneg
      rw [found, List.getElem?_eq_getElem (by omega)]
      exact ⟨_, _, rfl⟩

theorem appendEntries_accepts (current : rf.currentTerm ≤ args.term)
    (found : index rf.log args.prevLogIndex = some prev) (same : prev.term = args.prevLogTerm) :
    ∃ rf', appendEntries rf args = some (rf', ⟨args.term, true, 0, 0⟩) ∧
      rf'.toPeer = rf.toPeer.accepted args := by
  have ⟨nonneg, at_prev⟩ := index_eq_some.mp found
  have inside := (List.getElem?_eq_some_iff.mp at_prev).1
  have rooted : rf.log ≠ [] := List.length_pos_iff.mp (by omega)
  have ⟨rf', reply, ran⟩ := appendEntries_total rf args rooted nonneg
  rcases appendEntries_cases ran with ⟨stale, _⟩ | ⟨_, refusal, _⟩ | ⟨_, _, _, _, replied, done⟩
  · omega
  · rcases refusal with ⟨beyond, _⟩ | ⟨other, there, differs, _⟩
    · omega
    · rw [found, Option.some.injEq] at there
      rw [← there] at differs
      exact absurd same differs
  · rw [replied] at ran
    exact ⟨rf', ran, done⟩

/-- The handler merges as Raft specifies exactly when the log does not already
hold the first carried entry, and the same request changes the log again
whenever it carries anything. -/
theorem appendEntries_merges (rf : Raft n C) (args : AppendEntriesArgs n C) (prev : LogEntry C)
    (current : rf.currentTerm ≤ args.term)
    (found : index rf.log args.prevLogIndex = some prev) (same : prev.term = args.prevLogTerm) :
    ∃ rf' reply, appendEntries rf args = some (rf', reply) ∧ reply.success = true ∧
      (Merges rf.log args rf'.log ↔ ¬ Overlaps rf.log args) ∧
      ∃ rf'' again, appendEntries rf' args = some (rf'', again) ∧
        (rf''.log = rf'.log ↔ args.entries = []) := by
  obtain ⟨rf', ran, done⟩ := appendEntries_accepts current found same
  have log : rf'.log = mergeEntries rf.log args.prevLogIndex args.entries := by
    rw [done]
    rfl
  have term : rf'.currentTerm ≤ args.term := by
    rw [done]
    simp [Peer.accepted, current]
  have kept : index rf'.log args.prevLogIndex = some prev := by
    rw [log]
    exact mergeEntries_prev found
  obtain ⟨rf'', ran', done'⟩ := appendEntries_accepts term kept same
  have log' : rf''.log = mergeEntries rf'.log args.prevLogIndex args.entries := by
    rw [done']
    rfl
  refine ⟨rf', _, ran, rfl, ?_, rf'', _, ran', ?_⟩
  · rw [log]
    exact merges_iff (index_eq_some.mp found).1
  · constructor
    · intro unchanged
      by_contra carries
      have overlaps : Overlaps rf'.log args := by
        rw [log]
        exact overlaps_again found carries
      rw [log', mergeEntries_overlap overlaps] at unchanged
      exact carries (List.append_right_eq_self.mp unchanged)
    · intro empty
      rw [log', empty]
      simp [mergeEntries]

def holder : Raft 2 ℕ :=
  { (make : Raft 2 ℕ) with currentTerm := 1, log := [⟨0, 0⟩, ⟨7, 1⟩] }

theorem appendEntries_merges_next :
    ∃ rf' reply, appendEntries holder ⟨1, 1, 1, 1, [⟨8, 1⟩], 0⟩ = some (rf', reply) ∧
      reply.success = true ∧
      (Merges holder.log (⟨1, 1, 1, 1, [⟨8, 1⟩], 0⟩ : AppendEntriesArgs 2 ℕ) rf'.log ↔
        ¬ Overlaps holder.log (⟨1, 1, 1, 1, [⟨8, 1⟩], 0⟩ : AppendEntriesArgs 2 ℕ)) ∧
      ∃ rf'' again, appendEntries rf' ⟨1, 1, 1, 1, [⟨8, 1⟩], 0⟩ = some (rf'', again) ∧
        (rf''.log = rf'.log ↔ ([⟨8, 1⟩] : List (LogEntry ℕ)) = []) :=
  appendEntries_merges holder ⟨1, 1, 1, 1, [⟨8, 1⟩], 0⟩ ⟨7, 1⟩ le_rfl rfl rfl

/-- The entry it already holds, sent once more, is stored a second time. -/
theorem appendEntries_duplicates :
    (appendEntries holder ⟨1, 1, 0, 0, [⟨7, 1⟩], 0⟩).map (fun out => (out.1.log, out.2.success)) =
        some ([⟨0, 0⟩, ⟨7, 1⟩, ⟨7, 1⟩], true) ∧
      ¬ Merges holder.log (⟨1, 1, 0, 0, [⟨7, 1⟩], 0⟩ : AppendEntriesArgs 2 ℕ)
        [⟨0, 0⟩, ⟨7, 1⟩, ⟨7, 1⟩] := by
  refine ⟨by decide, fun merges => ?_⟩
  have unchanged := merges.held fun j inside differs => by
    obtain rfl : j = 0 := by simpa using inside
    exact differs ⟨7, 1⟩ rfl rfl
  exact absurd unchanged (by decide)

end Handler

section Committing

variable {rf : Raft n C}

/-- The leader may commit up to `N` by counting: the entry there is of its
term, and with itself a majority has matched it. -/
def Committable (p : Peer n C) (N : ℤ) : Prop :=
  (∃ entry, index p.log N = some entry ∧ entry.term = p.currentTerm) ∧
    n / 2 < 1 + (Finset.univ.filter fun i => p.matchIndex i ≥ N).card

theorem countMatches_other {p : Peer n C} {N : ℤ} {entry : LogEntry C}
    (found : index p.log N = some entry) (other : entry.term ≠ p.currentTerm)
    (peers : List (Fin n)) (count : ℕ) : countMatches p N peers count = some false := by
  induction peers with
  | nil => rfl
  | cons i rest ih =>
    unfold countMatches
    simp [found, other, ih]

/-- The test stands only behind an increment, which is enough as long as the
count starts below a majority. -/
theorem countMatches_own {p : Peer n C} {N : ℤ} {entry : LogEntry C}
    (found : index p.log N = some entry) (own : entry.term = p.currentTerm)
    (peers : List (Fin n)) {count : ℕ} (few : count ≤ n / 2) :
    countMatches p N peers count =
      some (decide (n / 2 < count + (peers.filter fun i => p.matchIndex i ≥ N).length)) := by
  induction peers generalizing count with
  | nil =>
    simp only [countMatches, List.filter_nil, List.length_nil, Option.some.injEq]
    exact (decide_eq_false (by omega)).symm
  | cons i rest ih =>
    unfold countMatches
    by_cases reaches : p.matchIndex i ≥ N
    · rw [List.filter_cons_of_pos (by simpa using reaches), List.length_cons, if_pos reaches,
        found, Option.bind_some, if_pos own]
      by_cases many : count + 1 > n / 2
      · rw [if_pos many]
        exact congrArg some (decide_eq_true (by omega)).symm
      · rw [if_neg many, ih (by omega), Nat.add_assoc, Nat.add_comm 1]
    · rw [List.filter_cons_of_neg (by simpa using reaches), if_neg reaches, ih few]

/-- Outside the log the loop ends only if no peer has matched that far: the
first that has makes it read there. -/
theorem countMatches_outside {p : Peer n C} {N : ℤ} (outside : index p.log N = none)
    {peers : List (Fin n)} {count : ℕ} {found : Bool}
    (counted : countMatches p N peers count = some found) : found = false := by
  induction peers with
  | nil => simpa [countMatches] using counted.symm
  | cons i rest ih =>
    unfold countMatches at counted
    by_cases reaches : p.matchIndex i ≥ N
    · rw [if_pos reaches, outside] at counted
      exact absurd counted (by simp)
    · rw [if_neg reaches] at counted
      exact ih counted

theorem countMatches_exact (size : 2 ≤ n) {p : Peer n C} {N : ℤ} {found : Bool}
    (counted : countMatches p N (List.finRange n) 1 = some found) :
    found = true ↔ Committable p N := by
  cases there : index p.log N with
  | none =>
    rw [countMatches_outside there counted]
    simp [Committable, there]
  | some entry =>
    by_cases own : entry.term = p.currentTerm
    · rw [countMatches_own there own _ (by omega), Option.some.injEq] at counted
      rw [← counted, decide_eq_true_eq, Committable, card_filter_finRange]
      exact ⟨fun many => ⟨⟨entry, there, own⟩, many⟩, And.right⟩
    · rw [countMatches_other there own, Option.some.injEq] at counted
      rw [← counted]
      simp [Committable, there, own]

theorem countMatches_total (size : 2 ≤ n) {p : Peer n C} {N : ℤ} (nonneg : 0 ≤ N)
    (inside : N < p.log.length) :
    ∃ found, countMatches p N (List.finRange n) 1 = some found := by
  have there : index p.log N = some (p.log.get ⟨N.toNat, by omega⟩) :=
    index_eq_some.mpr ⟨nonneg, List.getElem?_eq_getElem (by omega)⟩
  by_cases own : (p.log.get ⟨N.toNat, by omega⟩).term = p.currentTerm
  · exact ⟨_, countMatches_own there own _ (by omega)⟩
  · exact ⟨_, countMatches_other there own _ _⟩

theorem commitLoop_done (fuel : ℕ) {N : ℤ} (below : N ≤ rf.commitIndex) :
    commitLoop fuel N rf = some rf := by
  cases fuel with
  | zero => rfl
  | succ fuel => rw [commitLoop, if_neg (by omega)]

theorem commitLoop_exact (size : 2 ≤ n) {rf rf' : Raft n C} {fuel : ℕ} {N : ℤ}
    (looped : commitLoop fuel N rf = some rf') (enough : (N - rf.commitIndex).toNat ≤ fuel) :
    (∃ M, rf' = { rf with commitIndex := M } ∧
        IsGreatest {M | rf.commitIndex < M ∧ M ≤ N ∧ Committable rf.toPeer M} M) ∨
      (rf' = rf ∧ ∀ M, rf.commitIndex < M → M ≤ N → ¬ Committable rf.toPeer M) := by
  -- counting down, the first index that may be committed is the greatest
  induction fuel generalizing N with
  | zero =>
    rw [commitLoop, Option.some.injEq] at looped
    exact .inr ⟨looped.symm, fun M low high => by omega⟩
  | succ fuel ih =>
    by_cases above : N > rf.commitIndex
    · rw [commitLoop, if_pos above] at looped
      obtain ⟨found, counted, rest⟩ := Option.bind_eq_some_iff.mp looped
      have exact_iff := countMatches_exact size counted
      cases found with
      | true =>
        simp only [if_true] at rest
        rw [commitLoop_done fuel (by simp only; omega), Option.some.injEq] at rest
        exact .inl ⟨N, rest.symm, ⟨above, le_rfl, exact_iff.mp rfl⟩, fun M member => member.2.1⟩
      | false =>
        simp only [Bool.false_eq_true, if_false] at rest
        have not_here : ¬ Committable rf.toPeer N := by simpa using exact_iff
        -- nothing is lost by leaving `N` out
        have lower : ∀ M, M ≤ N → Committable rf.toPeer M → M ≤ N - 1 := by
          intro M high may
          rcases eq_or_ne M N with same | apart
          · rw [same] at may
            exact absurd may not_here
          · omega
        rcases ih rest (by omega) with ⟨M, same, ⟨low, high, may⟩, greatest⟩ | ⟨same, nowhere⟩
        · refine .inl ⟨M, same, ⟨low, by omega, may⟩, fun K member => ?_⟩
          exact greatest ⟨member.1, lower K member.2.1 member.2.2, member.2.2⟩
        · exact .inr ⟨same, fun M low high may => nowhere M low (lower M high may) may⟩
    · rw [commitLoop, if_neg above, Option.some.injEq] at looped
      exact .inr ⟨looped.symm, fun M low high => by omega⟩

theorem commitLoop_total (size : 2 ≤ n) (rf : Raft n C) (bound : -1 ≤ rf.commitIndex)
    (fuel : ℕ) {N : ℤ} (inside : N < rf.log.length) : ∃ rf', commitLoop fuel N rf = some rf' := by
  -- the loop leaves the log only below `-1`
  induction fuel generalizing N with
  | zero => exact ⟨rf, rfl⟩
  | succ fuel ih =>
    by_cases above : N > rf.commitIndex
    · have ⟨found, counted⟩ := countMatches_total size (p := rf.toPeer) (N := N) (by omega) inside
      rw [commitLoop, if_pos above, counted, Option.bind_some]
      cases found with
      | true => exact ⟨_, commitLoop_done fuel (by simp only [if_true]; omega)⟩
      | false => exact ih (by omega)
    · exact ⟨rf, commitLoop_done _ (by omega)⟩

theorem handleAppendEntries_counts {serverTo : Fin n} {args : AppendEntriesArgs n C}
    {reply : AppendEntriesReply} (current : args.term = rf.currentTerm)
    (success : reply.success = true) :
    handleAppendEntries rf serverTo args reply =
      (commitLoop (rf.log.length - 1 - rf.commitIndex).toNat (rf.log.length - 1)
        (recordMatch (lock rf) serverTo args)).map unlock := by
  have same : ¬ args.term ≠ (lock rf).currentTerm := not_not.mpr current
  simp only [handleAppendEntries]
  rw [if_neg same, if_pos success]
  rfl

theorem handleAppendEntries_success (size : 2 ≤ n) {rf rf' : Raft n C} {serverTo : Fin n}
    {args : AppendEntriesArgs n C} {reply : AppendEntriesReply}
    (current : args.term = rf.currentTerm) (success : reply.success = true)
    (ran : handleAppendEntries rf serverTo args reply = some rf') :
    ∃ M, rf'.toPeer = { rf.toPeer.matched serverTo args with commitIndex := M } ∧
      (IsGreatest {N | rf.commitIndex < N ∧ N ≤ rf.log.length - 1 ∧
          Committable (rf.toPeer.matched serverTo args) N} M ∨
        (∀ N, rf.commitIndex < N → N ≤ rf.log.length - 1 →
            ¬ Committable (rf.toPeer.matched serverTo args) N) ∧
          M = rf.commitIndex) := by
  rw [handleAppendEntries_counts current success] at ran
  have ⟨after, looped, released⟩ := Option.map_eq_some_iff.mp ran
  rw [← released]
  -- the record with which the loop starts
  rcases commitLoop_exact size looped le_rfl with ⟨M, same, greatest⟩ | ⟨same, nowhere⟩
  · refine ⟨M, ?_, .inl greatest⟩
    rw [same]
    rfl
  · refine ⟨rf.commitIndex, ?_, .inr ⟨nowhere, rfl⟩⟩
    rw [same]
    rfl

theorem handleAppendEntries_total (size : 2 ≤ n) (rf : Raft n C) (serverTo : Fin n)
    (args : AppendEntriesArgs n C) (reply : AppendEntriesReply)
    (bound : -1 ≤ rf.commitIndex) :
    ∃ rf', handleAppendEntries rf serverTo args reply = some rf' := by
  by_cases counts : args.term = rf.currentTerm ∧ reply.success = true
  · have ⟨after, looped⟩ := commitLoop_total size (recordMatch (lock rf) serverTo args) bound
      (rf.log.length - 1 - rf.commitIndex).toNat (N := rf.log.length - 1)
      (Int.sub_one_lt_of_le le_rfl)
    rw [handleAppendEntries_counts counts.1 counts.2, looped]
    exact ⟨unlock after, rfl⟩
  · simp only [handleAppendEntries]
    split
    · exact ⟨_, rfl⟩
    · rename_i same
      rw [if_neg fun success => counts ⟨not_not.mp same, success⟩]
      split
      · exact ⟨_, rfl⟩
      · split <;> exact ⟨_, rfl⟩

/-- The commit rule is exact whenever the handler returns, which it does from
every commit index that does not send the loop below the log. -/
theorem handleAppendEntries_commits (size : 2 ≤ n) (rf : Raft n C) (serverTo : Fin n)
    (args : AppendEntriesArgs n C) (reply : AppendEntriesReply)
    (current : args.term = rf.currentTerm) (success : reply.success = true) :
    (-1 ≤ rf.commitIndex → ∃ rf', handleAppendEntries rf serverTo args reply = some rf') ∧
      ∀ rf', handleAppendEntries rf serverTo args reply = some rf' →
        rf'.matchIndex = (rf.toPeer.matched serverTo args).matchIndex ∧
        (IsGreatest {N | rf.commitIndex < N ∧ N ≤ rf.log.length - 1 ∧
            Committable (rf.toPeer.matched serverTo args) N} rf'.commitIndex ∨
          (∀ N, rf.commitIndex < N → N ≤ rf.log.length - 1 →
              ¬ Committable (rf.toPeer.matched serverTo args) N) ∧
            rf'.commitIndex = rf.commitIndex) := by
  refine ⟨handleAppendEntries_total size rf serverTo args reply, fun rf' ran => ?_⟩
  have ⟨M, after, result⟩ := handleAppendEntries_success size current success ran
  rw [after]
  exact ⟨rfl, result⟩

def waiting : Raft 2 ℕ :=
  { (make : Raft 2 ℕ) with currentTerm := 1, state := .leader, log := [⟨0, 0⟩, ⟨7, 1⟩] }

theorem handleAppendEntries_commits_waiting :
    ∃ rf', handleAppendEntries waiting 1 ⟨1, 0, 0, 0, [⟨7, 1⟩], 0⟩ ⟨1, true, 0, 0⟩ = some rf' ∧
      rf'.matchIndex = (waiting.matched 1 ⟨1, 0, 0, 0, [⟨7, 1⟩], 0⟩).matchIndex ∧
      (IsGreatest {N | waiting.commitIndex < N ∧ N ≤ waiting.log.length - 1 ∧
          Committable (waiting.matched 1 ⟨1, 0, 0, 0, [⟨7, 1⟩], 0⟩) N} rf'.commitIndex ∨
        (∀ N, waiting.commitIndex < N → N ≤ waiting.log.length - 1 →
            ¬ Committable (waiting.matched 1 ⟨1, 0, 0, 0, [⟨7, 1⟩], 0⟩) N) ∧
          rf'.commitIndex = waiting.commitIndex) := by
  have ⟨returns, commits⟩ := handleAppendEntries_commits le_rfl waiting 1
    ⟨1, 0, 0, 0, [⟨7, 1⟩], 0⟩ ⟨1, true, 0, 0⟩ rfl rfl
  have ⟨rf', ran⟩ := returns (by decide)
  exact ⟨rf', ran, commits rf' ran⟩

end Committing

end DistributedLabs.RaftReplication
