import DistributedLabs.GuardedRuns
import DistributedLabs.RaftReplication

/-! Heartbeat rounds between a leader and one follower whose logs have diverged.
A refusal comes with hints, from which the leader chooses where to retry; the
rounds end with the leader's log at the follower. -/

namespace DistributedLabs.RaftBacktracking

open GuardedRuns RaftPeer RaftReplication

variable {n : ℕ} {C : Type}

/-- A log that opens with the sentinel of term zero and then has positive terms
that never decrease. -/
structure Termed (log : List (LogEntry C)) : Prop where
  root : log[0]?.map LogEntry.term = some 0
  positive : ∀ (k : ℕ) (e : LogEntry C), log[k]? = some e → k ≠ 0 → 1 ≤ e.term
  sorted : ∀ (j k : ℕ) (e f : LogEntry C), j ≤ k → log[j]? = some e → log[k]? = some f →
    e.term ≤ f.term

def StartsAt (log : List (LogEntry C)) (t k : ℕ) : Prop :=
  log[k]?.map LogEntry.term = some t ∧ ∀ j < k, log[j]?.map LogEntry.term ≠ some t

/-- A leader's and a follower's log as Raft lets them differ. -/
structure Aligned (L F : List (LogEntry C)) : Prop where
  leader : Termed L
  follower : Termed F
  agree : ∀ (k : ℕ) (e f : LogEntry C), L[k]? = some e → F[k]? = some f → e.term = f.term →
    L.take (k + 1) = F.take (k + 1)
  starts : ∀ t j k, StartsAt L t j → StartsAt F t k → j = k

theorem term_eq {log : List (LogEntry C)} {k t : ℕ} :
    log[k]?.map LogEntry.term = some t ↔ ∃ e, log[k]? = some e ∧ e.term = t :=
  Option.map_eq_some_iff

theorem exists_startsAt {log : List (LogEntry C)} {t k : ℕ}
    (occurs : log[k]?.map LogEntry.term = some t) : ∃ j ≤ k, StartsAt log t j := by
  classical
  have present : ∃ j, log[j]?.map LogEntry.term = some t := ⟨k, occurs⟩
  exact ⟨Nat.find present, Nat.find_min' present occurs, Nat.find_spec present,
    fun j below => Nat.find_min present below⟩

theorem Termed.ne_nil {log : List (LogEntry C)} (termed : Termed log) : log ≠ [] := by
  intro empty
  have root := termed.root
  simp [empty] at root

theorem conflictScan_block {log : List (LogEntry C)} {conflictTerm i k : ℕ}
    (low : conflictScan log conflictTerm i ≤ k) (high : k ≤ i) :
    log[k]?.map LogEntry.term = some conflictTerm := by
  induction i with
  | zero =>
    obtain rfl : k = 0 := by omega
    by_contra other
    rw [conflictScan, if_pos other] at low
    omega
  | succ i ih =>
    unfold conflictScan at low
    split at low
    · omega
    · rename_i same
      rcases Nat.lt_or_ge i k with last | earlier
      · obtain rfl : k = i + 1 := by omega
        exact not_not.mp same
      · exact ih low earlier

theorem searchTerm_cases (log : List (LogEntry C)) (t i : ℕ) :
    (searchTerm log t i = -1 ∧ ∀ k < i, log[k]?.map LogEntry.term ≠ some t) ∨
    ∃ j < i, searchTerm log t i = j ∧ log[j]?.map LogEntry.term = some t ∧
      ∀ k, j < k → k < i → log[k]?.map LogEntry.term ≠ some t := by
  have cast : ∀ k : ℕ, log[k]?.map (fun entry => (entry.term : ℤ)) = some (t : ℤ) ↔
      log[k]?.map LogEntry.term = some t := by
    intro k
    cases log[k]? <;> simp
  induction i with
  | zero => exact .inl ⟨rfl, fun k below => by omega⟩
  | succ i ih =>
    unfold searchTerm
    by_cases here : log[i]?.map LogEntry.term = some t
    · rw [if_pos ((cast i).mpr here)]
      exact .inr ⟨i, i.lt_succ_self, rfl, here, fun k above below => by omega⟩
    · rw [if_neg fun same => here ((cast i).mp same)]
      have extend : ∀ k, (k < i → log[k]?.map LogEntry.term ≠ some t) → k < i + 1 →
          log[k]?.map LogEntry.term ≠ some t := by
        intro k before below
        rcases Nat.lt_succ_iff_lt_or_eq.mp below with earlier | last
        · exact before earlier
        · rwa [last]
      rcases ih with ⟨ended, absent⟩ | ⟨j, inside, found, own, after⟩
      · exact .inl ⟨ended, fun k below => extend k (absent k) below⟩
      · exact .inr ⟨j, by omega, found, own, fun k above below => extend k (after k above) below⟩

theorem searchTerm_negative (log : List (LogEntry C)) (i : ℕ) : searchTerm log (-1) i = -1 := by
  induction i with
  | zero => rfl
  | succ i ih =>
    have other : log[i]?.map (fun entry => (entry.term : ℤ)) ≠ some (-1) := by
      cases log[i]? with
      | none => simp
      | some entry =>
        simp only [Option.map_some, ne_eq, Option.some.injEq]
        omega
    rw [searchTerm, if_neg other, ih]

def Apart (L F : List (LogEntry C)) (k : ℕ) : Prop :=
  ∀ t, L[k]?.map LogEntry.term = some t → F[k]?.map LogEntry.term ≠ some t

theorem last_of_term {L F : List (LogEntry C)} (aligned : Aligned L F) {t p j : ℕ}
    (held : F[p]?.map LogEntry.term = some t) (other : L[p]?.map LogEntry.term ≠ some t)
    (inside : p < L.length) (own : L[j]?.map LogEntry.term = some t)
    (after : ∀ k, j < k → k < L.length → L[k]?.map LogEntry.term ≠ some t) :
    j < p ∧ Apart L F (j + 1) := by
  have ⟨a, beforeL, startL⟩ := exists_startsAt own
  have ⟨b, beforeF, startF⟩ := exists_startsAt held
  obtain rfl := aligned.starts t a b startL startF
  have ⟨e, atJ, ofJ⟩ := term_eq.mp own
  have ⟨f, atP, ofP⟩ := term_eq.mp held
  have ⟨first, atA, ofA⟩ := term_eq.mp startL.1
  have ⟨first', atA', ofA'⟩ := term_eq.mp startF.1
  have ⟨g, atPL⟩ : ∃ g, L[p]? = some g := ⟨_, List.getElem?_eq_getElem inside⟩
  have below : j < p := by
    by_contra beyond
    -- the leader's entry at `p` would lie inside its own block of the term
    have low := aligned.leader.sorted a p _ _ beforeF atA atPL
    have high := aligned.leader.sorted p j _ _ (not_lt.mp beyond) atPL atJ
    exact other (term_eq.mpr ⟨g, atPL, by omega⟩)
  refine ⟨below, fun s leads holds => ?_⟩
  have ⟨h, atNext, ofNext⟩ := term_eq.mp holds
  have low := aligned.follower.sorted a (j + 1) _ _ (by omega) atA' atNext
  have high := aligned.follower.sorted (j + 1) p _ _ below atNext atP
  have same : s = t := by omega
  rw [same] at leads
  exact after (j + 1) j.lt_succ_self (by omega) leads

theorem retry_apart {L : List (LogEntry C)} {follower : Peer n C}
    (aligned : Aligned L follower.log) {args : AppendEntriesArgs n C}
    {reply : AppendEntriesReply} {p : ℕ} {prev : LogEntry C} (position : args.prevLogIndex = p)
    (found : L[p]? = some prev) (carried : args.prevLogTerm = prev.term)
    (refusal : Refusal follower args reply) :
    ∃ k, nextAfterConflict L reply = (k : ℕ) ∧ 1 ≤ k ∧ k ≤ p ∧ Apart L follower.log k := by
  have inside := (List.getElem?_eq_some_iff.mp found).1
  rcases refusal with ⟨beyond, rooted, replied⟩ | ⟨stored, there, differs, replied⟩
  · refine ⟨follower.log.length, ?_, List.length_pos_iff.mpr rooted, by omega, ?_⟩
    · rw [replied]
      simp [nextAfterConflict, searchTerm_negative]
    · intro t _
      simp
  · rw [position, index_natCast] at there
    rw [position, Int.toNat_natCast] at replied
    have held : follower.log[p]?.map LogEntry.term = some stored.term := by simp [there]
    have other : L[p]?.map LogEntry.term ≠ some stored.term := by
      rw [found, Option.map_some, ne_eq, Option.some.injEq, ← carried]
      exact Ne.symm differs
    -- the sentinels agree, so the conflict is behind them and its term positive
    have behind : p ≠ 0 := by
      rintro rfl
      rw [aligned.follower.root] at held
      rw [aligned.leader.root] at other
      exact other held
    have positive := aligned.follower.positive p stored there behind
    have jump : nextAfterConflict L reply =
        if searchTerm L stored.term L.length ≠ -1 then searchTerm L stored.term L.length + 1
        else conflictScan follower.log stored.term p := by
      rw [replied, nextAfterConflict, if_pos (by simp only; omega)]
    rcases searchTerm_cases L stored.term L.length with
      ⟨none, absent⟩ | ⟨j, _, last, own, after⟩
    · rw [none, if_neg (not_not.mpr rfl)] at jump
      have root : follower.log[0]?.map LogEntry.term ≠ some stored.term := by
        rw [aligned.follower.root]
        simp only [ne_eq, Option.some.injEq]
        omega
      have low := conflictScan_pos root p
      have high := conflictScan_le there
      have ⟨k, scanned⟩ := Int.eq_ofNat_of_zero_le (a := conflictScan follower.log stored.term p)
        (by omega)
      refine ⟨k, jump.trans scanned, by omega, by omega, fun t leads holds => ?_⟩
      have block := conflictScan_block (k := k) scanned.le (by omega)
      have same : t = stored.term := Option.some.inj (holds.symm.trans block)
      rw [same] at leads
      exact absent k (by omega) leads
    · have ⟨below, apart⟩ := last_of_term aligned held other inside own after
      rw [last, if_pos (by omega)] at jump
      exact ⟨j + 1, by rw [jump]; rfl, by omega, below, apart⟩

structure Link (n : ℕ) (C : Type) where
  leader : Raft n C
  follower : Raft n C

/-- One heartbeat round as peer `i` takes part in it: the request, the answer
and the handling of the reply, with nothing in between. -/
def round (me i : Fin n) (s : Link n C) : Option (Link n C × Bool) := do
  let (leader, sent) ← sendHeartBeats me s.leader
  let requests ← sent
  let (_, args) ← requests.find? fun request => request.1 = i
  let (follower, reply) ← appendEntries s.follower args
  let leader ← handleAppendEntries leader i args reply
  some (⟨leader, follower⟩, reply.success)

def rejected (me i : Fin n) (s : Link n C) (_ : Unit) : Option (Link n C) :=
  (round me i s).bind fun out => if out.2 then none else some out.1

theorem heartbeatArgs_at {me k : Fin n} {rf : Peer n C} {p : ℕ} {prev : LogEntry C}
    (next : rf.nextIndex k = p + 1) (found : rf.log[p]? = some prev) :
    heartbeatArgs me rf k =
      some ⟨rf.currentTerm, me, p, prev.term, rf.log.drop (p + 1), rf.commitIndex⟩ := by
  have place : index rf.log (rf.nextIndex k - 1) = some prev := by
    rw [next, add_sub_cancel_right, index_natCast, found]
  have ⟨args, built⟩ : ∃ args, heartbeatArgs me rf k = some args := by
    rw [heartbeatArgs, place]
    exact ⟨_, rfl⟩
  have ⟨q, entry, there, same⟩ := heartbeatArgs_eq built
  have position : args.prevLogIndex = rf.nextIndex k - 1 := by
    have ⟨_, _, shape⟩ := Option.map_eq_some_iff.mp built
    rw [← shape]
  rw [same] at position
  obtain rfl : q = p := by
    simp only at position
    omega
  obtain rfl : entry = prev := Option.some.inj (there.symm.trans found)
  rw [built, same]

theorem heartbeatArgs_total {me k : Fin n} {rf : Peer n C} (low : 1 ≤ rf.nextIndex k)
    (high : rf.nextIndex k ≤ rf.log.length) : ∃ args, heartbeatArgs me rf k = some args :=
  ⟨_, heartbeatArgs_at (p := (rf.nextIndex k - 1).toNat) (by omega)
    (List.getElem?_eq_getElem (by omega))⟩

theorem broadcast_total (me : Fin n) (rf : Peer n C)
    (ready : ∀ k, k ≠ me → ∃ args, heartbeatArgs me rf k = some args) (peers : List (Fin n)) :
    ∃ sent, broadcast me rf peers = some sent ∧
      ∀ k ∈ peers, k ≠ me → ∃ args, (k, args) ∈ sent := by
  induction peers with
  | nil => exact ⟨[], rfl, by simp⟩
  | cons k rest ih =>
    obtain ⟨sent, built, covers⟩ := ih
    by_cases self : k = me
    · refine ⟨sent, by rw [broadcast, if_pos self, built], fun j member apart => ?_⟩
      rcases List.mem_cons.mp member with same | later
      · exact absurd (same.trans self) apart
      · exact covers j later apart
    · obtain ⟨args, first⟩ := ready k self
      refine ⟨(k, args) :: sent, ?_, fun j member apart => ?_⟩
      · rw [broadcast, if_neg self, first, Option.bind_some, built, Option.map_some]
      · rcases List.mem_cons.mp member with same | later
        · exact ⟨args, by rw [same]; exact List.mem_cons_self⟩
        · obtain ⟨others, inSent⟩ := covers j later apart
          exact ⟨others, List.mem_cons_of_mem _ inSent⟩

/-- What rejected rounds keep: the two logs stand as they were, and the next
request starts at a place where they differ. -/
structure Probing (me i : Fin n) (L F : List (LogEntry C)) (s : Link n C) : Prop where
  leading : s.leader.state = .leader
  log : s.leader.log = L
  held : s.follower.log = F
  term : s.follower.currentTerm ≤ s.leader.currentTerm
  commit : -1 ≤ s.leader.commitIndex
  range : ∀ k, k ≠ me → 1 ≤ s.leader.nextIndex k ∧ s.leader.nextIndex k ≤ L.length
  next : ∃ k : ℕ, s.leader.nextIndex i = k ∧ Apart L F k

variable {me i : Fin n} {L F : List (LogEntry C)} {s : Link n C}

theorem Probing.request (h : Probing me i L F s) (other : i ≠ me) :
    ∃ p prev, s.leader.nextIndex i = (p : ℕ) + 1 ∧ L[p]? = some prev ∧
      round me i s =
        (let args := ⟨s.leader.currentTerm, me, p, prev.term, L.drop (p + 1),
          s.leader.commitIndex⟩
        (appendEntries s.follower args).bind fun out =>
          (handleAppendEntries (unlock (lock s.leader)) i args out.2).map fun leader =>
            (⟨leader, out.1⟩, out.2.success)) := by
  have ⟨low, high⟩ := h.range i other
  have inside : (s.leader.nextIndex i - 1).toNat < L.length := by omega
  have next : s.leader.nextIndex i = ((s.leader.nextIndex i - 1).toNat : ℕ) + 1 := by omega
  have found := List.getElem?_eq_getElem inside
  refine ⟨_, _, next, found, ?_⟩
  have ready : ∀ k, k ≠ me → ∃ args, heartbeatArgs me s.leader.toPeer k = some args := by
    intro k apart
    have ⟨low, high⟩ := h.range k apart
    rw [← h.log] at high
    exact heartbeatArgs_total low high
  have ⟨sent, built, covers⟩ := broadcast_total me s.leader.toPeer ready (List.finRange n)
  have ⟨mine, inSent⟩ := covers i (List.mem_finRange i) other
  have present : (sent.find? fun request => request.1 = i).isSome := by
    rw [List.find?_isSome]
    exact ⟨_, inSent, by simp⟩
  have ⟨request, picked⟩ := Option.isSome_iff_exists.mp present
  have receiver : request.1 = i := by simpa using List.find?_some picked
  have made := (broadcast_mem built (List.mem_of_find?_eq_some picked)).2
  rw [receiver, heartbeatArgs_at next (by rw [h.log]; exact found)] at made
  have carried := Option.some.inj made
  rw [h.log] at carried
  have round_sent : sendHeartBeats me s.leader = some (unlock (lock s.leader), some sent) := by
    have still : ¬ (lock s.leader).state ≠ .leader := not_not.mpr h.leading
    have same : broadcast me (lock s.leader).toPeer (List.finRange n) = some sent := built
    simp only [sendHeartBeats]
    rw [if_neg still, same, Option.map_some]
  simp only [round, round_sent, picked, Option.bind_eq_bind, Option.bind_some, ← carried]
  congr 1
  funext out
  rw [Option.map_eq_bind]
  rfl

theorem handleAppendEntries_retries (rf : Raft n C) (i : Fin n) {args : AppendEntriesArgs n C}
    {reply : AppendEntriesReply} (current : args.term = rf.currentTerm)
    (failure : reply.success = false) (same : reply.term = rf.currentTerm)
    (leading : rf.state = .leader) :
    ∃ rf', handleAppendEntries rf i args reply = some rf' ∧
      rf'.toPeer = rf.toPeer.retry i reply := by
  refine ⟨unlock { lock rf with
    nextIndex := Function.update rf.nextIndex i (nextAfterConflict rf.log reply) }, ?_, rfl⟩
  simp [handleAppendEntries, lock, current, failure, same, leading]

theorem Probing.retry (h : Probing me i L F s) (aligned : Aligned L F) {p : ℕ}
    {prev : LogEntry C} (next : s.leader.nextIndex i = p + 1) (found : L[p]? = some prev)
    {args : AppendEntriesArgs n C} {reply : AppendEntriesReply}
    (position : args.prevLogIndex = p) (carried : args.prevLogTerm = prev.term)
    (term : args.term = s.leader.currentTerm) (refusal : Refusal s.follower.toPeer args reply)
    {follower : Raft n C} (after : follower.toPeer = s.follower.toPeer.stepUp args.term) :
    ∃ leader, handleAppendEntries (unlock (lock s.leader)) i args reply = some leader ∧
      Probing me i L F ⟨leader, follower⟩ ∧ leader.nextIndex i < s.leader.nextIndex i := by
  have replied : reply.success = false ∧ reply.term = s.leader.currentTerm := by
    rcases refusal with ⟨_, _, same⟩ | ⟨_, _, _, same⟩
    · rw [same]
      exact ⟨rfl, term⟩
    · rw [same]
      exact ⟨rfl, term⟩
  have held : Aligned L s.follower.log := by
    rw [h.held]
    exact aligned
  have ⟨k, jump, low, high, apart⟩ := retry_apart held position found carried refusal
  have ⟨leader, ran, shape⟩ := handleAppendEntries_retries (unlock (lock s.leader)) i
    term replied.1 replied.2 h.leading
  have inside := (List.getElem?_eq_some_iff.mp found).1
  have moved : leader.nextIndex = Function.update s.leader.nextIndex i (k : ℤ) := by
    rw [shape, ← jump, ← h.log]
    rfl
  have there : leader.nextIndex i = k := by rw [moved, Function.update_self]
  refine ⟨leader, ran, ?_, by omega⟩
  constructor
  · rw [shape]
    exact h.leading
  · rw [shape]
    exact h.log
  · rw [after, stepUp_log]
    exact h.held
  · have bound := h.term
    rw [shape, after, stepUp_currentTerm, term]
    exact max_le bound le_rfl
  · rw [shape]
    exact h.commit
  · intro j apart'
    rcases eq_or_ne j i with same | different
    · rw [same, there]
      omega
    · rw [moved, Function.update_of_ne different]
      exact h.range j apart'
  · refine ⟨k, there, ?_⟩
    rw [← h.held]
    exact apart

theorem mergeEntries_completes (aligned : Aligned L F) {p : ℕ} {prev stored : LogEntry C}
    (found : L[p]? = some prev) (there : F[p]? = some stored) (same : stored.term = prev.term)
    (apart : Apart L F (p + 1)) {args : AppendEntriesArgs n C}
    (position : args.prevLogIndex = p) (entries : args.entries = L.drop (p + 1)) :
    (mergeEntries F args.prevLogIndex args.entries).take L.length = L := by
  have agree := aligned.agree p prev stored found there same.symm
  have inside := (List.getElem?_eq_some_iff.mp found).1
  rcases Nat.lt_or_ge (p + 1) L.length with more | ends
  · have carries : args.entries ≠ [] := by
      rw [entries]
      exact List.length_pos_iff.mp (by rw [List.length_drop]; omega)
    have fresh : ¬ Overlaps F args := by
      intro ⟨first, head, next, at_next, clash⟩
      rw [entries, List.head?_drop, Option.mem_def] at head
      rw [position, Option.mem_def, ← Nat.cast_succ, index_natCast] at at_next
      refine apart first.term (by rw [head]; rfl) ?_
      rw [at_next, Option.map_some, clash]
    rw [mergeEntries_fresh (by omega) fresh carries, position, Int.toNat_natCast, ← agree, entries,
      List.take_append_drop, List.take_length]
  · have whole : L.length = p + 1 := by omega
    have empty : args.entries = [] := by rw [entries, List.drop_of_length_le ends]
    rw [empty]
    simp only [mergeEntries, Bool.false_eq_true, if_false, List.append_nil]
    rw [whole, ← agree, ← whole, List.take_length]

theorem Probing.outcome (h : Probing me i L F s) (aligned : Aligned L F) (other : i ≠ me) :
    ∃ t accepted, round me i s = some (t, accepted) ∧
      (accepted = false → Probing me i L F t ∧ t.leader.nextIndex i < s.leader.nextIndex i) ∧
      (accepted = true → t.follower.log.take L.length = L ∧
        t.leader.matchIndex i = L.length - 1 ∧ t.leader.nextIndex i = L.length) := by
  have ⟨p, prev, next, found, shape⟩ := h.request other
  have inside := (List.getElem?_eq_some_iff.mp found).1
  have rooted : s.follower.log ≠ [] := by
    rw [h.held]
    exact aligned.follower.ne_nil
  rw [shape]
  dsimp only
  have ⟨follower, reply, ran⟩ := appendEntries_total s.follower
    ⟨s.leader.currentTerm, me, p, prev.term, L.drop (p + 1), s.leader.commitIndex⟩
    rooted (Int.natCast_nonneg p)
  rw [ran, Option.bind_some]
  rcases appendEntries_cases ran with
    ⟨stale, _⟩ | ⟨_, refusal, after⟩ | ⟨stored, _, there, same, replied, after⟩
  · exact absurd stale (not_lt.mpr h.term)
  · have ⟨leader, handled, probing, back⟩ :=
      h.retry aligned next found rfl rfl rfl refusal after
    rw [handled]
    refine ⟨⟨leader, follower⟩, reply.success, rfl, fun _ => ⟨probing, back⟩, fun success => ?_⟩
    exact absurd (success.symm.trans refusal.hint.1) (by decide)
  · have size : 2 ≤ n := by
      have apart : (i : ℕ) ≠ me := Fin.val_ne_of_ne other
      omega
    have success : reply.success = true := by rw [replied]
    have ⟨leader, handled⟩ := handleAppendEntries_total size (unlock (lock s.leader)) i
      ⟨s.leader.currentTerm, me, p, prev.term, L.drop (p + 1), s.leader.commitIndex⟩ reply
      h.commit
    have ⟨M, result, _⟩ := handleAppendEntries_success size rfl success handled
    rw [handled]
    refine ⟨⟨leader, follower⟩, reply.success, rfl, fun failure => ?_, fun _ => ⟨?_, ?_, ?_⟩⟩
    · simp [replied] at failure
    · have ⟨k, here, apart⟩ := h.next
      obtain rfl : k = p + 1 := by omega
      simp only [index_natCast, h.held] at there
      rw [after, Peer.accepted, h.held]
      exact mergeEntries_completes aligned found there same apart rfl rfl
    · rw [result]
      simp only [Peer.matched, Function.update_self, List.length_drop]
      omega
    · rw [result]
      simp only [Peer.matched, Function.update_self, List.length_drop]
      omega

theorem rejected_some {t : Link n C} {a : Unit} (taken : rejected me i s a = some t) :
    round me i s = some (t, false) := by
  have ⟨⟨u, accepted⟩, ran, kept⟩ := Option.bind_eq_some_iff.mp taken
  cases accepted with
  | true => exact absurd kept.symm (Option.some_ne_none t)
  | false =>
    rw [ran]
    exact congrArg (fun u => some (u, false)) (Option.some.inj kept)

theorem Probing.run (h : Probing me i L F s) (aligned : Aligned L F) (other : i ≠ me)
    {t : Link n C} (run : Run (rejected me i) free s t) : Probing me i L F t := by
  refine run.invariant (Probing me i L F) (fun {t u _} probing _ taken => ?_) h
  have ⟨v, accepted, ran, again, _⟩ := probing.outcome aligned other
  rw [rejected_some taken, Option.some.injEq, Prod.mk.injEq] at ran
  rw [ran.1]
  exact (again ran.2.symm).1

theorem Probing.accepted_eventually (aligned : Aligned L F) (other : i ≠ me) (bound : ℕ) :
    ∀ {s : Link n C}, Probing me i L F s → s.leader.nextIndex i ≤ bound →
      ∃ t u, Run (rejected me i) free s t ∧ round me i t = some (u, true) := by
  -- the measure is `nextIndex`, which every rejected round lowers and which stays positive
  induction bound with
  | zero =>
    intro s h low
    have positive := (h.range i other).1
    omega
  | succ bound ih =>
    intro s h low
    have ⟨t, accepted, ran, again, _⟩ := h.outcome aligned other
    cases accepted with
    | true => exact ⟨s, t, .refl, ran⟩
    | false =>
      have ⟨probing, back⟩ := again rfl
      have ⟨u, v, later, done⟩ := ih probing (by omega)
      have step : rejected me i s () = some t := by
        rw [rejected, ran]
        rfl
      exact ⟨u, v, (Run.refl.tail trivial step).trans later, done⟩

/-- Fast backtracking converges: rejected rounds only move `nextIndex` back, one
is accepted after finitely many, and then the follower has the leader's log. -/
theorem backtracking_converges (me i : Fin n) (other : i ≠ me) (s : Link n C)
    (aligned : Aligned s.leader.log s.follower.log) (leading : s.leader.state = .leader)
    (term : s.follower.currentTerm ≤ s.leader.currentTerm)
    (commit : -1 ≤ s.leader.commitIndex)
    (range : ∀ k, k ≠ me →
      1 ≤ s.leader.nextIndex k ∧ s.leader.nextIndex k ≤ s.leader.log.length)
    (next : s.leader.nextIndex i = s.leader.log.length) :
    (∀ t, Run (rejected me i) free s t →
      ∃ u accepted, round me i t = some (u, accepted) ∧
        (accepted = false → u.leader.nextIndex i < t.leader.nextIndex i ∧
          u.follower.log = s.follower.log) ∧
        (accepted = true → u.follower.log.take s.leader.log.length = s.leader.log ∧
          u.leader.matchIndex i = s.leader.log.length - 1 ∧
          u.leader.nextIndex i = s.leader.log.length)) ∧
    ∃ t u, Run (rejected me i) free s t ∧ round me i t = some (u, true) := by
  -- there is no entry at `nextIndex` yet, so nothing there can be the same
  have start : Probing me i s.leader.log s.follower.log s :=
    ⟨leading, rfl, rfl, term, commit, range, s.leader.log.length, next, fun t held => by
      simp at held⟩
  refine ⟨fun t run => ?_, start.accepted_eventually aligned other _ next.le⟩
  have ⟨u, accepted, ran, again, done⟩ := (start.run aligned other run).outcome aligned other
  refine ⟨u, accepted, ran, fun failure => ?_, done⟩
  have ⟨probing, back⟩ := again failure
  exact ⟨back, probing.held⟩

def conflicting : Link 2 ℕ where
  leader := { (make : Raft 2 ℕ) with
    currentTerm := 2
    state := .leader
    log := [⟨0, 0⟩, ⟨7, 2⟩]
    nextIndex := fun _ => 2 }
  follower := { (make : Raft 2 ℕ) with currentTerm := 1, log := [⟨0, 0⟩, ⟨5, 1⟩] }

theorem termed_pair {a b : ℕ} {t : ℕ} (positive : 1 ≤ t) :
    Termed ([⟨a, 0⟩, ⟨b, t⟩] : List (LogEntry ℕ)) where
  root := rfl
  positive k e found behind := by
    match k with
    | 0 => exact absurd rfl behind
    | 1 =>
      rw [← Option.some.inj found]
      exact positive
    | k + 2 => simp at found
  sorted j k e f order first second := by
    match j, k with
    | 0, _ =>
      rw [← Option.some.inj first]
      exact Nat.zero_le _
    | 1, 1 => simp_all
    | 1, k + 2 => simp at second
    | j + 2, _ => simp at first

theorem conflicting_aligned : Aligned conflicting.leader.log conflicting.follower.log where
  leader := termed_pair (by decide)
  follower := termed_pair (by decide)
  agree k e f first second same := by
    match k with
    | 0 => simp_all [conflicting]
    | 1 =>
      simp only [conflicting, List.getElem?_cons_succ, List.getElem?_cons_zero,
        Option.some.injEq] at first second
      simp [← first, ← second] at same
    | k + 2 => simp [conflicting] at first
  starts t j k first second := by
    match j, k with
    | 0, 0 => rfl
    | 1, 1 => rfl
    | 0, 1 => simp_all [StartsAt, conflicting]
    | 1, 0 => simp_all [StartsAt, conflicting]
    | j + 2, _ => simp [StartsAt, conflicting] at first
    | _, k + 2 => simp [StartsAt, conflicting] at second

theorem backtracking_converges_conflicting :
    (∀ t, Run (rejected 0 1) free conflicting t →
      ∃ u accepted, round 0 1 t = some (u, accepted) ∧
        (accepted = false → u.leader.nextIndex 1 < t.leader.nextIndex 1 ∧
          u.follower.log = conflicting.follower.log) ∧
        (accepted = true →
          u.follower.log.take conflicting.leader.log.length = conflicting.leader.log ∧
          u.leader.matchIndex 1 = conflicting.leader.log.length - 1 ∧
          u.leader.nextIndex 1 = conflicting.leader.log.length)) ∧
    ∃ t u, Run (rejected 0 1) free conflicting t ∧ round 0 1 t = some (u, true) :=
  backtracking_converges 0 1 (by decide) conflicting conflicting_aligned rfl (by decide)
    (by decide) (by decide) rfl

end DistributedLabs.RaftBacktracking
