import DistributedLabs.PeerSteps
import DistributedLabs.RaftCommits
import DistributedLabs.RaftRoots
import DistributedLabs.RaftReplication

/-! Who holds a peer's mutex. Every section gives it back except the last path
of `handleAppendEntries`, which is meant for refusals of the caller's own term
but is reached when the caller is no longer leader. A peer leaves the lead of
its current term only through `Kill`, so killed leaders take that path and
nobody else does; the peer is frozen from then on. -/

namespace DistributedLabs.RaftMutex
open GuardedRuns RaftPeer RaftCluster PeerSteps RaftMoves RaftVotes RaftElection RaftCommits
open RaftRoots RaftReplication

variable {n : ℕ} {C : Type}

section Sections

variable {rf rf' : Raft n C}

theorem requestVote_releases {args : RequestVoteArgs n} {reply : RequestVoteReply}
    (ran : requestVote rf args = some (rf', reply)) : rf'.mu = false := by
  unfold requestVote at ran
  split at ran
  · rw [← (Prod.mk.inj (Option.some.inj ran)).1]
    rfl
  · unfold decideVote at ran
    split at ran
    · have ⟨last, _, decided⟩ := Option.map_eq_some_iff.mp ran
      split at decided <;>
      · rw [← (Prod.mk.inj decided).1]
        rfl
    · rw [← (Prod.mk.inj (Option.some.inj ran)).1]
      rfl

theorem requestVote_total (rooted : rf.log ≠ []) (args : RequestVoteArgs n) :
    ∃ rf' reply, requestVote rf args = some (rf', reply) := by
  unfold requestVote
  split
  · exact ⟨_, _, rfl⟩
  · unfold decideVote
    rw [adoptTerm_log, index_getLast rooted]
    split
    · exact ⟨_, _, rfl⟩
    · exact ⟨_, _, rfl⟩

theorem appendEntries_releases {args : AppendEntriesArgs n C} {reply : AppendEntriesReply}
    (ran : appendEntries rf args = some (rf', reply)) : rf'.mu = false := by
  unfold appendEntries at ran
  split at ran
  · rw [← (Prod.mk.inj (Option.some.inj ran)).1]
    rfl
  · unfold reconcile at ran
    split at ran
    · have ⟨last, _, refused⟩ := Option.map_eq_some_iff.mp ran
      rw [← (Prod.mk.inj refused).1]
      rfl
    · have ⟨prev, _, compared⟩ := Option.map_eq_some_iff.mp ran
      split at compared <;>
      · rw [← (Prod.mk.inj compared).1]
        rfl

theorem kickOffElection_releases {me : Fin n} {args : RequestVoteArgs n}
    (ran : kickOffElection me rf = some (rf', args)) : rf'.mu = false := by
  have ⟨lastLogTerm, _, built⟩ := Option.map_eq_some_iff.mp ran
  rw [← (Prod.mk.inj built).1]
  rfl

theorem getLastLogTerm_eq {p : Peer n C} (rooted : p.log ≠ []) :
    getLastLogTerm p = some (p.log.getLast rooted).term := by
  have positive := List.length_pos_iff.mpr rooted
  unfold getLastLogTerm getLastLogIndex
  rw [if_neg (by omega), index_getLast rooted]
  rfl

theorem kickOffElection_total (me : Fin n) (rooted : rf.log ≠ []) :
    ∃ rf' args, kickOffElection me rf = some (rf', args) :=
  ⟨_, _, Option.map_eq_some_iff.mpr ⟨_, getLastLogTerm_eq rooted, rfl⟩⟩

theorem sendHeartBeats_releases {me : Fin n}
    {sent : Option (List (Fin n × AppendEntriesArgs n C))}
    (ran : sendHeartBeats me rf = some (rf', sent)) : rf'.mu = false := by
  simp only [sendHeartBeats] at ran
  split at ran
  · rw [← (Prod.mk.inj (Option.some.inj ran)).1]
    rfl
  · have ⟨requests, _, built⟩ := Option.map_eq_some_iff.mp ran
    rw [← (Prod.mk.inj built).1]
    rfl

theorem handleRequestVote_releases (rf : Raft n C) (args : RequestVoteArgs n)
    (reply : RequestVoteReply) : (handleRequestVote rf args reply).1.mu = false := by
  simp only [handleRequestVote]
  split
  · rfl
  · split <;> rfl

theorem collectVotes_releases (rf : Raft n C) (votes : ℕ) :
    (collectVotes rf votes).1.mu = false := by
  simp only [collectVotes]
  split
  · rfl
  · split <;> rfl

theorem start_releases (rf : Raft n C) (command : C) : (start rf command).1.mu = false := by
  simp only [start]
  split <;> rfl

theorem getStateLocked_releases (rf : Raft n C) : (getStateLocked rf).1.mu = false := rfl

def FallsThrough (p : Peer n C) (args : AppendEntriesArgs n C) (reply : AppendEntriesReply) :
    Prop :=
  args.term = p.currentTerm ∧ reply.success = false ∧ reply.term ≤ p.currentTerm ∧
    ¬ (reply.term = p.currentTerm ∧ p.state = .leader)

theorem handleAppendEntries_releases {serverTo : Fin n} {args : AppendEntriesArgs n C}
    {reply : AppendEntriesReply} (ran : handleAppendEntries rf serverTo args reply = some rf') :
    rf'.mu = false ↔ ¬ FallsThrough rf.toPeer args reply := by
  simp only [handleAppendEntries] at ran
  unfold FallsThrough
  split at ran
  · rename_i stale
    rw [← Option.some.inj ran]
    exact iff_of_true rfl fun falls => stale falls.1
  · split at ran
    · rename_i success
      obtain ⟨after, _, released⟩ := Option.map_eq_some_iff.mp ran
      rw [← released]
      refine iff_of_true rfl fun falls => ?_
      rw [falls.2.1] at success
      exact Bool.false_ne_true success
    · rename_i current failure
      split at ran
      · rename_i later
        rw [← Option.some.inj ran]
        exact iff_of_true rfl fun falls => later.not_ge falls.2.2.1
      · rename_i bounded
        split at ran
        · rename_i retried
          rw [← Option.some.inj ran]
          exact iff_of_true rfl fun falls => falls.2.2.2 retried
        · rename_i rest
          rw [← Option.some.inj ran]
          refine iff_of_false (by simp [lock]) fun released => released ?_
          exact ⟨not_not.mp current, Bool.eq_false_of_not_eq_true failure, not_lt.mp bounded, rest⟩

end Sections

section Pending

variable {v : View n C}

def answers (calls : Fin n → VoteCall) : Finset (Fin n) :=
  Finset.univ.filter fun w => ∃ vote, calls w = .sent vote

/-- What is on its way to a handler: a reply never has an older term than its
request, and a channel holds no more votes than handlers have sent. -/
structure Pending (v : View n C) : Prop where
  replies : ∀ call ∈ v.appendCalls, ∀ reply, call.reply = some reply →
    call.args.term ≤ reply.term
  votes : ∀ s, ∀ e ∈ v.elections s, e.voteCh.length ≤ (answers e.calls).card

theorem answers_update {calls : Fin n → VoteCall} {s : Fin n} {call : VoteCall}
    (before : ¬ ∃ vote, calls s = .sent vote) (after : ¬ ∃ vote, call = .sent vote) :
    answers (Function.update calls s call) = answers calls :=
  filter_update (P := fun call => ∃ vote, call = VoteCall.sent vote) before after

theorem answers_sent {calls : Fin n → VoteCall} {s : Fin n}
    (before : ¬ ∃ vote, calls s = .sent vote) (vote : Bool) :
    (answers (Function.update calls s (.sent vote))).card = (answers calls).card + 1 :=
  card_filter_update (P := fun call => ∃ vote, call = VoteCall.sent vote) before ⟨vote, rfl⟩

theorem Pending.setElection (h : Pending v) {x : Fin n} {k : ℕ} {e : Election n}
    (fits : e.voteCh.length ≤ (answers e.calls).card) : Pending (v.setElection x k e) where
  replies := h.replies
  votes s f member := by
    rcases mem_setElection member with old | ⟨_, new⟩
    · exact h.votes s f old
    · rw [new]
      exact fits

theorem Pending.setCalls (h : Pending v) {calls : List (AppendCall n C)}
    (kept : ∀ call ∈ calls, call ∈ v.appendCalls ∨
      ∀ reply, call.reply = some reply → call.args.term ≤ reply.term) :
    Pending { v with appendCalls := calls } :=
  { h with replies := fun call member => (kept call member).elim (h.replies call) id }

theorem Pending.setReply (h : Pending v) {j : ℕ} {call : AppendCall n C}
    {reply : AppendEntriesReply} (later : call.args.term ≤ reply.term) :
    Pending (v.setCall j { call with reply := some reply }) := by
  apply h.setCalls
  intro other member
  refine (List.mem_or_eq_of_mem_set member).imp_right fun new => ?_
  subst new
  intro given same
  rw [← Option.some.inj same]
  exact later

theorem Pending.dropCall (h : Pending v) (j : ℕ) : Pending (v.dropCall j) :=
  h.setCalls fun _ member => .inl (List.mem_of_mem_eraseIdx member)

theorem Pending.moved (h : Pending v) {a : Action n C} {v' : View n C} (move : Moved v a v') :
    Pending v' := by
  cases move with
  | kickOff s last =>
    refine { h with votes := fun x e member => ?_ }
    rcases mem_addElection (v := v.setPeer s _) member with old | new
    · exact h.votes x e old
    · rw [new]
      exact Nat.zero_le _
  | refuse x k s e reply found waiting =>
    refine { h.setElection (e := { e with calls := Function.update e.calls s (.replied reply) })
      ?_ with }
    rw [answers_update (by simp [waiting]) (by simp)]
    exact h.votes x e (List.mem_of_getElem? found)
  | grant x k s e last found waiting =>
    refine { h.setElection
      (e := { e with calls := Function.update e.calls s (.replied ⟨e.args.term, true⟩) }) ?_ with }
    rw [answers_update (by simp [waiting]) (by simp)]
    exact h.votes x e (List.mem_of_getElem? found)
  | voteUnsent x k s e reply t found replied =>
    refine { h.setElection (e := { e with calls := Function.update e.calls s .returned }) ?_ with }
    rw [answers_update (by simp [replied]) (by simp)]
    exact h.votes x e (List.mem_of_getElem? found)
  | voteSent x k s e reply found replied =>
    apply h.setElection
    rw [answers_sent (by simp [replied]), List.length_append]
    exact Nat.add_le_add_right (h.votes x e (List.mem_of_getElem? found)) 1
  | receive x k e vote rest found queued =>
    have fits := h.votes x e (List.mem_of_getElem? found)
    rw [queued] at fits
    apply h.setElection
    exact (Nat.le_succ _).trans fits
  | collect x k e pc turn found =>
    apply h.setElection
    exact h.votes x e (List.mem_of_getElem? found)
  | elect x k e found =>
    exact { h.setElection (e := { e with pc := .returned })
      (h.votes x e (List.mem_of_getElem? found)) with }
  | beat s j sent =>
    apply h.setCalls
    intro call member
    refine (List.mem_append.mp member).imp_right fun new => ?_
    have ⟨request, _, same⟩ := List.mem_map.mp new
    subst same
    exact fun _ replied => absurd replied.symm (Option.some_ne_none _)
  | encode j call cell found =>
    apply h.setCalls
    intro other member
    refine (List.mem_or_eq_of_mem_set member).imp_right fun new => ?_
    subst new
    exact h.replies call (List.mem_of_getElem? found)
  | appendStale j call found unanswered stale => exact h.setReply stale.le
  | appendRefuse j call reply found unanswered current refusal =>
    have later : call.args.term ≤ reply.term := by
      rcases refusal with ⟨_, _, same⟩ | ⟨_, _, _, same⟩
      · rw [same]
      · rw [same]
    exact { h.setReply later with }
  | appendAccept j call prev =>
    have later : call.args.term ≤ (⟨call.args.term, true, 0, 0⟩ : AppendEntriesReply).term := le_rfl
    exact { h.setReply later with }
  | replyIgnored j => exact h.dropCall j
  | replyMatched j => exact { h.dropCall j with }
  | replyAdvanced j => exact { h.dropCall j with }
  | replyRaised j => exact { h.dropCall j with }
  | replyConflict j => exact { h.dropCall j with }
  | _ => exact { h with }

theorem reaches_pending [Inhabited C] {ok : Cluster n C → Action n C → Prop} {c : Cluster n C}
    (run : Reaches ok c) : Pending (view c) := by
  refine run.invariant (fun c => Pending (view c)) (fun h _ taken => h.moved (step_moved taken)) ?_
  exact ⟨fun _ member => absurd member List.not_mem_nil,
    fun _ _ member => absurd member List.not_mem_nil⟩

end Pending

/-- A refusal in its own term that finds the leader killed. -/
def Orphaned (p : Peer n C) (args : AppendEntriesArgs n C) (reply : AppendEntriesReply) : Prop :=
  p.state = .dead ∧ args.term = p.currentTerm ∧ reply.term = p.currentTerm ∧
    reply.success = false

section Reached

variable [Inhabited C] {ok : Cluster n C → Action n C → Prop} {c : Cluster n C}

/-- The caller led the term of its request, so if that is still its term it is
leader or dead, and a refusal that is not of a later term is of this one. -/
theorem fallsThrough_iff (run : Reaches ok c) {call : AppendCall n C}
    (member : call ∈ c.appendCalls) {reply : AppendEntriesReply}
    (replied : call.reply = some reply) :
    FallsThrough (c.raft call.caller).toPeer call.args reply ↔
      Orphaned (c.raft call.caller).toPeer call.args reply := by
  have later := (reaches_pending run).replies call member reply replied
  have ⟨log, led⟩ := ((reaches_evidence run).calls call member).led
  have held := ((reaches_leadership run).held _ _ _ led).2
  constructor
  · intro falls
    have current := falls.1
    have same : reply.term = (c.raft call.caller).currentTerm :=
      le_antisymm falls.2.2.1 (current ▸ later)
    refine ⟨?_, current, same, falls.2.1⟩
    exact (held current).1.resolve_left fun leads => falls.2.2.2 ⟨same, leads⟩
  · intro orphaned
    refine ⟨orphaned.2.1, orphaned.2.2.2, orphaned.2.2.1.le, fun leads => ?_⟩
    have dead := orphaned.1.symm.trans leads.2
    exact ServerState.noConfusion dead

/-- The handler of a vote never waits for the channel while it holds the lock:
each of the `n - 1` handlers sends at most once, and this one has not sent. -/
theorem channel_room (run : Reaches ok c) {s w : Fin n} {e : Election n}
    (member : e ∈ c.elections s) {reply : RequestVoteReply} (replied : e.calls w = .replied reply) :
    e.voteCh.length < n - 1 := by
  have fits := (reaches_pending run).votes s e member
  have own := ((reaches_ballots run).own s e member).2.2.2
  have fresh : w ∉ answers e.calls := by simp [answers, replied]
  have inside : insert w (answers e.calls) ⊆ Finset.univ.erase s := by
    intro x found
    refine Finset.mem_erase.mpr ⟨fun same => ?_, Finset.mem_univ x⟩
    subst same
    rcases Finset.mem_insert.mp found with same | sent
    · rw [← same, own] at replied
      exact VoteCall.noConfusion replied
    · simp [answers, own] at sent
  have counted := Finset.card_le_card inside
  rw [Finset.card_insert_of_notMem fresh, Finset.card_erase_of_mem (Finset.mem_univ s),
    Finset.card_univ, Fintype.card_fin] at counted
  omega

theorem handleAppendEntries_returns (run : Reaches ok c) {call : AppendCall n C}
    (member : call ∈ c.appendCalls) {reply : AppendEntriesReply}
    (replied : call.reply = some reply) :
    ∃ rf, handleAppendEntries (c.raft call.caller) call.serverTo call.args reply = some rf ∧
      (rf.mu = false ↔ ¬ Orphaned (c.raft call.caller).toPeer call.args reply) := by
  have apart := Fin.val_ne_of_ne ((reaches_evidence run).calls call member).apart
  have size : 2 ≤ n := by omega
  have committed : 0 ≤ (c.raft call.caller).commitIndex := (reaches_evidence run).nonneg call.caller
  have ⟨rf, ran⟩ := handleAppendEntries_total size (c.raft call.caller) call.serverTo call.args
    reply (by omega)
  refine ⟨rf, ran, ?_⟩
  rw [← fallsThrough_iff run member replied]
  exact handleAppendEntries_releases ran

end Reached

section Mutex

variable {c c' : Cluster n C} {s : Fin n} {a : Action n C}

def AvoidsOrphans (c : Cluster n C) : Action n C → Prop
  | .handleAppendEntries j => ∀ call, c.appendCalls[j]? = some call →
      ∀ reply, call.reply = some reply → ¬ Orphaned (c.raft call.caller).toPeer call.args reply
  | _ => True

theorem ran_mu {rf : Raft n C} (ran : Ran c s a rf) :
    rf.mu = (c.raft s).mu ∨ a = .checkerLock s ∨ a = .checkerUnlock s ∨
      ∃ j call reply, a = .handleAppendEntries j ∧ c.appendCalls[j]? = some call ∧
        call.caller = s ∧ call.reply = some reply ∧
        FallsThrough (c.raft s).toPeer call.args reply := by
  cases ran with
  | idle => exact .inl rfl
  | kickOff rf args unlocked ran => exact .inl ((kickOffElection_releases ran).trans unlocked.symm)
  | requestVote x k e rf reply found waiting unlocked ran =>
    exact .inl ((requestVote_releases ran).trans unlocked.symm)
  | handleRequestVote k w e reply rf vote found replied unlocked ran =>
    have released := handleRequestVote_releases (c.raft s) e.args reply
    rw [ran] at released
    exact .inl (released.trans unlocked.symm)
  | collectVotes k e rf outcome found unlocked ran =>
    have released := collectVotes_releases (c.raft s) e.votesReceived
    rw [ran] at released
    exact .inl (released.trans unlocked.symm)
  | sendHeartBeats j rf sent unlocked ran =>
    exact .inl ((sendHeartBeats_releases ran).trans unlocked.symm)
  | appendEntries j call rf reply found receiver unanswered unlocked ran =>
    exact .inl ((appendEntries_releases ran).trans unlocked.symm)
  | handleAppendEntries j call reply rf found caller replied unlocked ran =>
    by_cases falls : FallsThrough (c.raft s).toPeer call.args reply
    · exact .inr (.inr (.inr ⟨j, call, reply, rfl, found, caller, replied, falls⟩))
    · exact .inl (((handleAppendEntries_releases ran).mpr falls).trans unlocked.symm)
  | checkerLock => exact .inr (.inl rfl)
  | checkerApply rf msg ran => exact .inl (applyNext_mu ran)
  | checkerUnlock => exact .inr (.inr (.inl rfl))
  | start command rf unlocked ran =>
    rw [← ran]
    exact .inl ((start_releases _ _).trans unlocked.symm)
  | allocate room unlocked => exact .inl rfl
  | killStore => exact .inl rfl
  | killLocked unlocked => exact .inl unlocked.symm

/-- The action runs to its end and leaves the mutex of `s` free. -/
def Releases (c : Cluster n C) (s : Fin n) (a : Action n C) : Prop :=
  ∃ c', step c a = some c' ∧ (c'.raft s).mu = false

theorem releases_of_step (unlocked : (c.raft s).mu = false) (runs : (step c a).isSome)
    (other : a ≠ .checkerLock s ∧ a ≠ .checkerUnlock s ∧ ∀ j, a ≠ .handleAppendEntries j) :
    Releases c s a := by
  obtain ⟨c', taken⟩ := Option.isSome_iff_exists.mp runs
  refine ⟨c', taken, ?_⟩
  rcases ran_mu (step_ran taken s) with kept | locks | unlocks | ⟨j, _, _, handles, _⟩
  · exact kept.trans unlocked
  · exact absurd locks other.1
  · exact absurd unlocks other.2.1
  · exact absurd handles (other.2.2 j)

theorem handleAppendEntries_step {j : ℕ} {call : AppendCall n C} {reply : AppendEntriesReply}
    {rf : Raft n C} (found : c.appendCalls[j]? = some call) (replied : call.reply = some reply)
    (unlocked : (c.raft call.caller).mu = false)
    (ran : handleAppendEntries (c.raft call.caller) call.serverTo call.args reply = some rf) :
    ∃ c', step c (.handleAppendEntries j) = some c' ∧ c'.raft call.caller = rf := by
  refine ⟨_, by simp [step, runHandleAppendEntries, found, replied, unlocked, ran]; rfl, ?_⟩
  split <;> simp [Cluster.record, Cluster.dropCall, Cluster.setRaft]

/-- Whatever is delivered to a peer whose mutex is free, every section returns,
and with the mutex free, except `handleAppendEntries` on a refusal that comes
after the leader was killed and before it saw a later term. -/
theorem sections_release [Inhabited C] (run : Reaches free c) (s : Fin n)
    (unlocked : (c.raft s).mu = false) :
    (∀ x k e, (c.elections x)[k]? = some e → e.calls s = .requested →
      Releases c s (.requestVote x k s)) ∧
    (∀ j call, c.appendCalls[j]? = some call → call.serverTo = s → call.reply = none →
      call.Encoded → Releases c s (.appendEntries j)) ∧
    (∀ j call reply, c.appendCalls[j]? = some call → call.caller = s → call.reply = some reply →
      ∃ c', step c (.handleAppendEntries j) = some c' ∧
        ((c'.raft s).mu = false ↔ ¬ Orphaned (c.raft s).toPeer call.args reply)) ∧
    (∀ k e w reply, (c.elections s)[k]? = some e → e.calls w = .replied reply →
      e.voteCh.length < n - 1 ∧ Releases c s (.handleRequestVote s k w)) ∧
    (∀ k e, (c.elections s)[k]? = some e → e.pc = .locking → Releases c s (.collectVotes s k)) ∧
    (0 < (c.threads s).kickOffs → Releases c s (.kickOffElection s)) ∧
    (∀ command, Releases c s (.start s command)) ∧
    (getStateLocked (c.raft s)).1.mu = false ∧
    (0 < (c.threads s).kills → Releases c s (.killLocked s)) := by
  have roots := reaches_roots run
  have rooted : (c.raft s).log ≠ [] := (roots.peers s).log.ne_nil
  refine ⟨fun x k e found waiting => ?_, fun j call found receiver unanswered encoded => ?_,
    fun j call reply found caller replied => ?_, fun k e w reply found replied => ?_,
    fun k e found locking => ?_, fun spawned => ?_, fun command => ?_,
    getStateLocked_releases _, fun called => ?_⟩
  · obtain ⟨rf, reply, ran⟩ := requestVote_total rooted e.args
    refine releases_of_step unlocked ?_ (by simp)
    simp [step, runRequestVote, found, waiting, unlocked, ran]
  · subst receiver
    obtain ⟨rf, reply, ran⟩ := appendEntries_total (c.raft call.serverTo) call.args rooted
      (roots.calls call (List.mem_of_getElem? found)).inside
    refine releases_of_step unlocked ?_ (by simp)
    simp [step, runAppendEntries, found, unanswered, encoded, unlocked, ran]
  · subst caller
    obtain ⟨rf, ran, released⟩ :=
      handleAppendEntries_returns run (List.mem_of_getElem? found) replied
    obtain ⟨c', taken, after⟩ := handleAppendEntries_step found replied unlocked ran
    exact ⟨c', taken, by rw [after]; exact released⟩
  · refine ⟨channel_room run (List.mem_of_getElem? found) replied,
      releases_of_step unlocked ?_ (by simp)⟩
    simp [step, runHandleRequestVote, found, replied, unlocked]
  · refine releases_of_step unlocked ?_ (by simp)
    rcases collected : collectVotes (c.raft s) e.votesReceived with ⟨rf, outcome⟩
    cases outcome <;> simp [step, runCollectVotes, found, locking, unlocked, collected]
  · obtain ⟨rf, args, ran⟩ := kickOffElection_total s rooted
    refine releases_of_step unlocked ?_ (by simp)
    simp [step, kickOff, spawned, unlocked, ran]
  · refine releases_of_step unlocked ?_ (by simp)
    rcases started : start (c.raft s) command with ⟨rf, position, term, leading⟩
    cases leading <;> simp [step, runStart, unlocked, started]
  · refine releases_of_step unlocked ?_ (by simp)
    simp [step, runKillLocked, called, unlocked]

/-- Server 0 leads a second time with an entry that server 1 has not seen, and
is refused while it still leads. -/
theorem sections_release_two_peers : ∃ c : Cluster 2 ℕ, Reaches free c ∧
    (c.raft 0).mu = false ∧ ∃ c', step c (.handleAppendEntries 0) = some c' ∧
      (c'.raft 0).mu = false := by
  obtain ⟨c, run, refused⟩ := exec_test step free (RaftCluster.init : Cluster 2 ℕ)
    (List.flatten [timeout 0, poll 0 0 1, tally 0 0, [.start 0 7], timeout 1,
      [.requestVote 1 0 0], timeout 0, poll 0 1 1, tally 0 1, beat 0 1, [.appendEntries 0]])
    (fun c => (c.raft 0).mu = false ∧ (c.raft 0).state = .leader ∧
      ∃ call ∈ c.appendCalls[0]?, call.caller = 0 ∧ call.reply = some ⟨3, false, 1, -1⟩)
    (by decide)
  have ⟨unlocked, leads, call, found, caller, replied⟩ := of_decide_eq_true refused
  have ⟨c', taken, released⟩ :=
    (sections_release run 0 unlocked).2.2.1 0 call _ found caller replied
  refine ⟨c, run, unlocked, c', taken, released.mpr fun orphaned => ?_⟩
  exact ServerState.noConfusion (orphaned.1.symm.trans leads)

/-- The same refusal, delivered after `Kill`: the handler returns with the
mutex held. -/
theorem refusal_keeps_lock : ¬ ∀ c : Cluster 2 ℕ, Reaches free c → ∀ call ∈ c.appendCalls,
    ∀ reply rf, call.reply = some reply →
      handleAppendEntries (c.raft call.caller) call.serverTo call.args reply = some rf →
        rf.mu = false := by
  obtain ⟨c, run, refused⟩ := exec_test step free (RaftCluster.init : Cluster 2 ℕ)
    (List.flatten [timeout 0, poll 0 0 1, tally 0 0, [.start 0 7], timeout 1,
      [.requestVote 1 0 0], timeout 0, poll 0 1 1, tally 0 1, beat 0 1,
      [.appendEntries 0, .killStore 0, .killLocked 0]])
    (fun c => ∃ call ∈ c.appendCalls, call.reply = some ⟨3, false, 1, -1⟩ ∧
      (handleAppendEntries (c.raft call.caller) call.serverTo call.args ⟨3, false, 1, -1⟩).map
        Raft.mu = some true) (by decide)
  have ⟨call, member, replied, kept⟩ := of_decide_eq_true refused
  have ⟨rf, ran, held⟩ := Option.map_eq_some_iff.mp kept
  intro releases
  have released := releases c run call member _ rf replied ran
  rw [held] at released
  exact absurd released (by decide)

theorem ran_held {rf : Raft n C} (ran : Ran c s a rf) (held : (c.raft s).mu = true)
    (other : a ≠ .checkerApply s ∧ a ≠ .checkerUnlock s) :
    rf.toPeer = (c.raft s).toPeer ∧ rf.mu = true := by
  cases ran with
  | idle => exact ⟨rfl, held⟩
  | checkerApply => exact absurd rfl other.1
  | checkerUnlock => exact absurd rfl other.2
  | killStore => exact ⟨rfl, held⟩
  | _ =>
    have unlocked : (c.raft s).mu = false := by assumption
    rw [held] at unlocked
    exact absurd unlocked (by decide)

/-- Between sections the mutex is held by the checker that is sending on
`applyCh`, and by nobody else. -/
def Owned (c : Cluster n C) (s : Fin n) : Prop :=
  (c.raft s).mu = true ↔ (c.threads s).checker = .applying

theorem Owned.step (h : Owned c s) (kept : ∀ j, a = .handleAppendEntries j → ∀ call,
      c.appendCalls[j]? = some call → call.caller = s → ∀ reply, call.reply = some reply →
        ¬ FallsThrough (c.raft s).toPeer call.args reply)
    (taken : RaftCluster.step c a = some c') : Owned c' s := by
  unfold Owned at h ⊢
  cases step_checked taken s with
  | kept other same =>
    rw [same, ← h]
    rcases ran_mu (step_ran taken s) with held | locks | unlocks | falls
    · rw [held]
    · exact absurd locks other.1
    · exact absurd unlocks other.2.2
    · obtain ⟨j, call, reply, handled, found, caller, replied, falls⟩ := falls
      exact absurd falls (kept j handled call found caller reply replied)
  | tested before after same =>
    rw [same, h, before]
    exact iff_of_false (by decide) after
  | locked unlocked after held => exact iff_of_true held after
  | applied before same held => rw [held, h, before, same]
  | unlocked before after released =>
    rw [released, after]
    decide

/-- In every run that handles no orphaned refusal the mutex of a peer is held
between sections only while its checker sends on `applyCh`. -/
theorem mutex_owned [Inhabited C] (run : Reaches AvoidsOrphans c) (s : Fin n) : Owned c s := by
  induction run with
  | refl => exact iff_of_false Bool.false_ne_true (by simp [RaftCluster.init])
  | tail run allowed taken ih =>
    refine ih.step (fun j handled call found caller reply replied falls => ?_) taken
    subst handled caller
    have orphaned := (fallsThrough_iff run (List.mem_of_getElem? found) replied).mp falls
    exact allowed call found reply replied orphaned

/-- A mutex that no checker holds is never given back, and nothing but the
atomic flag of the peer changes again. -/
theorem mutex_lost (run : Run step free c c') (held : (c.raft s).mu = true)
    (forgotten : (c.threads s).checker ≠ .applying) :
    (c'.raft s).mu = true ∧ (c'.threads s).checker ≠ .applying ∧
      (c'.raft s).toPeer = (c.raft s).toPeer := by
  refine run.invariant (fun d => (d.raft s).mu = true ∧ (d.threads s).checker ≠ .applying ∧
    (d.raft s).toPeer = (c.raft s).toPeer) ?_ ⟨held, forgotten, rfl⟩
  intro d d' a lost _ taken
  have ⟨stillHeld, stillForgotten, frozen⟩ := lost
  cases step_checked taken s with
  | kept other same =>
    rw [same]
    have ⟨peer, mutex⟩ := ran_held (step_ran taken s) stillHeld other.2
    exact ⟨mutex, stillForgotten, peer.trans frozen⟩
  | tested before after same => exact ⟨same ▸ stillHeld, after, same ▸ frozen⟩
  | locked unlocked =>
    rw [unlocked] at stillHeld
    exact absurd stillHeld Bool.false_ne_true
  | applied before => exact absurd before stillForgotten
  | unlocked before => exact absurd before stillForgotten

theorem applying_holds [Inhabited C] (run : Reaches free c) (s : Fin n)
    (applying : (c.threads s).checker = .applying) : (c.raft s).mu = true := by
  revert applying
  refine run.invariant (fun c => (c.threads s).checker = .applying → (c.raft s).mu = true) ?_ ?_
  · intro d d' a holds _ taken applying
    cases step_checked taken s with
    | kept other same =>
      rw [same] at applying
      exact (ran_held (step_ran taken s) (holds applying) other.2).2
    | tested before after => exact absurd applying after
    | locked unlocked after held => exact held
    | applied before same held => exact held.trans (holds before)
    | unlocked before after =>
      rw [after] at applying
      exact CheckerPc.noConfusion applying
  · intro applying
    exact CheckerPc.noConfusion applying

/-- A killed leader that handles a refusal of its last term never runs a
section again: its mutex is lost and its record stays what it is. -/
theorem orphan_freezes [Inhabited C] (run : Reaches free c) {j : ℕ} {call : AppendCall n C}
    (found : c.appendCalls[j]? = some call) {reply : AppendEntriesReply}
    (replied : call.reply = some reply)
    (orphaned : Orphaned (c.raft call.caller).toPeer call.args reply)
    (taken : step c (.handleAppendEntries j) = some c') {d : Cluster n C}
    (later : Run step free c' d) :
    (d.raft call.caller).mu = true ∧
      (d.raft call.caller).toPeer = (c'.raft call.caller).toPeer := by
  have member := List.mem_of_getElem? found
  -- the mutex is held after the handler, and the checker is where it was
  have leaked : (c'.raft call.caller).mu = true ∧
      (c'.threads call.caller).checker ≠ .applying := by
    cases step_taken taken with
    | handleAppendEntries _ call' reply' rf found' replied' unlocked ran next handled =>
      obtain rfl : call' = call := Option.some.inj (found'.symm.trans found)
      obtain rfl : reply' = reply := Option.some.inj (replied'.symm.trans replied)
      have falls := (fallsThrough_iff run member replied).mpr orphaned
      have kept := (handleAppendEntries_releases ran).not.mpr (not_not.mpr falls)
      have forgotten : (c.threads call'.caller).checker ≠ .applying := by
        intro applying
        rw [applying_holds run call'.caller applying] at unlocked
        exact absurd unlocked (by decide)
      subst handled
      split <;> exact ⟨by simpa [Cluster.record, Cluster.dropCall, Cluster.setRaft] using kept,
        forgotten⟩
  have lost := mutex_lost later leaked.1 leaked.2
  exact ⟨lost.1, lost.2.2⟩

end Mutex

end DistributedLabs.RaftMutex
