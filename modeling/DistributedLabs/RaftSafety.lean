import DistributedLabs.RaftRefinement

/-! What the ledger gives the cluster: log matching, leader completeness, state
machine safety and index bounds in every orderly run. Each of them fails in a
run that is not orderly, and each such run is given. -/

namespace DistributedLabs.RaftSafety
open GuardedRuns TermLogs TermLedger RaftPeer RaftCluster RaftMoves RaftVotes RaftElection
open RaftCommits RaftProvenance RaftLedger RaftRefinement

variable {n : ℕ} {C : Type}

def election (s other : Fin 2) (k : ℕ) : List (Action 2 ℕ) :=
  List.flatten [timeout s, poll s k other, tally s k]

def exchange (k : ℕ) : List (Action 2 ℕ) :=
  encodes 0 k ++ [.appendEntries 0, .handleAppendEntries 0]

def check (s : Fin n) (k : ℕ) : List (Action n C) :=
  [.checkerTest s, .checkerLock s] ++ List.replicate k (.checkerApply s) ++ [.checkerUnlock s]

/-- Server 0 sends its first entry in two heartbeats before either is answered,
and server 1 stores it twice. -/
def resent : List (Action 2 ℕ) :=
  List.flatten [election 0 1 0, [.start 0 7], beat 0 0, beat 0 0, encodes 0 1, encodes 1 1,
    [.appendEntries 0, .appendEntries 1]]

/-- Both answers arrive, and a second entry is sent and committed. -/
def committed : List (Action 2 ℕ) :=
  List.flatten [resent, [.handleAppendEntries 0, .handleAppendEntries 0, .start 0 8], beat 0 0,
    exchange 1]

/-- Two logs with an entry of the same term at the same index are identical up
to that index. -/
theorem log_matching [Inhabited C] {c : Cluster n C} (run : Reaches Orderly c) {s s' : Fin n}
    {i : ℕ} {e e' : LogEntry C} (left : (c.raft s).log[i]? = some e)
    (right : (c.raft s').log[i]? = some e') (same : e.term = e'.term) :
    ∀ j ≤ i, (c.raft s).log[j]? = (c.raft s').log[j]? := by
  obtain ⟨-, L, coupled⟩ := reaches_coupled run
  have anchoredLeft := coupled.valid.logAnchored s
  have anchoredRight := coupled.valid.logAnchored s'
  rw [(coupled.servers s).log] at anchoredLeft
  rw [(coupled.servers s').log] at anchoredRight
  have agree := anchoredLeft.agree anchoredRight left right same
  intro j below
  change (view c).peer s |>.log[j]? = _
  rw [← take_get (by omega : j < i + 1), agree, take_get (by omega)]
  rfl

theorem log_matching_two_peers : ∃ c : Cluster 2 ℕ, Reaches Orderly c ∧
    (c.raft 0).log[1]? = some ⟨7, 1⟩ ∧ (c.raft 1).log[1]? = some ⟨7, 1⟩ ∧
      ∀ j ≤ 1, (c.raft 0).log[j]? = (c.raft 1).log[j]? := by
  obtain ⟨c, run, both⟩ := exec_test step Orderly (RaftCluster.init : Cluster 2 ℕ)
    (List.flatten [election 0 1 0, [.start 0 7], beat 0 0, exchange 1])
    (fun c => (c.raft 0).log[1]? = some ⟨7, 1⟩ ∧ (c.raft 1).log[1]? = some ⟨7, 1⟩) (by decide)
  obtain ⟨left, right⟩ := of_decide_eq_true both
  exact ⟨c, run, left, right, log_matching run left right rfl⟩

/-- The leader's next entry meets the copy that the follower stored. -/
theorem log_matching_fails : ¬ ∀ c : Cluster 2 ℕ, Reaches free c → ∀ (s s' : Fin 2) (i : ℕ)
    (e e' : LogEntry ℕ), (c.raft s).log[i]? = some e → (c.raft s').log[i]? = some e' →
      e.term = e'.term → ∀ j ≤ i, (c.raft s).log[j]? = (c.raft s').log[j]? := by
  obtain ⟨c, run, both⟩ := exec_test step free (RaftCluster.init : Cluster 2 ℕ)
    (List.flatten [resent, [.start 0 8]])
    (fun c => (c.raft 0).log[2]? = some ⟨8, 1⟩ ∧ (c.raft 1).log[2]? = some ⟨7, 1⟩) (by decide)
  obtain ⟨left, right⟩ := of_decide_eq_true both
  intro matching
  have agree := matching c run 0 1 2 _ _ left right rfl 2 le_rfl
  rw [left, right] at agree
  exact absurd agree (by decide)

/-- Whatever a leader committed, every leader of a later term opened with. -/
theorem leader_complete [Inhabited C] {c : Cluster n C} (run : Reaches Orderly c) {l s : Fin n}
    {T T' : ℕ} {N : ℤ} {log log' : List (LogEntry C)} (advanced : .advanced l T N log ∈ c.trace)
    (became : .becameLeader s T' log' ∈ c.trace) (later : T < T') :
    ∀ i : ℤ, 0 ≤ i → i ≤ N → ∃ e, index log i = some e ∧ index log' i = some e := by
  obtain ⟨-, L, coupled⟩ := reaches_coupled run
  obtain ⟨m, rfl, committed, held⟩ := coupled.fits _ advanced
  obtain ⟨leader, rfl⟩ := coupled.fits _ became
  have opened := coupled.valid.complete committed T' later (by rw [leader]; simp)
  have short := coupled.valid.short_of_committed committed
  intro i nonneg below
  obtain ⟨k, rfl⟩ := Int.eq_ofNat_of_zero_le nonneg
  have inside : ((L.leading T).take (m + 1))[k]? = some ((L.leading T).get ⟨k, by omega⟩) := by
    rw [take_get (by omega)]
    simp
  rw [index_natCast, index_natCast]
  exact ⟨_, prefix_get held inside, prefix_get opened inside⟩

theorem leader_complete_two_peers : ∃ c : Cluster 2 ℕ, Reaches Orderly c ∧
    .advanced 0 1 1 [⟨0, 0⟩, ⟨7, 1⟩] ∈ c.trace ∧ .becameLeader 1 2 [⟨0, 0⟩, ⟨7, 1⟩] ∈ c.trace ∧
      ∀ log, .becameLeader 1 2 log ∈ c.trace → index log 1 = some ⟨7, 1⟩ := by
  obtain ⟨c, run, both⟩ := exec_test step Orderly (RaftCluster.init : Cluster 2 ℕ)
    (List.flatten [election 0 1 0, [.start 0 7], beat 0 0, exchange 1, election 1 0 0])
    (fun c => .advanced 0 1 1 [⟨0, 0⟩, ⟨7, 1⟩] ∈ c.trace ∧
      .becameLeader 1 2 [⟨0, 0⟩, ⟨7, 1⟩] ∈ c.trace) (by decide)
  obtain ⟨advanced, became⟩ := of_decide_eq_true both
  refine ⟨c, run, advanced, became, fun log leads => ?_⟩
  obtain ⟨e, here, there⟩ :=
    leader_complete run advanced leads (by decide) 1 (by decide) (by decide)
  rw [there, ← here]
  rfl

/-- The copy of the first entry sits where the leader committed another one,
and the follower that holds it is elected next. -/
theorem leader_complete_fails : ¬ ∀ c : Cluster 2 ℕ, Reaches free c → ∀ (l s : Fin 2) (T T' : ℕ)
    (N : ℤ) (log log' : List (LogEntry ℕ)), .advanced l T N log ∈ c.trace →
      .becameLeader s T' log' ∈ c.trace → T < T' →
      ∀ i : ℤ, 1 ≤ i → i ≤ N → index log' i = index log i := by
  obtain ⟨c, run, both⟩ := exec_test step free (RaftCluster.init : Cluster 2 ℕ)
    (List.flatten [committed, election 1 0 0])
    (fun c => .advanced 0 1 2 [⟨0, 0⟩, ⟨7, 1⟩, ⟨8, 1⟩] ∈ c.trace ∧
      .becameLeader 1 2 [⟨0, 0⟩, ⟨7, 1⟩, ⟨7, 1⟩, ⟨8, 1⟩] ∈ c.trace) (by decide)
  obtain ⟨advanced, became⟩ := of_decide_eq_true both
  intro complete
  exact absurd (complete c run 0 1 1 2 2 _ _ advanced became (by decide) 2 (by decide) (by decide))
    (by decide)

/-- Two messages applied at one index carry the same command. -/
theorem applied_agree [Inhabited C] {c : Cluster n C} (run : Reaches Orderly c) {s s' : Fin n}
    {msg msg' : ApplyMsg C} (left : .applied s msg ∈ c.trace) (right : .applied s' msg' ∈ c.trace)
    (same : msg.commandIndex = msg'.commandIndex) : msg.command = msg'.command := by
  obtain ⟨-, L, coupled⟩ := reaches_coupled run
  obtain ⟨i, e, position, command, decided⟩ := coupled.fits _ left
  obtain ⟨i', e', position', command', decided'⟩ := coupled.fits _ right
  obtain rfl : i = i' := by
    rw [position, position'] at same
    exact Int.ofNat.inj same
  rw [command, command', coupled.valid.decided_unique decided decided']

theorem applied_agree_two_peers : ∃ c : Cluster 2 ℕ, Reaches Orderly c ∧
    .applied 0 ⟨true, 7, 1⟩ ∈ c.trace ∧ .applied 1 ⟨true, 7, 1⟩ ∈ c.trace ∧
      ∀ s msg, .applied s msg ∈ c.trace → msg.commandIndex = 1 → msg.command = 7 := by
  obtain ⟨c, run, both⟩ := exec_test step Orderly (RaftCluster.init : Cluster 2 ℕ)
    (List.flatten [election 0 1 0, [.start 0 7], beat 0 0, exchange 1, check 0 1, beat 0 0,
      exchange 0, check 1 1])
    (fun c => .applied 0 ⟨true, 7, 1⟩ ∈ c.trace ∧ .applied 1 ⟨true, 7, 1⟩ ∈ c.trace) (by decide)
  obtain ⟨left, right⟩ := of_decide_eq_true both
  exact ⟨c, run, left, right, fun s msg applied position =>
    applied_agree run applied left position⟩

/-- The leader applies its second entry where the follower applies the copy of
the first. -/
theorem applied_disagree : ¬ ∀ c : Cluster 2 ℕ, Reaches free c → ∀ (s s' : Fin 2)
    (msg msg' : ApplyMsg ℕ), .applied s msg ∈ c.trace → .applied s' msg' ∈ c.trace →
      msg.commandIndex = msg'.commandIndex → msg.command = msg'.command := by
  obtain ⟨c, run, both⟩ := exec_test step free (RaftCluster.init : Cluster 2 ℕ)
    (List.flatten [committed, check 0 2, beat 0 0, exchange 0, check 1 2])
    (fun c => .applied 0 ⟨true, 8, 2⟩ ∈ c.trace ∧ .applied 1 ⟨true, 7, 2⟩ ∈ c.trace) (by decide)
  obtain ⟨left, right⟩ := of_decide_eq_true both
  intro agree
  exact absurd (agree c run 0 1 _ _ left right rfl) (by decide)

theorem setPeer_commit {v : View n C} {s : Fin n} {p : Peer n C}
    (more : (v.peer s).commitIndex ≤ p.commitIndex) (w : Fin n) :
    (v.peer w).commitIndex ≤ ((v.setPeer s p).peer w).commitIndex :=
  View.forall_setPeer (P := fun w p => (v.peer w).commitIndex ≤ p.commitIndex)
    (fun _ => le_rfl) more w

theorem commit_moved {c : Cluster n C} {a : Action n C} {L : Ledger (Fin n) (LogEntry C)}
    (h : Coupled (view c) L) (orderly : Orderly c a) {v' : View n C}
    (move : Moved (view c) a v') (s : Fin n) :
    ((view c).peer s).commitIndex ≤ (v'.peer s).commitIndex := by
  cases move with
  | quiet => exact le_rfl
  | kickOff x => exact setPeer_commit (by simp [Peer.stand]) s
  | refuse x k w e => exact setPeer_commit (by simp) s
  | grant x k w e => exact setPeer_commit (by simp [Peer.grant]) s
  | voteUnsent x k w e => exact setPeer_commit (by simp) s
  | voteSent => exact le_rfl
  | receive => exact le_rfl
  | collect => exact le_rfl
  | elect x => exact setPeer_commit (by simp [Peer.lead]) s
  | beat => exact le_rfl
  | encode => exact le_rfl
  | appendStale => exact le_rfl
  | appendRefuse j call => exact setPeer_commit (by simp) s
  | appendAccept j call prev found unanswered current prevFound matched =>
    have fresh : ¬ Overlaps ((view c).peer call.serverTo).log call.args := fun overlaps =>
      orderly.2.1 call found ⟨current, ⟨prev, prevFound, matched⟩, overlaps⟩
    have sent := h.calls call (List.mem_of_getElem? found)
    have covers := (accepted_log h sent current prevFound matched fresh).1.length_le
    have inside := sent.inside
    have commit := sent.commit
    rw [List.length_take] at covers
    refine setPeer_commit ?_ s
    simp only [Peer.accepted]
    split <;> omega
  | replyIgnored => exact le_rfl
  | replyMatched j call => exact setPeer_commit (by simp [Peer.matched]) s
  | replyAdvanced j call reply M entry found replied current success above =>
    exact setPeer_commit above.le s
  | replyRaised j call t => exact setPeer_commit (by simp) s
  | replyConflict j call reply => exact setPeer_commit (by simp [Peer.retry]) s
  | apply x => exact setPeer_commit (by simp) s
  | start x => exact setPeer_commit (by simp [Peer.appendCommand]) s
  | allocate x => exact setPeer_commit (by simp) s
  | kill x => exact setPeer_commit (by simp) s

theorem commit_mono [Inhabited C] {c c' : Cluster n C} (run : Reaches Orderly c)
    (later : Run step Orderly c c') (s : Fin n) :
    (c.raft s).commitIndex ≤ (c'.raft s).commitIndex := by
  induction later with
  | refl => exact le_rfl
  | tail before orderly taken ih =>
    obtain ⟨-, L, coupled⟩ := reaches_coupled (run.trans before)
    exact ih.trans (commit_moved coupled orderly (step_moved taken) s)

/-- The indices of every peer stay in order and inside its log, commit indices
only grow, and neither `CommitChecker` nor a heartbeat reads past the end. -/
theorem index_bounds [Inhabited C] {c : Cluster n C} (run : Reaches Orderly c) :
    (∀ s, 0 ≤ (c.raft s).lastApplied ∧ (c.raft s).lastApplied ≤ (c.raft s).commitIndex ∧
      (c.raft s).commitIndex ≤ ((c.raft s).log.length : ℤ) - 1) ∧
    (∀ c', Run step Orderly c c' → ∀ s, (c.raft s).commitIndex ≤ (c'.raft s).commitIndex) ∧
    (∀ s i, (c.raft s).state = .leader → (c.raft s).nextIndex i ≤ (c.raft s).log.length) ∧
    (∀ s, commitReady (c.raft s) → applyNext (c.raft s) ≠ none) := by
  obtain ⟨known, L, coupled⟩ := reaches_coupled run
  have bounds (s : Fin n) : 0 ≤ (c.raft s).lastApplied ∧
      (c.raft s).lastApplied ≤ (c.raft s).commitIndex ∧
      (c.raft s).commitIndex ≤ ((c.raft s).log.length : ℤ) - 1 := by
    obtain ⟨nonneg, applied⟩ := (coupled.servers s).applied
    have commit := (coupled.servers s).commit
    exact ⟨nonneg, applied, Int.le_sub_one_of_lt commit⟩
  refine ⟨bounds, fun c' later => commit_mono run later, fun s i leading => ?_, fun s ready => ?_⟩
  · exact (coupled.servers s).next (leader_of_state coupled known.lead leading) i
  · have bound := bounds s
    have behind : (c.raft s).lastApplied < (c.raft s).commitIndex := ready
    have inside : ((c.raft s).lastApplied + 1).toNat < (c.raft s).log.length := by omega
    simp only [applyNext, index]
    rw [if_pos (by omega), List.getElem?_eq_getElem inside]
    simp

theorem index_bounds_two_peers : ∃ c : Cluster 2 ℕ, Reaches Orderly c ∧
    commitReady (c.raft 0) ∧ applyNext (c.raft 0) ≠ none := by
  obtain ⟨c, run, ready⟩ := exec_test step Orderly (RaftCluster.init : Cluster 2 ℕ)
    (List.flatten [election 0 1 0, [.start 0 7], beat 0 0, exchange 1])
    (fun c => commitReady (c.raft 0)) (by decide)
  have waiting := of_decide_eq_true ready
  exact ⟨c, run, waiting, (index_bounds run).2.2.2 0 waiting⟩

/-- Server 1 is granted a vote in term 1 that it does not count yet. Server 0
leads term 2 and commits two entries with server 2. Server 1 moves on to term
3, its old collector makes it leader with an empty log, and its first entry
cuts the log of server 0 below the commit index. -/
theorem stale_vote_cuts : ∃ c : Cluster 3 ℕ, Reaches (fun c a => SendsNew c a ∧ SendsBuilt c a) c ∧
    ((c.raft 0).log.length : ℤ) - 1 < (c.raft 0).commitIndex := by
  obtain ⟨c, run, beyond⟩ := exec_test step (fun c a => SendsNew c a ∧ SendsBuilt c a)
    (RaftCluster.init : Cluster 3 ℕ)
    (List.flatten [timeout 1, poll 1 0 0, timeout 0, poll 0 0 2, tally 0 0,
      [.start 0 7, .start 0 8], beat 0 0, encodes 1 2, [.appendEntries 1, .handleAppendEntries 1],
      timeout 1, timeout 1, tally 1 0, [.start 1 9], beat 1 0, encodes 1 1, [.appendEntries 1]])
    (fun c => ((c.raft 0).log.length : ℤ) - 1 < (c.raft 0).commitIndex) (by decide)
  exact ⟨c, run, of_decide_eq_true beyond⟩

/-- Server 0 leads term 3 and commits an entry of that term with server 1. An
older request, which ends in an entry of term 1, then reaches server 1 and is
appended once more, so that its log ends in term 1. It votes for server 2, whose
log ends in term 2 and lacks the committed entry. -/
theorem resend_cuts :
    ∃ c : Cluster 3 ℕ, Reaches (fun c a => CountsOwnTerm c a ∧ SendsBuilt c a) c ∧
    ((c.raft 0).log.length : ℤ) - 1 < (c.raft 0).commitIndex := by
  obtain ⟨c, run, beyond⟩ := exec_test step (fun c a => CountsOwnTerm c a ∧ SendsBuilt c a)
    (RaftCluster.init : Cluster 3 ℕ)
    (List.flatten [timeout 0, poll 0 0 1, tally 0 0, [.start 0 7], timeout 2, timeout 2,
      poll 2 1 1, [.requestVote 2 1 0], tally 2 1, [.start 2 8], timeout 0, poll 0 1 1, tally 0 1,
      beat 0 0, [.appendEntries 0, .handleAppendEntries 0], beat 0 0, [.start 0 9], beat 0 0,
      encodes 3 2, [.appendEntries 3, .handleAppendEntries 3], encodes 1 1,
      [.appendEntries 1, .appendEntries 0], timeout 2, poll 2 2 1, tally 2 2, beat 2 0,
      [.appendEntries 4, .handleAppendEntries 4], beat 2 0, encodes 5 1, [.appendEntries 5]])
    (fun c => ((c.raft 0).log.length : ℤ) - 1 < (c.raft 0).commitIndex) (by decide)
  exact ⟨c, run, of_decide_eq_true beyond⟩

/-- The encoder of a request to server 4 has read the command 7 of its entry when
the leader of term 2 overwrites that entry with 9. It goes on to read the new
term, and server 4 stores command 7 in term 2, where the leader commits 9. Both
logs look alike to a voter, and server 4 is elected and applies its own entry. -/
theorem overwrite_diverges :
    ∃ c : Cluster 5 ℕ, Reaches (fun c a => CountsOwnTerm c a ∧ SendsNew c a) c ∧
      .applied 1 ⟨true, 9, 1⟩ ∈ c.trace ∧ .applied 4 ⟨true, 7, 1⟩ ∈ c.trace := by
  obtain ⟨c, run, both⟩ := exec_test step (fun c a => CountsOwnTerm c a ∧ SendsNew c a)
    (RaftCluster.init : Cluster 5 ℕ)
    (List.flatten [timeout 0, poll 0 0 3, poll 0 0 4, tally 0 0, tally 0 0, [.start 0 7], beat 0 0,
      [.encode 3], timeout 1, timeout 1, poll 1 1 2, poll 1 1 3, tally 1 1, tally 1 1,
      [.start 1 9], beat 1 0, encodes 4 1, [.appendEntries 4, .encode 3, .appendEntries 3],
      [.handleAppendEntries 4], encodes 4 1, [.appendEntries 4, .handleAppendEntries 4], check 1 1,
      timeout 4, timeout 4, poll 4 1 2, poll 4 1 3, tally 4 1, tally 4 1, [.start 4 5], beat 4 0,
      encodes 8 1, [.appendEntries 8, .handleAppendEntries 8], encodes 6 1,
      [.appendEntries 6, .handleAppendEntries 6], check 4 2])
    (fun c => .applied 1 ⟨true, 9, 1⟩ ∈ c.trace ∧ .applied 4 ⟨true, 7, 1⟩ ∈ c.trace) (by decide)
  exact ⟨c, run, of_decide_eq_true both⟩

theorem index_bounds_fail : ¬ ∀ c : Cluster 3 ℕ, Reaches free c → ∀ s,
    0 ≤ (c.raft s).lastApplied ∧ (c.raft s).lastApplied ≤ (c.raft s).commitIndex ∧
      (c.raft s).commitIndex ≤ ((c.raft s).log.length : ℤ) - 1 := by
  obtain ⟨c, run, past⟩ := stale_vote_cuts
  intro bounds
  have inside := (bounds c (run.mono fun _ _ _ => trivial) 0).2.2
  omega

end DistributedLabs.RaftSafety
