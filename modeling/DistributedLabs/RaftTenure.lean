import DistributedLabs.PeerSteps
import DistributedLabs.RaftElection

/-! How leaders step down and what becomes of killed peers. `ticker` tests the
state in one section and the election it spawns writes it in another, so a
leader can be made a candidate again; `Kill` writes the state once, and the
handlers that run later write over it. -/

namespace DistributedLabs.RaftTenure
open GuardedRuns RaftPeer RaftCluster RaftMoves RaftVotes RaftElection PeerSteps

variable {n : ℕ} {C : Type}

theorem handleRequestVote_idle {rf : Raft n C} (idle : rf.state ≠ .candidate)
    (args : RequestVoteArgs n) (reply : RequestVoteReply) :
    (handleRequestVote rf args reply).1.toPeer = rf.toPeer := by
  simp [handleRequestVote, lock, unlock, idle]

theorem collectVotes_idle {rf : Raft n C} (idle : rf.state ≠ .candidate) (votes : ℕ) :
    (collectVotes rf votes).1.toPeer = rf.toPeer := by
  simp [collectVotes, lock, unlock, idle]

theorem start_fate (rf : Raft n C) (command : C) :
    (start rf command).1.state = rf.state ∧
      (start rf command).1.currentTerm = rf.currentTerm := by
  by_cases leading : rf.state = .leader <;> simp [start, setLog, lock, unlock, leading]

def Rouses (p : Peer n C) (args : RequestVoteArgs n) : Prop :=
  p.currentTerm < args.term ∨
    (p.currentTerm = args.term ∧ (p.votedFor = none ∨ p.votedFor = some args.candidateId) ∧
      ∃ last, index p.log (p.log.length - 1) = some last ∧
        (args.lastLogTerm > last.term ∨
          (args.lastLogTerm = last.term ∧ args.lastLogIndex ≥ p.log.length - 1)))

/-- One of the sections that write a state without looking at it runs on `s`:
a pending election, a vote request that rouses it, or a request or a reply of
a later term. -/
def Stirs (s : Fin n) (c : Cluster n C) : Action n C → Prop
  | .kickOffElection w => w = s
  | .requestVote x k w => w = s ∧ ∃ e, (c.elections x)[k]? = some e ∧
      Rouses (c.raft s).toPeer e.args
  | .appendEntries j => ∃ call, c.appendCalls[j]? = some call ∧ call.serverTo = s ∧
      (c.raft s).currentTerm < call.args.term
  | .handleAppendEntries j => ∃ call reply, c.appendCalls[j]? = some call ∧ call.caller = s ∧
      call.reply = some reply ∧ call.args.term = (c.raft s).currentTerm ∧
      (c.raft s).currentTerm < reply.term
  | _ => False

theorem requestVote_calm {rf rf' : Raft n C} {args : RequestVoteArgs n}
    {reply : RequestVoteReply} (ran : requestVote rf args = some (rf', reply))
    (calm : ¬ Rouses rf.toPeer args) : rf'.toPeer = rf.toPeer := by
  have current : args.term ≤ rf.currentTerm := not_lt.mp fun later => calm (.inl later)
  cases requestVote_cases ran with
  | inl refused => rw [refused.2, stepUp_of_le current]
  | inr granted =>
    have ⟨last, up, _, free, found, newer, _⟩ := granted
    rw [stepUp_of_le current] at free
    exact absurd (.inr ⟨by omega, free, last, found, newer⟩) calm

theorem calm_ran {c : Cluster n C} {s : Fin n} {a : Action n C} {rf : Raft n C}
    (ran : Ran c s a rf) (idle : (c.raft s).state ≠ .candidate) (calm : ¬ Stirs s c a) :
    rf.currentTerm = (c.raft s).currentTerm ∧
      (rf.state = (c.raft s).state ∨ a = .killLocked s ∧ rf.state = .dead) := by
  have kept (p : Peer n C) (same : p = (c.raft s).toPeer) :
      p.currentTerm = (c.raft s).currentTerm ∧
        (p.state = (c.raft s).state ∨ a = .killLocked s ∧ p.state = .dead) := by
    rw [same]
    exact ⟨rfl, .inl rfl⟩
  cases ran with
  | idle => exact ⟨rfl, .inl rfl⟩
  | kickOff => exact absurd rfl calm
  | requestVote x k e rf reply found waiting unlocked ran =>
    exact kept _ (requestVote_calm ran fun rouses => calm ⟨rfl, e, found, rouses⟩)
  | handleRequestVote k w e reply rf vote found replied unlocked ran =>
    have same := handleRequestVote_idle idle e.args reply
    rw [ran] at same
    exact kept _ same
  | collectVotes k e rf outcome found unlocked ran =>
    have same := collectVotes_idle idle e.votesReceived
    rw [ran] at same
    exact kept _ same
  | sendHeartBeats j rf sent unlocked ran => exact kept _ (sendHeartBeats_toPeer ran)
  | appendEntries j call rf reply found receiver unanswered unlocked ran =>
    have same : (c.raft s).stepUp call.args.term = (c.raft s).toPeer :=
      stepUp_of_le (not_lt.mp fun later => calm ⟨call, found, receiver, later⟩)
    rcases appendEntries_cases ran with ⟨-, -, peer⟩ | ⟨-, -, peer⟩ | ⟨_, -, -, -, -, peer⟩
    · exact kept _ peer
    · exact kept _ (peer.trans same)
    · rw [peer, Peer.accepted, same]
      exact ⟨rfl, .inl rfl⟩
  | handleAppendEntries j call reply rf found caller replied unlocked ran =>
    rcases handleAppendEntries_cases ran with peer | ⟨-, -, peer⟩ | ⟨_, -, -, peer, -⟩ |
      ⟨current, later, -⟩ | ⟨-, -, -, -, peer⟩
    · exact kept _ peer
    · rw [peer]
      exact ⟨rfl, .inl rfl⟩
    · rw [peer]
      exact ⟨rfl, .inl rfl⟩
    · exact absurd ⟨call, reply, found, caller, replied, current, later⟩ calm
    · rw [peer]
      exact ⟨rfl, .inl rfl⟩
  | checkerLock => exact ⟨rfl, .inl rfl⟩
  | checkerApply rf msg ran =>
    obtain ⟨_, _, same⟩ := Option.map_eq_some_iff.mp ran
    rw [← (Prod.mk.inj same).1]
    exact ⟨rfl, .inl rfl⟩
  | checkerUnlock => exact ⟨rfl, .inl rfl⟩
  | start command rf unlocked ran =>
    have fate := start_fate (c.raft s) command
    rw [ran] at fate
    exact ⟨fate.2, .inl fate.1⟩
  | allocate => exact ⟨rfl, .inl rfl⟩
  | killStore => exact ⟨rfl, .inl rfl⟩
  | killLocked => exact ⟨rfl, .inr ⟨rfl, rfl⟩⟩

/-- No pending election takes the lock of a peer that has become leader. -/
def SparesLeaders (c : Cluster n C) : Action n C → Prop
  | .kickOffElection s => (c.raft s).state ≠ .leader
  | _ => True

/-- The action makes `s` process a request or a reply of a term after `T`, or
is the locked part of a `Kill` on it. -/
def Reason (s : Fin n) (T : ℕ) (c : Cluster n C) : Action n C → Prop
  | .requestVote x k w => w = s ∧ ∃ e, (c.elections x)[k]? = some e ∧ T < e.args.term
  | .handleRequestVote x k w => x = s ∧ ∃ e reply, (c.elections x)[k]? = some e ∧
      e.calls w = .replied reply ∧ T < reply.term
  | .appendEntries j => ∃ call, c.appendCalls[j]? = some call ∧ call.serverTo = s ∧
      T < call.args.term
  | .handleAppendEntries j => ∃ call reply, c.appendCalls[j]? = some call ∧ call.caller = s ∧
      call.reply = some reply ∧ T < reply.term
  | .killLocked w => w = s
  | _ => False

theorem reason_of_stirs {c : Cluster n C} {s : Fin n} {a : Action n C} {c' : Cluster n C}
    (taken : step c a = some c') (leading : (c.raft s).state = .leader)
    (lead : Leadership (view c)) (ballots : Ballots (view c)) (spares : SparesLeaders c a)
    (stirs : Stirs s c a) : Reason s (c.raft s).currentTerm c a := by
  -- its vote is its own and no candidate asks itself: a request of its own term does not rouse it
  cases a with
  | kickOffElection w =>
    rw [show w = s from stirs] at spares
    exact absurd leading spares
  | requestVote x k w =>
    obtain ⟨server, e, found, rouses⟩ := stirs
    subst server
    refine ⟨rfl, e, found, rouses.resolve_right fun own => ?_⟩
    obtain ⟨log, became⟩ := lead.recorded w leading
    have vote : (c.raft w).votedFor = some w := ((lead.held w _ log became).2 rfl).2
    have named := ballots.own x e (List.mem_of_getElem? found)
    have self : e.args.candidateId = w := by simpa [vote, eq_comm] using own.2.1
    have same : x = w := named.1.symm.trans self
    subst same
    -- the request is on its way to `x`, and the candidate never sends it there
    cases step_taken taken with
    | requestVote _ _ _ e' rf reply found' waiting =>
      rw [Option.some.inj (found'.symm.trans found), named.2.2.2] at waiting
      cases waiting
  | appendEntries j => exact stirs
  | handleAppendEntries j =>
    obtain ⟨call, reply, found, caller, replied, _, later⟩ := stirs
    exact ⟨call, reply, found, caller, replied, later⟩
  | _ => exact stirs.elim

/-- A leader of term `T` leads on, in term `T`, until it has a reason to stop. -/
theorem leader_stays [Inhabited C] {c c' : Cluster n C} (run : Reaches free c) {s : Fin n} {T : ℕ}
    (leading : (c.raft s).state = .leader) (term : (c.raft s).currentTerm = T)
    (later : Run step (fun c a => SparesLeaders c a ∧ ¬ Reason s T c a) c c') :
    (c'.raft s).state = .leader ∧ (c'.raft s).currentTerm = T := by
  induction later with
  | refl => exact ⟨leading, term⟩
  | tail before allowed taken ih =>
    have ⟨leads, now⟩ := ih
    have reached := run.trans (before.mono fun _ _ _ => trivial)
    rw [← now] at allowed
    have calm := calm_ran (step_ran taken s) (by simp [leads]) fun stirs =>
      allowed.2 (reason_of_stirs taken leads (reaches_leadership reached)
        (reaches_ballots reached) allowed.1 stirs)
    refine ⟨?_, calm.1.trans now⟩
    cases calm.2 with
    | inl same => exact same.trans leads
    | inr killed =>
      rw [killed.1] at allowed
      exact absurd rfl allowed.2

theorem leader_stays_starting : ∃ c c' : Cluster 2 ℕ, Reaches free c ∧
    (c.raft 0).state = .leader ∧ step c (.start 0 7) = some c' ∧
      (c'.raft 0).state = .leader ∧ (c'.raft 0).currentTerm = 1 := by
  obtain ⟨c, run, both⟩ := exec_test step free (RaftCluster.init : Cluster 2 ℕ)
    (List.flatten [timeout 0, poll 0 0 1, tally 0 0])
    (fun c => (c.raft 0).state = .leader ∧ (c.raft 0).currentTerm = 1 ∧
      (step c (.start 0 7)).isSome) (by decide)
  have ⟨leading, term, possible⟩ := of_decide_eq_true both
  have ⟨c', taken⟩ := Option.isSome_iff_exists.mp possible
  exact ⟨c, c', run, leading, taken,
    leader_stays run leading term (.tail (a := .start 0 7) .refl ⟨trivial, id⟩ taken)⟩

/-- `ticker` spawns two elections before either takes the lock. The first one
wins, and the second one makes its leader a candidate of the next term. -/
theorem leader_dethroned : ¬ ∀ (c c' : Cluster 2 ℕ) (s : Fin 2) (T : ℕ), Reaches free c →
    (c.raft s).state = .leader → (c.raft s).currentTerm = T →
      Run step (fun c a => ¬ Reason s T c a) c c' →
      (c'.raft s).state = .leader ∧ (c'.raft s).currentTerm = T := by
  obtain ⟨c, run, both⟩ := exec_test step free (RaftCluster.init : Cluster 2 ℕ)
    (List.flatten [[.tickerTest 0, .tickerCheck 0 true], timeout 0, poll 0 0 1, tally 0 0])
    (fun c => (c.raft 0).state = .leader ∧ (c.raft 0).currentTerm = 1 ∧
      (step c (.kickOffElection 0)).map (fun c' => (c'.raft 0).state) = some .candidate) (by decide)
  have ⟨leading, term, pending⟩ := of_decide_eq_true both
  have ⟨c', taken, standing⟩ := Option.map_eq_some_iff.mp pending
  intro stays
  have still := (stays c c' 0 1 run leading term (Run.refl.tail id taken)).1
  rw [standing] at still
  cases still

/-- Once `Kill` has returned on `s`, it stays dead for as long as nothing stirs
it: it reports no leadership, and `Start` leaves its log alone. -/
theorem killed_stays {c d c' : Cluster n C} {s : Fin n} (killed : step c (.killLocked s) = some d)
    (later : Run step (fun c a => ¬ Stirs s c a) d c') :
    (c'.raft s).state = .dead ∧ (getState (c'.raft s)).2 = false ∧
      ∀ command, (start (c'.raft s) command).1.log = (c'.raft s).log := by
  have start : (d.raft s).state = .dead := by
    cases step_taken killed with
    | killLocked => simp [Cluster.setThreads, Cluster.setRaft, killLocked, unlock]
  have dead := later.invariant (fun c => (c.raft s).state = .dead) (fun dead calm taken => by
    cases (calm_ran (step_ran taken s) (by simp [dead]) calm).2 with
    | inl same => exact same.trans dead
    | inr killed => exact killed.2) start
  refine ⟨dead, by simp [getState, dead], fun command => ?_⟩
  simp [RaftPeer.start, lock, unlock, dead]

theorem killed_stays_asked : ∃ c d c' : Cluster 2 ℕ, Reaches free c ∧
    step c (.killLocked 0) = some d ∧ step d (.collectVotes 0 0) = some c' ∧
      (c'.raft 0).state = .dead := by
  obtain ⟨c, run, possible⟩ := exec_test step free (RaftCluster.init : Cluster 2 ℕ)
    (List.flatten [timeout 0, poll 0 0 1, [.receiveVote 0 0, .killStore 0]])
    (fun c => ((step c (.killLocked 0)).bind fun d => step d (.collectVotes 0 0)).isSome)
    (by decide)
  have ⟨c', done⟩ := Option.isSome_iff_exists.mp possible
  have ⟨d, killed, taken⟩ := Option.bind_eq_some_iff.mp done
  exact ⟨c, d, c', run, killed, taken,
    (killed_stays killed (.tail (a := .collectVotes 0 0) .refl id taken)).1⟩

/-- An election spawned before the kill takes the lock after it: the killed
peer stands, wins and reports that it leads. -/
theorem killed_leads : ¬ ∀ (c d c' : Cluster 2 ℕ) (s : Fin 2), Reaches free c →
    step c (.killLocked s) = some d → Run step free d c' →
      (c'.raft s).state = .dead ∧ (getState (c'.raft s)).2 = false ∧
        ∀ command, (start (c'.raft s) command).1.log = (c'.raft s).log := by
  obtain ⟨c, run, leads⟩ := exec_test step free (RaftCluster.init : Cluster 2 ℕ)
    [.tickerTest 0, .tickerCheck 0 true, .killStore 0]
    (fun c => ((step c (.killLocked 0)).bind fun d => (exec step free d
      (List.flatten [[.kickOffElection 0], poll 0 0 1, tally 0 0])).map fun c' =>
        (getState (c'.raft 0)).2) = some true)
    (by decide)
  have ⟨d, killed, rest⟩ := Option.bind_eq_some_iff.mp (of_decide_eq_true leads)
  have ⟨c', done, leading⟩ := Option.map_eq_some_iff.mp rest
  intro stays
  have silent := (stays c d c' 0 run killed (exec_run done)).2.1
  rw [leading] at silent
  cases silent

end DistributedLabs.RaftTenure
