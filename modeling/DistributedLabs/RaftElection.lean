import DistributedLabs.RaftVotes

/-! Election safety. `collectVotes` tests the state of the peer but not the
term for which its votes were given, so a majority of one term can make a
leader of a later one. As long as no section does so, every leader holds a
majority of its own term and leaders of one term coincide. -/

namespace DistributedLabs.RaftElection
open GuardedRuns RaftPeer RaftCluster RaftMoves RaftVotes

variable {n : ℕ} {C : Type}

/-- When a `collectVotes` section is about to convert its peer to leader, the
peer is still in the term of the election whose votes were counted. -/
def CountsOwnTerm (c : Cluster n C) : Action n C → Prop
  | .collectVotes x k => ∀ e ∈ (c.elections x)[k]?, (c.raft x).state = .candidate →
      n / 2 < e.votesReceived → (c.raft x).currentTerm = e.args.term
  | _ => True

instance (c : Cluster n C) : (a : Action n C) → Decidable (CountsOwnTerm c a)
  | .collectVotes x k => inferInstanceAs (Decidable (∀ e ∈ (c.elections x)[k]?,
      (c.raft x).state = .candidate → n / 2 < e.votesReceived →
        (c.raft x).currentTerm = e.args.term))
  | .tickerTest _ | .tickerCheck _ _ | .kickOffElection _ | .requestVote _ _ _
  | .handleRequestVote _ _ _ | .receiveVote _ _ | .heartbeatTest _ _ | .sendHeartBeats _ _
  | .encode _ | .appendEntries _ | .handleAppendEntries _ | .checkerTest _ | .checkerLock _
  | .checkerApply _ | .checkerUnlock _ | .start _ _ | .allocate _ _ | .killStore _
  | .killLocked _ =>
    isTrue trivial

/-- What holds of leaders in every run, whatever votes were counted. A peer
that led its current term can only have been killed since. -/
structure Leadership (v : View n C) : Prop where
  recorded : ∀ s, (v.peer s).state = .leader →
    ∃ log, .becameLeader s (v.peer s).currentTerm log ∈ v.trace
  standing : ∀ s, (v.peer s).state = .candidate → (v.peer s).votedFor = some s
  held : ∀ s t log, .becameLeader s t log ∈ v.trace → t ≤ (v.peer s).currentTerm ∧
    (t = (v.peer s).currentTerm →
      ((v.peer s).state = .leader ∨ (v.peer s).state = .dead) ∧ (v.peer s).votedFor = some s)

section Keep

variable {v : View n C}

theorem Leadership.setPeer (h : Leadership v) {s : Fin n} {p : Peer n C}
    (term : (v.peer s).currentTerm ≤ p.currentTerm)
    (leading : p.state = .leader →
      (v.peer s).state = .leader ∧ p.currentTerm = (v.peer s).currentTerm)
    (standing : p.state = .candidate → p.votedFor = some s)
    (held : p.currentTerm = (v.peer s).currentTerm →
      (v.peer s).state = .leader ∨ (v.peer s).state = .dead → (v.peer s).votedFor = some s →
      (p.state = .leader ∨ p.state = .dead) ∧ p.votedFor = some s) :
    Leadership (v.setPeer s p) where
  recorded := View.forall_setPeer (P := fun w p => p.state = .leader →
    ∃ log, .becameLeader w p.currentTerm log ∈ v.trace) h.recorded fun led => by
      have ⟨was, same⟩ := leading led
      rw [same]
      exact h.recorded s was
  standing := View.forall_setPeer (P := fun w p => p.state = .candidate → p.votedFor = some w)
    h.standing standing
  held := View.forall_setPeer (P := fun w p => ∀ t log, .becameLeader w t log ∈ v.trace →
    t ≤ p.currentTerm ∧ (t = p.currentTerm →
      (p.state = .leader ∨ p.state = .dead) ∧ p.votedFor = some w)) h.held fun t log found => by
        have ⟨bound, now⟩ := h.held s t log found
        refine ⟨bound.trans term, fun current => ?_⟩
        have ⟨led, vote⟩ := now (by omega)
        exact held (by omega) led vote

theorem Leadership.setSame (h : Leadership v) {s : Fin n} {p : Peer n C}
    (term : p.currentTerm = (v.peer s).currentTerm) (vote : p.votedFor = (v.peer s).votedFor)
    (state : p.state = (v.peer s).state) : Leadership (v.setPeer s p) := by
  refine h.setPeer term.ge (fun led => ⟨state ▸ led, term⟩) ?_ ?_
  · rw [state, vote]
    exact h.standing s
  · rw [state, vote]
    exact fun _ led voted => ⟨led, voted⟩

theorem Leadership.stepUp (h : Leadership v) (s : Fin n) (t : ℕ) :
    Leadership (v.setPeer s ((v.peer s).stepUp t)) := by
  rcases Nat.lt_or_ge (v.peer s).currentTerm t with later | earlier
  · rw [stepUp_of_lt later]
    refine h.setPeer later.le (by simp) (by simp) fun same => ?_
    exact absurd same later.ne'
  · rw [stepUp_of_le earlier]
    exact h.setSame rfl rfl rfl

theorem Leadership.record (h : Leadership v) {event : Event n C}
    (other : ∀ s t log, event ≠ .becameLeader s t log) : Leadership (v.record event) where
  standing := h.standing
  recorded s leading := by
    obtain ⟨log, found⟩ := h.recorded s leading
    exact ⟨log, List.mem_append_left _ found⟩
  held s t log found := by
    rcases List.mem_append.mp found with old | new
    · exact h.held s t log old
    · exact absurd (List.mem_singleton.mp new).symm (other s t log)

theorem Leadership.elect (h : Leadership v) {x : Fin n}
    (standing : (v.peer x).state = .candidate) :
    Leadership ((v.setPeer x (v.peer x).lead).record
      (.becameLeader x (v.peer x).currentTerm (v.peer x).log)) where
  recorded w leading := by
    rcases eq_or_ne w x with rfl | other
    · exact ⟨(v.peer w).log, by simp [View.record, View.setPeer, Peer.lead]⟩
    · simp only [View.record, View.setPeer, Function.update_of_ne other] at leading ⊢
      obtain ⟨log, found⟩ := h.recorded w leading
      exact ⟨log, List.mem_append_left _ found⟩
  standing w candidate := by
    rcases eq_or_ne w x with rfl | other
    · simp [View.record, View.setPeer, Peer.lead] at candidate
    · simp only [View.record, View.setPeer, Function.update_of_ne other] at candidate ⊢
      exact h.standing w candidate
  held w t log found := by
    have voted := h.standing x standing
    rcases List.mem_append.mp found with old | new
    · obtain ⟨bound, now⟩ := h.held w t log old
      rcases eq_or_ne w x with rfl | other
      · simpa [View.record, View.setPeer, Peer.lead, voted] using bound
      · simpa [View.record, View.setPeer, other] using ⟨bound, now⟩
    · have same := List.mem_singleton.mp new
      injection same with server term
      subst server term
      simp [View.record, View.setPeer, Peer.lead, voted]

theorem Leadership.moved (h : Leadership v) (ballots : Ballots v) {a : Action n C}
    {v' : View n C} (move : Moved v a v') : Leadership v' := by
  cases move with
  | quiet => exact h
  | kickOff s last lastFound =>
    have bumped := h.setPeer (s := s) (p := (v.peer s).stand s) (Nat.le_succ _)
      (by simp [Peer.stand]) (by simp [Peer.stand])
      (fun same => absurd same (Nat.succ_ne_self _))
    exact { bumped.record (by simp) with }
  | refuse x k s e =>
    have raised := h.stepUp s e.args.term
    exact { raised with }
  | grant x k s e last found waiting current free =>
    have voted := h.setPeer (s := s) (p := (v.peer s).grant e.args)
      (by simp [Peer.grant]) (by simp [Peer.grant]) (by simp [Peer.grant]) (fun same led vote => by
        -- a leader's vote went to itself, and it never asks itself
        obtain ⟨named, -, -, self⟩ := ballots.own x e (List.mem_of_getElem? found)
        have earlier : e.args.term ≤ (v.peer s).currentTerm := by
          simpa [Peer.grant] using same
        rw [stepUp_of_le earlier, vote, named] at free
        obtain rfl : s = x := by simpa using free
        simp [waiting] at self)
    exact { voted.record (by simp) with }
  | voteUnsent x k s e reply t =>
    have raised := h.stepUp x t
    exact { raised with }
  | voteSent => exact { h with }
  | receive => exact { h with }
  | collect => exact { h with }
  | elect x k e found standing many => exact { h.elect standing with }
  | beat => exact { h with }
  | encode => exact { h with }
  | appendStale => exact { h with }
  | appendRefuse j call reply =>
    have raised := h.stepUp call.serverTo call.args.term
    exact { raised with }
  | appendAccept j call prev =>
    have raised := h.stepUp call.serverTo call.args.term
    have merged := raised.setSame (s := call.serverTo)
      (p := (v.peer call.serverTo).accepted call.args) (by simp [View.setPeer, Peer.accepted])
      (by simp [View.setPeer, Peer.accepted]) (by simp [View.setPeer, Peer.accepted])
    rw [View.setPeer_setPeer] at merged
    exact { merged.record (by simp) with }
  | replyIgnored => exact { h with }
  | replyMatched j call =>
    have kept := h.setSame (s := call.caller)
      (p := (v.peer call.caller).matched call.serverTo call.args) rfl rfl rfl
    exact { kept with }
  | replyAdvanced j call reply M entry =>
    have kept := h.setSame (s := call.caller)
      (p := { (v.peer call.caller).matched call.serverTo call.args with commitIndex := M })
      rfl rfl rfl
    exact { kept.record (by simp) with }
  | replyRaised j call t =>
    have raised := h.stepUp call.caller t
    exact { raised with }
  | replyConflict j call reply =>
    have kept := h.setSame (s := call.caller)
      (p := (v.peer call.caller).retry call.serverTo reply) rfl rfl rfl
    exact { kept with }
  | apply s entry =>
    have kept := h.setSame (s := s)
      (p := { v.peer s with lastApplied := (v.peer s).lastApplied + 1 }) rfl rfl rfl
    exact kept.record (by simp)
  | start s command =>
    have kept := h.setSame (s := s) (p := (v.peer s).appendCommand command) rfl rfl rfl
    exact kept.record (by simp)
  | allocate s room => exact h.setSame rfl rfl rfl
  | kill s =>
    exact h.setPeer (s := s) (p := { v.peer s with state := .dead }) le_rfl (by simp) (by simp)
      (fun _ _ vote => ⟨.inr rfl, vote⟩)

end Keep

theorem Leadership.init [Inhabited C] : Leadership (view (RaftCluster.init : Cluster n C)) where
  recorded _ leading := absurd leading (by simp [view, RaftCluster.init, make])
  standing _ candidate := absurd candidate (by simp [view, RaftCluster.init, make])
  held _ _ _ found := absurd found List.not_mem_nil

theorem reaches_leadership [Inhabited C] {ok : Cluster n C → Action n C → Prop}
    {c : Cluster n C} (run : Reaches ok c) : Leadership (view c) :=
  run.invariant_under (fun c => Ballots (view c)) (fun c => Leadership (view c))
    (fun ballots _ taken => ballots.moved (step_moved taken))
    (fun ballots _ h _ taken => h.moved ballots (step_moved taken)) Ballots.init Leadership.init

def Elected (v : View n C) : Prop :=
  ∀ s t log, .becameLeader s t log ∈ v.trace → Won v.trace s t

theorem Elected.moved {c : Cluster n C} (h : Elected (view c)) (ballots : Ballots (view c))
    {a : Action n C} (own : CountsOwnTerm c a) {v' : View n C} (move : Moved (view c) a v') :
    Elected v' := by
  intro s t log found
  have grow := move.trace_grows
  rcases move.becameLeader found with old | ⟨k, e, counted, at_k, standing, many, term, -⟩
  · exact (h s t log old).mono grow
  · subst counted
    have same : (c.raft s).currentTerm = e.args.term := own e at_k standing many
    have won := ballots.won (List.mem_of_getElem? at_k) many
    rw [← same] at won
    rw [term]
    exact won.mono grow

theorem reaches_elected [Inhabited C] {c : Cluster n C} (run : Reaches CountsOwnTerm c) :
    Elected (view c) :=
  run.invariant_under (fun c => Ballots (view c)) (fun c => Elected (view c))
    (fun ballots _ taken => ballots.moved (step_moved taken))
    (fun ballots _ h own taken => h.moved ballots own (step_moved taken))
    Ballots.init (fun _ _ _ found => absurd found List.not_mem_nil)

/-- At most one peer is ever leader in a term, when no votes are counted in a
later term than their own. The two peers may lead at different times. -/
theorem leader_unique [Inhabited C] {c c' : Cluster n C} (run : Reaches CountsOwnTerm c)
    (later : Run step CountsOwnTerm c c') {x y : Fin n} (leadX : (c.raft x).state = .leader)
    (leadY : (c'.raft y).state = .leader)
    (same : (c.raft x).currentTerm = (c'.raft y).currentTerm) : x = y := by
  obtain ⟨logX, becameX⟩ := (reaches_leadership run).recorded x leadX
  obtain ⟨logY, becameY⟩ := (reaches_leadership (run.trans later)).recorded y leadY
  have wonX := (reaches_elected run x _ logX becameX).mono (run_trace later)
  have wonY := reaches_elected (run.trans later) y _ logY becameY
  change Won c'.trace x (c.raft x).currentTerm at wonX
  rw [same] at wonX
  exact (reaches_ballots (run.trans later)).won_unique wonX wonY

theorem leader_unique_two_peers : ∃ c : Cluster 2 ℕ, Reaches CountsOwnTerm c ∧
    (c.raft 1).state = .leader ∧ ∀ y : Fin 2, (c.raft y).state = .leader →
      (c.raft 1).currentTerm = (c.raft y).currentTerm → 1 = y := by
  obtain ⟨c, run, leads⟩ := exec_test step CountsOwnTerm (RaftCluster.init : Cluster 2 ℕ)
    (List.flatten [timeout 1, poll 1 0 0, tally 1 0])
    (fun c => (c.raft 1).state = .leader) (by decide)
  have leading := of_decide_eq_true leads
  exact ⟨c, run, leading, fun y leadY same => leader_unique run .refl leading leadY same⟩

/-- Each of two peers collects a vote of the other in terms 1 and 2, both move
on to term 3, and only then do the collectors of the old elections wake up. -/
theorem leader_not_unique : ¬ ∀ c : Cluster 2 ℕ, Reaches free c → ∀ x y : Fin 2,
    (c.raft x).state = .leader → (c.raft y).state = .leader →
      (c.raft x).currentTerm = (c.raft y).currentTerm → x = y := by
  obtain ⟨c, run, both⟩ := exec_test step free (RaftCluster.init : Cluster 2 ℕ)
    (List.flatten [timeout 1, poll 1 0 0, timeout 0, poll 0 0 1, timeout 0, timeout 1,
      tally 0 0, tally 1 0])
    (fun c => (c.raft 0).state = .leader ∧ (c.raft 1).state = .leader ∧
      (c.raft 0).currentTerm = (c.raft 1).currentTerm) (by decide)
  obtain ⟨leadX, leadY, same⟩ := of_decide_eq_true both
  intro unique
  exact absurd (unique c run 0 1 leadX leadY same) (by decide)

end DistributedLabs.RaftElection
