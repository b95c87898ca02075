import DistributedLabs.PeerSteps
import DistributedLabs.RaftElection
import DistributedLabs.RaftHints

/-! How far a leader believes its peers to be. `handleAppendEntries` writes
`matchIndex` and `nextIndex` without comparing them with what is there, so
progress depends on the order in which replies are handled. The cluster is
observed: next to it stand the calls handled so far. -/

namespace DistributedLabs.RaftProgress
open GuardedRuns RaftPeer RaftCluster RaftMoves RaftElection RaftRoots RaftHints PeerSteps

variable {n : ℕ} {C : Type}

def handled (c : Cluster n C) : Action n C → List (AppendCall n C)
  | .handleAppendEntries j => c.appendCalls[j]?.toList
  | _ => []

abbrev Watched (n : ℕ) (C : Type) := Cluster n C × List (AppendCall n C)

def watch : Watched n C → Action n C → Option (Watched n C) := observed step handled

def covers (args : AppendEntriesArgs n C) : ℤ := args.prevLogIndex + args.entries.length

/-- `r` succeeded, and it went from the same leader to the same peer in the
same term as `call`. -/
def Succeeded (r call : AppendCall n C) : Prop :=
  r.caller = call.caller ∧ r.serverTo = call.serverTo ∧ r.args.term = call.args.term ∧
    r.reply.map AppendEntriesReply.success = some true

instance (r call : AppendCall n C) : Decidable (Succeeded r call) :=
  inferInstanceAs (Decidable (_ ∧ _ ∧ _ ∧ _))

/-- No reply is handled after the success of a request that covered more, where
a refusal covers nothing. -/
def InOrder (m : Watched n C) : Action n C → Prop
  | .handleAppendEntries j => ∀ call ∈ m.1.appendCalls[j]?, ∀ reply ∈ call.reply,
      call.args.term = (m.1.raft call.caller).currentTerm → ∀ r ∈ m.2, Succeeded r call →
        (reply.success = true → covers r.args ≤ covers call.args) ∧
        (reply.success = false → reply.term = call.args.term → covers r.args ≤ 0)
  | _ => True

instance (m : Watched n C) : (a : Action n C) → Decidable (InOrder m a)
  | .handleAppendEntries j => inferInstanceAs (Decidable (∀ call ∈ m.1.appendCalls[j]?,
      ∀ reply ∈ call.reply, call.args.term = (m.1.raft call.caller).currentTerm → ∀ r ∈ m.2,
        Succeeded r call → (reply.success = true → covers r.args ≤ covers call.args) ∧
          (reply.success = false → reply.term = call.args.term → covers r.args ≤ 0)))
  | .tickerTest _ | .tickerCheck _ _ | .kickOffElection _ | .requestVote _ _ _
  | .handleRequestVote _ _ _ | .receiveVote _ _ | .collectVotes _ _ | .heartbeatTest _ _
  | .sendHeartBeats _ _ | .encode _ | .appendEntries _ | .checkerTest _ | .checkerLock _
  | .checkerApply _ | .checkerUnlock _ | .start _ _ | .allocate _ _ | .killStore _
  | .killLocked _ => isTrue trivial

inductive Shifted (c : Cluster n C) (s : Fin n) : Action n C → Raft n C → Prop
  | kept {a : Action n C} {rf : Raft n C} (term : (c.raft s).currentTerm ≤ rf.currentTerm)
      (notes : rf.matchIndex = (c.raft s).matchIndex)
      (next : rf.nextIndex = (c.raft s).nextIndex) : Shifted c s a rf
  | elected {a : Action n C} {rf : Raft n C} (standing : (c.raft s).state = .candidate)
      (term : rf.currentTerm = (c.raft s).currentTerm) : Shifted c s a rf
  | matched {rf : Raft n C} (j : ℕ) (call : AppendCall n C) (reply : AppendEntriesReply)
      (found : c.appendCalls[j]? = some call) (caller : call.caller = s)
      (replied : call.reply = some reply) (success : reply.success = true)
      (current : call.args.term = (c.raft s).currentTerm)
      (term : rf.currentTerm = (c.raft s).currentTerm)
      (notes : rf.matchIndex =
        Function.update (c.raft s).matchIndex call.serverTo (covers call.args))
      (next : rf.nextIndex =
        Function.update (c.raft s).nextIndex call.serverTo (covers call.args + 1)) :
      Shifted c s (.handleAppendEntries j) rf
  | refused {rf : Raft n C} (j : ℕ) (call : AppendCall n C) (reply : AppendEntriesReply)
      (found : c.appendCalls[j]? = some call) (caller : call.caller = s)
      (replied : call.reply = some reply) (failure : reply.success = false)
      (current : call.args.term = (c.raft s).currentTerm)
      (own : reply.term = (c.raft s).currentTerm)
      (term : rf.currentTerm = (c.raft s).currentTerm)
      (notes : rf.matchIndex = (c.raft s).matchIndex)
      (next : rf.nextIndex = Function.update (c.raft s).nextIndex call.serverTo
        (nextAfterConflict (c.raft s).log reply)) :
      Shifted c s (.handleAppendEntries j) rf

section Shifts

variable {c c' : Cluster n C} {s : Fin n} {a : Action n C} {rf : Raft n C}

theorem Shifted.term_le (shift : Shifted c s a rf) : (c.raft s).currentTerm ≤ rf.currentTerm := by
  cases shift with
  | kept term => exact term
  | elected standing term => exact term.ge
  | matched j call reply found caller replied success current term => exact term.ge
  | refused j call reply found caller replied failure current own term => exact term.ge

theorem shifted_same (same : rf.toPeer = (c.raft s).toPeer) : Shifted c s a rf :=
  .kept (by rw [same]) (by rw [same]) (by rw [same])

theorem shifted_stepUp {t : ℕ} (raised : rf.toPeer = (c.raft s).toPeer.stepUp t) :
    Shifted c s a rf :=
  .kept (by rw [raised]; simp) (by rw [raised]; simp) (by rw [raised]; simp)

theorem shifted_ran (ran : Ran c s a rf) : Shifted c s a rf := by
  cases ran with
  | idle => exact shifted_same rfl
  | kickOff rf args unlocked ran =>
    obtain ⟨_, _, same⟩ := Option.map_eq_some_iff.mp ran
    rw [← (Prod.mk.inj same).1]
    exact .kept (Nat.le_succ _) rfl rfl
  | requestVote x k e rf reply found waiting unlocked ran =>
    rcases requestVote_cases ran with ⟨_, same⟩ | ⟨_, _, _, _, _, _, same⟩
    · exact shifted_stepUp same
    · exact .kept (by rw [same]; simp [Peer.grant]) (by rw [same]; simp [Peer.grant])
        (by rw [same]; simp [Peer.grant])
  | handleRequestVote k w e reply rf vote found replied unlocked ran =>
    rcases handleRequestVote_cases ran with ⟨_, _, same⟩ | ⟨_, _, _, same⟩
    · exact shifted_stepUp same
    · exact shifted_same same
  | collectVotes k e rf outcome found unlocked ran =>
    rcases collectVotes_cases ran with ⟨_, same⟩ | ⟨_, standing, _, same⟩
    · exact shifted_same same
    · exact .elected standing (by rw [same]; rfl)
  | sendHeartBeats j rf sent unlocked ran => exact shifted_same (sendHeartBeats_toPeer ran)
  | appendEntries j call rf reply found receiver unanswered unlocked ran =>
    rcases appendEntries_cases ran with ⟨_, _, same⟩ | ⟨_, _, same⟩ | ⟨_, _, _, _, _, same⟩
    · exact shifted_same same
    · exact shifted_stepUp same
    · exact .kept (by rw [same]; simp [Peer.accepted]) (by rw [same]; simp [Peer.accepted])
        (by rw [same]; simp [Peer.accepted])
  | handleAppendEntries j call reply rf found caller replied unlocked ran =>
    rcases handleAppendEntries_cases ran with same | ⟨current, success, same⟩ |
      ⟨M, current, success, same, _⟩ | ⟨_, _, same⟩ | ⟨current, failure, own, _, same⟩
    · exact shifted_same same
    · exact .matched j call reply found caller replied success current (by rw [same]; rfl)
        (by rw [same]; rfl) (by rw [same]; rfl)
    · exact .matched j call reply found caller replied success current (by rw [same]; rfl)
        (by rw [same]; rfl) (by rw [same]; rfl)
    · exact shifted_stepUp same
    · exact .refused j call reply found caller replied failure current own
        (by rw [same]; rfl) (by rw [same]; rfl) (by rw [same]; rfl)
  | checkerLock => exact shifted_same rfl
  | checkerApply rf msg ran =>
    obtain ⟨_, _, same⟩ := Option.map_eq_some_iff.mp ran
    rw [← (Prod.mk.inj same).1]
    exact .kept le_rfl rfl rfl
  | checkerUnlock => exact shifted_same rfl
  | start command rf unlocked ran =>
    rw [← ran]
    by_cases leading : (c.raft s).state = .leader
    · exact .kept (by simp [start, setLog, lock, unlock, leading])
        (by simp [start, setLog, lock, unlock, leading])
        (by simp [start, setLog, lock, unlock, leading])
    · exact shifted_same (by simp [start, lock, unlock, leading])
  | allocate => exact .kept le_rfl rfl rfl
  | killStore => exact shifted_same rfl
  | killLocked => exact .kept le_rfl rfl rfl

/-- `s` has become leader of its current term. It may have been killed since,
and its handlers go on. -/
def Led (c : Cluster n C) (s : Fin n) : Prop :=
  ∃ log, .becameLeader s (c.raft s).currentTerm log ∈ c.trace

theorem Led.settled (led : Led c s) (lead : Leadership (view c)) :
    (c.raft s).state ≠ .candidate := by
  have ⟨log, became⟩ := led
  have ⟨state, _⟩ := (lead.held s _ log became).2 rfl
  intro standing
  rw [show ((view c).peer s).state = .candidate from standing] at state
  simp at state

theorem led_step (lead : Leadership (view c)) (taken : step c a = some c') {T : ℕ}
    {log : List (LogEntry C)} (became : .becameLeader s T log ∈ c'.trace)
    (term : (c'.raft s).currentTerm = T) :
    (.becameLeader s T log ∈ c.trace ∧ (c.raft s).currentTerm = T) ∨
      (c'.raft s).toPeer = (c.raft s).toPeer.lead := by
  rcases (step_moved taken).becameLeader became with old | ⟨_, _, _, _, _, _, _, elected⟩
  · have bound : T ≤ (c.raft s).currentTerm := (lead.held s T log old).1
    have forward := (shifted_ran (step_ran taken s)).term_le
    exact .inl ⟨old, by omega⟩
  · exact .inr elected

end Shifts

/-- What a leader has noted for peer `i`: nothing, or what a handled success of
its term covered; and it goes on behind that. -/
structure Noted (m : Watched n C) (s i : Fin n) : Prop where
  source : (m.1.raft s).matchIndex i = 0 ∨
    ∃ r ∈ m.2, r.caller = s ∧ r.serverTo = i ∧ r.args.term = (m.1.raft s).currentTerm ∧
      r.reply.map AppendEntriesReply.success = some true ∧
      (m.1.raft s).matchIndex i = covers r.args
  ahead : (m.1.raft s).matchIndex i < (m.1.raft s).nextIndex i

section Steps

variable {m m' : Watched n C} {s i : Fin n} {a : Action n C}

theorem Noted.covered (h : Noted m s i) {j : ℕ} (order : InOrder m (.handleAppendEntries j))
    {call : AppendCall n C} {reply : AppendEntriesReply}
    (found : m.1.appendCalls[j]? = some call) (caller : call.caller = s)
    (receiver : call.serverTo = i) (replied : call.reply = some reply)
    (current : call.args.term = (m.1.raft s).currentTerm)
    (nonneg : 0 ≤ call.args.prevLogIndex) :
    (reply.success = true → (m.1.raft s).matchIndex i ≤ covers call.args) ∧
      (reply.success = false → reply.term = call.args.term →
        (m.1.raft s).matchIndex i ≤ 0) := by
  rcases h.source with nothing | ⟨r, seen, from_s, to_i, term, success, same⟩
  · rw [nothing]
    refine ⟨fun _ => ?_, fun _ _ => le_rfl⟩
    unfold covers
    omega
  · rw [same]
    exact order call found reply replied (by rw [caller]; exact current) r seen
      ⟨from_s.trans caller.symm, to_i.trans receiver.symm, term.trans current.symm, success⟩

theorem Noted.source_kept (h : Noted m s i) (taken : watch m a = some m')
    (term : (m'.1.raft s).currentTerm = (m.1.raft s).currentTerm)
    (notes : (m'.1.raft s).matchIndex i = (m.1.raft s).matchIndex i) :
    (m'.1.raft s).matchIndex i = 0 ∨
      ∃ r ∈ m'.2, r.caller = s ∧ r.serverTo = i ∧ r.args.term = (m'.1.raft s).currentTerm ∧
        r.reply.map AppendEntriesReply.success = some true ∧
        (m'.1.raft s).matchIndex i = covers r.args := by
  rw [notes, term, (observed_some.mp taken).2]
  exact h.source.imp_right fun ⟨r, old, rest⟩ => ⟨r, List.mem_append_left _ old, rest⟩

theorem Noted.step (h : Noted m s i) (known : Roots (view m.1)) (hints : Hints (view m.1))
    (order : InOrder m a) (taken : watch m a = some m')
    (settled : (m.1.raft s).state ≠ .candidate)
    (term : (m'.1.raft s).currentTerm = (m.1.raft s).currentTerm) :
    Noted m' s i ∧ (m.1.raft s).matchIndex i ≤ (m'.1.raft s).matchIndex i := by
  cases shifted_ran (step_ran (observed_some.mp taken).1 s) with
  | kept _ notes next =>
    refine ⟨⟨h.source_kept taken term (by rw [notes]), ?_⟩, by rw [notes]⟩
    rw [notes, next]
    exact h.ahead
  | elected standing => exact absurd standing settled
  | matched j call reply found caller replied success current _ notes next =>
    by_cases here : i = call.serverTo
    · have nonneg := (known.calls call (List.mem_of_getElem? found)).inside
      have more := (h.covered order found caller here.symm replied current nonneg).1 success
      have now : (m'.1.raft s).matchIndex i = covers call.args := by
        rw [notes, here, Function.update_self]
      have behind : (m'.1.raft s).nextIndex i = covers call.args + 1 := by
        rw [next, here, Function.update_self]
      refine ⟨⟨.inr ⟨call, ?_, caller, here.symm, current.trans term.symm, ?_, now⟩, ?_⟩, ?_⟩
      · rw [(observed_some.mp taken).2]
        simp [handled, found]
      · simp [replied, success]
      · omega
      · rw [now]
        exact more
    · have same : (m'.1.raft s).matchIndex i = (m.1.raft s).matchIndex i := by
        rw [notes, Function.update_of_ne here]
      refine ⟨⟨h.source_kept taken term same, ?_⟩, same.ge⟩
      rw [same, next, Function.update_of_ne here]
      exact h.ahead
  | refused j call reply found caller replied failure current own _ notes next =>
    have same : (m'.1.raft s).matchIndex i = (m.1.raft s).matchIndex i := by rw [notes]
    refine ⟨⟨h.source_kept taken term same, ?_⟩, same.ge⟩
    by_cases here : i = call.serverTo
    · -- a refusal in order finds nothing noted, and its hint is positive
      have member := List.mem_of_getElem? found
      have nonneg := (known.calls call member).inside
      have own' : reply.term = call.args.term := own.trans current.symm
      have nothing := (h.covered order found caller here.symm replied current nonneg).2 failure own'
      have hint := (hints.replies call member reply replied failure own').positive
      have back : 1 ≤ nextAfterConflict (m.1.raft s).log reply := nextAfterConflict_pos hint
      rw [same, next, here, Function.update_self]
      rw [here] at nothing
      omega
    · rw [same, next, Function.update_of_ne here]
      exact h.ahead

theorem Noted.elected (rooted : (m.1.raft s).log ≠ [])
    (elected : (m'.1.raft s).toPeer = (m.1.raft s).toPeer.lead) : Noted m' s i := by
  have length := List.length_pos_iff.mpr rooted
  refine ⟨.inl (by rw [elected]; rfl), ?_⟩
  rw [elected]
  simp only [Peer.lead]
  omega

end Steps

section Runs

variable [Inhabited C] {m m' : Watched n C}

theorem watched_reaches {ok : Watched n C → Action n C → Prop}
    (run : Run watch ok (RaftCluster.init, []) m) : Reaches free m.1 :=
  (observed_run []).mpr ⟨m.2, run.mono fun _ _ _ => trivial⟩

theorem watched_step (run : Run watch InOrder (RaftCluster.init, []) m) {a : Action n C}
    (order : InOrder m a) (taken : watch m a = some m') {s i : Fin n} (h : Noted m s i)
    {log : List (LogEntry C)} (became : .becameLeader s (m.1.raft s).currentTerm log ∈ m.1.trace)
    (term : (m'.1.raft s).currentTerm = (m.1.raft s).currentTerm) :
    Noted m' s i ∧ (m.1.raft s).matchIndex i ≤ (m'.1.raft s).matchIndex i := by
  have reached := watched_reaches run
  exact h.step (reaches_roots reached) (reaches_hints reached) order taken
    (Led.settled ⟨log, became⟩ (reaches_leadership reached)) term

theorem watched_noted (run : Run watch InOrder (RaftCluster.init, []) m) {s : Fin n}
    (led : Led m.1 s) (i : Fin n) : Noted m s i := by
  induction run with
  | refl =>
    have ⟨_, became⟩ := led
    exact absurd became List.not_mem_nil
  | tail before order taken ih =>
    have ⟨log, became⟩ := led
    have reached := watched_reaches before
    have plain := (observed_some.mp taken).1
    rcases led_step (reaches_leadership reached) plain became rfl with ⟨old, same⟩ | elected
    · rw [← same] at old
      exact (watched_step before order taken (ih ⟨log, old⟩) old same.symm).1
    · exact .elected ((reaches_roots reached).peers s).log.ne_nil elected

/-- While replies are handled in order, the `matchIndex` of a server that has
become leader of term `T` never decreases as long as it stays in `T`, and its
`nextIndex` is ahead of it. -/
theorem progress_forward (run : Run watch InOrder (RaftCluster.init, []) m)
    (later : Run watch InOrder m m') {s : Fin n} {T : ℕ} {log : List (LogEntry C)}
    (became : .becameLeader s T log ∈ m.1.trace) (term : (m'.1.raft s).currentTerm = T)
    (i : Fin n) :
    (m'.1.raft s).matchIndex i < (m'.1.raft s).nextIndex i ∧
      (m.1.raft s).matchIndex i ≤ (m'.1.raft s).matchIndex i := by
  have recorded {t : Watched n C} (between : Run watch InOrder m t) :
      .becameLeader s T log ∈ t.1.trace := by
    have plain : Run step free m.1 t.1 :=
      (observed_run m.2).mpr ⟨t.2, between.mono fun _ _ _ => trivial⟩
    exact (run_trace plain).subset became
  refine ⟨(watched_noted (run.trans later) ⟨log, ?_⟩ i).ahead, ?_⟩
  · rw [term]
    exact recorded later
  induction later with
  | refl => exact le_rfl
  | @tail t u a before order taken ih =>
    have upTo := run.trans before
    have old := recorded before
    have bound : T ≤ (t.1.raft s).currentTerm :=
      ((reaches_leadership (watched_reaches upTo)).held s T log old).1
    have forward := (shifted_ran (step_ran (observed_some.mp taken).1 s)).term_le
    have now : (t.1.raft s).currentTerm = T := by omega
    rw [← now] at old
    have noted := watched_noted upTo ⟨log, old⟩ i
    exact (ih now).trans (watched_step upTo order taken noted old (term.trans now.symm)).2


/-- One round in which the follower takes over an entry. -/
theorem progress_forward_round : ∃ m m' : Watched 2 ℕ,
    Run watch InOrder (RaftCluster.init, []) m ∧ Run watch InOrder m m' ∧
      (m'.1.raft 0).matchIndex 1 = 1 ∧
      (m.1.raft 0).matchIndex 1 ≤ (m'.1.raft 0).matchIndex 1 := by
  obtain ⟨m, run, both⟩ := exec_test watch InOrder ((RaftCluster.init, []) : Watched 2 ℕ)
    (List.flatten [timeout 0, poll 0 0 1, tally 0 0, [.start 0 7], beat 0 0, encodes 0 1,
      [.appendEntries 0]])
    (fun m => .becameLeader 0 1 [⟨0, 0⟩] ∈ m.1.trace ∧
      (exec watch InOrder m [.handleAppendEntries 0]).map (fun m' =>
        ((m'.1.raft 0).currentTerm, (m'.1.raft 0).matchIndex 1)) = some (1, 1)) (by decide)
  have ⟨became, handles⟩ := of_decide_eq_true both
  have ⟨m', done, same⟩ := Option.map_eq_some_iff.mp handles
  have ⟨term, one⟩ := Prod.mk.inj same
  have later := exec_run done
  exact ⟨m, m', run, later, one, (progress_forward run later became term 1).2⟩

/-- Two rounds are outstanding, the second with an entry. Its success is handled
first, and then the success of the first one takes it back. -/
theorem progress_reversed : ¬ ∀ (c c' : Cluster 2 ℕ) (s i : Fin 2) (T : ℕ)
    (log : List (LogEntry ℕ)), Reaches free c → Run step free c c' →
      .becameLeader s T log ∈ c.trace → (c'.raft s).currentTerm = T →
        (c.raft s).matchIndex i ≤ (c'.raft s).matchIndex i := by
  obtain ⟨c, run, both⟩ := exec_test step free (RaftCluster.init : Cluster 2 ℕ)
    (List.flatten [timeout 0, poll 0 0 1, tally 0 0, beat 0 0, [.start 0 7], beat 0 0, encodes 1 1,
      [.appendEntries 0, .appendEntries 1, .handleAppendEntries 1]])
    (fun c => .becameLeader 0 1 [⟨0, 0⟩] ∈ c.trace ∧ (c.raft 0).matchIndex 1 = 1 ∧
      (step c (.handleAppendEntries 0)).map (fun c' =>
        ((c'.raft 0).currentTerm, (c'.raft 0).matchIndex 1)) = some (1, 0)) (by decide)
  have ⟨became, one, handles⟩ := of_decide_eq_true both
  have ⟨c', taken, same⟩ := Option.map_eq_some_iff.mp handles
  have ⟨term, zero⟩ := Prod.mk.inj same
  intro forward
  have back := forward c c' 0 1 1 _ run (Run.refl.tail trivial taken) became term
  rw [one, zero] at back
  exact absurd back (by decide)

end Runs

end DistributedLabs.RaftProgress
