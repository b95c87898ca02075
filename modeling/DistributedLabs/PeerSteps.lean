import DistributedLabs.PeerSections
import DistributedLabs.RaftCluster

/-! What one action of the cluster does to the record of one peer, mutex and
killed flag included, and to the goroutine of the peer that applies commits. -/

namespace DistributedLabs.PeerSteps
open GuardedRuns RaftPeer RaftCluster

variable {n : ℕ} {C : Type}

/-- `Ran c s a rf`: the record of `s` is `rf` after action `a` in `c`. -/
inductive Ran (c : Cluster n C) (s : Fin n) : Action n C → Raft n C → Prop
  | idle (a : Action n C) : Ran c s a (c.raft s)
  | kickOff (rf : Raft n C) (args : RequestVoteArgs n) (unlocked : (c.raft s).mu = false)
      (ran : kickOffElection s (c.raft s) = some (rf, args)) :
      Ran c s (.kickOffElection s) rf
  | requestVote (x : Fin n) (k : ℕ) (e : Election n) (rf : Raft n C) (reply : RequestVoteReply)
      (found : (c.elections x)[k]? = some e) (waiting : e.calls s = .requested)
      (unlocked : (c.raft s).mu = false)
      (ran : requestVote (c.raft s) e.args = some (rf, reply)) :
      Ran c s (.requestVote x k s) rf
  | handleRequestVote (k : ℕ) (w : Fin n) (e : Election n) (reply : RequestVoteReply)
      (rf : Raft n C) (vote : Option Bool) (found : (c.elections s)[k]? = some e)
      (replied : e.calls w = .replied reply) (unlocked : (c.raft s).mu = false)
      (ran : handleRequestVote (c.raft s) e.args reply = (rf, vote)) :
      Ran c s (.handleRequestVote s k w) rf
  | collectVotes (k : ℕ) (e : Election n) (rf : Raft n C) (outcome : Collected)
      (found : (c.elections s)[k]? = some e) (unlocked : (c.raft s).mu = false)
      (ran : collectVotes (c.raft s) e.votesReceived = (rf, outcome)) :
      Ran c s (.collectVotes s k) rf
  | sendHeartBeats (j : ℕ) (rf : Raft n C) (sent : Option (List (Fin n × AppendEntriesArgs n C)))
      (unlocked : (c.raft s).mu = false) (ran : sendHeartBeats s (c.raft s) = some (rf, sent)) :
      Ran c s (.sendHeartBeats s j) rf
  | appendEntries (j : ℕ) (call : AppendCall n C) (rf : Raft n C) (reply : AppendEntriesReply)
      (found : c.appendCalls[j]? = some call) (receiver : call.serverTo = s)
      (unanswered : call.reply = none) (unlocked : (c.raft s).mu = false)
      (ran : appendEntries (c.raft s) call.args = some (rf, reply)) :
      Ran c s (.appendEntries j) rf
  | handleAppendEntries (j : ℕ) (call : AppendCall n C) (reply : AppendEntriesReply)
      (rf : Raft n C) (found : c.appendCalls[j]? = some call) (caller : call.caller = s)
      (replied : call.reply = some reply) (unlocked : (c.raft s).mu = false)
      (ran : handleAppendEntries (c.raft s) call.serverTo call.args reply = some rf) :
      Ran c s (.handleAppendEntries j) rf
  | checkerLock (unlocked : (c.raft s).mu = false) : Ran c s (.checkerLock s) (lock (c.raft s))
  | checkerApply (rf : Raft n C) (msg : ApplyMsg C) (ran : applyNext (c.raft s) = some (rf, msg)) :
      Ran c s (.checkerApply s) rf
  | checkerUnlock : Ran c s (.checkerUnlock s) (unlock (c.raft s))
  | start (command : C) (rf : Raft n C) (unlocked : (c.raft s).mu = false)
      (ran : (start (c.raft s) command).1 = rf) : Ran c s (.start s command) rf
  | allocate (room : ℕ) (unlocked : (c.raft s).mu = false) :
      Ran c s (.allocate s room)
        { c.raft s with memory := { (c.raft s).memory with room := room } }
  | killStore : Ran c s (.killStore s) (killStore (c.raft s))
  | killLocked (unlocked : (c.raft s).mu = false) :
      Ran c s (.killLocked s) (killLocked (c.raft s))

theorem ran_setRaft {c : Cluster n C} {s x : Fin n} {a : Action n C} {rf : Raft n C}
    (ran : Ran c x a rf) : Ran c s a ((c.setRaft x rf).raft s) := by
  by_cases same : s = x
  · subst same
    simpa [Cluster.setRaft] using ran
  · simpa [Cluster.setRaft, same] using Ran.idle a

theorem step_ran {c c' : Cluster n C} {a : Action n C} (taken : step c a = some c') (s : Fin n) :
    Ran c s a (c'.raft s) := by
  cases step_taken taken with
  | tickerTest x => exact .idle _
  | tickerCheck x timedOut => exact .idle _
  | kickOff x rf args spawned unlocked ran => exact ran_setRaft (.kickOff rf args unlocked ran)
  | requestVote x k w e rf reply found waiting unlocked ran next answered =>
    subst answered
    have after := ran_setRaft (s := s) (.requestVote x k e rf reply found waiting unlocked ran)
    split <;> exact after
  | handleRequestVote x k w e reply rf vote found replied unlocked ran =>
    exact ran_setRaft (.handleRequestVote k w e reply rf vote found replied unlocked ran)
  | receiveVote x k => exact .idle _
  | collectReturned x k e rf found locking unlocked ran =>
    exact ran_setRaft (.collectVotes k e rf _ found unlocked ran)
  | collectElected x k e rf found locking unlocked ran =>
    exact ran_setRaft (.collectVotes k e rf _ found unlocked ran)
  | collectMore x k e rf found locking unlocked ran =>
    exact ran_setRaft (.collectVotes k e rf _ found unlocked ran)
  | heartbeatTest x j => exact .idle _
  | heartbeatsEnd x j rf waiting unlocked ran =>
    exact ran_setRaft (.sendHeartBeats j rf none unlocked ran)
  | heartbeatsSent x j rf sent waiting unlocked ran =>
    exact ran_setRaft (.sendHeartBeats j rf (some sent) unlocked ran)
  | encode j => exact .idle _
  | appendEntries j call rf reply found unanswered encoded unlocked ran next answered =>
    subst answered
    have after := ran_setRaft (s := s)
      (.appendEntries j call rf reply found rfl unanswered unlocked ran)
    split <;> exact after
  | handleAppendEntries j call reply rf found replied unlocked ran next handled =>
    subst handled
    have after := ran_setRaft (s := s)
      (.handleAppendEntries j call reply rf found rfl replied unlocked ran)
    split <;> exact after
  | checkerTest x => exact .idle _
  | checkerLock x waiting unlocked => exact ran_setRaft (.checkerLock unlocked)
  | checkerApply x rf msg applying ready ran => exact ran_setRaft (.checkerApply rf msg ran)
  | checkerUnlock x => exact ran_setRaft .checkerUnlock
  | started x command rf position term unlocked ran =>
    exact ran_setRaft (.start command rf unlocked (by rw [ran]))
  | startRefused x command rf position term unlocked ran =>
    exact ran_setRaft (.start command rf unlocked (by rw [ran]))
  | allocate x room unlocked => exact ran_setRaft (.allocate room unlocked)
  | killStore x => exact ran_setRaft .killStore
  | killLocked x called unlocked => exact ran_setRaft (.killLocked unlocked)

/-- `Checked c c' s a`: where the `CommitChecker` of `s` stands when `a` leads
from `c` to `c'`, and what it did with the mutex. -/
inductive Checked (c c' : Cluster n C) (s : Fin n) : Action n C → Prop
  | kept {a : Action n C}
      (other : a ≠ .checkerLock s ∧ a ≠ .checkerApply s ∧ a ≠ .checkerUnlock s)
      (same : (c'.threads s).checker = (c.threads s).checker) : Checked c c' s a
  | tested (before : (c.threads s).checker = .top) (after : (c'.threads s).checker ≠ .applying)
      (same : c'.raft s = c.raft s) : Checked c c' s (.checkerTest s)
  | locked (unlocked : (c.raft s).mu = false) (after : (c'.threads s).checker = .applying)
      (held : (c'.raft s).mu = true) : Checked c c' s (.checkerLock s)
  | applied (before : (c.threads s).checker = .applying)
      (same : (c'.threads s).checker = .applying) (held : (c'.raft s).mu = (c.raft s).mu) :
      Checked c c' s (.checkerApply s)
  | unlocked (before : (c.threads s).checker = .applying)
      (after : (c'.threads s).checker = .top) (released : (c'.raft s).mu = false) :
      Checked c c' s (.checkerUnlock s)

theorem setThreads_checker {c : Cluster n C} {s x : Fin n} {threads : Threads}
    (same : threads.checker = (c.threads x).checker) :
    ((c.setThreads x threads).threads s).checker = (c.threads s).checker := by
  by_cases here : s = x
  · subst here
    simpa [Cluster.setThreads] using same
  · simp [Cluster.setThreads, here]

theorem applyNext_mu {rf rf' : Raft n C} {msg : ApplyMsg C}
    (ran : applyNext rf = some (rf', msg)) : rf'.mu = rf.mu := by
  have ⟨entry, _, same⟩ := Option.map_eq_some_iff.mp ran
  rw [← (Prod.mk.inj same).1]

theorem step_checked {c c' : Cluster n C} {a : Action n C} (taken : step c a = some c')
    (s : Fin n) : Checked c c' s a := by
  cases step_taken taken with
  | tickerTest x => exact .kept (by simp) (setThreads_checker rfl)
  | tickerCheck x timedOut => exact .kept (by simp) (setThreads_checker rfl)
  | kickOff x => exact .kept (by simp) (setThreads_checker (c := c) rfl)
  | requestVote x k w e rf reply found waiting unlocked ran next answered =>
    subst answered
    refine .kept (by simp) ?_
    split <;> rfl
  | handleRequestVote x k w => exact .kept (by simp) rfl
  | receiveVote x k => exact .kept (by simp) rfl
  | collectReturned x k => exact .kept (by simp) rfl
  | collectElected x k => exact .kept (by simp) (setThreads_checker (c := c) rfl)
  | collectMore x k => exact .kept (by simp) rfl
  | heartbeatTest x j => exact .kept (by simp) (setThreads_checker rfl)
  | heartbeatsEnd x j => exact .kept (by simp) (setThreads_checker (c := c) rfl)
  | heartbeatsSent x j => exact .kept (by simp) (setThreads_checker (c := c) rfl)
  | encode j => exact .kept (by simp) rfl
  | appendEntries j call rf reply found unanswered encoded unlocked ran next answered =>
    subst answered
    refine .kept (by simp) ?_
    split <;> rfl
  | handleAppendEntries j call reply rf found replied unlocked ran next handled =>
    subst handled
    refine .kept (by simp) ?_
    split <;> rfl
  | checkerTest x waiting =>
    by_cases here : s = x
    · subst here
      refine .tested waiting ?_ rfl
      simp only [Cluster.setThreads, Function.update_self]
      split <;> simp
    · exact .kept (by simp) (by simp [Cluster.setThreads, here])
  | checkerLock x waiting unlocked =>
    by_cases here : s = x
    · subst here
      refine .locked unlocked ?_ ?_
      · simp [Cluster.setThreads]
      · simp [Cluster.setThreads, Cluster.setRaft, lock]
    · exact .kept (by simp [Ne.symm here]) (by simp [Cluster.setThreads, Cluster.setRaft, here])
  | checkerApply x rf msg applying ready ran =>
    by_cases here : s = x
    · subst here
      refine .applied applying applying ?_
      simpa [Cluster.record, Cluster.setRaft] using applyNext_mu ran
    · exact .kept (by simp [Ne.symm here]) rfl
  | checkerUnlock x applying =>
    by_cases here : s = x
    · subst here
      refine .unlocked applying ?_ ?_
      · simp [Cluster.setThreads]
      · simp [Cluster.setThreads, Cluster.setRaft, unlock]
    · exact .kept (by simp [Ne.symm here]) (by simp [Cluster.setThreads, Cluster.setRaft, here])
  | started x command => exact .kept (by simp) rfl
  | startRefused x command => exact .kept (by simp) rfl
  | allocate x room => exact .kept (by simp) rfl
  | killStore x => exact .kept (by simp) (setThreads_checker (c := c) rfl)
  | killLocked x => exact .kept (by simp) (setThreads_checker (c := c) rfl)

end DistributedLabs.PeerSteps
