import DistributedLabs.LedgerGrowth
import DistributedLabs.RaftCommits
import DistributedLabs.RaftProvenance

/-! The cluster keeps a ledger. Next to the conditions of a sound election,
`AppendEntries` must not be handed entries that its peer already holds, since
it compares only the first of them and appends them all again, and encoders
must find the entries that the request was built with. Along every run that
meets these conditions there is a valid ledger that agrees with each peer, each
election, each request and each recorded event. -/

namespace DistributedLabs.RaftLedger
open GuardedRuns TermLogs TermLedger RaftPeer RaftCluster RaftMoves RaftVotes RaftElection
open RaftCommits RaftProvenance

variable {n : ℕ} {C : Type}

instance (log : List (LogEntry C)) (args : AppendEntriesArgs n C) :
    Decidable (Overlaps log args) :=
  inferInstanceAs (Decidable (∃ first ∈ args.entries.head?,
    ∃ stored ∈ index log (args.prevLogIndex + 1), stored.term = first.term))

/-- The peer accepts the request and already holds an entry of the same term
where the first new entry belongs. -/
def Resends (rf : Peer n C) (args : AppendEntriesArgs n C) : Prop :=
  rf.currentTerm ≤ args.term ∧
    (∃ prev ∈ index rf.log args.prevLogIndex, prev.term = args.prevLogTerm) ∧
    Overlaps rf.log args

instance (rf : Peer n C) (args : AppendEntriesArgs n C) :
    Decidable (Resends rf args) :=
  inferInstanceAs (Decidable (_ ∧ _ ∧ _))

/-- No accepted request overlaps the log of its receiver. -/
def SendsNew (c : Cluster n C) : Action n C → Prop
  | .appendEntries j => ∀ call ∈ c.appendCalls[j]?,
      ¬ Resends (c.raft call.serverTo).toPeer call.args
  | _ => True

instance (c : Cluster n C) : (a : Action n C) → Decidable (SendsNew c a)
  | .appendEntries j => inferInstanceAs (Decidable (∀ call ∈ c.appendCalls[j]?,
      ¬ Resends (c.raft call.serverTo).toPeer call.args))
  | .tickerTest _ | .tickerCheck _ _ | .kickOffElection _ | .requestVote _ _ _
  | .handleRequestVote _ _ _ | .receiveVote _ _ | .collectVotes _ _ | .heartbeatTest _ _
  | .sendHeartBeats _ _ | .encode _ | .handleAppendEntries _ | .checkerTest _ | .checkerLock _
  | .checkerApply _ | .checkerUnlock _ | .start _ _ | .allocate _ _ | .killStore _
  | .killLocked _ => isTrue trivial

def Orderly (c : Cluster n C) (a : Action n C) : Prop :=
  CountsOwnTerm c a ∧ SendsNew c a ∧ SendsBuilt c a

instance [DecidableEq C] (c : Cluster n C) (a : Action n C) : Decidable (Orderly c a) :=
  inferInstanceAs (Decidable (_ ∧ _ ∧ _))

def reach (args : AppendEntriesArgs n C) : ℕ := args.prevLogIndex.toNat + args.entries.length

/-- A request against the leading log of its term, and what its reply means. -/
structure Sent (L : Ledger (Fin n) (LogEntry C)) (call : AppendCall n C) : Prop where
  apart : call.serverTo ≠ call.caller
  leader : L.leader call.args.term = some call.caller
  nonneg : 0 ≤ call.args.prevLogIndex
  inside : reach call.args < (L.leading call.args.term).length
  before : ∃ e, (L.leading call.args.term)[call.args.prevLogIndex.toNat]? = some e ∧
    e.term = call.args.prevLogTerm
  slice : (L.leading call.args.term).take (reach call.args + 1) =
    (L.leading call.args.term).take (call.args.prevLogIndex.toNat + 1) ++ call.args.entries
  commit : call.args.leaderCommit ≤ reach call.args
  settled : L.Settled call.args.term (L.leading call.args.term) call.args.leaderCommit.toNat
  acked : ∀ reply, call.reply = some reply → reply.success = true →
    ∀ k ≤ reach call.args, L.acked call.serverTo call.args.term k
  hint : ∀ reply, call.reply = some reply → reply.success = false →
    reply.term = call.args.term → reply.conflictIndex ≤ call.args.prevLogIndex

def Stands (L : Ledger (Fin n) (LogEntry C)) (x : Fin n) (args : RequestVoteArgs n) : Prop :=
  ∃ log, log ≠ [] ∧ L.stood x args.term = some log ∧
    args.lastLogIndex = (log.length : ℤ) - 1 ∧ args.lastLogTerm = lastTerm LogEntry.term log

structure Serves (L : Ledger (Fin n) (LogEntry C)) (s : Fin n) (p : Peer n C) : Prop where
  current : L.current s = p.currentTerm
  log : L.log s = p.log
  standing : p.state = .candidate → L.leader p.currentTerm = none →
    L.stood s p.currentTerm = some p.log
  applied : 0 ≤ p.lastApplied ∧ p.lastApplied ≤ p.commitIndex
  commit : p.commitIndex < p.log.length
  settled : L.Settled p.currentTerm p.log p.commitIndex.toNat
  matched : L.leader p.currentTerm = some s → ∀ i (k : ℕ), 0 < p.matchIndex i →
    k ≤ p.matchIndex i → L.acked i p.currentTerm k
  next : L.leader p.currentTerm = some s → ∀ i, p.nextIndex i ≤ p.log.length

def Fits (L : Ledger (Fin n) (LogEntry C)) : Event n C → Prop
  | .voted w t x => L.leader t ≠ none ∨ ∃ log, L.ballot w t = some (x, log)
  | .becameLeader s t log => L.leader t = some s ∧ L.opening t = log
  | .advanced _ t N log => ∃ m : ℕ, N = m ∧ L.committed t m ∧
      (L.leading t).take (m + 1) <+: log
  | .applied _ msg => ∃ (i : ℕ) (e : LogEntry C), msg.commandIndex = i ∧ msg.command = e.command ∧
      L.Decided i e
  | .started _ _ _ => True
  | .answered _ _ => True

structure Coupled (v : View n C) (L : Ledger (Fin n) (LogEntry C)) : Prop where
  valid : L.Valid LogEntry.term
  servers : ∀ s, Serves L s (v.peer s)
  elections : ∀ x, ∀ e ∈ v.elections x, Stands L x e.args
  calls : ∀ call ∈ v.appendCalls, Sent L call
  fits : ∀ event ∈ v.trace, Fits L event
  led : ∀ t s, L.leader t = some s → ∃ log, .becameLeader s t log ∈ v.trace
  cast : ∀ w t x log, L.ballot w t = some (x, log) → .voted w t x ∈ v.trace

section Monotone

variable {L L' : Ledger (Fin n) (LogEntry C)}

theorem Sent.mono (valid : L.Valid LogEntry.term) (grow : Extends L L') {call : AppendCall n C}
    (h : Sent L call) : Sent L' call where
  apart := h.apart
  leader := grow.leader _ _ h.leader
  nonneg := h.nonneg
  inside := h.inside.trans_le (grow.leading _).length_le
  before := by
    obtain ⟨e, found, same⟩ := h.before
    exact ⟨e, prefix_get (grow.leading _) found, same⟩
  slice := by
    have inside := h.inside
    rw [grow.take h.inside, grow.take (by unfold reach at inside; omega)]
    exact h.slice
  commit := h.commit
  settled := h.settled.mono valid grow le_rfl (grow.leading _)
  acked reply replied success k below := grow.acked _ _ _ (h.acked reply replied success k below)
  hint := h.hint

theorem Stands.mono (grow : Extends L L') {x : Fin n} {args : RequestVoteArgs n}
    (h : Stands L x args) : Stands L' x args := by
  obtain ⟨log, nonempty, stood, rest⟩ := h
  exact ⟨log, nonempty, grow.stood x _ log stood, rest⟩

theorem Serves.mono (valid : L.Valid LogEntry.term) (grow : Extends L L') {s : Fin n}
    {p : Peer n C} (current : L'.current s = L.current s) (log : L'.log s = L.log s)
    (leader : ∀ t, L'.leader t = some s → L.leader t = some s) (h : Serves L s p) :
    Serves L' s p where
  current := current.trans h.current
  log := log.trans h.log
  standing candidate unled := grow.stood _ _ _ (h.standing candidate (grow.unled unled))
  applied := h.applied
  commit := h.commit
  settled := h.settled.mono valid grow le_rfl List.prefix_rfl
  matched led i k positive below := grow.acked _ _ _ (h.matched (leader _ led) i k positive below)
  next led := h.next (leader _ led)

theorem Fits.mono (valid : L.Valid LogEntry.term) (grow : Extends L L') {event : Event n C}
    (h : Fits L event) : Fits L' event := by
  cases event with
  | voted w t x =>
    rcases h with led | ⟨log, ballot⟩
    · exact .inl fun unled => led (grow.unled unled)
    · exact .inr (grow.ballot w t x log ballot)
  | becameLeader s t log =>
    obtain ⟨leader, opening⟩ := h
    exact ⟨grow.leader t s leader, (grow.opening t s leader).trans opening⟩
  | advanced l t N log =>
    obtain ⟨m, same, committed, part⟩ := h
    refine ⟨m, same, grow.committed t m committed, ?_⟩
    rwa [grow.take (valid.short_of_committed committed)]
  | applied s msg =>
    obtain ⟨i, e, position, command, u, m, committed, inside, found⟩ := h
    exact ⟨i, e, position, command, u, m, grow.committed u m committed, inside,
      prefix_get (grow.leading u) found⟩
  | started s entry position => trivial
  | answered s args => trivial

end Monotone

section Rules

variable {v : View n C} {L L' : Ledger (Fin n) (LogEntry C)}

theorem Coupled.act (h : Coupled v L) {s : Fin n} {p : Peer n C} (acts : ActsAt s L L')
    (valid : L'.Valid LogEntry.term) (server : Serves L' s p) : Coupled (v.setPeer s p) L' where
  valid := valid
  servers w := by
    rcases eq_or_ne w s with rfl | other
    · simpa [View.setPeer] using server
    · simp only [View.setPeer, Function.update_of_ne other]
      exact (h.servers w).mono h.valid acts.toExtends (acts.currentSame w other)
        (acts.logSame w other) (fun t led => acts.leaderSame ▸ led)
  elections x e member := (h.elections x e member).mono acts.toExtends
  calls call member := (h.calls call member).mono h.valid acts.toExtends
  fits event member := (h.fits event member).mono h.valid acts.toExtends
  led t w leader := h.led t w (acts.leaderSame ▸ leader)
  cast w t x log ballot := h.cast w t x log (acts.ballotSame ▸ ballot)

theorem Coupled.setPeer (h : Coupled v L) {s : Fin n} {p : Peer n C} (server : Serves L s p) :
    Coupled (v.setPeer s p) L :=
  h.act (ActsAt.refl s L) h.valid server

theorem Coupled.record (h : Coupled v L) {event : Event n C} (fits : Fits L event) :
    Coupled (v.record event) L where
  valid := h.valid
  servers := h.servers
  elections := h.elections
  calls := h.calls
  fits other member := by
    rcases List.mem_append.mp member with old | new
    · exact h.fits other old
    · rw [List.mem_singleton.mp new]
      exact fits
  led t s leader := (h.led t s leader).imp fun _ found => List.mem_append_left _ found
  cast w t x log ballot := List.mem_append_left _ (h.cast w t x log ballot)

theorem Coupled.setCalls (h : Coupled v L) {calls : List (AppendCall n C)}
    (sent : ∀ call ∈ calls, call ∈ v.appendCalls ∨ Sent L call) :
    Coupled { v with appendCalls := calls } L :=
  { h with calls := fun call member => (sent call member).elim (h.calls call) id }

theorem Coupled.dropCall (h : Coupled v L) (j : ℕ) : Coupled (v.dropCall j) L :=
  h.setCalls fun _ member => .inl (List.mem_of_mem_eraseIdx member)

theorem Coupled.setCall (h : Coupled v L) {j : ℕ} {call : AppendCall n C} (sent : Sent L call) :
    Coupled (v.setCall j call) L :=
  h.setCalls fun other member => by
    rcases List.mem_or_eq_of_mem_set member with old | rfl
    · exact .inl old
    · exact .inr sent

theorem Coupled.setElection (h : Coupled v L) {x : Fin n} {k : ℕ} {e e' : Election n}
    (found : (v.elections x)[k]? = some e) (args : e'.args = e.args) :
    Coupled (v.setElection x k e') L := by
  refine { h with elections := fun y f member => ?_ }
  rcases mem_setElection member with old | ⟨rfl, rfl⟩
  · exact h.elections y f old
  · rw [args]
    exact h.elections y e (List.mem_of_getElem? found)

theorem Coupled.addElection (h : Coupled v L) {x : Fin n} {e : Election n}
    (stands : Stands L x e.args) : Coupled (v.addElection x e) L := by
  refine { h with elections := fun y f member => ?_ }
  rcases eq_or_ne y x with rfl | other
  · have inside : f ∈ v.elections y ∨ f = e := by simpa [View.addElection] using member
    rcases inside with old | rfl
    · exact h.elections y f old
    · exact stands
  · exact h.elections y f (by simpa [View.addElection, other] using member)

theorem Coupled.recordVote (h : Coupled v L) {w x : Fin n} {t : ℕ} (current : L.current w = t)
    {standing : List (LogEntry C)} (stood : L.stood x t = some standing)
    (newer : UpToDate LogEntry.term standing (L.log w))
    (once : ∀ y, .voted w t y ∈ v.trace → y = x) :
    ∃ L', Coupled (v.record (.voted w t x)) L' := by
  subst current
  by_cases unled : L.leader (L.current w) = none
  · have grow : Extends L (L.vote w x) :=
      L.extends_vote fun y log ballot => once y (h.cast w _ y log ballot)
    refine ⟨L.vote w x,
      { valid := h.valid.vote unled stood newer
        servers := fun s => (h.servers s).mono h.valid grow rfl rfl fun _ led => led
        elections := fun y e member => (h.elections y e member).mono grow
        calls := fun call member => (h.calls call member).mono h.valid grow
        fits := fun event member => ?_
        led := fun t s leader => ?_
        cast := fun y t z log ballot => ?_ }⟩
    · rcases List.mem_append.mp member with old | new
      · exact (h.fits event old).mono h.valid grow
      · rw [List.mem_singleton.mp new]
        exact .inr ⟨L.log w, by simp [Ledger.vote]⟩
    · exact (h.led t s leader).imp fun _ found => List.mem_append_left _ found
    · by_cases here : y = w ∧ t = L.current w
      · obtain ⟨rfl, rfl⟩ := here
        have same : (x, L.log y) = (z, log) := by simpa [Ledger.vote] using ballot
        obtain ⟨rfl, -⟩ := Prod.mk.inj same
        exact List.mem_append_right _ (List.mem_singleton_self _)
      · rw [L.vote_ballot_ne here] at ballot
        exact List.mem_append_left _ (h.cast y t z log ballot)
  · exact ⟨L, h.record (.inl unled)⟩

end Rules

end DistributedLabs.RaftLedger
