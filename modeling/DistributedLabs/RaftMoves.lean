import DistributedLabs.PeerSections
import DistributedLabs.RaftCluster

/-! The protocol seen without mutexes and goroutine counters. `Moved` says all
that one action can do to the protocol fields, the elections, the calls and
the trace; every invariant below is proved against it and never unfolds a
section again. `step_moved` connects it to the cluster. -/

namespace DistributedLabs.RaftMoves
open GuardedRuns RaftPeer RaftCluster

structure View (n : ℕ) (C : Type) where
  peer : Fin n → Peer n C
  elections : Fin n → List (Election n)
  appendCalls : List (AppendCall n C)
  trace : List (Event n C)

section Views

variable {n : ℕ} {C : Type}

def view (c : Cluster n C) : View n C where
  peer := fun s => (c.raft s).toPeer
  elections := c.elections
  appendCalls := c.appendCalls
  trace := c.trace

def View.setPeer (v : View n C) (s : Fin n) (p : Peer n C) : View n C :=
  { v with peer := Function.update v.peer s p }

theorem View.setPeer_setPeer (v : View n C) (s : Fin n) (p q : Peer n C) :
    (v.setPeer s p).setPeer s q = v.setPeer s q := by
  simp [View.setPeer]

theorem View.forall_setPeer {v : View n C} {P : Fin n → Peer n C → Prop} {s : Fin n} {p : Peer n C}
    (others : ∀ w, P w (v.peer w)) (self : P s p) (w : Fin n) : P w ((v.setPeer s p).peer w) := by
  by_cases same : w = s
  · subst same
    simpa [View.setPeer] using self
  · simpa [View.setPeer, same] using others w

def View.setElection (v : View n C) (s : Fin n) (k : ℕ) (election : Election n) : View n C :=
  { v with elections := Function.update v.elections s ((v.elections s).set k election) }

def View.addElection (v : View n C) (s : Fin n) (election : Election n) : View n C :=
  { v with elections := Function.update v.elections s (v.elections s ++ [election]) }

def View.record (v : View n C) (event : Event n C) : View n C :=
  { v with trace := v.trace ++ [event] }

def View.setCall (v : View n C) (j : ℕ) (call : AppendCall n C) : View n C :=
  { v with appendCalls := v.appendCalls.set j call }

def View.dropCall (v : View n C) (j : ℕ) : View n C :=
  { v with appendCalls := v.appendCalls.eraseIdx j }

def View.addCalls (v : View n C) (calls : List (AppendCall n C)) : View n C :=
  { v with appendCalls := v.appendCalls ++ calls }

/-- The vote request that a peer sends when it starts the election of its next term. -/
def voteArgs (v : View n C) (s : Fin n) (lastLogTerm : ℕ) : RequestVoteArgs n :=
  ⟨(v.peer s).currentTerm + 1, s, (v.peer s).log.length - 1, lastLogTerm⟩

inductive Moved (v : View n C) : Action n C → View n C → Prop
  | quiet (a : Action n C) : Moved v a v
  | kickOff (s : Fin n) (last : LogEntry C)
      (lastFound : index (v.peer s).log ((v.peer s).log.length - 1) = some last) :
      Moved v (.kickOffElection s)
        (((v.setPeer s ((v.peer s).stand s)).addElection s
          (newElection s (voteArgs v s last.term))).record
            (.voted s ((v.peer s).currentTerm + 1) s))
  | refuse (x : Fin n) (k : ℕ) (s : Fin n) (e : Election n) (reply : RequestVoteReply)
      (found : (v.elections x)[k]? = some e) (waiting : e.calls s = .requested)
      (refused : reply.voteGranted = false) :
      Moved v (.requestVote x k s)
        ((v.setPeer s ((v.peer s).stepUp e.args.term)).setElection x k
          { e with calls := Function.update e.calls s (.replied reply) })
  | grant (x : Fin n) (k : ℕ) (s : Fin n) (e : Election n) (last : LogEntry C)
      (found : (v.elections x)[k]? = some e) (waiting : e.calls s = .requested)
      (current : (v.peer s).currentTerm ≤ e.args.term)
      (free : ((v.peer s).stepUp e.args.term).votedFor = none ∨
        ((v.peer s).stepUp e.args.term).votedFor = some e.args.candidateId)
      (lastFound : index (v.peer s).log ((v.peer s).log.length - 1) = some last)
      (newer : e.args.lastLogTerm > last.term ∨
        (e.args.lastLogTerm = last.term ∧
          e.args.lastLogIndex ≥ (v.peer s).log.length - 1)) :
      Moved v (.requestVote x k s)
        (((v.setPeer s ((v.peer s).grant e.args)).setElection x k
          { e with calls := Function.update e.calls s (.replied ⟨e.args.term, true⟩) }).record
            (.voted s e.args.term e.args.candidateId))
  | voteUnsent (x : Fin n) (k : ℕ) (s : Fin n) (e : Election n) (reply : RequestVoteReply) (t : ℕ)
      (found : (v.elections x)[k]? = some e) (replied : e.calls s = .replied reply) :
      Moved v (.handleRequestVote x k s)
        ((v.setPeer x ((v.peer x).stepUp t)).setElection x k
          { e with calls := Function.update e.calls s .returned })
  | voteSent (x : Fin n) (k : ℕ) (s : Fin n) (e : Election n) (reply : RequestVoteReply)
      (found : (v.elections x)[k]? = some e) (replied : e.calls s = .replied reply)
      (standing : (v.peer x).state = .candidate)
      (current : (v.peer x).currentTerm = e.args.term) :
      Moved v (.handleRequestVote x k s)
        (v.setElection x k
          { e with
            calls := Function.update e.calls s (.sent reply.voteGranted)
            voteCh := e.voteCh ++ [reply.voteGranted] })
  | receive (x : Fin n) (k : ℕ) (e : Election n) (vote : Bool) (rest : List Bool)
      (found : (v.elections x)[k]? = some e) (queued : e.voteCh = vote :: rest) :
      Moved v (.receiveVote x k)
        (v.setElection x k
          { e with
            voteCh := rest
            votesReceived := if vote then e.votesReceived + 1 else e.votesReceived
            pc := .locking })
  | collect (x : Fin n) (k : ℕ) (e : Election n) (pc : CollectPc) (turn : ℕ)
      (found : (v.elections x)[k]? = some e) :
      Moved v (.collectVotes x k) (v.setElection x k { e with pc := pc, turn := turn })
  | elect (x : Fin n) (k : ℕ) (e : Election n) (found : (v.elections x)[k]? = some e)
      (standing : (v.peer x).state = .candidate) (many : n / 2 < e.votesReceived) :
      Moved v (.collectVotes x k)
        (((v.setPeer x (v.peer x).lead).setElection x k { e with pc := .returned }).record
          (.becameLeader x (v.peer x).currentTerm (v.peer x).log))
  | beat (s : Fin n) (j : ℕ) (sent : List (Fin n × AppendEntriesArgs n C))
      (leading : (v.peer s).state = .leader)
      (built : broadcast s (v.peer s) (List.finRange n) = some sent) :
      Moved v (.sendHeartBeats s j) (v.addCalls (newCalls s (v.peer s).memory.current sent))
  | encode (j : ℕ) (call : AppendCall n C) (cell : LogEntry C)
      (found : v.appendCalls[j]? = some call) (unanswered : call.reply = none)
      (unread : call.read < 2 * call.args.entries.length)
      (held : nextCell (v.peer call.caller) call = some cell) :
      Moved v (.encode j) (v.setCall j (call.encode cell))
  | appendStale (j : ℕ) (call : AppendCall n C)
      (found : v.appendCalls[j]? = some call) (unanswered : call.reply = none)
      (stale : call.args.term < (v.peer call.serverTo).currentTerm) :
      Moved v (.appendEntries j)
        (v.setCall j { call with
          reply := some ⟨(v.peer call.serverTo).currentTerm, false, 0, 0⟩ })
  | appendRefuse (j : ℕ) (call : AppendCall n C) (reply : AppendEntriesReply)
      (found : v.appendCalls[j]? = some call) (unanswered : call.reply = none)
      (current : (v.peer call.serverTo).currentTerm ≤ call.args.term)
      (refusal : Refusal (v.peer call.serverTo) call.args reply) :
      Moved v (.appendEntries j)
        ((v.setPeer call.serverTo ((v.peer call.serverTo).stepUp call.args.term)).setCall j
          { call with reply := some reply })
  | appendAccept (j : ℕ) (call : AppendCall n C) (prev : LogEntry C)
      (found : v.appendCalls[j]? = some call) (unanswered : call.reply = none)
      (current : (v.peer call.serverTo).currentTerm ≤ call.args.term)
      (prevFound : index (v.peer call.serverTo).log call.args.prevLogIndex = some prev)
      (matched : prev.term = call.args.prevLogTerm) :
      Moved v (.appendEntries j)
        (((v.setPeer call.serverTo ((v.peer call.serverTo).accepted call.args)).setCall j
          { call with reply := some ⟨call.args.term, true, 0, 0⟩ }).record
            (.answered call.serverTo call.args))
  | replyIgnored (j : ℕ) : Moved v (.handleAppendEntries j) (v.dropCall j)
  | replyMatched (j : ℕ) (call : AppendCall n C) (reply : AppendEntriesReply)
      (found : v.appendCalls[j]? = some call) (replied : call.reply = some reply)
      (current : call.args.term = (v.peer call.caller).currentTerm)
      (success : reply.success = true) :
      Moved v (.handleAppendEntries j)
        ((v.setPeer call.caller
          ((v.peer call.caller).matched call.serverTo call.args)).dropCall j)
  | replyAdvanced (j : ℕ) (call : AppendCall n C) (reply : AppendEntriesReply) (M : ℤ)
      (entry : LogEntry C)
      (found : v.appendCalls[j]? = some call) (replied : call.reply = some reply)
      (current : call.args.term = (v.peer call.caller).currentTerm)
      (success : reply.success = true)
      (above : (v.peer call.caller).commitIndex < M)
      (entryFound : index (v.peer call.caller).log M = some entry)
      (own : entry.term = (v.peer call.caller).currentTerm)
      (many : n / 2 < 1 + (Finset.univ.filter fun i =>
        ((v.peer call.caller).matched call.serverTo call.args).matchIndex i ≥ M).card) :
      Moved v (.handleAppendEntries j)
        (((v.setPeer call.caller { (v.peer call.caller).matched call.serverTo call.args with
            commitIndex := M }).dropCall j).record
              (.advanced call.caller (v.peer call.caller).currentTerm M (v.peer call.caller).log))
  | replyRaised (j : ℕ) (call : AppendCall n C) (t : ℕ)
      (found : v.appendCalls[j]? = some call) (later : (v.peer call.caller).currentTerm < t) :
      Moved v (.handleAppendEntries j)
        ((v.setPeer call.caller ((v.peer call.caller).stepUp t)).dropCall j)
  | replyConflict (j : ℕ) (call : AppendCall n C) (reply : AppendEntriesReply)
      (found : v.appendCalls[j]? = some call) (replied : call.reply = some reply)
      (current : call.args.term = (v.peer call.caller).currentTerm)
      (failure : reply.success = false)
      (term : reply.term = (v.peer call.caller).currentTerm)
      (leading : (v.peer call.caller).state = .leader) :
      Moved v (.handleAppendEntries j)
        ((v.setPeer call.caller ((v.peer call.caller).retry call.serverTo reply)).dropCall j)
  | apply (s : Fin n) (entry : LogEntry C)
      (behind : (v.peer s).lastApplied < (v.peer s).commitIndex)
      (entryFound : index (v.peer s).log ((v.peer s).lastApplied + 1) = some entry) :
      Moved v (.checkerApply s)
        ((v.setPeer s { v.peer s with lastApplied := (v.peer s).lastApplied + 1 }).record
          (.applied s ⟨true, entry.command, (v.peer s).lastApplied + 1⟩))
  | start (s : Fin n) (command : C) (position : ℤ) (leading : (v.peer s).state = .leader) :
      Moved v (.start s command)
        ((v.setPeer s ((v.peer s).appendCommand command)).record
          (.started s ⟨command, (v.peer s).currentTerm⟩ position))
  | allocate (s : Fin n) (room : ℕ) :
      Moved v (.allocate s room)
        (v.setPeer s { v.peer s with memory := { (v.peer s).memory with room := room } })
  | kill (s : Fin n) : Moved v (.killLocked s) (v.setPeer s { v.peer s with state := .dead })

theorem Moved.trace_grows {v v' : View n C} {a : Action n C} (move : Moved v a v') :
    v.trace <+: v'.trace := by
  cases move <;> first
    | exact List.prefix_rfl
    | exact List.prefix_append _ _

theorem Moved.becameLeader {v v' : View n C} {a : Action n C} (move : Moved v a v') {s : Fin n}
    {t : ℕ} {log : List (LogEntry C)} (found : .becameLeader s t log ∈ v'.trace) :
    .becameLeader s t log ∈ v.trace ∨
      ∃ k e, a = .collectVotes s k ∧ (v.elections s)[k]? = some e ∧
        (v.peer s).state = .candidate ∧ n / 2 < e.votesReceived ∧
        t = (v.peer s).currentTerm ∧ v'.peer s = (v.peer s).lead := by
  cases move with
  | elect x k e at_k standing many =>
    refine (List.mem_append.mp found).imp_right fun last => ?_
    injection List.mem_singleton.mp last with server term
    subst server
    exact ⟨k, e, rfl, at_k, standing, many, term, Function.update_self ..⟩
  | _ =>
    first
      | exact .inl found
      | exact .inl ((List.mem_append.mp found).resolve_right (by simp))

theorem setElection_kept (v : View n C) {x s : Fin n} {k i : ℕ} {e e' f : Election n}
    (found : (v.elections x)[k]? = some e) (args : e'.args = e.args)
    (at_i : (v.elections s)[i]? = some f) :
    ∃ f', ((v.setElection x k e').elections s)[i]? = some f' ∧ f'.args = f.args := by
  rcases eq_or_ne s x with rfl | other
  · rcases eq_or_ne i k with rfl | apart
    · obtain rfl : e = f := Option.some.inj (found.symm.trans at_i)
      refine ⟨e', ?_, args⟩
      have bound := (List.getElem?_eq_some_iff.mp found).1
      simp [View.setElection, bound]
    · refine ⟨f, ?_, rfl⟩
      simpa [View.setElection, List.getElem?_set_ne (Ne.symm apart)] using at_i
  · exact ⟨f, by simpa [View.setElection, other] using at_i, rfl⟩

theorem mem_setElection {v : View n C} {s x : Fin n} {k : ℕ} {e e' : Election n}
    (member : e ∈ (v.setElection x k e').elections s) :
    e ∈ v.elections s ∨ (s = x ∧ e = e') := by
  rcases eq_or_ne s x with rfl | other
  · have inside : e ∈ (v.elections s).set k e' := by simpa [View.setElection] using member
    exact (List.mem_or_eq_of_mem_set inside).imp_right fun same => ⟨rfl, same⟩
  · exact .inl (by simpa [View.setElection, other] using member)

theorem mem_addElection {v : View n C} {s x : Fin n} {e e' : Election n}
    (member : e ∈ (v.addElection x e').elections s) : e ∈ v.elections s ∨ e = e' := by
  by_cases same : s = x
  · subst same
    simpa [View.addElection] using member
  · exact .inl (by simpa [View.addElection, same] using member)

theorem Moved.election_kept {v v' : View n C} {a : Action n C} (move : Moved v a v')
    {s : Fin n} {i : ℕ} {f : Election n} (at_i : (v.elections s)[i]? = some f) :
    ∃ f', (v'.elections s)[i]? = some f' ∧ f'.args = f.args := by
  cases move with
  | kickOff x last =>
    refine ⟨f, ?_, rfl⟩
    have bound := (List.getElem?_eq_some_iff.mp at_i).1
    rcases eq_or_ne s x with rfl | other
    · simpa [View.record, View.addElection, View.setPeer, List.getElem?_append_left bound]
        using at_i
    · simpa [View.record, View.addElection, View.setPeer, other] using at_i
  | refuse x k s e reply found => exact setElection_kept (v.setPeer _ _) found rfl at_i
  | grant x k s e last found => exact setElection_kept (v.setPeer _ _) found rfl at_i
  | voteUnsent x k s e reply t found => exact setElection_kept (v.setPeer _ _) found rfl at_i
  | voteSent x k s e reply found => exact setElection_kept v found rfl at_i
  | receive x k e vote rest found => exact setElection_kept v found rfl at_i
  | collect x k e pc turn found => exact setElection_kept v found rfl at_i
  | elect x k e found => exact setElection_kept (v.setPeer _ _) found rfl at_i
  | _ => exact ⟨f, at_i, rfl⟩

section Actions

variable {c c' : Cluster n C}

theorem view_setRaft (c : Cluster n C) (s : Fin n) (rf : Raft n C) :
    view (c.setRaft s rf) = (view c).setPeer s rf.toPeer := by
  have peers : (fun t => (Function.update c.raft s rf t).toPeer) =
      Function.update (view c).peer s rf.toPeer := by
    funext t
    rcases eq_or_ne t s with rfl | other
    · simp
    · simp [other, view]
  simp only [view, Cluster.setRaft, View.setPeer, peers]

theorem view_setRaft_same {s : Fin n} {rf : Raft n C}
    (same : rf.toPeer = (c.raft s).toPeer) : view (c.setRaft s rf) = view c := by
  rw [view_setRaft, same]
  simp [View.setPeer, view]

theorem view_setThreads (c : Cluster n C) (s : Fin n) (threads : Threads) :
    view (c.setThreads s threads) = view c := rfl

theorem view_setElection (c : Cluster n C) (s : Fin n) (k : ℕ) (e : Election n) :
    view (c.setElection s k e) = (view c).setElection s k e := rfl

theorem view_addElection (c : Cluster n C) (s : Fin n) (e : Election n) :
    view (c.addElection s e) = (view c).addElection s e := rfl

theorem view_record (c : Cluster n C) (event : Event n C) :
    view (c.record event) = (view c).record event := rfl

theorem view_setCall (c : Cluster n C) (j : ℕ) (call : AppendCall n C) :
    view (c.setCall j call) = (view c).setCall j call := rfl

theorem view_dropCall (c : Cluster n C) (j : ℕ) :
    view (c.dropCall j) = (view c).dropCall j := rfl

theorem view_addCalls (c : Cluster n C) (calls : List (AppendCall n C)) :
    view (c.addCalls calls) = (view c).addCalls calls := rfl

theorem kickOff_moved {s : Fin n} {rf : Raft n C} {args : RequestVoteArgs n} (threads : Threads)
    (ran : kickOffElection s (c.raft s) = some (rf, args)) :
    Moved (view c) (.kickOffElection s)
      (view ((((c.setRaft s rf).setThreads s threads).addElection s
        (newElection s args)).record (.voted s args.term s))) := by
  obtain ⟨lastTerm, last, same⟩ := Option.map_eq_some_iff.mp ran
  obtain ⟨rfl, rfl⟩ := Prod.mk.inj same
  unfold getLastLogTerm at last
  split at last
  · exact absurd last.symm (Option.some_ne_none _)
  · obtain ⟨entry, found, rfl⟩ := Option.map_eq_some_iff.mp last
    rw [view_record, view_addElection, view_setThreads, view_setRaft]
    exact .kickOff s entry found

theorem requestVote_moved {x s : Fin n} {k : ℕ} {e : Election n} {rf : Raft n C}
    {reply : RequestVoteReply} (found : (c.elections x)[k]? = some e)
    (waiting : e.calls s = .requested) (ran : requestVote (c.raft s) e.args = some (rf, reply))
    {next : Cluster n C} (answered : next = (c.setRaft s rf).setElection x k
      { e with calls := Function.update e.calls s (.replied reply) }) :
    Moved (view c) (.requestVote x k s) (view (if reply.voteGranted then
      next.record (.voted s reply.term e.args.candidateId) else next)) := by
  subst answered
  rcases requestVote_cases ran with ⟨refused, peer⟩ |
    ⟨last, current, rfl, free, lastFound, newer, peer⟩
  · rw [if_neg (by simp [refused]), view_setElection, view_setRaft, peer]
    exact .refuse x k s e reply found waiting refused
  · rw [if_pos rfl, view_record, view_setElection, view_setRaft, peer]
    exact .grant x k s e last found waiting current free lastFound newer

theorem handleRequestVote_moved {x s : Fin n} {k : ℕ} {e : Election n} {rf : Raft n C}
    {reply : RequestVoteReply} {vote : Option Bool} (found : (c.elections x)[k]? = some e)
    (replied : e.calls s = .replied reply)
    (ran : handleRequestVote (c.raft x) e.args reply = (rf, vote)) :
    Moved (view c) (.handleRequestVote x k s)
      (view ((c.setRaft x rf).setElection x k
        { e with
          calls := Function.update e.calls s (voteCallAfter vote)
          voteCh := e.voteCh ++ vote.toList })) := by
  rcases handleRequestVote_cases ran with ⟨rfl, t, peer⟩ | ⟨rfl, standing, current, peer⟩
  · rw [view_setElection, view_setRaft, peer]
    simp only [voteCallAfter, Option.toList_none, List.append_nil]
    exact .voteUnsent x k s e reply t found replied
  · rw [view_setElection, view_setRaft_same peer]
    exact .voteSent x k s e reply found replied standing current

theorem collect_moved {x : Fin n} {k : ℕ} {e : Election n} {rf : Raft n C} {outcome : Collected}
    (found : (c.elections x)[k]? = some e)
    (ran : collectVotes (c.raft x) e.votesReceived = (rf, outcome)) (other : outcome ≠ .elected)
    (pc : CollectPc) (turn : ℕ) :
    Moved (view c) (.collectVotes x k)
      (view ((c.setRaft x rf).setElection x k { e with pc := pc, turn := turn })) := by
  rcases collectVotes_cases ran with ⟨-, peer⟩ | ⟨elected, -⟩
  · rw [view_setElection, view_setRaft_same peer]
    exact .collect x k e pc turn found
  · exact absurd elected other

theorem elected_moved {x : Fin n} {k : ℕ} {e : Election n} {rf : Raft n C} (threads : Threads)
    (found : (c.elections x)[k]? = some e)
    (ran : collectVotes (c.raft x) e.votesReceived = (rf, .elected)) :
    Moved (view c) (.collectVotes x k)
      (view ((((c.setRaft x rf).setElection x k { e with pc := .returned }).setThreads x
        threads).record (.becameLeader x rf.currentTerm rf.log))) := by
  rcases collectVotes_cases ran with ⟨other, -⟩ | ⟨-, standing, many, peer⟩
  · exact absurd rfl other
  · have term : rf.currentTerm = (c.raft x).currentTerm := by rw [peer]; rfl
    have log : rf.log = (c.raft x).log := by rw [peer]; rfl
    rw [view_record, view_setThreads, view_setElection, view_setRaft, term, log, peer]
    exact .elect x k e found standing many

theorem sent_moved {s : Fin n} {rf : Raft n C} {sent : List (Fin n × AppendEntriesArgs n C)}
    (j : ℕ) (threads : Threads) (ran : sendHeartBeats s (c.raft s) = some (rf, some sent)) :
    Moved (view c) (.sendHeartBeats s j)
      (view (((c.setRaft s rf).setThreads s threads).addCalls
        (newCalls s rf.memory.current sent))) := by
  have same := sendHeartBeats_toPeer ran
  have memory : rf.memory = (c.raft s).memory := by rw [same]
  rw [view_addCalls, view_setThreads, view_setRaft_same same, memory]
  unfold sendHeartBeats at ran
  dsimp only at ran
  split at ran
  · exact absurd (Prod.mk.inj (Option.some.inj ran)).2.symm (Option.some_ne_none _)
  · rename_i leading
    obtain ⟨requests, built, same⟩ := Option.map_eq_some_iff.mp ran
    obtain rfl := Option.some.inj (Prod.mk.inj same).2
    exact .beat s j requests (not_not.mp leading) built

theorem appendEntries_moved {j : ℕ} {call : AppendCall n C} {rf : Raft n C}
    {reply : AppendEntriesReply} (found : c.appendCalls[j]? = some call)
    (unanswered : call.reply = none)
    (ran : appendEntries (c.raft call.serverTo) call.args = some (rf, reply))
    {next : Cluster n C} (answered : next = (c.setRaft call.serverTo rf).setCall j
      { call with reply := some reply }) :
    Moved (view c) (.appendEntries j) (view (if reply.success then
      next.record (.answered call.serverTo call.args) else next)) := by
  subst answered
  rcases appendEntries_cases ran with ⟨stale, rfl, peer⟩ | ⟨current, refusal, peer⟩ |
    ⟨prev, current, prevFound, matched, rfl, peer⟩
  · rw [if_neg (by simp), view_setCall, view_setRaft_same peer]
    exact .appendStale j call found unanswered stale
  · have refused : reply.success = false := by
      rcases refusal with ⟨-, -, rfl⟩ | ⟨prev, -, -, rfl⟩ <;> rfl
    rw [if_neg (by simp [refused]), view_setCall, view_setRaft, peer]
    exact .appendRefuse j call reply found unanswered current refusal
  · rw [if_pos rfl, view_record, view_setCall, view_setRaft, peer]
    exact .appendAccept j call prev found unanswered current prevFound matched

theorem handleAppendEntries_moved {j : ℕ} {call : AppendCall n C} {rf : Raft n C}
    {reply : AppendEntriesReply} (found : c.appendCalls[j]? = some call)
    (replied : call.reply = some reply)
    (ran : handleAppendEntries (c.raft call.caller) call.serverTo call.args reply = some rf)
    {next : Cluster n C} (handled : next = (c.setRaft call.caller rf).dropCall j) :
    Moved (view c) (.handleAppendEntries j)
      (view (if rf.commitIndex ≠ (c.raft call.caller).commitIndex then
        next.record (.advanced call.caller rf.currentTerm rf.commitIndex rf.log) else next)) := by
  subst handled
  rcases handleAppendEntries_cases ran with peer | ⟨current, success, peer⟩ |
    ⟨M, current, success, peer, above, -, ⟨entry, entryFound, own⟩, many⟩ |
    ⟨current, later, peer⟩ | ⟨current, failure, term, leading, peer⟩
  · rw [if_neg (by simp [peer]), view_dropCall, view_setRaft_same peer]
    exact .replyIgnored j
  · have same : rf.commitIndex = (c.raft call.caller).commitIndex := by rw [peer]; rfl
    rw [if_neg (by simp [same]), view_dropCall, view_setRaft, peer]
    exact .replyMatched j call reply found replied current success
  · have moved : rf.commitIndex = M := by rw [peer]
    have term : rf.currentTerm = (c.raft call.caller).currentTerm := by rw [peer]; rfl
    have log : rf.log = (c.raft call.caller).log := by rw [peer]; rfl
    rw [if_pos (by omega), view_record, view_dropCall, view_setRaft, moved, term, log, peer]
    exact .replyAdvanced j call reply M entry found replied current success above entryFound own
      many
  · rw [if_neg (by simp [peer]), view_dropCall, view_setRaft, peer]
    exact .replyRaised j call reply.term found later
  · rw [if_neg (by simp [peer, Peer.retry]), view_dropCall, view_setRaft, peer]
    exact .replyConflict j call reply found replied current failure term leading

theorem apply_moved {s : Fin n} {rf : Raft n C} {msg : ApplyMsg C}
    (ready : commitReady (c.raft s)) (ran : applyNext (c.raft s) = some (rf, msg)) :
    Moved (view c) (.checkerApply s) (view ((c.setRaft s rf).record (.applied s msg))) := by
  obtain ⟨entry, entryFound, same⟩ := Option.map_eq_some_iff.mp ran
  obtain ⟨rfl, rfl⟩ := Prod.mk.inj same
  rw [view_record, view_setRaft]
  exact .apply s entry ready entryFound

theorem quiet_moved {s : Fin n} {rf : Raft n C} (a : Action n C)
    (same : rf.toPeer = (c.raft s).toPeer) : Moved (view c) a (view (c.setRaft s rf)) := by
  rw [view_setRaft_same same]
  exact .quiet a

theorem started_moved {s : Fin n} {command : C} {rf : Raft n C} {position : ℤ} {term : ℕ}
    (ran : start (c.raft s) command = (rf, position, term, true)) :
    Moved (view c) (.start s command)
      (view ((c.setRaft s rf).record (.started s ⟨command, term⟩ position))) := by
  simp only [start] at ran
  split at ran
  · simp at ran
  · rename_i leading
    obtain ⟨rfl, rfl, rfl, -⟩ : _ = rf ∧ _ = position ∧ _ = term ∧ true = true := by
      simpa using ran
    rw [view_record, view_setRaft]
    exact .start s command _ (by simpa [view, lock] using leading)

theorem startRefused_same {s : Fin n} {command : C} {rf : Raft n C} {position : ℤ} {term : ℕ}
    (ran : start (c.raft s) command = (rf, position, term, false)) :
    rf.toPeer = (c.raft s).toPeer := by
  simp only [start] at ran
  split at ran
  · rw [← (Prod.mk.inj ran).1]
    rfl
  · simp at ran

theorem step_moved {a : Action n C} (h : step c a = some c') : Moved (view c) a (view c') := by
  cases step_taken h with
  | tickerTest s => exact .quiet _
  | tickerCheck s timedOut => exact .quiet _
  | kickOff s rf args spawned unlocked ran => exact kickOff_moved _ ran
  | requestVote x k s e rf reply found waiting unlocked ran next answered =>
    exact requestVote_moved found waiting ran answered
  | handleRequestVote x k s e reply rf vote found replied unlocked ran =>
    exact handleRequestVote_moved found replied ran
  | receiveVote x k e vote rest found receiving turns queued =>
    exact .receive x k e vote rest found queued
  | collectReturned x k e rf found locking unlocked ran =>
    exact collect_moved found ran (by decide) .returned e.turn
  | collectElected x k e rf found locking unlocked ran => exact elected_moved _ found ran
  | collectMore x k e rf found locking unlocked ran =>
    exact collect_moved found ran (by decide) .receiving (e.turn + 1)
  | heartbeatTest s j => exact .quiet _
  | heartbeatsEnd s j rf waiting unlocked ran => exact quiet_moved _ (sendHeartBeats_toPeer ran)
  | heartbeatsSent s j rf sent waiting unlocked ran => exact sent_moved j _ ran
  | encode j call cell found unanswered unread held =>
    exact .encode j call cell found unanswered unread held
  | appendEntries j call rf reply found unanswered encoded unlocked ran next answered =>
    exact appendEntries_moved found unanswered ran answered
  | handleAppendEntries j call reply rf found replied unlocked ran next handled =>
    exact handleAppendEntries_moved found replied ran handled
  | checkerTest s => exact .quiet _
  | checkerLock s => exact quiet_moved _ (show (lock (c.raft s)).toPeer = _ from rfl)
  | checkerApply s rf msg applying ready ran => exact apply_moved ready ran
  | checkerUnlock s => exact quiet_moved _ (show (unlock (c.raft s)).toPeer = _ from rfl)
  | started s command rf position term unlocked ran => exact started_moved ran
  | startRefused s command rf position term unlocked ran =>
    exact quiet_moved _ (startRefused_same ran)
  | allocate s room =>
    rw [view_setRaft]
    exact .allocate s room
  | killStore s => exact quiet_moved _ (show (killStore (c.raft s)).toPeer = _ from rfl)
  | killLocked s =>
    rw [view_setThreads, view_setRaft]
    exact .kill s

theorem run_trace {ok : Cluster n C → Action n C → Prop} (run : Run step ok c c') :
    c.trace <+: c'.trace :=
  run.relates (fun c c' => c.trace <+: c'.trace) (fun _ => List.prefix_rfl)
    List.IsPrefix.trans (fun _ taken => (step_moved taken).trace_grows)

theorem run_election {ok : Cluster n C → Action n C → Prop} (run : Run step ok c c') {s : Fin n}
    {i : ℕ} {f : Election n} (at_i : (c.elections s)[i]? = some f) :
    ∃ f', (c'.elections s)[i]? = some f' ∧ f'.args = f.args := by
  refine run.invariant (fun d => ∃ f', (d.elections s)[i]? = some f' ∧ f'.args = f.args) ?_
    ⟨f, at_i, rfl⟩
  rintro d d' a ⟨f', found, same⟩ - taken
  obtain ⟨g, later, args⟩ := (step_moved taken).election_kept found
  exact ⟨g, later, args.trans same⟩

end Actions

end Views

end DistributedLabs.RaftMoves
