import DistributedLabs.GuardedRuns
import DistributedLabs.RaftPeer

/-! A cluster of `n` Raft peers with their goroutines and the calls between
them. Each action is one lock-protected section, one channel receive, one test
of `killed()` or one field read by an encoder; the order of actions is
arbitrary. A call runs its handler at most once, and a request or a reply that
is lost is one whose action never comes. No peer is restarted. A section that
panics has no successor: its peer stops there. The entries of a request are a
slice of its sender's log. They are encoded later, without the mutex, field by
field and from the array that the log lay in when the round built the request;
the two words of a command are read as one. How much room `append` gives a new
array is left to the action `allocate`. The field `trace` is read by no action;
it records what the peers did, newest last. `step_taken` is the only proof that
opens the steps. -/

namespace DistributedLabs.RaftCluster
open GuardedRuns SharedArrays RaftPeer

/-- A goroutine of the form `for !rf.killed() { section }`. -/
inductive LoopPc
  | top
  | locking
  | returned
  deriving DecidableEq, Repr

/-- `CommitChecker` keeps the lock while it sends on `applyCh`. -/
inductive CheckerPc
  | top
  | locking
  | applying
  | returned
  deriving DecidableEq, Repr

/-- One `handleRequestVote` goroutine; none is started for the candidate itself. -/
inductive VoteCall
  | unsent
  | requested
  | replied (reply : RequestVoteReply)
  | sent (vote : Bool)
  | returned
  deriving DecidableEq, Repr

inductive CollectPc
  | receiving
  | locking
  | returned
  deriving DecidableEq, Repr

/-- One `KickOffElection` goroutine after its locked section. -/
structure Election (n : ℕ) where
  args : RequestVoteArgs n
  calls : Fin n → VoteCall
  voteCh : List Bool
  votesReceived : ℕ
  turn : ℕ
  pc : CollectPc

/-- One `handleAppendEntries` goroutine, from its request to its reply. The
entries of `args` are those of the log when the request was built, up to the
fields that the encoder has read since: these are what it found. `array` is the
number of the caller's array that it reads. -/
structure AppendCall (n : ℕ) (C : Type) where
  caller : Fin n
  serverTo : Fin n
  args : AppendEntriesArgs n C
  array : ℕ
  read : ℕ
  reply : Option AppendEntriesReply

/-- The other goroutines of a peer: `kickOffs` counts elections that `ticker`
has spawned and that have not yet taken the lock, `kills` the same for `Kill`. -/
structure Threads where
  ticker : LoopPc
  checker : CheckerPc
  heartbeats : List LoopPc
  kickOffs : ℕ
  kills : ℕ

inductive Event (n : ℕ) (C : Type)
  | voted (voter : Fin n) (term : ℕ) (candidate : Fin n)
  | becameLeader (server : Fin n) (term : ℕ) (log : List (LogEntry C))
  | started (server : Fin n) (entry : LogEntry C) (position : ℤ)
  | answered (server : Fin n) (args : AppendEntriesArgs n C)
  | advanced (server : Fin n) (term : ℕ) (N : ℤ) (log : List (LogEntry C))
  | applied (server : Fin n) (msg : ApplyMsg C)
  deriving DecidableEq

structure Cluster (n : ℕ) (C : Type) where
  raft : Fin n → Raft n C
  threads : Fin n → Threads
  elections : Fin n → List (Election n)
  appendCalls : List (AppendCall n C)
  trace : List (Event n C)

inductive Action (n : ℕ) (C : Type)
  | tickerTest (s : Fin n)
  | tickerCheck (s : Fin n) (timedOut : Bool)
  | kickOffElection (s : Fin n)
  | requestVote (candidate : Fin n) (k : ℕ) (server : Fin n)
  | handleRequestVote (candidate : Fin n) (k : ℕ) (server : Fin n)
  | receiveVote (candidate : Fin n) (k : ℕ)
  | collectVotes (candidate : Fin n) (k : ℕ)
  | heartbeatTest (s : Fin n) (j : ℕ)
  | sendHeartBeats (s : Fin n) (j : ℕ)
  | encode (j : ℕ)
  | appendEntries (j : ℕ)
  | handleAppendEntries (j : ℕ)
  | checkerTest (s : Fin n)
  | checkerLock (s : Fin n)
  | checkerApply (s : Fin n)
  | checkerUnlock (s : Fin n)
  | start (s : Fin n) (command : C)
  | allocate (s : Fin n) (room : ℕ)
  | killStore (s : Fin n)
  | killLocked (s : Fin n)

section Steps

variable {n : ℕ} {C : Type}

def init [Inhabited C] : Cluster n C where
  raft := fun _ => make
  threads := fun _ => ⟨.top, .top, [], 0, 0⟩
  elections := fun _ => []
  appendCalls := []
  trace := []

def Cluster.setRaft (c : Cluster n C) (s : Fin n) (rf : Raft n C) : Cluster n C :=
  { c with raft := Function.update c.raft s rf }

def Cluster.setThreads (c : Cluster n C) (s : Fin n) (threads : Threads) : Cluster n C :=
  { c with threads := Function.update c.threads s threads }

def Cluster.setElection (c : Cluster n C) (s : Fin n) (k : ℕ) (election : Election n) :
    Cluster n C :=
  { c with elections := Function.update c.elections s ((c.elections s).set k election) }

def Cluster.addElection (c : Cluster n C) (s : Fin n) (election : Election n) : Cluster n C :=
  { c with elections := Function.update c.elections s (c.elections s ++ [election]) }

def Cluster.record (c : Cluster n C) (event : Event n C) : Cluster n C :=
  { c with trace := c.trace ++ [event] }

def Cluster.setCall (c : Cluster n C) (j : ℕ) (call : AppendCall n C) : Cluster n C :=
  { c with appendCalls := c.appendCalls.set j call }

def Cluster.dropCall (c : Cluster n C) (j : ℕ) : Cluster n C :=
  { c with appendCalls := c.appendCalls.eraseIdx j }

def Cluster.addCalls (c : Cluster n C) (calls : List (AppendCall n C)) : Cluster n C :=
  { c with appendCalls := c.appendCalls ++ calls }

def loopTest (rf : Raft n C) : LoopPc := if rf.dead then .returned else .locking

def tickerTest (c : Cluster n C) (s : Fin n) : Option (Cluster n C) := do
  guard ((c.threads s).ticker = .top)
  some (c.setThreads s { c.threads s with ticker := loopTest (c.raft s) })

/-- `timedOut` stands for the comparison of the clock with `lastReceive`. -/
def tickerCheck (c : Cluster n C) (s : Fin n) (timedOut : Bool) : Option (Cluster n C) := do
  guard ((c.threads s).ticker = .locking ∧ (c.raft s).mu = false)
  let spawned := if (c.raft s).state ≠ .leader ∧ timedOut then 1 else 0
  some (c.setThreads s { c.threads s with
    ticker := .top
    kickOffs := (c.threads s).kickOffs + spawned })

def newElection (me : Fin n) (args : RequestVoteArgs n) : Election n where
  args := args
  calls := fun server => if server = me then .unsent else .requested
  voteCh := []
  votesReceived := 1
  turn := 0
  pc := .receiving

def kickOff (c : Cluster n C) (s : Fin n) : Option (Cluster n C) := do
  guard (0 < (c.threads s).kickOffs ∧ (c.raft s).mu = false)
  let (rf, args) ← kickOffElection s (c.raft s)
  some ((((c.setRaft s rf).setThreads s
    { c.threads s with kickOffs := (c.threads s).kickOffs - 1 }).addElection s
    (newElection s args)).record (.voted s args.term s))

def runRequestVote (c : Cluster n C) (candidate : Fin n) (k : ℕ) (server : Fin n) :
    Option (Cluster n C) := do
  let election ← (c.elections candidate)[k]?
  guard (election.calls server = .requested ∧ (c.raft server).mu = false)
  let (rf, reply) ← requestVote (c.raft server) election.args
  let c := (c.setRaft server rf).setElection candidate k
    { election with calls := Function.update election.calls server (.replied reply) }
  some (if reply.voteGranted then
    c.record (.voted server reply.term election.args.candidateId) else c)

def voteCallAfter : Option Bool → VoteCall
  | some vote => .sent vote
  | none => .returned

def runHandleRequestVote (c : Cluster n C) (candidate : Fin n) (k : ℕ) (server : Fin n) :
    Option (Cluster n C) := do
  let election ← (c.elections candidate)[k]?
  guard ((c.raft candidate).mu = false)
  match election.calls server with
  | .replied reply =>
    let (rf, vote) := handleRequestVote (c.raft candidate) election.args reply
    some ((c.setRaft candidate rf).setElection candidate k
      { election with
        calls := Function.update election.calls server (voteCallAfter vote)
        voteCh := election.voteCh ++ vote.toList })
  | _ => none

def receiveVote (c : Cluster n C) (candidate : Fin n) (k : ℕ) : Option (Cluster n C) := do
  let election ← (c.elections candidate)[k]?
  guard (election.pc = .receiving ∧ election.turn < n - 1)
  match election.voteCh with
  | vote :: rest =>
    some (c.setElection candidate k
      { election with
        voteCh := rest
        votesReceived := if vote then election.votesReceived + 1 else election.votesReceived
        pc := .locking })
  | [] => none

def runCollectVotes (c : Cluster n C) (candidate : Fin n) (k : ℕ) : Option (Cluster n C) := do
  let election ← (c.elections candidate)[k]?
  guard (election.pc = .locking ∧ (c.raft candidate).mu = false)
  match collectVotes (c.raft candidate) election.votesReceived with
  | (rf, .returned) =>
    some ((c.setRaft candidate rf).setElection candidate k { election with pc := .returned })
  | (rf, .elected) =>
    -- `convertToLeader` starts a heartbeat goroutine
    some ((((c.setRaft candidate rf).setElection candidate k
        { election with pc := .returned }).setThreads candidate
        { c.threads candidate with
          heartbeats := (c.threads candidate).heartbeats ++ [.top] }).record
      (.becameLeader candidate rf.currentTerm rf.log))
  | (rf, .more) =>
    some ((c.setRaft candidate rf).setElection candidate k
      { election with pc := .receiving, turn := election.turn + 1 })

def heartbeatTest (c : Cluster n C) (s : Fin n) (j : ℕ) : Option (Cluster n C) := do
  guard ((c.threads s).heartbeats[j]? = some .top)
  some (c.setThreads s { c.threads s with
    heartbeats := (c.threads s).heartbeats.set j (loopTest (c.raft s)) })

def newCalls (s : Fin n) (array : ℕ) (sent : List (Fin n × AppendEntriesArgs n C)) :
    List (AppendCall n C) :=
  sent.map fun request => ⟨s, request.1, request.2, array, 0, none⟩

def runSendHeartBeats (c : Cluster n C) (s : Fin n) (j : ℕ) : Option (Cluster n C) := do
  guard ((c.threads s).heartbeats[j]? = some .locking ∧ (c.raft s).mu = false)
  match ← sendHeartBeats s (c.raft s) with
  | (rf, none) =>
    some ((c.setRaft s rf).setThreads s { c.threads s with
      heartbeats := (c.threads s).heartbeats.set j .returned })
  | (rf, some sent) =>
    some (((c.setRaft s rf).setThreads s { c.threads s with
      heartbeats := (c.threads s).heartbeats.set j .top }).addCalls
        (newCalls s rf.memory.current sent))

def nextCell (p : Peer n C) (call : AppendCall n C) : Option (LogEntry C) :=
  (p.memory.array p.log call.array)[(call.args.prevLogIndex + 1).toNat + call.read / 2]?

/-- The command of an entry is read before its term. -/
def readField (cell : LogEntry C) (field : ℕ) (entry : LogEntry C) : LogEntry C :=
  if field % 2 = 0 then { entry with command := cell.command }
  else { entry with term := cell.term }

/-- The call after its encoder has met `cell`. -/
def AppendCall.encode (call : AppendCall n C) (cell : LogEntry C) : AppendCall n C :=
  { call with
    args := { call.args with
      entries := call.args.entries.modify (call.read / 2) (readField cell call.read) }
    read := call.read + 1 }

/-- Every field of every entry has been read. -/
def AppendCall.Encoded (call : AppendCall n C) : Prop :=
  call.read = 2 * call.args.entries.length

instance (call : AppendCall n C) : Decidable call.Encoded :=
  inferInstanceAs (Decidable (_ = _))

def runEncode (c : Cluster n C) (j : ℕ) : Option (Cluster n C) := do
  let call ← c.appendCalls[j]?
  guard (call.reply = none ∧ call.read < 2 * call.args.entries.length)
  let cell ← nextCell (c.raft call.caller).toPeer call
  some (c.setCall j (call.encode cell))

def runAppendEntries (c : Cluster n C) (j : ℕ) : Option (Cluster n C) := do
  let call ← c.appendCalls[j]?
  guard (call.reply = none ∧ call.Encoded ∧ (c.raft call.serverTo).mu = false)
  let (rf, reply) ← appendEntries (c.raft call.serverTo) call.args
  let c := (c.setRaft call.serverTo rf).setCall j { call with reply := some reply }
  some (if reply.success then c.record (.answered call.serverTo call.args) else c)

def runHandleAppendEntries (c : Cluster n C) (j : ℕ) : Option (Cluster n C) := do
  let call ← c.appendCalls[j]?
  guard ((c.raft call.caller).mu = false)
  let reply ← call.reply
  let rf ← handleAppendEntries (c.raft call.caller) call.serverTo call.args reply
  let next := (c.setRaft call.caller rf).dropCall j
  some (if rf.commitIndex ≠ (c.raft call.caller).commitIndex then
    next.record (.advanced call.caller rf.currentTerm rf.commitIndex rf.log) else next)

def checkerTest (c : Cluster n C) (s : Fin n) : Option (Cluster n C) := do
  guard ((c.threads s).checker = .top)
  some (c.setThreads s { c.threads s with
    checker := if (c.raft s).dead then .returned else .locking })

def checkerLock (c : Cluster n C) (s : Fin n) : Option (Cluster n C) := do
  guard ((c.threads s).checker = .locking ∧ (c.raft s).mu = false ∧ commitReady (c.raft s))
  some ((c.setRaft s (lock (c.raft s))).setThreads s { c.threads s with checker := .applying })

def checkerApply (c : Cluster n C) (s : Fin n) : Option (Cluster n C) := do
  guard ((c.threads s).checker = .applying ∧ commitReady (c.raft s))
  let (rf, msg) ← applyNext (c.raft s)
  some ((c.setRaft s rf).record (.applied s msg))

def checkerUnlock (c : Cluster n C) (s : Fin n) : Option (Cluster n C) := do
  guard ((c.threads s).checker = .applying ∧ ¬ commitReady (c.raft s))
  some ((c.setRaft s (unlock (c.raft s))).setThreads s { c.threads s with checker := .top })

def runStart (c : Cluster n C) (s : Fin n) (command : C) : Option (Cluster n C) := do
  guard ((c.raft s).mu = false)
  match start (c.raft s) command with
  | (rf, position, term, true) =>
    some ((c.setRaft s rf).record (.started s ⟨command, term⟩ position))
  | (rf, _, _, false) => some (c.setRaft s rf)

/-- The allocator decides before a section begins. -/
def runAllocate (c : Cluster n C) (s : Fin n) (room : ℕ) : Option (Cluster n C) := do
  guard ((c.raft s).mu = false)
  some (c.setRaft s { c.raft s with memory := { (c.raft s).memory with room := room } })

def runKillStore (c : Cluster n C) (s : Fin n) : Option (Cluster n C) :=
  some ((c.setRaft s (killStore (c.raft s))).setThreads s { c.threads s with
    kills := (c.threads s).kills + 1 })

def runKillLocked (c : Cluster n C) (s : Fin n) : Option (Cluster n C) := do
  guard (0 < (c.threads s).kills ∧ (c.raft s).mu = false)
  some ((c.setRaft s (killLocked (c.raft s))).setThreads s { c.threads s with
    kills := (c.threads s).kills - 1 })

def step (c : Cluster n C) : Action n C → Option (Cluster n C)
  | .tickerTest s => tickerTest c s
  | .tickerCheck s timedOut => tickerCheck c s timedOut
  | .kickOffElection s => kickOff c s
  | .requestVote candidate k server => runRequestVote c candidate k server
  | .handleRequestVote candidate k server => runHandleRequestVote c candidate k server
  | .receiveVote candidate k => receiveVote c candidate k
  | .collectVotes candidate k => runCollectVotes c candidate k
  | .heartbeatTest s j => heartbeatTest c s j
  | .sendHeartBeats s j => runSendHeartBeats c s j
  | .encode j => runEncode c j
  | .appendEntries j => runAppendEntries c j
  | .handleAppendEntries j => runHandleAppendEntries c j
  | .checkerTest s => checkerTest c s
  | .checkerLock s => checkerLock c s
  | .checkerApply s => checkerApply c s
  | .checkerUnlock s => checkerUnlock c s
  | .start s command => runStart c s command
  | .allocate s room => runAllocate c s room
  | .killStore s => runKillStore c s
  | .killLocked s => runKillLocked c s

def timeout (s : Fin n) : List (Action n C) :=
  [.tickerTest s, .tickerCheck s true, .kickOffElection s]

def poll (candidate : Fin n) (k : ℕ) (server : Fin n) : List (Action n C) :=
  [.requestVote candidate k server, .handleRequestVote candidate k server]

def tally (candidate : Fin n) (k : ℕ) : List (Action n C) :=
  [.receiveVote candidate k, .collectVotes candidate k]

def beat (s : Fin n) (j : ℕ) : List (Action n C) := [.heartbeatTest s j, .sendHeartBeats s j]

def encodes (j k : ℕ) : List (Action n C) := List.replicate (2 * k) (.encode j)

/-- The states that a run without restarts reaches when every step taken
satisfies `ok`. -/
def Reaches [Inhabited C] (ok : Cluster n C → Action n C → Prop) (c : Cluster n C) : Prop :=
  Run step ok init c

inductive Taken (c : Cluster n C) : Action n C → Cluster n C → Prop
  | tickerTest (s : Fin n) (waiting : (c.threads s).ticker = .top) :
      Taken c (.tickerTest s)
        (c.setThreads s { c.threads s with ticker := loopTest (c.raft s) })
  | tickerCheck (s : Fin n) (timedOut : Bool) (waiting : (c.threads s).ticker = .locking)
      (unlocked : (c.raft s).mu = false) :
      Taken c (.tickerCheck s timedOut)
        (c.setThreads s { c.threads s with
          ticker := .top
          kickOffs := (c.threads s).kickOffs +
            if (c.raft s).state ≠ .leader ∧ timedOut then 1 else 0 })
  | kickOff (s : Fin n) (rf : Raft n C) (args : RequestVoteArgs n)
      (spawned : 0 < (c.threads s).kickOffs) (unlocked : (c.raft s).mu = false)
      (ran : kickOffElection s (c.raft s) = some (rf, args)) :
      Taken c (.kickOffElection s)
        ((((c.setRaft s rf).setThreads s
          { c.threads s with kickOffs := (c.threads s).kickOffs - 1 }).addElection s
          (newElection s args)).record (.voted s args.term s))
  | requestVote (x : Fin n) (k : ℕ) (s : Fin n) (e : Election n) (rf : Raft n C)
      (reply : RequestVoteReply) (found : (c.elections x)[k]? = some e)
      (waiting : e.calls s = .requested) (unlocked : (c.raft s).mu = false)
      (ran : requestVote (c.raft s) e.args = some (rf, reply)) (next : Cluster n C)
      (answered : next = (c.setRaft s rf).setElection x k
        { e with calls := Function.update e.calls s (.replied reply) }) :
      Taken c (.requestVote x k s)
        (if reply.voteGranted then next.record (.voted s reply.term e.args.candidateId) else next)
  | handleRequestVote (x : Fin n) (k : ℕ) (s : Fin n) (e : Election n)
      (reply : RequestVoteReply) (rf : Raft n C) (vote : Option Bool)
      (found : (c.elections x)[k]? = some e) (replied : e.calls s = .replied reply)
      (unlocked : (c.raft x).mu = false)
      (ran : handleRequestVote (c.raft x) e.args reply = (rf, vote)) :
      Taken c (.handleRequestVote x k s)
        ((c.setRaft x rf).setElection x k
          { e with
            calls := Function.update e.calls s (voteCallAfter vote)
            voteCh := e.voteCh ++ vote.toList })
  | receiveVote (x : Fin n) (k : ℕ) (e : Election n) (vote : Bool) (rest : List Bool)
      (found : (c.elections x)[k]? = some e) (receiving : e.pc = .receiving)
      (turns : e.turn < n - 1) (queued : e.voteCh = vote :: rest) :
      Taken c (.receiveVote x k)
        (c.setElection x k
          { e with
            voteCh := rest
            votesReceived := if vote then e.votesReceived + 1 else e.votesReceived
            pc := .locking })
  | collectReturned (x : Fin n) (k : ℕ) (e : Election n) (rf : Raft n C)
      (found : (c.elections x)[k]? = some e) (locking : e.pc = .locking)
      (unlocked : (c.raft x).mu = false)
      (ran : collectVotes (c.raft x) e.votesReceived = (rf, .returned)) :
      Taken c (.collectVotes x k)
        ((c.setRaft x rf).setElection x k { e with pc := .returned })
  | collectElected (x : Fin n) (k : ℕ) (e : Election n) (rf : Raft n C)
      (found : (c.elections x)[k]? = some e) (locking : e.pc = .locking)
      (unlocked : (c.raft x).mu = false)
      (ran : collectVotes (c.raft x) e.votesReceived = (rf, .elected)) :
      Taken c (.collectVotes x k)
        ((((c.setRaft x rf).setElection x k { e with pc := .returned }).setThreads x
          { c.threads x with heartbeats := (c.threads x).heartbeats ++ [.top] }).record
          (.becameLeader x rf.currentTerm rf.log))
  | collectMore (x : Fin n) (k : ℕ) (e : Election n) (rf : Raft n C)
      (found : (c.elections x)[k]? = some e) (locking : e.pc = .locking)
      (unlocked : (c.raft x).mu = false)
      (ran : collectVotes (c.raft x) e.votesReceived = (rf, .more)) :
      Taken c (.collectVotes x k)
        ((c.setRaft x rf).setElection x k { e with pc := .receiving, turn := e.turn + 1 })
  | heartbeatTest (s : Fin n) (j : ℕ) (waiting : (c.threads s).heartbeats[j]? = some .top) :
      Taken c (.heartbeatTest s j)
        (c.setThreads s { c.threads s with
          heartbeats := (c.threads s).heartbeats.set j (loopTest (c.raft s)) })
  | heartbeatsEnd (s : Fin n) (j : ℕ) (rf : Raft n C)
      (waiting : (c.threads s).heartbeats[j]? = some .locking)
      (unlocked : (c.raft s).mu = false)
      (ran : sendHeartBeats s (c.raft s) = some (rf, none)) :
      Taken c (.sendHeartBeats s j)
        ((c.setRaft s rf).setThreads s { c.threads s with
          heartbeats := (c.threads s).heartbeats.set j .returned })
  | heartbeatsSent (s : Fin n) (j : ℕ) (rf : Raft n C)
      (sent : List (Fin n × AppendEntriesArgs n C))
      (waiting : (c.threads s).heartbeats[j]? = some .locking)
      (unlocked : (c.raft s).mu = false)
      (ran : sendHeartBeats s (c.raft s) = some (rf, some sent)) :
      Taken c (.sendHeartBeats s j)
        (((c.setRaft s rf).setThreads s { c.threads s with
          heartbeats := (c.threads s).heartbeats.set j .top }).addCalls
            (newCalls s rf.memory.current sent))
  | encode (j : ℕ) (call : AppendCall n C) (cell : LogEntry C)
      (found : c.appendCalls[j]? = some call) (unanswered : call.reply = none)
      (unread : call.read < 2 * call.args.entries.length)
      (held : nextCell (c.raft call.caller).toPeer call = some cell) :
      Taken c (.encode j) (c.setCall j (call.encode cell))
  | appendEntries (j : ℕ) (call : AppendCall n C) (rf : Raft n C) (reply : AppendEntriesReply)
      (found : c.appendCalls[j]? = some call) (unanswered : call.reply = none)
      (encoded : call.Encoded) (unlocked : (c.raft call.serverTo).mu = false)
      (ran : appendEntries (c.raft call.serverTo) call.args = some (rf, reply))
      (next : Cluster n C)
      (answered : next = (c.setRaft call.serverTo rf).setCall j
        { call with reply := some reply }) :
      Taken c (.appendEntries j)
        (if reply.success then next.record (.answered call.serverTo call.args) else next)
  | handleAppendEntries (j : ℕ) (call : AppendCall n C) (reply : AppendEntriesReply)
      (rf : Raft n C) (found : c.appendCalls[j]? = some call) (replied : call.reply = some reply)
      (unlocked : (c.raft call.caller).mu = false)
      (ran : handleAppendEntries (c.raft call.caller) call.serverTo call.args reply = some rf)
      (next : Cluster n C) (handled : next = (c.setRaft call.caller rf).dropCall j) :
      Taken c (.handleAppendEntries j)
        (if rf.commitIndex ≠ (c.raft call.caller).commitIndex then
          next.record (.advanced call.caller rf.currentTerm rf.commitIndex rf.log) else next)
  | checkerTest (s : Fin n) (waiting : (c.threads s).checker = .top) :
      Taken c (.checkerTest s)
        (c.setThreads s { c.threads s with
          checker := if (c.raft s).dead then .returned else .locking })
  | checkerLock (s : Fin n) (waiting : (c.threads s).checker = .locking)
      (unlocked : (c.raft s).mu = false) (ready : commitReady (c.raft s)) :
      Taken c (.checkerLock s)
        ((c.setRaft s (lock (c.raft s))).setThreads s
          { c.threads s with checker := .applying })
  | checkerApply (s : Fin n) (rf : Raft n C) (msg : ApplyMsg C)
      (applying : (c.threads s).checker = .applying) (ready : commitReady (c.raft s))
      (ran : applyNext (c.raft s) = some (rf, msg)) :
      Taken c (.checkerApply s) ((c.setRaft s rf).record (.applied s msg))
  | checkerUnlock (s : Fin n) (applying : (c.threads s).checker = .applying)
      (done : ¬ commitReady (c.raft s)) :
      Taken c (.checkerUnlock s)
        ((c.setRaft s (unlock (c.raft s))).setThreads s { c.threads s with checker := .top })
  | started (s : Fin n) (command : C) (rf : Raft n C) (position : ℤ) (term : ℕ)
      (unlocked : (c.raft s).mu = false)
      (ran : start (c.raft s) command = (rf, position, term, true)) :
      Taken c (.start s command)
        ((c.setRaft s rf).record (.started s ⟨command, term⟩ position))
  | startRefused (s : Fin n) (command : C) (rf : Raft n C) (position : ℤ) (term : ℕ)
      (unlocked : (c.raft s).mu = false)
      (ran : start (c.raft s) command = (rf, position, term, false)) :
      Taken c (.start s command) (c.setRaft s rf)
  | allocate (s : Fin n) (room : ℕ) (unlocked : (c.raft s).mu = false) :
      Taken c (.allocate s room)
        (c.setRaft s { c.raft s with memory := { (c.raft s).memory with room := room } })
  | killStore (s : Fin n) :
      Taken c (.killStore s)
        ((c.setRaft s (killStore (c.raft s))).setThreads s
          { c.threads s with kills := (c.threads s).kills + 1 })
  | killLocked (s : Fin n) (called : 0 < (c.threads s).kills)
      (unlocked : (c.raft s).mu = false) :
      Taken c (.killLocked s)
        ((c.setRaft s (killLocked (c.raft s))).setThreads s
          { c.threads s with kills := (c.threads s).kills - 1 })

theorem step_taken {c c' : Cluster n C} {a : Action n C} (taken : step c a = some c') :
    Taken c a c' := by
  cases a with
  | tickerTest s =>
    simp only [step, tickerTest, Option.bind_eq_bind, Option.bind_eq_some_iff, guard_some,
      Option.some.injEq] at taken
    obtain ⟨-, waiting, rfl⟩ := taken
    exact .tickerTest s waiting
  | tickerCheck s timedOut =>
    simp only [step, tickerCheck, Option.bind_eq_bind, Option.bind_eq_some_iff, guard_some,
      Option.some.injEq] at taken
    obtain ⟨-, ⟨waiting, unlocked⟩, rfl⟩ := taken
    exact .tickerCheck s timedOut waiting unlocked
  | kickOffElection s =>
    simp only [step, kickOff, Option.bind_eq_bind, Option.bind_eq_some_iff, guard_some,
      Option.some.injEq] at taken
    obtain ⟨-, ⟨spawned, unlocked⟩, ⟨rf, args⟩, ran, rfl⟩ := taken
    exact .kickOff s rf args spawned unlocked ran
  | requestVote x k s =>
    simp only [step, runRequestVote, Option.bind_eq_bind, Option.bind_eq_some_iff, guard_some,
      Option.some.injEq] at taken
    obtain ⟨e, found, -, ⟨waiting, unlocked⟩, ⟨rf, reply⟩, ran, rfl⟩ := taken
    exact .requestVote x k s e rf reply found waiting unlocked ran _ rfl
  | handleRequestVote x k s =>
    simp only [step, runHandleRequestVote, Option.bind_eq_bind, Option.bind_eq_some_iff,
      guard_some] at taken
    obtain ⟨e, found, -, unlocked, taken⟩ := taken
    split at taken
    · rename_i reply replied
      obtain rfl := Option.some.inj taken
      exact .handleRequestVote x k s e reply _ _ found replied unlocked rfl
    · exact absurd taken.symm (Option.some_ne_none _)
  | receiveVote x k =>
    simp only [step, receiveVote, Option.bind_eq_bind, Option.bind_eq_some_iff, guard_some] at taken
    obtain ⟨e, found, -, ⟨receiving, turns⟩, taken⟩ := taken
    split at taken
    · rename_i vote rest queued
      obtain rfl := Option.some.inj taken
      exact .receiveVote x k e vote rest found receiving turns queued
    · exact absurd taken.symm (Option.some_ne_none _)
  | collectVotes x k =>
    simp only [step, runCollectVotes, Option.bind_eq_bind, Option.bind_eq_some_iff,
      guard_some] at taken
    obtain ⟨e, found, -, ⟨locking, unlocked⟩, taken⟩ := taken
    split at taken <;> rename_i rf ran <;> obtain rfl := Option.some.inj taken
    · exact .collectReturned x k e rf found locking unlocked ran
    · exact .collectElected x k e rf found locking unlocked ran
    · exact .collectMore x k e rf found locking unlocked ran
  | heartbeatTest s j =>
    simp only [step, heartbeatTest, Option.bind_eq_bind, Option.bind_eq_some_iff, guard_some,
      Option.some.injEq] at taken
    obtain ⟨-, waiting, rfl⟩ := taken
    exact .heartbeatTest s j waiting
  | sendHeartBeats s j =>
    simp only [step, runSendHeartBeats, Option.bind_eq_bind, Option.bind_eq_some_iff,
      guard_some] at taken
    obtain ⟨-, ⟨waiting, unlocked⟩, ⟨rf, sent⟩, ran, taken⟩ := taken
    cases sent with
    | none =>
      obtain rfl := Option.some.inj taken
      exact .heartbeatsEnd s j rf waiting unlocked ran
    | some sent =>
      obtain rfl := Option.some.inj taken
      exact .heartbeatsSent s j rf sent waiting unlocked ran
  | encode j =>
    simp only [step, runEncode, Option.bind_eq_bind, Option.bind_eq_some_iff, guard_some,
      Option.some.injEq] at taken
    obtain ⟨call, found, -, ⟨unanswered, unread⟩, cell, held, rfl⟩ := taken
    exact .encode j call cell found unanswered unread held
  | appendEntries j =>
    simp only [step, runAppendEntries, Option.bind_eq_bind, Option.bind_eq_some_iff, guard_some,
      Option.some.injEq] at taken
    obtain ⟨call, found, -, ⟨unanswered, encoded, unlocked⟩, ⟨rf, reply⟩, ran, rfl⟩ := taken
    exact .appendEntries j call rf reply found unanswered encoded unlocked ran _ rfl
  | handleAppendEntries j =>
    simp only [step, runHandleAppendEntries, Option.bind_eq_bind, Option.bind_eq_some_iff,
      guard_some, Option.some.injEq] at taken
    obtain ⟨call, found, -, unlocked, reply, replied, rf, ran, rfl⟩ := taken
    exact .handleAppendEntries j call reply rf found replied unlocked ran _ rfl
  | checkerTest s =>
    simp only [step, checkerTest, Option.bind_eq_bind, Option.bind_eq_some_iff, guard_some,
      Option.some.injEq] at taken
    obtain ⟨-, waiting, rfl⟩ := taken
    exact .checkerTest s waiting
  | checkerLock s =>
    simp only [step, checkerLock, Option.bind_eq_bind, Option.bind_eq_some_iff, guard_some,
      Option.some.injEq] at taken
    obtain ⟨-, ⟨waiting, unlocked, ready⟩, rfl⟩ := taken
    exact .checkerLock s waiting unlocked ready
  | checkerApply s =>
    simp only [step, checkerApply, Option.bind_eq_bind, Option.bind_eq_some_iff, guard_some,
      Option.some.injEq] at taken
    obtain ⟨-, ⟨applying, ready⟩, ⟨rf, msg⟩, ran, rfl⟩ := taken
    exact .checkerApply s rf msg applying ready ran
  | checkerUnlock s =>
    simp only [step, checkerUnlock, Option.bind_eq_bind, Option.bind_eq_some_iff, guard_some,
      Option.some.injEq] at taken
    obtain ⟨-, ⟨applying, done⟩, rfl⟩ := taken
    exact .checkerUnlock s applying done
  | start s command =>
    simp only [step, runStart, Option.bind_eq_bind, Option.bind_eq_some_iff, guard_some] at taken
    obtain ⟨-, unlocked, taken⟩ := taken
    split at taken <;> rename_i ran <;> obtain rfl := Option.some.inj taken
    · exact .started s command _ _ _ unlocked ran
    · exact .startRefused s command _ _ _ unlocked ran
  | allocate s room =>
    simp only [step, runAllocate, Option.bind_eq_bind, Option.bind_eq_some_iff, guard_some,
      Option.some.injEq] at taken
    obtain ⟨-, unlocked, rfl⟩ := taken
    exact .allocate s room unlocked
  | killStore s =>
    simp only [step, runKillStore, Option.some.injEq] at taken
    subst taken
    exact .killStore s
  | killLocked s =>
    simp only [step, runKillLocked, Option.bind_eq_bind, Option.bind_eq_some_iff, guard_some,
      Option.some.injEq] at taken
    obtain ⟨-, ⟨called, unlocked⟩, rfl⟩ := taken
    exact .killLocked s called unlocked

end Steps

end DistributedLabs.RaftCluster
