import DistributedLabs.SharedArrays

/-! One Raft peer (raft/raft.go): its record and its lock-protected sections.
A section takes the record as it stands when `rf.mu` is acquired and returns
the record it leaves behind; `lock` and `unlock` stand where the source has
them, so the flag `mu` tells whether a path left the mutex held. A section
begins when its `Lock` returns, so with the mutex free: the cluster asks for
that wherever it runs one. The elements of `rf.log` are a list, and `memory` is
the rest of the arrays they lie in. An index expression out of range, which
would stop the process, makes a section `none`.
Go's `int` indices are integers; terms only count up from zero and are naturals.
`lastReceive`, the persister and the debug output carry no protocol state. -/

namespace DistributedLabs.RaftPeer
open SharedArrays

inductive ServerState
  | follower
  | candidate
  | leader
  | dead
  deriving DecidableEq, Repr

structure LogEntry (C : Type) where
  command : C
  term : ℕ
  deriving DecidableEq, Repr

structure ApplyMsg (C : Type) where
  commandValid : Bool
  command : C
  commandIndex : ℤ
  deriving DecidableEq, Repr

structure Peer (n : ℕ) (C : Type) where
  currentTerm : ℕ
  votedFor : Option (Fin n)
  log : List (LogEntry C)
  memory : Backing (LogEntry C)
  state : ServerState
  commitIndex : ℤ
  lastApplied : ℤ
  nextIndex : Fin n → ℤ
  matchIndex : Fin n → ℤ

structure Raft (n : ℕ) (C : Type) extends Peer n C where
  mu : Bool
  dead : Bool

structure RequestVoteArgs (n : ℕ) where
  term : ℕ
  candidateId : Fin n
  lastLogIndex : ℤ
  lastLogTerm : ℕ
  deriving DecidableEq, Repr

structure RequestVoteReply where
  term : ℕ
  voteGranted : Bool
  deriving DecidableEq, Repr

structure AppendEntriesArgs (n : ℕ) (C : Type) where
  term : ℕ
  leaderID : Fin n
  prevLogIndex : ℤ
  prevLogTerm : ℕ
  entries : List (LogEntry C)
  leaderCommit : ℤ
  deriving DecidableEq, Repr

structure AppendEntriesReply where
  term : ℕ
  success : Bool
  conflictIndex : ℤ
  conflictTerm : ℤ
  deriving DecidableEq, Repr

def index {α : Type} (l : List α) (i : ℤ) : Option α :=
  if 0 ≤ i then l[i.toNat]? else none

section Sections

variable {n : ℕ} {C : Type}

/-- `Lock` at the moment it returns. -/
def lock (rf : Raft n C) : Raft n C := { rf with mu := true }

def unlock (rf : Raft n C) : Raft n C := { rf with mu := false }

def getLastLogIndex (rf : Peer n C) : ℤ := rf.log.length - 1

def getLastLogTerm (rf : Peer n C) : Option ℕ :=
  if getLastLogIndex rf < 0 then none
  else (index rf.log (getLastLogIndex rf)).map LogEntry.term

def convertToFollower (rf : Raft n C) (term : ℕ) : Raft n C :=
  { rf with state := .follower, currentTerm := term, votedFor := none }

/-- The record `Make` returns; `default` is the nil command of the sentinel entry. -/
def make [Inhabited C] : Raft n C where
  mu := false
  dead := false
  currentTerm := 0
  votedFor := none
  log := [⟨default, 0⟩]
  memory := ⟨[], 1, [], 0⟩
  state := .follower
  commitIndex := 0
  lastApplied := 0
  nextIndex := fun _ => 0
  matchIndex := fun _ => 0

def setLog (rf : Raft n C) (log : List (LogEntry C)) : Raft n C :=
  { rf with log := log, memory := rf.memory.append rf.log log }

def getState (rf : Raft n C) : ℕ × Bool := (rf.currentTerm, rf.state = .leader)

def getStateLocked (rf : Raft n C) : Raft n C × ℕ × Bool :=
  let rf := lock rf
  (unlock rf, getState rf)

def adoptTerm (rf : Raft n C) (term : ℕ) : Raft n C :=
  if term > rf.currentTerm then
    { rf with votedFor := none, currentTerm := term, state := .follower }
  else rf

def decideVote (rf : Raft n C) (args : RequestVoteArgs n) :
    Option (Raft n C × RequestVoteReply) :=
  if rf.votedFor = none ∨ rf.votedFor = some args.candidateId then
    (index rf.log (rf.log.length - 1)).map fun last =>
      if args.lastLogTerm > last.term ∨
          (args.lastLogTerm = last.term ∧ args.lastLogIndex ≥ rf.log.length - 1) then
        (unlock { rf with
            currentTerm := args.term
            votedFor := some args.candidateId
            state := .follower },
          ⟨args.term, true⟩)
      else
        (unlock rf, ⟨rf.currentTerm, false⟩)
  else
    some (unlock rf, ⟨rf.currentTerm, false⟩)

def requestVote (rf : Raft n C) (args : RequestVoteArgs n) :
    Option (Raft n C × RequestVoteReply) :=
  if args.term < (lock rf).currentTerm then
    some (unlock (lock rf), ⟨(lock rf).currentTerm, false⟩)
  else
    decideVote (adoptTerm (lock rf) args.term) args

def start (rf : Raft n C) (command : C) : Raft n C × ℤ × ℕ × Bool :=
  let rf := lock rf
  if rf.state ≠ .leader then
    (unlock rf, -1, rf.currentTerm, false)
  else
    let term := rf.currentTerm
    let rf := setLog rf (rf.log ++ [⟨command, term⟩])
    (unlock rf, getLastLogIndex rf.toPeer, term, true)

/-- The downward scan for the first index of the conflicting term; the reply
keeps its zero value when the scan meets no other term. -/
def conflictScan (log : List (LogEntry C)) (conflictTerm : ℕ) : ℕ → ℤ
  | 0 => if (log[0]?.map LogEntry.term) ≠ some conflictTerm then 1 else 0
  | i + 1 =>
    if (log[i + 1]?.map LogEntry.term) ≠ some conflictTerm then (i : ℤ) + 2
    else conflictScan log conflictTerm i

/-- Steps 3 and 4 of the handler: only the first new entry is compared, and
all of `entries` is appended at the end of what remains. -/
def mergeEntries (log : List (LogEntry C)) (prevLogIndex : ℤ) (entries : List (LogEntry C)) :
    List (LogEntry C) :=
  let conflicts := match entries, index log (prevLogIndex + 1) with
    | first :: _, some stored => decide (stored.term ≠ first.term)
    | _, _ => false
  (if conflicts then log.take (prevLogIndex + 1).toNat else log) ++ entries

/-- Step 5: the commit index follows `leaderCommit` up to the end of the log. -/
def followCommit (rf : Raft n C) (leaderCommit : ℤ) : Raft n C :=
  if leaderCommit > rf.commitIndex then
    { rf with commitIndex := min leaderCommit (getLastLogIndex rf.toPeer) }
  else rf

def reconcile (rf : Raft n C) (args : AppendEntriesArgs n C) :
    Option (Raft n C × AppendEntriesReply) :=
  if args.prevLogIndex ≥ rf.log.length then
    -- the debug line of this branch reads the last entry of the log
    (index rf.log (rf.log.length - 1)).map fun _ =>
      (unlock rf, ⟨rf.currentTerm, false, rf.log.length, -1⟩)
  else
    (index rf.log args.prevLogIndex).map fun prev =>
      if prev.term ≠ args.prevLogTerm then
        (unlock rf, ⟨rf.currentTerm, false,
          conflictScan rf.log prev.term args.prevLogIndex.toNat, prev.term⟩)
      else
        (unlock (followCommit
            (setLog rf (mergeEntries rf.log args.prevLogIndex args.entries))
            args.leaderCommit),
          ⟨rf.currentTerm, true, 0, 0⟩)

def appendEntries (rf : Raft n C) (args : AppendEntriesArgs n C) :
    Option (Raft n C × AppendEntriesReply) :=
  if args.term < (lock rf).currentTerm then
    some (unlock (lock rf), ⟨(lock rf).currentTerm, false, 0, 0⟩)
  else
    reconcile (adoptTerm (lock rf) args.term) args

/-- The inner loop over the peers: `some true` when it breaks with a majority. -/
def countMatches (rf : Peer n C) (N : ℤ) : List (Fin n) → ℕ → Option Bool
  | [], _ => some false
  | i :: rest, count =>
    if rf.matchIndex i ≥ N then
      (index rf.log N).bind fun entry =>
        if entry.term = rf.currentTerm then
          if count + 1 > n / 2 then some true else countMatches rf N rest (count + 1)
        else countMatches rf N rest count
    else countMatches rf N rest count

/-- `for N > rf.commitIndex`, counting `N` down; the bound is read again at
each turn because the inner loop may have moved it. -/
def commitLoop : ℕ → ℤ → Raft n C → Option (Raft n C)
  | 0, _, rf => some rf
  | fuel + 1, N, rf =>
    if N > rf.commitIndex then
      (countMatches rf.toPeer N (List.finRange n) 1).bind fun found =>
        commitLoop fuel (N - 1) (if found then { rf with commitIndex := N } else rf)
    else some rf

def searchTerm (log : List (LogEntry C)) (conflictTerm : ℤ) : ℕ → ℤ
  | 0 => -1
  | i + 1 =>
    if log[i]?.map (fun entry => (entry.term : ℤ)) = some conflictTerm then i
    else searchTerm log conflictTerm i

/-- Where the leader retries after a refusal with the hints of `reply`. -/
def nextAfterConflict (log : List (LogEntry C)) (reply : AppendEntriesReply) : ℤ :=
  if reply.conflictTerm ≠ 0 then
    let conflictIndex := searchTerm log reply.conflictTerm log.length
    if conflictIndex ≠ -1 then conflictIndex + 1 else reply.conflictIndex
  else reply.conflictIndex

def recordMatch (rf : Raft n C) (serverTo : Fin n) (args : AppendEntriesArgs n C) : Raft n C :=
  let matched := args.prevLogIndex + args.entries.length
  { rf with
    matchIndex := Function.update rf.matchIndex serverTo matched
    nextIndex := Function.update rf.nextIndex serverTo (matched + 1) }

/-- The section of `handleAppendEntries` that follows a delivered reply. The
last branch returns without unlocking, as the source does. -/
def handleAppendEntries (rf : Raft n C) (serverTo : Fin n) (args : AppendEntriesArgs n C)
    (reply : AppendEntriesReply) : Option (Raft n C) :=
  let rf := lock rf
  if args.term ≠ rf.currentTerm then
    some (unlock rf)
  else if reply.success then
    let rf := recordMatch rf serverTo args
    let N := getLastLogIndex rf.toPeer
    (commitLoop (N - rf.commitIndex).toNat N rf).map unlock
  else if reply.term > rf.currentTerm then
    some (unlock (convertToFollower rf reply.term))
  else if reply.term = rf.currentTerm ∧ rf.state = .leader then
    some (unlock { rf with
      nextIndex := Function.update rf.nextIndex serverTo (nextAfterConflict rf.log reply) })
  else
    some rf

/-- The request that a heartbeat round builds for peer `i`. Its entries are a
slice of `rf.log` and are read again, from memory, when the request is encoded. -/
def heartbeatArgs (me : Fin n) (rf : Peer n C) (i : Fin n) : Option (AppendEntriesArgs n C) :=
  (index rf.log (rf.nextIndex i - 1)).map fun prev =>
    { term := rf.currentTerm
      leaderID := me
      prevLogIndex := rf.nextIndex i - 1
      prevLogTerm := prev.term
      entries := if (rf.log.length : ℤ) - 1 ≥ rf.nextIndex i then
          rf.log.drop (rf.nextIndex i).toNat else []
      leaderCommit := rf.commitIndex }

def broadcast (me : Fin n) (rf : Peer n C) :
    List (Fin n) → Option (List (Fin n × AppendEntriesArgs n C))
  | [] => some []
  | i :: rest =>
    if i = me then broadcast me rf rest
    else (heartbeatArgs me rf i).bind fun args =>
      (broadcast me rf rest).map fun later => (i, args) :: later

/-- One round of `SendHeartBeats`; no request list means that the goroutine returns. -/
def sendHeartBeats (me : Fin n) (rf : Raft n C) :
    Option (Raft n C × Option (List (Fin n × AppendEntriesArgs n C))) :=
  let rf := lock rf
  if rf.state ≠ .leader then some (unlock rf, none)
  else (broadcast me rf.toPeer (List.finRange n)).map fun sent => (unlock rf, some sent)

/-- `Kill` stores `dead` atomically and later takes the lock. -/
def killStore (rf : Raft n C) : Raft n C := { rf with dead := true }

def killLocked (rf : Raft n C) : Raft n C := unlock { lock rf with state := .dead }

def kickOffElection (me : Fin n) (rf : Raft n C) : Option (Raft n C × RequestVoteArgs n) :=
  let rf := lock rf
  let rf := { rf with
    currentTerm := rf.currentTerm + 1
    state := .candidate
    votedFor := some me }
  (getLastLogTerm rf.toPeer).map fun lastLogTerm =>
    (unlock rf, ⟨rf.currentTerm, me, getLastLogIndex rf.toPeer, lastLogTerm⟩)

/-- The section of `handleRequestVote` that follows a delivered reply, with
the value it sends into `voteCh`, if any. -/
def handleRequestVote (rf : Raft n C) (args : RequestVoteArgs n) (reply : RequestVoteReply) :
    Raft n C × Option Bool :=
  let rf := lock rf
  if rf.state ≠ .candidate ∨ rf.currentTerm ≠ args.term then (unlock rf, none)
  else if reply.term > rf.currentTerm then (unlock (convertToFollower rf reply.term), none)
  else (unlock rf, some reply.voteGranted)

def convertToLeader (rf : Raft n C) : Raft n C :=
  { rf with
    state := .leader
    nextIndex := fun _ => getLastLogIndex rf.toPeer + 1
    matchIndex := fun _ => 0 }

inductive Collected
  | returned
  | elected
  | more
  deriving DecidableEq, Repr

/-- The section inside the `collectVotes` loop. It tests the state but not the
term for which the votes were asked. -/
def collectVotes (rf : Raft n C) (votesReceived : ℕ) : Raft n C × Collected :=
  let rf := lock rf
  if rf.state ≠ .candidate then (unlock rf, .returned)
  else if votesReceived > n / 2 then (unlock (convertToLeader rf), .elected)
  else (unlock rf, .more)

/-- The first test of `CommitChecker` under the lock. When there is nothing to
apply it waits on the condition variable, which releases the lock. -/
def commitReady (rf : Raft n C) : Prop := rf.commitIndex > rf.lastApplied

instance (rf : Raft n C) : Decidable (commitReady rf) :=
  inferInstanceAs (Decidable (rf.commitIndex > rf.lastApplied))

def applyNext (rf : Raft n C) : Option (Raft n C × ApplyMsg C) :=
  let rf := { rf with lastApplied := rf.lastApplied + 1 }
  (index rf.log rf.lastApplied).map fun entry => (rf, ⟨true, entry.command, rf.lastApplied⟩)

end Sections

end DistributedLabs.RaftPeer
