import DistributedLabs.RaftMoves

/-! The shape that logs and requests have in every run, whatever the encoders
find. A log starts with the only entry of term zero, and so does every array
that a log has lain in; a request asks for an entry at or behind it. An array
never loses cells, so an encoder always finds the one it reads. -/

namespace DistributedLabs.RaftRoots
open GuardedRuns SharedArrays RaftPeer RaftCluster RaftMoves

variable {n : ℕ} {C : Type}

/-- The sentinel of term zero, followed by entries of other terms. -/
structure RootedLog (log : List (LogEntry C)) : Prop where
  root : log[0]?.map LogEntry.term = some 0
  positive : ∀ e ∈ log.drop 1, 1 ≤ e.term

structure RootedArgs (args : AppendEntriesArgs n C) : Prop where
  positive : ∀ e ∈ args.entries, 1 ≤ e.term
  inside : 0 ≤ args.prevLogIndex
  sentinel : args.prevLogTerm = 0 ↔ args.prevLogIndex = 0

/-- The array of a call holds a cell for each of its entries. -/
structure Spanned (p : Peer n C) (call : AppendCall n C) : Prop where
  known : call.array ≤ p.memory.current
  long : (call.args.prevLogIndex + 1).toNat + call.args.entries.length ≤
    (p.memory.array p.log call.array).length

structure RootedPeer (p : Peer n C) : Prop where
  log : RootedLog p.log
  cells : ∀ g, ∀ e ∈ (p.memory.array p.log g).drop 1, 1 ≤ e.term
  active : p.state = .candidate ∨ p.state = .leader → 1 ≤ p.currentTerm
  checked : 0 ≤ p.lastApplied

structure Roots (v : View n C) : Prop where
  peers : ∀ s, RootedPeer (v.peer s)
  calls : ∀ call ∈ v.appendCalls, RootedArgs call.args
  spanned : ∀ call ∈ v.appendCalls, Spanned (v.peer call.caller) call

section Logs

variable {log : List (LogEntry C)}

theorem RootedLog.ne_nil (h : RootedLog log) : log ≠ [] := by
  intro empty
  simpa [empty] using h.root

theorem mem_drop_one {i : ℕ} {e : LogEntry C} (found : log[i]? = some e) (behind : i ≠ 0) :
    e ∈ log.drop 1 := by
  refine List.mem_of_getElem? (i := i - 1) ?_
  rw [List.getElem?_drop, ← found]
  congr 1
  omega

theorem RootedLog.term_eq_zero (h : RootedLog log) {i : ℕ} {e : LogEntry C}
    (found : log[i]? = some e) : e.term = 0 ↔ i = 0 := by
  cases i with
  | zero => simpa [found] using h.root
  | succ i =>
    have positive := h.positive e (mem_drop_one found (Nat.succ_ne_zero i))
    omega

theorem RootedLog.append (h : RootedLog log) {entries : List (LogEntry C)}
    (positive : ∀ e ∈ entries, 1 ≤ e.term) : RootedLog (log ++ entries) where
  root := by
    rw [List.getElem?_append_left (List.length_pos_iff.mpr h.ne_nil)]
    exact h.root
  positive e member := by
    rw [List.drop_append_of_le_length (List.length_pos_iff.mpr h.ne_nil)] at member
    exact (List.mem_append.mp member).elim (h.positive e) (positive e)

theorem RootedLog.take (h : RootedLog log) (k : ℕ) : RootedLog (log.take (k + 1)) where
  root := by simpa using h.root
  positive e member := by
    rw [List.drop_take] at member
    exact h.positive e (List.mem_of_mem_take member)

theorem RootedLog.merge (h : RootedLog log) {args : AppendEntriesArgs n C}
    (request : RootedArgs args) : RootedLog (mergeEntries log args.prevLogIndex args.entries) := by
  have inside := request.inside
  cases mergeEntries_cases log args with
  | inl appended =>
    rw [appended.1]
    exact h.append request.positive
  | inr replaced =>
    have position : (args.prevLogIndex + 1).toNat = args.prevLogIndex.toNat + 1 := by omega
    rw [replaced, position]
    exact (h.take _).append request.positive

theorem RootedLog.heartbeat {p : Peer n C} (h : RootedLog p.log) {me i : Fin n}
    {args : AppendEntriesArgs n C} (built : heartbeatArgs me p i = some args) :
    RootedArgs args := by
  obtain ⟨k, prev, found, same⟩ := heartbeatArgs_eq built
  subst same
  refine ⟨fun e member => h.positive e ?_, Int.natCast_nonneg k, ?_⟩
  · rw [Nat.add_comm, ← List.drop_drop] at member
    exact List.mem_of_mem_drop member
  · rw [h.term_eq_zero found]
    exact Int.natCast_eq_zero.symm

end Logs

section Calls

variable {p : Peer n C} {call : AppendCall n C}

theorem spanned_heartbeat {me i : Fin n} {args : AppendEntriesArgs n C}
    (built : heartbeatArgs me p i = some args) :
    Spanned p ⟨me, i, args, p.memory.current, 0, none⟩ := by
  obtain ⟨k, prev, found, same⟩ := heartbeatArgs_eq built
  subst same
  have inside := (List.getElem?_eq_some_iff.mp found).1
  refine ⟨le_rfl, ?_⟩
  rw [array_of_current_le le_rfl]
  simp only [List.length_append, List.length_drop]
  omega

theorem Spanned.kept (h : Spanned p call) {q : Peer n C}
    (kept : Kept p.memory p.log q.memory q.log) : Spanned q call where
  known := h.known.trans kept.current
  long := h.long.trans (kept.length _ h.known)

theorem Spanned.cell (h : Spanned p call) (unread : call.read < 2 * call.args.entries.length) :
    ∃ cell, nextCell p call = some cell := by
  have long := h.long
  exact ⟨_, List.getElem?_eq_getElem (by omega)⟩

@[simp] theorem encode_length (call : AppendCall n C) (cell : LogEntry C) :
    (call.encode cell).args.entries.length = call.args.entries.length := by
  simp [AppendCall.encode]

theorem Spanned.encode (h : Spanned p call) (cell : LogEntry C) : Spanned p (call.encode cell) where
  known := h.known
  long := by
    rw [encode_length]
    exact h.long

theorem RootedArgs.encode (h : RootedArgs call.args) {cell : LogEntry C}
    (positive : 1 ≤ cell.term) : RootedArgs (call.encode cell).args := by
  refine ⟨fun e member => ?_, h.inside, h.sentinel⟩
  obtain ⟨i, found⟩ := List.mem_iff_getElem?.mp member
  rw [AppendCall.encode, List.getElem?_modify] at found
  obtain ⟨entry, old, same⟩ := Option.map_eq_some_iff.mp found
  have kept := h.positive entry (List.mem_of_getElem? old)
  subst same
  split
  · unfold readField
    split
    · exact kept
    · exact positive
  · exact kept

end Calls

section Keep

variable {v : View n C}

theorem Roots.setPeer (h : Roots v) {s : Fin n} {p : Peer n C} (log : RootedLog p.log)
    (kept : Kept (v.peer s).memory (v.peer s).log p.memory p.log)
    (active : p.state = .candidate ∨ p.state = .leader → 1 ≤ p.currentTerm)
    (checked : 0 ≤ p.lastApplied) : Roots (v.setPeer s p) where
  peers := by
    refine View.forall_setPeer (P := fun _ p => RootedPeer p) h.peers ⟨log, ?_, active, checked⟩
    intro g e found
    exact (kept.cells g e found).elim ((h.peers s).cells g e) (log.positive e)
  calls := h.calls
  spanned call member := by
    have held := h.spanned call member
    rcases eq_or_ne call.caller s with rfl | other
    · simpa [View.setPeer] using held.kept kept
    · simpa [View.setPeer, other] using held

theorem Roots.setKept (h : Roots v) {s : Fin n} {p : Peer n C} (log : p.log = (v.peer s).log)
    (memory : p.memory = (v.peer s).memory) (term : (v.peer s).currentTerm ≤ p.currentTerm)
    (active : p.state = .candidate ∨ p.state = .leader →
      1 ≤ p.currentTerm ∨ p.state = (v.peer s).state)
    (checked : 0 ≤ p.lastApplied) : Roots (v.setPeer s p) := by
  refine h.setPeer ?_ ?_ (fun acts => ?_) checked
  · rw [log]
    exact (h.peers s).log
  · rw [log, memory]
    exact .refl _ _
  · cases active acts with
    | inl positive => exact positive
    | inr same =>
      rw [same] at acts
      exact ((h.peers s).active acts).trans term

theorem Roots.stepUp (h : Roots v) (s : Fin n) (t : ℕ) :
    Roots (v.setPeer s ((v.peer s).stepUp t)) := by
  refine h.setKept (by simp) (by simp) (by simp) (fun acts => ?_)
    (by simpa using (h.peers s).checked)
  have same : (v.peer s).stepUp t = v.peer s :=
    acts.elim (stepUp_state (by decide)) (stepUp_state (by decide))
  exact .inr (by rw [same])

theorem Roots.setCalls (h : Roots v) {calls : List (AppendCall n C)}
    (rooted : ∀ call ∈ calls, call ∈ v.appendCalls ∨
      RootedArgs call.args ∧ Spanned (v.peer call.caller) call) :
    Roots { v with appendCalls := calls } where
  peers := h.peers
  calls call member := (rooted call member).elim (h.calls call) And.left
  spanned call member := (rooted call member).elim (h.spanned call) And.right

theorem Roots.dropCall (h : Roots v) (j : ℕ) : Roots (v.dropCall j) :=
  h.setCalls fun _ member => .inl (List.mem_of_mem_eraseIdx member)

theorem Roots.setCall (h : Roots v) {j : ℕ} {call : AppendCall n C} (args : RootedArgs call.args)
    (spanned : Spanned (v.peer call.caller) call) : Roots (v.setCall j call) := by
  refine h.setCalls fun other member => ?_
  rcases List.mem_or_eq_of_mem_set member with old | rfl
  · exact .inl old
  · exact .inr ⟨args, spanned⟩

theorem Roots.setReply (h : Roots v) {j : ℕ} {call : AppendCall n C}
    (found : v.appendCalls[j]? = some call) (reply : AppendEntriesReply) :
    Roots (v.setCall j { call with reply := some reply }) := by
  have member := List.mem_of_getElem? found
  have spanned := h.spanned call member
  exact h.setCall (h.calls call member) ⟨spanned.known, spanned.long⟩

theorem Roots.moved (h : Roots v) {a : Action n C} {v' : View n C} (move : Moved v a v') :
    Roots v' := by
  cases move with
  | quiet => exact h
  | kickOff s last lastFound =>
    have bumped := h.setKept (s := s) (p := (v.peer s).stand s) rfl rfl (Nat.le_succ _)
      (fun _ => .inl (Nat.le_add_left _ _)) (h.peers s).checked
    exact { bumped with }
  | refuse x k s e reply found => exact { h.stepUp s e.args.term with }
  | grant x k s e last found waiting current =>
    have voted := h.setKept (s := s) (p := (v.peer s).grant e.args) (by simp [Peer.grant])
      (by simp [Peer.grant]) (by simp [Peer.grant]) (by simp [Peer.grant])
      (by simpa [Peer.grant] using (h.peers s).checked)
    exact { voted with }
  | voteUnsent x k s e reply t found => exact { h.stepUp x t with }
  | voteSent => exact { h with }
  | receive => exact { h with }
  | collect => exact { h with }
  | elect x k e found standing =>
    have led := h.setKept (s := x) (p := (v.peer x).lead) rfl rfl le_rfl
      (fun _ => .inl ((h.peers x).active (.inl standing))) (h.peers x).checked
    exact { led with }
  | beat s j sent leading built =>
    refine h.setCalls fun call member => (List.mem_append.mp member).imp_right fun new => ?_
    obtain ⟨request, inSent, same⟩ := List.mem_map.mp new
    subst same
    have args := (broadcast_mem built inSent).2
    exact ⟨(h.peers s).log.heartbeat args, spanned_heartbeat args⟩
  | encode j call cell found unanswered unread held =>
    have member := List.mem_of_getElem? found
    have request := h.calls call member
    have inside := request.inside
    have positive := (h.peers call.caller).cells call.array cell (mem_drop_one held (by omega))
    exact h.setCall (request.encode positive) ((h.spanned call member).encode cell)
  | appendStale j call found => exact h.setReply found _
  | appendRefuse j call reply found =>
    exact (h.stepUp call.serverTo call.args.term).setReply found reply
  | appendAccept j call prev found unanswered current prevFound matched =>
    have request := h.calls call (List.mem_of_getElem? found)
    have active := ((h.stepUp call.serverTo call.args.term).peers call.serverTo).active
    have log := (h.peers call.serverTo).log.merge request
    have merged := h.setPeer (s := call.serverTo)
      (p := (v.peer call.serverTo).accepted call.args) log (kept_append _ _ log.ne_nil)
      (by simpa [View.setPeer, Peer.accepted] using active)
      (by simpa [Peer.accepted] using (h.peers call.serverTo).checked)
    exact { merged.setReply found _ with }
  | replyIgnored j => exact h.dropCall j
  | replyMatched j call =>
    have kept := h.setKept (s := call.caller)
      (p := (v.peer call.caller).matched call.serverTo call.args) rfl rfl le_rfl
      (fun _ => .inr rfl) (h.peers _).checked
    exact kept.dropCall j
  | replyAdvanced j call reply M =>
    have kept := h.setKept (s := call.caller)
      (p := { (v.peer call.caller).matched call.serverTo call.args with commitIndex := M })
      rfl rfl le_rfl (fun _ => .inr rfl) (h.peers _).checked
    exact { kept.dropCall j with }
  | replyRaised j call t => exact (h.stepUp call.caller t).dropCall j
  | replyConflict j call reply =>
    have kept := h.setKept (s := call.caller)
      (p := (v.peer call.caller).retry call.serverTo reply) rfl rfl le_rfl
      (fun _ => .inr rfl) (h.peers _).checked
    exact kept.dropCall j
  | apply s entry behind entryFound =>
    have checked := (h.peers s).checked
    have kept := h.setKept (s := s)
      (p := { v.peer s with lastApplied := (v.peer s).lastApplied + 1 }) rfl rfl le_rfl
      (fun _ => .inr rfl) (by simp only; omega)
    exact { kept with }
  | start s command position leading =>
    have positive := (h.peers s).active (.inr leading)
    have log : RootedLog ((v.peer s).appendCommand command).log :=
      (h.peers s).log.append (by simpa using positive)
    have kept := h.setPeer (s := s) (p := (v.peer s).appendCommand command) log
      (kept_append _ _ log.ne_nil) (h.peers s).active (h.peers s).checked
    exact { kept with }
  | allocate s room =>
    exact h.setPeer (h.peers s).log (kept_allocate _ _ room) (h.peers s).active
      (h.peers s).checked
  | kill s =>
    exact h.setKept (s := s) (p := { v.peer s with state := .dead }) rfl rfl le_rfl (by simp)
      (h.peers s).checked

end Keep

theorem Roots.init [Inhabited C] : Roots (view (RaftCluster.init : Cluster n C)) where
  peers _ :=
    { log := ⟨rfl, by simp [view, RaftCluster.init, make]⟩
      cells := fun g => by
        rw [array_of_current_le (Nat.zero_le g)]
        simp [view, RaftCluster.init, make]
      active := by simp [view, RaftCluster.init, make]
      checked := le_rfl }
  calls _ member := absurd member List.not_mem_nil
  spanned _ member := absurd member List.not_mem_nil

theorem reaches_roots [Inhabited C] {ok : Cluster n C → Action n C → Prop} {c : Cluster n C}
    (run : Reaches ok c) : Roots (view c) :=
  run.invariant (fun c => Roots (view c)) (fun h _ taken => h.moved (step_moved taken)) .init

/-- An encoder that has fields left to read can take its next step. -/
theorem encoder_reads [Inhabited C] {ok : Cluster n C → Action n C → Prop} {c : Cluster n C}
    (run : Reaches ok c) {j : ℕ} {call : AppendCall n C} (found : c.appendCalls[j]? = some call)
    (unanswered : call.reply = none) (unread : call.read < 2 * call.args.entries.length) :
    ∃ c', step c (.encode j) = some c' := by
  obtain ⟨cell, held⟩ :=
    ((reaches_roots run).spanned call (List.mem_of_getElem? found)).cell unread
  have cells : nextCell (c.raft call.caller).toPeer call = some cell := held
  exact ⟨c.setCall j (call.encode cell), by
    simp [step, runEncode, found, unanswered, unread, cells]⟩

end DistributedLabs.RaftRoots
