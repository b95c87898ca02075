import DistributedLabs.KvExactlyOnce
import DistributedLabs.Linearizability

/-! Linearizability against the sequential model of models/kv.go. A clerk that
has no table entry has its `Put` applied at every attempt, so a lost reply lets
an old value return after another clerk overwrote it. In runs where such a
`Put` is executed at most once per call, each call takes effect at one of its
attempts. -/

namespace DistributedLabs.KvLinearizable
open GuardedRuns Linearizability KvServer KvExactlyOnce

/-- The operation codes of the sequential model; the clerk's `Append` is the
one with a return value. -/
inductive KvOp
  | get
  | put
  | append
  | appendReturn
  deriving DecidableEq

structure KvInput where
  op : KvOp
  key : String
  value : String
  deriving DecidableEq

/-- `KvModel.Step`: whether the output is right, and the next value of the key. -/
def kvStep (state : String) (inp : KvInput) (out : String) : Bool × String :=
  match inp.op with
  | .get => (out = state, state)
  | .put => (true, inp.value)
  | .append => (true, state ++ inp.value)
  | .appendReturn => (out = state, state ++ inp.value)

def kvModel : Spec (String → String) KvInput String where
  init := fun _ => ""
  step := fun data inp out =>
    if (kvStep (data inp.key) inp out).1 then
      some (Function.update data inp.key (kvStep (data inp.key) inp out).2)
    else none

def kvInput : Request → KvInput
  | .get key => ⟨.get, key, ""⟩
  | .put key value => ⟨.put, key, value⟩
  | .append key value => ⟨.appendReturn, key, value⟩

def clientHistory (sys : System) : List (Op KvInput String) :=
  sys.history.map fun op => ⟨kvInput op.request, op.call, op.response⟩

/-- A `Put` of a client without a table entry is not executed a second time in
the same call. An `Append` has its entry after the first time. -/
def PutsOnce (sys : System) : Action → Prop
  | .execute id => ∀ call ∈ (sys.clerks id).calling, sys.server.clientTable id = none →
      ∀ op ∈ sys.history[call.ticket]?, call.request.writes → op.attempts = []
  | _ => True

instance (sys : System) : (a : Action) → Decidable (PutsOnce sys a)
  | .execute id => inferInstanceAs (Decidable (∀ call ∈ (sys.clerks id).calling,
      sys.server.clientTable id = none →
        ∀ op ∈ sys.history[call.ticket]?, call.request.writes → op.attempts = []))
  | .invoke _ _ | .loseRequest _ | .loseReply _ | .deliver _ => isTrue trivial

theorem kvModel_step (data : String → String) (request : Request) :
    kvModel.step data (kvInput request) (request.answer data) = some (request.effect data) := by
  cases request <;> simp [kvModel, kvStep, kvInput, Request.answer, Request.effect]

theorem kvModel_get_idle {data data' : String → String} {key out : String}
    (h : kvModel.step data (kvInput (.get key)) out = some data') : data' = data := by
  simp only [kvModel, kvStep, kvInput, Function.update_eq_self] at h
  split at h
  · exact (Option.some.inj h).symm
  · exact absurd h.symm (Option.some_ne_none _)

structure Linked (sys : System) (points : List (Point KvInput String)) : Prop where
  increasing : points.Pairwise fun p q => p.time < q.time
  distinct : (points.map fun p => p.op).Nodup
  past : ∀ p ∈ points, p.time < sys.clock
  sound : ∀ p ∈ points, ∃ op, sys.history[p.op]? = some op ∧ kvInput op.request = p.input ∧
    op.call < p.time ∧ op.attempts ≠ [] ∧ ∀ r ∈ op.response, p.output = r.1 ∧ p.time < r.2
  complete : ∀ i op, sys.history[i]? = some op → op.response ≠ none → ∃ p ∈ points, p.op = i
  legal : replay kvModel kvModel.init (points.map Point.toEntry) = some sys.server.data
  replied : ∀ id, ∀ call ∈ (sys.clerks id).calling, ∀ v ∈ call.reply,
    ∃ p ∈ points, p.op = call.ticket ∧ p.output = v
  recorded : ∀ id, ∀ call ∈ (sys.clerks id).calling, ∀ dt, sys.server.clientTable id = some dt →
    dt.seq = (sys.clerks id).seqNum →
    ∃ p ∈ points, p.op = call.ticket ∧ p.output = call.request.remembered dt

section Keep

variable {sys sys' : System} {id : ℤ} {points : List (Point KvInput String)}

theorem Linked.unique (h : Linked sys points) {p q : Point KvInput String} (left : p ∈ points)
    (right : q ∈ points) (same : p.op = q.op) : p = q :=
  List.inj_on_of_nodup_map h.distinct left right same

theorem Linked.invoke (h : Linked sys points) (tracked : Tracked sys) (request : Request) :
    Linked { sys with
      clerks := Function.update sys.clerks id
        ⟨(sys.clerks id).seqNum + 1, some ⟨sys.history.length, request, none⟩⟩
      clock := sys.clock + 1
      history := sys.history ++ [⟨id, request, sys.clock, [], none⟩] } points where
  increasing := h.increasing
  distinct := h.distinct
  legal := h.legal
  past p member := Nat.lt_succ_of_lt (h.past p member)
  sound p member := by
    obtain ⟨op, found, rest⟩ := h.sound p member
    refine ⟨op, ?_, rest⟩
    rwa [List.getElem?_append_left (List.getElem?_eq_some_iff.mp found).1]
  complete i op found returned := by
    rcases Nat.lt_or_ge i sys.history.length with old | new
    · rw [List.getElem?_append_left old] at found
      exact h.complete i op found returned
    · rw [List.getElem?_append_right new] at found
      have last := List.mem_singleton.mp (List.mem_of_getElem? found)
      exact absurd (by rw [last]) returned
  replied other call found v reply := by
    rcases eq_or_ne other id with rfl | apart
    · obtain rfl : _ = call := by simpa using found
      simp at reply
    · simp only [Function.update_of_ne apart] at found
      exact h.replied other call found v reply
  recorded other call found dt present same := by
    rcases eq_or_ne other id with rfl | apart
    · simp only [Function.update_self] at same
      have := (tracked.numbered other).2 dt present
      omega
    · simp only [Function.update_of_ne apart] at found same
      exact h.recorded other call found dt present same

theorem Linked.complete_set (h : Linked sys points) {t : ℕ} {op next : Operation}
    (ticket : sys.history[t]? = some op) (unanswered : op.response = none) (a : Attempt) {i : ℕ}
    (at_i : (sys.history.set t { op with attempts := op.attempts ++ [a] })[i]? = some next)
    (returned : next.response ≠ none) : i ≠ t ∧ ∃ p ∈ points, p.op = i := by
  rcases eq_or_ne i t with rfl | there
  · rw [List.getElem?_set_self (List.getElem?_eq_some_iff.mp ticket).1] at at_i
    rw [← Option.some.inj at_i] at returned
    exact absurd unanswered returned
  · rw [List.getElem?_set_ne there.symm] at at_i
    exact ⟨there, h.complete i next at_i returned⟩

theorem Linked.again (h : Linked sys points) (tracked : Tracked sys) {call : Call}
    {op : Operation} (found : (sys.clerks id).calling = some call)
    (ticket : sys.history[call.ticket]? = some op) {dt : DupTable}
    (present : sys.server.clientTable id = some dt) (same : dt.seq = (sys.clerks id).seqNum)
    (a : Attempt) :
    Linked
      { server := sys.server
        clerks := Function.update sys.clerks id ⟨(sys.clerks id).seqNum,
          some { call with reply := some (call.request.remembered dt) }⟩
        clock := sys.clock + 1
        history := sys.history.set call.ticket
          { op with attempts := op.attempts ++ [a] } } points := by
  obtain ⟨op', ticket', client, request, unanswered, -⟩ := tracked.calling id call found
  obtain rfl : op = op' := Option.some.inj (ticket.symm.trans ticket')
  have bound := (List.getElem?_eq_some_iff.mp ticket).1
  exact
    { increasing := h.increasing
      distinct := h.distinct
      legal := h.legal
      past := fun p member => Nat.lt_succ_of_lt (h.past p member)
      sound := fun p member => by
        obtain ⟨next, at_p, input, after, tried, answer⟩ := h.sound p member
        rcases eq_or_ne p.op call.ticket with here | there
        · rw [here] at at_p ⊢
          obtain rfl : op = next := Option.some.inj (ticket.symm.trans at_p)
          exact ⟨_, List.getElem?_set_self bound, input, after, by simp, answer⟩
        · exact ⟨next, by rwa [List.getElem?_set_ne there.symm], input, after, tried, answer⟩
      complete := fun i next at_i returned =>
        (h.complete_set ticket unanswered a at_i returned).2
      replied := fun other call' found' v reply => by
        rcases eq_or_ne other id with rfl | apart
        · obtain rfl : _ = call' := by simpa using found'
          obtain rfl : _ = v := by simpa using reply
          exact h.recorded other call found dt present same
        · simp only [Function.update_of_ne apart] at found'
          exact h.replied other call' found' v reply
      recorded := fun other call' found' dt' present' same' => by
        rcases eq_or_ne other id with rfl | apart
        · obtain rfl : _ = call' := by simpa using found'
          simp only [Function.update_self] at same'
          exact h.recorded other call found dt' present' same'
        · simp only [Function.update_of_ne apart] at found' same'
          exact h.recorded other call' found' dt' present' same' }

/-- The order after call number `i` takes effect now: an earlier effect of the
same call, which can only have been a read, is dropped. -/
def relink (points : List (Point KvInput String)) (i : ℕ) (input : KvInput) (output : String)
    (time : ℕ) : List (Point KvInput String) :=
  (points.filter fun p => p.op ≠ i) ++ [⟨⟨i, input, output⟩, time⟩]

theorem mem_relink {i time : ℕ} {input : KvInput} {output : String} {p : Point KvInput String} :
    p ∈ relink points i input output time ↔
      (p ∈ points ∧ p.op ≠ i) ∨ p = ⟨⟨i, input, output⟩, time⟩ := by
  simp [relink]

theorem Linked.relink_increasing (h : Linked sys points) (i : ℕ) (input : KvInput)
    (output : String) :
    (relink points i input output sys.clock).Pairwise fun p q => p.time < q.time := by
  refine List.pairwise_append.mpr
    ⟨h.increasing.filter _, List.pairwise_singleton _ _, fun p inside q last => ?_⟩
  rw [List.mem_singleton.mp last]
  exact h.past p (List.mem_of_mem_filter inside)

theorem Linked.relink_distinct (h : Linked sys points) (i : ℕ) (input : KvInput)
    (output : String) (time : ℕ) :
    ((relink points i input output time).map fun p => p.op).Nodup := by
  rw [relink, List.map_append, List.map_singleton, List.nodup_append]
  refine ⟨h.distinct.sublist (List.Sublist.map _ List.filter_sublist), List.nodup_singleton _, ?_⟩
  intro k inside j last same
  obtain ⟨p, kept, rfl⟩ := List.mem_map.mp inside
  rw [List.mem_singleton.mp last] at same
  exact absurd same (by simpa using (List.mem_filter.mp kept).2)

theorem Linked.relink_legal (h : Linked sys points) {i time : ℕ} {request : Request}
    (reads : ∀ p ∈ points, p.op = i → ∃ key, p.input = kvInput (.get key)) :
    replay kvModel kvModel.init ((relink points i (kvInput request)
      (request.answer sys.server.data) time).map Point.toEntry) =
        some (request.effect sys.server.data) := by
  have kept : replay kvModel kvModel.init ((points.filter fun p => p.op ≠ i).map Point.toEntry) =
      some sys.server.data := by
    have shape : (points.filter fun p => p.op ≠ i).map Point.toEntry =
        (points.map Point.toEntry).filter fun e => e.op ≠ i := by
      rw [List.filter_map]
      rfl
    rw [shape]
    refine replay_filter (fun e member dropped u w stepped => ?_) h.legal
    obtain ⟨p, inside, rfl⟩ := List.mem_map.mp member
    obtain ⟨key, input⟩ := reads p inside (by simpa using dropped)
    rw [input] at stepped
    exact kvModel_get_idle stepped
  rw [relink, List.map_append, List.map_singleton]
  exact replay_snoc kept (kvModel_step sys.server.data request)

theorem Linked.effect (h : Linked sys points) (tracked : Tracked sys) {call : Call}
    {op : Operation} (found : (sys.clerks id).calling = some call)
    (ticket : sys.history[call.ticket]? = some op)
    (reads : op.attempts ≠ [] → ∃ key, op.request = .get key) {table : ℤ → Option DupTable}
    (others : ∀ other, other ≠ id → table other = sys.server.clientTable other)
    (mine : ∀ dt, table id = some dt → dt.value = call.request.answer sys.server.data)
    (a : Attempt) :
    Linked
      { server := ⟨call.request.effect sys.server.data, table⟩
        clerks := Function.update sys.clerks id ⟨(sys.clerks id).seqNum,
          some { call with reply := some (call.request.answer sys.server.data) }⟩
        clock := sys.clock + 1
        history := sys.history.set call.ticket { op with attempts := op.attempts ++ [a] } }
      (relink points call.ticket (kvInput call.request) (call.request.answer sys.server.data)
        sys.clock) := by
  obtain ⟨op', ticket', client, request, unanswered, -⟩ := tracked.calling id call found
  obtain rfl : op = op' := Option.some.inj (ticket.symm.trans ticket')
  have bound := (List.getElem?_eq_some_iff.mp ticket).1
  have called := (tracked.timed op (List.mem_of_getElem? ticket)).called
  have elsewhere {other : ℤ} {call' : Call} (found' : call' ∈ (sys.clerks other).calling)
      (apart : other ≠ id) {v : String}
      (point : ∃ p ∈ points, p.op = call'.ticket ∧ p.output = v) :
      ∃ p ∈ relink points call.ticket (kvInput call.request)
        (call.request.answer sys.server.data) sys.clock, p.op = call'.ticket ∧ p.output = v := by
    obtain ⟨p, inside, at_p, output⟩ := point
    refine ⟨p, mem_relink.mpr (.inl ⟨inside, ?_⟩), at_p, output⟩
    rw [at_p]
    exact (tracked.ticket_ne ticket client found' apart).symm
  have now : ⟨⟨call.ticket, kvInput call.request, call.request.answer sys.server.data⟩, sys.clock⟩ ∈
      relink points call.ticket (kvInput call.request) (call.request.answer sys.server.data)
        sys.clock := mem_relink.mpr (.inr rfl)
  refine
    { increasing := h.relink_increasing _ _ _
      distinct := h.relink_distinct _ _ _ _
      past := fun p member => ?_
      sound := fun p member => ?_
      complete := fun i next at_i returned => ?_
      legal := ?_
      replied := fun other call' found' v reply => ?_
      recorded := fun other call' found' dt present same => ?_ }
  · rcases mem_relink.mp member with ⟨inside, -⟩ | rfl
    · exact Nat.lt_succ_of_lt (h.past p inside)
    · exact Nat.lt_succ_self _
  · rcases mem_relink.mp member with ⟨inside, there⟩ | rfl
    · obtain ⟨next, at_p, rest⟩ := h.sound p inside
      exact ⟨next, by rwa [List.getElem?_set_ne there.symm], rest⟩
    · exact ⟨_, List.getElem?_set_self bound, by rw [← request], called, by simp,
        by simp [unanswered]⟩
  · obtain ⟨there, p, inside, at_p⟩ := h.complete_set ticket unanswered a at_i returned
    exact ⟨p, mem_relink.mpr (.inl ⟨inside, by rwa [at_p]⟩), at_p⟩
  · refine h.relink_legal fun p inside at_p => ?_
    obtain ⟨next, at_next, input, -, tried, -⟩ := h.sound p inside
    rw [at_p, ticket] at at_next
    obtain rfl := Option.some.inj at_next
    obtain ⟨key, get⟩ := reads tried
    exact ⟨key, by rw [← input, get]⟩
  · rcases eq_or_ne other id with rfl | apart
    · obtain rfl : _ = call' := by simpa using found'
      obtain rfl : _ = v := by simpa using reply
      exact ⟨_, now, rfl, rfl⟩
    · simp only [Function.update_of_ne apart] at found'
      exact elsewhere found' apart (h.replied other call' found' v reply)
  · rcases eq_or_ne other id with rfl | apart
    · obtain rfl : _ = call' := by simpa using found'
      exact ⟨_, now, rfl, (call.request.remembered_answer (mine dt present)).symm⟩
    · simp only [Function.update_of_ne apart] at found' same
      have listed := (others other apart).symm.trans present
      exact elsewhere found' apart (h.recorded other call' found' dt listed same)

theorem Linked.execute (h : Linked sys points) (tracked : Tracked sys) {call : Call}
    {op : Operation} {handled : Handled} (found : (sys.clerks id).calling = some call)
    (ticket : sys.history[call.ticket]? = some op)
    (outcome : Outcome sys.server id (sys.clerks id).seqNum call.request handled)
    (once : sys.server.clientTable id = none → call.request.writes → op.attempts = [])
    (a : Attempt) :
    ∃ points', Linked
      { server := handled.server
        clerks := Function.update sys.clerks id
          ⟨(sys.clerks id).seqNum, some { call with reply := some handled.value }⟩
        clock := sys.clock + 1
        history := sys.history.set call.ticket { op with attempts := op.attempts ++ [a] } }
      points' := by
  obtain ⟨op', ticket', -, request, -, progress⟩ := tracked.calling id call found
  obtain rfl : op = op' := Option.some.inj (ticket.symm.trans ticket')
  cases outcome with
  | unrecorded absent other =>
    refine ⟨_, h.effect tracked found ticket (fun tried => ?_) (fun _ _ => rfl) ?_ a⟩
    · cases kind : call.request with
      | get key => exact ⟨key, request.trans kind⟩
      | put key value => exact absurd (once absent (by simp [kind, Request.writes])) tried
      | append key value => exact absurd kind (other key value)
    · intro dt present
      exact absurd (present.symm.trans absent) (Option.some_ne_none dt)
  | repeated dt present same => exact ⟨_, h.again tracked found ticket present same a⟩
  | recorded new known =>
    have untried := progress.untried new (by rw [request]; exact known)
    refine ⟨_, h.effect tracked found ticket (fun tried => absurd untried tried)
      (fun other apart => Function.update_of_ne apart _ _) (fun dt present => ?_) a⟩
    obtain rfl : _ = dt := by simpa using present
    rfl

theorem Linked.loseReply (h : Linked sys points) {call : Call}
    (found : (sys.clerks id).calling = some call) :
    Linked { sys with
      clerks := Function.update sys.clerks id
        ⟨(sys.clerks id).seqNum, some { call with reply := none }⟩
      clock := sys.clock + 1 } points := by
  refine { h with
    past := fun p member => Nat.lt_succ_of_lt (h.past p member)
    replied := fun other call' found' v reply => ?_
    recorded := fun other call' found' dt present same => ?_ }
  · rcases eq_or_ne other id with rfl | apart
    · obtain rfl : _ = call' := by simpa using found'
      simp at reply
    · simp only [Function.update_of_ne apart] at found'
      exact h.replied other call' found' v reply
  · rcases eq_or_ne other id with rfl | apart
    · obtain rfl : _ = call' := by simpa using found'
      simp only [Function.update_self] at same
      exact h.recorded other call found dt present same
    · simp only [Function.update_of_ne apart] at found' same
      exact h.recorded other call' found' dt present same

theorem Linked.deliver (h : Linked sys points) {call : Call} {op : Operation} {value : String}
    (found : (sys.clerks id).calling = some call) (replied : call.reply = some value)
    (ticket : sys.history[call.ticket]? = some op) :
    Linked { sys with
      clerks := Function.update sys.clerks id ⟨(sys.clerks id).seqNum, none⟩
      clock := sys.clock + 1
      history := sys.history.set call.ticket
        { op with response := some (value, sys.clock) } } points := by
  have bound := (List.getElem?_eq_some_iff.mp ticket).1
  obtain ⟨point, inside, at_point, output⟩ := h.replied id call found value replied
  exact
    { increasing := h.increasing
      distinct := h.distinct
      legal := h.legal
      past := fun p member => Nat.lt_succ_of_lt (h.past p member)
      sound := fun p member => by
        obtain ⟨next, at_p, input, after, tried, answer⟩ := h.sound p member
        rcases eq_or_ne p.op call.ticket with here | there
        · obtain rfl := h.unique member inside (here.trans at_point.symm)
          rw [here] at at_p ⊢
          obtain rfl : op = next := Option.some.inj (ticket.symm.trans at_p)
          refine ⟨_, List.getElem?_set_self bound, input, after, tried, fun r returned => ?_⟩
          obtain rfl : _ = r := by simpa using returned
          exact ⟨output, h.past p member⟩
        · exact ⟨next, by rwa [List.getElem?_set_ne there.symm], input, after, tried, answer⟩
      complete := fun i next at_i returned => by
        rcases eq_or_ne i call.ticket with rfl | there
        · exact ⟨point, inside, at_point⟩
        · rw [List.getElem?_set_ne there.symm] at at_i
          exact h.complete i next at_i returned
      replied := fun other call' found' v reply => by
        rcases eq_or_ne other id with rfl | apart
        · simp at found'
        · simp only [Function.update_of_ne apart] at found'
          exact h.replied other call' found' v reply
      recorded := fun other call' found' dt present same => by
        rcases eq_or_ne other id with rfl | apart
        · simp at found'
        · simp only [Function.update_of_ne apart] at found' same
          exact h.recorded other call' found' dt present same }

theorem linked_moved (h : Linked sys points) (tracked : Tracked sys) {a : Action}
    (once : PutsOnce sys a) (move : Moved sys a sys') : ∃ points', Linked sys' points' := by
  cases move with
  | invoke id request => exact ⟨points, h.invoke tracked request⟩
  | loseRequest =>
    exact ⟨points, { h with past := fun p member => Nat.lt_succ_of_lt (h.past p member) }⟩
  | execute id call op found ticket =>
    have nonneg := (tracked.numbered id).1
    exact h.execute tracked found ticket (handle_outcome _ _ _ _ (by omega))
      (fun absent writes => once call found absent op ticket writes) _
  | loseReply id call found => exact ⟨points, h.loseReply found⟩
  | deliver id call op value found replied ticket =>
    exact ⟨points, h.deliver found replied ticket⟩

theorem linked_init : Linked init [] where
  increasing := List.Pairwise.nil
  distinct := List.nodup_nil
  past _ member := absurd member List.not_mem_nil
  sound _ member := absurd member List.not_mem_nil
  complete _ _ found := absurd found (by simp [init])
  legal := rfl
  replied _ _ found := absurd found (by simp [init])
  recorded _ _ found := absurd found (by simp [init])

end Keep

theorem reaches_linked {sys : System} (run : Reaches PutsOnce sys) :
    ∃ points, Linked sys points :=
  run.invariant_under Tracked (fun sys => ∃ points, Linked sys points)
    (fun tracked _ taken => tracked.moved (step_moved taken))
    (fun tracked _ ⟨_, h⟩ once taken => linked_moved h tracked once (step_moved taken))
    tracked_init ⟨[], linked_init⟩

/-- As long as no `Put` without a table entry runs twice in one call, what the
clerks see is a linearizable history of the string map. -/
theorem history_linearizable {sys : System} (run : Reaches PutsOnce sys) :
    Linearizable kvModel (clientHistory sys) := by
  obtain ⟨points, linked⟩ := reaches_linked run
  refine linearizable_of_points linked.increasing linked.distinct (fun p member => ?_)
    (fun i op found returned => ?_) (by rw [linked.legal]; exact Option.some_ne_none _)
  · obtain ⟨op, found, input, after, -, answer⟩ := linked.sound p member
    exact ⟨_, by rw [clientHistory, List.getElem?_map, found]; rfl, input, after, answer⟩
  · obtain ⟨op', found', rfl⟩ := Option.map_eq_some_iff.mp (List.getElem?_map ▸ found)
    exact linked.complete i op' found' returned

theorem history_linearizable_retried : ∃ sys : System, Reaches PutsOnce sys ∧
    clientHistory sys = [⟨⟨.appendReturn, "x", "a"⟩, 0, some ("", 4)⟩,
      ⟨⟨.put, "x", "b"⟩, 5, some ("", 9)⟩, ⟨⟨.get, "x", ""⟩, 10, some ("b", 12)⟩] ∧
    Linearizable kvModel (clientHistory sys) := by
  obtain ⟨sys, run, seen⟩ := exec_test step PutsOnce init
    [.invoke 1 (.append "x" "a"), .execute 1, .loseReply 1, .execute 1, .deliver 1,
      .invoke 1 (.put "x" "b"), .execute 1, .loseReply 1, .execute 1, .deliver 1,
      .invoke 2 (.get "x"), .execute 2, .deliver 2]
    (fun sys => clientHistory sys = [⟨⟨.appendReturn, "x", "a"⟩, 0, some ("", 4)⟩,
      ⟨⟨.put, "x", "b"⟩, 5, some ("", 9)⟩, ⟨⟨.get, "x", ""⟩, 10, some ("b", 12)⟩]) (by decide)
  exact ⟨sys, run, of_decide_eq_true seen, history_linearizable run⟩

/-- Client 1 puts "1" and its reply is lost. Client 2 reads "1" and puts "2";
the repeated `Put` of client 1 then restores "1", which client 2 reads again. -/
theorem history_not_linearizable :
    ¬ ∀ sys : System, Reaches free sys → Linearizable kvModel (clientHistory sys) := by
  obtain ⟨sys, run, seen⟩ := exec_test step free init
    [.invoke 1 (.put "x" "1"), .execute 1, .loseReply 1, .invoke 2 (.get "x"), .execute 2,
      .deliver 2, .invoke 2 (.put "x" "2"), .execute 2, .deliver 2, .execute 1, .deliver 1,
      .invoke 2 (.get "x"), .execute 2, .deliver 2]
    (fun sys => clientHistory sys = [⟨⟨.put, "x", "1"⟩, 0, some ("", 10)⟩,
      ⟨⟨.get, "x", ""⟩, 3, some ("1", 5)⟩, ⟨⟨.put, "x", "2"⟩, 6, some ("", 8)⟩,
      ⟨⟨.get, "x", ""⟩, 11, some ("1", 13)⟩]) (by decide)
  intro linearizable
  have linear := linearizable sys run
  rw [of_decide_eq_true seen] at linear
  have tried := linearizable_complete (by decide) (by decide) linear
  exact absurd tried (by decide)

end DistributedLabs.KvLinearizable
