import DistributedLabs.KvServer

/-! What every run of the key/value server guarantees its clerks. A table entry
with the clerk's current sequence number says that the current call has taken
effect, once, and keeps its answer; `Append` makes the entry, so from then on
every call of that clerk is recorded. -/

namespace DistributedLabs.KvExactlyOnce
open GuardedRuns KvServer

def Once (op : Operation) (a : Attempt) : Prop := op.attempts.filter (·.assigned) = [a]

def Recorded (dt : DupTable) (op : Operation) : Prop :=
  match op.request with
  | .get _ => ∃ a ∈ op.attempts, a.held = dt.value
  | .put _ _ => ∃ a, Once op a
  | .append _ _ => ∃ a, Once op a ∧ a.held = dt.value

structure Progress (kv : KVServer) (id seqNum : ℤ) (call : Call) (op : Operation) : Prop where
  unlisted : kv.clientTable id = none →
    (∀ key value, op.request = .append key value → op.attempts = [] ∧ call.reply = none) ∧
    (∀ key v, op.request = .get key → call.reply = some v → ∃ a ∈ op.attempts, a.held = v)
  pending : ∀ dt, kv.clientTable id = some dt → dt.seq ≠ seqNum →
    op.attempts = [] ∧ call.reply = none
  settled : ∀ dt, kv.clientTable id = some dt → dt.seq = seqNum →
    Recorded dt op ∧ ∀ v, call.reply = some v → v = op.request.remembered dt

/-- Client `id` had an `Append` executed before time `t`. -/
def Enrolled (history : List Operation) (id : ℤ) (t : ℕ) : Prop :=
  ∃ op ∈ history, op.clientId = id ∧ (∃ key value, op.request = .append key value) ∧
    ∃ a ∈ op.attempts, a.time < t

def Answered (history : List Operation) (op : Operation) (v : String) : Prop :=
  match op.request with
  | .get _ => ∃ a ∈ op.attempts, a.held = v
  | .put _ _ => Enrolled history op.clientId op.call → ∃ a, Once op a
  | .append _ _ => ∃ a, Once op a ∧ a.held = v

structure Timed (clock : ℕ) (op : Operation) : Prop where
  called : op.call < clock
  attempted : ∀ a ∈ op.attempts, op.call < a.time ∧ a.time < clock
  faithful : ∀ a ∈ op.attempts, a.left = if a.assigned then op.request.result a.held else a.held
  returned : ∀ r ∈ op.response, r.2 < clock ∧ ∀ a ∈ op.attempts, a.time < r.2

structure Tracked (sys : System) : Prop where
  timed : ∀ op ∈ sys.history, Timed sys.clock op
  calling : ∀ id, ∀ call ∈ (sys.clerks id).calling, ∃ op, sys.history[call.ticket]? = some op ∧
    op.clientId = id ∧ op.request = call.request ∧ op.response = none ∧
    Progress sys.server id (sys.clerks id).seqNum call op
  numbered : ∀ id, 0 ≤ (sys.clerks id).seqNum ∧
    ∀ dt, sys.server.clientTable id = some dt → dt.seq ≤ (sys.clerks id).seqNum
  listed : ∀ op ∈ sys.history, (∃ key value, op.request = .append key value) →
    op.attempts ≠ [] → sys.server.clientTable op.clientId ≠ none
  answered : ∀ op ∈ sys.history, ∀ r ∈ op.response, Answered sys.history op r.1

section Keep

variable {sys sys' : System} {id : ℤ}

theorem Timed.mono {clock : ℕ} {op : Operation} (h : Timed clock op) : Timed (clock + 1) op where
  called := Nat.lt_succ_of_lt h.called
  attempted a member := by
    obtain ⟨low, high⟩ := h.attempted a member
    exact ⟨low, Nat.lt_succ_of_lt high⟩
  faithful := h.faithful
  returned r found := by
    obtain ⟨bound, later⟩ := h.returned r found
    exact ⟨Nat.lt_succ_of_lt bound, later⟩

theorem Timed.attempt {clock : ℕ} {op : Operation} {a : Attempt} (h : Timed clock op)
    (unanswered : op.response = none) (now : a.time = clock)
    (faithful : a.left = if a.assigned then op.request.result a.held else a.held) :
    Timed (clock + 1) { op with attempts := op.attempts ++ [a] } := by
  refine { h.mono with
    attempted := fun b inside => ?_, faithful := fun b inside => ?_, returned := ?_ }
  · rcases List.mem_append.mp inside with before | last
    · exact h.mono.attempted b before
    · rw [List.mem_singleton.mp last, now]
      exact ⟨h.called, Nat.lt_succ_self _⟩
  · rcases List.mem_append.mp inside with before | last
    · exact h.faithful b before
    · rw [List.mem_singleton.mp last]
      exact faithful
  · simp [unanswered]

theorem Enrolled.of_set {history : List Operation} {i t : ℕ} {client : ℤ} {op new : Operation}
    (member : op ∈ history) (sameClient : new.clientId = op.clientId)
    (sameRequest : new.request = op.request)
    (attempts : ∀ a ∈ new.attempts, a.time < t → a ∈ op.attempts)
    (h : Enrolled (history.set i new) client t) : Enrolled history client t := by
  obtain ⟨other, inside, theirs, appends, a, attempt, early⟩ := h
  rcases List.mem_or_eq_of_mem_set inside with before | rfl
  · exact ⟨other, before, theirs, appends, a, attempt, early⟩
  · rw [sameRequest] at appends
    exact ⟨op, member, sameClient.symm.trans theirs, appends, a, attempts a attempt early, early⟩

theorem Answered.mono {history history' : List Operation} {op : Operation} {v : String}
    (back : Enrolled history' op.clientId op.call → Enrolled history op.clientId op.call)
    (h : Answered history op v) : Answered history' op v := by
  unfold Answered at h ⊢
  split
  · simpa only [*] using h
  · rename_i request
    simp only [request] at h
    exact fun enrolled => h (back enrolled)
  · simpa only [*] using h

theorem Progress.other {kv kv' : KVServer} {seqNum : ℤ} {call : Call} {op : Operation}
    (same : kv'.clientTable id = kv.clientTable id) (h : Progress kv id seqNum call op) :
    Progress kv' id seqNum call op where
  unlisted := same ▸ h.unlisted
  pending := same ▸ h.pending
  settled := same ▸ h.settled

theorem Progress.untried {kv : KVServer} {seqNum : ℤ} {call : Call} {op : Operation}
    (h : Progress kv id seqNum call op)
    (new : ∀ dt, kv.clientTable id = some dt → dt.seq ≠ seqNum)
    (known : kv.clientTable id = none → ∃ key value, op.request = .append key value) :
    op.attempts = [] := by
  cases table : kv.clientTable id with
  | none =>
    obtain ⟨key, value, appends⟩ := known table
    exact ((h.unlisted table).1 key value appends).1
  | some dt => exact (h.pending dt table (new dt table)).1

theorem Recorded.retry {dt : DupTable} {op : Operation} {a : Attempt} (idle : a.assigned = false)
    (h : Recorded dt op) : Recorded dt { op with attempts := op.attempts ++ [a] } := by
  have same : (op.attempts ++ [a]).filter (·.assigned) = op.attempts.filter (·.assigned) := by
    simp [idle]
  unfold Recorded Once at h ⊢
  simp only [same]
  split
  · rename_i request
    simp only [request] at h
    obtain ⟨b, member, held⟩ := h
    exact ⟨b, List.mem_append_left _ member, held⟩
  · rename_i request
    simpa only [request] using h
  · rename_i request
    simpa only [request] using h

theorem Recorded.first {kv : KVServer} {seqNum : ℤ} {op : Operation} {a : Attempt}
    (untried : op.attempts = []) (held : a.held = kv.data op.request.key)
    (assigned : a.assigned = op.request.writes) :
    Recorded ⟨seqNum, op.request.answer kv.data⟩ { op with attempts := op.attempts ++ [a] } := by
  unfold Recorded Once
  simp only [untried, List.nil_append]
  cases request : op.request with
  | get key => simp [held, request, Request.answer, Request.key]
  | put key value => simp [assigned, request, Request.writes]
  | append key value =>
    simp [held, assigned, request, Request.writes, Request.answer, Request.key]

theorem Progress.execute {kv : KVServer} {seqNum : ℤ} {call : Call} {op : Operation}
    {handled : Handled} {request : Request} {time : ℕ} (h : Progress kv id seqNum call op)
    (same : op.request = request) (outcome : Outcome kv id seqNum request handled) :
    Progress handled.server id seqNum { call with reply := some handled.value }
      { op with attempts := op.attempts ++ [handled.attempt kv request time] } := by
  subst same
  cases outcome with
  | unrecorded absent other =>
    refine { unlisted := fun _ => ⟨?_, ?_⟩, pending := ?_, settled := ?_ }
    · intro key value appends
      exact absurd appends (other key value)
    · intro key v request replied
      refine ⟨_, List.mem_append_right _ (List.mem_singleton_self _), ?_⟩
      have same : op.request.answer kv.data = v := by simpa using replied
      simp only at request
      simpa [request, Request.answer, Request.key, Handled.attempt] using same
    · intro dt found
      exact absurd (found.symm.trans absent) (Option.some_ne_none dt)
    · intro dt found
      exact absurd (found.symm.trans absent) (Option.some_ne_none dt)
  | repeated dt present same =>
    refine { unlisted := ?_, pending := ?_, settled := ?_ }
    · intro absent
      exact absurd (present.symm.trans absent) (Option.some_ne_none dt)
    · intro other found apart
      obtain rfl : dt = other := Option.some.inj (present.symm.trans found)
      exact absurd same apart
    · intro other found _
      obtain rfl : dt = other := Option.some.inj (present.symm.trans found)
      exact ⟨(h.settled dt present same).1.retry rfl, fun v replied => by simpa using replied.symm⟩
  | recorded new known =>
    have untried := h.untried new known
    refine { unlisted := ?_, pending := ?_, settled := ?_ }
    · intro absent
      simp at absent
    · intro dt found apart
      obtain rfl : _ = dt := by simpa using found
      exact absurd rfl apart
    · intro dt found _
      obtain rfl : _ = dt := by simpa using found
      refine ⟨Recorded.first untried rfl rfl, fun v replied => ?_⟩
      obtain rfl : op.request.answer kv.data = v := by simpa using replied
      cases op.request <;> rfl

theorem tracked_init : Tracked init where
  timed _ member := absurd member List.not_mem_nil
  calling _ _ found := absurd found (by simp [init])
  numbered _ := ⟨le_rfl, fun _ found => absurd found (by simp [init, startKVServer])⟩
  listed _ member := absurd member List.not_mem_nil
  answered _ member := absurd member List.not_mem_nil

theorem Tracked.ticket_ne (h : Tracked sys) {other : ℤ} {call call' : Call} {op : Operation}
    (ticket : sys.history[call.ticket]? = some op) (mine : op.clientId = id)
    (found : call' ∈ (sys.clerks other).calling) (apart : other ≠ id) :
    call.ticket ≠ call'.ticket := by
  intro same
  obtain ⟨op', ticket', theirs, -⟩ := h.calling other call' found
  rw [same, ticket'] at ticket
  obtain rfl := Option.some.inj ticket
  exact apart (theirs.symm.trans mine)

theorem Tracked.invoke (h : Tracked sys) (request : Request) :
    Tracked { sys with
      clerks := Function.update sys.clerks id
        ⟨(sys.clerks id).seqNum + 1, some ⟨sys.history.length, request, none⟩⟩
      clock := sys.clock + 1
      history := sys.history ++ [⟨id, request, sys.clock, [], none⟩] } := by
  have split {op : Operation}
      (member : op ∈ sys.history ++ [⟨id, request, sys.clock, [], none⟩]) :
      op ∈ sys.history ∨ op = ⟨id, request, sys.clock, [], none⟩ := by
    simpa using member
  refine
    { timed := fun op member => ?_
      calling := fun other call found => ?_
      numbered := fun other => ?_
      listed := fun op member appends tried => ?_
      answered := fun op member r returned => ?_ }
  · rcases split member with old | rfl
    · exact (h.timed op old).mono
    · exact ⟨Nat.lt_succ_self _, by simp, by simp, by simp⟩
  · rcases eq_or_ne other id with rfl | apart
    · obtain rfl : _ = call := by simpa using found
      refine ⟨⟨other, request, sys.clock, [], none⟩, by simp, rfl, rfl, rfl, ?_⟩
      simp only [Function.update_self]
      refine { unlisted := by simp, pending := fun _ _ _ => ⟨rfl, rfl⟩, settled := ?_ }
      intro dt present same
      have := (h.numbered other).2 dt present
      omega
    · simp only [Function.update_of_ne apart] at found ⊢
      obtain ⟨op, ticket, rest⟩ := h.calling other call found
      refine ⟨op, ?_, rest⟩
      rwa [List.getElem?_append_left (List.getElem?_eq_some_iff.mp ticket).1]
  · obtain ⟨nonneg, bound⟩ := h.numbered other
    rcases eq_or_ne other id with rfl | apart
    · simp only [Function.update_self]
      refine ⟨by omega, fun dt present => ?_⟩
      have := bound dt present
      omega
    · simpa only [Function.update_of_ne apart] using ⟨nonneg, bound⟩
  · rcases split member with old | rfl
    · exact h.listed op old appends tried
    · exact absurd rfl tried
  · rcases split member with old | rfl
    · refine (h.answered op old r returned).mono ?_
      rintro ⟨other, inside, client, appends, a, attempt, early⟩
      rcases split inside with before | rfl
      · exact ⟨other, before, client, appends, a, attempt, early⟩
      · exact absurd attempt List.not_mem_nil
    · exact absurd returned (by simp)

theorem Tracked.execute (h : Tracked sys) {call : Call} {op : Operation} {handled : Handled}
    (found : (sys.clerks id).calling = some call)
    (ticket : sys.history[call.ticket]? = some op)
    (outcome : Outcome sys.server id (sys.clerks id).seqNum call.request handled) :
    Tracked
      { server := handled.server
        clerks := Function.update sys.clerks id
          ⟨(sys.clerks id).seqNum, some { call with reply := some handled.value }⟩
        clock := sys.clock + 1
        history := sys.history.set call.ticket { op with
          attempts := op.attempts ++
            [handled.attempt sys.server call.request sys.clock] } } := by
  obtain ⟨op', ticket', client, request, unanswered, progress⟩ := h.calling id call found
  obtain rfl : op = op' := Option.some.inj (ticket.symm.trans ticket')
  have here := List.mem_of_getElem? ticket
  have split {next : Operation} {f : Operation} (member : next ∈ sys.history.set call.ticket f) :
      next ∈ sys.history ∨ next = f := List.mem_or_eq_of_mem_set member
  refine
    { timed := fun next member => ?_
      calling := fun other call' found' => ?_
      numbered := fun other => ?_
      listed := fun next member appends tried => ?_
      answered := fun next member r returned => ?_ }
  · rcases split member with old | rfl
    · exact (h.timed next old).mono
    · refine (h.timed op here).attempt unanswered rfl ?_
      simpa only [Handled.attempt, request] using outcome.left
  · rcases eq_or_ne other id with rfl | apart
    · obtain rfl : _ = call' := by simpa using found'
      have bound := (List.getElem?_eq_some_iff.mp ticket).1
      refine ⟨_, List.getElem?_set_self bound, client, request, unanswered, ?_⟩
      simpa only [Function.update_self] using progress.execute request outcome
    · simp only [Function.update_of_ne apart] at found' ⊢
      obtain ⟨next, held, theirs, same, open', progress'⟩ := h.calling other call' found'
      refine ⟨next, ?_, theirs, same, open', progress'.other (outcome.table_ne apart)⟩
      rwa [List.getElem?_set_ne (h.ticket_ne ticket client found' apart)]
  · obtain ⟨nonneg, bound⟩ := h.numbered other
    rcases eq_or_ne other id with rfl | apart
    · simpa only [Function.update_self] using ⟨nonneg, outcome.seq_le bound⟩
    · simpa only [Function.update_of_ne apart, outcome.table_ne apart] using ⟨nonneg, bound⟩
  · rcases split member with old | rfl
    · exact outcome.table_kept (h.listed next old appends tried)
    · simp only [client]
      rw [← request] at outcome
      exact outcome.listed appends
  · rcases split member with old | rfl
    · refine (h.answered next old r returned).mono
        (Enrolled.of_set here rfl rfl fun a attempt early => ?_)
      -- the new attempt is later than any call that has returned
      rcases List.mem_append.mp attempt with previous | last
      · exact previous
      · rw [List.mem_singleton.mp last] at early
        have := (h.timed next old).called
        simp only [Handled.attempt] at early
        omega
    · exact absurd returned (by simp [unanswered])

theorem Tracked.loseReply (h : Tracked sys) {call : Call}
    (found : (sys.clerks id).calling = some call) :
    Tracked { sys with
      clerks := Function.update sys.clerks id
        ⟨(sys.clerks id).seqNum, some { call with reply := none }⟩
      clock := sys.clock + 1 } := by
  refine { h with
    timed := fun op member => (h.timed op member).mono
    calling := fun other call' found' => ?_
    numbered := fun other => ?_ }
  · rcases eq_or_ne other id with rfl | apart
    · obtain rfl : _ = call' := by simpa using found'
      obtain ⟨op, ticket, client, request, unanswered, progress⟩ := h.calling other call found
      refine ⟨op, ticket, client, request, unanswered, ?_⟩
      simp only [Function.update_self]
      exact
        { unlisted := fun absent =>
            ⟨fun key value appends => ⟨((progress.unlisted absent).1 key value appends).1, rfl⟩,
              by simp⟩
          pending := fun dt present apart => ⟨(progress.pending dt present apart).1, rfl⟩
          settled := fun dt present same => ⟨(progress.settled dt present same).1, by simp⟩ }
    · simp only [Function.update_of_ne apart] at found' ⊢
      exact h.calling other call' found'
  · rcases eq_or_ne other id with rfl | apart
    · simpa only [Function.update_self] using h.numbered other
    · simpa only [Function.update_of_ne apart] using h.numbered other

theorem Tracked.returns (h : Tracked sys) {call : Call} {op : Operation} {value : String}
    (found : (sys.clerks id).calling = some call) (replied : call.reply = some value)
    (ticket : sys.history[call.ticket]? = some op) : Answered sys.history op value := by
  obtain ⟨op', ticket', client, request, -, progress⟩ := h.calling id call found
  obtain rfl : op = op' := Option.some.inj (ticket.symm.trans ticket')
  have answered (absent : call.reply = none) : False :=
    Option.some_ne_none value (replied.symm.trans absent)
  unfold Answered
  cases table : sys.server.clientTable id with
  | none =>
    obtain ⟨unappended, read⟩ := progress.unlisted table
    split
    · rename_i key same
      exact read key value same replied
    · intro enrolled
      obtain ⟨other, inside, theirs, appends, a, attempt, -⟩ := enrolled
      have present := h.listed other inside appends (List.ne_nil_of_mem attempt)
      rw [theirs, client] at present
      exact absurd table present
    · rename_i key v same
      exact (answered (unappended key v same).2).elim
  | some dt =>
    by_cases same : dt.seq = (sys.clerks id).seqNum
    · obtain ⟨recorded, remembered⟩ := progress.settled dt table same
      have told := remembered value replied
      unfold Recorded at recorded
      split
      · rename_i key get
        simp only [get] at recorded told
        obtain ⟨a, attempt, held⟩ := recorded
        exact ⟨a, attempt, held.trans told.symm⟩
      · rename_i key v put
        simp only [put] at recorded
        exact fun _ => recorded
      · rename_i key v append
        simp only [append] at recorded told
        obtain ⟨a, once, held⟩ := recorded
        exact ⟨a, once, held.trans told.symm⟩
    · exact (answered (progress.pending dt table same).2).elim

theorem Tracked.deliver (h : Tracked sys) {call : Call} {op : Operation} {value : String}
    (found : (sys.clerks id).calling = some call) (replied : call.reply = some value)
    (ticket : sys.history[call.ticket]? = some op) :
    Tracked { sys with
      clerks := Function.update sys.clerks id ⟨(sys.clerks id).seqNum, none⟩
      clock := sys.clock + 1
      history := sys.history.set call.ticket { op with response := some (value, sys.clock) } } := by
  have returns := h.returns found replied ticket
  obtain ⟨op', ticket', client, request, -, -⟩ := h.calling id call found
  obtain rfl : op = op' := Option.some.inj (ticket.symm.trans ticket')
  have here := List.mem_of_getElem? ticket
  have split {next : Operation} {f : Operation} (member : next ∈ sys.history.set call.ticket f) :
      next ∈ sys.history ∨ next = f := List.mem_or_eq_of_mem_set member
  have enrolled {client : ℤ} {t : ℕ} : Enrolled (sys.history.set call.ticket
      { op with response := some (value, sys.clock) }) client t → Enrolled sys.history client t :=
    Enrolled.of_set here rfl rfl fun _ attempt _ => attempt
  refine
    { timed := fun next member => ?_
      calling := fun other call' found' => ?_
      numbered := fun other => ?_
      listed := fun next member appends tried => ?_
      answered := fun next member r returned => ?_ }
  · rcases split member with old | rfl
    · exact (h.timed next old).mono
    · have timed := h.timed op here
      refine { timed.mono with returned := fun r same => ?_ }
      obtain rfl : _ = r := by simpa using same
      exact ⟨Nat.lt_succ_self _, fun a attempt => (timed.attempted a attempt).2⟩
  · rcases eq_or_ne other id with rfl | apart
    · simp at found'
    · simp only [Function.update_of_ne apart] at found' ⊢
      obtain ⟨next, held, rest⟩ := h.calling other call' found'
      refine ⟨next, ?_, rest⟩
      rwa [List.getElem?_set_ne (h.ticket_ne ticket client found' apart)]
  · rcases eq_or_ne other id with rfl | apart
    · simpa only [Function.update_self] using h.numbered other
    · simpa only [Function.update_of_ne apart] using h.numbered other
  · rcases split member with old | rfl
    · exact h.listed next old appends tried
    · exact h.listed op here appends tried
  · rcases split member with old | rfl
    · exact (h.answered next old r returned).mono enrolled
    · obtain rfl : _ = r := by simpa using returned
      exact returns.mono enrolled

theorem Tracked.moved (h : Tracked sys) {a : Action} (move : Moved sys a sys') :
    Tracked sys' := by
  cases move with
  | invoke id request => exact h.invoke request
  | loseRequest => exact { h with timed := fun op member => (h.timed op member).mono }
  | execute id call op found ticket =>
    have nonneg := (h.numbered id).1
    exact h.execute found ticket (handle_outcome _ _ _ _ (by omega))
  | loseReply id call found => exact h.loseReply found
  | deliver id call op value found replied ticket => exact h.deliver found replied ticket

end Keep

theorem reaches_tracked {ok : System → Action → Prop} {sys : System} (run : Reaches ok sys) :
    Tracked sys :=
  run.invariant Tracked (fun h _ taken => h.moved (step_moved taken)) tracked_init

theorem Tracked.placed {sys : System} (h : Tracked sys) {op : Operation}
    (member : op ∈ sys.history) {v : String} {t : ℕ} (returned : op.response = some (v, t))
    {a : Attempt} (attempt : a ∈ op.attempts) : op.call < a.time ∧ a.time < t :=
  ⟨((h.timed op member).attempted a attempt).1,
    ((h.timed op member).returned _ returned).2 a attempt⟩

theorem Once.mem {op : Operation} {a : Attempt} (once : Once op a) :
    a ∈ op.attempts ∧ a.assigned = true := by
  have member : a ∈ op.attempts.filter (·.assigned) := by
    rw [show op.attempts.filter (·.assigned) = [a] from once]
    exact List.mem_singleton_self a
  exact List.mem_filter.mp member

/-- Of the attempts of a returned `Append` exactly one changes the map, between
call and return, and the call returns what the key held just before it. The
same holds for a `Put` called after an `Append` of the same clerk was executed,
answer apart. A `Get` returns what its key held at one of its attempts. -/
theorem exactly_once {sys : System} (run : Reaches free sys) {op : Operation}
    (member : op ∈ sys.history) {v : String} {t : ℕ} (returned : op.response = some (v, t)) :
    (∀ key value, op.request = .append key value →
      ∃ a, op.attempts.filter (·.assigned) = [a] ∧ op.call < a.time ∧ a.time < t ∧
        a.left = a.held ++ value ∧ v = a.held) ∧
    (∀ key value, op.request = .put key value →
      (∃ earlier ∈ sys.history, earlier.clientId = op.clientId ∧
        (∃ k w, earlier.request = .append k w) ∧ ∃ a ∈ earlier.attempts, a.time < op.call) →
      ∃ a, op.attempts.filter (·.assigned) = [a] ∧ op.call < a.time ∧ a.time < t ∧
        a.left = value) ∧
    (∀ key, op.request = .get key →
      ∃ a ∈ op.attempts, op.call < a.time ∧ a.time < t ∧ v = a.held) ∧
    (∀ a ∈ op.attempts, a.assigned = false → a.left = a.held) := by
  have tracked := reaches_tracked run
  have answered := tracked.answered op member _ returned
  have faithful := (tracked.timed op member).faithful
  refine ⟨fun key value request => ?_, fun key value request enrolled => ?_,
    fun key request => ?_, fun a attempt idle => ?_⟩
  · simp only [Answered, request] at answered
    obtain ⟨a, once, held⟩ := answered
    obtain ⟨attempt, assigned⟩ := once.mem
    obtain ⟨after, before⟩ := tracked.placed member returned attempt
    refine ⟨a, once, after, before, ?_, held.symm⟩
    simpa [assigned, request, Request.result] using faithful a attempt
  · simp only [Answered, request] at answered
    obtain ⟨a, once⟩ := answered enrolled
    obtain ⟨attempt, assigned⟩ := once.mem
    obtain ⟨after, before⟩ := tracked.placed member returned attempt
    refine ⟨a, once, after, before, ?_⟩
    simpa [assigned, request, Request.result] using faithful a attempt
  · simp only [Answered, request] at answered
    obtain ⟨a, attempt, held⟩ := answered
    obtain ⟨after, before⟩ := tracked.placed member returned attempt
    exact ⟨a, attempt, after, before, held.symm⟩
  · simpa [idle] using faithful a attempt

/-- An `Append` whose first reply is lost is answered from the table. -/
theorem exactly_once_retried : ∃ sys : System, Reaches free sys ∧
    ∃ op ∈ sys.history, op.attempts.length = 2 ∧
      ∃ a, op.attempts.filter (·.assigned) = [a] ∧ a.left = "ab" ∧ a.held = "a" := by
  obtain ⟨sys, run, found⟩ := exec_test step free init
    [.invoke 1 (.put "x" "a"), .execute 1, .deliver 1, .invoke 2 (.append "x" "b"), .execute 2,
      .loseReply 2, .execute 2, .deliver 2]
    (fun sys => ∃ op ∈ sys.history[1]?, op.request = .append "x" "b" ∧
      op.response = some ("a", 7) ∧ op.attempts.length = 2) (by decide)
  obtain ⟨op, at_one, request, returned, twice⟩ := of_decide_eq_true found
  have member := List.mem_of_getElem? at_one
  obtain ⟨a, once, -, -, left, held⟩ := (exactly_once run member returned).1 "x" "b" request
  refine ⟨sys, run, op, member, twice, a, once, ?_, held.symm⟩
  rw [left, ← held]
  rfl

end DistributedLabs.KvExactlyOnce
