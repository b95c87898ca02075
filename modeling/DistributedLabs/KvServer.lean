import DistributedLabs.GuardedRuns

/-! The key/value server and its clerks (kvsrv/server.go, kvsrv/client.go). The
maps are total functions: a missing key reads as the empty string, a missing
client as no table entry. Sequence numbers do not wrap around. Clerks are named
by their client id. One attempt of a call is lost before the handler runs, or
runs the handler once and loses or delivers the reply; a clerk tries again
until a reply is delivered. The clock counts steps; the history records each
call with its attempts and is read by no action. -/

namespace DistributedLabs.KvServer
open GuardedRuns

structure DupTable where
  seq : ℤ
  value : String
  deriving DecidableEq

structure KVServer where
  data : String → String
  clientTable : ℤ → Option DupTable

structure GetArgs where
  key : String
  clientID : ℤ
  seqNum : ℤ

structure PutAppendArgs where
  key : String
  value : String
  clientID : ℤ
  seqNum : ℤ

def startKVServer : KVServer where
  data := fun _ => ""
  clientTable := fun _ => none

def KVServer.assign (kv : KVServer) (key value : String) : KVServer :=
  { kv with data := Function.update kv.data key value }

def KVServer.setEntry (kv : KVServer) (id : ℤ) (dt : DupTable) : KVServer :=
  { kv with clientTable := Function.update kv.clientTable id (some dt) }

/-- What a handler leaves behind: the server, the reply's value and whether it
assigned to `data`. -/
structure Handled where
  server : KVServer
  value : String
  assigned : Bool

def get (kv : KVServer) (args : GetArgs) : Handled :=
  match kv.clientTable args.clientID with
  | none => ⟨kv, kv.data args.key, false⟩
  | some dt =>
    if dt.seq = args.seqNum then ⟨kv, dt.value, false⟩
    else
      let dt := ⟨args.seqNum, kv.data args.key⟩
      ⟨kv.setEntry args.clientID dt, dt.value, false⟩

/-- A client without a table entry gets none. -/
def put (kv : KVServer) (args : PutAppendArgs) : Handled :=
  match kv.clientTable args.clientID with
  | none => ⟨kv.assign args.key args.value, "", true⟩
  | some dt =>
    if dt.seq = args.seqNum then ⟨kv, "", false⟩
    else ⟨(kv.setEntry args.clientID ⟨args.seqNum, ""⟩).assign args.key args.value, "", true⟩

def append (kv : KVServer) (args : PutAppendArgs) : Handled :=
  let kv := if kv.clientTable args.clientID = none then kv.setEntry args.clientID ⟨-1, ""⟩ else kv
  match kv.clientTable args.clientID with
  | none => ⟨kv, "", false⟩  -- not reached, the entry was just made
  | some dt =>
    if dt.seq = args.seqNum then ⟨kv, dt.value, false⟩
    else
      let dt := ⟨args.seqNum, kv.data args.key⟩
      ⟨(kv.setEntry args.clientID dt).assign args.key (kv.data args.key ++ args.value),
        dt.value, true⟩

inductive Request
  | get (key : String)
  | put (key value : String)
  | append (key value : String)
  deriving DecidableEq

def Request.key : Request → String
  | .get key => key
  | .put key _ => key
  | .append key _ => key

def handle (kv : KVServer) (id seqNum : ℤ) : Request → Handled
  | .get key => get kv ⟨key, id, seqNum⟩
  | .put key value => put kv ⟨key, value, id, seqNum⟩
  | .append key value => append kv ⟨key, value, id, seqNum⟩

/-- A call in progress; `reply` is there once an attempt has run its handler. -/
structure Call where
  ticket : ℕ
  request : Request
  reply : Option String

structure Clerk where
  seqNum : ℤ
  calling : Option Call

/-- One run of a handler: what the key held just before and just after, and
whether the handler assigned to it. -/
structure Attempt where
  time : ℕ
  held : String
  left : String
  assigned : Bool
  deriving DecidableEq

def Handled.attempt (handled : Handled) (kv : KVServer) (request : Request) (time : ℕ) : Attempt :=
  ⟨time, kv.data request.key, handled.server.data request.key, handled.assigned⟩

structure Operation where
  clientId : ℤ
  request : Request
  call : ℕ
  attempts : List Attempt
  response : Option (String × ℕ)
  deriving DecidableEq

structure System where
  server : KVServer
  clerks : ℤ → Clerk
  clock : ℕ
  history : List Operation

inductive Action
  | invoke (id : ℤ) (request : Request)
  | loseRequest (id : ℤ)
  | execute (id : ℤ)
  | loseReply (id : ℤ)
  | deliver (id : ℤ)

def init : System where
  server := startKVServer
  clerks := fun _ => ⟨0, none⟩
  clock := 0
  history := []

/-- `ck.seqNum++`, and the first attempt is on its way. -/
def invoke (sys : System) (id : ℤ) (request : Request) : Option System :=
  let ck := sys.clerks id
  if ck.calling = none then
    some { sys with
      clerks := Function.update sys.clerks id
        ⟨ck.seqNum + 1, some ⟨sys.history.length, request, none⟩⟩
      clock := sys.clock + 1
      history := sys.history ++ [⟨id, request, sys.clock, [], none⟩] }
  else none

/-- `Call` returns false before the handler ran, and the loop sends the call again. -/
def loseRequest (sys : System) (id : ℤ) : Option System := do
  let call ← (sys.clerks id).calling
  if call.reply = none then some { sys with clock := sys.clock + 1 } else none

def execute (sys : System) (id : ℤ) : Option System := do
  let ck := sys.clerks id
  let call ← ck.calling
  let op ← sys.history[call.ticket]?
  if call.reply = none then
    let handled := handle sys.server id ck.seqNum call.request
    let attempt := handled.attempt sys.server call.request sys.clock
    some
      { server := handled.server
        clerks := Function.update sys.clerks id
          ⟨ck.seqNum, some { call with reply := some handled.value }⟩
        clock := sys.clock + 1
        history := sys.history.set call.ticket { op with attempts := op.attempts ++ [attempt] } }
  else none

def loseReply (sys : System) (id : ℤ) : Option System := do
  let ck := sys.clerks id
  let call ← ck.calling
  if call.reply = none then none
  else some { sys with
    clerks := Function.update sys.clerks id ⟨ck.seqNum, some { call with reply := none }⟩
    clock := sys.clock + 1 }

def deliver (sys : System) (id : ℤ) : Option System := do
  let ck := sys.clerks id
  let call ← ck.calling
  let value ← call.reply
  let op ← sys.history[call.ticket]?
  some { sys with
    clerks := Function.update sys.clerks id ⟨ck.seqNum, none⟩
    clock := sys.clock + 1
    history := sys.history.set call.ticket { op with response := some (value, sys.clock) } }

def step (sys : System) : Action → Option System
  | .invoke id request => invoke sys id request
  | .loseRequest id => loseRequest sys id
  | .execute id => execute sys id
  | .loseReply id => loseReply sys id
  | .deliver id => deliver sys id

def Reaches (ok : System → Action → Prop) (sys : System) : Prop := Run step ok init sys

section Handlers

def Request.writes : Request → Bool
  | .get _ => false
  | .put _ _ => true
  | .append _ _ => true

def Request.effect (data : String → String) : Request → String → String
  | .get _ => data
  | .put key value => Function.update data key value
  | .append key value => Function.update data key (data key ++ value)

/-- What its key then holds, after it held `held`. -/
def Request.result (held : String) : Request → String
  | .get _ => held
  | .put _ value => value
  | .append _ value => held ++ value

def Request.answer (data : String → String) : Request → String
  | .get key => data key
  | .put _ _ => ""
  | .append key _ => data key

def Request.remembered (dt : DupTable) : Request → String
  | .get _ => dt.value
  | .put _ _ => ""
  | .append _ _ => dt.value

/-- The three things a handler can do: take effect without a table entry, as
`Get` and `Put` do for a client that has none; repeat a recorded answer; take
effect and record it. -/
inductive Outcome (kv : KVServer) (id seqNum : ℤ) (request : Request) : Handled → Prop
  | unrecorded (absent : kv.clientTable id = none)
      (other : ∀ key value, request ≠ .append key value) :
      Outcome kv id seqNum request
        ⟨{ kv with data := request.effect kv.data }, request.answer kv.data, request.writes⟩
  | repeated (dt : DupTable) (present : kv.clientTable id = some dt) (same : dt.seq = seqNum) :
      Outcome kv id seqNum request ⟨kv, request.remembered dt, false⟩
  | recorded (new : ∀ dt, kv.clientTable id = some dt → dt.seq ≠ seqNum)
      (known : kv.clientTable id = none → ∃ key value, request = .append key value) :
      Outcome kv id seqNum request
        ⟨⟨request.effect kv.data, Function.update kv.clientTable id
            (some ⟨seqNum, request.answer kv.data⟩)⟩,
          request.answer kv.data, request.writes⟩

theorem handle_outcome (kv : KVServer) (id seqNum : ℤ) (request : Request)
    (positive : seqNum ≠ -1) : Outcome kv id seqNum request (handle kv id seqNum request) := by
  cases table : kv.clientTable id with
  | none =>
    cases request with
    | get key =>
      simp only [handle, get, table]
      exact .unrecorded table (by simp)
    | put key value =>
      simp only [handle, put, table]
      exact .unrecorded table (by simp)
    | append key value =>
      have made : (kv.setEntry id ⟨-1, ""⟩).clientTable id = some ⟨-1, ""⟩ := by
        simp [KVServer.setEntry]
      simp only [handle, append, table, if_true, made, if_neg positive.symm]
      have outcome : Outcome kv id seqNum (.append key value) _ :=
        .recorded (by simp [table]) (fun _ => ⟨key, value, rfl⟩)
      simpa [KVServer.setEntry, KVServer.assign, Request.effect, Request.answer,
        Request.writes] using outcome
  | some dt =>
    by_cases same : dt.seq = seqNum
    · cases request with
      | get key =>
        simp only [handle, get, table, if_pos same]
        exact .repeated dt table same
      | put key value =>
        simp only [handle, put, table, if_pos same]
        exact .repeated dt table same
      | append key value =>
        simp only [handle, append, table, reduceCtorEq, if_false, if_pos same]
        exact .repeated dt table same
    · have new : ∀ other, kv.clientTable id = some other → other.seq ≠ seqNum := by
        intro other found
        rw [table] at found
        rwa [← Option.some.inj found]
      have known : kv.clientTable id = none → ∃ key value, request = .append key value := by
        simp [table]
      have outcome := Outcome.recorded new known
      cases request with
      | get key =>
        simp only [handle, get, table, if_neg same]
        exact outcome
      | put key value =>
        simp only [handle, put, table, if_neg same]
        exact outcome
      | append key value =>
        simp only [handle, append, table, reduceCtorEq, if_false, if_neg same]
        exact outcome

variable {kv : KVServer} {id seqNum : ℤ} {request : Request} {handled : Handled}

theorem Request.effect_key (data : String → String) (request : Request) :
    request.effect data request.key = request.result (data request.key) := by
  cases request <;> simp [Request.effect, Request.key, Request.result]

theorem Request.remembered_answer {data : String → String} {dt : DupTable} (request : Request)
    (value : dt.value = request.answer data) : request.remembered dt = request.answer data := by
  cases request with
  | get key => exact value
  | put key v => rfl
  | append key v => exact value

theorem Outcome.left (h : Outcome kv id seqNum request handled) :
    handled.server.data request.key =
      if handled.assigned then request.result (kv.data request.key) else kv.data request.key := by
  cases h with
  | unrecorded | recorded =>
    simp only [Request.effect_key]
    cases request <;> simp [Request.writes, Request.result]
  | repeated => simp

theorem Outcome.table_ne (h : Outcome kv id seqNum request handled) {other : ℤ}
    (apart : other ≠ id) : handled.server.clientTable other = kv.clientTable other := by
  cases h with
  | unrecorded => rfl
  | repeated => rfl
  | recorded => exact Function.update_of_ne apart _ _

theorem Outcome.table_kept (h : Outcome kv id seqNum request handled) {other : ℤ}
    (present : kv.clientTable other ≠ none) : handled.server.clientTable other ≠ none := by
  rcases eq_or_ne other id with rfl | apart
  · cases h with
    | unrecorded absent => exact absurd absent present
    | repeated => exact present
    | recorded => simp
  · rwa [h.table_ne apart]

theorem Outcome.listed (h : Outcome kv id seqNum request handled)
    (appends : ∃ key value, request = .append key value) :
    handled.server.clientTable id ≠ none := by
  obtain ⟨key, value, rfl⟩ := appends
  cases h with
  | unrecorded absent other => exact absurd rfl (other key value)
  | repeated dt present => simp [present]
  | recorded => simp

theorem Outcome.seq_le (h : Outcome kv id seqNum request handled)
    (bound : ∀ dt, kv.clientTable id = some dt → dt.seq ≤ seqNum) (dt : DupTable)
    (found : handled.server.clientTable id = some dt) : dt.seq ≤ seqNum := by
  cases h with
  | unrecorded => exact bound dt found
  | repeated => exact bound dt found
  | recorded =>
    obtain rfl : _ = dt := by simpa using found
    exact le_rfl

end Handlers

inductive Moved (sys : System) : Action → System → Prop
  | invoke (id : ℤ) (request : Request) (idle : (sys.clerks id).calling = none) :
      Moved sys (.invoke id request)
        { sys with
          clerks := Function.update sys.clerks id
            ⟨(sys.clerks id).seqNum + 1, some ⟨sys.history.length, request, none⟩⟩
          clock := sys.clock + 1
          history := sys.history ++ [⟨id, request, sys.clock, [], none⟩] }
  | loseRequest (id : ℤ) : Moved sys (.loseRequest id) { sys with clock := sys.clock + 1 }
  | execute (id : ℤ) (call : Call) (op : Operation)
      (found : (sys.clerks id).calling = some call)
      (ticket : sys.history[call.ticket]? = some op) :
      Moved sys (.execute id)
        { server := (handle sys.server id (sys.clerks id).seqNum call.request).server
          clerks := Function.update sys.clerks id
            ⟨(sys.clerks id).seqNum, some { call with
              reply := some (handle sys.server id (sys.clerks id).seqNum call.request).value }⟩
          clock := sys.clock + 1
          history := sys.history.set call.ticket { op with
            attempts := op.attempts ++ [(handle sys.server id (sys.clerks id).seqNum
              call.request).attempt sys.server call.request sys.clock] } }
  | loseReply (id : ℤ) (call : Call) (found : (sys.clerks id).calling = some call) :
      Moved sys (.loseReply id)
        { sys with
          clerks := Function.update sys.clerks id
            ⟨(sys.clerks id).seqNum, some { call with reply := none }⟩
          clock := sys.clock + 1 }
  | deliver (id : ℤ) (call : Call) (op : Operation) (value : String)
      (found : (sys.clerks id).calling = some call) (replied : call.reply = some value)
      (ticket : sys.history[call.ticket]? = some op) :
      Moved sys (.deliver id)
        { sys with
          clerks := Function.update sys.clerks id ⟨(sys.clerks id).seqNum, none⟩
          clock := sys.clock + 1
          history := sys.history.set call.ticket
            { op with response := some (value, sys.clock) } }

theorem step_moved {sys sys' : System} {a : Action} (h : step sys a = some sys') :
    Moved sys a sys' := by
  cases a with
  | invoke id request =>
    simp only [step, invoke] at h
    split at h
    · rename_i idle
      obtain rfl := Option.some.inj h
      exact .invoke id request idle
    · exact absurd h.symm (Option.some_ne_none _)
  | loseRequest id =>
    obtain ⟨call, -, taken⟩ := Option.bind_eq_some_iff.mp h
    split at taken
    · obtain rfl := Option.some.inj taken
      exact .loseRequest id
    · exact absurd taken.symm (Option.some_ne_none _)
  | execute id =>
    obtain ⟨call, found, rest⟩ := Option.bind_eq_some_iff.mp h
    obtain ⟨op, ticket, taken⟩ := Option.bind_eq_some_iff.mp rest
    split at taken
    · obtain rfl := Option.some.inj taken
      exact .execute id call op found ticket
    · exact absurd taken.symm (Option.some_ne_none _)
  | loseReply id =>
    obtain ⟨call, found, taken⟩ := Option.bind_eq_some_iff.mp h
    split at taken
    · exact absurd taken.symm (Option.some_ne_none _)
    · obtain rfl := Option.some.inj taken
      exact .loseReply id call found
  | deliver id =>
    obtain ⟨call, found, rest⟩ := Option.bind_eq_some_iff.mp h
    obtain ⟨value, replied, more⟩ := Option.bind_eq_some_iff.mp rest
    obtain ⟨op, ticket, taken⟩ := Option.bind_eq_some_iff.mp more
    obtain rfl := Option.some.inj taken
    exact .deliver id call op value found replied ticket

end DistributedLabs.KvServer
