import DistributedLabs.LabRpc

/-! What holds of every call in every run of the network: its handler is called at most
once, and when `Call` returns true it has returned, was called with the arguments of the
call, and gave the reply. -/

namespace DistributedLabs.RpcCalls
open GuardedRuns LabRpc

variable {E V X L A R : Type}

inductive Advanced (rn : Network E V X L A R) (k : ℕ) :
    Move → Call E V X L A R → Network E V X L A R → Call E V X L A R → Prop
  | accept {req process handler} (accepting : rn.accepting = true) :
    Advanced rn k .accept ⟨req, .sending, process, handler⟩ { rn with count := rn.count + 1 }
      ⟨req, .waiting, .entered, handler⟩
  | giveUp {req process handler} (closed : rn.closed = true) :
    Advanced rn k .giveUp ⟨req, .sending, process, handler⟩ rn
      ⟨req, .returned none, process, handler⟩
  | admitted {req client handler info} (read : readEndnameInfo rn req.endname = some info) :
    Advanced rn k .read ⟨req, client, .entered, handler⟩ rn ⟨req, client, .admitted info, handler⟩
  | refuse {req client handler} (read : readEndnameInfo rn req.endname = none) :
    Advanced rn k .read ⟨req, client, .entered, handler⟩ rn ⟨req, client, .replying none, handler⟩
  | drop {req client handler info} (unreliable : info.reliable = false) :
    Advanced rn k .drop ⟨req, client, .admitted info, handler⟩ rn
      ⟨req, client, .replying none, handler⟩
  | begin {req client handler info} :
    Advanced rn k .begin ⟨req, client, .admitted info, handler⟩ rn
      ⟨req, client, .waiting info, .started info.server⟩
  | dispatch {req client process server rs rcvr method} (found : rn.heap[server]? = some rs)
      (known : rs.lookup req.svcMeth = some (rcvr, method)) :
    Advanced rn k .dispatch ⟨req, client, process, .started server⟩
      { rn with heap := rn.heap.set server { rs with count := rs.count + 1 } }
      ⟨req, client, process, .dispatched server rcvr method⟩
  | invoke {req client process server rcvr method} :
    Advanced rn k .invoke ⟨req, client, process, .dispatched server rcvr method⟩
      { rn with executions := rn.executions ++ [⟨k, server, req.svcMeth, req.args, none⟩] }
      ⟨req, client, process, .running server rcvr method (method.start req.args)⟩
  | goOn {req client process server rcvr method vars x x' vars'}
      (found : rn.objects[rcvr]? = some x)
      (result : method.resume x vars = some (x', .inl vars')) :
    Advanced rn k .run ⟨req, client, process, .running server rcvr method vars⟩
      { rn with objects := rn.objects.set rcvr x' }
      ⟨req, client, process, .running server rcvr method vars'⟩
  | ends {req client process server rcvr method vars x x' reply}
      (found : rn.objects[rcvr]? = some x)
      (result : method.resume x vars = some (x', .inr reply)) :
    Advanced rn k .run ⟨req, client, process, .running server rcvr method vars⟩
      { rn with
        objects := rn.objects.set rcvr x'
        executions := close rn.executions k reply }
      ⟨req, client, process, .ran server reply⟩
  | receive {req client info server reply} :
    Advanced rn k .receive ⟨req, client, .waiting info, .ran server reply⟩ rn
      ⟨req, client, .left info (some reply), .finished server reply⟩
  | poll {req client handler info} (dead : isServerDead rn req.endname info = true) :
    Advanced rn k .poll ⟨req, client, .waiting info, handler⟩ rn
      ⟨req, client, .left info none, handler⟩
  | fail {req client handler info reply dropped} (lost : reply = none ∨ info.reliable = false ∨
      isServerDead rn req.endname info = true) :
    Advanced rn k (.leave dropped) ⟨req, client, .left info reply, handler⟩ rn
      ⟨req, client, .replying none, handler⟩
  | pass {req client handler info reply dropped}
      (alive : isServerDead rn req.endname info = false) :
    Advanced rn k (.leave dropped) ⟨req, client, .left info (some reply), handler⟩ rn
      ⟨req, client, .replying (some reply), handler⟩
  | drain {req client process server reply}
      (outside : ∀ info, process ≠ .waiting info) :
    Advanced rn k .drain ⟨req, client, process, .ran server reply⟩ rn
      ⟨req, client, process, .finished server reply⟩
  | answer {req handler reply} :
    Advanced rn k .answer ⟨req, .waiting, .replying reply, handler⟩ rn
      ⟨req, .returned reply, .done, handler⟩

theorem advance_advanced {rn rn' : Network E V X L A R} {k : ℕ} {c c' : Call E V X L A R} {m : Move}
    (taken : advance rn k c m = some (rn', c')) : Advanced rn k m c rn' c' := by
  obtain ⟨req, client, process, handler⟩ := c
  cases m <;> simp only [advance] at taken
  case accept =>
    split at taken
    · split at taken <;> cases taken
      exact .accept ‹_›
    · cases taken
  case giveUp =>
    split at taken
    · split at taken <;> cases taken
      exact .giveUp ‹_›
    · cases taken
  case read =>
    split at taken
    · split at taken <;> cases taken
      · exact .admitted ‹_›
      · exact .refuse ‹_›
    · cases taken
  case drop =>
    split at taken
    · split at taken <;> cases taken
      rename_i unreliable
      exact .drop (Bool.eq_false_iff.mpr unreliable)
    · cases taken
  case begin =>
    split at taken <;> cases taken
    exact .begin
  case dispatch =>
    split at taken
    · obtain ⟨rs, found, rest⟩ := Option.bind_eq_some_iff.mp taken
      obtain ⟨method, known, same⟩ := Option.bind_eq_some_iff.mp rest
      cases same
      exact .dispatch found known
    · cases taken
  case invoke =>
    split at taken <;> cases taken
    exact .invoke
  case run =>
    split at taken
    · obtain ⟨x, found, rest⟩ := Option.bind_eq_some_iff.mp taken
      obtain ⟨⟨x', next⟩, result, same⟩ := Option.bind_eq_some_iff.mp rest
      cases next with
      | inl vars' =>
        cases same
        exact .goOn found result
      | inr reply =>
        cases same
        exact .ends found result
    · cases taken
  case receive =>
    split at taken <;> cases taken
    exact .receive
  case poll =>
    split at taken
    · split at taken <;> cases taken
      exact .poll ‹_›
    · cases taken
  case leave lost =>
    split at taken
    · rename_i info reply
      split at taken
      · rename_i failed
        cases taken
        rw [Bool.or_eq_true, Option.isNone_iff_eq_none] at failed
        exact .fail (failed.imp_right .inr)
      · rename_i passed
        rw [Bool.or_eq_true, Option.isNone_iff_eq_none, not_or] at passed
        split at taken
        · rename_i dropped
          cases taken
          rw [Bool.and_eq_true, Bool.not_eq_true'] at dropped
          exact .fail (.inr (.inl dropped.1))
        · cases taken
          obtain ⟨reply, rfl⟩ := Option.ne_none_iff_exists'.mp passed.1
          exact .pass (Bool.eq_false_iff.mpr passed.2)
    · cases taken
  case drain =>
    split at taken <;> cases taken
    · exact .drain nofun
    · exact .drain nofun
    · exact .drain nofun
  case answer =>
    split at taken <;> cases taken
    exact .answer

/-- The server of a handler whose method was called, and its reply if it has returned. -/
def outcome : Handler X L A R → Option (ℕ × Option R)
  | .running server _ _ _ => some (server, none)
  | .ran server reply | .finished server reply => some (server, some reply)
  | _ => none

def countedBy : Handler X L A R → Option ℕ
  | .dispatched server _ _ | .running server _ _ _ | .ran server _ | .finished server _ =>
    some server
  | _ => none

def methodOf : Handler X L A R → Option (ℕ × ℕ × Method X L A R)
  | .dispatched server rcvr method | .running server rcvr method _ => some (server, rcvr, method)
  | _ => none

def calledOn (handler : Handler X L A R) : Option ℕ := (outcome handler).map Prod.fst

/-- The local variables that a method may come to have, whatever others do to its receiver. -/
inductive Reached (method : Method X L A R) (args : A) : L → Prop
  | start : Reached method args (method.start args)
  | step {x x' : X} {vars vars' : L} : Reached method args vars →
      method.resume x vars = some (x', .inl vars') → Reached method args vars'

def Returns (method : Method X L A R) (args : A) (reply : R) : Prop :=
  ∃ x x' vars, Reached method args vars ∧ method.resume x vars = some (x', .inr reply)

theorem Reached.atomic {body : X → A → X × R} {args vars : A}
    (reached : Reached (Method.atomic body) args vars) {x x' : X} {next : A ⊕ R}
    (result : (Method.atomic body).resume x vars = some (x', next)) :
    x' = (body x args).1 ∧ next = .inr (body x args).2 := by
  cases reached with
  | start =>
    cases result
    exact ⟨rfl, rfl⟩
  | step _ before => cases before

/-- Where the threads of a call are at the same time. -/
inductive Together : Client R → Process V R → Handler X L A R → Prop
  | sending : Together .sending .absent .absent
  | gaveUp : Together (.returned none) .absent .absent
  | entered : Together .waiting .entered .absent
  | admitted {info : Info V} : Together .waiting (.admitted info) .absent
  | started {info : Info V} : Together .waiting (.waiting info) (.started info.server)
  | dispatched {info : Info V} {rcvr : ℕ} {method : Method X L A R} :
      Together .waiting (.waiting info) (.dispatched info.server rcvr method)
  | running {info : Info V} {rcvr : ℕ} {method : Method X L A R} {vars : L} :
      Together .waiting (.waiting info) (.running info.server rcvr method vars)
  | ran {info : Info V} {reply : R} : Together .waiting (.waiting info) (.ran info.server reply)
  | received {info : Info V} {reply : R} :
      Together .waiting (.left info (some reply)) (.finished info.server reply)
  | left {info : Info V} {handler : Handler X L A R} : Together .waiting (.left info none) handler
  | passed {server : ℕ} {reply : R} :
      Together .waiting (.replying (some reply)) (.finished server reply)
  | failed {handler : Handler X L A R} : Together .waiting (.replying none) handler
  | returned {server : ℕ} {reply : R} :
      Together (.returned (some reply)) .done (.finished server reply)
  | lost {handler : Handler X L A R} : Together (.returned none) .done handler

def expected (c : Call E V X L A R) : List (ℕ × String × A × Option R) :=
  ((outcome c.handler).map fun done => (done.1, c.req.svcMeth, c.req.args, done.2)).toList

def recorded (executions : List (Execution A R)) (k : ℕ) : List (ℕ × String × A × Option R) :=
  (executions.filter fun e => e.call = k).map fun e => (e.server, e.svcMeth, e.args, e.reply)

theorem recorded_close_self (executions : List (Execution A R)) (k : ℕ) (reply : R) :
    recorded (close executions k reply) k =
      (recorded executions k).map fun e => (e.1, e.2.1, e.2.2.1, some reply) := by
  induction executions with
  | nil => rfl
  | cons e rest ih =>
    simp only [recorded, close, List.map_cons, List.filter_cons] at ih ⊢
    by_cases same : e.call = k
    · simpa [same] using ih
    · simpa [same] using ih

theorem recorded_close_ne (executions : List (Execution A R)) {j k : ℕ} (apart : j ≠ k)
    (reply : R) : recorded (close executions k reply) j = recorded executions j := by
  induction executions with
  | nil => rfl
  | cons e rest ih =>
    simp only [recorded, close, List.map_cons, List.filter_cons] at ih ⊢
    by_cases same : e.call = k
    · simpa [same, Ne.symm apart] using ih
    · by_cases own : e.call = j <;> simpa [same, own, apart] using ih

theorem mem_close {executions : List (Execution A R)} {k : ℕ} {reply : R} {e : Execution A R}
    (member : e ∈ close executions k reply) : ∃ old ∈ executions, e.call = old.call := by
  obtain ⟨old, inside, rfl⟩ := List.mem_map.mp member
  refine ⟨old, inside, ?_⟩
  split <;> rfl

theorem countP_close (executions : List (Execution A R)) (k : ℕ) (reply : R) (server : ℕ) :
    (close executions k reply).countP (fun e => e.server = server) =
      executions.countP fun e => e.server = server := by
  rw [close, List.countP_map]
  refine List.countP_congr fun e _ => ?_
  simp only [Function.comp_apply]
  split <;> rfl

def accepted (c : Call E V X L A R) : Bool :=
  match c.process with
  | .absent => false
  | _ => true

def Found (heap : List (Server X L A R)) (server : ℕ) (svcMeth : String) (rcvr : ℕ)
    (method : Method X L A R) : Prop :=
  ∃ rs : Server X L A R, heap[server]? = some rs ∧ rs.lookup svcMeth = some (rcvr, method)

structure Traced (rn : Network E V X L A R) (k : ℕ) (c : Call E V X L A R) : Prop where
  together : Together c.client c.process c.handler
  executed : recorded rn.executions k = expected c
  methods : ∀ server rcvr method, methodOf c.handler = some (server, rcvr, method) →
    Found rn.heap server c.req.svcMeth rcvr method
  running : ∀ server rcvr method vars, c.handler = .running server rcvr method vars →
    Reached method c.req.args vars
  results : ∀ server reply, outcome c.handler = some (server, some reply) → ∃ rcvr method,
    Found rn.heap server c.req.svcMeth rcvr method ∧ Returns method c.req.args reply

structure Sound (rn : Network E V X L A R) : Prop where
  traced : ∀ (k : ℕ) (c : Call E V X L A R), rn.calls[k]? = some c → Traced rn k c
  known : ∀ e ∈ rn.executions, e.call < rn.calls.length
  counts : ∀ (server : ℕ) (rs : Server X L A R), rn.heap[server]? = some rs →
    rs.count = rn.calls.countP fun c => countedBy c.handler = some server
  called : ∀ server, rn.executions.countP (fun e => e.server = server) =
    rn.calls.countP fun c => calledOn c.handler = some server
  total : rn.count = BitVec.ofNat 32 (rn.calls.countP accepted)

theorem makeNetwork_sound : Sound (makeNetwork : Network E V X L A R) where
  traced _ _ here := by cases here
  known _ member := by cases member
  counts _ _ found := by cases found
  called _ := rfl
  total := rfl

section Steps

variable {rn rn' : Network E V X L A R} {k : ℕ} {m : Move} {c c' : Call E V X L A R}

theorem Together.advanced (together : Together c.client c.process c.handler)
    (adv : Advanced rn k m c rn' c') : Together c'.client c'.process c'.handler := by
  cases adv <;> cases together
  case drain.ran outside => exact absurd rfl (outside _)
  all_goals constructor

theorem countP_set_call (p : Call E V X L A R → Bool) (c' : Call E V X L A R)
    (found : rn.calls[k]? = some c) :
    (rn.calls.set k c').countP p + (p c).toNat = rn.calls.countP p + (p c').toNat := by
  obtain ⟨bound, rfl⟩ := List.getElem?_eq_some_iff.mp found
  have positive : p rn.calls[k] = true → 0 < rn.calls.countP p := fun here =>
    List.countP_pos_iff.mpr ⟨_, List.getElem_mem bound, here⟩
  rw [List.countP_set bound]
  cases left : p rn.calls[k] <;> cases right : p c' <;> simp_all

theorem Found.set {heap : List (Server X L A R)} {server : ℕ} {rs : Server X L A R}
    (here : heap[server]? = some rs) (rs' : Server X L A R) (services : rs'.services = rs.services)
    {other : ℕ} {svcMeth : String} {rcvr : ℕ} {method : Method X L A R}
    (before : Found heap other svcMeth rcvr method) :
    Found (heap.set server rs') other svcMeth rcvr method := by
  obtain ⟨old, atOther, known⟩ := before
  have bound := (List.getElem?_eq_some_iff.mp here).1
  by_cases same : other = server
  · subst same
    obtain rfl := Option.some.inj (here.symm.trans atOther)
    refine ⟨rs', List.getElem?_set_self bound, ?_⟩
    rw [← known, Server.lookup, Server.lookup, services]
  · exact ⟨old, by rwa [List.getElem?_set_ne (Ne.symm same)], known⟩

theorem Found.append {heap : List (Server X L A R)} {server : ℕ} {svcMeth : String} {rcvr : ℕ}
    {method : Method X L A R} (before : Found heap server svcMeth rcvr method)
    (new : List (Server X L A R)) : Found (heap ++ new) server svcMeth rcvr method := by
  obtain ⟨rs, here, known⟩ := before
  have bound := (List.getElem?_eq_some_iff.mp here).1
  exact ⟨rs, by rwa [List.getElem?_append_left bound], known⟩

theorem Traced.congr (h : Traced rn k c)
    (heap : ∀ {server svcMeth rcvr method}, Found rn.heap server svcMeth rcvr method →
      Found rn'.heap server svcMeth rcvr method)
    (executed : recorded rn'.executions k = recorded rn.executions k) : Traced rn' k c where
  together := h.together
  executed := executed.trans h.executed
  methods server rcvr method same := heap (h.methods server rcvr method same)
  running := h.running
  results server reply ended := by
    obtain ⟨rcvr, method, found, returns⟩ := h.results server reply ended
    exact ⟨rcvr, method, heap found, returns⟩

theorem Sound.replace (h : Sound rn) (here : rn.calls[k]? = some c) (next : Network E V X L A R)
    (c' : Call E V X L A R)
    (heap : ∀ {server svcMeth rcvr method}, Found rn.heap server svcMeth rcvr method →
      Found next.heap server svcMeth rcvr method)
    (others : ∀ j, j ≠ k → recorded next.executions j = recorded rn.executions j)
    (own : Traced next k c') (known : ∀ e ∈ next.executions, e.call < rn.calls.length)
    (counts : ∀ (server : ℕ) (new : Server X L A R), next.heap[server]? = some new →
      ∃ old : Server X L A R, rn.heap[server]? = some old ∧
        new.count + (decide (countedBy c.handler = some server)).toNat =
          old.count + (decide (countedBy c'.handler = some server)).toNat)
    (called : ∀ server : ℕ, next.executions.countP (fun e => e.server = server) +
        (decide (calledOn c.handler = some server)).toNat =
      rn.executions.countP (fun e => e.server = server) +
        (decide (calledOn c'.handler = some server)).toNat)
    (total : next.count + BitVec.ofNat 32 (accepted c).toNat =
      rn.count + BitVec.ofNat 32 (accepted c').toNat) :
    Sound { next with calls := rn.calls.set k c' } where
  traced j d atJ := by
    rcases set_cases here _ atJ with ⟨rfl, rfl⟩ | ⟨apart, before⟩
    · exact own.congr id rfl
    · exact (h.traced j d before).congr heap (others j apart)
  known e member := by simpa using known e member
  counts server new atNew := by
    obtain ⟨old, atOld, same⟩ := counts server new atNew
    have moved := countP_set_call (fun c => countedBy c.handler = some server) c' here
    have before := h.counts server old atOld
    change new.count = (rn.calls.set k c').countP _
    omega
  called server := by
    have moved := countP_set_call (fun c => calledOn c.handler = some server) c' here
    have before := h.called server
    have after := called server
    change next.executions.countP _ = (rn.calls.set k c').countP _
    omega
  total := by
    have moved := congrArg (BitVec.ofNat 32) (countP_set_call accepted c' here)
    rw [BitVec.ofNat_add, BitVec.ofNat_add, ← h.total, ← total] at moved
    exact ((BitVec.add_left_inj _).mp moved).symm

theorem Sound.still (h : Sound rn) (here : rn.calls[k]? = some c)
    (together : Together c'.client c'.process c'.handler) (req : c'.req = c.req)
    (same : outcome c'.handler = outcome c.handler)
    (counted : countedBy c'.handler = countedBy c.handler)
    (method : ∀ {called}, methodOf c'.handler = some called → methodOf c.handler = some called)
    (running : ∀ {server rcvr method vars}, c'.handler = .running server rcvr method vars →
      Reached method c.req.args vars)
    {count : BitVec 32} {objects : List X} (total : count + BitVec.ofNat 32 (accepted c).toNat =
      rn.count + BitVec.ofNat 32 (accepted c').toNat) :
    Sound { rn with count := count, objects := objects, calls := rn.calls.set k c' } := by
  have before := h.traced k c here
  refine h.replace here { rn with count := count, objects := objects } c' id
    (fun _ _ => rfl) ?_ h.known (fun server new atNew => ⟨new, atNew, by rw [counted]⟩)
    (fun server => by rw [calledOn, calledOn, same]) total
  refine ⟨together, ?_, fun server rcvr called found => ?_, ?_, ?_⟩
  · rw [expected, same, req]
    exact before.executed
  · rw [req]
    exact before.methods server rcvr called (method found)
  · rw [req]
    exact fun server rcvr method vars => running
  · rw [req, same]
    exact before.results

section Dispatch

variable {req : ReqMsg E A} {client : Client R} {process : Process V R} {server rcvr : ℕ}
  {rs : Server X L A R} {method : Method X L A R} {vars : L}

theorem Sound.dispatch (h : Sound rn)
    (here : rn.calls[k]? = some ⟨req, client, process, .started server⟩)
    (found : rn.heap[server]? = some rs) (lookup : rs.lookup req.svcMeth = some (rcvr, method))
    (together : Together client process (.dispatched server rcvr method)) :
    Sound { rn with
      heap := rn.heap.set server { rs with count := rs.count + 1 }
      calls := rn.calls.set k ⟨req, client, process, .dispatched server rcvr method⟩ } := by
  have before := h.traced k _ here
  refine h.replace here
    { rn with heap := rn.heap.set server { rs with count := rs.count + 1 } }
    ⟨req, client, process, .dispatched server rcvr method⟩
    (fun there => there.set found ⟨rs.services, rs.count + 1⟩ rfl) (fun _ _ => rfl)
    ⟨together, before.executed, ?_, nofun, nofun⟩ h.known ?_ (fun _ => rfl) rfl
  · rintro _ _ _ ⟨⟩
    exact Found.set found ⟨rs.services, rs.count + 1⟩ rfl ⟨rs, found, lookup⟩
  · intro other new atNew
    rcases set_cases found _ atNew with ⟨rfl, rfl⟩ | ⟨apart, before⟩
    · exact ⟨rs, found, by simp [countedBy]⟩
    · exact ⟨new, before, by simp [countedBy, Ne.symm apart]⟩

theorem Sound.invoke (h : Sound rn)
    (here : rn.calls[k]? = some ⟨req, client, process, .dispatched server rcvr method⟩)
    (together : Together client process
      (.running server rcvr method (method.start req.args))) :
    Sound { rn with
      executions := rn.executions ++ [⟨k, server, req.svcMeth, req.args, none⟩]
      calls := rn.calls.set k
        ⟨req, client, process, .running server rcvr method (method.start req.args)⟩ } := by
  have before := h.traced k _ here
  refine h.replace here
    { rn with executions := rn.executions ++ [⟨k, server, req.svcMeth, req.args, none⟩] }
    ⟨req, client, process, .running server rcvr method (method.start req.args)⟩ id ?_
    ⟨together, ?_, before.methods, ?_, nofun⟩ ?_ (fun _ new atNew => ⟨new, atNew, rfl⟩) ?_ rfl
  · intro j apart
    simp [recorded, Ne.symm apart]
  · have nothing := before.executed
    simp only [recorded, List.filter_append, List.map_append] at nothing ⊢
    rw [nothing]
    simp [expected, outcome]
  · rintro _ _ _ _ ⟨⟩
    exact .start
  · intro e member
    rcases List.mem_append.mp member with old | new
    · exact h.known e old
    · rw [List.mem_singleton.mp new]
      exact (List.getElem?_eq_some_iff.mp here).1
  · intro other
    rw [List.countP_append]
    by_cases same : server = other <;> simp [calledOn, outcome, same]

theorem Sound.ends (h : Sound rn) {x x' : X} {reply : R} {objects : List X}
    (here : rn.calls[k]? = some ⟨req, client, process, .running server rcvr method vars⟩)
    (result : method.resume x vars = some (x', .inr reply))
    (together : Together client process (.ran server reply : Handler X L A R)) :
    Sound { rn with
      objects := objects
      executions := close rn.executions k reply
      calls := rn.calls.set k ⟨req, client, process, .ran server reply⟩ } := by
  have before := h.traced k _ here
  refine h.replace here
    { rn with objects := objects, executions := close rn.executions k reply }
    ⟨req, client, process, .ran server reply⟩ id
    (fun j apart => recorded_close_ne _ apart reply) ⟨together, ?_, nofun, nofun, ?_⟩ ?_
    (fun _ new atNew => ⟨new, atNew, rfl⟩) (fun _ => by rw [countP_close]; rfl) rfl
  · rw [recorded_close_self, before.executed]
    rfl
  · rintro _ _ ⟨⟩
    exact ⟨rcvr, method, before.methods server rcvr method rfl,
      x, x', vars, before.running server rcvr method vars rfl, result⟩
  · intro e member
    obtain ⟨old, inside, call⟩ := mem_close member
    rw [call]
    exact h.known old inside

end Dispatch

theorem Sound.advanced (h : Sound rn) (here : rn.calls[k]? = some c)
    (adv : Advanced rn k m c rn' c') : Sound { rn' with calls := rn.calls.set k c' } := by
  have before := h.traced k c here
  have after := before.together.advanced adv
  cases adv with
  | accept =>
    cases before.together
    exact h.still here after rfl rfl rfl id nofun (BitVec.add_zero _)
  | begin =>
    cases before.together
    exact h.still here after rfl rfl rfl nofun nofun rfl
  | dispatch found known => exact h.dispatch here found known after
  | invoke => exact h.invoke here after
  | goOn found result =>
    refine h.still here after rfl rfl rfl id ?_ rfl
    rintro _ _ _ _ ⟨⟩
    exact (before.running _ _ _ _ rfl).step result
  | ends found result => exact h.ends here result after
  | receive | drain => exact h.still here after rfl rfl rfl nofun nofun rfl
  | _ => exact h.still here after rfl rfl rfl id (before.running _ _ _ _) rfl

theorem Sound.congr (h : Sound rn) (heap : rn'.heap = rn.heap) (calls : rn'.calls = rn.calls)
    (executions : rn'.executions = rn.executions) (count : rn'.count = rn.count) : Sound rn' where
  traced k c here := by
    refine (h.traced k c (calls ▸ here)).congr (fun found => ?_) (by rw [executions])
    rwa [heap]
  known := by simpa only [calls, executions] using h.known
  counts := by simpa only [calls, heap] using h.counts
  called := by simpa only [calls, executions] using h.called
  total := by rw [count, calls, h.total]

theorem Sound.counted_lt (h : Sound rn) (here : rn.calls[k]? = some c) {server : ℕ}
    (counted : countedBy c.handler = some server) : server < rn.heap.length := by
  have traced := h.traced k c here
  have placed : ∃ rcvr method, Found rn.heap server c.req.svcMeth rcvr method := by
    cases handler : c.handler with
    | dispatched server' rcvr method | running server' rcvr method vars =>
      rw [handler] at counted
      obtain rfl := Option.some.inj counted
      exact ⟨rcvr, method, traced.methods server' rcvr method (by rw [handler]; rfl)⟩
    | ran server' reply | finished server' reply =>
      rw [handler] at counted
      obtain rfl := Option.some.inj counted
      obtain ⟨rcvr, method, found, -⟩ := traced.results server' reply (by rw [handler]; rfl)
      exact ⟨rcvr, method, found⟩
    | absent | started =>
      rw [handler] at counted
      cases counted
  obtain ⟨rcvr, method, rs, found, -⟩ := placed
  exact (List.getElem?_eq_some_iff.mp found).1

theorem foldl_addService (services : List (Service X L A R)) (rs : Server X L A R) :
    (services.foldl Server.addService rs).count = rs.count := by
  induction services generalizing rs with
  | nil => rfl
  | cons svc rest ih => exact ih (rs.addService svc)

theorem Sound.newServer (h : Sound rn) {rs : Server X L A R} (count : rs.count = 0) :
    Sound { rn with heap := rn.heap ++ [rs] } where
  traced k c here := (h.traced k c here).congr (fun found => found.append [rs]) rfl
  known := h.known
  counts server new atNew := by
    rcases append_cases atNew with old | ⟨rfl, rfl⟩
    · exact h.counts server new old
    · rw [count, eq_comm, List.countP_eq_zero]
      intro c member counted
      obtain ⟨k, here⟩ := List.mem_iff_getElem?.mp member
      exact absurd (h.counted_lt here (of_decide_eq_true counted)) (lt_irrefl _)
  called := h.called
  total := h.total

theorem Sound.call (h : Sound rn) (req : ReqMsg E A) :
    Sound { rn with calls := rn.calls ++ [⟨req, .sending, .absent, .absent⟩] } where
  traced j d atJ := by
    rcases append_cases atJ with old | ⟨rfl, rfl⟩
    · exact (h.traced j d old).congr id rfl
    · have nothing : rn.executions.filter (fun e => e.call = rn.calls.length) = [] := by
        rw [List.filter_eq_nil_iff]
        intro e member same
        have bound := h.known e member
        simp only [decide_eq_true_eq] at same
        omega
      refine ⟨.sending, ?_, nofun, nofun, nofun⟩
      rw [recorded, nothing]
      rfl
  known e member := (h.known e member).trans_le (by simp)
  counts server rs found := by
    rw [List.countP_append]
    exact h.counts server rs found
  called server := by
    rw [List.countP_append]
    exact h.called server
  total := by
    rw [List.countP_append]
    exact h.total

end Steps

theorem sum_countP_le {α : Type} (f : α → Option ℕ) (n : ℕ) (l : List α) :
    ∑ s ∈ Finset.range n, l.countP (fun c => f c = some s) ≤ l.countP fun c => (f c).isSome := by
  induction l with
  | nil => simp
  | cons c rest ih =>
    have once : (∑ s ∈ Finset.range n, if f c = some s then 1 else 0) ≤
        if (f c).isSome then 1 else 0 := by
      cases f c with
      | none => simp
      | some s =>
        simp only [Option.some.injEq, Finset.sum_ite_eq, Option.isSome_some, if_true]
        split <;> omega
    simp only [List.countP_cons, decide_eq_true_eq, Finset.sum_add_distrib]
    omega

theorem Sound.sum_counts {rn : Network E V X L A R} (h : Sound rn) :
    (rn.heap.map Server.count).sum ≤ rn.calls.countP fun c => (countedBy c.handler).isSome := by
  have each (s : Fin rn.heap.length) : rn.heap[s].count =
      rn.calls.countP fun c => countedBy c.handler = some s.val :=
    h.counts s.val rn.heap[s] (List.getElem?_eq_getElem s.isLt)
  calc (rn.heap.map Server.count).sum
    _ = ∑ s : Fin rn.heap.length, rn.heap[s].count :=
      (Fin.sum_univ_fun_getElem rn.heap Server.count).symm
    _ = ∑ s ∈ Finset.range rn.heap.length,
        rn.calls.countP (fun c => countedBy c.handler = some s) := by
      rw [Finset.sum_range]
      exact Finset.sum_congr rfl fun s _ => each s
    _ ≤ _ := sum_countP_le (fun c : Call E V X L A R => countedBy c.handler) _ _

theorem Together.accepted {c : Call E V X L A R} (together : Together c.client c.process c.handler)
    (counted : (countedBy c.handler).isSome) : accepted c = true := by
  obtain ⟨req, client, process, handler⟩ := c
  cases together <;> first | rfl | cases counted

theorem countedBy_of_calledOn {handler : Handler X L A R} {server : ℕ}
    (called : calledOn handler = some server) : countedBy handler = some server := by
  cases handler <;> first | exact called | cases called

section Runs

variable [DecidableEq E] [DecidableEq V] [ToString E] {rn rn' : Network E V X L A R}

inductive Stepped (rn : Network E V X L A R) : Action E V X L A R → Network E V X L A R → Prop
  | makeEnd {endname} (new : rn.ends endname = false) : Stepped rn (.makeEnd endname) { rn with
      ends := Function.update rn.ends endname true
      enabled := Function.update rn.enabled endname false
      connections := Function.update rn.connections endname none }
  | deleteEnd {endname} (old : rn.ends endname = true) : Stepped rn (.deleteEnd endname) { rn with
      ends := Function.update rn.ends endname false
      enabled := Function.update rn.enabled endname false
      connections := Function.update rn.connections endname none }
  | newObject {x} : Stepped rn (.newObject x) { rn with objects := rn.objects ++ [x] }
  | write {rcvr x} : Stepped rn (.write rcvr x) { rn with objects := rn.objects.set rcvr x }
  | newServer {services} (made : ∀ svc ∈ services, svc.rcvr < rn.objects.length) :
      Stepped rn (.newServer services)
        { rn with heap := rn.heap ++ [services.foldl Server.addService makeServer] }
  | addServer {servername rs} (made : rs < rn.heap.length) :
      Stepped rn (.addServer servername rs) (addServer rn servername rs)
  | deleteServer {servername} : Stepped rn (.deleteServer servername) (deleteServer rn servername)
  | connect {endname servername} :
      Stepped rn (.connect endname servername) (connect rn endname servername)
  | enable {endname enabled} : Stepped rn (.enable endname enabled) (enable rn endname enabled)
  | reliable {yes} : Stepped rn (.reliable yes) { rn with reliable := yes }
  | cleanup (running : rn.closed = false) : Stepped rn .cleanup { rn with closed := true }
  | stop (closed : rn.closed = true) : Stepped rn .stop { rn with accepting := false }
  | call {req} : Stepped rn (.call req)
      { rn with calls := rn.calls ++ [⟨req, .sending, .absent, .absent⟩] }
  | move {k m c next c'} (here : rn.calls[k]? = some c) (adv : Advanced rn k m c next c') :
      Stepped rn (.move k m) { next with calls := rn.calls.set k c' }

theorem step_stepped {a : Action E V X L A R} (taken : step rn a = some rn') :
    Stepped rn a rn' := by
  cases a with
  | makeEnd endname =>
    simp only [step, makeEnd] at taken
    split at taken <;> cases taken
    exact .makeEnd (Bool.eq_false_iff.mpr ‹_›)
  | deleteEnd endname =>
    simp only [step, deleteEnd] at taken
    split at taken <;> cases taken
    exact .deleteEnd ‹_›
  | newObject x =>
    cases taken
    exact .newObject
  | write rcvr x =>
    cases taken
    exact .write
  | newServer services =>
    obtain ⟨_, made, same⟩ := Option.bind_eq_some_iff.mp taken
    cases same
    exact .newServer (guard_some.mp made)
  | addServer servername rs =>
    simp only [step] at taken
    split at taken <;> cases taken
    exact .addServer ‹_›
  | deleteServer servername =>
    cases taken
    exact .deleteServer
  | connect endname servername =>
    cases taken
    exact .connect
  | enable endname enabled =>
    cases taken
    exact .enable
  | reliable yes =>
    cases taken
    exact .reliable
  | cleanup =>
    simp only [step] at taken
    split at taken <;> cases taken
    exact .cleanup (Bool.eq_false_iff.mpr ‹_›)
  | stop =>
    simp only [step] at taken
    split at taken <;> cases taken
    exact .stop ‹_›
  | call req =>
    cases taken
    exact .call
  | move k m =>
    obtain ⟨c, here, rest⟩ := Option.bind_eq_some_iff.mp taken
    obtain ⟨⟨next, c'⟩, moved, same⟩ := Option.bind_eq_some_iff.mp rest
    cases same
    exact .move here (advance_advanced moved)

theorem Sound.stepped (h : Sound rn) {a : Action E V X L A R} (taken : step rn a = some rn') :
    Sound rn' := by
  cases step_stepped taken with
  | newServer => exact h.newServer (foldl_addService _ makeServer)
  | call => exact h.call _
  | move here adv => exact h.advanced here adv
  | _ => exact h.congr rfl rfl rfl rfl

theorem reaches_sound {ok : Network E V X L A R → Action E V X L A R → Prop}
    (reached : Reaches ok rn) : Sound rn :=
  reached.invariant Sound (fun h _ taken => h.stepped taken) makeNetwork_sound

/-- The handler of a call is called at most once, and when `Call` returns true it was
called with the arguments of the call, has returned and gave the reply. -/
theorem rpc_executions {ok : Network E V X L A R → Action E V X L A R → Prop}
    (reached : LabRpc.Reaches ok rn) {k : ℕ} {c : Call E V X L A R}
    (here : rn.calls[k]? = some c) :
    (recorded rn.executions k).length ≤ 1 ∧
    ∀ reply, c.client = .returned (some reply) → ∃ server rcvr method,
      recorded rn.executions k = [(server, c.req.svcMeth, c.req.args, some reply)] ∧
      Found rn.heap server c.req.svcMeth rcvr method ∧ Returns method c.req.args reply := by
  have traced := (reaches_sound reached).traced k c here
  rw [traced.executed]
  constructor
  · rw [expected]
    cases outcome c.handler <;> simp
  · intro reply returned
    have together := traced.together
    rw [returned] at together
    generalize whole : c.handler = handler at together
    generalize c.process = process at together
    cases together with
    | @returned server =>
      obtain ⟨rcvr, method, found, returns⟩ := traced.results server reply (by rw [whole]; rfl)
      exact ⟨server, rcvr, method, by rw [expected, whole]; rfl, found, returns⟩

/-- Adds to a number in two steps, between which others may change it. -/
def counter : Service ℕ (ℕ × Option ℕ) ℕ ℕ where
  name := "Counter"
  rcvr := 0
  methods name := if name = "Add" then some
    { start := fun n => (n, none)
      resume := fun total vars => match vars with
        | (n, none) => some (total, .inl (n, some total))
        | (n, some seen) => some (seen + n, .inr (seen + n)) } else none

def addFive : List (Action ℕ ℕ ℕ (ℕ × Option ℕ) ℕ ℕ) :=
  [.makeEnd 0, .newObject 10, .newServer [counter], .addServer 7 0, .connect 0 7, .enable 0 true,
    .call ⟨0, "Counter.Add", 5⟩, .move 0 .accept, .move 0 .read, .move 0 .begin, .move 0 .dispatch,
    .move 0 .invoke, .move 0 .run, .move 0 .run, .move 0 .receive, .move 0 (.leave false),
    .move 0 .answer]

theorem addFive_returns : ∃ rn : Network ℕ ℕ ℕ (ℕ × Option ℕ) ℕ ℕ, LabRpc.Reaches free rn ∧
    rn.calls.map (fun c => (c.req, c.client)) =
      [(⟨0, "Counter.Add", 5⟩, .returned (some 15))] ∧ getCount rn 7 = some 1 := by
  obtain ⟨rn, reached, holds⟩ := exec_test step free makeNetwork addFive (fun rn =>
    rn.calls.map (fun c => (c.req, c.client)) =
      [(⟨0, "Counter.Add", 5⟩, .returned (some 15))] ∧ getCount rn 7 = some 1) (by decide +kernel)
  exact ⟨rn, reached, of_decide_eq_true holds⟩

theorem rpc_executions_added : ∃ rn : Network ℕ ℕ ℕ (ℕ × Option ℕ) ℕ ℕ, ∃ server rcvr method,
    recorded rn.executions 0 = [(server, "Counter.Add", 5, some 15)] ∧
    Found rn.heap server "Counter.Add" rcvr method ∧ Returns method 5 15 := by
  obtain ⟨rn, reached, calls, -⟩ := addFive_returns
  obtain ⟨c, one, same⟩ := List.map_eq_singleton_iff.mp calls
  obtain ⟨req, returned⟩ := Prod.ext_iff.mp same
  have here : rn.calls[0]? = some c := by rw [one]; rfl
  obtain ⟨server, rcvr, method, record, rest⟩ := (rpc_executions reached here).2 15 returned
  rw [show c.req = ⟨0, "Counter.Add", 5⟩ from req] at record rest
  exact ⟨rn, server, rcvr, method, record, rest⟩

-- two handlers at the same time lose an addition
example : (exec step free makeNetwork (addFive.take 13 ++ [.call ⟨0, "Counter.Add", 3⟩] ++
    [.accept, .read, .begin, .dispatch, .invoke, .run, .run].map (.move 1) ++
    [.move 0 .run])).map (fun rn => (rn.objects, rn.executions.map Execution.reply)) =
      some ([15], [some 15, some 13]) := by decide +kernel

/-- The counters of the network: the whole network counts the requests it took from
`Call`, in 32 bits, and each server those that reached `dispatch`, of which some may not
have been called. -/
theorem rpc_counts {ok : Network E V X L A R → Action E V X L A R → Prop}
    (reached : LabRpc.Reaches ok rn) :
    getTotalCount rn = Int.bmod (rn.calls.countP accepted) (2 ^ 32) ∧
    (rn.calls.countP accepted < 2 ^ 31 → getTotalCount rn = rn.calls.countP accepted) ∧
    (rn.heap.map Server.count).sum ≤ rn.calls.countP accepted ∧
    ∀ servername n, getCount rn servername = some n → ∃ server,
      rn.servers servername = some server ∧
      n = rn.calls.countP (fun c => countedBy c.handler = some server) ∧
      rn.executions.countP (fun e => e.server = server) ≤ n := by
  have sound := reaches_sound reached
  have whole : getTotalCount rn = Int.bmod (rn.calls.countP accepted) (2 ^ 32) := by
    rw [getTotalCount, sound.total, BitVec.toInt_ofNat']
  refine ⟨whole, fun few => ?_, ?_, ?_⟩
  · rw [whole, Int.bmod_eq_of_le] <;> omega
  · refine sound.sum_counts.trans ?_
    apply List.countP_mono_left
    intro c member counted
    obtain ⟨k, here⟩ := List.mem_iff_getElem?.mp member
    exact (sound.traced k c here).together.accepted counted
  · intro servername n got
    obtain ⟨server, named, rest⟩ := Option.bind_eq_some_iff.mp got
    obtain ⟨rs, found, same⟩ := Option.bind_eq_some_iff.mp rest
    cases same
    refine ⟨server, named, sound.counts server rs found, ?_⟩
    rw [sound.called server, sound.counts server rs found]
    apply List.countP_mono_left
    intro c _ called
    exact decide_eq_true (countedBy_of_calledOn (of_decide_eq_true called))

theorem rpc_counts_added : ∃ rn : Network ℕ ℕ ℕ (ℕ × Option ℕ) ℕ ℕ, getCount rn 7 = some 1 ∧
    (rn.heap.map Server.count).sum ≤ rn.calls.countP accepted ∧ ∃ server,
    rn.servers 7 = some server ∧ rn.executions.countP (fun e => e.server = server) ≤ 1 := by
  obtain ⟨rn, reached, -, got⟩ := addFive_returns
  obtain ⟨-, -, sum, each⟩ := rpc_counts reached
  obtain ⟨server, named, -, called⟩ := each 7 1 got
  exact ⟨rn, got, sum, server, named, called⟩

end Runs

end DistributedLabs.RpcCalls
