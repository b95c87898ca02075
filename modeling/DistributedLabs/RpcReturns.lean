import DistributedLabs.RpcCalls

/-! What the result of `Call` says about its execution, and that `Call` returns. A
call that failed may have its handler run later when its end or its server is taken
away meanwhile; in a quiet run this does not happen. -/

namespace DistributedLabs.RpcReturns
open GuardedRuns LabRpc RpcCalls

variable {E V X L A R : Type}

/-- What `processReq` compares the network with later. -/
def watches : Process V R → Option (Info V)
  | .admitted info | .waiting info | .left info _ => some info
  | _ => none

def behind : Process V R → Bool
  | .left _ _ | .replying _ | .done => true
  | _ => false

def Idle (handler : Handler X L A R) : Prop :=
  handler = .absent ∨ ∃ server reply, handler = .finished server reply

structure Framed (rn rn' : Network E V X L A R) : Prop where
  reliable : rn'.reliable = rn.reliable
  enabled : rn'.enabled = rn.enabled
  servers : rn'.servers = rn.servers
  accepting : rn'.accepting = rn.accepting
  closed : rn'.closed = rn.closed
  services : rn'.heap.map Server.services = rn.heap.map Server.services
  objects : rn'.objects.length = rn.objects.length

section Steps

variable {rn rn' : Network E V X L A R} {k : ℕ} {m : Move} {c c' : Call E V X L A R}

theorem Framed.length (h : Framed rn rn') : rn'.heap.length = rn.heap.length := by
  simpa using congrArg List.length h.services

theorem advanced_framed (adv : Advanced rn k m c rn' c') : Framed rn rn' := by
  cases adv with
  | @dispatch req client process server rs rcvr method found known =>
    refine ⟨rfl, rfl, rfl, rfl, rfl, ?_, rfl⟩
    obtain ⟨bound, rfl⟩ := List.getElem?_eq_some_iff.mp found
    have bound' : server < (rn.heap.map Server.services).length := by simpa using bound
    rw [List.map_set, ← List.getElem_map Server.services (h := bound'), List.set_getElem_self]
  | _ => exact ⟨rfl, rfl, rfl, rfl, rfl, rfl, by simp⟩

theorem readEndnameInfo_some {endname : E} {info : Info V}
    (read : readEndnameInfo rn endname = some info) : rn.enabled endname = true ∧
      rn.servers info.servername = some info.server ∧ info.reliable = rn.reliable := by
  obtain ⟨_, enabled, rest⟩ := Option.bind_eq_some_iff.mp read
  obtain ⟨servername, -, more⟩ := Option.bind_eq_some_iff.mp rest
  obtain ⟨server, found, same⟩ := Option.bind_eq_some_iff.mp more
  cases same
  exact ⟨guard_some.mp enabled, found, rfl⟩

theorem alive_iff {endname : E} {info : Info V} :
    isServerDead rn endname info = false ↔
      rn.enabled endname = true ∧ rn.servers info.servername = some info.server := by
  simp [isServerDead]

structure Steady (rn : Network E V X L A R) (c : Call E V X L A R) : Prop where
  alive : ∀ info, watches c.process = some info → isServerDead rn c.req.endname info = false
  idle : behind c.process → Idle c.handler

theorem Steady.congr (h : Steady rn c) (enabled : rn'.enabled = rn.enabled)
    (servers : rn'.servers = rn.servers) : Steady rn' c where
  alive := by simpa only [isServerDead, enabled, servers] using h.alive
  idle := h.idle

theorem not_idle {handler : Handler X L A R} (begun : handler ≠ .absent)
    (unfinished : ∀ server reply, handler ≠ .finished server reply) : ¬ Idle handler := by
  rintro (same | ⟨server, reply, same⟩)
  · exact begun same
  · exact unfinished server reply same

theorem Steady.advanced (h : Steady rn c) (together : Together c.client c.process c.handler)
    (adv : Advanced rn k m c rn' c') : Steady rn' c' := by
  have framed := advanced_framed adv
  refine Steady.congr ?_ framed.enabled framed.servers
  cases adv with
  | accept => exact ⟨nofun, nofun⟩
  | giveUp => exact ⟨h.alive, h.idle⟩
  | admitted read =>
    obtain ⟨enabled, named, -⟩ := readEndnameInfo_some read
    refine ⟨?_, nofun⟩
    rintro info same
    obtain rfl := Option.some.inj same
    exact alive_iff.mpr ⟨enabled, named⟩
  | refuse | drop =>
    cases together
    exact ⟨nofun, fun _ => .inl rfl⟩
  | begin => exact ⟨h.alive, nofun⟩
  | dispatch | invoke | goOn | ends =>
    exact ⟨h.alive, fun past => absurd (h.idle past) (not_idle nofun nofun)⟩
  | receive => exact ⟨h.alive, fun _ => .inr ⟨_, _, rfl⟩⟩
  | poll dead => exact absurd ((h.alive _ rfl).symm.trans dead) Bool.false_ne_true
  | fail | pass => exact ⟨nofun, h.idle⟩
  | drain => exact ⟨h.alive, fun _ => .inr ⟨_, _, rfl⟩⟩
  | answer => exact ⟨nofun, h.idle⟩

structure Certain (c : Call E V X L A R) : Prop where
  reliable : ∀ info, watches c.process = some info → info.reliable = true
  waited : ∀ info, c.process ≠ .left info none
  failed : c.process = .replying none ∨ c.client = .returned none → c.handler = .absent

theorem Certain.advanced (h : Certain c) (steady : Steady rn c) (yes : rn.reliable = true)
    (together : Together c.client c.process c.handler) (adv : Advanced rn k m c rn' c') :
    Certain c' := by
  cases adv with
  | accept | giveUp | refuse =>
    cases together
    exact ⟨nofun, nofun, fun _ => rfl⟩
  | admitted read =>
    cases together
    obtain ⟨-, -, same⟩ := readEndnameInfo_some read
    refine ⟨?_, nofun, fun _ => rfl⟩
    intro info watched
    obtain rfl := Option.some.inj watched
    exact same.trans yes
  | drop unreliable =>
    exact absurd (unreliable.symm.trans (h.reliable _ rfl)) Bool.false_ne_true
  | begin =>
    cases together
    exact ⟨h.reliable, nofun, by rintro (same | same) <;> cases same⟩
  | dispatch | invoke | goOn | ends | drain =>
    exact ⟨h.reliable, h.waited, fun failed => by cases h.failed failed⟩
  | receive =>
    cases together
    exact ⟨h.reliable, nofun, by rintro (same | same) <;> cases same⟩
  | poll dead => exact absurd ((steady.alive _ rfl).symm.trans dead) Bool.false_ne_true
  | fail lost =>
    rcases lost with rfl | unreliable | dead
    · exact absurd rfl (h.waited _)
    · exact absurd (unreliable.symm.trans (h.reliable _ rfl)) Bool.false_ne_true
    · exact absurd ((steady.alive _ rfl).symm.trans dead) Bool.false_ne_true
  | pass =>
    cases together
    exact ⟨nofun, nofun, by rintro (same | same) <;> cases same⟩
  | answer =>
    refine ⟨nofun, nofun, ?_⟩
    rintro (same | same)
    · cases same
    · cases same
      exact h.failed (.inl rfl)

theorem not_advanced_settled (together : Together c.client c.process c.handler) {reply : Option R}
    (returned : c.client = .returned reply) (idle : Idle c.handler) :
    ¬ Advanced rn k m c rn' c' := by
  intro adv
  obtain ⟨req, client, process, handler⟩ := c
  cases returned
  cases together with
  | gaveUp => cases adv
  | returned => cases adv
  | lost =>
    cases adv with
    | dispatch | invoke | goOn | ends | drain => exact absurd idle (not_idle nofun nofun)

end Steps

section Runs

variable [DecidableEq E] [DecidableEq V] [ToString E] {rn rn' : Network E V X L A R}
  {a : Action E V X L A R}

def endIdle (rn : Network E V X L A R) (endname : E) : Bool :=
  rn.calls.all fun c => c.req.endname ≠ endname ∨ watches c.process = none

def serverIdle (rn : Network E V X L A R) (servername : V) : Bool :=
  rn.calls.all fun c => (watches c.process).all fun info => info.servername ≠ servername

/-- Ends are disabled and servers replaced only when no call waits for them. -/
def quiet (rn : Network E V X L A R) : Action E V X L A R → Bool
  | .makeEnd endname | .deleteEnd endname | .enable endname false => endIdle rn endname
  | .addServer servername _ | .deleteServer servername => serverIdle rn servername
  | _ => true

theorem quiet_alive (allowed : quiet rn a = true) (taken : step rn a = some rn')
    {c : Call E V X L A R} (member : c ∈ rn.calls) {info : Info V}
    (watched : watches c.process = some info)
    (alive : isServerDead rn c.req.endname info = false) :
    isServerDead rn' c.req.endname info = false := by
  have apart {endname : E} (idle : endIdle rn endname = true) : c.req.endname ≠ endname := by
    simpa [watched] using List.all_eq_true.mp idle c member
  have distinct {servername : V} (idle : serverIdle rn servername = true) :
      info.servername ≠ servername := by
    simpa [watched] using List.all_eq_true.mp idle c member
  rw [alive_iff] at alive ⊢
  cases step_stepped taken with
  | makeEnd | deleteEnd => exact ⟨by simpa [apart allowed] using alive.1, alive.2⟩
  | addServer => exact ⟨alive.1, by simpa [addServer, distinct allowed] using alive.2⟩
  | deleteServer => exact ⟨alive.1, by simpa [deleteServer, distinct allowed] using alive.2⟩
  | @enable endname enabled =>
    refine ⟨?_, alive.2⟩
    cases enabled with
    | false => simpa [enable, apart allowed] using alive.1
    | true =>
      simp only [enable, Function.update_apply]
      split
      · rfl
      · exact alive.1
  | move _ adv =>
    have framed := advanced_framed adv
    exact ⟨framed.enabled ▸ alive.1, framed.servers ▸ alive.2⟩
  | _ => exact alive

theorem steady_stepped (sound : Sound rn)
    (h : ∀ (k : ℕ) (c : Call E V X L A R), rn.calls[k]? = some c → Steady rn c)
    (allowed : quiet rn a = true) (taken : step rn a = some rn') (j : ℕ) (d : Call E V X L A R)
    (here : rn'.calls[j]? = some d) : Steady rn' d := by
  have old (before : rn.calls[j]? = some d) : Steady rn' d :=
    ⟨fun info watched => quiet_alive allowed taken (List.mem_of_getElem? before) watched
      ((h j d before).alive info watched), (h j d before).idle⟩
  cases step_stepped taken with
  | call =>
    rcases append_cases here with before | ⟨-, rfl⟩
    · exact old before
    · exact ⟨nofun, nofun⟩
  | move atK adv =>
    rcases set_cases atK _ here with ⟨-, rfl⟩ | ⟨-, before⟩
    · exact ((h _ _ atK).advanced (sound.traced _ _ atK).together adv).congr rfl rfl
    · exact old before
  | _ => exact old here

theorem reaches_steady (reached : Reaches (fun rn a => quiet rn a = true) rn) (k : ℕ)
    (c : Call E V X L A R) (here : rn.calls[k]? = some c) : Steady rn c := by
  refine reached.invariant_under Sound
    (fun rn => ∀ (k : ℕ) (c : Call E V X L A R), rn.calls[k]? = some c → Steady rn c)
    (fun h _ taken => h.stepped taken) ?_ makeNetwork_sound (fun _ _ here => by cases here) k c here
  intro rn rn' a sound _ h allowed taken
  exact steady_stepped sound h allowed taken

theorem returned_idle (reached : Reaches (fun rn a => quiet rn a = true) rn) {k : ℕ}
    {c : Call E V X L A R} (here : rn.calls[k]? = some c) {reply : Option R}
    (returned : c.client = .returned reply) : Idle c.handler := by
  have together := ((reaches_sound reached).traced k c here).together
  have steady := reaches_steady reached k c here
  obtain ⟨req, client, process, handler⟩ := c
  cases returned
  cases together with
  | gaveUp => exact .inl rfl
  | returned => exact .inr ⟨_, _, rfl⟩
  | lost => exact steady.idle rfl

theorem settled_stepped (sound : Sound rn) {k : ℕ} {c : Call E V X L A R}
    (here : rn.calls[k]? = some c) {reply : Option R} (returned : c.client = .returned reply)
    (idle : Idle c.handler) (taken : step rn a = some rn') : rn'.calls[k]? = some c := by
  cases step_stepped taken with
  | call => exact List.getElem?_append_left (List.getElem?_eq_some_iff.mp here).1 ▸ here
  | @move j m d next d' atJ adv =>
    by_cases same : j = k
    · subst same
      obtain rfl := Option.some.inj (here.symm.trans atJ)
      exact absurd adv (not_advanced_settled (sound.traced j c here).together returned idle)
    · exact (List.getElem?_set_ne same).trans here
  | _ => exact here

/-- When in a quiet run `Call` has returned, true or false, the request is not executed
after that, whatever then happens to the network. -/
theorem quiet_returns (reached : Reaches (fun rn a => quiet rn a = true) rn) {k : ℕ}
    {c : Call E V X L A R} (here : rn.calls[k]? = some c) {reply : Option R}
    (returned : c.client = .returned reply) (later : Run step free rn rn') :
    recorded rn'.executions k = recorded rn.executions k := by
  have sound := reaches_sound reached
  have idle := returned_idle reached here returned
  have both : Sound rn' ∧ rn'.calls[k]? = some c := by
    refine later.invariant (fun rn => Sound rn ∧ rn.calls[k]? = some c) ?_ ⟨sound, here⟩
    rintro rn rn' a ⟨sound, here⟩ - taken
    exact ⟨sound.stepped taken, settled_stepped sound here returned idle taken⟩
  rw [(sound.traced k c here).executed, (both.1.traced k c both.2).executed]

def lostReply : List (Action ℕ ℕ ℕ (ℕ × Option ℕ) ℕ ℕ) :=
  addFive.take 6 ++ [.reliable false, .call ⟨0, "Counter.Add", 5⟩, .move 0 .accept, .move 0 .read,
    .move 0 .begin, .move 0 .dispatch, .move 0 .invoke, .move 0 .run, .move 0 .run,
    .move 0 .receive, .move 0 (.leave true), .move 0 .answer]

theorem quiet_returns_lost : ∃ rn rn' : Network ℕ ℕ ℕ (ℕ × Option ℕ) ℕ ℕ, rn.executions.length = 1 ∧
    rn.calls.map Call.client = [.returned none] ∧ rn' = deleteServer rn 7 ∧
    recorded rn'.executions 0 = recorded rn.executions 0 := by
  obtain ⟨rn, reached, holds⟩ := exec_test step (fun rn a => quiet rn a = true) makeNetwork
    lostReply (fun rn => rn.executions.length = 1 ∧ rn.calls.map Call.client = [.returned none])
    (by decide +kernel)
  obtain ⟨once, clients⟩ := of_decide_eq_true holds
  obtain ⟨c, calls, returned⟩ := List.map_eq_singleton_iff.mp clients
  have here : rn.calls[0]? = some c := by rw [calls]; rfl
  refine ⟨rn, _, once, clients, rfl, ?_⟩
  exact quiet_returns reached here returned
    (Run.refl.tail (a := .deleteServer 7) trivial rfl)

/-- The server is deleted when the handler has begun, and `Call` returns false. -/
def lateHandler : List (Action ℕ ℕ ℕ (ℕ × Option ℕ) ℕ ℕ) :=
  addFive.take 11 ++ [.deleteServer 7, .move 0 .poll, .move 0 (.leave false), .move 0 .answer]

-- the handler still runs
example : (exec step free makeNetwork lateHandler).map (fun rn => (rn.calls.map Call.client,
    rn.executions.length)) = some ([.returned none], 0) ∧
    (exec step free makeNetwork (lateHandler ++ [.move 0 .invoke])).map (fun rn =>
      (rn.calls.map Call.client, rn.executions.length)) = some ([.returned none], 1) := by
  decide +kernel

def reliably (rn : Network E V X L A R) : Action E V X L A R → Bool
  | .reliable yes => yes
  | a => quiet rn a

omit [ToString E] in
theorem reliably_quiet (allowed : reliably rn a = true) : quiet rn a = true := by
  cases a <;> first | exact allowed | rfl

theorem reliable_stepped (yes : rn.reliable = true) (allowed : reliably rn a = true)
    (taken : step rn a = some rn') : rn'.reliable = true := by
  cases step_stepped taken with
  | reliable => exact allowed
  | move _ adv => exact (advanced_framed adv).reliable.trans yes
  | _ => exact yes

theorem certain_stepped (sound : Sound rn) (yes : rn.reliable = true)
    (steady : ∀ (k : ℕ) (c : Call E V X L A R), rn.calls[k]? = some c → Steady rn c)
    (h : ∀ (k : ℕ) (c : Call E V X L A R), rn.calls[k]? = some c → Certain c)
    (taken : step rn a = some rn') (j : ℕ) (d : Call E V X L A R)
    (here : rn'.calls[j]? = some d) : Certain d := by
  cases step_stepped taken with
  | call =>
    rcases append_cases here with before | ⟨-, rfl⟩
    · exact h j d before
    · exact ⟨nofun, nofun, fun _ => rfl⟩
  | move atK adv =>
    rcases set_cases atK _ here with ⟨-, rfl⟩ | ⟨-, before⟩
    · exact (h _ _ atK).advanced (steady _ _ atK) yes (sound.traced _ _ atK).together adv
    · exact h j d before
  | _ => exact h j d here

structure Relied (rn : Network E V X L A R) : Prop where
  reliable : rn.reliable = true
  steady : ∀ (k : ℕ) (c : Call E V X L A R), rn.calls[k]? = some c → Steady rn c
  certain : ∀ (k : ℕ) (c : Call E V X L A R), rn.calls[k]? = some c → Certain c

theorem reaches_relied (reached : Reaches (fun rn a => reliably rn a = true) rn) : Relied rn := by
  refine reached.invariant_under Sound Relied (fun h _ taken => h.stepped taken) ?_
    makeNetwork_sound ⟨rfl, fun _ _ here => (nomatch here), fun _ _ here => (nomatch here)⟩
  intro rn rn' a sound _ h allowed taken
  exact ⟨reliable_stepped h.reliable allowed taken,
    steady_stepped sound h.steady (reliably_quiet allowed) taken,
    certain_stepped sound h.reliable h.steady h.certain taken⟩

/-- In a quiet run of a reliable network the result of `Call` tells whether the request
was executed. -/
theorem reliable_returns (reached : Reaches (fun rn a => reliably rn a = true) rn) {k : ℕ}
    {c : Call E V X L A R} (here : rn.calls[k]? = some c) {reply : Option R}
    (returned : c.client = .returned reply) : ∃ server, recorded rn.executions k =
      reply.toList.map fun r => (server, c.req.svcMeth, c.req.args, some r) := by
  have sound := reaches_sound reached
  have certain := (reaches_relied reached).certain k c here
  rw [(sound.traced k c here).executed]
  have together := (sound.traced k c here).together
  obtain ⟨req, client, process, handler⟩ := c
  cases returned
  cases together with
  | gaveUp => exact ⟨0, rfl⟩
  | @returned server reply => exact ⟨server, rfl⟩
  | lost =>
    obtain rfl : handler = .absent := certain.failed (.inr rfl)
    exact ⟨0, rfl⟩

theorem reliable_returns_added : ∃ rn : Network ℕ ℕ ℕ (ℕ × Option ℕ) ℕ ℕ, ∃ server,
    recorded rn.executions 0 = [(server, "Counter.Add", 5, some 15)] := by
  obtain ⟨rn, reached, holds⟩ := exec_test step (fun rn a => reliably rn a = true) makeNetwork
    addFive (fun rn => rn.calls.map (fun c => (c.req, c.client)) =
      [(⟨0, "Counter.Add", 5⟩, .returned (some 15))]) (by decide +kernel)
  obtain ⟨c, calls, same⟩ := List.map_eq_singleton_iff.mp (of_decide_eq_true holds)
  obtain ⟨req, returned⟩ := Prod.ext_iff.mp same
  have here : rn.calls[0]? = some c := by rw [calls]; rfl
  obtain ⟨server, record⟩ := reliable_returns reached here returned
  exact ⟨rn, server, by rw [record, show c.req = ⟨0, "Counter.Add", 5⟩ from req]; rfl⟩

/-- The steps that the threads of a call have left at most, apart from those of the method. -/
def rank (c : Call E V X L A R) : ℕ :=
  (match c.client with
    | .sending => 1
    | _ => 0) +
  (match c.process with
    | .absent => 6
    | .entered => 5
    | .admitted _ => 4
    | .waiting _ => 3
    | .left _ _ => 2
    | .replying _ => 1
    | .done => 0) +
  match c.handler with
    | .absent => 5
    | .started _ => 4
    | .dispatched _ _ _ => 3
    | .running _ _ _ _ => 2
    | .ran _ _ => 1
    | .finished _ _ => 0

omit [DecidableEq E] [DecidableEq V] [ToString E] in
theorem rank_advanced {next : Network E V X L A R} {k : ℕ} {m : Move} {c c' : Call E V X L A R}
    (together : Together c.client c.process c.handler) (adv : Advanced rn k m c next c') :
    (if m = .run then 0 else 1) + rank c' ≤ rank c := by
  cases adv <;> cases together <;> simp [rank]
  all_goals omega

/-- The servers that calls wait for and the receivers of their services have been made,
and a closed network still ends the calls that it has not taken. -/
structure Placed (rn : Network E V X L A R) : Prop where
  named : ∀ servername server, rn.servers servername = some server → server < rn.heap.length
  watched : ∀ (k : ℕ) (c : Call E V X L A R) (info : Info V), rn.calls[k]? = some c →
    watches c.process = some info → info.server < rn.heap.length
  receivers : ∀ services ∈ rn.heap.map Server.services, ∀ (name : String) (svc : Service X L A R),
    services name = some svc → svc.rcvr < rn.objects.length
  serving : rn.accepting = true ∨ rn.closed = true

omit [DecidableEq E] [DecidableEq V] [ToString E] in
theorem watched_advanced {next : Network E V X L A R} {k : ℕ} {m : Move} {c c' : Call E V X L A R}
    (adv : Advanced rn k m c next c') {info : Info V} (watched : watches c'.process = some info) :
    watches c.process = some info ∨ readEndnameInfo rn c.req.endname = some info := by
  cases adv with
  | accept | refuse | drop | fail | pass | answer => cases watched
  | admitted read =>
    obtain rfl := Option.some.inj watched
    exact .inr read
  | _ => exact .inl watched

omit [DecidableEq E] [DecidableEq V] [ToString E] in
theorem addService_rcvr {services : List (Service X L A R)} {n : ℕ} {rs : Server X L A R}
    (made : ∀ svc ∈ services, svc.rcvr < n)
    (before : ∀ (name : String) (svc : Service X L A R), rs.services name = some svc → svc.rcvr < n)
    (name : String) (svc : Service X L A R)
    (found : (services.foldl Server.addService rs).services name = some svc) : svc.rcvr < n := by
  induction services generalizing rs with
  | nil => exact before name svc found
  | cons first rest ih =>
    refine ih (fun svc member => made svc (List.mem_cons_of_mem _ member)) ?_ found
    intro name svc found
    simp only [Server.addService, Function.update_apply] at found
    split at found
    · obtain rfl := Option.some.inj found
      exact made first List.mem_cons_self
    · exact before name svc found

theorem Placed.stepped (h : Placed rn) (taken : step rn a = some rn') : Placed rn' := by
  cases step_stepped taken with
  | newObject | write =>
    refine ⟨h.named, h.watched, fun services member name svc found => ?_, h.serving⟩
    refine (h.receivers services member name svc found).trans_le ?_
    simp
  | @newServer services made =>
    have grown : rn.heap.length ≤
        (rn.heap ++ [services.foldl Server.addService makeServer]).length := by simp
    refine ⟨fun v s named => (h.named v s named).trans_le grown,
      fun k c info here watched => (h.watched k c info here watched).trans_le grown, ?_, h.serving⟩
    intro map member name svc found
    rw [List.map_append, List.mem_append] at member
    rcases member with old | new
    · exact h.receivers map old name svc found
    · rw [List.mem_singleton.mp new] at found
      exact addService_rcvr made (fun _ _ absent => by cases absent) name svc found
  | @addServer servername rs made =>
    refine ⟨?_, h.watched, h.receivers, h.serving⟩
    intro v server named
    simp only [addServer, Function.update_apply] at named
    split at named
    · exact Option.some.inj named ▸ made
    · exact h.named v server named
  | @deleteServer servername =>
    refine ⟨?_, h.watched, h.receivers, h.serving⟩
    intro v server named
    simp only [deleteServer, Function.update_apply] at named
    split at named
    · cases named
    · exact h.named v server named
  | cleanup => exact ⟨h.named, h.watched, h.receivers, .inr rfl⟩
  | stop closed => exact ⟨h.named, h.watched, h.receivers, .inr closed⟩
  | call =>
    refine ⟨h.named, ?_, h.receivers, h.serving⟩
    intro k c info here watched
    rcases append_cases here with before | ⟨-, rfl⟩
    · exact h.watched k c info before watched
    · cases watched
  | @move k m c next c' atK adv =>
    have framed := advanced_framed adv
    refine ⟨?_, ?_, ?_, ?_⟩
    · intro v server named
      rw [framed.servers] at named
      exact framed.length ▸ h.named v server named
    · intro j d info here watched
      refine framed.length ▸ ?_
      rcases set_cases atK _ here with ⟨-, rfl⟩ | ⟨-, before⟩
      · rcases watched_advanced adv watched with before | read
        · exact h.watched k c info atK before
        · exact h.named _ _ (readEndnameInfo_some read).2.1
      · exact h.watched j d info before watched
    · rw [framed.services, framed.objects]
      exact h.receivers
    · rw [framed.accepting, framed.closed]
      exact h.serving
  | _ => exact ⟨h.named, h.watched, h.receivers, h.serving⟩

def movesOf (k : ℕ) (actions : List (Action E V X L A R)) : ℕ :=
  actions.countP fun a => match a with
    | .move j m => j = k ∧ m ≠ .run
    | _ => false

omit [DecidableEq E] [DecidableEq V] [ToString E] in
theorem movesOf_cons (k : ℕ) (a : Action E V X L A R) (rest : List (Action E V X L A R)) :
    movesOf k (a :: rest) = movesOf k [a] + movesOf k rest := by
  rw [movesOf, movesOf, movesOf, ← List.countP_append, List.singleton_append]

theorem rank_stepped (sound : Sound rn) (taken : step rn a = some rn') {k : ℕ}
    {c : Call E V X L A R} (here : rn.calls[k]? = some c) :
    ∃ c' : Call E V X L A R, rn'.calls[k]? = some c' ∧ movesOf k [a] + rank c' ≤ rank c := by
  cases step_stepped taken with
  | call =>
    have bound := (List.getElem?_eq_some_iff.mp here).1
    exact ⟨c, (List.getElem?_append_left bound).trans here, by simp [movesOf]⟩
  | @move j m d next d' atJ adv =>
    by_cases same : j = k
    · subst same
      obtain rfl := Option.some.inj (here.symm.trans atJ)
      have lower := rank_advanced (sound.traced j c here).together adv
      have bound := (List.getElem?_eq_some_iff.mp here).1
      refine ⟨d', List.getElem?_set_self bound, le_of_eq_of_le ?_ lower⟩
      by_cases run : m = .run <;> simp [movesOf, run]
    · exact ⟨c, (List.getElem?_set_ne same).trans here, by simp [movesOf, same]⟩
  | _ => exact ⟨c, here, by simp [movesOf]⟩

theorem exec_rank (sound : Sound rn) {actions : List (Action E V X L A R)}
    (done : exec step free rn actions = some rn') {k : ℕ} {c : Call E V X L A R}
    (here : rn.calls[k]? = some c) :
    ∃ c' : Call E V X L A R, rn'.calls[k]? = some c' ∧ movesOf k actions + rank c' ≤ rank c := by
  induction actions generalizing rn c with
  | nil =>
    obtain rfl : rn = rn' := by simpa [exec] using done
    exact ⟨c, here, by simp [movesOf]⟩
  | cons a rest ih =>
    rw [exec, if_pos (show free rn a from trivial)] at done
    obtain ⟨mid, taken, tail⟩ := Option.bind_eq_some_iff.mp done
    obtain ⟨c₁, atMid, first⟩ := rank_stepped sound taken here
    obtain ⟨c₂, atEnd, others⟩ := ih (sound.stepped taken) tail atMid
    refine ⟨c₂, atEnd, ?_⟩
    rw [movesOf_cons]
    omega

end Runs

end DistributedLabs.RpcReturns
