import DistributedLabs.RaftSafety

/-! The test configuration of the Raft lab over a running cluster. Each server
has an applier that takes the messages of its apply channel one by one, enters
them in a table that all appliers share and stops the process at the first
complaint. The channel is unbuffered, so a commit checker waits until the applier
has come back to read. An applier releases the lock of the table before it
stops the process, and others may enter messages in between. Servers are not
restarted, so tables are never reset and no snapshot is read. -/

namespace DistributedLabs.RaftTester
open GuardedRuns RaftPeer RaftCluster RaftMoves RaftVotes RaftElection RaftLedger RaftRefinement

/-- Where an applier stands: at its channel, with a message, or past the lock
with what it is about to complain of (nothing if empty). -/
inductive Hand (C : Type)
  | reading
  | received (m : ApplyMsg C)
  | checked (errMsg : String)

structure Tester (n : ℕ) (C : Type) where
  cluster : Cluster n C
  hands : Fin n → Hand C
  logs : Fin n → ℤ → Option C
  maxIndex : ℤ
  /-- The text with which `log.Fatalf` ended the process. -/
  fatal : Option String

inductive Action (n : ℕ) (C : Type)
  | cluster (a : RaftCluster.Action n C)
  | check (i : Fin n)
  | report (i : Fin n)

section Model

variable {n : ℕ} {C : Type} [DecidableEq C] [ToString C]

def makeConfig [Inhabited C] : Tester n C where
  cluster := RaftCluster.init
  hands := fun _ => .reading
  logs := fun _ _ => none
  maxIndex := 0
  fatal := none

def commitMsg (i : Fin n) (m : ApplyMsg C) (j : Fin n) (old : C) : String :=
  s!"commit index={m.commandIndex} server={i} {m.command} != server={j} {old}"

def orderMsg (i : Fin n) (m : ApplyMsg C) : String :=
  s!"server {i} apply out of order {m.commandIndex}"

def compare (t : Tester n C) (i : Fin n) (m : ApplyMsg C) (errMsg : String) (j : Fin n) : String :=
  match t.logs j m.commandIndex with
  | some old => if old ≠ m.command then commitMsg i m j old else errMsg
  | none => errMsg

def checkLogs (t : Tester n C) (i : Fin n) (m : ApplyMsg C) : Tester n C × String × Bool :=
  let errMsg := (List.finRange n).foldl (compare t i m) ""
  let prevok := (t.logs i (m.commandIndex - 1)).isSome
  ({ t with
    logs := Function.update t.logs i
      (Function.update (t.logs i) m.commandIndex (some m.command))
    maxIndex := if m.commandIndex > t.maxIndex then m.commandIndex else t.maxIndex },
    errMsg, prevok)

def Tester.setHand (t : Tester n C) (i : Fin n) (hand : Hand C) : Tester n C :=
  { t with hands := Function.update t.hands i hand }

def applier (t : Tester n C) (i : Fin n) (m : ApplyMsg C) : Tester n C :=
  if m.commandValid = false then t.setHand i .reading
  else
    let (t, errMsg, prevok) := checkLogs t i m
    let errMsg := if m.commandIndex > 1 ∧ prevok = false then orderMsg i m else errMsg
    t.setHand i (.checked errMsg)

def report (t : Tester n C) (i : Fin n) (errMsg : String) : Tester n C :=
  if errMsg ≠ "" then { t with fatal := some s!"apply error: {errMsg}" }
  else t.setHand i .reading

/-- Apart from a commit checker, which sends on its channel, the cluster runs
as it does alone. -/
def step (t : Tester n C) : Action n C → Option (Tester n C)
  | .cluster a => do
    guard (t.fatal = none)
    match a with
    | .checkerApply i =>
      match t.hands i with
      | .reading =>
        let (_, m) ← applyNext (t.cluster.raft i)
        let c ← RaftCluster.step t.cluster (.checkerApply i)
        some ({ t with cluster := c }.setHand i (.received m))
      | _ => none
    | a =>
      let c ← RaftCluster.step t.cluster a
      some { t with cluster := c }
  | .check i => do
    guard (t.fatal = none)
    match t.hands i with
    | .received m => some (applier t i m)
    | _ => none
  | .report i => do
    guard (t.fatal = none)
    match t.hands i with
    | .checked errMsg => some (report t i errMsg)
    | _ => none

def onCluster (ok : Cluster n C → RaftCluster.Action n C → Prop) (t : Tester n C) :
    Action n C → Prop
  | .cluster a => ok t.cluster a
  | .check _ | .report _ => True

instance (ok : Cluster n C → RaftCluster.Action n C → Prop) [∀ c a, Decidable (ok c a)]
    (t : Tester n C) : (a : Action n C) → Decidable (onCluster ok t a)
  | .cluster a => inferInstanceAs (Decidable (ok t.cluster a))
  | .check _ | .report _ => isTrue trivial

def Reaches [Inhabited C] (ok : Cluster n C → RaftCluster.Action n C → Prop) (t : Tester n C) :
    Prop :=
  Run step (onCluster ok) makeConfig t

def verb : Option C → String
  | some v => toString v
  | none => "<nil>"

/-- One turn of the loop of `nCommitted`, where `read i` is what the table of
server `i` holds at `index` when the loop takes the lock for it. No applier
lives to set `applyErr`. -/
def countServer (read : Fin n → Option C) (index : ℤ) :
    ℕ × Option C → Fin n → Except String (ℕ × Option C)
  | (count, cmd), i =>
    match read i with
    | some cmd1 =>
      if count > 0 ∧ cmd ≠ some cmd1 then
        .error s!"committed values do not match: index {index}, {verb cmd}, {cmd1}"
      else .ok (count + 1, some cmd1)
    | none => .ok (count, cmd)

def nCommitted (read : Fin n → Option C) (index : ℤ) : Except String (ℕ × Option C) :=
  (List.finRange n).foldlM (countServer read index) (0, none)

/-- What one round of `checkOneLeader` sees: which servers are connected, what
`GetState` returned for each, and the order in which the map of leaders is
ranged over. -/
structure Round (n : ℕ) where
  connected : Fin n → Bool
  states : Fin n → ℕ × Bool
  order : List ℕ
  ranged : ∀ term, term ∈ order ↔ ∃ i, connected i = true ∧ states i = (term, true)

def Round.leaders (r : Round n) (term : ℕ) : List (Fin n) :=
  (List.finRange n).filter fun i => r.connected i && decide (r.states i = (term, true))

def Round.visit (r : Round n) (last : ℤ) (term : ℕ) : Except String ℤ :=
  let count := (r.leaders term).length
  if count > 1 then .error s!"term {term} has {count} (>1) leaders"
  else .ok (if (term : ℤ) > last then term else last)

/-- `checkOneLeader`, which looks again as long as no server claims to lead. -/
def checkOneLeader : List (Round n) → Except String (Fin n)
  | [] => .error "expected one leader, got none"
  | r :: rest => do
    let lastTermWithLeader ← r.order.foldlM r.visit (-1)
    if r.order.length ≠ 0 then
      match r.leaders lastTermWithLeader.toNat with
      | leader :: _ => .ok leader
      | [] => .error "index out of range [0] with length 0"
    else checkOneLeader rest

end Model

section Appliers

variable {n : ℕ} {C : Type} {t t' : Tester n C}

def appliedBy (s : Fin n) (trace : List (Event n C)) : List (ApplyMsg C) :=
  trace.filterMap fun
    | .applied server m => if server = s then some m else none
    | _ => none

theorem mem_appliedBy {s : Fin n} {trace : List (Event n C)} {m : ApplyMsg C} :
    m ∈ appliedBy s trace ↔ .applied s m ∈ trace := by
  simp only [appliedBy, List.mem_filterMap]
  constructor
  · rintro ⟨event, member, found⟩
    cases event <;> simp at found
    obtain ⟨rfl, rfl⟩ := found
    exact member
  · intro member
    exact ⟨_, member, by simp⟩

theorem setPeer_lastApplied {v : View n C} {x : Fin n} {p : Peer n C}
    (same : p.lastApplied = (v.peer x).lastApplied) (s : Fin n) :
    ((v.setPeer x p).peer s).lastApplied = (v.peer s).lastApplied :=
  View.forall_setPeer (P := fun w q => q.lastApplied = (v.peer w).lastApplied) (fun _ => rfl) same s

theorem moved_lastApplied {v v' : View n C} {a : RaftCluster.Action n C} (move : Moved v a v')
    (other : ∀ i, a ≠ .checkerApply i) (s : Fin n) :
    (v'.peer s).lastApplied = (v.peer s).lastApplied := by
  cases move <;> first
    | rfl
    | exact absurd rfl (other _)
    | exact setPeer_lastApplied (by first | rfl | exact stepUp_lastApplied ..) s

theorem moved_appliedBy {v v' : View n C} {a : RaftCluster.Action n C} (move : Moved v a v')
    (other : ∀ i, a ≠ .checkerApply i) (s : Fin n) :
    appliedBy s v'.trace = appliedBy s v.trace := by
  cases move <;> first
    | rfl
    | exact absurd rfl (other _)
    | exact (List.filterMap_append ..).trans (List.append_nil _)

theorem appliedBy_snoc (s i : Fin n) (trace : List (Event n C)) (m : ApplyMsg C) :
    appliedBy s (trace ++ [.applied i m]) = appliedBy s trace ++ if i = s then [m] else [] := by
  by_cases own : i = s <;> simp [appliedBy, own]

theorem applyNext_some {rf rf' : Raft n C} {m : ApplyMsg C} (ran : applyNext rf = some (rf', m)) :
    rf'.lastApplied = rf.lastApplied + 1 ∧ m.commandValid = true ∧
      m.commandIndex = rf.lastApplied + 1 := by
  simp only [applyNext, Option.map_eq_some_iff] at ran
  obtain ⟨entry, -, same⟩ := ran
  cases same
  exact ⟨rfl, rfl, rfl⟩

/-- The table that holds the messages of `done` at indices 1, 2, 3 and so on. -/
def table (done : List (ApplyMsg C)) (index : ℤ) : Option C :=
  if 0 < index then (done[(index - 1).toNat]?).map ApplyMsg.command else none

theorem table_snoc (done : List (ApplyMsg C)) (m : ApplyMsg C) :
    table (done ++ [m]) = Function.update (table done) (done.length + 1) (some m.command) := by
  funext index
  by_cases last : index = done.length + 1
  · subst last
    have positive : (0 : ℤ) < done.length + 1 := by omega
    simp [table, positive]
  · rw [Function.update_of_ne last]
    simp only [table]
    split
    · by_cases inside : (index - 1).toNat < done.length
      · rw [List.getElem?_append_left inside]
      · rw [List.getElem?_eq_none (by simp; omega), List.getElem?_eq_none (by omega)]
    · rfl

theorem table_isSome {done : List (ApplyMsg C)} {index : ℤ} (positive : 0 < index)
    (inside : index ≤ done.length) : (table done index).isSome = true := by
  have bound : (index - 1).toNat < done.length := by omega
  rw [table, if_pos positive, List.getElem?_eq_getElem bound]
  rfl

theorem table_some {done : List (ApplyMsg C)} {index : ℤ} {v : C}
    (held : table done index = some v) :
    ∃ (k : ℕ) (m : ApplyMsg C), done[k]? = some m ∧ index = k + 1 ∧ m.command = v := by
  simp only [table] at held
  split at held
  · rename_i positive
    obtain ⟨m, found, command⟩ := Option.map_eq_some_iff.mp held
    exact ⟨_, m, found, by omega, command⟩
  · exact nomatch held

def Hand.pending : Hand C → List (ApplyMsg C)
  | .received m => [m]
  | .reading | .checked _ => []

/-- Each server sends its messages in the order of their indices, from 1 on, and
its applier has entered all of them but the one it holds. -/
structure Kept (t : Tester n C) : Prop where
  sent : ∀ i (k : ℕ) m, (appliedBy i t.cluster.trace)[k]? = some m →
    m.commandValid = true ∧ m.commandIndex = k + 1
  last : ∀ i, (t.cluster.raft i).lastApplied = (appliedBy i t.cluster.trace).length
  entered : ∀ i, ∃ done, appliedBy i t.cluster.trace = done ++ (t.hands i).pending ∧
    t.logs i = table done

theorem Kept.cluster {a : RaftCluster.Action n C} {c : Cluster n C} (h : Kept t)
    (other : ∀ i, a ≠ .checkerApply i) (taken : RaftCluster.step t.cluster a = some c) :
    Kept { t with cluster := c } := by
  have same (i : Fin n) : appliedBy i c.trace = appliedBy i t.cluster.trace :=
    moved_appliedBy (step_moved taken) other i
  refine ⟨?_, ?_, ?_⟩ <;> intro i
  · rw [same]
    exact h.sent i
  · rw [same, ← h.last]
    exact moved_lastApplied (step_moved taken) other i
  · rw [same]
    exact h.entered i

theorem Kept.send {i : Fin n} {rf : Raft n C} {m : ApplyMsg C} (h : Kept t)
    (waiting : t.hands i = .reading) (ran : applyNext (t.cluster.raft i) = some (rf, m)) :
    Kept ({ t with cluster := (t.cluster.setRaft i rf).record (.applied i m) }.setHand i
      (.received m)) := by
  obtain ⟨next, valid, position⟩ := applyNext_some ran
  refine ⟨fun j k m' found => ?_, fun j => ?_, fun j => ?_⟩ <;>
    by_cases own : i = j
  · subst own
    simp only [Tester.setHand, Cluster.record, Cluster.setRaft, appliedBy_snoc, if_true] at found
    rcases append_cases found with before | ⟨rfl, rfl⟩
    · exact h.sent i k m' before
    · exact ⟨valid, by rw [position, h.last]⟩
  · simp only [Tester.setHand, Cluster.record, Cluster.setRaft, appliedBy_snoc, if_neg own,
      List.append_nil] at found
    exact h.sent j k m' found
  · subst own
    simp [Tester.setHand, Cluster.record, Cluster.setRaft, appliedBy_snoc, next, h.last]
  · have away : ¬ j = i := fun same => own same.symm
    simp [Tester.setHand, Cluster.record, Cluster.setRaft, appliedBy_snoc, own, away, h.last]
  · subst own
    obtain ⟨done, all, logged⟩ := h.entered i
    refine ⟨done, ?_, logged⟩
    simpa [Tester.setHand, Cluster.record, Cluster.setRaft, appliedBy_snoc, Hand.pending, waiting]
      using all
  · have away : ¬ j = i := fun same => own same.symm
    simpa [Tester.setHand, Cluster.record, Cluster.setRaft, appliedBy_snoc, own, away]
      using h.entered j

theorem Kept.next {i : Fin n} {m : ApplyMsg C} (h : Kept t) (holding : t.hands i = .received m) :
    ∃ done, appliedBy i t.cluster.trace = done ++ [m] ∧ t.logs i = table done ∧
      m.commandValid = true ∧ m.commandIndex = done.length + 1 := by
  obtain ⟨done, all, logged⟩ := h.entered i
  rw [holding] at all
  have place : (appliedBy i t.cluster.trace)[done.length]? = some m := by simp [all, Hand.pending]
  exact ⟨done, all, logged, h.sent i _ m place⟩

theorem Kept.applied {i : Fin n} {index : ℤ} {v : C} (h : Kept t)
    (held : t.logs i index = some v) : .applied i ⟨true, v, index⟩ ∈ t.cluster.trace := by
  obtain ⟨done, all, logged⟩ := h.entered i
  rw [logged] at held
  obtain ⟨k, m, found, place, command⟩ := table_some held
  have sent : (appliedBy i t.cluster.trace)[k]? = some m := by
    rw [all, List.getElem?_append_left (List.getElem?_eq_some_iff.mp found).1, found]
  obtain ⟨valid, position⟩ := h.sent i k m sent
  have same : m = ⟨true, v, index⟩ := by
    rw [place, ← position, ← valid, ← command]
  exact same ▸ mem_appliedBy.mp (List.mem_of_getElem? sent)

theorem Kept.report {i : Fin n} {errMsg : String} (h : Kept t)
    (holding : t.hands i = .checked errMsg) : Kept (RaftTester.report t i errMsg) := by
  simp only [RaftTester.report]
  split
  · exact ⟨h.sent, h.last, h.entered⟩
  · refine ⟨h.sent, h.last, fun j => ?_⟩
    obtain ⟨done, all, logged⟩ := h.entered j
    refine ⟨done, ?_, logged⟩
    by_cases own : j = i
    · subst own
      simpa [Tester.setHand, Hand.pending, holding] using all
    · simpa [Tester.setHand, own] using all

/-- `errMsg` is what some applier complains of or has complained of. -/
def Raises (t : Tester n C) (errMsg : String) : Prop :=
  errMsg ≠ "" ∧ ((∃ i, t.hands i = .checked errMsg) ∨ t.fatal = some s!"apply error: {errMsg}")

theorem setHand_checked {i j : Fin n} {hand : Hand C} {errMsg : String}
    (holding : (t.setHand i hand).hands j = .checked errMsg) :
    t.hands j = .checked errMsg ∨ hand = .checked errMsg := by
  by_cases own : j = i
  · subst own
    exact .inr (by simpa [Tester.setHand] using holding)
  · exact .inl (by simpa [Tester.setHand, own] using holding)

theorem Raises.setHand {errMsg : String} (h : Raises t errMsg) {i : Fin n} (hand : Hand C)
    (other : t.hands i ≠ .checked errMsg) : Raises (t.setHand i hand) errMsg := by
  refine ⟨h.1, h.2.imp_left ?_⟩
  rintro ⟨j, holding⟩
  have apart : j ≠ i := by
    rintro rfl
    exact other holding
  exact ⟨j, by simpa [Tester.setHand, apart] using holding⟩

theorem append_ne_empty {left : String} (nonempty : left ≠ "") (right : String) :
    left ++ right ≠ "" := by
  simp [nonempty]

variable [DecidableEq C] [ToString C]

def complaint (t : Tester n C) (i : Fin n) (m : ApplyMsg C) : String :=
  (List.finRange n).foldl (compare t i m) ""

theorem Kept.applier {i : Fin n} {m : ApplyMsg C} (h : Kept t) (holding : t.hands i = .received m) :
    applier t i m = (checkLogs t i m).1.setHand i (.checked (complaint t i m)) := by
  -- the entry before is always there, so the order is never what an applier complains of
  obtain ⟨done, -, logged, valid, position⟩ := h.next holding
  have ordered : ¬ (m.commandIndex > 1 ∧ (checkLogs t i m).2.2 = false) := by
    rintro ⟨above, missing⟩
    simp only [checkLogs] at missing
    rw [logged, table_isSome (by omega) (by omega)] at missing
    exact nomatch missing
  unfold RaftTester.applier
  rw [if_neg (by simp [valid])]
  exact congrArg (fun text => (checkLogs t i m).1.setHand i (.checked text)) (if_neg ordered)

theorem Kept.check {i : Fin n} {m : ApplyMsg C} (h : Kept t) (holding : t.hands i = .received m) :
    Kept (RaftTester.applier t i m) := by
  obtain ⟨done, all, logged, -, position⟩ := h.next holding
  rw [h.applier holding]
  refine ⟨h.sent, h.last, fun j => ?_⟩
  by_cases own : j = i
  · subst own
    refine ⟨done ++ [m], ?_, ?_⟩
    · simpa [Tester.setHand, checkLogs, Hand.pending] using all
    · simp [Tester.setHand, checkLogs, table_snoc, logged, position]
  · simpa [Tester.setHand, checkLogs, own] using h.entered j

inductive Stepped (t : Tester n C) : Action n C → Tester n C → Prop
  | cluster (a : RaftCluster.Action n C) (c : Cluster n C) (other : ∀ i, a ≠ .checkerApply i)
      (taken : RaftCluster.step t.cluster a = some c) :
      Stepped t (.cluster a) { t with cluster := c }
  | send (i : Fin n) (rf : Raft n C) (m : ApplyMsg C) (waiting : t.hands i = .reading)
      (ran : applyNext (t.cluster.raft i) = some (rf, m))
      (taken : RaftCluster.step t.cluster (.checkerApply i) =
        some ((t.cluster.setRaft i rf).record (.applied i m))) :
      Stepped t (.cluster (.checkerApply i))
        ({ t with cluster := (t.cluster.setRaft i rf).record (.applied i m) }.setHand i
          (.received m))
  | check (i : Fin n) (m : ApplyMsg C) (holding : t.hands i = .received m) :
      Stepped t (.check i) (applier t i m)
  | report (i : Fin n) (errMsg : String) (running : t.fatal = none)
      (holding : t.hands i = .checked errMsg) : Stepped t (.report i) (report t i errMsg)

theorem step_send {i : Fin n} (taken : step t (.cluster (.checkerApply i)) = some t') :
    Stepped t (.cluster (.checkerApply i)) t' := by
  simp only [step, bind, Option.bind_eq_some_iff] at taken
  obtain ⟨-, -, taken⟩ := taken
  split at taken
  · rename_i waiting
    simp only [Option.bind_eq_some_iff] at taken
    obtain ⟨⟨rf, m⟩, ran, c, moved, same⟩ := taken
    cases same
    cases step_taken moved with
    | checkerApply _ rf' m' _ _ ran' =>
      cases ran.symm.trans ran'
      exact .send i rf m waiting ran moved
  · exact nomatch taken

theorem step_cluster {a : RaftCluster.Action n C} (other : ∀ i, a ≠ .checkerApply i)
    (taken : step t (.cluster a) = some t') : Stepped t (.cluster a) t' := by
  have ⟨c, moved, same⟩ : ∃ c, RaftCluster.step t.cluster a = some c ∧
      { t with cluster := c } = t' := by
    cases a <;> first
      | exact absurd rfl (other _)
      | simp only [step, bind, Option.bind_eq_some_iff, Option.some.injEq] at taken
        exact taken.choose_spec.2
  subst same
  exact .cluster a c other moved

theorem step_stepped {a : Action n C} (taken : step t a = some t') : Stepped t a t' := by
  cases a with
  | cluster a =>
    by_cases sends : ∃ i, a = .checkerApply i
    · obtain ⟨i, rfl⟩ := sends
      exact step_send taken
    · exact step_cluster (fun i same => sends ⟨i, same⟩) taken
  | check i =>
    simp only [step, bind, Option.bind_eq_some_iff] at taken
    obtain ⟨-, -, taken⟩ := taken
    split at taken
    · cases taken
      exact .check i _ ‹_›
    · exact nomatch taken
  | report i =>
    simp only [step, bind, Option.bind_eq_some_iff] at taken
    obtain ⟨_, running, taken⟩ := taken
    split at taken
    · cases taken
      exact .report i _ (guard_some.mp running) ‹_›
    · exact nomatch taken

theorem Kept.stepped {a : Action n C} (h : Kept t) (next : Stepped t a t') : Kept t' := by
  cases next with
  | cluster a c other taken => exact h.cluster other taken
  | send i rf m waiting ran taken => exact h.send waiting ran
  | check i m holding => exact h.check holding
  | report i errMsg _ holding => exact h.report holding

theorem Kept.grows {a : Action n C} (h : Kept t) (next : Stepped t a t') {i : Fin n} {index : ℤ}
    {v : C} (held : t.logs i index = some v) : t'.logs i index = some v := by
  -- a message never meets an entry of its own server
  cases next with
  | cluster a c other taken => exact held
  | send j rf m waiting ran taken => exact held
  | check j m holding =>
    obtain ⟨done, -, logged, -, position⟩ := h.next holding
    rw [h.applier holding]
    by_cases own : i = j
    · subst own
      have apart : index ≠ m.commandIndex := by
        rintro rfl
        rw [logged, position] at held
        obtain ⟨k, m', found, place, -⟩ := table_some held
        have bound := (List.getElem?_eq_some_iff.mp found).1
        omega
      simpa [Tester.setHand, checkLogs, apart] using held
    · simpa [Tester.setHand, checkLogs, own] using held
  | report j errMsg running holding =>
    simp only [RaftTester.report]
    split <;> exact held

/-- Two tables differ at an index, and `errMsg` says so. -/
def Disputed (t : Tester n C) (errMsg : String) : Prop :=
  ∃ i j m old, t.logs i m.commandIndex = some m.command ∧ t.logs j m.commandIndex = some old ∧
    old ≠ m.command ∧ errMsg = commitMsg i m j old

omit [DecidableEq C] in
theorem commitMsg_ne_empty (i j : Fin n) (m : ApplyMsg C) (old : C) : commitMsg i m j old ≠ "" := by
  unfold commitMsg
  repeat refine append_ne_empty ?_ _
  decide

theorem foldl_compare (i : Fin n) (m : ApplyMsg C) (servers : List (Fin n)) (errMsg : String) :
    (servers.foldl (compare t i m) errMsg = errMsg ∧
      ∀ j ∈ servers, ∀ old, t.logs j m.commandIndex = some old → old = m.command) ∨
    ∃ j old, t.logs j m.commandIndex = some old ∧ old ≠ m.command ∧
      servers.foldl (compare t i m) errMsg = commitMsg i m j old := by
  induction servers generalizing errMsg with
  | nil => exact .inl ⟨rfl, by simp⟩
  | cons j rest ih =>
    rw [List.foldl_cons]
    rcases ih (compare t i m errMsg j) with ⟨kept, agree⟩ | differs
    · rw [kept]
      simp only [compare]
      split
      · rename_i old held
        split
        · rename_i apart
          exact .inr ⟨j, old, held, apart, rfl⟩
        · rename_i same
          refine .inl ⟨rfl, fun k member other found => ?_⟩
          rcases List.mem_cons.mp member with rfl | later
          · rw [held] at found
            exact (Option.some.inj found) ▸ not_not.mp same
          · exact agree k later other found
      · rename_i empty
        refine .inl ⟨rfl, fun k member other found => ?_⟩
        rcases List.mem_cons.mp member with rfl | later
        · exact nomatch empty.symm.trans found
        · exact agree k later other found
    · exact .inr differs

theorem Raises.stepped {a : Action n C} {errMsg : String} (h : Kept t) (raised : Raises t errMsg)
    (next : Stepped t a t') : Raises t' errMsg := by
  cases next with
  | cluster a c other taken => exact raised
  | send i rf m waiting ran taken =>
    exact Raises.setHand (t := { t with cluster := _ }) raised _ (by simp [waiting])
  | check i m holding =>
    rw [h.applier holding]
    exact Raises.setHand (t := (checkLogs t i m).1) raised _ (by simp [checkLogs, holding])
  | report i errMsg' running holding =>
    simp only [RaftTester.report]
    by_cases own : errMsg' = errMsg
    · subst own
      rw [if_pos raised.1]
      exact ⟨raised.1, .inr rfl⟩
    · split
      · obtain ⟨nonempty, pending | reported⟩ := raised
        · exact ⟨nonempty, .inl pending⟩
        · exact nomatch running.symm.trans reported
      · exact raised.setHand _ (by simpa [holding] using own)

theorem raised_cases {a : Action n C} {errMsg : String} (h : Kept t) (next : Stepped t a t')
    (raised : Raises t' errMsg) :
    Raises t errMsg ∨ ∃ i m, t' = (checkLogs t i m).1.setHand i (.checked (complaint t i m)) ∧
      errMsg = complaint t i m := by
  obtain ⟨nonempty, pending⟩ := raised
  cases next with
  | cluster a c other taken => exact .inl ⟨nonempty, pending⟩
  | send i rf m waiting ran taken =>
    refine .inl ⟨nonempty, pending.imp_left ?_⟩
    rintro ⟨j, holding⟩
    exact ⟨j, (setHand_checked holding).resolve_right nofun⟩
  | check i m holding =>
    rw [h.applier holding] at pending
    rcases pending with ⟨j, held⟩ | reported
    · rcases setHand_checked held with before | new
      · exact .inl ⟨nonempty, .inl ⟨j, before⟩⟩
      · injection new with new
        exact .inr ⟨i, m, h.applier holding, new.symm⟩
    · exact .inl ⟨nonempty, .inr reported⟩
  | report i errMsg' running holding =>
    refine .inl ⟨nonempty, ?_⟩
    simp only [RaftTester.report] at pending
    split at pending
    · rcases pending with held | reported
      · exact .inl held
      · obtain rfl : errMsg' = errMsg := by simpa [toString] using reported
        exact .inl ⟨i, holding⟩
    · refine pending.imp_left ?_
      rintro ⟨j, held⟩
      exact ⟨j, (setHand_checked held).resolve_right nofun⟩

/-- What the appliers complain of is a difference between two tables, and no
difference escapes them. -/
structure Exact (t : Tester n C) : Prop where
  honest : ∀ errMsg, Raises t errMsg → Disputed t errMsg
  agree : (∀ errMsg, ¬ Raises t errMsg) → ∀ i j index v w, t.logs i index = some v →
    t.logs j index = some w → v = w

theorem Disputed.stepped {a : Action n C} {errMsg : String} (h : Kept t)
    (disputed : Disputed t errMsg) (next : Stepped t a t') : Disputed t' errMsg := by
  obtain ⟨i, j, m, old, left, right, apart, text⟩ := disputed
  exact ⟨i, j, m, old, h.grows next left, h.grows next right, apart, text⟩

theorem checkLogs_logs {i j : Fin n} {m : ApplyMsg C} {index : ℤ} {v : C}
    (held : (checkLogs t i m).1.logs j index = some v) :
    t.logs j index = some v ∨ (j = i ∧ index = m.commandIndex ∧ v = m.command) := by
  by_cases own : j = i
  · subst own
    by_cases here : index = m.commandIndex
    · subst here
      exact .inr ⟨rfl, rfl, by simpa [checkLogs, eq_comm] using held⟩
    · exact .inl (by simpa [checkLogs, here] using held)
  · exact .inl (by simpa [checkLogs, own] using held)

theorem logs_cases {a : Action n C} (h : Kept t) (next : Stepped t a t') :
    t'.logs = t.logs ∨ ∃ i m, t.hands i = .received m ∧
      t' = (checkLogs t i m).1.setHand i (.checked (complaint t i m)) := by
  cases next with
  | cluster a c other taken => exact .inl rfl
  | send i rf m waiting ran taken => exact .inl rfl
  | check i m holding => exact .inr ⟨i, m, holding, h.applier holding⟩
  | report i errMsg running holding =>
    refine .inl ?_
    simp only [RaftTester.report]
    split <;> rfl

theorem Exact.honest_stepped {a : Action n C} {errMsg : String} (kept : Kept t) (h : Exact t)
    (next : Stepped t a t') (raised : Raises t' errMsg) : Disputed t' errMsg := by
  rcases raised_cases kept next raised with before | ⟨i, m, rfl, rfl⟩
  · exact (h.honest _ before).stepped kept next
  · rcases foldl_compare i m (List.finRange n) "" with ⟨silent, -⟩ | ⟨j, old, held, apart, text⟩
    · exact absurd silent raised.1
    · refine ⟨i, j, m, old, ?_, kept.grows next held, apart, text⟩
      simp [Tester.setHand, checkLogs]

theorem Exact.agree_stepped {a : Action n C} (kept : Kept t) (h : Exact t) (next : Stepped t a t')
    (silent : ∀ errMsg, ¬ Raises t' errMsg) {i j : Fin n} {index : ℤ} {v w : C}
    (left : t'.logs i index = some v) (right : t'.logs j index = some w) : v = w := by
  have agree := h.agree fun errMsg raised => silent errMsg (raised.stepped kept next)
  rcases logs_cases kept next with same | ⟨x, m, holding, rfl⟩
  · rw [same] at left right
    exact agree i j index v w left right
  · have quiet : complaint t x m = "" := by
      by_contra nonempty
      exact silent _ ⟨nonempty, .inl ⟨x, by simp [Tester.setHand]⟩⟩
    -- no table of a server differs from the new entry
    have fits (y : Fin n) (old : C) (held : t.logs y m.commandIndex = some old) :
        old = m.command := by
      rcases foldl_compare x m (List.finRange n) "" with ⟨-, same⟩ | ⟨y, old, -, -, text⟩
      · exact same y (List.mem_finRange y) old held
      · exact absurd (text.symm.trans quiet) (commitMsg_ne_empty x y m old)
    rcases checkLogs_logs left with oldLeft | ⟨-, rfl, rfl⟩ <;>
      rcases checkLogs_logs right with oldRight | ⟨-, atRight, rfl⟩
    · exact agree i j index v w oldLeft oldRight
    · subst atRight
      exact fits i v oldLeft
    · exact (fits j w oldRight).symm
    · rfl

variable [Inhabited C]

omit [DecidableEq C] [ToString C] in
theorem makeConfig_kept : Kept (makeConfig : Tester n C) where
  sent := by simp [makeConfig, RaftCluster.init, appliedBy]
  last := by simp [makeConfig, RaftCluster.init, appliedBy, make]
  entered := fun _ => ⟨[], rfl, funext fun index => by simp [makeConfig, table]⟩

omit [DecidableEq C] in
theorem makeConfig_exact : Exact (makeConfig : Tester n C) where
  honest := by
    rintro errMsg ⟨-, ⟨i, holding⟩ | reported⟩
    · exact nomatch holding
    · exact nomatch reported
  agree := fun _ _ _ _ _ _ held => nomatch held

theorem reaches_kept {ok : Cluster n C → RaftCluster.Action n C → Prop} (run : Reaches ok t) :
    Kept t :=
  run.invariant Kept (fun h _ taken => h.stepped (step_stepped taken)) makeConfig_kept

theorem reaches_exact {ok : Cluster n C → RaftCluster.Action n C → Prop} (run : Reaches ok t) :
    Exact t := by
  refine run.invariant_under Kept Exact (fun h _ taken => h.stepped (step_stepped taken)) ?_
    makeConfig_kept makeConfig_exact
  intro t u a kept _ h _ taken
  exact ⟨fun _ => h.honest_stepped kept (step_stepped taken),
    fun silent _ _ _ _ _ => h.agree_stepped kept (step_stepped taken) silent⟩

/-- The appliers complain when two servers applied different commands at an
index, and only then; never of the order of the messages. -/
theorem appliers_exact {ok : Cluster n C → RaftCluster.Action n C → Prop} (run : Reaches ok t) :
    ((∃ errMsg, Raises t errMsg) ↔ ∃ i j index v w, t.logs i index = some v ∧
      t.logs j index = some w ∧ v ≠ w) ∧
    (∀ errMsg, Raises t errMsg → ∃ i j index v w, v ≠ w ∧
      .applied i ⟨true, v, index⟩ ∈ t.cluster.trace ∧
      .applied j ⟨true, w, index⟩ ∈ t.cluster.trace ∧
      errMsg = commitMsg i ⟨true, v, index⟩ j w) := by
  have kept := reaches_kept run
  have watched := reaches_exact run
  refine ⟨⟨?_, ?_⟩, ?_⟩
  · rintro ⟨errMsg, raised⟩
    obtain ⟨i, j, m, old, left, right, apart, -⟩ := watched.honest errMsg raised
    exact ⟨i, j, m.commandIndex, m.command, old, left, right, apart.symm⟩
  · rintro ⟨i, j, index, v, w, left, right, apart⟩
    by_contra silent
    exact apart (watched.agree (not_exists.mp silent) i j index v w left right)
  · intro errMsg raised
    obtain ⟨i, j, m, old, left, right, apart, text⟩ := watched.honest errMsg raised
    exact ⟨i, j, m.commandIndex, m.command, old, apart.symm, kept.applied left,
      kept.applied right, text⟩

def hand (s : Fin n) (k : ℕ) : List (Action n C) :=
  [.cluster (.checkerTest s), .cluster (.checkerLock s)] ++
    (List.replicate k [.cluster (.checkerApply s), .check s, .report s]).flatten

/-- Server 1 applies the copy of the first entry where server 0 applied the second. -/
theorem appliers_exact_resent : ∃ t : Tester 2 ℕ, Reaches free t ∧ t.logs 0 2 = some 8 ∧
    t.logs 1 2 = some 7 ∧ ∃ errMsg, Raises t errMsg := by
  obtain ⟨t, run, both⟩ := exec_test step (onCluster free) (makeConfig : Tester 2 ℕ)
    (List.flatten [RaftSafety.committed.map .cluster, hand 0 2, [.cluster (.checkerUnlock 0)],
      (beat 0 0).map .cluster, (RaftSafety.exchange 0).map .cluster, hand 1 1,
      [.cluster (.checkerApply 1), .check 1]])
    (fun t => t.logs 0 2 = some 8 ∧ t.logs 1 2 = some 7) (by decide)
  obtain ⟨left, right⟩ := of_decide_eq_true both
  exact ⟨t, run, left, right, (appliers_exact run).1.mpr ⟨0, 1, 2, 8, 7, left, right, by decide⟩⟩

end Appliers

section Counts

variable {n : ℕ} {C : Type} [DecidableEq C] [ToString C] {t t' : Tester n C}

theorem cluster_run {ok : Cluster n C → RaftCluster.Action n C → Prop}
    (run : Run step (onCluster ok) t t') : Run RaftCluster.step ok t.cluster t'.cluster := by
  refine run.invariant (fun u => Run RaftCluster.step ok t.cluster u.cluster) ?_ .refl
  intro u u' a before allowed taken
  cases step_stepped taken with
  | cluster a c other moved => exact before.tail allowed moved
  | send i rf m waiting ran moved => exact before.tail allowed moved
  | check i m holding =>
    simp only [applier]
    split <;> exact before
  | report i errMsg running holding =>
    simp only [report]
    split <;> exact before

theorem run_logs {ok : Cluster n C → RaftCluster.Action n C → Prop} (kept : Kept t)
    (run : Run step (onCluster ok) t t') {i : Fin n} {index : ℤ} {v : C}
    (held : t.logs i index = some v) : t'.logs i index = some v := by
  refine run.invariant_under Kept (fun u => u.logs i index = some v)
    (fun h _ taken => h.stepped (step_stepped taken)) ?_ kept held
  intro u u' a kept _ before _ taken
  exact kept.grows (step_stepped taken) before

def holders (t : Tester n C) (index : ℤ) : ℕ :=
  (List.finRange n).countP fun i => (t.logs i index).isSome

theorem foldlM_countServer {read : Fin n → Option C} {agreed : Option C}
    (same : ∀ i v, read i = some v → agreed = some v) (index : ℤ) (servers : List (Fin n))
    (count : ℕ) :
    servers.foldlM (countServer read index) (count, if count = 0 then none else agreed) =
      .ok (count + servers.countP fun i => (read i).isSome,
        if count + servers.countP (fun i => (read i).isSome) = 0 then none else agreed) := by
  induction servers generalizing count with
  | nil => rfl
  | cons i rest ih =>
    cases held : read i with
    | none =>
      have turn (start : ℕ × Option C) : countServer read index start i = .ok start := by
        simp [countServer, held]
      rw [List.foldlM_cons, turn, List.countP_cons_of_neg (by simp [held])]
      exact ih count
    | some v =>
      have turn : countServer read index (count, if count = 0 then none else agreed) i =
          .ok (count + 1, if count + 1 = 0 then none else agreed) := by
        have unequal : ¬ (count > 0 ∧ (if count = 0 then none else agreed) ≠ some v) := by
          rintro ⟨positive, differs⟩
          rw [if_neg (by omega), same i v held] at differs
          exact differs rfl
        simp only [countServer, held]
        rw [if_neg unequal, if_neg (by omega), same i v held]
      rw [List.foldlM_cons, turn, List.countP_cons_of_pos (by simp [held]), ← Nat.add_assoc,
        Nat.add_right_comm]
      exact ih (count + 1)

variable [Inhabited C]

theorem orderly_silent (run : Reaches Orderly t) (errMsg : String) : ¬ Raises t errMsg := by
  intro raised
  have kept := reaches_kept run
  obtain ⟨i, j, m, old, left, right, apart, -⟩ := (reaches_exact run).honest errMsg raised
  obtain ⟨-, L, coupled⟩ := reaches_coupled (cluster_run run)
  obtain ⟨k, e, position, command, decided⟩ := coupled.fits _ (kept.applied left)
  obtain ⟨k', e', position', command', decided'⟩ := coupled.fits _ (kept.applied right)
  obtain rfl : k = k' := Int.ofNat.inj (position.symm.trans position')
  have same : e' = e := coupled.valid.decided_unique decided' decided
  exact apart (command'.trans ((congrArg LogEntry.command same).trans command.symm))

/-- In an orderly run no applier complains, and the count of the servers that
have committed an index never meets two commands, whatever the servers do
between the reads. It lies between the numbers at its start and at its end, and
its command is the one that any server ever has at the index. -/
theorem orderly_nCommitted {first last : Tester n C} {moments : Fin n → Tester n C}
    (run : Reaches Orderly first) (before : ∀ i, Run step (onCluster Orderly) first (moments i))
    (after : ∀ i, Run step (onCluster Orderly) (moments i) last)
    (whole : Run step (onCluster Orderly) first last) (index : ℤ) :
    (∀ errMsg, ¬ Raises last errMsg) ∧ ∃ count cmd,
      nCommitted (fun i => (moments i).logs i index) index = .ok (count, cmd) ∧
      holders first index ≤ count ∧ count ≤ holders last index ∧
      (0 < count → ∀ i v, last.logs i index = some v → cmd = some v) := by
  have silent := orderly_silent (run.trans whole)
  have agree := (reaches_exact (run.trans whole)).agree silent
  have later (i : Fin n) {v : C} (held : (moments i).logs i index = some v) :
      last.logs i index = some v :=
    run_logs (reaches_kept (run.trans (before i))) (after i) held
  have ⟨agreed, same⟩ : ∃ agreed : Option C, ∀ i v, last.logs i index = some v →
      agreed = some v := by
    by_cases known : ∃ i v, last.logs i index = some v
    · obtain ⟨i, v, held⟩ := known
      exact ⟨some v, fun j w other => congrArg some (agree i j index v w held other)⟩
    · exact ⟨none, fun i v held => absurd ⟨i, v, held⟩ known⟩
  have counted := foldlM_countServer (fun i v held => same i v (later i held)) index
    (List.finRange n) 0
  rw [Nat.zero_add] at counted
  refine ⟨silent, _, _, counted, ?_, ?_, ?_⟩
  · refine List.countP_mono_left fun i _ holds => ?_
    obtain ⟨v, held⟩ := Option.isSome_iff_exists.mp holds
    exact Option.isSome_iff_exists.mpr ⟨v, run_logs (reaches_kept run) (before i) held⟩
  · refine List.countP_mono_left fun i _ holds => ?_
    obtain ⟨v, held⟩ := Option.isSome_iff_exists.mp holds
    exact Option.isSome_iff_exists.mpr ⟨v, later i held⟩
  · intro positive i v held
    rw [if_neg (by omega)]
    exact same i v held

/-- Server 0 commits an entry that server 1 has not heard of yet. -/
theorem orderly_nCommitted_leader : ∃ t : Tester 2 ℕ, Reaches Orderly t ∧ holders t 1 = 1 ∧
    nCommitted (fun i => t.logs i 1) 1 = .ok (1, some 7) := by
  obtain ⟨t, run, both⟩ := exec_test step (onCluster Orderly) (makeConfig : Tester 2 ℕ)
    (List.flatten [(RaftSafety.election 0 1 0).map .cluster, [.cluster (.start 0 7)],
      (beat 0 0).map .cluster, (RaftSafety.exchange 1).map .cluster, hand 0 1])
    (fun t => t.logs 0 1 = some 7 ∧ holders t 1 = 1) (by decide)
  obtain ⟨held, one⟩ := of_decide_eq_true both
  obtain ⟨-, count, cmd, counted, lower, upper, decided⟩ :=
    orderly_nCommitted run (fun _ => .refl) (fun _ => .refl) .refl 1
  obtain rfl : count = 1 := by omega
  rw [decided one_pos 0 7 held] at counted
  exact ⟨t, run, one, counted⟩

end Counts

section Leaders

variable {n : ℕ}

theorem leaders_length {r : Round n} {term : ℕ}
    (unique : ∀ i j, r.states i = (term, true) → r.states j = (term, true) → i = j) :
    (r.leaders term).length ≤ 1 := by
  have nodup : (r.leaders term).Nodup := (List.nodup_finRange n).filter _
  have claims : ∀ i ∈ r.leaders term, r.states i = (term, true) := by
    intro i member
    have both := (List.mem_filter.mp member).2
    simp only [Bool.and_eq_true, decide_eq_true_eq] at both
    exact both.2
  match found : r.leaders term with
  | [] => simp
  | [_] => simp
  | i :: j :: rest =>
    rw [found] at nodup claims
    have same := unique i j (claims i (by simp)) (claims j (by simp))
    simp [same] at nodup

theorem foldlM_visit {r : Round n} {terms : List ℕ}
    (single : ∀ term ∈ terms, (r.leaders term).length ≤ 1) (last : ℤ) :
    ∃ top, terms.foldlM r.visit last = .ok top ∧ last ≤ top ∧
      (top = last ∨ ∃ term ∈ terms, top = term) ∧ ∀ term ∈ terms, (term : ℤ) ≤ top := by
  induction terms generalizing last with
  | nil => exact ⟨last, rfl, le_rfl, .inl rfl, by simp⟩
  | cons term rest ih =>
    have turn : r.visit last term = .ok (max last term) := by
      have few := single term (by simp)
      simp only [Round.visit, if_neg (not_lt.mpr few)]
      congr 1
      split <;> omega
    obtain ⟨top, done, above, reached, bound⟩ :=
      ih (fun other member => single other (List.mem_cons_of_mem _ member)) (max last term)
    refine ⟨top, ?_, by omega, ?_, ?_⟩
    · rw [List.foldlM_cons, turn]
      exact done
    · rcases reached with rfl | ⟨other, member, rfl⟩
      · rcases max_choice last (term : ℤ) with same | same
        · exact .inl same
        · exact .inr ⟨term, by simp, same⟩
      · exact .inr ⟨other, List.mem_cons_of_mem _ member, rfl⟩
    · intro other member
      rcases List.mem_cons.mp member with rfl | later
      · omega
      · exact bound other later

theorem mem_leaders {r : Round n} {term : ℕ} {i : Fin n} :
    i ∈ r.leaders term ↔ r.connected i = true ∧ r.states i = (term, true) := by
  simp [Round.leaders]

theorem Round.leader {r : Round n} (claimed : r.order ≠ [])
    (unique : ∀ term i j, r.states i = (term, true) → r.states j = (term, true) → i = j)
    (rest : List (Round n)) :
    ∃ leader, checkOneLeader (r :: rest) = .ok leader ∧ r.connected leader = true ∧
      (r.states leader).2 = true ∧ ∀ i, r.connected i = true → (r.states i).2 = true →
        i ≠ leader → (r.states i).1 < (r.states leader).1 := by
  obtain ⟨top, done, -, reached, bound⟩ :=
    foldlM_visit (fun term (_ : term ∈ r.order) => leaders_length (unique term)) (-1)
  obtain ⟨term, member, rfl⟩ : ∃ term ∈ r.order, top = term := by
    refine reached.resolve_left ?_
    rintro rfl
    obtain ⟨term, member⟩ := List.exists_mem_of_ne_nil _ claimed
    have := bound term member
    omega
  obtain ⟨i, connected, leads⟩ := (r.ranged term).mp member
  cases found : r.leaders term with
  | nil =>
    have listed := mem_leaders.mpr ⟨connected, leads⟩
    rw [found] at listed
    exact nomatch listed
  | cons leader others =>
    obtain ⟨linked, state⟩ : r.connected leader = true ∧ r.states leader = (term, true) :=
      mem_leaders.mp (by simp [found])
    refine ⟨leader, ?_, linked, by rw [state], ?_⟩
    · simp only [checkOneLeader, done]
      simp [bind, Except.bind, claimed, found]
    · intro j attached leading apart
      have here : r.states j = ((r.states j).1, true) := Prod.ext rfl leading
      have below := bound _ ((r.ranged _).mpr ⟨j, attached, here⟩)
      rw [state]
      refine lt_of_le_of_ne (by exact_mod_cast below) fun same => apart ?_
      exact unique term j leader (Prod.ext same leading) state

variable {C : Type} [Inhabited C]

/-- The servers were asked one after the other, while the cluster went on. -/
def Polled (C : Type) [Inhabited C] (r : Round n) : Prop :=
  ∃ moments : Fin n → Cluster n C, (∀ i, RaftCluster.Reaches CountsOwnTerm (moments i)) ∧
    (∀ i j, i ≤ j → Run RaftCluster.step CountsOwnTerm (moments i) (moments j)) ∧
    ∀ i, r.states i = getState ((moments i).raft i)

theorem Polled.unique {r : Round n} (polled : Polled C r) {term : ℕ} {i j : Fin n}
    (left : r.states i = (term, true)) (right : r.states j = (term, true)) : i = j := by
  obtain ⟨moments, reached, runs, read⟩ := polled
  -- both claims are on the trace of the later of the two moments
  have won {x y : Fin n} (before : x ≤ y) (leads : r.states x = (term, true)) :
      Won (moments y).trace x term := by
    rw [read] at leads
    obtain ⟨current, leading⟩ := Prod.mk.inj leads
    obtain ⟨log, became⟩ := (reaches_leadership (reached x)).recorded x (of_decide_eq_true leading)
    have elected := reaches_elected (reached x) x _ log became
    rw [← current]
    exact elected.mono (run_trace (runs x y before))
  rcases le_total i j with before | before
  · exact (reaches_ballots (reached j)).won_unique (won before left) (won le_rfl right)
  · exact (reaches_ballots (reached i)).won_unique (won le_rfl left) (won before right)

/-- When no votes are counted in a later term than their own, the search for a
leader never finds two of one term. It names the only connected server that
leads in the highest term claimed, or finds that no connected server leads. -/
theorem checkOneLeader_finds {rounds : List (Round n)} (polled : ∀ r ∈ rounds, Polled C r) :
    (checkOneLeader rounds = .error "expected one leader, got none" ∧
      ∀ r ∈ rounds, ∀ i, r.connected i = true → (r.states i).2 = false) ∨
    ∃ r ∈ rounds, ∃ leader, checkOneLeader rounds = .ok leader ∧ r.connected leader = true ∧
      (r.states leader).2 = true ∧ ∀ i, r.connected i = true → (r.states i).2 = true →
        i ≠ leader → (r.states i).1 < (r.states leader).1 := by
  induction rounds with
  | nil => exact .inl ⟨rfl, by simp⟩
  | cons r rest ih =>
    by_cases claimed : r.order = []
    · have skip : checkOneLeader (r :: rest) = checkOneLeader rest := by
        simp [checkOneLeader, claimed, bind, Except.bind, pure, Except.pure]
      have nobody (i : Fin n) (connected : r.connected i = true) : (r.states i).2 = false := by
        by_contra leads
        have state : r.states i = ((r.states i).1, true) := Prod.ext rfl (by simpa using leads)
        have listed := (r.ranged _).mpr ⟨i, connected, state⟩
        rw [claimed] at listed
        exact nomatch listed
      rw [skip]
      rcases ih fun other member => polled other (List.mem_cons_of_mem _ member) with
        ⟨none, all⟩ | ⟨other, member, found⟩
      · exact .inl ⟨none, List.forall_mem_cons.mpr ⟨nobody, all⟩⟩
      · exact .inr ⟨other, List.mem_cons_of_mem _ member, found⟩
    · have own := polled r (by simp)
      exact .inr ⟨r, by simp, r.leader claimed (fun _ _ _ => own.unique) rest⟩

def oneLeads : Round 2 where
  connected := fun _ => true
  states := ![(1, false), (1, true)]
  order := [1]
  ranged := by simp [Fin.exists_fin_two, eq_comm]

theorem checkOneLeader_finds_two_peers : Polled ℕ oneLeads ∧
    ∃ leader, checkOneLeader [oneLeads] = .ok leader ∧ (oneLeads.states leader).2 = true := by
  obtain ⟨c, run, both⟩ := exec_test RaftCluster.step CountsOwnTerm
    (RaftCluster.init : Cluster 2 ℕ) (List.flatten [timeout 1, poll 1 0 0, tally 1 0])
    (fun c => getState (c.raft 0) = (1, false) ∧ getState (c.raft 1) = (1, true)) (by decide)
  obtain ⟨follows, leads⟩ := of_decide_eq_true both
  have polled : Polled ℕ oneLeads := by
    refine ⟨fun _ => c, fun _ => run, fun _ _ _ => .refl, fun i => ?_⟩
    fin_cases i
    · exact follows.symm
    · exact leads.symm
  refine ⟨polled, ?_⟩
  rcases checkOneLeader_finds (by simpa using polled : ∀ r ∈ [oneLeads], Polled ℕ r) with
    ⟨-, nobody⟩ | ⟨r, member, leader, found, -, leading, -⟩
  · exact nomatch nobody oneLeads (by simp) 1 rfl
  · obtain rfl := List.mem_singleton.mp member
    exact ⟨leader, found, leading⟩

end Leaders

end DistributedLabs.RaftTester
