import Mathlib.Data.Finset.Card
import Mathlib.Data.Fintype.Card
import Mathlib.Tactic

/-! Runs of a partial step function over labelled actions. A run may carry a
guard on the states in which each action is taken; an unguarded run is the
guard that is always true. Nothing here knows what the states are. The last parts
read lists that a step has changed in one place, and count members of a finite
set, for votes and majorities. -/

namespace DistributedLabs.GuardedRuns

def free {S A : Type*} : S → A → Prop := fun _ _ => True

/-- `Run step ok s t`: `t` is reached from `s` by steps whose pre-state and
action satisfy `ok`. -/
inductive Run {S A : Type*} (step : S → A → Option S) (ok : S → A → Prop) (s : S) : S → Prop
  | refl : Run step ok s s
  | tail {t u : S} {a : A} : Run step ok s t → ok t a → step t a = some u → Run step ok s u

variable {S A : Type*} {step : S → A → Option S} {ok : S → A → Prop}

theorem Run.trans {s t u : S} (first : Run step ok s t) (second : Run step ok t u) :
    Run step ok s u := by
  induction second with
  | refl => exact first
  | tail _ allowed taken ih => exact ih.tail allowed taken

theorem Run.mono {ok' : S → A → Prop} (weaker : ∀ s a, ok s a → ok' s a) {s t : S}
    (run : Run step ok s t) : Run step ok' s t := by
  induction run with
  | refl => exact .refl
  | tail _ allowed taken ih => exact ih.tail (weaker _ _ allowed) taken

theorem Run.invariant (inv : S → Prop)
    (keep : ∀ {t u : S} {a : A}, inv t → ok t a → step t a = some u → inv u)
    {s t : S} (run : Run step ok s t) (start : inv s) : inv t := by
  induction run with
  | refl => exact start
  | tail _ allowed taken ih => exact keep ih allowed taken

/-- An invariant whose step needs a second one already known along the run. -/
theorem Run.invariant_under (known inv : S → Prop)
    (keepKnown : ∀ {t u : S} {a : A}, known t → ok t a → step t a = some u → known u)
    (keep : ∀ {t u : S} {a : A}, known t → known u → inv t → ok t a → step t a = some u → inv u)
    {s t : S} (run : Run step ok s t) (startKnown : known s) (start : inv s) : inv t := by
  have both : known t ∧ inv t := by
    refine run.invariant (fun t => known t ∧ inv t) ?_ ⟨startKnown, start⟩
    rintro t u a ⟨hk, hi⟩ allowed taken
    have next := keepKnown hk allowed taken
    exact ⟨next, keep hk next hi allowed taken⟩
  exact both.2

theorem Run.relates (rel : S → S → Prop) (same : ∀ s, rel s s)
    (chain : ∀ {s t u : S}, rel s t → rel t u → rel s u)
    (keep : ∀ {t u : S} {a : A}, ok t a → step t a = some u → rel t u)
    {s t : S} (run : Run step ok s t) : rel s t := by
  induction run with
  | refl => exact same _
  | tail _ allowed taken ih => exact chain ih (keep allowed taken)

theorem guard_some {P : Prop} [Decidable P] {u : Unit} : (guard P : Option Unit) = some u ↔ P := by
  by_cases h : P <;> simp [guard, h]

instance {s : S} {a : A} : Decidable (free s a) := isTrue trivial

def exec (step : S → A → Option S) (ok : S → A → Prop) [∀ s a, Decidable (ok s a)] :
    S → List A → Option S
  | s, [] => some s
  | s, a :: rest => if ok s a then (step s a).bind fun t => exec step ok t rest else none

theorem exec_run [∀ s a, Decidable (ok s a)] {s t : S} {actions : List A}
    (done : exec step ok s actions = some t) : Run step ok s t := by
  induction actions generalizing s with
  | nil =>
    obtain rfl : s = t := by simpa [exec] using done
    exact .refl
  | cons a rest ih =>
    unfold exec at done
    split at done
    · rename_i allowed
      obtain ⟨u, taken, tail⟩ := Option.bind_eq_some_iff.mp done
      exact (Run.refl.tail allowed taken).trans (ih tail)
    · exact absurd done.symm (Option.some_ne_none t)

theorem exec_test (step : S → A → Option S) (ok : S → A → Prop) [∀ s a, Decidable (ok s a)]
    (s : S) (actions : List A) (test : S → Bool)
    (done : (exec step ok s actions).map test = some true) :
    ∃ t, Run step ok s t ∧ test t = true := by
  obtain ⟨t, reached, holds⟩ := Option.map_eq_some_iff.mp done
  exact ⟨t, exec_run reached, holds⟩

/-- Whatever steps are taken, `goal` holds after finitely many of them. -/
inductive Eventually (step : S → A → Option S) (goal : S → Prop) : S → Prop
  | now {s : S} : goal s → Eventually step goal s
  | later {s : S} : (∃ a, step s a ≠ none) →
      (∀ a t, step s a = some t → Eventually step goal t) → Eventually step goal s

theorem eventually_of_bound {goal : S → Prop} (inv : S → ℕ → Prop)
    (keep : ∀ {s t : S} {n : ℕ} {a : A}, inv s n → step s a = some t → ∃ m < n, inv t m)
    (ends : ∀ {s : S} {n : ℕ}, inv s n → (∀ a, step s a = none) → goal s) {s : S} {n : ℕ}
    (start : inv s n) : Eventually step goal s := by
  induction n using Nat.strong_induction_on generalizing s with
  | _ n ih =>
    by_cases stuck : ∀ a, step s a = none
    · exact .now (ends start stuck)
    · push Not at stuck
      refine .later stuck fun a t taken => ?_
      obtain ⟨m, less, next⟩ := keep start taken
      exact ih m less next

theorem Eventually.mono {goal goal' : S → Prop} (weaker : ∀ s, goal s → goal' s) {s : S}
    (comes : Eventually step goal s) : Eventually step goal' s := by
  induction comes with
  | now holds => exact .now (weaker _ holds)
  | later enabled _ ih => exact .later enabled ih

theorem Eventually.exists_run {goal : S → Prop} {s : S} (comes : Eventually step goal s) :
    ∃ t, Run step free s t ∧ goal t := by
  induction comes with
  | now holds => exact ⟨_, .refl, holds⟩
  | later enabled _ ih =>
    obtain ⟨a, possible⟩ := enabled
    obtain ⟨t, taken⟩ := Option.ne_none_iff_exists'.mp possible
    obtain ⟨u, run, holds⟩ := ih a t taken
    exact ⟨u, (Run.refl.tail trivial taken).trans run, holds⟩

/-- The same steps, with a list that collects what `note` sees of each. -/
def observed {O : Type*} (step : S → A → Option S) (note : S → A → List O) (m : S × List O)
    (a : A) : Option (S × List O) :=
  (step m.1 a).map fun t => (t, m.2 ++ note m.1 a)

theorem observed_some {O : Type*} {note : S → A → List O} {m m' : S × List O} {a : A} :
    observed step note m a = some m' ↔ step m.1 a = some m'.1 ∧ m'.2 = m.2 ++ note m.1 a := by
  simp only [observed, Option.map_eq_some_iff, Prod.ext_iff]
  constructor
  · rintro ⟨t, taken, rfl, seen⟩
    exact ⟨taken, seen.symm⟩
  · rintro ⟨taken, seen⟩
    exact ⟨_, taken, rfl, seen.symm⟩

theorem observed_run {O : Type*} {note : S → A → List O} {s t : S} (seen : List O) :
    Run step free s t ↔ ∃ later, Run (observed step note) free (s, seen) (t, later) := by
  constructor
  · intro run
    induction run with
    | refl => exact ⟨seen, .refl⟩
    | @tail t u a _ _ taken ih =>
      have ⟨later, watched⟩ := ih
      exact ⟨later ++ note t a, watched.tail trivial (observed_some.mpr ⟨taken, rfl⟩)⟩
  · intro ⟨later, watched⟩
    refine watched.invariant (fun m => Run step free s m.1) (fun run _ taken => ?_) .refl
    exact run.tail trivial (observed_some.mp taken).1

theorem append_cases {α : Type*} {l : List α} {j : ℕ} {a b : α} (here : (l ++ [a])[j]? = some b) :
    l[j]? = some b ∨ (j = l.length ∧ b = a) := by
  rw [List.getElem?_append, List.getElem?_singleton] at here
  split at here
  · exact .inl here
  · split at here
    · exact .inr ⟨by omega, (Option.some.inj here).symm⟩
    · cases here

theorem set_cases {α : Type*} {l : List α} {i j : ℕ} {a b : α} (found : l[i]? = some a) (new : α)
    (here : (l.set i new)[j]? = some b) : (j = i ∧ b = new) ∨ (j ≠ i ∧ l[j]? = some b) := by
  have bound := (List.getElem?_eq_some_iff.mp found).1
  by_cases same : j = i
  · subst same
    rw [List.getElem?_set_self bound] at here
    exact .inl ⟨rfl, (Option.some.inj here).symm⟩
  · rw [List.getElem?_set_ne (Ne.symm same)] at here
    exact .inr ⟨same, here⟩

section Counting
variable {V B : Type*} [Fintype V] [DecidableEq V] {P : B → Prop} [DecidablePred P] {f : V → B}
  {v : V} {b : B}

theorem filter_update (before : ¬ P (f v)) (after : ¬ P b) :
    (Finset.univ.filter fun w => P (Function.update f v b w)) =
      Finset.univ.filter fun w => P (f w) := by
  apply Finset.filter_congr
  intro w _
  by_cases same : w = v
  · subst same
    simp [before, after]
  · simp [same]

theorem card_filter_update (before : ¬ P (f v)) (after : P b) :
    (Finset.univ.filter fun w => P (Function.update f v b w)).card =
      (Finset.univ.filter fun w => P (f w)).card + 1 := by
  have grown : (Finset.univ.filter fun w => P (Function.update f v b w)) =
      insert v (Finset.univ.filter fun w => P (f w)) := by
    ext w
    by_cases same : w = v
    · subst same
      simp [after]
    · simp [same]
  rw [grown, Finset.card_insert_of_notMem (by simpa using before)]

end Counting

/-- Two strict majorities of a finite set share a member. -/
theorem majorities_meet {V : Type*} [Fintype V] [DecidableEq V] {P Q : Finset V}
    (hP : Fintype.card V / 2 < P.card) (hQ : Fintype.card V / 2 < Q.card) :
    ∃ v, v ∈ P ∧ v ∈ Q := by
  have crowded : (Finset.univ : Finset V).card < P.card + Q.card := by
    rw [Finset.card_univ]
    omega
  obtain ⟨v, member⟩ := Finset.inter_nonempty_of_card_lt_card_add_card
    (Finset.subset_univ P) (Finset.subset_univ Q) crowded
  exact ⟨v, Finset.mem_inter.mp member⟩

end DistributedLabs.GuardedRuns
