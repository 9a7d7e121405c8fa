import Mathlib
set_option autoImplicit false

/-!
# Foundation: schedules

A system whose parties act one at a time: `step` says what an action does, and
has no result where the action cannot be taken.  A schedule is a sequence of
actions, and every interleaving of the parties is one.

What holds at first and is kept by every action holds after every schedule
(`run_invariant`).  Where every action makes a measure smaller, a schedule is no
longer than the measure (`run_length_le`), and one that cannot be extended has
come to a state in which nothing is left to do (`exists_stuck_extension`).
-/

namespace ShardedLedger.Schedules

variable {State Action : Type*} (step : State → Action → Option State)

/-- The state after a schedule, if all of its actions can be taken. -/
def run (state : State) (schedule : List Action) : Option State := schedule.foldlM step state

@[simp] theorem run_nil (state : State) : run step state [] = some state := rfl

theorem run_cons (state : State) (action : Action) (schedule : List Action) :
    run step state (action :: schedule) =
      (step state action).bind fun state' => run step state' schedule := rfl

theorem run_append (state : State) (schedule more : List Action) :
    run step state (schedule ++ more) =
      (run step state schedule).bind fun state' => run step state' more := List.foldlM_append

variable {step}

theorem run_cons_eq_some_iff {state state' : State} {action : Action} {schedule : List Action} :
    run step state (action :: schedule) = some state' ↔
      ∃ next, step state action = some next ∧ run step next schedule = some state' := by
  rw [run_cons, Option.bind_eq_some_iff]

/-- A schedule that was run was run up to each of its actions. -/
theorem run_split {state final : State} {before after : List Action} {action : Action}
    (hrun : run step state (before ++ action :: after) = some final) :
    ∃ middle next, run step state before = some middle ∧ step middle action = some next ∧
      run step next after = some final := by
  rw [run_append, Option.bind_eq_some_iff] at hrun
  obtain ⟨middle, hbefore, hrest⟩ := hrun
  obtain ⟨next, hstep, hafter⟩ := run_cons_eq_some_iff.mp hrest
  exact ⟨middle, next, hbefore, hstep, hafter⟩

/-- **Invariants** of the schedules whose actions are all allowed. -/
theorem run_invariant_of_allowed {Inv : State → Prop} {Allowed : Action → Prop}
    (hstep : ∀ {state state' action}, Inv state → Allowed action →
      step state action = some state' → Inv state')
    {state state' : State} {schedule : List Action} (hinitial : Inv state)
    (hallowed : ∀ action ∈ schedule, Allowed action)
    (hrun : run step state schedule = some state') : Inv state' := by
  induction schedule generalizing state with
  | nil =>
      cases hrun
      exact hinitial
  | cons action schedule ih =>
      obtain ⟨next, hnext, hrest⟩ := run_cons_eq_some_iff.mp hrun
      rw [List.forall_mem_cons] at hallowed
      exact ih (hstep hinitial hallowed.1 hnext) hallowed.2 hrest

/-- **Invariants** of all schedules. -/
theorem run_invariant {Inv : State → Prop}
    (hstep : ∀ {state state' action}, Inv state → step state action = some state' → Inv state')
    {state state' : State} {schedule : List Action} (hinitial : Inv state)
    (hrun : run step state schedule = some state') : Inv state' :=
  run_invariant_of_allowed (fun hinv _ => hstep hinv) hinitial (fun _ _ => trivial) hrun

/-- **Termination.**  Where every action from a state of the invariant makes the
measure smaller, a schedule takes no more actions than it has lost. -/
theorem run_length_le {Inv : State → Prop} {measure : State → Nat}
    (hstep : ∀ {state state' action}, Inv state → step state action = some state' →
      Inv state' ∧ measure state' < measure state)
    {state state' : State} {schedule : List Action} (hinitial : Inv state)
    (hrun : run step state schedule = some state') :
    schedule.length + measure state' ≤ measure state := by
  induction schedule generalizing state with
  | nil =>
      cases hrun
      rw [List.length_nil, Nat.zero_add]
  | cons action schedule ih =>
      obtain ⟨next, hnext, hrest⟩ := run_cons_eq_some_iff.mp hrun
      obtain ⟨hinv, hless⟩ := hstep hinitial hnext
      have hlength := ih hinv hrest
      rw [List.length_cons]
      omega

/-- Nothing is left to do. -/
def Stuck (step : State → Action → Option State) (state : State) : Prop :=
  ∀ action, step state action = none

/-- Every schedule can be extended to one after which nothing is left to do. -/
theorem exists_stuck_extension {Inv : State → Prop} {measure : State → Nat}
    (hstep : ∀ {state state' action}, Inv state → step state action = some state' →
      Inv state' ∧ measure state' < measure state)
    {state : State} (hinitial : Inv state) :
    ∃ schedule state', run step state schedule = some state' ∧ Inv state' ∧
      Stuck step state' := by
  induction hsize : measure state using Nat.strong_induction_on generalizing state with
  | _ size ih =>
      by_cases hstuck : Stuck step state
      · exact ⟨[], state, rfl, hinitial, hstuck⟩
      · simp only [Stuck, not_forall] at hstuck
        obtain ⟨action, haction⟩ := hstuck
        obtain ⟨next, hnext⟩ := Option.ne_none_iff_exists'.mp haction
        obtain ⟨hinv, hless⟩ := hstep hinitial hnext
        obtain ⟨schedule, state', hrun, hinv', hdone⟩ := ih _ (hsize ▸ hless) hinv rfl
        refine ⟨action :: schedule, state', ?_, hinv', hdone⟩
        exact run_cons_eq_some_iff.mpr ⟨next, hnext, hrun⟩

end ShardedLedger.Schedules
