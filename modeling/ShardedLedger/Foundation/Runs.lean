import Mathlib.Data.List.Induction
set_option autoImplicit false

/-!
# Foundation: properties of every step of a run

A run is the list of its events.  `AtEveryStep` relates every event to the
events before it; two such relations agree on a run when they agree at each
step that both have reached (`atEveryStep_congr`).
-/

namespace ShardedLedger.Runs

variable {Event : Type*} {P Q : List Event → Event → Prop}

/-- The relation holds between every event of the run and the events before it. -/
def AtEveryStep (P : List Event → Event → Prop) (events : List Event) : Prop :=
  ∀ before event after, events = before ++ event :: after → P before event

theorem atEveryStep_nil : AtEveryStep P [] := by
  intro before event after h
  exact absurd h (by simp)

theorem atEveryStep_concat (events : List Event) (event : Event) :
    AtEveryStep P (events ++ [event]) ↔ AtEveryStep P events ∧ P events event := by
  constructor
  · intro h
    refine ⟨?_, h events event [] rfl⟩
    rintro before e after rfl
    exact h before e (after ++ [event]) (by simp)
  · rintro ⟨hbefore, hlast⟩ before e after hsplit
    rcases List.eq_nil_or_concat after with rfl | ⟨rest, last, rfl⟩
    · obtain ⟨rfl, hevent⟩ := List.append_inj' hsplit rfl
      obtain rfl := (List.cons.inj hevent).1
      exact hlast
    · have hfront : events ++ [event] = (before ++ e :: rest) ++ [last] := by
        rw [hsplit, List.concat_eq_append, List.append_assoc, List.cons_append]
      exact hbefore before e rest (List.append_inj' hfront rfl).1

/-- Relations that agree at a step whenever both have held so far agree on
whole runs. -/
theorem atEveryStep_congr
    (h : ∀ events event, AtEveryStep P events → AtEveryStep Q events →
      (P events event ↔ Q events event)) (events : List Event) :
    AtEveryStep P events ↔ AtEveryStep Q events := by
  induction events using List.reverseRecOn with
  | nil => exact iff_of_true atEveryStep_nil atEveryStep_nil
  | append_singleton events event ih =>
      rw [atEveryStep_concat, atEveryStep_concat]
      constructor
      · rintro ⟨hbefore, hlast⟩
        have hbefore' := ih.mp hbefore
        exact ⟨hbefore', (h events event hbefore hbefore').mp hlast⟩
      · rintro ⟨hbefore', hlast⟩
        have hbefore := ih.mpr hbefore'
        exact ⟨hbefore, (h events event hbefore hbefore').mpr hlast⟩

/-- A property of the reached point that holds at first and is kept by every step
holds after the run. -/
theorem AtEveryStep.induction {events : List Event} (h : AtEveryStep P events)
    (Reached : List Event → Prop) (hinitial : Reached [])
    (hstep : ∀ events event, Reached events → P events event → Reached (events ++ [event])) :
    Reached events := by
  induction events using List.reverseRecOn with
  | nil => exact hinitial
  | append_singleton events event ih =>
      obtain ⟨hbefore, hlast⟩ := (atEveryStep_concat events event).mp h
      exact hstep events event (ih hbefore) hlast

end ShardedLedger.Runs
