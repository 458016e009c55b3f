import Mathlib.Data.List.Basic

set_option autoImplicit false

/-! Machines that take one event after the other. -/

namespace Steps

variable {S E : Type} (step : S → E → S)

def run (state : S) (events : List E) : S := events.foldl step state

def Along (allowed : S → E → Prop) : S → List E → Prop
  | _, [] => True
  | state, event :: events => allowed state event ∧ Along allowed (step state event) events

def outputs {O : Type} (out : S → E → List O) : S → List E → List O
  | _, [] => []
  | state, event :: events => out state event ++ outputs out (step state event) events

variable {step}

@[simp] theorem run_cons (state : S) (event : E) (events : List E) :
    run step state (event :: events) = run step (step state event) events := rfl

theorem run_append (state : S) (first second : List E) :
    run step state (first ++ second) = run step (run step state first) second :=
  List.foldl_append

theorem run_invariant {allowed : S → E → Prop} {inv : S → Prop}
    (preserved : ∀ state event, inv state → allowed state event → inv (step state event))
    (state : S) (events : List E) (start : inv state) (along : Along step allowed state events) :
    inv (run step state events) := by
  induction events generalizing state with
  | nil => exact start
  | cons event events ih => exact ih _ (preserved state event start along.1) along.2

theorem run_always {inv : S → Prop} (preserved : ∀ state event, inv state → inv (step state event))
    (state : S) (events : List E) (start : inv state) : inv (run step state events) := by
  induction events generalizing state with
  | nil => exact start
  | cons event events ih => exact ih _ (preserved state event start)

theorem run_project {S' E' : Type} {step' : S' → E' → S'} (project : S → S') (out : S → E → List E')
    (simulates : ∀ state event,
      project (step state event) = run step' (project state) (out state event))
    (state : S) (events : List E) :
    project (run step state events) = run step' (project state) (outputs step out state events) := by
  induction events generalizing state with
  | nil => rfl
  | cons event events ih =>
    rw [run_cons, ih, simulates]
    exact (run_append _ _ _).symm

theorem outputs_append {O : Type} (out : S → E → List O) (state : S) (first second : List E) :
    outputs step out state (first ++ second) =
      outputs step out state first ++ outputs step out (run step state first) second := by
  induction first generalizing state with
  | nil => rfl
  | cons event first ih => rw [List.cons_append, outputs, outputs, ih, run_cons, List.append_assoc]

theorem outputs_invariant {O : Type} {out : S → E → List O} {inv : S → List O → Prop}
    (preserved : ∀ state history event, inv state history →
      inv (step state event) (history ++ out state event))
    (state : S) (history : List O) (events : List E) (start : inv state history) :
    inv (run step state events) (history ++ outputs step out state events) := by
  induction events generalizing state history with
  | nil => rwa [outputs, List.append_nil]
  | cons event events ih =>
    have later := ih (step state event) _ (preserved state history event start)
    rwa [List.append_assoc] at later

theorem along_append {allowed : S → E → Prop} (state : S) (first second : List E) :
    Along step allowed state (first ++ second) ↔
      Along step allowed state first ∧ Along step allowed (run step state first) second := by
  induction first generalizing state with
  | nil => simp [Along, run]
  | cons event first ih => rw [List.cons_append, Along, Along, ih, and_assoc, run_cons]

theorem along_mono {allowed further : S → E → Prop} {state : S} {events : List E}
    (along : Along step allowed state events)
    (weaker : ∀ state event, allowed state event → further state event) :
    Along step further state events := by
  induction events generalizing state with
  | nil => trivial
  | cons event events ih => exact ⟨weaker state event along.1, ih along.2⟩

theorem along_of_forall {allowed : E → Prop} (state : S) (events : List E)
    (each : ∀ event ∈ events, allowed event) : Along step (fun _ => allowed) state events := by
  induction events generalizing state with
  | nil => trivial
  | cons event events ih =>
    exact ⟨each event List.mem_cons_self,
      ih _ fun other member => each other (List.mem_cons_of_mem _ member)⟩

theorem along_of_forall_state {allowed : S → E → Prop}
    (each : ∀ state event, allowed state event) (state : S) (events : List E) :
    Along step allowed state events := by
  induction events generalizing state with
  | nil => trivial
  | cons event events ih => exact ⟨each state event, ih _⟩

end Steps
