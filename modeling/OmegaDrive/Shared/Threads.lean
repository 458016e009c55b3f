import Mathlib.Logic.Function.Basic
import Mathlib.Data.List.Basic

set_option autoImplicit false

/-! Threads that take turns on a shared state, one atomic action at a time. -/

/-- What each thread has still to do. An action may leave more to do before the rest. -/
structure Threads (ι S A : Type) where
  shared : S
  todo : ι → List A

namespace Threads

variable {ι S A : Type} [DecidableEq ι] (perform : ι → S → A → S × List A)

def step (threads : Threads ι S A) (i : ι) : Threads ι S A :=
  match threads.todo i with
  | [] => threads
  | action :: rest =>
    let (shared, more) := perform i threads.shared action
    { shared, todo := Function.update threads.todo i (more ++ rest) }

/-- A schedule says which thread takes the next turn; one that has nothing to do passes. -/
def run (threads : Threads ι S A) (schedule : List ι) : Threads ι S A :=
  schedule.foldl (step perform) threads

def Idle (threads : Threads ι S A) : Prop := ∀ i, threads.todo i = []

def Along (allowed : ι → Threads ι S A → A → Prop) : Threads ι S A → List ι → Prop
  | _, [] => True
  | threads, i :: schedule =>
    (∀ action ∈ (threads.todo i).head?, allowed i threads action) ∧
      Along allowed (step perform threads i) schedule

variable {perform}

theorem step_cons (threads : Threads ι S A) (i : ι) (action : A) (rest : List A)
    (turn : threads.todo i = action :: rest) :
    threads.step perform i =
      { shared := (perform i threads.shared action).1
        todo := Function.update threads.todo i ((perform i threads.shared action).2 ++ rest) } := by
  rw [step, turn]

theorem step_nil (threads : Threads ι S A) (i : ι) (done : threads.todo i = []) :
    threads.step perform i = threads := by
  rw [step, done]

theorem along_of_all {allowed : ι → Threads ι S A → A → Prop}
    (all : ∀ i threads action, allowed i threads action) (threads : Threads ι S A)
    (schedule : List ι) : Along perform allowed threads schedule := by
  induction schedule generalizing threads with
  | nil => trivial
  | cons i schedule ih => exact ⟨fun action _ => all i threads action, ih _⟩

theorem along_append {allowed : ι → Threads ι S A → A → Prop} (threads : Threads ι S A)
    (first second : List ι) :
    Along perform allowed threads (first ++ second) ↔
      Along perform allowed threads first ∧
        Along perform allowed (threads.run perform first) second := by
  induction first generalizing threads with
  | nil => simp [Along, run]
  | cons i first ih =>
    rw [List.cons_append, Along, Along, ih, and_assoc]
    rfl

theorem along_of_invariant {allowed : ι → Threads ι S A → A → Prop} (inv : Threads ι S A → Prop)
    (preserved : ∀ threads i action rest, inv threads → threads.todo i = action :: rest →
      inv (threads.step perform i))
    (allows : ∀ threads i action rest, inv threads → threads.todo i = action :: rest →
      allowed i threads action)
    (threads : Threads ι S A) (schedule : List ι) (start : inv threads) :
    Along perform allowed threads schedule := by
  induction schedule generalizing threads with
  | nil => trivial
  | cons i schedule ih =>
    cases turn : threads.todo i with
    | nil =>
      refine ⟨by simp [turn], ih _ ?_⟩
      rwa [step_nil threads i turn]
    | cons action rest =>
      refine ⟨fun first member => ?_, ih _ (preserved threads i action rest start turn)⟩
      rw [turn] at member
      obtain rfl : action = first := Option.some.inj member
      exact allows threads i action rest start turn

theorem run_invariant {allowed : ι → Threads ι S A → A → Prop} {inv : Threads ι S A → Prop}
    (preserved : ∀ threads i action rest, inv threads → threads.todo i = action :: rest →
      allowed i threads action → inv (threads.step perform i))
    (threads : Threads ι S A) (schedule : List ι) (start : inv threads)
    (along : Along perform allowed threads schedule) : inv (threads.run perform schedule) := by
  induction schedule generalizing threads with
  | nil => exact start
  | cons i schedule ih =>
    refine ih _ ?_ along.2
    cases turn : threads.todo i with
    | nil => rwa [step_nil threads i turn]
    | cons action rest =>
      exact preserved threads i action rest start turn (along.1 action (by rw [turn]; rfl))

/-- One thread takes all the actions of a list, and what they leave to do. -/
inductive Completes (perform : ι → S → A → S × List A) (i : ι) : S → List A → S → Prop where
  | done (shared : S) : Completes perform i shared [] shared
  | turn (shared final : S) (action : A) (rest : List A)
      (later : Completes perform i (perform i shared action).1
        ((perform i shared action).2 ++ rest) final) :
      Completes perform i shared (action :: rest) final

omit [DecidableEq ι] in
theorem Completes.append {i : ι} {shared middle final : S} {first second : List A}
    (one : Completes perform i shared first middle)
    (other : Completes perform i middle second final) :
    Completes perform i shared (first ++ second) final := by
  induction one with
  | done => exact other
  | turn shared middle action rest _ ih =>
    refine .turn _ _ action (rest ++ second) ?_
    rw [← List.append_assoc]
    exact ih other

theorem Completes.run {i : ι} {shared final : S} {actions : List A}
    (complete : Completes perform i shared actions final) (threads : Threads ι S A)
    (here : threads.shared = shared) (rest : List A) (turn : threads.todo i = actions ++ rest) :
    ∃ turns, threads.run perform (List.replicate turns i) =
      { shared := final, todo := Function.update threads.todo i rest } := by
  induction complete generalizing threads with
  | done shared =>
    refine ⟨0, ?_⟩
    have same : Function.update threads.todo i rest = threads.todo := by
      rw [← List.nil_append rest, ← turn, Function.update_eq_self]
    rw [same, ← here]
    rfl
  | turn shared final action later _ ih =>
    subst here
    have next : threads.step perform i = _ := step_cons threads i action (later ++ rest) turn
    obtain ⟨turns, ran⟩ := ih (threads.step perform i) (by rw [next])
      (by rw [next]; simp)
    refine ⟨turns + 1, ?_⟩
    rw [List.replicate_succ, Threads.run, List.foldl_cons]
    rw [Threads.run] at ran
    rw [ran, next, Function.update_idem]

end Threads
