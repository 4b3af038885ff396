import Mathlib.Data.List.Basic
import Mathlib.Data.Option.Basic

/-!
# Labelled machines with outputs

A machine takes one label at a time, may refuse it, and emits a list of
outputs.  `run` composes the steps of a label list and `trace` additionally
keeps every step that was taken, so that a property of each single step can be
stated over whole runs.  An invariant proved for one step is lifted to runs
here once.
-/

set_option autoImplicit false

namespace CodexFormal.Foundation

open List Option

universe u v w

structure Machine (State : Type u) (Label : Type v) (Output : Type w) where
  step : State → Label → Option (State × List Output)

structure Taken (State : Type u) (Label : Type v) (Output : Type w) where
  before : State
  label : Label
  after : State
  outputs : List Output

namespace Machine

variable {State : Type u} {Label : Type v} {Output : Type w}

def run (machine : Machine State Label Output) : State → List Label → Option (State × List Output)
  | state, [] => some (state, [])
  | state, label :: rest =>
    (machine.step state label).bind fun first =>
      (machine.run first.1 rest).map fun later =>
        (later.1, first.2 ++ later.2)

def trace (machine : Machine State Label Output) :
    State → List Label → Option (List (Taken State Label Output))
  | _, [] => some []
  | state, label :: rest =>
    (machine.step state label).bind fun first =>
      (machine.trace first.1 rest).map fun later =>
        ⟨state, label, first.1, first.2⟩ :: later

/-- An invariant is carried by every enabled step. -/
def Preserves (machine : Machine State Label Output) (Invariant : State → Prop) : Prop :=
  ∀ state label after outputs, Invariant state →
    machine.step state label = some (after, outputs) → Invariant after

variable (machine : Machine State Label Output)

theorem run_cons_inv (state final : State) (label : Label) (rest : List Label)
    (outputs : List Output) (run : machine.run state (label :: rest) = some (final, outputs)) :
    ∃ mid first later, machine.step state label = some (mid, first) ∧
    machine.run mid rest = some (final, later) ∧ outputs = first ++ later := by
  obtain ⟨⟨mid, first⟩, ran, run⟩ := bind_eq_some_iff.mp run
  obtain ⟨⟨last, later⟩, restRun, res⟩ := map_eq_some_iff.mp run
  cases res
  exact ⟨mid, first, later, ran, restRun, rfl⟩

theorem trace_cons_inv (state : State) (label : Label) (rest : List Label)
    (taken : List (Taken State Label Output))
    (traced : machine.trace state (label :: rest) = some taken) : ∃ mid first later,
    machine.step state label = some (mid, first) ∧ machine.trace mid rest = some later ∧
    taken = ⟨state, label, mid, first⟩ :: later := by
  obtain ⟨⟨mid, first⟩, ran, traced⟩ := bind_eq_some_iff.mp traced
  obtain ⟨later, restTraced, res⟩ := map_eq_some_iff.mp traced
  exact ⟨mid, first, later, ran, restTraced, res.symm⟩

theorem run_append (earlier later : List Label) (state mid final : State)
    (first second : List Output) (earlierRun : machine.run state earlier = some (mid, first))
    (laterRun : machine.run mid later = some (final, second)) :
    machine.run state (earlier ++ later) = some (final, first ++ second) := by
  induction earlier generalizing state first with
  | nil =>
    cases some.inj earlierRun
    exact laterRun
  | cons label rest ih =>
    obtain ⟨next, head, tail, ran, restRun, rfl⟩ :=
      machine.run_cons_inv state mid label rest first earlierRun
    simp [run, ran, ih next tail restRun]

/-- A relation between what was output so far and the state is carried along a
run when every step with an allowed label carries it. -/
theorem run_history (Allowed : Label → Prop) (Related : List Output → State → Prop)
    (preserved : ∀ log state label after outputs, Allowed label →
    Related log state → machine.step state label = some (after, outputs) →
    Related (log ++ outputs) after) (labels : List Label) (may : ∀ label ∈ labels, Allowed label)
    (state final : State) (log outputs : List Output) (holds : Related log state)
    (run : machine.run state labels = some (final, outputs)) : Related (log ++ outputs) final := by
  induction labels generalizing state log outputs with
  | nil =>
    cases some.inj run
    simpa using holds
  | cons label rest ih =>
    obtain ⟨middle, first, later, ran, restRun, rfl⟩ :=
      machine.run_cons_inv state final label rest outputs run
    have carried : Related (log ++ first) middle :=
      preserved log state label middle first (may label mem_cons_self) holds ran
    rw [← append_assoc]
    exact ih (fun other mem => may other (mem_cons_of_mem _ mem)) middle
      (log ++ first) later carried restRun

/-- Every step recorded by a trace was enabled in a state that satisfies the
invariant. -/
theorem trace_preserves (Invariant : State → Prop) (preserved : machine.Preserves Invariant)
    (labels : List Label) (state : State) (taken : List (Taken State Label Output))
    (holds : Invariant state) (traced : machine.trace state labels = some taken) :
    ∀ event ∈ taken, Invariant event.before ∧
    machine.step event.before event.label = some (event.after, event.outputs) := by
  induction labels generalizing state taken with
  | nil =>
    cases some.inj traced
    simp
  | cons label rest ih =>
    obtain ⟨mid, first, later, ran, restTraced, rfl⟩ :=
      machine.trace_cons_inv state label rest taken traced
    intro event mem
    rcases mem_cons.mp mem with rfl | mem
    · exact ⟨holds, ran⟩
    · exact ih mid later (preserved state label mid first holds ran) restTraced event mem

/-- What every recorded step carries from the state before to the state after holds
after each of them. -/
theorem trace_carries (Holds : State → Prop) (labels : List Label) (state : State)
    (taken : List (Taken State Label Output)) (holds : Holds state)
    (traced : machine.trace state labels = some taken)
    (carried : ∀ event ∈ taken, Holds event.before → Holds event.after) :
    ∀ event ∈ taken, Holds event.after := by
  induction labels generalizing state taken with
  | nil =>
    cases some.inj traced
    simp
  | cons label rest ih =>
    obtain ⟨middle, first, later, ran, restTraced, rfl⟩ :=
      machine.trace_cons_inv state label rest taken traced
    have next : Holds middle := carried _ mem_cons_self holds
    intro event mem
    rcases mem_cons.mp mem with rfl | mem
    · exact next
    · exact ih middle later next restTraced
        (fun other inLater => carried other (mem_cons_of_mem _ inLater)) event mem

/-- Where each recorded step is good exactly under its condition, and the condition keeps the
invariant, a run is good throughout exactly when the condition holds throughout. -/
theorem trace_iff (Allowed : Label → Prop)
    (Invariant : State → Prop) (Good Condition : Taken State Label Output → Prop)
    (steps : ∀ event : Taken State Label Output, Allowed event.label → Invariant event.before →
    machine.step event.before event.label = some (event.after, event.outputs) →
    (Good event ↔ Condition event) ∧ (Condition event → Invariant event.after))
    (labels : List Label) (may : ∀ label ∈ labels, Allowed label) (state : State)
    (taken : List (Taken State Label Output)) (holds : Invariant state)
    (traced : machine.trace state labels = some taken) :
    (∀ event ∈ taken, Good event) ↔ ∀ event ∈ taken, Condition event := by
  induction labels generalizing state taken with
  | nil =>
    cases some.inj traced
    simp
  | cons label rest ih =>
    obtain ⟨mid, first, later, ran, restTraced, rfl⟩ :=
      machine.trace_cons_inv state label rest taken traced
    obtain ⟨same, kept⟩ := steps ⟨state, label, mid, first⟩
      (may label mem_cons_self) holds ran
    rw [forall_mem_cons, forall_mem_cons, same]
    refine and_congr_right fun cond => ?_
    exact ih (fun other mem => may other (mem_cons_of_mem _ mem)) mid later
      (kept cond) restTraced

theorem exists_taken_of_run (labels : List Label) (label : Label) (state mid after : State)
    (earlier outputs : List Output) (run : machine.run state labels = some (mid, earlier))
    (ran : machine.step mid label = some (after, outputs)) :
    ∃ taken, machine.trace state (labels ++ [label]) = some taken ∧
    ⟨mid, label, after, outputs⟩ ∈ taken := by
  induction labels generalizing state earlier with
  | nil =>
    cases some.inj run
    exact ⟨[⟨mid, label, after, outputs⟩], by simp [trace, ran], by simp⟩
  | cons head rest ih =>
    obtain ⟨next, first, later, headStepped, restRun, _⟩ :=
      machine.run_cons_inv state mid head rest earlier run
    obtain ⟨taken, traced, mem⟩ := ih next later restRun
    exact ⟨⟨state, head, next, first⟩ :: taken,
      by simp [trace, headStepped, traced], mem_cons_of_mem _ mem⟩

end Machine

end CodexFormal.Foundation
