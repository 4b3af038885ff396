import Mathlib.Logic.Basic

/-!
# Computations that may stop early

A computation changes a state and returns a value or stops with an error; the
state it has reached is kept either way.  A specification says what holds at
both ends, and is put together along the computation by the rules below.
-/

set_option autoImplicit false

namespace CodexFormal.Foundation

abbrev Attempt (State Error Value : Type) := ExceptT Error (StateM State) Value

namespace Attempt

variable {State Error Value Result : Type}

/-- From every state described by `before` the computation returns a value and a
state described by `returns`, or stops in a state described by `stops`. -/
def Ensures (before : State → Prop) (program : Attempt State Error Value)
    (returns : Value → State → Prop) (stops : State → Prop) : Prop :=
  ∀ state, before state →
    match program.run.run state with
    | (.ok value, after) => returns value after
    | (.error _, after) => stops after

variable (pre : State → Prop)

theorem ensures_pure (value : Value) (returns : Value → State → Prop) (stops : State → Prop)
    (holds : ∀ state, pre state → returns value state) :
    Ensures pre (pure value : Attempt State Error Value) returns stops :=
  holds

theorem ensures_throw (error : Error) (returns : Value → State → Prop) (stops : State → Prop)
    (holds : ∀ state, pre state → stops state) :
    Ensures pre (throw error : Attempt State Error Value) returns stops :=
  holds

theorem ensures_bind (prog : Attempt State Error Value)
    (next : Value → Attempt State Error Result) (mid : Value → State → Prop)
    (returns : Result → State → Prop) (stops : State → Prop) (first : Ensures pre prog mid stops)
    (second : ∀ value, Ensures (mid value) (next value) returns stops) :
    Ensures pre (prog >>= next) returns stops := by
  intro state holds
  have got := first state holds
  simp only [ExceptT.run_bind, StateT.run_bind]
  cases run : prog.run.run state with
  | mk outcome after =>
    rw [run] at got
    cases outcome with
    | ok value => exact second value after got
    | error error => exact got

theorem ensures_modify (change : State → State)
    (returns : Unit → State → Prop) (stops : State → Prop)
    (holds : ∀ state, pre state → returns () (change state)) :
    Ensures pre (modify change : Attempt State Error Unit) returns stops :=
  holds

theorem Ensures.weaken {pre stronger : State → Prop} {prog : Attempt State Error Value}
    {returns weaker : Value → State → Prop} {stops lenient : State → Prop}
    (ensures : Ensures pre prog returns stops) (enter : ∀ state, stronger state → pre state)
    (leave : ∀ value state, returns value state → weaker value state)
    (stop : ∀ state, stops state → lenient state) : Ensures stronger prog weaker lenient := by
  intro state holds
  have got := ensures state (enter state holds)
  cases run : prog.run.run state with
  | mk outcome after =>
    rw [run] at got
    cases outcome with
    | ok value => exact leave value after got
    | error error => exact stop after got

end Attempt

end CodexFormal.Foundation
