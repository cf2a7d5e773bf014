import Mathlib.Logic.Function.Basic

/-! Runs of a system whose steps are a partial function of a state and an event.
An event is taken only where `allowed` admits it; `none` means that it cannot occur. -/
namespace Pggat.Base
variable {S E : Type}

/-- States reached from `init` by steps that are allowed where they are taken. -/
inductive Reachable (init : S) (allowed : S → E → Prop) (step : S → E → Option S) : S → Prop
  | start : Reachable init allowed step init
  | next {s s' : S} {e : E} (h : Reachable init allowed step s) (ha : allowed s e)
      (hs : step s e = some s') : Reachable init allowed step s'

namespace Reachable
variable {init : S} {allowed : S → E → Prop} {step : S → E → Option S} {s : S}

/-- What holds at the start and across every allowed step holds in every reachable state. -/
theorem invariant {P : S → Prop} (h0 : P init)
    (hstep : ∀ s e s', P s → allowed s e → step s e = some s' → P s')
    (h : Reachable init allowed step s) : P s := by
  induction h with
  | start => exact h0
  | next _ ha hs ih => exact hstep _ _ _ ih ha hs

end Reachable

/-- Execute a list of events, refusing one that is not allowed or cannot occur. -/
def run (allowed : S → E → Prop) [∀ s e, Decidable (allowed s e)] (step : S → E → Option S) :
    S → List E → Option S
  | s, [] => some s
  | s, e :: es => if allowed s e then (step s e).bind (run allowed step · es) else none

/-- An executed list of events is a witness of reachability. -/
theorem Reachable.of_run {init : S} {allowed allowed' : S → E → Prop} [∀ s e, Decidable (allowed' s e)]
    {step : S → E → Option S} {s t : S} (hs : Reachable init allowed step s)
    (hi : ∀ s e, allowed' s e → allowed s e) (es : List E) (h : run allowed' step s es = some t) :
    Reachable init allowed step t := by
  induction es generalizing s with
  | nil => cases h; exact hs
  | cons e es ih =>
    rw [run] at h
    split at h
    · rename_i ha
      obtain ⟨s',he,hr⟩ := Option.bind_eq_some_iff.mp h
      exact ih (hs.next (hi s e ha) he) hr
    · cases h

end Pggat.Base
