/-
Runs of a system whose steps show a label or none, with the labels that were
shown on the way.
-/
import Mathlib.Data.List.Basic

namespace Store

universe u v

variable {S : Type u} {L : Type v}

/-- What the system can come to. -/
inductive Runs (step : S → Option L → S → Prop) (first : S) :
    List L → S → Prop where
  | refl : Runs step first [] first
  | step {labels : List L} {label? : Option L} {s s' : S}
      (h : Runs step first labels s) (hstep : step s label? s') :
      Runs step first (labels ++ label?.toList) s'

variable {step : S → Option L → S → Prop} {first s : S}
  {labels : List L}

/-- What holds at first and is kept by every step holds all along. -/
theorem Runs.invariant {P : List L → S → Prop} (hfirst : P [] first)
    (hkeep : ∀ labels s label? s', P labels s → step s label? s' →
      P (labels ++ label?.toList) s')
    (h : Runs step first labels s) : P labels s := by
  induction h with
  | refl => exact hfirst
  | step _ hstep ih => exact hkeep _ _ _ _ ih hstep

/-- What a function picks of the labels, step by step. -/
theorem filterMap_append_toList {A : Type*} (pick : L → Option A)
    (labels : List L) (label? : Option L) :
    (labels ++ label?.toList).filterMap pick =
      labels.filterMap pick ++ (label?.bind pick).toList := by
  cases label? with
  | none => simp
  | some label => cases hpick : pick label <;> simp [hpick]

end Store
