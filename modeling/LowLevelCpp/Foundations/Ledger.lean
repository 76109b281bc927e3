import LowLevelCpp.Foundations.System
import Mathlib.Data.Finset.Basic

/-! Ledgers: event logs in which items are acquired and released. A log is accepted when no
item is acquired while it is held and none is released while it is not, and the items held
at its end are what remains. -/
namespace Foundations

/-- What an event does to the items of one ledger. -/
inductive Move (ι : Type*) where
  | acquire (i : ι)
  | release (i : ι)
  | other
  deriving DecidableEq

variable {ι ε : Type*} [DecidableEq ι] {move : ε → Move ι} {held : Finset ι} {log : List ε}

/-- The acceptor of the logs that keep the ledger, with the items held as its state. -/
def ledger (move : ε → Move ι) : Spec (Finset ι) ε where
  init := ∅
  accept held e :=
    match move e with
    | .acquire i => if i ∈ held then none else some (insert i held)
    | .release i => if i ∈ held then some (held.erase i) else none
    | .other => some held

section Accept
variable {e : ε} {i : ι}

theorem ledger_acquire (hm : move e = .acquire i) (hi : i ∉ held) :
    (ledger move).accept held e = some (insert i held) := by
  simp [ledger, hm, hi]

theorem ledger_release (hm : move e = .release i) (hi : i ∈ held) :
    (ledger move).accept held e = some (held.erase i) := by
  simp [ledger, hm, hi]

theorem ledger_other (hm : move e = .other) : (ledger move).accept held e = some held := by
  simp [ledger, hm]

end Accept

/-- Each item is released as often as it was acquired, once less while it is held. -/
theorem ledger_count (h : (ledger move).replay log = some held) (i : ι) :
    (log.map move).count (.acquire i) =
      (log.map move).count (.release i) + if i ∈ held then 1 else 0 := by
  refine Spec.invariant _ (I := fun held log => (log.map move).count (.acquire i) =
    (log.map move).count (.release i) + if i ∈ held then 1 else 0) h (by simp [ledger]) ?_
  intro held log e held' ih ha
  unfold ledger at ha
  simp only [List.map_append, List.map_cons, List.map_nil, List.count_append, ih]
  cases hm : move e with
  | acquire j =>
    simp only [hm] at ha
    split at ha
    · cases ha
    · rename_i hj
      obtain rfl := Option.some.inj ha
      by_cases hij : j = i
      · subst hij
        simp [hj]
      · simp [hij, Ne.symm hij]
  | release j =>
    simp only [hm] at ha
    split at ha
    · rename_i hj
      obtain rfl := Option.some.inj ha
      by_cases hij : j = i
      · subst hij
        simp [hj]
      · simp [hij, Ne.symm hij]
    · cases ha
  | other =>
    simp only [hm, Option.some.injEq] at ha
    simp [ha]

end Foundations
