import LowLevelCpp.Foundations.Ledger
import Mathlib.Data.Finset.Dedup

/-! Nested resources: each is opened within others that are held, used while it is held, and closed
before those that were opened before it. A log with these properties is a ledger of the
resources. -/
namespace Foundations

/-- What an event does to nested resources. -/
inductive Use (ι : Type*) where
  | opens (i : ι) (within : List ι)
  | uses (i : ι)
  | closes (i : ι)
  | other
  deriving DecidableEq

def Use.move {ι : Type*} : Use ι → Move ι
  | .opens i _ => .acquire i
  | .closes i => .release i
  | .uses _ | .other => .other

variable {ι ε : Type*} [DecidableEq ι] {use : ε → Use ι} {held : List ι} {log : List ε}

/-- The acceptor of the logs that keep the nesting, with the resources held as its state, the last
opened first. -/
def nested (use : ε → Use ι) : Spec (List ι) ε where
  init := []
  accept held e :=
    match use e with
    | .opens i within => if i ∉ held ∧ ∀ j ∈ within, j ∈ held then some (i :: held) else none
    | .uses i => if i ∈ held then some held else none
    | .closes i => if held.head? = some i then some held.tail else none
    | .other => some held

/-- Nested resources are a ledger. -/
theorem nested_ledger (h : (nested use).replay log = some held) :
    held.Nodup ∧ (ledger fun e => (use e).move).replay log = some held.toFinset := by
  refine Spec.invariant _ (I := fun held log => held.Nodup ∧
    (ledger fun e => (use e).move).replay log = some held.toFinset) h ⟨List.nodup_nil, rfl⟩ ?_
  rintro held log e held' ⟨hnodup, hledger⟩ ha
  rw [Spec.replay_append _ hledger, Spec.replayFrom_singleton]
  unfold nested at ha
  cases hu : use e with
  | opens i within =>
    simp only [hu] at ha
    split at ha
    · rename_i hopens
      obtain rfl := Option.some.inj ha
      refine ⟨hnodup.cons hopens.1, ?_⟩
      rw [ledger_acquire (by rw [hu]; rfl) (by simpa using hopens.1), List.toFinset_cons]
    · cases ha
  | uses i =>
    simp only [hu] at ha
    split at ha
    · obtain rfl := Option.some.inj ha
      exact ⟨hnodup, ledger_other (by rw [hu]; rfl)⟩
    · cases ha
  | closes i =>
    simp only [hu] at ha
    split at ha
    · rename_i hhead
      obtain rfl := Option.some.inj ha
      obtain ⟨rest, rfl⟩ := List.head?_eq_some_iff.mp hhead
      obtain ⟨hi, hrest⟩ := List.nodup_cons.mp hnodup
      refine ⟨hrest, ?_⟩
      rw [ledger_release (by rw [hu]; rfl) (by simp), List.toFinset_cons,
        Finset.erase_insert (by simpa using hi), List.tail_cons]
    · cases ha
  | other =>
    simp only [hu, Option.some.injEq] at ha
    subst ha
    exact ⟨hnodup, ledger_other (by rw [hu]; rfl)⟩

/-- When nothing is held any more, each resource was closed as often as it was opened. -/
theorem nested_count (h : (nested use).replay log = some []) (i : ι) :
    (log.map fun e => (use e).move).count (.acquire i) =
      (log.map fun e => (use e).move).count (.release i) := by
  simpa using ledger_count (nested_ledger h).2 i

end Foundations
