import Mathlib.Data.Finset.Card
import Mathlib.Data.Nat.Notation

/-! Condition variables as wait sets. A thread that waits joins the wait set as it releases the
mutex; a notification, or a spurious wakeup, takes it out, and it is then on its way to
re-acquiring the mutex. Notifications cover a number of resources when, as long as some thread
still waits, there are that many notified threads on their way. -/
namespace Foundations

/-- The waiting threads, and those on their way: notified or woken spuriously. -/
structure CondVar (θ : Type*) where
  waiting : Finset θ
  notified : Finset θ
  spurious : Finset θ
  waiting_notified : Disjoint waiting notified
  waiting_spurious : Disjoint waiting spurious

namespace CondVar
variable {θ : Type*} (cv : CondVar θ)

def empty : CondVar θ := ⟨∅, ∅, ∅, Finset.disjoint_empty_left _, Finset.disjoint_empty_left _⟩

/-- While a thread waits, `n` resources have at least as many notified threads. -/
def Covers (n : ℕ) : Prop := cv.waiting.Nonempty → n ≤ cv.notified.card

/-- The notification of `t` may be wasted: while a thread waits, the other notified threads
are enough for `n` resources. -/
def Spare (t : θ) (n : ℕ) : Prop :=
  t ∈ cv.notified → cv.waiting.Nonempty → n < cv.notified.card

instance [DecidableEq θ] (t : θ) (n : ℕ) : Decidable (cv.Spare t n) :=
  inferInstanceAs (Decidable (_ → _ → _))

section Covers
variable {cv : CondVar θ} {n m : ℕ}

theorem covers_zero : cv.Covers 0 := fun _ => Nat.zero_le _

theorem covers_of_waiting_empty (h : cv.waiting = ∅) : cv.Covers n := fun hw =>
  absurd h hw.ne_empty

theorem Covers.mono (h : cv.Covers n) (hm : m ≤ n) : cv.Covers m := fun hw => hm.trans (h hw)

end Covers

variable [DecidableEq θ]

/-- The running thread starts to wait. -/
def join (t : θ) : CondVar θ where
  waiting := insert t cv.waiting
  notified := cv.notified.erase t
  spurious := cv.spurious.erase t
  waiting_notified := Finset.disjoint_insert_left.mpr
    ⟨Finset.notMem_erase t _, cv.waiting_notified.mono_right (Finset.erase_subset _ _)⟩
  waiting_spurious := Finset.disjoint_insert_left.mpr
    ⟨Finset.notMem_erase t _, cv.waiting_spurious.mono_right (Finset.erase_subset _ _)⟩

/-- The thread is notified. -/
def notify (w : θ) : CondVar θ where
  waiting := cv.waiting.erase w
  notified := insert w cv.notified
  spurious := cv.spurious.erase w
  waiting_notified := Finset.disjoint_insert_right.mpr
    ⟨Finset.notMem_erase w _, cv.waiting_notified.mono_left (Finset.erase_subset _ _)⟩
  waiting_spurious :=
    cv.waiting_spurious.mono (Finset.erase_subset _ _) (Finset.erase_subset _ _)

/-- `notify_one` wakes the waiter that is chosen; it does nothing only if there is none. -/
def notifyOne : Option θ → Option (CondVar θ)
  | none => if cv.waiting = ∅ then some cv else none
  | some w => if w ∈ cv.waiting then some (cv.notify w) else none

def notifyAll : CondVar θ where
  waiting := ∅
  notified := cv.notified ∪ cv.waiting
  spurious := cv.spurious
  waiting_notified := Finset.disjoint_empty_left _
  waiting_spurious := Finset.disjoint_empty_left _

/-- The thread wakes without a notification. -/
def wake (w : θ) : CondVar θ where
  waiting := cv.waiting.erase w
  notified := cv.notified
  spurious := insert w cv.spurious
  waiting_notified := cv.waiting_notified.mono_left (Finset.erase_subset _ _)
  waiting_spurious := Finset.disjoint_insert_right.mpr
    ⟨Finset.notMem_erase w _, cv.waiting_spurious.mono_left (Finset.erase_subset _ _)⟩

/-- The threads on their way to the mutex. -/
def woken : Finset θ := cv.notified ∪ cv.spurious

/-- A thread on its way re-acquires the mutex. -/
def leave (t : θ) : CondVar θ where
  waiting := cv.waiting
  notified := cv.notified.erase t
  spurious := cv.spurious.erase t
  waiting_notified := cv.waiting_notified.mono_right (Finset.erase_subset _ _)
  waiting_spurious := cv.waiting_spurious.mono_right (Finset.erase_subset _ _)

/-- The threads that are blocked on the variable. -/
def members : Finset θ := cv.waiting ∪ cv.woken

variable {cv cv' : CondVar θ} {t w : θ} {n : ℕ}

/-- A notification covers one resource more. -/
theorem Covers.notifyOne {choice : Option θ} (h : cv.Covers n)
    (hn : cv.notifyOne choice = some cv') : cv'.Covers (n + 1) := by
  cases choice with
  | none =>
    simp only [CondVar.notifyOne] at hn
    split at hn
    · obtain rfl := Option.some.inj hn
      exact covers_of_waiting_empty ‹_›
    · cases hn
  | some w =>
    simp only [CondVar.notifyOne] at hn
    split at hn
    · rename_i hw
      obtain rfl := Option.some.inj hn
      intro _
      have hnew : w ∉ cv.notified := Finset.disjoint_left.mp cv.waiting_notified hw
      rw [notify, Finset.card_insert_of_notMem hnew]
      exact Nat.succ_le_succ (h ⟨w, hw⟩)
    · cases hn

theorem Covers.wake (h : cv.Covers n) : (cv.wake w).Covers n := fun hw =>
  h (hw.mono (Finset.erase_subset _ _))

/-- A thread that re-acquires the mutex leaves one resource uncovered at most. -/
theorem Covers.leave (h : cv.Covers n) : (cv.leave t).Covers (n - 1) := fun hw => by
  have hn := h hw
  have hcard := Finset.pred_card_le_card_erase (s := cv.notified) (a := t)
  simp only [CondVar.leave]
  omega

/-- A thread with a spare notification leaves no resource uncovered. -/
theorem Covers.leave_spare (h : cv.Covers n) (hspare : cv.Spare t n) : (cv.leave t).Covers n := by
  intro hw
  simp only [CondVar.leave]
  by_cases ht : t ∈ cv.notified
  · rw [Finset.card_erase_of_mem ht]
    exact Nat.le_sub_one_of_lt (hspare ht hw)
  · rw [Finset.erase_eq_of_notMem ht]
    exact h hw

theorem notifyOne_waiting_empty {choice : Option θ} (h : cv.waiting = ∅)
    (hn : cv.notifyOne choice = some cv') : cv'.waiting = ∅ := by
  cases choice with
  | none =>
    simp only [CondVar.notifyOne, if_pos h] at hn
    exact Option.some.inj hn ▸ h
  | some w => simp [CondVar.notifyOne, h] at hn

theorem notMem_waiting (ht : t ∈ cv.woken) : t ∉ cv.waiting := by
  rcases Finset.mem_union.mp ht with ht | ht
  · exact Finset.disjoint_right.mp cv.waiting_notified ht
  · exact Finset.disjoint_right.mp cv.waiting_spurious ht

theorem notifyOne_members {choice : Option θ} (hn : cv.notifyOne choice = some cv') :
    cv'.members = cv.members := by
  cases choice with
  | none =>
    simp only [CondVar.notifyOne] at hn
    split at hn
    · rw [Option.some.inj hn]
    · cases hn
  | some w =>
    simp only [CondVar.notifyOne] at hn
    split at hn
    · obtain rfl := Option.some.inj hn
      ext x
      by_cases hx : x = w <;> simp_all [members, woken, notify]
    · cases hn

@[simp] theorem notifyAll_members : cv.notifyAll.members = cv.members := by
  ext x
  simp only [members, woken, notifyAll, Finset.mem_union, Finset.notMem_empty]
  tauto

theorem wake_members (hw : w ∈ cv.waiting) : (cv.wake w).members = cv.members := by
  ext x
  by_cases hx : x = w <;> simp_all [members, woken, wake]

@[simp] theorem join_members : (cv.join t).members = insert t cv.members := by
  ext x
  by_cases hx : x = t <;> simp [members, woken, join, hx]

@[simp] theorem leave_woken : (cv.leave t).woken = cv.woken.erase t :=
  (Finset.erase_union_distrib _ _ _).symm

@[simp] theorem join_woken : (cv.join t).woken = cv.woken.erase t :=
  (Finset.erase_union_distrib _ _ _).symm

/-- A notification puts at most one thread on its way. -/
theorem notifyOne_woken_card {choice : Option θ} (hn : cv.notifyOne choice = some cv') :
    cv'.woken.card ≤ cv.woken.card + 1 := by
  cases choice with
  | none =>
    simp only [CondVar.notifyOne] at hn
    split at hn
    · rw [Option.some.inj hn]
      exact Nat.le_succ _
    · cases hn
  | some w =>
    simp only [CondVar.notifyOne] at hn
    split at hn
    · obtain rfl := Option.some.inj hn
      have hsub : (cv.notify w).woken ⊆ insert w cv.woken := by
        intro x hx
        by_cases hxw : x = w <;> simp_all [woken, notify]
      exact (Finset.card_le_card hsub).trans (Finset.card_insert_le _ _)
    · cases hn

theorem join_woken_card (cv : CondVar θ) (t : θ) : (cv.join t).woken.card ≤ cv.woken.card := by
  rw [join_woken]
  exact Finset.card_erase_le

theorem wake_woken_card (cv : CondVar θ) (t : θ) :
    (cv.wake t).woken.card ≤ cv.woken.card + 1 := by
  have hwoken : (cv.wake t).woken = insert t cv.woken := Finset.union_insert _ _ _
  rw [hwoken]
  exact Finset.card_insert_le _ _

theorem notifyAll_woken_card (cv : CondVar θ) :
    cv.notifyAll.woken.card ≤ cv.woken.card + cv.waiting.card := by
  have hwoken : cv.notifyAll.woken = cv.woken ∪ cv.waiting := by
    ext t
    simp only [woken, notifyAll, Finset.mem_union]
    tauto
  rw [hwoken]
  exact Finset.card_union_le _ _

/-- A notification can always be sent. -/
theorem exists_notifyOne (cv : CondVar θ) :
    ∃ choice cv', cv.notifyOne choice = some cv' := by
  rcases cv.waiting.eq_empty_or_nonempty with hempty | ⟨w, hw⟩
  · exact ⟨none, cv, by simp [CondVar.notifyOne, hempty]⟩
  · exact ⟨some w, cv.notify w, by simp [CondVar.notifyOne, hw]⟩

/-- A thread on its way is no longer blocked once it leaves. -/
theorem leave_members (ht : t ∈ cv.woken) : (cv.leave t).members = cv.members.erase t := by
  have hwaiting := notMem_waiting ht
  ext x
  by_cases hx : x = t <;> simp [members, woken, leave, hx, hwaiting]

end CondVar
end Foundations
