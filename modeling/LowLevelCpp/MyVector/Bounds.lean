import LowLevelCpp.MyVector.Growth

/-! Which slots the operations of `my::vector` access: never one that is not in an allocated
block, as long as the buffer has room for the elements. -/
namespace MyVector
open Foundations Outcome

variable {T : Type} {s : State T} {E : Environment} {b i b' i' n : ℕ} {arg : Argument T}
  {e : Lifetime}

abbrev InBounds (s : State T) (r : Result T) := Accepted bounds State.blocks s r

/-- The accesses are in bounds, and no block comes or goes. -/
abbrev Calm (s : State T) (r : Result T) := Quiet bounds State.blocks s r

/-- What is read is in bounds. -/
def State.Reads (s : State T) : Argument T → Prop
  | .value _ => True
  | .object b i => Within s.blocks b i

theorem calm_destroy (h : Within s.blocks b i) : Calm s (s.destroy b i) :=
  ⟨Spec.replayFrom_singleton _ |>.mpr (if_pos h), rfl⟩

theorem calm_relocate (h : Within s.blocks b i) (h' : Within s.blocks b' i') :
    Calm s (s.relocate b i b' i') := by
  refine ⟨?_, rfl⟩
  simp [Accepted, State.relocate, bounds, State.setObject, h, h']

theorem inBounds_release {form : Form} (h : (s.blocks b).isSome = true) :
    InBounds s (s.release b form) :=
  Spec.replayFrom_singleton _ |>.mpr (if_pos h)

theorem inBounds_allocate {block : Block} (hnext : s.blocks s.next = none) :
    InBounds s (s.allocate E block) := by
  unfold State.allocate
  cases h : E.allocationThrows s.calls with
  | true =>
    rw [attempt_of_throws h]
    rfl
  | false =>
    rw [attempt_of_not_throws h]
    exact Spec.replayFrom_singleton _ |>.mpr (if_pos hnext)

theorem inBounds_operatorDelete (h : b ≠ nullptr → (s.blocks b).isSome = true) :
    InBounds s (s.operatorDelete b) := by
  unfold State.operatorDelete
  split
  · exact accepted_done
  · exact inBounds_release (h ‹_›)

theorem calm_destroyArray (h : ∀ i < n, Within s.blocks b i) : Calm s (s.destroyArray b n) := by
  apply quiet_loop
  intro k hk s' hview
  apply calm_destroy
  rw [hview]
  exact h _ (by omega)

theorem inBounds_deleteArray (h : b ≠ nullptr → (s.blocks b).isSome = true) :
    InBounds s (s.deleteArray b) := by
  unfold State.deleteArray
  split
  · exact accepted_done
  rename_i hb
  split
  · rename_i m hblock
    obtain ⟨hdestroy, hview⟩ := calm_destroyArray (s := s) (b := b) (n := m)
      fun i hi => ⟨_, hblock, hi⟩
    refine hdestroy.andThen fun _ => inBounds_release ?_
    rw [hview]
    exact h hb
  · exact inBounds_release (h hb)

theorem calm_destroyLoop (h : ∀ i < n, Within s.blocks b i) :
    Calm s (loop (fun i => State.destroy b i) n s) := by
  apply quiet_loop
  intro k hk s' hview
  apply calm_destroy
  rw [hview]
  exact h k hk

theorem calm_relocateLoop (h : ∀ i < n, Within s.blocks b i ∧ Within s.blocks b' i) :
    Calm s (loop (fun i => State.relocate b i b' i) n s) := by
  apply quiet_loop
  intro k hk s' hview
  have hslots := h k hk
  rw [← hview] at hslots
  exact calm_relocate hslots.1 hslots.2

/-- The elements behind the index move up within the slots up to `size`. -/
theorem calm_shift {index : ℕ} (h : ∀ i ≤ s.size, Within s.blocks s.data i) :
    Calm s (s.shift index) := by
  apply quiet_loop
  intro k hk s' hview
  rw [← hview] at h
  exact calm_relocate (h _ (by omega)) (h _ (by omega))

section NoThrow
variable (hE : ∀ k, E.elementThrows k = false)
include hE

theorem calm_store (harg : s.Reads arg) (he : bounds.accept s.blocks e = some s.blocks) :
    Calm s (s.store E e b i arg) := by
  rw [store_eq hE]
  refine ⟨?_, rfl⟩
  cases arg with
  | value v => exact (bounds.replayFrom_singleton).mpr he
  | object b' i' =>
    have hread : bounds.accept s.blocks (.copied b' i') = some s.blocks := if_pos harg
    exact bounds.replayFrom_cons_iff.mpr ⟨_, hread, bounds.replayFrom_singleton.mpr he⟩

theorem calm_construct (harg : s.Reads arg) (h : Within s.blocks b i) :
    Calm s (s.construct E b i arg) := calm_store hE harg (if_pos h)

theorem calm_assign (harg : s.Reads arg) (h : Within s.blocks b i) :
    Calm s (s.assign E b i arg) := calm_store hE harg (if_pos h)

theorem calm_copyLoop (h : ∀ i < n, Within s.blocks b i ∧ Within s.blocks b' i) :
    Calm s (loop (fun i => State.assign E b' i (.object b i)) n s) := by
  apply quiet_loop
  intro k hk s' hview
  have hslots := h k hk
  rw [← hview] at hslots
  exact calm_assign hE hslots.1 hslots.2

theorem inBounds_newArray [Inhabited T] (h : ¬ s.ArrayFails E n)
    (hnext : s.blocks s.next = none) : InBounds s (s.newArray E n) := by
  have hends : (s.allocate E ⟨.array, n⟩).Ends (s.allocated ⟨.array, n⟩) :=
    allocate_ends (Bool.eq_false_iff.mpr (not_or.mp h).2)
  rw [newArray_eq hE h]
  refine (inBounds_allocate hnext).andThen fun _ => ?_
  rw [hends.2]
  refine (quiet_loop fun k hk s' hview => ?_).1
  refine calm_construct hE trivial ⟨⟨.array, n⟩, ?_, hk⟩
  rw [hview]
  exact Function.update_self ..

end NoThrow
end MyVector
