import LowLevelCpp.MyVector.Storage

/-! The two ways in which `my::vector` changes its buffer: `resize` copies into a new array,
`reserve` and `shrink_to_fit` move into raw memory. -/
namespace MyVector
open Foundations Outcome

variable {T : Type} {s : State T} {E : Environment} {b b' n : ℕ}

namespace State

def form (s : State T) : Option Form := (s.blocks s.data).map Block.form

/-- The number of slots of the buffer. -/
def length (s : State T) : ℕ := s.lengthOf s.data

end State

/-- The address of the buffer is not the next one, and no block is at the null pointer. -/
structure Placed (s : State T) : Prop where
  data : s.data < s.next
  nullptr : s.data = nullptr → s.blocks s.data = none

/-- The vector owns one block, in which its elements exist. A raw block holds no other object. -/
structure Tidy (E : Environment) (s : State T) : Prop where
  running : s.destructed = false
  data : s.data < s.next
  nullptr : s.data = nullptr → s.blocks s.data = none
  others : ∀ b ≠ s.data, s.blocks b = none
  objects : ∀ b i, (s.objects b i).isSome = true → b = s.data ∧ i < s.length
  elements : ∀ i < s.size, (s.objects s.data i).isSome = true
  length_le : s.length ≤ s.capacity
  array : s.form = some .array → s.length = s.capacity
  raw : s.form = some .raw → ∀ i, (s.objects s.data i).isSome = true → i < s.size
  none : s.form = none → s.data = MyVector.nullptr ∧ s.capacity = 0
  bytes : s.length * E.sizeof < SIZE_RANGE

namespace Tidy

theorem placed (h : Tidy E s) : Placed s := ⟨h.data, h.nullptr⟩

theorem next_free (h : Tidy E s) : s.blocks s.next = Option.none :=
  h.others s.next (Nat.ne_of_gt h.data)

theorem next_dead (h : Tidy E s) (i : ℕ) : s.objects s.next i = Option.none := by
  cases hobject : s.objects s.next i with
  | none => rfl
  | some v => exact absurd (h.objects s.next i (by simp [hobject])).1 (Nat.ne_of_gt h.data)

theorem size_le (h : Tidy E s) : s.size ≤ s.length := by
  by_contra hlt
  exact absurd (h.objects _ _ (h.elements s.length (by omega))).2 (Nat.lt_irrefl _)

theorem form_none_iff (h : Tidy E s) : s.form = Option.none ↔ s.data = MyVector.nullptr := by
  constructor
  · intro hform
    exact (h.none hform).1
  · intro hdata
    simp [State.form, h.nullptr hdata]

/-- The block of a vector that has one. -/
theorem buffer {form : Form} (hform : s.form = some form) :
    s.blocks s.data = some ⟨form, s.length⟩ := by
  obtain ⟨block, hblock, rfl⟩ := Option.map_eq_some_iff.mp hform
  simp [State.length, State.lengthOf, hblock]

theorem data_ne_nullptr (h : Tidy E s) {form : Form} (hform : s.form = some form) :
    s.data ≠ MyVector.nullptr := by
  intro hdata
  rw [h.form_none_iff.mpr hdata] at hform
  exact absurd hform nofun

/-- `delete[]` fits a null pointer, and an array in which every object exists. -/
theorem array_iff (h : Tidy E s) :
    (s.data = MyVector.nullptr ∨ ∃ m, s.blocks s.data = some ⟨.array, m⟩ ∧
      ∀ i < m, (s.objects s.data i).isSome = true) ↔
    s.form ≠ some .raw ∧ ∀ i < s.length, (s.objects s.data i).isSome = true := by
  cases hform : s.form with
  | none =>
    have hblocks : s.blocks s.data = Option.none := Option.map_eq_none_iff.mp hform
    have hlength : s.length = 0 := by simp [State.length, State.lengthOf, hblocks]
    simp [h.form_none_iff.mp hform, hlength]
  | some form =>
    have hdata := h.data_ne_nullptr hform
    cases form <;> simp [hdata, buffer hform]

/-- `::operator delete` fits a null pointer, and raw memory without objects. -/
theorem raw_iff (h : Tidy E s) :
    s.data = MyVector.nullptr ∨ s.blocks s.data = some ⟨.raw, s.length⟩ ↔
      s.form ≠ some .array := by
  cases hform : s.form with
  | none => simp [h.form_none_iff.mp hform]
  | some form =>
    have hdata := h.data_ne_nullptr hform
    cases form <;> simp [hdata, buffer hform]

end Tidy

/-- `n` more operations that may throw. -/
def State.after (s : State T) (n : ℕ) : State T := { s with calls := s.calls + n }

/-- No memory for `new T[n]`. -/
def State.ArrayFails (E : Environment) (n : ℕ) (s : State T) : Prop :=
  SIZE_RANGE ≤ n * E.sizeof ∨ E.allocationThrows s.calls = true

instance (n : ℕ) (s : State T) : Decidable (s.ArrayFails E n) :=
  inferInstanceAs (Decidable (_ ∨ _))

theorem newArray_fails [Inhabited T] (h : s.ArrayFails E n) :
    ∃ calls, s.newArray E n = ⟨{ s with calls }, [], true⟩ := by
  unfold State.newArray
  split
  · exact ⟨s.calls, rfl⟩
  · rename_i hsize
    rw [allocate_of_throws (h.resolve_left hsize)]
    exact ⟨s.calls + 1, rfl⟩

theorem resize_fails [Inhabited T] (h : s.ArrayFails E n) :
    ∃ calls, s.resize E n = ⟨{ s with calls }, [], true⟩ := by
  obtain ⟨calls, hnew⟩ := newArray_fails h
  refine ⟨calls, ?_⟩
  unfold State.resize
  rw [hnew]
  rfl

theorem relocateAll_fails (h : E.allocationThrows s.calls = true) :
    s.relocateAll E n = ⟨{ s with calls := s.calls + 1 }, [], true⟩ := by
  unfold State.relocateAll State.operatorNew
  rw [allocate_of_throws h]
  rfl

theorem filled_step (f : ℕ → Option T) (k : ℕ) :
    (((s.after k).withObjects (filled s.objects b k f)).after 1).setObject b k (f k) =
      (s.after (k + 1)).withObjects (filled s.objects b (k + 1) f) := by
  rw [setObject_eq]
  apply congrArg (s.after (k + 1)).withObjects
  funext x j
  unfold State.after State.withObjects filled
  grind

theorem filled_zero (f : ℕ → Option T) : (s.after 0).withObjects (filled s.objects b 0 f) = s :=
  withObjects_of_eq fun _ _ => by simp [filled, State.after]

section Resized
variable [Inhabited T]

/-- The state in which `resize` has its new array. -/
def State.withArray (s : State T) (n : ℕ) : State T :=
  ((s.allocated ⟨.array, n⟩).after n).withObjects (filled s.objects s.next n fun _ => some default)

theorem elements_zero (s : State T) (n : ℕ) :
    ((s.allocated ⟨.array, n⟩).after 0).withObjects
      (filled s.objects s.next 0 fun _ => some default) = s.allocated ⟨.array, n⟩ :=
  filled_zero (s := s.allocated ⟨.array, n⟩) _

/-- The state in which `resize` has copied the elements. -/
def State.withCopies (s : State T) (n : ℕ) : State T :=
  ((s.withArray n).after s.size).withObjects
    (filled (s.withArray n).objects s.next s.size ((s.withArray n).objects s.data))

/-- The state that `resize` leaves. -/
def State.resized (s : State T) (n : ℕ) : State T :=
  { (s.withCopies n).withObjects (cleared (s.withCopies n).objects s.data s.length) with
    blocks := Function.update (s.withCopies n).blocks s.data none
    data := s.next
    capacity := n }

theorem withCopies_data (hp : Placed s) :
    (s.withCopies n).blocks s.data = s.blocks s.data ∧
      (s.withCopies n).objects s.data = s.objects s.data := by
  have hne : s.data ≠ s.next := Nat.ne_of_lt hp.data
  refine ⟨Function.update_of_ne hne _ _, funext fun i => ?_⟩
  simp [State.withCopies, State.withArray, State.withObjects, filled, hne]

end Resized

section NoThrow
variable (hE : ∀ k, E.elementThrows k = false)
include hE

theorem construct_ends (s : State T) (b i : ℕ) (arg : Argument T) :
    (s.construct E b i arg).Ends ((s.after 1).setObject b i (s.fetch arg)) := by
  unfold State.construct
  rw [store_eq hE]
  exact ⟨rfl, rfl⟩

theorem assign_ends (s : State T) (b i : ℕ) (arg : Argument T) :
    (s.assign E b i arg).Ends ((s.after 1).setObject b i (s.fetch arg)) := by
  unfold State.assign
  rw [store_eq hE]
  exact ⟨rfl, rfl⟩

theorem copy_step (hb : b ≠ b') (k : ℕ) :
    (State.assign E b' k (.object b k)
      ((s.after k).withObjects (filled s.objects b' k (s.objects b)))).Ends
      ((s.after (k + 1)).withObjects (filled s.objects b' (k + 1) (s.objects b))) := by
  have hfetch : ((s.after k).withObjects (filled s.objects b' k (s.objects b))).fetch
      (.object b k) = s.objects b k := if_neg fun h => hb h.1
  rw [← filled_step, ← hfetch]
  exact assign_ends hE _ b' k _

/-- Copy assignment of the first `n` objects of a block. -/
theorem copyLoop_ends (hb : b ≠ b') :
    (loop (fun i => State.assign E b' i (.object b i)) n s).Ends
      ((s.after n).withObjects (filled s.objects b' n (s.objects b))) := by
  have hloop := ends_loop (fun k => (s.after k).withObjects (filled s.objects b' k (s.objects b)))
    (n := n) fun k _ => copy_step hE hb k
  rwa [filled_zero] at hloop

theorem clean_copyLoop (hb : b ≠ b') :
    Clean s (loop (fun i => State.assign E b' i (.object b i)) n s) ↔
      ∀ i < n, (s.objects b i).isSome = true ∧ (s.objects b' i).isSome = true := by
  have hloop := accepted_loop (fun _ _ => followed_assign)
    (fun k => (s.after k).withObjects (filled s.objects b' k (s.objects b))) (n := n)
    fun k _ => copy_step hE hb k
  rw [filled_zero] at hloop
  refine hloop.trans (forall₂_congr fun k _ => (clean_assign hE).trans ?_)
  simp [State.withObjects, State.after, filled, Readable, hb]

variable [Inhabited T]

/-- One element of `new T[n]`. -/
theorem element_eq (s : State T) (b i : ℕ) :
    (s.construct E b i (.value default)).onThrow (fun s' =>
      (s'.destroyArray b i).andThen (State.release b .array)) =
      s.construct E b i (.value default) :=
  onThrow_of_not_threw (construct_ends hE s b i _).1 _

theorem newArray_eq (h : ¬ s.ArrayFails E n) : s.newArray E n =
    (s.allocate E ⟨.array, n⟩).andThen
      (loop (fun i s' => State.construct E s.next i (.value default) s') n) := by
  unfold State.newArray
  simp only [if_neg (not_or.mp h).1, element_eq hE]

theorem element_step (s : State T) (n k : ℕ) :
    (State.construct E s.next k (.value default)
      (((s.allocated ⟨.array, n⟩).after k).withObjects
        (filled s.objects s.next k fun _ => some default))).Ends
      (((s.allocated ⟨.array, n⟩).after (k + 1)).withObjects
        (filled s.objects s.next (k + 1) fun _ => some default)) := by
  have hstep := filled_step (s := s.allocated ⟨.array, n⟩) (b := s.next)
    (fun _ => some (default : T)) k
  exact hstep ▸ construct_ends hE _ s.next k (.value default)

theorem newArray_ends (h : ¬ s.ArrayFails E n) : (s.newArray E n).Ends (s.withArray n) := by
  rw [newArray_eq hE h]
  apply (allocate_ends (Bool.eq_false_iff.mpr (not_or.mp h).2)).andThen
  have hloop := ends_loop (fun k => ((s.allocated ⟨.array, n⟩).after k).withObjects
    (filled s.objects s.next k fun _ => some default)) (n := n) fun k _ => element_step hE s n k
  rwa [elements_zero] at hloop

theorem clean_newArray (h : ¬ s.ArrayFails E n) (hnext : s.blocks s.next = none)
    (hdead : ∀ i, s.objects s.next i = none) : Clean s (s.newArray E n) := by
  rw [newArray_eq hE h]
  apply (accepted_andThen followed_allocate
    (allocate_ends (Bool.eq_false_iff.mpr (not_or.mp h).2))).mpr
  have hloop := accepted_loop (fun _ _ => followed_construct)
    (fun k => ((s.allocated ⟨.array, n⟩).after k).withObjects
      (filled s.objects s.next k fun _ => some default)) (n := n) fun k _ => element_step hE s n k
  rw [elements_zero] at hloop
  refine ⟨clean_allocate hnext, hloop.mpr fun k hk => (clean_construct hE).mpr ?_⟩
  refine ⟨trivial, ⟨.array, n⟩, ?_, hk, ?_⟩
  · simp [State.withObjects, State.after, State.allocated]
  · simp [State.withObjects, State.after, filled, hdead]

/-- `resize`, given what its `delete[]` leaves. -/
theorem resize_ends_of_delete (h : ¬ s.ArrayFails E n) (hp : Placed s) {s' : State T}
    (hdelete : ((s.withCopies n).deleteArray s.data).Ends s') :
    (s.resize E n).Ends { s' with data := s.next, capacity := n } := by
  apply (newArray_ends hE h).andThen
  apply (copyLoop_ends hE (Nat.ne_of_lt hp.data)).andThen
  exact hdelete.andThen ⟨rfl, rfl⟩

theorem resize_ends (h : ¬ s.ArrayFails E n) (ht : Tidy E s) (hform : s.form ≠ some .raw) :
    (s.resize E n).Ends (s.resized n) := by
  have hdata := (withCopies_data (n := n) ht.placed).1
  have hdelete : ((s.withCopies n).deleteArray s.data).Ends _ := deleteArray_ends
    (fun hnull => hdata.trans (ht.nullptr hnull)) fun m hblock => hform (by
      rw [hdata] at hblock
      simp [State.form, hblock])
  have hlength : (s.withCopies n).lengthOf s.data = s.length := by
    unfold State.length State.lengthOf
    rw [hdata]
  rw [hlength] at hdelete
  exact resize_ends_of_delete hE h ht.placed hdelete

theorem clean_resize (h : ¬ s.ArrayFails E n) (ht : Tidy E s) :
    Clean s (s.resize E n) ↔ s.size ≤ n ∧ s.form ≠ some .raw ∧
      ∀ i < s.length, (s.objects s.data i).isSome = true := by
  have hne : s.data ≠ s.next := Nat.ne_of_lt ht.data
  obtain ⟨hblocks, hobjects⟩ := withCopies_data (n := n) ht.placed
  have hcopies : Clean (s.withArray n)
      (loop (fun i => State.assign E s.next i (.object s.data i)) s.size (s.withArray n)) ↔
      s.size ≤ n := by
    apply (clean_copyLoop hE hne).trans
    have hnew (i : ℕ) : ((s.withArray n).objects s.next i).isSome = true ↔ i < n := by
      simp [State.withArray, State.withObjects, filled, ht.next_dead]
    have hold (i : ℕ) : (s.withArray n).objects s.data i = s.objects s.data i := by
      simp [State.withArray, State.withObjects, filled, hne]
    simp only [hnew, hold]
    constructor
    · intro h
      by_contra hlt
      exact absurd (h n (by omega)).2 (Nat.lt_irrefl n)
    · intro hsize i hi
      exact ⟨ht.elements i hi, by omega⟩
  have hdelete : Clean (s.withCopies n) ((s.withCopies n).deleteArray s.data) ↔
      s.form ≠ some .raw ∧ ∀ i < s.length, (s.objects s.data i).isSome = true := by
    rw [clean_deleteArray, hblocks, hobjects]
    exact ht.array_iff
  apply (accepted_andThen followed_newArray (newArray_ends hE h)).trans
  apply (and_iff_right (clean_newArray hE h ht.next_free ht.next_dead)).trans
  refine (accepted_andThen (tracks_loop (fun _ _ => followed_assign) _)
    (copyLoop_ends hE hne)).trans ?_
  apply and_congr hcopies
  exact (clean_andThen_done (g := fun s' => { s' with data := s.next, capacity := n })
    fun _ => rfl).trans hdelete

end NoThrow

/-- The state in which the elements have moved to raw memory. -/
def State.withMoved (E : Environment) (s : State T) (n : ℕ) : State T :=
  (s.allocated ⟨.raw, rawLength E n⟩).withObjects (relocated s.objects s.data s.next s.size)

/-- The state that `reserve` and `shrink_to_fit` leave. -/
def State.relocatedAll (E : Environment) (s : State T) (n : ℕ) : State T :=
  { s.withMoved E n with
    blocks := Function.update (s.withMoved E n).blocks s.data none
    data := s.next
    capacity := n }

theorem withMoved_data (hp : Placed s) : (s.withMoved E n).blocks s.data = s.blocks s.data :=
  Function.update_of_ne (Nat.ne_of_lt hp.data) _ _

theorem relocateAll_ends (h : E.allocationThrows s.calls = false) (hp : Placed s) :
    (s.relocateAll E n).Ends (s.relocatedAll E n) := by
  apply (allocate_ends h).andThen
  apply (relocateLoop_ends (Nat.ne_of_lt hp.data)).andThen
  have hdelete : ((s.withMoved E n).operatorDelete s.data).Ends _ :=
    operatorDelete_ends fun hnull => (withMoved_data hp).trans (hp.nullptr hnull)
  exact hdelete.andThen ⟨rfl, rfl⟩

theorem clean_relocateAll (h : E.allocationThrows s.calls = false) (ht : Tidy E s) :
    Clean s (s.relocateAll E n) ↔ s.size ≤ rawLength E n ∧ s.form ≠ some .array := by
  have hne : s.data ≠ s.next := Nat.ne_of_lt ht.data
  have hmove : Clean (s.allocated ⟨.raw, rawLength E n⟩)
      (loop (fun i => State.relocate s.data i s.next i) s.size
        (s.allocated ⟨.raw, rawLength E n⟩)) ↔ s.size ≤ rawLength E n := by
    apply (clean_relocateLoop hne).trans
    have hfree (i : ℕ) : (s.allocated ⟨.raw, rawLength E n⟩).storage.Free s.next i ↔
        i < rawLength E n := by
      simp [Storage.Free, State.allocated, ht.next_dead]
    simp only [hfree]
    constructor
    · intro h
      by_contra hlt
      exact absurd (h (rawLength E n) (by omega)).2 (Nat.lt_irrefl _)
    · intro hsize i hi
      exact ⟨ht.elements i hi, by omega⟩
  have hdelete : Clean (s.withMoved E n) ((s.withMoved E n).operatorDelete s.data) ↔
      s.form ≠ some .array := by
    rw [clean_operatorDelete, ← ht.raw_iff]
    apply or_congr_right
    constructor
    · rintro ⟨block, hblock, hform, -⟩
      have hold : s.blocks s.data = some block := (withMoved_data ht.placed).symm.trans hblock
      exact Tidy.buffer (by simp [State.form, hold, hform])
    · intro hblock
      refine ⟨_, (withMoved_data ht.placed).trans hblock, rfl, fun i _ => ?_⟩
      rw [storage_live]
      unfold State.withMoved State.withObjects relocated cleared filled
      by_cases hi : i < s.size
      · simp [hi]
      · have hdead := mt (ht.raw (by simp [State.form, hblock]) i) hi
        simpa [hi] using hdead
  apply (accepted_andThen followed_allocate (allocate_ends h)).trans
  apply (and_iff_right (clean_allocate ht.next_free)).trans
  refine (accepted_andThen (tracks_loop (fun _ _ => followed_relocate) _)
    (relocateLoop_ends hne)).trans ?_
  apply and_congr hmove
  exact (clean_andThen_done (g := fun s' => { s' with data := s.next, capacity := n })
    fun _ => rfl).trans hdelete

end MyVector
