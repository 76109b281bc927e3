import LowLevelCpp.MyVector.Growth

/-! What keeps a vector tidy. -/
namespace MyVector
open Foundations Outcome

variable {T : Type} {s : State T} {E : Environment} {n : ℕ}

theorem rawLength_le (E : Environment) (n : ℕ) : rawLength E n ≤ n := by
  unfold rawLength
  apply Nat.div_le_of_le_mul
  rw [Nat.mul_comm]
  exact Nat.mod_le _ _

theorem rawLength_bytes (E : Environment) (n : ℕ) : rawLength E n * E.sizeof < SIZE_RANGE := by
  unfold rawLength
  apply Nat.lt_of_le_of_lt (Nat.div_mul_le_self _ _)
  apply Nat.mod_lt
  exact Nat.two_pow_pos 64

theorem rawLength_of_lt (h : n * E.sizeof < SIZE_RANGE) : rawLength E n = n := by
  unfold rawLength
  rw [Nat.mod_eq_of_lt h, Nat.mul_div_cancel _ E.sizeof_pos]

/-- The state with a new element at the index. -/
def State.inserted (s : State T) (index : ℕ) (v : T) : State T :=
  { s with
    objects := fun x i =>
      if x = s.data ∧ i = index then some v
      else shifted s.objects s.data s.size (s.size - index) x i
    size := (s.size + 1) % SIZE_RANGE
    calls := s.calls + 1 }

theorem inserted_size (s : State T) (v : T) :
    s.inserted s.size v = ((s.after 1).setObject s.data s.size (some v)).incrementSize := by
  rw [setObject_eq]
  unfold State.inserted
  simp only [Nat.sub_self, shifted]
  simp only [Nat.lt_irrefl, and_false, if_false]
  rfl

namespace Tidy

/-- Objects come and go in the buffer. -/
theorem withElements (ht : Tidy E s) (calls : ℕ) {objects : ℕ → ℕ → Option T} {size : ℕ}
    (hobjects : ∀ b i, (objects b i).isSome = true → b = s.data ∧ i < s.length)
    (helements : ∀ i < size, (objects s.data i).isSome = true)
    (hraw : s.form = some .raw → ∀ i, (objects s.data i).isSome = true → i < size) :
    Tidy E { s with objects, size, calls } :=
  ⟨ht.running, ht.data, ht.nullptr, ht.others, hobjects, helements, ht.length_le, ht.array, hraw,
    ht.none, ht.bytes⟩

theorem withCalls (ht : Tidy E s) (calls : ℕ) : Tidy E { s with calls } :=
  ht.withElements calls ht.objects ht.elements ht.raw

theorem size_lt_range (ht : Tidy E s) : s.length < SIZE_RANGE :=
  Nat.lt_of_le_of_lt (Nat.le_mul_of_pos_right _ E.sizeof_pos) ht.bytes

/-- A buffer with room for another element is not null. -/
theorem exists_block (ht : Tidy E s) (hcapacity : s.capacity ≠ 0) :
    ∃ form, s.blocks s.data = some ⟨form, s.length⟩ := by
  cases hform : s.form with
  | none => exact absurd (ht.none hform).2 hcapacity
  | some form => exact ⟨form, buffer hform⟩

theorem free_iff (ht : Tidy E s) (hcapacity : s.capacity ≠ 0) {i : ℕ} :
    s.storage.Free s.data i ↔ i < s.length ∧ s.objects s.data i = Option.none := by
  obtain ⟨form, hblock⟩ := ht.exists_block hcapacity
  simp [Storage.Free, hblock]

/-- A vector that owns one block and nothing else. -/
theorem ofBlock (block : Block) (hrunning : s.destructed = false)
    (hdata : s.data ≠ MyVector.nullptr) (hnext : s.data < s.next)
    (hblocks : ∀ b, s.blocks b = if b = s.data then some block else Option.none)
    (hobjects : ∀ b i, (s.objects b i).isSome = true → b = s.data ∧ i < block.length)
    (helements : ∀ i < s.size, (s.objects s.data i).isSome = true)
    (hcapacity : block.length ≤ s.capacity)
    (harray : block.form = .array → block.length = s.capacity)
    (hraw : block.form = .raw → ∀ i, (s.objects s.data i).isSome = true → i < s.size)
    (hbytes : block.length * E.sizeof < SIZE_RANGE) : Tidy E s ∧ s.length = block.length := by
  have hblock : s.blocks s.data = some block := by rw [hblocks, if_pos rfl]
  have hlength : s.length = block.length := by
    unfold State.length State.lengthOf
    rw [hblock]
    rfl
  have hform : s.form = some block.form := by
    unfold State.form
    rw [hblock]
    rfl
  refine ⟨⟨hrunning, hnext, fun hnull => absurd hnull hdata, ?_, ?_, helements, ?_, ?_, ?_, ?_, ?_⟩,
    hlength⟩
  · intro b hb
    rw [hblocks, if_neg hb]
  · rw [hlength]
    exact hobjects
  · rw [hlength]
    exact hcapacity
  · intro h
    rw [hlength]
    exact harray (Option.some.inj (hform.symm.trans h))
  · intro h
    exact hraw (Option.some.inj (hform.symm.trans h))
  · intro h
    simp [hform] at h
  · rw [hlength]
    exact hbytes

/-- A vector that owns nothing. -/
theorem ofNothing (hrunning : s.destructed = false) (hdata : s.data = MyVector.nullptr)
    (hnext : s.data < s.next) (hsize : s.size = 0)
    (hcapacity : s.capacity = 0) (hblocks : ∀ b, s.blocks b = Option.none)
    (hobjects : ∀ b i, s.objects b i = Option.none) : Tidy E s := by
  have hform : s.form = Option.none := by simp [State.form, hblocks]
  have hlength : s.length = 0 := by simp [State.length, State.lengthOf, hblocks]
  refine ⟨hrunning, hnext, fun _ => hblocks _, fun b _ => hblocks b, ?_, ?_, ?_, ?_, ?_,
    fun _ => ⟨hdata, hcapacity⟩, ?_⟩
  · intro b i hlive
    simp [hobjects] at hlive
  · intro i hi
    omega
  · omega
  · intro h
    simp [hform] at h
  · intro h
    simp [hform] at h
  · rw [hlength, Nat.zero_mul]
    exact Nat.two_pow_pos 64

/-- A new element in the slot that the elements behind it have left. -/
theorem inserted (ht : Tidy E s) (hroom : s.size < s.length) {index : ℕ} (hindex : index ≤ s.size)
    (v : T) : Tidy E (s.inserted index v) := by
  have hsize : (s.size + 1) % SIZE_RANGE = s.size + 1 :=
    Nat.mod_eq_of_lt (Nat.lt_of_le_of_lt hroom ht.size_lt_range)
  unfold State.inserted shifted
  rw [hsize]
  apply ht.withElements
  · intro x i hlive
    have hold := ht.objects x i
    grind
  · intro i hi
    have hold := ht.elements i
    have hbelow := ht.elements (i - 1)
    grind
  · intro hraw i hlive
    have hold := ht.raw hraw i
    grind

theorem next_ne_nullptr (ht : Tidy E s) : s.next ≠ MyVector.nullptr :=
  Nat.ne_of_gt (Nat.lt_of_le_of_lt (Nat.zero_le _) ht.data)

/-- Only the elements exist in a buffer that is not an array. -/
theorem lt_size (ht : Tidy E s) (hform : s.form ≠ some .array) {b i : ℕ}
    (hlive : (s.objects b i).isSome = true) : b = s.data ∧ i < s.size := by
  obtain ⟨rfl, hi⟩ := ht.objects b i hlive
  refine ⟨rfl, ?_⟩
  cases h : s.form with
  | none => simp [State.length, State.lengthOf, Option.map_eq_none_iff.mp h] at hi
  | some form =>
    cases form with
    | array => exact absurd h hform
    | raw => exact ht.raw h i hlive

/-- After `reserve` or `shrink_to_fit` the vector has raw memory. -/
theorem relocatedAll (ht : Tidy E s) (hsize : s.size ≤ rawLength E n)
    (hform : s.form ≠ some .array) :
    Tidy E (s.relocatedAll E n) ∧ (s.relocatedAll E n).length = rawLength E n ∧
      ∀ i, ((s.relocatedAll E n).objects s.next i).isSome = true → i < s.size := by
  have hne := Nat.ne_of_lt ht.data
  have hlive {x i : ℕ} (h : ((s.relocatedAll E n).objects x i).isSome = true) :
      x = s.next ∧ i < s.size := by
    have hobject : (s.relocatedAll E n).objects x i =
        relocated s.objects s.data s.next s.size x i := rfl
    rw [hobject] at h
    unfold relocated cleared filled at h
    have hold := fun h => ht.lt_size hform (b := x) (i := i) h
    grind
  have hblock : Tidy E (s.relocatedAll E n) ∧ (s.relocatedAll E n).length = rawLength E n := by
    apply ofBlock ⟨.raw, rawLength E n⟩
    · exact ht.running
    · exact ht.next_ne_nullptr
    · exact Nat.lt_succ_self _
    · intro b
      show Function.update (Function.update s.blocks _ _) _ _ b = if b = s.next then _ else _
      have hold := ht.others b
      simp only [Function.update_apply]
      grind
    · intro b i h
      exact ⟨(hlive h).1, Nat.lt_of_lt_of_le (hlive h).2 hsize⟩
    · intro i (hi : i < s.size)
      show (relocated s.objects s.data s.next s.size s.next i).isSome = true
      have hold := ht.elements i hi
      unfold relocated cleared filled
      grind
    · exact rawLength_le E n
    · simp
    · exact fun _ i h => (hlive h).2
    · exact rawLength_bytes E n
  exact ⟨hblock.1, hblock.2, fun i h => (hlive h).2⟩

/-- The last element is gone. -/
theorem popBack (ht : Tidy E s) (hsize : 0 < s.size) :
    Tidy E ({ s with size := s.size - 1 }.setObject s.data (s.size - 1) Option.none) := by
  rw [setObject_eq]
  apply ht.withElements
  · intro x i hlive
    have hold := ht.objects x i
    grind
  · intro i hi
    have hold := ht.elements i
    grind
  · intro hraw i hlive
    have hold := ht.raw hraw i
    grind

/-- The elements are gone. -/
theorem clear (ht : Tidy E s) :
    Tidy E { s.withObjects (cleared s.objects s.data s.size) with size := 0 } := by
  have hlive {x i : ℕ} (h : (cleared s.objects s.data s.size x i).isSome = true) :
      (s.objects x i).isSome = true ∧ ¬ (x = s.data ∧ i < s.size) := by
    unfold cleared at h
    grind
  apply ht.withElements
  · exact fun x i h => ht.objects x i (hlive h).1
  · exact fun i hi => absurd hi (Nat.not_lt_zero i)
  · intro hraw i h
    exact absurd ⟨rfl, ht.raw hraw i (hlive h).1⟩ (hlive h).2

/-- The vector has given its block back. -/
theorem freed (ht : Tidy E s) (hsize : s.size = 0) (hform : s.form ≠ some .array) :
    Tidy E { s with
      blocks := Function.update s.blocks s.data Option.none
      data := MyVector.nullptr
      capacity := 0 } := by
  refine ofNothing (s := { s with blocks := _, data := _, capacity := _ }) ht.running rfl
    (Nat.lt_of_le_of_lt (Nat.zero_le _) ht.data) hsize rfl ?_ ?_
  · intro b
    show Function.update s.blocks s.data Option.none b = Option.none
    have hold := ht.others b
    simp only [Function.update_apply]
    grind
  · intro b i
    apply Option.not_isSome_iff_eq_none.mp
    intro hlive
    have hlt := (ht.lt_size hform (b := b) (i := i) hlive).2
    omega

variable [Inhabited T]

theorem resized_objects (ht : Tidy E s) (x i : ℕ) : (s.resized n).objects x i =
    if x = s.data ∧ i < s.length then Option.none
    else if x = s.next ∧ i < s.size then s.objects s.data i
    else if x = s.next ∧ i < n then some default
    else s.objects x i := by
  have hne : s.data ≠ s.next := Nat.ne_of_lt ht.data
  simp [State.resized, State.withCopies, State.withArray, State.withObjects, cleared, filled, hne]

/-- After `resize` the vector has an array, in which every object exists. -/
theorem resized (ht : Tidy E s) (hsize : s.size ≤ n) (hbytes : n * E.sizeof < SIZE_RANGE) :
    Tidy E (s.resized n) ∧ (s.resized n).length = n ∧
      ∀ i < n, ((s.resized n).objects s.next i).isSome = true := by
  have hne := Nat.ne_of_lt ht.data
  have helements (i : ℕ) (hi : i < n) : ((s.resized n).objects s.next i).isSome = true := by
    rw [ht.resized_objects]
    have hold := ht.elements i
    grind
  have hblock : Tidy E (s.resized n) ∧ (s.resized n).length = n := by
    apply ofBlock ⟨.array, n⟩
    · exact ht.running
    · exact ht.next_ne_nullptr
    · exact Nat.lt_succ_self _
    · intro b
      show Function.update (Function.update s.blocks _ _) _ _ b = if b = s.next then _ else _
      have hold := ht.others b
      simp only [Function.update_apply]
      grind
    · intro b i hlive
      show b = s.next ∧ i < n
      rw [ht.resized_objects] at hlive
      have hold := ht.objects b i
      grind
    · intro i hi
      exact helements i (Nat.lt_of_lt_of_le hi hsize)
    · exact Nat.le_refl n
    · exact fun _ => rfl
    · simp
    · exact hbytes
  exact ⟨hblock.1, hblock.2, helements⟩

end Tidy

end MyVector
