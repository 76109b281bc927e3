import LowLevelCpp.MyVector.Tidy

/-! The members of `my::vector`: each keeps the vector tidy if it does what the discipline allows,
and when the discipline allows it. -/
namespace MyVector
open Foundations Outcome

variable {T : Type} {s : State T} {E : Environment} {n : ℕ}

section Members

theorem lt_length_of_free {i : ℕ} (h : s.storage.Free s.data i) : i < s.length := by
  obtain ⟨block, hblock, hi, -⟩ := h
  unfold State.length State.lengthOf
  rwa [show s.blocks s.data = some block from hblock]

theorem clean_destruct (ht : Tidy E s) : Clean s s.destruct ↔
    s.form ≠ some .raw ∧ ∀ i < s.length, (s.objects s.data i).isSome = true := by
  apply (clean_andThen_done (g := fun s' => { s' with destructed := true }) fun _ => rfl).trans
  exact clean_deleteArray.trans ht.array_iff

/-- Nothing is left of the vector. -/
theorem destruct_ends (ht : Tidy E s) (hform : s.form ≠ some .raw) : ∃ s', s.destruct.Ends s' ∧
    s'.destructed = true ∧ (∀ b i, s'.objects b i = none) ∧ ∀ b, s'.blocks b = none := by
  have hdelete := deleteArray_ends ht.nullptr fun m hblock => hform (by simp [State.form, hblock])
  refine ⟨_, hdelete.andThen ⟨rfl, rfl⟩, rfl, ?_, ?_⟩
  · intro b i
    show cleared s.objects s.data s.length b i = none
    apply Option.not_isSome_iff_eq_none.mp
    have hold := ht.objects b i
    unfold cleared
    grind
  · intro b
    show Function.update s.blocks s.data none b = none
    have hold := ht.others b
    simp only [Function.update_apply]
    grind

theorem clean_popBack (ht : Tidy E s) : Clean s s.popBack := by
  unfold State.popBack
  split
  · rename_i hsize
    have hlast := ht.elements (s.size - 1) (by omega)
    exact (clean_destroy (s := { s with size := s.size - 1 })).mpr hlast
  · exact accepted_done

theorem tidy_popBack (ht : Tidy E s) : Tidy E s.popBack.state := by
  unfold State.popBack
  split
  · exact ht.popBack ‹_›
  · exact ht

theorem clean_clear (ht : Tidy E s) : Clean s s.clear := by
  apply (clean_andThen_done (g := fun s' => { s' with size := 0 }) fun _ => rfl).mpr
  exact clean_destroyLoop.mpr ht.elements

theorem tidy_clear (ht : Tidy E s) : Tidy E s.clear.state := by
  have hclear := (destroyLoop_ends (s := s) (b := s.data) (n := s.size)).andThen
    (f := fun s' => done { s' with size := 0 }) ⟨rfl, rfl⟩
  unfold State.clear
  rw [hclear.2]
  exact ht.clear

/-- Growth by `reserve` or `shrink_to_fit`, which may find no memory. -/
theorem clean_grow (ht : Tidy E s) : Clean s (s.relocateAll E n) ↔
    E.allocationThrows s.calls = true ∨ s.size ≤ rawLength E n ∧ s.form ≠ some .array := by
  cases hthrows : E.allocationThrows s.calls with
  | true =>
    rw [relocateAll_fails hthrows]
    simp only [true_or, iff_true]
    rfl
  | false => simp [clean_relocateAll hthrows ht]

theorem tidy_grow (ht : Tidy E s) (h : E.allocationThrows s.calls = true ∨
    s.size ≤ rawLength E n ∧ s.form ≠ some .array) : Tidy E (s.relocateAll E n).state := by
  cases hthrows : E.allocationThrows s.calls with
  | true =>
    rw [relocateAll_fails hthrows]
    exact ht.withCalls _
  | false =>
    obtain ⟨hsize, hform⟩ := h.resolve_left (by simp [hthrows])
    rw [(relocateAll_ends hthrows ht.placed).2]
    exact (ht.relocatedAll hsize hform).1

/-- What `reserve(n)` needs. -/
def State.CanReserve (E : Environment) (n : ℕ) (s : State T) : Prop :=
  n ≤ s.capacity ∨ E.allocationThrows s.calls = true ∨
    s.size ≤ rawLength E n ∧ s.form ≠ some .array

instance (n : ℕ) (s : State T) : Decidable (s.CanReserve E n) := by
  unfold State.CanReserve
  infer_instance

theorem clean_reserve (ht : Tidy E s) : Clean s (s.reserve E n) ↔ s.CanReserve E n := by
  unfold State.reserve State.CanReserve
  split
  · exact ⟨fun _ => .inl ‹_›, fun _ => accepted_done⟩
  · simp [clean_grow ht, *]

theorem tidy_reserve (ht : Tidy E s) (h : s.CanReserve E n) : Tidy E (s.reserve E n).state := by
  unfold State.reserve
  split
  · exact ht
  · exact tidy_grow ht (h.resolve_left ‹_›)

/-- What `shrink_to_fit()` needs. -/
def State.CanShrink (E : Environment) (s : State T) : Prop :=
  s.capacity = s.size ∨ s.form ≠ some .array ∨ s.size ≠ 0 ∧ E.allocationThrows s.calls = true

instance (s : State T) : Decidable (s.CanShrink E) := by
  unfold State.CanShrink
  infer_instance

theorem rawLength_size (ht : Tidy E s) : rawLength E s.size = s.size :=
  rawLength_of_lt (Nat.lt_of_le_of_lt (Nat.mul_le_mul_right _ ht.size_le) ht.bytes)

theorem clean_shrinkToFit (ht : Tidy E s) : Clean s (s.shrinkToFit E) ↔ s.CanShrink E := by
  unfold State.shrinkToFit State.CanShrink
  split
  · exact ⟨fun _ => .inl ‹_›, fun _ => accepted_done⟩
  rename_i hcapacity
  split
  · rename_i hsize
    refine (clean_andThen_done (g := fun s' => { s' with data := nullptr, capacity := 0 })
      fun _ => rfl).trans ?_
    apply clean_operatorDelete.trans
    rw [or_iff_right hcapacity, or_iff_left (b := s.size ≠ 0 ∧ _) fun h => h.1 hsize, ← ht.raw_iff]
    apply or_congr_right
    constructor
    · rintro ⟨block, hblock, hform, -⟩
      exact Tidy.buffer (by simp [State.form, (show s.blocks s.data = _ from hblock), hform])
    · intro hblock
      refine ⟨_, hblock, rfl, fun i _ => ?_⟩
      have hraw := ht.raw (by simp [State.form, hblock]) i
      rw [storage_live]
      grind
  · rename_i hsize
    rw [clean_grow ht, rawLength_size ht]
    simp [hcapacity, hsize, or_comm]

theorem tidy_shrinkToFit (ht : Tidy E s) (h : s.CanShrink E) : Tidy E (s.shrinkToFit E).state := by
  unfold State.shrinkToFit
  split
  · exact ht
  rename_i hcapacity
  split
  · rename_i hsize
    have hform : s.form ≠ some .array := by
      rcases h with h | h | h
      · exact absurd h hcapacity
      · exact h
      · exact absurd hsize h.1
    have hdelete := (operatorDelete_ends ht.nullptr).andThen
      (f := fun s' => done { s' with data := nullptr, capacity := 0 }) ⟨rfl, rfl⟩
    rw [hdelete.2]
    exact ht.freed hsize hform
  · rename_i hsize
    apply tidy_grow ht
    rw [rawLength_size ht]
    rcases h with h | h | h
    · exact absurd h hcapacity
    · exact .inr ⟨Nat.le_refl _, h⟩
    · exact .inl h.2

/-- What `push_back` needs: an object to assign to, or a new array. -/
def State.CanPush (E : Environment) (s : State T) : Prop :=
  if s.size = s.capacity then s.ArrayFails E s.grown ∨ s.form ≠ some .raw ∧ s.size < s.grown
  else (s.objects s.data s.size).isSome = true

instance (s : State T) : Decidable (s.CanPush E) := by
  unfold State.CanPush
  infer_instance

/-- What `emplace_back` and `emplace` need: a free slot, or new raw memory. -/
def State.CanEmplace (E : Environment) (s : State T) : Prop :=
  if s.size = s.capacity then
    s.capacity < s.grown ∧ E.allocationThrows s.calls = true ∨
      s.form ≠ some .array ∧ s.size < rawLength E s.grown
  else s.storage.Free s.data s.size

instance (s : State T) : Decidable (s.CanEmplace E) := by
  unfold State.CanEmplace
  infer_instance

theorem full_live (ht : Tidy E s) (hfull : s.size = s.capacity) :
    ∀ i < s.length, (s.objects s.data i).isSome = true :=
  fun i hi => ht.elements i (hfull ▸ Nat.lt_of_lt_of_le hi ht.length_le)

/-- The growth with which `emplace_back` and `emplace` begin. -/
def State.makeRoom (E : Environment) (s : State T) : Result T :=
  if s.size = s.capacity then s.reserve E s.grown else done s

theorem followed_makeRoom : Followed s (s.makeRoom E) := by
  unfold State.makeRoom
  split
  · exact followed_reserve
  · exact tracks_done

/-- There is no memory, or there is a buffer, of which the slot behind the elements matters, or the
buffer cannot be released. -/
theorem makeRoom_cases (ht : Tidy E s) :
    (∃ calls, s.makeRoom E = ⟨{ s with calls }, [], true⟩) ∧ s.CanEmplace E ∨
    (∃ s', (s.makeRoom E).Ends s' ∧ Clean s (s.makeRoom E) ∧ Tidy E s' ∧ s'.size = s.size ∧
      s'.capacity ≠ 0 ∧ (s'.storage.Free s'.data s'.size ↔ s.CanEmplace E)) ∨
    ¬ Clean s (s.makeRoom E) ∧ ¬ s.CanEmplace E := by
  have hsize := ht.size_le
  have hlength := ht.length_le
  unfold State.makeRoom State.CanEmplace
  split
  · rename_i hfull
    have hraw := rawLength_le E s.grown
    unfold State.reserve
    split
    · rename_i hgrown
      have hcapacity : s.capacity ≠ 0 := by
        intro h
        simp [State.grown, h] at hgrown
      refine .inr (.inl ⟨s, ends_done s, accepted_done, ht, rfl, hcapacity, ?_⟩)
      rw [ht.free_iff hcapacity]
      omega
    · rename_i hgrown
      cases hthrows : E.allocationThrows s.calls with
      | true =>
        exact .inl ⟨⟨_, relocateAll_fails hthrows⟩, .inl ⟨Nat.lt_of_not_le hgrown, rfl⟩⟩
      | false =>
        have hclean := clean_relocateAll (n := s.grown) hthrows ht
        simp only [Bool.false_eq_true, and_false, false_or]
        by_cases hmeets : s.size ≤ rawLength E s.grown ∧ s.form ≠ some .array
        · obtain ⟨htidy, hlength', hlive⟩ := ht.relocatedAll hmeets.1 hmeets.2
          have hcapacity : (s.relocatedAll E s.grown).capacity ≠ 0 :=
            Nat.ne_of_gt (Nat.lt_of_le_of_lt (Nat.zero_le _) (Nat.lt_of_not_le hgrown))
          have hdead : (s.relocatedAll E s.grown).objects s.next s.size = none := by
            apply Option.not_isSome_iff_eq_none.mp
            intro h
            exact absurd (hlive _ h) (Nat.lt_irrefl _)
          refine .inr (.inl ⟨_, relocateAll_ends hthrows ht.placed, hclean.mpr hmeets, htidy, rfl,
            hcapacity, ?_⟩)
          rw [htidy.free_iff hcapacity, hlength']
          exact ⟨fun h => ⟨hmeets.2, h.1⟩, fun h => ⟨h.2, hdead⟩⟩
        · refine .inr (.inr ⟨mt hclean.mp hmeets, fun h => hmeets ⟨?_, h.1⟩⟩)
          exact Nat.le_of_lt h.2
  · have hcapacity : s.capacity ≠ 0 := by omega
    exact .inr (.inl ⟨s, ends_done s, accepted_done, ht, rfl, hcapacity, Iff.rfl⟩)

/-- An insertion after growth. -/
theorem clean_makeRoom_andThen {insertion : State T → Result T} (ht : Tidy E s)
    (hinsert : ∀ s', Tidy E s' → s'.size = s.size → s'.capacity ≠ 0 →
      (Clean s' (insertion s') ↔ s'.storage.Free s'.data s'.size)) :
    Clean s ((s.makeRoom E).andThen insertion) ↔ s.CanEmplace E := by
  rcases makeRoom_cases ht with ⟨⟨calls, h⟩, hcan⟩ |
    ⟨s', hends, hclean, ht', hsize, hcapacity, hfree⟩ | ⟨hclean, hcan⟩
  · rw [h, andThen_of_threw rfl]
    exact ⟨fun _ => hcan, fun _ => rfl⟩
  · apply (accepted_andThen followed_makeRoom hends).trans
    rw [← hfree, ← hinsert s' ht' hsize hcapacity]
    exact and_iff_right hclean
  · exact ⟨fun h => absurd (accepted_of_andThen followed_makeRoom h) hclean, fun h => absurd h hcan⟩

theorem tidy_makeRoom_andThen {insertion : State T → Result T} (ht : Tidy E s)
    (hcan : s.CanEmplace E) (hinsert : ∀ s', Tidy E s' → s'.size = s.size →
      s'.storage.Free s'.data s'.size → Tidy E (insertion s').state) :
    Tidy E ((s.makeRoom E).andThen insertion).state := by
  rcases makeRoom_cases ht with ⟨⟨calls, h⟩, -⟩ | ⟨s', hends, -, ht', hsize, -, hfree⟩ | ⟨-, h⟩
  · rw [h, andThen_of_threw rfl]
    exact ht.withCalls calls
  · rw [andThen_of_not_threw hends.1, hends.2]
    exact hinsert s' ht' hsize (hfree.mpr hcan)
  · exact absurd hcan h

/-- What is left of `emplace` when the buffer has grown. -/
def State.insertAt (E : Environment) (index : ℕ) (args : Argument T) (s : State T) : Result T :=
  (s.shift index).andThen fun s => (s.construct E s.data index args).andThen fun s =>
    done s.incrementSize

theorem followed_insertAt {index : ℕ} {args : Argument T} :
    Followed s (s.insertAt E index args) := by
  apply followed_shift.andThen
  intro s'
  exact followed_construct.andThen (followed_done (g := State.incrementSize) fun _ => rfl)

theorem emplaceBack_eq (args : Argument T) (s : State T) : s.emplaceBack E args =
    (s.makeRoom E).andThen fun s => s.insertAt E s.size args := by
  unfold State.insertAt State.shift
  simp only [Nat.sub_self]
  rfl

end Members

section NoThrow
variable (hE : ∀ k, E.elementThrows k = false)
include hE

/-- `data[_size++] = value` -/
theorem clean_assignNext (v : T) :
    Clean s (s.incrementSize.assign E s.data s.size (.value v)) ↔
      (s.objects s.data s.size).isSome = true := by
  apply (clean_assign (s := s.incrementSize) hE).trans
  simp [Readable, State.incrementSize]

theorem tidy_assignNext (ht : Tidy E s) (hlive : (s.objects s.data s.size).isSome = true) (v : T) :
    Tidy E (s.incrementSize.assign E s.data s.size (.value v)).state := by
  have happend := ht.inserted (ht.objects _ _ hlive).2 (Nat.le_refl _) v
  rw [inserted_size] at happend
  rw [(assign_ends hE _ _ _ _).2]
  exact happend

section PushBack
variable [Inhabited T]

theorem clean_pushBack (ht : Tidy E s) (v : T) :
    Clean s (s.pushBack E (.value v)) ↔ s.CanPush E := by
  unfold State.pushBack State.CanPush
  split
  · rename_i hfull
    by_cases hfails : s.ArrayFails E s.grown
    · obtain ⟨calls, hresize⟩ := resize_fails hfails
      rw [hresize, andThen_of_threw rfl]
      exact ⟨fun _ => .inl hfails, fun _ => rfl⟩
    have hbytes : s.grown * E.sizeof < SIZE_RANGE := Nat.lt_of_not_le (not_or.mp hfails).1
    simp only [hfails, false_or]
    constructor
    · intro h
      obtain ⟨hsize, hform, -⟩ :=
        (clean_resize hE hfails ht).mp (accepted_of_andThen followed_resize h)
      have hassign := ((accepted_andThen followed_resize (resize_ends hE hfails ht hform)).mp h).2
      have hlive := (clean_assignNext hE v).mp hassign
      obtain ⟨htidy, hlength, -⟩ := ht.resized hsize hbytes
      exact ⟨hform, hlength ▸ (htidy.objects _ _ hlive).2⟩
    · rintro ⟨hform, hsize⟩
      refine (accepted_andThen followed_resize (resize_ends hE hfails ht hform)).mpr ⟨?_, ?_⟩
      · exact (clean_resize hE hfails ht).mpr ⟨Nat.le_of_lt hsize, hform, full_live ht hfull⟩
      · exact (clean_assignNext hE v).mpr ((ht.resized (Nat.le_of_lt hsize) hbytes).2.2 _ hsize)
  · rw [done_andThen]
    exact clean_assignNext hE v

theorem tidy_pushBack (ht : Tidy E s) (h : s.CanPush E) (v : T) :
    Tidy E (s.pushBack E (.value v)).state := by
  unfold State.CanPush at h
  unfold State.pushBack
  split
  · rename_i hfull
    rw [if_pos hfull] at h
    by_cases hfails : s.ArrayFails E s.grown
    · obtain ⟨calls, hresize⟩ := resize_fails hfails
      rw [hresize, andThen_of_threw rfl]
      exact ht.withCalls _
    obtain ⟨hform, hsize⟩ := h.resolve_left hfails
    have hbytes : s.grown * E.sizeof < SIZE_RANGE := Nat.lt_of_not_le (not_or.mp hfails).1
    obtain ⟨htidy, -, helements⟩ := ht.resized (Nat.le_of_lt hsize) hbytes
    obtain ⟨hthrew, hstate⟩ := resize_ends hE hfails ht hform
    rw [andThen_of_not_threw hthrew, hstate]
    exact tidy_assignNext hE htidy (helements _ hsize) v
  · rename_i hfull
    rw [if_neg hfull] at h
    rw [done_andThen]
    exact tidy_assignNext hE ht h v

end PushBack

theorem clean_insertAt (ht : Tidy E s) (hcapacity : s.capacity ≠ 0) {index : ℕ}
    (hindex : index ≤ s.size) (v : T) :
    Clean s (s.insertAt E index (.value v)) ↔ s.storage.Free s.data s.size := by
  obtain ⟨form, hblock⟩ := ht.exists_block hcapacity
  have hlast (s' : State T) : Clean s' ((s'.construct E s'.data index (.value v)).andThen fun s =>
      done s.incrementSize) ↔ s'.storage.Free s'.data index := by
    apply (clean_andThen_done (g := State.incrementSize) fun _ => rfl).trans
    apply (clean_construct hE).trans
    simp [Readable]
  apply (accepted_andThen followed_shift shift_ends).trans
  apply (and_congr (clean_shift hblock ht.size_le ht.elements) (hlast _)).trans
  rcases Nat.lt_or_eq_of_le hindex with hlt | rfl
  · rw [forall_prop_of_true hlt]
    apply and_iff_left
    refine ⟨⟨form, s.length⟩, hblock, Nat.lt_of_lt_of_le hlt ht.size_le, ?_⟩
    simp only [State.withObjects, storage_live, shifted]
    grind
  · rw [Nat.sub_self, shifted_zero]
    simp

theorem insertAt_ends (index : ℕ) (v : T) :
    (s.insertAt E index (.value v)).Ends (s.inserted index v) := by
  apply shift_ends.andThen
  apply (construct_ends hE _ _ _ _).andThen
  rw [setObject_eq]
  exact ⟨rfl, rfl⟩

theorem tidy_insertAt (ht : Tidy E s) (hroom : s.size < s.length) {index : ℕ}
    (hindex : index ≤ s.size) (v : T) : Tidy E (s.insertAt E index (.value v)).state := by
  rw [(insertAt_ends hE index v).2]
  exact ht.inserted hroom hindex v

theorem clean_emplace (ht : Tidy E s) {index : ℕ} (hindex : index ≤ s.size) (v : T) :
    Clean s (s.emplace E index (.value v)) ↔ s.CanEmplace E :=
  clean_makeRoom_andThen ht fun _ ht' hsize hcapacity =>
    clean_insertAt hE ht' hcapacity (hsize ▸ hindex) v

theorem clean_emplaceBack (ht : Tidy E s) (v : T) :
    Clean s (s.emplaceBack E (.value v)) ↔ s.CanEmplace E := by
  rw [emplaceBack_eq]
  exact clean_makeRoom_andThen ht fun _ ht' _ hcapacity =>
    clean_insertAt hE ht' hcapacity (Nat.le_refl _) v

theorem tidy_emplace (ht : Tidy E s) (hcan : s.CanEmplace E) {index : ℕ} (hindex : index ≤ s.size)
    (v : T) : Tidy E (s.emplace E index (.value v)).state :=
  tidy_makeRoom_andThen ht hcan fun _ ht' hsize hfree =>
    tidy_insertAt hE ht' (lt_length_of_free hfree) (hsize ▸ hindex) v

theorem tidy_emplaceBack (ht : Tidy E s) (hcan : s.CanEmplace E) (v : T) :
    Tidy E (s.emplaceBack E (.value v)).state := by
  rw [emplaceBack_eq]
  exact tidy_makeRoom_andThen ht hcan fun _ ht' _ hfree =>
    tidy_insertAt hE ht' (lt_length_of_free hfree) (Nat.le_refl _) v

end NoThrow
end MyVector
