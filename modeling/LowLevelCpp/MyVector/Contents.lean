import LowLevelCpp.MyVector.Bounds
import LowLevelCpp.MyVector.Members

/-! What `my::vector` holds, for elements that are copied and destroyed without exceptions and
without effects: whatever kind of buffer it has, the members change its contents as they change a
list. -/
namespace MyVector
open Foundations Outcome

variable {T : Type} {E : Environment} {s s' : State T} {xs ys : List T} {n index : ℕ} {v : T}

/-- The vector has a buffer for its capacity, of either form, or none; the list is in the first
slots. -/
structure Stores (E : Environment) (s : State T) (xs : List T) : Prop where
  running : s.destructed = false
  placed : Placed s
  owned : s.data ≠ nullptr → (s.blocks s.data).isSome = true
  others : ∀ b ≠ s.data, s.blocks b = none
  capacity : s.capacity ≤ s.length
  bytes : s.length * E.sizeof < SIZE_RANGE
  size : s.size = xs.length
  fits : s.size ≤ s.capacity
  elements : ∀ i < s.size, s.objects s.data i = xs[i]?

/-- The state with its contents in a new block. -/
def State.inBuffer (s : State T) (block : Block) (objects : ℕ → ℕ → Option T)
    (capacity calls : ℕ) : State T :=
  { s with
    data := s.next
    capacity
    objects
    blocks := Function.update (Function.update s.blocks s.next (some block)) s.data none
    next := s.next + 1
    calls }

theorem inBuffer_block (block : Block) (objects : ℕ → ℕ → Option T) (capacity calls : ℕ)
    (hp : Placed s) : (s.inBuffer block objects capacity calls).blocks
      (s.inBuffer block objects capacity calls).data = some block :=
  (Function.update_of_ne (Nat.ne_of_gt hp.data) _ _).trans (Function.update_self ..)

namespace Stores

theorem next_free (h : Stores E s xs) : s.blocks s.next = none :=
  h.others s.next (Nat.ne_of_gt h.placed.data)

theorem within (h : Stores E s xs) {i : ℕ} (hi : i < s.capacity) : Within s.blocks s.data i := by
  have hlength := Nat.lt_of_lt_of_le hi h.capacity
  unfold State.length State.lengthOf at hlength
  cases hblock : s.blocks s.data with
  | none => simp [hblock] at hlength
  | some block =>
    rw [hblock] at hlength
    exact ⟨block, hblock, hlength⟩

theorem capacity_lt_range (h : Stores E s xs) : s.capacity < SIZE_RANGE := by
  have hbytes := h.bytes
  have hlength := Nat.le_mul_of_pos_right s.length E.sizeof_pos
  have hcapacity := h.capacity
  omega

theorem withElements (h : Stores E s xs) (calls : ℕ) {objects : ℕ → ℕ → Option T} {size : ℕ}
    (hsize : size = ys.length) (hfits : size ≤ s.capacity)
    (helements : ∀ i < size, objects s.data i = ys[i]?) :
    Stores E { s with objects, size, calls } ys :=
  ⟨h.running, ⟨h.placed.data, h.placed.nullptr⟩, h.owned, h.others, h.capacity, h.bytes, hsize,
    hfits, helements⟩

theorem withCalls (h : Stores E s xs) (calls : ℕ) : Stores E { s with calls } xs :=
  h.withElements calls h.size h.fits h.elements

/-- The list is in a new buffer, and the old one has been released. -/
theorem moved (h : Stores E s xs) (block : Block) {objects : ℕ → ℕ → Option T} {capacity : ℕ}
    (calls : ℕ) (hfits : s.size ≤ capacity) (hcapacity : capacity ≤ block.length)
    (hbytes : block.length * E.sizeof < SIZE_RANGE)
    (helements : ∀ i < s.size, objects s.next i = s.objects s.data i) :
    Stores E (s.inBuffer block objects capacity calls) xs := by
  have hpos := h.placed.data
  have hblock := inBuffer_block block objects capacity calls h.placed
  have hlength : (s.inBuffer block objects capacity calls).length = block.length := by
    simp [State.length, State.lengthOf, hblock]
  refine ⟨h.running, ⟨Nat.lt_succ_self _, fun hnull => ?_⟩, fun _ => by simp [hblock],
    fun b hb => ?_, ?_, ?_, h.size, hfits, fun i hi => ?_⟩
  · exact absurd (show s.next = 0 from hnull) (by omega)
  · have hold := h.others b
    unfold State.inBuffer at hb ⊢
    simp only [Function.update_apply]
    grind
  · rwa [hlength]
  · rwa [hlength]
  · exact (helements i hi).trans (h.elements i hi)

/-- A new element among the others, which have made room for it. -/
theorem inserted (h : Stores E s xs) (hroom : s.size < s.capacity) (hindex : index ≤ s.size)
    (v : T) : Stores E (s.inserted index v) (xs.insertIdx index v) := by
  have hrange := h.capacity_lt_range
  have hsize := h.size
  have hwrap : (s.size + 1) % SIZE_RANGE = s.size + 1 := Nat.mod_eq_of_lt (by omega)
  unfold State.inserted
  rw [hwrap]
  apply h.withElements
  · rw [List.length_insertIdx_of_le_length (by omega)]
    omega
  · exact hroom
  · intro i hi
    have hold := h.elements i
    have hbelow := h.elements (i - 1)
    rw [List.getElem?_insertIdx]
    unfold shifted
    grind

end Stores

/-- The capacity that a full vector asks for, which the range of `size_t` may reduce. -/
def State.asked (s : State T) : ℕ := if s.capacity = 0 then 1 else s.capacity * 2

theorem capacity_lt_asked (s : State T) : s.capacity < s.asked := by
  unfold State.asked
  split <;> omega

theorem grown_of_lt (h : s.asked < SIZE_RANGE) : s.grown = s.asked := by
  unfold State.asked State.grown at *
  split
  · rfl
  · rename_i hcapacity
    rw [if_neg hcapacity] at h
    exact Nat.mod_eq_of_lt h

/-- The program stays in bounds; it is left by an exception if and only if `fails`, with the first
list, and else leaves the second. -/
structure Does (E : Environment) (s : State T) (r : Result T) (fails : Prop) (xs ys : List T) :
    Prop where
  inBounds : InBounds s r
  threw : r.threw = true ↔ fails
  stores : Stores E r.state (if r.threw then xs else ys)

namespace Does
variable {r : Result T} {f : State T → Result T} {fails fails' : Prop}

theorem failed (h : Stores E s xs) (hfails : fails) {calls : ℕ}
    (hr : r = ⟨{ s with calls }, [], true⟩) : Does E s r fails xs ys := by
  rw [hr]
  exact ⟨rfl, iff_of_true rfl hfails, h.withCalls calls⟩

theorem ends (hends : r.Ends s') (hnot : ¬ fails) (hin : InBounds s r) (h : Stores E s' ys) :
    Does E s r fails xs ys := by
  obtain ⟨hthrew, rfl⟩ := hends
  refine ⟨hin, iff_of_false (by simp [hthrew]) hnot, ?_⟩
  rw [hthrew]
  exact h

theorem done (h : Stores E s xs) (hnot : ¬ fails) : Does E s (done s) fails xs xs :=
  .ends (ends_done s) hnot accepted_done h

theorem same (h : Does E s r fails xs xs) : Stores E r.state xs := by
  simpa using h.stores

theorem congr (h : Does E s r fails xs ys) (hiff : fails ↔ fails') : Does E s r fails' xs ys :=
  ⟨h.inBounds, h.threw.trans hiff, h.stores⟩

/-- What finds its memory, and then what needs none. -/
theorem andThen (hr : Does E s r fails xs xs) (hf : r.threw = false → Stores E r.state xs →
    ∃ s', (f r.state).Ends s' ∧ InBounds r.state (f r.state) ∧ Stores E s' ys) :
    Does E s (r.andThen f) fails xs ys := by
  cases hthrew : r.threw with
  | true =>
    rw [andThen_of_threw hthrew]
    refine ⟨hr.inBounds, hr.threw, ?_⟩
    rw [hthrew]
    exact hr.same
  | false =>
    obtain ⟨s', hends, hin, hlast⟩ := hf hthrew hr.same
    have hseq : (r.andThen f).Ends s' := Ends.andThen ⟨hthrew, rfl⟩ hends
    have hnot : ¬ fails := fun hfails => by
      have hthrew' := hr.threw.mpr hfails
      rw [hthrew] at hthrew'
      cases hthrew'
    exact .ends hseq hnot (hr.inBounds.andThen fun _ => hin) hlast

end Does

section Growth

/-- What `delete[]` does to the objects of another block, whatever form it finds. -/
theorem deleteArray_frees {b : ℕ} (hnull : b = nullptr → s.blocks b = none) :
    ∃ objects, (s.deleteArray b).Ends { s.withObjects objects with
        blocks := Function.update s.blocks b none } ∧ ∀ x ≠ b, objects x = s.objects x := by
  by_cases hraw : ∃ n, s.blocks b = some ⟨.raw, n⟩
  · obtain ⟨n, hblock⟩ := hraw
    have hne : b ≠ nullptr := by
      intro hb
      simp [hnull hb] at hblock
    refine ⟨s.objects, ?_, fun _ _ => rfl⟩
    unfold State.deleteArray
    rw [if_neg hne, hblock]
    exact ⟨rfl, rfl⟩
  · refine ⟨_, deleteArray_ends hnull fun n hblock => hraw ⟨n, hblock⟩, fun x hx => ?_⟩
    funext i
    simp [cleared, hx]

theorem Stores.inBounds_relocateAll (h : Stores E s xs) (hn : s.size ≤ rawLength E n)
    (hthrows : E.allocationThrows s.calls = false) : InBounds s (s.relocateAll E n) := by
  have hne := Nat.ne_of_lt h.placed.data
  have hmove : Calm (s.allocated ⟨.raw, rawLength E n⟩)
      (loop (fun i => State.relocate s.data i s.next i) s.size
        (s.allocated ⟨.raw, rawLength E n⟩)) := by
    apply calm_relocateLoop
    intro i hi
    obtain ⟨block, hblock, hslot⟩ := h.within (Nat.lt_of_lt_of_le hi h.fits)
    exact ⟨⟨block, (Function.update_of_ne hne _ _).trans hblock, hslot⟩,
      ⟨.raw, rawLength E n⟩, Function.update_self .., Nat.lt_of_lt_of_le hi hn⟩
  apply (inBounds_allocate h.next_free).andThenFrom (allocate_ends hthrows)
  apply hmove.1.andThenFrom (relocateLoop_ends hne)
  refine Accepted.andThen (inBounds_operatorDelete fun hdata => ?_) fun _ => accepted_done
  exact (congrArg Option.isSome (withMoved_data h.placed)).trans (h.owned hdata)

/-- The objects move to raw memory, if there is any. -/
theorem Stores.relocateAll (h : Stores E s xs) (hn : s.size ≤ n)
    (hbytes : n * E.sizeof < SIZE_RANGE) :
    Does E s (s.relocateAll E n) (E.allocationThrows s.calls = true) xs xs ∧
      ((s.relocateAll E n).threw = false → (s.relocateAll E n).state.capacity = n) := by
  have hlength := rawLength_of_lt hbytes
  cases hthrows : E.allocationThrows s.calls with
  | true =>
    have hfails := relocateAll_fails (n := n) hthrows
    exact ⟨.failed h rfl hfails, fun hnot => by simp [hfails] at hnot⟩
  | false =>
    have hends := relocateAll_ends (n := n) hthrows h.placed
    have hin := h.inBounds_relocateAll (hlength ▸ hn) hthrows
    refine ⟨.ends hends nofun hin ?_, fun _ => congrArg State.capacity hends.2⟩
    refine h.moved ⟨.raw, rawLength E n⟩ _ hn (Nat.le_of_eq hlength.symm) ?_ ?_
    · rwa [hlength]
    · intro i hi
      have hne := Nat.ne_of_lt h.placed.data
      simp [State.withMoved, State.withObjects, relocated, cleared, filled, hi, hne.symm]

section NewArray
variable [Inhabited T] (hE : ∀ k, E.elementThrows k = false)
include hE

theorem Stores.inBounds_resize (h : Stores E s xs) (hn : s.size ≤ n) (hfails : ¬ s.ArrayFails E n) :
    InBounds s (s.resize E n) := by
  have hne := Nat.ne_of_lt h.placed.data
  have hcopy : Calm (s.withArray n)
      (loop (fun i => State.assign E s.next i (.object s.data i)) s.size (s.withArray n)) := by
    apply calm_copyLoop hE
    intro i hi
    obtain ⟨block, hblock, hslot⟩ := h.within (Nat.lt_of_lt_of_le hi h.fits)
    exact ⟨⟨block, (Function.update_of_ne hne _ _).trans hblock, hslot⟩,
      ⟨.array, n⟩, Function.update_self .., Nat.lt_of_lt_of_le hi hn⟩
  have hcopied : (loop (fun i => State.assign E s.next i (.object s.data i)) s.size
      (s.withArray n)).Ends (s.withCopies n) := copyLoop_ends hE hne
  have hfree : InBounds (s.withCopies n) ((s.withCopies n).deleteArray s.data) := by
    apply inBounds_deleteArray
    intro hdata
    rw [(withCopies_data h.placed).1]
    exact h.owned hdata
  apply (inBounds_newArray hE hfails h.next_free).andThenFrom (newArray_ends hE hfails)
  exact hcopy.1.andThenFrom hcopied (hfree.andThen fun _ => accepted_done)

/-- The elements have been copied into a new array, and the old buffer released. -/
theorem Stores.resize_ends (h : Stores E s xs) (hn : s.size ≤ n) (hfails : ¬ s.ArrayFails E n) :
    ∃ s', (s.resize E n).Ends s' ∧ s'.capacity = n ∧ Stores E s' xs := by
  have hne := Nat.ne_of_lt h.placed.data
  obtain ⟨objects, hdelete, hkept⟩ := deleteArray_frees (s := s.withCopies n) (b := s.data)
    fun hnull => (withCopies_data h.placed).1.trans (h.placed.nullptr hnull)
  have hmoved : Stores E (s.inBuffer ⟨.array, n⟩ objects n (s.withCopies n).calls) xs := by
    refine h.moved ⟨.array, n⟩ _ hn (Nat.le_refl _) ?_ fun i hi => ?_
    · exact Nat.lt_of_not_le (not_or.mp hfails).1
    · apply (congrFun (hkept s.next hne.symm) i).trans
      simp [State.withCopies, State.withArray, State.withObjects, filled, hi, hne]
  exact ⟨_, resize_ends_of_delete hE hfails h.placed hdelete, rfl, hmoved⟩

/-- The elements are copied into a new array, if there is any. -/
theorem Stores.resize (h : Stores E s xs) (hfull : s.size = s.capacity) :
    Does E s (s.resize E s.asked) (s.ArrayFails E s.asked) xs xs ∧
      ((s.resize E s.asked).threw = false → (s.resize E s.asked).state.capacity = s.asked) := by
  have hn : s.size ≤ s.asked := Nat.le_of_lt (hfull ▸ capacity_lt_asked s)
  by_cases hfails : s.ArrayFails E s.asked
  · obtain ⟨calls, hresize⟩ := resize_fails hfails
    exact ⟨.failed h hfails hresize, fun hnot => by simp [hresize] at hnot⟩
  · obtain ⟨s', hends, hcapacity, hstores⟩ := h.resize_ends hE hn hfails
    refine ⟨.ends hends hfails (h.inBounds_resize hE hn hfails) hstores, fun _ => ?_⟩
    rw [hends.2]
    exact hcapacity

end NewArray

theorem Stores.reserve (h : Stores E s xs) (hbytes : s.capacity < n → n * E.sizeof < SIZE_RANGE) :
    Does E s (s.reserve E n) (s.capacity < n ∧ E.allocationThrows s.calls = true) xs xs := by
  unfold State.reserve
  split
  · exact .done h (by omega)
  · rename_i hn
    have hfits := h.fits
    have hlt := Nat.lt_of_not_le hn
    exact (h.relocateAll (by omega) (hbytes hlt)).1.congr (and_iff_right hlt).symm

theorem Stores.makeRoom (h : Stores E s xs)
    (hbytes : s.size = s.capacity → s.asked * E.sizeof < SIZE_RANGE) :
    Does E s (s.makeRoom E) (s.size = s.capacity ∧ E.allocationThrows s.calls = true) xs xs ∧
      ((s.makeRoom E).threw = false →
        (s.makeRoom E).state.size < (s.makeRoom E).state.capacity) := by
  have hasked := capacity_lt_asked s
  have hfits := h.fits
  unfold State.makeRoom
  split
  · rename_i hfull
    have hbytes := hbytes hfull
    have hrange := Nat.lt_of_le_of_lt (Nat.le_mul_of_pos_right s.asked E.sizeof_pos) hbytes
    rw [grown_of_lt hrange]
    unfold State.reserve
    rw [if_neg (by omega)]
    obtain ⟨hdoes, hcapacity⟩ := h.relocateAll (n := s.asked) (by omega) hbytes
    refine ⟨hdoes.congr (and_iff_right hfull).symm, fun hthrew => ?_⟩
    rw [hcapacity hthrew, hdoes.same.size, ← h.size]
    omega
  · rename_i hspare
    refine ⟨.done h fun hfails => hspare hfails.1, fun _ => ?_⟩
    show s.size < s.capacity
    omega

end Growth

section Members

theorem Stores.popBack (h : Stores E s xs) : Does E s s.popBack False xs xs.dropLast := by
  have hsize := h.size
  have hfits := h.fits
  unfold State.popBack
  split
  · have hends : ({ s with size := s.size - 1 }.destroy s.data (s.size - 1) : Result T).Ends
        { s.setObject s.data (s.size - 1) none with size := s.size - 1 } := ⟨rfl, rfl⟩
    refine .ends hends id (calm_destroy (s := { s with size := s.size - 1 }) ?_).1 ?_
    · exact h.within (by omega)
    · apply h.withElements
      · simp [hsize]
      · omega
      · intro i hi
        rw [setObject_objects, if_neg (by omega), h.elements i (by omega), List.getElem?_dropLast,
          if_pos (by omega)]
  · have hnil : xs = [] := List.length_eq_zero_iff.mp (by omega)
    subst hnil
    exact .done h id

theorem Stores.clear (h : Stores E s xs) : Does E s s.clear False xs [] := by
  have hends := (destroyLoop_ends (s := s) (b := s.data) (n := s.size)).andThen
    (f := fun s' => done { s' with size := 0 }) ⟨rfl, rfl⟩
  have hnone : Stores E { s with objects := cleared s.objects s.data s.size, size := 0 } [] :=
    h.withElements s.calls rfl (Nat.zero_le _) nofun
  refine .ends hends id ?_ hnone
  refine Accepted.andThen (calm_destroyLoop fun i hi => ?_).1 fun _ => accepted_done
  exact h.within (Nat.lt_of_lt_of_le hi h.fits)

/-- Nothing is left of an empty buffer. -/
theorem Stores.freed (h : Stores E s []) : Stores E { s with
    data := nullptr
    capacity := 0
    blocks := Function.update s.blocks s.data none } [] := by
  have hblocks (b : ℕ) : Function.update s.blocks s.data none b = none := by
    have hold := h.others b
    rw [Function.update_apply]
    grind
  have hlength : State.lengthOf { s with blocks := Function.update s.blocks s.data none } nullptr =
      0 := by simp [State.lengthOf, hblocks]
  refine ⟨h.running, ⟨?_, fun _ => hblocks _⟩, fun hne => absurd rfl hne, fun b _ => hblocks b,
    Nat.zero_le _, ?_, h.size, Nat.le_of_eq h.size, ?_⟩
  · exact Nat.lt_of_le_of_lt (Nat.zero_le _) h.placed.data
  · have hzero : State.lengthOf { s with blocks := Function.update s.blocks s.data none } nullptr *
        E.sizeof = 0 := by rw [hlength, Nat.zero_mul]
    exact Nat.lt_of_le_of_lt (Nat.le_of_eq hzero) (by decide)
  · intro i hi
    exact absurd (Nat.lt_of_lt_of_eq hi h.size) (Nat.not_lt_zero i)

theorem Stores.shrinkToFit (h : Stores E s xs) : Does E s (s.shrinkToFit E)
    (s.capacity ≠ s.size ∧ s.size ≠ 0 ∧ E.allocationThrows s.calls = true) xs xs := by
  unfold State.shrinkToFit
  split
  · rename_i hcapacity
    exact .done h fun hfails => hfails.1 hcapacity
  rename_i hcapacity
  split
  · rename_i hsize
    have hnil : xs = [] := List.length_eq_zero_iff.mp (h.size ▸ hsize)
    subst hnil
    have hends := (operatorDelete_ends h.placed.nullptr).andThen
      (f := fun s' => done { s' with data := nullptr, capacity := 0 }) ⟨rfl, rfl⟩
    refine .ends hends (fun hfails => hfails.2.1 hsize) ?_ h.freed
    exact (inBounds_operatorDelete h.owned).andThen fun _ => accepted_done
  · rename_i hsize
    have hlength : s.size ≤ s.length := Nat.le_trans h.fits h.capacity
    have hbytes := Nat.lt_of_le_of_lt (Nat.mul_le_mul_right E.sizeof hlength) h.bytes
    have hdoes := (h.relocateAll (Nat.le_refl _) hbytes).1
    exact hdoes.congr (by simp [hcapacity, hsize])

variable (hE : ∀ k, E.elementThrows k = false)
include hE

theorem Stores.insertAt (h : Stores E s xs) (hroom : s.size < s.capacity) (hindex : index ≤ s.size)
    (v : T) : ∃ s', (s.insertAt E index (.value v)).Ends s' ∧
      InBounds s (s.insertAt E index (.value v)) ∧ Stores E s' (xs.insertIdx index v) := by
  have hslots (i : ℕ) (hi : i ≤ s.size) : Within s.blocks s.data i := h.within (by omega)
  refine ⟨_, insertAt_ends hE index v, ?_, h.inserted hroom hindex v⟩
  apply (calm_shift hslots).1.andThenFrom shift_ends
  refine Accepted.andThen (calm_construct hE ?_ ?_).1 fun _ => accepted_done
  · exact trivial
  · exact hslots index hindex

/-- `data[_size++] = value` -/
theorem Stores.assignNext (h : Stores E s xs) (hroom : s.size < s.capacity) (v : T) :
    ∃ s', (s.incrementSize.assign E s.data s.size (.value v)).Ends s' ∧
      InBounds s (s.incrementSize.assign E s.data s.size (.value v)) ∧ Stores E s' (xs ++ [v]) := by
  have happend := h.inserted hroom (Nat.le_refl _) v
  rw [inserted_size, h.size, List.insertIdx_length_self, ← h.size] at happend
  refine ⟨_, assign_ends hE _ _ _ _, ?_, happend⟩
  have hread : s.incrementSize.Reads (.value v) := trivial
  exact (calm_assign hE hread (h.within hroom)).1

theorem Stores.emplace (h : Stores E s xs)
    (hbytes : s.size = s.capacity → s.asked * E.sizeof < SIZE_RANGE) (hindex : index ≤ s.size)
    (v : T) : Does E s (s.emplace E index (.value v))
      (s.size = s.capacity ∧ E.allocationThrows s.calls = true) xs (xs.insertIdx index v) := by
  obtain ⟨hdoes, hroom⟩ := h.makeRoom hbytes
  refine hdoes.andThen fun hthrew hstores => hstores.insertAt hE (hroom hthrew) ?_ v
  rw [hstores.size, ← h.size]
  exact hindex

theorem Stores.emplaceBack (h : Stores E s xs)
    (hbytes : s.size = s.capacity → s.asked * E.sizeof < SIZE_RANGE) (v : T) :
    Does E s (s.emplaceBack E (.value v))
      (s.size = s.capacity ∧ E.allocationThrows s.calls = true) xs (xs ++ [v]) := by
  obtain ⟨hdoes, hroom⟩ := h.makeRoom hbytes
  rw [emplaceBack_eq]
  refine hdoes.andThen fun hthrew hstores => ?_
  have hlast : xs.insertIdx (s.makeRoom E).state.size v = xs ++ [v] := by
    rw [hstores.size, List.insertIdx_length_self]
  rw [← hlast]
  exact hstores.insertAt hE (hroom hthrew) (Nat.le_refl _) v

theorem Stores.pushBack [Inhabited T] (h : Stores E s xs)
    (hrange : s.size = s.capacity → s.asked < SIZE_RANGE) (v : T) :
    Does E s (s.pushBack E (.value v)) (s.size = s.capacity ∧ s.ArrayFails E s.asked) xs
      (xs ++ [v]) := by
  have hfits := h.fits
  unfold State.pushBack
  split
  · rename_i hfull
    have hasked := capacity_lt_asked s
    rw [grown_of_lt (hrange hfull)]
    obtain ⟨hdoes, hcapacity⟩ := h.resize hE hfull
    refine (hdoes.congr (and_iff_right hfull).symm).andThen fun hthrew hstores =>
      hstores.assignNext hE ?_ v
    rw [hcapacity hthrew, hstores.size, ← h.size]
    omega
  · rename_i hspare
    have hroom : s.size < s.capacity := by omega
    exact (Does.done h fun hfails => hspare hfails.1).andThen fun _ hstores =>
      hstores.assignNext hE hroom v

end Members

end MyVector
