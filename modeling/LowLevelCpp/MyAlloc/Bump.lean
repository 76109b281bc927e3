import LowLevelCpp.Foundations.Regions
import LowLevelCpp.Foundations.System
import Mathlib.Algebra.Group.Nat.Defs

/-!
`my_alloc/bump_allocator/main.cpp`: a pointer into a static array that each allocation moves up. The
test for room adds the size to the pointer in 64 bits, where the sum can wrap.
-/
namespace MyAlloc
open Foundations Foundations.System

/-- `sizeof(heap)` -/
def HEAP_SIZE : BitVec 64 := 1024 * 1024

/-- Where the array `heap` lies; its end is an address too. -/
structure Placement where
  heap : BitVec 64
  nonnull : 0 < heap.toNat
  inside : heap.toNat + HEAP_SIZE.toNat < 2 ^ 64

/-- `my_alloc`, with the pointer that it leaves; the result `0` is the null pointer. -/
def myAlloc (r : Placement) (heap_ptr size : BitVec 64) : BitVec 64 × BitVec 64 :=
  if size + heap_ptr > r.heap + HEAP_SIZE then (0, heap_ptr)
  else
    let p := heap_ptr
    let heap_ptr := heap_ptr + size
    (p, heap_ptr)

/-- A call, with `heap_ptr` before and after it. -/
structure Call where
  size : BitVec 64
  before : BitVec 64
  p : BitVec 64
  after : BitVec 64
  deriving DecidableEq

/-- The label is the size asked for; the state is `heap_ptr`. -/
def system (r : Placement) : System (BitVec 64) (BitVec 64) Call where
  init := r.heap
  step heap_ptr size :=
    some ((myAlloc r heap_ptr size).2,
      [⟨size, heap_ptr, (myAlloc r heap_ptr size).1, (myAlloc r heap_ptr size).2⟩])

/-- The array. -/
def Placement.region (r : Placement) : Region := ⟨r.heap.toNat, HEAP_SIZE.toNat⟩

def Call.region (c : Call) : Region := ⟨c.p.toNat, c.size.toNat⟩

/-- The blocks that calls have returned. -/
def blocks (log : List Call) : List Region := (log.filter fun c => c.p ≠ 0).map Call.region

/-- What holds of a single call: the pointer does not move down, the block lies in the array, and
null is returned exactly when the size exceeds the remaining bytes, with the pointer unchanged. -/
structure Call.Sound (r : Placement) (c : Call) : Prop where
  monotone : c.before.toNat ≤ c.after.toNat
  inside : c.p ≠ 0 → c.region.Inside r.region
  refused : c.p = 0 ↔ r.region.stop - c.before.toNat < c.size.toNat
  unchanged : c.p = 0 → c.after = c.before

structure Sound (r : Placement) (heap_ptr : BitVec 64) (log : List Call) : Prop where
  low : r.region.start ≤ heap_ptr.toNat
  high : heap_ptr.toNat ≤ r.region.stop
  calls : ∀ c ∈ log, c.Sound r
  apart : (blocks log).Pairwise Region.Apart

/-- The sum of size and pointer does not wrap. -/
def NoWrap (heap_ptr size : BitVec 64) : Prop := heap_ptr.toNat + size.toNat < 2 ^ 64

instance (heap_ptr size : BitVec 64) : Decidable (NoWrap heap_ptr size) :=
  inferInstanceAs (Decidable (_ < _))

section Calls
variable {r : Placement} {heap_ptr size : BitVec 64}

theorem end_toNat (r : Placement) : (r.heap + HEAP_SIZE).toNat = r.region.stop :=
  BitVec.toNat_add_of_lt r.inside

theorem myAlloc_refuses (h : NoWrap heap_ptr size)
    (hfull : r.region.stop < heap_ptr.toNat + size.toNat) :
    myAlloc r heap_ptr size = (0, heap_ptr) := by
  apply if_pos
  rw [gt_iff_lt, BitVec.lt_def, end_toNat, BitVec.add_comm, BitVec.toNat_add_of_lt h]
  exact hfull

theorem myAlloc_returns (h : NoWrap heap_ptr size)
    (hfits : heap_ptr.toNat + size.toNat ≤ r.region.stop) :
    myAlloc r heap_ptr size = (heap_ptr, heap_ptr + size) := by
  apply if_neg
  rw [gt_iff_lt, BitVec.lt_def, end_toNat, BitVec.add_comm, BitVec.toNat_add_of_lt h]
  exact Nat.not_lt.mpr hfits

/-- A sum that wraps is smaller than the pointer, and passes the test. -/
theorem myAlloc_wraps (hhigh : heap_ptr.toNat ≤ r.region.stop) (h : ¬ NoWrap heap_ptr size) :
    myAlloc r heap_ptr size = (heap_ptr, heap_ptr + size) := by
  apply if_neg
  rw [gt_iff_lt, BitVec.lt_def, end_toNat, BitVec.toNat_add]
  unfold NoWrap at h
  generalize r.region.stop = stop at hhigh ⊢
  omega

/-- A size for which the sum wraps exceeds what is left. -/
theorem exceeds_of_wraps (hhigh : heap_ptr.toNat ≤ r.region.stop) (h : ¬ NoWrap heap_ptr size) :
    r.region.stop - heap_ptr.toNat < size.toNat := by
  have hinside : r.region.stop < 2 ^ 64 := r.inside
  unfold NoWrap at h
  generalize r.region.stop = stop at hhigh hinside ⊢
  omega

end Calls

section Runs
variable {r : Placement} {heap_ptr size heap_ptr' p after : BitVec 64} {log evs : List Call}

theorem step_of_myAlloc (h : myAlloc r heap_ptr size = (p, after))
    (hs : (system r).step heap_ptr size = some (heap_ptr', evs)) :
    after = heap_ptr' ∧ [⟨size, heap_ptr, p, after⟩] = evs := by
  cases hs
  rw [h]
  exact ⟨rfl, rfl⟩

theorem blocks_append (log evs : List Call) : blocks (log ++ evs) = blocks log ++ blocks evs := by
  unfold blocks
  rw [List.filter_append, List.map_append]

/-- The blocks lie below the pointer, in the order in which they were returned. -/
structure Stacked (r : Placement) (heap_ptr : BitVec 64) (log : List Call) : Prop where
  sound : Sound r heap_ptr log
  below : ∀ b ∈ blocks log, b.stop ≤ heap_ptr.toNat

theorem Stacked.step (h : Stacked r heap_ptr log) (hwrap : NoWrap heap_ptr size)
    (hs : (system r).step heap_ptr size = some (heap_ptr', evs)) :
    Stacked r heap_ptr' (log ++ evs) := by
  obtain ⟨⟨hlow, hhigh, hcalls, hapart⟩, hbelow⟩ := h
  have hnonnull : heap_ptr ≠ 0 := by
    have hpos := r.nonnull
    rintro rfl
    change r.heap.toNat ≤ 0 at hlow
    omega
  rcases Nat.lt_or_ge r.region.stop (heap_ptr.toNat + size.toNat) with hfull | hfits
  · obtain ⟨rfl, rfl⟩ := step_of_myAlloc (myAlloc_refuses hwrap hfull) hs
    have hblocks : blocks (log ++ [⟨size, heap_ptr, 0, heap_ptr⟩]) = blocks log := by
      rw [blocks_append]
      exact List.append_nil _
    refine ⟨⟨hlow, hhigh, fun c hc => ?_, by rwa [hblocks]⟩, by rwa [hblocks]⟩
    rcases List.mem_append.mp hc with hc | hc
    · exact hcalls c hc
    · obtain rfl := List.mem_singleton.mp hc
      exact ⟨Nat.le_refl _, fun hne => absurd rfl hne, iff_of_true rfl (by simp only; omega),
        fun _ => rfl⟩
  · obtain ⟨rfl, rfl⟩ := step_of_myAlloc (myAlloc_returns hwrap hfits) hs
    have hsum : (heap_ptr + size).toNat = heap_ptr.toNat + size.toNat :=
      BitVec.toNat_add_of_lt hwrap
    have hblocks : blocks (log ++ [⟨size, heap_ptr, heap_ptr, heap_ptr + size⟩]) =
        blocks log ++ [⟨heap_ptr.toNat, size.toNat⟩] := by
      rw [blocks_append]
      unfold blocks
      rw [List.filter_cons_of_pos (by simpa using hnonnull)]
      rfl
    refine ⟨⟨by omega, by omega, fun c hc => ?_, ?_⟩, ?_⟩
    · rcases List.mem_append.mp hc with hc | hc
      · exact hcalls c hc
      · obtain rfl := List.mem_singleton.mp hc
        exact ⟨by simp only; omega, fun _ => ⟨hlow, hfits⟩,
          iff_of_false hnonnull (by simp only; omega), fun hnull => absurd hnull hnonnull⟩
    · rw [hblocks]
      exact Region.pairwise_apart_concat hapart hbelow
    · rw [hblocks]
      intro b hb
      rcases List.mem_append.mp hb with hb | hb
      · have hle := hbelow b hb
        omega
      · rw [List.mem_singleton.mp hb, hsum]
        exact Nat.le_refl _

theorem stacked_of_run (hrun : (system r).RunWhere NoWrap heap_ptr log) :
    Stacked r heap_ptr log := by
  refine hrun.invariant (I := Stacked r) ⟨⟨Nat.le_refl _, Nat.le_add_right _ _, ?_, .nil⟩, ?_⟩
    fun _ _ _ _ _ _ h hwrap hs => h.step hwrap hs
  · simp
  · simp [blocks]

/-- As long as no sum wraps the allocator is sound; a call for which it wraps returns a block that
the array does not hold. -/
theorem my_alloc_sound (hrun : (system r).RunWhere NoWrap heap_ptr log) :
    Sound r heap_ptr log ∧ ∀ size heap_ptr' evs,
      (system r).step heap_ptr size = some (heap_ptr', evs) →
      (Sound r heap_ptr' (log ++ evs) ↔ NoWrap heap_ptr size) := by
  have h := stacked_of_run hrun
  refine ⟨h.sound, fun size heap_ptr' evs hs => ⟨fun hsound => ?_, fun hwrap => ?_⟩⟩
  · by_contra hwraps
    have hlow := h.sound.low
    have hnonnull := r.nonnull
    obtain ⟨rfl, rfl⟩ := step_of_myAlloc (myAlloc_wraps h.sound.high hwraps) hs
    have hcall := (hsound.calls ⟨size, heap_ptr, heap_ptr, heap_ptr + size⟩ (by simp)).refused
    have hnull : heap_ptr = 0 := hcall.mpr (exceeds_of_wraps h.sound.high hwraps)
    rw [hnull] at hlow
    change r.heap.toNat ≤ 0 at hlow
    omega
  · exact (h.step hwrap hs).sound

end Runs

/-- An array at an ordinary address. -/
def ordinary : Placement := ⟨0x404000, by decide, by decide⟩

/-- The second block fills the array; the next call is refused. -/
theorem my_alloc_sound_full : ∃ heap_ptr log, (system ordinary).RunWhere NoWrap heap_ptr log ∧
    log.map Call.p = [0x404000, 0x40400A, 0] ∧ Sound ordinary heap_ptr log := by
  obtain ⟨heap_ptr, log, hrun, hq⟩ := (system ordinary).exists_run_of_exec NoWrap
    [10, 1048566, 1] (fun _ log => decide (log.map Call.p = [0x404000, 0x40400A, 0]))
    (by decide +kernel)
  exact ⟨heap_ptr, log, hrun, of_decide_eq_true hq, (my_alloc_sound hrun).1⟩

/-- A size near `2 ^ 64` moves the pointer below the array. -/
theorem my_alloc_unsound : ¬ ∀ (r : Placement) (heap_ptr : BitVec 64) (log : List Call),
    (system r).Run heap_ptr log → Sound r heap_ptr log := by
  intro hall
  obtain ⟨heap_ptr, log, hrun, hq⟩ := (system ordinary).exists_run_of_exec (fun _ _ => True)
    [-1] (fun heap_ptr _ => decide (heap_ptr.toNat < ordinary.region.start)) (by decide +kernel)
  exact absurd (of_decide_eq_true hq) (Nat.not_lt.mpr (hall ordinary heap_ptr log hrun).low)

end MyAlloc
