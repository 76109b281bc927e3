import LowLevelCpp.Foundations.Bytes
import LowLevelCpp.Foundations.System
import Mathlib.Algebra.Group.Nat.Defs
import Mathlib.Order.Bounds.Basic

/-!
`ReinC/arena.c`: a bump allocator over one block. The blocks that it hands out are aligned, lie
inside the arena and do not overlap, and it refuses exactly the sizes that do not fit.
-/
namespace ReinC
open Foundations Foundations.System

/-- `mem_arena` -/
structure Arena where
  memory : BitVec 64
  capacity : BitVec 64
  pos : BitVec 64

/-- `ALIGN_UP_POW2` -/
def alignUpPow2 (x align : BitVec 64) : BitVec 64 := (x + align - 1) &&& ~~~(align - 1)

/-- `sizeof(void *)` -/
def ARENA_ALIGN : BitVec 64 := 8

/-- `arena_create`, given what the two calls of `malloc` return. -/
def arenaCreate (capacity : BitVec 64) (header memory : Option (BitVec 64)) : Option Arena :=
  match header, memory with
  | some _, some memory => some ⟨memory, capacity, 0⟩
  | _, _ => none

/-- `arena_push`; the result `0` is the null pointer. -/
def arenaPush (arena : Arena) (bytes : Bytes) (size : BitVec 64) (zero : BitVec 32) :
    BitVec 64 × Arena × Bytes :=
  let pos_aligned := alignUpPow2 arena.pos ARENA_ALIGN
  if pos_aligned > arena.capacity ∨ size > arena.capacity - pos_aligned then (0, arena, bytes)
  else
    let new_pos := pos_aligned + size
    let out := arena.memory + pos_aligned
    (out, { arena with pos := new_pos },
      if zero ≠ 0 then bytes.fill out.toNat size.toNat 0 else bytes)

/-- A block that `arena_push` has returned. -/
structure Block where
  out : BitVec 64
  size : BitVec 64
  deriving DecidableEq

/-- The addresses of a block, up to its end. -/
def Block.start (b : Block) : ℕ := b.out.toNat

def Block.stop (b : Block) : ℕ := b.out.toNat + b.size.toNat

/-- What `arena_create` returns when `malloc` has found a block of `capacity` bytes; the end of a
block is an address too. -/
structure Created where
  capacity : BitVec 64
  header : BitVec 64
  memory : BitVec 64
  arena : Arena
  created : arenaCreate capacity (some header) (some memory) = some arena
  bounded : capacity.toNat < 2 ^ 63
  aligned : 8 ∣ memory.toNat
  nonnull : 0 < memory.toNat
  inside : memory.toNat + capacity.toNat < 2 ^ 64

/-- `blocks` are the results that are not null, the last one first. -/
structure ArenaState where
  arena : Arena
  bytes : Bytes
  blocks : List Block

/-- The client pushes, and writes wherever it may. -/
inductive ArenaAct where
  | push (size : BitVec 64) (zero : BitVec 32)
  | write (address : ℕ) (byte : BitVec 8)

inductive ArenaEvent where
  | pushed (size out : BitVec 64)
  deriving DecidableEq

def arenaStep (s : ArenaState) : ArenaAct → Option (ArenaState × List ArenaEvent)
  | .push size zero =>
    let (out, arena, bytes) := arenaPush s.arena s.bytes size zero
    some (⟨arena, bytes, if out = 0 then s.blocks else ⟨out, size⟩ :: s.blocks⟩,
      [.pushed size out])
  | .write address byte =>
    some ({ s with bytes := Function.update s.bytes address byte }, [])

def arenaSystem (r : Created) (bytes : Bytes) : System ArenaState ArenaAct ArenaEvent where
  init := ⟨r.arena, bytes, []⟩
  step := arenaStep

/-- The least multiple of eight that is not below `pos`. -/
def alignedPos (pos : ℕ) : ℕ := 8 * ((pos + 7) / 8)

theorem alignedPos_isLeast (pos : ℕ) : IsLeast {k | 8 ∣ k ∧ pos ≤ k} (alignedPos pos) := by
  unfold alignedPos
  constructor
  · constructor
    · exact Nat.dvd_mul_right 8 _
    · omega
  · rintro k ⟨⟨j, rfl⟩, hk⟩
    omega

/-- Clearing the low three bits. -/
theorem toNat_clear_low (y : BitVec 64) : (y &&& ~~~(7 : BitVec 64)).toNat = 8 * (y.toNat / 8) := by
  have hshift : y &&& ~~~(7 : BitVec 64) = (y >>> 3) <<< 3 := by
    apply BitVec.eq_of_getLsbD_eq
    intro i hi
    have hseven : (7 : BitVec 64).getLsbD i = decide (i < 3) := by
      exact Nat.testBit_two_pow_sub_one 3 i
    simp only [BitVec.getLsbD_and, BitVec.getLsbD_not, hseven, BitVec.getLsbD_shiftLeft,
      BitVec.getLsbD_ushiftRight]
    by_cases h : i < 3
    · simp [h]
    · have hback : 3 + (i - 3) = i := by omega
      simp [h, hi, hback]
  have hlt := y.isLt
  rw [hshift, BitVec.toNat_shiftLeft, BitVec.toNat_ushiftRight, Nat.shiftRight_eq_div_pow,
    Nat.shiftLeft_eq]
  omega

/-- Below the last multiple of eight the alignment is exact. -/
theorem alignUpPow2_toNat (pos : BitVec 64) (hpos : pos.toNat < 2 ^ 63) :
    (alignUpPow2 pos ARENA_ALIGN).toNat = alignedPos pos.toNat := by
  have hsum : pos + ARENA_ALIGN - 1 = pos + 7 := by
    unfold ARENA_ALIGN
    bv_omega
  have hadd : (pos + 7).toNat = pos.toNat + 7 := by bv_omega
  have hmask : ARENA_ALIGN - 1 = 7 := rfl
  rw [alignUpPow2, hsum, hmask, toNat_clear_low, hadd, alignedPos]

/-- An arena as it is after any pushes. -/
structure Arena.At (arena : Arena) (r : Created) : Prop where
  memory : arena.memory = r.memory
  capacity : arena.capacity = r.capacity
  pos_le : arena.pos.toNat ≤ r.capacity.toNat

section Push
variable {r : Created} {arena : Arena} {bytes : Bytes}

theorem Created.arena_eq (r : Created) : r.arena = ⟨r.memory, r.capacity, 0⟩ :=
  (Option.some.inj r.created).symm

/-- A size that does not fit behind the aligned position is refused. -/
theorem arenaPush_null (hat : arena.At r) {size : BitVec 64}
    (hfull : r.capacity.toNat < alignedPos arena.pos.toNat + size.toNat) (zero : BitVec 32) :
    arenaPush arena bytes size zero = (0, arena, bytes) := by
  have hbounded := r.bounded
  have hpos := hat.pos_le
  have haligned := alignUpPow2_toNat arena.pos (by omega)
  apply if_pos
  rw [hat.capacity]
  by_cases hover : r.capacity.toNat < alignedPos arena.pos.toNat
  · left
    rwa [gt_iff_lt, BitVec.lt_def, haligned]
  · right
    rw [gt_iff_lt, BitVec.lt_def, BitVec.toNat_sub_of_le (by
      rw [BitVec.le_def, haligned]
      omega), haligned]
    omega

/-- A size that fits gets the block at the aligned position. -/
theorem arenaPush_block (hat : arena.At r) {size : BitVec 64}
    (hfits : alignedPos arena.pos.toNat + size.toNat ≤ r.capacity.toNat) (bytes : Bytes)
    (zero : BitVec 32) :
    ∃ out arena', arenaPush arena bytes size zero =
        (out, arena', if zero ≠ 0 then bytes.fill out.toNat size.toNat 0 else bytes) ∧
      out.toNat = r.memory.toNat + alignedPos arena.pos.toNat ∧ arena'.At r ∧
      arena'.pos.toNat = alignedPos arena.pos.toNat + size.toNat := by
  have hbounded := r.bounded
  have hinside := r.inside
  have hpos := hat.pos_le
  have haligned := alignUpPow2_toNat arena.pos (by omega)
  have hsub : (arena.capacity - alignUpPow2 arena.pos ARENA_ALIGN).toNat =
      r.capacity.toNat - alignedPos arena.pos.toNat := by
    rw [hat.capacity, BitVec.toNat_sub_of_le (by
      rw [BitVec.le_def, haligned]
      omega), haligned]
  have hnew : (alignUpPow2 arena.pos ARENA_ALIGN + size).toNat =
      alignedPos arena.pos.toNat + size.toNat := by
    rw [BitVec.toNat_add_of_lt (by omega), haligned]
  refine ⟨_, { arena with pos := alignUpPow2 arena.pos ARENA_ALIGN + size }, if_neg ?_, ?_,
    ⟨hat.memory, hat.capacity, ?_⟩, hnew⟩
  · rw [gt_iff_lt, gt_iff_lt, BitVec.lt_def, BitVec.lt_def, hsub, hat.capacity, haligned]
    omega
  · rw [BitVec.toNat_add_of_lt (by rw [hat.memory, haligned]; omega), hat.memory, haligned]
  · rw [hnew]
    exact hfits

end Push

/-- The invariant: the blocks lie below `pos`, each above those handed out before it. -/
structure Stacked (r : Created) (s : ArenaState) : Prop where
  arena : s.arena.At r
  blocks : ∀ b ∈ s.blocks, 8 ∣ b.start - r.memory.toNat ∧ r.memory.toNat ≤ b.start ∧
    b.stop ≤ r.memory.toNat + s.arena.pos.toNat
  above : s.blocks.Pairwise fun new old => old.stop ≤ new.start

section Runs
variable {r : Created} {s s' : ArenaState} {act : ArenaAct} {evs log : List ArenaEvent}
  {bytes : Bytes}

theorem stacked_created (r : Created) (bytes : Bytes) : Stacked r (arenaSystem r bytes).init := by
  refine ⟨?_, by simp [arenaSystem], .nil⟩
  rw [arenaSystem, r.arena_eq]
  exact ⟨rfl, rfl, Nat.zero_le _⟩

theorem Stacked.step (h : Stacked r s) (hs : arenaStep s act = some (s', evs)) :
    Stacked r s' := by
  cases act with
  | write address byte =>
    cases hs
    exact ⟨h.arena, h.blocks, h.above⟩
  | push size zero =>
    have hnonnull := r.nonnull
    have haligned := alignedPos_isLeast s.arena.pos.toNat
    have hle : s.arena.pos.toNat ≤ alignedPos s.arena.pos.toNat := haligned.1.2
    rcases Nat.lt_or_ge r.capacity.toNat (alignedPos s.arena.pos.toNat + size.toNat) with
      hfull | hfits
    · simp only [arenaStep, arenaPush_null h.arena hfull] at hs
      cases hs
      exact ⟨h.arena, h.blocks, h.above⟩
    · obtain ⟨out, arena', hpush, hout, hat, hpos⟩ :=
        arenaPush_block h.arena hfits s.bytes zero
      have hne : out ≠ 0 := by
        rintro rfl
        change 0 = _ at hout
        omega
      simp only [arenaStep, hpush, if_neg hne] at hs
      cases hs
      refine ⟨hat, fun b hb => ?_, List.pairwise_cons.mpr ⟨fun b hb => ?_, h.above⟩⟩
      · rcases List.mem_cons.mp hb with rfl | hb
        · simp only [Block.start, Block.stop, hout, hpos, Nat.add_sub_cancel_left]
          exact ⟨haligned.1.1, by omega, by omega⟩
        · obtain ⟨hoffset, hlo, hhi⟩ := h.blocks b hb
          refine ⟨hoffset, hlo, ?_⟩
          simp only [hpos]
          omega
      · have hhi := (h.blocks b hb).2.2
        simp only [Block.start, hout]
        omega

theorem stacked_of_run (hrun : (arenaSystem r bytes).Run s log) : Stacked r s :=
  hrun.invariant (I := fun s _ => Stacked r s) (stacked_created r bytes)
    fun _ _ _ _ _ _ h _ hs => h.step hs

/-- `arena_push` hands out aligned blocks inside the arena that do not overlap; it returns null
exactly when the size does not fit behind the least multiple of eight not below `pos`, and then
changes nothing; otherwise it clears the block if asked to and changes no byte of another. -/
theorem arena_push_blocks (hrun : (arenaSystem r bytes).Run s log) :
    s.arena.pos.toNat ≤ r.capacity.toNat ∧
      (∀ b ∈ s.blocks, 8 ∣ b.start - r.memory.toNat ∧ r.memory.toNat ≤ b.start ∧
        b.stop ≤ r.memory.toNat + r.capacity.toNat) ∧
      s.blocks.Pairwise (fun b b' => b.stop ≤ b'.start ∨ b'.stop ≤ b.start) ∧
      IsLeast {k | 8 ∣ k ∧ s.arena.pos.toNat ≤ k} (alignedPos s.arena.pos.toNat) ∧
      ∀ size zero, ∃ out arena' bytes',
        arenaPush s.arena s.bytes size zero = (out, arena', bytes') ∧
        (out = 0 ↔ r.capacity.toNat < alignedPos s.arena.pos.toNat + size.toNat) ∧
        (out = 0 → arena' = s.arena ∧ bytes' = s.bytes) ∧
        (out ≠ 0 → zero ≠ 0 → ∀ a, out.toNat ≤ a → a < out.toNat + size.toNat → bytes' a = 0) ∧
        ∀ b ∈ s.blocks, ∀ a, b.start ≤ a → a < b.stop → bytes' a = s.bytes a := by
  have h := stacked_of_run hrun
  have hpos := h.arena.pos_le
  have hnonnull := r.nonnull
  have hleast := alignedPos_isLeast s.arena.pos.toNat
  refine ⟨hpos, fun b hb => ?_, h.above.imp fun hle => .inr hle, hleast, fun size zero => ?_⟩
  · obtain ⟨hoffset, hlo, hhi⟩ := h.blocks b hb
    exact ⟨hoffset, hlo, by omega⟩
  · rcases Nat.lt_or_ge r.capacity.toNat (alignedPos s.arena.pos.toNat + size.toNat) with
      hfull | hfits
    · exact ⟨0, s.arena, s.bytes, arenaPush_null h.arena hfull zero, iff_of_true rfl hfull,
        fun _ => ⟨rfl, rfl⟩, fun hne => absurd rfl hne, fun _ _ _ _ _ => rfl⟩
    · obtain ⟨out, arena', hpush, hout, -, -⟩ :=
        arenaPush_block h.arena hfits s.bytes zero
      have hne : out ≠ 0 := by
        rintro rfl
        change 0 = _ at hout
        omega
      refine ⟨out, arena', _, hpush, iff_of_false hne (by omega), fun hnull => absurd hnull hne,
        fun _ hzero a hlo hhi => ?_, fun b hb a _ hhi => ?_⟩
      · rw [if_pos hzero]
        exact Bytes.fill_inside hlo hhi
      · have hbelow := (h.blocks b hb).2.2
        have hle : s.arena.pos.toNat ≤ alignedPos s.arena.pos.toNat := hleast.1.2
        split
        · exact Bytes.fill_outside (by omega)
        · rfl

end Runs

/-- An arena of twenty bytes. -/
def twenty : Created where
  capacity := 20
  header := 64
  memory := 8192
  arena := ⟨8192, 20, 0⟩
  created := rfl
  bounded := by decide
  aligned := by decide
  nonnull := by decide
  inside := by decide

/-- The second block starts at the next multiple of eight; the last one does not fit, although
there are bytes left. -/
def pushes : List ArenaAct := [.push 3 1, .write 8192 5, .push 9 0, .push 1 1, .push (-1) 1]

theorem arena_push_blocks_pushes :
    ∃ s log, (arenaSystem twenty fun _ => 7).Run s log ∧ s.blocks = [⟨8200, 9⟩, ⟨8192, 3⟩] ∧
      .pushed 1 0 ∈ log ∧ s.arena.pos.toNat ≤ 20 := by
  obtain ⟨s, log, hrun, hq⟩ := (arenaSystem twenty fun _ => 7).exists_run_of_exec
    (fun _ _ => True) pushes
    (fun s log => decide (s.blocks = [⟨8200, 9⟩, ⟨8192, 3⟩] ∧ .pushed 1 0 ∈ log))
    (by decide +kernel)
  obtain ⟨hblocks, hnull⟩ := of_decide_eq_true hq
  exact ⟨s, log, hrun, hblocks, hnull, (arena_push_blocks hrun).1⟩

end ReinC
