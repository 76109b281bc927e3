import LowLevelCpp.Foundations.Regions
import LowLevelCpp.ReinC.Gradients

/-! Whether the elements of a matrix are in its data block. `create_matrix` multiplies the shape in
32 bits, and the product by the size of the header in 64 bits. -/
namespace ReinC
open Foundations Foundations.System

/-- `sizeof(matrix) * (rows * cols)` -/
def dataSize (rows cols : BitVec 32) : BitVec 64 := 16 * (rows * cols).setWidth 64

/-- The bytes of a block. -/
def Block.region (b : Block) : Region := ⟨b.start, b.size.toNat⟩

/-- The bytes of the arena. -/
def Created.region (r : Created) : Region := ⟨r.memory.toNat, r.capacity.toNat⟩

/-- The elements that the shape promises; an `f32` has four bytes. -/
def Matrix.elements (m : Matrix) : Region := ⟨m.data.toNat, 4 * (m.rows.toNat * m.cols.toNat)⟩

/-- The elements lie inside the data block and the arena, and in no other block. -/
structure Matrix.Backed (m : Matrix) (r : Created) (data : Block) (others : List Block) :
    Prop where
  within : m.elements.Inside data.region
  inside : m.elements.Inside r.region
  apart : ∀ b ∈ others, m.elements.Apart b.region

section Create
variable {r : Created} {bytes : Bytes} {s : ArenaState} {log : List ArenaEvent} {h h' : Heap}
  {out p size : BitVec 64} {rows cols : BitVec 32} {m : Matrix}

/-- The heap allocates in this arena. -/
structure Heap.Over (h : Heap) (s : ArenaState) : Prop where
  arena : h.arena = s.arena
  bytes : h.bytes = s.bytes

theorem setMatrix_eq (hs : h.setMatrix p m = .ok h') :
    p ≠ 0 ∧ h' = { h with matrices := Function.update h.matrices p m } := by
  unfold Heap.setMatrix at hs
  split at hs
  · cases hs
  · cases hs
    exact ⟨‹_›, rfl⟩

/-- A push of the heap is a push of the arena. -/
theorem Heap.Over.push (hover : h.Over s) (hrun : (arenaSystem r bytes).Run s log)
    (hpush : h.push size = (p, h')) :
    ∃ s' log', (arenaSystem r bytes).Run s' log' ∧ h'.Over s' ∧ h'.matrices = h.matrices ∧
      s'.blocks = if p = 0 then s.blocks else ⟨p, size⟩ :: s.blocks := by
  rw [Heap.push, hover.arena, hover.bytes] at hpush
  cases hresult : arenaPush s.arena s.bytes size 1 with
  | mk out rest =>
    obtain ⟨arena, bytes'⟩ := rest
    rw [hresult] at hpush
    cases hpush
    have hstep : (arenaSystem r bytes).step s (.push size 1) =
        some (⟨arena, bytes', if p = 0 then s.blocks else ⟨p, size⟩ :: s.blocks⟩,
          [.pushed size p]) := by
      simp only [arenaSystem, arenaStep, hresult]
    exact ⟨_, _, hrun.step trivial hstep, ⟨rfl, rfl⟩, rfl, rfl⟩

/-- A matrix has two blocks: one for itself and one for its data. -/
theorem Heap.Over.createMatrix (hover : h.Over s) (hrun : (arenaSystem r bytes).Run s log)
    (hcreate : h.createMatrix rows cols = .ok (out, h')) (hdata : (h'.matrices out).data ≠ 0) :
    ∃ s' log', (arenaSystem r bytes).Run s' log' ∧ h'.Over s' ∧
      s'.blocks = ⟨(h'.matrices out).data, dataSize rows cols⟩ :: ⟨out, 16⟩ :: s.blocks ∧
      (h'.matrices out).rows = rows ∧ (h'.matrices out).cols = cols := by
  unfold Heap.createMatrix at hcreate
  cases hfirst : h.push 16 with
  | mk p h₁ =>
    simp only [hfirst] at hcreate
    obtain ⟨h₂, hheader, hcreate⟩ := bind_eq_ok.mp hcreate
    cases hsecond : h₂.push (16 * (rows * cols).setWidth 64) with
    | mk data h₃ =>
      simp only [hsecond] at hcreate
      obtain ⟨h₄, hfields, hcreate⟩ := bind_eq_ok.mp hcreate
      cases hcreate
      obtain ⟨s₁, log₁, hrun₁, hover₁, -, hblocks₁⟩ := hover.push hrun hfirst
      obtain ⟨hout, rfl⟩ := setMatrix_eq hheader
      have hover₂ : Heap.Over
          { h₁ with matrices := Function.update h₁.matrices out ⟨rows, cols, 0⟩ } s₁ :=
        ⟨hover₁.arena, hover₁.bytes⟩
      obtain ⟨s₃, log₃, hrun₃, hover₃, hmatrices, hblocks₃⟩ := hover₂.push hrun₁ hsecond
      obtain ⟨-, rfl⟩ := setMatrix_eq hfields
      simp only [Function.update_self] at hdata ⊢
      rw [if_neg hout] at hblocks₁
      rw [if_neg hdata, hblocks₁] at hblocks₃
      refine ⟨s₃, log₃, hrun₃, ⟨hover₃.arena, hover₃.bytes⟩, hblocks₃, ?_⟩
      simp only [hmatrices, Function.update_self, and_self]

theorem dataSize_toNat (rows cols : BitVec 32) :
    (dataSize rows cols).toNat = 16 * (rows.toNat * cols.toNat % 2 ^ 32) := by
  have hproduct : ((rows * cols).setWidth 64).toNat = rows.toNat * cols.toNat % 2 ^ 32 := by
    rw [BitVec.toNat_setWidth_of_le (by decide), BitVec.toNat_mul]
  have hlt := Nat.mod_lt (rows.toNat * cols.toNat) (y := 2 ^ 32) (by decide)
  rw [dataSize, BitVec.toNat_mul, hproduct]
  exact Nat.mod_eq_of_lt (by change 16 * _ < _; omega)

/-- The last block that was handed out lies inside the arena, apart from the others. -/
theorem Stacked.region {b : Block} {others : List Block} (h : Stacked r s)
    (hblocks : s.blocks = b :: others) :
    b.region.Inside r.region ∧ ∀ b' ∈ others, b.region.Apart b'.region := by
  obtain ⟨harena, hmem, habove⟩ := h
  have hpos := harena.pos_le
  rw [hblocks] at hmem habove
  obtain ⟨-, hlo, hhi⟩ := hmem b (List.mem_cons_self ..)
  refine ⟨⟨hlo, ?_⟩, fun b' hb' => .inr ((List.pairwise_cons.mp habove).1 b' hb')⟩
  simp only [Region.stop, Block.region, Created.region, Block.start, Block.stop] at hhi ⊢
  omega

/-- A matrix with data has a data block, which holds the promised elements if and only if their
number is at most four times what it is in 32 bits. -/
theorem create_matrix_backed_iff (hrun : (arenaSystem r bytes).Run s log) (hover : h.Over s)
    (hcreate : h.createMatrix rows cols = .ok (out, h')) (hdata : (h'.matrices out).data ≠ 0) :
    (∃ s' log', (arenaSystem r bytes).Run s' log' ∧ h'.Over s' ∧
        s'.blocks = ⟨(h'.matrices out).data, dataSize rows cols⟩ :: ⟨out, 16⟩ :: s.blocks) ∧
      ((h'.matrices out).Backed r ⟨(h'.matrices out).data, dataSize rows cols⟩
          (⟨out, 16⟩ :: s.blocks) ↔
        rows.toNat * cols.toNat ≤ 4 * (rows.toNat * cols.toNat % 2 ^ 32)) := by
  obtain ⟨s', log', hrun', hover', hblocks, hrows, hcols⟩ :=
    hover.createMatrix hrun hcreate hdata
  obtain ⟨hinside, hapart⟩ := (stacked_of_run hrun').region hblocks
  have hwithin : (h'.matrices out).elements.Inside
      (Block.region ⟨(h'.matrices out).data, dataSize rows cols⟩) ↔
        rows.toNat * cols.toNat ≤ 4 * (rows.toNat * cols.toNat % 2 ^ 32) := by
    simp only [Region.Inside, Region.stop, Matrix.elements, Block.region, Block.start, hrows,
      hcols, dataSize_toNat]
    omega
  refine ⟨⟨s', log', hrun', hover', hblocks⟩, fun hbacked => hwithin.mp hbacked.within,
    fun hfits => ?_⟩
  have hheld := hwithin.mpr hfits
  exact ⟨hheld, hheld.trans hinside, fun b hb => (hapart b hb).of_inside hheld⟩

end Create

/-- An arena of 64 bytes, and a heap over it. -/
def sixtyFour : Created where
  capacity := 64
  header := 64
  memory := 24576
  arena := ⟨24576, 64, 0⟩
  created := rfl
  bounded := by decide
  aligned := by decide
  nonnull := by decide
  inside := by decide

def fresh : Heap := ⟨sixtyFour.arena, fun _ => 7, fun _ => {}, fun _ => {}, ⟨0⟩⟩

theorem create_matrix_backed_iff_fresh :
    ∃ out h', fresh.createMatrix 1 2 = .ok (out, h') ∧ (h'.matrices out).data ≠ 0 ∧
      (h'.matrices out).Backed sixtyFour ⟨(h'.matrices out).data, dataSize 1 2⟩ [⟨out, 16⟩] := by
  have hcreates : ∃ h', fresh.createMatrix 1 2 = .ok (24576, h') ∧
      (h'.matrices 24576).data = 24592 := ⟨_, rfl, rfl⟩
  obtain ⟨h', hcreate, haddress⟩ := hcreates
  have hdata : (h'.matrices 24576).data ≠ 0 := by
    rw [haddress]
    decide
  have hrun : (arenaSystem sixtyFour fun _ => 7).Run _ [] := .init
  exact ⟨24576, h', hcreate, hdata,
    (create_matrix_backed_iff hrun ⟨rfl, rfl⟩ hcreate hdata).2.mpr (by decide)⟩

/-- The number of elements of this matrix is zero in 32 bits. -/
theorem create_matrix_not_backed :
    ∃ out h', fresh.createMatrix 65536 65536 = .ok (out, h') ∧ (h'.matrices out).data ≠ 0 ∧
      ¬ (h'.matrices out).Backed sixtyFour ⟨(h'.matrices out).data, dataSize 65536 65536⟩
        [⟨out, 16⟩] :=
  ⟨24576, _, rfl, by decide, fun h => absurd h.within (by decide)⟩

end ReinC
