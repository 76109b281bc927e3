import LowLevelCpp.ReinC.Matrices

/-! What the constructions of `ReinC/autograd.c` do when the arena is full. None of them looks at
the result of `arena_push` before it goes on, so that they are right exactly when everything
fits. -/
namespace ReinC
open Foundations

/-- Blocks of these sizes, pushed one after the other, all fit. -/
def Fits (capacity : ℕ) : ℕ → List ℕ → Prop
  | _, [] => True
  | pos, size :: sizes =>
    alignedPos pos + size ≤ capacity ∧ Fits capacity (alignedPos pos + size) sizes

instance decidableFits (capacity : ℕ) : ∀ pos sizes, Decidable (Fits capacity pos sizes)
  | _, [] => inferInstanceAs (Decidable True)
  | pos, size :: sizes =>
    have := decidableFits capacity (alignedPos pos + size) sizes
    inferInstanceAs (Decidable (_ ∧ _))

section Push
variable {r : Created} {h : Heap} {size : BitVec 64}

theorem Heap.push_refused (hat : h.arena.At r)
    (hfull : r.capacity.toNat < alignedPos h.arena.pos.toNat + size.toNat) :
    h.push size = (0, h) := by
  rw [Heap.push, arenaPush_null hat hfull]

theorem Heap.push_granted (size : BitVec 64) (hat : h.arena.At r)
    (hfits : alignedPos h.arena.pos.toNat + size.toNat ≤ r.capacity.toNat) :
    ∃ out arena, h.push size =
        (out, { h with arena, bytes := h.bytes.fill out.toNat size.toNat 0 }) ∧
      out ≠ 0 ∧ out.toNat = r.memory.toNat + alignedPos h.arena.pos.toNat ∧ arena.At r ∧
      arena.pos.toNat = alignedPos h.arena.pos.toNat + size.toNat := by
  obtain ⟨out, arena, hpush, hout, hat', hpos⟩ := arenaPush_block hat hfits h.bytes 1
  have hnonnull := r.nonnull
  refine ⟨out, arena, ?_, ?_, hout, hat', hpos⟩
  · rw [Heap.push, hpush]
    rfl
  · rintro rfl
    change 0 = _ at hout
    omega

end Push

section Create
variable {r : Created} {h h₁ h₂ : Heap} {out val data type a b : BitVec 64}
  {rows cols flags : BitVec 32} {types : BitVec 64 → VarType} {arena arena₁ : Arena}
  {bytes bytes₁ : Bytes} {matrices : BitVec 64 → Matrix}

theorem createMatrix_eq (hheader : h.push 16 = (out, { h with arena := arena₁, bytes := bytes₁ }))
    (hne : out ≠ 0)
    (hdata : Heap.push { h with
        arena := arena₁, bytes := bytes₁
        matrices := Function.update h.matrices out ⟨rows, cols, 0⟩ } (dataSize rows cols) =
      (data, { h with
        arena, bytes, matrices := Function.update h.matrices out ⟨rows, cols, 0⟩ })) :
    h.createMatrix rows cols = .ok (out, { h with
      arena, bytes, matrices := Function.update h.matrices out ⟨rows, cols, data⟩ }) := by
  unfold dataSize at hdata
  simp only [Heap.createMatrix, hheader, Heap.setMatrix, if_neg hne, pure_bind, hdata,
    Function.update_self, Function.update_idem]
  rfl

/-- The flags that `create_var` tests are those of the structure that it has just cleared. -/
theorem createVar_eq (hvar : h.push 48 = (out, { h with arena := arena₁, bytes := bytes₁ }))
    (hne : out ≠ 0)
    (hmatrix : Heap.createMatrix { h with
        arena := arena₁, bytes := bytes₁
        vars := Function.update h.vars out { index := h.model.num_vars }
        model := ⟨h.model.num_vars + 1⟩ } rows cols =
      .ok (val, { h with
        arena, bytes, matrices
        vars := Function.update h.vars out { index := h.model.num_vars }
        model := ⟨h.model.num_vars + 1⟩ })) :
    h.createVar rows cols flags = .ok (out, { h with
      arena, bytes, matrices
      vars := Function.update h.vars out { index := h.model.num_vars, val }
      model := ⟨h.model.num_vars + 1⟩ }) := by
  simp only [Heap.createVar, hvar, Heap.setVar, if_neg hne, pure_bind, hmatrix]
  simp only [bind, Except.bind, pure, Except.pure, Function.update_self, Function.update_idem]
  rfl

/-- What `create_matrix` does once its header fits. -/
theorem createMatrix_granted (rows cols : BitVec 32) (hat : h.arena.At r)
    (hheader : Fits r.capacity.toNat h.arena.pos.toNat [16]) :
    ∃ out data arena bytes, h.createMatrix rows cols = .ok (out,
        { h with arena, bytes, matrices := Function.update h.matrices out ⟨rows, cols, data⟩ }) ∧
      out ≠ 0 ∧ out.toNat = r.memory.toNat + alignedPos h.arena.pos.toNat ∧
      (Fits r.capacity.toNat h.arena.pos.toNat [16, (dataSize rows cols).toNat] →
        data ≠ 0 ∧
        data.toNat = r.memory.toNat + alignedPos (alignedPos h.arena.pos.toNat + 16) ∧
        arena.At r ∧ arena.pos.toNat =
          alignedPos (alignedPos h.arena.pos.toNat + 16) + (dataSize rows cols).toNat ∧
        bytes = (h.bytes.fill out.toNat 16 0).fill data.toNat (dataSize rows cols).toNat 0) := by
  obtain ⟨out, arena, hpush, hne, hout, hat₁, hpos⟩ :=
    Heap.push_granted 16 hat hheader.1
  have hat₁' : Arena.At (Heap.arena { h with
      arena, bytes := h.bytes.fill out.toNat 16 0
      matrices := Function.update h.matrices out ⟨rows, cols, 0⟩ }) r := hat₁
  rcases Nat.lt_or_ge r.capacity.toNat (alignedPos arena.pos.toNat + (dataSize rows cols).toNat)
    with hfull | hfits
  · refine ⟨out, 0, _, _, createMatrix_eq hpush hne (Heap.push_refused hat₁' hfull), hne, hout,
      fun hdata => ?_⟩
    rw [hpos] at hfull
    exact absurd hdata.2.1 (Nat.not_le.mpr hfull)
  · obtain ⟨data, arena', hpush', hne', hdata, hat₂, hpos'⟩ := Heap.push_granted _ hat₁' hfits
    refine ⟨out, data, arena', _, createMatrix_eq hpush hne hpush', hne, hout,
      fun _ => ⟨hne', ?_, hat₂, ?_, rfl⟩⟩
    · rw [hdata, hpos]
      rfl
    · rw [hpos', hpos]
      rfl

/-- What `create_var` does once the variable and the header of its matrix fit. -/
theorem createVar_granted (rows cols flags : BitVec 32) (hat : h.arena.At r)
    (hfits : Fits r.capacity.toNat h.arena.pos.toNat [48, 16]) :
    ∃ out val data arena bytes, h.createVar rows cols flags = .ok (out, { h with
        arena, bytes
        matrices := Function.update h.matrices val ⟨rows, cols, data⟩
        vars := Function.update h.vars out { index := h.model.num_vars, val }
        model := ⟨h.model.num_vars + 1⟩ }) ∧
      out ≠ 0 ∧ out.toNat = r.memory.toNat + alignedPos h.arena.pos.toNat ∧ val ≠ 0 ∧
      val.toNat = r.memory.toNat + alignedPos (alignedPos h.arena.pos.toNat + 48) ∧
      (Fits r.capacity.toNat h.arena.pos.toNat [48, 16, (dataSize rows cols).toNat] →
        data ≠ 0 ∧ data.toNat = r.memory.toNat +
          alignedPos (alignedPos (alignedPos h.arena.pos.toNat + 48) + 16) ∧
        arena.At r ∧ arena.pos.toNat =
          alignedPos (alignedPos (alignedPos h.arena.pos.toNat + 48) + 16) +
            (dataSize rows cols).toNat ∧
        bytes = ((h.bytes.fill out.toNat 48 0).fill val.toNat 16 0).fill data.toNat
          (dataSize rows cols).toNat 0) := by
  obtain ⟨out, arena, hpush, hne, hout, hat₁, hpos⟩ :=
    Heap.push_granted 48 hat hfits.1
  have hat₁' : Arena.At (Heap.arena { h with
      arena, bytes := h.bytes.fill out.toNat 48 0
      vars := Function.update h.vars out { index := h.model.num_vars }
      model := ⟨h.model.num_vars + 1⟩ }) r := hat₁
  have hpos' : arena.pos.toNat = alignedPos h.arena.pos.toNat + 48 := hpos
  obtain ⟨val, data, arena', bytes, hmatrix, hne', hval, hdata⟩ :=
    createMatrix_granted rows cols hat₁' (hpos' ▸ hfits.2)
  simp only [hpos'] at hval hdata
  exact ⟨out, val, data, arena', bytes, createVar_eq hpush hne hmatrix, hne, hout, hne', hval,
    fun hall => hdata hall.2⟩

theorem createMatrix_ne (hs : h.createMatrix rows cols = .ok (out, h₁)) : out ≠ 0 := by
  unfold Heap.createMatrix at hs
  cases hpush : h.push 16 with
  | mk p h₂ =>
    simp only [hpush] at hs
    obtain ⟨h₃, hheader, hs⟩ := bind_eq_ok.mp hs
    obtain ⟨h₄, -, hs⟩ := bind_eq_ok.mp hs
    cases hs
    exact (setMatrix_eq hheader).1

theorem createVar_ne (hs : h.createVar rows cols flags = .ok (out, h₁)) : out ≠ 0 := by
  unfold Heap.createVar at hs
  cases hpush : h.push 48 with
  | mk p h₂ =>
    simp only [hpush] at hs
    obtain ⟨h₃, hvar, hs⟩ := bind_eq_ok.mp hs
    obtain ⟨⟨val, h₄⟩, -, hs⟩ := bind_eq_ok.mp hs
    obtain ⟨h₅, -, hs⟩ := bind_eq_ok.mp hs
    split at hs
    · obtain ⟨⟨grad, h₆⟩, -, hs⟩ := bind_eq_ok.mp hs
      obtain ⟨h₇, -, hs⟩ := bind_eq_ok.mp hs
      cases hs
      exact (setVar_eq hvar).1
    · cases hs
      exact (setVar_eq hvar).1

end Create

/-- The sizes of the blocks that a matrix needs: its header and, if it has elements, its data. -/
def matrixNeeds (rows cols : BitVec 32) : List ℕ :=
  16 :: if rows.toNat * cols.toNat = 0 then [] else [16 * (rows.toNat * cols.toNat)]

/-- The sizes of the blocks that a variable needs: itself, its value and, if its flags say so,
its gradient. -/
def varNeeds (rows cols flags : BitVec 32) : List ℕ :=
  48 :: (matrixNeeds rows cols ++
    if flags &&& VAR_FLAG_REQUIRES_GRAD ≠ 0 then matrixNeeds rows cols else [])

namespace Heap

/-- The flag that `create_node` passes on. -/
def nodeFlag (h : Heap) (a b : BitVec 64) : BitVec 32 :=
  if h.requiresGrad a || h.requiresGrad b then VAR_FLAG_REQUIRES_GRAD else VAR_FLAG_NONE

/-- `create_node` rejects a null type, and operands that the shape function rejects. -/
def Rejects (h : Heap) (types : BitVec 64 → VarType) (a b type : BitVec 64) : Prop :=
  type = 0 ∨ ((types type).shape h a b 0 0).1 = 0

def nodeRows (h : Heap) (types : BitVec 64 → VarType) (a b type : BitVec 64) : BitVec 32 :=
  ((types type).shape h a b 0 0).2.2

def nodeCols (h : Heap) (types : BitVec 64 → VarType) (a b type : BitVec 64) : BitVec 32 :=
  ((types type).shape h a b 0 0).2.1

/-- The blocks that the variable of a node needs. -/
def nodeNeeds (h : Heap) (types : BitVec 64 → VarType) (a b type : BitVec 64) : List ℕ :=
  varNeeds (h.nodeRows types a b type) (h.nodeCols types a b type) (h.nodeFlag a b)

/-- The value of a variable. -/
def value (h : Heap) (p : BitVec 64) : Matrix := h.matrices (h.vars p).val

/-- How a construction should end: it dereferences no null pointer; without room for the blocks
that it needs it returns null and counts no variable; and a matrix that it returns lacks its data
only if it has no elements. -/
def Handles (h : Heap) (room : Prop) (matrix : Heap → BitVec 64 → Matrix)
    (result : Except Fault (BitVec 64 × Heap)) : Prop :=
  ∃ out h', result = .ok (out, h') ∧
    (¬ room → out = 0 ∧ h'.model.num_vars = h.model.num_vars) ∧
    (out ≠ 0 → (matrix h' out).data = 0 →
      (matrix h' out).rows.toNat * (matrix h' out).cols.toNat = 0)

/-- `var->inputs[0] = a; if (var->type->num_inputs > 1) var->inputs[1] = b;` -/
def nodeInputs (type : VarType) (inputs : Fin 2 → BitVec 64) (a b : BitVec 64) :
    Fin 2 → BitVec 64 :=
  let inputs := Function.update inputs ⟨0, Nat.two_pos⟩ a
  if type.num_inputs > 1 then Function.update inputs ⟨1, Nat.one_lt_two⟩ b else inputs

end Heap

section Node
variable {r : Created} {h h' h₁ : Heap} {out a b type : BitVec 64} {types : BitVec 64 → VarType}

theorem createNode_rejected (hrejects : h.Rejects types a b type) :
    h.createNode types a b type = .ok (0, h) := by
  unfold Heap.createNode
  split
  · rfl
  · rename_i htype
    have hshape := hrejects.resolve_left htype
    simp only [if_pos hshape]
    rfl

theorem createNode_eq (hrejects : ¬ h.Rejects types a b type) :
    h.createNode types a b type =
      (h.createVar (h.nodeRows types a b type) (h.nodeCols types a b type)
        (h.nodeFlag a b)).bind fun p => (p.2.setVar p.1 { p.2.vars p.1 with
          type, inputs := Heap.nodeInputs (types type) (p.2.vars p.1).inputs a b }).bind
            fun h₂ => .ok (p.1, h₂) := by
  obtain ⟨htype, hshape⟩ := not_or.mp hrejects
  unfold Heap.createNode
  rw [if_neg htype]
  simp only [if_neg hshape]
  rfl

theorem createNode_created (hrejects : ¬ h.Rejects types a b type)
    (hvar : h.createVar (h.nodeRows types a b type) (h.nodeCols types a b type)
      (h.nodeFlag a b) = .ok (out, h₁)) :
    h.createNode types a b type = .ok (out, { h₁ with
      vars := Function.update h₁.vars out { h₁.vars out with
        type, inputs := Heap.nodeInputs (types type) (h₁.vars out).inputs a b } }) := by
  rw [createNode_eq hrejects, hvar]
  simp only [Except.bind, Heap.setVar, if_neg (createVar_ne hvar)]
  rfl

theorem createNode_ne (hrejects : ¬ h.Rejects types a b type)
    (hs : h.createNode types a b type = .ok (out, h')) : out ≠ 0 := by
  rw [createNode_eq hrejects] at hs
  obtain ⟨⟨var, h₁⟩, hvar, hs⟩ := bind_eq_ok.mp hs
  obtain ⟨h₂, -, hs⟩ := bind_eq_ok.mp hs
  cases hs
  exact createVar_ne hvar

end Node

section Room
variable {r : Created} {h : Heap} {capacity pos : ℕ} {xs ys : List ℕ}
  {rows cols flags : BitVec 32} {a b type : BitVec 64} {types : BitVec 64 → VarType}

theorem Fits.left (hfits : Fits capacity pos (xs ++ ys)) : Fits capacity pos xs := by
  induction xs generalizing pos with
  | nil => trivial
  | cons size sizes ih => exact ⟨hfits.1, ih hfits.2⟩

/-- A smaller last block fits too. -/
theorem Fits.shrink {size size' : ℕ} (hfits : Fits capacity pos (xs ++ [size]))
    (hle : size' ≤ size) : Fits capacity pos (xs ++ [size']) := by
  induction xs generalizing pos with
  | nil =>
    have hlast := hfits.1
    exact ⟨by omega, trivial⟩
  | cons size sizes ih => exact ⟨hfits.1, ih hfits.2⟩

/-- Room for a matrix with elements is room for the block that `create_matrix` asks for. -/
theorem Fits.data (xs ys : List ℕ)
    (hfits : Fits capacity pos (xs ++ matrixNeeds rows cols ++ ys))
    (hsome : rows.toNat * cols.toNat ≠ 0) :
    Fits capacity pos (xs ++ [16, (dataSize rows cols).toNat]) := by
  have hle : (dataSize rows cols).toNat ≤ 16 * (rows.toNat * cols.toNat) := by
    rw [dataSize_toNat]
    exact Nat.mul_le_mul_left 16 (Nat.mod_le _ _)
  have hmatrix := hfits.left
  rw [matrixNeeds, if_neg hsome, List.append_cons] at hmatrix
  rw [List.append_cons]
  exact hmatrix.shrink hle

theorem Fits.header (xs ys : List ℕ)
    (hfits : Fits capacity pos (xs ++ matrixNeeds rows cols ++ ys)) :
    Fits capacity pos (xs ++ [16]) := by
  have hmatrix := hfits.left
  rw [matrixNeeds, List.append_cons] at hmatrix
  exact hmatrix.left

/-- A construction that never returns null needs the room. -/
theorem Heap.Handles.room {room : Prop} {matrix : Heap → BitVec 64 → Matrix}
    {result : Except Fault (BitVec 64 × Heap)} (hh : h.Handles room matrix result)
    (hne : ∀ out h', result = .ok (out, h') → out ≠ 0) : room := by
  obtain ⟨out, h', hresult, hnull, -⟩ := hh
  by_contra hroom
  exact hne out h' hresult (hnull hroom).1

theorem createMatrix_handles (hat : h.arena.At r)
    (hroom : Fits r.capacity.toNat h.arena.pos.toNat (matrixNeeds rows cols)) :
    h.Handles (Fits r.capacity.toNat h.arena.pos.toNat (matrixNeeds rows cols)) Heap.matrices
      (h.createMatrix rows cols) := by
  obtain ⟨out, data, arena, bytes, hcreate, -, -, hdata⟩ :=
    createMatrix_granted rows cols hat (Fits.header [] [] (by simpa using hroom))
  refine ⟨out, _, hcreate, fun hnone => absurd hroom hnone, fun _ hnull => ?_⟩
  simp only [Function.update_self] at hnull ⊢
  by_contra hsome
  exact (hdata (Fits.data [] [] (by simpa using hroom) hsome)).1 hnull

theorem createVar_handles (hat : h.arena.At r)
    (hroom : Fits r.capacity.toNat h.arena.pos.toNat (varNeeds rows cols flags)) :
    h.Handles (Fits r.capacity.toNat h.arena.pos.toNat (varNeeds rows cols flags)) Heap.value
      (h.createVar rows cols flags) := by
  obtain ⟨out, val, data, arena, bytes, hcreate, -, -, -, -, hdata⟩ :=
    createVar_granted rows cols flags hat (Fits.header [48] _ hroom)
  refine ⟨out, _, hcreate, fun hnone => absurd hroom hnone, fun _ hnull => ?_⟩
  simp only [Heap.value, Function.update_self] at hnull ⊢
  by_contra hsome
  exact (hdata (Fits.data [48] _ hroom hsome)).1 hnull

theorem createNode_handles (hat : h.arena.At r)
    (hroom : h.Rejects types a b type ∨
      Fits r.capacity.toNat h.arena.pos.toNat (h.nodeNeeds types a b type)) :
    h.Handles (Fits r.capacity.toNat h.arena.pos.toNat (h.nodeNeeds types a b type)) Heap.value
      (h.createNode types a b type) := by
  by_cases hrejects : h.Rejects types a b type
  · exact ⟨0, h, createNode_rejected hrejects, fun _ => ⟨rfl, rfl⟩, fun hne => absurd rfl hne⟩
  · have hfits := hroom.resolve_left hrejects
    obtain ⟨out, h₁, hcreate, hnone, hvalue⟩ := createVar_handles hat hfits
    have hne := createVar_ne hcreate
    refine ⟨out, _, createNode_created hrejects hcreate, fun hfull => absurd hfits hfull,
      fun _ hnull => ?_⟩
    simp only [Heap.value, Function.update_self] at hnull ⊢
    exact hvalue hne hnull

end Room

/-- The arena and the model with which `main` starts. -/
def Heap.blank : Heap := ⟨kilobyte.arena, fun _ => 7, fun _ => {}, fun _ => {}, ⟨0⟩⟩

end ReinC
