import LowLevelCpp.ReinC.Autograd

/-! Which variables require gradients. `create_var` drops its argument `flags`, so that no variable
ever carries a flag or gets a gradient, whatever the leaves were created with. -/
namespace ReinC
open Foundations Foundations.System Relation

/-- One variable is an operand of the other. -/
def State.HasOperand (s : State) (v a : BitVec 64) : Prop :=
  ∃ b, (v, .node a b) ∈ s.graph ∨ (v, .node b a) ∈ s.graph

/-- A leaf that a variable was built from was created to require gradients. -/
def State.BuiltFromGrad (s : State) (v : BitVec 64) : Prop :=
  ∃ leaf flags, ReflTransGen s.HasOperand v leaf ∧ (leaf, .leaf flags) ∈ s.graph ∧
    flags &&& VAR_FLAG_REQUIRES_GRAD ≠ 0

/-- The variable has a gradient of the shape of its value. -/
def Heap.HasGrad (h : Heap) (v : BitVec 64) : Prop :=
  (h.vars v).grad ≠ 0 ∧
    (h.matrices (h.vars v).grad).rows = (h.matrices (h.vars v).val).rows ∧
    (h.matrices (h.vars v).grad).cols = (h.matrices (h.vars v).val).cols

/-- What the flags are for: leaves carry the given ones, nodes take over the requirement of their
operands and so of the leaves below them, and it decides who has a gradient. -/
structure Propagates (s : State) : Prop where
  leaves : ∀ v flags, (v, .leaf flags) ∈ s.graph → (s.heap.vars v).flags = flags
  nodes : ∀ v a b, (v, .node a b) ∈ s.graph →
    (s.heap.requiresGrad v = true ↔
      s.heap.requiresGrad a = true ∨ s.heap.requiresGrad b = true)
  built : ∀ v origin, (v, origin) ∈ s.graph →
    (s.heap.requiresGrad v = true ↔ s.BuiltFromGrad v)
  grads : ∀ v origin, (v, origin) ∈ s.graph →
    (s.heap.HasGrad v ↔ s.heap.requiresGrad v = true)

/-- No variable carries a flag or has a gradient. -/
def Flagless (h : Heap) : Prop := ∀ v, (h.vars v).flags = 0 ∧ (h.vars v).grad = 0

section Calls
variable {h h' h₁ h₂ : Heap} {p out v : BitVec 64} {rows cols flags : BitVec 32} {var : Var}
  {m : Matrix} {types : BitVec 64 → VarType} {a b type : BitVec 64}

theorem push_vars {size : BitVec 64} (hp : h.push size = (p, h')) : h'.vars = h.vars := by
  cases hp
  rfl

theorem setMatrix_vars (hs : h.setMatrix p m = .ok h') : h'.vars = h.vars := by
  unfold Heap.setMatrix at hs
  split at hs
  · cases hs
  · cases hs
    rfl

theorem setVar_eq (hs : h.setVar p var = .ok h') :
    p ≠ 0 ∧ h' = { h with vars := Function.update h.vars p var } := by
  unfold Heap.setVar at hs
  split at hs
  · cases hs
  · cases hs
    exact ⟨‹_›, rfl⟩

theorem createMatrix_vars (hs : h.createMatrix rows cols = .ok (out, h')) :
    h'.vars = h.vars := by
  unfold Heap.createMatrix at hs
  cases hfirst : h.push 16 with
  | mk p h₁ =>
    simp only [hfirst] at hs
    obtain ⟨h₂, hheader, hs⟩ := bind_eq_ok.mp hs
    cases hsecond : h₂.push (16 * (rows * cols).setWidth 64) with
    | mk data h₃ =>
      simp only [hsecond] at hs
      obtain ⟨h₄, hdata, hs⟩ := bind_eq_ok.mp hs
      cases hs
      rw [setMatrix_vars hdata, push_vars hsecond, setMatrix_vars hheader, push_vars hfirst]

theorem Flagless.congr (h₀ : Flagless h) (hvars : h'.vars = h.vars) : Flagless h' := by
  unfold Flagless
  rw [hvars]
  exact h₀

theorem Flagless.setVar (h₀ : Flagless h) (hs : h.setVar p var = .ok h') (hflags : var.flags = 0)
    (hgrad : var.grad = 0) : Flagless h' := by
  obtain ⟨-, rfl⟩ := setVar_eq hs
  intro v
  by_cases hv : v = p
  · subst hv
    simp [hflags, hgrad]
  · simpa [hv] using h₀ v

/-- The flag that `create_var` tests is the zero that it finds in the cleared structure. -/
theorem Flagless.createVar (h₀ : Flagless h) (hs : h.createVar rows cols flags = .ok (out, h')) :
    Flagless h' := by
  unfold Heap.createVar at hs
  cases hpush : h.push 48 with
  | mk p h₁ =>
    simp only [hpush] at hs
    obtain ⟨h₂, hvar, hs⟩ := bind_eq_ok.mp hs
    obtain ⟨⟨val, h₄⟩, hmatrix, hs⟩ := bind_eq_ok.mp hs
    obtain ⟨h₅, hval, hs⟩ := bind_eq_ok.mp hs
    have h₁less : Flagless h₁ := h₀.congr (push_vars hpush)
    have h₂less : Flagless h₂ := h₁less.setVar hvar rfl rfl
    have h₄less : Flagless h₄ := h₂less.congr ((createMatrix_vars hmatrix).trans rfl)
    have h₅less : Flagless h₅ := h₄less.setVar hval (h₄less p).1 (h₄less p).2
    have htest : ¬ (h₅.vars p).flags &&& VAR_FLAG_REQUIRES_GRAD ≠ 0 := by
      rw [(h₅less p).1]
      decide
    simp only [if_neg htest] at hs
    cases hs
    exact h₅less

theorem Flagless.createNode (h₀ : Flagless h)
    (hs : h.createNode types a b type = .ok (out, h')) : Flagless h' := by
  unfold Heap.createNode at hs
  split at hs
  · cases hs
    exact h₀
  · simp only at hs
    split at hs
    · cases hs
      exact h₀
    · obtain ⟨⟨var, h₁⟩, hvar, hs⟩ := bind_eq_ok.mp hs
      obtain ⟨h₂, hnode, hs⟩ := bind_eq_ok.mp hs
      have h₁less : Flagless h₁ := h₀.createVar hvar
      cases hs
      exact h₁less.setVar hnode (h₁less var).1 (h₁less var).2

theorem Flagless.requiresGrad (h₀ : Flagless h) (v : BitVec 64) : h.requiresGrad v = false := by
  unfold Heap.requiresGrad
  rw [(h₀ v).1]
  simp

end Calls

section Runs
variable {r : Created} {types : BitVec 64 → VarType} {bytes : Bytes} {s s' : State}
  {log evs : List Event} {act : Act}

theorem Flagless.step (h : Flagless s.heap) (hs : step types s act = some (s', evs)) :
    Flagless s'.heap := by
  unfold ReinC.step at hs
  split at hs
  · cases hs
  cases act with
  | create_var rows cols flags =>
    simp only [State.call] at hs
    split at hs
    · rename_i hcall
      cases hs
      exact h.createVar hcall
    · cases hs
      exact h
  | create_node a b type =>
    simp only [State.call] at hs
    split at hs
    · split at hs
      · rename_i hcall
        cases hs
        exact h.createNode hcall
      · cases hs
        exact h
    · cases hs

theorem flagless_of_run (hrun : (system r types bytes).Run s log) : Flagless s.heap :=
  hrun.invariant (I := fun s _ => Flagless s.heap) (fun _ => ⟨rfl, rfl⟩)
    fun _ _ _ _ _ _ h _ hs => h.step hs

/-- Flags and gradients are as they should be exactly in the runs in which every call of
`create_var` was given no flag. -/
theorem gradients_iff (hrun : (system r types bytes).Run s log) :
    Propagates s ↔ ∀ v flags, (v, .leaf flags) ∈ s.graph → flags = VAR_FLAG_NONE := by
  have h := flagless_of_run hrun
  constructor
  · intro hp v flags hv
    rw [← hp.leaves v flags hv, (h v).1]
    rfl
  · intro hflags
    have hnone (v : BitVec 64) : ¬ s.BuiltFromGrad v := by
      rintro ⟨leaf, flags, -, hleaf, hgrad⟩
      rw [hflags leaf flags hleaf] at hgrad
      exact hgrad (by decide)
    refine ⟨fun v flags hv => ?_, fun v a b _ => ?_, fun v origin _ => ?_, fun v origin _ => ?_⟩
    · rw [(h v).1, hflags v flags hv]
      rfl
    · simp [h.requiresGrad]
    · simp [h.requiresGrad, hnone v]
    · simp [Heap.HasGrad, (h v).2, h.requiresGrad]

end Runs

/-- An arena with room for a few variables. -/
def kilobyte : Created where
  capacity := 1000
  header := 32
  memory := 16384
  arena := ⟨16384, 1000, 0⟩
  created := rfl
  bounded := by decide
  aligned := by decide
  nonnull := by decide
  inside := by decide

/-- A type with one input, whose results have one row and one column. -/
def unary (_ : BitVec 64) : VarType := ⟨1, fun _ _ _ _ _ => (1, 1, 1)⟩

theorem gradients_iff_plain : ∃ s log, (system kilobyte unary fun _ => 7).Run s log ∧
    s.graph.length = 2 ∧ Propagates s := by
  obtain ⟨s, log, hrun, hq⟩ := (system kilobyte unary fun _ => 7).exists_run_of_exec
    (fun _ _ => True) [.create_var 2 1 0, .create_node 16384 0 48]
    (fun s _ => decide (s.graph.map Prod.snd = [.node 16384 0, .leaf 0])) (by decide +kernel)
  have hgraph : s.graph.map Prod.snd = [.node 16384 0, .leaf 0] := of_decide_eq_true hq
  refine ⟨s, log, hrun, ?_, (gradients_iff hrun).mpr fun v flags hv => ?_⟩
  · rw [← List.length_map (f := Prod.snd), hgraph]
    rfl
  · have hmem : Origin.leaf flags ∈ s.graph.map Prod.snd := List.mem_map_of_mem hv
    rw [hgraph] at hmem
    simpa [VAR_FLAG_NONE] using hmem

/-- A leaf is created to require gradients and does not, nor does the node above it. -/
theorem gradients_fail : ¬ ∀ s log, (system kilobyte unary fun _ => 7).Run s log →
    Propagates s := by
  intro h
  obtain ⟨s, log, hrun, hq⟩ := (system kilobyte unary fun _ => 7).exists_run_of_exec
    (fun _ _ => True) [.create_var 2 1 VAR_FLAG_REQUIRES_GRAD, .create_node 16384 0 48]
    (fun s _ => decide (s.graph.any fun v => v.2 = .leaf 1 && (s.heap.vars v.1).flags == 0))
    (by decide +kernel)
  simp only [decide_eq_true_eq, List.any_eq_true, Bool.and_eq_true, beq_iff_eq] at hq
  obtain ⟨⟨v, origin⟩, hv, horigin, hflags⟩ := hq
  obtain rfl : origin = .leaf 1 := horigin
  have hleaf := (h s log hrun).leaves v 1 hv
  rw [hflags] at hleaf
  cases hleaf

end ReinC
