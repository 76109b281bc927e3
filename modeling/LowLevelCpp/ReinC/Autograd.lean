import LowLevelCpp.ReinC.Arena
import Mathlib.Logic.Relation

/-!
`ReinC/autograd.c`: variables of a computation graph, allocated in an arena. The structures that
live in the arena are kept by their addresses; `0` is the null pointer.
-/
namespace ReinC
open Foundations

/-- `matrix` -/
structure Matrix where
  rows : BitVec 32 := 0
  cols : BitVec 32 := 0
  data : BitVec 64 := 0

def VAR_FLAG_NONE : BitVec 32 := 0

def VAR_FLAG_REQUIRES_GRAD : BitVec 32 := 1

structure Var where
  index : BitVec 32 := 0
  flags : BitVec 32 := 0
  val : BitVec 64 := 0
  grad : BitVec 64 := 0
  inputs : Fin 2 → BitVec 64 := fun _ => 0
  type : BitVec 64 := 0

/-- `model_state` -/
structure ModelState where
  num_vars : BitVec 32

structure Heap where
  arena : Arena
  bytes : Bytes
  matrices : BitVec 64 → Matrix
  vars : BitVec 64 → Var
  model : ModelState

/-- A `VarShapeFunc` reads the operands and may set `cols` and `rows`; its first result is the
truth value that it returns. -/
structure VarType where
  num_inputs : BitVec 32
  shape : Heap → (a b : BitVec 64) → (cols rows : BitVec 32) → BitVec 32 × BitVec 32 × BitVec 32

/-- An access through a null pointer. -/
inductive Fault where
  | nullPointer
  deriving DecidableEq

namespace Heap

def push (h : Heap) (size : BitVec 64) : BitVec 64 × Heap :=
  let (out, arena, bytes) := arenaPush h.arena h.bytes size 1
  (out, { h with arena, bytes })

def setMatrix (h : Heap) (p : BitVec 64) (m : Matrix) : Except Fault Heap :=
  if p = 0 then throw .nullPointer else pure { h with matrices := Function.update h.matrices p m }

def setVar (h : Heap) (p : BitVec 64) (var : Var) : Except Fault Heap :=
  if p = 0 then throw .nullPointer else pure { h with vars := Function.update h.vars p var }

/-- `create_matrix`; a `matrix` has 16 bytes, and `rows * cols` is a product of 32 bits. -/
def createMatrix (h : Heap) (rows cols : BitVec 32) : Except Fault (BitVec 64 × Heap) := do
  let (out, h₁) := h.push 16
  let h₂ ← h₁.setMatrix out ⟨rows, cols, 0⟩
  let (data, h₃) := h₂.push (16 * (rows * cols).setWidth 64)
  let h₄ ← h₃.setMatrix out { h₃.matrices out with data }
  pure (out, h₄)

/-- `create_var`; a `Var` has 48 bytes, which `PUSH_STRUCT` clears. The source does not read its
parameter `flags`. -/
def createVar (h : Heap) (rows cols _flags : BitVec 32) : Except Fault (BitVec 64 × Heap) := do
  let (out, h₁) := h.push 48
  let h₂ ← h₁.setVar out { index := h₁.model.num_vars }
  let h₃ := { h₂ with model.num_vars := h₂.model.num_vars + 1 }
  let (val, h₄) ← h₃.createMatrix rows cols
  let h₅ ← h₄.setVar out { h₄.vars out with val }
  if (h₅.vars out).flags &&& VAR_FLAG_REQUIRES_GRAD ≠ 0 then
    let (grad, h₆) ← h₅.createMatrix rows cols
    let h₇ ← h₆.setVar out { h₆.vars out with grad }
    pure (out, h₇)
  else pure (out, h₅)

/-- `p != NULL && (p->flags & VAR_FLAG_REQUIRES_GRAD)` -/
def requiresGrad (h : Heap) (p : BitVec 64) : Bool :=
  p != 0 && (h.vars p).flags &&& VAR_FLAG_REQUIRES_GRAD != 0

/-- `create_node` -/
def createNode (h : Heap) (types : BitVec 64 → VarType) (a b type : BitVec 64) :
    Except Fault (BitVec 64 × Heap) := do
  if type = 0 then pure (0, h)
  else
    let flag := if h.requiresGrad a || h.requiresGrad b then VAR_FLAG_REQUIRES_GRAD
      else VAR_FLAG_NONE
    let (shaped, cols, rows) := (types type).shape h a b 0 0
    if shaped = 0 then pure (0, h)
    else
      let (var, h₁) ← h.createVar rows cols flag
      let inputs := Function.update (h₁.vars var).inputs 0 a
      let inputs := if (types type).num_inputs > 1 then Function.update inputs 1 b else inputs
      let h₂ ← h₁.setVar var { h₁.vars var with type, inputs }
      pure (var, h₂)

end Heap

/-- How a variable was made. -/
inductive Origin where
  | leaf (flags : BitVec 32)
  | node (a b : BitVec 64)
  deriving DecidableEq

/-- `graph` are the variables made so far, the last one first. -/
structure State where
  heap : Heap
  graph : List (BitVec 64 × Origin)
  ended : Bool

inductive Event where
  | created (var : BitVec 64)
  | fault (f : Fault)
  deriving DecidableEq

/-- The calls of the client. -/
inductive Act where
  | create_var (rows cols flags : BitVec 32)
  | create_node (a b type : BitVec 64)

/-- A call that returns null makes no variable. -/
def State.call (s : State) (origin : Origin) (result : Except Fault (BitVec 64 × Heap)) :
    State × List Event :=
  match result with
  | .ok (var, heap) =>
    ({ s with heap, graph := if var = 0 then s.graph else (var, origin) :: s.graph },
      [.created var])
  | .error f => ({ s with ended := true }, [.fault f])

/-- An operand is an earlier result or null. -/
def State.Operand (s : State) (p : BitVec 64) : Prop := p = 0 ∨ p ∈ s.graph.map Prod.fst

instance (s : State) (p : BitVec 64) : Decidable (s.Operand p) :=
  inferInstanceAs (Decidable (_ ∨ _))

def step (types : BitVec 64 → VarType) (s : State) (act : Act) : Option (State × List Event) :=
  if s.ended then none
  else
    match act with
    | .create_var rows cols flags => some (s.call (.leaf flags) (s.heap.createVar rows cols flags))
    | .create_node a b type =>
      if s.Operand a ∧ s.Operand b then
        some (s.call (.node a b) (s.heap.createNode types a b type))
      else none

/-- One model, `model_state model = {0}`, over one arena. -/
def system (r : Created) (types : BitVec 64 → VarType) (bytes : Bytes) :
    System State Act Event where
  init := ⟨⟨r.arena, bytes, fun _ => {}, fun _ => {}, ⟨0⟩⟩, [], false⟩
  step := step types

end ReinC
