import LowLevelCpp.Foundations.Ledger
import Mathlib.Data.Nat.Notation
import Mathlib.Logic.Function.Basic

/-!
`my_function/my_function.hpp`: `my::function`, with its small buffer. Function objects are the
elements of `ι`; a functor model lives in the buffer of an object or in a block from `new`.
-/
namespace MyFunction
open Foundations

/-- Where a functor model lives. -/
inductive Place (ι : Type) where
  | buffer (o : ι)
  | heap (block : ℕ)
  deriving DecidableEq

/-- `sizeof` and `alignof` of a `CallableModel`. -/
structure Layout where
  size : ℕ
  align : ℕ

def SBO_SIZE : ℕ := 32

/-- `alignof(std::max_align_t)` -/
def MAX_ALIGN : ℕ := 16

def fitsInSbo (model : Layout) : Bool := model.size ≤ SBO_SIZE && MAX_ALIGN % model.align == 0

/-- The functors of all types with their operations. `copy` gives the new functor, `move` the new
one and what is left of the source; a functor that is moved has the value that it had. `invoke`
may have effects on the world outside, but it does not operate on the wrappers: a functor that
assigns to the wrapper it is called through is not among them. -/
structure Callables (V W A R : Type) where
  copy : V → V
  move : V → V × V
  move_value : ∀ v, (move v).1 = v
  invoke : W → V → A → W × V × R

/-- `objects` gives the member `callable_` of the objects that exist, `models` the functors that
have been constructed and not destroyed. -/
structure State (ι V W : Type) where
  objects : ι → Option (Option (Place ι))
  models : Place ι → Option V
  world : W
  ended : Bool

/-- The use of a functor that does not exist, and construction on top of one that does. -/
inductive Fault where
  | dead
  | occupied
  deriving DecidableEq

/-- `destroyed` is the call of `destroy()`, `deleted` the `delete` expression. A call reports the
result and the state in which it leaves the functor, or `bad_function_call`. -/
inductive Event (ι V A R : Type) where
  | built (p : Place ι)
  | destroyed (p : Place ι)
  | deleted (p : Place ι)
  | tested (o : ι) (value : Bool)
  | called (o : ι) (arg : A) (result : Option (V × R))
  | fault (f : Fault)
  deriving DecidableEq

/-- The members of `my::function`; `fresh` is the block that `new` returns if it is called. -/
inductive Act (ι V A : Type) where
  | construct (o : ι) (v : V) (model : Layout) (fresh : ℕ)
  | constructEmpty (o : ι)
  | copyConstruct (o other : ι) (fresh : ℕ)
  | moveConstruct (o other : ι)
  | copyAssign (o other : ι) (fresh : ℕ)
  | moveAssign (o other : ι)
  | assignNull (o : ι)
  | operatorBool (o : ι)
  | call (o : ι) (arg : A)
  | destruct (o : ι)

variable {ι V W A R : Type} [DecidableEq ι]

namespace State

abbrev Result (ι V W A R : Type) := State ι V W × List (Event ι V A R)

def callable_ (s : State ι V W) (o : ι) : Option (Place ι) := (s.objects o).join

def isSbo (s : State ι V W) (o : ι) : Bool := s.callable_ o = some (.buffer o)

def setCallable (s : State ι V W) (o : ι) (c : Option (Place ι)) : State ι V W :=
  { s with objects := Function.update s.objects o (some c) }

def setModel (s : State ι V W) (p : Place ι) (v : Option V) : State ι V W :=
  { s with models := Function.update s.models p v }

def clear (s : State ι V W) (o : ι) : Except Fault (Result ι V W A R) :=
  match s.callable_ o with
  | none => pure (s, [])
  | some p =>
    match s.models p with
    | none => throw .dead
    | some _ =>
      pure ((s.setModel p none).setCallable o none,
        [if s.isSbo o then .destroyed p else .deleted p])

/-- `callable_ = new (p) CallableModel(v)` -/
def install (s : State ι V W) (o : ι) (p : Place ι) (v : V) : Except Fault (Result ι V W A R) :=
  match s.models p with
  | some _ => throw .occupied
  | none => pure ((s.setModel p (some v)).setCallable o (some p), [.built p])

/-- What copy construction and copy assignment share: `clone` into the buffer or onto the heap. -/
def cloneFrom (F : Callables V W A R) (s : State ι V W) (o other : ι) (fresh : ℕ) :
    Except Fault (Result ι V W A R) :=
  match s.callable_ other with
  | none => pure (s, [])
  | some p =>
    match s.models p with
    | none => throw .dead
    | some v => s.install o (if s.isSbo other then .buffer o else .heap fresh) (F.copy v)

/-- What move construction and move assignment share: `move_clone` into the buffer, or the pointer
is handed over. -/
def moveFrom (F : Callables V W A R) (s : State ι V W) (o other : ι) :
    Except Fault (Result ι V W A R) :=
  match s.callable_ other with
  | none => pure (s, [])
  | some p =>
    if s.isSbo other then
      match s.models p with
      | none => throw .dead
      | some v => do
        let (s₁, built) ← s.install o (.buffer o) (F.move v).1
        let (s₂, cleared) ← (s₁.setModel p (some (F.move v).2)).clear other
        pure (s₂, built ++ cleared)
    else pure ((s.setCallable o (some p)).setCallable other none, [])

def copyAssign (F : Callables V W A R) (s : State ι V W) (o other : ι) (fresh : ℕ) :
    Except Fault (Result ι V W A R) := do
  if o = other then pure (s, [])
  else
    let (s₁, cleared) ← s.clear o
    let (s₂, cloned) ← s₁.cloneFrom F o other fresh
    pure (s₂, cleared ++ cloned)

def moveAssign (F : Callables V W A R) (s : State ι V W) (o other : ι) :
    Except Fault (Result ι V W A R) := do
  if o = other then pure (s, [])
  else
    let (s₁, cleared) ← s.clear o
    let (s₂, moved) ← s₁.moveFrom F o other
    pure (s₂, cleared ++ moved)

def call (F : Callables V W A R) (s : State ι V W) (o : ι) (arg : A) :
    Except Fault (Result ι V W A R) :=
  match s.callable_ o with
  | none => pure (s, [.called o arg none])
  | some p =>
    match s.models p with
    | none => throw .dead
    | some v =>
      let (world, v', result) := F.invoke s.world v arg
      pure ({ s.setModel p (some v') with world }, [.called o arg (some (v', result))])

def destruct (s : State ι V W) (o : ι) : Except Fault (Result ι V W A R) := do
  let (s₁, cleared) ← s.clear o
  pure ({ s₁ with objects := Function.update s₁.objects o none }, cleared)

/-- The block is not in use, apart from being given back by the target itself. -/
def Fresh (s : State ι V W) (o : ι) (fresh : ℕ) : Prop :=
  (s.models (.heap fresh)).isNone = true ∨ s.callable_ o = some (.heap fresh)

instance (s : State ι V W) (o : ι) (fresh : ℕ) : Decidable (s.Fresh o fresh) :=
  inferInstanceAs (Decidable (_ ∨ _))

def finish (s : State ι V W) (result : Except Fault (Result ι V W A R)) : Result ι V W A R :=
  match result with
  | .ok r => r
  | .error f => ({ s with ended := true }, [.fault f])

end State

/-- Constructors start from `callable_ = nullptr` in an object that does not exist yet. -/
def step (F : Callables V W A R) (s : State ι V W) (act : Act ι V A) :
    Option (State ι V W × List (Event ι V A R)) :=
  if s.ended then none
  else
    match act with
    | .construct o v model fresh =>
      if s.objects o = none ∧ s.Fresh o fresh then
        some <| s.finish <| (s.setCallable o none).install o
          (if fitsInSbo model then .buffer o else .heap fresh) v
      else none
    | .constructEmpty o => if s.objects o = none then some (s.setCallable o none, []) else none
    | .copyConstruct o other fresh =>
      if s.objects o = none ∧ s.objects other ≠ none ∧ s.Fresh o fresh then
        some <| s.finish <| (s.setCallable o none).cloneFrom F o other fresh
      else none
    | .moveConstruct o other =>
      if s.objects o = none ∧ s.objects other ≠ none then
        some <| s.finish <| (s.setCallable o none).moveFrom F o other
      else none
    | .copyAssign o other fresh =>
      if s.objects o ≠ none ∧ s.objects other ≠ none ∧ s.Fresh o fresh then
        some <| s.finish <| s.copyAssign F o other fresh
      else none
    | .moveAssign o other =>
      if s.objects o ≠ none ∧ s.objects other ≠ none then
        some <| s.finish <| s.moveAssign F o other
      else none
    | .assignNull o => if s.objects o ≠ none then some <| s.finish <| s.clear o else none
    | .operatorBool o =>
      if s.objects o ≠ none then some (s, [.tested o (s.callable_ o).isSome]) else none
    | .call o arg => if s.objects o ≠ none then some <| s.finish <| s.call F o arg else none
    | .destruct o => if s.objects o ≠ none then some <| s.finish <| s.destruct o else none

def system (ι : Type) [DecidableEq ι] (F : Callables V W A R) (world : W) :
    System (State ι V W) (Act ι V A) (Event ι V A R) where
  init := ⟨fun _ => none, fun _ => none, world, false⟩
  step := step F

end MyFunction
