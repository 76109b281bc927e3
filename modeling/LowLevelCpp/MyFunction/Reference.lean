import LowLevelCpp.MyFunction.Model

/-! The wrapper to compare with: its callable is always an object on the heap that it owns, so that
copying clones the callable and moving hands it over. -/
namespace MyFunction
open Foundations

/-- The callables that the wrappers own; `some none` is an empty wrapper. -/
structure Reference (ι V W : Type) where
  objects : ι → Option (Option V)
  world : W

namespace Reference
variable {ι V W A R : Type} [DecidableEq ι]

def set (t : Reference ι V W) (o : ι) (c : Option V) : Reference ι V W :=
  { t with objects := Function.update t.objects o (some c) }

def drop (t : Reference ι V W) (o : ι) : Reference ι V W :=
  { t with objects := Function.update t.objects o none }

@[simp] theorem set_objects (t : Reference ι V W) (o : ι) (c : Option V) :
    (t.set o c).objects = Function.update t.objects o (some c) := rfl

@[simp] theorem set_set (t : Reference ι V W) (o : ι) (c c' : Option V) :
    (t.set o c).set o c' = t.set o c' := by
  simp [set]

/-- A call, given the callable of the wrapper. -/
def call (F : Callables V W A R) (t : Reference ι V W) (o : ι) (arg : A) :
    Option V → Reference ι V W × List (Event ι V A R)
  | none => (t, [.called o arg none])
  | some v =>
    let (world, v', result) := F.invoke t.world v arg
    ({ t.set o (some v') with world }, [.called o arg (some (v', result))])

def step (F : Callables V W A R) (t : Reference ι V W) :
    Act ι V A → Option (Reference ι V W × List (Event ι V A R))
  | .construct o v _ _ =>
    match t.objects o with
    | none => some (t.set o (some v), [])
    | some _ => none
  | .constructEmpty o =>
    match t.objects o with
    | none => some (t.set o none, [])
    | some _ => none
  | .copyConstruct o other _ =>
    match t.objects o, t.objects other with
    | none, some c => some (t.set o (c.map F.copy), [])
    | _, _ => none
  | .moveConstruct o other =>
    match t.objects o, t.objects other with
    | none, some c => some ((t.set o c).set other none, [])
    | _, _ => none
  | .copyAssign o other _ =>
    match t.objects o, t.objects other with
    | some _, some c => some (if o = other then t else t.set o (c.map F.copy), [])
    | _, _ => none
  | .moveAssign o other =>
    match t.objects o, t.objects other with
    | some _, some c => some (if o = other then t else (t.set o c).set other none, [])
    | _, _ => none
  | .assignNull o => (t.objects o).map fun _ => (t.set o none, [])
  | .operatorBool o => (t.objects o).map fun c => (t, [.tested o c.isSome])
  | .call o arg => (t.objects o).map fun c => t.call F o arg c
  | .destruct o => (t.objects o).map fun _ => (t.drop o, [])

def system (ι : Type) [DecidableEq ι] (F : Callables V W A R) (world : W) :
    System (Reference ι V W) (Act ι V A) (Event ι V A R) where
  init := ⟨fun _ => none, world⟩
  step := step F

end Reference
end MyFunction
