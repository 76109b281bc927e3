import LowLevelCpp.Foundations.System
import Mathlib.Data.Finset.Card

/-!
`mark-n-sweep/Mark & sweep/garbage_collector.h`. Pointers are `Option Addr` with `none` for
`nullptr`; the heap knows which addresses are live, so that using a null or a dangling
pointer is a fault. An object's name is only ever printed: reading it is a use of the
pointer, and a printed line carries the object in place of its name.
-/
namespace MarkSweep
open Foundations

structure GCObject (Addr : Type) where
  marked : Bool
  references : List (Option Addr)

structure Heap (Addr : Type) where
  live : Finset Addr
  obj : Addr → GCObject Addr

/-- `depth` is no fault of the program: it says that the recursion of `mark` was cut off
at the depth given to it. -/
inductive Fault (Addr : Type) where
  | null
  | dangling (a : Addr)
  | depth
  deriving DecidableEq

/-- The lines printed, by the objects whose names they show. `destroying` is printed by
the destructor. -/
inductive Line (Addr : Type) where
  | created (obj : Addr)
  | tracking (obj : Addr)
  | addedRoot (obj : Addr)
  | alreadyMarked (obj : Addr)
  | marking (obj : Addr)
  | reference (obj ref : Addr)
  | unreachable (obj : Addr)
  | destroying (obj : Addr)
  | keeping (obj : Addr)
  | root (obj : Addr)
  | object (obj : Addr) (marked : Bool) (refs : List Addr)
  deriving DecidableEq

/-- The program state: the heap and the fields of the `GarbageCollector`. -/
structure State (Addr : Type) where
  heap : Heap Addr
  objects : Finset Addr
  roots : List (Option Addr)

variable {Addr : Type} [DecidableEq Addr]

/-- The result of a piece of the program that returns a `σ` and prints. -/
abbrev Printing (Addr σ : Type) := σ × List (Line Addr)

abbrev Checked (Addr : Type) := Except (Fault Addr)

namespace Heap

/-- The object a pointer points at, for reading one of its fields. -/
def deref (h : Heap Addr) : Option Addr → Checked Addr Addr
  | none => .error .null
  | some a => if a ∈ h.live then .ok a else .error (.dangling a)

def setMarked (h : Heap Addr) (a : Addr) (marked : Bool) : Heap Addr :=
  { h with obj := Function.update h.obj a { h.obj a with marked } }

def setReferences (h : Heap Addr) (a : Addr) (references : List (Option Addr)) : Heap Addr :=
  { h with obj := Function.update h.obj a { h.obj a with references } }

/-- `new Node(name)`: a fresh object is unmarked and has no references. -/
def create (h : Heap Addr) (a : Addr) : Heap Addr :=
  { live := insert a h.live, obj := Function.update h.obj a ⟨false, []⟩ }

def delete (h : Heap Addr) (a : Addr) : Heap Addr := { h with live := h.live.erase a }

end Heap

/-- The loop of `mark` over `obj->references`: the name of each is printed before the
recursive call tests it for null. -/
def traceReferences (visit : Heap Addr → Option Addr → Checked Addr (Printing Addr (Heap Addr)))
    (obj : Addr) : Heap Addr → List (Option Addr) → Checked Addr (Printing Addr (Heap Addr))
  | h, [] => .ok (h, [])
  | h, ref :: refs => do
    let target ← h.deref ref
    let (h, out) ← visit h ref
    let (h, rest) ← traceReferences visit obj h refs
    return (h, .reference obj target :: out ++ rest)

/-- `GarbageCollector::mark`, down to a given recursion depth. -/
def mark : ℕ → Heap Addr → Option Addr → Checked Addr (Printing Addr (Heap Addr))
  | _, h, none => .ok (h, [])
  | 0, _, some _ => .error .depth
  | depth + 1, h, some p => do
    let obj ← h.deref (some p)
    if (h.obj obj).marked then
      return (h, [.alreadyMarked obj])
    else
      let (h, out) ←
        traceReferences (mark depth) obj (h.setMarked obj true) (h.obj obj).references
      return (h, .marking obj :: out)

/-- `GarbageCollector::markAll` -/
def markAll (depth : ℕ) :
    Heap Addr → List (Option Addr) → Checked Addr (Printing Addr (Heap Addr))
  | h, [] => .ok (h, [])
  | h, root :: roots => do
    let (h, out) ← mark depth h root
    let (h, rest) ← markAll depth h roots
    return (h, out ++ rest)

/-- `GarbageCollector::sweep` over the tracked objects in the set's iteration order; the
objects that stay in the set are returned. -/
def sweep : Heap Addr → List Addr → Checked Addr (Printing Addr (Heap Addr × List Addr))
  | h, [] => .ok ((h, []), [])
  | h, it :: rest => do
    let obj ← h.deref (some it)
    if (h.obj obj).marked = false then
      let ((h, kept), out) ← sweep (h.delete obj) rest
      return ((h, kept), .unreachable obj :: .destroying obj :: out)
    else
      let ((h, kept), out) ← sweep (h.setMarked obj false) rest
      return ((h, obj :: kept), .keeping obj :: out)

/-- `GarbageCollector::printGraph`, which reads the name of every root, every tracked
object and every reference of one. -/
def printGraph (order : List Addr) (s : State Addr) : Checked Addr (List (Line Addr)) := do
  let roots ← s.roots.mapM s.heap.deref
  let objects ← order.mapM fun it => do
    let obj ← s.heap.deref (some it)
    let refs ← (s.heap.obj obj).references.mapM s.heap.deref
    return Line.object obj (s.heap.obj obj).marked refs
  return roots.map Line.root ++ objects

/-- The two phases of a collection. Marking never nests deeper than there are objects. -/
def markAndSweep (order : List Addr) (s : State Addr) :
    Checked Addr (Printing Addr (State Addr)) := do
  let (h, marking) ← markAll (s.heap.live.card + 1) s.heap s.roots
  let ((h, kept), sweeping) ← sweep h order
  return ({ s with heap := h, objects := kept.toFinset }, marking ++ sweeping)

/-- `GarbageCollector::collect`, with the iteration order of `objects`. -/
def collect (order : List Addr) (s : State Addr) : Checked Addr (Printing Addr (State Addr)) := do
  let before ← printGraph order s
  let (s', out) ← markAndSweep order s
  let after ← printGraph (order.filter (· ∈ s'.objects)) s'
  return (s', before ++ out ++ after)

/-- `GarbageCollector::track` -/
def track (obj : Option Addr) (s : State Addr) : Checked Addr (Printing Addr (State Addr)) := do
  let obj ← s.heap.deref obj
  return ({ s with objects := insert obj s.objects }, [.tracking obj])

/-- `GarbageCollector::addRoot` -/
def addRoot (obj : Option Addr) (s : State Addr) : Checked Addr (Printing Addr (State Addr)) := do
  let target ← s.heap.deref obj
  return ({ s with roots := s.roots ++ [obj] }, [.addedRoot target])

/-- The program around the collector creates objects and edits the public root list and
the reference lists; `collect` visits the set of objects in some order. -/
inductive Act (Addr : Type) where
  | create (a : Addr)
  | track (obj : Option Addr)
  | addRoot (obj : Option Addr)
  | setRoots (roots : List (Option Addr))
  | setReferences (obj : Option Addr) (references : List (Option Addr))
  | collect (order : List Addr)

def IterationOrder (s : State Addr) (order : List Addr) : Prop :=
  order.Nodup ∧ order.toFinset = s.objects

instance (s : State Addr) (order : List Addr) : Decidable (IterationOrder s order) :=
  inferInstanceAs (Decidable (_ ∧ _))

def step (s : State Addr) : Act Addr → Option (State Addr × List (Line Addr))
  | .create a =>
    if a ∈ s.heap.live then none else some ({ s with heap := s.heap.create a }, [.created a])
  | .track obj => (track obj s).toOption
  | .addRoot obj => (addRoot obj s).toOption
  | .setRoots roots => some ({ s with roots }, [])
  | .setReferences obj refs =>
    (s.heap.deref obj).toOption.map fun a => ({ s with heap := s.heap.setReferences a refs }, [])
  | .collect order => if IterationOrder s order then (collect order s).toOption else none

def initial : State Addr := ⟨⟨∅, fun _ => ⟨false, []⟩⟩, ∅, []⟩

def system (Addr : Type) [DecidableEq Addr] : System (State Addr) (Act Addr) (Line Addr) where
  init := initial
  step := step

end MarkSweep
