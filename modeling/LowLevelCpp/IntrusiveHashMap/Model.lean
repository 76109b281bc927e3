import LowLevelCpp.Foundations.System
import Mathlib.Algebra.Group.Nat.Defs
import Mathlib.Data.Nat.Notation
import Mathlib.Logic.Function.Basic

/-!
`Intrusive-Hash-Map`: a fixed-size table of chains through `HNode`s that are embedded in the
client's objects. Nodes are the elements of `ι`, a pointer to one is an `Option ι`.
-/
namespace IntrusiveHashMap
open Foundations

structure HNode (ι : Type) where
  next : Option ι := none
  hcode : BitVec 64 := 0

/-- What `HMap::map` points to. -/
inductive Slots (ι : Type) where
  | null
  | allocated (slots : Array (Option ι))
  | released

structure HMap (ι : Type) where
  map : Slots ι
  size : ℕ
  mask : BitVec 64

/-- An incoming pointer, `HNode **`: a slot, or the `next` of a node. -/
inductive Incoming (ι : Type) where
  | slot (pos : ℕ)
  | next (node : ι)

/-- Accesses that have no defined result, and a search that does not end. -/
inductive Fault where
  | nullSlots
  | releasedSlots
  | outOfBounds
  | nullNode
  | diverges
  deriving DecidableEq

def Slots.get {ι : Type} : Slots ι → Except Fault (Array (Option ι))
  | .null => throw .nullSlots
  | .allocated slots => pure slots
  | .released => throw .releasedSlots

/-- The `assert` of the constructor. -/
def asserts (n : BitVec 64) : Bool := 0 < n && ((n - 1) &&& n) == 0

/-- A table size that passes the `assert`. -/
structure TableSize where
  n : BitVec 64
  asserted : asserts n = true

/-- The sizes that pass are the powers of two. -/
theorem asserts_iff {n : BitVec 64} : asserts n = true ↔ ∃ k, n.toNat = 2 ^ k := by
  have hpow := Nat.ne_zero_and_sub_one_eq_zero_iff_isPowerOfTwo (n := n.toNat)
  have hpos : 0 < n ↔ n.toNat ≠ 0 := by bv_omega
  rw [Nat.isPowerOfTwo] at hpow
  rw [← hpow, asserts, Bool.and_eq_true, decide_eq_true_eq, hpos, beq_iff_eq]
  apply and_congr_right
  intro hne
  have hsub : (n - 1).toNat = n.toNat - 1 := by bv_omega
  rw [← BitVec.toNat_inj, BitVec.toNat_and, hsub, Nat.and_comm]
  rfl

/-- The table and the nodes of the client. -/
structure Heap (ι : Type) where
  nodes : ι → HNode ι
  hmap : HMap ι

namespace Heap
variable {ι : Type} [DecidableEq ι]

def setNext (h : Heap ι) (node : ι) (p : Option ι) : Heap ι :=
  { h with nodes := Function.update h.nodes node { h.nodes node with next := p } }

def setMap (h : Heap ι) (map : Slots ι) : Heap ι := { h with hmap := { h.hmap with map } }

def setSize (h : Heap ι) (size : ℕ) : Heap ι := { h with hmap := { h.hmap with size } }

/-- `*from` -/
def load (h : Heap ι) : Incoming ι → Except Fault (Option ι)
  | .slot pos => do
    let slots ← h.hmap.map.get
    match slots[pos]? with
    | some p => pure p
    | none => throw .outOfBounds
  | .next node => pure (h.nodes node).next

/-- `*from = p` -/
def store (h : Heap ι) (p : Option ι) : Incoming ι → Except Fault (Heap ι)
  | .slot pos => do
    let slots ← h.hmap.map.get
    if pos < slots.size then pure (h.setMap (.allocated (slots.setIfInBounds pos p)))
    else throw .outOfBounds
  | .next node => pure (h.setNext node p)

/-- The slot of a node. -/
def pos (h : Heap ι) (node : ι) : ℕ := ((h.nodes node).hcode &&& h.hmap.mask).toNat

def insert_ (h : Heap ι) (node : ι) : Except Fault (Heap ι) := do
  let next ← h.load (.slot (h.pos node))
  let h' ← h.store next (.next node)
  let h' ← h'.store (some node) (.slot (h.pos node))
  pure (h'.setSize (h'.hmap.size + 1))

/-- What the search tests of a node. -/
def hits (h : Heap ι) (key : ι) (eq : ι → ι → Bool) (cur : ι) : Bool :=
  (h.nodes cur).hcode == (h.nodes key).hcode && eq cur key

/-- The loop of `lookup_`. -/
def search (h : Heap ι) (key : ι) (eq : ι → ι → Bool) :
    ℕ → Incoming ι → Except Fault (Option (Incoming ι))
  | 0, _ => throw .diverges
  | fuel + 1, incoming => do
    match ← h.load incoming with
    | none => pure none
    | some cur =>
      if h.hits key eq cur then pure (some incoming) else h.search key eq fuel (.next cur)

/-- No chain is longer than the number of nodes in the table. -/
def lookup_ (h : Heap ι) (key : ι) (eq : ι → ι → Bool) : Except Fault (Option (Incoming ι)) :=
  match h.hmap.map with
  | .null => pure none
  | _ => h.search key eq (h.hmap.size + 1) (.slot (h.pos key))

def detach_ (h : Heap ι) (incoming : Incoming ι) : Except Fault (ι × Heap ι) := do
  match ← h.load incoming with
  | none => throw .nullNode
  | some node =>
    let h' ← h.store (h.nodes node).next incoming
    pure (node, h'.setSize (h'.hmap.size - 1))

def lookup (h : Heap ι) (key : ι) (eq : ι → ι → Bool) : Except Fault (Option ι) := do
  match ← h.lookup_ key eq with
  | some incoming => h.load incoming
  | none => pure none

def insert (h : Heap ι) (node : ι) : Except Fault (Heap ι) := h.insert_ node

def remove (h : Heap ι) (key : ι) (eq : ι → ι → Bool) : Except Fault (Option ι × Heap ι) := do
  match ← h.lookup_ key eq with
  | some incoming =>
    let (node, h') ← h.detach_ incoming
    pure (some node, h')
  | none => pure (none, h)

/-- `free(hmap.map)`; releasing a null pointer does nothing. -/
def clear (h : Heap ι) : Except Fault (Heap ι) :=
  match h.hmap.map with
  | .null => pure h
  | .allocated _ => pure (h.setMap .released)
  | .released => throw .releasedSlots

def size (h : Heap ι) : ℕ := h.hmap.size

end Heap

/-- `calloc` zeroes the slots or fails. -/
def construct {ι : Type} (n : TableSize) (calloc : Bool) : HMap ι where
  map := if calloc then .allocated (Array.replicate n.n.toNat none) else .null
  size := 0
  mask := n.n - 1

inductive Event (ι : Type) where
  | inserted (node : ι)
  | found (key : ι) (result : Option ι)
  | removed (key : ι) (result : Option ι)
  | size (value : ℕ)
  | cleared
  | destroyed
  | fault (f : Fault)
  deriving DecidableEq

/-- The calls of the client; `write` is its own store to a node that is not in the table. -/
inductive Act (ι : Type) where
  | write (node : ι) (value : HNode ι)
  | insert (node : ι)
  | lookup (key : ι) (eq : ι → ι → Bool)
  | remove (key : ι) (eq : ι → ι → Bool)
  | size
  | clear
  | destroy

/-- `present` are the nodes that the client has inserted and not got back from `remove`, the last
one first; `ended` says that the map is destroyed or an access had no defined result. -/
structure State (ι : Type) where
  heap : Heap ι
  present : List ι
  ended : Bool

variable {ι : Type} [DecidableEq ι]

/-- The client gets back the node that `remove` returned. -/
def takeBack (present : List ι) : Option ι → List ι
  | some node => present.erase node
  | none => present

/-- What the client observes of a call. -/
def State.call {α : Type} (s : State ι) (result : Except Fault α)
    (next : α → State ι × List (Event ι)) : State ι × List (Event ι) :=
  match result with
  | .ok a => next a
  | .error f => ({ s with ended := true }, [.fault f])

def step (s : State ι) (act : Act ι) : Option (State ι × List (Event ι)) :=
  if s.ended then none
  else
    match act with
    | .write node value =>
      if node ∈ s.present then none
      else some ({ s with heap.nodes := Function.update s.heap.nodes node value }, [])
    | .insert node =>
      if node ∈ s.present then none
      else some <| s.call (s.heap.insert node) fun heap =>
        ({ s with heap, present := node :: s.present }, [.inserted node])
    | .lookup key eq => some <| s.call (s.heap.lookup key eq) fun result =>
        (s, [.found key result])
    | .remove key eq => some <| s.call (s.heap.remove key eq) fun (result, heap) =>
        ({ s with heap, present := takeBack s.present result }, [.removed key result])
    | .size => some (s, [.size s.heap.size])
    | .clear => some <| s.call s.heap.clear fun heap => ({ s with heap, present := [] }, [.cleared])
    | .destroy => some <| s.call s.heap.clear fun heap =>
        ({ s with heap, ended := true }, [.destroyed])

/-- `HashMap(n)` -/
def system (ι : Type) [DecidableEq ι] (n : TableSize) (calloc : Bool) :
    System (State ι) (Act ι) (Event ι) where
  init := ⟨⟨fun _ => {}, construct n calloc⟩, [], false⟩
  step := step

end IntrusiveHashMap
