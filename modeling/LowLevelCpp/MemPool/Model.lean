import LowLevelCpp.Foundations.Bytes
import LowLevelCpp.Foundations.System
import Mathlib.Algebra.Group.Nat.Defs
import Mathlib.Logic.Function.Basic

/-!
`Memory-Pool-in-CPP/MemPool`: a pool of equal chunks whose free list is kept in the free chunks
themselves. Pointers are 64-bit words and the null pointer is `0`.
-/
namespace MemPool
open Foundations

/-- An access that is not inside the block that `new char[]` returned. -/
inductive Fault where
  | outOfBounds
  deriving DecidableEq

/-- The block that `new char[]` returned, and the memory. -/
structure Heap where
  base : BitVec 64
  length : BitVec 64
  bytes : Bytes

structure MemoryManager where
  freeListHead_ : BitVec 64
  memory_ : BitVec 64
  chunkSize_ : BitVec 64

namespace Heap

/-- A `void*` at this address lies inside the block. -/
def Holds (h : Heap) (p : BitVec 64) : Prop :=
  h.base.toNat ≤ p.toNat ∧ p.toNat + 8 ≤ h.base.toNat + h.length.toNat

instance (h : Heap) (p : BitVec 64) : Decidable (h.Holds p) := inferInstanceAs (Decidable (_ ∧ _))

/-- `*reinterpret_cast<void**>(p)` -/
def load (h : Heap) (p : BitVec 64) : Except Fault (BitVec 64) :=
  if h.Holds p then pure (h.bytes.loadWord p.toNat) else throw .outOfBounds

def store (h : Heap) (p v : BitVec 64) : Except Fault Heap :=
  if h.Holds p then pure { h with bytes := h.bytes.storeWord p.toNat v } else throw .outOfBounds

/-- The loop of the constructor, with the iterations that it still has to make. -/
def linkChunks (chunkSize_ : BitVec 64) :
    ℕ → Heap → BitVec 64 → Except Fault (Heap × BitVec 64)
  | 0, h, current => pure (h, current)
  | n + 1, h, current => do
    let next := current + chunkSize_
    let h' ← h.store current next
    linkChunks chunkSize_ n h' next

end Heap

/-- `std::max(ObjectSize, sizeof(void*))` -/
def chunkSize (ObjectSize : BitVec 64) : BitVec 64 := if ObjectSize < 8 then 8 else ObjectSize

namespace MemoryManager

/-- The constructor, given where `new char[chunkSize_ * Amount]` puts its block and what the memory
holds before. -/
def construct (ObjectSize Amount base : BitVec 64) (bytes : Bytes) :
    Except Fault (MemoryManager × Heap) := do
  let chunkSize_ := chunkSize ObjectSize
  let h : Heap := ⟨base, chunkSize_ * Amount, bytes⟩
  let (h', current) ← h.linkChunks chunkSize_ (Amount - 1).toNat base
  let h' ← h'.store current 0
  pure (⟨base, base, chunkSize_⟩, h')

def Allocate (pool : MemoryManager) (h : Heap) : Except Fault (BitVec 64 × MemoryManager) := do
  if pool.freeListHead_ = 0 then pure (0, pool)
  else
    let memoryChunk := pool.freeListHead_
    let next ← h.load memoryChunk
    pure (memoryChunk, { pool with freeListHead_ := next })

def Deallocate (pool : MemoryManager) (h : Heap) (memoryAddress : BitVec 64) :
    Except Fault (MemoryManager × Heap) := do
  if memoryAddress = 0 then pure (pool, h)
  else
    let h' ← h.store memoryAddress pool.freeListHead_
    pure ({ pool with freeListHead_ := memoryAddress }, h')

end MemoryManager

/-- A request whose size is a 64-bit number, and where `new char[]` has put the block for it. -/
structure Placement where
  ObjectSize : BitVec 64
  Amount : BitVec 64
  base : BitVec 64
  amount_pos : 0 < Amount.toNat
  fits : (chunkSize ObjectSize).toNat * Amount.toNat < 2 ^ 64
  nonnull : 0 < base.toNat
  inside : base.toNat + (chunkSize ObjectSize).toNat * Amount.toNat ≤ 2 ^ 64

/-- `allocated` are the chunks that the client has got and not given back, the last one first. -/
structure State where
  pool : MemoryManager
  heap : Heap
  allocated : List (BitVec 64)
  fault : Option Fault

inductive Event where
  | allocated (p : BitVec 64)
  | deallocated (p : BitVec 64)
  deriving DecidableEq

/-- The client gives back what it has got, or null, and writes to the bytes of its chunks. -/
inductive Act where
  | allocate
  | deallocate (p : BitVec 64)
  | write (p : BitVec 64) (offset : ℕ) (byte : BitVec 8)

def State.call {α : Type} (s : State) (result : Except Fault α) (next : α → State × List Event) :
    State × List Event :=
  match result with
  | .ok a => next a
  | .error f => ({ s with fault := some f }, [])

def step (s : State) (act : Act) : Option (State × List Event) :=
  if s.fault.isSome then none
  else
    match act with
    | .allocate => some <| s.call (s.pool.Allocate s.heap) fun (p, pool) =>
        ({ s with pool, allocated := if p = 0 then s.allocated else p :: s.allocated },
          [.allocated p])
    | .deallocate p =>
      if p = 0 ∨ p ∈ s.allocated then
        some <| s.call (s.pool.Deallocate s.heap p) fun (pool, heap) =>
          ({ s with pool, heap, allocated := s.allocated.erase p }, [.deallocated p])
      else none
    | .write p offset byte =>
      if p ∈ s.allocated ∧ offset < s.pool.chunkSize_.toNat then
        some ({ s with heap.bytes := Function.update s.heap.bytes (p.toNat + offset) byte }, [])
      else none

/-- `MemoryManager(ObjectSize, Amount)` over memory that is not initialised. -/
def system (r : Placement) (bytes : Bytes) : System State Act Event where
  init :=
    match MemoryManager.construct r.ObjectSize r.Amount r.base bytes with
    | .ok (pool, heap) => ⟨pool, heap, [], none⟩
    | .error f => ⟨⟨0, 0, 0⟩, ⟨r.base, 0, bytes⟩, [], some f⟩
  step := step

end MemPool
