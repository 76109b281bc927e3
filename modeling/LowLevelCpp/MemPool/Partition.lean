import LowLevelCpp.Foundations.Path
import LowLevelCpp.MemPool.Model
import Mathlib.Data.List.Perm.Basic

/-! The free chunks and the allocated chunks are all the chunks, each once. The free list lies in
bytes that no client may write, since the chunks do not overlap. -/
namespace MemPool
open Foundations Foundations.System

/-- A pointer read as a link. -/
def ptr (v : BitVec 64) : Option (BitVec 64) := if v = 0 then none else some v

/-- The link that is stored in a chunk. -/
def Heap.link (h : Heap) (p : BitVec 64) : Option (BitVec 64) := ptr (h.bytes.loadWord p.toNat)

namespace Placement
variable (r : Placement)

/-- `memory_ + i * chunkSize_` -/
def chunk (i : ℕ) : BitVec 64 := r.base + BitVec.ofNat 64 i * chunkSize r.ObjectSize

def chunks : List (BitVec 64) := (List.range r.Amount.toNat).map r.chunk

end Placement

section Chunks
variable {r : Placement} {i j : ℕ} {p q : BitVec 64}

theorem eight_le_chunkSize (ObjectSize : BitVec 64) : 8 ≤ (chunkSize ObjectSize).toNat := by
  unfold chunkSize
  split
  · decide
  · rename_i h
    exact BitVec.le_def.mp (BitVec.not_lt.mp h)

/-- The chunks are consecutive parts of the block. -/
theorem chunk_toNat (hi : i < r.Amount.toNat) :
    (r.chunk i).toNat = r.base.toNat + i * (chunkSize r.ObjectSize).toNat ∧
      r.base.toNat + i * (chunkSize r.ObjectSize).toNat + (chunkSize r.ObjectSize).toNat ≤
        r.base.toNat + (chunkSize r.ObjectSize).toNat * r.Amount.toNat := by
  have hinside := r.inside
  have hfits := r.fits
  have hsize := eight_le_chunkSize r.ObjectSize
  have hlast : (i + 1) * (chunkSize r.ObjectSize).toNat ≤
      (chunkSize r.ObjectSize).toNat * r.Amount.toNat := by
    rw [Nat.mul_comm]
    exact Nat.mul_le_mul_left _ hi
  rw [Nat.add_mul, Nat.one_mul] at hlast
  have hlt : i < 2 ^ 64 := Nat.lt_trans hi r.Amount.isLt
  constructor
  · rw [Placement.chunk, BitVec.toNat_add, BitVec.toNat_mul, BitVec.toNat_ofNat,
      Nat.mod_eq_of_lt hlt, Nat.mod_eq_of_lt (by omega), Nat.mod_eq_of_lt (by omega)]
  · omega

theorem chunk_zero : r.chunk 0 = r.base := by
  simp [Placement.chunk]

theorem chunk_succ : r.chunk (i + 1) = r.chunk i + chunkSize r.ObjectSize := by
  rw [Placement.chunk, Placement.chunk, BitVec.ofNat_add, BitVec.add_mul, BitVec.one_mul,
    BitVec.add_assoc]

theorem mem_chunks : p ∈ r.chunks ↔ ∃ i < r.Amount.toNat, r.chunk i = p := by
  simp [Placement.chunks]

/-- Different chunks do not overlap. -/
theorem chunks_disjoint (hp : p ∈ r.chunks) (hq : q ∈ r.chunks) (hne : p ≠ q) :
    p.toNat + (chunkSize r.ObjectSize).toNat ≤ q.toNat ∨
      q.toNat + (chunkSize r.ObjectSize).toNat ≤ p.toNat := by
  obtain ⟨i, hi, rfl⟩ := mem_chunks.mp hp
  obtain ⟨j, hj, rfl⟩ := mem_chunks.mp hq
  rw [(chunk_toNat hi).1, (chunk_toNat hj).1]
  have hsep {i j : ℕ} (h : i < j) : i * (chunkSize r.ObjectSize).toNat +
      (chunkSize r.ObjectSize).toNat ≤ j * (chunkSize r.ObjectSize).toNat := by
    rw [← Nat.succ_mul]
    exact Nat.mul_le_mul_right _ h
  rcases Nat.lt_trichotomy i j with h | rfl | h
  · have hij := hsep h
    omega
  · exact absurd rfl hne
  · have hji := hsep h
    omega

theorem chunks_nodup (r : Placement) : r.chunks.Nodup := by
  apply List.Nodup.map_on _ List.nodup_range
  intro i hi j hj heq
  have hsize := eight_le_chunkSize r.ObjectSize
  have heq := congrArg BitVec.toNat heq
  rw [(chunk_toNat (List.mem_range.mp hi)).1, (chunk_toNat (List.mem_range.mp hj)).1] at heq
  exact Nat.eq_of_mul_eq_mul_right (by omega) (Nat.add_left_cancel heq)

theorem chunk_ne_zero (hp : p ∈ r.chunks) : p ≠ 0 := by
  obtain ⟨i, hi, rfl⟩ := mem_chunks.mp hp
  have hnonnull := r.nonnull
  intro heq
  have hzero : (r.chunk i).toNat = 0 := congrArg BitVec.toNat heq
  rw [(chunk_toNat hi).1] at hzero
  omega

end Chunks

/-- The heap is the block for the request. -/
structure Heap.At (h : Heap) (r : Placement) : Prop where
  base : h.base = r.base
  length : h.length.toNat = (chunkSize r.ObjectSize).toNat * r.Amount.toNat

section Accesses
variable {r : Placement} {h : Heap} {i n : ℕ} {p q v : BitVec 64} {xs : List (BitVec 64)}
  {head : Option (BitVec 64)}

theorem Heap.At.holds (hat : h.At r) (hp : p ∈ r.chunks) : h.Holds p := by
  obtain ⟨i, hi, rfl⟩ := mem_chunks.mp hp
  obtain ⟨haddr, hend⟩ := chunk_toNat hi
  have hsize := eight_le_chunkSize r.ObjectSize
  unfold Heap.Holds
  rw [hat.base, hat.length]
  omega

theorem load_chunk (hat : h.At r) (hp : p ∈ r.chunks) :
    h.load p = .ok (h.bytes.loadWord p.toNat) := by
  rw [Heap.load, if_pos (hat.holds hp)]
  rfl

theorem store_chunk (hat : h.At r) (hp : p ∈ r.chunks) :
    h.store p v = .ok { h with bytes := h.bytes.storeWord p.toNat v } := by
  rw [Heap.store, if_pos (hat.holds hp)]
  rfl

theorem link_store (h : Heap) (p v : BitVec 64) :
    ({ h with bytes := h.bytes.storeWord p.toNat v } : Heap).link p = ptr v := by
  rw [Heap.link, Bytes.loadWord_storeWord]

/-- What happens to bytes of other chunks leaves the links of a path alone. -/
theorem Path.of_bytes {h' : Heap} (hpath : Path h.link head xs none)
    (hkept : ∀ q ∈ xs, ∀ b, q.toNat ≤ b → b < q.toNat + 8 → h'.bytes b = h.bytes b) :
    Path h'.link head xs none := by
  apply hpath.congr
  intro q hq
  rw [Heap.link, Bytes.loadWord_congr (hkept q hq), Heap.link]

/-- A store to one chunk leaves the bytes of the others alone. -/
theorem bytes_store (hp : p ∈ r.chunks) (hq : q ∈ r.chunks) (hne : q ≠ p) {b : ℕ}
    (hlo : q.toNat ≤ b) (hhi : b < q.toNat + (chunkSize r.ObjectSize).toNat) :
    (h.bytes.storeWord p.toNat v) b = h.bytes b := by
  have hsize := eight_le_chunkSize r.ObjectSize
  apply Bytes.storeWord_outside
  have hdisjoint := chunks_disjoint hp hq hne.symm
  omega

/-- The loop, from the chunk that it has reached, and the store behind it build the list of the
chunks from there on. -/
theorem linkChunks_path (hat : h.At r) (hi : i + n + 1 = r.Amount.toNat) :
    ∃ h' h'' last, h.linkChunks (chunkSize r.ObjectSize) n (r.chunk i) = .ok (h', last) ∧
      h'.store last 0 = .ok h'' ∧ h''.At r ∧
      Path h''.link (some (r.chunk i)) ((List.range' i (n + 1)).map r.chunk) none ∧
      ∀ b < (r.chunk i).toNat, h''.bytes b = h.bytes b := by
  induction n generalizing h i with
  | zero =>
    have hmem : r.chunk i ∈ r.chunks := mem_chunks.mpr ⟨i, by omega, rfl⟩
    refine ⟨h, _, r.chunk i, rfl, store_chunk hat hmem, ⟨hat.base, hat.length⟩,
      ⟨rfl, link_store h _ 0⟩, fun b hb => Bytes.storeWord_outside (.inl hb)⟩
  | succ n ih =>
    have hmem : r.chunk i ∈ r.chunks := mem_chunks.mpr ⟨i, by omega, rfl⟩
    have hat₁ : Heap.At
        { h with bytes := h.bytes.storeWord (r.chunk i).toNat (r.chunk (i + 1)) } r :=
      ⟨hat.base, hat.length⟩
    obtain ⟨h', h'', last, hloop, hlast, hat', hpath, hkept⟩ :=
      ih (i := i + 1) hat₁ (by omega)
    have hnext : r.chunk (i + 1) ∈ r.chunks := mem_chunks.mpr ⟨i + 1, by omega, rfl⟩
    have haddr := chunk_toNat (r := r) (i := i) (by omega)
    have haddr' := chunk_toNat (r := r) (i := i + 1) (by omega)
    have hsize := eight_le_chunkSize r.ObjectSize
    rw [Nat.add_mul, Nat.one_mul] at haddr'
    refine ⟨h', h'', last, ?_, hlast, hat', ?_, fun b hb => ?_⟩
    · simp only [Heap.linkChunks, ← chunk_succ, store_chunk hat hmem]
      exact hloop
    · rw [List.range'_succ, List.map_cons]
      refine ⟨rfl, ?_⟩
      have hlink : h''.link (r.chunk i) = some (r.chunk (i + 1)) := by
        rw [Heap.link, Bytes.loadWord_congr fun b hlo hhi => hkept b (by omega),
          Bytes.loadWord_storeWord, ptr, if_neg (chunk_ne_zero hnext)]
      rw [hlink]
      exact hpath
    · rw [hkept b (by omega)]
      exact Bytes.storeWord_outside (.inl hb)

end Accesses

/-- The invariant: the list from the head and what the client holds make up the chunks. -/
structure Partition (r : Placement) (s : State) : Prop where
  sound : s.fault = none
  chunked : s.pool.chunkSize_ = chunkSize r.ObjectSize
  block : s.heap.At r
  free : ∃ free, Path s.heap.link (ptr s.pool.freeListHead_) free none ∧
    (free ++ s.allocated).Perm r.chunks

section Operations
variable {r : Placement} {s s' : State} {p : BitVec 64} {evs : List Event} {act : Act}
  {bytes : Bytes} {log : List Event}

theorem Partition.mem_chunks (h : Partition r s) (hp : p ∈ s.allocated) : p ∈ r.chunks := by
  obtain ⟨free, -, hperm⟩ := h.free
  exact hperm.subset (List.mem_append_right _ hp)

theorem partition_construct (r : Placement) (bytes : Bytes) :
    Partition r (system r bytes).init := by
  have hamount := r.amount_pos
  have hat : Heap.At ⟨r.base, chunkSize r.ObjectSize * r.Amount, bytes⟩ r :=
    ⟨rfl, by rw [BitVec.toNat_mul, Nat.mod_eq_of_lt r.fits]⟩
  have hcount : (r.Amount - 1).toNat = r.Amount.toNat - 1 := by bv_omega
  obtain ⟨h', h'', last, hloop, hlast, hat', hpath, -⟩ :=
    linkChunks_path (i := 0) (n := r.Amount.toNat - 1) hat (by omega)
  have hconstruct : MemoryManager.construct r.ObjectSize r.Amount r.base bytes =
      .ok (⟨r.base, r.base, chunkSize r.ObjectSize⟩, h'') := by
    rw [chunk_zero] at hloop
    simp only [MemoryManager.construct, hcount, hloop, bind, Except.bind, hlast]
    rfl
  have hhead : ptr r.base = some r.base := if_neg (by
    rw [← chunk_zero]
    exact chunk_ne_zero (MemPool.mem_chunks.mpr ⟨0, hamount, rfl⟩))
  rw [system, hconstruct]
  refine ⟨rfl, rfl, hat', r.chunks, ?_, by simp⟩
  rw [Nat.sub_add_cancel hamount, ← List.range_eq_range', chunk_zero] at hpath
  rw [hhead]
  exact hpath

/-- `Allocate` hands out the head of the list, or null if every chunk is allocated. -/
theorem Partition.allocate (h : Partition r s) :
    ∃ p pool, s.pool.Allocate s.heap = .ok (p, pool) ∧
      (p = 0 ∧ pool = s.pool ∧ s.allocated.Perm r.chunks ∨
        p ≠ 0 ∧ p ∈ r.chunks ∧ p ∉ s.allocated ∧
          Partition r { s with pool, allocated := p :: s.allocated }) := by
  obtain ⟨hsound, hchunked, hblock, free, hpath, hperm⟩ := h
  by_cases hnull : s.pool.freeListHead_ = 0
  · rw [hnull] at hpath
    have hnil : free = [] := hpath.unique (path_nil.mpr rfl)
    refine ⟨0, s.pool, if_pos hnull, .inl ⟨rfl, rfl, ?_⟩⟩
    rwa [hnil, List.nil_append] at hperm
  · rw [ptr, if_neg hnull] at hpath
    cases free with
    | nil => cases hpath
    | cons p rest =>
      obtain ⟨hhead, hrest⟩ := hpath
      obtain rfl := Option.some.inj hhead
      have hmem : s.pool.freeListHead_ ∈ r.chunks := hperm.subset (by simp)
      have hnodup : (s.pool.freeListHead_ :: rest ++ s.allocated).Nodup :=
        hperm.nodup_iff.mpr (chunks_nodup r)
      have hnotin : s.pool.freeListHead_ ∉ s.allocated := by
        intro hin
        exact (List.nodup_append.mp hnodup).2.2 _ (by simp) _ hin rfl
      refine ⟨_, { s.pool with freeListHead_ := s.heap.bytes.loadWord s.pool.freeListHead_.toNat },
        ?_, .inr ⟨hnull, hmem, hnotin, hsound, hchunked, hblock, rest, hrest, ?_⟩⟩
      · rw [MemoryManager.Allocate, if_neg hnull]
        simp only [load_chunk hblock hmem]
        rfl
      · exact List.perm_middle.trans hperm

/-- `Deallocate` puts the chunk in front of the list and writes to no other chunk. -/
theorem Partition.deallocate (h : Partition r s) (hp : p ∈ s.allocated) :
    ∃ pool heap, s.pool.Deallocate s.heap p = .ok (pool, heap) ∧
      Partition r { s with pool, heap, allocated := s.allocated.erase p } ∧
      ∀ q ∈ r.chunks, q ≠ p → ∀ b, q.toNat ≤ b →
        b < q.toNat + (chunkSize r.ObjectSize).toNat → heap.bytes b = s.heap.bytes b := by
  have hmem := h.mem_chunks hp
  have hsize := eight_le_chunkSize r.ObjectSize
  obtain ⟨hsound, hchunked, hblock, free, hpath, hperm⟩ := h
  have hnodup : (free ++ s.allocated).Nodup := hperm.nodup_iff.mpr (chunks_nodup r)
  have hother : ∀ q ∈ r.chunks, q ≠ p → ∀ b, q.toNat ≤ b →
      b < q.toNat + (chunkSize r.ObjectSize).toNat →
      (s.heap.bytes.storeWord p.toNat s.pool.freeListHead_) b = s.heap.bytes b :=
    fun q hq hne b hlo hhi => bytes_store (h := s.heap) hmem hq hne hlo hhi
  refine ⟨{ s.pool with freeListHead_ := p },
    { s.heap with bytes := s.heap.bytes.storeWord p.toNat s.pool.freeListHead_ }, ?_,
    ⟨hsound, hchunked, ⟨hblock.base, hblock.length⟩, p :: free, ⟨?_, ?_⟩, ?_⟩, hother⟩
  · rw [MemoryManager.Deallocate, if_neg (chunk_ne_zero hmem)]
    simp only [store_chunk hblock hmem]
    rfl
  · exact if_neg (chunk_ne_zero hmem)
  · rw [link_store]
    apply Path.of_bytes hpath
    intro q hq b hlo hhi
    have hne : q ≠ p := (List.nodup_append.mp hnodup).2.2 q hq p hp
    exact hother q (hperm.subset (List.mem_append_left _ hq)) hne b hlo (by omega)
  · have hback : (p :: free ++ s.allocated.erase p).Perm (free ++ p :: s.allocated.erase p) :=
      List.perm_middle.symm
    exact hback.trans (((List.perm_cons_erase hp).symm.append_left free).trans hperm)

/-- What a client writes to its chunk is not on the list. -/
theorem Partition.write (h : Partition r s) (hp : p ∈ s.allocated) {offset : ℕ}
    (hoffset : offset < s.pool.chunkSize_.toNat) (byte : BitVec 8) :
    Partition r
      { s with heap.bytes := Function.update s.heap.bytes (p.toNat + offset) byte } := by
  have hmem := h.mem_chunks hp
  have hsize := eight_le_chunkSize r.ObjectSize
  obtain ⟨hsound, hchunked, hblock, free, hpath, hperm⟩ := h
  have hnodup : (free ++ s.allocated).Nodup := hperm.nodup_iff.mpr (chunks_nodup r)
  rw [hchunked] at hoffset
  refine ⟨hsound, hchunked, ⟨hblock.base, hblock.length⟩, free, Path.of_bytes hpath ?_, hperm⟩
  intro q hq b hlo hhi
  apply Function.update_of_ne
  have hne : q ≠ p := (List.nodup_append.mp hnodup).2.2 q hq p hp
  have hdisjoint := chunks_disjoint (hperm.subset (List.mem_append_left _ hq)) hmem hne
  omega

theorem Partition.step (h : Partition r s) (hs : step s act = some (s', evs)) :
    Partition r s' := by
  unfold MemPool.step at hs
  rw [if_neg (by simp [h.sound])] at hs
  cases act with
  | allocate =>
    obtain ⟨p, pool, hallocate, hcases⟩ := h.allocate
    simp only [State.call, hallocate] at hs
    cases hs
    rcases hcases with ⟨hnull, rfl, -⟩ | ⟨hne, -, -, hpartition⟩
    · rw [if_pos hnull]
      exact h
    · rw [if_neg hne]
      exact hpartition
  | deallocate p =>
    simp only at hs
    split at hs
    · rename_i hp
      rcases hp with rfl | hp
      · have hzero : (0 : BitVec 64) ∉ s.allocated := fun hin =>
          chunk_ne_zero (h.mem_chunks hin) rfl
        cases hs
        rw [List.erase_of_not_mem hzero]
        exact h
      · obtain ⟨pool, heap, hdeallocate, hpartition, -⟩ := h.deallocate hp
        simp only [State.call, hdeallocate] at hs
        cases hs
        exact hpartition
    · cases hs
  | write p offset byte =>
    simp only at hs
    split at hs
    · rename_i hp
      cases hs
      exact h.write hp.1 hp.2 byte
    · cases hs

theorem partition_of_run (hrun : (system r bytes).Run s log) : Partition r s :=
  hrun.invariant (I := fun s _ => Partition r s) (partition_construct r bytes)
    fun _ _ _ _ _ _ h _ hs => h.step hs

/-- The free list and the allocated chunks partition the chunks. The list that is read through
the links in the chunks ends; `Allocate` touches no byte, never returns an allocated chunk, and
returns null exactly when all are allocated; `Deallocate` takes any allocated chunk and writes to
no other, and does nothing with null. -/
theorem pool_partition (hrun : (system r bytes).Run s log) :
    s.fault = none ∧ r.chunks.Nodup ∧
      (∃ free, Path s.heap.link (ptr s.pool.freeListHead_) free none ∧ free.Nodup ∧
        (free ++ s.allocated).Perm r.chunks) ∧
      (∃ p s', (system r bytes).step s .allocate = some (s', [.allocated p]) ∧
        s'.heap = s.heap ∧ (p = 0 ↔ s.allocated.Perm r.chunks) ∧
        (p ≠ 0 → p ∈ r.chunks ∧ p ∉ s.allocated)) ∧
      (∀ p ∈ s.allocated, ∃ s',
        (system r bytes).step s (.deallocate p) = some (s', [.deallocated p]) ∧
        ∀ q ∈ s.allocated, q ≠ p → ∀ b, q.toNat ≤ b →
          b < q.toNat + (chunkSize r.ObjectSize).toNat → s'.heap.bytes b = s.heap.bytes b) ∧
      (system r bytes).step s (.deallocate 0) = some (s, [.deallocated 0]) := by
  have h := partition_of_run hrun
  have hrunning : ¬ s.fault.isSome = true := by simp [h.sound]
  refine ⟨h.sound, chunks_nodup r, ?_, ?_, fun p hp => ?_, ?_⟩
  · obtain ⟨free, hpath, hperm⟩ := h.free
    exact ⟨free, hpath, hpath.nodup, hperm⟩
  · obtain ⟨p, pool, hallocate, hcases⟩ := h.allocate
    refine ⟨p, { s with pool, allocated := if p = 0 then s.allocated else p :: s.allocated }, ?_,
      rfl, ?_, ?_⟩
    · simp only [system, MemPool.step, if_neg hrunning, State.call, hallocate]
    · rcases hcases with ⟨hnull, -, hall⟩ | ⟨hne, hmem, hnotin, -⟩
      · exact iff_of_true hnull hall
      · exact iff_of_false hne fun hall => hnotin (hall.symm.subset hmem)
    · intro hne
      rcases hcases with ⟨hnull, -, -⟩ | ⟨-, hmem, hnotin, -⟩
      · exact absurd hnull hne
      · exact ⟨hmem, hnotin⟩
  · obtain ⟨pool, heap, hdeallocate, -, hkept⟩ := h.deallocate hp
    refine ⟨{ s with pool, heap, allocated := s.allocated.erase p }, ?_, fun q hq =>
      hkept q (h.mem_chunks hq)⟩
    simp only [system, MemPool.step, if_neg hrunning, if_pos (Or.inr hp), State.call, hdeallocate]
  · have hzero : (0 : BitVec 64) ∉ s.allocated := fun hin => chunk_ne_zero (h.mem_chunks hin) rfl
    simp only [system, MemPool.step, if_neg hrunning, true_or, if_true, State.call,
      List.erase_of_not_mem hzero]
    rfl

end Operations

/-- Three chunks for objects of five bytes. -/
def small : Placement where
  ObjectSize := 5
  Amount := 3
  base := 4096
  amount_pos := by decide
  fits := by decide
  nonnull := by decide
  inside := by decide

/-- The client overwrites the link in its chunk before it gives the chunk back, and then takes all
the chunks. -/
def reuse : List Act :=
  [.allocate, .write 4096 0 255, .allocate, .deallocate 4096, .deallocate 0, .allocate, .allocate,
    .allocate]

theorem pool_partition_reuse :
    ∃ s log, (system small fun _ => 7).Run s log ∧ .allocated 0 ∈ log ∧
      s.allocated = [4112, 4096, 4104] ∧ s.fault = none := by
  obtain ⟨s, log, hrun, hq⟩ := (system small fun _ => 7).exists_run_of_exec (fun _ _ => True) reuse
    (fun s log => decide (.allocated 0 ∈ log ∧ s.allocated = [4112, 4096, 4104]))
    (by decide +kernel)
  obtain ⟨hnull, hall⟩ := of_decide_eq_true hq
  exact ⟨s, log, hrun, hnull, hall, (pool_partition hrun).1⟩

end MemPool
