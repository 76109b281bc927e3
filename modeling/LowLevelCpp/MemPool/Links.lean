import LowLevelCpp.Foundations.Regions
import LowLevelCpp.MemPool.Partition

/-! Where the pool stores its links: which addresses the constructor writes to for any two sizes,
whether they are inside the block, and whether they are aligned. -/
namespace MemPool
open Foundations Foundations.System

/-- The bytes of a `void*` at this address. -/
def pointerAt (p : BitVec 64) : Region := ⟨p.toNat, 8⟩

/-- The links that the loop of the constructor and the store behind it write, each with its
address. -/
def links (chunkSize_ : BitVec 64) : ℕ → BitVec 64 → List (BitVec 64 × BitVec 64)
  | 0, current => [(current, 0)]
  | n + 1, current =>
    (current, current + chunkSize_) :: links chunkSize_ n (current + chunkSize_)

/-- The links that the constructor writes. -/
def constructorLinks (ObjectSize Amount base : BitVec 64) : List (BitVec 64 × BitVec 64) :=
  links (chunkSize ObjectSize) (Amount - 1).toNat base

/-- What `new char[chunkSize_ * Amount]` has allocated. -/
def block (ObjectSize Amount base : BitVec 64) : Region :=
  ⟨base.toNat, (chunkSize ObjectSize * Amount).toNat⟩

def Heap.storeAll (h : Heap) (ls : List (BitVec 64 × BitVec 64)) : Except Fault Heap :=
  ls.foldlM (fun h l => h.store l.1 l.2) h

section Stores
variable {h h' : Heap} {p v chunkSize_ current ObjectSize Amount base : BitVec 64} {n : ℕ}
  {bytes : Bytes} {ls : List (BitVec 64 × BitVec 64)} {l : BitVec 64 × BitVec 64}

theorem linkChunks_links : (do
    let (h', last) ← h.linkChunks chunkSize_ n current
    h'.store last 0) = h.storeAll (links chunkSize_ n current) := by
  induction n generalizing h current with
  | zero => exact (bind_pure (h.store current 0)).symm
  | succ n ih =>
    simp only [Heap.linkChunks, links, Heap.storeAll, List.foldlM_cons, bind_assoc]
    exact bind_congr fun h' => ih

/-- The constructor stores these links, and nothing else. -/
theorem construct_links : MemoryManager.construct ObjectSize Amount base bytes = (do
    let h' ← Heap.storeAll ⟨base, chunkSize ObjectSize * Amount, bytes⟩
      (constructorLinks ObjectSize Amount base)
    pure (⟨base, base, chunkSize ObjectSize⟩, h')) := by
  rw [constructorLinks, ← linkChunks_links, bind_assoc]
  rfl

theorem store_keeps_block (hstore : h.store p v = .ok h') :
    h'.base = h.base ∧ h'.length = h.length := by
  unfold Heap.store at hstore
  split at hstore
  · cases hstore
    exact ⟨rfl, rfl⟩
  · cases hstore

theorem storeAll_ok_iff : (∃ h', h.storeAll ls = .ok h') ↔ ∀ l ∈ ls, h.Holds l.1 := by
  induction ls generalizing h with
  | nil => exact iff_of_true ⟨h, rfl⟩ (by simp)
  | cons l ls ih =>
    rw [List.forall_mem_cons, Heap.storeAll, List.foldlM_cons]
    cases hstore : h.store l.1 l.2 with
    | error f =>
      refine iff_of_false (fun ⟨h', hrest⟩ => by cases hrest) fun ⟨hholds, _⟩ => ?_
      rw [Heap.store, if_pos hholds] at hstore
      cases hstore
    | ok h₁ =>
      have hholds : h.Holds l.1 := by
        by_contra hnot
        rw [Heap.store, if_neg hnot] at hstore
        cases hstore
      obtain ⟨hbase, hlength⟩ := store_keeps_block hstore
      have hsame (q : BitVec 64) : h₁.Holds q ↔ h.Holds q := by
        unfold Heap.Holds
        rw [hbase, hlength]
      refine (ih (h := h₁)).trans ⟨fun hall => ⟨hholds, fun q hq => ?_⟩, fun hall q hq => ?_⟩
      · exact (hsame q.1).mp (hall q hq)
      · exact (hsame q.1).mpr (hall.2 q hq)

/-- The constructor makes no access outside its block exactly when each link lies inside. -/
theorem construct_ok_iff : (∃ r, MemoryManager.construct ObjectSize Amount base bytes = .ok r) ↔
    ∀ l ∈ constructorLinks ObjectSize Amount base,
      (pointerAt l.1).Inside (block ObjectSize Amount base) := by
  rw [construct_links]
  refine Iff.trans ?_ (storeAll_ok_iff (h := ⟨base, chunkSize ObjectSize * Amount, bytes⟩))
  cases Heap.storeAll ⟨base, chunkSize ObjectSize * Amount, bytes⟩
      (constructorLinks ObjectSize Amount base) with
  | error f => exact iff_of_false (fun ⟨_, h⟩ => by cases h) fun ⟨_, h⟩ => by cases h
  | ok h' => exact iff_of_true ⟨_, rfl⟩ ⟨h', rfl⟩

/-- The links are at multiples of the chunk size. -/
theorem links_addresses : (links chunkSize_ n current).map Prod.fst =
    (List.range (n + 1)).map fun i => current + BitVec.ofNat 64 i * chunkSize_ := by
  induction n generalizing current with
  | zero => simp [links]
  | succ n ih =>
    rw [links, List.map_cons, ih, List.range_succ_eq_map (n := n + 1), List.map_cons, List.map_map]
    congr 1
    · simp
    · apply List.map_congr_left
      intro i _
      simp only [Function.comp, Nat.succ_eq_add_one, BitVec.ofNat_add, BitVec.add_mul,
        BitVec.one_mul]
      ac_rfl

theorem mem_constructorLinks {Q : BitVec 64 → Prop} :
    (∀ l ∈ constructorLinks ObjectSize Amount base, Q l.1) ↔
      ∀ i ≤ (Amount - 1).toNat, Q (base + BitVec.ofNat 64 i * chunkSize ObjectSize) := by
  have hmap : (∀ l ∈ constructorLinks ObjectSize Amount base, Q l.1) ↔
      ∀ p ∈ (constructorLinks ObjectSize Amount base).map Prod.fst, Q p := by
    rw [List.forall_mem_map]
  rw [hmap, constructorLinks, links_addresses, List.forall_mem_map]
  simp only [List.mem_range, Nat.lt_succ_iff]

end Stores

section Sizes
variable {ObjectSize Amount base : BitVec 64} {bytes : Bytes} {c n : ℕ}

/-- The constructor builds its list within the block, in at most `Amount` iterations. -/
structure Builds (ObjectSize Amount base : BitVec 64) (bytes : Bytes) : Prop where
  iterations : (Amount - 1).toNat ≤ Amount.toNat
  built : ∃ r, MemoryManager.construct ObjectSize Amount base bytes = .ok r
  inside : ∀ l ∈ constructorLinks ObjectSize Amount base,
    (pointerAt l.1).Inside (block ObjectSize Amount base)

/-- There is a chunk, and the size of the block is a 64-bit number. -/
def Fits (ObjectSize Amount : BitVec 64) : Prop :=
  1 ≤ Amount.toNat ∧ (chunkSize ObjectSize).toNat * Amount.toNat < 2 ^ 64

theorem Fits.builds (h : Fits ObjectSize Amount)
    (hblock : (block ObjectSize Amount base).stop ≤ 2 ^ 64) :
    Builds ObjectSize Amount base bytes := by
  obtain ⟨hpos, hfits⟩ := h
  have hcount : (Amount - 1).toNat = Amount.toNat - 1 := by bv_omega
  have hlength : (chunkSize ObjectSize * Amount).toNat =
      (chunkSize ObjectSize).toNat * Amount.toNat := by
    rw [BitVec.toNat_mul, Nat.mod_eq_of_lt hfits]
  have hsize := eight_le_chunkSize ObjectSize
  have hinside : ∀ l ∈ constructorLinks ObjectSize Amount base,
      (pointerAt l.1).Inside (block ObjectSize Amount base) := by
    rw [mem_constructorLinks (Q := fun p => (pointerAt p).Inside (block ObjectSize Amount base))]
    intro i hi
    have hlast : (i + 1) * (chunkSize ObjectSize).toNat ≤
        (chunkSize ObjectSize).toNat * Amount.toNat := by
      rw [Nat.mul_comm]
      exact Nat.mul_le_mul_left _ (by omega)
    rw [Nat.add_mul, Nat.one_mul] at hlast
    simp only [Region.Inside, Region.stop, pointerAt, block, hlength] at hblock ⊢
    have haddr : (base + BitVec.ofNat 64 i * chunkSize ObjectSize).toNat =
        base.toNat + i * (chunkSize ObjectSize).toNat := by
      rw [BitVec.toNat_add, BitVec.toNat_mul, BitVec.toNat_ofNat,
        Nat.mod_eq_of_lt (a := i) (by omega), Nat.mod_eq_of_lt (a := i * _) (by omega),
        Nat.mod_eq_of_lt (by omega)]
    omega
  exact ⟨by omega, construct_ok_iff.mpr hinside, hinside⟩

/-- If the product wraps, then some chunk starts in the upper half of the address range. -/
theorem exists_chunk_above (hpos : 0 < c) (hc : c < 2 ^ 64) (hwraps : 2 ^ 64 ≤ c * n) :
    ∃ i < n, 2 ^ 63 ≤ i * c ∧ i * c < 2 ^ 64 := by
  by_cases hhalf : c ≤ 2 ^ 63
  · have hdiv := Nat.div_add_mod (2 ^ 64 - 1) c
    have hrest := Nat.mod_lt (2 ^ 64 - 1) hpos
    rw [Nat.mul_comm] at hdiv
    refine ⟨(2 ^ 64 - 1) / c, ?_, by omega, by omega⟩
    by_contra hle
    have hmul : c * n ≤ (2 ^ 64 - 1) / c * c := by
      rw [Nat.mul_comm]
      exact Nat.mul_le_mul_right c (by omega)
    omega
  · refine ⟨1, ?_, by omega, by omega⟩
    by_contra hle
    have hmul : c * n ≤ c * 1 := Nat.mul_le_mul_left c (by omega)
    omega

theorem Builds.fits (h : Builds ObjectSize Amount base bytes)
    (hobject : (block ObjectSize Amount base).length < 2 ^ 63) : Fits ObjectSize Amount := by
  obtain ⟨hiterations, -, hinside⟩ := h
  have hpos : 1 ≤ Amount.toNat := by
    by_contra hzero
    have hamount : Amount = 0 := BitVec.eq_of_toNat_eq (by simpa using hzero)
    rw [hamount] at hiterations
    exact absurd hiterations (by decide)
  refine ⟨hpos, ?_⟩
  by_contra hwraps
  have hsize := eight_le_chunkSize ObjectSize
  obtain ⟨i, hi, hlo, hhi⟩ := exists_chunk_above (by omega) (chunkSize ObjectSize).isLt
    (Nat.le_of_not_lt hwraps)
  have hcount : (Amount - 1).toNat = Amount.toNat - 1 := by bv_omega
  have hlink := (mem_constructorLinks
    (Q := fun p => (pointerAt p).Inside (block ObjectSize Amount base))).mp hinside i (by omega)
  have haddr : (base + BitVec.ofNat 64 i * chunkSize ObjectSize).toNat =
      (base.toNat + i * (chunkSize ObjectSize).toNat) % 2 ^ 64 := by
    rw [BitVec.toNat_add, BitVec.toNat_mul, BitVec.toNat_ofNat,
      Nat.mod_eq_of_lt (a := i) (by have := Amount.isLt; omega), Nat.mod_eq_of_lt hhi]
  simp only [Region.Inside, Region.stop, pointerAt, block, haddr] at hlink hobject
  have hbase := base.isLt
  omega

/-- The constructor stays inside its block, with at most `Amount` iterations, if there is a chunk
and the size does not wrap; and only then, as no block has half of the addresses. -/
theorem construct_within_iff (hblock : (block ObjectSize Amount base).stop ≤ 2 ^ 64) :
    (Fits ObjectSize Amount → Builds ObjectSize Amount base bytes) ∧
      ((block ObjectSize Amount base).length < 2 ^ 63 →
        (Builds ObjectSize Amount base bytes ↔ Fits ObjectSize Amount)) :=
  ⟨fun h => h.builds hblock, fun hobject => ⟨fun h => h.fits hobject, fun h => h.builds hblock⟩⟩

theorem construct_within_iff_small : Builds 5 3 4096 fun _ => 0 :=
  (construct_within_iff (by decide)).1 ⟨by decide, by decide⟩

/-- For no chunk the bound of the loop wraps, and for chunks of 2⁶² bytes the size of the block. -/
theorem construct_not_within :
    ¬ Builds 24 0 4096 (fun _ => 0) ∧
      ¬ Builds (BitVec.ofNat 64 (2 ^ 62)) 4 4096 (fun _ => 0) :=
  ⟨fun h => absurd h.iterations (by decide),
    fun h => absurd (h.inside _ (List.mem_cons_self ..)) (by decide)⟩

end Sizes

/-- `alignof(void*)`, and the alignment of the memory that `new char[]` returns. -/
def alignof_ptr : ℕ := 8

def alignof_max_align_t : ℕ := 16

section Alignment
variable {r : Placement} {s s' : State} {act : Act} {bytes : Bytes} {log evs : List Event}
  {p : BitVec 64}

def Aligned (p : BitVec 64) : Prop := alignof_ptr ∣ p.toNat

instance (p : BitVec 64) : Decidable (Aligned p) := inferInstanceAs (Decidable (_ ∣ _))

/-- The addresses to which the constructor and `Deallocate` have written links, and those that
`Allocate` has returned. -/
structure LinksAligned (r : Placement) (log : List Event) : Prop where
  construct : ∀ l ∈ constructorLinks r.ObjectSize r.Amount r.base, Aligned l.1
  deallocate : ∀ p, .deallocated p ∈ log → p ≠ 0 → Aligned p
  allocate : ∀ p, .allocated p ∈ log → p ≠ 0 → Aligned p

/-- The constructor writes one link to each chunk. -/
theorem constructorLinks_chunks {Q : BitVec 64 → Prop} :
    (∀ l ∈ constructorLinks r.ObjectSize r.Amount r.base, Q l.1) ↔ ∀ p ∈ r.chunks, Q p := by
  have hpos := r.amount_pos
  have hcount : (r.Amount - 1).toNat = r.Amount.toNat - 1 := by bv_omega
  rw [mem_constructorLinks, Placement.chunks, List.forall_mem_map, hcount]
  simp only [List.mem_range, Placement.chunk, Nat.le_sub_one_iff_lt hpos]

/-- The pool handles the addresses of its chunks only. -/
theorem Partition.step_mem_chunks (h : Partition r s) (hs : MemPool.step s act = some (s', evs)) :
    ∀ p ≠ 0, .allocated p ∈ evs ∨ .deallocated p ∈ evs → p ∈ r.chunks := by
  intro q hq hmem
  unfold MemPool.step at hs
  rw [if_neg (by simp [h.sound])] at hs
  cases act with
  | allocate =>
    obtain ⟨p, pool, hallocate, hcases⟩ := h.allocate
    simp only [State.call, hallocate] at hs
    cases hs
    obtain rfl : q = p := by simpa using hmem
    rcases hcases with ⟨hnull, -, -⟩ | ⟨-, hchunk, -, -⟩
    · exact absurd hnull hq
    · exact hchunk
  | deallocate p =>
    simp only at hs
    split at hs
    · rename_i hp
      rcases hp with rfl | hp
      · cases hs
        obtain rfl : q = 0 := by simpa using hmem
        exact absurd rfl hq
      · obtain ⟨pool, heap, hdeallocate, -, -⟩ := h.deallocate hp
        simp only [State.call, hdeallocate] at hs
        cases hs
        obtain rfl : q = p := by simpa using hmem
        exact h.mem_chunks hp
    · cases hs
  | write p offset byte =>
    simp only at hs
    split at hs
    · cases hs
      simp at hmem
    · cases hs

theorem mem_chunks_of_run (hrun : (system r bytes).Run s log) :
    ∀ p ≠ 0, .allocated p ∈ log ∨ .deallocated p ∈ log → p ∈ r.chunks := by
  refine hrun.invariant
    (I := fun _ log => ∀ p ≠ 0, .allocated p ∈ log ∨ .deallocated p ∈ log → p ∈ r.chunks)
    (by simp) fun s log act s' evs hr hold _ hs p hp hmem => ?_
  simp only [List.mem_append] at hmem
  have hstep := (partition_of_run hr).step_mem_chunks hs p hp
  grind

/-- The chunks are aligned if there is one of them or if their size is a multiple. -/
theorem chunks_aligned_iff (hbase : alignof_max_align_t ∣ r.base.toNat) :
    (∀ p ∈ r.chunks, Aligned p) ↔
      r.Amount.toNat = 1 ∨ alignof_ptr ∣ (chunkSize r.ObjectSize).toNat := by
  have hpos := r.amount_pos
  have hfirst : alignof_ptr ∣ r.base.toNat := Nat.dvd_trans (by decide) hbase
  constructor
  · intro hall
    by_cases hone : r.Amount.toNat = 1
    · exact .inl hone
    · have hsecond := hall _ (mem_chunks.mpr ⟨1, by omega, rfl⟩)
      rw [Aligned, (chunk_toNat (by omega)).1, Nat.one_mul] at hsecond
      exact .inr ((Nat.dvd_add_right hfirst).mp hsecond)
  · intro hcases p hp
    obtain ⟨i, hi, rfl⟩ := mem_chunks.mp hp
    rw [Aligned, (chunk_toNat hi).1]
    apply Nat.dvd_add hfirst
    rcases hcases with hone | hsize
    · obtain rfl : i = 0 := by omega
      simp
    · exact Nat.dvd_mul_left_of_dvd hsize i

/-- The links and the allocated addresses are aligned in every run, from the constructor on, if
and only if there is a single chunk or the chunk size is a multiple of the alignment. -/
theorem links_aligned_iff (hbase : alignof_max_align_t ∣ r.base.toNat)
    (hrun : (system r bytes).Run s log) :
    LinksAligned r log ↔
      r.Amount.toNat = 1 ∨ alignof_ptr ∣ (chunkSize r.ObjectSize).toNat := by
  rw [← chunks_aligned_iff hbase]
  have hmem := mem_chunks_of_run hrun
  constructor
  · exact fun h => constructorLinks_chunks.mp h.construct
  · exact fun hall => ⟨constructorLinks_chunks.mpr hall,
      fun p hp hne => hall p (hmem p hne (.inr hp)), fun p hp hne => hall p (hmem p hne (.inl hp))⟩

theorem links_aligned_iff_reuse :
    ∃ s log, (system small fun _ => 7).Run s log ∧ .deallocated 4096 ∈ log ∧
      LinksAligned small log := by
  obtain ⟨s, log, hrun, hq⟩ := (system small fun _ => 7).exists_run_of_exec (fun _ _ => True) reuse
    (fun _ log => decide (.deallocated 4096 ∈ log)) (by decide +kernel)
  exact ⟨s, log, hrun, of_decide_eq_true hq,
    (links_aligned_iff (by decide) hrun).mpr (.inr (by decide))⟩

/-- Ten objects of three `float`s. -/
def vectors : Placement where
  ObjectSize := 12
  Amount := 10
  base := 12288
  amount_pos := by decide
  fits := by decide
  nonnull := by decide
  inside := by decide

/-- The second chunk is not aligned: the constructor writes a link there, and the client gets it. -/
theorem links_unaligned :
    ∃ s log, (system vectors fun _ => 0).Run s log ∧ .allocated 12300 ∈ log ∧
      ¬ LinksAligned vectors log := by
  obtain ⟨s, log, hrun, hq⟩ := (system vectors fun _ => 0).exists_run_of_exec (fun _ _ => True)
    [.allocate, .allocate] (fun _ log => decide (.allocated 12300 ∈ log)) (by decide +kernel)
  have hmem : .allocated 12300 ∈ log := of_decide_eq_true hq
  exact ⟨s, log, hrun, hmem, fun h => absurd (h.allocate 12300 hmem (by decide)) (by decide)⟩

end Alignment
end MemPool
