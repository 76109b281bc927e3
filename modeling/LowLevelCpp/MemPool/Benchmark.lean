import LowLevelCpp.MemPool.Partition
import Mathlib.Algebra.Order.BigOperators.Group.List
import Mathlib.Algebra.Order.Ring.Nat

/-!
The benchmark of `main.cpp`: one kernel over two classes, of which the first has its objects on
the heap of the program and the second in a pool. What the pool hands out depends on the calls
only, not on what is written to the chunks, and the two classes give the kernel the same result.
-/
namespace MemPool
open Foundations Foundations.System

/-- A pool as a stack of free chunks: which chunk an allocation returns. -/
def freeStack (r : Placement) : Spec (List (BitVec 64)) Event where
  init := r.chunks
  accept
    | [], .allocated p => if p = 0 then some [] else none
    | q :: free, .allocated p => if p = q then some free else none
    | free, .deallocated p => some (if p = 0 then free else p :: free)

/-- `free` is the list of free chunks, from the head. -/
structure Stacked (r : Placement) (s : State) (free : List (BitVec 64)) : Prop where
  partition : Partition r s
  path : Path s.heap.link (ptr s.pool.freeListHead_) free none

section Stack
variable {r : Placement} {s s' : State} {free : List (BitVec 64)} {p : BitVec 64}
  {log evs : List Event} {bytes : Bytes} {act : Act}

theorem Stacked.perm (h : Stacked r s free) : (free ++ s.allocated).Perm r.chunks := by
  obtain ⟨free', hpath, hperm⟩ := h.partition.free
  rwa [h.path.unique hpath]

theorem Stacked.nodup (h : Stacked r s free) : (free ++ s.allocated).Nodup :=
  h.perm.nodup_iff.mpr (chunks_nodup r)

/-- An empty stack gives null, and another one its top. -/
theorem Stacked.allocate (h : Stacked r s free) :
    free = [] ∧ step s .allocate = some (s, [.allocated 0]) ∨
      ∃ p rest s', free = p :: rest ∧ p ≠ 0 ∧ step s .allocate = some (s', [.allocated p]) ∧
        s'.allocated = p :: s.allocated ∧ s'.heap = s.heap ∧ Stacked r s' rest := by
  have hrunning : ¬ s.fault.isSome = true := by simp [h.partition.sound]
  have hpath := h.path
  by_cases hnull : s.pool.freeListHead_ = 0
  · rw [hnull] at hpath
    refine .inl ⟨hpath.unique (path_nil.mpr rfl), ?_⟩
    simp only [step, if_neg hrunning, MemoryManager.Allocate, if_pos hnull]
    rfl
  · rw [ptr, if_neg hnull] at hpath
    cases free with
    | nil => cases hpath
    | cons p rest =>
      obtain ⟨hhead, hrest⟩ := hpath
      obtain rfl := Option.some.inj hhead
      have hmem : s.pool.freeListHead_ ∈ r.chunks := h.perm.subset (by simp)
      have hallocate : step s .allocate = some
          ({ s with
            pool.freeListHead_ := s.heap.bytes.loadWord s.pool.freeListHead_.toNat
            allocated := s.pool.freeListHead_ :: s.allocated },
          [.allocated s.pool.freeListHead_]) := by
        simp only [step, if_neg hrunning, MemoryManager.Allocate, if_neg hnull,
          load_chunk h.partition.block hmem]
        simp only [bind, Except.bind, pure, Except.pure, State.call, if_neg hnull]
      exact .inr ⟨_, rest, _, rfl, hnull, hallocate, rfl, rfl, h.partition.step hallocate, hrest⟩

/-- A chunk that is given back is on top. -/
theorem Stacked.deallocate (h : Stacked r s free) (hp : p ∈ s.allocated) :
    ∃ s', step s (.deallocate p) = some (s', [.deallocated p]) ∧
      s'.allocated = s.allocated.erase p ∧ Stacked r s' (p :: free) ∧
      ∀ q ∈ r.chunks, q ≠ p → ∀ b, q.toNat ≤ b → b < q.toNat + 8 →
        s'.heap.bytes b = s.heap.bytes b := by
  have hrunning : ¬ s.fault.isSome = true := by simp [h.partition.sound]
  have hmem := h.partition.mem_chunks hp
  have hsize := eight_le_chunkSize r.ObjectSize
  have hdeallocate : step s (.deallocate p) = some
      ({ s with
        pool.freeListHead_ := p
        heap.bytes := s.heap.bytes.storeWord p.toNat s.pool.freeListHead_
        allocated := s.allocated.erase p }, [.deallocated p]) := by
    simp only [step, if_neg hrunning, if_pos (Or.inr hp), MemoryManager.Deallocate,
      if_neg (chunk_ne_zero hmem), store_chunk h.partition.block hmem]
    rfl
  have hother : ∀ q ∈ r.chunks, q ≠ p → ∀ b, q.toNat ≤ b → b < q.toNat + 8 →
      (s.heap.bytes.storeWord p.toNat s.pool.freeListHead_) b = s.heap.bytes b :=
    fun q hq hne b hlo hhi => bytes_store (h := s.heap) hmem hq hne hlo (by omega)
  refine ⟨_, hdeallocate, rfl, ⟨h.partition.step hdeallocate, ?_, ?_⟩, hother⟩
  · exact if_neg (chunk_ne_zero hmem)
  · rw [link_store]
    apply Path.of_bytes h.path
    intro q hq
    have hne : q ≠ p := (List.nodup_append.mp h.nodup).2.2 q hq p hp
    exact hother q (h.perm.subset (List.mem_append_left _ hq)) hne

/-- What is written to a chunk in use is not on the stack. -/
theorem Stacked.write (h : Stacked r s free) (hp : p ∈ s.allocated) {offset : ℕ}
    (hoffset : offset < 8) (byte : BitVec 8) :
    step s (.write p offset byte) = some
      ({ s with heap.bytes := Function.update s.heap.bytes (p.toNat + offset) byte }, []) ∧
      Stacked r { s with heap.bytes := Function.update s.heap.bytes (p.toNat + offset) byte }
        free := by
  have hrunning : ¬ s.fault.isSome = true := by simp [h.partition.sound]
  have hmem := h.partition.mem_chunks hp
  have hsize := eight_le_chunkSize r.ObjectSize
  have hchunk : offset < s.pool.chunkSize_.toNat := by
    rw [h.partition.chunked]
    omega
  refine ⟨?_, h.partition.write hp hchunk byte, Path.of_bytes h.path ?_⟩
  · simp only [step, if_neg hrunning, if_pos (And.intro hp hchunk)]
  · intro q hq b hlo hhi
    apply Function.update_of_ne
    have hne : q ≠ p := (List.nodup_append.mp h.nodup).2.2 q hq p hp
    have hdisjoint := chunks_disjoint (h.perm.subset (List.mem_append_left _ hq)) hmem hne
    omega

theorem Stacked.step (h : Stacked r s free) (hs : MemPool.step s act = some (s', evs)) :
    ∃ free', (freeStack r).replayFrom free evs = some free' ∧ Stacked r s' free' := by
  have hrunning : ¬ s.fault.isSome = true := by simp [h.partition.sound]
  cases act with
  | allocate =>
    rcases h.allocate with ⟨rfl, hallocate⟩ | ⟨p, rest, t, rfl, hp, hallocate, -, -, hstack⟩
    · obtain ⟨rfl, rfl⟩ := Prod.mk.inj (Option.some.inj (hallocate.symm.trans hs))
      exact ⟨[], by simp [freeStack], h⟩
    · obtain ⟨rfl, rfl⟩ := Prod.mk.inj (Option.some.inj (hallocate.symm.trans hs))
      exact ⟨rest, by simp [freeStack], hstack⟩
  | deallocate p =>
    by_cases hp : p ∈ s.allocated
    · obtain ⟨t, hdeallocate, -, hstack, -⟩ := h.deallocate hp
      obtain ⟨rfl, rfl⟩ := Prod.mk.inj (Option.some.inj (hdeallocate.symm.trans hs))
      refine ⟨p :: free, ?_, hstack⟩
      simp only [Spec.replayFrom_singleton, freeStack,
        if_neg (chunk_ne_zero (h.partition.mem_chunks hp))]
    · have hzero : p = 0 := by
        by_contra hne
        simp only [MemPool.step, if_neg hrunning, hp, hne, or_self, if_false] at hs
        cases hs
      have hnull : MemPool.step s (.deallocate p) = some (s, [.deallocated p]) := by
        simp only [MemPool.step, if_neg hrunning, hzero, true_or, if_true]
        rw [← hzero, List.erase_of_not_mem hp, hzero]
        rfl
      obtain ⟨rfl, rfl⟩ := Prod.mk.inj (Option.some.inj (hnull.symm.trans hs))
      exact ⟨free, by simp [freeStack, hzero], h⟩
  | write p offset byte =>
    have hpartition := h.partition.step hs
    simp only [MemPool.step, if_neg hrunning] at hs
    split at hs
    · rename_i hp
      obtain ⟨rfl, rfl⟩ := Prod.mk.inj (Option.some.inj hs)
      refine ⟨free, rfl, hpartition, Path.of_bytes h.path fun q hq b hlo hhi => ?_⟩
      apply Function.update_of_ne
      have hne : q ≠ p := (List.nodup_append.mp h.nodup).2.2 q hq p hp.1
      have hdisjoint := chunks_disjoint (h.perm.subset (List.mem_append_left _ hq))
        (h.partition.mem_chunks hp.1) hne
      have hchunked := h.partition.chunked
      have hoffset := hp.2
      have hsize := eight_le_chunkSize r.ObjectSize
      rw [hchunked] at hoffset
      omega
    · cases hs

/-- The constructor links the chunks in order. -/
theorem stacked_construct (r : Placement) (bytes : Bytes) :
    Stacked r (system r bytes).init r.chunks := by
  refine ⟨partition_construct r bytes, ?_⟩
  have hamount := r.amount_pos
  have hat : Heap.At ⟨r.base, chunkSize r.ObjectSize * r.Amount, bytes⟩ r :=
    ⟨rfl, by rw [BitVec.toNat_mul, Nat.mod_eq_of_lt r.fits]⟩
  have hcount : (r.Amount - 1).toNat = r.Amount.toNat - 1 := by bv_omega
  obtain ⟨h', h'', last, hloop, hlast, -, hpath, -⟩ :=
    linkChunks_path (i := 0) (n := r.Amount.toNat - 1) hat (by omega)
  have hhead : ptr (r.chunk 0) = some (r.chunk 0) :=
    if_neg (chunk_ne_zero (mem_chunks.mpr ⟨0, hamount, rfl⟩))
  rw [Nat.sub_add_cancel hamount, ← List.range_eq_range', ← hhead] at hpath
  rw [chunk_zero] at hloop hpath
  simp only [system, MemoryManager.construct, hcount, hloop, bind, Except.bind, hlast]
  exact hpath

theorem stacked_of_run (hrun : (system r bytes).Run s log) :
    ∃ free, (freeStack r).replay log = some free ∧ Stacked r s free := by
  refine hrun.invariant
    (I := fun s log => ∃ free, (freeStack r).replay log = some free ∧ Stacked r s free) ?_
    fun s log act s' evs _ ⟨free, hreplay, h⟩ _ hs => ?_
  · exact ⟨r.chunks, rfl, stacked_construct r bytes⟩
  · obtain ⟨free', hevs, h'⟩ := h.step hs
    exact ⟨free', by rw [(freeStack r).replay_append hreplay, hevs], h'⟩

end Stack

/-- A class with an `int` member: what `new`, `get` and `delete` do to the memory of the program.
Creating an object in no memory and deleting what is no object are undefined behaviour. -/
structure ObjectClass (σ α : Type) where
  new : σ → BitVec 32 → Option (α × σ)
  get : σ → α → BitVec 32
  delete : σ → α → Option σ

section Kernel
variable {σ α : Type}

def newAll (T : ObjectClass σ α) : List (BitVec 32) → σ → Option (List α × σ)
  | [], s => some ([], s)
  | data :: rest, s => do
    let (o, s) ← T.new s data
    let (os, s) ← newAll T rest s
    return (o :: os, s)

def deleteAll (T : ObjectClass σ α) : List α → σ → Option σ
  | [], s => some s
  | o :: os, s => do
    let s ← T.delete s o
    deleteAll T os s

/-- `i + 1` to `i + 8`, which do not overflow in the rounds that `main` runs. -/
def iterationData (i : ℕ) : List (BitVec 32) :=
  (List.range' 1 8).map fun k => BitVec.ofNat 32 i + BitVec.ofNat 32 k

def xorAll (xs : List (BitVec 32)) : BitVec 32 := xs.foldl (· ^^^ ·) 0

/-- The body of the loop of `run_once`, with `sink`. -/
def iteration (T : ObjectClass σ α) (i : ℕ) (s : σ) (sink : BitVec 32) :
    Option (σ × BitVec 32) := do
  let (os, s) ← newAll T (iterationData i) s
  let sink := sink ^^^ xorAll (os.map (T.get s))
  let s ← deleteAll T os s
  return (s, sink)

/-- The first `iterations` rounds of `run_once`. -/
def run_once (T : ObjectClass σ α) : ℕ → σ → BitVec 32 → Option (σ × BitVec 32)
  | 0, s, sink => some (s, sink)
  | iterations + 1, s, sink => do
    let (s, sink) ← run_once T iterations s sink
    iteration T iterations s sink

/-- What `run_once` adds to `sink`. -/
def checksum : ℕ → BitVec 32
  | 0 => 0
  | iterations + 1 => checksum iterations ^^^ xorAll (iterationData iterations)

/-- The class keeps up to `room` objects apart: `R s objects` says what the memory holds. -/
structure Keeps (T : ObjectClass σ α) (room : ℕ) (R : σ → List (α × BitVec 32) → Prop) :
    Prop where
  new : ∀ {s objects} data, R s objects → objects.length < room →
    ∃ o s', T.new s data = some (o, s') ∧ R s' (objects ++ [(o, data)])
  get : ∀ {s objects o data}, R s objects → (o, data) ∈ objects → T.get s o = data
  delete : ∀ {s objects o data}, R s ((o, data) :: objects) →
    ∃ s', T.delete s o = some s' ∧ R s' objects

variable {T : ObjectClass σ α} {room : ℕ} {R : σ → List (α × BitVec 32) → Prop} {s : σ}

theorem Keeps.newAll (h : Keeps T room R) (datas : List (BitVec 32))
    {objects : List (α × BitVec 32)} (hR : R s objects)
    (hroom : objects.length + datas.length ≤ room) :
    ∃ os s', newAll T datas s = some (os, s') ∧ os.length = datas.length ∧
      R s' (objects ++ os.zip datas) := by
  induction datas generalizing s objects with
  | nil => exact ⟨[], s, rfl, rfl, by simpa using hR⟩
  | cons data rest ih =>
    rw [List.length_cons] at hroom
    obtain ⟨o, s₁, hnew, hR₁⟩ := h.new data hR (by omega)
    obtain ⟨os, s₂, hrest, hlength, hR₂⟩ := ih hR₁ (by
      rw [List.length_append, List.length_singleton]
      omega)
    refine ⟨o :: os, s₂, ?_, by simp [hlength], by simpa using hR₂⟩
    simp [MemPool.newAll, hnew, hrest]

theorem Keeps.deleteAll (h : Keeps T room R) (os : List α) {datas : List (BitVec 32)}
    (hlength : os.length = datas.length) (hR : R s (os.zip datas)) :
    ∃ s', deleteAll T os s = some s' ∧ R s' [] := by
  induction os generalizing s datas with
  | nil => exact ⟨s, rfl, by simpa using hR⟩
  | cons o os ih =>
    cases datas with
    | nil => cases hlength
    | cons data rest =>
      obtain ⟨s₁, hdelete, hR₁⟩ := h.delete hR
      obtain ⟨s₂, hrest, hR₂⟩ := ih (by simpa using hlength) hR₁
      exact ⟨s₂, by simp [MemPool.deleteAll, hdelete, hrest], hR₂⟩

theorem Keeps.getAll (h : Keeps T room R) {os : List α} {datas : List (BitVec 32)}
    (hlength : os.length = datas.length) (hR : R s (os.zip datas)) : os.map (T.get s) = datas := by
  apply List.ext_getElem (by simpa using hlength)
  intro i hi hi'
  rw [List.getElem_map]
  have hzip : i < (os.zip datas).length := by
    rw [List.length_zip, hlength, Nat.min_self]
    exact hi'
  exact h.get hR (List.mem_iff_getElem.mpr ⟨i, hzip, List.getElem_zip⟩)

theorem Keeps.iteration (h : Keeps T room R) (hroom : 8 ≤ room) (i : ℕ) (hR : R s [])
    (sink : BitVec 32) : ∃ s', iteration T i s sink =
      some (s', sink ^^^ xorAll (iterationData i)) ∧ R s' [] := by
  obtain ⟨os, s₁, hnew, hlength, hR₁⟩ := h.newAll (iterationData i) hR (by simpa [iterationData])
  rw [List.nil_append] at hR₁
  obtain ⟨s₂, hdelete, hR₂⟩ := h.deleteAll os hlength hR₁
  refine ⟨s₂, ?_, hR₂⟩
  simp [MemPool.iteration, hnew, hdelete, h.getAll hlength hR₁]

/-- The kernel on a class that keeps its objects apart. -/
theorem Keeps.run_once (h : Keeps T room R) (hroom : 8 ≤ room) (iterations : ℕ) (hR : R s [])
    (sink : BitVec 32) : ∃ s', run_once T iterations s sink =
      some (s', sink ^^^ checksum iterations) ∧ R s' [] := by
  induction iterations with
  | zero => exact ⟨s, by simp [MemPool.run_once, checksum], hR⟩
  | succ n ih =>
    obtain ⟨s₁, hrun, hR₁⟩ := ih
    obtain ⟨s₂, hbody, hR₂⟩ := h.iteration hroom n hR₁ (sink ^^^ checksum n)
    refine ⟨s₂, ?_, hR₂⟩
    simp [MemPool.run_once, hrun, hbody, checksum, BitVec.xor_assoc]

end Kernel

section Heap

/-- `Object`: the heap of the program puts an object where no other one is. -/
def Object (place : List ℕ → ℕ) : ObjectClass (List (ℕ × BitVec 32)) ℕ where
  new live data :=
    let o := place (live.map Prod.fst)
    some (o, live ++ [(o, data)])
  get live o := (live.lookup o).getD 0
  delete live o := if o ∈ live.map Prod.fst then some (live.eraseP (·.1 == o)) else none

theorem object_keeps {place : List ℕ → ℕ} (hplace : ∀ live, place live ∉ live) (room : ℕ) :
    Keeps (Object place) room fun live objects =>
      live = objects ∧ (live.map Prod.fst).Nodup where
  new := by
    rintro live _ data ⟨rfl, hnodup⟩ -
    refine ⟨_, _, rfl, rfl, ?_⟩
    rw [List.map_append, List.nodup_append]
    refine ⟨hnodup, by simp, fun o ho o' ho' he => hplace (live.map Prod.fst) ?_⟩
    obtain rfl : o' = place (live.map Prod.fst) := by simpa using ho'
    rwa [← he]
  get := by
    rintro live _ o data ⟨rfl, hnodup⟩ hmem
    obtain ⟨before, after, rfl⟩ := List.append_of_mem hmem
    have hlookup : (before ++ (o, data) :: after).lookup o = some data := by
      refine List.lookup_eq_some_iff.mpr ⟨before, after, rfl, fun e he => ?_⟩
      rw [List.map_append, List.nodup_append] at hnodup
      have hne : e.1 ≠ o := hnodup.2.2 e.1 (List.mem_map_of_mem he) o (by simp)
      simpa using hne.symm
    simp [Object, hlookup]
  delete := by
    rintro live objects o data ⟨rfl, hnodup⟩
    refine ⟨objects, ?_, rfl, (List.nodup_cons.mp hnodup).2⟩
    simp [Object]

end Heap

section Pool

/-- An `int` in memory. -/
def loadInt (m : Bytes) (a : ℕ) : BitVec 32 := m (a + 3) ++ m (a + 2) ++ m (a + 1) ++ m a

/-- The client writes the first bytes of `v` to its chunk. -/
def storeBytes (p : BitVec 64) (v : BitVec 32) : ℕ → State → Option State
  | 0, s => some s
  | n + 1, s => do
    let s ← storeBytes p v n s
    let (s, _) ← step s (.write p n (v.extractLsb' (8 * n) 8))
    return s

/-- `Object1`: `operator new` and `operator delete` are those of the pool, and the constructor
writes the member. -/
def Object1 : ObjectClass State (BitVec 64) where
  new s data := do
    let (s, out) ← step s .allocate
    match out with
    | [.allocated o] => if o = 0 then none else return (o, ← storeBytes o data 4 s)
    | _ => none
  get s o := loadInt s.heap.bytes o.toNat
  delete s o := (step s (.deallocate o)).map Prod.fst

/-- The objects of the kernel and those of `others` are the chunks in use, and hold their
members. -/
structure Hosts (r : Placement) (bytes : Bytes) (others objects : List (BitVec 64 × BitVec 32))
    (s : State) : Prop where
  reachable : ∃ log, (system r bytes).Run s log
  allocated : s.allocated.Perm ((objects ++ others).map Prod.fst)
  holds : ∀ e ∈ objects ++ others, loadInt s.heap.bytes e.1.toNat = e.2

variable {r : Placement} {s s' : State} {bytes : Bytes} {p o : BitVec 64} {data : BitVec 32}
  {log : List Event} {others objects : List (BitVec 64 × BitVec 32)}

theorem loadInt_congr {m m' : Bytes} {a : ℕ} (h : ∀ b, a ≤ b → b < a + 4 → m' b = m b) :
    loadInt m' a = loadInt m a := by
  have hbyte (k : ℕ) (hk : k < 4) : m' (a + k) = m (a + k) :=
    h _ (Nat.le_add_right _ _) (by omega)
  rw [loadInt, hbyte 3 (by decide), hbyte 2 (by decide), hbyte 1 (by decide), ← Nat.add_zero a,
    hbyte 0 (by decide)]
  rfl

theorem loadInt_bytes {m : Bytes} {a : ℕ}
    (h : ∀ k < 4, m (a + k) = data.extractLsb' (8 * k) 8) : loadInt m a = data := by
  have hzero := h 0 (by decide)
  rw [Nat.add_zero] at hzero
  rw [loadInt, h 3 (by decide), h 2 (by decide), h 1 (by decide), hzero]
  apply BitVec.eq_of_getLsbD_eq
  intro i hi
  simp only [BitVec.getLsbD_append, BitVec.getLsbD_extractLsb']
  grind

/-- Writing the first `n` bytes of a member. -/
theorem storeBytes_spec (hrun : (system r bytes).Run s log) (hp : p ∈ s.allocated)
    (data : BitVec 32) (n : ℕ) (hn : n ≤ 8) :
    ∃ s', storeBytes p data n s = some s' ∧ (system r bytes).Run s' log ∧
      s'.allocated = s.allocated ∧
      (∀ k < n, s'.heap.bytes (p.toNat + k) = data.extractLsb' (8 * k) 8) ∧
      ∀ b, b < p.toNat ∨ p.toNat + n ≤ b → s'.heap.bytes b = s.heap.bytes b := by
  induction n with
  | zero => exact ⟨s, rfl, hrun, rfl, by simp, by simp⟩
  | succ n ih =>
    obtain ⟨s₁, hstore, hrun₁, hallocated, hbytes, hkept⟩ := ih (by omega)
    obtain ⟨free, -, hstack⟩ := stacked_of_run hrun₁
    obtain ⟨hwrite, -⟩ := hstack.write (hallocated ▸ hp) (show n < 8 by omega)
      (data.extractLsb' (8 * n) 8)
    have hstep : (system r bytes).step s₁ (.write p n (data.extractLsb' (8 * n) 8)) = some
        ({ s₁ with heap.bytes :=
          Function.update s₁.heap.bytes (p.toNat + n) (data.extractLsb' (8 * n) 8) }, []) := hwrite
    have hrun₂ := hrun₁.step trivial hstep
    rw [List.append_nil] at hrun₂
    refine ⟨_, ?_, hrun₂, hallocated, fun k hk => ?_, fun b hb => ?_⟩
    · simp only [storeBytes, hstore, Option.bind_eq_bind, Option.bind_some, hwrite]
      rfl
    · rcases Nat.lt_succ_iff_lt_or_eq.mp hk with hk | rfl
      · have hne : p.toNat + k ≠ p.toNat + n := by omega
        exact (Function.update_of_ne hne _ _).trans (hbytes k hk)
      · exact Function.update_self _ _ _
    · have hne : b ≠ p.toNat + n := by omega
      exact (Function.update_of_ne hne _ _).trans (hkept b (by omega))

theorem Hosts.mem_allocated (h : Hosts r bytes others objects s) {e : BitVec 64 × BitVec 32}
    (he : e ∈ objects ++ others) : e.1 ∈ s.allocated :=
  h.allocated.symm.subset (List.mem_map_of_mem he)

theorem Hosts.new (h : Hosts r bytes others objects s) (data : BitVec 32)
    (hroom : objects.length + others.length < r.Amount.toNat) :
    ∃ o s', Object1.new s data = some (o, s') ∧
      Hosts r bytes others (objects ++ [(o, data)]) s' := by
  obtain ⟨log, hrun⟩ := h.reachable
  obtain ⟨free, -, hstack⟩ := stacked_of_run hrun
  rcases hstack.allocate with ⟨rfl, -⟩ |
    ⟨o, rest, s₁, rfl, hne, hallocate, hallocated, hheap, hstack₁⟩
  · have hfull := hstack.perm.length_eq
    have hlength := h.allocated.length_eq
    simp only [List.nil_append, List.length_map, List.length_append, Placement.chunks,
      List.length_range] at hfull hlength
    omega
  · have hstep : (system r bytes).step s .allocate = some (s₁, [.allocated o]) := hallocate
    have hrun₁ := hrun.step trivial hstep
    have hin : o ∈ s₁.allocated := by simp [hallocated]
    obtain ⟨s₂, hstore, hrun₂, hallocated₂, hbytes, hkept⟩ :=
      storeBytes_spec hrun₁ hin data 4 (by decide)
    refine ⟨o, s₂, ?_, ⟨_, hrun₂⟩, ?_, ?_⟩
    · simp [Object1, hallocate, hstore]
      exact hne
    · rw [hallocated₂, hallocated]
      refine (h.allocated.cons o).trans ?_
      simpa using List.perm_middle.symm
    · intro e he
      by_cases hnew : e = (o, data)
      · rw [hnew]
        exact loadInt_bytes hbytes
      · have hold : e ∈ objects ++ others := by
          simp only [List.mem_append, List.mem_singleton] at he ⊢
          tauto
        have hne' : e.1 ≠ o := by
          have hnodup := hstack.nodup
          simp only [List.cons_append, List.nodup_cons, List.mem_append, not_or] at hnodup
          exact fun he => hnodup.1.2 (he ▸ h.mem_allocated hold)
        have hdisjoint := chunks_disjoint
          (hstack.partition.mem_chunks (h.mem_allocated hold))
          (hstack.perm.subset (by simp)) hne'
        have hsize := eight_le_chunkSize r.ObjectSize
        rw [← h.holds e hold, ← hheap]
        exact loadInt_congr fun b hlo hhi => hkept b (by omega)

theorem Hosts.delete (h : Hosts r bytes others ((o, data) :: objects) s) :
    ∃ s', Object1.delete s o = some s' ∧ Hosts r bytes others objects s' := by
  obtain ⟨log, hrun⟩ := h.reachable
  obtain ⟨free, -, hstack⟩ := stacked_of_run hrun
  have hin : o ∈ s.allocated := h.allocated.symm.subset (by simp)
  obtain ⟨s₁, hdeallocate, hallocated, -, hkept⟩ := hstack.deallocate hin
  have hperm : (s.allocated.erase o).Perm ((objects ++ others).map Prod.fst) := by
    simpa using h.allocated.erase o
  have hstep : (system r bytes).step s (.deallocate o) = some (s₁, [.deallocated o]) := hdeallocate
  refine ⟨s₁, by simp [Object1, hdeallocate], ⟨⟨_, hrun.step trivial hstep⟩, hallocated ▸ hperm,
    fun e he => ?_⟩⟩
  have hmem : e.1 ∈ s.allocated := h.mem_allocated (List.mem_cons_of_mem _ he)
  have hne : e.1 ≠ o := by
    have hnodup : s.allocated.Nodup := (List.nodup_append.mp hstack.nodup).2.1
    have hkeeps := hperm.symm.subset (List.mem_map_of_mem he)
    exact (hnodup.mem_erase_iff.mp hkeeps).1
  rw [← h.holds e (List.mem_cons_of_mem _ he)]
  exact loadInt_congr fun b hlo hhi =>
    hkept e.1 (hstack.partition.mem_chunks hmem) hne b hlo (by omega)

theorem object1_keeps (r : Placement) (bytes : Bytes) (others : List (BitVec 64 × BitVec 32)) :
    Keeps Object1 (r.Amount.toNat - others.length)
      fun s objects => Hosts r bytes others objects s := by
  constructor
  · intro s objects data h hroom
    have hfree : objects.length + others.length < r.Amount.toNat := Nat.add_lt_of_lt_sub hroom
    exact h.new data hfree
  · intro s objects o data h hmem
    exact h.holds (o, data) (List.mem_append_left _ hmem)
  · intro s objects o data h
    exact h.delete

/-- `Object1::memoryManager(sizeof(Object1), 64)` -/
def objectPool : Placement where
  ObjectSize := 4
  Amount := 64
  base := 65536
  amount_pos := by decide
  fits := by decide
  nonnull := by decide
  inside := by decide

end Pool
end MemPool
