import LowLevelCpp.Foundations.Path
import LowLevelCpp.IntrusiveHashMap.Model

/-! The table represents its nodes in the order of their insertions, the most recent first: the
chain of a slot is that list restricted to the slot, `lookup` returns the first node of it that
matches, and `remove` takes that one out. -/
namespace IntrusiveHashMap
open Foundations Foundations.System

variable {ι : Type}

namespace Heap

def next (h : Heap ι) (node : ι) : Option ι := (h.nodes node).next

/-- The nodes of one slot. -/
def chain (h : Heap ι) (present : List ι) (pos : ℕ) : List ι :=
  present.filter fun node => h.pos node == pos

/-- No hash code has changed. -/
def SameCodes (h' h : Heap ι) : Prop := ∀ node, (h'.nodes node).hcode = (h.nodes node).hcode

end Heap

/-- The incoming pointer behind the given nodes. -/
def Incoming.after : Incoming ι → List ι → Incoming ι
  | incoming, [] => incoming
  | _, a :: as => (Incoming.next a).after as

/-- The table holds the nodes `present`, given with the most recently inserted one first. -/
structure Represents (n : TableSize) (h : Heap ι) (present : List ι) : Prop where
  distinct : present.Nodup
  counted : h.size = present.length
  masked : h.hmap.mask = n.n - 1
  chains : ∃ slots, h.hmap.map = .allocated slots ∧ slots.size = n.n.toNat ∧
    ∀ pos (hpos : pos < slots.size), Path h.next slots[pos] (h.chain present pos) none

theorem TableSize.mask_lt (n : TableSize) : (n.n - 1).toNat < n.n.toNat := by
  obtain ⟨k, hk⟩ := asserts_iff.mp n.asserted
  have hpos : 0 < n.n.toNat := hk ▸ Nat.two_pow_pos k
  bv_omega

section Searching
variable {h : Heap ι} {key x : ι} {eq : ι → ι → Bool} {incoming : Incoming ι} {p : Option ι}
  {as bs xs : List ι} {fuel : ℕ}

@[simp] theorem load_next (h : Heap ι) (node : ι) : h.load (.next node) = .ok (h.next node) := rfl

@[simp] theorem after_concat (a : ι) : incoming.after (as ++ [a]) = .next a := by
  induction as generalizing incoming with
  | nil => rfl
  | cons b as ih => exact ih

theorem load_after (hload : h.load incoming = .ok p) (hpath : Path h.next p (as ++ bs) none) :
    h.load (incoming.after as) = .ok bs.head? := by
  induction as generalizing incoming p with
  | nil =>
    rw [Incoming.after, hload, hpath.head_eq, List.nil_append]
  | cons a as ih => exact ih (load_next h a) hpath.2

theorem search_at (hload : h.load incoming = .ok (some x)) :
    h.search key eq (fuel + 1) incoming =
      if h.hits key eq x then .ok (some incoming) else h.search key eq fuel (.next x) := by
  rw [Heap.search, hload]
  rfl

theorem search_end (hload : h.load incoming = .ok none) :
    h.search key eq (fuel + 1) incoming = .ok none := by
  rw [Heap.search, hload]
  rfl

/-- The search returns the incoming pointer of the first node that matches. -/
theorem search_found (hload : h.load incoming = .ok p)
    (hpath : Path h.next p (as ++ x :: bs) none) (has : ∀ a ∈ as, h.hits key eq a = false)
    (hx : h.hits key eq x = true) (hfuel : as.length < fuel) :
    h.search key eq fuel incoming = .ok (some (incoming.after as)) := by
  induction as generalizing incoming p fuel with
  | nil =>
    obtain ⟨fuel, rfl⟩ := Nat.exists_eq_add_one_of_ne_zero (Nat.ne_zero_of_lt hfuel)
    obtain ⟨rfl, -⟩ := hpath
    rw [search_at hload, if_pos hx, Incoming.after]
  | cons a as ih =>
    obtain ⟨fuel, rfl⟩ := Nat.exists_eq_add_one_of_ne_zero (Nat.ne_zero_of_lt hfuel)
    obtain ⟨rfl, hrest⟩ := hpath
    rw [search_at hload, if_neg (by simp [has a]), Incoming.after]
    exact ih (load_next h a) hrest (fun b hb => has b (by simp [hb])) (by simpa using hfuel)

/-- The search ends at the end of a chain without a match. -/
theorem search_absent (hload : h.load incoming = .ok p) (hpath : Path h.next p xs none)
    (hxs : ∀ x ∈ xs, h.hits key eq x = false) (hfuel : xs.length < fuel) :
    h.search key eq fuel incoming = .ok none := by
  induction xs generalizing incoming p fuel with
  | nil =>
    obtain ⟨fuel, rfl⟩ := Nat.exists_eq_add_one_of_ne_zero (Nat.ne_zero_of_lt hfuel)
    obtain rfl := path_nil.mp hpath
    exact search_end hload
  | cons x xs ih =>
    obtain ⟨fuel, rfl⟩ := Nat.exists_eq_add_one_of_ne_zero (Nat.ne_zero_of_lt hfuel)
    obtain ⟨rfl, hrest⟩ := hpath
    rw [search_at hload, if_neg (by simp [hxs x])]
    exact ih (load_next h x) hrest (fun y hy => hxs y (by simp [hy])) (by simpa using hfuel)

end Searching

section Chains
variable {n : TableSize} {h h' : Heap ι} {present : List ι} {key node x : ι}
  {eq : ι → ι → Bool} {slots : Array (Option ι)} {pos q : ℕ}

theorem Represents.pos_lt (hr : Represents n h present) (node : ι) : h.pos node < n.n.toNat := by
  have hle : h.pos node ≤ h.hmap.mask.toNat := by
    rw [Heap.pos, BitVec.toNat_and]
    exact Nat.and_le_right
  rw [hr.masked] at hle
  exact Nat.lt_of_le_of_lt hle n.mask_lt

@[simp] theorem setMap_next (h : Heap ι) (map : Slots ι) : (h.setMap map).next = h.next := rfl

@[simp] theorem setMap_pos (h : Heap ι) (map : Slots ι) : (h.setMap map).pos = h.pos := rfl

@[simp] theorem setSize_next (h : Heap ι) (size : ℕ) : (h.setSize size).next = h.next := rfl

@[simp] theorem setSize_pos (h : Heap ι) (size : ℕ) : (h.setSize size).pos = h.pos := rfl

theorem chain_congr (hpos : ∀ x ∈ present, h'.pos x = h.pos x) :
    h'.chain present pos = h.chain present pos := by
  apply List.filter_congr
  intro x hx
  rw [hpos x hx]

theorem mem_chain : x ∈ h.chain present pos ↔ x ∈ present ∧ h.pos x = pos := by
  simp [Heap.chain]

theorem chain_erase [DecidableEq ι] :
    h.chain (present.erase x) pos = (h.chain present pos).erase x :=
  List.erase_filter.symm

/-- A node that matches is in the slot of the key. -/
theorem pos_of_hits (hx : h.hits key eq x = true) : h.pos x = h.pos key := by
  obtain ⟨hcode, -⟩ := Bool.and_eq_true_iff.mp hx
  rw [Heap.pos, Heap.pos, eq_of_beq hcode]

theorem chain_find : (h.chain present (h.pos key)).find? (h.hits key eq) =
    present.find? (h.hits key eq) := by
  rw [Heap.chain, List.find?_filter]
  congr 1
  funext x
  cases hx : h.hits key eq x with
  | false => simp
  | true => simp [pos_of_hits hx]

theorem load_slot (hmap : h.hmap.map = .allocated slots) (hpos : pos < slots.size) :
    h.load (.slot pos) = .ok slots[pos] := by
  simp [Heap.load, hmap, Slots.get, hpos, bind, Except.bind, pure, Except.pure]

/-- `lookup_` returns the incoming pointer of the most recent node that matches. -/
theorem Represents.lookup_ (hr : Represents n h present) (key : ι) (eq : ι → ι → Bool) :
    (present.find? (h.hits key eq) = none ∧ h.lookup_ key eq = .ok none) ∨
      ∃ x as bs, present.find? (h.hits key eq) = some x ∧
        h.chain present (h.pos key) = as ++ x :: bs ∧
        h.lookup_ key eq = .ok (some ((Incoming.slot (h.pos key)).after as)) := by
  obtain ⟨slots, hmap, hsize, hpaths⟩ := hr.chains
  have hlt : h.pos key < slots.size := hsize ▸ hr.pos_lt key
  have hload := load_slot hmap hlt
  have hpath := hpaths _ hlt
  have hlength : (h.chain present (h.pos key)).length < h.hmap.size + 1 := by
    have hle := List.length_filter_le (fun node => h.pos node == h.pos key) present
    have hcount : h.hmap.size = present.length := hr.counted
    rw [Heap.chain]
    omega
  have hsearch : h.lookup_ key eq = h.search key eq (h.hmap.size + 1) (.slot (h.pos key)) := by
    rw [Heap.lookup_, hmap]
  rw [hsearch, ← chain_find]
  cases hfind : (h.chain present (h.pos key)).find? (h.hits key eq) with
  | none =>
    have hmiss : ∀ x ∈ h.chain present (h.pos key), h.hits key eq x = false := by
      simpa using hfind
    exact .inl ⟨rfl, search_absent hload hpath hmiss hlength⟩
  | some x =>
    obtain ⟨hx, as, bs, hchain, has⟩ := List.find?_eq_some_iff_append.mp hfind
    rw [hchain] at hpath hlength
    refine .inr ⟨x, as, bs, rfl, hchain, search_found hload hpath (by simpa using has) hx ?_⟩
    simp only [List.length_append] at hlength
    omega

/-- `lookup` returns the most recent node that matches. -/
theorem Represents.lookup (hr : Represents n h present) (key : ι) (eq : ι → ι → Bool) :
    h.lookup key eq = .ok (present.find? (h.hits key eq)) := by
  obtain ⟨slots, hmap, hsize, hpaths⟩ := hr.chains
  have hlt : h.pos key < slots.size := hsize ▸ hr.pos_lt key
  unfold Heap.lookup
  rcases hr.lookup_ key eq with ⟨hfind, hlookup⟩ | ⟨x, as, bs, hfind, hchain, hlookup⟩
  · rw [hlookup, hfind]
    rfl
  · have hpath := hpaths _ hlt
    rw [hchain] at hpath
    rw [hlookup, hfind]
    exact load_after (load_slot hmap hlt) hpath

theorem represents_construct (n : TableSize) :
    Represents n ⟨fun _ : ι => {}, construct n true⟩ [] :=
  ⟨List.nodup_nil, rfl, rfl, _, rfl, Array.size_replicate, fun pos hpos => by
    simp [Heap.chain]⟩

end Chains

section Updates
variable [DecidableEq ι] {n : TableSize} {h h' : Heap ι} {present : List ι} {node x : ι}
  {as bs : List ι} {slots : Array (Option ι)} {pos : ℕ}

/-- A client's store to a node outside the table. -/
theorem Represents.write (hr : Represents n h present) (hnode : node ∉ present)
    (value : HNode ι) :
    Represents n { h with nodes := Function.update h.nodes node value } present := by
  obtain ⟨hdistinct, hcounted, hmasked, slots, hmap, hsize, hpaths⟩ := hr
  have hkept : ∀ x ∈ present, Function.update h.nodes node value x = h.nodes x := by
    intro x hx
    apply Function.update_of_ne
    rintro rfl
    exact hnode hx
  refine ⟨hdistinct, hcounted, hmasked, slots, hmap, hsize, fun pos hpos => ?_⟩
  rw [chain_congr (h := h) fun x hx => by simp only [Heap.pos, hkept x hx]]
  apply (hpaths pos hpos).congr
  intro x hx
  simp only [Heap.next, hkept x (mem_chain.mp hx).1]

@[simp] theorem setNext_next (h : Heap ι) (node : ι) (p : Option ι) :
    (h.setNext node p).next = Function.update h.next node p := by
  funext x
  by_cases hx : x = node
  · subst hx
    simp [Heap.next, Heap.setNext]
  · simp [Heap.next, Heap.setNext, hx]

@[simp] theorem setNext_hcode (h : Heap ι) (node : ι) (p : Option ι) (x : ι) :
    ((h.setNext node p).nodes x).hcode = (h.nodes x).hcode := by
  by_cases hx : x = node
  · subst hx
    simp [Heap.setNext]
  · simp [Heap.setNext, hx]

@[simp] theorem setNext_pos (h : Heap ι) (node : ι) (p : Option ι) :
    (h.setNext node p).pos = h.pos := by
  funext x
  rw [Heap.pos, setNext_hcode]
  rfl

theorem insert_eq (hmap : h.hmap.map = .allocated slots) (hpos : h.pos node < slots.size) :
    h.insert node = .ok (((h.setNext node slots[h.pos node]).setMap
      (.allocated (slots.setIfInBounds (h.pos node) (some node)))).setSize (h.hmap.size + 1)) := by
  unfold Heap.insert Heap.insert_
  rw [load_slot hmap hpos]
  have hslots : (h.setNext node slots[h.pos node]).hmap.map = .allocated slots := hmap
  simp [Heap.store, hslots, hpos, Slots.get, bind, Except.bind, pure, Except.pure]
  rfl

theorem detach_slot (hmap : h.hmap.map = .allocated slots) (hpos : pos < slots.size)
    (hx : slots[pos] = some x) : h.detach_ (.slot pos) =
      .ok (x, (h.setMap (.allocated (slots.setIfInBounds pos (h.next x)))).setSize
        (h.hmap.size - 1)) := by
  unfold Heap.detach_
  rw [load_slot hmap hpos, hx]
  simp [Heap.store, hmap, hpos, Slots.get, bind, Except.bind, pure, Except.pure]
  rfl

theorem detach_next {a : ι} (hx : h.next a = some x) : h.detach_ (.next a) =
    .ok (x, (h.setNext a (h.next x)).setSize (h.hmap.size - 1)) := by
  unfold Heap.detach_
  rw [load_next, hx]
  rfl

/-- A new node becomes the head of its chain. -/
theorem Represents.insert (hr : Represents n h present) (hnode : node ∉ present) :
    ∃ h', h.insert node = .ok h' ∧ Represents n h' (node :: present) ∧ h'.SameCodes h := by
  have hlt := hr.pos_lt node
  obtain ⟨hdistinct, hcounted, hmasked, slots, hmap, hsize, hpaths⟩ := hr
  rw [← hsize] at hlt
  refine ⟨_, insert_eq hmap hlt, ⟨List.nodup_cons.mpr ⟨hnode, hdistinct⟩,
    congrArg (· + 1) hcounted, hmasked, _, rfl, by simpa using hsize, fun pos hpos => ?_⟩,
    setNext_hcode h node _⟩
  rw [Array.size_setIfInBounds] at hpos
  have hnotin (q : ℕ) : node ∉ h.chain present q := fun hm => hnode (mem_chain.mp hm).1
  rw [chain_congr (h := h) fun x _ => by simp]
  simp only [setSize_next, setMap_next, setNext_next, Array.getElem_setIfInBounds hpos]
  by_cases hq : h.pos node = pos
  · subst hq
    rw [if_pos rfl, Heap.chain, List.filter_cons_of_pos (by simp)]
    refine ⟨rfl, ?_⟩
    rw [Function.update_self]
    exact (hpaths _ hlt).update_notMem (hnotin _) _
  · rw [if_neg hq, Heap.chain, List.filter_cons_of_neg (by simpa using hq)]
    exact (hpaths pos hpos).update_notMem (hnotin pos) _

/-- Taking out one node shortens its chain only. -/
theorem chain_erase_of_ne (hx : h.pos x ≠ pos) :
    h.chain (present.erase x) pos = h.chain present pos := by
  rw [chain_erase]
  apply List.erase_of_not_mem
  exact fun hm => hx (mem_chain.mp hm).2

/-- The slot, or the node before it, takes over the link of the node that is detached. -/
theorem Represents.detach (hr : Represents n h present) (hpos : pos < n.n.toNat)
    (hchain : h.chain present pos = as ++ x :: bs) :
    ∃ h', h.detach_ ((Incoming.slot pos).after as) = .ok (x, h') ∧
      Represents n h' (present.erase x) ∧ h'.SameCodes h := by
  obtain ⟨hdistinct, hcounted, hmasked, slots, hmap, hsize, hpaths⟩ := hr
  rw [← hsize] at hpos
  have hpath := hpaths pos hpos
  have hmem : x ∈ present ∧ h.pos x = pos := mem_chain.mp (by simp [hchain])
  have hshort : h.size - 1 = (present.erase x).length := by
    rw [List.length_erase_of_mem hmem.1, hcounted]
  rw [hchain] at hpath
  have hnotin : x ∉ as := fun hm => (List.nodup_append.mp hpath.nodup).2.2 x hm x (by simp) rfl
  have hrest : h.chain (present.erase x) pos = as ++ bs := by
    rw [chain_erase, hchain, List.erase_append_right _ hnotin, List.erase_cons_head]
  rcases List.eq_nil_or_concat as with rfl | ⟨as, a, rfl⟩
  · obtain ⟨hhead, htail⟩ := hpath
    refine ⟨_, detach_slot hmap hpos hhead, ⟨hdistinct.erase x, hshort, hmasked, _, rfl,
      by simpa using hsize, fun q hq => ?_⟩, fun _ => rfl⟩
    rw [Array.size_setIfInBounds] at hq
    rw [chain_congr (h := h) fun x _ => by simp]
    simp only [setSize_next, setMap_next, Array.getElem_setIfInBounds hq]
    by_cases hqp : pos = q
    · subst hqp
      rwa [if_pos rfl, hrest]
    · rw [if_neg hqp, chain_erase_of_ne (hmem.2 ▸ hqp)]
      exact hpaths q hq
  · rw [List.concat_eq_append] at hpath hrest hchain ⊢
    have hlink : h.next a = some x := by
      obtain ⟨r, hfront, hr, -⟩ := path_append.mp hpath
      rw [(path_concat.mp hfront).2, hr]
    have ha : h.pos a = pos := (mem_chain.mp (by simp [hchain] : a ∈ h.chain present pos)).2
    rw [after_concat]
    refine ⟨_, detach_next hlink, ⟨hdistinct.erase x, hshort, hmasked, slots, hmap, hsize,
      fun q hq => ?_⟩, setNext_hcode h a _⟩
    rw [chain_congr (h := h) fun x _ => by simp, setSize_next, setNext_next]
    by_cases hqp : pos = q
    · subst hqp
      rw [hrest]
      exact hpath.unlink
    · rw [chain_erase_of_ne (hmem.2 ▸ hqp)]
      exact (hpaths q hq).update_notMem (fun hm => hqp (ha ▸ (mem_chain.mp hm).2)) _

/-- `remove` takes out the node that `lookup` finds. -/
theorem Represents.remove (hr : Represents n h present) (key : ι) (eq : ι → ι → Bool) :
    ∃ h', h.remove key eq = .ok (present.find? (h.hits key eq), h') ∧
      Represents n h' (takeBack present (present.find? (h.hits key eq))) ∧ h'.SameCodes h := by
  unfold Heap.remove
  rcases hr.lookup_ key eq with ⟨hfind, hlookup⟩ | ⟨x, as, bs, hfind, hchain, hlookup⟩
  · rw [hlookup, hfind]
    exact ⟨h, rfl, hr, fun _ => rfl⟩
  · obtain ⟨h', hdetach, hr', hcodes⟩ := hr.detach (hr.pos_lt key) hchain
    rw [hlookup, hfind]
    refine ⟨h', ?_, hr', hcodes⟩
    simp only [bind, Except.bind, hdetach]
    rfl

end Updates

/-- The client uses the map; it neither clears nor destroys it. -/
def Uses (_ : State ι) : Act ι → Prop
  | .clear | .destroy => False
  | .write _ _ | .insert _ | .lookup _ _ | .remove _ _ | .size => True

instance (s : State ι) : (act : Act ι) → Decidable (Uses s act)
  | .clear | .destroy => .isFalse id
  | .write _ _ | .insert _ | .lookup _ _ | .remove _ _ | .size => .isTrue trivial

section Runs
variable [DecidableEq ι] {n : TableSize} {s s' : State ι} {log evs : List (Event ι)} {act : Act ι}

theorem Represents.step (hr : Represents n s.heap s.present) (huses : Uses s act)
    (hs : step s act = some (s', evs)) :
    Represents n s'.heap s'.present ∧ ∀ f, .fault f ∉ evs := by
  unfold IntrusiveHashMap.step at hs
  split at hs
  · cases hs
  cases act with
  | write node value =>
    simp only at hs
    split at hs
    · cases hs
    · cases hs
      exact ⟨hr.write ‹_› value, by simp⟩
  | insert node =>
    simp only at hs
    split at hs
    · cases hs
    · rename_i hnode
      obtain ⟨h', hinsert, hr', -⟩ := hr.insert hnode
      simp only [State.call, hinsert] at hs
      cases hs
      exact ⟨hr', by simp⟩
  | lookup key eq =>
    simp only [State.call, hr.lookup key eq] at hs
    cases hs
    exact ⟨hr, by simp⟩
  | remove key eq =>
    obtain ⟨h', hremove, hr', -⟩ := hr.remove key eq
    simp only [State.call, hremove] at hs
    cases hs
    exact ⟨hr', by simp⟩
  | size =>
    cases hs
    exact ⟨hr, by simp⟩
  | clear => exact huses.elim
  | destroy => exact huses.elim

theorem represents_of_run (hrun : (system ι n true).RunWhere Uses s log) :
    Represents n s.heap s.present ∧ ∀ f, .fault f ∉ log := by
  refine hrun.invariant
    (I := fun s log => Represents n s.heap s.present ∧ ∀ f, .fault f ∉ log)
    ⟨represents_construct n, by simp⟩ fun s log act s' evs _ ih huses hs => ?_
  obtain ⟨hr, hevs⟩ := ih.1.step huses hs
  refine ⟨hr, fun f hf => ?_⟩
  rcases List.mem_append.mp hf with hf | hf
  · exact ih.2 f hf
  · exact hevs f hf

/-- The map is the list of its nodes by recency. The chain of each slot ends, visits no node
twice, and consists of the nodes present that belong to the slot, so that no node is in two chains;
`size` counts them; `lookup` returns the most recently inserted node that matches; `remove` returns
the same node and takes it and nothing else out of the list, and `insert` puts its node in front. -/
theorem map_is_recency_list (hrun : (system ι n true).RunWhere Uses s log) :
    (∀ f, .fault f ∉ log) ∧ s.present.Nodup ∧ s.heap.size = s.present.length ∧
      (∃ slots, s.heap.hmap.map = .allocated slots ∧ slots.size = n.n.toNat ∧
        ∀ pos (hpos : pos < slots.size),
          Path s.heap.next slots[pos] (s.heap.chain s.present pos) none ∧
          (s.heap.chain s.present pos).Nodup ∧
          ∀ q ≠ pos, (s.heap.chain s.present pos).Disjoint (s.heap.chain s.present q)) ∧
      (∀ key eq, s.heap.lookup key eq = .ok (s.present.find? (s.heap.hits key eq))) ∧
      (∀ key eq, ∃ heap, s.heap.remove key eq = .ok (s.present.find? (s.heap.hits key eq), heap) ∧
        Represents n heap (takeBack s.present (s.present.find? (s.heap.hits key eq))) ∧
        heap.SameCodes s.heap) ∧
      ∀ node ∉ s.present, ∃ heap, s.heap.insert node = .ok heap ∧
        Represents n heap (node :: s.present) ∧ heap.SameCodes s.heap := by
  obtain ⟨hr, hfaults⟩ := represents_of_run hrun
  obtain ⟨slots, hmap, hsize, hpaths⟩ := hr.chains
  refine ⟨hfaults, hr.distinct, hr.counted, ⟨slots, hmap, hsize, fun pos hpos => ?_⟩, hr.lookup,
    hr.remove, fun node => hr.insert⟩
  refine ⟨hpaths pos hpos, hr.distinct.filter _, fun q hq x hx hxq => hq ?_⟩
  rw [← (mem_chain.mp hx).2, (mem_chain.mp hxq).2]

end Runs

def fourSlots : TableSize := ⟨4, by decide⟩

/-- Two nodes with one code and one that collides with them; the older duplicate is found again
when the younger one is removed. -/
def duplicates : List (Act ℕ) :=
  [.write 1 ⟨none, 5⟩, .write 2 ⟨some 9, 9⟩, .write 3 ⟨none, 5⟩, .write 7 ⟨none, 5⟩, .insert 1,
    .insert 2, .insert 3, .lookup 7 fun _ _ => true, .remove 7 fun _ _ => true,
    .lookup 7 fun _ _ => true]

theorem map_is_recency_list_duplicates :
    ∃ s log, (system ℕ fourSlots true).RunWhere Uses s log ∧ .removed 7 (some 3) ∈ log ∧
      .found 7 (some 1) ∈ log ∧ s.heap.size = s.present.length := by
  obtain ⟨s, log, hrun, hq⟩ := (system ℕ fourSlots true).exists_run_of_exec Uses duplicates
    (fun _ log => decide (.removed 7 (some 3) ∈ log ∧ .found 7 (some 1) ∈ log)) (by decide +kernel)
  obtain ⟨hremoved, hfound⟩ := of_decide_eq_true hq
  exact ⟨s, log, hrun, hremoved, hfound, (map_is_recency_list hrun).2.2.1⟩

end IntrusiveHashMap
