import LowLevelCpp.Foundations.Programs
import LowLevelCpp.Knocker.IntrusiveList

/-!
The in-flight list with the numbers of the source as links: `-1` means no neighbour, and every
other link is an index into the table. Entries outside the list hold whatever links they were left
with. The list on numbers encodes the one on optional indices.
-/
namespace Knocker.Flat
open Foundations Foundations.Outcome Foundations.System

structure Connection where
  active : Bool := false
  port : ℤ := -1
  start_time : ℤ := 0
  next : ℤ := -1
  prev : ℤ := -1

structure ConnList where
  head : ℤ := -1
  tail : ℤ := -1

/-- The table and the list; the entries past `size` are never used. -/
structure Store where
  size : ℕ
  get : ℤ → Connection
  in_flight : ConnList

namespace Store

/-- The table has an entry at this index. -/
def Bounds (s : Store) (i : ℤ) : Prop := 0 ≤ i ∧ i < s.size

instance (s : Store) (i : ℤ) : Decidable (s.Bounds i) := inferInstanceAs (Decidable (_ ∧ _))

def set (s : Store) (i : ℤ) (f : Connection → Connection) : Store :=
  { s with get := Function.update s.get i (f (s.get i)) }

section Access
variable {s : Store} {i j : ℤ} {f g : Connection → Connection}

@[simp] theorem set_in_flight : (s.set i f).in_flight = s.in_flight := rfl

@[simp] theorem set_self : (s.set i f).get i = f (s.get i) := by simp [set]

@[simp] theorem set_of_ne (h : j ≠ i) : (s.set i f).get j = s.get j := by simp [set, h]

theorem set_set : (s.set i f).set i g = s.set i (g ∘ f) := by
  simp [set]

end Access
end Store

/-- `table[i]` with a write to it; past the ends of the table nothing is defined any more. -/
def access (i : ℤ) (f : Connection → Connection) (s : Store) : Outcome Store ℤ :=
  if s.Bounds i then ⟨s.set i f, [i], false⟩ else ⟨s, [i], true⟩

/-- `table[i]` without a write. -/
def touch (i : ℤ) (s : Store) : Outcome Store ℤ := ⟨s, [i], !decide (s.Bounds i)⟩

/-- `list_insert_tail` -/
def listInsertTail (fd : ℤ) (s : Store) : Outcome Store ℤ :=
  (access fd (fun c => { c with prev := s.in_flight.tail }) s).andThen fun s =>
    (access fd (fun c => { c with next := -1 }) s).andThen fun s =>
      if s.in_flight.tail = -1 then done { s with in_flight := ⟨fd, fd⟩ }
      else
        (access s.in_flight.tail (fun c => { c with next := fd }) s).andThen fun s =>
          done { s with in_flight.tail := fd }

/-- `list_unlink` behind its two reads. -/
def unlinkBetween (p n : ℤ) (s : Store) : Outcome Store ℤ :=
  if p = -1 ∧ n = -1 then done { s with in_flight := ⟨-1, -1⟩ }
  else if p = -1 then
    access n (fun c => { c with prev := -1 }) { s with in_flight.head := n }
  else if n = -1 then
    access p (fun c => { c with next := -1 }) { s with in_flight.tail := p }
  else
    (access p (fun c => { c with next := n }) s).andThen
      (access n fun c => { c with prev := p })

/-- `list_unlink` -/
def listUnlink (fd : ℤ) (s : Store) : Outcome Store ℤ :=
  (touch fd s).andThen fun s =>
    let p := (s.get fd).prev
    (touch fd s).andThen fun s =>
      let n := (s.get fd).next
      unlinkBetween p n s

section Programs
variable {s : Store} {i : ℤ} {f : Connection → Connection}

theorem access_ends (hi : s.Bounds i) : (access i f s).Ends (s.set i f) := by
  rw [access, if_pos hi]
  exact ⟨rfl, rfl⟩

theorem touch_ends (hi : s.Bounds i) : (touch i s).Ends s := ⟨by simp [touch, hi], rfl⟩

end Programs

/-- An optional index as a link. -/
def encode : Option ℕ → ℤ
  | none => -1
  | some n => n

/-- A link that is not `-1`. -/
def ptr (link : ℤ) : Option ℤ := if link = -1 then none else some link

@[simp] theorem encode_none : encode none = -1 := rfl

@[simp] theorem encode_some (n : ℕ) : encode (some n) = n := rfl

@[simp] theorem natCast_ne_neg_one (n : ℕ) : (n : ℤ) ≠ -1 := by omega

@[simp] theorem ptr_encode (p : Option ℕ) : ptr (encode p) = p.map Nat.cast := by
  cases p with
  | none => rfl
  | some n => exact if_neg (by simp)

theorem encode_eq_neg_one {p : Option ℕ} : encode p = -1 ↔ p = none := by
  cases p with
  | none => simp [encode]
  | some n => simp [encode]

/-- The four cases of `list_unlink`. -/
theorem unlinkBetween_only (s : Store) :
    unlinkBetween (-1) (-1) s = done { s with in_flight := ⟨-1, -1⟩ } := rfl

theorem unlinkBetween_first (n : ℕ) (s : Store) : unlinkBetween (-1) n s =
    access n (fun c => { c with prev := -1 }) { s with in_flight.head := n } := by
  rw [unlinkBetween, if_neg (by simp), if_pos rfl]

theorem unlinkBetween_last (p : ℕ) (s : Store) : unlinkBetween p (-1) s =
    access p (fun c => { c with next := -1 }) { s with in_flight.tail := p } := by
  rw [unlinkBetween, if_neg (by simp), if_neg (by simp), if_pos rfl]

theorem unlinkBetween_inner (p n : ℕ) (s : Store) : unlinkBetween p n s =
    (access p (fun c => { c with next := n }) s).andThen
      (access n fun c => { c with prev := p }) := by
  rw [unlinkBetween, if_neg (by simp), if_neg (by simp), if_neg (by simp)]

/-- The list and the links of its members, encoded. -/
structure Encodes (s : Store) (table : Table) (list : Knocker.ConnList) (xs : List ℕ) :
    Prop where
  size : s.size = table.size
  head : s.in_flight.head = encode list.head
  tail : s.in_flight.tail = encode list.tail
  next : ∀ x ∈ xs, (s.get x).next = encode (table.get x).next
  prev : ∀ x ∈ xs, (s.get x).prev = encode (table.get x).prev

/-- Only entries of `xs` differ. -/
def SameOutside (xs : List ℕ) (s s' : Store) : Prop :=
  ∀ i : ℤ, (∀ x ∈ xs, (x : ℤ) ≠ i) → s'.get i = s.get i

section Encoding
variable {s : Store} {table : Table} {list list' : Knocker.ConnList} {xs ys as bs : List ℕ} {fd : ℕ}

theorem Encodes.bounds (he : Encodes s table list xs) {i : ℕ} (hi : i < table.size) :
    s.Bounds i := by
  have hsize := he.size
  unfold Store.Bounds
  omega

/-- A write of the same links to both tables. -/
theorem Encodes.set (he : Encodes s table list xs) (i : ℕ) {f : Connection → Connection}
    {g : Knocker.Connection → Knocker.Connection}
    (hnext : (f (s.get i)).next = encode (g (table.get i)).next)
    (hprev : (f (s.get i)).prev = encode (g (table.get i)).prev) :
    Encodes (s.set i f) (table.set i g) list (i :: xs) := by
  refine ⟨he.size, he.head, he.tail, fun x hx => ?_, fun x hx => ?_⟩
  · by_cases hxi : x = i
    · subst hxi
      simpa using hnext
    · have hne : (x : ℤ) ≠ i := by omega
      simpa [hxi, hne] using he.next x ((List.mem_cons.mp hx).resolve_left hxi)
  · by_cases hxi : x = i
    · subst hxi
      simpa using hprev
    · have hne : (x : ℤ) ≠ i := by omega
      simpa [hxi, hne] using he.prev x ((List.mem_cons.mp hx).resolve_left hxi)

theorem Encodes.subset (he : Encodes s table list xs) (hys : ys ⊆ xs) :
    Encodes s table list ys :=
  ⟨he.size, he.head, he.tail, fun x hx => he.next x (hys hx), fun x hx => he.prev x (hys hx)⟩

/-- The same change of both list heads. -/
theorem Encodes.withList (he : Encodes s table list xs) (in_flight : ConnList)
    (hhead : in_flight.head = encode list'.head) (htail : in_flight.tail = encode list'.tail) :
    Encodes { s with in_flight } table list' xs :=
  ⟨he.size, hhead, htail, he.next, he.prev⟩

theorem sameOutside_set {i : ℕ} (hi : i ∈ xs) (f : Connection → Connection) :
    SameOutside xs s (s.set i f) :=
  fun _ hj => Store.set_of_ne (hj i hi).symm

theorem SameOutside.trans {s' s'' : Store} (h : SameOutside xs s s') (h' : SameOutside xs s' s'') :
    SameOutside xs s s'' :=
  fun i hi => (h' i hi).trans (h i hi)

theorem SameOutside.withList {s' : Store} (h : SameOutside xs s s') (in_flight : ConnList) :
    SameOutside xs s { s' with in_flight } := h

theorem Encodes.insert (he : Encodes s table list xs) (h : Represents table list xs)
    (hfd : fd ∉ xs) (hsize : fd < table.size) :
    ∃ s' table' list', (listInsertTail fd s).Ends s' ∧ Encodes s' table' list' (xs ++ [fd]) ∧
      Represents table' list' (xs ++ [fd]) ∧ SameOutside (xs ++ [fd]) s s' := by
  obtain ⟨table', list', hins, hrep, -⟩ := listInsertTail_spec h hfd hsize
  have hmem : fd ∈ xs ++ [fd] := by simp
  have he₁ : Encodes (s.set fd ((fun c => { c with next := -1 }) ∘
        fun c => { c with prev := s.in_flight.tail }))
      (table.set fd fun c => { c with prev := list.tail, next := none }) list (fd :: xs) :=
    he.set fd rfl he.tail
  have hsub : xs ++ [fd] ⊆ fd :: xs := by simp [List.append_subset]
  have hfirst := access_ends (f := fun c => { c with prev := s.in_flight.tail }) (he.bounds hsize)
  have hsecond := access_ends (s := s.set fd fun c => { c with prev := s.in_flight.tail })
    (f := fun c => { c with next := -1 }) (he.bounds hsize)
  rw [Store.set_set] at hsecond
  cases htail : list.tail with
  | none =>
    have hflat : s.in_flight.tail = -1 := by rw [he.tail, htail, encode]
    simp only [Knocker.listInsertTail, Table.modify_of_lt hsize, htail, Option.bind_eq_bind,
      Option.bind_some, Option.pure_def, Option.some.injEq, Prod.mk.injEq] at hins
    obtain ⟨rfl, rfl⟩ := hins
    rw [htail] at he₁
    refine ⟨_, _, _, hfirst.andThen (hsecond.andThen ?_),
      (he₁.subset hsub).withList ⟨fd, fd⟩ rfl rfl, hrep,
      (sameOutside_set hmem _).withList ⟨fd, fd⟩⟩
    rw [Store.set_in_flight, if_pos hflat]
    exact ends_done _
  | some t =>
    have hflat : s.in_flight.tail = t := by rw [he.tail, htail, encode]
    have hlast : xs.reverse.head? = some t := by rw [← h.backward.head_eq, htail]
    have ht : t ∈ xs := by simpa using List.mem_of_mem_head? (Option.mem_def.mpr hlast)
    have hts := h.inTable t ht
    simp only [Knocker.listInsertTail, Table.modify_of_lt hsize, htail, Option.bind_eq_bind,
      Option.bind_some, Table.modify_set_of_lt hts, Option.pure_def, Option.some.injEq,
      Prod.mk.injEq] at hins
    obtain ⟨rfl, rfl⟩ := hins
    rw [htail] at he₁
    have he₂ := he₁.set t (f := fun c => { c with next := (fd : ℤ) })
      (g := fun c => { c with next := some fd }) rfl (he₁.prev t (List.mem_cons_of_mem _ ht))
    have hne : ¬ s.in_flight.tail = -1 := by omega
    refine ⟨_, _, { list with tail := some fd }, hfirst.andThen (hsecond.andThen ?_),
      (he₂.subset (List.subset_cons_of_subset _ hsub)).withList ⟨s.in_flight.head, fd⟩ he.head rfl,
      hrep, ((sameOutside_set hmem _).trans
        (sameOutside_set (List.mem_append_left _ ht) _)).withList ⟨s.in_flight.head, fd⟩⟩
    rw [Store.set_in_flight, if_neg hne, hflat]
    exact Ends.andThen (access_ends (s := s.set fd _) (he.bounds hts)) (ends_done _)

/-- Between two members, or a member and an end of the list, the links and the ends are joined. -/
theorem Encodes.unlink (he : Encodes s table list (as ++ fd :: bs))
    (h : Represents table list (as ++ fd :: bs)) :
    ∃ s' table' list', (listUnlink fd s).Ends s' ∧ Encodes s' table' list' (as ++ bs) ∧
      Represents table' list' (as ++ bs) ∧ SameOutside (as ++ bs) s s' := by
  obtain ⟨table', list', hun, hrep, -⟩ := listUnlink_spec h
  have hback : Path table.prev list.tail (bs.reverse ++ fd :: as.reverse) none := by
    simpa using h.backward
  have hprev : (table.get fd).prev = as.reverse.head? := hback.link_eq
  have hnext : (table.get fd).next = bs.head? := h.forward.link_eq
  have hfd : fd < table.size := h.inTable fd (by simp)
  have hread := touch_ends (he.bounds hfd)
  have hp := he.prev fd (by simp)
  have hn := he.next fd (by simp)
  have hsub : as ++ bs ⊆ as ++ fd :: bs := by simp
  have hrest := he.subset hsub
  have hin (x : ℕ) (hx : x ∈ as ++ bs) : x < table.size := h.inTable x (hsub hx)
  suffices hjoin : ∃ s', (unlinkBetween (s.get fd).prev (s.get fd).next s).Ends s' ∧
      Encodes s' table' list' (as ++ bs) ∧ SameOutside (as ++ bs) s s' by
    obtain ⟨s', hends, he', hsame⟩ := hjoin
    exact ⟨s', table', list', hread.andThen (hread.andThen hends), he', hrep, hsame⟩
  simp only [Knocker.listUnlink, Table.read_of_lt hfd, Option.bind_eq_bind, Option.bind_some,
    hprev, hnext] at hun
  rw [hp, hn, hprev, hnext]
  cases hps : as.reverse.head? with
  | none =>
    cases hns : bs.head? with
    | none =>
      simp only [hps, hns, Option.pure_def, Option.some.injEq, Prod.mk.injEq] at hun
      obtain ⟨rfl, rfl⟩ := hun
      rw [encode_none, unlinkBetween_only]
      exact ⟨_, ends_done _, hrest.withList ⟨-1, -1⟩ rfl rfl, fun _ _ => rfl⟩
    | some n =>
      have hmem : n ∈ as ++ bs :=
        List.mem_append_right _ (List.mem_of_mem_head? (Option.mem_def.mpr hns))
      simp only [hps, hns, Table.modify_of_lt (hin n hmem), Option.bind_some, Option.pure_def,
        Option.some.injEq, Prod.mk.injEq] at hun
      obtain ⟨rfl, rfl⟩ := hun
      have he₁ := hrest.set n (f := fun c => { c with prev := -1 })
        (g := fun c => { c with prev := none }) (hrest.next n hmem) rfl
      rw [encode_none, encode_some, unlinkBetween_first]
      exact ⟨_, access_ends (he.bounds (hin n hmem)),
        (he₁.subset (List.subset_cons_self ..)).withList ⟨n, s.in_flight.tail⟩ rfl he.tail,
        sameOutside_set hmem _⟩
  | some p =>
    have hmemp : p ∈ as ++ bs := List.mem_append_left _
      (by simpa using List.mem_of_mem_head? (Option.mem_def.mpr hps))
    cases hns : bs.head? with
    | none =>
      simp only [hps, hns, Table.modify_of_lt (hin p hmemp), Option.bind_some, Option.pure_def,
        Option.some.injEq, Prod.mk.injEq] at hun
      obtain ⟨rfl, rfl⟩ := hun
      have he₁ := hrest.set p (f := fun c => { c with next := -1 })
        (g := fun c => { c with next := none }) rfl (hrest.prev p hmemp)
      rw [encode_none, encode_some, unlinkBetween_last]
      exact ⟨_, access_ends (he.bounds (hin p hmemp)),
        (he₁.subset (List.subset_cons_self ..)).withList ⟨s.in_flight.head, p⟩ he.head rfl,
        sameOutside_set hmemp _⟩
    | some n =>
      have hmem : n ∈ as ++ bs :=
        List.mem_append_right _ (List.mem_of_mem_head? (Option.mem_def.mpr hns))
      simp only [hps, hns, Table.modify_of_lt (hin p hmemp), Option.bind_some,
        Table.modify_set_of_lt (hin n hmem), Option.pure_def, Option.some.injEq,
        Prod.mk.injEq] at hun
      obtain ⟨rfl, rfl⟩ := hun
      have he₁ := (hrest.set p (f := fun c => { c with next := (n : ℤ) })
        (g := fun c => { c with next := some n }) rfl (hrest.prev p hmemp)).subset
        (List.subset_cons_self ..)
      have he₂ := (he₁.set n (f := fun c => { c with prev := (p : ℤ) })
        (g := fun c => { c with prev := some p }) (he₁.next n hmem) rfl).subset
        (List.subset_cons_self ..)
      rw [encode_some, encode_some, unlinkBetween_inner]
      exact ⟨_, (access_ends (he.bounds (hin p hmemp))).andThen
        (access_ends (he₁.bounds (hin n hmem))), he₂,
        (sameOutside_set hmemp _).trans (sameOutside_set hmem _)⟩

end Encoding

/-- The links make up a doubly linked list of `xs`: from the head along `next` and from the tail
along `prev` they visit `xs` and its reverse, and they agree between neighbours. -/
structure Linked (s : Store) (xs : List ℕ) : Prop where
  forward : Path (fun i => ptr (s.get i).next) (ptr s.in_flight.head) (xs.map Nat.cast) none
  backward : Path (fun i => ptr (s.get i).prev) (ptr s.in_flight.tail) (xs.reverse.map Nat.cast)
    none
  head : s.in_flight.head = -1 ↔ xs = []
  tail : s.in_flight.tail = -1 ↔ xs = []
  neighbours : ∀ (as bs : List ℕ) (a b : ℕ), xs = as ++ a :: b :: bs →
    (s.get a).next = b ∧ (s.get b).prev = a

/-- The sequence of members is what the calls so far say; `fault` is an access that had no
defined result. -/
structure State where
  store : Store
  members : List ℕ
  fault : Bool

/-- Insertions of entries that are not in the list, and removals of entries that are. -/
inductive Act where
  | insert (fd : ℕ)
  | unlink (fd : ℕ)

def State.call (members : List ℕ) (r : Outcome Store ℤ) : State × List ℤ :=
  (⟨r.state, members, r.threw⟩, r.events)

def step (s : State) (act : Act) : Option (State × List ℤ) :=
  if s.fault then none
  else
    match act with
    | .insert fd =>
      if fd ∉ s.members ∧ fd < s.store.size then
        some (State.call (s.members ++ [fd]) (listInsertTail fd s.store))
      else none
    | .unlink fd =>
      if fd ∈ s.members then some (State.call (s.members.erase fd) (listUnlink fd s.store))
      else none

/-- An empty list over a table with any contents. -/
def system (size : ℕ) (stale : ℤ → Connection) : System State Act ℤ where
  init := ⟨⟨size, stale, {}⟩, [], false⟩
  step := step

/-- The links encode a list that represents the members. -/
structure Holds (s : State) : Prop where
  sound : s.fault = false
  encoded : ∃ table list, Encodes s.store table list s.members ∧ Represents table list s.members

section Runs
variable {size : ℕ} {stale : ℤ → Connection} {s s' : State} {act : Act} {log evs : List ℤ}
  {store : Store} {table : Table} {list : Knocker.ConnList} {xs : List ℕ}

theorem Encodes.linked (he : Encodes store table list xs) (h : Represents table list xs) :
    Linked store xs := by
  have hnext : ∀ x ∈ xs, ptr (store.get x).next = (table.next x).map Nat.cast := fun x hx => by
    rw [he.next x hx, ptr_encode, Table.next]
  have hprev : ∀ x ∈ xs.reverse, ptr (store.get x).prev = (table.prev x).map Nat.cast :=
    fun x hx => by rw [he.prev x (List.mem_reverse.mp hx), ptr_encode, Table.prev]
  have hforward := h.forward.map Nat.cast (fun i => ptr (store.get i).next) hnext
  have hbackward := h.backward.map Nat.cast (fun i => ptr (store.get i).prev) hprev
  rw [← ptr_encode, ← he.head] at hforward
  rw [← ptr_encode, ← he.tail] at hbackward
  refine ⟨hforward, hbackward, ?_, ?_, ?_⟩
  · rw [he.head, encode_eq_neg_one, h.head_eq, List.head?_eq_none_iff]
  · rw [he.tail, encode_eq_neg_one, h.backward.head_eq, List.head?_eq_none_iff,
      List.reverse_eq_nil_iff]
  · rintro as bs a b rfl
    have hback : Path table.prev list.tail (bs.reverse ++ b :: (a :: as.reverse)) none := by
      simpa using h.backward
    have hab : (table.get a).next = some b := h.forward.link_eq
    have hba : (table.get b).prev = some a := hback.link_eq
    rw [he.next a (by simp), he.prev b (by simp), hab, hba]
    exact ⟨rfl, rfl⟩

theorem holds_init : Holds (system size stale).init :=
  ⟨rfl, Table.empty size, {}, ⟨rfl, rfl, rfl, by simp [system], by simp [system]⟩,
    represents_empty size⟩

/-- A call keeps the list and writes to no entry outside it. -/
theorem Holds.step (h : Holds s) (hs : Flat.step s act = some (s', evs)) :
    Holds s' ∧ SameOutside s'.members s.store s'.store := by
  obtain ⟨hsound, table, list, he, hrep⟩ := h
  unfold Flat.step at hs
  rw [if_neg (by simp [hsound])] at hs
  cases act with
  | insert fd =>
    simp only at hs
    split at hs
    · rename_i hfd
      have hsize : fd < table.size := he.size ▸ hfd.2
      obtain ⟨store', table', list', ⟨hthrew, rfl⟩, he', hrep', hsame⟩ :=
        he.insert hrep hfd.1 hsize
      cases hs
      exact ⟨⟨hthrew, table', list', he', hrep'⟩, hsame⟩
    · cases hs
  | unlink fd =>
    simp only at hs
    split at hs
    · rename_i hfd
      obtain ⟨as, bs, -, hmembers, herase⟩ := List.exists_erase_eq hfd
      rw [hmembers] at he hrep
      obtain ⟨store', table', list', ⟨hthrew, rfl⟩, he', hrep', hsame⟩ := he.unlink hrep
      rw [herase] at hs
      cases hs
      exact ⟨⟨hthrew, table', list', he', hrep'⟩, hsame⟩
    · cases hs

theorem holds_of_run (hrun : (system size stale).Run s log) : Holds s :=
  hrun.invariant (I := fun s _ => Holds s) holds_init fun _ _ _ _ _ _ h _ hs => (h.step hs).1

/-- Whatever the table holds before, insertions and removals in any order keep a doubly linked
list of the sequence that they describe, and write to no entry outside it. -/
theorem list_linked (hrun : (system size stale).Run s log) :
    s.fault = false ∧ s.members.Nodup ∧ Linked s.store s.members ∧
      ∀ act s' evs, (system size stale).step s act = some (s', evs) →
        SameOutside s'.members s.store s'.store := by
  have h := holds_of_run hrun
  obtain ⟨table, list, he, hrep⟩ := h.encoded
  exact ⟨h.sound, hrep.nodup, he.linked hrep, fun act s' evs hs => (h.step hs).2⟩

end Runs

/-- The first member, one between two others and the last one leave; one comes back with the links
it had. -/
def shuffle : List Act :=
  [.insert 2, .insert 0, .insert 3, .insert 1, .unlink 0, .unlink 2, .insert 0, .unlink 0]

theorem list_linked_shuffle :
    ∃ s log, (system 4 fun _ => { next := 9, prev := -5 }).Run s log ∧ s.members = [3, 1] ∧
      Linked s.store s.members := by
  obtain ⟨s, log, hrun, hq⟩ := (system 4 fun _ => { next := 9, prev := -5 }).exists_run_of_exec
    (fun _ _ => True) shuffle (fun s _ => decide (s.members = [3, 1])) (by decide +kernel)
  exact ⟨s, log, hrun, of_decide_eq_true hq, (list_linked hrun).2.2.1⟩

end Knocker.Flat
