import LowLevelCpp.Foundations.Path
import Mathlib.Data.Int.Notation
import Mathlib.Data.Nat.Notation

/-!
The in-flight list of `knocker-intrusive.cc`: connections in a flat table indexed by
descriptor, linked through `next` and `prev`. A link `-1` is `none`; an index past the end of
the table is undefined behaviour, for which the operations return `none`. Time points are
counts of nanoseconds.
-/
namespace Knocker
open Foundations

structure Connection where
  active : Bool := false
  port : ℤ := -1
  start_time : ℤ := 0
  next : Option ℕ := none
  prev : Option ℕ := none

/-- `std::vector<Connection> table(max_fd)`; entries past `size` are never used. -/
structure Table where
  size : ℕ
  get : ℕ → Connection

structure ConnList where
  head : Option ℕ := none
  tail : Option ℕ := none

namespace Table

def empty (max_fd : ℕ) : Table := ⟨max_fd, fun _ => {}⟩

def read (table : Table) (i : ℕ) : Option Connection :=
  if i < table.size then some (table.get i) else none

def set (table : Table) (i : ℕ) (f : Connection → Connection) : Table :=
  { table with get := Function.update table.get i (f (table.get i)) }

def modify (table : Table) (i : ℕ) (f : Connection → Connection) : Option Table :=
  if i < table.size then some (table.set i f) else none

def next (table : Table) (i : ℕ) : Option ℕ := (table.get i).next

def prev (table : Table) (i : ℕ) : Option ℕ := (table.get i).prev

def active (table : Table) (i : ℕ) : Bool := (table.get i).active

def start (table : Table) (i : ℕ) : ℤ := (table.get i).start_time

section Access
variable {table : Table} {i : ℕ} {f : Connection → Connection}

@[simp] theorem set_size : (table.set i f).size = table.size := rfl

@[simp] theorem set_self : (table.set i f).get i = f (table.get i) := by simp [set]

@[simp] theorem set_of_ne {j : ℕ} (h : j ≠ i) : (table.set i f).get j = table.get j := by
  simp [set, h]

/-- A field of the table after a write to one entry. -/
theorem field_set {α : Type} (field : Connection → α) :
    (fun j => field ((table.set i f).get j)) =
      Function.update (fun j => field (table.get j)) i (field (f (table.get i))) := by
  funext j
  by_cases h : j = i
  · subst h
    simp
  · simp [h]

/-- A write that keeps a field of the entry keeps it everywhere. -/
theorem field_set_of_eq {α : Type} (field : Connection → α)
    (h : field (f (table.get i)) = field (table.get i)) :
    (fun j => field ((table.set i f).get j)) = fun j => field (table.get j) := by
  rw [field_set, h]
  exact Function.update_eq_self i _

theorem set_next : (table.set i f).next = Function.update table.next i (f (table.get i)).next :=
  field_set Connection.next

theorem set_prev : (table.set i f).prev = Function.update table.prev i (f (table.get i)).prev :=
  field_set Connection.prev

theorem set_active :
    (table.set i f).active = Function.update table.active i (f (table.get i)).active :=
  field_set Connection.active

theorem set_start :
    (table.set i f).start = Function.update table.start i (f (table.get i)).start_time :=
  field_set Connection.start_time

theorem set_next_of_eq (h : (f (table.get i)).next = (table.get i).next) :
    (table.set i f).next = table.next :=
  field_set_of_eq Connection.next h

theorem set_prev_of_eq (h : (f (table.get i)).prev = (table.get i).prev) :
    (table.set i f).prev = table.prev :=
  field_set_of_eq Connection.prev h

theorem set_active_of_eq (h : (f (table.get i)).active = (table.get i).active) :
    (table.set i f).active = table.active :=
  field_set_of_eq Connection.active h

theorem set_start_of_eq (h : (f (table.get i)).start_time = (table.get i).start_time) :
    (table.set i f).start = table.start :=
  field_set_of_eq Connection.start_time h

theorem modify_of_lt (h : i < table.size) : table.modify i f = some (table.set i f) := by
  simp [modify, h]

theorem modify_set_of_lt (h : i < table.size) :
    (table.set j g).modify i f = some ((table.set j g).set i f) :=
  modify_of_lt h

theorem read_of_lt (h : i < table.size) : table.read i = some (table.get i) := by
  simp [read, h]

end Access
end Table

/-- `list_insert_tail` -/
def listInsertTail (table : Table) (list : ConnList) (fd : ℕ) : Option (Table × ConnList) := do
  let table ← table.modify fd fun c => { c with prev := list.tail, next := none }
  match list.tail with
  | none => return (table, ⟨some fd, some fd⟩)
  | some tail =>
    let table ← table.modify tail fun c => { c with next := some fd }
    return (table, { list with tail := some fd })

/-- `list_unlink` -/
def listUnlink (table : Table) (list : ConnList) (fd : ℕ) : Option (Table × ConnList) := do
  let c ← table.read fd
  match c.prev, c.next with
  | none, none => return (table, ⟨none, none⟩)
  | none, some n =>
    let table ← table.modify n fun c => { c with prev := none }
    return (table, { list with head := some n })
  | some p, none =>
    let table ← table.modify p fun c => { c with next := none }
    return (table, { list with tail := some p })
  | some p, some n =>
    let table ← table.modify p fun c => { c with next := some n }
    let table ← table.modify n fun c => { c with prev := some p }
    return (table, list)

/-- The table and the list head represent the sequence `xs`: following `next` from the head
visits `xs`, following `prev` from the tail visits it backwards. -/
structure Represents (table : Table) (list : ConnList) (xs : List ℕ) : Prop where
  forward : Path table.next list.head xs none
  backward : Path table.prev list.tail xs.reverse none
  inTable : ∀ x ∈ xs, x < table.size

/-- `table'` differs from `table` in the links of the members of `xs` at most. -/
structure Relinks (table table' : Table) (xs : List ℕ) : Prop where
  size : table'.size = table.size
  active : table'.active = table.active
  start : table'.start = table.start
  port : ∀ i, (table'.get i).port = (table.get i).port
  outside : ∀ i, i ∉ xs → table'.get i = table.get i

theorem Relinks.refl (table : Table) (xs : List ℕ) : Relinks table table xs :=
  ⟨rfl, rfl, rfl, fun _ => rfl, fun _ _ => rfl⟩

/-- Writing the links of a member. -/
theorem Relinks.set {table table' : Table} {xs : List ℕ} {i : ℕ} (h : Relinks table table' xs)
    (hi : i ∈ xs) (p : Option ℕ → Option ℕ) (n : Option ℕ → Option ℕ) :
    Relinks table (table'.set i fun c => { c with prev := p c.prev, next := n c.next }) xs where
  size := h.size
  active := (Table.set_active_of_eq rfl).trans h.active
  start := (Table.set_start_of_eq rfl).trans h.start
  port j := by
    rw [← h.port j]
    by_cases hji : j = i <;> simp [hji]
  outside j hj := by
    have hji : j ≠ i := fun he => hj (by rwa [he])
    rw [← h.outside j hj, Table.set_of_ne hji]

section Operations
variable {table : Table} {list : ConnList} {xs : List ℕ} {fd : ℕ}

theorem represents_empty (max_fd : ℕ) : Represents (Table.empty max_fd) {} [] :=
  ⟨rfl, rfl, by simp⟩

/-- Only the links and the size of the table matter. -/
theorem Represents.congr {table' : Table} (h : Represents table list xs)
    (hnext : table'.next = table.next) (hprev : table'.prev = table.prev)
    (hsize : table'.size = table.size) : Represents table' list xs :=
  ⟨hnext ▸ h.forward, hprev ▸ h.backward, hsize ▸ h.inTable⟩

theorem Represents.head_eq (h : Represents table list xs) : list.head = xs.head? :=
  h.forward.head_eq

theorem Represents.nodup (h : Represents table list xs) : xs.Nodup := h.forward.nodup

theorem listInsertTail_spec (h : Represents table list xs) (hfd : fd ∉ xs)
    (hsize : fd < table.size) :
    ∃ table' list', listInsertTail table list fd = some (table', list') ∧
      Represents table' list' (xs ++ [fd]) ∧ Relinks table table' (xs ++ [fd]) := by
  obtain ⟨hforward, hbackward, hin⟩ := h
  rcases List.eq_nil_or_concat xs with rfl | ⟨ys, y, rfl⟩
  · refine ⟨table.set fd fun c => { c with prev := list.tail, next := none }, ⟨some fd, some fd⟩,
      ?_, ⟨?_, ?_, ?_⟩, ?_⟩
    · have htail : list.tail = none := hbackward
      simp [listInsertTail, Table.modify_of_lt hsize, htail]
    · simp [Table.set_next]
    · simpa [Table.set_prev] using hbackward
    · simpa using hsize
    · exact (Relinks.refl table _).set (by simp) (fun _ => list.tail) fun _ => none
  · rw [List.concat_eq_append] at hforward hbackward hin hfd ⊢
    have htail : list.tail = some y := by simpa using hbackward.head_eq
    have hy : y < table.size := hin y (by simp)
    have hyfd : y ≠ fd := fun he => hfd (by simp [he])
    refine ⟨(table.set fd fun c => { c with prev := list.tail, next := none }).set y
      fun c => { c with next := some fd }, { list with tail := some fd }, ?_, ⟨?_, ?_, ?_⟩, ?_⟩
    · simp [listInsertTail, Table.modify_of_lt hsize, htail, Table.modify_set_of_lt hy]
    · rw [Table.set_next, Table.set_next]
      exact hforward.snoc hfd
    · rw [Table.set_prev_of_eq rfl, Table.set_prev, List.reverse_concat, path_cons]
      refine ⟨rfl, ?_⟩
      have hfd' : fd ∉ (ys ++ [y]).reverse := by rwa [List.mem_reverse]
      simpa using hbackward.update_notMem hfd' list.tail
    · intro x hx
      rcases List.mem_append.mp hx with hx | hx
      · exact hin x hx
      · simpa [List.mem_singleton.mp hx] using hsize
    · exact ((Relinks.refl table _).set (by simp) (fun _ => list.tail) fun _ => none).set
        (by simp) (fun p => p) fun _ => some fd

theorem listUnlink_spec {as bs : List ℕ} (h : Represents table list (as ++ fd :: bs)) :
    ∃ table' list', listUnlink table list fd = some (table', list') ∧
      Represents table' list' (as ++ bs) ∧ Relinks table table' (as ++ bs) := by
  obtain ⟨hforward, hbackward, hin⟩ := h
  have hback : Path table.prev list.tail (bs.reverse ++ fd :: as.reverse) none := by
    simpa using hbackward
  have hrest (x : ℕ) (hx : x ∈ as ++ bs) : x < table.size := hin x (by
    simp only [List.mem_append, List.mem_cons] at hx ⊢
    tauto)
  have hread : table.read fd = some (table.get fd) := Table.read_of_lt (hin fd (by simp))
  -- the links of `fd` say which of the two sides is empty
  have hprev : (table.get fd).prev = as.reverse.head? := hback.link_eq
  have hnext : (table.get fd).next = bs.head? := hforward.link_eq
  rcases List.eq_nil_or_concat as with rfl | ⟨as, p, rfl⟩
  · cases bs with
    | nil =>
      refine ⟨table, ⟨none, none⟩, ?_, ⟨rfl, rfl, by simp⟩, .refl _ _⟩
      simp_all [listUnlink]
    | cons n bs =>
      have hn : n < table.size := hrest n (by simp)
      refine ⟨table.set n fun c => { c with prev := none }, { list with head := some n }, ?_,
        ⟨?_, ?_, hrest⟩, (Relinks.refl table _).set (by simp) (fun _ => none) fun n => n⟩
      · simp_all [listUnlink, Table.modify_of_lt hn]
      · rw [Table.set_next_of_eq rfl]
        have hpath : Path table.next (table.next fd) (n :: bs) none := hforward.2
        rwa [Table.next, hnext] at hpath
      · have hpath : Path table.prev list.tail (bs.reverse ++ [n] ++ [fd]) none := by
          simpa using hback
        rw [Table.set_prev]
        simpa [Table.prev, hprev] using hpath.unlink
  · rw [List.concat_eq_append] at *
    have hp : p < table.size := hrest p (by simp)
    have hlink := hforward.unlink
    cases bs with
    | nil =>
      refine ⟨table.set p fun c => { c with next := none }, { list with tail := some p }, ?_,
        ⟨?_, ?_, hrest⟩, (Relinks.refl table _).set (by simp) (fun p => p) fun _ => none⟩
      · simp_all [listUnlink, Table.modify_of_lt hp]
      · rw [Table.set_next]
        simpa [Table.next, hnext] using hlink
      · rw [Table.set_prev_of_eq rfl]
        have hpath : Path table.prev (table.prev fd) (as ++ [p]).reverse none := hback.2
        rw [Table.prev, hprev] at hpath
        simpa using hpath
    | cons n bs =>
      have hn : n < table.size := hrest n (by simp)
      refine ⟨(table.set p fun c => { c with next := some n }).set n
        fun c => { c with prev := some p }, list, ?_, ⟨?_, ?_, hrest⟩,
        ((Relinks.refl table _).set (by simp) (fun p => p) fun _ => some n).set (by simp)
          (fun _ => some p) fun n => n⟩
      · simp_all [listUnlink, Table.modify_of_lt hp, Table.modify_set_of_lt hn]
      · rw [Table.set_next_of_eq rfl, Table.set_next]
        simpa [Table.next, hnext] using hlink
      · have hpath : Path table.prev list.tail
            (bs.reverse ++ [n] ++ fd :: (as ++ [p]).reverse) none := by simpa using hback
        rw [Table.set_prev, Table.set_prev_of_eq rfl]
        simpa [Table.prev, hprev] using hpath.unlink

end Operations
end Knocker
