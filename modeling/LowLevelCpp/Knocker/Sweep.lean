import LowLevelCpp.Foundations.System
import LowLevelCpp.Knocker.IntrusiveList
import Mathlib.Data.Finset.Basic
import Mathlib.Data.Finset.Dedup

/-!
The timer sweep. `knocker-intrusive.cc` looks at the head of its list only and stops at the
first connection that has not expired; `knocker-epoll-timer.cc` scans its whole map. Insertion
at the tail keeps the list in order of the start times, so the two retire the same connections.
-/
namespace Knocker
open Foundations Foundations.System

/-- Two seconds. -/
def TIMEOUT_MS : ℤ := 2000 * 1000000

/-- `now - start_time > TIMEOUT_MS` -/
def Expired (now start_time : ℤ) : Prop := now - start_time > TIMEOUT_MS

instance (now start_time : ℤ) : Decidable (Expired now start_time) :=
  inferInstanceAs (Decidable (_ > _))

/-- The table and list part of the fill loop, for a socket whose connection is pending. -/
def register (table : Table) (list : ConnList) (sock : ℕ) (port now : ℤ) :
    Option (Table × ConnList) := do
  let table ← table.modify sock fun c => { c with active := true, port, start_time := now }
  listInsertTail table list sock

/-- The table and list part of both places that retire a connection. -/
def retire (table : Table) (list : ConnList) (fd : ℕ) : Option (Table × ConnList) := do
  let (table, list) ← listUnlink table list fd
  let table ← table.modify fd fun c => { c with active := false }
  return (table, list)

/-- The loop condition of the sweep: the head, when there is one and it has expired. -/
def expiredHead (now : ℤ) (table : Table) (list : ConnList) : Option (Option ℕ) :=
  match list.head with
  | none => some none
  | some head => (table.read head).map fun c =>
    if Expired now c.start_time then some head else none

/-- The sweep of `knocker-intrusive.cc`, for at most `fuel` evaluations of its condition,
with the descriptors retired. -/
def sweep (now : ℤ) : ℕ → Table → ConnList → Option (Table × ConnList × List ℕ)
  | 0, _, _ => none
  | fuel + 1, table, list => do
    match ← expiredHead now table list with
    | none => return (table, list, [])
    | some expired_fd =>
      let (table, list) ← retire table list expired_fd
      let (table, list, closed) ← sweep now fuel table list
      return (table, list, expired_fd :: closed)

/-- `active_socks` of `knocker-epoll-timer.cc`: a map from descriptors to start times. -/
structure ActiveSocks where
  keys : Finset ℕ
  start : ℕ → ℤ

namespace ActiveSocks

def insert (socks : ActiveSocks) (fd : ℕ) (now : ℤ) : ActiveSocks :=
  ⟨Insert.insert fd socks.keys, Function.update socks.start fd now⟩

def erase (socks : ActiveSocks) (fd : ℕ) : ActiveSocks := { socks with keys := socks.keys.erase fd }

end ActiveSocks

/-- The sweep of `knocker-epoll-timer.cc` over the map in its iteration order, with the
descriptors closed. -/
def scan (now : ℤ) : List ℕ → ActiveSocks → ActiveSocks × List ℕ
  | [], socks => (socks, [])
  | it :: rest, socks =>
    if Expired now (socks.start it) then
      let (socks, closed) := scan now rest (socks.erase it)
      (socks, it :: closed)
    else scan now rest socks

/-- From head to tail the start times do not decrease. -/
def InOrder (table : Table) (xs : List ℕ) : Prop :=
  xs.Pairwise fun a b => table.start a ≤ table.start b

section Operations
variable {table : Table} {list : ConnList} {xs as bs : List ℕ} {fd : ℕ} {now : ℤ}

theorem register_spec (h : Represents table list xs) (hfd : fd ∉ xs) (hsize : fd < table.size)
    (port now : ℤ) :
    ∃ table' list', register table list fd port now = some (table', list') ∧
      Represents table' list' (xs ++ [fd]) ∧ table'.size = table.size ∧
      table'.start = Function.update table.start fd now ∧
      table'.active = Function.update table.active fd true := by
  have h₁ : Represents (table.set fd fun c => { c with active := true, port, start_time := now })
      list xs := h.congr (Table.set_next_of_eq rfl) (Table.set_prev_of_eq rfl) rfl
  obtain ⟨table', list', hins, hrep, hlinks⟩ := listInsertTail_spec h₁ hfd hsize
  refine ⟨table', list', ?_, hrep, hlinks.size, ?_, ?_⟩
  · simpa [register, Table.modify_of_lt hsize] using hins
  · rw [hlinks.start, Table.set_start]
  · rw [hlinks.active, Table.set_active]

theorem retire_spec (h : Represents table list (as ++ fd :: bs)) :
    ∃ table' list', retire table list fd = some (table', list') ∧
      Represents table' list' (as ++ bs) ∧ table'.size = table.size ∧
      table'.start = table.start ∧ table'.active = Function.update table.active fd false := by
  obtain ⟨table', list', hun, hrep, hlinks⟩ := listUnlink_spec h
  have hsize : fd < table'.size := hlinks.size ▸ h.inTable fd (by simp)
  refine ⟨table'.set fd fun c => { c with active := false }, list', ?_,
    hrep.congr (Table.set_next_of_eq rfl) (Table.set_prev_of_eq rfl) rfl, hlinks.size, ?_, ?_⟩
  · simp [retire, hun, Table.modify_of_lt hsize]
  · rw [Table.set_start_of_eq rfl, hlinks.start]
  · rw [Table.set_active, hlinks.active]

theorem expiredHead_spec (h : Represents table list xs) :
    expiredHead now table list = some (xs.head?.filter fun fd => Expired now (table.start fd)) := by
  rw [expiredHead, h.head_eq]
  cases xs with
  | nil => rfl
  | cons x xs =>
    simp only [List.head?_cons, Table.read_of_lt (h.inTable x (by simp)), Option.map_some,
      Option.filter_some, decide_eq_true_eq]
    rfl

/-- The head-only sweep ends, retires the expired members and keeps the others in order. -/
theorem sweep_spec (now : ℤ) (h : Represents table list xs) (ho : InOrder table xs) :
    ∃ table' list',
      (∀ fuel, xs.length < fuel → sweep now fuel table list =
        some (table', list', xs.filter fun fd => Expired now (table.start fd))) ∧
      Represents table' list' (xs.filter fun fd => ¬ Expired now (table.start fd)) ∧
      table'.size = table.size ∧ table'.start = table.start := by
  induction xs generalizing table list with
  | nil =>
    refine ⟨table, list, fun fuel hfuel => ?_, h, rfl, rfl⟩
    obtain ⟨n, rfl⟩ : ∃ n, fuel = n + 1 := ⟨fuel - 1, by omega⟩
    simp [sweep, expiredHead_spec h]
  | cons x xs ih =>
    obtain ⟨hx, hxs⟩ := List.pairwise_cons.mp ho
    by_cases he : Expired now (table.start x)
    · have hhead : Represents table list ([] ++ x :: xs) := h
      obtain ⟨t₁, l₁, hretire, hrep, hsize, hstart, -⟩ := retire_spec hhead
      have ho₁ : InOrder t₁ xs := by rwa [InOrder, hstart]
      obtain ⟨t₂, l₂, hsweep, hrep₂, hsize₂, hstart₂⟩ := ih hrep ho₁
      rw [hstart] at hsweep hrep₂
      refine ⟨t₂, l₂, fun fuel hfuel => ?_, ?_, hsize₂.trans hsize, hstart₂.trans hstart⟩
      · obtain ⟨n, rfl⟩ : ∃ n, fuel = n + 1 := ⟨fuel - 1, by omega⟩
        have hrest := hsweep n (by simpa using hfuel)
        simp [sweep, expiredHead_spec h, Option.filter_some, he, hretire, hrest]
      · simpa [he] using hrep₂
    · -- nothing behind the first unexpired member has expired
      have hnone : ∀ y ∈ x :: xs, ¬ Expired now (table.start y) := by
        intro y hy
        rcases List.mem_cons.mp hy with rfl | hy
        · exact he
        · have hle := hx y hy
          unfold Expired at he ⊢
          omega
      refine ⟨table, list, fun fuel hfuel => ?_, ?_, rfl, rfl⟩
      · obtain ⟨n, rfl⟩ : ∃ n, fuel = n + 1 := ⟨fuel - 1, by omega⟩
        rw [List.filter_eq_nil_iff.mpr (by simpa using hnone)]
        simp [sweep, expiredHead_spec h, Option.filter_some, he]
      · rwa [List.filter_eq_self.mpr (by simpa using hnone)]

theorem scan_spec (order : List ℕ) (socks : ActiveSocks) :
    scan now order socks =
      ({ socks with keys := socks.keys.filter fun fd =>
          ¬ (fd ∈ order ∧ Expired now (socks.start fd)) },
        order.filter fun fd => Expired now (socks.start fd)) := by
  induction order generalizing socks with
  | nil => simp [scan]
  | cons it rest ih =>
    by_cases he : Expired now (socks.start it)
    · have hkeys : ((socks.keys.erase it).filter fun fd =>
          ¬ (fd ∈ rest ∧ Expired now (socks.start fd))) =
          socks.keys.filter fun fd => ¬ (fd ∈ it :: rest ∧ Expired now (socks.start fd)) := by
        ext fd
        by_cases hfd : fd = it <;> simp [hfd, he]
      simp only [scan, he, if_true, ih, ActiveSocks.erase, hkeys]
      simp [he]
    · have hkeys : (socks.keys.filter fun fd =>
          ¬ (fd ∈ rest ∧ Expired now (socks.start fd))) =
          socks.keys.filter fun fd => ¬ (fd ∈ it :: rest ∧ Expired now (socks.start fd)) := by
        ext fd
        by_cases hfd : fd = it <;> simp [hfd, he]
      simp only [scan, he, if_false, ih, hkeys]
      simp [he]

end Operations

/-- The operations on the list, with their descriptors and the clock readings. -/
inductive ListAct where
  | insert (fd : ℕ) (port now : ℤ)
  | unlink (fd : ℕ)
  | sweep (now : ℤ)

structure ListState where
  table : Table
  list : ConnList
  clock : ℤ

/-- The members found by following `next` from the head. -/
def ListState.contents (s : ListState) : List ℕ :=
  follow s.table.next s.table.size s.list.head

/-- Insertion is called for descriptors outside the list, at readings of a clock that does
not go back, and unlinking for members; the log holds what the sweeps retire. -/
def ListState.step (s : ListState) : ListAct → Option (ListState × List ℕ)
  | .insert fd port now =>
    if fd ∉ s.contents ∧ s.clock ≤ now then
      (register s.table s.list fd port now).map fun r => (⟨r.1, r.2, now⟩, [])
    else none
  | .unlink fd =>
    if fd ∈ s.contents then
      (retire s.table s.list fd).map fun r => (⟨r.1, r.2, s.clock⟩, [])
    else none
  | .sweep now =>
    if s.clock ≤ now then
      (sweep now (s.table.size + 1) s.table s.list).map fun r => (⟨r.1, r.2.1, now⟩, r.2.2)
    else none

def listSystem (max_fd : ℕ) (clock : ℤ) : System ListState ListAct ℕ where
  init := ⟨.empty max_fd, {}, clock⟩
  step := ListState.step

/-- The state represents `xs`, which is in order of start times the clock has passed. -/
structure Timed (s : ListState) (xs : List ℕ) : Prop where
  represents : Represents s.table s.list xs
  inOrder : InOrder s.table xs
  started : ∀ fd ∈ xs, s.table.start fd ≤ s.clock

theorem Represents.length_le {table : Table} {list : ConnList} {xs : List ℕ}
    (h : Represents table list xs) : xs.length ≤ table.size := by
  have hsub : xs ⊆ List.range table.size := fun x hx => List.mem_range.mpr (h.inTable x hx)
  simpa using (h.nodup.subperm hsub).length_le

theorem Timed.contents {s : ListState} {xs : List ℕ} (h : Timed s xs) : s.contents = xs :=
  h.represents.forward.follow_eq h.represents.length_le

section Runs
variable {s s' : ListState} {xs : List ℕ} {evs : List ℕ} {fd max_fd : ℕ} {now port clock : ℤ}

theorem register_inTable {table table' : Table} {list list' : ConnList}
    (h : register table list fd port now = some (table', list')) : fd < table.size := by
  by_contra hfd
  simp [register, Table.modify, hfd] at h

theorem Timed.insert (h : Timed s xs) (hs : s.step (.insert fd port now) = some (s', evs)) :
    Timed s' (xs ++ [fd]) := by
  simp only [ListState.step, h.contents] at hs
  split at hs
  · rename_i hguard
    obtain ⟨⟨t, l⟩, hr, hr'⟩ := Option.map_eq_some_iff.mp hs
    obtain ⟨rfl, rfl⟩ := Prod.mk.inj hr'
    obtain ⟨t', l', hreg, hrep, -, hstart, -⟩ :=
      register_spec h.represents hguard.1 (register_inTable hr) port now
    obtain ⟨rfl, rfl⟩ := Prod.mk.inj (Option.some.inj (hreg.symm.trans hr))
    have hself : t'.start fd = now := by simp [hstart]
    have hother {x : ℕ} (hx : x ∈ xs) : t'.start x = s.table.start x := by
      have hne : x ≠ fd := fun he => hguard.1 (by rwa [← he])
      rw [hstart, Function.update_of_ne hne]
    have hle {x : ℕ} (hx : x ∈ xs) : t'.start x ≤ now :=
      hother hx ▸ (h.started x hx).trans hguard.2
    refine ⟨hrep, ?_, fun x hx => ?_⟩
    · refine List.pairwise_append.mpr ⟨h.inOrder.imp_of_mem fun {a b} ha hb hab => ?_, by simp, ?_⟩
      · rwa [hother ha, hother hb]
      · intro x hx y hy
        rw [List.mem_singleton.mp hy, hself]
        exact hle hx
    · rcases List.mem_append.mp hx with hx | hx
      · exact hle hx
      · exact (List.mem_singleton.mp hx ▸ hself).le
  · cases hs

theorem Timed.unlink (h : Timed s xs) (hs : s.step (.unlink fd) = some (s', evs)) :
    Timed s' (xs.erase fd) := by
  simp only [ListState.step, h.contents] at hs
  split at hs
  · rename_i hmem
    obtain ⟨⟨t, l⟩, hr, hr'⟩ := Option.map_eq_some_iff.mp hs
    obtain ⟨rfl, rfl⟩ := Prod.mk.inj hr'
    obtain ⟨as, bs, hnot, rfl, herase⟩ := List.exists_erase_eq hmem
    obtain ⟨t', l', hretire, hrep, -, hstart, -⟩ := retire_spec h.represents
    obtain ⟨rfl, rfl⟩ := Prod.mk.inj (Option.some.inj (hretire.symm.trans hr))
    rw [herase]
    have hsub : (as ++ bs).Sublist (as ++ fd :: bs) :=
      (List.Sublist.refl as).append (List.sublist_cons_self fd bs)
    refine ⟨hrep, ?_, fun x hx => ?_⟩
    · rw [InOrder, hstart]
      exact h.inOrder.sublist hsub
    · rw [hstart]
      exact h.started x (hsub.subset hx)
  · cases hs

theorem Timed.sweep (h : Timed s xs) (hs : s.step (.sweep now) = some (s', evs)) :
    Timed s' (xs.filter fun fd => ¬ Expired now (s.table.start fd)) := by
  simp only [ListState.step] at hs
  split at hs
  · rename_i hclock
    obtain ⟨⟨t, l, closed⟩, hr, hr'⟩ := Option.map_eq_some_iff.mp hs
    obtain ⟨rfl, rfl⟩ := Prod.mk.inj hr'
    obtain ⟨t', l', hsweep, hrep, -, hstart⟩ := sweep_spec now h.represents h.inOrder
    have hfuel := Nat.lt_succ_of_le h.represents.length_le
    obtain ⟨rfl, hrest⟩ := Prod.mk.inj (Option.some.inj ((hsweep _ hfuel).symm.trans hr))
    obtain ⟨rfl, rfl⟩ := Prod.mk.inj hrest
    refine ⟨hrep, ?_, fun x hx => ?_⟩
    · rw [InOrder, hstart]
      exact h.inOrder.sublist List.filter_sublist
    · rw [hstart]
      exact (h.started x (List.mem_filter.mp hx).1).trans hclock
  · cases hs

theorem timed_of_run (hrun : (listSystem max_fd clock).Run s evs) : ∃ xs, Timed s xs := by
  refine hrun.invariant (I := fun s _ => ∃ xs, Timed s xs)
    ⟨[], represents_empty max_fd, List.Pairwise.nil, by simp⟩ ?_
  rintro s log act s' evs - ⟨xs, h⟩ - hs
  cases act with
  | insert fd port now => exact ⟨_, h.insert hs⟩
  | unlink fd => exact ⟨_, h.unlink hs⟩
  | sweep now => exact ⟨_, h.sweep hs⟩

/-- After any operations on the list its start times are in order, and the head-only sweep
retires what the full scan of a map with the same contents retires, in any iteration order;
the other connections stay in the list as they were. -/
theorem sweep_refines_scan (hrun : (listSystem max_fd clock).Run s evs) :
    Represents s.table s.list s.contents ∧ InOrder s.table s.contents ∧
      ∀ now, ∃ table' list' closed,
        (∀ fuel, s.contents.length < fuel →
          sweep now fuel s.table s.list = some (table', list', closed)) ∧
        (∀ fd, fd ∈ closed ↔ fd ∈ s.contents ∧ Expired now (s.table.start fd)) ∧
        Represents table' list' (s.contents.filter fun fd => ¬ Expired now (s.table.start fd)) ∧
        ∀ (socks : ActiveSocks) (order : List ℕ), socks.keys = s.contents.toFinset →
          (∀ fd ∈ s.contents, socks.start fd = s.table.start fd) →
          order.Nodup → order.toFinset = socks.keys →
          (scan now order socks).2.Perm closed ∧
            ∀ fd, fd ∈ (scan now order socks).1.keys ↔
              fd ∈ s.contents ∧ ¬ Expired now (s.table.start fd) := by
  obtain ⟨xs, h⟩ := timed_of_run hrun
  rw [h.contents]
  refine ⟨h.represents, h.inOrder, fun now => ?_⟩
  obtain ⟨t, l, hsweep, hrep, -⟩ := sweep_spec now h.represents h.inOrder
  refine ⟨t, l, _, hsweep, by simp, hrep, fun socks order hkeys hstart hnodup horder => ?_⟩
  have hperm : order.Perm xs :=
    List.perm_of_nodup_nodup_toFinset_eq hnodup h.represents.nodup (horder.trans hkeys)
  rw [scan_spec]
  constructor
  · refine (hperm.filter _).trans (.of_eq (List.filter_congr fun fd hfd => ?_))
    rw [hstart fd hfd]
  · intro fd
    simp only [Finset.mem_filter, hkeys, List.mem_toFinset, hperm.mem_iff]
    refine and_congr_right fun hfd => ?_
    rw [hstart fd hfd]
    tauto

end Runs

/-- Descriptor 5 is unlinked from the middle and reused with an equal time stamp. -/
def reuseOfDescriptor : List ListAct :=
  [.insert 3 80 0, .insert 5 81 10, .insert 4 82 10, .unlink 5, .insert 5 83 1000000000,
    .insert 6 84 1000000000, .sweep 2000000005]

theorem sweep_refines_scan_reuse :
    ∃ s evs, (listSystem 8 0).Run s evs ∧ evs = [3] ∧ s.contents = [4, 5, 6] ∧
      InOrder s.table s.contents ∧
      ∃ table' list', sweep 2500000000 4 s.table s.list = some (table', list', [4]) := by
  obtain ⟨s, evs, hrun, hq⟩ := (listSystem 8 0).exists_run_of_exec (fun _ _ => True)
    reuseOfDescriptor (fun s evs => decide (evs = [3] ∧ s.contents = [4, 5, 6] ∧
      (sweep 2500000000 4 s.table s.list).map (fun r => r.2.2) = some [4])) (by decide +kernel)
  obtain ⟨hevs, hcontents, hclosed⟩ := of_decide_eq_true hq
  obtain ⟨-, hord, hsweep⟩ := sweep_refines_scan hrun
  obtain ⟨t, l, closed, hs, -⟩ := hsweep 2500000000
  have hrun₄ := hs 4 (by simp [hcontents])
  rw [hrun₄, Option.map_some, Option.some.injEq] at hclosed
  exact ⟨s, evs, hrun, hevs, hcontents, hord, t, l, hclosed ▸ hrun₄⟩

end Knocker
