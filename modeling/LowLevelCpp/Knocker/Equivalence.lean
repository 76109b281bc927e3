import LowLevelCpp.Knocker.EpollTimer
import LowLevelCpp.Knocker.Intrusive

/-!
`knocker-intrusive.cc` against `knocker-epoll-timer.cc`: the list threaded through the table
stands for the map of start times, and the sweep that looks at the head only stands for one scan
of that map. A sweep of several steps is matched when it ends, with the map iterated in the order
of the list.
-/
namespace Knocker
open Foundations Foundations.System

/-- A list whose head-to-tail path is known has one content. -/
theorem Represents.unique {table : Table} {list : ConnList} {xs ys : List ℕ}
    (hxs : Represents table list xs) (hys : Represents table list ys) : xs = ys := by
  have hx := hxs.forward.follow_eq hxs.length_le
  have hy := hys.forward.follow_eq hys.length_le
  exact hx.symm.trans hy

/-- The map holds the connections `xs` with the start times of the table. -/
structure Mirrors (socks : ActiveSocks) (table : Table) (xs : List ℕ) : Prop where
  keys : socks.keys = xs.toFinset
  start : ∀ fd ∈ xs, socks.start fd = table.start fd

section Mirror
variable {socks : ActiveSocks} {table table' : Table} {xs : List ℕ} {fd : ℕ} {now : ℤ}

theorem Mirrors.nonempty (h : Mirrors socks table xs) : socks.keys.Nonempty ↔ 0 < xs.length := by
  rw [h.keys, List.length_pos_iff, Finset.nonempty_iff_ne_empty, Ne, List.toFinset_eq_empty_iff]

theorem Mirrors.card (h : Mirrors socks table xs) (hnodup : xs.Nodup) :
    socks.keys.card = xs.length := by
  rw [h.keys, List.toFinset_card_of_nodup hnodup]

theorem Mirrors.insert (h : Mirrors socks table xs) (hfd : fd ∉ xs)
    (hstart : table'.start = Function.update table.start fd now) :
    Mirrors (socks.insert fd now) table' (xs ++ [fd]) := by
  constructor
  · ext x
    simp [ActiveSocks.insert, h.keys]
  · intro x hx
    rcases List.mem_append.mp hx with hx | hx
    · have hne : x ≠ fd := fun he => hfd (by rwa [← he])
      simp [ActiveSocks.insert, hstart, hne, h.start x hx]
    · simp [ActiveSocks.insert, hstart, List.mem_singleton.mp hx]

theorem Mirrors.erase (h : Mirrors socks table xs) (hnodup : xs.Nodup)
    (hstart : table'.start = table.start) : Mirrors (socks.erase fd) table' (xs.erase fd) := by
  constructor
  · ext x
    simp [ActiveSocks.erase, h.keys, hnodup.mem_erase_iff]
  · intro x hx
    rw [hstart]
    exact h.start x (List.mem_of_mem_erase hx)

/-- The scan of a map with an expired part `swept` and nothing expired behind it. -/
theorem Mirrors.scan {swept : List ℕ} (h : Mirrors socks table (swept ++ xs))
    (hswept : ∀ fd ∈ swept, Expired now (table.start fd))
    (hxs : ∀ fd ∈ xs, ¬ Expired now (table.start fd)) :
    ∃ socks', scan now (swept ++ xs) socks = (socks', swept) ∧ Mirrors socks' table xs := by
  have hexpired : ∀ fd ∈ swept, Expired now (socks.start fd) := by
    intro fd hfd
    rw [h.start fd (by simp [hfd])]
    exact hswept fd hfd
  have hkept : ∀ fd ∈ xs, ¬ Expired now (socks.start fd) := by
    intro fd hfd
    rw [h.start fd (by simp [hfd])]
    exact hxs fd hfd
  refine ⟨_, Prod.ext rfl ?_, ?_, ?_⟩
  · simp only [scan_spec, List.filter_append]
    rw [List.filter_eq_self.mpr (by simpa using hexpired),
      List.filter_eq_nil_iff.mpr (by simpa using hkept), List.append_nil]
  · ext fd
    simp only [scan_spec, h.keys, Finset.mem_filter, List.mem_toFinset, List.mem_append]
    constructor
    · rintro ⟨hin | hin, hnot⟩
      · exact absurd ⟨.inl hin, hexpired fd hin⟩ hnot
      · exact hin
    · exact fun hin => ⟨.inr hin, fun hboth => hkept fd hin hboth.2⟩
  · intro fd hfd
    simp only [scan_spec]
    exact h.start fd (by simp [hfd])

end Mirror

/-- Nothing behind an unexpired head has expired. -/
theorem InOrder.unexpired {table : Table} {xs : List ℕ} {now : ℤ} (h : InOrder table xs)
    (hhead : xs.head?.filter (fun fd => Expired now (table.start fd)) = none) :
    ∀ fd ∈ xs, ¬ Expired now (table.start fd) := by
  cases xs with
  | nil => simp
  | cons x xs =>
    have hx : ¬ Expired now (table.start x) := by simpa using hhead
    intro fd hfd
    rcases List.mem_cons.mp hfd with rfl | hfd
    · exact hx
    · have hle := (List.pairwise_cons.mp h).1 fd hfd
      unfold Expired at hx ⊢
      omega

namespace Intrusive

/-- Where `main` of `knocker-epoll-timer.cc` stands at the same time. Its scan of the map is one
step, so that it has no place inside the sweep. -/
def Phase.toTimer : Phase → Option EpollTimer.Phase
  | .loop => some .loop
  | .fill => some .fill
  | .wait => some .wait
  | .batch events => some (.batch events)
  | .done => some .done
  | .sweep _ _ => none
  | .failed => none

def State.toList (s : State) : ListState := ⟨s.table, s.in_flight, s.clock⟩

/-- Outside the sweep the two programs agree on everything but the container. -/
structure Settled (env : TimerEnv) (s : State) (t : EpollTimer.State) (xs : List ℕ) : Prop where
  consistent : Consistent env s xs
  timed : Timed s.toList xs
  mirrors : Mirrors t.active_socks s.table xs
  kernel : t.kernel = s.kernel
  port : t.port = s.port
  clock : t.clock = s.clock
  phase : s.phase.toTimer = some t.phase

/-- In the sweep the other program still stands before the timer event, and `swept` are the
connections that its scan will find. -/
structure Sweeping (env : TimerEnv) (s : State) (t : EpollTimer.State) (swept xs : List ℕ) :
    Prop where
  consistent : Consistent env s xs
  timed : Timed s.toList xs
  mirrors : Mirrors t.active_socks s.table (swept ++ xs)
  nodup : (swept ++ xs).Nodup
  expired : ∀ fd ∈ swept, Expired s.clock (s.table.start fd)
  kernel : s.kernel = swept.foldl cleanup t.kernel
  port : t.port = s.port
  clock : t.clock ≤ s.clock
  phase : ∃ ev rest, t.phase = .batch (ev :: rest) ∧ unpackPort ev = 0 ∧
    s.phase = .sweep s.clock rest

/-- The run of the other program that goes with a state and its log. -/
inductive Matched (env : TimerEnv) (clock : ℤ) (s : State) (log : List Event) : Prop
  | settled (t : EpollTimer.State) (xs : List ℕ) :
      (EpollTimer.system env clock).Run t log → Settled env s t xs → Matched env clock s log
  | sweeping (t : EpollTimer.State) (tlog : List Event) (swept xs : List ℕ) :
      (EpollTimer.system env clock).Run t tlog → log = tlog ++ swept.map .retired →
      Sweeping env s t swept xs → Matched env clock s log
  | failed : s.phase = .failed → Matched env clock s log

section Steps
variable {env : TimerEnv} {max_fd : ℕ} {clock : ℤ} {s s' : State} {t : EpollTimer.State}
  {xs swept : List ℕ} {log tlog evs : List Event} {fd : ℕ} {phase : Phase}

/-- Retiring a connection takes it out of the list and leaves the start times. -/
theorem retire_timed (h : Consistent env s xs) (ht : Timed s.toList xs)
    (hfd : fd ∈ s.kernel.sockets) (hphase : phase ≠ .done) (hs : s.retire fd phase = some s') :
    Consistent env s' (xs.erase fd) ∧ Timed s'.toList (xs.erase fd) ∧
      s'.table.start = s.table.start ∧ s'.kernel = cleanup s.kernel fd ∧ s'.port = s.port ∧
      s'.clock = s.clock ∧ s'.phase = phase := by
  have hconsistent := h.retire hfd hphase hs
  have hmem := (h.pending fd).mpr hfd
  obtain ⟨table, in_flight, hretire, rfl⟩ := retire_cases hs
  obtain ⟨as, bs, -, rfl, -⟩ := List.exists_erase_eq hmem
  obtain ⟨t, l, hr, -, -, hstart, -⟩ := retire_spec h.represents
  obtain ⟨rfl, rfl⟩ := Prod.mk.inj (Option.some.inj (hr.symm.trans hretire))
  have hunlink : s.toList.step (.unlink fd) = some (⟨t, l, s.clock⟩, []) := by
    simp only [ListState.step, ht.contents, if_pos hmem]
    simp [State.toList, hretire]
  exact ⟨hconsistent, ht.unlink hunlink, hstart, rfl, rfl, rfl, rfl⟩

theorem Settled.move (h : Settled env s t xs) (phase : Phase) {tphase : EpollTimer.Phase}
    (hphase : phase.toTimer = some tphase) (hdone : phase ≠ .done) :
    Settled env { s with phase } { t with phase := tphase } xs :=
  ⟨h.consistent.of_control hdone, h.timed, h.mirrors, h.kernel, h.port, h.clock, hphase⟩

theorem Settled.phase_eq {tphase : EpollTimer.Phase} (h : Settled env s t xs)
    (hphase : s.phase = phase) (htimer : phase.toTimer = some tphase) : t.phase = tphase := by
  have heq := h.phase
  rw [hphase, htimer, Option.some.injEq] at heq
  exact heq.symm

/-- The tests of the two fill loops agree. -/
theorem Settled.canFill (h : Settled env s t xs) :
    s.CanFill env ↔
      t.active_socks.keys.card < MAX_IN_FLIGHT ∧ t.port ≤ env.range.end_port := by
  have hcount := h.consistent.count
  rw [State.CanFill, h.mirrors.card h.consistent.represents.nodup, h.port]
  omega

/-- The tests of the two outer loops agree. -/
theorem Settled.canLoop (h : Settled env s t xs) :
    (s.port ≤ env.range.end_port ∨ s.in_flight_count > 0) ↔
      t.port ≤ env.range.end_port ∨ t.active_socks.keys.Nonempty := by
  have hcount := h.consistent.count
  rw [h.mirrors.nonempty, h.port]
  omega

theorem Settled.ready {ev : BitVec 64} {rest : List (BitVec 64)} (h : Settled env s t xs)
    (hrun : (EpollTimer.system env clock).Run t log) (hphase : s.phase = .batch (ev :: rest))
    (hport : unpackPort ev ≠ 0) (hfd : unpackFd ev ∈ s.kernel.sockets)
    (hs : s.retire (unpackFd ev) (.batch rest) = some s') :
    Matched env clock s' (log ++
      (report env.toEnv s.kernel (unpackFd ev) (unpackPort ev) ++ [.retired (unpackFd ev)])) := by
  have hnodup := h.consistent.represents.nodup
  have htphase : t.phase = .batch (ev :: rest) := h.phase_eq hphase rfl
  obtain ⟨hconsistent, htimed, hstart, hkernel, hport', hclock, hphase'⟩ :=
    retire_timed h.consistent h.timed hfd (by simp) hs
  refine .settled ⟨cleanup t.kernel (unpackFd ev), t.port, t.active_socks.erase (unpackFd ev),
    t.clock, .batch rest⟩ (xs.erase (unpackFd ev)) (hrun.step (a := .tick) trivial ?_) ?_
  · simp [EpollTimer.system, EpollTimer.step, htphase, hport, h.kernel]
  · exact ⟨hconsistent, htimed, h.mirrors.erase hnodup hstart, by rw [h.kernel, hkernel],
      h.port.trans hport'.symm, h.clock.trans hclock.symm, by rw [hphase']; rfl⟩

/-- A pending connection enters the map when it enters the list. -/
theorem Settled.connect {res : ConnectResult} {now : ℤ} (h : Settled env s t xs)
    (hrun : (EpollTimer.system env clock).Run t log) (hphase : s.phase = .fill)
    (hfill : s.CanFill env) (hnow : s.clock ≤ now) (hvalid : env.validAddress = true)
    (hs : s.fill env fd res now = some (s', evs)) : Matched env clock s' (log ++ evs) := by
  have htphase : t.phase = .fill := h.phase_eq hphase rfl
  obtain ⟨xs', hconsistent⟩ := h.consistent.fill hphase hfill hs
  have hroom := h.canFill.mp hfill
  obtain ⟨kernel, ha, hcases⟩ := fill_cases hs
  refine .settled ⟨kernel, t.port + 1,
    if res = .inProgress then t.active_socks.insert fd now else t.active_socks, now, .fill⟩ xs'
    (hrun.step (a := .connect fd res now) trivial ?_) ?_
  · rw [← h.kernel, ← h.port] at ha
    have hguard : t.clock ≤ now := h.clock ▸ hnow
    simp [EpollTimer.system, EpollTimer.step, htphase, hroom, hguard, hvalid, ha]
  · rcases hcases with ⟨hres, table, in_flight, hreg, rfl⟩ | ⟨hres, rfl⟩
    · have hnew : fd ∉ xs := fun hin =>
        (attempt_eq_some ha).1.1 ((h.consistent.pending fd).mp hin)
      obtain ⟨table', list', hreg', hrep, -, hstart, -⟩ :=
        register_spec h.consistent.represents hnew (register_inTable hreg) s.port now
      obtain ⟨rfl, rfl⟩ := Prod.mk.inj (Option.some.inj (hreg'.symm.trans hreg))
      obtain rfl : xs' = xs ++ [fd] := hconsistent.represents.unique hrep
      have hinsert : s.toList.step (.insert fd s.port now) = some (⟨table', list', now⟩, []) := by
        simp only [ListState.step, h.timed.contents]
        simp [State.toList, hnew, hnow, hreg]
      refine ⟨hconsistent, h.timed.insert hinsert, ?_, rfl, by simp [h.port], rfl, rfl⟩
      simpa [hres] using h.mirrors.insert hnew hstart
    · obtain rfl : xs' = xs := hconsistent.represents.unique h.consistent.represents
      refine ⟨hconsistent, ?_, by simpa [hres] using h.mirrors, rfl, by simp [h.port], rfl, ?_⟩
      · exact ⟨h.timed.represents, h.timed.inOrder, fun x hx => (h.timed.started x hx).trans hnow⟩
      · simp [hphase, Phase.toTimer]

/-- A step that only moves on is the same step of the other program. -/
theorem Settled.follow {tphase : EpollTimer.Phase} (h : Settled env s t xs)
    (hrun : (EpollTimer.system env clock).Run t log) (phase : Phase) (act : EpollTimer.Act)
    (hphase : phase.toTimer = some tphase) (hdone : phase ≠ .done)
    (hs : EpollTimer.step env t act = some ({ t with phase := tphase }, [])) :
    Matched env clock { s with phase } (log ++ []) :=
  .settled _ xs (hrun.step (a := act) trivial hs) (h.move phase hphase hdone)

/-- Nothing is left: the list is empty, and so is the map. -/
theorem Settled.finish (h : Settled env s t xs) (hrun : (EpollTimer.system env clock).Run t log)
    (hphase : s.phase = .loop)
    (hguard : ¬ (s.port ≤ env.range.end_port ∨ s.in_flight_count > 0)) :
    Matched env clock { s with phase := .done } (log ++ []) := by
  have htphase : t.phase = .loop := h.phase_eq hphase rfl
  have hcount := h.consistent.count
  have hempty : xs = [] := List.length_eq_zero_iff.mp (by omega)
  refine .settled { t with phase := .done } xs (hrun.step (a := .tick) trivial ?_) ?_
  · simp [EpollTimer.system, EpollTimer.step, htphase, h.canLoop.not.mp hguard]
  · exact ⟨⟨h.consistent.represents, h.consistent.pending, h.consistent.active, hcount,
      h.consistent.bounded, fun _ => ⟨by simp only; omega, hempty⟩⟩, h.timed, h.mirrors,
      h.kernel, h.port, h.clock, rfl⟩

theorem Settled.tick (h : Settled env s t xs) (hrun : (EpollTimer.system env clock).Run t log)
    (hopen : NextOpen s .tick) (hs : Intrusive.step env max_fd s .tick = some (s', evs)) :
    Matched env clock s' (log ++ evs) := by
  simp only [Intrusive.step] at hs
  split at hs
  · rename_i hphase
    have htphase : t.phase = .loop := h.phase_eq hphase rfl
    split at hs
    · rename_i hguard
      obtain ⟨rfl, rfl⟩ := Prod.mk.inj (Option.some.inj hs)
      refine h.follow hrun .fill .tick rfl (by simp) ?_
      simp [EpollTimer.step, htphase, h.canLoop.mp hguard]
    · rename_i hguard
      obtain ⟨rfl, rfl⟩ := Prod.mk.inj (Option.some.inj hs)
      exact h.finish hrun hphase hguard
  · rename_i hphase
    have htphase : t.phase = .fill := h.phase_eq hphase rfl
    split at hs
    · cases hs
    · rename_i hguard
      obtain ⟨rfl, rfl⟩ := Prod.mk.inj (Option.some.inj hs)
      refine h.follow hrun .wait .tick rfl (by simp) ?_
      simp [EpollTimer.step, htphase, h.canFill.not.mp hguard]
  · rename_i hphase
    have htphase : t.phase = .batch [] := h.phase_eq hphase rfl
    obtain ⟨rfl, rfl⟩ := Prod.mk.inj (Option.some.inj hs)
    refine h.follow hrun .loop .tick rfl (by simp) ?_
    simp [EpollTimer.step, htphase]
  · rename_i ev rest hphase
    split at hs
    · cases hs
    · rename_i hport
      obtain ⟨s₁, hretire, hs₁⟩ := Option.map_eq_some_iff.mp hs
      obtain ⟨rfl, rfl⟩ := Prod.mk.inj hs₁
      have hfd := hopen ev (by simp [hphase, Phase.next]) hport
      exact h.ready hrun hphase hport hfd hretire
  · rename_i now rest hphase
    have hnone := h.phase
    simp [hphase, Phase.toTimer] at hnone
  · cases hs

theorem Settled.wait {fds : List ℕ} (h : Settled env s t xs)
    (hrun : (EpollTimer.system env clock).Run t log)
    (hs : Intrusive.step env max_fd s (.wait fds) = some (s', evs)) :
    Matched env clock s' (log ++ evs) := by
  simp only [Intrusive.step] at hs
  split at hs
  · rename_i hphase
    obtain ⟨events, hw, hr⟩ := Option.map_eq_some_iff.mp hs
    obtain ⟨rfl, rfl⟩ := Prod.mk.inj hr
    have htphase : t.phase = .wait := h.phase_eq hphase rfl
    refine h.follow hrun (.batch events) (.wait fds) rfl (by simp) ?_
    simp [EpollTimer.step, htphase, h.kernel, hw]
  · cases hs

/-- A pulse opens the sweep; the other program is left where it is until the sweep ends. -/
theorem Settled.pulse {now : ℤ} (h : Settled env s t xs)
    (hrun : (EpollTimer.system env clock).Run t log)
    (hs : Intrusive.step env max_fd s (.timer now) = some (s', evs)) :
    Matched env clock s' (log ++ evs) := by
  simp only [Intrusive.step] at hs
  split at hs
  · rename_i ev rest hphase
    split at hs
    · rename_i hguard
      obtain ⟨rfl, rfl⟩ := Prod.mk.inj (Option.some.inj hs)
      refine .sweeping t log [] xs hrun (by simp) ?_
      exact {
        consistent := h.consistent.of_control (by simp)
        timed := ⟨h.timed.represents, h.timed.inOrder,
          fun x hx => (h.timed.started x hx).trans hguard.2⟩
        mirrors := h.mirrors
        nodup := h.consistent.represents.nodup
        expired := by simp
        kernel := h.kernel.symm
        port := h.port
        clock := h.clock.le.trans hguard.2
        phase := ⟨ev, rest, h.phase_eq hphase rfl, hguard.1, rfl⟩ }
    · cases hs
  · cases hs

theorem Settled.step {act : Act} (h : Settled env s t xs)
    (hrun : (EpollTimer.system env clock).Run t log) (hopen : NextOpen s act)
    (hs : Intrusive.step env max_fd s act = some (s', evs)) :
    Matched env clock s' (log ++ evs) := by
  cases act with
  | tick => exact h.tick hrun hopen hs
  | noSocket =>
    simp only [Intrusive.step] at hs
    split at hs
    · obtain ⟨rfl, rfl⟩ := Prod.mk.inj (Option.some.inj hs)
      exact .failed rfl
    · cases hs
  | connect fd res now =>
    simp only [Intrusive.step] at hs
    split at hs
    · rename_i hguard
      split at hs
      · split at hs
        · obtain ⟨rfl, rfl⟩ := Prod.mk.inj (Option.some.inj hs)
          exact .failed rfl
        · cases hs
      · rename_i hvalid
        exact h.connect hrun hguard.1 hguard.2.1 hguard.2.2 (by simpa using (not_or.mp hvalid).2) hs
    · cases hs
  | wait fds => exact h.wait hrun hs
  | timer now => exact h.pulse hrun hs

/-- One iteration of the sweep: the head goes over to what the scan will find. -/
theorem Sweeping.expire {now : ℤ} {rest : List (BitVec 64)} (h : Sweeping env s t swept xs)
    (hphase : s.phase = .sweep now rest)
    (hhead : expiredHead now s.table s.in_flight = some (some fd))
    (hs : s.retire fd (.sweep now rest) = some s') :
    Sweeping env s' t (swept ++ [fd]) (xs.erase fd) := by
  obtain ⟨ev, rest', htphase, hport, hsphase⟩ := h.phase
  obtain ⟨rfl, rfl⟩ : now = s.clock ∧ rest = rest' := by simpa [hphase] using hsphase
  rw [expiredHead_spec h.consistent.represents, Option.some.injEq,
    Option.filter_eq_some_iff] at hhead
  obtain ⟨ys, rfl⟩ := List.head?_eq_some_iff.mp hhead.1
  have hfd := (h.consistent.pending fd).mp (by simp)
  obtain ⟨hconsistent, htimed, hstart, hkernel, hport', hclock, hphase'⟩ :=
    retire_timed h.consistent h.timed hfd (by simp) hs
  rw [List.erase_cons_head] at hconsistent htimed ⊢
  have hassoc : swept ++ fd :: ys = (swept ++ [fd]) ++ ys := by simp
  refine ⟨hconsistent, htimed, ⟨?_, ?_⟩, hassoc ▸ h.nodup, ?_, ?_, ?_, ?_, ?_⟩
  · rw [← hassoc]
    exact h.mirrors.keys
  · rw [hstart, ← hassoc]
    exact h.mirrors.start
  · intro x hx
    rw [hclock, hstart]
    rcases List.mem_append.mp hx with hx | hx
    · exact h.expired x hx
    · rw [List.mem_singleton.mp hx]
      exact of_decide_eq_true hhead.2
  · rw [hkernel, h.kernel, List.foldl_append]
    rfl
  · rw [hport']
    exact h.port
  · rw [hclock]
    exact h.clock
  · exact ⟨ev, rest, htphase, hport, by rw [hphase', hclock]⟩

/-- At the end of the sweep the scan of the other program catches up. -/
theorem Sweeping.stop {now : ℤ} {rest : List (BitVec 64)} (h : Sweeping env s t swept xs)
    (hrun : (EpollTimer.system env clock).Run t tlog) (hphase : s.phase = .sweep now rest)
    (hhead : expiredHead now s.table s.in_flight = some none) :
    Matched env clock { s with phase := .batch rest } (tlog ++ swept.map .retired) := by
  obtain ⟨ev, rest', htphase, hport, hsphase⟩ := h.phase
  obtain ⟨rfl, rfl⟩ : now = s.clock ∧ rest = rest' := by simpa [hphase] using hsphase
  rw [expiredHead_spec h.consistent.represents, Option.some.injEq] at hhead
  have hkept := h.timed.inOrder.unexpired hhead
  obtain ⟨socks, hscan, hmirrors⟩ := h.mirrors.scan h.expired hkept
  refine .settled ⟨swept.foldl cleanup t.kernel, t.port, socks, s.clock, .batch rest⟩ xs
    (hrun.step (a := .timer s.clock (swept ++ xs)) trivial ?_) ?_
  · have hguard : unpackPort ev = 0 ∧ t.clock ≤ s.clock ∧ (swept ++ xs).Nodup ∧
        (swept ++ xs).toFinset = t.active_socks.keys :=
      ⟨hport, h.clock, h.nodup, h.mirrors.keys.symm⟩
    simp only [EpollTimer.system, EpollTimer.step, htphase, if_pos hguard, hscan]
  · exact ⟨h.consistent.of_control (by simp), h.timed, hmirrors, h.kernel.symm, h.port, rfl, rfl⟩

theorem Sweeping.step {act : Act} (h : Sweeping env s t swept xs)
    (hrun : (EpollTimer.system env clock).Run t tlog)
    (hs : Intrusive.step env max_fd s act = some (s', evs)) :
    Matched env clock s' (tlog ++ swept.map .retired ++ evs) := by
  obtain ⟨ev, rest, htphase, hport, hphase⟩ := h.phase
  cases act with
  | tick =>
    simp only [Intrusive.step, hphase] at hs
    obtain ⟨head, hhead, hs₁⟩ := Option.bind_eq_some_iff.mp hs
    cases head with
    | none =>
      obtain ⟨rfl, rfl⟩ := Prod.mk.inj (Option.some.inj hs₁)
      rw [List.append_nil]
      exact h.stop hrun hphase hhead
    | some fd =>
      obtain ⟨s₁, hretire, hs₂⟩ := Option.map_eq_some_iff.mp hs₁
      obtain ⟨rfl, rfl⟩ := Prod.mk.inj hs₂
      exact .sweeping t tlog (swept ++ [fd]) (xs.erase fd) hrun (by simp)
        (h.expire hphase hhead hretire)
  | noSocket => simp [Intrusive.step, hphase] at hs
  | connect fd res now => simp [Intrusive.step, hphase] at hs
  | wait fds => simp [Intrusive.step, hphase] at hs
  | timer now => simp [Intrusive.step, hphase] at hs

end Steps

section Runs
variable {env : TimerEnv} {max_fd : ℕ} {clock : ℤ} {s : State} {log : List Event}

theorem matched_of_run (hrun : (system env max_fd clock).RunWhere NextOpen s log) :
    Matched env clock s log := by
  induction hrun with
  | init =>
    refine .settled (EpollTimer.system env clock).init [] .init ?_
    refine ⟨?_, ⟨represents_empty max_fd, List.Pairwise.nil, by simp⟩, ⟨rfl, by simp⟩, rfl, rfl,
      rfl, rfl⟩
    have hinit : (system env max_fd clock).RunWhere NextOpen (system env max_fd clock).init [] :=
      .init
    obtain ⟨xs, h⟩ := consistent_of_run hinit
    obtain rfl : xs = [] := h.represents.unique (represents_empty max_fd)
    exact h
  | @step s log act s' evs hrun hopen hs ih =>
    cases ih with
    | settled t xs ht h => exact h.step ht hopen hs
    | sweeping t tlog swept xs ht hlog h =>
      rw [hlog]
      exact h.step ht hs
    | failed hphase =>
      have hnone : Intrusive.step env max_fd s act = none := by
        cases act <;> simp [Intrusive.step, hphase]
      simp [system, hnone] at hs

/-- Every run of `knocker-intrusive.cc` in which no event of a closed socket is handled is a run of
`knocker-epoll-timer.cc`: outside the sweep, and unless the program has given up, that program
reaches the same kernel, port and clock with the same log, and its map holds the members of the
list with their start times. -/
theorem refines_epoll_timer (hrun : (system env max_fd clock).RunWhere NextOpen s log)
    (hphase : s.phase.toTimer.isSome) :
    ∃ t xs, (EpollTimer.system env clock).Run t log ∧ Settled env s t xs := by
  cases matched_of_run hrun with
  | settled t xs ht h => exact ⟨t, xs, ht, h⟩
  | sweeping t tlog swept xs ht hlog h =>
    obtain ⟨ev, rest, -, -, hsweep⟩ := h.phase
    simp [hsweep, Phase.toTimer] at hphase
  | failed hfailed => simp [hfailed, Phase.toTimer] at hphase

end Runs

/-- Two ports that do not answer in time, and one that does in the meantime. -/
def slowPorts : TimerEnv where
  range := (checkRange 8000 8002).get rfl
  outcome p := if p = 8001 then 0 else 111
  validAddress := true
  reserved := {0, 1, 2, 3, 4, 5, 6}
  reserved_lt := by decide
  timer_fd := 6
  timer_reserved := by decide

/-- The answer is taken out of the middle of the list; one sweep retires the two others. -/
def overtaken : List Act :=
  [.tick, .connect 7 .inProgress 0, .connect 8 .inProgress 3, .connect 9 .inProgress 5, .tick,
    .wait [8, 6], .tick, .timer 2000000009, .tick, .tick, .tick, .tick, .tick]

theorem refines_epoll_timer_overtaken :
    ∃ s log t xs, (EpollTimer.system slowPorts 0).Run t log ∧ Settled slowPorts s t xs ∧
      t.phase = .done ∧ log.getLast? = some (.retired 9) := by
  obtain ⟨s, log, hrun, hq⟩ := (system slowPorts 16 0).exists_run_of_exec NextOpen overtaken
    (fun s log => decide (s.phase = .done ∧ log.getLast? = some (.retired 9))) (by decide +kernel)
  obtain ⟨hphase, hlast⟩ := of_decide_eq_true hq
  obtain ⟨t, xs, ht, h⟩ := refines_epoll_timer hrun (by simp [hphase, Phase.toTimer])
  exact ⟨s, log, t, xs, ht, h, h.phase_eq hphase rfl, hlast⟩

end Intrusive
end Knocker
