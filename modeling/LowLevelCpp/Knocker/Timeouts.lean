import LowLevelCpp.Foundations.Clients
import LowLevelCpp.Knocker.EpollTimer

/-!
The timer of `knocker-epoll-timer.cc` is there for targets that drop packets. With it the main
loop ends whatever the network does: each port costs a bounded number of steps, of which an
answer, a refusal or a bounded number of pulses pays for each.
-/
namespace Knocker
open Foundations Foundations.System

section Cleanup
variable {k : Kernel} {fds : List ℕ}

theorem foldl_cleanup_sockets : (fds.foldl cleanup k).sockets = k.sockets \ fds.toFinset := by
  induction fds generalizing k with
  | nil => simp
  | cons fd fds ih =>
    rw [List.foldl_cons, ih, Scanner.cleanup_sockets]
    ext x
    simp only [Finset.mem_sdiff, Finset.mem_erase, List.mem_toFinset, List.mem_cons]
    tauto

theorem foldl_cleanup_registered :
    (fds.foldl cleanup k).registered = k.registered \ fds.toFinset := by
  induction fds generalizing k with
  | nil => simp
  | cons fd fds ih =>
    rw [List.foldl_cons, ih, Scanner.cleanup_registered]
    ext x
    simp only [Finset.mem_sdiff, Finset.mem_erase, List.mem_toFinset, List.mem_cons]
    tauto

/-- An attempt leaves the descriptors of others alone. -/
theorem attempt_reserved {env : Env} {k' : Kernel} {port fd fd' : ℕ} {res : ConnectResult}
    {evs : List Event} (h : attempt env k port fd res = some (k', evs)) (hfd : fd' ∈ env.reserved)
    (hk : fd' ∈ k.registered) : fd' ∈ k'.registered := by
  obtain ⟨hfresh, hcases⟩ := attempt_eq_some h
  have hne : fd' ≠ fd := fun he => hfresh.2.1 (he ▸ hfd)
  rcases hcases with ⟨-, -, rfl, -⟩ | ⟨-, rfl, -⟩ | ⟨-, -, rfl, -⟩
  · exact Finset.mem_erase.mpr ⟨hne, hk⟩
  · exact Finset.mem_insert_of_mem hk
  · exact Finset.mem_erase.mpr ⟨hne, hk⟩

end Cleanup

namespace EpollTimer

/-- The bookkeeping of the main loop. -/
structure Booked (env : TimerEnv) (s : State) : Prop where
  keys : s.active_socks.keys = s.kernel.sockets
  bounded : s.active_socks.keys.card ≤ MAX_IN_FLIGHT
  started : ∀ fd ∈ s.active_socks.keys, s.active_socks.start fd ≤ s.clock
  timer : env.timer_fd ∈ s.kernel.registered
  foreign : ∀ ev ∈ s.phase.events, unpackPort ev ≠ 0 → unpackFd ev ∉ env.reserved
  batch : s.phase.events.length ≤ MAX_EVENTS
  waiting : s.phase = .wait → s.active_socks.keys.Nonempty ∨ env.range.end_port < s.port
  exit : s.phase = .done → env.range.end_port < s.port ∧ s.active_socks.keys = ∅

section Bookkeeping
variable {env : TimerEnv} {clock : ℤ} {s s' : State} {log evs : List Event}

/-- What a scan of the whole map keeps. -/
theorem scan_keys {socks : ActiveSocks} {order : List ℕ} {now : ℤ}
    (horder : order.toFinset = socks.keys) :
    scan now order socks =
      ({ socks with keys := socks.keys.filter fun fd => ¬ Expired now (socks.start fd) },
        order.filter fun fd => Expired now (socks.start fd)) := by
  have hkeys : (socks.keys.filter fun fd => ¬ (fd ∈ order ∧ Expired now (socks.start fd))) =
      socks.keys.filter fun fd => ¬ Expired now (socks.start fd) := by
    refine Finset.filter_congr fun fd hfd => ?_
    rw [← horder, List.mem_toFinset] at hfd
    simp [hfd]
  rw [scan_spec, hkeys]

theorem Booked.attempt {fd : ℕ} {res : ConnectResult} {now : ℤ} {kernel : Kernel}
    (h : Booked env s) (hroom : s.active_socks.keys.card < MAX_IN_FLIGHT) (hnow : s.clock ≤ now)
    (ha : attempt env.toEnv s.kernel s.port fd res = some (kernel, evs)) :
    Booked env ⟨kernel, s.port + 1,
      if res = .inProgress then s.active_socks.insert fd now else s.active_socks, now, .fill⟩ := by
  have hsockets := attempt_sockets ha
  have hnew : fd ∉ s.active_socks.keys := h.keys ▸ (attempt_eq_some ha).1.1
  have htimer := attempt_reserved ha env.timer_reserved h.timer
  by_cases hres : res = .inProgress
  · rw [if_pos hres] at hsockets ⊢
    refine ⟨?_, ?_, ?_, htimer, by simp [Phase.events], by simp [Phase.events], by simp, by simp⟩
    · rw [hsockets, ← h.keys]
      rfl
    · change (insert fd s.active_socks.keys).card ≤ MAX_IN_FLIGHT
      rw [Finset.card_insert_of_notMem hnew]
      exact hroom
    · intro x hx
      rcases Finset.mem_insert.mp hx with rfl | hx
      · simp [ActiveSocks.insert]
      · have hne : x ≠ fd := fun he => hnew (he ▸ hx)
        simpa [ActiveSocks.insert, hne] using (h.started x hx).trans hnow
  · rw [if_neg hres] at hsockets ⊢
    exact ⟨hsockets ▸ h.keys, h.bounded, fun x hx => (h.started x hx).trans hnow, htimer,
      by simp [Phase.events], by simp [Phase.events], by simp, by simp⟩

theorem Booked.timer_event {ev : BitVec 64} {rest : List (BitVec 64)} {order : List ℕ} {now : ℤ}
    (h : Booked env s) (hphase : s.phase = .batch (ev :: rest)) (hnow : s.clock ≤ now)
    (hsockets : ∀ fd ∈ s.kernel.sockets, fd ∉ env.reserved)
    (horder : order.toFinset = s.active_socks.keys) :
    Booked env ⟨(scan now order s.active_socks).2.foldl cleanup s.kernel, s.port,
      (scan now order s.active_socks).1, now, .batch rest⟩ := by
  have hforeign := h.foreign
  have hbatch := h.batch
  simp only [hphase, Phase.events, List.length_cons] at hforeign hbatch
  rw [scan_keys horder]
  refine ⟨?_, ?_, ?_, ?_, ?_, ?_, by simp, by simp⟩
  · ext fd
    simp only [foldl_cleanup_sockets, Finset.mem_filter, Finset.mem_sdiff, List.mem_toFinset,
      List.mem_filter, decide_eq_true_eq, ← h.keys, ← horder]
    tauto
  · exact (Finset.card_filter_le _ _).trans h.bounded
  · exact fun fd hfd => (h.started fd (Finset.mem_of_mem_filter fd hfd)).trans hnow
  · rw [foldl_cleanup_registered]
    refine Finset.mem_sdiff.mpr ⟨h.timer, fun hin => ?_⟩
    have hkey : env.timer_fd ∈ order.toFinset :=
      List.mem_toFinset.mpr (List.mem_of_mem_filter (List.mem_toFinset.mp hin))
    rw [horder, h.keys] at hkey
    exact hsockets _ hkey env.timer_reserved
  · exact fun ev hev => hforeign ev (List.mem_cons_of_mem _ hev)
  · simp only [Phase.events]
    omega

theorem Booked.ready {ev : BitVec 64} {rest : List (BitVec 64)} (h : Booked env s)
    (hphase : s.phase = .batch (ev :: rest)) (hport : unpackPort ev ≠ 0) :
    Booked env ⟨cleanup s.kernel (unpackFd ev), s.port, s.active_socks.erase (unpackFd ev), s.clock,
      .batch rest⟩ := by
  have hforeign := h.foreign
  have hbatch := h.batch
  simp only [hphase, Phase.events, List.length_cons] at hforeign hbatch
  refine ⟨?_, ?_, ?_, ?_, ?_, ?_, by simp, by simp⟩
  · simp [ActiveSocks.erase, h.keys]
  · exact (Finset.card_erase_le).trans h.bounded
  · exact fun fd hfd => h.started fd (Finset.mem_of_mem_erase hfd)
  · rw [Scanner.cleanup_registered]
    refine Finset.mem_erase.mpr ⟨fun he => ?_, h.timer⟩
    exact hforeign ev (by simp) hport (he ▸ env.timer_reserved)
  · exact fun ev hev => hforeign ev (List.mem_cons_of_mem _ hev)
  · simp only [Phase.events]
    omega

/-- A move between two tests of the program. -/
theorem Booked.control (h : Booked env s) {phase : Phase} (hevents : phase.events = [])
    (hwait : phase = .wait → s.active_socks.keys.Nonempty ∨ env.range.end_port < s.port)
    (hdone : phase = .done → env.range.end_port < s.port ∧ s.active_socks.keys = ∅) :
    Booked env { s with phase } :=
  ⟨h.keys, h.bounded, h.started, h.timer, by simp [hevents], by simp [hevents], hwait, hdone⟩

theorem Booked.step {act : Act} (hscan : Scanner.Inv env.toEnv {env.timer_fd} s.toScanner log)
    (h : Booked env s) (hs : EpollTimer.step env s act = some (s', evs)) : Booked env s' := by
  have hsockets (fd : ℕ) (hfd : fd ∈ s.kernel.sockets) : fd ∉ env.reserved :=
    (hscan.socket fd hfd).2.1
  cases act with
  | tick =>
    simp only [EpollTimer.step] at hs
    split at hs
    · split at hs
      · obtain ⟨rfl, rfl⟩ := Prod.mk.inj (Option.some.inj hs)
        exact h.control rfl (by simp) (by simp)
      · rename_i hguard
        obtain ⟨rfl, rfl⟩ := Prod.mk.inj (Option.some.inj hs)
        simp only [not_or, not_le, Finset.not_nonempty_iff_eq_empty] at hguard
        exact h.control rfl (by simp) fun _ => hguard
    · split at hs
      · cases hs
      · rename_i hguard
        obtain ⟨rfl, rfl⟩ := Prod.mk.inj (Option.some.inj hs)
        refine h.control rfl (fun _ => ?_) (by simp)
        by_cases hport : env.range.end_port < s.port
        · exact .inr hport
        · refine .inl (Finset.card_pos.mp ?_)
          unfold MAX_IN_FLIGHT at hguard
          omega
    · obtain ⟨rfl, rfl⟩ := Prod.mk.inj (Option.some.inj hs)
      exact h.control rfl (by simp) (by simp)
    · rename_i hphase
      split at hs
      · cases hs
      · obtain ⟨rfl, rfl⟩ := Prod.mk.inj (Option.some.inj hs)
        exact h.ready hphase ‹_›
    · cases hs
  | noSocket =>
    simp only [EpollTimer.step] at hs
    split at hs
    · obtain ⟨rfl, rfl⟩ := Prod.mk.inj (Option.some.inj hs)
      exact h.control rfl (by simp) (by simp)
    · cases hs
  | connect fd res now =>
    simp only [EpollTimer.step] at hs
    split at hs
    · rename_i hguard
      split at hs
      · obtain ⟨⟨kernel, out⟩, ha, hr⟩ := Option.map_eq_some_iff.mp hs
        obtain ⟨rfl, rfl⟩ := Prod.mk.inj hr
        exact h.attempt hguard.2.1 hguard.2.2.2 ha
      · split at hs
        · obtain ⟨rfl, rfl⟩ := Prod.mk.inj (Option.some.inj hs)
          exact h.control rfl (by simp) (by simp)
        · cases hs
    · cases hs
  | wait fds =>
    simp only [EpollTimer.step] at hs
    split at hs
    · obtain ⟨events, hw, hr⟩ := Option.map_eq_some_iff.mp hs
      obtain ⟨rfl, rfl⟩ := Prod.mk.inj hr
      obtain ⟨-, hregistered, rfl⟩ := Kernel.epollWait_eq_some hw
      refine ⟨h.keys, h.bounded, h.started, h.timer, fun ev hev hport => ?_, ?_, by simp, by simp⟩
      · obtain ⟨fd, hfd, rfl⟩ := List.mem_map.mp hev
        rcases hscan.registered_data env.timers (hregistered fd hfd) with ⟨-, hzero⟩ | ⟨hin, -, he⟩
        · exact absurd hzero hport
        · have hunpack : unpackFd (s.kernel.data fd) = fd := he
          rw [hunpack]
          exact hsockets fd hin
      · unfold Kernel.epollWait at hw
        split at hw
        · rename_i hbatch
          simpa [Phase.events] using hbatch.2.2
        · cases hw
    · cases hs
  | timer now order =>
    simp only [EpollTimer.step] at hs
    split at hs
    · rename_i hphase
      split at hs
      · rename_i hguard
        obtain ⟨rfl, rfl⟩ := Prod.mk.inj (Option.some.inj hs)
        exact h.timer_event hphase hguard.2.1 hsockets hguard.2.2.2
      · cases hs
    · cases hs

theorem scanner_inv {P : State → Act → Prop} (hrun : (system env clock).RunWhere P s log) :
    Scanner.Inv env.toEnv {env.timer_fd} s.toScanner log :=
  Scanner.inv_of_run env.timers
    (toScanner_run (Q := fun _ _ => True) (fun _ _ _ => trivial) (fun _ _ _ => trivial) hrun)

theorem booked_of_run {P : State → Act → Prop} (hrun : (system env clock).RunWhere P s log) :
    Booked env s := by
  refine hrun.invariant (I := fun s _ => Booked env s) ?_
    fun s log act s' evs hrun ih _ hs => ih.step (scanner_inv hrun) hs
  exact ⟨rfl, by simp [system], by simp [system], by simp [system, Kernel.init],
    by simp [system, Phase.events], by simp [system, Phase.events], by simp [system],
    by simp [system]⟩

end Bookkeeping

/-- A wait without a time limit returns at least one event, and at least `pulse` nanoseconds pass
between the last reading of the clock and a pulse of the timer. -/
def Paced (pulse : ℕ) (s : State) : Act → Prop
  | .wait fds => fds ≠ []
  | .timer now _ => s.clock + pulse ≤ now
  | _ => True

instance (pulse : ℕ) (s : State) (act : Act) : Decidable (Paced pulse s act) := by
  cases act <;> unfold Paced <;> infer_instance

/-- The pulses after which a connection started at `start_time` is retired at the latest. -/
def pulsesLeft (pulse : ℕ) (now start_time : ℤ) : ℕ :=
  1 + (start_time + TIMEOUT_MS - now).toNat / pulse

/-- An attempt and the pulses that its connection may last. -/
def attemptCost (pulse : ℕ) : ℕ := TIMEOUT_MS.toNat / pulse + 2

/-- What the connections and the ports still to be attempted may cost. -/
def effort (env : TimerEnv) (pulse : ℕ) (s : State) : ℕ :=
  (env.range.end_port + 1 - s.port) * attemptCost pulse +
    ∑ fd ∈ s.active_socks.keys, pulsesLeft pulse s.clock (s.active_socks.start fd)

/-- Some event of the batch will retire a connection or let time pass for one. -/
def Productive (s : State) (events : List (BitVec 64)) : Prop :=
  ∃ ev ∈ events, unpackPort ev ≠ 0 ∧ unpackFd ev ∈ s.active_socks.keys ∨
    unpackPort ev = 0 ∧ s.active_socks.keys.Nonempty

instance (s : State) (events : List (BitVec 64)) : Decidable (Productive s events) :=
  inferInstanceAs (Decidable (∃ ev ∈ events, _))

/-- Everything has been attempted and nothing is pending. -/
def Idle (env : TimerEnv) (s : State) : Prop :=
  env.range.end_port < s.port ∧ s.active_socks.keys = ∅

instance (env : TimerEnv) (s : State) : Decidable (Idle env s) :=
  inferInstanceAs (Decidable (_ ∧ _))

/-- The steps of the program until it has made progress or is done. A batch that will make
progress ranks below the wait for it, and one that will not above the next round. -/
def rank (env : TimerEnv) (s : State) : ℕ :=
  match s.phase with
  | .done | .failed => 0
  | .loop => 1027
  | .fill => if Idle env s then 2054 else 1026
  | .wait => if Idle env s then 2053 else 1025
  | .batch events => if Productive s events then events.length else 1028 + events.length

def work (env : TimerEnv) (pulse : ℕ) (s : State) : ℕ := 2055 * effort env pulse s + rank env s

section Progress
variable {env : TimerEnv} {pulse : ℕ} {clock : ℤ} {s s' : State} {log evs : List Event}

theorem Idle.not_productive (h : Idle env s) (events : List (BitVec 64)) :
    ¬ Productive s events := by
  rintro ⟨ev, -, ⟨-, hin⟩ | ⟨-, hne⟩⟩
  · simp [h.2] at hin
  · simp [h.2] at hne

theorem rank_lt (h : Booked env s) : rank env s ≤ 2054 := by
  have hbatch := h.batch
  unfold rank MAX_EVENTS at *
  split
  all_goals (try split) <;> simp_all [Phase.events] <;> omega

/-- Progress pays for any rank. -/
theorem work_of_effort (h : Booked env s') (heffort : effort env pulse s' < effort env pulse s) :
    work env pulse s' + 1 ≤ work env pulse s := by
  have hrank := rank_lt h
  unfold work
  omega

theorem pulsesLeft_pos {now start_time : ℤ} : 0 < pulsesLeft pulse now start_time :=
  Nat.add_pos_left Nat.one_pos _

theorem pulsesLeft_mono {now now' start_time : ℤ} (h : now ≤ now') :
    pulsesLeft pulse now' start_time ≤ pulsesLeft pulse now start_time := by
  have hle : (start_time + TIMEOUT_MS - now').toNat ≤ (start_time + TIMEOUT_MS - now).toNat := by
    omega
  have hdiv := Nat.div_le_div_right (c := pulse) hle
  unfold pulsesLeft
  omega

/-- A pulse that does not retire a connection brings it one pulse closer to that. -/
theorem pulsesLeft_pulse {now now' start_time : ℤ} (hpulse : 0 < pulse) (h : now + pulse ≤ now')
    (hkept : ¬ Expired now' start_time) :
    pulsesLeft pulse now' start_time < pulsesLeft pulse now start_time := by
  have hle : (start_time + TIMEOUT_MS - now').toNat + pulse ≤
      (start_time + TIMEOUT_MS - now).toNat := by
    unfold Expired at hkept
    omega
  have hdiv := Nat.div_le_div_right (c := pulse) hle
  rw [Nat.add_div_right _ hpulse] at hdiv
  unfold pulsesLeft
  omega

theorem effort_attempt {fd : ℕ} {res : ConnectResult} {now : ℤ} {kernel : Kernel} {phase : Phase}
    (hnew : fd ∉ s.active_socks.keys) (hport : s.port ≤ env.range.end_port) (hnow : s.clock ≤ now) :
    effort env pulse ⟨kernel, s.port + 1,
      if res = .inProgress then s.active_socks.insert fd now else s.active_socks, now, phase⟩ <
      effort env pulse s := by
  have hold : ∑ x ∈ s.active_socks.keys, pulsesLeft pulse now (s.active_socks.start x) ≤
      ∑ x ∈ s.active_socks.keys, pulsesLeft pulse s.clock (s.active_socks.start x) :=
    Finset.sum_le_sum fun x _ => pulsesLeft_mono hnow
  obtain ⟨ports, hports⟩ : ∃ n, env.range.end_port + 1 - s.port = n + 1 :=
    ⟨env.range.end_port - s.port, by omega⟩
  have hrest : env.range.end_port + 1 - (s.port + 1) = ports := by omega
  simp only [effort, hports, hrest, Nat.succ_mul]
  by_cases hres : res = .inProgress
  · have hcost : pulsesLeft pulse now now + 1 = attemptCost pulse := by
      simp only [pulsesLeft, attemptCost, add_sub_cancel_left]
      omega
    have hsame : ∑ x ∈ s.active_socks.keys,
        pulsesLeft pulse now (Function.update s.active_socks.start fd now x) =
          ∑ x ∈ s.active_socks.keys, pulsesLeft pulse now (s.active_socks.start x) := by
      refine Finset.sum_congr rfl fun x hx => ?_
      have hne : x ≠ fd := fun he => hnew (he ▸ hx)
      rw [Function.update_of_ne hne]
    simp only [if_pos hres, ActiveSocks.insert, Finset.sum_insert hnew, Function.update_self,
      hsame]
    omega
  · have hcost : 0 < attemptCost pulse := Nat.succ_pos _
    simp only [if_neg hres]
    omega

theorem effort_ready {fd : ℕ} {kernel : Kernel} {phase : Phase}
    (hfd : fd ∈ s.active_socks.keys) :
    effort env pulse ⟨kernel, s.port, s.active_socks.erase fd, s.clock, phase⟩ <
      effort env pulse s := by
  have hsum := Finset.add_sum_erase s.active_socks.keys
    (fun x => pulsesLeft pulse s.clock (s.active_socks.start x)) hfd
  have hpos : 0 < pulsesLeft pulse s.clock (s.active_socks.start fd) := pulsesLeft_pos
  simp only [effort, ActiveSocks.erase]
  omega

theorem effort_timer {now : ℤ} {kernel : Kernel} {phase : Phase} (hpulse : 0 < pulse)
    (hnow : s.clock + pulse ≤ now) (hpending : s.active_socks.keys.Nonempty) :
    effort env pulse ⟨kernel, s.port, { s.active_socks with
      keys := s.active_socks.keys.filter fun fd => ¬ Expired now (s.active_socks.start fd) },
      now, phase⟩ < effort env pulse s := by
  simp only [effort, Finset.sum_filter]
  refine Nat.add_lt_add_left (Finset.sum_lt_sum_of_nonempty hpending fun fd _ => ?_) _
  split
  · exact pulsesLeft_pulse hpulse hnow ‹_›
  · exact pulsesLeft_pos

/-- Between two tests the rank goes down. -/
theorem work_control {phase : Phase} (h : rank env { s with phase } < rank env s) :
    work env pulse { s with phase } + 1 ≤ work env pulse s := by
  have heffort : effort env pulse { s with phase } = effort env pulse s := rfl
  unfold work
  omega

/-- An event of a socket that the timer event of the same batch has retired changes nothing. -/
theorem work_stale {ev : BitVec 64} {rest : List (BitVec 64)} {kernel : Kernel}
    (hphase : s.phase = .batch (ev :: rest)) (hport : unpackPort ev ≠ 0)
    (hfd : unpackFd ev ∉ s.active_socks.keys) :
    work env pulse ⟨kernel, s.port, s.active_socks.erase (unpackFd ev), s.clock, .batch rest⟩ + 1 ≤
      work env pulse s := by
  have hsocks : s.active_socks.erase (unpackFd ev) = s.active_socks := by
    simp [ActiveSocks.erase, Finset.erase_eq_of_notMem hfd]
  have hproductive : Productive s (ev :: rest) ↔ Productive s rest := by
    simp [Productive, hport, hfd]
  have hsame : Productive ⟨kernel, s.port, s.active_socks, s.clock, .batch rest⟩ rest ↔
      Productive s rest := Iff.rfl
  simp only [work, effort, rank, hphase, hsocks, hproductive, hsame, List.length_cons]
  split <;> omega

/-- A pulse with nothing pending changes nothing. -/
theorem work_idle_pulse {ev : BitVec 64} {rest : List (BitVec 64)} {kernel : Kernel}
    {socks : ActiveSocks} {now : ℤ} (hphase : s.phase = .batch (ev :: rest))
    (hempty : s.active_socks.keys = ∅) (hsocks : socks.keys = ∅) :
    work env pulse ⟨kernel, s.port, socks, now, .batch rest⟩ + 1 ≤ work env pulse s := by
  have hnone (t : State) (ht : t.active_socks.keys = ∅) (events : List (BitVec 64)) :
      ¬ Productive t events := by
    rintro ⟨ev, -, ⟨-, hin⟩ | ⟨-, hne⟩⟩
    · simp [ht] at hin
    · simp [ht] at hne
  simp only [work, effort, rank, hphase, hempty, hsocks, Finset.sum_empty, List.length_cons]
  rw [if_neg (hnone _ hsocks rest), if_neg (hnone s hempty (ev :: rest))]
  omega

/-- A step of the program alone is a control step, or handles an event of a socket. -/
theorem work_tick (hbooked : Booked env s') (hs : EpollTimer.step env s .tick = some (s', evs)) :
    work env pulse s' + 1 ≤ work env pulse s := by
  simp only [EpollTimer.step] at hs
  split at hs
  · rename_i hphase
    split at hs
    · rename_i hguard
      obtain ⟨rfl, rfl⟩ := Prod.mk.inj (Option.some.inj hs)
      have hbusy : ¬ Idle env { s with phase := .fill } := by
        rintro ⟨hport, hempty⟩
        simp only at hport hempty
        simp [hempty] at hguard
        omega
      apply work_control
      simp [rank, hphase, hbusy]
    · obtain ⟨rfl, rfl⟩ := Prod.mk.inj (Option.some.inj hs)
      apply work_control
      simp [rank, hphase]
  · rename_i hphase
    split at hs
    · cases hs
    · obtain ⟨rfl, rfl⟩ := Prod.mk.inj (Option.some.inj hs)
      have hsame : Idle env { s with phase := .wait } ↔ Idle env s := Iff.rfl
      apply work_control
      simp only [rank, hphase, hsame]
      split <;> omega
  · rename_i hphase
    obtain ⟨rfl, rfl⟩ := Prod.mk.inj (Option.some.inj hs)
    apply work_control
    simp [rank, hphase, Productive]
  · rename_i ev rest hphase
    split at hs
    · cases hs
    · rename_i hport
      obtain ⟨rfl, rfl⟩ := Prod.mk.inj (Option.some.inj hs)
      by_cases hfd : unpackFd ev ∈ s.active_socks.keys
      · exact work_of_effort hbooked (effort_ready hfd)
      · exact work_stale hphase hport hfd
  · cases hs

theorem work_noSocket (hs : EpollTimer.step env s .noSocket = some (s', evs)) :
    work env pulse s' + 1 ≤ work env pulse s := by
  simp only [EpollTimer.step] at hs
  split at hs
  · rename_i hguard
    obtain ⟨rfl, rfl⟩ := Prod.mk.inj (Option.some.inj hs)
    apply work_control
    simp only [rank, hguard.1]
    split <;> omega
  · cases hs

/-- An attempt uses up its port. -/
theorem work_connect {fd : ℕ} {res : ConnectResult} {now : ℤ} (h : Booked env s)
    (hbooked : Booked env s') (hs : EpollTimer.step env s (.connect fd res now) = some (s', evs)) :
    work env pulse s' + 1 ≤ work env pulse s := by
  simp only [EpollTimer.step] at hs
  split at hs
  · rename_i hguard
    split at hs
    · obtain ⟨⟨kernel, out⟩, ha, hr⟩ := Option.map_eq_some_iff.mp hs
      obtain ⟨rfl, rfl⟩ := Prod.mk.inj hr
      have hnew : fd ∉ s.active_socks.keys := h.keys ▸ (attempt_eq_some ha).1.1
      exact work_of_effort hbooked (effort_attempt hnew hguard.2.2.1 hguard.2.2.2)
    · split at hs
      · obtain ⟨rfl, rfl⟩ := Prod.mk.inj (Option.some.inj hs)
        apply work_control
        simp only [rank, hguard.1]
        split <;> omega
      · cases hs
  · cases hs

/-- What a wait returns is an event of a pending socket, or a pulse with sockets pending. -/
theorem productive_wait {fds : List ℕ} (phase : Phase)
    (hscan : Scanner.Inv env.toEnv {env.timer_fd} s.toScanner log) (h : Booked env s)
    (hpending : s.active_socks.keys.Nonempty) (hsome : fds ≠ [])
    (hregistered : ∀ fd ∈ fds, fd ∈ s.kernel.registered) :
    Productive { s with phase } (fds.map s.kernel.data) := by
  obtain ⟨fd, hfd⟩ := List.exists_mem_of_ne_nil fds hsome
  refine ⟨_, List.mem_map_of_mem hfd, ?_⟩
  rcases hscan.registered_data env.timers (hregistered fd hfd) with
    ⟨-, hzero⟩ | ⟨hin, hport, hunpack⟩
  · exact .inr ⟨hzero, hpending⟩
  · have hpeer := (hscan.socket fd hin).2.2.1
    have hstart := env.range.start_pos
    refine .inl ⟨?_, ?_⟩
    · change unpackPort (s.kernel.data fd) = _ at hport
      omega
    · have hfd' : unpackFd (s.kernel.data fd) = fd := hunpack
      rw [hfd', h.keys]
      exact hin

/-- A wait brings the program nearer to its end, whether or not anything is left to do. -/
theorem work_wait {fds : List ℕ} (hscan : Scanner.Inv env.toEnv {env.timer_fd} s.toScanner log)
    (h : Booked env s) (hbooked : Booked env s') (hsome : fds ≠ [])
    (hs : EpollTimer.step env s (.wait fds) = some (s', evs)) :
    work env pulse s' + 1 ≤ work env pulse s := by
  simp only [EpollTimer.step] at hs
  split at hs
  · rename_i hphase
    obtain ⟨events, hw, hr⟩ := Option.map_eq_some_iff.mp hs
    obtain ⟨rfl, rfl⟩ := Prod.mk.inj hr
    have hlength : events.length ≤ 1024 := hbooked.batch
    apply work_control
    by_cases hidle : Idle env s
    · have hnot : ¬ Productive { s with phase := .batch events } events :=
        hidle.not_productive events
      simp only [rank, hphase, if_pos hidle, if_neg hnot]
      omega
    · have hpending : s.active_socks.keys.Nonempty := by
        rcases h.waiting hphase with hpending | hport
        · exact hpending
        · exact Finset.nonempty_iff_ne_empty.mpr fun he => hidle ⟨hport, he⟩
      obtain ⟨-, hregistered, rfl⟩ := Kernel.epollWait_eq_some hw
      have hproductive := productive_wait (.batch (fds.map s.kernel.data)) hscan h hpending hsome
        hregistered
      simp only [rank, hphase, if_neg hidle, if_pos hproductive]
      omega
  · cases hs

/-- A pulse ages every pending socket. -/
theorem work_timer {now : ℤ} {order : List ℕ} (hbooked : Booked env s') (hpulse : 0 < pulse)
    (hnow : s.clock + pulse ≤ now)
    (hs : EpollTimer.step env s (.timer now order) = some (s', evs)) :
    work env pulse s' + 1 ≤ work env pulse s := by
  simp only [EpollTimer.step] at hs
  split at hs
  · rename_i ev rest hphase
    split at hs
    · rename_i hguard
      obtain ⟨rfl, rfl⟩ := Prod.mk.inj (Option.some.inj hs)
      rw [scan_keys hguard.2.2.2] at hbooked ⊢
      rcases s.active_socks.keys.eq_empty_or_nonempty with hempty | hpending
      · exact work_idle_pulse hphase hempty (by simp [hempty])
      · exact work_of_effort hbooked (effort_timer hpulse hnow hpending)
    · cases hs
  · cases hs

theorem work_step {act : Act} (hscan : Scanner.Inv env.toEnv {env.timer_fd} s.toScanner log)
    (h : Booked env s) (hpulse : 0 < pulse) (hpaced : Paced pulse s act)
    (hs : EpollTimer.step env s act = some (s', evs)) :
    work env pulse s' + 1 ≤ work env pulse s := by
  have hbooked := h.step hscan hs
  cases act with
  | tick => exact work_tick hbooked hs
  | noSocket => exact work_noSocket hs
  | connect fd res now => exact work_connect h hbooked hs
  | wait fds => exact work_wait hscan h hbooked hpaced hs
  | timer now order => exact work_timer hbooked hpulse hpaced hs

/-- Until the program ends it is never stuck: the timer alone can move it on. -/
theorem exists_step (h : Booked env s) (hpulse : 0 < pulse) (hdone : s.phase ≠ .done)
    (hfailed : s.phase ≠ .failed) :
    ∃ act s' evs, Paced pulse s act ∧ EpollTimer.step env s act = some (s', evs) := by
  cases hphase : s.phase with
  | loop =>
    by_cases hguard : s.port ≤ env.range.end_port ∨ s.active_socks.keys.Nonempty
    · exact ⟨.tick, _, _, trivial, by simp only [EpollTimer.step, hphase, if_pos hguard]; rfl⟩
    · exact ⟨.tick, _, _, trivial, by simp only [EpollTimer.step, hphase, if_neg hguard]; rfl⟩
  | fill =>
    by_cases hguard : s.active_socks.keys.card < MAX_IN_FLIGHT ∧ s.port ≤ env.range.end_port
    · exact ⟨.noSocket, _, _, trivial, if_pos ⟨hphase, hguard⟩⟩
    · exact ⟨.tick, _, _, trivial, by simp only [EpollTimer.step, hphase, if_neg hguard]; rfl⟩
  | wait =>
    have hwait : s.kernel.epollWait [env.timer_fd] = some [s.kernel.data env.timer_fd] := by
      simp [Kernel.epollWait, h.timer, MAX_EVENTS]
    refine ⟨.wait [env.timer_fd], { s with phase := .batch [s.kernel.data env.timer_fd] }, [],
      by simp [Paced], ?_⟩
    simp [EpollTimer.step, hphase, hwait]
  | batch events =>
    cases events with
    | nil => exact ⟨.tick, _, _, trivial, by simp only [EpollTimer.step, hphase]; rfl⟩
    | cons ev rest =>
      by_cases hport : unpackPort ev = 0
      · have hguard : unpackPort ev = 0 ∧ s.clock ≤ s.clock + pulse ∧
            s.active_socks.keys.toList.Nodup ∧
            s.active_socks.keys.toList.toFinset = s.active_socks.keys :=
          ⟨hport, by omega, Finset.nodup_toList _, Finset.toList_toFinset _⟩
        have hstep : ∃ r, EpollTimer.step env s
            (.timer (s.clock + pulse) s.active_socks.keys.toList) = some r := by
          simp only [EpollTimer.step, hphase, if_pos hguard]
          exact ⟨_, rfl⟩
        obtain ⟨⟨s', evs⟩, hs⟩ := hstep
        exact ⟨_, s', evs, le_rfl, hs⟩
      · exact ⟨.tick, _, _, trivial, by simp only [EpollTimer.step, hphase, if_neg hport]; rfl⟩
  | done => exact absurd hphase hdone
  | failed => exact absurd hphase hfailed

/-- The main loop ends, whatever the network does: when a wait returns some event and the clock
goes on by `pulse` nanoseconds to each pulse, the number of steps is bounded, and until the end
there is a step to take. At the normal exit every port has been attempted, once and in order, and
no socket is left open. -/
theorem timer_ends_scan (hpulse : 0 < pulse) {as : List Act}
    (hrun : ((system env clock).restrict (Paced pulse)).Labelled as s log) :
    as.length ≤ 2055 * ((env.range.end_port + 1 - env.range.start_port) *
        (TIMEOUT_MS.toNat / pulse + 2)) + 1027 ∧
      (s.phase ≠ .done → s.phase ≠ .failed → ∃ act s' evs, Paced pulse s act ∧
        (system env clock).step s act = some (s', evs)) ∧
      (s.phase = .done → attempts log = List.range' env.range.start_port
          (env.range.end_port + 1 - env.range.start_port) ∧
        s.kernel.sockets = ∅ ∧ s.active_socks.keys = ∅) := by
  have hpaced := RunWhere.of_restrict hrun.run
  have hbooked := booked_of_run hpaced
  refine ⟨?_, exists_step hbooked hpulse, fun hdone => ?_⟩
  · have hbound := hrun.length_le (fun s _ => work env pulse s) (fun _ => 0)
      fun s log act s' evs hrun hs => ?_
    · have hinit : work env pulse (system env clock).init =
          2055 * ((env.range.end_port + 1 - env.range.start_port) *
            (TIMEOUT_MS.toNat / pulse + 2)) + 1027 := rfl
      have hguard : ((system env clock).restrict (Paced pulse)).init =
        (system env clock).init := rfl
      rw [hguard, hinit] at hbound
      simp only [List.map_const', List.sum_replicate, Nat.nsmul_eq_mul, Nat.mul_zero] at hbound
      omega
    · obtain ⟨hp, hs⟩ := restrict_step.mp hs
      have hrun' := RunWhere.of_restrict hrun
      exact work_step (scanner_inv hrun') (booked_of_run hrun') hpulse hp hs
  · obtain ⟨hport, hempty⟩ := hbooked.exit hdone
    have hscan := scanner_inv hpaced
    have hle : s.port ≤ env.range.end_port + 1 := hscan.port_le
    have hend : s.toScanner.port = env.range.end_port + 1 := le_antisymm hle hport
    refine ⟨?_, hbooked.keys ▸ hempty, hempty⟩
    rw [hscan.attempted, hend]

end Progress

/-- A target that drops every packet. -/
def firewalled : TimerEnv where
  range := (checkRange 443 444).get rfl
  outcome _ := 110
  validAddress := true
  reserved := {0, 1, 2, 3, 4, 5}
  reserved_lt := by decide
  timer_fd := 5
  timer_reserved := by decide

/-- Two pulses half a second apart retire nothing, the third comes after the time limit. -/
def dropped : List Act :=
  [.tick, .connect 6 .inProgress 0, .connect 7 .inProgress 1, .tick, .wait [5],
    .timer 500000001 [6, 7], .tick, .tick, .tick, .wait [5], .timer 1000000001 [7, 6], .tick, .tick,
    .tick, .wait [5], .timer 2500000000 [6, 7], .tick, .tick]

theorem timer_ends_scan_dropped : ∃ s log,
    ((system firewalled 0).restrict (Paced 500000000)).Labelled dropped s log ∧
      attempts log = [443, 444] ∧ s.kernel.sockets = ∅ ∧ dropped.length ≤ 25687 := by
  obtain ⟨s, log, hrun, hq⟩ :=
    ((system firewalled 0).restrict (Paced 500000000)).exists_labelled_of_exec
      ((system firewalled 0).restrict (Paced 500000000)).init dropped
      (fun s _ => decide (s.phase = .done)) (by decide +kernel)
  obtain ⟨hlength, -, hexit⟩ := timer_ends_scan (by decide) hrun
  obtain ⟨hattempts, hsockets, -⟩ := hexit (of_decide_eq_true hq)
  exact ⟨s, log, hrun, hattempts, hsockets, hlength⟩

end EpollTimer
end Knocker
