import LowLevelCpp.Knocker.Reports

/-!
`knocker-epoll.cc` and the sequential `knocker.cc`. The main loop of the first attempts the
ports in order and drains the event queue when the limit is reached and after the last port;
at its normal exit it has reported the ports that the sequential scanner reports.
-/
namespace Knocker
open Foundations Foundations.System

namespace Sequential

/-- The loop of `knocker.cc` over the remaining ports; `fds` are the descriptors that `socket`
returns for them. A blocking `connect` returns `0` when the outcome is success. -/
def loop (env : Env) (fds : ℕ → ℕ) : List ℕ → List Event
  | [] => []
  | port :: ports =>
    if env.validAddress then
      .opened (fds port) :: .attempted port ::
        (if env.outcome port = 0 then [.answered port] else []) ++
          .closed (fds port) :: loop env fds ports
    else [.opened (fds port), .closed (fds port)]

/-- `main` of `knocker.cc` -/
def main (env : Env) (fds : ℕ → ℕ) : List Event :=
  loop env fds
    (List.range' env.range.start_port (env.range.end_port + 1 - env.range.start_port))

theorem answers_loop (env : Env) (fds : ℕ → ℕ) (hvalid : env.validAddress = true)
    (ports : List ℕ) : answers (loop env fds ports) = ports.filter (env.outcome · = 0) := by
  induction ports with
  | nil => rfl
  | cons port ports ih =>
    have hcons : answers (loop env fds (port :: ports)) =
        (if env.outcome port = 0 then [port] else []) ++ answers (loop env fds ports) := by
      rw [loop, if_pos hvalid]
      split <;> rfl
    rw [hcons, ih]
    by_cases hzero : env.outcome port = 0 <;> simp [hzero]

end Sequential

namespace Epoll

/-- Where the main loop stands: at the test of the `for` loop, at the test of the drain loop,
in `epoll_wait` or before the next event of a batch. -/
inductive Phase where
  | scan
  | drain
  | wait
  | batch (events : List (BitVec 64))
  | done
  | failed
  deriving DecidableEq

structure State where
  kernel : Kernel
  port : ℕ
  in_flight : ℤ
  phase : Phase

/-- `tick` is a step of the program itself; the other labels carry the kernel's choices. -/
inductive Act where
  | tick
  | noSocket
  | connect (fd : ℕ) (res : ConnectResult)
  | wait (fds : List ℕ)

def step (env : Env) (s : State) : Act → Option (State × List Event)
  | .tick =>
    match s.phase with
    | .scan =>
      if s.port ≤ env.range.end_port then none else some ({ s with phase := .done }, [])
    | .drain =>
      if s.in_flight ≥ MAX_IN_FLIGHT ∨ s.port = env.range.end_port ∧ s.in_flight > 0 then
        some ({ s with phase := .wait }, [])
      else some ({ s with port := s.port + 1, phase := .scan }, [])
    | .batch [] => some ({ s with phase := .drain }, [])
    | .batch (ev :: rest) =>
      let fd := unpackFd ev
      some (⟨cleanup s.kernel fd, s.port, s.in_flight - 1, .batch rest⟩,
        report env s.kernel fd (unpackPort ev) ++ [.retired fd])
    | _ => none
  | .noSocket =>
    if s.phase = .scan ∧ s.port ≤ env.range.end_port then some ({ s with phase := .failed }, [])
    else none
  | .connect fd res =>
    if s.phase = .scan ∧ s.port ≤ env.range.end_port then
      if env.validAddress then
        (attempt env s.kernel s.port fd res).map fun r =>
          (⟨r.1, s.port, if res = .inProgress then s.in_flight + 1 else s.in_flight, .drain⟩, r.2)
      else if s.kernel.Fresh env fd then
        some ({ s with phase := .failed }, [.opened fd, .closed fd])
      else none
    else none
  | .wait fds =>
    if s.phase = .wait then
      (s.kernel.epollWait fds).map fun events => ({ s with phase := .batch events }, [])
    else none

def system (env : Env) : System State Act Event where
  init := ⟨.init ∅, env.range.start_port, 0, .scan⟩
  step := step env

/-- The scanner that a state of the program is in: after an attempt the loop variable still
names the port attempted. -/
def State.toScanner (s : State) : Scanner.State :=
  match s.phase with
  | .drain | .wait => ⟨s.kernel, s.port + 1, []⟩
  | .batch events => ⟨s.kernel, s.port + 1, events⟩
  | .scan | .done | .failed => ⟨s.kernel, s.port, []⟩

/-- What a step of the main loop can be. -/
inductive Moves (env : Env) (s : State) : State → List Event → Prop
  | finish : s.phase = .scan → env.range.end_port < s.port →
      Moves env s { s with phase := .done } []
  | block : s.phase = .drain → Moves env s { s with phase := .wait } []
  | next : s.phase = .drain → s.in_flight < MAX_IN_FLIGHT →
      (s.port = env.range.end_port → s.in_flight ≤ 0) →
      Moves env s { s with port := s.port + 1, phase := .scan } []
  | handled : s.phase = .batch [] → Moves env s { s with phase := .drain } []
  | ready {ev : BitVec 64} {rest : List (BitVec 64)} : s.phase = .batch (ev :: rest) →
      Moves env s ⟨cleanup s.kernel (unpackFd ev), s.port, s.in_flight - 1, .batch rest⟩
        (report env s.kernel (unpackFd ev) (unpackPort ev) ++ [.retired (unpackFd ev)])
  | noSocket : s.phase = .scan → Moves env s { s with phase := .failed } []
  | attempt {fd : ℕ} {res : ConnectResult} {k : Kernel} {evs : List Event} : s.phase = .scan →
      s.port ≤ env.range.end_port → attempt env s.kernel s.port fd res = some (k, evs) →
      Moves env s ⟨k, s.port, if res = .inProgress then s.in_flight + 1 else s.in_flight, .drain⟩
        evs
  | abandon {fd : ℕ} : s.phase = .scan → s.kernel.Fresh env fd →
      Moves env s { s with phase := .failed } [.opened fd, .closed fd]
  | wait {fds : List ℕ} {events : List (BitVec 64)} : s.phase = .wait →
      s.kernel.epollWait fds = some events → Moves env s { s with phase := .batch events } []

theorem step_moves {env : Env} {s s' : State} {act : Act} {evs : List Event}
    (hs : step env s act = some (s', evs)) : Moves env s s' evs := by
  obtain ⟨k, port, in_flight, phase⟩ := s
  cases act with
  | tick =>
    simp only [step] at hs
    split at hs
    · split at hs
      · cases hs
      · obtain ⟨rfl, rfl⟩ := Prod.mk.inj (Option.some.inj hs)
        exact .finish rfl (Nat.lt_of_not_le ‹_›)
    · split at hs
      · obtain ⟨rfl, rfl⟩ := Prod.mk.inj (Option.some.inj hs)
        exact .block rfl
      · rename_i hguard
        obtain ⟨rfl, rfl⟩ := Prod.mk.inj (Option.some.inj hs)
        simp only [not_or, not_and, not_le, not_lt] at hguard
        exact .next rfl (by simpa using hguard.1) (by simpa using hguard.2)
    · obtain ⟨rfl, rfl⟩ := Prod.mk.inj (Option.some.inj hs)
      exact .handled rfl
    · obtain ⟨rfl, rfl⟩ := Prod.mk.inj (Option.some.inj hs)
      exact .ready rfl
    · cases hs
  | noSocket =>
    simp only [step] at hs
    split at hs
    · obtain ⟨rfl, rfl⟩ := Prod.mk.inj (Option.some.inj hs)
      exact .noSocket (by simpa using ‹_ ∧ _›.1)
    · cases hs
  | connect fd res =>
    simp only [step] at hs
    split at hs
    · rename_i hguard
      split at hs
      · obtain ⟨⟨k', out⟩, ha, hr⟩ := Option.map_eq_some_iff.mp hs
        obtain ⟨rfl, rfl⟩ := Prod.mk.inj hr
        exact .attempt hguard.1 hguard.2 ha
      · split at hs
        · obtain ⟨rfl, rfl⟩ := Prod.mk.inj (Option.some.inj hs)
          exact .abandon hguard.1 ‹_›
        · cases hs
    · cases hs
  | wait fds =>
    simp only [step] at hs
    split at hs
    · obtain ⟨events, hw, hr⟩ := Option.map_eq_some_iff.mp hs
      obtain ⟨rfl, rfl⟩ := Prod.mk.inj hr
      exact .wait ‹_› hw
    · cases hs

@[simp] theorem toScanner_kernel (s : State) : s.toScanner.kernel = s.kernel := by
  unfold State.toScanner
  split <;> rfl

section Runs
variable {env : Env} {s s' : State} {log evs : List Event}

theorem toScanner_run (hrun : (system env).Run s log) :
    (Scanner.system env ∅).RunWhere Scanner.NoExpire s.toScanner log := by
  refine hrun.invariant (I := fun s log =>
    (Scanner.system env ∅).RunWhere Scanner.NoExpire s.toScanner log) .init
    fun s log act s' evs _ ih _ hs => ?_
  obtain ⟨k, port, in_flight, phase⟩ := s
  cases step_moves hs with
  | finish hphase _ | block hphase | next hphase _ _ | handled hphase | noSocket hphase =>
    obtain rfl : phase = _ := hphase
    simpa [State.toScanner] using ih
  | @ready ev rest hphase =>
    obtain rfl : phase = _ := hphase
    have hport : unpackPort ev ≠ 0 := fun hzero => Finset.not_nonempty_empty
      ((Scanner.inv_of_run (Finset.empty_subset _) ih).pulses ev List.mem_cons_self hzero)
    apply ih.step (a := Scanner.Act.ready) trivial
    simp [Scanner.system, Scanner.step, State.toScanner, hport]
  | @attempt fd res k' evs hphase hport ha =>
    obtain rfl : phase = _ := hphase
    apply ih.step (a := Scanner.Act.attempt fd res) trivial
    have hle : port ≤ env.range.end_port := hport
    have hattempt : Knocker.attempt env k port fd res = some (k', evs) := ha
    simp [Scanner.system, Scanner.step, State.toScanner, hle, hattempt]
  | @abandon fd hphase hfresh =>
    obtain rfl : phase = _ := hphase
    apply ih.step (a := Scanner.Act.abandon fd) trivial
    have hfresh' : Kernel.Fresh env k fd := hfresh
    simp [Scanner.system, Scanner.step, State.toScanner, hfresh']
  | @wait fds events hphase hw =>
    obtain rfl : phase = _ := hphase
    apply ih.step (a := Scanner.Act.wait fds) trivial
    have hwait : k.epollWait fds = some events := hw
    simp [Scanner.system, Scanner.step, State.toScanner, hwait]

/-- The counter is the number of open sockets, and has room before each attempt. -/
structure Counted (env : Env) (s : State) : Prop where
  count : s.in_flight = s.kernel.sockets.card
  bounded : s.in_flight ≤ MAX_IN_FLIGHT
  room : s.phase = .scan → s.in_flight < MAX_IN_FLIGHT
  drained : s.phase = .scan → env.range.end_port < s.port → s.in_flight = 0
  done : s.phase = .done → env.range.end_port < s.port ∧ s.in_flight = 0

theorem counted_of_run (hrun : (system env).Run s log) : Counted env s := by
  refine hrun.invariant (I := fun s _ => Counted env s) ⟨rfl, by simp [system],
    by simp [system, MAX_IN_FLIGHT], fun _ _ => rfl, by simp [system]⟩
    fun s log act s' evs hrun ih _ hs => ?_
  have hscan := toScanner_run hrun
  obtain ⟨k, port, in_flight, phase⟩ := s
  obtain ⟨hcount, hbounded, hroom, hdrained, -⟩ := ih
  cases step_moves hs with
  | finish hphase hport =>
    exact ⟨hcount, hbounded, by simp, by simp, fun _ => ⟨hport, hdrained hphase hport⟩⟩
  | block _ => exact ⟨hcount, hbounded, by simp, by simp, by simp⟩
  | next hphase hlt hlast =>
    obtain rfl : phase = _ := hphase
    refine ⟨hcount, hbounded, fun _ => hlt, fun _ hport => ?_, by simp⟩
    have hle := (Scanner.inv_of_run (Finset.empty_subset _) hscan).port_le
    simp only [State.toScanner] at hle
    simp only at hcount hlast hport ⊢
    have hnonpos := hlast (by omega)
    omega
  | handled _ => exact ⟨hcount, hbounded, by simp, by simp, by simp⟩
  | @ready ev rest hphase =>
    obtain rfl : phase = _ := hphase
    have hinv := Scanner.inv_of_run (Finset.empty_subset _) hscan
    have hport : unpackPort ev ≠ 0 := fun hzero =>
      Finset.not_nonempty_empty (hinv.pulses ev List.mem_cons_self hzero)
    have hopen := (Scanner.complete_of_run (Finset.empty_subset _) hscan).handled ev
      List.mem_cons_self hport
    have hcard := Finset.card_erase_add_one (show unpackFd ev ∈ k.sockets from hopen)
    simp only at hcount hbounded
    refine ⟨?_, ?_, by simp, by simp, by simp⟩
    · simp only [Scanner.cleanup_sockets]
      omega
    · simp only
      omega
  | noSocket _ => exact ⟨hcount, hbounded, by simp, by simp, by simp⟩
  | @attempt fd res k' evs hphase _ ha =>
    have hlt := hroom hphase
    have hcard := attempt_card ha
    simp only at hcount hlt hcard
    refine ⟨?_, ?_, by simp, by simp, by simp⟩
    · simp only [hcard, hcount]
      split <;> simp
    · simp only
      split <;> omega
  | abandon _ _ => exact ⟨hcount, hbounded, by simp, by simp, by simp⟩
  | wait _ _ => exact ⟨hcount, hbounded, by simp, by simp, by simp⟩

/-- With no timers the registered descriptors are the open sockets. -/
theorem registered_eq (hrun : (system env).Run s log) :
    s.kernel.registered = s.kernel.sockets := by
  have hinv := Scanner.inv_of_run (Finset.empty_subset _) (toScanner_run hrun)
  rw [← toScanner_kernel]
  exact Finset.Subset.antisymm
    (fun fd hfd => (hinv.registered fd hfd).resolve_right (Finset.notMem_empty fd)) hinv.watched

theorem balanced (hrun : (system env).Run s log) : Scanner.Balanced s.kernel log := by
  have hopen := Scanner.actsOnOpen_of_noExpire (Finset.empty_subset _) (toScanner_run hrun)
  have hbalanced := Scanner.balanced_of_run hopen
  rwa [toScanner_kernel] at hbalanced

/-- At the normal exit the answered ports are those of the range that accept. -/
theorem mem_answers_iff (hrun : (system env).Run s log) (hdone : s.phase = .done) (p : ℕ) :
    p ∈ answers log ↔
      (env.range.start_port ≤ p ∧ p ≤ env.range.end_port) ∧ env.outcome p = 0 := by
  have hscan := toScanner_run hrun
  have hinv := Scanner.inv_of_run (Finset.empty_subset _) hscan
  have hopen := Scanner.actsOnOpen_of_noExpire (Finset.empty_subset _) hscan
  have hcounted := counted_of_run hrun
  obtain ⟨hend, hzero⟩ := hcounted.done hdone
  have hport : s.toScanner.port = s.port := by simp [State.toScanner, hdone]
  constructor
  · intro hp
    obtain ⟨hstart, hlt, -⟩ := hinv.answered p hp
    have hle := hinv.port_le
    refine ⟨⟨hstart, by omega⟩, ?_⟩
    exact Scanner.answers_sound (Finset.empty_subset _)
      (hopen.mono fun _ _ h => h.honest) p hp
  · rintro ⟨⟨hstart, hle⟩, hsuccess⟩
    have hempty : s.kernel.sockets = ∅ := by
      have hcount := hcounted.count
      rw [← Finset.card_eq_zero]
      omega
    have hfound := (Scanner.complete_of_run (Finset.empty_subset _) hscan).found p hstart
      (by omega) hsuccess
    refine hfound.resolve_right fun ⟨fd, hfd, _⟩ => ?_
    rw [toScanner_kernel, hempty] at hfd
    exact Finset.notMem_empty fd hfd

/-- The counter is the number of registered sockets throughout and within the limit, and no
socket is closed twice; at the normal exit the ports reported are, each once, those that the
sequential scanner reports, and every socket has been closed. -/
theorem epoll_reports_sequential (hvalid : env.validAddress = true)
    (hrun : (system env).Run s log) :
    s.in_flight = s.kernel.registered.card ∧ s.kernel.registered = s.kernel.sockets ∧
      s.in_flight ≤ MAX_IN_FLIGHT ∧
      (ledger Event.socketMove).replay log = some s.kernel.sockets ∧
      (s.phase = .done → ∀ fds,
        (answers log).Perm (answers (Sequential.main env fds)) ∧ (answers log).Nodup ∧
        s.in_flight = 0 ∧ ∀ fd, (log.map Event.socketMove).count (.release fd) =
          (log.map Event.socketMove).count (.acquire fd)) := by
  have hcounted := counted_of_run hrun
  have hbalanced := balanced hrun
  have hregistered := registered_eq hrun
  refine ⟨hregistered ▸ hcounted.count, hregistered, hcounted.bounded, hbalanced.sockets,
    fun hdone fds => ?_⟩
  have honce := (Scanner.inv_of_run (Finset.empty_subset _) (toScanner_run hrun)).once
  obtain ⟨-, hzero⟩ := hcounted.done hdone
  refine ⟨?_, honce, hzero, fun fd => ?_⟩
  · have hnodup : (answers (Sequential.main env fds)).Nodup := by
      rw [Sequential.main, Sequential.answers_loop env fds hvalid]
      exact (List.nodup_range' 1 Nat.one_pos).filter _
    refine (List.perm_ext_iff_of_nodup honce hnodup).mpr fun p => ?_
    have hord := env.range.ordered
    rw [mem_answers_iff hrun hdone, Sequential.main, Sequential.answers_loop env fds hvalid,
      List.mem_filter, List.mem_range'_1, decide_eq_true_eq]
    refine and_congr_left fun _ => ⟨fun h => ⟨h.1, by omega⟩, fun h => ⟨h.1, by omega⟩⟩
  · have hempty : s.kernel.sockets = ∅ := by
      have hcount := hcounted.count
      rw [← Finset.card_eq_zero]
      omega
    have hledger := ledger_count hbalanced.sockets fd
    simpa [hempty] using hledger.symm

end Runs

/-- Two ports, of which the first answers; descriptors 0 to 3 are in use. -/
def twoPorts : Env where
  range := (checkRange 22 23).get rfl
  outcome port := if port = 23 then 111 else 0
  validAddress := true
  reserved := {0, 1, 2, 3}
  reserved_lt := by decide

theorem epoll_reports_sequential_twoPorts :
    ∃ s log, (system twoPorts).Run s log ∧ s.phase = .done ∧
      (answers log).Perm (answers (Sequential.main twoPorts fun _ => 4)) ∧ s.in_flight = 0 := by
  obtain ⟨s, log, hrun, hq⟩ := (system twoPorts).exists_run_of_exec (fun _ _ => True)
    [.connect 4 .inProgress, .tick, .connect 5 .inProgress, .tick, .wait [5, 4], .tick, .tick,
      .tick, .tick, .tick] (fun s _ => decide (s.phase = .done)) (by decide +kernel)
  have hdone := of_decide_eq_true hq
  obtain ⟨-, -, -, -, hexit⟩ := epoll_reports_sequential rfl hrun
  obtain ⟨hperm, -, hzero, -⟩ := hexit hdone fun _ => 4
  exact ⟨s, log, hrun, hdone, hperm, hzero⟩

end Epoll
end Knocker
