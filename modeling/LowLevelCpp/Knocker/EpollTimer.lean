import LowLevelCpp.Knocker.Reports
import LowLevelCpp.Knocker.Sweep

/-!
`knocker-epoll-timer.cc`: the fill loop attempts ports up to the limit, and every batch of
events may hold the timer event, on which the map of start times is scanned.
-/
namespace Knocker
open Foundations Foundations.System

namespace EpollTimer

/-- Where `main` stands: at the test of the outer loop, at the test of the fill loop, in
`epoll_wait` or before the next event of a batch. -/
inductive Phase where
  | loop
  | fill
  | wait
  | batch (events : List (BitVec 64))
  | done
  | failed
  deriving DecidableEq

structure State where
  kernel : Kernel
  port : ℕ
  active_socks : ActiveSocks
  clock : ℤ
  phase : Phase

/-- `tick` is a step of the program itself; the other labels carry the kernel's choices, the
clock readings and the iteration order of the map. -/
inductive Act where
  | tick
  | noSocket
  | connect (fd : ℕ) (res : ConnectResult) (now : ℤ)
  | wait (fds : List ℕ)
  | timer (now : ℤ) (order : List ℕ)

def step (env : TimerEnv) (s : State) : Act → Option (State × List Event)
  | .tick =>
    match s.phase with
    | .loop =>
      if s.port ≤ env.range.end_port ∨ s.active_socks.keys.Nonempty then
        some ({ s with phase := .fill }, [])
      else some ({ s with phase := .done }, [])
    | .fill =>
      if s.active_socks.keys.card < MAX_IN_FLIGHT ∧ s.port ≤ env.range.end_port then none
      else some ({ s with phase := .wait }, [])
    | .batch [] => some ({ s with phase := .loop }, [])
    | .batch (ev :: rest) =>
      let fd := unpackFd ev
      let p := unpackPort ev
      if p = 0 then none
      else
        some (⟨cleanup s.kernel fd, s.port, s.active_socks.erase fd, s.clock, .batch rest⟩,
          report env.toEnv s.kernel fd p ++ [.retired fd])
    | _ => none
  | .noSocket =>
    if s.phase = .fill ∧ s.active_socks.keys.card < MAX_IN_FLIGHT ∧ s.port ≤ env.range.end_port then
      some ({ s with phase := .failed }, [])
    else none
  | .connect fd res now =>
    if s.phase = .fill ∧ s.active_socks.keys.card < MAX_IN_FLIGHT ∧ s.port ≤ env.range.end_port ∧
        s.clock ≤ now then
      if env.validAddress then
        (attempt env.toEnv s.kernel s.port fd res).map fun r =>
          (⟨r.1, s.port + 1,
            if res = .inProgress then s.active_socks.insert fd now else s.active_socks,
            now, .fill⟩, r.2)
      else if s.kernel.Fresh env.toEnv fd then
        some ({ s with phase := .failed }, [.opened fd, .closed fd])
      else none
    else none
  | .wait fds =>
    if s.phase = .wait then
      (s.kernel.epollWait fds).map fun events => ({ s with phase := .batch events }, [])
    else none
  | .timer now order =>
    match s.phase with
    | .batch (ev :: rest) =>
      if unpackPort ev = 0 ∧ s.clock ≤ now ∧ order.Nodup ∧
          order.toFinset = s.active_socks.keys then
        let (active_socks, closed) := scan now order s.active_socks
        some (⟨closed.foldl cleanup s.kernel, s.port, active_socks, now, .batch rest⟩,
          closed.map .retired)
      else none
    | _ => none

def system (env : TimerEnv) (clock : ℤ) : System State Act Event where
  init := ⟨.init {env.timer_fd}, env.range.start_port, ⟨∅, fun _ => 0⟩, clock, .loop⟩
  step := step env

def Phase.events : Phase → List (BitVec 64)
  | .batch events => events
  | _ => []

def State.toScanner (s : State) : Scanner.State := ⟨s.kernel, s.port, s.phase.events⟩

/-- What a step of the program can be. -/
inductive Moves (env : TimerEnv) (s : State) : State → List Event → Prop
  | control {phase : Phase} : s.phase.events = [] → phase.events = [] →
      Moves env s { s with phase } []
  | ready {ev : BitVec 64} {rest : List (BitVec 64)} : s.phase = .batch (ev :: rest) →
      unpackPort ev ≠ 0 →
      Moves env s ⟨cleanup s.kernel (unpackFd ev), s.port, s.active_socks.erase (unpackFd ev),
        s.clock, .batch rest⟩
        (report env.toEnv s.kernel (unpackFd ev) (unpackPort ev) ++ [.retired (unpackFd ev)])
  | attempt {fd : ℕ} {res : ConnectResult} {k : Kernel} {evs : List Event}
      {socks : ActiveSocks} {now : ℤ} : s.phase = .fill → s.port ≤ env.range.end_port →
      attempt env.toEnv s.kernel s.port fd res = some (k, evs) →
      Moves env s ⟨k, s.port + 1, socks, now, .fill⟩ evs
  | abandon {fd : ℕ} : s.phase = .fill → s.kernel.Fresh env.toEnv fd →
      Moves env s { s with phase := .failed } [.opened fd, .closed fd]
  | wait {fds : List ℕ} {events : List (BitVec 64)} : s.phase = .wait →
      s.kernel.epollWait fds = some events → Moves env s { s with phase := .batch events } []
  | timer {ev : BitVec 64} {rest : List (BitVec 64)} {closed : List ℕ} {socks : ActiveSocks}
      {now : ℤ} : s.phase = .batch (ev :: rest) → unpackPort ev = 0 →
      Moves env s ⟨closed.foldl cleanup s.kernel, s.port, socks, now, .batch rest⟩
        (closed.map .retired)

theorem step_moves {env : TimerEnv} {s s' : State} {act : Act} {evs : List Event}
    (hs : step env s act = some (s', evs)) : Moves env s s' evs := by
  obtain ⟨k, port, socks, clock, phase⟩ := s
  cases act with
  | tick =>
    simp only [step] at hs
    split at hs
    · split at hs <;> obtain ⟨rfl, rfl⟩ := Prod.mk.inj (Option.some.inj hs) <;>
        exact .control rfl rfl
    · split at hs
      · cases hs
      · obtain ⟨rfl, rfl⟩ := Prod.mk.inj (Option.some.inj hs)
        exact .control rfl rfl
    · obtain ⟨rfl, rfl⟩ := Prod.mk.inj (Option.some.inj hs)
      exact .control rfl rfl
    · split at hs
      · cases hs
      · obtain ⟨rfl, rfl⟩ := Prod.mk.inj (Option.some.inj hs)
        exact .ready rfl ‹_›
    · cases hs
  | noSocket =>
    simp only [step] at hs
    split at hs
    · rename_i hguard
      obtain ⟨rfl, rfl⟩ := Prod.mk.inj (Option.some.inj hs)
      exact .control (by simp [show phase = _ from hguard.1, Phase.events]) rfl
    · cases hs
  | connect fd res now =>
    simp only [step] at hs
    split at hs
    · rename_i hguard
      split at hs
      · obtain ⟨⟨k', out⟩, ha, hr⟩ := Option.map_eq_some_iff.mp hs
        obtain ⟨rfl, rfl⟩ := Prod.mk.inj hr
        exact .attempt hguard.1 hguard.2.2.1 ha
      · split at hs
        · obtain ⟨rfl, rfl⟩ := Prod.mk.inj (Option.some.inj hs)
          exact .abandon hguard.1 ‹_›
        · cases hs
    · cases hs
  | wait fds =>
    simp only [step] at hs
    split at hs
    · obtain ⟨events, hw, hr⟩ := Option.map_eq_some_iff.mp hs
      obtain ⟨rfl, rfl⟩ := Prod.mk.inj hr
      exact .wait ‹_› hw
    · cases hs
  | timer now order =>
    simp only [step] at hs
    split at hs
    · split at hs
      · rename_i hguard
        obtain ⟨rfl, rfl⟩ := Prod.mk.inj (Option.some.inj hs)
        exact .timer rfl hguard.1
      · cases hs
    · cases hs

section Runs
variable {env : TimerEnv} {clock : ℤ} {s : State} {log : List Event} {P : State → Act → Prop}
  {Q : Scanner.State → Scanner.Act → Prop}

/-- The program refines the scanner; conditions on the handling of socket events carry over. -/
theorem toScanner_run (hready : ∀ s act, P s act → Q s.toScanner .ready)
    (hother : ∀ t a, a ≠ .ready → Q t a) (hrun : (system env clock).RunWhere P s log) :
    (Scanner.system env.toEnv {env.timer_fd}).RunWhere Q s.toScanner log := by
  refine hrun.invariant (I := fun s log =>
    (Scanner.system env.toEnv {env.timer_fd}).RunWhere Q s.toScanner log) .init
    fun s log act s' evs _ ih hp hs => ?_
  have hQ := hready s act hp
  obtain ⟨k, port, socks, clock, phase⟩ := s
  cases step_moves hs with
  | @control phase' hphase hphase' =>
    have hold : phase.events = [] := hphase
    simpa [State.toScanner, hold, hphase'] using ih
  | @ready ev rest hphase hport =>
    obtain rfl : phase = _ := hphase
    apply ih.step (a := Scanner.Act.ready) hQ
    simp [Scanner.system, Scanner.step, State.toScanner, Phase.events, hport]
  | @attempt fd res k' evs socks' now hphase hport ha =>
    obtain rfl : phase = _ := hphase
    apply ih.step (a := Scanner.Act.attempt fd res) (hother _ _ (by simp))
    have hle : port ≤ env.range.end_port := hport
    have hattempt : Knocker.attempt env.toEnv k port fd res = some (k', evs) := ha
    simp [Scanner.system, Scanner.step, State.toScanner, Phase.events, hle, hattempt]
  | @abandon fd hphase hfresh =>
    obtain rfl : phase = _ := hphase
    apply ih.step (a := Scanner.Act.abandon fd) (hother _ _ (by simp))
    have hfresh' : Kernel.Fresh env.toEnv k fd := hfresh
    simp [Scanner.system, Scanner.step, State.toScanner, Phase.events, hfresh']
  | @wait fds events hphase hw =>
    obtain rfl : phase = _ := hphase
    apply ih.step (a := Scanner.Act.wait fds) (hother _ _ (by simp))
    have hwait : k.epollWait fds = some events := hw
    simp [Scanner.system, Scanner.step, State.toScanner, Phase.events, hwait]
  | @timer ev rest closed socks' now hphase hport =>
    obtain rfl : phase = _ := hphase
    have hpulse : (Scanner.system env.toEnv {env.timer_fd}).RunWhere Q ⟨k, port, rest⟩
        (log ++ []) := by
      apply ih.step (a := Scanner.Act.timer) (hother _ _ (by simp))
      simp [Scanner.system, Scanner.step, State.toScanner, Phase.events, hport]
    have hexpired := Scanner.expire_all (fun t fd => hother t _ (by simp)) hpulse closed
    simpa [State.toScanner, Phase.events] using hexpired

end Runs
end EpollTimer
end Knocker
