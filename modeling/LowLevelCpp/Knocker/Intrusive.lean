import LowLevelCpp.Knocker.Reports
import LowLevelCpp.Knocker.Sweep

/-!
The main loop of `knocker-intrusive.cc`. The timer sweep and the handling of a ready socket
both retire a connection; a batch can hold the timer event and the event of a socket that the
sweep has just retired.
-/
namespace Knocker
open Foundations Foundations.System

namespace Intrusive

/-- Where `main` stands: at the test of the outer loop, at the test of the fill loop, in
`epoll_wait`, before the next event of a batch or at the test of the sweep. -/
inductive Phase where
  | loop
  | fill
  | wait
  | batch (events : List (BitVec 64))
  | sweep (now : ℤ) (events : List (BitVec 64))
  | done
  | failed
  deriving DecidableEq

structure State where
  kernel : Kernel
  table : Table
  in_flight : ConnList
  in_flight_count : ℤ
  port : ℕ
  clock : ℤ
  phase : Phase

/-- `tick` is a step of the program itself; the other labels carry the kernel's choices and
the clock readings. -/
inductive Act where
  | tick
  | noSocket
  | connect (fd : ℕ) (res : ConnectResult) (now : ℤ)
  | wait (fds : List ℕ)
  | timer (now : ℤ)

/-- What the sweep and the handling of a ready socket do to a connection. -/
def State.retire (s : State) (fd : ℕ) (phase : Phase) : Option State :=
  (Knocker.retire s.table s.in_flight fd).map fun r =>
    { s with
      kernel := cleanup s.kernel fd
      table := r.1
      in_flight := r.2
      in_flight_count := s.in_flight_count - 1
      phase }

/-- The test of the fill loop. -/
def State.CanFill (env : TimerEnv) (s : State) : Prop :=
  s.in_flight_count < MAX_IN_FLIGHT ∧ s.port ≤ env.range.end_port

instance (env : TimerEnv) (s : State) : Decidable (s.CanFill env) :=
  inferInstanceAs (Decidable (_ ∧ _))

/-- A pending connection is entered in the table. For a descriptor equal to `max_fd`, which the
guard of `step` lets through, the table has no entry, and there is no step. -/
def State.fill (env : TimerEnv) (s : State) (fd : ℕ) (res : ConnectResult) (now : ℤ) :
    Option (State × List Event) := do
  let (kernel, out) ← attempt env.toEnv s.kernel s.port fd res
  if res = .inProgress then
    let (table, in_flight) ← register s.table s.in_flight fd s.port now
    return (⟨kernel, table, in_flight, s.in_flight_count + 1, s.port + 1, now, .fill⟩, out)
  else
    return ({ s with kernel, port := s.port + 1, clock := now }, out)

def step (env : TimerEnv) (max_fd : ℕ) (s : State) : Act → Option (State × List Event)
  | .tick =>
    match s.phase with
    | .loop =>
      if s.port ≤ env.range.end_port ∨ s.in_flight_count > 0 then
        some ({ s with phase := .fill }, [])
      else some ({ s with phase := .done }, [])
    | .fill => if s.CanFill env then none else some ({ s with phase := .wait }, [])
    | .batch [] => some ({ s with phase := .loop }, [])
    | .batch (ev :: rest) =>
      let fd := unpackFd ev
      let p := unpackPort ev
      if p = 0 then none
      else
        (s.retire fd (.batch rest)).map fun s' =>
          (s', report env.toEnv s.kernel fd p ++ [.retired fd])
    | .sweep now rest =>
      (expiredHead now s.table s.in_flight).bind fun
        | none => some ({ s with phase := .batch rest }, [])
        | some expired_fd =>
          (s.retire expired_fd (.sweep now rest)).map fun s' => (s', [.retired expired_fd])
    | _ => none
  | .noSocket =>
    if s.phase = .fill ∧ s.CanFill env then some ({ s with phase := .failed }, []) else none
  | .connect fd res now =>
    if s.phase = .fill ∧ s.CanFill env ∧ s.clock ≤ now then
      if fd > max_fd ∨ env.validAddress = false then
        if s.kernel.Fresh env.toEnv fd then
          some ({ s with phase := .failed }, [.opened fd, .closed fd])
        else none
      else s.fill env fd res now
    else none
  | .wait fds =>
    if s.phase = .wait then
      (s.kernel.epollWait fds).map fun events => ({ s with phase := .batch events }, [])
    else none
  | .timer now =>
    match s.phase with
    | .batch (ev :: rest) =>
      if unpackPort ev = 0 ∧ s.clock ≤ now then
        some ({ s with clock := now, phase := .sweep now rest }, [])
      else none
    | _ => none

def system (env : TimerEnv) (max_fd : ℕ) (clock : ℤ) : System State Act Event where
  init := ⟨.init {env.timer_fd}, .empty max_fd, {}, 0, env.range.start_port, clock, .loop⟩
  step := step env max_fd

/-- The events of the batch that are still to be handled. -/
def Phase.events : Phase → List (BitVec 64)
  | .batch events => events
  | .sweep _ events => events
  | _ => []

/-- The events of a batch that is being handled, outside the sweep. -/
def Phase.next : Phase → List (BitVec 64)
  | .batch events => events
  | _ => []

def State.toScanner (s : State) : Scanner.State := ⟨s.kernel, s.port, s.phase.events⟩

/-- What a step of the program can be. -/
inductive Moves (env : TimerEnv) (s : State) : State → List Event → Prop
  | control {phase : Phase} : s.phase.next = [] → phase.events = s.phase.events → phase ≠ .done →
      Moves env s { s with phase } []
  | finish : s.phase = .loop → env.range.end_port < s.port → s.in_flight_count ≤ 0 →
      Moves env s { s with phase := .done } []
  | ready {ev : BitVec 64} {rest : List (BitVec 64)} {s' : State} :
      s.phase = .batch (ev :: rest) → unpackPort ev ≠ 0 →
      s.retire (unpackFd ev) (.batch rest) = some s' →
      Moves env s s'
        (report env.toEnv s.kernel (unpackFd ev) (unpackPort ev) ++ [.retired (unpackFd ev)])
  | pulse {ev : BitVec 64} {rest : List (BitVec 64)} {now : ℤ} : s.phase = .batch (ev :: rest) →
      unpackPort ev = 0 → Moves env s { s with clock := now, phase := .sweep now rest } []
  | expire {now : ℤ} {rest : List (BitVec 64)} {fd : ℕ} {s' : State} :
      s.phase = .sweep now rest → expiredHead now s.table s.in_flight = some (some fd) →
      s.retire fd (.sweep now rest) = some s' → Moves env s s' [.retired fd]
  | attempt {fd : ℕ} {res : ConnectResult} {now : ℤ} {s' : State} {evs : List Event} :
      s.phase = .fill → s.CanFill env → s.fill env fd res now = some (s', evs) → Moves env s s' evs
  | abandon {fd : ℕ} : s.phase = .fill → s.kernel.Fresh env.toEnv fd →
      Moves env s { s with phase := .failed } [.opened fd, .closed fd]
  | wait {fds : List ℕ} {events : List (BitVec 64)} : s.phase = .wait →
      s.kernel.epollWait fds = some events → Moves env s { s with phase := .batch events } []

theorem step_moves {env : TimerEnv} {max_fd : ℕ} {s s' : State} {act : Act} {evs : List Event}
    (hs : step env max_fd s act = some (s', evs)) : Moves env s s' evs := by
  cases act with
  | tick =>
    simp only [step] at hs
    split at hs
    · rename_i hphase
      split at hs
      · obtain ⟨rfl, rfl⟩ := Prod.mk.inj (Option.some.inj hs)
        exact .control (by rw [hphase]; rfl) (by rw [hphase]; rfl) (by simp)
      · rename_i hguard
        obtain ⟨rfl, rfl⟩ := Prod.mk.inj (Option.some.inj hs)
        exact .finish hphase (by omega) (by omega)
    · rename_i hphase
      split at hs
      · cases hs
      · obtain ⟨rfl, rfl⟩ := Prod.mk.inj (Option.some.inj hs)
        exact .control (by rw [hphase]; rfl) (by rw [hphase]; rfl) (by simp)
    · rename_i hphase
      obtain ⟨rfl, rfl⟩ := Prod.mk.inj (Option.some.inj hs)
      exact .control (by rw [hphase]; rfl) (by rw [hphase]; rfl) (by simp)
    · rename_i ev rest hphase
      split at hs
      · cases hs
      · obtain ⟨s₁, hr, hs₁⟩ := Option.map_eq_some_iff.mp hs
        obtain ⟨rfl, rfl⟩ := Prod.mk.inj hs₁
        exact .ready hphase ‹_› hr
    · rename_i now rest hphase
      obtain ⟨head, hhead, hs₁⟩ := Option.bind_eq_some_iff.mp hs
      cases head with
      | none =>
        obtain ⟨rfl, rfl⟩ := Prod.mk.inj (Option.some.inj hs₁)
        exact .control (by rw [hphase]; rfl) (by rw [hphase]; rfl) (by simp)
      | some fd =>
        obtain ⟨s₁, hr, hs₂⟩ := Option.map_eq_some_iff.mp hs₁
        obtain ⟨rfl, rfl⟩ := Prod.mk.inj hs₂
        exact .expire hphase hhead hr
    · cases hs
  | noSocket =>
    simp only [step] at hs
    split at hs
    · rename_i hguard
      obtain ⟨rfl, rfl⟩ := Prod.mk.inj (Option.some.inj hs)
      exact .control (by rw [hguard.1]; rfl) (by rw [hguard.1]; rfl) (by simp)
    · cases hs
  | connect fd res now =>
    simp only [step] at hs
    split at hs
    · rename_i hguard
      split at hs
      · split at hs
        · obtain ⟨rfl, rfl⟩ := Prod.mk.inj (Option.some.inj hs)
          exact .abandon hguard.1 ‹_›
        · cases hs
      · exact .attempt hguard.1 hguard.2.1 hs
    · cases hs
  | wait fds =>
    simp only [step] at hs
    split at hs
    · obtain ⟨events, hw, hr⟩ := Option.map_eq_some_iff.mp hs
      obtain ⟨rfl, rfl⟩ := Prod.mk.inj hr
      exact .wait ‹_› hw
    · cases hs
  | timer now =>
    simp only [step] at hs
    split at hs
    · rename_i ev rest hphase
      split at hs
      · rename_i hguard
        obtain ⟨rfl, rfl⟩ := Prod.mk.inj (Option.some.inj hs)
        exact .pulse hphase hguard.1
      · cases hs
    · cases hs

section Inversion
variable {env : TimerEnv} {s s' : State} {evs : List Event} {fd : ℕ} {phase : Phase}

theorem retire_cases (h : s.retire fd phase = some s') :
    ∃ table in_flight, Knocker.retire s.table s.in_flight fd = some (table, in_flight) ∧
      s' = { s with
        kernel := cleanup s.kernel fd
        table
        in_flight
        in_flight_count := s.in_flight_count - 1
        phase } := by
  obtain ⟨⟨table, in_flight⟩, hr, rfl⟩ := Option.map_eq_some_iff.mp h
  exact ⟨table, in_flight, hr, rfl⟩

theorem fill_cases {res : ConnectResult} {now : ℤ}
    (h : s.fill env fd res now = some (s', evs)) :
    ∃ kernel, attempt env.toEnv s.kernel s.port fd res = some (kernel, evs) ∧
      (res = .inProgress ∧ (∃ table in_flight,
          register s.table s.in_flight fd s.port now = some (table, in_flight) ∧
          s' = ⟨kernel, table, in_flight, s.in_flight_count + 1, s.port + 1, now, .fill⟩) ∨
        res ≠ .inProgress ∧ s' = { s with kernel, port := s.port + 1, clock := now }) := by
  obtain ⟨⟨kernel, out⟩, ha, h⟩ := Option.bind_eq_some_iff.mp h
  refine ⟨kernel, ?_⟩
  simp only at h
  split at h
  · obtain ⟨⟨table, in_flight⟩, hr, h⟩ := Option.bind_eq_some_iff.mp h
    obtain ⟨rfl, rfl⟩ := Prod.mk.inj (Option.some.inj h)
    exact ⟨ha, .inl ⟨‹_›, table, in_flight, hr, rfl⟩⟩
  · obtain ⟨rfl, rfl⟩ := Prod.mk.inj (Option.some.inj h)
    exact ⟨ha, .inr ⟨‹_›, rfl⟩⟩

end Inversion

section Refinement
variable {env : TimerEnv} {max_fd : ℕ} {clock : ℤ} {s : State} {log : List Event}
  {P : State → Act → Prop} {Q : Scanner.State → Scanner.Act → Prop}

/-- The program refines the scanner; conditions on the handling of socket events carry over,
and so do conditions on what a sweep retires. -/
theorem toScanner_run
    (hready : ∀ s act, P s act → s.phase.next = s.phase.events → Q s.toScanner .ready)
    (hexpire : ∀ s log now rest fd, (system env max_fd clock).RunWhere P s log →
      s.phase = .sweep now rest → expiredHead now s.table s.in_flight = some (some fd) →
      Q s.toScanner (.expire fd))
    (hother : ∀ t a, a ≠ .ready → (∀ fd, a ≠ .expire fd) → Q t a)
    (hrun : (system env max_fd clock).RunWhere P s log) :
    (Scanner.system env.toEnv {env.timer_fd}).RunWhere Q s.toScanner log := by
  refine hrun.invariant (I := fun s log =>
    (Scanner.system env.toEnv {env.timer_fd}).RunWhere Q s.toScanner log) .init
    fun s log act s' evs hrun ih hp hs => ?_
  cases step_moves hs with
  | @control phase _ hevents _ => simpa [State.toScanner, hevents] using ih
  | finish hphase _ _ => simpa [State.toScanner, hphase, Phase.events] using ih
  | @ready ev rest s' hphase hport hretire =>
    obtain ⟨table, in_flight, -, rfl⟩ := retire_cases hretire
    apply ih.step (a := Scanner.Act.ready) (hready s act hp (by rw [hphase]; rfl))
    simp [Scanner.system, Scanner.step, State.toScanner, hphase, Phase.events, hport]
  | @pulse ev rest now hphase hport =>
    apply ih.step (a := Scanner.Act.timer) (hother _ _ (by simp) (by simp))
    simp [Scanner.system, Scanner.step, State.toScanner, hphase, Phase.events, hport]
  | @expire now rest fd s' hphase hhead hretire =>
    obtain ⟨table, in_flight, -, rfl⟩ := retire_cases hretire
    apply ih.step (a := Scanner.Act.expire fd) (hexpire s log now rest fd hrun hphase hhead)
    simp [Scanner.system, Scanner.step, State.toScanner, hphase, Phase.events]
  | @attempt fd res now s' evs hphase hfill hs' =>
    obtain ⟨kernel, ha, hcases⟩ := fill_cases hs'
    apply ih.step (a := Scanner.Act.attempt fd res) (hother _ _ (by simp) (by simp))
    rcases hcases with ⟨-, table, in_flight, -, rfl⟩ | ⟨-, rfl⟩ <;>
      simp [Scanner.system, Scanner.step, State.toScanner, hphase, Phase.events, hfill.2, ha]
  | @abandon fd hphase hfresh =>
    apply ih.step (a := Scanner.Act.abandon fd) (hother _ _ (by simp) (by simp))
    simp [Scanner.system, Scanner.step, State.toScanner, hphase, Phase.events, hfresh]
  | @wait fds events hphase hw =>
    apply ih.step (a := Scanner.Act.wait fds) (hother _ _ (by simp) (by simp))
    simp [Scanner.system, Scanner.step, State.toScanner, hphase, Phase.events, hw]

end Refinement

/-- The next socket event of the batch, if there is one, is handled while its descriptor is
open: the sweep has not just retired it. -/
def NextOpen (s : State) (_ : Act) : Prop := Scanner.NextOpen s.kernel s.phase.next

instance (s : State) (act : Act) : Decidable (NextOpen s act) :=
  inferInstanceAs (Decidable (Scanner.NextOpen _ _))

/-- The list holds the pending connections, the open sockets, each once, and the flags and
the counter agree with it. -/
structure Consistent (env : TimerEnv) (s : State) (xs : List ℕ) : Prop where
  represents : Represents s.table s.in_flight xs
  pending : ∀ fd, fd ∈ xs ↔ fd ∈ s.kernel.sockets
  active : ∀ fd, s.table.active fd = true ↔ fd ∈ xs
  count : s.in_flight_count = xs.length
  bounded : s.in_flight_count ≤ MAX_IN_FLIGHT
  exit : s.phase = .done → env.range.end_port < s.port ∧ xs = []

section Consistency
variable {env : TimerEnv} {max_fd : ℕ} {clock : ℤ} {s s' : State} {xs : List ℕ}
  {log evs : List Event} {fd : ℕ}

theorem Consistent.of_control (h : Consistent env s xs) {phase : Phase} {clock : ℤ}
    (hphase : phase ≠ .done) : Consistent env { s with phase, clock } xs :=
  ⟨h.represents, h.pending, h.active, h.count, h.bounded, fun hd => absurd hd hphase⟩

/-- Retiring a pending connection, on either path. -/
theorem Consistent.retire (h : Consistent env s xs) (hfd : fd ∈ s.kernel.sockets)
    {phase : Phase} (hphase : phase ≠ .done) (hs : s.retire fd phase = some s') :
    Consistent env s' (xs.erase fd) := by
  obtain ⟨table, in_flight, hretire, rfl⟩ := retire_cases hs
  have hmem := (h.pending fd).mpr hfd
  obtain ⟨as, bs, -, rfl, herase⟩ := List.exists_erase_eq hmem
  obtain ⟨t, l, ht, hrep, -, -, hactive⟩ := retire_spec h.represents
  obtain ⟨rfl, rfl⟩ := Prod.mk.inj (Option.some.inj (ht.symm.trans hretire))
  have hnodup := h.represents.nodup
  constructor
  · rwa [herase]
  · intro x
    simp only [hnodup.mem_erase_iff, Scanner.cleanup_sockets, Finset.mem_erase, h.pending]
  · intro x
    rw [hnodup.mem_erase_iff, ← h.active, hactive]
    by_cases hx : x = fd <;> simp [hx]
  · have hlen := List.length_erase_of_mem hmem
    have hpos := List.length_pos_of_mem hmem
    simp only [h.count, hlen]
    omega
  · have hbounded := h.bounded
    simp only
    omega
  · exact fun hd => absurd hd hphase

theorem Consistent.fill (h : Consistent env s xs) {res : ConnectResult} {now : ℤ}
    (hphase : s.phase = .fill) (hfill : s.CanFill env)
    (hs : s.fill env fd res now = some (s', evs)) : ∃ xs', Consistent env s' xs' := by
  obtain ⟨kernel, ha, ⟨hres, table, in_flight, hreg, rfl⟩ | ⟨hres, rfl⟩⟩ := fill_cases hs
  · have hsockets := attempt_sockets ha
    rw [if_pos hres] at hsockets
    have hnew : fd ∉ xs := fun hin => (attempt_eq_some ha).1.1 ((h.pending fd).mp hin)
    obtain ⟨t, l, ht, hrep, -, -, hactive⟩ :=
      register_spec h.represents hnew (register_inTable hreg) s.port now
    obtain ⟨rfl, rfl⟩ := Prod.mk.inj (Option.some.inj (ht.symm.trans hreg))
    refine ⟨xs ++ [fd], hrep, fun x => ?_, fun x => ?_, ?_, ?_, by simp⟩
    · simp [hsockets, h.pending, or_comm]
    · simp only [hactive, List.mem_append, List.mem_singleton, ← h.active]
      by_cases hx : x = fd <;> simp [hx]
    · simp [h.count]
    · have hroom := hfill.1
      simp only
      omega
  · have hsockets := attempt_sockets ha
    rw [if_neg hres] at hsockets
    refine ⟨xs, h.represents, fun x => ?_, h.active, h.count, h.bounded, ?_⟩
    · rw [h.pending, hsockets]
    · simp [hphase]

theorem expiredHead_mem {now : ℤ} (h : Represents s.table s.in_flight xs)
    (hhead : expiredHead now s.table s.in_flight = some (some fd)) : fd ∈ xs := by
  rw [expiredHead_spec h, Option.some.injEq, Option.filter_eq_some_iff] at hhead
  exact List.mem_of_mem_head? hhead.1

theorem Consistent.step {act : Act} (h : Consistent env s xs) (hopen : NextOpen s act)
    (hs : step env max_fd s act = some (s', evs)) : ∃ xs', Consistent env s' xs' := by
  cases step_moves hs with
  | control _ _ hphase => exact ⟨xs, h.of_control hphase⟩
  | finish hphase hport hcount =>
    have hempty : xs = [] := by
      have hlen := h.count
      exact List.length_eq_zero_iff.mp (by omega)
    exact ⟨xs, h.represents, h.pending, h.active, h.count, h.bounded, fun _ => ⟨hport, hempty⟩⟩
  | @ready ev rest s' hphase hport hretire =>
    have hfd : unpackFd ev ∈ s.kernel.sockets :=
      hopen ev (by simp [hphase, Phase.next]) hport
    exact ⟨_, h.retire hfd (by simp) hretire⟩
  | pulse hphase hport => exact ⟨xs, h.of_control (by simp)⟩
  | expire hphase hhead hretire =>
    have hfd := (h.pending _).mp (expiredHead_mem h.represents hhead)
    exact ⟨_, h.retire hfd (by simp) hretire⟩
  | attempt hphase hfill hs' => exact h.fill hphase hfill hs'
  | abandon hphase hfresh => exact ⟨xs, h.of_control (by simp)⟩
  | wait hphase hw => exact ⟨xs, h.of_control (by simp)⟩

theorem consistent_of_run (hrun : (system env max_fd clock).RunWhere NextOpen s log) :
    ∃ xs, Consistent env s xs := by
  refine hrun.invariant (I := fun s _ => ∃ xs, Consistent env s xs)
    ⟨[], represents_empty max_fd, ?_, ?_, rfl, by simp [system], by simp [system]⟩
    fun s log act s' evs _ ⟨xs, ih⟩ hp hs => ih.step hp hs
  · simp [system, Kernel.init]
  · intro fd
    simp [system, Table.active, Table.empty]

/-- A socket event handled on a descriptor that the sweep has closed spoils the counter. -/
theorem Consistent.spoiled {act : Act} (h : Consistent env s xs) (hstale : ¬ NextOpen s act)
    (hs : Intrusive.step env max_fd s act = some (s', evs)) (xs' : List ℕ) :
    ¬ Consistent env s' xs' := by
  intro h'
  have hlength {t : State} {ys : List ℕ} (ht : Consistent env t ys) :
      ys.length = t.kernel.sockets.card := by
    have hset : ys.toFinset = t.kernel.sockets := by
      ext fd
      rw [List.mem_toFinset, ht.pending]
    rw [← hset, List.toFinset_card_of_nodup ht.represents.nodup]
  cases step_moves hs with
  | control hnext _ _ => exact hstale (by simp [NextOpen, Scanner.NextOpen, hnext])
  | finish hphase _ _ => exact hstale (by simp [NextOpen, Scanner.NextOpen, hphase, Phase.next])
  | @ready ev rest s' hphase hport hretire =>
    obtain ⟨table, in_flight, -, rfl⟩ := retire_cases hretire
    by_cases hfd : unpackFd ev ∈ s.kernel.sockets
    · exact hstale (by simp [NextOpen, Scanner.NextOpen, hphase, Phase.next, hfd])
    · have hcount := h.count
      have hcount' := h'.count
      rw [hlength h] at hcount
      rw [hlength h'] at hcount'
      simp only [Scanner.cleanup_sockets, Finset.erase_eq_of_notMem hfd] at hcount'
      omega
  | @pulse ev rest now hphase hport =>
    exact hstale (by simp [NextOpen, Scanner.NextOpen, hphase, Phase.next, hport])
  | expire hphase _ _ => exact hstale (by simp [NextOpen, Scanner.NextOpen, hphase, Phase.next])
  | attempt hphase _ _ => exact hstale (by simp [NextOpen, Scanner.NextOpen, hphase, Phase.next])
  | abandon hphase _ => exact hstale (by simp [NextOpen, Scanner.NextOpen, hphase, Phase.next])
  | wait hphase _ => exact hstale (by simp [NextOpen, Scanner.NextOpen, hphase, Phase.next])

theorem scanner_run (hrun : (system env max_fd clock).RunWhere NextOpen s log) :
    (Scanner.system env.toEnv {env.timer_fd}).RunWhere Scanner.ActsOnOpen s.toScanner log := by
  refine toScanner_run (fun s act hp hnext => ?_) (fun s log now rest fd hrun _ hhead => ?_)
    (fun t a hready hexpire => ?_) hrun
  · change Scanner.NextOpen s.kernel s.phase.events
    rwa [← hnext]
  · obtain ⟨xs, h⟩ := consistent_of_run hrun
    exact (h.pending fd).mp (expiredHead_mem h.represents hhead)
  · cases a with
    | ready => exact absurd rfl hready
    | expire fd => exact absurd rfl (hexpire fd)
    | attempt fd res => trivial
    | abandon fd => trivial
    | wait fds => trivial
    | timer => trivial

/-- The account of a whole run: the list, the flags and the counter agree with the pending
connections; each socket is closed and each connection retired exactly once; at the normal exit
every port was attempted and every connection retired. -/
structure Accounted (env : TimerEnv) (s : State) (log : List Event) : Prop where
  consistent : ∃ xs, Consistent env s xs
  balanced : Scanner.Balanced s.kernel log
  exit : s.phase = .done →
    attempts log = List.range' env.range.start_port
      (env.range.end_port + 1 - env.range.start_port) ∧
    ∀ fd, (log.map Event.flightMove).count (.release fd) =
      (log.map Event.flightMove).count (.acquire fd)

theorem accounted_of_run (hrun : (system env max_fd clock).RunWhere NextOpen s log) :
    Accounted env s log := by
  have hscan := scanner_run hrun
  have hinv := Scanner.inv_of_run env.timers hscan
  have hbalanced : Scanner.Balanced s.kernel log := Scanner.balanced_of_run hscan
  obtain ⟨xs, h⟩ := consistent_of_run hrun
  refine ⟨⟨xs, h⟩, hbalanced, fun hdone => ?_⟩
  obtain ⟨hport, rfl⟩ := h.exit hdone
  constructor
  · have hle : s.port ≤ env.range.end_port + 1 := hinv.port_le
    have hend : s.toScanner.port = env.range.end_port + 1 := le_antisymm hle hport
    rw [hinv.attempted, hend]
  · intro fd
    have hfd : fd ∉ s.kernel.sockets := fun hin => by simpa using (h.pending fd).mpr hin
    have hcount := ledger_count hbalanced.flights fd
    rw [if_neg hfd] at hcount
    exact hcount.symm

/-- In every run in which no socket event is handled after the sweep has retired its
descriptor, the bookkeeping is right; and from there a step keeps it right exactly when it is
no such event. -/
theorem in_flight_accounted (hrun : (system env max_fd clock).RunWhere NextOpen s log) :
    Accounted env s log ∧ ∀ act s' evs, (system env max_fd clock).step s act = some (s', evs) →
      (Accounted env s' (log ++ evs) ↔ NextOpen s act) := by
  refine ⟨accounted_of_run hrun, fun act s' evs hs => ⟨fun h' => ?_, fun hopen => ?_⟩⟩
  · by_contra hstale
    obtain ⟨xs, h⟩ := consistent_of_run hrun
    obtain ⟨xs', hxs'⟩ := h'.consistent
    exact h.spoiled hstale hs xs' hxs'
  · exact accounted_of_run (hrun.step hopen hs)

end Consistency

/-- One port that does not answer in time; descriptors 0 to 4 are in use, 4 by the timer. -/
def slowPort : TimerEnv where
  range := (checkRange 80 80).get rfl
  outcome _ := 111
  validAddress := true
  reserved := {0, 1, 2, 3, 4}
  reserved_lt := by decide
  timer_fd := 4
  timer_reserved := by decide

/-- The connection times out before anything else happens. -/
def timedOut : List Act :=
  [.tick, .connect 5 .inProgress 0, .tick, .wait [4], .timer 2000000001, .tick, .tick, .tick, .tick]

theorem in_flight_accounted_timedOut :
    ∃ s log, (system slowPort 16 0).RunWhere NextOpen s log ∧ s.phase = .done ∧
      Accounted slowPort s log := by
  obtain ⟨s, log, hrun, hq⟩ := (system slowPort 16 0).exists_run_of_exec NextOpen timedOut
    (fun s _ => decide (s.phase = .done)) (by decide +kernel)
  exact ⟨s, log, hrun, of_decide_eq_true hq, (in_flight_accounted hrun).1⟩

/-- The timer event and the event of the socket that has just timed out arrive in one batch. -/
def lateAnswer : List Act :=
  [.tick, .connect 5 .inProgress 0, .tick, .wait [4, 5], .timer 2000000001, .tick, .tick, .tick]

theorem in_flight_miscounted :
    ¬ ∀ (env : TimerEnv) (max_fd : ℕ) (clock : ℤ) (s : State) (log : List Event),
      (system env max_fd clock).Run s log → Accounted env s log := by
  intro haccounted
  obtain ⟨s, log, hrun, hq⟩ := (system slowPort 16 0).exists_run_of_exec (fun _ _ => True)
    lateAnswer (fun s _ => decide (s.in_flight_count = -1)) (by decide +kernel)
  obtain ⟨xs, h⟩ := (haccounted slowPort 16 0 s log hrun).consistent
  have hcount := h.count
  have hneg := of_decide_eq_true hq
  omega

end Intrusive
end Knocker
