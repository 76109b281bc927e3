import LowLevelCpp.Knocker.Scanner

/-! What the logs of a scanner say: each port is reported once at most, reports are right when
no event is handled on a closed descriptor, and complete when no connection is given up. -/
namespace Knocker.Scanner
open Foundations Foundations.System

/-- When the next event of a batch is a socket event, its descriptor is still open or its
port answers anyway. -/
def NextHonest (env : Env) (k : Kernel) (events : List (BitVec 64)) : Prop :=
  ∀ ev ∈ events.head?, unpackPort ev ≠ 0 →
    unpackFd ev ∈ k.sockets ∨ env.outcome (unpackPort ev) = 0

instance (env : Env) (k : Kernel) : ∀ events, Decidable (NextHonest env k events)
  | [] => .isTrue (by simp [NextHonest])
  | ev :: _ => decidable_of_iff
      (unpackPort ev ≠ 0 → unpackFd ev ∈ k.sockets ∨ env.outcome (unpackPort ev) = 0)
      (by simp [NextHonest])

def Honest (env : Env) (s : State) : Act → Prop
  | .ready => NextHonest env s.kernel s.events
  | _ => True

/-- When the next event of a batch is a socket event, its descriptor is still open. -/
def NextOpen (k : Kernel) (events : List (BitVec 64)) : Prop :=
  ∀ ev ∈ events.head?, unpackPort ev ≠ 0 → unpackFd ev ∈ k.sockets

instance (k : Kernel) : ∀ events, Decidable (NextOpen k events)
  | [] => .isTrue (by simp [NextOpen])
  | ev :: _ => decidable_of_iff (unpackPort ev ≠ 0 → unpackFd ev ∈ k.sockets)
      (by simp [NextOpen])

/-- Only open descriptors are cleaned up. -/
def ActsOnOpen (s : State) : Act → Prop
  | .ready => NextOpen s.kernel s.events
  | .expire fd => fd ∈ s.kernel.sockets
  | _ => True

/-- No connection is given up. -/
def NoExpire (_ : State) : Act → Prop
  | .expire _ => False
  | _ => True

section Runs
variable {env : Env} {timers : Finset ℕ} {s s' : State} {log evs : List Event} {act : Act}
  {P : State → Act → Prop}

/-- Any number of connections may be given up at once. -/
theorem expire_all {Q : State → Act → Prop} (hQ : ∀ s fd, Q s (.expire fd))
    (hrun : (system env timers).RunWhere Q s log) (closed : List ℕ) :
    (system env timers).RunWhere Q { s with kernel := closed.foldl cleanup s.kernel }
      (log ++ closed.map .retired) := by
  induction closed generalizing s log with
  | nil => simpa using hrun
  | cons fd closed ih =>
    have hnext := ih (hrun.step (hQ s fd) rfl)
    simpa using hnext

theorem ActsOnOpen.honest (h : ActsOnOpen s act) : Honest env s act := by
  cases act with
  | ready => exact fun ev hev hport => .inl (h ev hev hport)
  | attempt fd res => trivial
  | abandon fd => trivial
  | wait fds => trivial
  | timer => trivial
  | expire fd => trivial

theorem answered_once (htimers : timers ⊆ env.reserved)
    (hrun : (system env timers).RunWhere P s log) : (answers log).Nodup :=
  (inv_of_run htimers hrun).once

theorem answers_report (env : Env) (k : Kernel) (fd p : ℕ) :
    answers (report env k fd p ++ [.retired fd]) =
      if k.getsockopt env fd 0 = 0 then [p] else [] := by
  unfold report
  split <;> rfl

/-- What the answers of one step say about the outcomes. -/
theorem answers_step_sound (hinv : Inv env timers s log) (hp : Honest env s act)
    (hs : step env s act = some (s', evs)) : ∀ p ∈ answers evs, env.outcome p = 0 := by
  intro p hpe
  cases act with
  | attempt fd res =>
    obtain ⟨-, -, k, ha, -⟩ := attempt_cases hs
    obtain ⟨-, ⟨-, hzero, -, rfl⟩ | ⟨-, -, rfl⟩ | ⟨-, -, -, rfl⟩⟩ := attempt_eq_some ha
    · obtain rfl : p = s.port := List.mem_singleton.mp hpe
      exact hzero
    · cases hpe
    · cases hpe
  | abandon fd =>
    obtain ⟨-, -, rfl⟩ := abandon_cases hs
    cases hpe
  | wait fds =>
    obtain ⟨events, -, -, rfl⟩ := wait_cases hs
    cases hpe
  | ready =>
    obtain ⟨ev, rest, he, hport, -, rfl⟩ := ready_cases hs
    rw [answers_report] at hpe
    split at hpe
    · rename_i herr
      obtain rfl := List.mem_singleton.mp hpe
      rcases hp ev (by simp [he]) hport with hopen | hzero
      · -- an open descriptor is that of the port, so `err` is the outcome
        have hpeer := ((hinv.current ev (by simp [he]) hport).2.2 _ hopen).mpr rfl
        simpa [Kernel.getsockopt, hopen, hpeer] using herr
      · exact hzero
    · cases hpe
  | timer =>
    obtain ⟨ev, rest, -, -, -, rfl⟩ := timer_cases hs
    cases hpe
  | expire fd =>
    obtain ⟨-, rfl⟩ := expire_cases hs
    cases hpe

theorem answers_sound (htimers : timers ⊆ env.reserved)
    (hrun : (system env timers).RunWhere (Honest env) s log) :
    ∀ p ∈ answers log, env.outcome p = 0 := by
  refine hrun.invariant (I := fun _ log => ∀ p ∈ answers log, env.outcome p = 0) (by simp [answers])
    fun s log act s' evs hrun ih hp hs p hpe => ?_
  rw [answers_append, List.mem_append] at hpe
  rcases hpe with hpe | hpe
  · exact ih p hpe
  · exact answers_step_sound (inv_of_run htimers hrun) hp hs p hpe

/-- Sockets are opened and closed, and connections registered and retired, exactly once. -/
structure Balanced (k : Kernel) (log : List Event) : Prop where
  sockets : (ledger Event.socketMove).replay log = some k.sockets
  flights : (ledger Event.flightMove).replay log = some k.sockets

theorem Balanced.retire {k : Kernel} {fd : ℕ} (h : Balanced k log) (hfd : fd ∈ k.sockets) :
    Balanced (cleanup k fd) (log ++ [.retired fd]) := by
  constructor
  · rw [Spec.replay_append _ h.sockets]
    simp [ledger, Event.socketMove, hfd]
  · rw [Spec.replay_append _ h.flights]
    simp [ledger, Event.flightMove, hfd]

theorem Balanced.report {k : Kernel} {fd p : ℕ} (h : Balanced k log) :
    Balanced k (log ++ Knocker.report env k fd p) := by
  unfold Knocker.report
  split
  · exact ⟨by rw [Spec.replay_append _ h.sockets]; rfl, by rw [Spec.replay_append _ h.flights]; rfl⟩
  · simpa using h

theorem Balanced.abandon {k : Kernel} {fd : ℕ} (h : Balanced k log) (hfd : fd ∉ k.sockets) :
    Balanced k (log ++ [.opened fd, .closed fd]) := by
  constructor
  · rw [Spec.replay_append _ h.sockets]
    simp [ledger, Event.socketMove, hfd]
  · rw [Spec.replay_append _ h.flights]
    simp [ledger, Event.flightMove]

theorem Balanced.attempt {k k' : Kernel} {fd port : ℕ} {res : ConnectResult}
    (h : Balanced k log) (ha : Knocker.attempt env k port fd res = some (k', evs)) :
    Balanced k' (log ++ evs) := by
  obtain ⟨hfresh, hcases⟩ := attempt_eq_some ha
  have hclosed : (((k.socket fd).connect fd port).close fd).sockets = k.sockets :=
    Finset.erase_insert hfresh.1
  have hpending : (((k.socket fd).connect fd port).epollAdd fd (pack fd port)).sockets =
      insert fd k.sockets := rfl
  rcases hcases with ⟨-, -, rfl, rfl⟩ | ⟨-, rfl, rfl⟩ | ⟨-, -, rfl, rfl⟩
  · constructor
    · rw [Spec.replay_append _ h.sockets, hclosed]
      simp [ledger, Event.socketMove, hfresh.1]
    · rw [Spec.replay_append _ h.flights, hclosed]
      simp [ledger, Event.flightMove]
  · constructor
    · rw [Spec.replay_append _ h.sockets, hpending]
      simp [ledger, Event.socketMove, hfresh.1]
    · rw [Spec.replay_append _ h.flights, hpending]
      simp [ledger, Event.flightMove, hfresh.1]
  · constructor
    · rw [Spec.replay_append _ h.sockets, hclosed]
      simp [ledger, Event.socketMove, hfresh.1]
    · rw [Spec.replay_append _ h.flights, hclosed]
      simp [ledger, Event.flightMove]

theorem balanced_of_run (hrun : (system env timers).RunWhere ActsOnOpen s log) :
    Balanced s.kernel log := by
  refine hrun.invariant (I := fun s log => Balanced s.kernel log) ⟨rfl, rfl⟩
    fun s log act s' evs _ ih hp hs => ?_
  change step env s act = some (s', evs) at hs
  cases act with
  | attempt fd res =>
    obtain ⟨-, -, k, ha, rfl⟩ := attempt_cases hs
    exact ih.attempt ha
  | abandon fd =>
    obtain ⟨hfresh, rfl, rfl⟩ := abandon_cases hs
    exact ih.abandon hfresh.1
  | wait fds =>
    obtain ⟨events, -, rfl, rfl⟩ := wait_cases hs
    simpa using ih
  | ready =>
    obtain ⟨ev, rest, he, hport, rfl, rfl⟩ := ready_cases hs
    rw [← List.append_assoc]
    exact ih.report.retire (hp ev (by simp [he]) hport)
  | timer =>
    obtain ⟨ev, rest, -, -, rfl, rfl⟩ := timer_cases hs
    simpa using ih
  | expire fd =>
    obtain ⟨rfl, rfl⟩ := expire_cases hs
    exact ih.retire hp

/-- With no connection given up, every event is handled while its descriptor is open and
every answering port that was attempted has been reported or is still pending. -/
structure Complete (env : Env) (s : State) (log : List Event) : Prop where
  handled : ∀ ev ∈ s.events, unpackPort ev ≠ 0 → unpackFd ev ∈ s.kernel.sockets
  found : ∀ p, env.range.start_port ≤ p → p < s.port → env.outcome p = 0 →
    p ∈ answers log ∨ ∃ fd ∈ s.kernel.sockets, s.kernel.peer fd = p

theorem Complete.attempt {k : Kernel} {fd : ℕ} {res : ConnectResult} (h : Complete env s log)
    (ha : Knocker.attempt env s.kernel s.port fd res = some (k, evs)) :
    Complete env ⟨k, s.port + 1, []⟩ (log ++ evs) := by
  obtain ⟨hfresh, hcases⟩ := attempt_eq_some ha
  refine ⟨by simp, fun p hstart hlt hzero => ?_⟩
  have hne {x : ℕ} (hx : x ∈ s.kernel.sockets) : x ≠ fd := fun heq => hfresh.1 (heq ▸ hx)
  rw [answers_append, List.mem_append]
  rcases Nat.lt_succ_iff_lt_or_eq.mp hlt with hlt | rfl
  · refine (h.found p hstart hlt hzero).imp .inl fun ⟨x, hx, hpeer⟩ => ⟨x, ?_, ?_⟩
    · rcases hcases with ⟨-, -, rfl, -⟩ | ⟨-, rfl, -⟩ | ⟨-, -, rfl, -⟩ <;>
        simp [Kernel.close, Kernel.connect, Kernel.socket, Kernel.epollAdd, hx, hne hx]
    · rcases hcases with ⟨-, -, rfl, -⟩ | ⟨-, rfl, -⟩ | ⟨-, -, rfl, -⟩ <;>
        simp [Kernel.close, Kernel.connect, Kernel.socket, Kernel.epollAdd, hpeer, hne hx]
  · rcases hcases with ⟨-, -, -, rfl⟩ | ⟨-, rfl, -⟩ | ⟨-, hnz, -⟩
    · exact .inl (.inr List.mem_cons_self)
    · refine .inr ⟨fd, Finset.mem_insert_self _ _, ?_⟩
      simp [Kernel.epollAdd, Kernel.connect]
    · exact absurd hzero hnz

theorem Complete.wait {fds : List ℕ} {events : List (BitVec 64)}
    (htimers : timers ⊆ env.reserved) (hinv : Inv env timers s log) (h : Complete env s log)
    (hw : s.kernel.epollWait fds = some events) : Complete env { s with events } log := by
  refine ⟨fun ev hev hp => ?_, h.found⟩
  obtain ⟨-, hregistered, rfl⟩ := Kernel.epollWait_eq_some hw
  obtain ⟨fd, hfd, rfl⟩ := List.mem_map.mp hev
  rcases hinv.registered_data htimers (hregistered fd hfd) with ⟨-, hzero⟩ | ⟨hs, -, hfd'⟩
  · exact absurd hzero hp
  · rwa [hfd']

theorem Complete.ready {ev : BitVec 64} {rest : List (BitVec 64)} (hinv : Inv env timers s log)
    (h : Complete env s log) (he : s.events = ev :: rest) (hp : unpackPort ev ≠ 0) :
    Complete env ⟨cleanup s.kernel (unpackFd ev), s.port, rest⟩
      (log ++ (report env s.kernel (unpackFd ev) (unpackPort ev) ++
        [.retired (unpackFd ev)])) := by
  have hmem : ev ∈ s.events := he ▸ List.mem_cons_self
  have hopen := h.handled ev hmem hp
  have hiff := (hinv.current ev hmem hp).2.2
  have hpeer := (hiff _ hopen).mpr rfl
  constructor
  · intro ev' hev' hp'
    have hmem' : ev' ∈ s.events := he ▸ List.mem_cons_of_mem _ hev'
    have hopen' := h.handled ev' hmem' hp'
    refine Finset.mem_erase.mpr ⟨fun heq => ?_, hopen'⟩
    have hpeer' := ((hinv.current ev' hmem' hp').2.2 _ hopen').mpr rfl
    rw [heq, hpeer] at hpeer'
    have hdistinct := hinv.distinct
    rw [he, List.pairwise_cons] at hdistinct
    exact hdistinct.1 ev' hev' hp hpeer'
  · intro p hstart hlt hzero
    rw [answers_append, answers_report, List.mem_append]
    rcases h.found p hstart hlt hzero with hin | ⟨x, hx, hxp⟩
    · exact .inl (.inl hin)
    · by_cases hxfd : x = unpackFd ev
      · subst hxfd
        have herr : s.kernel.getsockopt env (unpackFd ev) 0 = 0 := by
          simp [Kernel.getsockopt, hx, hxp, hzero]
        rw [if_pos herr]
        exact .inl (.inr (List.mem_singleton.mpr (hxp ▸ hpeer)))
      · exact .inr ⟨x, Finset.mem_erase.mpr ⟨hxfd, hx⟩, hxp⟩

theorem complete_of_run (htimers : timers ⊆ env.reserved)
    (hrun : (system env timers).RunWhere NoExpire s log) : Complete env s log := by
  refine hrun.invariant (I := Complete env) ⟨by simp [system], ?_⟩
    fun s log act s' evs hrun ih hp hs => ?_
  · intro p hstart hlt
    exact absurd hlt hstart.not_gt
  have hinv := inv_of_run htimers hrun
  change step env s act = some (s', evs) at hs
  cases act with
  | attempt fd res =>
    obtain ⟨-, -, k, ha, rfl⟩ := attempt_cases hs
    exact ih.attempt ha
  | abandon fd =>
    obtain ⟨-, rfl, rfl⟩ := abandon_cases hs
    refine ⟨ih.handled, fun p hstart hlt hzero => ?_⟩
    have hnone : answers [.opened fd, .closed fd] = [] := rfl
    rw [answers_append, hnone, List.append_nil]
    exact ih.found p hstart hlt hzero
  | wait fds =>
    obtain ⟨events, hw, rfl, rfl⟩ := wait_cases hs
    simpa using ih.wait htimers hinv hw
  | ready =>
    obtain ⟨ev, rest, he, hport, rfl, rfl⟩ := ready_cases hs
    exact ih.ready hinv he hport
  | timer =>
    obtain ⟨ev, rest, he, -, rfl, rfl⟩ := timer_cases hs
    have hmem (ev' : BitVec 64) (h : ev' ∈ rest) : ev' ∈ s.events := he ▸ List.mem_cons_of_mem _ h
    exact ⟨fun ev' hev' => ih.handled ev' (hmem ev' hev'), by simpa using ih.found⟩
  | expire fd => exact absurd hp id

theorem actsOnOpen_of_noExpire (htimers : timers ⊆ env.reserved)
    (hrun : (system env timers).RunWhere NoExpire s log) :
    (system env timers).RunWhere ActsOnOpen s log := by
  refine hrun.strengthen fun s log act s' evs hrun hp hs => ?_
  cases act with
  | ready =>
    obtain ⟨ev, rest, he, hport, -⟩ := ready_cases hs
    intro ev' hev' _
    obtain rfl : ev = ev' := by simpa [he] using hev'
    exact (complete_of_run htimers hrun).handled ev (by simp [he]) hport
  | expire fd => exact absurd hp id
  | attempt fd res => trivial
  | abandon fd => trivial
  | wait fds => trivial
  | timer => trivial

end Runs
end Knocker.Scanner
