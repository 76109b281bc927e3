import LowLevelCpp.Knocker.Kernel

/-!
What the event-driven scanners have in common, without their bookkeeping: attempts are made in
port order between waits, or abandoned before `connect`, the events of a batch are handled in
order, and at any time connections may be given up. The scanners refine this system, so what
holds of its logs holds of theirs.
-/
namespace Knocker
open Foundations Foundations.System

namespace Scanner

structure State where
  kernel : Kernel
  port : ℕ
  events : List (BitVec 64)

inductive Act where
  | attempt (fd : ℕ) (res : ConnectResult)
  | abandon (fd : ℕ)
  | wait (fds : List ℕ)
  | ready
  | timer
  | expire (fd : ℕ)

def step (env : Env) (s : State) : Act → Option (State × List Event)
  | .attempt fd res =>
    if s.events = [] ∧ s.port ≤ env.range.end_port then
      (Knocker.attempt env s.kernel s.port fd res).map fun r => (⟨r.1, s.port + 1, []⟩, r.2)
    else none
  | .abandon fd => if s.kernel.Fresh env fd then some (s, [.opened fd, .closed fd]) else none
  | .wait fds =>
    if s.events = [] then
      (s.kernel.epollWait fds).map fun events => ({ s with events }, [])
    else none
  | .ready =>
    match s.events with
    | [] => none
    | ev :: rest =>
      if unpackPort ev = 0 then none
      else
        some (⟨cleanup s.kernel (unpackFd ev), s.port, rest⟩,
          report env s.kernel (unpackFd ev) (unpackPort ev) ++ [.retired (unpackFd ev)])
  | .timer =>
    match s.events with
    | [] => none
    | ev :: rest => if unpackPort ev = 0 then some (⟨s.kernel, s.port, rest⟩, []) else none
  | .expire fd => some ({ s with kernel := cleanup s.kernel fd }, [.retired fd])

def system (env : Env) (timers : Finset ℕ) : System State Act Event where
  init := ⟨.init timers, env.range.start_port, []⟩
  step := step env

section Inversion
variable {env : Env} {s s' : State} {evs : List Event}

theorem attempt_cases {fd : ℕ} {res : ConnectResult}
    (hs : step env s (.attempt fd res) = some (s', evs)) :
    s.events = [] ∧ s.port ≤ env.range.end_port ∧ ∃ k,
      Knocker.attempt env s.kernel s.port fd res = some (k, evs) ∧ s' = ⟨k, s.port + 1, []⟩ := by
  simp only [step] at hs
  split at hs
  · rename_i hguard
    obtain ⟨⟨k, out⟩, ha, hr⟩ := Option.map_eq_some_iff.mp hs
    obtain ⟨rfl, rfl⟩ := Prod.mk.inj hr
    exact ⟨hguard.1, hguard.2, k, ha, rfl⟩
  · cases hs

theorem abandon_cases {fd : ℕ} (hs : step env s (.abandon fd) = some (s', evs)) :
    s.kernel.Fresh env fd ∧ s' = s ∧ evs = [.opened fd, .closed fd] := by
  simp only [step] at hs
  split at hs
  · obtain ⟨rfl, rfl⟩ := Prod.mk.inj (Option.some.inj hs)
    exact ⟨‹_›, rfl, rfl⟩
  · cases hs

theorem wait_cases {fds : List ℕ} (hs : step env s (.wait fds) = some (s', evs)) :
    ∃ events, s.kernel.epollWait fds = some events ∧ s' = { s with events } ∧ evs = [] := by
  simp only [step] at hs
  split at hs
  · obtain ⟨events, hw, hr⟩ := Option.map_eq_some_iff.mp hs
    obtain ⟨rfl, rfl⟩ := Prod.mk.inj hr
    exact ⟨events, hw, rfl, rfl⟩
  · cases hs

theorem ready_cases (hs : step env s .ready = some (s', evs)) :
    ∃ ev rest, s.events = ev :: rest ∧ unpackPort ev ≠ 0 ∧
      s' = ⟨cleanup s.kernel (unpackFd ev), s.port, rest⟩ ∧
      evs = report env s.kernel (unpackFd ev) (unpackPort ev) ++ [.retired (unpackFd ev)] := by
  simp only [step] at hs
  split at hs
  · cases hs
  · rename_i ev rest he
    split at hs
    · cases hs
    · obtain ⟨rfl, rfl⟩ := Prod.mk.inj (Option.some.inj hs)
      exact ⟨ev, rest, he, ‹_›, rfl, rfl⟩

theorem timer_cases (hs : step env s .timer = some (s', evs)) :
    ∃ ev rest, s.events = ev :: rest ∧ unpackPort ev = 0 ∧ s' = { s with events := rest } ∧
      evs = [] := by
  simp only [step] at hs
  split at hs
  · cases hs
  · rename_i ev rest he
    split at hs
    · obtain ⟨rfl, rfl⟩ := Prod.mk.inj (Option.some.inj hs)
      exact ⟨ev, rest, he, ‹_›, rfl, rfl⟩
    · cases hs

theorem expire_cases {fd : ℕ} (hs : step env s (.expire fd) = some (s', evs)) :
    s' = { s with kernel := cleanup s.kernel fd } ∧ evs = [.retired fd] := by
  obtain ⟨rfl, rfl⟩ := Prod.mk.inj (Option.some.inj hs)
  exact ⟨rfl, rfl⟩

end Inversion

/-- What holds in every run. `peers` and `current` say that a port belongs to one socket
and one event at most; an answered port belongs to none. -/
structure Inv (env : Env) (timers : Finset ℕ) (s : State) (log : List Event) : Prop where
  port_le : s.port ≤ env.range.end_port + 1
  attempted : attempts log = List.range' env.range.start_port (s.port - env.range.start_port)
  started : env.range.start_port ≤ s.port
  socket : ∀ fd ∈ s.kernel.sockets, fd < 2 ^ 31 ∧ fd ∉ env.reserved ∧
    env.range.start_port ≤ s.kernel.peer fd ∧ s.kernel.peer fd < s.port ∧
    s.kernel.data fd = pack fd (s.kernel.peer fd)
  timer : ∀ fd ∈ env.reserved, s.kernel.data fd = pack fd 0
  registered : ∀ fd ∈ s.kernel.registered, fd ∈ s.kernel.sockets ∨ fd ∈ timers
  watched : s.kernel.sockets ⊆ s.kernel.registered
  peers : ∀ fd ∈ s.kernel.sockets, ∀ fd' ∈ s.kernel.sockets,
    s.kernel.peer fd = s.kernel.peer fd' → fd = fd'
  current : ∀ ev ∈ s.events, unpackPort ev ≠ 0 →
    env.range.start_port ≤ unpackPort ev ∧ unpackPort ev < s.port ∧
    ∀ fd ∈ s.kernel.sockets, s.kernel.peer fd = unpackPort ev ↔ fd = unpackFd ev
  pulses : ∀ ev ∈ s.events, unpackPort ev = 0 → timers.Nonempty
  distinct : s.events.Pairwise fun ev ev' => unpackPort ev ≠ 0 → unpackPort ev ≠ unpackPort ev'
  once : (answers log).Nodup
  answered : ∀ p ∈ answers log, env.range.start_port ≤ p ∧ p < s.port ∧
    (∀ fd ∈ s.kernel.sockets, s.kernel.peer fd ≠ p) ∧ ∀ ev ∈ s.events, unpackPort ev ≠ p

section Steps
variable {env : Env} {timers : Finset ℕ} {s s' : State} {log evs : List Event} {fd : ℕ}

@[simp] theorem cleanup_sockets (k : Kernel) (fd : ℕ) :
    (cleanup k fd).sockets = k.sockets.erase fd := rfl

@[simp] theorem cleanup_registered (k : Kernel) (fd : ℕ) :
    (cleanup k fd).registered = k.registered.erase fd := by
  simp [cleanup, Kernel.close, Kernel.epollDel]

theorem Inv.init :
    Inv env timers (system env timers).init [] where
  port_le := env.range.ordered.trans (Nat.le_succ _)
  attempted := by simp [attempts, system]
  started := le_rfl
  socket := by simp [system, Kernel.init]
  timer _ _ := rfl
  registered _ h := .inr h
  watched := Finset.empty_subset _
  peers := by simp [system, Kernel.init]
  current := by simp [system]
  pulses := by simp [system]
  distinct := List.Pairwise.nil
  once := List.nodup_nil
  answered := by simp [answers]

/-- Lines other than attempts and answers do not matter. -/
theorem Inv.print (h : Inv env timers s log) (ha : answers evs = []) (hp : attempts evs = []) :
    Inv env timers s (log ++ evs) := by
  have hanswers : answers (log ++ evs) = answers log := by rw [answers_append, ha, List.append_nil]
  have hattempts : attempts (log ++ evs) = attempts log := by
    rw [attempts_append, hp, List.append_nil]
  obtain ⟨h₁, h₂, h₃, h₄, h₅, h₆, h₇, h₈, h₉, h₁₀, h₁₁, h₁₂, h₁₃⟩ := h
  exact ⟨h₁, hattempts ▸ h₂, h₃, h₄, h₅, h₆, h₇, h₈, h₉, h₁₀, h₁₁, hanswers ▸ h₁₂, hanswers ▸ h₁₃⟩

theorem Inv.forget (h : Inv env timers s log) (fd : ℕ) :
    Inv env timers { s with kernel := cleanup s.kernel fd } log where
  port_le := h.port_le
  attempted := h.attempted
  started := h.started
  socket x hx := h.socket x (Finset.mem_of_mem_erase hx)
  timer := h.timer
  registered x hx := by
    simp only [cleanup_registered, Finset.mem_erase] at hx
    simp only [cleanup_sockets, Finset.mem_erase]
    exact (h.registered x hx.2).imp (fun hs => ⟨hx.1, hs⟩) id
  watched x hx := by
    simp only [cleanup_sockets, Finset.mem_erase] at hx
    simp only [cleanup_registered, Finset.mem_erase]
    exact ⟨hx.1, h.watched hx.2⟩
  peers x hx y hy := h.peers x (Finset.mem_of_mem_erase hx) y (Finset.mem_of_mem_erase hy)
  current ev hev hp := by
    obtain ⟨hstart, hlt, hiff⟩ := h.current ev hev hp
    exact ⟨hstart, hlt, fun x hx => hiff x (Finset.mem_of_mem_erase hx)⟩
  pulses := h.pulses
  distinct := h.distinct
  once := h.once
  answered p hp := by
    obtain ⟨hstart, hlt, hsock, hev⟩ := h.answered p hp
    exact ⟨hstart, hlt, fun x hx => hsock x (Finset.mem_of_mem_erase hx), hev⟩

theorem Inv.next {ev : BitVec 64} {rest : List (BitVec 64)} (h : Inv env timers s log)
    (he : s.events = ev :: rest) : Inv env timers { s with events := rest } log where
  port_le := h.port_le
  attempted := h.attempted
  started := h.started
  socket := h.socket
  timer := h.timer
  registered := h.registered
  watched := h.watched
  peers := h.peers
  current ev' hev' := h.current ev' (he ▸ List.mem_cons_of_mem _ hev')
  pulses ev' hev' := h.pulses ev' (he ▸ List.mem_cons_of_mem _ hev')
  distinct := (List.pairwise_cons.mp (he ▸ h.distinct)).2
  once := h.once
  answered p hp := by
    obtain ⟨hstart, hlt, hsock, hev⟩ := h.answered p hp
    exact ⟨hstart, hlt, hsock, fun ev' hev' => hev ev' (he ▸ List.mem_cons_of_mem _ hev')⟩

/-- A port that belongs to no socket and no event may be reported. -/
theorem Inv.answer {p : ℕ} (h : Inv env timers s log) (hstart : env.range.start_port ≤ p)
    (hlt : p < s.port) (hnew : p ∉ answers log)
    (hsock : ∀ fd ∈ s.kernel.sockets, s.kernel.peer fd ≠ p)
    (hev : ∀ ev ∈ s.events, unpackPort ev ≠ p) :
    Inv env timers s (log ++ [.answered p]) where
  port_le := h.port_le
  attempted := by
    have hnone : attempts [.answered p] = [] := rfl
    rw [attempts_append, hnone, List.append_nil, h.attempted]
  started := h.started
  socket := h.socket
  timer := h.timer
  registered := h.registered
  watched := h.watched
  peers := h.peers
  current := h.current
  pulses := h.pulses
  distinct := h.distinct
  once := by
    rw [answers_append]
    refine List.nodup_append.mpr ⟨h.once, List.nodup_singleton p, ?_⟩
    intro a ha b hb hab
    obtain rfl := List.mem_singleton.mp hb
    exact hnew (hab ▸ ha)
  answered q hq := by
    rw [answers_append, List.mem_append] at hq
    rcases hq with hq | hq
    · exact h.answered q hq
    · obtain rfl := List.mem_singleton.mp hq
      exact ⟨hstart, hlt, hsock, hev⟩

theorem Inv.ready {ev : BitVec 64} {rest : List (BitVec 64)} (h : Inv env timers s log)
    (he : s.events = ev :: rest) (hp : unpackPort ev ≠ 0) :
    Inv env timers ⟨cleanup s.kernel (unpackFd ev), s.port, rest⟩
      (log ++ (report env s.kernel (unpackFd ev) (unpackPort ev) ++
        [.retired (unpackFd ev)])) := by
  have hmem : ev ∈ s.events := he ▸ List.mem_cons_self
  obtain ⟨hstart, hlt, hiff⟩ := h.current ev hmem hp
  have hnext := (h.forget (unpackFd ev)).next he
  rw [← List.append_assoc]
  refine Inv.print ?_ rfl rfl
  unfold report
  split
  · refine hnext.answer hstart hlt (fun hin => (h.answered _ hin).2.2.2 ev hmem rfl) ?_ ?_
    · intro x hx hpeer
      obtain ⟨hne, hx⟩ := Finset.mem_erase.mp hx
      exact hne ((hiff x hx).mp hpeer)
    · intro ev' hev'
      exact ((List.pairwise_cons.mp (he ▸ h.distinct)).1 ev' hev' hp).symm
  · simpa using hnext

/-- A registered descriptor is a timer, with port 0, or a socket, with its own port. -/
theorem Inv.registered_data (htimers : timers ⊆ env.reserved) (h : Inv env timers s log)
    (hfd : fd ∈ s.kernel.registered) :
    fd ∈ timers ∧ unpackPort (s.kernel.data fd) = 0 ∨
      fd ∈ s.kernel.sockets ∧ unpackPort (s.kernel.data fd) = s.kernel.peer fd ∧
        unpackFd (s.kernel.data fd) = fd := by
  rcases h.registered fd hfd with hs | ht
  · obtain ⟨hlt, -, -, hpeer, hpack⟩ := h.socket fd hs
    have hport := h.port_le
    have hend := env.range.end_le
    rw [hpack, unpackPort_pack (by omega) (by omega), unpackFd_pack (by omega) (by omega)]
    exact .inr ⟨hs, rfl, rfl⟩
  · have hlt := env.reserved_lt fd (htimers ht)
    rw [h.timer fd (htimers ht), unpackPort_pack (by omega) (by omega)]
    exact .inl ⟨ht, rfl⟩

theorem Inv.wait {fds : List ℕ} {events : List (BitVec 64)} (htimers : timers ⊆ env.reserved)
    (h : Inv env timers s log) (hw : s.kernel.epollWait fds = some events) :
    Inv env timers { s with events } log := by
  obtain ⟨hnodup, hregistered, rfl⟩ := Kernel.epollWait_eq_some hw
  have hdata (fd : ℕ) (hfd : fd ∈ fds) (hp : unpackPort (s.kernel.data fd) ≠ 0) :=
    (h.registered_data htimers (hregistered fd hfd)).resolve_left fun ht => hp ht.2
  constructor
  · exact h.port_le
  · exact h.attempted
  · exact h.started
  · exact h.socket
  · exact h.timer
  · exact h.registered
  · exact h.watched
  · exact h.peers
  · intro ev hev hp
    obtain ⟨fd, hfd, rfl⟩ := List.mem_map.mp hev
    obtain ⟨hs, hport, hfd'⟩ := hdata fd hfd hp
    obtain ⟨-, -, hstart, hlt, -⟩ := h.socket fd hs
    rw [hport, hfd']
    exact ⟨hstart, hlt, fun x hx => ⟨h.peers x hx fd hs, fun he => he ▸ rfl⟩⟩
  · intro ev hev hp
    obtain ⟨fd, hfd, rfl⟩ := List.mem_map.mp hev
    rcases h.registered_data htimers (hregistered fd hfd) with ⟨ht, -⟩ | ⟨hs, hport, -⟩
    · exact ⟨fd, ht⟩
    · obtain ⟨-, -, hstart, -⟩ := h.socket fd hs
      have hpos := env.range.start_pos
      omega
  · refine List.pairwise_map.mpr (hnodup.imp_of_mem fun {x y} hx hy hne hp heq => hne ?_)
    obtain ⟨hxs, hxp, -⟩ := hdata x hx hp
    obtain ⟨hys, hyp, -⟩ := hdata y hy (heq ▸ hp)
    exact h.peers x hxs y hys (hxp ▸ hyp ▸ heq)
  · exact h.once
  · intro p hp
    obtain ⟨hstart, hlt, hsock, -⟩ := h.answered p hp
    refine ⟨hstart, hlt, hsock, fun ev hev heq => ?_⟩
    obtain ⟨fd, hfd, rfl⟩ := List.mem_map.mp hev
    have hpos := env.range.start_pos
    obtain ⟨hs, hport, -⟩ := hdata fd hfd (by omega)
    exact hsock fd hs (hport ▸ heq)

/-- Only the open sockets and what belongs to them matter. -/
theorem Inv.congr {k : Kernel} (h : Inv env timers s log) (hs : k.sockets = s.kernel.sockets)
    (hr : k.registered = s.kernel.registered)
    (hpeer : ∀ fd ∈ s.kernel.sockets, k.peer fd = s.kernel.peer fd)
    (hdata : k.data = s.kernel.data) : Inv env timers { s with kernel := k } log where
  port_le := h.port_le
  attempted := h.attempted
  started := h.started
  socket fd hfd := by
    rw [hs] at hfd
    rw [hpeer fd hfd, hdata]
    exact h.socket fd hfd
  timer fd hfd := by
    rw [hdata]
    exact h.timer fd hfd
  registered fd hfd := by
    rw [hs]
    exact h.registered fd (hr ▸ hfd)
  watched := by
    rw [hs, hr]
    exact h.watched
  peers fd hfd fd' hfd' := by
    rw [hs] at hfd hfd'
    rw [hpeer fd hfd, hpeer fd' hfd']
    exact h.peers fd hfd fd' hfd'
  current ev hev hp := by
    obtain ⟨hstart, hlt, hiff⟩ := h.current ev hev hp
    refine ⟨hstart, hlt, fun fd hfd => ?_⟩
    rw [hs] at hfd
    rw [hpeer fd hfd]
    exact hiff fd hfd
  pulses := h.pulses
  distinct := h.distinct
  once := h.once
  answered p hp := by
    obtain ⟨hstart, hlt, hsock, hev⟩ := h.answered p hp
    refine ⟨hstart, hlt, fun fd hfd => ?_, hev⟩
    rw [hs] at hfd
    rw [hpeer fd hfd]
    exact hsock fd hfd

theorem Inv.pass (h : Inv env timers s log) (he : s.events = [])
    (hport : s.port ≤ env.range.end_port) :
    Inv env timers { s with port := s.port + 1 } (log ++ [.attempted s.port]) where
  port_le := Nat.succ_le_succ hport
  attempted := by
    have hone : attempts [.attempted s.port] = [s.port] := rfl
    have hlen : s.port + 1 - env.range.start_port = s.port - env.range.start_port + 1 :=
      Nat.succ_sub h.started
    rw [attempts_append, hone, h.attempted, hlen, List.range'_concat, Nat.one_mul,
      Nat.add_sub_cancel' h.started]
  started := h.started.trans (Nat.le_succ _)
  socket fd hfd := by
    obtain ⟨hlt, hres, hstart, hpeer, hdata⟩ := h.socket fd hfd
    exact ⟨hlt, hres, hstart, hpeer.trans (Nat.lt_succ_self _), hdata⟩
  timer := h.timer
  registered := h.registered
  watched := h.watched
  peers := h.peers
  current ev hev := by simp [he] at hev
  pulses := h.pulses
  distinct := h.distinct
  once := by
    have hnone : answers [.attempted s.port] = [] := rfl
    rw [answers_append, hnone, List.append_nil]
    exact h.once
  answered p hp := by
    have hnone : answers [.attempted s.port] = [] := rfl
    rw [answers_append, hnone, List.append_nil] at hp
    obtain ⟨hstart, hlt, hrest⟩ := h.answered p hp
    exact ⟨hstart, hlt.trans (Nat.lt_succ_self _), hrest⟩

/-- A pending connection, to the port passed last, is registered. -/
theorem Inv.pend {port : ℕ} (h : Inv env timers { s with port := port + 1 } log)
    (he : s.events = []) (hstart : env.range.start_port ≤ port)
    (hnew : ∀ x ∈ s.kernel.sockets, s.kernel.peer x < port) (hans : ∀ p ∈ answers log, p < port)
    (hfresh : s.kernel.Fresh env fd) :
    Inv env timers ⟨((s.kernel.socket fd).connect fd port).epollAdd fd (pack fd port), port + 1,
      s.events⟩ log := by
  obtain ⟨hsock, hres, hlt⟩ := hfresh
  have hne {x : ℕ} (hx : x ∈ s.kernel.sockets) : x ≠ fd := fun heq => hsock (heq ▸ hx)
  constructor
  · exact h.port_le
  · exact h.attempted
  · exact h.started
  · intro x hx
    rcases Finset.mem_insert.mp hx with rfl | hx
    · simpa [Kernel.epollAdd, Kernel.connect] using ⟨hlt, hres, hstart⟩
    · simpa [Kernel.epollAdd, Kernel.connect, hne hx, Kernel.socket] using h.socket x hx
  · intro x hx
    have hxfd : x ≠ fd := fun heq => hres (heq ▸ hx)
    simpa [Kernel.epollAdd, Kernel.connect, hxfd, Kernel.socket] using h.timer x hx
  · intro x hx
    rcases Finset.mem_insert.mp hx with rfl | hx
    · exact .inl (Finset.mem_insert_self _ _)
    · exact (h.registered x hx).imp (Finset.mem_insert_of_mem ·) id
  · exact Finset.insert_subset_insert fd h.watched
  · intro x hx y hy hxy
    rcases Finset.mem_insert.mp hx with hx | hx <;> rcases Finset.mem_insert.mp hy with hy | hy
    · exact hx.trans hy.symm
    · have hlt' := hnew y hy
      simp [Kernel.epollAdd, Kernel.connect, Kernel.socket, hx, hne hy] at hxy
      omega
    · have hlt' := hnew x hx
      simp [Kernel.epollAdd, Kernel.connect, Kernel.socket, hy, hne hx] at hxy
      omega
    · apply h.peers x hx y hy
      simpa [Kernel.epollAdd, Kernel.connect, Kernel.socket, hne hx, hne hy] using hxy
  · intro ev hev
    simp [he] at hev
  · exact h.pulses
  · exact h.distinct
  · exact h.once
  · intro p hp
    obtain ⟨hp₁, hp₂, hp₃, hp₄⟩ := h.answered p hp
    refine ⟨hp₁, hp₂, fun x hx => ?_, hp₄⟩
    rcases Finset.mem_insert.mp hx with rfl | hx
    · simpa [Kernel.epollAdd, Kernel.connect] using (hans p hp).ne'
    · simpa [Kernel.epollAdd, Kernel.connect, hne hx, Kernel.socket] using hp₃ x hx

theorem Inv.attempt {k : Kernel} {res : ConnectResult} (htimers : timers ⊆ env.reserved)
    (h : Inv env timers s log) (he : s.events = []) (hport : s.port ≤ env.range.end_port)
    (ha : Knocker.attempt env s.kernel s.port fd res = some (k, evs)) :
    Inv env timers ⟨k, s.port + 1, s.events⟩ (log ++ evs) := by
  obtain ⟨hfresh, hcases⟩ := attempt_eq_some ha
  have hopened : Inv env timers s (log ++ [.opened fd]) := h.print rfl rfl
  have hpass := hopened.pass he hport
  have hans : ∀ p ∈ answers (log ++ [.opened fd] ++ [.attempted s.port]), p < s.port := by
    intro p hp
    have hnone : answers [.opened fd] = [] ∧ answers [.attempted s.port] = [] := ⟨rfl, rfl⟩
    simp only [answers_append, hnone, List.append_nil] at hp
    exact (h.answered p hp).2.1
  have hpeer (x : ℕ) (hx : x ∈ s.kernel.sockets) : s.kernel.peer x < s.port :=
    (h.socket x hx).2.2.2.1
  -- a socket that is opened and closed leaves the kernel as it was
  have hclosed : Inv env timers ⟨((s.kernel.socket fd).connect fd s.port).close fd, s.port + 1,
      s.events⟩ (log ++ [.opened fd] ++ [.attempted s.port]) := by
    have hunknown : fd ∉ s.kernel.registered := fun hr =>
      (h.registered fd hr).elim hfresh.1 fun ht => hfresh.2.1 (htimers ht)
    refine hpass.congr (Finset.erase_insert hfresh.1) (Finset.erase_eq_of_notMem hunknown) ?_ rfl
    intro x hx
    have hxfd : x ≠ fd := fun heq => hfresh.1 (heq ▸ hx)
    simp [Kernel.close, Kernel.connect, Kernel.socket, hxfd]
  rcases hcases with ⟨-, -, rfl, rfl⟩ | ⟨-, rfl, rfl⟩ | ⟨-, -, rfl, rfl⟩
  · have hanswered := hclosed.answer (p := s.port) h.started (Nat.lt_succ_self _)
      (fun hin => (hans _ hin).false)
      (fun x hx => by
        obtain ⟨hxfd, hx⟩ := Finset.mem_erase.mp hx
        have hx' := (Finset.mem_insert.mp hx).resolve_left hxfd
        simpa [Kernel.close, Kernel.connect, Kernel.socket, hxfd] using (hpeer x hx').ne)
      (by simp [he])
    simpa using hanswered.print (rfl : answers [.closed fd] = []) rfl
  · have hpend := hpass.pend he h.started hpeer hans hfresh
    simpa using hpend.print (rfl : answers [.registered fd] = []) rfl
  · simpa using hclosed.print (rfl : answers [.closed fd] = []) rfl

theorem Inv.step {act : Act} (htimers : timers ⊆ env.reserved) (h : Inv env timers s log)
    (hs : step env s act = some (s', evs)) : Inv env timers s' (log ++ evs) := by
  cases act with
  | attempt fd res =>
    obtain ⟨he, hport, k, ha, rfl⟩ := attempt_cases hs
    have hnext := h.attempt htimers he hport ha
    rwa [he] at hnext
  | abandon fd =>
    obtain ⟨-, rfl, rfl⟩ := abandon_cases hs
    exact h.print rfl rfl
  | wait fds =>
    obtain ⟨events, hw, rfl, rfl⟩ := wait_cases hs
    simpa using h.wait htimers hw
  | ready =>
    obtain ⟨ev, rest, he, hp, rfl, rfl⟩ := ready_cases hs
    exact h.ready he hp
  | timer =>
    obtain ⟨ev, rest, he, -, rfl, rfl⟩ := timer_cases hs
    simpa using h.next he
  | expire fd =>
    obtain ⟨rfl, rfl⟩ := expire_cases hs
    exact (h.forget fd).print rfl rfl

theorem inv_of_run {P : State → Act → Prop} (htimers : timers ⊆ env.reserved)
    (hrun : (system env timers).RunWhere P s log) : Inv env timers s log :=
  hrun.invariant (I := Inv env timers) Inv.init fun _ _ _ _ _ _ h _ hs => h.step htimers hs

end Steps
end Scanner
end Knocker
