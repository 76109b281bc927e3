import LowLevelCpp.Knocker.FlatList
import LowLevelCpp.Knocker.Kernel
import LowLevelCpp.Knocker.Sweep

/-!
The indices that `knocker-intrusive.cc` uses into its table. The links and the ends of the list are
`-1` or descriptors that have passed the guard of the fill loop, which lets one too many pass.
-/
namespace Knocker.Flat.Guard
open Foundations Foundations.Outcome Foundations.System

/-- `get_max_fd_limit`, given the soft limit that `getrlimit` reports; `static_cast<int>` takes its
low 32 bits. -/
def getMaxFdLimit : Option (BitVec 64) → ℤ
  | none => 4096
  | some rlim_cur => (rlim_cur.setWidth 32).toInt

/-- The table part of the fill loop, for a socket whose connection is pending. -/
def register (sock port now : ℤ) (s : Store) : Outcome Store ℤ :=
  (access sock (fun c => { c with active := true }) s).andThen fun s =>
    (access sock (fun c => { c with port }) s).andThen fun s =>
      (access sock (fun c => { c with start_time := now }) s).andThen (listInsertTail sock)

/-- The table part of both places that retire a connection. -/
def retire (fd : ℤ) (s : Store) : Outcome Store ℤ :=
  (listUnlink fd s).andThen (access fd fun c => { c with active := false })

/-- The condition of the sweep and, if it is true, its body. -/
def sweepOnce (now : ℤ) (s : Store) : Outcome Store ℤ :=
  let expired_fd := s.in_flight.head
  if expired_fd = -1 then done s
  else
    (touch expired_fd s).andThen fun s =>
      if Expired now (s.get expired_fd).start_time then retire expired_fd s else done s

/-- `registered` are the descriptors that have entered the table so far, and `ended` says that the
program has left its loop or an access had no defined result. -/
structure State where
  store : Store
  registered : List ℤ
  ended : Bool

inductive Event where
  | registered (sock : ℤ)
  | index (i : ℤ)
  deriving DecidableEq

/-- What the main loop does to the table, in any order: it fills, handles a ready socket, which may
be retired already, or sweeps. -/
inductive Act where
  | fill (sock : ℤ) (res : ConnectResult) (port now : ℤ)
  | ready (fd : ℤ)
  | sweep (now : ℤ)

def State.call (registered : List ℤ) (evs : List Event) (r : Outcome Store ℤ) :
    State × List Event :=
  (⟨r.state, registered, r.threw⟩, evs ++ r.events.map .index)

def step (max_fd : ℤ) (s : State) (act : Act) : Option (State × List Event) :=
  if s.ended then none
  else
    match act with
    | .fill sock res port now =>
      if sock < 0 ∨ sock > max_fd then some ({ s with ended := true }, [])
      else if res = .inProgress then
        some (State.call (sock :: s.registered) [.registered sock]
          (register sock port now s.store))
      else some (s, [])
    | .ready fd =>
      if fd ∈ s.registered then some (State.call s.registered [] (retire fd s.store)) else none
    | .sweep now => some (State.call s.registered [] (sweepOnce now s.store))

/-- `std::vector<Connection> table(max_fd)` throws for a negative size. -/
def system (rlimit : Option (BitVec 64)) : System State Act Event where
  init :=
    ⟨⟨(getMaxFdLimit rlimit).toNat, fun _ => {}, {}⟩, [], decide (getMaxFdLimit rlimit < 0)⟩
  step := step (getMaxFdLimit rlimit)

/-- No neighbour, or one of these descriptors. -/
def Link (fds : List ℤ) (link : ℤ) : Prop := link = -1 ∨ link ∈ fds

/-- All links, those of unlinked entries too. -/
structure Links (fds : List ℤ) (s : Store) : Prop where
  head : Link fds s.in_flight.head
  tail : Link fds s.in_flight.tail
  next : ∀ i, Link fds (s.get i).next
  prev : ∀ i, Link fds (s.get i).prev

section Programs
variable {fds fds' : List ℤ} {s : Store} {i link : ℤ} {f : Connection → Connection}

theorem Link.mem (h : Link fds link) (hne : link ≠ -1) : link ∈ fds := h.resolve_left hne

theorem Link.mono (h : Link fds link) (hsub : fds ⊆ fds') : Link fds' link :=
  h.imp_right fun hmem => hsub hmem

theorem Links.mono (h : Links fds s) (hsub : fds ⊆ fds') : Links fds' s :=
  ⟨h.head.mono hsub, h.tail.mono hsub, fun i => (h.next i).mono hsub,
    fun i => (h.prev i).mono hsub⟩

theorem stays_touch (h : Links fds s) (hi : i ∈ fds) :
    Stays (Links fds) (· ∈ fds) (touch i s) := ⟨h, by simpa [touch] using hi⟩

/-- A write to an entry puts links of the same kind there. -/
theorem stays_access (h : Links fds s) (hi : i ∈ fds)
    (hnext : ∀ c, Link fds c.next → Link fds (f c).next)
    (hprev : ∀ c, Link fds c.prev → Link fds (f c).prev) :
    Stays (Links fds) (· ∈ fds) (access i f s) := by
  unfold access
  split
  · refine ⟨⟨h.head, h.tail, fun j => ?_, fun j => ?_⟩, by simpa using hi⟩
    · by_cases hj : j = i
      · subst hj
        simpa using hnext _ (h.next j)
      · simpa [hj] using h.next j
    · by_cases hj : j = i
      · subst hj
        simpa using hprev _ (h.prev j)
      · simpa [hj] using h.prev j
  · exact ⟨h, by simpa using hi⟩

theorem stays_listInsertTail (h : Links fds s) (hi : i ∈ fds) :
    Stays (Links fds) (· ∈ fds) (listInsertTail i s) := by
  refine Stays.andThen (stays_access h hi (fun _ => id) fun _ _ => h.tail) fun s₁ h₁ => ?_
  refine Stays.andThen (stays_access h₁ hi (fun _ _ => .inl rfl) fun _ => id) fun s₂ h₂ => ?_
  split
  · exact stays_done ⟨.inr hi, .inr hi, h₂.next, h₂.prev⟩
  · rename_i htail
    refine Stays.andThen (stays_access h₂ (h₂.tail.mem htail) (fun _ _ => .inr hi) fun _ => id)
      fun s₃ h₃ => ?_
    exact stays_done ⟨h₃.head, .inr hi, h₃.next, h₃.prev⟩

theorem stays_unlinkBetween {p n : ℤ} (h : Links fds s) (hp : Link fds p) (hn : Link fds n) :
    Stays (Links fds) (· ∈ fds) (unlinkBetween p n s) := by
  unfold unlinkBetween
  split
  · exact stays_done ⟨.inl rfl, .inl rfl, h.next, h.prev⟩
  · rename_i hboth
    split
    · rename_i hnull
      have hne : n ≠ -1 := fun he => hboth ⟨hnull, he⟩
      exact stays_access ⟨hn, h.tail, h.next, h.prev⟩ (hn.mem hne) (fun _ => id)
        fun _ _ => .inl rfl
    · rename_i hpne
      split
      · exact stays_access ⟨h.head, hp, h.next, h.prev⟩ (hp.mem hpne) (fun _ _ => .inl rfl)
          fun _ => id
      · rename_i hnne
        exact Stays.andThen (stays_access h (hp.mem hpne) (fun _ _ => hn) fun _ => id)
          fun _ h₁ => stays_access h₁ (hn.mem hnne) (fun _ => id) fun _ _ => hp

theorem stays_listUnlink (h : Links fds s) (hi : i ∈ fds) :
    Stays (Links fds) (· ∈ fds) (listUnlink i s) :=
  (stays_touch h hi).andThen fun _ h₁ => (stays_touch h₁ hi).andThen fun _ h₂ =>
    stays_unlinkBetween h₂ (h₁.prev i) (h₂.next i)

theorem stays_register (port now : ℤ) (h : Links fds s) (hi : i ∈ fds) :
    Stays (Links fds) (· ∈ fds) (register i port now s) :=
  Stays.andThen (stays_access h hi (fun _ => id) fun _ => id) fun _ h₁ =>
    Stays.andThen (stays_access h₁ hi (fun _ => id) fun _ => id) fun _ h₂ =>
      Stays.andThen (stays_access h₂ hi (fun _ => id) fun _ => id) fun _ h₃ =>
        stays_listInsertTail h₃ hi

theorem stays_retire (h : Links fds s) (hi : i ∈ fds) :
    Stays (Links fds) (· ∈ fds) (retire i s) :=
  (stays_listUnlink h hi).andThen fun _ h₁ => stays_access h₁ hi (fun _ => id) fun _ => id

theorem stays_sweepOnce {now : ℤ} (h : Links fds s) :
    Stays (Links fds) (· ∈ fds) (sweepOnce now s) := by
  unfold sweepOnce
  simp only
  split
  · exact stays_done h
  · rename_i hhead
    have hmem := h.head.mem hhead
    refine (stays_touch h hmem).andThen fun s₁ h₁ => ?_
    split
    · exact stays_retire h₁ hmem
    · exact stays_done h₁

/-- The first thing a registration does is to use the descriptor as an index. -/
theorem index_register (sock port now : ℤ) (s : Store) :
    sock ∈ (register sock port now s).events := by
  apply mem_events_andThen
  unfold access
  split <;> simp

end Programs

/-- The invariant: the indices used so far are the descriptors that have entered the table, and so
are the links; these descriptors have passed the guard. -/
structure Indexed (max_fd : ℤ) (s : State) (log : List Event) : Prop where
  links : Links s.registered s.store
  index : ∀ i, .index i ∈ log ↔ i ∈ s.registered
  registered : ∀ i, .registered i ∈ log ↔ i ∈ s.registered
  guarded : ∀ i ∈ s.registered, 0 ≤ i ∧ i ≤ max_fd

section Runs
variable {rlimit : Option (BitVec 64)} {max_fd : ℤ} {s s' : State} {act : Act}
  {log evs : List Event}

/-- A call that enters no descriptor. -/
theorem Indexed.call {r : Outcome Store ℤ} (h : Indexed max_fd s log)
    (hr : Stays (Links s.registered) (· ∈ s.registered) r)
    (heq : State.call s.registered [] r = (s', evs)) : Indexed max_fd s' (log ++ evs) := by
  cases heq
  refine ⟨hr.1, fun i => ?_, fun i => ?_, h.guarded⟩
  · have hi := hr.2 i
    simp only [List.nil_append, List.mem_append, List.mem_map, Event.index.injEq, exists_eq_right,
      h.index i]
    exact or_iff_left_of_imp hi
  · simpa using h.registered i

theorem Indexed.step (h : Indexed max_fd s log) (hs : Guard.step max_fd s act = some (s', evs)) :
    Indexed max_fd s' (log ++ evs) := by
  unfold Guard.step at hs
  split at hs
  · cases hs
  cases act with
  | fill sock res port now =>
    simp only at hs
    split at hs
    · cases hs
      rw [List.append_nil]
      exact ⟨h.links, h.index, h.registered, h.guarded⟩
    · rename_i hguard
      split at hs
      · have hstays := stays_register port now
          (h.links.mono (List.subset_cons_self sock s.registered)) (List.mem_cons_self ..)
        cases hs
        refine ⟨hstays.1, fun i => ?_, fun i => ?_, fun i hi => ?_⟩
        · have hi := hstays.2 i
          have hsock := index_register sock port now s.store
          have hold := h.index i
          simp only [List.mem_append, List.mem_map, Event.index.injEq, exists_eq_right,
            List.mem_cons, hold, reduceCtorEq, List.not_mem_nil, or_false, false_or] at hi ⊢
          grind
        · have hold := h.registered i
          simp [hold, or_comm]
        · rcases List.mem_cons.mp hi with rfl | hi
          · omega
          · exact h.guarded i hi
      · cases hs
        simpa using h
  | ready fd =>
    simp only at hs
    split at hs
    · exact h.call (stays_retire h.links ‹_›) (Option.some.inj hs)
    · cases hs
  | sweep now => exact h.call (stays_sweepOnce h.links) (Option.some.inj hs)

theorem indexed_of_run (hrun : (system rlimit).Run s log) :
    Indexed (getMaxFdLimit rlimit) s log :=
  hrun.invariant (I := fun s log => Indexed (getMaxFdLimit rlimit) s log)
    ⟨⟨.inl rfl, .inl rfl, fun _ => .inl rfl, fun _ => .inl rfl⟩, by simp [system],
      by simp [system], by simp [system]⟩
    fun _ _ _ _ _ _ h _ hs => h.step hs

/-- Every index lies inside the table exactly as long as no pending connection has the descriptor
`max_fd`, which the guard lets pass. -/
theorem table_indices_iff (hrun : (system rlimit).Run s log) :
    (∀ i, .index i ∈ log → 0 ≤ i ∧ i < getMaxFdLimit rlimit) ↔
      .registered (getMaxFdLimit rlimit) ∉ log := by
  have h := indexed_of_run hrun
  constructor
  · intro hindices hmax
    have hin := hindices _ ((h.index _).mpr ((h.registered _).mp hmax))
    omega
  · intro hmax i hi
    have hmem := (h.index i).mp hi
    have hguarded := h.guarded i hmem
    have hne : i ≠ getMaxFdLimit rlimit := by
      rintro rfl
      exact hmax ((h.registered _).mpr hmem)
    omega

end Runs

/-- Two connections, of which one answers and the other times out. -/
def answerAndTimeout : List Act :=
  [.fill 3 .inProgress 80 0, .fill 4 .inProgress 81 1, .ready 3, .sweep 3000000000,
    .sweep 3000000000]

theorem table_indices_iff_answerAndTimeout :
    ∃ s log, (system (some 5)).Run s log ∧ .index 4 ∈ log ∧
      ∀ i, .index i ∈ log → 0 ≤ i ∧ i < 5 := by
  obtain ⟨s, log, hrun, hq⟩ := (system (some 5)).exists_run_of_exec (fun _ _ => True)
    answerAndTimeout (fun _ log => decide (.index 4 ∈ log ∧ .registered 5 ∉ log))
    (by decide +kernel)
  obtain ⟨hindex, hmax⟩ := of_decide_eq_true hq
  exact ⟨s, log, hrun, hindex, (table_indices_iff hrun).mpr hmax⟩

/-- The table of five entries has none for the descriptor five. -/
theorem table_index_past_end :
    ∃ s log, (system (some 5)).Run s log ∧ .index 5 ∈ log ∧
      ¬ ∀ i, .index i ∈ log → 0 ≤ i ∧ i < getMaxFdLimit (some 5) := by
  obtain ⟨s, log, hrun, hq⟩ := (system (some 5)).exists_run_of_exec (fun _ _ => True)
    [.fill 5 .inProgress 80 0] (fun _ log => decide (.index 5 ∈ log)) (by decide +kernel)
  have hindex : .index 5 ∈ log := of_decide_eq_true hq
  exact ⟨s, log, hrun, hindex, fun hall => absurd (hall 5 hindex).2 (by decide)⟩

end Knocker.Flat.Guard
