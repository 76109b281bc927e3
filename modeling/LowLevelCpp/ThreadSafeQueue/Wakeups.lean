import LowLevelCpp.ThreadSafeQueue.Fifo

/-! No wakeup is lost while no copy throws in a call whose notification is needed: the items
are covered by the notified callers of `pop` and the free slots by those of `push`, as long as
some caller still waits. -/
namespace ThreadSafeQueue
open Foundations Foundations.System

variable {θ T : Type} [DecidableEq θ]

def NoThrow (_ : State θ T) (act : Act θ T) : Prop := act.throws = false

instance (s : State θ T) (act : Act θ T) : Decidable (NoThrow s act) :=
  inferInstanceAs (Decidable (_ = _))

/-- A copy throws in a notified call only if its notification can be spared. -/
def Heeded (cap : Capacity) (s : State θ T) : Act θ T → Prop
  | .resume t c => c.throws = true →
    s.not_empty.Spare t s.queue.length ∧ s.not_full.Spare t (cap.max_size - s.queue.length)
  | _ => True

instance (cap : Capacity) (s : State θ T) (act : Act θ T) : Decidable (Heeded cap s act) := by
  cases act <;> unfold Heeded <;> infer_instance

omit [DecidableEq θ] in
theorem NoThrow.heeded (cap : Capacity) {s : State θ T} {act : Act θ T} (h : NoThrow s act) :
    Heeded cap s act := by
  cases act with
  | resume t c =>
    intro hthrows
    exact absurd h (by simp [NoThrow, Act.throws, hthrows])
  | _ => trivial

/-- The threads blocked on a condition variable are those whose call waits on it. -/
structure Placed (s : State θ T) : Prop where
  full : ∀ t, t ∈ s.not_full.members ↔ ∃ value, s.blocked t = some (.push value)
  empty : ∀ t, t ∈ s.not_empty.members ↔ s.blocked t = some .pop

/-- What keeps waiting callers from being forgotten. -/
structure Awake (cap : Capacity) (s : State θ T) : Prop where
  items : s.not_empty.Covers s.queue.length
  slots : s.not_full.Covers (cap.max_size - s.queue.length)
  quiet : s.done = true → s.not_empty.waiting = ∅ ∧ s.not_full.waiting = ∅

section Steps
variable {cap : Capacity} {s s₀ s' : State θ T} {evs : List (Event θ T)} {t : θ} {value : T}
  {act : Act θ T}

theorem Placed.enterPush (h : Placed s) (he : EntersPush s t value s₀) :
    Placed s₀ ∧ s₀.blocked t = none := by
  cases he with
  | call hcall => exact ⟨h, hcall⟩
  | resume hblocked hwoken =>
    refine ⟨⟨fun x => ?_, fun x => ?_⟩, by simp [State.leaveFull]⟩
    · by_cases hx : x = t <;>
        simp [State.leaveFull, CondVar.leave_members hwoken, hx, h.full]
    · by_cases hx : x = t
      · simp [State.leaveFull, hx, h.empty, hblocked]
      · simp [State.leaveFull, hx, h.empty]

theorem Placed.enterPop (h : Placed s) (he : EntersPop s t s₀) :
    Placed s₀ ∧ s₀.blocked t = none := by
  cases he with
  | call hcall => exact ⟨h, hcall⟩
  | resume hblocked hwoken =>
    refine ⟨⟨fun x => ?_, fun x => ?_⟩, by simp [State.leaveEmpty]⟩
    · by_cases hx : x = t
      · simp [State.leaveEmpty, hx, h.full, hblocked]
      · simp [State.leaveEmpty, hx, h.full]
    · by_cases hx : x = t <;>
        simp [State.leaveEmpty, CondVar.leave_members hwoken, hx, h.empty]

/-- Notifications and wakeups move threads within a condition variable only. -/
theorem Placed.congr (h : Placed s) (hfull : s'.not_full.members = s.not_full.members)
    (hempty : s'.not_empty.members = s.not_empty.members) (hblocked : s'.blocked = s.blocked) :
    Placed s' := by
  constructor
  · intro x
    rw [hfull, hblocked]
    exact h.full x
  · intro x
    rw [hempty, hblocked]
    exact h.empty x

theorem Placed.step (h : Placed s) (hs : step cap s act = some (s', evs)) : Placed s' := by
  cases step_moves hs with
  | accept he _ _ hn => exact (h.enterPush he).1.congr rfl (CondVar.notifyOne_members hn) rfl
  | reject he _ => exact (h.enterPush he).1
  | @waitPush t value s₀ he _ _ =>
    obtain ⟨h₀, hnone⟩ := h.enterPush he
    constructor <;> intro x <;> by_cases hx : x = t <;> simp [hx, h₀.full, h₀.empty, hnone]
  | take he _ hn => exact (h.enterPop he).1.congr (CondVar.notifyOne_members hn) rfl rfl
  | nothing he _ _ => exact (h.enterPop he).1
  | @waitPop t s₀ he _ _ =>
    obtain ⟨h₀, hnone⟩ := h.enterPop he
    constructor <;> intro x <;> by_cases hx : x = t <;> simp [hx, h₀.full, h₀.empty, hnone]
  | threwPush _ he => exact (h.enterPush he).1
  | threwPop _ he => exact (h.enterPop he).1
  | wakeFull hw => exact h.congr (CondVar.wake_members hw) rfl rfl
  | wakeEmpty hw => exact h.congr rfl (CondVar.wake_members hw) rfl
  | shutdown _ => exact h.congr CondVar.notifyAll_members CondVar.notifyAll_members rfl
  | observe => exact h

section Threw
variable {c : Choice θ} {x : θ}

theorem accept_threw (hs : s.accept t value c = some (s', evs)) (hx : .threw x ∈ evs) :
    x = t ∧ c.throws = true ∧ s' = s := by
  unfold State.accept at hs
  split at hs
  · obtain ⟨rfl, rfl⟩ := Prod.mk.inj (Option.some.inj hs)
    exact ⟨by simpa using hx, ‹_›, rfl⟩
  · obtain ⟨not_empty, -, hr⟩ := Option.map_eq_some_iff.mp hs
    obtain ⟨-, rfl⟩ := Prod.mk.inj hr
    simp at hx

theorem take_threw {tried : Bool} (hs : s.take t c tried = some (s', evs))
    (hx : .threw x ∈ evs) : x = t ∧ c.throws = true ∧ s' = s := by
  unfold State.take at hs
  split at hs
  · obtain ⟨-, rfl⟩ := Prod.mk.inj (Option.some.inj hs)
    simp at hx
  · split at hs
    · obtain ⟨rfl, rfl⟩ := Prod.mk.inj (Option.some.inj hs)
      exact ⟨by simpa using hx, ‹_›, rfl⟩
    · obtain ⟨not_full, -, hr⟩ := Option.map_eq_some_iff.mp hs
      obtain ⟨-, rfl⟩ := Prod.mk.inj hr
      simp at hx

theorem push_threw (hs : s.push cap t value c = some (s', evs)) (hx : .threw x ∈ evs) :
    x = t ∧ c.throws = true ∧ s' = s := by
  unfold State.push at hs
  split at hs
  · split at hs
    · obtain ⟨-, rfl⟩ := Prod.mk.inj (Option.some.inj hs)
      simp at hx
    · exact accept_threw hs hx
  · obtain ⟨-, rfl⟩ := Prod.mk.inj (Option.some.inj hs)
    simp at hx

theorem pop_threw (hs : s.pop t c = some (s', evs)) (hx : .threw x ∈ evs) :
    x = t ∧ c.throws = true ∧ s' = s := by
  unfold State.pop at hs
  split at hs
  · exact take_threw hs hx
  · obtain ⟨-, rfl⟩ := Prod.mk.inj (Option.some.inj hs)
    simp at hx

/-- A call that throws has changed nothing, except that a blocked one no longer waits. -/
theorem step_threw (hs : step cap s act = some (s', evs)) (hx : .threw x ∈ evs) :
    s' = s ∨ ∃ c, act = .resume x c ∧ c.throws = true ∧
      (s' = s.leaveFull x ∨ s' = s.leaveEmpty x) := by
  cases act with
  | push t value c =>
    simp only [step] at hs
    split at hs
    · exact .inl (push_threw hs hx).2.2
    · cases hs
  | try_push t value c =>
    simp only [step, State.try_push] at hs
    split at hs
    · split at hs
      · obtain ⟨-, rfl⟩ := Prod.mk.inj (Option.some.inj hs)
        simp at hx
      · exact .inl (accept_threw hs hx).2.2
    · cases hs
  | pop t c =>
    simp only [step] at hs
    split at hs
    · exact .inl (pop_threw hs hx).2.2
    · cases hs
  | try_pop t c =>
    simp only [step] at hs
    split at hs
    · exact .inl (take_threw hs hx).2.2
    · cases hs
  | resume t c =>
    simp only [step] at hs
    split at hs
    · cases hs
    · split at hs
      · obtain ⟨rfl, hthrows, rfl⟩ := push_threw hs hx
        exact .inr ⟨c, rfl, hthrows, .inl rfl⟩
      · cases hs
    · split at hs
      · obtain ⟨rfl, hthrows, rfl⟩ := pop_threw hs hx
        exact .inr ⟨c, rfl, hthrows, .inr rfl⟩
      · cases hs
  | spurious t =>
    simp only [step] at hs
    split at hs
    · obtain ⟨-, rfl⟩ := Prod.mk.inj (Option.some.inj hs)
      simp at hx
    · split at hs
      · obtain ⟨-, rfl⟩ := Prod.mk.inj (Option.some.inj hs)
        simp at hx
      · cases hs
  | shutdown t | observe t =>
    simp only [step] at hs
    split at hs
    · obtain ⟨-, rfl⟩ := Prod.mk.inj (Option.some.inj hs)
      simp [State.observe] at hx
    · cases hs

end Threw

/-- A caller of `push` that starts to run may leave one slot uncovered: the one it takes. -/
theorem Awake.enterPush (h : Awake cap s) (he : EntersPush s t value s₀) :
    s₀.not_empty = s.not_empty ∧ s₀.not_full.waiting = s.not_full.waiting ∧
      s₀.not_full.Covers (cap.max_size - s.queue.length - 1) := by
  cases he with
  | call _ => exact ⟨rfl, rfl, h.slots.mono (Nat.sub_le _ _)⟩
  | resume _ _ => exact ⟨rfl, rfl, h.slots.leave⟩

/-- A caller of `pop` that starts to run may leave one item uncovered: the one it takes. -/
theorem Awake.enterPop (h : Awake cap s) (he : EntersPop s t s₀) :
    s₀.not_full = s.not_full ∧ s₀.not_empty.waiting = s.not_empty.waiting ∧
      s₀.not_empty.Covers (s.queue.length - 1) := by
  cases he with
  | call _ => exact ⟨rfl, rfl, h.items.mono (Nat.sub_le _ _)⟩
  | resume _ _ => exact ⟨rfl, rfl, h.items.leave⟩

theorem Awake.accept {choice : Option θ} {not_empty : CondVar θ} (h : Awake cap s)
    (he : EntersPush s t value s₀) (hdone : s₀.done = false)
    (hn : s₀.not_empty.notifyOne choice = some not_empty) :
    Awake cap { s₀ with queue := s₀.queue ++ [value], not_empty } := by
  obtain ⟨hempty, -, hcovers⟩ := h.enterPush he
  rw [hempty] at hn
  refine ⟨?_, ?_, fun hd => by simp [hdone] at hd⟩
  · simpa [he.queue_eq] using h.items.notifyOne hn
  · simpa [he.queue_eq, Nat.sub_sub] using hcovers

theorem Awake.take {choice : Option θ} {not_full : CondVar θ} {rest : List T}
    (h : Awake cap s) (he : EntersPop s t s₀) (hcons : s₀.queue = value :: rest)
    (hn : s₀.not_full.notifyOne choice = some not_full) :
    Awake cap { s₀ with queue := rest, not_full } := by
  obtain ⟨hfull, hwaiting, hcovers⟩ := h.enterPop he
  rw [hfull] at hn
  rw [he.queue_eq] at hcons
  have hlength : s.queue.length = rest.length + 1 := by rw [hcons, List.length_cons]
  constructor
  · simpa [hlength] using hcovers
  · apply (h.slots.notifyOne hn).mono
    simp only
    omega
  · intro hd
    obtain ⟨hnone, hnone'⟩ := h.quiet (he.done_eq ▸ hd)
    exact ⟨hwaiting.trans hnone, CondVar.notifyOne_waiting_empty hnone' hn⟩

theorem Awake.reject (h : Awake cap s) (he : EntersPush s t value s₀)
    (hwhy : s₀.done = true ∨ s.blocked t = none ∧ cap.max_size ≤ s₀.queue.length) :
    Awake cap s₀ := by
  obtain ⟨hempty, hwaiting, -⟩ := h.enterPush he
  rcases hwhy with hdone | ⟨hnone, -⟩
  · obtain ⟨hquiet, hquiet'⟩ := h.quiet (he.done_eq ▸ hdone)
    refine ⟨?_, CondVar.covers_of_waiting_empty (hwaiting.trans hquiet'),
      fun _ => ⟨hempty ▸ hquiet, hwaiting.trans hquiet'⟩⟩
    rw [hempty, he.queue_eq]
    exact h.items
  · cases he with
    | call _ => exact h
    | resume hblocked _ => simp [hnone] at hblocked

/-- A call that throws gives up its notification, if it had one. -/
theorem Awake.threw {x : θ} (h : Awake cap s) (hheeded : Heeded cap s act)
    (hs : step cap s act = some (s', evs)) (hx : .threw x ∈ evs) : Awake cap s' := by
  rcases step_threw hs hx with rfl | ⟨c, rfl, hthrows, rfl | rfl⟩
  · exact h
  · exact ⟨h.items, h.slots.leave_spare (hheeded hthrows).2, h.quiet⟩
  · exact ⟨h.items.leave_spare (hheeded hthrows).1, h.slots, h.quiet⟩

theorem Awake.step (h : Awake cap s) (hheeded : Heeded cap s act)
    (hs : step cap s act = some (s', evs)) : Awake cap s' := by
  cases step_moves hs with
  | accept he hdone _ hn => exact h.accept he hdone hn
  | reject he hwhy => exact h.reject he hwhy
  | @waitPush t value s₀ he hdone hfull =>
    obtain ⟨hempty, -, -⟩ := h.enterPush he
    refine ⟨?_, ?_, fun hd => by simp [hdone] at hd⟩
    · simpa [hempty, he.queue_eq] using h.items
    · rw [Nat.sub_eq_zero_of_le hfull]
      exact CondVar.covers_zero
  | take he hcons hn => exact h.take he hcons hn
  | nothing he hnil _ =>
    obtain ⟨hfull, hwaiting, -⟩ := h.enterPop he
    refine ⟨?_, ?_, fun hd => ?_⟩
    · rw [hnil]
      exact CondVar.covers_zero
    · rw [hfull, he.queue_eq]
      exact h.slots
    · rw [hfull, hwaiting]
      exact h.quiet (he.done_eq ▸ hd)
  | @waitPop t s₀ he hdone hnil =>
    obtain ⟨hfull, -, -⟩ := h.enterPop he
    refine ⟨?_, ?_, fun hd => by simp [hdone] at hd⟩
    · simp only [hnil]
      exact CondVar.covers_zero
    · simpa [hfull, he.queue_eq] using h.slots
  | threwPush _ _ => exact h.threw hheeded hs (List.mem_singleton_self _)
  | threwPop _ _ => exact h.threw hheeded hs (List.mem_singleton_self _)
  | @wakeFull t hw =>
    refine ⟨h.items, h.slots.wake, fun hd => ?_⟩
    obtain ⟨hnone, hnone'⟩ := h.quiet hd
    exact ⟨hnone, by simp [CondVar.wake, hnone']⟩
  | @wakeEmpty t hw =>
    refine ⟨h.items.wake, h.slots, fun hd => ?_⟩
    obtain ⟨hnone, hnone'⟩ := h.quiet hd
    exact ⟨by simp [CondVar.wake, hnone], hnone'⟩
  | shutdown _ =>
    exact ⟨CondVar.covers_of_waiting_empty rfl, CondVar.covers_of_waiting_empty rfl,
      fun _ => ⟨rfl, rfl⟩⟩
  | observe => exact h

end Steps

section Runs
variable {cap : Capacity} {s : State θ T} {log : List (Event θ T)} {P : State θ T → Act θ T → Prop}

theorem placed_of_run (hrun : (system cap θ T).RunWhere P s log) : Placed s :=
  hrun.invariant (I := fun s _ => Placed s)
    ⟨by simp [system, CondVar.empty, CondVar.members, CondVar.woken],
      by simp [system, CondVar.empty, CondVar.members, CondVar.woken]⟩
    fun _ _ _ _ _ _ h _ hs => h.step hs

/-- The flag is set exactly when `shutdown` has run. -/
theorem done_iff_of_run (hrun : (system cap θ T).RunWhere P s log) :
    s.done = true ↔ ∃ t, .shutdown t ∈ log := by
  refine hrun.invariant (I := fun s log => s.done = true ↔ ∃ t, .shutdown t ∈ log)
    (by simp [system]) fun s log act s' evs _ ih _ hs => ?_
  rcases step_done hs with ⟨hdone, hnone⟩ | ⟨rfl, t, rfl⟩
  · simp [hdone, ih, hnone]
  · simp [State.shutdown]

theorem awake_of_run (hrun : (system cap θ T).RunWhere (Heeded cap) s log) : Awake cap s :=
  hrun.invariant (I := fun s _ => Awake cap s)
    ⟨CondVar.covers_of_waiting_empty rfl, CondVar.covers_of_waiting_empty rfl,
      fun _ => ⟨rfl, rfl⟩⟩
    fun _ _ _ _ _ _ h hheeded hs => h.step hheeded hs

/-- No wakeup is lost. While a caller of `pop` waits there are at most as many items as
notified callers of `pop` on their way to the mutex, while a caller of `push` waits at most as
many free slots as notified callers of `push`, and once `shutdown` has run nobody waits. -/
theorem no_lost_wakeups (hrun : (system cap θ T).RunWhere NoThrow s log) :
    (s.not_empty.waiting.Nonempty → s.queue.length ≤ s.not_empty.notified.card) ∧
      (s.not_full.waiting.Nonempty →
        cap.max_size - s.queue.length ≤ s.not_full.notified.card) ∧
      ((∃ t, .shutdown t ∈ log) → s.not_empty.waiting = ∅ ∧ s.not_full.waiting = ∅) ∧
      (∀ t, t ∈ s.not_empty.members ↔ s.blocked t = some .pop) ∧
      ∀ t, t ∈ s.not_full.members ↔ ∃ value, s.blocked t = some (.push value) := by
  obtain ⟨hitems, hslots, hquiet⟩ := awake_of_run (hrun.mono fun _ _ h => h.heeded cap)
  have hplaced := placed_of_run hrun
  exact ⟨hitems, hslots, fun hshut => hquiet ((done_iff_of_run hrun).mpr hshut),
    hplaced.empty, hplaced.full⟩

end Runs

/-- Three consumers wait; one is notified, one wakes for no reason and waits again. -/
def sleepers : List (Act ℕ ℕ) :=
  [.pop 1 {}, .pop 2 {}, .pop 3 {}, .push 0 10 { woken := some 2 }, .spurious 1, .try_pop 4 {},
    .resume 1 {}, .push 0 11 { woken := some 1 }]

theorem no_lost_wakeups_sleepers :
    ∃ s log, (system ⟨2, Nat.two_pos⟩ ℕ ℕ).RunWhere NoThrow s log ∧
      s.not_empty.waiting = {3} ∧ s.queue = [11] ∧
      s.queue.length ≤ s.not_empty.notified.card := by
  obtain ⟨s, log, hrun, hq⟩ := (system ⟨2, Nat.two_pos⟩ ℕ ℕ).exists_run_of_exec NoThrow sleepers
    (fun s _ => decide (s.not_empty.waiting = {3} ∧ s.queue = [11])) (by decide +kernel)
  obtain ⟨hwaiting, hqueue⟩ := of_decide_eq_true hq
  obtain ⟨hitems, -⟩ := no_lost_wakeups hrun
  exact ⟨s, log, hrun, hwaiting, hqueue, hitems (by simp [hwaiting])⟩

end ThreadSafeQueue
