import LowLevelCpp.Foundations.CondVar
import LowLevelCpp.Foundations.System
import Mathlib.Data.Int.Notation
import Mathlib.Logic.Function.Basic

/-!
`Thread_Safe_Queue/thread_safe_queue.cpp`. A step is a critical section: from the entry of a
call, or from the re-acquisition of the mutex by a blocked call, to the next release of the
mutex. Labels choose which thread runs, which waiter a notification wakes and whether the copy
of an element throws.
-/
namespace ThreadSafeQueue
open Foundations

structure Capacity where
  max_size : ℕ
  pos : 0 < max_size

/-- The constructor. -/
def construct (max_size : ℤ) : Except String Capacity :=
  if h : max_size ≤ 0 then .error "max_size must be greater than 0"
  else .ok ⟨max_size.toNat, by omega⟩

/-- The calls that can block. -/
inductive Call (T : Type) where
  | push (value : T)
  | pop

/-- The fields of the queue, and the blocked call of each thread. -/
structure State (θ T : Type) where
  queue : List T
  done : Bool
  not_full : CondVar θ
  not_empty : CondVar θ
  blocked : θ → Option (Call T)

/-- How calls end: `accepted` and `rejected` for `true` and `false`, `returned` and `nothing`
for a value and `nullopt` (from `pop` or from `try_pop`), `threw` for an exception. -/
inductive Event (θ T : Type) where
  | accepted (t : θ) (value : T)
  | rejected (t : θ) (value : T)
  | returned (t : θ) (value : T)
  | nothing (t : θ) (tried : Bool)
  | threw (t : θ)
  | shutdown (t : θ)
  | observed (t : θ) (size : ℕ) (empty is_shutdown : Bool) (capacity : ℕ)
  deriving DecidableEq

/-- The waiter that `notify_one` wakes, and whether the copy of the element throws. -/
structure Choice (θ : Type) where
  woken : Option θ := none
  throws : Bool := false

inductive Act (θ T : Type) where
  | push (t : θ) (value : T) (c : Choice θ)
  | try_push (t : θ) (value : T) (c : Choice θ)
  | pop (t : θ) (c : Choice θ)
  | try_pop (t : θ) (c : Choice θ)
  | resume (t : θ) (c : Choice θ)
  | spurious (t : θ)
  | shutdown (t : θ)
  | observe (t : θ)

/-- Whether the copy of the element throws in this critical section, if it copies one. -/
def Act.throws {θ T : Type} : Act θ T → Bool
  | .push _ _ c | .try_push _ _ c | .pop _ c | .try_pop _ c | .resume _ c => c.throws
  | .spurious _ | .shutdown _ | .observe _ => false

namespace State
variable {θ T : Type} [DecidableEq θ]

abbrev Outcome (θ T : Type) := Option (State θ T × List (Event θ T))

def hasSpace (cap : Capacity) (s : State θ T) : Bool := s.queue.length < cap.max_size

def hasItem (s : State θ T) : Bool := !s.queue.isEmpty

/-- `queue_.push_back(value); not_empty_.notify_one(); return true;` -/
def accept (s : State θ T) (t : θ) (value : T) (c : Choice θ) : Outcome θ T :=
  if c.throws then some (s, [.threw t])
  else (s.not_empty.notifyOne c.woken).map fun not_empty =>
    ({ s with queue := s.queue ++ [value], not_empty }, [.accepted t value])

/-- What `pop` does after its wait, and all that `try_pop` does. -/
def take (s : State θ T) (t : θ) (c : Choice θ) (tried : Bool) : Outcome θ T :=
  match s.queue with
  | [] => some (s, [.nothing t tried])
  | value :: rest =>
    if c.throws then some (s, [.threw t])
    else (s.not_full.notifyOne c.woken).map fun not_full =>
      ({ s with queue := rest, not_full }, [.returned t value])

/-- `push` from a test of its predicate. -/
def push (cap : Capacity) (s : State θ T) (t : θ) (value : T) (c : Choice θ) : Outcome θ T :=
  if s.done || s.hasSpace cap then
    if s.done then some (s, [.rejected t value]) else s.accept t value c
  else
    some ({ s with
      not_full := s.not_full.join t
      blocked := Function.update s.blocked t (some (.push value)) }, [])

def try_push (cap : Capacity) (s : State θ T) (t : θ) (value : T) (c : Choice θ) : Outcome θ T :=
  if s.done || !s.hasSpace cap then some (s, [.rejected t value]) else s.accept t value c

/-- `pop` from a test of its predicate. -/
def pop (s : State θ T) (t : θ) (c : Choice θ) : Outcome θ T :=
  if s.done || s.hasItem then s.take t c false
  else
    some ({ s with
      not_empty := s.not_empty.join t
      blocked := Function.update s.blocked t (some .pop) }, [])

def shutdown (s : State θ T) : State θ T :=
  { s with done := true, not_full := s.not_full.notifyAll, not_empty := s.not_empty.notifyAll }

/-- The results of `size`, `empty`, `is_shutdown` and `capacity`. -/
def observe (cap : Capacity) (s : State θ T) (t : θ) : Event θ T :=
  .observed t s.queue.length s.queue.isEmpty s.done cap.max_size

/-- A blocked `push` has re-acquired the mutex. -/
def leaveFull (s : State θ T) (t : θ) : State θ T :=
  { s with not_full := s.not_full.leave t, blocked := Function.update s.blocked t none }

/-- A blocked `pop` has re-acquired the mutex. -/
def leaveEmpty (s : State θ T) (t : θ) : State θ T :=
  { s with not_empty := s.not_empty.leave t, blocked := Function.update s.blocked t none }

end State

variable {θ T : Type} [DecidableEq θ]

def step (cap : Capacity) (s : State θ T) : Act θ T → State.Outcome θ T
  | .push t value c => if (s.blocked t).isNone then s.push cap t value c else none
  | .try_push t value c => if (s.blocked t).isNone then s.try_push cap t value c else none
  | .pop t c => if (s.blocked t).isNone then s.pop t c else none
  | .try_pop t c => if (s.blocked t).isNone then s.take t c true else none
  | .resume t c =>
    match s.blocked t with
    | none => none
    | some (.push value) =>
      if t ∈ s.not_full.woken then (s.leaveFull t).push cap t value c else none
    | some .pop => if t ∈ s.not_empty.woken then (s.leaveEmpty t).pop t c else none
  | .spurious t =>
    if t ∈ s.not_full.waiting then some ({ s with not_full := s.not_full.wake t }, [])
    else if t ∈ s.not_empty.waiting then some ({ s with not_empty := s.not_empty.wake t }, [])
    else none
  | .shutdown t => if (s.blocked t).isNone then some (s.shutdown, [.shutdown t]) else none
  | .observe t => if (s.blocked t).isNone then some (s, [s.observe cap t]) else none

def system (cap : Capacity) (θ T : Type) [DecidableEq θ] :
    System (State θ T) (Act θ T) (Event θ T) where
  init := ⟨[], false, .empty, .empty, fun _ => none⟩
  step := step cap

/-- The state in which a call of `push` tests its predicate. -/
inductive EntersPush (s : State θ T) (t : θ) (value : T) : State θ T → Prop
  | call : s.blocked t = none → EntersPush s t value s
  | resume : s.blocked t = some (.push value) → t ∈ s.not_full.woken →
      EntersPush s t value (s.leaveFull t)

/-- The state in which a call of `pop` tests its predicate. -/
inductive EntersPop (s : State θ T) (t : θ) : State θ T → Prop
  | call : s.blocked t = none → EntersPop s t s
  | resume : s.blocked t = some .pop → t ∈ s.not_empty.woken → EntersPop s t (s.leaveEmpty t)

/-- What a critical section can do; `s₀` is the state in which it starts to run. -/
inductive Moves (cap : Capacity) (s : State θ T) (throws : Bool) :
    State θ T → List (Event θ T) → Prop
  | accept {t : θ} {value : T} {s₀ : State θ T} {choice : Option θ} {not_empty : CondVar θ} :
      EntersPush s t value s₀ → s₀.done = false → s₀.queue.length < cap.max_size →
      s₀.not_empty.notifyOne choice = some not_empty →
      Moves cap s throws { s₀ with queue := s₀.queue ++ [value], not_empty } [.accepted t value]
  | reject {t : θ} {value : T} {s₀ : State θ T} : EntersPush s t value s₀ →
      s₀.done = true ∨ s.blocked t = none ∧ cap.max_size ≤ s₀.queue.length →
      Moves cap s throws s₀ [.rejected t value]
  | waitPush {t : θ} {value : T} {s₀ : State θ T} : EntersPush s t value s₀ → s₀.done = false →
      cap.max_size ≤ s₀.queue.length →
      Moves cap s throws { s₀ with
        not_full := s₀.not_full.join t
        blocked := Function.update s₀.blocked t (some (.push value)) } []
  | take {t : θ} {value : T} {rest : List T} {s₀ : State θ T} {choice : Option θ}
      {not_full : CondVar θ} : EntersPop s t s₀ → s₀.queue = value :: rest →
      s₀.not_full.notifyOne choice = some not_full →
      Moves cap s throws { s₀ with queue := rest, not_full } [.returned t value]
  | nothing {t : θ} {tried : Bool} {s₀ : State θ T} : EntersPop s t s₀ → s₀.queue = [] →
      s₀.done = true ∨ tried = true → Moves cap s throws s₀ [.nothing t tried]
  | waitPop {t : θ} {s₀ : State θ T} : EntersPop s t s₀ → s₀.done = false → s₀.queue = [] →
      Moves cap s throws { s₀ with
        not_empty := s₀.not_empty.join t
        blocked := Function.update s₀.blocked t (some .pop) } []
  | threwPush {t : θ} {value : T} {s₀ : State θ T} : throws = true → EntersPush s t value s₀ →
      Moves cap s throws s₀ [.threw t]
  | threwPop {t : θ} {s₀ : State θ T} : throws = true → EntersPop s t s₀ →
      Moves cap s throws s₀ [.threw t]
  | wakeFull {t : θ} : t ∈ s.not_full.waiting →
      Moves cap s throws { s with not_full := s.not_full.wake t } []
  | wakeEmpty {t : θ} : t ∈ s.not_empty.waiting →
      Moves cap s throws { s with not_empty := s.not_empty.wake t } []
  | shutdown {t : θ} : s.blocked t = none → Moves cap s throws s.shutdown [.shutdown t]
  | observe {t : θ} : Moves cap s throws s [s.observe cap t]

section Inversion
variable {cap : Capacity} {s s₀ s' : State θ T} {evs : List (Event θ T)} {t : θ} {value : T}
  {c : Choice θ}

theorem accept_moves (he : EntersPush s t value s₀) (hdone : s₀.done = false)
    (hspace : s₀.queue.length < cap.max_size) (hs : s₀.accept t value c = some (s', evs)) :
    Moves cap s c.throws s' evs := by
  unfold State.accept at hs
  split at hs
  · obtain ⟨rfl, rfl⟩ := Prod.mk.inj (Option.some.inj hs)
    exact .threwPush ‹_› he
  · obtain ⟨not_empty, hn, hr⟩ := Option.map_eq_some_iff.mp hs
    obtain ⟨rfl, rfl⟩ := Prod.mk.inj hr
    exact .accept he hdone hspace hn

theorem take_moves {tried : Bool} (he : EntersPop s t s₀)
    (hnothing : s₀.queue = [] → s₀.done = true ∨ tried = true)
    (hs : s₀.take t c tried = some (s', evs)) : Moves cap s c.throws s' evs := by
  unfold State.take at hs
  split at hs
  · rename_i hnil
    obtain ⟨rfl, rfl⟩ := Prod.mk.inj (Option.some.inj hs)
    exact .nothing he hnil (hnothing hnil)
  · rename_i value rest hcons
    split at hs
    · obtain ⟨rfl, rfl⟩ := Prod.mk.inj (Option.some.inj hs)
      exact .threwPop ‹_› he
    · obtain ⟨not_full, hn, hr⟩ := Option.map_eq_some_iff.mp hs
      obtain ⟨rfl, rfl⟩ := Prod.mk.inj hr
      exact .take he hcons hn

theorem push_moves (he : EntersPush s t value s₀)
    (hs : s₀.push cap t value c = some (s', evs)) : Moves cap s c.throws s' evs := by
  unfold State.push at hs
  split at hs
  · rename_i hpred
    split at hs
    · obtain ⟨rfl, rfl⟩ := Prod.mk.inj (Option.some.inj hs)
      exact .reject he (.inl ‹_›)
    · rename_i hdone
      have hspace : s₀.queue.length < cap.max_size := by simpa [hdone, State.hasSpace] using hpred
      exact accept_moves he (by simpa using hdone) hspace hs
  · rename_i hpred
    obtain ⟨rfl, rfl⟩ := Prod.mk.inj (Option.some.inj hs)
    obtain ⟨hdone, hfull⟩ : s₀.done = false ∧ cap.max_size ≤ s₀.queue.length := by
      simpa [State.hasSpace] using hpred
    exact .waitPush he hdone hfull

theorem pop_moves (he : EntersPop s t s₀) (hs : s₀.pop t c = some (s', evs)) :
    Moves cap s c.throws s' evs := by
  unfold State.pop at hs
  split at hs
  · rename_i hpred
    refine take_moves he (fun hnil => .inl ?_) hs
    simpa [State.hasItem, hnil] using hpred
  · rename_i hpred
    obtain ⟨rfl, rfl⟩ := Prod.mk.inj (Option.some.inj hs)
    obtain ⟨hdone, hnil⟩ : s₀.done = false ∧ s₀.queue = [] := by
      simpa [State.hasItem] using hpred
    exact .waitPop he hdone hnil

theorem step_moves {act : Act θ T} (hs : step cap s act = some (s', evs)) :
    Moves cap s act.throws s' evs := by
  cases act with
  | push t value c =>
    simp only [step] at hs
    split at hs
    · exact push_moves (.call (Option.isNone_iff_eq_none.mp ‹_›)) hs
    · cases hs
  | try_push t value c =>
    simp only [step, State.try_push] at hs
    split at hs
    · rename_i hidle
      have hcall : s.blocked t = none := by simpa using hidle
      split at hs
      · rename_i hfull
        obtain ⟨rfl, rfl⟩ := Prod.mk.inj (Option.some.inj hs)
        refine .reject (.call hcall) ?_
        simpa [hcall, State.hasSpace] using hfull
      · rename_i hspace
        obtain ⟨hdone, hlt⟩ : s.done = false ∧ s.queue.length < cap.max_size := by
          simpa [State.hasSpace] using hspace
        exact accept_moves (.call hcall) hdone hlt hs
    · cases hs
  | pop t c =>
    simp only [step] at hs
    split at hs
    · exact pop_moves (.call (Option.isNone_iff_eq_none.mp ‹_›)) hs
    · cases hs
  | try_pop t c =>
    simp only [step] at hs
    split at hs
    · exact take_moves (.call (Option.isNone_iff_eq_none.mp ‹_›)) (fun _ => .inr rfl) hs
    · cases hs
  | resume t c =>
    simp only [step] at hs
    split at hs
    · cases hs
    · split at hs
      · exact push_moves (.resume ‹_› ‹_›) hs
      · cases hs
    · split at hs
      · exact pop_moves (.resume ‹_› ‹_›) hs
      · cases hs
  | spurious t =>
    simp only [step] at hs
    split at hs
    · obtain ⟨rfl, rfl⟩ := Prod.mk.inj (Option.some.inj hs)
      exact .wakeFull ‹_›
    · split at hs
      · obtain ⟨rfl, rfl⟩ := Prod.mk.inj (Option.some.inj hs)
        exact .wakeEmpty ‹_›
      · cases hs
  | shutdown t =>
    simp only [step] at hs
    split at hs
    · obtain ⟨rfl, rfl⟩ := Prod.mk.inj (Option.some.inj hs)
      exact .shutdown (Option.isNone_iff_eq_none.mp ‹_›)
    · cases hs
  | observe t =>
    simp only [step] at hs
    split at hs
    · obtain ⟨rfl, rfl⟩ := Prod.mk.inj (Option.some.inj hs)
      exact .observe
    · cases hs

end Inversion
end ThreadSafeQueue
