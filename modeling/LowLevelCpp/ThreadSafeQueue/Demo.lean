import LowLevelCpp.Foundations.ForkJoin
import LowLevelCpp.ThreadSafeQueue.Wakeups
import Mathlib.Algebra.BigOperators.Group.Finset.Basic
import Mathlib.Data.Fintype.Basic

/-!
`Thread_Safe_Queue/main.cpp`: the producers, the consumers and `main`, which starts them, joins
the producers, shuts the queue down, joins the consumers and compares the counts. Each thread
takes one step of its own, or one critical section of the queue, at a time.
-/
namespace ThreadSafeQueue.Demo
open Foundations Foundations.System Foundations.ForkJoin

/-- `QUEUE_CAPACITY`, `NUM_PRODUCERS`, `NUM_CONSUMERS` and `ITEMS_PER_PRODUCER`. -/
structure Setup where
  capacity : Capacity
  producers : ℕ
  consumers : ℕ
  items : ℕ
  consumers_pos : 0 < consumers

/-- The constants of `main`. -/
def setup : Setup := ⟨(construct 5).toOption.get rfl, 3, 2, 8, Nat.two_pos⟩

/-- `TOTAL_ITEMS` -/
def Setup.total (d : Setup) : ℕ := d.producers * d.items

inductive Thread where
  | main
  | producer (id : ℕ)
  | consumer (id : ℕ)
  deriving DecidableEq

/-- Where a thread function stands: not started, at the head of its loop or in the call made
there, after a successful call, before the count of it, or back. -/
inductive Pc where
  | unstarted
  | loop
  | logging
  | counting
  | returned
  deriving DecidableEq

/-- Whether a thread is started or back. -/
def Pc.phase : Pc → Phase
  | .unstarted => .unstarted
  | .loop | .logging | .counting => .running
  | .returned => .returned

/-- What `main` does besides starting and joining threads. -/
inductive Own where
  | shutdown
  | check
  deriving DecidableEq

/-- The loop counters of the producers, the two totals, and what is left of `main`. -/
structure Program where
  pc : Thread → Pc
  i : ℕ → ℕ
  total_produced : ℕ
  total_consumed : ℕ
  main : List (Stmt Thread Own)
  exit_code : Option ℕ

/-- The statements of `main` that start, join or shut down, and the final check. -/
def Setup.main (d : Setup) : List (Stmt Thread Own) :=
  (List.range d.consumers).map (.start ∘ .consumer) ++
    (List.range d.producers).map (.start ∘ .producer) ++
    (List.range d.producers).map (.join ∘ .producer) ++ .own .shutdown ::
    ((List.range d.consumers).map (.join ∘ .consumer) ++ [.own .check])

/-- `producer_id * 1000 + i` -/
def item (producer_id i : ℕ) : ℕ := producer_id * 1000 + i

def Program.goto (g : Program) (t : Thread) (pc : Pc) : Program :=
  { g with pc := Function.update g.pc t pc }

/-- The calls of the queue that the program makes; copying an `int` does not throw. -/
def allows (d : Setup) (g : Program) : Act Thread ℕ → Bool
  | .push (.producer id) value c =>
    g.pc (.producer id) = .loop && g.i id < d.items && value = item id (g.i id) && !c.throws
  | .pop (.consumer id) c => g.pc (.consumer id) = .loop && !c.throws
  | .resume _ c => !c.throws
  | .spurious _ => true
  | .observe t => if t = .main then g.main.head? = some (.own .check) else g.pc t = .logging
  | .shutdown t => t = .main && g.main.head? = some (.own .shutdown)
  | _ => false

/-- The return value of `main`. -/
def Program.verdict (d : Setup) (g : Program) (empty : Bool) : ℕ :=
  if g.total_produced = d.total ∧ g.total_consumed = d.total ∧ empty = true then 0 else 1

/-- What the threads do with the results of their calls. -/
def react (d : Setup) (g : Program) : Event Thread ℕ → Program
  | .accepted t _ | .returned t _ => g.goto t .logging
  | .rejected t _ | .nothing t _ => g.goto t .returned
  | .observed t _ empty _ _ =>
    if t = .main then { g with main := g.main.tail, exit_code := some (g.verdict d empty) }
    else g.goto t .counting
  | .shutdown _ => { g with main := g.main.tail }
  | .threw _ => g

/-- The steps of the threads outside the queue. -/
def tick (d : Setup) (g : Program) : Thread → Option Program
  | .main =>
    match g.main with
    | .start t :: rest => some ({ g with main := rest }.goto t .loop)
    | .join t :: rest => if g.pc t = .returned then some { g with main := rest } else none
    | _ => none
  | .producer id =>
    match g.pc (.producer id) with
    | .loop => if g.i id < d.items then none else some (g.goto (.producer id) .returned)
    | .counting =>
      some ({ g with
        i := Function.update g.i id (g.i id + 1)
        total_produced := g.total_produced + 1 }.goto (.producer id) .loop)
    | _ => none
  | .consumer id =>
    match g.pc (.consumer id) with
    | .counting =>
      some ({ g with total_consumed := g.total_consumed + 1 }.goto (.consumer id) .loop)
    | _ => none

def client (d : Setup) : Client (Act Thread ℕ) (Event Thread ℕ) Program Thread where
  init := ⟨fun _ => .unstarted, fun _ => 0, 0, 0, d.main, none⟩
  allows := allows d
  react := react d
  tick := tick d

/-- The whole program. -/
def program (d : Setup) :
    System (State Thread ℕ × Program) (Act Thread ℕ ⊕ Thread) (Event Thread ℕ) :=
  (system d.capacity Thread ℕ).drive (client d)

/-- Blocked calls are those that the threads stand at. -/
structure Calling (d : Setup) (q : State Thread ℕ) (g : Program) : Prop where
  push : ∀ t value, q.blocked t = some (.push value) →
    ∃ id, t = .producer id ∧ g.pc t = .loop ∧ g.i id < d.items ∧ value = item id (g.i id)
  pop : ∀ t, q.blocked t = some .pop → ∃ id, t = .consumer id ∧ g.pc t = .loop

/-- What a step of the program can be; `q₀` is the state in which a call tests its predicate. -/
inductive Moves (d : Setup) (q : State Thread ℕ) (g : Program) :
    Act Thread ℕ ⊕ Thread → State Thread ℕ → Program → List (Event Thread ℕ) → Prop
  | accept {id : ℕ} {q₀ : State Thread ℕ} {choice : Option Thread} {not_empty : CondVar Thread}
      {a : Act Thread ℕ ⊕ Thread} : g.pc (.producer id) = .loop → g.i id < d.items →
      EntersPush q (.producer id) (item id (g.i id)) q₀ → q₀.done = false →
      q₀.queue.length < d.capacity.max_size → q₀.not_empty.notifyOne choice = some not_empty →
      Moves d q g a { q₀ with queue := q₀.queue ++ [item id (g.i id)], not_empty }
        (g.goto (.producer id) .logging) [.accepted (.producer id) (item id (g.i id))]
  | reject {id : ℕ} {q₀ : State Thread ℕ} {a : Act Thread ℕ ⊕ Thread} :
      g.pc (.producer id) = .loop → g.i id < d.items →
      EntersPush q (.producer id) (item id (g.i id)) q₀ → q₀.done = true →
      Moves d q g a q₀ (g.goto (.producer id) .returned)
        [.rejected (.producer id) (item id (g.i id))]
  | waitPush {id : ℕ} {q₀ : State Thread ℕ} {a : Act Thread ℕ ⊕ Thread} :
      g.pc (.producer id) = .loop → g.i id < d.items →
      EntersPush q (.producer id) (item id (g.i id)) q₀ → q₀.done = false →
      d.capacity.max_size ≤ q₀.queue.length →
      Moves d q g a { q₀ with
        not_full := q₀.not_full.join (.producer id)
        blocked := Function.update q₀.blocked (.producer id) (some (.push (item id (g.i id)))) }
        g []
  | take {id value : ℕ} {rest : List ℕ} {q₀ : State Thread ℕ} {choice : Option Thread}
      {not_full : CondVar Thread} {a : Act Thread ℕ ⊕ Thread} : g.pc (.consumer id) = .loop →
      EntersPop q (.consumer id) q₀ → q₀.queue = value :: rest →
      q₀.not_full.notifyOne choice = some not_full →
      Moves d q g a { q₀ with queue := rest, not_full } (g.goto (.consumer id) .logging)
        [.returned (.consumer id) value]
  | nothing {id : ℕ} {q₀ : State Thread ℕ} {a : Act Thread ℕ ⊕ Thread} :
      g.pc (.consumer id) = .loop → EntersPop q (.consumer id) q₀ → q₀.queue = [] →
      q₀.done = true →
      Moves d q g a q₀ (g.goto (.consumer id) .returned) [.nothing (.consumer id) false]
  | waitPop {id : ℕ} {q₀ : State Thread ℕ} {a : Act Thread ℕ ⊕ Thread} :
      g.pc (.consumer id) = .loop → EntersPop q (.consumer id) q₀ → q₀.done = false →
      q₀.queue = [] →
      Moves d q g a { q₀ with
        not_empty := q₀.not_empty.join (.consumer id)
        blocked := Function.update q₀.blocked (.consumer id) (some .pop) } g []
  | wakeFull {t : Thread} : t ∈ q.not_full.waiting →
      Moves d q g (.inl (.spurious t)) { q with not_full := q.not_full.wake t } g []
  | wakeEmpty {t : Thread} : t ∈ q.not_empty.waiting →
      Moves d q g (.inl (.spurious t)) { q with not_empty := q.not_empty.wake t } g []
  | log {t : Thread} {a : Act Thread ℕ ⊕ Thread} : t ≠ .main → g.pc t = .logging →
      Moves d q g a q (g.goto t .counting) [q.observe d.capacity t]
  | check {rest : List (Stmt Thread Own)} {a : Act Thread ℕ ⊕ Thread} :
      g.main = .own .check :: rest →
      Moves d q g a q
        { g with main := rest, exit_code := some (g.verdict d q.queue.isEmpty) }
        [q.observe d.capacity .main]
  | shutdown {rest : List (Stmt Thread Own)} {a : Act Thread ℕ ⊕ Thread} :
      g.main = .own .shutdown :: rest →
      Moves d q g a q.shutdown { g with main := rest } [.shutdown .main]
  | start {t : Thread} {rest : List (Stmt Thread Own)} {a : Act Thread ℕ ⊕ Thread} :
      g.main = .start t :: rest → Moves d q g a q ({ g with main := rest }.goto t .loop) []
  | join {t : Thread} {rest : List (Stmt Thread Own)} {a : Act Thread ℕ ⊕ Thread} :
      g.main = .join t :: rest → g.pc t = .returned → Moves d q g a q { g with main := rest } []
  | produced {id : ℕ} {a : Act Thread ℕ ⊕ Thread} : g.pc (.producer id) = .counting →
      Moves d q g a q ({ g with
        i := Function.update g.i id (g.i id + 1)
        total_produced := g.total_produced + 1 }.goto (.producer id) .loop) []
  | consumed {id : ℕ} {a : Act Thread ℕ ⊕ Thread} : g.pc (.consumer id) = .counting →
      Moves d q g a q
        ({ g with total_consumed := g.total_consumed + 1 }.goto (.consumer id) .loop) []
  | finished {id : ℕ} {a : Act Thread ℕ ⊕ Thread} : g.pc (.producer id) = .loop →
      d.items ≤ g.i id → Moves d q g a q (g.goto (.producer id) .returned) []

section Inversion
variable {d : Setup} {q q' : State Thread ℕ} {g g' : Program} {evs : List (Event Thread ℕ)}

/-- A step of the queue inside `push`, whichever way the call came to its test. -/
theorem push_step_moves {id : ℕ} {q₀ : State Thread ℕ} {c : Choice Thread}
    {a : Act Thread ℕ ⊕ Thread} (hpc : g.pc (.producer id) = .loop) (hi : g.i id < d.items)
    (he : EntersPush q (.producer id) (item id (g.i id)) q₀) (hc : c.throws = false)
    (hs : q₀.push d.capacity (.producer id) (item id (g.i id)) c = some (q', evs)) :
    Moves d q g a q' (evs.foldl (react d) g) evs := by
  unfold State.push at hs
  split at hs
  · rename_i hpred
    split at hs
    · obtain ⟨rfl, rfl⟩ := Prod.mk.inj (Option.some.inj hs)
      exact .reject hpc hi he ‹_›
    · rename_i hdone
      have hspace : q₀.queue.length < d.capacity.max_size := by
        simpa [hdone, State.hasSpace] using hpred
      simp only [State.accept, hc, Bool.false_eq_true, if_false] at hs
      obtain ⟨not_empty, hn, hr⟩ := Option.map_eq_some_iff.mp hs
      obtain ⟨rfl, rfl⟩ := Prod.mk.inj hr
      exact .accept hpc hi he (by simpa using hdone) hspace hn
  · rename_i hpred
    obtain ⟨rfl, rfl⟩ := Prod.mk.inj (Option.some.inj hs)
    obtain ⟨hdone, hfull⟩ : q₀.done = false ∧ d.capacity.max_size ≤ q₀.queue.length := by
      simpa [State.hasSpace] using hpred
    exact .waitPush hpc hi he hdone hfull

/-- A step of the queue inside `pop`. -/
theorem pop_step_moves {id : ℕ} {q₀ : State Thread ℕ} {c : Choice Thread}
    {a : Act Thread ℕ ⊕ Thread} (hpc : g.pc (.consumer id) = .loop)
    (he : EntersPop q (.consumer id) q₀) (hc : c.throws = false)
    (hs : q₀.pop (.consumer id) c = some (q', evs)) :
    Moves d q g a q' (evs.foldl (react d) g) evs := by
  unfold State.pop at hs
  split at hs
  · rename_i hpred
    unfold State.take at hs
    split at hs
    · rename_i hnil
      obtain ⟨rfl, rfl⟩ := Prod.mk.inj (Option.some.inj hs)
      exact .nothing hpc he hnil (by simpa [State.hasItem, hnil] using hpred)
    · rename_i value rest hcons
      simp only [hc, Bool.false_eq_true, if_false] at hs
      obtain ⟨not_full, hn, hr⟩ := Option.map_eq_some_iff.mp hs
      obtain ⟨rfl, rfl⟩ := Prod.mk.inj hr
      exact .take hpc he hcons hn
  · rename_i hpred
    obtain ⟨rfl, rfl⟩ := Prod.mk.inj (Option.some.inj hs)
    obtain ⟨hdone, hnil⟩ : q₀.done = false ∧ q₀.queue = [] := by
      simpa [State.hasItem] using hpred
    exact .waitPop hpc he hdone hnil

/-- The step of a blocked call that has re-acquired the mutex. -/
theorem resume_moves {t : Thread} {c : Choice Thread} (hcalls : Calling d q g)
    (hc : c.throws = false) (hs : step d.capacity q (.resume t c) = some (q', evs)) :
    Moves d q g (.inl (.resume t c)) q' (evs.foldl (react d) g) evs := by
  simp only [step] at hs
  split at hs
  · cases hs
  · rename_i value hblocked
    obtain ⟨id, rfl, hpc, hi, rfl⟩ := hcalls.push t value hblocked
    split at hs
    · exact push_step_moves hpc hi (.resume hblocked ‹_›) hc hs
    · cases hs
  · rename_i hblocked
    obtain ⟨id, rfl, hpc⟩ := hcalls.pop t hblocked
    split at hs
    · exact pop_step_moves hpc (.resume hblocked ‹_›) hc hs
    · cases hs

/-- A step of the queue that the program allows. -/
theorem call_moves {act : Act Thread ℕ} (hcalls : Calling d q g)
    (hallows : allows d g act = true) (hs : step d.capacity q act = some (q', evs)) :
    Moves d q g (.inl act) q' (evs.foldl (react d) g) evs := by
  cases act with
  | push t value c =>
    cases t with
    | producer id =>
      obtain ⟨⟨⟨hpc, hi⟩, rfl⟩, hc⟩ : ((g.pc (.producer id) = .loop ∧ g.i id < d.items) ∧
          value = item id (g.i id)) ∧ c.throws = false := by
        simpa [allows] using hallows
      simp only [step] at hs
      split at hs
      · exact push_step_moves hpc hi (.call (Option.isNone_iff_eq_none.mp ‹_›)) hc hs
      · cases hs
    | main | consumer id => simp [allows] at hallows
  | pop t c =>
    cases t with
    | consumer id =>
      obtain ⟨hpc, hc⟩ : g.pc (.consumer id) = .loop ∧ c.throws = false := by
        simpa [allows] using hallows
      simp only [step] at hs
      split at hs
      · exact pop_step_moves hpc (.call (Option.isNone_iff_eq_none.mp ‹_›)) hc hs
      · cases hs
    | main | producer id => simp [allows] at hallows
  | resume t c => exact resume_moves hcalls (by simpa [allows] using hallows) hs
  | spurious t =>
    simp only [step] at hs
    split at hs
    · obtain ⟨rfl, rfl⟩ := Prod.mk.inj (Option.some.inj hs)
      exact .wakeFull ‹_›
    · split at hs
      · obtain ⟨rfl, rfl⟩ := Prod.mk.inj (Option.some.inj hs)
        exact .wakeEmpty ‹_›
      · cases hs
  | observe t =>
    simp only [step] at hs
    split at hs
    · obtain ⟨rfl, rfl⟩ := Prod.mk.inj (Option.some.inj hs)
      by_cases ht : t = .main
      · subst ht
        obtain ⟨rest, hmain⟩ := List.head?_eq_some_iff.mp
          (show g.main.head? = some (.own .check) by simpa [allows] using hallows)
        have hmoves := Moves.check (d := d) (q := q) (a := .inl (.observe .main)) hmain
        simpa [react, State.observe, hmain] using hmoves
      · have hpc : g.pc t = .logging := by simpa [allows, ht] using hallows
        have hmoves := Moves.log (d := d) (q := q) (a := .inl (.observe t)) ht hpc
        simpa [react, State.observe, ht] using hmoves
    · cases hs
  | shutdown t =>
    simp only [step] at hs
    split at hs
    · obtain ⟨rfl, rfl⟩ := Prod.mk.inj (Option.some.inj hs)
      obtain ⟨rfl, hhead⟩ : t = .main ∧ g.main.head? = some (.own .shutdown) := by
        simpa [allows] using hallows
      obtain ⟨rest, hmain⟩ := List.head?_eq_some_iff.mp hhead
      have hmoves := Moves.shutdown (d := d) (q := q) (a := .inl (.shutdown .main)) hmain
      simpa [react, hmain] using hmoves
    · cases hs
  | try_push t value c | try_pop t c => simp [allows] at hallows

/-- A step of a thread outside the queue. -/
theorem tick_moves {t : Thread} (hs : tick d g t = some g') :
    Moves d q g (.inr t) q g' [] := by
  cases t with
  | main =>
    simp only [tick] at hs
    split at hs
    · obtain rfl := Option.some.inj hs
      exact .start ‹_›
    · split at hs
      · obtain rfl := Option.some.inj hs
        exact .join ‹_› ‹_›
      · cases hs
    · cases hs
  | producer id =>
    simp only [tick] at hs
    split at hs
    · split at hs
      · cases hs
      · obtain rfl := Option.some.inj hs
        exact .finished ‹_› (Nat.not_lt.mp ‹_›)
    · obtain rfl := Option.some.inj hs
      exact .produced ‹_›
    · cases hs
  | consumer id =>
    simp only [tick] at hs
    split at hs
    · obtain rfl := Option.some.inj hs
      exact .consumed ‹_›
    · cases hs

theorem program_moves {a : Act Thread ℕ ⊕ Thread} (hcalls : Calling d q g)
    (hs : (program d).step (q, g) a = some ((q', g'), evs)) : Moves d q g a q' g' evs := by
  cases a with
  | inl act =>
    obtain ⟨hallows, hstep, hreact⟩ := drive_inl.mp hs
    obtain rfl : g' = _ := hreact
    exact call_moves hcalls hallows hstep
  | inr t =>
    obtain ⟨htick, hsame, rfl⟩ := drive_inr.mp hs
    obtain rfl : q' = q := hsame
    exact tick_moves htick

end Inversion

end ThreadSafeQueue.Demo
