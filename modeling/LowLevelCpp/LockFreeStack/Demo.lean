import LowLevelCpp.Foundations.ForkJoin
import LowLevelCpp.LockFreeStack.Memory
import Mathlib.Algebra.BigOperators.Group.Finset.Basic
import Mathlib.Data.Fintype.Basic

/-!
`Lock-free-stack/main.cpp`: `produce`, `consume` and `main`, which starts one producer and the
consumers, joins them and compares their sums. Each thread takes one step of its own, or one atomic
step of the stack, at a time.
-/
namespace LockFreeStack.Demo
open Foundations Foundations.System Foundations.ForkJoin

/-- `NUM_CONSUMERS` and `ITEMS_PER_CONSUMER`. -/
structure Setup where
  consumers : ℕ
  items : ℕ
  consumers_pos : 0 < consumers
  items_pos : 0 < items

def setup : Setup := ⟨4, 10000, by decide, by decide⟩

/-- `total_items` -/
def Setup.total (d : Setup) : ℕ := d.consumers * d.items

inductive Thread where
  | main
  | producer
  | consumer (id : ℕ)
  deriving DecidableEq

/-- What `main` does besides starting and joining threads. -/
inductive Own where
  | validate
  deriving DecidableEq

/-- The variables of the threads; `i` and `count` are the loop counters of `produce` and `consume`,
and `passed` is what `main` prints. -/
structure Program where
  phase : Thread → Phase
  i : ℕ
  produced : ℤ
  count : ℕ → ℕ
  local_sum : ℕ → ℤ
  producer_sum : ℤ
  consumer_sum : ℤ
  main : List (Stmt Thread Own)
  passed : Option Bool

def Setup.main (d : Setup) : List (Stmt Thread Own) :=
  .start .producer :: (List.range d.consumers).map (.start ∘ .consumer) ++
    .join .producer :: (List.range d.consumers).map (.join ∘ .consumer) ++ [.own .validate]

def Program.goto (g : Program) (t : Thread) (phase : Phase) : Program :=
  { g with phase := Function.update g.phase t phase }

variable {Addr : Type}

/-- The calls of the stack: `stack.push(i)` for `i` from 1 on, and `stack.pop()`. -/
def allows (d : Setup) (g : Program) : Act Thread Addr → Bool
  | .push .producer key =>
    g.phase .producer = .running && g.i < d.total && key = (g.i : ℤ) + 1
  | .push _ _ => false
  | .pop (.consumer id) => g.phase (.consumer id) = .running && g.count id < d.items
  | .pop _ => false
  | _ => true

/-- What the threads do with the results of their calls; a consumer tries again after a `0`. -/
def react (g : Program) : Event Thread Addr → Program
  | .pushed _ _ key _ => { g with i := g.i + 1, produced := g.produced + key }
  | .returned (.consumer id) key =>
    if key = 0 then g
    else { g with
      count := Function.update g.count id (g.count id + 1)
      local_sum := Function.update g.local_sum id (g.local_sum id + key) }
  | _ => g

/-- The steps of the threads outside the stack. -/
def tick (d : Setup) (g : Program) : Thread → Option Program
  | .main =>
    match g.main with
    | .start t :: rest => some ({ g with main := rest }.goto t .running)
    | .join t :: rest => if g.phase t = .returned then some { g with main := rest } else none
    | .own .validate :: rest => some { g with
        main := rest
        passed := some (decide (g.producer_sum = g.consumer_sum ∧ g.producer_sum ≠ 0)) }
    | [] => none
  | .producer =>
    if g.phase .producer = .running ∧ ¬ g.i < d.total then
      some ({ g with producer_sum := g.produced }.goto .producer .returned)
    else none
  | .consumer id =>
    if g.phase (.consumer id) = .running ∧ ¬ g.count id < d.items then
      some ({ g with consumer_sum := g.consumer_sum + g.local_sum id }.goto (.consumer id)
        .returned)
    else none

def client (d : Setup) (Addr : Type) : Client (Act Thread Addr) (Event Thread Addr) Program Thread
    where
  init := ⟨fun _ => .unstarted, 0, 0, fun _ => 0, fun _ => 0, 0, 0, d.main, none⟩
  allows := allows d
  react := react
  tick := tick d

/-- The whole program. -/
def program (d : Setup) (Addr : Type) [DecidableEq Addr] :
    System (State Thread Addr × Program) (Act Thread Addr ⊕ Thread) (Event Thread Addr) :=
  (system Thread Addr).drive (client d Addr)

/-- A thread inside a call of `pop`. -/
def popping (p : Pc Addr) : Prop := p.searching ∨ p.inTransit

/-- What a step of the program can be; inside a call neither the call nor its key changes. -/
inductive Moves (d : Setup) (s : State Thread Addr) (g : Program) :
    State Thread Addr → Program → List (Event Thread Addr) → Prop
  | inside {s' : State Thread Addr} {evs : List (Event Thread Addr)}
      (hpush : ∀ t, (s'.pc t).pushKey? = (s.pc t).pushKey?)
      (hpop : ∀ t, popping (s'.pc t) ↔ popping (s.pc t))
      (hpushed : evs.filterMap Event.pushed? = []) (hresult : evs.filterMap Event.popResult? = []) :
      Moves d s g s' g evs
  | callPush (hphase : g.phase .producer = .running) (hi : g.i < d.total) :
      Moves d s g (s.goto .producer (.pushNew (g.i + 1))) g [.called .producer]
  | callPop {id : ℕ} (hphase : g.phase (.consumer id) = .running) (hcount : g.count id < d.items) :
      Moves d s g (s.goto (.consumer id) .popLoad) g [.called (.consumer id)]
  | pushed {s' : State Thread Addr} {t : Thread} {n : Addr} {key : ℤ} {tag : BitVec 64}
      (hkey : (s.pc t).pushKey? = some key) (hpc : s'.pc = Function.update s.pc t .idle) :
      Moves d s g s' { g with i := g.i + 1, produced := g.produced + key } [.pushed t n key tag]
  | empty {t : Thread} (hpop : popping (s.pc t)) : Moves d s g (s.goto t .idle) g [.empty t]
  | returned {s' : State Thread Addr} {t : Thread} {key : ℤ} (hpop : popping (s.pc t))
      (hpc : s'.pc = Function.update s.pc t .idle) :
      Moves d s g s' (react g (.returned t key : Event Thread Addr)) [.returned t key]
  | stored (hphase : g.phase .producer = .running) (hi : d.total ≤ g.i) :
      Moves d s g s ({ g with producer_sum := g.produced }.goto .producer .returned) []
  | added {id : ℕ} (hphase : g.phase (.consumer id) = .running) (hcount : d.items ≤ g.count id) :
      Moves d s g s ({ g with consumer_sum := g.consumer_sum + g.local_sum id }.goto (.consumer id)
        .returned) []
  | start {t : Thread} {rest : List (Stmt Thread Own)} (hmain : g.main = .start t :: rest) :
      Moves d s g s ({ g with main := rest }.goto t .running) []
  | join {t : Thread} {rest : List (Stmt Thread Own)} (hmain : g.main = .join t :: rest)
      (hphase : g.phase t = .returned) : Moves d s g s { g with main := rest } []
  | validate {rest : List (Stmt Thread Own)} (hmain : g.main = .own .validate :: rest) :
      Moves d s g s { g with
        main := rest
        passed := some (decide (g.producer_sum = g.consumer_sum ∧ g.producer_sum ≠ 0)) } []

section Inversion
variable {d : Setup} {s s' : State Thread Addr} {g g' : Program} {t : Thread} {p : Pc Addr}
  {evs : List (Event Thread Addr)}

/-- A step inside a call. -/
theorem inside_moves (hpc : s'.pc = Function.update s.pc t p)
    (hpush : p.pushKey? = (s.pc t).pushKey?) (hpop : popping p ↔ popping (s.pc t))
    (hpushed : evs.filterMap Event.pushed? = [])
    (hresult : evs.filterMap Event.popResult? = []) : Moves d s g s' g evs := by
  refine .inside (fun t' => ?_) (fun t' => ?_) hpushed hresult <;> by_cases ht : t' = t
  · rw [ht, hpc, Function.update_self, hpush]
  · rw [hpc, Function.update_of_ne ht]
  · rw [ht, hpc, Function.update_self, hpop]
  · rw [hpc, Function.update_of_ne ht]

theorem tick_moves (hs : tick d g t = some g') : Moves d s g s g' [] := by
  cases t with
  | main =>
    simp only [tick] at hs
    split at hs
    · obtain rfl := Option.some.inj hs
      exact .start ‹_›
    · split at hs
      · obtain rfl := Option.some.inj hs
        exact .join ‹_› ‹_›
      · cases hs
    · obtain rfl := Option.some.inj hs
      exact .validate ‹_›
    · cases hs
  | producer =>
    simp only [tick] at hs
    split at hs
    · obtain rfl := Option.some.inj hs
      exact .stored (by tauto) (by omega)
    · cases hs
  | consumer id =>
    simp only [tick] at hs
    split at hs
    · obtain rfl := Option.some.inj hs
      exact .added (by tauto) (by omega)
    · cases hs

variable [DecidableEq Addr]

/-- A step of a thread that is in a call. -/
theorem running_moves (hs : Step s t s' evs) (hcall : s.pc t ≠ .idle) :
    Moves d s g s' (evs.foldl react g) evs := by
  cases hs with
  | callPush hpc | callPop hpc => exact absurd hpc hcall
  | pushed hpc => exact .pushed (by rw [hpc]; rfl) rfl
  | popEmpty hpc => exact .empty (by simp [hpc, popping, Pc.searching])
  | popDelete hpc => exact .returned (by simp [hpc, popping, Pc.inTransit]) rfl
  | alloc hpc | pushLoad hpc | pushLink hpc | pushFetch hpc | pushRetry hpc | popLoad hpc
  | popReload hpc | popTest hpc | popNext hpc | popFetch hpc | popped hpc | popRetry hpc
  | popKey hpc =>
    exact inside_moves rfl (by simp [hpc, Pc.pushKey?])
      (by simp [hpc, popping, Pc.searching, Pc.inTransit]) rfl rfl

theorem call_moves {act : Act Thread Addr} (hallows : allows d g act = true)
    (hs : step s act = some (s', evs)) : Moves d s g s' (evs.foldl react g) evs := by
  cases act with
  | push t key =>
    cases t with
    | producer =>
      obtain ⟨⟨hphase, hi⟩, rfl⟩ : (g.phase .producer = .running ∧ g.i < d.total) ∧
          key = (g.i : ℤ) + 1 := by
        simpa [allows] using hallows
      simp only [step] at hs
      split at hs <;> cases hs
      exact .callPush hphase hi
    | main | consumer id => simp [allows] at hallows
  | pop t =>
    cases t with
    | consumer id =>
      obtain ⟨hphase, hcount⟩ : g.phase (.consumer id) = .running ∧ g.count id < d.items := by
        simpa [allows] using hallows
      simp only [step] at hs
      split at hs <;> cases hs
      exact .callPop hphase hcount
    | main | producer => simp [allows] at hallows
  | alloc | readNext | readKey | compareExchange | run =>
    refine running_moves (step_cases hs) fun hidle => ?_
    have hcall := isCall_of_idle hs hidle
    simp [Act.isCall] at hcall

theorem program_moves {a : Act Thread Addr ⊕ Thread}
    (hs : (program d Addr).step (s, g) a = some ((s', g'), evs)) : Moves d s g s' g' evs := by
  cases a with
  | inl act =>
    obtain ⟨hallows, hstep, hreact⟩ := drive_inl.mp hs
    obtain rfl : g' = _ := hreact
    exact call_moves hallows hstep
  | inr t =>
    obtain ⟨htick, hsame, rfl⟩ := drive_inr.mp hs
    obtain rfl : s' = s := hsame
    exact tick_moves htick

end Inversion
end LockFreeStack.Demo
