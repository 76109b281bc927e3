import LowLevelCpp.Foundations.Clients
import LowLevelCpp.LockFreeStack.Tags

/-! Lock freedom: an exchange fails only because another one has succeeded since the snapshot, or
spuriously, so any number of calls is over after boundedly many steps, however they are
interleaved. -/
namespace LockFreeStack
open Foundations Foundations.System

variable {Tid Addr : Type} [DecidableEq Tid] {s s' : State Tid Addr} {t : Tid} {p : Pc Addr}
  {log evs : List (Event Tid Addr)}

/-- The label of a call of `push` or `pop`. -/
def Act.isCall : Act Tid Addr → Bool
  | .push _ _ | .pop _ => true
  | _ => false

/-- The label of an exchange that the processor makes fail. -/
def Act.isSpurious : Act Tid Addr → Bool
  | .compareExchange _ spurious => spurious
  | _ => false

/-- The work that a call may still cause: its own steps, when no exchange fails any more, and
four steps of every thread when it exchanges. -/
def Pc.due (N : ℕ) : Pc Addr → ℕ
  | .idle => 0
  | .pushNew _ => 5 + 4 * N
  | .pushLoad _ _ => 4 + 4 * N
  | .pushLink _ _ _ => 3 + 4 * N
  | .pushFetch _ _ _ => 2 + 4 * N
  | .pushCas _ _ _ _ => 1 + 4 * N
  | .popLoad => 8 + 4 * N
  | .popReload _ => 7 + 4 * N
  | .popTest _ => 6 + 4 * N
  | .popNext _ _ => 5 + 4 * N
  | .popFetch _ _ _ => 4 + 4 * N
  | .popCas _ _ _ _ => 3 + 4 * N
  | .popKey _ => 2
  | .popDelete _ _ => 1

/-- What a thread's next exchange may cost it. -/
def stale (t : Tid) (log : List (Event Tid Addr)) : ℕ := if swapsSince t log = [] then 0 else 4

def load (N : ℕ) (s : State Tid Addr) (log : List (Event Tid Addr)) (t : Tid) : ℕ :=
  (s.pc t).due N + stale t log

/-- A snapshot is up to date while nothing has been stored since it was taken. -/
def UpToDate (s : State Tid Addr) (log : List (Event Tid Addr)) : Prop :=
  ∀ t old, (s.pc t).oldTop = some old → swapsSince t log = [] → s.top = old

section Step
variable [DecidableEq Addr]

theorem Step.pc_of_ne (hs : Step s t s' evs) {t' : Tid} (ht : t' ≠ t) : s'.pc t' = s.pc t' := by
  cases hs <;> exact Function.update_of_ne ht _ _

/-- What a step stores is new to the snapshots of all other threads. -/
theorem Step.since_of_ne (hs : Step s t s' evs) (log : List (Event Tid Addr)) {t' : Tid}
    (ht : t' ≠ t) :
    swapsSince t' (log ++ evs) = swapsSince t' log ++ swaps evs := by
  have hne : t ≠ t' := ht.symm
  cases hs <;> simp [swaps, Event.isSnapshotOf, Event.stored?, hne]

theorem Step.top_eq (hs : Step s t s' evs) (hnil : swaps evs = []) : s'.top = s.top := by
  cases hs with
  | pushed hpc | popped hpc htop => simp [swaps, Event.stored?] at hnil
  | _ => rfl

theorem UpToDate.step (h : UpToDate s log) (hs : Step s t s' evs) : UpToDate s' (log ++ evs) := by
  intro t' old hold hnil
  by_cases ht : t' = t
  · subst ht
    cases hs with
    | pushLink hpc | pushFetch hpc | popReload hpc | popTest hpc | popNext hpc | popFetch hpc =>
      refine h t' old ?_ (by simpa [Event.isSnapshotOf, Event.stored?] using hnil)
      simpa [State.goto, State.storeNext, State.fetchAdd, hpc, Pc.oldTop] using hold
    | pushLoad hpc | pushRetry hpc | popLoad hpc | popRetry hpc =>
      simpa [State.goto, Pc.oldTop] using hold
    | callPush hpc | callPop hpc | alloc hpc | pushed hpc | popEmpty hpc | popped hpc
    | popKey hpc | popDelete hpc => simp [State.goto, Pc.oldTop] at hold
  · rw [hs.pc_of_ne ht] at hold
    rw [hs.since_of_ne log ht] at hnil
    obtain ⟨hold', hnew⟩ := List.append_eq_nil_iff.mp hnil
    rw [hs.top_eq hnew]
    exact h t' old hold hold'

theorem upToDate_of_run (hrun : (system Tid Addr).Run s log) : UpToDate s log := by
  refine hrun.invariant (I := UpToDate) (by simp [UpToDate, system, initial, Pc.oldTop]) ?_
  exact fun s log act s' evs _ ih _ hs => ih.step (step_cases hs)

theorem isCall_of_idle {act : Act Tid Addr} (hs : step s act = some (s', evs))
    (hpc : s.pc act.thread = .idle) : act.isCall = true := by
  cases act with
  | push | pop => rfl
  | _ =>
    simp only [Act.thread] at hpc
    simp [LockFreeStack.step, hpc] at hs

/-- An exchange that finds its snapshot in `top` fails spuriously or not at all. -/
theorem isSpurious_of_retry (act : Act Tid Addr) {tag : BitVec 64}
    (hs : step s act = some (s', [.snapshot t])) (hdrawn : (s.pc act.thread).drawn = some tag)
    (hold : (s.pc act.thread).oldTop = some s.top) : act.isSpurious = true := by
  cases act with
  | compareExchange t' spurious =>
    simp only [Act.thread] at hdrawn hold
    simp only [LockFreeStack.step] at hs
    cases spurious with
    | true => rfl
    | false =>
      split at hs <;> simp_all [Pc.oldTop]
  | _ =>
    simp only [Act.thread] at hdrawn
    simp only [LockFreeStack.step] at hs
    split at hs <;> simp_all [Pc.drawn]

/-- What a label adds to the work. -/
def Act.cost (N : ℕ) (act : Act Tid Addr) : ℕ :=
  (if act.isCall then 9 + 4 * N else 0) + if act.isSpurious then 4 else 0

/-- What a step may add to the load of each other thread. -/
def disturbance (evs : List (Event Tid Addr)) : ℕ := if swaps evs = [] then 0 else 4

theorem load_of_ne (hs : Step s t s' evs) {N : ℕ} {t' : Tid} (ht : t' ≠ t) :
    load N s' (log ++ evs) t' ≤ load N s log t' + disturbance evs := by
  simp only [load, stale, disturbance, hs.pc_of_ne ht, hs.since_of_ne log ht]
  by_cases hnil : swaps evs = []
  · simp [hnil]
  · simp only [List.append_eq_nil_iff, hnil, and_false, if_false]
    omega

/-- A failing exchange is paid for by the one that has made its snapshot stale, or is spurious. -/
theorem retry_paid {act : Act Tid Addr} {old : TaggedPointer Addr} {tag : BitVec 64} {N : ℕ}
    (hup : UpToDate s log) (hs : step s act = some (s', [.snapshot t]))
    (hdrawn : (s.pc act.thread).drawn = some tag)
    (hold : (s.pc act.thread).oldTop = some old) : 4 ≤ stale act.thread log + act.cost N := by
  by_cases hnil : swapsSince act.thread log = []
  · have htop := hup _ _ hold hnil
    have hspurious := isSpurious_of_retry act hs hdrawn (htop ▸ hold)
    simp only [Act.cost, hspurious, if_true]
    omega
  · simp only [stale, hnil, if_false]
    omega

omit [DecidableEq Addr] in
@[simp] theorem goto_pc_self (s : State Tid Addr) (t : Tid) (p : Pc Addr) :
    (s.goto t p).pc t = p := Function.update_self ..

omit [DecidableEq Addr] in
theorem load_quiet (log : List (Event Tid Addr)) {e : Event Tid Addr}
    (hsnap : e.isSnapshotOf t = false) (hstore : e.stored? = none) :
    stale t (log ++ [e]) = stale t log ∧ disturbance [e] = 0 := by
  simp [stale, disturbance, swaps, hsnap, hstore]

omit [DecidableEq Addr] in
theorem load_snapshot (log : List (Event Tid Addr)) (t : Tid) :
    stale t (log ++ [.snapshot t]) = 0 ∧ disturbance [(.snapshot t : Event Tid Addr)] = 0 := by
  simp [stale, disturbance, swaps, Event.isSnapshotOf, Event.stored?]

omit [DecidableEq Addr] in
theorem stale_le (t : Tid) (log : List (Event Tid Addr)) : stale t log ≤ 4 := by
  unfold stale
  split <;> omega

/-- The load of the thread that takes the step pays for the step and for the other threads. -/
theorem load_self {act : Act Tid Addr} {N : ℕ} (hN : 0 < N) (hup : UpToDate s log)
    (hs : step s act = some (s', evs)) :
    load N s' (log ++ evs) act.thread + (N - 1) * disturbance evs + 1 ≤
      load N s log act.thread + act.cost N := by
  have hstep := step_cases hs
  have hcall (hpc : s.pc act.thread = .idle) : 9 + 4 * N ≤ act.cost N := by
    simp [Act.cost, isCall_of_idle hs hpc]
  generalize ht : act.thread = t at hstep hcall ⊢
  cases hstep with
  | callPush hpc | callPop hpc =>
    have hcost := hcall hpc
    obtain ⟨hsame, hquiet⟩ := load_quiet log (e := .called t) (t := t) rfl rfl
    simp only [load, goto_pc_self, hpc, Pc.due, hsame, hquiet]
    omega
  | alloc hpc | pushLink hpc | popReload hpc | popTest hpc | popNext hpc | popKey hpc =>
    have hquiet : disturbance ([] : List (Event Tid Addr)) = 0 := rfl
    simp only [load, goto_pc_self, hpc, Pc.due, List.append_nil, hquiet]
    omega
  | pushFetch hpc | popFetch hpc =>
    obtain ⟨hsame, hquiet⟩ := load_quiet log (e := .fetched t) (t := t) rfl rfl
    simp only [load, goto_pc_self, hpc, Pc.due, hsame, hquiet]
    omega
  | popEmpty hpc =>
    obtain ⟨hsame, hquiet⟩ := load_quiet log (e := .empty t) (t := t) rfl rfl
    simp only [load, goto_pc_self, hpc, Pc.due, hsame, hquiet]
    omega
  | @popDelete n key hpc =>
    obtain ⟨hsame, hquiet⟩ := load_quiet log (e := .returned t key) (t := t) rfl rfl
    simp only [load, goto_pc_self, hpc, Pc.due, hsame, hquiet]
    omega
  | pushLoad hpc | popLoad hpc =>
    obtain ⟨hfresh, hquiet⟩ := load_snapshot log t
    simp only [load, goto_pc_self, hpc, Pc.due, hfresh, hquiet]
    omega
  | pushRetry hpc | popRetry hpc =>
    subst ht
    have hpaid := retry_paid (N := N) hup hs (by rw [hpc]; rfl) (by rw [hpc]; rfl)
    obtain ⟨hfresh, hquiet⟩ := load_snapshot log act.thread
    simp only [load, goto_pc_self, hpc, Pc.due, hfresh, hquiet]
    omega
  | @pushed key n tag hpc =>
    have hlimit := stale_le t (log ++ [.pushed t n key tag])
    have hswap : disturbance [Event.pushed t n key tag] = 4 := rfl
    simp only [load, goto_pc_self, hpc, Pc.due, hswap]
    omega
  | @popped n oldTag next tag hpc htop =>
    have hlimit := stale_le t (log ++ [.popped t n next tag])
    have hswap : disturbance [Event.popped t n next tag] = 4 := rfl
    simp only [load, goto_pc_self, hpc, Pc.due, hswap]
    omega

theorem work_step [Fintype Tid] {act : Act Tid Addr} (hup : UpToDate s log)
    (hs : step s act = some (s', evs)) :
    ∑ t, load (Fintype.card Tid) s' (log ++ evs) t + 1 ≤
      ∑ t, load (Fintype.card Tid) s log t + act.cost (Fintype.card Tid) := by
  have hpos : 0 < Fintype.card Tid := Fintype.card_pos_iff.mpr ⟨act.thread⟩
  have hself := load_self hpos hup hs
  have hall := sum_le_of_others act.thread (disturbance evs)
    (f := load (Fintype.card Tid) s log) (k := load (Fintype.card Tid) s' (log ++ evs))
    fun t' ht => load_of_ne (step_cases hs) ht
  omega

/-- A thread in a call is never blocked. -/
theorem exists_step (hpc : s.pc t ≠ .idle) (hfree : ∃ n, s.heap n = none) :
    ∃ act : Act Tid Addr, act.thread = t ∧ act.isCall = false ∧ act.isSpurious = false ∧
      (step s act).isSome := by
  obtain ⟨n, hn⟩ := hfree
  cases hp : s.pc t with
  | idle => exact absurd hp hpc
  | pushNew key => exact ⟨.alloc t n, rfl, rfl, rfl, by simp [LockFreeStack.step, hp, hn]⟩
  | popNext m tag => exact ⟨.readNext t none, rfl, rfl, rfl, by simp [LockFreeStack.step, hp]⟩
  | popKey m => exact ⟨.readKey t 0, rfl, rfl, rfl, by simp [LockFreeStack.step, hp]⟩
  | pushCas key m old tag =>
    refine ⟨.compareExchange t false, rfl, rfl, rfl, ?_⟩
    simp only [LockFreeStack.step, hp]
    split <;> rfl
  | popCas m oldTag next tag =>
    refine ⟨.compareExchange t false, rfl, rfl, rfl, ?_⟩
    simp only [LockFreeStack.step, hp]
    split <;> rfl
  | popTest old =>
    refine ⟨.run t, rfl, rfl, rfl, ?_⟩
    simp only [LockFreeStack.step, hp]
    split <;> rfl
  | pushLoad | pushLink | pushFetch | popLoad | popReload | popFetch | popDelete =>
    exact ⟨.run t, rfl, rfl, rfl, by simp [LockFreeStack.step, hp]⟩

/-- The exchange of a thread whose snapshot is in `top` does not fail by itself. -/
theorem not_snapshot_of_top {tag : BitVec 64} (hdrawn : (s.pc t).drawn = some tag)
    (hold : (s.pc t).oldTop = some s.top) :
    step s (.compareExchange t false) ≠ some (s', [.snapshot t]) := fun hs => by
  have hspurious := isSpurious_of_retry (.compareExchange t false) hs hdrawn hold
  cases hspurious

end Step

/-- Both threads push, and the exchange of the one that came first fails. -/
def contendedRun : List (Act Bool ℕ) :=
  [.push false 1, .alloc false 10, .run false, .run false, .run false,
    .push true 2, .alloc true 11, .run true, .run true, .run true, .compareExchange true false]

end LockFreeStack
