import LowLevelCpp.LockFreeStack.Model
import Mathlib.Algebra.Group.Nat.Defs
import Mathlib.Data.List.Nodup

/-! Version tags: the pairs stored into `top` never repeat, so a successful exchange
proves that `top` has not been touched since the snapshot. -/
namespace LockFreeStack
open Foundations Foundations.System

variable {Tid Addr : Type}

/-- The pair that a successful exchange stores into `top`. -/
def Event.stored? : Event Tid Addr → Option (TaggedPointer Addr)
  | .pushed _ n _ tag => some ⟨some n, tag⟩
  | .popped _ _ next tag => some ⟨next, tag⟩
  | _ => none

def Event.isFetch : Event Tid Addr → Bool
  | .fetched _ => true
  | _ => false

/-- The pairs stored by successful exchanges, oldest first. -/
def swaps (log : List (Event Tid Addr)) : List (TaggedPointer Addr) := log.filterMap Event.stored?

/-- Every pair ever stored into `top`, beginning with the constructor's. -/
def stores (log : List (Event Tid Addr)) : List (TaggedPointer Addr) := ⟨none, 0⟩ :: swaps log

def fetches (log : List (Event Tid Addr)) : ℕ := log.countP Event.isFetch

@[simp] theorem swaps_append (xs ys : List (Event Tid Addr)) :
    swaps (xs ++ ys) = swaps xs ++ swaps ys := List.filterMap_append

@[simp] theorem stores_append (xs ys : List (Event Tid Addr)) :
    stores (xs ++ ys) = stores xs ++ swaps ys := by simp [stores]

@[simp] theorem fetches_append (xs ys : List (Event Tid Addr)) :
    fetches (xs ++ ys) = fetches xs + fetches ys := List.countP_append

variable [DecidableEq Tid]

def Event.isSnapshotOf (t : Tid) : Event Tid Addr → Bool
  | .snapshot t' => t' = t
  | _ => false

private def sinceStep (t : Tid) (acc : List (TaggedPointer Addr)) (e : Event Tid Addr) :
    List (TaggedPointer Addr) :=
  if e.isSnapshotOf t then [] else acc ++ e.stored?.toList

/-- The pairs stored since thread `t` last obtained its `old_top`. -/
def swapsSince (t : Tid) (log : List (Event Tid Addr)) : List (TaggedPointer Addr) :=
  log.foldl (sinceStep t) []

@[simp] theorem swapsSince_concat (t : Tid) (log : List (Event Tid Addr))
    (e : Event Tid Addr) : swapsSince t (log ++ [e]) =
      if e.isSnapshotOf t then [] else swapsSince t log ++ e.stored?.toList := by
  simp [swapsSince, sinceStep]

/-- The tag a thread has drawn and not yet tried to install. -/
def Pc.drawn : Pc Addr → Option (BitVec 64)
  | .pushCas _ _ _ tag | .popCas _ _ _ tag => some tag
  | _ => none

/-- The snapshot of `top` that a thread holds. -/
def Pc.oldTop : Pc Addr → Option (TaggedPointer Addr)
  | .pushLink _ _ old | .pushFetch _ _ old | .pushCas _ _ old _ | .popReload old
  | .popTest old => some old
  | .popNext n tag | .popFetch n tag _ | .popCas n tag _ _ => some ⟨some n, tag⟩
  | _ => none

/-- Tags are drawn in order but installed out of order, and some are never installed:
what is kept is that installed and drawn tags are all different, and that tag 0, which
the constructor has used, can only be drawn by a push. -/
structure TagInv (s : State Tid Addr) (log : List (Event Tid Addr)) : Prop where
  counter : s.tagCounter.toNat = fetches log
  top : (stores log).getLast? = some s.top
  installed : ∀ tp ∈ swaps log, tp.tag.toNat < fetches log
  nodup : ((swaps log).map TaggedPointer.tag).Nodup
  notInitial : ⟨none, 0⟩ ∉ swaps log
  drawn : ∀ t tag, (s.pc t).drawn = some tag →
    tag.toNat < fetches log ∧ ∀ tp ∈ swaps log, tp.tag ≠ tag
  distinct : ∀ t t' tag, (s.pc t).drawn = some tag → (s.pc t').drawn = some tag → t = t'
  popTag : ∀ t n oldTag next tag, s.pc t = .popCas n oldTag next tag → tag ≠ 0
  snapshot : ∀ t old, (s.pc t).oldTop = some old →
    ∃ pre, stores log = pre ++ old :: swapsSince t log

theorem tagInv_initial [DecidableEq Addr] :
    TagInv (initial : State Tid Addr) ([] : List (Event Tid Addr)) := by
  constructor <;> simp [initial, stores, swaps, fetches, Pc.drawn, Pc.oldTop]

/-- Pairs are unique as soon as tags are: the constructor's pair is apart. -/
theorem TagInv.stores_nodup {s : State Tid Addr} {log : List (Event Tid Addr)}
    (h : TagInv s log) : (stores log).Nodup :=
  List.nodup_cons.mpr ⟨h.notInitial, h.nodup.of_map _⟩

/-- A snapshot equal to `top` is the last pair stored, so nothing was stored after it. -/
theorem TagInv.no_swap_since {s : State Tid Addr} {log : List (Event Tid Addr)}
    (h : TagInv s log) {t : Tid} (hold : (s.pc t).oldTop = some s.top) :
    swapsSince t log = [] := by
  obtain ⟨pre, hpre⟩ := h.snapshot t s.top hold
  have hnodup := h.stores_nodup
  have hlast := h.top
  rw [hpre] at hnodup hlast
  by_contra hne
  obtain ⟨x, hx⟩ : ∃ x, (swapsSince t log).getLast? = some x :=
    ⟨_, List.getLast?_eq_some_getLast hne⟩
  obtain rfl : x = s.top := by
    simpa [List.getLast?_append, List.getLast?_cons, hx] using hlast
  have htail := (List.nodup_append.mp hnodup).2.1
  exact (List.nodup_cons.mp htail).1 (List.mem_of_getLast? hx)

section Steps
variable {s s' : State Tid Addr} {log evs : List (Event Tid Addr)} {t : Tid} {p : Pc Addr}

/-- A step that neither draws a tag nor stores into `top`: the thread keeps its snapshot,
drops it, or takes a new one. -/
theorem TagInv.quiet (h : TagInv s log) (htop : s'.top = s.top)
    (hcounter : s'.tagCounter = s.tagCounter) (hpc : s'.pc = Function.update s.pc t p)
    (hdrawn : p.drawn = none)
    (hevs : evs = [] ∨ ∃ e, evs = [e] ∧ e.stored? = none ∧ e.isFetch = false ∧
      ∀ t', t' ≠ t → e.isSnapshotOf t' = false)
    (hold : ∀ old, p.oldTop = some old → (s.pc t).oldTop = some old ∧ evs = [] ∨
      old = s.top ∧ evs = [.snapshot t]) : TagInv s' (log ++ evs) := by
  have hswaps : swaps evs = [] := by
    rcases hevs with rfl | ⟨e, rfl, he, -⟩
    · rfl
    · simp [swaps, he]
  have hfetches : fetches evs = 0 := by
    rcases hevs with rfl | ⟨e, rfl, -, he, -⟩
    · rfl
    · simp [fetches, he]
  have hsince (t' : Tid) (ht : t' ≠ t) : swapsSince t' (log ++ evs) = swapsSince t' log := by
    rcases hevs with rfl | ⟨e, rfl, he, -, hs⟩
    · simp
    · simp [hs t' ht, he]
  have hpc' (t' : Tid) : s'.pc t' = if t' = t then p else s.pc t' := by
    rw [hpc, Function.update_apply]
  constructor
  · simpa [hcounter, hfetches] using h.counter
  · simpa [hswaps, htop] using h.top
  · simpa [hswaps, hfetches] using h.installed
  · simpa [hswaps] using h.nodup
  · simpa [hswaps] using h.notInitial
  · intro t' tag ht'
    rw [hpc'] at ht'
    split at ht'
    · simp [hdrawn] at ht'
    · simpa [hswaps, hfetches] using h.drawn t' tag ht'
  · intro t₁ t₂ tag h₁ h₂
    rw [hpc'] at h₁ h₂
    split at h₁
    · simp [hdrawn] at h₁
    · split at h₂
      · simp [hdrawn] at h₂
      · exact h.distinct t₁ t₂ tag h₁ h₂
  · intro t' n oldTag next tag ht'
    rw [hpc'] at ht'
    split at ht'
    · simp [ht', Pc.drawn] at hdrawn
    · exact h.popTag t' n oldTag next tag ht'
  · intro t' old ht'
    rw [hpc'] at ht'
    split at ht'
    · rename_i heq
      subst heq
      rcases hold old ht' with ⟨hkeep, rfl⟩ | ⟨rfl, rfl⟩
      · simpa using h.snapshot t' old hkeep
      · obtain ⟨pre, hpre⟩ := List.getLast?_eq_some_iff.mp h.top
        exact ⟨pre, by simp [swaps, Event.stored?, Event.isSnapshotOf, hpre]⟩
    · rename_i hne
      simpa [hswaps, hsince t' hne] using h.snapshot t' old ht'

/-- A `fetch_add`: the drawn tag is the number of earlier ones, hence new. -/
theorem TagInv.fetch (h : TagInv s log) (hbound : fetches log + 1 < 2 ^ 64)
    (hp : p.drawn = some s.tagCounter) (hold : p.oldTop = (s.pc t).oldTop)
    (hpop : ∀ n oldTag next tag, p = .popCas n oldTag next tag → 0 < fetches log) :
    TagInv (s.fetchAdd.goto t p) (log ++ [.fetched t]) := by
  have hcounter := h.counter
  have hswaps : swaps [Event.fetched t] = ([] : List (TaggedPointer Addr)) := rfl
  have hfetches : fetches [(.fetched t : Event Tid Addr)] = 1 := rfl
  have hpc (t' : Tid) : (s.fetchAdd.goto t p).pc t' = if t' = t then p else s.pc t' := by
    simp [State.goto, State.fetchAdd, Function.update_apply]
  have hsince (t' : Tid) : swapsSince t' (log ++ [.fetched t]) = swapsSince t' log := by
    simp [Event.isSnapshotOf, Event.stored?]
  have hnew (t' : Tid) (tag : BitVec 64) (ht' : (s.pc t').drawn = some tag) :
      tag ≠ s.tagCounter := by
    rintro rfl
    have := (h.drawn t' _ ht').1
    omega
  constructor
  · simp only [State.goto, State.fetchAdd, fetches_append, hfetches]
    rw [BitVec.toNat_add, hcounter]
    exact Nat.mod_eq_of_lt hbound
  · simpa [hswaps, State.goto, State.fetchAdd] using h.top
  · intro tp htp
    have := h.installed tp (by simpa [hswaps] using htp)
    simp only [fetches_append, hfetches]
    omega
  · simpa [hswaps] using h.nodup
  · simpa [hswaps] using h.notInitial
  · intro t' tag ht'
    simp only [fetches_append, hfetches, swaps_append, hswaps, List.append_nil]
    rw [hpc] at ht'
    split at ht'
    · obtain rfl := Option.some.inj (hp.symm.trans ht')
      refine ⟨by omega, fun tp htp he => ?_⟩
      have := h.installed tp htp
      rw [he] at this
      omega
    · have hd := h.drawn t' tag ht'
      exact ⟨by omega, hd.2⟩
  · intro t₁ t₂ tag h₁ h₂
    rw [hpc] at h₁ h₂
    split at h₁ <;> split at h₂
    · simp_all
    · exact absurd (Option.some.inj (h₁.symm.trans hp)) (hnew t₂ tag h₂)
    · exact absurd (Option.some.inj (h₂.symm.trans hp)) (hnew t₁ tag h₁)
    · exact h.distinct t₁ t₂ tag h₁ h₂
  · intro t' n oldTag next tag ht'
    rw [hpc] at ht'
    split at ht'
    · have hpos := hpop n oldTag next tag ht'
      obtain rfl : tag = s.tagCounter := by simpa [ht', Pc.drawn] using hp
      rintro hz
      rw [hz] at hcounter
      simp only [BitVec.ofNat_eq_ofNat, BitVec.toNat_ofNat, Nat.zero_mod] at hcounter
      omega
    · exact h.popTag t' n oldTag next tag ht'
  · intro t' old ht'
    rw [hpc] at ht'
    rw [hsince, stores_append, hswaps, List.append_nil]
    split at ht'
    · rename_i heq
      subst heq
      exact h.snapshot t' old (hold ▸ ht')
    · exact h.snapshot t' old ht'

/-- A successful exchange: the installed tag is the one the thread drew for it. -/
theorem TagInv.swap (h : TagInv s log) {tp : TaggedPointer Addr} {e : Event Tid Addr}
    (he : e.stored? = some tp) (hfetch : e.isFetch = false)
    (hsnap : ∀ t', e.isSnapshotOf t' = false) (hdrew : (s.pc t).drawn = some tp.tag)
    (hinit : tp ≠ ⟨none, 0⟩) (hpdrawn : p.drawn = none) (hpold : p.oldTop = none) :
    TagInv ((s.setTop tp).goto t p) (log ++ [e]) := by
  have hswaps : swaps [e] = [tp] := by simp [swaps, he]
  have hfetches : fetches [e] = 0 := by simp [fetches, hfetch]
  have hpc (t' : Tid) : ((s.setTop tp).goto t p).pc t' = if t' = t then p else s.pc t' := by
    simp [State.goto, State.setTop, Function.update_apply]
  have hsince (t' : Tid) : swapsSince t' (log ++ [e]) = swapsSince t' log ++ [tp] := by
    simp [hsnap t', he]
  obtain ⟨htag, hunused⟩ := h.drawn t tp.tag hdrew
  constructor
  · simpa [State.goto, State.setTop, hfetches] using h.counter
  · simp [hswaps, State.goto, State.setTop]
  · intro tp' htp'
    rw [swaps_append, hswaps, List.mem_append, List.mem_singleton] at htp'
    rw [fetches_append, hfetches, Nat.add_zero]
    rcases htp' with hold | rfl
    · exact h.installed tp' hold
    · exact htag
  · rw [swaps_append, hswaps, List.map_append, List.nodup_append]
    refine ⟨h.nodup, by simp, fun a ha b hb hab => ?_⟩
    obtain ⟨tp', htp', rfl⟩ := List.mem_map.mp ha
    exact hunused tp' htp' (hab.trans (by simpa using hb))
  · simp only [swaps_append, hswaps, List.mem_append, List.mem_singleton, not_or]
    exact ⟨h.notInitial, hinit.symm⟩
  · intro t' tag ht'
    rw [hpc] at ht'
    split at ht'
    · simp [hpdrawn] at ht'
    · rename_i hne
      obtain ⟨hlt, hfree⟩ := h.drawn t' tag ht'
      refine ⟨by simpa [hfetches] using hlt, fun tp' htp' => ?_⟩
      rw [swaps_append, hswaps, List.mem_append, List.mem_singleton] at htp'
      rcases htp' with hold | rfl
      · exact hfree tp' hold
      · rintro rfl
        exact hne (h.distinct t' t _ ht' hdrew)
  · intro t₁ t₂ tag h₁ h₂
    rw [hpc] at h₁ h₂
    split at h₁
    · simp [hpdrawn] at h₁
    · split at h₂
      · simp [hpdrawn] at h₂
      · exact h.distinct t₁ t₂ tag h₁ h₂
  · intro t' n oldTag next tag ht'
    rw [hpc] at ht'
    split at ht'
    · simp [ht', Pc.drawn] at hpdrawn
    · exact h.popTag t' n oldTag next tag ht'
  · intro t' old ht'
    rw [hpc] at ht'
    split at ht'
    · simp [hpold] at ht'
    · obtain ⟨pre, hpre⟩ := h.snapshot t' old ht'
      exact ⟨pre, by rw [hsince, stores_append, hpre, hswaps, List.append_assoc,
        List.cons_append]⟩

/-- A thread that has seen a node on the stack holds an installed tag, so a tag was
drawn before. -/
theorem TagInv.fetched_of_node (h : TagInv s log) {n : Addr} {oldTag : BitVec 64}
    (hold : (s.pc t).oldTop = some ⟨some n, oldTag⟩) : 0 < fetches log := by
  obtain ⟨pre, hpre⟩ := h.snapshot t _ hold
  have hmem : ⟨some n, oldTag⟩ ∈ stores log := by rw [hpre]; simp
  rcases List.mem_cons.mp hmem with heq | hmem
  · simp at heq
  · exact Nat.zero_lt_of_lt (h.installed _ hmem)

end Steps

variable [DecidableEq Addr]

theorem TagInv.step {s s' : State Tid Addr} {log evs : List (Event Tid Addr)} {t : Tid}
    (h : TagInv s log) (hs : Step s t s' evs) (hbound : fetches (log ++ evs) < 2 ^ 64) :
    TagInv s' (log ++ evs) := by
  have hquiet {e : Event Tid Addr} (h₁ : e.stored? = none) (h₂ : e.isFetch = false)
      (h₃ : ∀ t', t' ≠ t → e.isSnapshotOf t' = false) :
      [e] = [] ∨ ∃ e', [e] = [e'] ∧ e'.stored? = none ∧ e'.isFetch = false ∧
        ∀ t', t' ≠ t → e'.isSnapshotOf t' = false := .inr ⟨e, rfl, h₁, h₂, h₃⟩
  have hsnap (t' : Tid) (ht : t' ≠ t) :
      (Event.snapshot t : Event Tid Addr).isSnapshotOf t' = false := by
    simp [Event.isSnapshotOf, ht.symm]
  have hloop : [Event.snapshot t] = ([] : List (Event Tid Addr)) ∨ _ := hquiet rfl rfl hsnap
  cases hs with
  | callPush hpc =>
    exact h.quiet rfl rfl rfl rfl (hquiet rfl rfl fun _ _ => rfl) (by simp [Pc.oldTop])
  | callPop hpc =>
    exact h.quiet rfl rfl rfl rfl (hquiet rfl rfl fun _ _ => rfl) (by simp [Pc.oldTop])
  | alloc hpc => exact h.quiet rfl rfl rfl rfl (.inl rfl) (by simp [Pc.oldTop])
  | pushLoad hpc => exact h.quiet rfl rfl rfl rfl hloop (by simp [Pc.oldTop])
  | pushLink hpc => exact h.quiet rfl rfl rfl rfl (.inl rfl) (by simp [hpc, Pc.oldTop])
  | pushFetch hpc =>
    apply h.fetch (by simpa [fetches, Event.isFetch] using hbound) rfl (by simp [hpc, Pc.oldTop])
    simp
  | pushed hpc =>
    exact h.swap rfl rfl (fun _ => rfl) (by simp [hpc, Pc.drawn]) (by simp) rfl rfl
  | pushRetry hpc => exact h.quiet rfl rfl rfl rfl hloop (by simp [Pc.oldTop])
  | popLoad hpc => exact h.quiet rfl rfl rfl rfl hloop (by simp [Pc.oldTop])
  | popReload hpc => exact h.quiet rfl rfl rfl rfl (.inl rfl) (by simp [hpc, Pc.oldTop])
  | popEmpty hpc =>
    exact h.quiet rfl rfl rfl rfl (hquiet rfl rfl fun _ _ => rfl) (by simp [Pc.oldTop])
  | popTest hpc => exact h.quiet rfl rfl rfl rfl (.inl rfl) (by simp [hpc, Pc.oldTop])
  | popNext hpc => exact h.quiet rfl rfl rfl rfl (.inl rfl) (by simp [hpc, Pc.oldTop])
  | popFetch hpc =>
    apply h.fetch (by simpa [fetches, Event.isFetch] using hbound) rfl (by simp [hpc, Pc.oldTop])
    -- a pop draws its tag only after it has seen a node
    exact fun _ _ _ _ _ => h.fetched_of_node (by rw [hpc]; rfl)
  | popped hpc htop =>
    refine h.swap rfl rfl (fun _ => rfl) (by simp [hpc, Pc.drawn]) ?_ rfl rfl
    exact fun he => h.popTag t _ _ _ _ hpc (congrArg TaggedPointer.tag he)
  | popRetry hpc => exact h.quiet rfl rfl rfl rfl hloop (by simp [Pc.oldTop])
  | popKey hpc => exact h.quiet rfl rfl rfl rfl (.inl rfl) (by simp [Pc.oldTop])
  | popDelete hpc =>
    exact h.quiet rfl rfl rfl rfl (hquiet rfl rfl fun _ _ => rfl) (by simp [Pc.oldTop])

theorem tagInv_of_run {s : State Tid Addr} {log : List (Event Tid Addr)}
    (hrun : (system Tid Addr).Run s log) : fetches log < 2 ^ 64 → TagInv s log := by
  refine hrun.invariant (I := fun s log => fetches log < 2 ^ 64 → TagInv s log)
    (fun _ => tagInv_initial) ?_
  intro s log a s' evs _ ih _ hs hbound
  have hprefix : fetches log < 2 ^ 64 := by
    rw [fetches_append] at hbound
    omega
  exact (ih hprefix).step (step_cases hs) hbound

/-- In every interleaving with fewer than `2 ^ 64` draws of a tag, no pair is stored into
`top` twice, the constructor's included; and an exchange succeeds only if no exchange has
succeeded since the thread obtained its snapshot. -/
theorem tagged_pairs_never_repeat {s : State Tid Addr} {log : List (Event Tid Addr)}
    (hrun : (system Tid Addr).Run s log) (hbound : fetches log < 2 ^ 64) :
    (stores log).Nodup ∧ ∀ t spurious s' evs,
      (system Tid Addr).step s (.compareExchange t spurious) = some (s', evs) →
        swaps evs ≠ [] → swapsSince t log = [] := by
  have h := tagInv_of_run hrun hbound
  refine ⟨h.stores_nodup, fun t spurious s' evs hs hne => ?_⟩
  change LockFreeStack.step s (.compareExchange t spurious) = _ at hs
  have hstep : Step s t s' evs := step_cases hs
  apply h.no_swap_since
  cases hstep with
  | pushed hpc => rw [hpc]; rfl
  | popped hpc htop => rw [hpc, htop]; rfl
  | _ => exact absurd rfl hne

/-- Thread 1 is about to exchange when thread 2 pops the same node and thread 0 pushes a
new one at the same address; the exchange fails, and the retry succeeds. -/
def reuseRun : List (Act ℕ ℕ) :=
  [.push 0 7, .alloc 0 100, .run 0, .run 0, .run 0, .compareExchange 0 false,
    .pop 1, .run 1, .run 1, .run 1, .readNext 1 none, .run 1,
    .pop 2, .run 2, .run 2, .run 2, .readNext 2 none, .run 2, .compareExchange 2 false,
    .readKey 2 0, .run 2,
    .push 0 8, .alloc 0 100, .run 0, .run 0, .run 0, .compareExchange 0 false,
    .compareExchange 1 false, .run 1, .readNext 1 none, .run 1, .compareExchange 1 false,
    .readKey 1 0, .run 1]

theorem tagged_pairs_never_repeat_reuse : ∃ s log, (system ℕ ℕ).Run s log ∧
    (stores log).length = 5 ∧ (stores log).Nodup := by
  obtain ⟨s, log, hrun, hlog⟩ := exists_run_of_exec (system ℕ ℕ) (fun _ _ => True) reuseRun
    (fun _ log => decide (fetches log < 2 ^ 64 ∧ (stores log).length = 5)) (by decide)
  obtain ⟨hbound, hlen⟩ := of_decide_eq_true hlog
  exact ⟨s, log, hrun, hlen, (tagged_pairs_never_repeat hrun hbound).1⟩

end LockFreeStack
