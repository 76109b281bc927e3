import LowLevelCpp.LockFreeStack.Linearizable

/-! The key `0` is both a key and the empty result of `pop`: what a consumer that retries
`while((val = stack.pop()) == 0)` collects, and when that accounts for every key. -/
namespace LockFreeStack
open Foundations Foundations.System

variable {Tid Addr : Type}

/-- What a call of `pop` returns; `return 0` is its exit on an empty stack. -/
def Event.popResult? : Event Tid Addr → Option (Tid × ℤ)
  | .returned t key => some (t, key)
  | .empty t => some (t, 0)
  | _ => none

def Event.returnedKey? : Event Tid Addr → Option ℤ
  | .returned _ key => some key
  | _ => none

def Event.removal? : Event Tid Addr → Option Tid
  | .popped t _ _ _ => some t
  | _ => none

/-- The results with which the loop of `consume` ends; any other is tried again. -/
def collected (log : List (Event Tid Addr)) : List (Tid × ℤ) :=
  (log.filterMap Event.popResult?).filter fun p => p.2 ≠ 0

/-- A `pop` that has taken a node and has not returned its key. -/
def Pc.inTransit : Pc Addr → Prop
  | .popKey _ | .popDelete _ _ => True
  | _ => False

instance : DecidablePred fun p : Pc Addr => p.inTransit := fun p => by
  cases p <;> unfold Pc.inTransit <;> infer_instance

/-- A `pop` that has not yet taken a node. -/
def Pc.searching : Pc Addr → Prop
  | .popLoad | .popReload _ | .popTest _ | .popNext _ _ | .popFetch _ _ _ | .popCas _ _ _ _ => True
  | _ => False

/-- The key that a call of `push` carries. -/
def Pc.pushKey? : Pc Addr → Option ℤ
  | .pushNew key | .pushLoad key _ | .pushLink key _ _ | .pushFetch key _ _
  | .pushCas key _ _ _ => some key
  | _ => none

/-- No call pushes the key `0`. -/
def NonzeroKeys (_ : State Tid Addr) : Act Tid Addr → Prop
  | .push _ key => key ≠ 0
  | _ => True

instance (s : State Tid Addr) (act : Act Tid Addr) : Decidable (NonzeroKeys s act) := by
  cases act <;> unfold NonzeroKeys <;> infer_instance

variable [DecidableEq Tid]

section Calls
variable [DecidableEq Addr]

/-- The events since the last call of `t`, newest first. -/
def sinceCall (t : Tid) (log : List (Event Tid Addr)) : List (Event Tid Addr) :=
  log.reverse.takeWhile fun e => e ≠ .called t

/-- The current call of `t` has removed nothing. -/
def Unremoved (t : Tid) (log : List (Event Tid Addr)) : Prop :=
  ∀ e ∈ sinceCall t log, e.removal? ≠ some t

instance (t : Tid) (log : List (Event Tid Addr)) : Decidable (Unremoved t log) :=
  inferInstanceAs (Decidable (∀ e ∈ sinceCall t log, e.removal? ≠ some t))

theorem sinceCall_concat (t : Tid) (log : List (Event Tid Addr)) (e : Event Tid Addr) :
    sinceCall t (log ++ [e]) = if e = .called t then [] else e :: sinceCall t log := by
  by_cases he : e = .called t <;> simp [sinceCall, he]

theorem unremoved_called (t : Tid) (log : List (Event Tid Addr)) :
    Unremoved t (log ++ [.called t]) := by
  simp [Unremoved, sinceCall_concat]

theorem Unremoved.append {t : Tid} {log evs : List (Event Tid Addr)} (h : Unremoved t log)
    (hevs : ∀ e ∈ evs, e.removal? ≠ some t) : Unremoved t (log ++ evs) := by
  induction evs using List.reverseRecOn with
  | nil => simpa using h
  | append_singleton evs e ih =>
    have hpre := ih fun e' he' => hevs e' (by simp [he'])
    unfold Unremoved at hpre ⊢
    rw [← List.append_assoc, sinceCall_concat]
    split
    · simp
    · intro e' hmem
      rcases List.mem_cons.mp hmem with rfl | hmem
      · exact hevs e' (by simp)
      · exact hpre e' hmem

theorem Unremoved.of_append {t : Tid} {log evs : List (Event Tid Addr)}
    (h : Unremoved t (log ++ evs)) (hcalled : .called t ∉ evs) :
    Unremoved t log ∧ ∀ e ∈ evs, e.removal? ≠ some t := by
  induction evs using List.reverseRecOn with
  | nil => simpa using h
  | append_singleton evs e ih =>
    simp only [List.mem_append, List.mem_singleton, not_or] at hcalled
    unfold Unremoved at h
    rw [← List.append_assoc, sinceCall_concat, if_neg (Ne.symm hcalled.2)] at h
    obtain ⟨hlog, hevs⟩ := ih (fun e' he' => h e' (List.mem_cons_of_mem _ he')) hcalled.1
    refine ⟨hlog, fun e' he' => ?_⟩
    rcases List.mem_append.mp he' with he' | he'
    · exact hevs e' he'
    · rw [List.mem_singleton.mp he']
      exact h e List.mem_cons_self

/-- `pop` returns `0` only if it removed nothing, because the stack was empty at some
moment of the call. -/
def ZeroMeansEmpty (log : List (Event Tid Addr)) : Prop :=
  AtEach (fun pre e => ∀ t, e.popResult? = some (t, 0) → Unremoved t pre ∧ SawEmpty t pre) log

/-- Every pushed key has been collected, is in transit or is still on the stack. -/
def Accounted (s : State Tid Addr) (log : List (Event Tid Addr)) : Prop :=
  ∃ (stack : List Addr) (transit : List Tid), Path s.link s.top.node stack none ∧
    transit.Nodup ∧ (∀ t, t ∈ transit ↔ (s.pc t).inTransit) ∧
    (log.filterMap Event.pushed?).length =
      (collected log).length + transit.length + stack.length

end Calls

section Step
variable {s s' : State Tid Addr} {t : Tid} {p : Pc Addr} {log evs : List (Event Tid Addr)}

theorem pushKey_goto {key : ℤ} {t' : Tid} (hpc : s'.pc = Function.update s.pc t p)
    (hp : p.pushKey? = some key → (s.pc t).pushKey? = some key)
    (h : (s'.pc t').pushKey? = some key) : (s.pc t').pushKey? = some key := by
  by_cases ht : t' = t
  · subst ht
    rw [hpc, Function.update_self] at h
    exact hp h
  · rwa [hpc, Function.update_of_ne ht] at h

variable [DecidableEq Addr]

theorem idle_step {act : Act Tid Addr} (hs : step s act = some (s', evs))
    (hpc : s.pc act.thread = .idle) :
    (∃ key, act = .push act.thread key ∧ s' = s.goto act.thread (.pushNew key)) ∨
      s' = s.goto act.thread .popLoad := by
  cases act with
  | push t key =>
    simp only [Act.thread] at hpc
    simp only [step, hpc, Option.some.injEq, Prod.mk.injEq] at hs
    exact .inl ⟨key, rfl, hs.1.symm⟩
  | pop t =>
    simp only [Act.thread] at hpc
    simp only [step, hpc, Option.some.injEq, Prod.mk.injEq] at hs
    exact .inr hs.1.symm
  | _ =>
    simp only [Act.thread] at hpc
    simp [step, hpc] at hs

/-- Only a call of `push` brings in a key. -/
theorem pushKey_step {act : Act Tid Addr} {key : ℤ} {t' : Tid}
    (hs : step s act = some (s', evs)) (hact : ∀ t, act ≠ .push t key)
    (h : (s'.pc t').pushKey? = some key) : (s.pc t').pushKey? = some key := by
  by_cases hidle : s.pc act.thread = .idle
  · rcases idle_step hs hidle with ⟨key', ha, rfl⟩ | rfl
    · refine pushKey_goto rfl (fun hk => ?_) h
      obtain rfl : key' = key := by simpa [Pc.pushKey?] using hk
      exact absurd ha (hact _)
    · exact pushKey_goto rfl (by simp [Pc.pushKey?]) h
  · cases step_cases hs with
    | callPush hpc | callPop hpc => exact absurd hpc hidle
    | alloc hpc | pushLoad hpc | pushLink hpc | pushFetch hpc | pushed hpc | pushRetry hpc =>
      exact pushKey_goto rfl (by simp [hpc, Pc.pushKey?]) h
    | popLoad hpc | popReload hpc | popEmpty hpc | popTest hpc | popNext hpc | popFetch hpc
    | popped hpc | popRetry hpc | popKey hpc | popDelete hpc =>
      exact pushKey_goto rfl (by simp [Pc.pushKey?]) h

/-- A successful exchange of `push` publishes the key of the call. -/
theorem pushed_step (hs : Step s t s' evs) {q : Addr × ℤ}
    (hq : q ∈ evs.filterMap Event.pushed?) : (s.pc t).pushKey? = some q.2 := by
  cases hs with
  | pushed hpc =>
    obtain rfl : q = _ := by simpa [Event.pushed?] using hq
    rw [hpc]
    rfl
  | _ => simp [Event.pushed?] at hq

/-- No call carries the key `0` and none has published it. -/
structure KeyInv (s : State Tid Addr) (log : List (Event Tid Addr)) : Prop where
  pending : ∀ t, (s.pc t).pushKey? ≠ some 0
  pushed : ∀ q ∈ log.filterMap Event.pushed?, q.2 ≠ 0

theorem KeyInv.step {act : Act Tid Addr} (h : KeyInv s log) (hs : step s act = some (s', evs))
    (hact : ∀ t, act ≠ .push t 0) : KeyInv s' (log ++ evs) := by
  constructor
  · exact fun t hkey => h.pending t (pushKey_step hs hact hkey)
  · intro q hq hzero
    rw [List.filterMap_append, List.mem_append] at hq
    rcases hq with hq | hq
    · exact h.pushed q hq hzero
    · exact h.pending _ (hzero ▸ pushed_step (step_cases hs) hq)

theorem searching_goto {t' : Tid} (hpc : s'.pc = Function.update s.pc t p)
    (ih : ∀ t, (s.pc t).searching → Unremoved t log)
    (hevs : ∀ e ∈ evs, ∀ t', e.removal? = some t' → t' = t ∧ ¬ p.searching)
    (hself : p.searching → (s.pc t).searching ∨ evs = [.called t])
    (h : (s'.pc t').searching) : Unremoved t' (log ++ evs) := by
  by_cases ht : t' = t
  · subst ht
    rw [hpc, Function.update_self] at h
    rcases hself h with hold | rfl
    · exact (ih t' hold).append fun e he hrem => (hevs e he t' hrem).2 h
    · exact unremoved_called t' log
  · rw [hpc, Function.update_of_ne ht] at h
    exact (ih t' h).append fun e he hrem => ht (hevs e he t' hrem).1

/-- While a call of `pop` looks for a node it has removed none. -/
theorem searching_step (hs : Step s t s' evs) (ih : ∀ t, (s.pc t).searching → Unremoved t log)
    {t' : Tid} (h : (s'.pc t').searching) : Unremoved t' (log ++ evs) := by
  cases hs with
  | callPush hpc | callPop hpc =>
    exact searching_goto rfl ih (by simp [Event.removal?]) (by simp) h
  | alloc hpc | pushLoad hpc | pushLink hpc | pushFetch hpc | pushed hpc | pushRetry hpc
  | popEmpty hpc | popped hpc | popKey hpc | popDelete hpc =>
    exact searching_goto rfl ih (by simp [Event.removal?, Pc.searching])
      (by simp [Pc.searching]) h
  | popLoad hpc | popReload hpc | popTest hpc | popNext hpc | popFetch hpc | popRetry hpc =>
    exact searching_goto rfl ih (by simp [Event.removal?]) (by simp [hpc, Pc.searching]) h

theorem transit_goto {t' : Tid} (hpc : s'.pc = Function.update s.pc t p)
    (ih : ∀ t, (s.pc t).inTransit → ¬ Unremoved t log)
    (hevs : ∀ t', .called t' ∈ evs → t' = t ∧ ¬ p.inTransit)
    (hself : p.inTransit → (s.pc t).inTransit ∨ ∃ e ∈ evs, e.removal? = some t)
    (h : (s'.pc t').inTransit) : ¬ Unremoved t' (log ++ evs) := by
  intro hun
  by_cases ht : t' = t
  · subst ht
    rw [hpc, Function.update_self] at h
    obtain ⟨hlog, hnone⟩ := hun.of_append fun hc => (hevs t' hc).2 h
    rcases hself h with hold | ⟨e, he, hrem⟩
    · exact ih t' hold hlog
    · exact hnone e he hrem
  · rw [hpc, Function.update_of_ne ht] at h
    exact ih t' h (hun.of_append fun hc => ht (hevs t' hc).1).1

/-- Between its exchange and its return a call of `pop` has removed a node. -/
theorem transit_step (hs : Step s t s' evs) (ih : ∀ t, (s.pc t).inTransit → ¬ Unremoved t log)
    {t' : Tid} (h : (s'.pc t').inTransit) : ¬ Unremoved t' (log ++ evs) := by
  cases hs with
  | popped hpc => exact transit_goto rfl ih (by simp) (by simp [Event.removal?]) h
  | popKey hpc => exact transit_goto rfl ih (by simp) (by simp [hpc, Pc.inTransit]) h
  | _ => exact transit_goto rfl ih (by simp [Pc.inTransit]) (by simp [Pc.inTransit]) h

/-- Every empty exit in the history is the exit of a call that has removed nothing. -/
def EmptyUnremoved (log : List (Event Tid Addr)) : Prop :=
  AtEach (fun pre e => ∀ t, e = .empty t → Unremoved t pre) log

/-- Every key in the history was returned by a call that has removed a node. -/
def ReturnedRemoved (log : List (Event Tid Addr)) : Prop :=
  AtEach (fun pre e => ∀ t key, e = .returned t key → ¬ Unremoved t pre) log

/-- Which calls of `pop` have removed a node. -/
structure Removals (s : State Tid Addr) (log : List (Event Tid Addr)) : Prop where
  searching : ∀ t, (s.pc t).searching → Unremoved t log
  transit : ∀ t, (s.pc t).inTransit → ¬ Unremoved t log
  empty : EmptyUnremoved log
  returned : ReturnedRemoved log

theorem Removals.emptyUnremoved (h : Removals s log) (hs : Step s t s' evs) :
    EmptyUnremoved (log ++ evs) := by
  cases hs with
  | popEmpty hpc =>
    refine h.empty.concat fun t' he => ?_
    obtain rfl := Event.empty.inj he
    exact h.searching _ (by simp [hpc, Pc.searching])
  | alloc | pushLink | popReload | popTest | popNext | popKey =>
    rw [List.append_nil]
    exact h.empty
  | _ => exact h.empty.concat (by simp)

theorem Removals.returnedRemoved (h : Removals s log) (hs : Step s t s' evs) :
    ReturnedRemoved (log ++ evs) := by
  cases hs with
  | popDelete hpc =>
    refine h.returned.concat fun t' key he => ?_
    obtain ⟨rfl, -⟩ := Event.returned.inj he
    exact h.transit _ (by simp [hpc, Pc.inTransit])
  | alloc | pushLink | popReload | popTest | popNext | popKey =>
    rw [List.append_nil]
    exact h.returned
  | _ => exact h.returned.concat (by simp)

theorem Removals.step (h : Removals s log) (hs : Step s t s' evs) : Removals s' (log ++ evs) :=
  ⟨fun _ => searching_step hs h.searching, fun _ => transit_step hs h.transit,
    h.emptyUnremoved hs, h.returnedRemoved hs⟩

omit [DecidableEq Addr] in
/-- The threads that hold an element are those between the exchange and the return. -/
theorem Abstracts.mem_held_iff {a : Lifo Tid Addr} (h : Abstracts s a) (t : Tid) :
    t ∈ a.held.map Prod.fst ↔ (s.pc t).inTransit := by
  have hok := h.threads t
  rw [← not_iff_not, ← heldBy_eq_none]
  cases hpc : s.pc t with
  | popKey n | popDelete n key =>
    rw [hpc] at hok
    obtain ⟨-, e, -, hheld, -⟩ := hok
    simp [hheld, Pc.inTransit]
  | pushLoad | pushLink | pushFetch | pushCas =>
    rw [hpc] at hok
    simp [hok.2.2, Pc.inTransit]
  | popFetch | popCas =>
    rw [hpc] at hok
    simp [hok.2, Pc.inTransit]
  | _ =>
    rw [hpc] at hok
    simp only [Pc.inTransit, not_false_eq_true, iff_true]
    exact hok

/-- The keys with which calls have returned, in the order of the returns. -/
theorem returned_keys {a : Lifo Tid Addr} (h : lifo.replay log = some a) :
    log.filterMap Event.returnedKey? = a.returned.map Elem.key := by
  refine lifo.invariant (I := fun a log =>
    log.filterMap Event.returnedKey? = a.returned.map Elem.key) h rfl ?_
  intro a log e a' ih haccept
  rw [List.filterMap_append, ih]
  cases e with
  | returned t key =>
    simp only [lifo, Lifo.accept] at haccept
    split at haccept
    · cases haccept
    · split at haccept <;> cases haccept
      rename_i hkey
      simp [Event.returnedKey?, hkey]
  | popped t n next tag =>
    simp only [lifo, Lifo.accept] at haccept
    split at haccept
    · cases haccept
    · split at haccept <;> cases haccept
      simp [Event.returnedKey?]
  | _ =>
    cases haccept
    simp [Event.returnedKey?]

omit [DecidableEq Tid] [DecidableEq Addr] in
/-- The consumers collect the returned keys that are not `0`. -/
theorem collected_keys (log : List (Event Tid Addr)) :
    (collected log).map Prod.snd = (log.filterMap Event.returnedKey?).filter (· ≠ 0) := by
  induction log with
  | nil => rfl
  | cons e log ih =>
    unfold collected at ih ⊢
    cases e with
    | returned t key =>
      by_cases hkey : key = 0 <;>
        simpa [Event.popResult?, Event.returnedKey?, List.filterMap_cons, hkey] using ih
    | _ => simpa [Event.popResult?, Event.returnedKey?, List.filterMap_cons] using ih

omit [DecidableEq Tid] [DecidableEq Addr] in
/-- They collect all of them exactly if none is `0`. -/
theorem collected_length_iff (log : List (Event Tid Addr)) :
    (collected log).length = (log.filterMap Event.returnedKey?).length ↔
      ∀ t, .returned t 0 ∉ log := by
  rw [← List.length_map (f := Prod.snd), collected_keys, List.length_filter_eq_length_iff]
  constructor
  · intro h t hmem
    simpa using h 0 (List.mem_filterMap.mpr ⟨_, hmem, rfl⟩)
  · intro h key hkey
    obtain ⟨e, he, hret⟩ := List.mem_filterMap.mp hkey
    cases e with
    | returned t key' =>
      obtain rfl : key' = key := by simpa [Event.returnedKey?] using hret
      have hne : key' ≠ 0 := fun hzero => h t (hzero ▸ he)
      simpa using hne
    | _ => simp [Event.returnedKey?] at hret

omit [DecidableEq Tid] [DecidableEq Addr] in
theorem pushed_of_mem_elems {e : Elem Addr} (he : e ∈ pushedElems log) :
    (e.node, e.key) ∈ log.filterMap Event.pushed? := by
  obtain ⟨i, hi, rfl⟩ := List.mem_mapIdx.mp he
  exact List.getElem_mem hi

end Step

variable [DecidableEq Addr]

theorem keyInv_of_run {s : State Tid Addr} {log : List (Event Tid Addr)}
    (hrun : (system Tid Addr).RunWhere NonzeroKeys s log) : KeyInv s log := by
  refine hrun.invariant (I := KeyInv) ?_ fun s log act s' evs _ ih hact hs => ?_
  · exact ⟨by simp [system, initial, Pc.pushKey?], by simp⟩
  · refine ih.step hs fun t he => ?_
    exact absurd hact (by simp [he, NonzeroKeys])

/-- Without a key `0` that is pushed none is returned. -/
theorem returned_ne_zero {s : State Tid Addr} {log : List (Event Tid Addr)} {a : Lifo Tid Addr}
    {e : Elem Addr} (hrun : (system Tid Addr).RunWhere NonzeroKeys s log)
    (hreplay : lifo.replay log = some a) (he : e ∈ a.returned) : e.key ≠ 0 := by
  have hmem : e ∈ pushedElems log := (lifo_conserved hreplay).elems.mem_iff.mpr (by simp [he])
  exact (keyInv_of_run hrun).pushed _ (pushed_of_mem_elems hmem)

theorem removals_of_run {s : State Tid Addr} {log : List (Event Tid Addr)}
    (hrun : (system Tid Addr).Run s log) : Removals s log := by
  refine hrun.invariant (I := Removals) ?_ fun s log act s' evs _ ih _ hs => ih.step (step_cases hs)
  refine ⟨?_, ?_, atEach_nil _, atEach_nil _⟩ <;>
    simp [system, initial, Pc.searching, Pc.inTransit]

/-- While fewer than `2 ^ 64` tags have been drawn, `0` stands for an empty stack in exactly the
runs in which no call returns a key `0` that it has removed. -/
theorem zeroMeansEmpty_iff {s : State Tid Addr} {log : List (Event Tid Addr)}
    (hrun : (system Tid Addr).Run s log) (hbound : fetches log < 2 ^ 64) :
    ZeroMeansEmpty log ↔ ∀ t, .returned t 0 ∉ log := by
  have hremovals := removals_of_run hrun
  obtain ⟨-, -, hjustified⟩ := abstracts_of_run hrun hbound
  constructor
  · intro hzero t hmem
    obtain ⟨pre, post, hlog⟩ := List.append_of_mem hmem
    exact hremovals.returned pre _ post hlog t 0 rfl (hzero pre _ post hlog t rfl).1
  · intro hnone pre e post hlog t hresult
    cases e with
    | returned t' key =>
      obtain ⟨rfl, rfl⟩ : t' = t ∧ key = 0 := by simpa [Event.popResult?] using hresult
      exact absurd (by simp [hlog]) (hnone t')
    | empty t' =>
      obtain rfl : t' = t := by simpa [Event.popResult?] using hresult
      exact ⟨hremovals.empty pre _ post hlog t' rfl, hjustified pre _ post hlog t' rfl⟩
    | _ => simp [Event.popResult?] at hresult

/-- In these runs, and in no others, the consumers account for every key. -/
theorem accounted_iff {s : State Tid Addr} {log : List (Event Tid Addr)}
    (hrun : (system Tid Addr).Run s log) (hbound : fetches log < 2 ^ 64) :
    Accounted s log ↔ ∀ t, .returned t 0 ∉ log := by
  obtain ⟨⟨a, hreplay, hrel⟩, -, -⟩ := abstracts_of_run hrun hbound
  have hconserved := lifo_conserved hreplay
  have helems := hconserved.elems.length_eq
  have hreturned : (log.filterMap Event.returnedKey?).length = a.returned.length := by
    rw [returned_keys hreplay, List.length_map]
  simp only [pushedElems, List.length_mapIdx, List.length_append, List.length_map] at helems
  rw [← collected_length_iff, hreturned]
  constructor
  · rintro ⟨stack, transit, hchain, hnodup, htransit, hlength⟩
    obtain rfl := hchain.unique hrel.chain
    have hperm : transit.Perm (a.held.map Prod.fst) :=
      (List.perm_ext_iff_of_nodup hnodup hconserved.holders).mpr fun t =>
        (htransit t).trans (hrel.mem_held_iff t).symm
    have hsame := hperm.length_eq
    simp only [Lifo.nodes, List.length_map] at hsame hlength
    omega
  · intro hcollected
    refine ⟨a.stack.map Elem.node, a.held.map Prod.fst, hrel.chain, hconserved.holders,
      hrel.mem_held_iff, ?_⟩
    simp only [List.length_map]
    omega

/-- When no call pushes the key `0` and fewer than `2 ^ 64` tags have been drawn, a `pop`
returns `0` only when it removed nothing from a stack that was empty at some moment of the
call, and consumers that retry on `0` account for every key. -/
theorem nonzero_keys_accounted {s : State Tid Addr} {log : List (Event Tid Addr)}
    (hrun : (system Tid Addr).RunWhere NonzeroKeys s log) (hbound : fetches log < 2 ^ 64) :
    ZeroMeansEmpty log ∧ Accounted s log := by
  have hany : (system Tid Addr).Run s log := hrun.mono fun _ _ _ => trivial
  obtain ⟨⟨a, hreplay, -⟩, -, -⟩ := abstracts_of_run hany hbound
  have hnone : ∀ t, .returned t 0 ∉ log := by
    intro t hmem
    have hkey : (0 : ℤ) ∈ log.filterMap Event.returnedKey? :=
      List.mem_filterMap.mpr ⟨_, hmem, rfl⟩
    rw [returned_keys hreplay] at hkey
    obtain ⟨e, he, hzero⟩ := List.mem_map.mp hkey
    exact returned_ne_zero hrun hreplay he hzero
  exact ⟨(zeroMeansEmpty_iff hany hbound).mpr hnone, (accounted_iff hany hbound).mpr hnone⟩

theorem nonzero_keys_accounted_reuse : ∃ s log, (system ℕ ℕ).RunWhere NonzeroKeys s log ∧
    collected log = [(2, 7), (1, 8)] ∧ ZeroMeansEmpty log ∧ Accounted s log := by
  obtain ⟨s, log, hrun, hlog⟩ := exists_run_of_exec (system ℕ ℕ) NonzeroKeys reuseRun
    (fun _ log => decide (fetches log < 2 ^ 64 ∧ collected log = [(2, 7), (1, 8)])) (by decide)
  obtain ⟨hbound, hcollected⟩ := of_decide_eq_true hlog
  exact ⟨s, log, hrun, hcollected, nonzero_keys_accounted hrun hbound⟩

/-- One thread pushes the key `0`, another pops it. -/
def zeroRun : List (Act Bool ℕ) :=
  [.push false 0, .alloc false 100, .run false, .run false, .run false,
    .compareExchange false false, .pop true, .run true, .run true, .run true,
    .readNext true none, .run true, .compareExchange true false, .readKey true 0, .run true]

/-- The `pop` that removes the key `0` returns `0`, and the consumer tries again: the key is
lost. -/
theorem zero_key_lost : ∃ s log, (system Bool ℕ).Run s log ∧ fetches log < 2 ^ 64 ∧
    ¬ ZeroMeansEmpty log ∧ ¬ Accounted s log := by
  obtain ⟨s, log, hrun, hlog⟩ := exists_run_of_exec (system Bool ℕ) (fun _ _ => True) zeroRun
    (fun s log => decide (fetches log < 2 ^ 64 ∧ s.top.node = none ∧
      (∀ t, ¬ (s.pc t).inTransit) ∧ (log.filterMap Event.pushed?).length = 1 ∧
      collected log = [] ∧ log.getLast? = some (.returned true 0) ∧
      ¬ Unremoved true log.dropLast)) (by decide)
  obtain ⟨hbound, htop, hidle, hpushed, hcollected, hlast, hremoved⟩ := of_decide_eq_true hlog
  refine ⟨s, log, hrun, hbound, fun hempty => ?_, fun haccounted => ?_⟩
  · have hsplit : log = log.dropLast ++ [.returned true 0] :=
      (List.dropLast_append_getLast? _ hlast).symm
    exact hremoved (hempty _ _ [] hsplit true rfl).1
  · obtain ⟨stack, transit, hchain, -, htransit, hlength⟩ := haccounted
    have hhead : stack.head? = none := (htop ▸ hchain.head_eq).symm
    obtain rfl := List.head?_eq_none_iff.mp hhead
    obtain rfl : transit = [] :=
      List.eq_nil_iff_forall_not_mem.mpr fun t ht => hidle t ((htransit t).mp ht)
    simp [hpushed, hcollected] at hlength

end LockFreeStack
