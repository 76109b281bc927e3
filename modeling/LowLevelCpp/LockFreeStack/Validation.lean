import LowLevelCpp.LockFreeStack.Demo
import Mathlib.Algebra.Order.Ring.Int

/-! What `main` prints at the end: the consumers have together received every key that was pushed,
so the two sums agree, and every node has been deleted. -/
namespace LockFreeStack.Demo
open Foundations Foundations.System Foundations.ForkJoin

variable {Addr : Type} {d : Setup} {s s' : State Thread Addr} {g g' : Program} {t : Thread}
  {phase : Phase} {log evs : List (Event Thread Addr)}

@[simp] theorem goto_phase_self (g : Program) (t : Thread) (phase : Phase) :
    (g.goto t phase).phase t = phase := Function.update_self ..

theorem goto_phase_of_ne {t' : Thread} (h : t' ≠ t) : (g.goto t phase).phase t' = g.phase t' :=
  Function.update_of_ne h ..

/-- The calls in progress are those that the loops of the threads make. -/
structure Calls (d : Setup) (s : State Thread Addr) (g : Program) : Prop where
  push : ∀ t key, (s.pc t).pushKey? = some key →
    t = .producer ∧ g.phase t = .running ∧ key = (g.i : ℤ) + 1 ∧ g.i < d.total
  pop : ∀ t, popping (s.pc t) →
    ∃ id, t = .consumer id ∧ g.phase t = .running ∧ g.count id < d.items

section Calls

theorem Calls.mono (h : Calls d s g)
    (hpush : ∀ t key, (s'.pc t).pushKey? = some key → (s.pc t).pushKey? = some key ∧
      g'.phase t = g.phase t ∧ g'.i = g.i)
    (hpop : ∀ t, popping (s'.pc t) → popping (s.pc t) ∧ g'.phase t = g.phase t ∧
      ∀ id, t = .consumer id → g'.count id = g.count id) : Calls d s' g' := by
  constructor
  · intro t key hkey
    obtain ⟨hold, hphase, hi⟩ := hpush t key hkey
    rw [hphase, hi]
    exact h.push t key hold
  · intro t hp
    obtain ⟨hold, hphase, hcount⟩ := hpop t hp
    obtain ⟨id, rfl, hrunning, hlt⟩ := h.pop t hold
    exact ⟨id, rfl, hphase.trans hrunning, (hcount id rfl).symm ▸ hlt⟩

/-- The call of `t` is over. -/
theorem idle_pc {t' : Thread} (hpc : s'.pc = Function.update s.pc t .idle) :
    (∀ key, (s'.pc t').pushKey? = some key → t' ≠ t ∧ (s.pc t').pushKey? = some key) ∧
      (popping (s'.pc t') → t' ≠ t ∧ popping (s.pc t')) := by
  by_cases ht : t' = t
  · simp [ht, hpc, Pc.pushKey?, popping, Pc.searching, Pc.inTransit]
  · simp [ht, hpc]

theorem Calls.step (h : Calls d s g) (hs : Moves d s g s' g' evs) : Calls d s' g' := by
  cases hs with
  | inside hpush hpop _ _ =>
    exact h.mono (fun t key hkey => ⟨hpush t ▸ hkey, rfl, rfl⟩)
      fun t hp => ⟨(hpop t).mp hp, rfl, fun _ _ => rfl⟩
  | callPush hphase hi =>
    constructor
    · intro t key hkey
      by_cases ht : t = .producer
      · subst ht
        obtain rfl : (g.i : ℤ) + 1 = key := by simpa [State.goto, Pc.pushKey?] using hkey
        exact ⟨rfl, hphase, rfl, hi⟩
      · exact h.push t key (by simpa [State.goto, ht] using hkey)
    · intro t hp
      by_cases ht : t = .producer
      · simp [ht, State.goto, popping, Pc.searching, Pc.inTransit] at hp
      · exact h.pop t (by simpa [State.goto, ht] using hp)
  | @callPop id hphase hcount =>
    constructor
    · intro t key hkey
      by_cases ht : t = .consumer id
      · simp [ht, State.goto, Pc.pushKey?] at hkey
      · exact h.push t key (by simpa [State.goto, ht] using hkey)
    · intro t hp
      by_cases ht : t = .consumer id
      · exact ⟨id, ht, ht ▸ hphase, hcount⟩
      · exact h.pop t (by simpa [State.goto, ht] using hp)
  | @pushed s' t n key tag hkey hpc =>
    refine h.mono (fun t' key' hkey' => ?_) fun t' hp => ⟨((idle_pc hpc).2 hp).2, rfl,
      fun _ _ => rfl⟩
    -- only the producer pushes, so nobody is left in a push
    obtain ⟨hne, hold⟩ := (idle_pc hpc).1 key' hkey'
    exact absurd ((h.push t' key' hold).1.trans (h.push t key hkey).1.symm) hne
  | @empty t _ =>
    exact h.mono (fun t' key hkey => ⟨((idle_pc (t := t) rfl).1 key hkey).2, rfl, rfl⟩)
      fun t' hp => ⟨((idle_pc (t := t) rfl).2 hp).2, rfl, fun _ _ => rfl⟩
  | @returned s' t key hpop hpc =>
    obtain ⟨id, rfl, -, -⟩ := h.pop t hpop
    by_cases hkey : key = 0
    · simp only [react, hkey, if_true]
      exact h.mono (fun t' key hkey => ⟨((idle_pc hpc).1 key hkey).2, rfl, rfl⟩)
        fun t' hp => ⟨((idle_pc hpc).2 hp).2, rfl, fun _ _ => rfl⟩
    · simp only [react, hkey, if_false]
      refine h.mono (fun t' key hkey => ⟨((idle_pc hpc).1 key hkey).2, rfl, rfl⟩) fun t' hp => ?_
      obtain ⟨hne, hold⟩ := (idle_pc hpc).2 hp
      refine ⟨hold, rfl, fun id' ht' => Function.update_of_ne ?_ ..⟩
      rintro rfl
      exact hne ht'
  | stored _ hi =>
    constructor
    · intro t key hkey
      obtain ⟨-, -, -, hlt⟩ := h.push t key hkey
      omega
    · intro t hp
      obtain ⟨id, rfl, hphase, hlt⟩ := h.pop t hp
      exact ⟨id, rfl, (goto_phase_of_ne (by simp)).trans hphase, hlt⟩
  | @added id _ hcount =>
    constructor
    · intro t key hkey
      obtain ⟨rfl, hphase, hrest⟩ := h.push t key hkey
      exact ⟨rfl, (goto_phase_of_ne (by simp)).trans hphase, hrest⟩
    · intro t hp
      obtain ⟨id', rfl, hphase, hlt⟩ := h.pop t hp
      have hne : id' ≠ id := by
        rintro rfl
        omega
      exact ⟨id', rfl, (goto_phase_of_ne (by simpa using hne)).trans hphase, hlt⟩
  | @start t rest _ =>
    have hstill {t' : Thread} (hphase : g.phase t' = .running) :
        ({ g with main := rest }.goto t .running).phase t' = .running := by
      by_cases ht : t' = t
      · rw [ht, goto_phase_self]
      · exact (goto_phase_of_ne ht).trans hphase
    constructor
    · intro t key hkey
      obtain ⟨ht, hphase, hrest⟩ := h.push t key hkey
      exact ⟨ht, hstill hphase, hrest⟩
    · intro t hp
      obtain ⟨id, ht, hphase, hlt⟩ := h.pop t hp
      exact ⟨id, ht, hstill hphase, hlt⟩
  | join _ _ | validate _ => exact ⟨h.push, h.pop⟩

end Calls
/-- What has been pushed and collected, against the counters and sums of the threads. -/
structure Totals (d : Setup) (g : Program) (log : List (Event Thread Addr)) : Prop where
  i_le : g.i ≤ d.total
  pushed : (log.filterMap Event.pushed?).map Prod.snd =
    (List.range g.i).map fun k : ℕ => (k : ℤ) + 1
  produced : g.produced = ((log.filterMap Event.pushed?).map Prod.snd).sum
  count_le : ∀ id, g.count id ≤ d.items
  counts : ∑ id ∈ Finset.range d.consumers, g.count id = (collected log).length
  sums : ∑ id ∈ Finset.range d.consumers, g.local_sum id = ((collected log).map Prod.snd).sum
  stored : g.phase .producer = .returned → g.i = d.total ∧ g.producer_sum = g.produced
  added : g.consumer_sum = ∑ id ∈ Finset.range d.consumers,
    if g.phase (.consumer id) = .returned then g.local_sum id else 0
  finished : ∀ id, g.phase (.consumer id) = .returned → g.count id = d.items

section Totals

theorem collected_append (log evs : List (Event Thread Addr)) :
    collected (log ++ evs) = collected log ++ collected evs := by
  simp [collected]

/-- Neither the calls nor the sums change. -/
theorem Totals.same (h : Totals d g log) (hpushed : evs.filterMap Event.pushed? = [])
    (hcollected : collected evs = []) : Totals d g (log ++ evs) := by
  refine ⟨h.i_le, ?_, ?_, h.count_le, ?_, ?_, h.stored, h.added, h.finished⟩
  · rw [List.filterMap_append, hpushed, List.append_nil]
    exact h.pushed
  · rw [List.filterMap_append, hpushed, List.append_nil]
    exact h.produced
  · rw [collected_append, hcollected, List.append_nil]
    exact h.counts
  · rw [collected_append, hcollected, List.append_nil]
    exact h.sums

/-- A thread that is not yet at its end is started. -/
theorem Totals.running (h : Totals d g log) {rest : List (Stmt Thread Own)}
    (ht : g.phase t ≠ .returned) : Totals d ({ g with main := rest }.goto t .running) log := by
  have hreturned (t' : Thread) :
      ({ g with main := rest }.goto t .running).phase t' = .returned ↔ g.phase t' = .returned := by
    by_cases he : t' = t
    · simp [he, ht]
    · rw [goto_phase_of_ne he]
  refine ⟨h.i_le, h.pushed, h.produced, h.count_le, h.counts, h.sums,
    fun hp => h.stored ((hreturned _).mp hp), ?_, fun id hp => h.finished id ((hreturned _).mp hp)⟩
  simp only [hreturned]
  exact h.added

/-- A consumer that is not at its end receives a key. -/
theorem Totals.receive (h : Totals d g log) {id : ℕ} {key : ℤ} (hid : id < d.consumers)
    (hphase : g.phase (.consumer id) = .running) (hcount : g.count id < d.items)
    (hkey : key ≠ 0) :
    Totals d { g with
      count := Function.update g.count id (g.count id + 1)
      local_sum := Function.update g.local_sum id (g.local_sum id + key) }
      (log ++ [.returned (.consumer id) key]) := by
  have hnew : collected [(.returned (.consumer id) key : Event Thread Addr)] =
      [(.consumer id, key)] := by
    simp [collected, Event.popResult?, hkey]
  have hnone : [(.returned (.consumer id) key : Event Thread Addr)].filterMap Event.pushed? = [] :=
    rfl
  have hmem := Finset.mem_range.mpr hid
  refine ⟨h.i_le, ?_, ?_, fun id' => ?_, ?_, ?_, h.stored, ?_, fun id' hp => ?_⟩
  · rw [List.filterMap_append, hnone, List.append_nil]
    exact h.pushed
  · rw [List.filterMap_append, hnone, List.append_nil]
    exact h.produced
  · by_cases he : id' = id
    · simpa [he] using Nat.succ_le_of_lt hcount
    · simpa [he] using h.count_le id'
  · rw [collected_append, hnew, List.length_append, sum_update_add hmem, h.counts]
    rfl
  · rw [collected_append, hnew, List.map_append, List.sum_append, sum_update_add hmem, h.sums]
    simp
  · refine h.added.trans (Finset.sum_congr rfl fun id' _ => ?_)
    by_cases he : id' = id
    · simp [he, hphase]
    · simp [he]
  · have he : id' ≠ id := by
      rintro rfl
      simp [hphase] at hp
    simpa [he] using h.finished id' hp

theorem Totals.step (h : Totals d g log) (hcalls : Calls d s g)
    (hlt : ∀ id, g.phase (.consumer id) ≠ .unstarted → id < d.consumers)
    (hnew : ∀ t rest, g.main = .start t :: rest → g.phase t = .unstarted)
    (hs : Moves d s g s' g' evs) : Totals d g' (log ++ evs) := by
  cases hs with
  | inside _ _ hpushed hresult => exact h.same hpushed (by simp [collected, hresult])
  | callPush _ _ | callPop _ _ => exact h.same rfl rfl
  | @pushed s' t n key tag hkey _ =>
    obtain ⟨rfl, hphase, rfl, hi⟩ := hcalls.push t key hkey
    have hnew : [(.pushed .producer n ((g.i : ℤ) + 1) tag : Event Thread Addr)].filterMap
        Event.pushed? = [(n, (g.i : ℤ) + 1)] := rfl
    have hnone : collected [(.pushed .producer n ((g.i : ℤ) + 1) tag : Event Thread Addr)] = [] :=
      rfl
    refine ⟨hi, ?_, ?_, h.count_le, ?_, ?_, ?_, h.added, h.finished⟩
    · rw [List.filterMap_append, hnew, List.map_append, h.pushed, List.range_succ, List.map_append]
      rfl
    · rw [List.filterMap_append, hnew, List.map_append, List.sum_append, h.produced]
      simp
    · rw [collected_append, hnone, List.append_nil]
      exact h.counts
    · rw [collected_append, hnone, List.append_nil]
      exact h.sums
    · intro hreturned
      rw [hphase] at hreturned
      cases hreturned
  | empty _ => exact h.same rfl (by simp [collected, Event.popResult?])
  | @returned s' t key hpop _ =>
    obtain ⟨id, rfl, hphase, hcount⟩ := hcalls.pop t hpop
    by_cases hkey : key = 0
    · subst hkey
      exact h.same rfl (by simp [collected, Event.popResult?])
    · simp only [react, hkey, if_false]
      exact h.receive (hlt id (by simp [hphase])) hphase hcount hkey
  | stored hphase hi =>
    rw [List.append_nil]
    refine ⟨h.i_le, h.pushed, h.produced, h.count_le, h.counts, h.sums,
      fun _ => ⟨le_antisymm h.i_le hi, rfl⟩, ?_, fun id hp => ?_⟩
    · exact h.added
    · exact h.finished id hp
  | @added id hphase hcount =>
    rw [List.append_nil]
    refine ⟨h.i_le, h.pushed, h.produced, h.count_le, h.counts, h.sums, h.stored, ?_,
      fun id' hp => ?_⟩
    · have hshare := sum_update_add (M := ℤ) (Finset.mem_range.mpr (hlt id (by simp [hphase])))
        (f := fun id => if g.phase (.consumer id) = .returned then g.local_sum id else 0)
        (g.local_sum id)
      rw [← h.added] at hshare
      refine hshare.symm.trans (Finset.sum_congr rfl fun j _ => ?_)
      by_cases hj : j = id
      · simp [hj, hphase, Program.goto]
      · simp [hj, Program.goto]
    · by_cases he : id' = id
      · rw [he]
        exact le_antisymm (h.count_le id) hcount
      · rw [goto_phase_of_ne (by simpa using he)] at hp
        exact h.finished id' hp
  | start hmain =>
    rw [List.append_nil]
    exact h.running (by simp [hnew _ _ hmain])
  | join _ _ | validate _ =>
    rw [List.append_nil]
    exact ⟨h.i_le, h.pushed, h.produced, h.count_le, h.counts, h.sums, h.stored, h.added,
      h.finished⟩

end Totals

/-- How far `main` is, and what it has found. -/
structure Standing (d : Setup) (g : Program) (past : List (Stmt Thread Own)) : Prop where
  stage : Stage d.main g.phase past g.main
  validated : g.passed ≠ none ↔ .own .validate ∈ past
  verdict : ∀ b, g.passed = some b →
    b = decide (g.producer_sum = g.consumer_sum ∧ g.producer_sum ≠ 0)

section Standing
variable {past : List (Stmt Thread Own)}

theorem setup_main_nodup (d : Setup) : d.main.Nodup := by
  have hstart : ((List.range d.consumers).map
      (Stmt.start (κ := Own) ∘ Thread.consumer)).Nodup :=
    List.nodup_range.map fun x y hxy => Thread.consumer.inj (Stmt.start.inj hxy)
  have hjoin : ((List.range d.consumers).map (Stmt.join (κ := Own) ∘ Thread.consumer)).Nodup :=
    List.nodup_range.map fun x y hxy => Thread.consumer.inj (Stmt.join.inj hxy)
  simp only [Setup.main, List.nodup_append, List.nodup_cons, hstart, hjoin, List.nodup_nil,
    true_and, List.cons_append, Function.comp_apply, List.mem_append, List.mem_map, List.mem_range,
    List.mem_cons]
  grind

/-- Before the validation every thread has been joined. -/
theorem Standing.all_returned (h : Standing d g past)
    (hv : .own .validate ∈ past ∨ ∃ rest, g.main = .own .validate :: rest) :
    g.phase .producer = .returned ∧ ∀ id < d.consumers, g.phase (.consumer id) = .returned := by
  have hstage := h.stage
  rw [Setup.main] at hstage
  have hsub := hstage.before (by simp) hv
  exact ⟨h.stage.joined _ (hsub (by simp)), fun id hid => h.stage.joined _ (hsub (by simp [hid]))⟩

theorem Standing.consumer_lt (h : Standing d g past) {id : ℕ}
    (hphase : g.phase (.consumer id) ≠ .unstarted) : id < d.consumers := by
  simpa [Setup.main] using h.stage.mem_script hphase

/-- While a thread runs nothing has been validated. -/
theorem Standing.not_passed (h : Standing d g past) (ht : g.phase t = .running) :
    g.passed = none := by
  by_contra hpassed
  obtain ⟨hproducer, hconsumers⟩ := h.all_returned (.inl (h.validated.mp hpassed))
  have hmem := h.stage.mem_script (t := t) (by simp [ht])
  cases t with
  | main => simp [Setup.main] at hmem
  | producer => simp [hproducer] at ht
  | consumer id => simp [hconsumers id (by simpa [Setup.main] using hmem)] at ht

theorem Standing.same (h : Standing d g past) (hphase : g'.phase = g.phase)
    (hmain : g'.main = g.main) (hpassed : g'.passed = g.passed)
    (hsums : g'.producer_sum = g.producer_sum ∧ g'.consumer_sum = g.consumer_sum) :
    Standing d g' past := by
  obtain ⟨hstage, hvalidated, hverdict⟩ := h
  refine ⟨?_, ?_, ?_⟩
  · rwa [hphase, hmain]
  · rwa [hpassed]
  · rwa [hpassed, hsums.1, hsums.2]

theorem Standing.step (h : Standing d g past) (hs : Moves d s g s' g' evs) :
    ∃ past', Standing d g' past' := by
  cases hs with
  | inside _ _ _ _ | callPush _ _ | callPop _ _ | empty _ => exact ⟨past, h⟩
  | pushed _ _ => exact ⟨past, h.same rfl rfl rfl ⟨rfl, rfl⟩⟩
  | @returned s' t key _ _ =>
    refine ⟨past, ?_⟩
    cases t with
    | consumer id =>
      simp only [react]
      split
      · exact h
      · exact h.same rfl rfl rfl ⟨rfl, rfl⟩
    | main | producer => exact h
  | stored hphase _ =>
    have hnone := h.not_passed hphase
    exact ⟨past, h.stage.goto hphase (by simp), h.validated, fun b hb => by
      rw [show g.passed = some b from hb] at hnone
      cases hnone⟩
  | added hphase _ =>
    have hnone := h.not_passed hphase
    exact ⟨past, h.stage.goto hphase (by simp), h.validated, fun b hb => by
      rw [show g.passed = some b from hb] at hnone
      cases hnone⟩
  | @start t rest hmain =>
    have hstage := h.stage
    rw [hmain] at hstage
    have hvalidated : g.passed ≠ none ↔ .own .validate ∈ past ++ [.start t] := by
      simpa using h.validated
    exact ⟨_, hstage.start (setup_main_nodup d), hvalidated, h.verdict⟩
  | @join t rest hmain hphase =>
    have hstage := h.stage
    rw [hmain] at hstage
    exact ⟨past ++ [.join t], hstage.join hphase, by simpa using h.validated, h.verdict⟩
  | @validate rest hmain =>
    have hstage := h.stage
    rw [hmain] at hstage
    exact ⟨past ++ [.own .validate], hstage.own, by simp, fun b hb => (Option.some.inj hb).symm⟩

end Standing

section Runs
variable [DecidableEq Addr]

structure Holds (d : Setup) (s : State Thread Addr × Program) (log : List (Event Thread Addr)) :
    Prop where
  calls : Calls d s.1 s.2
  totals : Totals d s.2 log
  standing : ∃ past, Standing d s.2 past

theorem holds_of_run {s : State Thread Addr × Program} (hrun : (program d Addr).Run s log) :
    Holds d s log := by
  refine hrun.invariant (I := Holds d) ?_ fun s log a s' evs _ ih _ hs => ?_
  · refine ⟨⟨?_, ?_⟩, ⟨?_, ?_, ?_, ?_, ?_, ?_, ?_, ?_, ?_⟩, [], ⟨stage_init _, ?_, ?_⟩⟩ <;>
      simp [program, drive, system, client, initial, collected, Pc.pushKey?, popping,
        Pc.searching, Pc.inTransit]
  · obtain ⟨hcalls, htotals, past, hstanding⟩ := ih
    have hmoves := program_moves hs
    refine ⟨hcalls.step hmoves, ?_, hstanding.step hmoves⟩
    refine htotals.step hcalls (fun id => hstanding.consumer_lt) (fun t rest hmain => ?_) hmoves
    have hstage := hstanding.stage
    rw [hmain] at hstage
    exact hstage.start_new (setup_main_nodup d)

/-- No call of the program pushes the key `0`. -/
theorem nonzeroKeys_of_run {s : State Thread Addr × Program} (hrun : (program d Addr).Run s log) :
    (system Thread Addr).RunWhere NonzeroKeys s.1 log := by
  refine hrun.object fun s act hallows => ?_
  cases act with
  | push t key =>
    cases t with
    | producer =>
      obtain ⟨-, rfl⟩ : (s.2.phase .producer = .running ∧ s.2.i < d.total) ∧
          key = (s.2.i : ℤ) + 1 := by
        simpa [client, allows] using hallows
      show (s.2.i : ℤ) + 1 ≠ 0
      omega
    | main | consumer id => simp [client, allows] at hallows
  | _ => trivial

/-- What the consumers have collected are the keys of the elements returned. -/
theorem collected_eq_returned {s : State Thread Addr} {a : Lifo Thread Addr}
    (hrun : (system Thread Addr).RunWhere NonzeroKeys s log) (hreplay : lifo.replay log = some a) :
    (collected log).map Prod.snd = a.returned.map Elem.key := by
  rw [collected_keys, returned_keys hreplay, List.filter_eq_self]
  intro key hkey
  obtain ⟨e, he, rfl⟩ := List.mem_map.mp hkey
  simpa using returned_ne_zero hrun hreplay he

omit [DecidableEq Addr] in
theorem pushedElems_keys (log : List (Event Thread Addr)) :
    (pushedElems log).map Elem.key = (log.filterMap Event.pushed?).map Prod.snd :=
  List.ext_getElem (by simp [pushedElems]) (by simp [pushedElems])

omit [DecidableEq Addr] in
/-- When all keys have been collected nothing is on the stack or held. -/
theorem all_returned_of_length {a : Lifo Thread Addr} (h : a.Conserved log)
    (hlength : (pushedElems log).length = a.returned.length) :
    a.stack = [] ∧ (pushedElems log).Perm a.returned := by
  have helems := h.elems.length_eq
  simp only [List.length_append, List.length_map] at helems
  have hstack : a.stack = [] := List.length_eq_zero_iff.mp (by omega)
  have hheld : a.held = [] := List.length_eq_zero_iff.mp (by omega)
  exact ⟨hstack, by simpa [hstack, hheld] using h.elems⟩

/-- Once every thread has returned. -/
theorem Totals.complete {s : State Thread Addr} (h : Totals d g log)
    (hreturned : g.phase .producer = .returned ∧
      ∀ id < d.consumers, g.phase (.consumer id) = .returned)
    (hrun : (system Thread Addr).RunWhere NonzeroKeys s log) {a : Lifo Thread Addr}
    (hreplay : lifo.replay log = some a) :
    a.stack = [] ∧
      ((collected log).map Prod.snd).Perm ((List.range d.total).map fun k : ℕ => (k : ℤ) + 1) ∧
      g.producer_sum = ((List.range d.total).map fun k : ℕ => (k : ℤ) + 1).sum ∧
      g.consumer_sum = g.producer_sum := by
  obtain ⟨hi, hstored⟩ := h.stored hreturned.1
  have hpushed := h.pushed
  rw [hi] at hpushed
  have hkeys := collected_eq_returned hrun hreplay
  have hcount : (collected log).length = d.total := by
    rw [← h.counts, Finset.sum_const_nat (m := d.items) fun id hid =>
      h.finished id (hreturned.2 id (Finset.mem_range.mp hid)), Finset.card_range]
    rfl
  have hlength : (pushedElems log).length = a.returned.length := by
    calc (pushedElems log).length = ((pushedElems log).map Elem.key).length := by simp
      _ = (collected log).length := by simp [pushedElems_keys, hpushed, hcount]
      _ = (a.returned.map Elem.key).length := by rw [← hkeys, List.length_map]
      _ = a.returned.length := List.length_map _
  obtain ⟨hstack, hperm⟩ := all_returned_of_length (lifo_conserved hreplay) hlength
  have hall : ((collected log).map Prod.snd).Perm
      ((List.range d.total).map fun k : ℕ => (k : ℤ) + 1) := by
    rw [hkeys, ← hpushed, ← pushedElems_keys]
    exact (hperm.map Elem.key).symm
  have hsum : g.producer_sum = ((List.range d.total).map fun k : ℕ => (k : ℤ) + 1).sum := by
    rw [hstored, h.produced, hpushed]
  refine ⟨hstack, hall, hsum, ?_⟩
  rw [hsum, ← hall.sum_eq, ← h.sums, h.added]
  exact Finset.sum_congr rfl fun id hid =>
    if_pos (hreturned.2 id (Finset.mem_range.mp hid))

/-- The sum of the keys is not `0`. -/
theorem total_sum_pos (d : Setup) :
    0 < ((List.range d.total).map fun k : ℕ => (k : ℤ) + 1).sum := by
  have hpos : 0 < d.total := Nat.mul_pos d.consumers_pos d.items_pos
  refine List.sum_pos _ (fun x hx => ?_) ?_
  · obtain ⟨k, -, rfl⟩ := List.mem_map.mp hx
    omega
  · simpa using hpos.ne'

omit [DecidableEq Addr] in
/-- A thread that owns a node is in a call. -/
theorem owns_eq_none {p : Pc Addr} (hpush : p.pushKey? = none) (hpop : ¬ popping p) :
    p.owns = none := by
  cases p <;> simp_all [Pc.pushKey?, popping, Pc.searching, Pc.inTransit, Pc.owns]

end Runs

/-- One consumer takes one key. -/
def oneKey : List (Act Thread ℕ ⊕ Thread) :=
  [.inr .main, .inr .main, .inl (.pop (.consumer 0)), .inl (.run (.consumer 0)),
    .inl (.push .producer 1), .inl (.alloc .producer 7), .inl (.run .producer),
    .inl (.run .producer), .inl (.run .producer), .inl (.compareExchange .producer false),
    .inr .producer, .inl (.run (.consumer 0)), .inl (.run (.consumer 0)), .inr .main,
    .inl (.pop (.consumer 0)), .inl (.run (.consumer 0)), .inl (.run (.consumer 0)),
    .inl (.run (.consumer 0)), .inl (.readNext (.consumer 0) none), .inl (.run (.consumer 0)),
    .inl (.compareExchange (.consumer 0) false), .inl (.readKey (.consumer 0) 0),
    .inl (.run (.consumer 0)), .inr (.consumer 0), .inr .main, .inr .main]

end LockFreeStack.Demo
