import LowLevelCpp.ThreadSafeQueue.Demo

/-! What `main` prints at the end: the queue is shut down only after every item has been pushed,
and the last `pop` of a consumer finds it drained, so the counts agree. -/
namespace ThreadSafeQueue.Demo
open Foundations Foundations.System Foundations.ForkJoin

variable {d : Setup} {q q₀ q' : State Thread ℕ} {g g' : Program} {log evs : List (Event Thread ℕ)}
  {t : Thread} {a : Act Thread ℕ ⊕ Thread} {pc : Pc}

@[simp] theorem goto_pc_self (g : Program) (t : Thread) (pc : Pc) : (g.goto t pc).pc t = pc :=
  Function.update_self _ _ _

theorem goto_pc_of_ne {t' : Thread} (h : t' ≠ t) : (g.goto t pc).pc t' = g.pc t' :=
  Function.update_of_ne h _ _

@[simp] theorem goto_i : (g.goto t pc).i = g.i := rfl

@[simp] theorem goto_main : (g.goto t pc).main = g.main := rfl

@[simp] theorem goto_exit_code : (g.goto t pc).exit_code = g.exit_code := rfl

theorem entersPush_blocked {value : ℕ} (he : EntersPush q t value q₀) :
    q₀.blocked = Function.update q.blocked t none := by
  cases he with
  | call hcall => rw [← hcall, Function.update_eq_self]
  | resume _ _ => rfl

theorem entersPop_blocked (he : EntersPop q t q₀) :
    q₀.blocked = Function.update q.blocked t none := by
  cases he with
  | call hcall => rw [← hcall, Function.update_eq_self]
  | resume _ _ => rfl

section Calls

theorem Calling.loop (h : Calling d q g) {c : Call ℕ} (hc : q.blocked t = some c) :
    g.pc t = .loop := by
  cases c with
  | push value =>
    obtain ⟨id, -, hpc, -⟩ := h.push t value hc
    exact hpc
  | pop =>
    obtain ⟨id, -, hpc⟩ := h.pop t hc
    exact hpc

/-- What stays blocked stands where it stood. -/
theorem Calling.mono (h : Calling d q g)
    (hq : ∀ t c, q'.blocked t = some c → q.blocked t = some c ∧ g'.pc t = .loop ∧
      ∀ id, t = .producer id → g'.i id = g.i id) : Calling d q' g' := by
  constructor
  · intro t value hblocked
    obtain ⟨hold, hpc, hi⟩ := hq t _ hblocked
    obtain ⟨id, rfl, -, hlt, rfl⟩ := h.push t value hold
    exact ⟨id, rfl, hpc, (hi id rfl).symm ▸ hlt, by rw [hi id rfl]⟩
  · intro t hblocked
    obtain ⟨hold, hpc, -⟩ := hq t _ hblocked
    obtain ⟨id, rfl, -⟩ := h.pop t hold
    exact ⟨id, rfl, hpc⟩

/-- The call of a thread ends. -/
theorem Calling.leave (h : Calling d q g) (hq : q'.blocked = Function.update q.blocked t none) :
    Calling d q' (g.goto t pc) := by
  refine h.mono fun t' c hc => ?_
  rw [hq] at hc
  by_cases ht : t' = t
  · rw [ht, Function.update_self] at hc
    cases hc
  · rw [Function.update_of_ne ht] at hc
    exact ⟨hc, (goto_pc_of_ne ht).trans (h.loop hc), fun _ _ => rfl⟩

/-- A thread that is not in a call takes a step. -/
theorem Calling.idle (h : Calling d q g) (hpc : g.pc t = .loop → pc = .loop) :
    Calling d q (g.goto t pc) := by
  refine h.mono fun t' c hc => ⟨hc, ?_, fun _ _ => rfl⟩
  by_cases ht : t' = t
  · subst ht
    rw [goto_pc_self]
    exact hpc (h.loop hc)
  · exact (goto_pc_of_ne ht).trans (h.loop hc)

theorem Calling.step (h : Calling d q g) (hs : Moves d q g a q' g' evs) : Calling d q' g' := by
  cases hs with
  | accept _ _ he _ _ _ =>
    have hblocked := entersPush_blocked he
    exact h.leave hblocked
  | reject _ _ he _ => exact h.leave (entersPush_blocked he)
  | @waitPush id q₀ _ hpc hi he _ _ =>
    have hblocked := entersPush_blocked he
    constructor
    · intro t value ht
      by_cases htid : t = .producer id
      · subst htid
        obtain rfl : item id (g.i id) = value := by simpa using ht
        exact ⟨id, rfl, hpc, hi, rfl⟩
      · exact h.push t value (by simpa [htid, hblocked] using ht)
    · intro t ht
      by_cases htid : t = .producer id
      · simp [htid] at ht
      · exact h.pop t (by simpa [htid, hblocked] using ht)
  | take _ he _ _ =>
    have hblocked := entersPop_blocked he
    exact h.leave hblocked
  | nothing _ he _ _ => exact h.leave (entersPop_blocked he)
  | @waitPop id q₀ _ hpc he _ _ =>
    have hblocked := entersPop_blocked he
    constructor
    · intro t value ht
      by_cases htid : t = .consumer id
      · simp [htid] at ht
      · exact h.push t value (by simpa [htid, hblocked] using ht)
    · intro t ht
      by_cases htid : t = .consumer id
      · exact ⟨id, htid, htid ▸ hpc⟩
      · exact h.pop t (by simpa [htid, hblocked] using ht)
  | wakeFull _ | wakeEmpty _ | check _ | shutdown _ | join _ _ => exact ⟨h.push, h.pop⟩
  | log _ hpc => exact h.idle (by simp [hpc])
  | start _ => exact Calling.idle ⟨h.push, h.pop⟩ fun _ => rfl
  | @produced id _ hpc =>
    refine h.mono fun t c hc => ⟨hc, ?_, ?_⟩
    · by_cases ht : t = .producer id
      · rw [ht, goto_pc_self]
      · exact (goto_pc_of_ne ht).trans (h.loop hc)
    · rintro id' rfl
      have hne : id' ≠ id := by
        rintro rfl
        simp [h.loop hc] at hpc
      exact Function.update_of_ne hne _ _
  | consumed hpc => exact Calling.idle ⟨h.push, h.pop⟩ fun _ => rfl
  | @finished id _ hpc hi =>
    refine h.mono fun t c hc => ⟨hc, ?_, fun _ _ => rfl⟩
    have ht : t ≠ .producer id := by
      rintro rfl
      cases c with
      | push value =>
        obtain ⟨id', hid, -, hlt, -⟩ := h.push _ value hc
        obtain rfl := Thread.producer.inj hid
        omega
      | pop =>
        obtain ⟨id', hid, -⟩ := h.pop _ hc
        cases hid
    exact (goto_pc_of_ne ht).trans (h.loop hc)

end Calls

@[simp] theorem phase_eq_unstarted : pc.phase = .unstarted ↔ pc = .unstarted := by
  cases pc <;> simp [Pc.phase]

@[simp] theorem phase_eq_returned : pc.phase = .returned ↔ pc = .returned := by
  cases pc <;> simp [Pc.phase]

theorem goto_phase (g : Program) (t : Thread) (pc : Pc) :
    (fun t' => ((g.goto t pc).pc t').phase) =
      Function.update (fun t' => (g.pc t').phase) t pc.phase := by
  funext t'
  by_cases ht : t' = t
  · rw [ht, goto_pc_self, Function.update_self]
  · rw [goto_pc_of_ne ht, Function.update_of_ne ht]

/-- How far `main` is: the statements `past` have been executed. -/
structure Progress (d : Setup) (q : State Thread ℕ) (g : Program) (past : List (Stmt Thread Own)) :
    Prop where
  stage : Stage d.main (fun t => (g.pc t).phase) past g.main
  done : q.done = true ↔ .own .shutdown ∈ past
  checked : g.exit_code ≠ none ↔ .own .check ∈ past

section Stages
variable {past rest : List (Stmt Thread Own)}

theorem Progress.mem_main (h : Progress d q g past) (hpc : g.pc t ≠ .unstarted) :
    .start t ∈ d.main :=
  h.stage.mem_script (by simpa using hpc)

theorem Progress.producer_lt (h : Progress d q g past) {id : ℕ}
    (hpc : g.pc (.producer id) ≠ .unstarted) : id < d.producers := by
  have hmem := h.mem_main hpc
  simpa [Setup.main] using hmem

theorem Progress.consumer_lt (h : Progress d q g past) {id : ℕ}
    (hpc : g.pc (.consumer id) ≠ .unstarted) : id < d.consumers := by
  have hmem := h.mem_main hpc
  simpa [Setup.main] using hmem

theorem Progress.not_main (h : Progress d q g past) : g.pc .main = .unstarted := by
  by_contra hpc
  have hmem := h.mem_main hpc
  simp [Setup.main] at hmem

theorem Progress.started (h : Progress d q g past) (ht : .start t ∈ past) :
    g.pc t ≠ .unstarted := by
  simpa using (h.stage.started t).mp ht

theorem Progress.joined (h : Progress d q g past) (ht : .join t ∈ past) :
    g.pc t = .returned := by
  simpa using h.stage.joined t ht

/-- The queue is shut down after the producers have been joined. -/
theorem Progress.producers_returned (h : Progress d q g past) (hdone : q.done = true) {id : ℕ}
    (hid : id < d.producers) : g.pc (.producer id) = .returned := by
  apply h.joined
  have hstage := h.stage
  rw [Setup.main] at hstage
  exact hstage.before (by simp) (.inl (h.done.mp hdone)) (by simp [hid])

/-- Before the final check every thread has been joined. -/
theorem Progress.all_returned (h : Progress d q g past)
    (hcheck : .own .check ∈ past ∨ ∃ rest, g.main = .own .check :: rest) :
    (∀ id < d.producers, g.pc (.producer id) = .returned) ∧
      ∀ id < d.consumers, g.pc (.consumer id) = .returned := by
  have hstage := h.stage
  rw [Setup.main, ← List.cons_append, ← List.append_assoc] at hstage
  have hbefore := hstage.before (by simp) hcheck
  constructor <;> intro id hid <;> apply h.joined <;> apply hbefore <;> simp [hid]

/-- The threads are started before any is joined. -/
theorem Progress.all_started (h : Progress d q g past) (hmain : g.main = .join t :: rest) :
    (∀ id < d.producers, g.pc (.producer id) ≠ .unstarted) ∧
      ∀ id < d.consumers, g.pc (.consumer id) ≠ .unstarted := by
  have hsplit := h.stage.program
  rw [hmain, Setup.main, List.append_assoc] at hsplit
  have hsub := subset_of_append_cons hsplit (by simp)
  constructor <;> intro id hid <;> refine h.started (hsub ?_) <;> simp [hid]

/-- The consumers are joined after the shutdown. -/
theorem Progress.shut_down (h : Progress d q g past) {id : ℕ}
    (hmain : g.main = .join (.consumer id) :: rest) : q.done = true := by
  have hsplit := h.stage.program
  rw [hmain, Setup.main, List.append_cons _ (Stmt.own Own.shutdown)] at hsplit
  exact h.done.mpr (subset_of_append_cons hsplit (by simp) (by simp))

/-- A running thread takes a step. -/
theorem Progress.goto (h : Progress d q g past) (hdone : q'.done = q.done)
    (hrunning : (g.pc t).phase = .running) (hpc : pc ≠ .unstarted) :
    Progress d q' (g.goto t pc) past := by
  refine ⟨?_, hdone ▸ h.done, h.checked⟩
  rw [goto_phase]
  exact h.stage.goto hrunning (by simpa using hpc)

/-- Neither the program nor the flag changes. -/
theorem Progress.same (h : Progress d q g past) (hdone : q'.done = q.done) :
    Progress d q' g past :=
  ⟨h.stage, hdone ▸ h.done, h.checked⟩

theorem setup_main_nodup (d : Setup) : d.main.Nodup := by
  have hstart {f : ℕ → Thread} (hf : Function.Injective f) (n : ℕ) :
      ((List.range n).map (.start ∘ f : ℕ → Stmt Thread Own)).Nodup :=
    List.nodup_range.map fun x y hxy => hf (Stmt.start.inj hxy)
  have hjoin {f : ℕ → Thread} (hf : Function.Injective f) (n : ℕ) :
      ((List.range n).map (.join ∘ f : ℕ → Stmt Thread Own)).Nodup :=
    List.nodup_range.map fun x y hxy => hf (Stmt.join.inj hxy)
  have hproducer : Function.Injective Thread.producer := fun _ _ => Thread.producer.inj
  have hconsumer : Function.Injective Thread.consumer := fun _ _ => Thread.consumer.inj
  simp only [Setup.main, List.nodup_append, List.nodup_cons, hstart hproducer, hstart hconsumer,
    hjoin hproducer, hjoin hconsumer, List.nodup_nil, true_and]
  simp only [Function.comp_apply, List.mem_append, List.mem_map, List.mem_range, List.mem_cons]
  grind

/-- A thread is started once. -/
theorem Progress.start_new (h : Progress d q g past) (hmain : g.main = .start t :: rest) :
    g.pc t = .unstarted := by
  have hstage := h.stage
  rw [hmain] at hstage
  simpa using hstage.start_new (setup_main_nodup d)

theorem Progress.step (h : Progress d q g past) (hs : Moves d q g a q' g' evs) :
    ∃ past', Progress d q' g' past' := by
  have hstage := h.stage
  cases hs with
  | accept hpc _ he _ _ _ | reject hpc _ he _ | take hpc he _ _ | nothing hpc he _ _ =>
    exact ⟨past, h.goto he.done_eq (by rw [hpc]; rfl) (by simp)⟩
  | waitPush _ _ he _ _ | waitPop _ he _ _ => exact ⟨past, h.same he.done_eq⟩
  | wakeFull _ | wakeEmpty _ => exact ⟨past, h.same rfl⟩
  | log _ hpc | finished hpc _ => exact ⟨past, h.goto rfl (by rw [hpc]; rfl) (by simp)⟩
  | produced hpc | consumed hpc =>
    exact ⟨past, Progress.goto ⟨hstage, h.done, h.checked⟩ rfl (by simp only [hpc]; rfl) (by simp)⟩
  | check hmain =>
    rw [hmain] at hstage
    exact ⟨past ++ [.own .check], hstage.own, by simpa using h.done, by simp⟩
  | shutdown hmain =>
    rw [hmain] at hstage
    exact ⟨past ++ [.own .shutdown], hstage.own, by simp [State.shutdown], by simpa using h.checked⟩
  | @join t rest _ hmain hpc =>
    rw [hmain] at hstage
    exact ⟨past ++ [.join t], hstage.join (by rw [hpc]; rfl), by simpa using h.done,
      by simpa using h.checked⟩
  | @start t rest _ hmain =>
    rw [hmain] at hstage
    refine ⟨past ++ [.start t], ?_, by simpa using h.done, by simpa using h.checked⟩
    rw [goto_phase]
    exact hstage.start (setup_main_nodup d)

end Stages

/-- Between a successful call and the count of it. -/
def Pc.busy : Pc → ℕ
  | .logging | .counting => 1
  | _ => 0

/-- The items that a producer has pushed. -/
def Program.sent (g : Program) (id : ℕ) : ℕ := g.i id + (g.pc (.producer id)).busy

/-- What the counters say about the history. -/
structure Totals (d : Setup) (q : State Thread ℕ) (g : Program) (log : List (Event Thread ℕ)) :
    Prop where
  atMost : ∀ id, g.sent id ≤ d.items
  finished : ∀ id, g.pc (.producer id) = .returned → g.i id = d.items
  drained : ∀ id, g.pc (.consumer id) = .returned → q.done = true ∧ q.queue = []
  produced : g.total_produced = ∑ id ∈ Finset.range d.producers, g.i id
  accepted : (acceptedValues log : Multiset ℕ) =
    ∑ id ∈ Finset.range d.producers, (Multiset.range (g.sent id)).map (item id)
  consumed : g.total_consumed + ∑ id ∈ Finset.range d.consumers, (g.pc (.consumer id)).busy =
    (returnedValues log).length

section Counting
variable {past : List (Stmt Thread Own)} {id : ℕ}

theorem goto_busy (hpc : pc.busy = (g.pc t).busy) (t' : Thread) :
    ((g.goto t pc).pc t').busy = (g.pc t').busy := by
  by_cases ht : t' = t
  · rw [ht, goto_pc_self, hpc]
  · rw [goto_pc_of_ne ht]

/-- A step that neither counts nor moves an item. -/
theorem Totals.quiet (h : Totals d q g log) (hi : g'.i = g.i)
    (hbusy : ∀ t, (g'.pc t).busy = (g.pc t).busy) (hproduced : g'.total_produced = g.total_produced)
    (hconsumed : g'.total_consumed = g.total_consumed) (ha : acceptedValues evs = [])
    (hr : returnedValues evs = [])
    (hfinished : ∀ id, g'.pc (.producer id) = .returned → g.i id = d.items)
    (hdrained : ∀ id, g'.pc (.consumer id) = .returned → q'.done = true ∧ q'.queue = []) :
    Totals d q' g' (log ++ evs) := by
  have hsent : g'.sent = g.sent := by
    funext id
    rw [Program.sent, Program.sent, hi, hbusy]
  refine ⟨hsent ▸ h.atMost, hi ▸ hfinished, hdrained, ?_, ?_, ?_⟩
  · rw [hproduced, hi, h.produced]
  · rw [acceptedValues_append, ha, List.append_nil, hsent, h.accepted]
  · simp only [returnedValues_append, hr, List.append_nil, hconsumed, hbusy, h.consumed]

/-- A thread that has not returned moves on without counting. -/
theorem Totals.goto (h : Totals d q g log) (hpc : pc.busy = (g.pc t).busy) (hne : pc ≠ .returned)
    (ha : acceptedValues evs = []) (hr : returnedValues evs = []) :
    Totals d q (g.goto t pc) (log ++ evs) := by
  have hreturned {t' : Thread} (ht' : (g.goto t pc).pc t' = .returned) :
      g.pc t' = .returned := by
    by_cases ht : t' = t
    · rw [ht, goto_pc_self] at ht'
      exact absurd ht' hne
    · rwa [goto_pc_of_ne ht] at ht'
  exact h.quiet rfl (goto_busy hpc) rfl rfl ha hr (fun id hid => h.finished id (hreturned hid))
    fun id hid => h.drained id (hreturned hid)

theorem Totals.accept {value : ℕ} (h : Totals d q g log) (hid : id < d.producers)
    (hpc : g.pc (.producer id) = .loop) (hi : g.i id < d.items) (hvalue : value = item id (g.i id))
    (hopen : q.done = false) :
    Totals d q' (g.goto (.producer id) .logging) (log ++ [.accepted (.producer id) value]) := by
  have hsent : g.sent id = g.i id := by simp [Program.sent, hpc, Pc.busy]
  have hsent' : (g.goto (.producer id) .logging).sent id = g.i id + 1 := by
    simp [Program.sent, Pc.busy]
  have hother (j : ℕ) (hj : j ≠ id) : (g.goto (.producer id) .logging).sent j = g.sent j := by
    simp [Program.sent, goto_pc_of_ne (show Thread.producer j ≠ .producer id by simpa using hj)]
  refine ⟨fun j => ?_, fun j hj => ?_, fun j hj => ?_, h.produced, ?_, ?_⟩
  · by_cases hjid : j = id
    · rw [hjid, hsent']
      exact hi
    · rw [hother j hjid]
      exact h.atMost j
  · by_cases hjid : j = id
    · simp [hjid] at hj
    · rw [goto_pc_of_ne (by simpa using hjid)] at hj
      exact h.finished j hj
  · rw [goto_pc_of_ne (by simp)] at hj
    simp [(h.drained j hj).1] at hopen
  · obtain ⟨m, hm, hm'⟩ := exists_sum_split (Finset.mem_range.mpr hid)
      (f := fun j => (Multiset.range (g.sent j)).map (item j))
      (k := fun j => (Multiset.range ((g.goto (.producer id) .logging).sent j)).map (item j))
      fun j _ hj => by simp only [hother j hj]
    have hone : acceptedValues [Event.accepted (Thread.producer id) value] = [value] := rfl
    rw [hm', acceptedValues_append, hone, ← Multiset.coe_add, h.accepted, hm, hsent, hsent',
      Multiset.range_succ, Multiset.map_cons, Multiset.cons_add, hvalue, Multiset.coe_singleton,
      Multiset.add_comm _ {_}, Multiset.singleton_add]
  · have hnone : returnedValues [Event.accepted (Thread.producer id) value] = [] := rfl
    have hbusy (j : ℕ) : ((g.goto (.producer id) .logging).pc (.consumer j)).busy =
        (g.pc (.consumer j)).busy := by rw [goto_pc_of_ne (by simp)]
    simp only [returnedValues_append, hnone, List.append_nil, hbusy]
    exact h.consumed

theorem Totals.take {value : ℕ} {rest : List ℕ} (h : Totals d q g log) (hid : id < d.consumers)
    (hpc : g.pc (.consumer id) = .loop) (hcons : q.queue = value :: rest) :
    Totals d q' (g.goto (.consumer id) .logging) (log ++ [.returned (.consumer id) value]) := by
  have hproducer (j : ℕ) : (g.goto (.consumer id) .logging).pc (.producer j) =
      g.pc (.producer j) := goto_pc_of_ne (by simp)
  have hsent : (g.goto (.consumer id) .logging).sent = g.sent := by
    funext j
    rw [Program.sent, Program.sent, hproducer]
    rfl
  have hnone : acceptedValues [Event.returned (Thread.consumer id) value] = [] := rfl
  refine ⟨hsent ▸ h.atMost, fun j hj => h.finished j (hproducer j ▸ hj), fun j hj => ?_,
    h.produced, ?_, ?_⟩
  · by_cases hjid : j = id
    · simp [hjid] at hj
    · rw [goto_pc_of_ne (by simpa using hjid)] at hj
      simp [(h.drained j hj).2] at hcons
  · rw [acceptedValues_append, hnone, List.append_nil, hsent, h.accepted]
  · obtain ⟨m, hm, hm'⟩ := exists_sum_split (Finset.mem_range.mpr hid)
      (f := fun j => (g.pc (.consumer j)).busy)
      (k := fun j => ((g.goto (.consumer id) .logging).pc (.consumer j)).busy)
      fun j _ hj => by
        simp only [goto_pc_of_ne (show Thread.consumer j ≠ .consumer id by simpa using hj)]
    have hone : returnedValues [Event.returned (Thread.consumer id) value] = [value] := rfl
    have hsum := h.consumed
    rw [hm, hpc] at hsum
    rw [hm', returnedValues_append, hone, List.length_append, goto_pc_self, ← hsum]
    show g.total_consumed + (Pc.busy .logging + m) = _
    simp only [Pc.busy, List.length_singleton]
    omega

/-- A producer counts an item. -/
theorem Totals.count_produced (h : Totals d q g log) (hid : id < d.producers)
    (hpc : g.pc (.producer id) = .counting) :
    Totals d q ({ g with
      i := Function.update g.i id (g.i id + 1)
      total_produced := g.total_produced + 1 }.goto (.producer id) .loop) log := by
  have hsent : ({ g with
      i := Function.update g.i id (g.i id + 1)
      total_produced := g.total_produced + 1 }.goto (.producer id) .loop).sent = g.sent := by
    funext j
    by_cases hj : j = id
    · subst hj
      simp [Program.sent, hpc, Pc.busy]
    · simp [Program.sent, goto_pc_of_ne (show Thread.producer j ≠ .producer id by simpa using hj),
        Function.update_of_ne hj]
  refine ⟨hsent ▸ h.atMost, fun j hj => ?_, fun j hj => ?_, ?_, ?_, ?_⟩
  · by_cases hjid : j = id
    · simp [hjid] at hj
    · rw [goto_pc_of_ne (by simpa using hjid)] at hj
      simpa [Function.update_of_ne hjid] using h.finished j hj
  · rw [goto_pc_of_ne (by simp)] at hj
    exact h.drained j hj
  · obtain ⟨m, hm, hm'⟩ := exists_sum_split (Finset.mem_range.mpr hid) (f := g.i)
      (k := Function.update g.i id (g.i id + 1)) fun j _ hj => Function.update_of_ne hj _ _
    show g.total_produced + 1 = ∑ j ∈ Finset.range d.producers, _
    rw [goto_i, hm', Function.update_self, h.produced, hm]
    omega
  · rw [hsent]
    exact h.accepted
  · have hbusy (j : ℕ) : (({ g with
        i := Function.update g.i id (g.i id + 1)
        total_produced := g.total_produced + 1 }.goto (.producer id) .loop).pc
          (.consumer j)).busy = (g.pc (.consumer j)).busy := by rw [goto_pc_of_ne (by simp)]
    simp only [hbusy]
    exact h.consumed

/-- A consumer counts an item. -/
theorem Totals.count_consumed (h : Totals d q g log) (hid : id < d.consumers)
    (hpc : g.pc (.consumer id) = .counting) :
    Totals d q ({ g with total_consumed := g.total_consumed + 1 }.goto (.consumer id) .loop)
      log := by
  have hproducer (j : ℕ) : ({ g with
      total_consumed := g.total_consumed + 1 }.goto (.consumer id) .loop).pc (.producer j) =
      g.pc (.producer j) := goto_pc_of_ne (by simp)
  have hsent : ({ g with
      total_consumed := g.total_consumed + 1 }.goto (.consumer id) .loop).sent = g.sent := by
    funext j
    rw [Program.sent, Program.sent, hproducer]
    rfl
  refine ⟨hsent ▸ h.atMost, fun j hj => h.finished j (hproducer j ▸ hj), fun j hj => ?_,
    h.produced, hsent ▸ h.accepted, ?_⟩
  · by_cases hjid : j = id
    · simp [hjid] at hj
    · rw [goto_pc_of_ne (by simpa using hjid)] at hj
      exact h.drained j hj
  · obtain ⟨m, hm, hm'⟩ := exists_sum_split (Finset.mem_range.mpr hid)
      (f := fun j => (g.pc (.consumer j)).busy)
      (k := fun j => (({ g with
        total_consumed := g.total_consumed + 1 }.goto (.consumer id) .loop).pc
          (.consumer j)).busy)
      fun j _ hj => by
        simp only [goto_pc_of_ne (show Thread.consumer j ≠ .consumer id by simpa using hj)]
    have hsum := h.consumed
    rw [hm, hpc] at hsum
    rw [hm', goto_pc_self, ← hsum]
    show g.total_consumed + 1 + (Pc.busy .loop + m) = _
    simp only [Pc.busy]
    omega

theorem Totals.step (h : Totals d q g log) (hprogress : Progress d q g past)
    (hs : Moves d q g a q' g' evs) : Totals d q' g' (log ++ evs) := by
  have hopen {id : ℕ} (hpc : g.pc (.producer id) ≠ .unstarted)
      (hpc' : g.pc (.producer id) ≠ .returned) : q.done = false := by
    by_contra hdone
    exact hpc' (hprogress.producers_returned (by simpa using hdone) (hprogress.producer_lt hpc))
  cases hs with
  | @accept id q₀ choice not_empty _ hpc hi he hdone _ _ =>
    exact h.accept (hprogress.producer_lt (by simp [hpc])) hpc hi rfl (he.done_eq ▸ hdone)
  | @reject id q₀ _ hpc hi he hdone =>
    rw [he.done_eq, @hopen id (by simp [hpc]) (by simp [hpc])] at hdone
    cases hdone
  | waitPush _ _ he hdone _ =>
    refine h.quiet rfl (fun _ => rfl) rfl rfl rfl rfl h.finished fun id hid => ?_
    rw [he.done_eq, (h.drained id hid).1] at hdone
    cases hdone
  | take hpc he hcons _ =>
    rw [he.queue_eq] at hcons
    exact h.take (hprogress.consumer_lt (by simp [hpc])) hpc hcons
  | @nothing id q₀ _ hpc he hnil hdone =>
    refine h.quiet rfl (goto_busy (by simp [hpc, Pc.busy])) rfl rfl rfl rfl (fun j hj => ?_)
      fun _ _ => ⟨hdone, hnil⟩
    rw [goto_pc_of_ne (by simp)] at hj
    exact h.finished j hj
  | waitPop _ he hdone _ =>
    refine h.quiet rfl (fun _ => rfl) rfl rfl rfl rfl h.finished fun id hid => ?_
    rw [he.done_eq, (h.drained id hid).1] at hdone
    cases hdone
  | wakeFull _ | wakeEmpty _ | join _ _ =>
    exact h.quiet rfl (fun _ => rfl) rfl rfl rfl rfl h.finished h.drained
  | log _ hpc => exact h.goto (by simp [hpc, Pc.busy]) (by simp) rfl rfl
  | check _ => exact h.quiet rfl (fun _ => rfl) rfl rfl rfl rfl h.finished h.drained
  | shutdown _ =>
    exact h.quiet rfl (fun _ => rfl) rfl rfl rfl rfl h.finished
      fun id hid => ⟨rfl, (h.drained id hid).2⟩
  | @start t rest _ hmain =>
    have hpc := hprogress.start_new hmain
    have hrest : Totals d q { g with main := rest } log :=
      ⟨h.atMost, h.finished, h.drained, h.produced, h.accepted, h.consumed⟩
    exact hrest.goto (by simp [hpc, Pc.busy]) (by simp) rfl rfl
  | produced hpc =>
    rw [List.append_nil]
    exact h.count_produced (hprogress.producer_lt (by simp [hpc])) hpc
  | consumed hpc =>
    rw [List.append_nil]
    exact h.count_consumed (hprogress.consumer_lt (by simp [hpc])) hpc
  | @finished id _ hpc hi =>
    refine h.quiet rfl (goto_busy (by simp [hpc, Pc.busy])) rfl rfl rfl rfl (fun j hj => ?_)
      fun j hj => ?_
    · by_cases hjid : j = id
      · subst hjid
        have hle := h.atMost j
        simp only [Program.sent, hpc, Pc.busy] at hle
        omega
      · rw [goto_pc_of_ne (by simpa using hjid)] at hj
        exact h.finished j hj
    · rw [goto_pc_of_ne (by simp)] at hj
      exact h.drained j hj

end Counting

/-- The three invariants together. -/
structure Holds (d : Setup) (s : State Thread ℕ × Program) (log : List (Event Thread ℕ)) :
    Prop where
  calling : Calling d s.1 s.2
  progress : ∃ past, Progress d s.1 s.2 past
  totals : Totals d s.1 s.2 log
  passed : ∀ code, s.2.exit_code = some code → code = 0

section Runs
variable {s : State Thread ℕ × Program} {past : List (Stmt Thread Own)}

theorem fifo_of_program {P : State Thread ℕ × Program → Act Thread ℕ ⊕ Thread → Prop}
    (hrun : (program d).RunWhere P s log) : Fifo d.capacity s.1 log :=
  fifo_of_run (hrun.object (Q := fun _ _ => True) fun _ _ _ => trivial)

/-- When every thread has been joined all the items have been consumed and counted. -/
theorem Totals.complete (h : Totals d q g log) (hfifo : Fifo d.capacity q log)
    (hreturned : (∀ id < d.producers, g.pc (.producer id) = .returned) ∧
      ∀ id < d.consumers, g.pc (.consumer id) = .returned) :
    g.total_produced = d.total ∧ g.total_consumed = d.total ∧ q.queue = [] ∧
      (returnedValues log : Multiset ℕ) =
        ∑ id ∈ Finset.range d.producers, (Multiset.range d.items).map (item id) := by
  obtain ⟨hproducers, hconsumers⟩ := hreturned
  have hi : ∀ id ∈ Finset.range d.producers, g.i id = d.items := fun id hid =>
    h.finished id (hproducers id (Finset.mem_range.mp hid))
  have hnil : q.queue = [] := (h.drained 0 (hconsumers 0 d.consumers_pos)).2
  have hall : (returnedValues log : Multiset ℕ) =
      ∑ id ∈ Finset.range d.producers, (Multiset.range d.items).map (item id) := by
    have hord := hfifo.inOrder
    rw [hnil, List.append_nil] at hord
    rw [← hord, h.accepted]
    refine Finset.sum_congr rfl fun id hid => ?_
    rw [Program.sent, hi id hid, hproducers id (Finset.mem_range.mp hid)]
    rfl
  refine ⟨?_, ?_, hnil, hall⟩
  · rw [h.produced, Finset.sum_const_nat hi, Finset.card_range]
    rfl
  · have hbusy : ∑ id ∈ Finset.range d.consumers, (g.pc (.consumer id)).busy = 0 :=
      Finset.sum_eq_zero fun id hid => by rw [hconsumers id (Finset.mem_range.mp hid)]; rfl
    have hlength : (returnedValues log).length = d.total := by
      rw [← Multiset.coe_card, hall, Multiset.card_sum,
        Finset.sum_const_nat (m := d.items) fun id _ => by simp, Finset.card_range]
      rfl
    have hcounted := h.consumed
    rw [hbusy, hlength] at hcounted
    exact hcounted

theorem holds_of_run {P : State Thread ℕ × Program → Act Thread ℕ ⊕ Thread → Prop}
    (hrun : (program d).RunWhere P s log) : Holds d s log := by
  refine hrun.invariant (I := Holds d) ?_ fun s log a s' evs hrun ih _ hs => ?_
  · refine ⟨⟨by simp [program, drive, system], by simp [program, drive, system]⟩,
      ⟨[], stage_init _, ?_, ?_⟩, ⟨?_, ?_, ?_, ?_, ?_, ?_⟩, ?_⟩ <;>
      simp [program, drive, system, client, Program.sent, Pc.busy, acceptedValues, returnedValues]
  · obtain ⟨hcalling, ⟨past, hprogress⟩, htotals, hpassed⟩ := ih
    have hmoves := program_moves hcalling hs
    refine ⟨hcalling.step hmoves, hprogress.step hmoves, htotals.step hprogress hmoves, ?_⟩
    intro code hcode
    obtain ⟨q, g⟩ := s
    obtain ⟨q', g'⟩ := s'
    by_cases hsame : g'.exit_code = g.exit_code
    · exact hpassed code (hsame ▸ hcode)
    · cases hmoves with
      | check hmain =>
        obtain ⟨hproduced, hconsumed, hnil, -⟩ :=
          htotals.complete (fifo_of_program hrun) (hprogress.all_returned (.inr ⟨_, hmain⟩))
        have hverdict : Program.verdict d g q.queue.isEmpty = code := Option.some.inj hcode
        have hempty : q.queue.isEmpty = true := List.isEmpty_iff.mpr hnil
        rw [← hverdict, Program.verdict, if_pos ⟨hproduced, hconsumed, hempty⟩]
      | _ => exact absurd rfl hsame

/-- Whatever the scheduler does, `main` never prints anything but `PASS`: when it returns, it
returns 0, both totals are the number of items, the queue is empty, and the consumers have
together received every item exactly once. -/
theorem demo_passes (hrun : (program d).Run s log) {code : ℕ}
    (hexit : s.2.exit_code = some code) :
    code = 0 ∧ s.2.total_produced = d.total ∧ s.2.total_consumed = d.total ∧ s.1.queue = [] ∧
      (returnedValues log : Multiset ℕ) =
        ∑ id ∈ Finset.range d.producers, (Multiset.range d.items).map (item id) := by
  obtain ⟨-, ⟨past, hprogress⟩, htotals, hpassed⟩ := holds_of_run hrun
  have hcheck := hprogress.checked.mp (by simp [hexit])
  exact ⟨hpassed code hexit,
    htotals.complete (fifo_of_program hrun) (hprogress.all_returned (.inl hcheck))⟩

end Runs

/-- One producer and one consumer, who waits before each item. -/
def oneItem : List (Act Thread ℕ ⊕ Thread) :=
  [.inr .main, .inl (.pop (.consumer 0) {}), .inr .main,
    .inl (.push (.producer 0) 0 { woken := some (.consumer 0) }),
    .inl (.observe (.producer 0)), .inl (.resume (.consumer 0) {}), .inr (.producer 0),
    .inl (.observe (.consumer 0)), .inr (.consumer 0), .inl (.pop (.consumer 0) {}),
    .inr (.producer 0), .inr .main, .inl (.shutdown .main), .inl (.resume (.consumer 0) {}),
    .inr .main, .inl (.observe .main)]

theorem demo_passes_oneItem : ∃ s log,
    (program ⟨⟨1, Nat.one_pos⟩, 1, 1, 1, Nat.one_pos⟩).Run s log ∧ s.2.exit_code = some 0 ∧
      (returnedValues log : Multiset ℕ) = {0} := by
  obtain ⟨s, log, hrun, hq⟩ :=
    (program ⟨⟨1, Nat.one_pos⟩, 1, 1, 1, Nat.one_pos⟩).exists_run_of_exec (fun _ _ => True)
      oneItem (fun s _ => decide (s.2.exit_code = some 0)) (by decide +kernel)
  have hexit : s.2.exit_code = some 0 := of_decide_eq_true hq
  obtain ⟨-, -, -, -, hall⟩ := demo_passes hrun hexit
  exact ⟨s, log, hrun, hexit, by simpa [item] using hall⟩

end ThreadSafeQueue.Demo
