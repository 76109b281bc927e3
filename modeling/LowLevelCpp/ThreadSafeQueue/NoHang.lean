import LowLevelCpp.ThreadSafeQueue.Verdict
import Mathlib.Algebra.Order.BigOperators.Group.Finset

/-! The program does not hang: as long as `main` has not returned some thread can take a step,
because a blocked thread waits for one that is not, and apart from spurious wakeups every step
uses up work. -/
namespace ThreadSafeQueue.Demo
open Foundations Foundations.System Foundations.ForkJoin

variable {d : Setup} {q q₀ q' : State Thread ℕ} {g g' : Program} {log evs : List (Event Thread ℕ)}
  {t : Thread} {a : Act Thread ℕ ⊕ Thread} {s : State Thread ℕ × Program} {id : ℕ}

def spurious : Act Thread ℕ ⊕ Thread → Bool
  | .inl (.spurious _) => true
  | _ => false

/-- Some thread can take a step of its own accord. -/
def CanStep (d : Setup) (s : State Thread ℕ × Program) : Prop :=
  ∃ a s' evs, spurious a = false ∧ (program d).step s a = some (s', evs)

section Enabled

theorem canStep_of_call (act : Act Thread ℕ) (hs : spurious (.inl act) = false)
    (hallows : allows d g act = true) (hstep : step d.capacity q act = some (q', evs)) :
    CanStep d (q, g) :=
  ⟨.inl act, (q', evs.foldl (react d) g), evs, hs, drive_inl.mpr ⟨hallows, hstep, rfl⟩⟩

theorem canStep_of_tick (htick : tick d g t = some g') : CanStep d (q, g) :=
  ⟨.inr t, (q, g'), [], rfl, drive_inr.mpr ⟨htick, rfl, rfl⟩⟩

/-- A test of the predicate of `push` comes to an end. -/
theorem exists_push (cap : Capacity) (q : State Thread ℕ) (t : Thread) (value : ℕ) :
    ∃ c q' evs, c.throws = false ∧ q.push cap t value c = some (q', evs) := by
  obtain ⟨choice, not_empty, hn⟩ := CondVar.exists_notifyOne q.not_empty
  refine ⟨{ woken := choice }, ?_⟩
  unfold State.push State.accept
  split
  · split <;> simp [hn]
  · simp

theorem exists_pop (q : State Thread ℕ) (t : Thread) :
    ∃ c q' evs, c.throws = false ∧ q.pop t c = some (q', evs) := by
  obtain ⟨choice, not_full, hn⟩ := CondVar.exists_notifyOne q.not_full
  refine ⟨{ woken := choice }, ?_⟩
  unfold State.pop State.take
  split
  · split <;> simp [hn]
  · simp

theorem canStep_of_woken_push {value : ℕ} (hblocked : q.blocked t = some (.push value))
    (ht : t ∈ q.not_full.woken) : CanStep d (q, g) := by
  obtain ⟨c, q', evs, hc, hpush⟩ := exists_push d.capacity (q.leaveFull t) t value
  refine canStep_of_call (.resume t c) rfl (by simp [allows, hc])
    (show _ = some (q', evs) from ?_)
  simp [step, hblocked, ht, hpush]

theorem canStep_of_woken_pop (hblocked : q.blocked t = some .pop) (ht : t ∈ q.not_empty.woken) :
    CanStep d (q, g) := by
  obtain ⟨c, q', evs, hc, hpop⟩ := exists_pop (q.leaveEmpty t) t
  refine canStep_of_call (.resume t c) rfl (by simp [allows, hc])
    (show _ = some (q', evs) from ?_)
  simp [step, hblocked, ht, hpop]

theorem canStep_of_logging (hcalls : Calling d q g) (ht : t ≠ .main)
    (hpc : g.pc t = .logging) : CanStep d (q, g) := by
  have hfree : q.blocked t = none := by
    by_contra hblocked
    obtain ⟨c, hc⟩ := Option.ne_none_iff_exists'.mp hblocked
    simp [hcalls.loop hc] at hpc
  refine canStep_of_call (.observe t) rfl (by simp [allows, ht, hpc])
    (show _ = some (q, [q.observe d.capacity t]) from ?_)
  simp [step, hfree]

/-- A running producer can take a step or waits for a slot. -/
theorem producer_canStep (hcalls : Calling d q g) (hplaced : Placed q)
    (hstarted : g.pc (.producer id) ≠ .unstarted) (hrunning : g.pc (.producer id) ≠ .returned) :
    CanStep d (q, g) ∨ .producer id ∈ q.not_full.waiting := by
  cases hpc : g.pc (.producer id) with
  | unstarted => exact absurd hpc hstarted
  | returned => exact absurd hpc hrunning
  | logging => exact .inl (canStep_of_logging hcalls (by simp) hpc)
  | counting => exact .inl (canStep_of_tick (t := .producer id) (by simp [tick, hpc]; rfl))
  | loop =>
    by_cases hi : g.i id < d.items
    · cases hblocked : q.blocked (.producer id) with
      | none =>
        obtain ⟨c, q', evs, hc, hpush⟩ :=
          exists_push d.capacity q (.producer id) (item id (g.i id))
        refine .inl (canStep_of_call (.push (.producer id) (item id (g.i id)) c) rfl
          (by simp [allows, hpc, hi, hc]) (show _ = some (q', evs) from ?_))
        simp [step, hblocked, hpush]
      | some call =>
        cases call with
        | pop =>
          obtain ⟨id', hid, -⟩ := hcalls.pop _ hblocked
          cases hid
        | push value =>
          have hmember := (hplaced.full (.producer id)).mpr ⟨value, hblocked⟩
          rcases Finset.mem_union.mp hmember with hwaiting | hwoken
          · exact .inr hwaiting
          · exact .inl (canStep_of_woken_push hblocked hwoken)
    · exact .inl (canStep_of_tick (t := .producer id) (by simp [tick, hpc, hi]; rfl))

/-- A running consumer can take a step or waits for an item. -/
theorem consumer_canStep (hcalls : Calling d q g) (hplaced : Placed q)
    (hstarted : g.pc (.consumer id) ≠ .unstarted) (hrunning : g.pc (.consumer id) ≠ .returned) :
    CanStep d (q, g) ∨ .consumer id ∈ q.not_empty.waiting := by
  cases hpc : g.pc (.consumer id) with
  | unstarted => exact absurd hpc hstarted
  | returned => exact absurd hpc hrunning
  | logging => exact .inl (canStep_of_logging hcalls (by simp) hpc)
  | counting => exact .inl (canStep_of_tick (t := .consumer id) (by simp [tick, hpc]; rfl))
  | loop =>
    cases hblocked : q.blocked (.consumer id) with
    | none =>
      obtain ⟨c, q', evs, hc, hpop⟩ := exists_pop q (.consumer id)
      refine .inl (canStep_of_call (.pop (.consumer id) c) rfl
        (by simp [allows, hpc, hc]) (show _ = some (q', evs) from ?_))
      simp [step, hblocked, hpop]
    | some call =>
      cases call with
      | push value =>
        obtain ⟨id', hid, -⟩ := hcalls.push _ value hblocked
        cases hid
      | pop =>
        have hmember := (hplaced.empty (.consumer id)).mpr hblocked
        rcases Finset.mem_union.mp hmember with hwaiting | hwoken
        · exact .inr hwaiting
        · exact .inl (canStep_of_woken_pop hblocked hwoken)

end Enabled

section Progress
variable {past rest : List (Stmt Thread Own)}

theorem awake_of_program {P : State Thread ℕ × Program → Act Thread ℕ ⊕ Thread → Prop}
    (hrun : (program d).RunWhere P s log) : Placed s.1 ∧ Awake d.capacity s.1 := by
  have hqueue : (system d.capacity Thread ℕ).RunWhere NoThrow s.1 log := by
    refine hrun.object fun s act hallows => ?_
    cases act with
    | push t value c => cases t <;> simp_all [client, allows, NoThrow, Act.throws]
    | pop t c => cases t <;> simp_all [client, allows, NoThrow, Act.throws]
    | resume t c => simpa [client, allows, NoThrow, Act.throws] using hallows
    | try_push t value c | try_pop t c => simp [client, allows] at hallows
    | spurious t | shutdown t | observe t => rfl
  exact ⟨placed_of_run hqueue, awake_of_run (hqueue.mono fun _ _ h => h.heeded d.capacity)⟩

/-- The producers wait for slots only while a consumer can make one. -/
theorem canStep_of_join_producer (hcalls : Calling d q g) (hprogress : Progress d q g past)
    (htotals : Totals d q g log) (hplaced : Placed q) (hawake : Awake d.capacity q)
    (hmain : g.main = .join t :: rest) (hwaiting : .producer id ∈ q.not_full.waiting) :
    CanStep d (q, g) := by
  rcases q.not_full.woken.eq_empty_or_nonempty with hnone | ⟨t', ht'⟩
  · have hnotified : q.not_full.notified = ∅ := (Finset.union_eq_empty.mp hnone).1
    have hfull := hawake.slots ⟨_, hwaiting⟩
    rw [hnotified, Finset.card_empty] at hfull
    have hpos := d.capacity.pos
    have hstarted := (hprogress.all_started hmain).2 0 d.consumers_pos
    have hrunning : g.pc (.consumer 0) ≠ .returned := by
      intro hreturned
      simp [(htotals.drained 0 hreturned).2] at hfull
      omega
    rcases consumer_canStep hcalls hplaced hstarted hrunning with hstep | hwaiting'
    · exact hstep
    · -- the queue is full, so a consumer that waits has been overtaken by a notified one
      have hitems := hawake.items ⟨_, hwaiting'⟩
      obtain ⟨t', ht'⟩ := Finset.card_pos.mp (show 0 < q.not_empty.notified.card by omega)
      have hwoken : t' ∈ q.not_empty.woken := Finset.mem_union_left _ ht'
      have hblocked := (hplaced.empty t').mp (Finset.mem_union_right _ hwoken)
      exact canStep_of_woken_pop hblocked hwoken
  · obtain ⟨value, hblocked⟩ := (hplaced.full t').mp (Finset.mem_union_right _ ht')
    exact canStep_of_woken_push hblocked ht'

/-- Some thread can take a step until `main` returns. -/
theorem canStep_of_run {P : State Thread ℕ × Program → Act Thread ℕ ⊕ Thread → Prop}
    (hrun : (program d).RunWhere P s log) (hexit : s.2.exit_code = none) : CanStep d s := by
  obtain ⟨q, g⟩ := s
  obtain ⟨hcalls, ⟨past, hprogress⟩, htotals, -⟩ := holds_of_run hrun
  obtain ⟨hplaced, hawake⟩ := awake_of_program hrun
  have hfree : q.blocked .main = none := by
    by_contra hblocked
    obtain ⟨c, hc⟩ := Option.ne_none_iff_exists'.mp hblocked
    have hloop := hcalls.loop hc
    rw [hprogress.not_main] at hloop
    cases hloop
  cases hmain : g.main with
  | nil =>
    have hall : past = d.main := by simpa [hmain] using hprogress.stage.program
    exact absurd hexit (hprogress.checked.mpr (by simp [hall, Setup.main]))
  | cons stmt rest =>
    have hmem : stmt ∈ d.main := hprogress.stage.program ▸ List.mem_append_right _ (by simp [hmain])
    cases stmt with
    | start t => exact canStep_of_tick (t := .main) (by simp [tick, hmain]; rfl)
    | own k =>
      cases k with
      | shutdown =>
        exact canStep_of_call (.shutdown .main) rfl (by simp [allows, hmain])
          (show _ = some (q.shutdown, [.shutdown .main]) by simp [step, hfree])
      | check =>
        exact canStep_of_call (.observe .main) rfl (by simp [allows, hmain])
          (show _ = some (q, [q.observe d.capacity .main]) by simp [step, hfree])
    | join t =>
      by_cases hpc : g.pc t = .returned
      · exact canStep_of_tick (t := .main) (by simp [tick, hmain, hpc]; rfl)
      · obtain ⟨hproducers, hconsumers⟩ := hprogress.all_started hmain
        cases t with
        | main => simp [Setup.main] at hmem
        | producer id =>
          have hid : id < d.producers := by simpa [Setup.main] using hmem
          rcases producer_canStep hcalls hplaced (hproducers id hid) hpc with hstep | hwaiting
          · exact hstep
          · exact canStep_of_join_producer hcalls hprogress htotals hplaced hawake hmain hwaiting
        | consumer id =>
          have hid : id < d.consumers := by simpa [Setup.main] using hmem
          rcases consumer_canStep hcalls hplaced (hconsumers id hid) hpc with hstep | hwaiting
          · exact hstep
          · -- after the shutdown nobody waits
            have hnone := (hawake.quiet (hprogress.shut_down hmain)).1
            exact absurd (hnone ▸ hwaiting) (Finset.notMem_empty _)

end Progress

/-- What a thread has still to do before it must count, return or wait. -/
def Pc.weight : Pc → ℕ
  | .unstarted | .loop => 1
  | .logging => 3
  | .counting => 2
  | .returned => 0

def stmtWeight (d : Setup) : Stmt Thread Own → ℕ
  | .own .shutdown => d.producers + d.consumers + 1
  | .start _ | .join _ | .own .check => 1

/-- A thread outside the queue may still start to wait. -/
def idle (q : State Thread ℕ) (t : Thread) : ℕ := if (q.blocked t).isNone then 1 else 0

def producerWork (d : Setup) (q : State Thread ℕ) (g : Program) (id : ℕ) : ℕ :=
  10 * (d.items - g.sent id) + (g.pc (.producer id)).weight + idle q (.producer id)

def consumerWork (q : State Thread ℕ) (g : Program) (id : ℕ) : ℕ :=
  (g.pc (.consumer id)).weight + idle q (.consumer id)

def threadWork (d : Setup) (q : State Thread ℕ) (g : Program) : ℕ :=
  ∑ id ∈ Finset.range d.producers, producerWork d q g id +
    ∑ id ∈ Finset.range d.consumers, consumerWork q g id

/-- The work that is left. An item in the queue is work, and so is a thread on its way to the
mutex. -/
def work (d : Setup) (s : State Thread ℕ × Program) : ℕ :=
  threadWork d s.1 s.2 + (s.2.main.map (stmtWeight d)).sum + 5 * s.1.queue.length +
    s.1.not_full.woken.card + s.1.not_empty.woken.card

section Work
variable {past rest : List (Stmt Thread Own)} {pc : Pc}

/-- Only one producer changes. -/
theorem threadWork_producer (d : Setup) (q q' : State Thread ℕ) (g g' : Program)
    (hid : id < d.producers) (hi : ∀ j, j ≠ id → g'.i j = g.i j)
    (hpc : ∀ t, t ≠ .producer id → g'.pc t = g.pc t)
    (hq : ∀ t, t ≠ .producer id → q'.blocked t = q.blocked t) :
    ∃ m, threadWork d q g = producerWork d q g id + m ∧
      threadWork d q' g' = producerWork d q' g' id + m := by
  obtain ⟨m, hm, hm'⟩ := exists_sum_split (Finset.mem_range.mpr hid) (f := producerWork d q g)
    (k := producerWork d q' g') fun j _ hj => by
      have hne : Thread.producer j ≠ .producer id := by simpa using hj
      simp only [producerWork, Program.sent, idle, hi j hj, hpc _ hne, hq _ hne]
  have hconsumers : ∑ id ∈ Finset.range d.consumers, consumerWork q' g' id =
      ∑ id ∈ Finset.range d.consumers, consumerWork q g id :=
    Finset.sum_congr rfl fun j _ => by
      simp only [consumerWork, idle, hpc (.consumer j) (by simp), hq (.consumer j) (by simp)]
  refine ⟨m + ∑ id ∈ Finset.range d.consumers, consumerWork q g id, ?_, ?_⟩
  · rw [threadWork, hm, Nat.add_assoc]
  · rw [threadWork, hm', hconsumers, Nat.add_assoc]

/-- Only one consumer changes. -/
theorem threadWork_consumer (d : Setup) (q q' : State Thread ℕ) (g g' : Program)
    (hid : id < d.consumers) (hi : g'.i = g.i)
    (hpc : ∀ t, t ≠ .consumer id → g'.pc t = g.pc t)
    (hq : ∀ t, t ≠ .consumer id → q'.blocked t = q.blocked t) :
    ∃ m, threadWork d q g = consumerWork q g id + m ∧
      threadWork d q' g' = consumerWork q' g' id + m := by
  obtain ⟨m, hm, hm'⟩ := exists_sum_split (Finset.mem_range.mpr hid) (f := consumerWork q g)
    (k := consumerWork q' g') fun j _ hj => by
      have hne : Thread.consumer j ≠ .consumer id := by simpa using hj
      simp only [consumerWork, idle, hpc _ hne, hq _ hne]
  have hproducers : ∑ id ∈ Finset.range d.producers, producerWork d q' g' id =
      ∑ id ∈ Finset.range d.producers, producerWork d q g id :=
    Finset.sum_congr rfl fun j _ => by
      simp only [producerWork, Program.sent, idle, hi, hpc (.producer j) (by simp),
        hq (.producer j) (by simp)]
  refine ⟨∑ id ∈ Finset.range d.producers, producerWork d q g id + m, ?_, ?_⟩
  · rw [threadWork, hm, Nat.add_left_comm]
  · rw [threadWork, hm', hproducers, Nat.add_left_comm]

/-- A call of `push` that tests its predicate has used up its wakeup or has only begun. -/
theorem entersPush_woken {value : ℕ} (he : EntersPush q t value q₀) :
    q₀.not_full.woken.card + 1 ≤ q.not_full.woken.card + idle q t ∧
      q₀.not_empty = q.not_empty := by
  cases he with
  | call hcall => exact ⟨by simp [idle, hcall], rfl⟩
  | resume hblocked hwoken =>
    refine ⟨?_, rfl⟩
    have hpos := Finset.card_pos.mpr ⟨t, hwoken⟩
    simp only [State.leaveFull, CondVar.leave_woken, Finset.card_erase_of_mem hwoken]
    omega

theorem entersPop_woken (he : EntersPop q t q₀) :
    q₀.not_empty.woken.card + 1 ≤ q.not_empty.woken.card + idle q t ∧
      q₀.not_full = q.not_full := by
  cases he with
  | call hcall => exact ⟨by simp [idle, hcall], rfl⟩
  | resume hblocked hwoken =>
    refine ⟨?_, rfl⟩
    have hpos := Finset.card_pos.mpr ⟨t, hwoken⟩
    simp only [State.leaveEmpty, CondVar.leave_woken, Finset.card_erase_of_mem hwoken]
    omega

/-- The waiting threads are threads of the program. -/
theorem waiting_card (hcalls : Calling d q g) (hprogress : Progress d q g past)
    (hplaced : Placed q) :
    q.not_full.waiting.card ≤ d.producers ∧ q.not_empty.waiting.card ≤ d.consumers := by
  constructor
  · have hsub : q.not_full.waiting ⊆ (Finset.range d.producers).image .producer := by
      intro t ht
      obtain ⟨value, hblocked⟩ := (hplaced.full t).mp (Finset.mem_union_left _ ht)
      obtain ⟨id, rfl, hpc, -⟩ := hcalls.push t value hblocked
      simpa using hprogress.producer_lt (by simp [hpc])
    exact (Finset.card_le_card hsub).trans (Finset.card_image_le.trans (Finset.card_range _).le)
  · have hsub : q.not_empty.waiting ⊆ (Finset.range d.consumers).image .consumer := by
      intro t ht
      have hblocked := (hplaced.empty t).mp (Finset.mem_union_left _ ht)
      obtain ⟨id, rfl, hpc⟩ := hcalls.pop t hblocked
      simpa using hprogress.consumer_lt (by simp [hpc])
    exact (Finset.card_le_card hsub).trans (Finset.card_image_le.trans (Finset.card_range _).le)

theorem work_accept {choice : Option Thread} {not_empty : CondVar Thread}
    (hid : id < d.producers) (hpc : g.pc (.producer id) = .loop) (hi : g.i id < d.items)
    (he : EntersPush q (.producer id) (item id (g.i id)) q₀)
    (hn : q₀.not_empty.notifyOne choice = some not_empty) :
    work d ({ q₀ with queue := q₀.queue ++ [item id (g.i id)], not_empty },
      g.goto (.producer id) .logging) < work d (q, g) := by
  obtain ⟨hwoken, hempty⟩ := entersPush_woken he
  have hblocked := entersPush_blocked he
  have hcard := CondVar.notifyOne_woken_card hn
  obtain ⟨m, hm, hm'⟩ := threadWork_producer d q
    { q₀ with queue := q₀.queue ++ [item id (g.i id)], not_empty } g
    (g.goto (.producer id) .logging) hid (fun _ _ => rfl) (fun _ => goto_pc_of_ne)
    fun t ht => by simp only [hblocked, Function.update_of_ne ht]
  have hsent : g.sent id = g.i id := by simp [Program.sent, hpc, Pc.busy]
  have hsent' : (g.goto (.producer id) .logging).sent id = g.i id + 1 := by
    simp [Program.sent, Pc.busy]
  have hidle : idle { q₀ with queue := q₀.queue ++ [item id (g.i id)], not_empty }
      (.producer id) = 1 := by simp [idle, hblocked]
  have hlength : q₀.queue.length = q.queue.length := by rw [he.queue_eq]
  rw [hempty] at hcard
  simp only [work, hm, hm', producerWork, hsent, hsent', hidle, hpc, goto_pc_self, Pc.weight,
    goto_main, List.length_append, List.length_singleton]
  omega

theorem work_waitPush (hid : id < d.producers)
    (he : EntersPush q (.producer id) (item id (g.i id)) q₀) :
    work d ({ q₀ with
      not_full := q₀.not_full.join (.producer id)
      blocked := Function.update q₀.blocked (.producer id) (some (.push (item id (g.i id)))) },
      g) < work d (q, g) := by
  obtain ⟨hwoken, hempty⟩ := entersPush_woken he
  have hblocked := entersPush_blocked he
  have hcard := CondVar.join_woken_card q₀.not_full (.producer id)
  obtain ⟨m, hm, hm'⟩ := threadWork_producer d q
    { q₀ with
      not_full := q₀.not_full.join (.producer id)
      blocked := Function.update q₀.blocked (.producer id) (some (.push (item id (g.i id)))) }
    g g hid (fun _ _ => rfl) (fun _ _ => rfl)
    fun t ht => by simp only [hblocked, Function.update_of_ne ht]
  have hidle : idle { q₀ with
      not_full := q₀.not_full.join (.producer id)
      blocked := Function.update q₀.blocked (.producer id) (some (.push (item id (g.i id)))) }
      (.producer id) = 0 := by simp [idle]
  have hlength : q₀.queue.length = q.queue.length := by rw [he.queue_eq]
  have hother : q₀.not_empty.woken.card = q.not_empty.woken.card := by rw [hempty]
  simp only [work, hm, hm', producerWork, hidle]
  omega

theorem work_take {value : ℕ} {queue : List ℕ} {choice : Option Thread}
    {not_full : CondVar Thread} (hid : id < d.consumers) (hpc : g.pc (.consumer id) = .loop)
    (he : EntersPop q (.consumer id) q₀) (hcons : q₀.queue = value :: queue)
    (hn : q₀.not_full.notifyOne choice = some not_full) :
    work d ({ q₀ with queue, not_full }, g.goto (.consumer id) .logging) < work d (q, g) := by
  obtain ⟨hwoken, hfull⟩ := entersPop_woken he
  have hblocked := entersPop_blocked he
  have hcard := CondVar.notifyOne_woken_card hn
  obtain ⟨m, hm, hm'⟩ := threadWork_consumer d q { q₀ with queue, not_full } g
    (g.goto (.consumer id) .logging) hid rfl
    (fun _ => goto_pc_of_ne) fun t ht => by simp only [hblocked, Function.update_of_ne ht]
  have hidle : idle { q₀ with queue, not_full } (.consumer id) = 1 := by simp [idle, hblocked]
  have hlength : q.queue.length = queue.length + 1 := by
    rw [← he.queue_eq, hcons, List.length_cons]
  rw [hfull] at hcard
  simp only [work, hm, hm', consumerWork, hidle, hpc, goto_pc_self, Pc.weight, goto_main, hlength]
  omega

theorem work_nothing (hid : id < d.consumers) (hpc : g.pc (.consumer id) = .loop)
    (he : EntersPop q (.consumer id) q₀) :
    work d (q₀, g.goto (.consumer id) .returned) < work d (q, g) := by
  obtain ⟨hwoken, hfull⟩ := entersPop_woken he
  have hblocked := entersPop_blocked he
  obtain ⟨m, hm, hm'⟩ := threadWork_consumer d q q₀ g
    (g.goto (.consumer id) .returned) hid rfl (fun _ => goto_pc_of_ne)
    fun t ht => by simp only [hblocked, Function.update_of_ne ht]
  have hidle : idle q₀ (.consumer id) = 1 := by simp [idle, hblocked]
  have hlength : q₀.queue.length = q.queue.length := by rw [he.queue_eq]
  have hother : q₀.not_full.woken.card = q.not_full.woken.card := by rw [hfull]
  simp only [work, hm, hm', consumerWork, hidle, hpc, goto_pc_self, Pc.weight, goto_main]
  omega

theorem work_waitPop (hid : id < d.consumers) (he : EntersPop q (.consumer id) q₀) :
    work d ({ q₀ with
      not_empty := q₀.not_empty.join (.consumer id)
      blocked := Function.update q₀.blocked (.consumer id) (some .pop) }, g) < work d (q, g) := by
  obtain ⟨hwoken, hfull⟩ := entersPop_woken he
  have hblocked := entersPop_blocked he
  have hcard := CondVar.join_woken_card q₀.not_empty (.consumer id)
  obtain ⟨m, hm, hm'⟩ := threadWork_consumer d q
    { q₀ with
      not_empty := q₀.not_empty.join (.consumer id)
      blocked := Function.update q₀.blocked (.consumer id) (some .pop) } g g hid rfl
    (fun _ _ => rfl)
    fun t ht => by simp only [hblocked, Function.update_of_ne ht]
  have hidle : idle { q₀ with
      not_empty := q₀.not_empty.join (.consumer id)
      blocked := Function.update q₀.blocked (.consumer id) (some .pop) } (.consumer id) = 0 := by
    simp [idle]
  have hlength : q₀.queue.length = q.queue.length := by rw [he.queue_eq]
  have hother : q₀.not_full.woken.card = q.not_full.woken.card := by rw [hfull]
  simp only [work, hm, hm', consumerWork, hidle]
  omega

/-- A thread that is not in a call, and does not begin one, uses up a step of its own. -/
theorem work_goto (hsent : ∀ j, g'.sent j = g.sent j) (hmain : g'.main = g.main)
    (hid : t ∈ (Finset.range d.producers).image .producer ∪
      (Finset.range d.consumers).image .consumer)
    (hpc : ∀ t', t' ≠ t → g'.pc t' = g.pc t') (hless : (g'.pc t).weight < (g.pc t).weight) :
    work d (q, g') < work d (q, g) := by
  have hle (t' : Thread) : (g'.pc t').weight ≤ (g.pc t').weight := by
    by_cases ht : t' = t
    · exact ht ▸ hless.le
    · rw [hpc t' ht]
  have hproducers (j : ℕ) : producerWork d q g' j ≤ producerWork d q g j := by
    have hj := hle (.producer j)
    simp only [producerWork, hsent]
    omega
  have hconsumers (j : ℕ) : consumerWork q g' j ≤ consumerWork q g j := by
    have hj := hle (.consumer j)
    simp only [consumerWork]
    omega
  have hwork : threadWork d q g' < threadWork d q g := by
    rcases Finset.mem_union.mp hid with hmem | hmem
    · obtain ⟨j, hj, rfl⟩ := Finset.mem_image.mp hmem
      refine Nat.add_lt_add_of_lt_of_le (Finset.sum_lt_sum (fun j _ => hproducers j) ⟨j, hj, ?_⟩)
        (Finset.sum_le_sum fun j _ => hconsumers j)
      simp only [producerWork, hsent]
      omega
    · obtain ⟨j, hj, rfl⟩ := Finset.mem_image.mp hmem
      refine Nat.add_lt_add_of_le_of_lt (Finset.sum_le_sum fun j _ => hproducers j)
        (Finset.sum_lt_sum (fun j _ => hconsumers j) ⟨j, hj, ?_⟩)
      simp only [consumerWork]
      omega
  simp only [work, hmain]
  omega

/-- A statement of `main` that changes no other thread. -/
theorem work_main {x : Stmt Thread Own} (hmain : g.main = x :: rest) (hmain' : g'.main = rest)
    (hwork : threadWork d q g' = threadWork d q g) : work d (q, g') < work d (q, g) := by
  have hx : 1 ≤ stmtWeight d x := by
    unfold stmtWeight
    split <;> omega
  simp only [work, hmain, hmain', hwork, List.map_cons, List.sum_cons]
  omega

theorem work_shutdown (hcalls : Calling d q g) (hprogress : Progress d q g past)
    (hplaced : Placed q) (hmain : g.main = .own .shutdown :: rest) :
    work d (q.shutdown, { g with main := rest }) < work d (q, g) := by
  obtain ⟨hfull, hempty⟩ := waiting_card hcalls hprogress hplaced
  have hfull' := CondVar.notifyAll_woken_card q.not_full
  have hempty' := CondVar.notifyAll_woken_card q.not_empty
  have hsame : threadWork d q.shutdown { g with main := rest } = threadWork d q g := rfl
  have hnotified : q.shutdown.not_full = q.not_full.notifyAll ∧
    q.shutdown.not_empty = q.not_empty.notifyAll ∧ q.shutdown.queue = q.queue := ⟨rfl, rfl, rfl⟩
  simp only [work, hsame, hmain, List.map_cons, List.sum_cons, stmtWeight, hnotified]
  omega

/-- A thread that has been started has as much to do as one that has not. -/
theorem threadWork_start (hpc : g.pc t = .unstarted) :
    threadWork d q ({ g with main := rest }.goto t .loop) = threadWork d q g := by
  have hweight (t' : Thread) :
      (({ g with main := rest }.goto t .loop).pc t').weight = (g.pc t').weight := by
    by_cases ht : t' = t
    · rw [ht, goto_pc_self, hpc]
      rfl
    · rw [goto_pc_of_ne ht]
  have hsent (j : ℕ) : ({ g with main := rest }.goto t .loop).sent j = g.sent j := by
    have hbusy : (Pc.loop).busy = (({ g with main := rest } : Program).pc t).busy := by
      simp [hpc, Pc.busy]
    rw [Program.sent, goto_busy hbusy]
    rfl
  simp only [threadWork, producerWork, consumerWork, hweight, hsent]

/-- Every step but a spurious wakeup uses up work. -/
theorem work_step (hcalls : Calling d q g) (hprogress : Progress d q g past) (hplaced : Placed q)
    (hs : Moves d q g a q' g' evs) :
    work d (q', g') + 1 ≤ work d (q, g) + if spurious a then 2 else 0 := by
  have hthread {t : Thread} (hpc : g.pc t ≠ .unstarted) :
      t ∈ (Finset.range d.producers).image .producer ∪
        (Finset.range d.consumers).image .consumer := by
    cases t with
    | main => exact absurd hprogress.not_main hpc
    | producer id => simpa using hprogress.producer_lt hpc
    | consumer id => simpa using hprogress.consumer_lt hpc
  have hpaid {x y c : ℕ} (h : x < y) : x + 1 ≤ y + c := Nat.le_add_right_of_le h
  cases hs with
  | accept hpc hi he _ _ hn =>
    exact hpaid (work_accept (hprogress.producer_lt (by simp [hpc])) hpc hi he hn)
  | @reject id q₀ _ hpc _ he hdone =>
    rw [he.done_eq] at hdone
    have hid := hprogress.producer_lt (show g.pc (.producer id) ≠ .unstarted by simp [hpc])
    have hreturned := hprogress.producers_returned hdone hid
    simp [hpc] at hreturned
  | waitPush hpc _ he _ _ => exact hpaid (work_waitPush (hprogress.producer_lt (by simp [hpc])) he)
  | take hpc he hcons hn =>
    exact hpaid (work_take (hprogress.consumer_lt (by simp [hpc])) hpc he hcons hn)
  | nothing hpc he _ _ =>
    exact hpaid (work_nothing (hprogress.consumer_lt (by simp [hpc])) hpc he)
  | waitPop hpc he _ _ => exact hpaid (work_waitPop (hprogress.consumer_lt (by simp [hpc])) he)
  | @wakeFull t _ =>
    have hcard := CondVar.wake_woken_card q.not_full t
    have hsame : threadWork d { q with not_full := q.not_full.wake t } g = threadWork d q g := rfl
    simp only [work, hsame, spurious, if_true]
    omega
  | @wakeEmpty t _ =>
    have hcard := CondVar.wake_woken_card q.not_empty t
    have hsame : threadWork d { q with not_empty := q.not_empty.wake t } g = threadWork d q g := rfl
    simp only [work, hsame, spurious, if_true]
    omega
  | @log t _ _ hpc =>
    refine hpaid (work_goto (t := t) (fun j => ?_) rfl (hthread (by simp [hpc]))
      (fun _ => goto_pc_of_ne) (by simp [hpc, Pc.weight]))
    rw [Program.sent, goto_busy (by simp [hpc, Pc.busy])]
    rfl
  | check hmain => exact hpaid (work_main hmain rfl rfl)
  | shutdown hmain => exact hpaid (work_shutdown hcalls hprogress hplaced hmain)
  | start hmain => exact hpaid (work_main hmain rfl (threadWork_start (hprogress.start_new hmain)))
  | join hmain _ => exact hpaid (work_main hmain rfl rfl)
  | @produced id _ hpc =>
    refine hpaid (work_goto (t := .producer id) (fun j => ?_) rfl (hthread (by simp [hpc]))
      (fun _ => goto_pc_of_ne) (by simp [hpc, Pc.weight]))
    by_cases hj : j = id
    · subst hj
      simp [Program.sent, hpc, Pc.busy]
    · simp [Program.sent, goto_pc_of_ne (show Thread.producer j ≠ .producer id by simpa using hj),
        Function.update_of_ne hj]
  | @consumed id _ hpc =>
    refine hpaid (work_goto (t := .consumer id) (fun j => ?_) rfl (hthread (by simp [hpc]))
      (fun _ => goto_pc_of_ne) (by simp [hpc, Pc.weight]))
    simp [Program.sent, goto_pc_of_ne (show Thread.producer j ≠ .consumer id by simp)]
  | @finished id _ hpc _ =>
    refine hpaid (work_goto (t := .producer id) (fun j => ?_) rfl (hthread (by simp [hpc]))
      (fun _ => goto_pc_of_ne) (by simp [hpc, Pc.weight]))
    rw [Program.sent, goto_busy (by simp [hpc, Pc.busy])]
    rfl

theorem work_init (d : Setup) : work d (program d).init =
    d.producers * (10 * d.items + 5) + 5 * d.consumers + 2 := by
  have hproducer (id : ℕ) : producerWork d (program d).init.1 (program d).init.2 id =
      10 * d.items + 2 := rfl
  have hconsumer (id : ℕ) : consumerWork (program d).init.1 (program d).init.2 id = 2 := rfl
  have hmain : ((program d).init.2.main.map (stmtWeight d)).sum =
      3 * d.consumers + 3 * d.producers + 2 := by
    simp [program, drive, client, Setup.main, Function.comp_def, stmtWeight]
    omega
  have hthreads : threadWork d (program d).init.1 (program d).init.2 =
      d.producers * (10 * d.items + 2) + 2 * d.consumers := by
    rw [threadWork, Finset.sum_const_nat (m := 10 * d.items + 2) fun id _ => hproducer id,
      Finset.sum_const_nat (m := 2) fun id _ => hconsumer id, Finset.card_range, Finset.card_range,
      Nat.mul_comm d.consumers 2]
  have hnone : (program d).init.1.queue.length = 0 ∧ (program d).init.1.not_full.woken.card = 0 ∧
      (program d).init.1.not_empty.woken.card = 0 := ⟨rfl, rfl, rfl⟩
  rw [work, hmain, hthreads, hnone.1, hnone.2.1, hnone.2.2, Nat.mul_add, Nat.mul_add]
  omega

end Work

section Runs
variable {as : List (Act Thread ℕ ⊕ Thread)}

/-- No hangs. A run takes no more steps than its setup allows, two more for each spurious wakeup;
and until `main` returns some thread can take a step that is no spurious wakeup. -/
theorem demo_never_hangs (hrun : (program d).Labelled as s log) :
    as.length ≤
        d.producers * (10 * d.items + 5) + 5 * d.consumers + 2 + 2 * as.countP spurious ∧
      (s.2.exit_code = none → CanStep d s) := by
  refine ⟨?_, canStep_of_run hrun.run⟩
  have hbound := hrun.length_le (fun s _ => work d s) (fun a => if spurious a then 2 else 0)
    fun s log a s' evs hrun hs => ?_
  · rw [work_init, sum_map_ite] at hbound
    omega
  · obtain ⟨hcalls, ⟨past, hprogress⟩, -, -⟩ := holds_of_run hrun
    exact work_step hcalls hprogress (awake_of_program hrun).1 (program_moves hcalls hs)

/-- After the consumer has been woken with the only item, and before `main` joins. -/
theorem demo_never_hangs_oneItem : ∃ s log,
    (program ⟨⟨1, Nat.one_pos⟩, 1, 1, 1, Nat.one_pos⟩).Labelled (oneItem.take 5) s log ∧
      s.1.queue = [0] ∧ (oneItem.take 5).length ≤ 22 + 2 * (oneItem.take 5).countP spurious ∧
      CanStep ⟨⟨1, Nat.one_pos⟩, 1, 1, 1, Nat.one_pos⟩ s := by
  obtain ⟨s, log, hrun, hq⟩ :=
    (program ⟨⟨1, Nat.one_pos⟩, 1, 1, 1, Nat.one_pos⟩).exists_labelled_of_exec
      (program ⟨⟨1, Nat.one_pos⟩, 1, 1, 1, Nat.one_pos⟩).init (oneItem.take 5)
      (fun s _ => decide (s.1.queue = [0]) && s.2.exit_code.isNone) (by decide +kernel)
  obtain ⟨hqueue, hexit⟩ : s.1.queue = [0] ∧ s.2.exit_code = none := by simpa using hq
  obtain ⟨hlength, hstep⟩ := demo_never_hangs hrun
  exact ⟨s, log, hrun, hqueue, hlength, hstep hexit⟩

end Runs
end ThreadSafeQueue.Demo
