import LowLevelCpp.IntrusiveHashMap.Recency

/-! The lifetime of the slot array. `clear` releases it and keeps the pointer and the size, so that
whatever comes after finds a released array; and `insert` has no guard against a null one. -/
namespace IntrusiveHashMap
open Foundations Foundations.System

variable {ι : Type}

/-- `!hmap.map` -/
def Slots.isNull : Slots ι → Bool
  | .null => true
  | .allocated _ | .released => false

theorem Slots.isNull_iff {map : Slots ι} : map.isNull = true ↔ map = .null := by
  cases map <;> simp [Slots.isNull]

/-- The calls that the table is ready for: it inserts into slots that exist and clears none. -/
def Keeps (s : State ι) : Act ι → Prop
  | .insert _ => s.heap.hmap.map.isNull = false
  | .clear => s.heap.hmap.map.isNull = true
  | .write _ _ | .lookup _ _ | .remove _ _ | .size | .destroy => True

instance (s : State ι) : (act : Act ι) → Decidable (Keeps s act)
  | .insert _ => inferInstanceAs (Decidable (s.heap.hmap.map.isNull = false))
  | .clear => inferInstanceAs (Decidable (s.heap.hmap.map.isNull = true))
  | .write _ _ | .lookup _ _ | .remove _ _ | .size | .destroy => .isTrue trivial

section Slots
variable {h : Heap ι} {key : ι} {eq : ι → ι → Bool} {slots : Array (Option ι)}

theorem lookup_null (hmap : h.hmap.map = .null) : h.lookup key eq = .ok none := by
  simp only [Heap.lookup, Heap.lookup_, hmap]
  rfl

/-- A search starts with a read of a slot. -/
theorem lookup_released (hmap : h.hmap.map = .released) :
    h.lookup key eq = .error .releasedSlots := by
  simp only [Heap.lookup, Heap.lookup_, hmap, Heap.search, Heap.load]
  rfl

theorem clear_null (hmap : h.hmap.map = .null) : h.clear = .ok h := by
  simp only [Heap.clear, hmap]
  rfl

theorem clear_allocated (hmap : h.hmap.map = .allocated slots) :
    h.clear = .ok (h.setMap .released) := by
  simp only [Heap.clear, hmap]
  rfl

end Slots

section Lifetime
variable [DecidableEq ι] {n : TableSize} {calloc : Bool} {h : Heap ι} {s s' : State ι}
  {log evs : List (Event ι)} {act : Act ι} {key node : ι} {eq : ι → ι → Bool}

/-- The map is empty: `size` is zero, and no search finds a node or has an undefined access. -/
def Heap.Empty (h : Heap ι) : Prop :=
  h.size = 0 ∧ ∀ key eq, h.lookup key eq = .ok none ∧ h.remove key eq = .ok (none, h)

/-- No access was made through a null or a released array, and none was released twice; a destroyed
map has released the array that it got; a cleared map is empty until the next insertion. -/
structure Sound (calloc : Bool) (s : State ι) (log : List (Event ι)) : Prop where
  accesses : ∀ f, .fault f ∉ log
  released : .destroyed ∈ log → s.heap.hmap.map = if calloc then .released else .null
  emptied : ∀ pre post, log = pre ++ .cleared :: post → (∀ node, .inserted node ∉ post) →
    s.heap.Empty

theorem remove_null (hmap : h.hmap.map = .null) : h.remove key eq = .ok (none, h) := by
  simp only [Heap.remove, Heap.lookup_, hmap]
  rfl

theorem insert_null (hmap : h.hmap.map = .null) : h.insert node = .error .nullSlots := by
  simp only [Heap.insert, Heap.insert_, Heap.load, hmap]
  rfl

/-- The table without slots: nothing is ever in it. -/
structure Unallocated (s : State ι) : Prop where
  null : s.heap.hmap.map = .null
  size : s.heap.size = 0

theorem Unallocated.empty (hu : Unallocated s) : s.heap.Empty :=
  ⟨hu.size, fun _ _ => ⟨lookup_null hu.null, remove_null hu.null⟩⟩

theorem Unallocated.step (hu : Unallocated s) (hkeeps : Keeps s act)
    (hs : step s act = some (s', evs)) : Unallocated s' ∧ ∀ f, .fault f ∉ evs := by
  obtain ⟨hnull, hsize⟩ := hu
  unfold IntrusiveHashMap.step at hs
  split at hs
  · cases hs
  cases act with
  | write node value =>
    simp only at hs
    split at hs
    · cases hs
    · cases hs
      exact ⟨⟨hnull, hsize⟩, by simp⟩
  | insert node => simp [Keeps, hnull, Slots.isNull] at hkeeps
  | lookup key eq =>
    simp only [State.call, lookup_null hnull] at hs
    cases hs
    exact ⟨⟨hnull, hsize⟩, by simp⟩
  | remove key eq =>
    simp only [State.call, remove_null hnull] at hs
    cases hs
    exact ⟨⟨hnull, hsize⟩, by simp⟩
  | size =>
    cases hs
    exact ⟨⟨hnull, hsize⟩, by simp⟩
  | clear =>
    simp only [State.call, clear_null hnull] at hs
    cases hs
    exact ⟨⟨hnull, hsize⟩, by simp⟩
  | destroy =>
    simp only [State.call, clear_null hnull] at hs
    cases hs
    exact ⟨⟨hnull, hsize⟩, by simp⟩

/-- The table with its slots, until the destructor releases them. -/
structure Owning (n : TableSize) (s : State ι) (log : List (Event ι)) : Prop where
  accesses : ∀ f, .fault f ∉ log
  uncleared : .cleared ∉ log
  running : s.ended = false → Represents n s.heap s.present ∧ .destroyed ∉ log
  destroyed : s.ended = true → s.heap.hmap.map = .released

/-- A call that uses the map neither clears nor destroys it. -/
theorem uses_events (huses : Uses s act) (hs : step s act = some (s', evs)) :
    .cleared ∉ evs ∧ .destroyed ∉ evs ∧ ((∀ f, .fault f ∉ evs) → s'.ended = false) := by
  unfold IntrusiveHashMap.step at hs
  split at hs
  · cases hs
  rename_i hrunning
  have hcall {α : Type} (result : Except Fault α) (next : α → State ι × List (Event ι))
      (hnext : ∀ a, .cleared ∉ (next a).2 ∧ .destroyed ∉ (next a).2 ∧ (next a).1.ended = s.ended)
      (heq : s.call result next = (s', evs)) :
      .cleared ∉ evs ∧ .destroyed ∉ evs ∧ ((∀ f, .fault f ∉ evs) → s'.ended = false) := by
    cases result with
    | ok a =>
      have ha := hnext a
      simp only [State.call] at heq
      rw [heq] at ha
      exact ⟨ha.1, ha.2.1, fun _ => by rw [ha.2.2]; simpa using hrunning⟩
    | error f =>
      cases heq
      exact ⟨by simp, by simp, fun hfaults => absurd (List.mem_singleton_self _) (hfaults f)⟩
  cases act with
  | write node value =>
    simp only at hs
    split at hs
    · cases hs
    · cases hs
      simpa using hrunning
  | insert node =>
    simp only at hs
    split at hs
    · cases hs
    · exact hcall _ _ (by simp) (Option.some.inj hs)
  | lookup key eq => exact hcall _ _ (by simp) (Option.some.inj hs)
  | remove key eq => exact hcall _ _ (by simp) (Option.some.inj hs)
  | size =>
    cases hs
    simpa using hrunning
  | clear => exact huses.elim
  | destroy => exact huses.elim

theorem running_of_step (hs : step s act = some (s', evs)) : s.ended = false := by
  unfold IntrusiveHashMap.step at hs
  split at hs
  · cases hs
  · exact Bool.eq_false_iff.mpr ‹_›

theorem Owning.step (ho : Owning n s log) (hkeeps : Keeps s act)
    (hs : step s act = some (s', evs)) : Owning n s' (log ++ evs) := by
  have hrunning := running_of_step hs
  obtain ⟨hr, hdestroyed⟩ := ho.running hrunning
  obtain ⟨slots, hmap, -⟩ := hr.chains
  have hused (huses : Uses s act) : Owning n s' (log ++ evs) := by
    obtain ⟨hr', hfaults⟩ := hr.step huses hs
    obtain ⟨hclears, hdestroys, hends⟩ := uses_events huses hs
    refine ⟨fun f => ?_, ?_, fun _ => ⟨hr', ?_⟩, fun hended => ?_⟩
    · simpa using ⟨ho.accesses f, hfaults f⟩
    · simpa using ⟨ho.uncleared, hclears⟩
    · simpa using ⟨hdestroyed, hdestroys⟩
    · rw [hends hfaults] at hended
      cases hended
  cases act with
  | clear => simp [Keeps, hmap, Slots.isNull] at hkeeps
  | destroy =>
    unfold IntrusiveHashMap.step at hs
    simp only [hrunning, State.call, clear_allocated hmap] at hs
    cases hs
    exact ⟨by simpa using ho.accesses, by simpa using ho.uncleared,
      fun hended => Bool.noConfusion hended, fun _ => rfl⟩
  | write node value => exact hused trivial
  | insert node => exact hused trivial
  | lookup key eq => exact hused trivial
  | remove key eq => exact hused trivial
  | size => exact hused trivial

theorem unallocated_of_run (hrun : (system ι n false).RunWhere Keeps s log) :
    Unallocated s ∧ ∀ f, .fault f ∉ log := by
  refine hrun.invariant (I := fun s log => Unallocated s ∧ ∀ f, .fault f ∉ log)
    ⟨⟨rfl, rfl⟩, by simp⟩ fun s log act s' evs _ ih hkeeps hs => ?_
  obtain ⟨hu, hfaults⟩ := ih.1.step hkeeps hs
  exact ⟨hu, fun f => by simpa using ⟨ih.2 f, hfaults f⟩⟩

theorem owning_of_run (hrun : (system ι n true).RunWhere Keeps s log) : Owning n s log :=
  hrun.invariant (I := fun s log => Owning n s log)
    ⟨by simp, by simp, fun _ => ⟨represents_construct n, by simp⟩,
      fun hended => Bool.noConfusion hended⟩
    fun _ _ _ _ _ _ ho hkeeps hs => ho.step hkeeps hs

theorem sound_of_run (hrun : (system ι n calloc).RunWhere Keeps s log) : Sound calloc s log := by
  cases calloc with
  | false =>
    obtain ⟨hu, hfaults⟩ := unallocated_of_run hrun
    exact ⟨hfaults, fun _ => hu.null, fun _ _ _ _ => hu.empty⟩
  | true =>
    have ho := owning_of_run hrun
    refine ⟨ho.accesses, fun hdestroyed => ho.destroyed ?_, fun pre post hlog _ => ?_⟩
    · by_contra hrunning
      exact (ho.running (Bool.eq_false_iff.mpr hrunning)).2 hdestroyed
    · exact absurd (by simp [hlog]) ho.uncleared

/-- An insertion without slots reads through the null pointer, and whoever looks for a node in a
cleared map reads the released slots. -/
theorem keeps_of_sound (hrun : (system ι n calloc).RunWhere Keeps s log) (key : ι)
    (hs : step s act = some (s', evs)) (hsound : Sound calloc s' (log ++ evs)) : Keeps s act := by
  have hrunning := running_of_step hs
  have hlast := hs
  unfold IntrusiveHashMap.step at hs
  simp only [hrunning] at hs
  cases act with
  | insert node =>
    by_contra hnull
    have hmap : s.heap.hmap.map = .null :=
      Slots.isNull_iff.mp (by simpa [Keeps] using hnull)
    simp only [State.call, insert_null hmap] at hs
    split at hs
    · cases hs
    · split at hs
      · cases hs
      · cases hs
        exact hsound.accesses .nullSlots (by simp)
  | clear =>
    cases calloc with
    | false =>
      rw [Keeps, (unallocated_of_run hrun).1.null]
      rfl
    | true =>
      obtain ⟨slots, hmap, -⟩ := ((owning_of_run hrun).running hrunning).1.chains
      simp only [State.call, clear_allocated hmap] at hs
      cases hs
      have hempty := hsound.emptied log [] rfl (by simp)
      have hlookup := (hempty.2 key fun _ _ => true).1
      rw [lookup_released rfl] at hlookup
      cases hlookup
  | write node value => trivial
  | lookup key eq => trivial
  | remove key eq => trivial
  | size => trivial
  | destroy => trivial

/-- The map is sound over its whole lifetime as long as it is not cleared while it has slots, and
nothing is inserted while it has none; the first call that does either ends that. -/
theorem lifetime_sound (hrun : (system ι n calloc).RunWhere Keeps s log) :
    Sound calloc s log ∧ ∀ (_ : ι) act s' evs, (system ι n calloc).step s act = some (s', evs) →
      (Sound calloc s' (log ++ evs) ↔ Keeps s act) :=
  ⟨sound_of_run hrun, fun key _ _ _ hs =>
    ⟨keeps_of_sound hrun key hs, fun hkeeps => sound_of_run (hrun.step hkeeps hs)⟩⟩

end Lifetime

theorem lifetime_sound_duplicates :
    ∃ s log, (system ℕ fourSlots true).RunWhere Keeps s log ∧ .destroyed ∈ log ∧
      Sound true s log := by
  obtain ⟨s, log, hrun, hq⟩ := (system ℕ fourSlots true).exists_run_of_exec Keeps
    (duplicates ++ [.destroy]) (fun _ log => decide (.destroyed ∈ log)) (by decide +kernel)
  exact ⟨s, log, hrun, of_decide_eq_true hq, (lifetime_sound hrun).1⟩

/-- The destructor of a cleared map releases the slots again. -/
theorem lifetime_unsound :
    ∃ s log, (system ℕ fourSlots true).Run s log ∧ .cleared ∈ log ∧
      .fault .releasedSlots ∈ log ∧ ¬ Sound true s log := by
  obtain ⟨s, log, hrun, hq⟩ := (system ℕ fourSlots true).exists_run_of_exec (fun _ _ => True)
    [.clear, .destroy] (fun _ log => decide (.cleared ∈ log ∧ .fault .releasedSlots ∈ log))
    (by decide +kernel)
  obtain ⟨hcleared, hfault⟩ := of_decide_eq_true hq
  exact ⟨s, log, hrun, hcleared, hfault, fun h => h.accesses _ hfault⟩

end IntrusiveHashMap
