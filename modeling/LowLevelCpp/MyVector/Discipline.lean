import LowLevelCpp.MyVector.Members

/-! Runs of `my::vector` in which every member finds the buffer that it needs: each object is
destroyed once, and what is used exists. A call that finds another buffer breaks this. -/
namespace MyVector
open Foundations Outcome

variable {T : Type}

def Event.lifetime : Event → Option Lifetime
  | .memory e => some e
  | _ => none

def lifetimes (log : List Event) : List Lifetime := log.filterMap Event.lifetime

/-- Only accepted uses of memory; after the destructor each object has been destroyed as often as it
was constructed, and each block released. -/
structure Disciplined (s : State T) (log : List Lifetime) : Prop where
  accepted : (discipline.replay log).isSome = true
  destroyed : s.destructed = true →
    ∀ b i, log.count (.constructed b i) = log.count (.destroyed b i)
  released : s.destructed = true → ∀ t, discipline.replay log = some t → ∀ b, t.blocks b = none

/-- No argument is an element of the vector. -/
def Act.NonAliasing : Act T → Prop
  | .pushBack (.object _ _) | .emplaceBack (.object _ _) | .emplace _ (.object _ _) => False
  | _ => True

instance : (act : Act T) → Decidable act.NonAliasing
  | .pushBack (.object _ _) | .emplaceBack (.object _ _) | .emplace _ (.object _ _) => .isFalse id
  | .pushBack (.value _) | .emplaceBack (.value _) | .emplace _ (.value _) | .reserve _
  | .subscript _ | .popBack | .clear | .shrinkToFit | .destruct => .isTrue trivial

/-- The member finds the buffer that it needs. -/
def Meets (E : Environment) (s : State T) : Act T → Prop
  | .pushBack _ => s.CanPush E
  | .emplaceBack _ | .emplace _ _ => s.CanEmplace E
  | .reserve new_capacity => s.CanReserve E new_capacity
  | .shrinkToFit => s.CanShrink E
  | .subscript _ | .popBack | .clear => True
  | .destruct => s.form ≠ some .raw ∧ ∀ i < s.length, (s.objects s.data i).isSome = true

instance (E : Environment) (s : State T) : (act : Act T) → Decidable (Meets E s act)
  | .pushBack _ => inferInstanceAs (Decidable (s.CanPush E))
  | .emplaceBack _ | .emplace _ _ => inferInstanceAs (Decidable (s.CanEmplace E))
  | .reserve n => inferInstanceAs (Decidable (s.CanReserve E n))
  | .shrinkToFit => inferInstanceAs (Decidable (s.CanShrink E))
  | .subscript _ | .popBack | .clear => .isTrue trivial
  | .destruct => inferInstanceAs (Decidable (_ ∧ ∀ i < s.length, _))

theorem lifetimes_append (log evs : List Event) :
    lifetimes (log ++ evs) = lifetimes log ++ lifetimes evs :=
  List.filterMap_append

theorem lifetimes_report {r : Result T} {returned : List Event} (h : lifetimes returned = []) :
    lifetimes (report r returned).2 = r.events := by
  have hmemory : lifetimes (r.events.map .memory) = r.events := by
    unfold lifetimes
    rw [List.filterMap_map]
    exact List.filterMap_some
  have hlast : lifetimes (if r.threw = true then [.threw] else returned) = [] := by
    split
    · rfl
    · exact h
  unfold report lifetimes at *
  rw [List.filterMap_append, hmemory, hlast, List.append_nil]

theorem threw_mem_report {r : Result T} {returned : List Event} (h : .threw ∉ returned) :
    .threw ∈ (report r returned).2 ↔ r.threw = true := by
  unfold report
  cases hthrew : r.threw <;> simp [h]

/-- The position that `emplace` is called with is one of the vector. -/
def State.Inside (s : State T) : Act T → Prop
  | .emplace index _ => index ≤ s.size
  | _ => True

/-- What a member leaves: a tidy vector, or nothing. -/
def Left (E : Environment) (s : State T) : Prop :=
  if s.destructed then (∀ b i, s.objects b i = none) ∧ ∀ b, s.blocks b = none else Tidy E s

theorem Tidy.left {E : Environment} {s : State T} (ht : Tidy E s) : Left E s := by
  unfold Left
  rwa [ht.running]

theorem Left.tidy {E : Environment} {s : State T} (h : Left E s) (hrunning : s.destructed = false) :
    Tidy E s := by
  unfold Left at h
  rwa [hrunning] at h

/-- The discipline has accepted the run and sees what is left. -/
def Followable (E : Environment) (s : State T) (log : List Event) : Prop :=
  discipline.replay (lifetimes log) = some s.storage ∧ Left E s

theorem Followable.disciplined {E : Environment} {s : State T} {log : List Event}
    (h : Followable E s log) : Disciplined s (lifetimes log) := by
  obtain ⟨hreplay, hleft⟩ := h
  refine ⟨by simp [hreplay], fun hd b i => ?_, fun hd t ht b => ?_⟩
  · have hcount := discipline_count hreplay b i
    unfold Left at hleft
    rw [if_pos hd] at hleft
    simpa [hleft.1] using hcount
  · unfold Left at hleft
    rw [if_pos hd] at hleft
    obtain rfl := Option.some.inj (hreplay.symm.trans ht)
    exact hleft.2 b

variable [Inhabited T] {E : Environment} {s s' : State T} {act : Act T} {evs : List Event}

/-- What the member does. -/
def State.perform (E : Environment) (s : State T) : Act T → Result T
  | .pushBack value => s.pushBack E value
  | .emplaceBack args => s.emplaceBack E args
  | .emplace index args => s.emplace E index args
  | .reserve new_capacity => s.reserve E new_capacity
  | .subscript index => if s.size ≤ index then ⟨s, [], true⟩ else done s
  | .popBack => s.popBack
  | .clear => s.clear
  | .shrinkToFit => s.shrinkToFit E
  | .destruct => s.destruct

theorem step_perform (h : step E s act = some (s', evs)) : s.destructed = false ∧ s.Inside act ∧
    (s.perform E act).state = s' ∧ (s.perform E act).events = lifetimes evs ∧
    (.threw ∈ evs ↔ (s.perform E act).threw = true) := by
  unfold step at h
  split at h
  · cases h
  rename_i hrunning
  refine ⟨Bool.eq_false_iff.mpr hrunning, ?_⟩
  cases act with
  | pushBack value =>
    obtain ⟨-, h⟩ := Option.ite_none_right_eq_some.mp h
    cases h
    exact ⟨trivial, rfl, (lifetimes_report rfl).symm, threw_mem_report nofun⟩
  | emplaceBack args =>
    obtain ⟨-, h⟩ := Option.ite_none_right_eq_some.mp h
    cases h
    exact ⟨trivial, rfl, (lifetimes_report rfl).symm, threw_mem_report (by simp)⟩
  | emplace index args =>
    obtain ⟨⟨hindex, -⟩, h⟩ := Option.ite_none_right_eq_some.mp h
    cases h
    exact ⟨hindex, rfl, (lifetimes_report rfl).symm, threw_mem_report (by simp)⟩
  | subscript index =>
    dsimp only [State.perform] at h ⊢
    split at h <;> rename_i hindex <;> cases h
    · rw [if_pos hindex]
      exact ⟨trivial, rfl, rfl, by simp⟩
    · rw [if_neg hindex]
      exact ⟨trivial, rfl, rfl, by simp [done]⟩
  | reserve _ | popBack | clear | shrinkToFit | destruct =>
    cases h
    exact ⟨trivial, rfl, (lifetimes_report rfl).symm, threw_mem_report nofun⟩

theorem followed_perform : Followed s (s.perform E act) := by
  cases act with
  | pushBack value =>
    have hgrow : Followed s (if s.size = s.capacity then s.resize E s.grown else done s) := by
      split
      · exact followed_resize
      · exact tracks_done
    exact hgrow.andThen fun s' => followed_assign (s := s'.incrementSize)
  | emplaceBack args =>
    show Followed s (s.emplaceBack E args)
    rw [emplaceBack_eq]
    exact followed_makeRoom.andThen fun _ => followed_insertAt
  | emplace index args => exact followed_makeRoom.andThen fun _ => followed_insertAt
  | reserve new_capacity => exact followed_reserve
  | subscript index =>
    dsimp only [State.perform]
    split <;> exact fun _ ht => (Option.some.inj ht).symm
  | popBack =>
    show Followed s s.popBack
    unfold State.popBack
    split
    · exact followed_destroy (s := { s with size := s.size - 1 })
    · exact tracks_done
  | clear =>
    exact (tracks_loop (fun _ _ => followed_destroy) _).andThen
      (followed_done (g := fun s' => { s' with size := 0 }) fun _ => rfl)
  | shrinkToFit =>
    show Followed s (s.shrinkToFit E)
    unfold State.shrinkToFit
    split
    · exact tracks_done
    · split
      · exact followed_operatorDelete.andThen
          (followed_done (g := fun s' => { s' with data := nullptr, capacity := 0 }) fun _ => rfl)
      · exact followed_relocateAll
  | destruct =>
    exact followed_deleteArray.andThen
      (followed_done (g := fun s' => { s' with destructed := true }) fun _ => rfl)

section NoThrow
variable (hE : ∀ k, E.elementThrows k = false)
include hE

/-- The discipline accepts a member exactly if it finds the buffer that it needs. -/
theorem clean_perform (ht : Tidy E s) (hact : act.NonAliasing) (hinside : s.Inside act) :
    Clean s (s.perform E act) ↔ Meets E s act := by
  cases act with
  | pushBack value =>
    cases value with
    | value v => exact clean_pushBack hE ht v
    | object b i => exact absurd hact id
  | emplaceBack args =>
    cases args with
    | value v => exact clean_emplaceBack hE ht v
    | object b i => exact absurd hact id
  | emplace index args =>
    cases args with
    | value v => exact clean_emplace hE ht hinside v
    | object b i => exact absurd hact id
  | reserve new_capacity => exact clean_reserve ht
  | subscript index =>
    dsimp only [State.perform]
    split <;> exact iff_of_true rfl trivial
  | popBack => exact iff_of_true (clean_popBack ht) trivial
  | clear => exact iff_of_true (clean_clear ht) trivial
  | shrinkToFit => exact clean_shrinkToFit ht
  | destruct => exact clean_destruct ht

theorem left_perform (ht : Tidy E s) (hact : act.NonAliasing) (hinside : s.Inside act)
    (hm : Meets E s act) : Left E (s.perform E act).state := by
  cases act with
  | pushBack value =>
    cases value with
    | value v => exact (tidy_pushBack hE ht hm v).left
    | object b i => exact absurd hact id
  | emplaceBack args =>
    cases args with
    | value v => exact (tidy_emplaceBack hE ht hm v).left
    | object b i => exact absurd hact id
  | emplace index args =>
    cases args with
    | value v => exact (tidy_emplace hE ht hm hinside v).left
    | object b i => exact absurd hact id
  | reserve new_capacity => exact (tidy_reserve ht hm).left
  | subscript index =>
    dsimp only [State.perform]
    split <;> exact ht.left
  | popBack => exact (tidy_popBack ht).left
  | clear => exact (tidy_clear ht).left
  | shrinkToFit => exact (tidy_shrinkToFit ht hm).left
  | destruct =>
    obtain ⟨s', ⟨-, rfl⟩, hdestructed, hgone⟩ := destruct_ends ht hm.1
    unfold Left State.perform
    rw [hdestructed]
    exact hgone

theorem followable_of_run {log : List Event}
    (h : (system T E).RunWhere (fun s act => act.NonAliasing ∧ Meets E s act) s log) :
    Followable E s log := by
  refine h.invariant (I := Followable E) ⟨rfl, ?_⟩ ?_
  · exact Tidy.ofNothing rfl rfl Nat.one_pos rfl rfl (fun _ => rfl) fun _ _ => rfl
  · intro s log act s' evs _ hI ⟨hact, hm⟩ hs
    obtain ⟨hrunning, hinside, rfl, hevents, -⟩ := step_perform hs
    have ht : Tidy E s := hI.2.tidy hrunning
    refine ⟨?_, left_perform hE ht hact hinside hm⟩
    rw [lifetimes_append, Spec.replay_append _ hI.1, ← hevents]
    exact (clean_perform hE ht hact hinside).mpr hm

/-- As long as every call finds the buffer that it needs, each object is destroyed once, only what
exists is used, and each block is released in the form in which it was allocated; a call that finds
another buffer breaks this. -/
theorem vector_disciplined {log : List Event}
    (h : (system T E).RunWhere (fun s act => act.NonAliasing ∧ Meets E s act) s log) :
    Disciplined s (lifetimes log) ∧ ∀ act s' evs, act.NonAliasing → step E s act = some (s', evs) →
      (Disciplined s' (lifetimes (log ++ evs)) ↔ Meets E s act) := by
  have hfollow := followable_of_run hE h
  refine ⟨hfollow.disciplined, fun act s' evs hact hs => ⟨fun hdisciplined => ?_, fun hm => ?_⟩⟩
  · obtain ⟨hrunning, hinside, rfl, hevents, -⟩ := step_perform hs
    apply (clean_perform hE (hfollow.2.tidy hrunning) hact hinside).mp
    apply followed_perform.clean_iff.mpr
    obtain ⟨t, ht⟩ := Option.isSome_iff_exists.mp hdisciplined.accepted
    rw [lifetimes_append, Spec.replay_append _ hfollow.1, ← hevents] at ht
    exact ⟨t, ht⟩
  · exact (followable_of_run hE (h.step ⟨hact, hm⟩ hs)).disciplined

end NoThrow

/-- Elements of 24 bytes, and no exceptions. -/
def plain : Environment := ⟨24, by decide, fun _ => false, fun _ => false⟩

/-- Three times `push_back`, then the destructor. -/
theorem vector_disciplined_pushes : ∃ (s : State ℕ) (log : List Event),
    s.destructed = true ∧ Disciplined s (lifetimes log) := by
  obtain ⟨s, log, hrun, hq⟩ := (system ℕ plain).exists_run_of_exec
    (fun s act => act.NonAliasing ∧ Meets plain s act)
    [.pushBack (.value 7), .pushBack (.value 8), .pushBack (.value 9), .destruct]
    (fun s _ => s.destructed) (by decide)
  exact ⟨s, log, hq, (vector_disciplined (fun _ => rfl) hrun).1⟩

/-- The destructor releases memory from `emplace_back` by `delete[]`. -/
theorem vector_undisciplined : ¬ ∀ (E : Environment) (s : State ℕ) (log : List Event),
    (∀ k, E.elementThrows k = false) →
    (system ℕ E).RunWhere (fun _ act => act.NonAliasing) s log → Disciplined s (lifetimes log) := by
  intro hall
  obtain ⟨s, log, hrun, hq⟩ := (system ℕ plain).exists_run_of_exec
    (fun _ act => act.NonAliasing) [.emplaceBack (.value 7), .destruct]
    (fun _ log => !(discipline.replay (lifetimes log)).isSome) (by decide)
  have haccepted := (hall plain s log (fun _ => rfl) hrun).accepted
  simp [haccepted] at hq

end MyVector
