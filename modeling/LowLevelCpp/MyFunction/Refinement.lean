import LowLevelCpp.MyFunction.Ownership

/-! `my::function` behaves like the reference wrapper, whether its callables are in buffers or on
the heap, and destroys each functor model that it constructs exactly once. -/
namespace MyFunction
open Foundations Foundations.System

variable {ι V W A R : Type}

section Objects
variable {s : State ι V W} {o : ι} {w : Option V}

/-- What is known of a wrapper is known of the object. -/
theorem objects_of_abstract (ho : s.abstract.objects o = some w) :
    ∃ c, s.objects o = some c ∧ c.bind s.models = w := by
  simpa [State.abstract] using ho

theorem Owned.objects_of_empty (h : Owned s) (ho : s.abstract.objects o = some none) :
    s.objects o = some none := by
  obtain ⟨c, hc, hnone⟩ := objects_of_abstract ho
  cases c with
  | none => exact hc
  | some p =>
    obtain ⟨v, hv⟩ := h.live o p (by simp [State.callable_, hc])
    simp [hv] at hnone

theorem exists_abstract_object (ho : s.objects o ≠ none) : ∃ w, s.abstract.objects o = some w := by
  obtain ⟨c, hc⟩ := Option.ne_none_iff_exists'.mp ho
  exact ⟨_, abstract_objects hc⟩

theorem abstract_objects_none (ho : s.objects o = none) : s.abstract.objects o = none := by
  simp [State.abstract, ho]

end Objects

variable [DecidableEq ι]

section Members
variable {F : Callables V W A R} {s : State ι V W} {o other : ι} {w : Option V} {fresh : ℕ}

/-- Copying from another object. -/
theorem effect_cloneFrom (h : Owned s) (ho : s.abstract.objects o = some none)
    (hother : s.abstract.objects other = some w) (hfresh : s.models (.heap fresh) = none) :
    ∃ s' evs, s.cloneFrom F o other fresh = .ok (s', evs) ∧
      Effect s s' evs (s.abstract.set o (w.map F.copy)) [] := by
  have hempty := h.objects_of_empty ho
  have hc : s.callable_ o = none := by simp [State.callable_, hempty]
  obtain ⟨c, hobject, rfl⟩ := objects_of_abstract hother
  have hc' : s.callable_ other = c := by simp [State.callable_, hobject]
  unfold State.cloneFrom
  cases c with
  | none =>
    rw [hc']
    exact ⟨s, [], rfl, .refl h (abstract_set_none hempty).symm⟩
  | some p =>
    obtain ⟨v, hv⟩ := h.live other p hc'
    simp only [hc', hv, Option.bind_some, Option.map_some]
    by_cases hsbo : s.isSbo other = true
    · rw [if_pos hsbo]
      exact ⟨_, _, effect_install h hempty (h.buffer_free hc) (fun _ ho' => by cases ho'; rfl) _⟩
    · rw [if_neg hsbo]
      exact ⟨_, _, effect_install h hempty hfresh (fun _ ho' => by cases ho') _⟩

/-- Moving from another object. -/
theorem effect_moveFrom (h : Owned s) (ho : s.abstract.objects o = some none)
    (hother : s.abstract.objects other = some w) (hne : o ≠ other) :
    ∃ s' evs, s.moveFrom F o other = .ok (s', evs) ∧
      Effect s s' evs ((s.abstract.set o w).set other none) [] := by
  have hempty := h.objects_of_empty ho
  have hc : s.callable_ o = none := by simp [State.callable_, hempty]
  obtain ⟨c, hobject, rfl⟩ := objects_of_abstract hother
  have hc' : s.callable_ other = c := by simp [State.callable_, hobject]
  unfold State.moveFrom
  cases c with
  | none =>
    rw [hc']
    refine ⟨s, [], rfl, .refl h ?_⟩
    rw [Option.bind_none, abstract_set_none hempty, abstract_set_none hobject]
  | some p =>
    obtain ⟨v, hv⟩ := h.live other p hc'
    cases p with
    | heap block =>
      have hsbo : s.isSbo other = false := by simp [State.isSbo, hc']
      simp only [hc', hsbo]
      exact ⟨_, _, rfl, effect_handOver h hempty hobject⟩
    | buffer o' =>
      obtain rfl := h.own other o' hc'
      have hsbo : s.isSbo o' = true := by simp [State.isSbo, hc']
      -- the model is moved into the buffer of `o`, and what is left of it destroyed
      obtain ⟨hinstall, hbuilt⟩ := effect_install (A := A) (R := R) h hempty (h.buffer_free hc)
        (fun _ ho' => by cases ho'; rfl) (F.move v).1
      have hsource : ((s.setModel (.buffer o) (some (F.move v).1)).setCallable o
          (some (.buffer o))).callable_ o' = some (.buffer o') := by
        simp [hne.symm, hc']
      have hchanged := effect_change (A := A) (R := R) hbuilt.owned hsource (F.move v).2
      have hstays : (((s.setModel (.buffer o) (some (F.move v).1)).setCallable o
          (some (.buffer o))).setModel (.buffer o') (some (F.move v).2)).objects o' =
          some (some (.buffer o')) := by
        simp [State.setModel, State.setCallable, hne.symm, hobject]
      obtain ⟨s', cleared, hclear, hcleared, -⟩ :=
        effect_clear (A := A) (R := R) hchanged.owned hstays
      refine ⟨s', [.built (.buffer o)] ++ cleared, ?_, ?_⟩
      · simp only [hc', hsbo, if_true, hv, hinstall, bind, Except.bind, hclear]
        rfl
      · have hall := (hbuilt.trans hchanged).trans hcleared
        rw [hchanged.abstract, hbuilt.abstract, Reference.set_set, F.move_value] at hall
        simpa [hv] using hall

/-- After an object has been emptied, another one is what it was. -/
theorem effect_cleared (h : Owned s) (ho : s.abstract.objects o = some w) {u : Option V}
    (hother : s.abstract.objects other = some u) (hne : o ≠ other) :
    ∃ s' evs, s.clear o = .ok (s', evs) ∧
      Effect (A := A) (R := R) s s' evs (s.abstract.set o none) [] ∧
      s'.abstract.objects o = some none ∧ s'.abstract.objects other = some u ∧
      ∀ p, s.models p = none ∨ s.callable_ o = some p → s'.models p = none := by
  obtain ⟨c, hobject, -⟩ := objects_of_abstract ho
  obtain ⟨s', evs, hclear, heffect, hfree⟩ := effect_clear (A := A) (R := R) h hobject
  refine ⟨s', evs, hclear, heffect, ?_, ?_, hfree⟩
  · simp [heffect.abstract]
  · simp [heffect.abstract, hne.symm, hother]

/-- After an object has come into being, another one is what it was. -/
theorem effect_begun (h : Owned s) (ho : s.objects o = none)
    (hother : s.abstract.objects other = some w) :
    Effect s (s.setCallable o none) ([] : List (Event ι V A R)) (s.abstract.set o none) [] ∧
      (s.setCallable o none).abstract.objects o = some none ∧
      (s.setCallable o none).abstract.objects other = some w ∧ o ≠ other := by
  have hbegun := effect_begin (A := A) (R := R) h ho
  have hne : o ≠ other := by
    rintro rfl
    simp [abstract_objects_none ho] at hother
  refine ⟨hbegun, ?_, ?_, hne⟩
  · simp [hbegun.abstract]
  · simp [hbegun.abstract, hne.symm, hother]

theorem effect_construct (h : Owned s) (ho : s.objects o = none) (hfresh : s.Fresh o fresh) (v : V)
    (model : Layout) : ∃ s' evs, (s.setCallable o none).install o
        (if fitsInSbo model then .buffer o else .heap fresh) v = .ok (s', evs) ∧
      Effect (A := A) (R := R) s s' evs (s.abstract.set o (some v)) [] := by
  have hbegun := effect_begin (A := A) (R := R) h ho
  have hempty : (s.setCallable o none).objects o = some none := by simp [State.setCallable]
  have hfree : (s.setCallable o none).models
      (if fitsInSbo model then .buffer o else .heap fresh) = none := by
    split
    · exact hbegun.owned.buffer_free (by simp [State.callable_, hempty])
    · simpa [State.Fresh, State.callable_, ho] using hfresh
  obtain ⟨hinstall, hbuilt⟩ := effect_install (A := A) (R := R) hbegun.owned hempty hfree
    (fun o' ho' => by split at ho' <;> cases ho'; rfl) v
  have hall := hbegun.trans hbuilt
  rw [hbegun.abstract, Reference.set_set] at hall
  exact ⟨_, _, hinstall, hall⟩

theorem effect_copyConstruct (h : Owned s) (ho : s.objects o = none)
    (hother : s.abstract.objects other = some w) (hfresh : s.Fresh o fresh) :
    ∃ s' evs, (s.setCallable o none).cloneFrom F o other fresh = .ok (s', evs) ∧
      Effect s s' evs (s.abstract.set o (w.map F.copy)) [] := by
  obtain ⟨hbegun, hempty, hkept, -⟩ := effect_begun (A := A) (R := R) h ho hother
  have hfree : (s.setCallable o none).models (.heap fresh) = none := by
    simpa [State.Fresh, State.callable_, ho] using hfresh
  obtain ⟨s', cloned, hclone, hcloned⟩ := effect_cloneFrom (F := F) hbegun.owned hempty hkept hfree
  have hall := hbegun.trans hcloned
  rw [hbegun.abstract, Reference.set_set] at hall
  exact ⟨s', cloned, hclone, hall⟩

theorem effect_moveConstruct (h : Owned s) (ho : s.objects o = none)
    (hother : s.abstract.objects other = some w) :
    ∃ s' evs, (s.setCallable o none).moveFrom F o other = .ok (s', evs) ∧
      Effect s s' evs ((s.abstract.set o w).set other none) [] := by
  obtain ⟨hbegun, hempty, hkept, hne⟩ := effect_begun (A := A) (R := R) h ho hother
  obtain ⟨s', moved, hmove, hmoved⟩ := effect_moveFrom (F := F) hbegun.owned hempty hkept hne
  have hall := hbegun.trans hmoved
  rw [hbegun.abstract, Reference.set_set] at hall
  exact ⟨s', moved, hmove, hall⟩

theorem effect_copyAssign (h : Owned s) (ho : s.abstract.objects o = some w) {u : Option V}
    (hother : s.abstract.objects other = some u) (hfresh : s.Fresh o fresh) :
    ∃ s' evs, s.copyAssign F o other fresh = .ok (s', evs) ∧
      Effect s s' evs (if o = other then s.abstract else s.abstract.set o (u.map F.copy)) [] := by
  unfold State.copyAssign
  by_cases hne : o = other
  · simp only [if_pos hne]
    exact ⟨s, [], rfl, .refl h rfl⟩
  · simp only [if_neg hne]
    obtain ⟨s₁, cleared, hclear, hcleared, hempty, hkept, hfree⟩ :=
      effect_cleared (A := A) (R := R) h ho hother hne
    have hfresh₁ : s₁.models (.heap fresh) = none :=
      hfree _ (hfresh.imp_left Option.isNone_iff_eq_none.mp)
    obtain ⟨s₂, cloned, hclone, hcloned⟩ := effect_cloneFrom (F := F) hcleared.owned hempty hkept
      hfresh₁
    refine ⟨s₂, cleared ++ cloned, ?_, ?_⟩
    · simp only [hclear, bind, Except.bind, hclone]
      rfl
    · have hall := hcleared.trans hcloned
      rwa [hcleared.abstract, Reference.set_set] at hall

theorem effect_moveAssign (h : Owned s) (ho : s.abstract.objects o = some w) {u : Option V}
    (hother : s.abstract.objects other = some u) :
    ∃ s' evs, s.moveAssign F o other = .ok (s', evs) ∧
      Effect s s' evs
        (if o = other then s.abstract else (s.abstract.set o u).set other none) [] := by
  unfold State.moveAssign
  by_cases hne : o = other
  · simp only [if_pos hne]
    exact ⟨s, [], rfl, .refl h rfl⟩
  · simp only [if_neg hne]
    obtain ⟨s₁, cleared, hclear, hcleared, hempty, hkept, -⟩ :=
      effect_cleared (A := A) (R := R) h ho hother hne
    obtain ⟨s₂, moved, hmove, hmoved⟩ := effect_moveFrom (F := F) hcleared.owned hempty hkept hne
    refine ⟨s₂, cleared ++ moved, ?_, ?_⟩
    · simp only [hclear, bind, Except.bind, hmove]
      rfl
    · have hall := hcleared.trans hmoved
      rwa [hcleared.abstract, Reference.set_set] at hall

/-- A call reaches the functor of its object. -/
theorem effect_call (h : Owned s) (ho : s.abstract.objects o = some w) (arg : A) :
    ∃ s' evs, s.call F o arg = .ok (s', evs) ∧
      Effect s s' evs (s.abstract.call F o arg w).1 (s.abstract.call F o arg w).2 := by
  obtain ⟨c, hobject, rfl⟩ := objects_of_abstract ho
  have hc : s.callable_ o = c := by simp [State.callable_, hobject]
  unfold State.call
  cases c with
  | none =>
    rw [hc]
    exact ⟨s, _, rfl, ⟨h, rfl, rfl, fun held hheld => ⟨held, rfl, hheld⟩, by simp [Event.Sound],
      rfl⟩⟩
  | some p =>
    obtain ⟨v, hv⟩ := h.live o p hc
    simp only [hc, hv, Option.bind_some]
    obtain ⟨howned, -, habstract, haccounts, -, -⟩ :=
      effect_change (A := A) (R := R) h hc (F.invoke s.world v arg).2.1
    refine ⟨_, _, rfl, ⟨⟨howned.live, howned.owner, howned.unique, howned.own⟩, rfl, ?_, ?_,
      by simp [Event.Sound], rfl⟩⟩
    · exact congrArg (fun t => ({ t with world := (F.invoke s.world v arg).1 } : Reference ι V W))
        habstract
    · intro held hheld
      obtain ⟨held', hreplay, hheld'⟩ := haccounts held hheld
      obtain rfl := Option.some.inj hreplay
      exact ⟨held, rfl, hheld'⟩

theorem effect_destruct (h : Owned s) (ho : s.abstract.objects o = some w) :
    ∃ s' evs, s.destruct o = .ok (s', evs) ∧
      Effect (A := A) (R := R) s s' evs (s.abstract.drop o) [] := by
  obtain ⟨c, hobject, -⟩ := objects_of_abstract ho
  obtain ⟨s₁, cleared, hclear, hcleared, -⟩ := effect_clear (A := A) (R := R) h hobject
  have hempty : s₁.objects o = some none :=
    hcleared.owned.objects_of_empty (by simp [hcleared.abstract])
  have hsame : ({ s₁ with objects := Function.update s₁.objects o none } :
      State ι V W).callable_ = s₁.callable_ := by
    funext x
    by_cases hx : x = o
    · subst hx
      simp [State.callable_, hempty]
    · simp [State.callable_, hx]
  refine ⟨{ s₁ with objects := Function.update s₁.objects o none }, cleared, ?_,
    ⟨hcleared.owned.congr hsame rfl, hcleared.running, ?_, hcleared.accounts, hcleared.sound,
      hcleared.seen⟩⟩
  · simp only [State.destruct, hclear, bind, Except.bind]
    rfl
  · have habstract := congrArg (fun t => t.drop o) hcleared.abstract
    simp only [Reference.drop, Reference.set, Function.update_idem] at habstract ⊢
    rw [← habstract]
    unfold State.abstract
    congr 1
    funext x
    by_cases hx : x = o
    · subst hx
      simp
    · simp [hx]

theorem effect_operatorBool (h : Owned s) (ho : s.abstract.objects o = some w) :
    Effect (A := A) (R := R) s s [.tested o (s.callable_ o).isSome] s.abstract
      [.tested o w.isSome] := by
  obtain ⟨c, hobject, rfl⟩ := objects_of_abstract ho
  have hc : s.callable_ o = c := by simp [State.callable_, hobject]
  have hbool : (c.bind s.models).isSome = c.isSome := by
    cases c with
    | none => rfl
    | some p =>
      obtain ⟨v, hv⟩ := h.live o p hc
      simp [hv]
  rw [hc, hbool]
  exact ⟨h, rfl, rfl, fun held hheld => ⟨held, rfl, hheld⟩, by simp [Event.Sound], rfl⟩

end Members

section Steps
variable {F : Callables V W A R} {s s' : State ι V W} {evs : List (Event ι V A R)}
  {act : Act ι V A}

/-- A member that does not fail has its effect. -/
theorem effect_of_finish {r : Except Fault (State.Result ι V W A R)} {t : Reference ι V W}
    {seen : List (Event ι V A R)} (hr : ∃ s' evs, r = .ok (s', evs) ∧ Effect s s' evs t seen)
    (hs : some (s.finish r) = some (s', evs)) : Effect s s' evs t seen := by
  obtain ⟨s₁, evs₁, rfl, heffect⟩ := hr
  cases hs
  exact heffect

/-- Each member does to an owned state what it does to the reference. -/
theorem step_effect (h : Owned s) (hs : step F s act = some (s', evs)) :
    ∃ t seen, Reference.step F s.abstract act = some (t, seen) ∧ Effect s s' evs t seen := by
  unfold step at hs
  obtain ⟨-, hs⟩ := Option.ite_none_left_eq_some.mp hs
  cases act with
  | construct o v model fresh =>
    obtain ⟨⟨ho, hfresh⟩, hs⟩ := Option.ite_none_right_eq_some.mp hs
    refine ⟨_, _, ?_, effect_of_finish (effect_construct h ho hfresh v model) hs⟩
    simp [Reference.step, abstract_objects_none ho]
  | constructEmpty o =>
    obtain ⟨ho, hs⟩ := Option.ite_none_right_eq_some.mp hs
    cases hs
    refine ⟨_, _, ?_, effect_begin h ho⟩
    simp [Reference.step, abstract_objects_none ho]
  | copyConstruct o other fresh =>
    obtain ⟨⟨ho, hother, hfresh⟩, hs⟩ := Option.ite_none_right_eq_some.mp hs
    obtain ⟨w, hw⟩ := exists_abstract_object hother
    refine ⟨_, _, ?_, effect_of_finish (effect_copyConstruct h ho hw hfresh) hs⟩
    simp [Reference.step, abstract_objects_none ho, hw]
  | moveConstruct o other =>
    obtain ⟨⟨ho, hother⟩, hs⟩ := Option.ite_none_right_eq_some.mp hs
    obtain ⟨w, hw⟩ := exists_abstract_object hother
    refine ⟨_, _, ?_, effect_of_finish (effect_moveConstruct h ho hw) hs⟩
    simp [Reference.step, abstract_objects_none ho, hw]
  | copyAssign o other fresh =>
    obtain ⟨⟨ho, hother, hfresh⟩, hs⟩ := Option.ite_none_right_eq_some.mp hs
    obtain ⟨w, hw⟩ := exists_abstract_object ho
    obtain ⟨u, hu⟩ := exists_abstract_object hother
    refine ⟨_, _, ?_, effect_of_finish (effect_copyAssign h hw hu hfresh) hs⟩
    simp [Reference.step, hw, hu]
  | moveAssign o other =>
    obtain ⟨⟨ho, hother⟩, hs⟩ := Option.ite_none_right_eq_some.mp hs
    obtain ⟨w, hw⟩ := exists_abstract_object ho
    obtain ⟨u, hu⟩ := exists_abstract_object hother
    refine ⟨_, _, ?_, effect_of_finish (effect_moveAssign h hw hu) hs⟩
    simp [Reference.step, hw, hu]
  | assignNull o =>
    obtain ⟨ho, hs⟩ := Option.ite_none_right_eq_some.mp hs
    obtain ⟨c, hc⟩ := Option.ne_none_iff_exists'.mp ho
    obtain ⟨s₂, evs₂, hclear, heffect, -⟩ := effect_clear (A := A) (R := R) h hc
    refine ⟨_, _, ?_, effect_of_finish ⟨s₂, evs₂, hclear, heffect⟩ hs⟩
    simp [Reference.step, abstract_objects hc]
  | operatorBool o =>
    obtain ⟨ho, hs⟩ := Option.ite_none_right_eq_some.mp hs
    obtain ⟨w, hw⟩ := exists_abstract_object ho
    cases hs
    refine ⟨_, _, ?_, effect_operatorBool h hw⟩
    simp [Reference.step, hw]
  | call o arg =>
    obtain ⟨ho, hs⟩ := Option.ite_none_right_eq_some.mp hs
    obtain ⟨w, hw⟩ := exists_abstract_object ho
    refine ⟨_, _, ?_, effect_of_finish (effect_call h hw arg) hs⟩
    simp [Reference.step, hw]
  | destruct o =>
    obtain ⟨ho, hs⟩ := Option.ite_none_right_eq_some.mp hs
    obtain ⟨w, hw⟩ := exists_abstract_object ho
    refine ⟨_, _, ?_, effect_of_finish (effect_destruct h hw) hs⟩
    simp [Reference.step, hw]

end Steps

/-- What holds of a state and its history. -/
structure Refines (F : Callables V W A R) (world : W) (s : State ι V W)
    (log : List (Event ι V A R)) : Prop where
  owned : Owned s
  reference : (Reference.system ι F world).Run s.abstract (log.filter Event.observable)
  accounts : ∃ held, (ledger Event.move).replay log = some held ∧ Holds s held
  sound : ∀ e ∈ log, e.Sound

section Runs
variable {F : Callables V W A R} {world : W} {s s' : State ι V W} {log evs : List (Event ι V A R)}
  {act : Act ι V A}

theorem Refines.step (h : Refines F world s log) (hs : step F s act = some (s', evs)) :
    Refines F world s' (log ++ evs) := by
  obtain ⟨t, seen, href, heffect⟩ := step_effect h.owned hs
  obtain ⟨held, hreplay, hheld⟩ := h.accounts
  obtain ⟨held', hreplay', hheld'⟩ := heffect.accounts held hheld
  refine ⟨heffect.owned, ?_, ⟨held', ?_, hheld'⟩, fun e he => ?_⟩
  · rw [List.filter_append, heffect.seen, heffect.abstract]
    exact h.reference.step trivial href
  · rw [Spec.replay_append _ hreplay, hreplay']
  · rcases List.mem_append.mp he with he | he
    · exact h.sound e he
    · exact heffect.sound e he

theorem refines_of_run (hrun : (system ι F world).Run s log) : Refines F world s log := by
  refine hrun.invariant (I := Refines F world) ⟨⟨?_, ?_, ?_, ?_⟩, .init, ⟨∅, rfl, ?_⟩, by simp⟩
    fun _ _ _ _ _ _ h _ hs => h.step hs
  all_goals simp [system, State.callable_, Holds]

/-- A step does to the reference what it does to the objects. -/
theorem step_reference (hrun : (system ι F world).Run s log)
    (hs : step F s act = some (s', evs)) :
    Reference.step F s.abstract act = some (s'.abstract, evs.filter Event.observable) := by
  obtain ⟨t, seen, href, heffect⟩ := step_effect (refines_of_run hrun).owned hs
  rw [href, heffect.abstract, heffect.seen]

/-- The source of a move is empty. -/
theorem moved_from_empty {o other : ι} (hrun : (system ι F world).Run s log)
    (hs : step F s act = some (s', evs))
    (hact : act = .moveConstruct o other ∨ act = .moveAssign o other ∧ o ≠ other) :
    s'.objects other = some none := by
  have hrun' : (system ι F world).Run s' (log ++ evs) := hrun.step trivial hs
  apply (refines_of_run hrun').owned.objects_of_empty
  have href := step_reference hrun hs
  rcases hact with rfl | ⟨rfl, hne⟩
  · simp only [Reference.step] at href
    split at href
    · obtain ⟨hs', -⟩ := Prod.mk.inj (Option.some.inj href)
      simp [← hs']
    · cases href
  · simp only [Reference.step, if_neg hne] at href
    split at href
    · obtain ⟨hs', -⟩ := Prod.mk.inj (Option.some.inj href)
      simp [← hs']
    · cases href

/-- A call changes the functor of its own object only. -/
theorem call_independent {o x : ι} {arg : A} (hrun : (system ι F world).Run s log)
    (hs : step F s (.call o arg) = some (s', evs)) (hx : x ≠ o) :
    s'.abstract.objects x = s.abstract.objects x := by
  have href := step_reference hrun hs
  obtain ⟨w, -, hcall⟩ := Option.map_eq_some_iff.mp href
  obtain ⟨hs', -⟩ := Prod.mk.inj hcall
  rw [← hs']
  cases w with
  | none => rfl
  | some v => simp [hx]

/-- `my::function` refines the wrapper that keeps its callable on the heap: every run is a run of
that wrapper with the same calls, results and tests, step by step. A call changes no other object,
and the source of a move is empty. Each functor model that is built is destroyed once, and by
`destroy()` or `delete` as it lives in a buffer or on the heap; those left belong to an object. -/
theorem function_refines_reference (hrun : (system ι F world).Run s log) :
    (Reference.system ι F world).Run s.abstract (log.filter Event.observable) ∧
      (∀ act s' evs, (system ι F world).step s act = some (s', evs) →
        (Reference.system ι F world).step s.abstract act =
          some (s'.abstract, evs.filter Event.observable)) ∧
      (∀ o arg s' evs, (system ι F world).step s (.call o arg) = some (s', evs) →
        ∀ x ≠ o, s'.abstract.objects x = s.abstract.objects x) ∧
      (∀ o other act s' evs, (system ι F world).step s act = some (s', evs) →
        act = .moveConstruct o other ∨ act = .moveAssign o other ∧ o ≠ other →
        s'.objects other = some none) ∧
      (∀ e ∈ log, e.Sound) ∧
      ∃ held, (ledger Event.move).replay log = some held ∧
        (∀ p, p ∈ held ↔ ∃ o, s.callable_ o = some p) ∧
        ∀ p, (log.map Event.move).count (.acquire p) =
          (log.map Event.move).count (.release p) + if p ∈ held then 1 else 0 := by
  have h := refines_of_run hrun
  obtain ⟨held, hreplay, hheld⟩ := h.accounts
  refine ⟨h.reference, fun act s' evs hs => step_reference hrun hs,
    fun o arg s' evs hs x hx => call_independent hrun hs hx,
    fun o other act s' evs hs hact => moved_from_empty hrun hs hact, h.sound, held, hreplay,
    fun p => ?_, ledger_count hreplay⟩
  rw [hheld p]
  constructor
  · rintro ⟨v, hv⟩
    exact h.owned.owner p v hv
  · rintro ⟨o, ho⟩
    exact h.owned.live o p ho

end Runs

/-- Counters: a call adds its argument and returns the sum; a counter that is moved from is left
at zero. -/
def counters : Callables ℕ Unit ℕ ℕ where
  copy v := v
  move v := (v, 0)
  move_value _ := rfl
  invoke _ v arg := ((), v + arg, v + arg)

/-- A callable in the buffer and one on the heap, copied and moved over each other. -/
def exchanges : List (Act ℕ ℕ ℕ) :=
  [.construct 0 10 ⟨16, 8⟩ 7, .construct 1 20 ⟨64, 8⟩ 7, .copyConstruct 2 0 8, .call 0 1,
    .moveAssign 1 0, .copyAssign 0 1 7, .call 2 5, .operatorBool 0, .destruct 1]

theorem function_refines_reference_exchanges :
    ∃ s log, (system ℕ counters ()).Run s log ∧ .called 2 5 (some (15, 15)) ∈ log ∧
      .deleted (.heap 7) ∈ log ∧ (Reference.system ℕ counters ()).Run s.abstract
        (log.filter Event.observable) := by
  obtain ⟨s, log, hrun, hq⟩ := (system ℕ counters ()).exists_run_of_exec (fun _ _ => True) exchanges
    (fun _ log => decide (.called 2 5 (some (15, 15)) ∈ log ∧ .deleted (.heap 7) ∈ log))
    (by decide +kernel)
  obtain ⟨hcalled, hdeleted⟩ := of_decide_eq_true hq
  exact ⟨s, log, hrun, hcalled, hdeleted, (function_refines_reference hrun).1⟩

end MyFunction
