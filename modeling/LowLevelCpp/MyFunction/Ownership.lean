import LowLevelCpp.MyFunction.Reference

/-! Every functor model has one owner. The members of `my::function` are put together from a few
operations: a model is destroyed, built, changed, or handed over. Each keeps the owners, enters what
it does in the ledger, and does to the abstract wrappers what the reference does. -/
namespace MyFunction
open Foundations Foundations.System

variable {ι V W A R : Type}

/-- What the event does to the models. -/
def Event.move : Event ι V A R → Move (Place ι)
  | .built p => .acquire p
  | .destroyed p | .deleted p => .release p
  | .tested _ _ | .called _ _ _ | .fault _ => .other

/-- What the client sees. -/
def Event.observable : Event ι V A R → Bool
  | .tested _ _ | .called _ _ _ | .fault _ => true
  | .built _ | .destroyed _ | .deleted _ => false

/-- `destroy()` is for buffers, `delete` for blocks, and nothing goes wrong. -/
def Event.Sound : Event ι V A R → Prop
  | .destroyed p => ∃ o, p = .buffer o
  | .deleted p => ∃ block, p = .heap block
  | .fault _ => False
  | .built _ | .tested _ _ | .called _ _ _ => True

/-- The invariant: models and non-null `callable_`s correspond, and a buffer holds a model of its
own object only. -/
structure Owned (s : State ι V W) : Prop where
  live : ∀ o p, s.callable_ o = some p → ∃ v, s.models p = some v
  owner : ∀ p v, s.models p = some v → ∃ o, s.callable_ o = some p
  unique : ∀ o o' p, s.callable_ o = some p → s.callable_ o' = some p → o = o'
  own : ∀ o o', s.callable_ o = some (.buffer o') → o' = o

/-- The wrappers with their callables, wherever these live. -/
def State.abstract (s : State ι V W) : Reference ι V W where
  objects o := (s.objects o).map fun c => c.bind s.models
  world := s.world

def Holds (s : State ι V W) (held : Finset (Place ι)) : Prop :=
  ∀ p, p ∈ held ↔ ∃ v, s.models p = some v

theorem abstract_objects {s : State ι V W} {o : ι} {c : Option (Place ι)}
    (ho : s.objects o = some c) : s.abstract.objects o = some (c.bind s.models) := by
  simp [State.abstract, ho]

/-- Objects that are empty may come and go. -/
theorem Owned.congr {s s' : State ι V W} (h : Owned s) (hcallable : s'.callable_ = s.callable_)
    (hmodels : s'.models = s.models) : Owned s' := by
  obtain ⟨hlive, howner, hunique, hown⟩ := h
  constructor
  · rwa [hcallable, hmodels]
  · rwa [hcallable, hmodels]
  · rwa [hcallable]
  · rwa [hcallable]

/-- The buffer of an empty object is not in use. -/
theorem Owned.buffer_free {s : State ι V W} {o : ι} (h : Owned s) (ho : s.callable_ o = none) :
    s.models (.buffer o) = none := by
  by_contra hne
  obtain ⟨v, hv⟩ := Option.ne_none_iff_exists'.mp hne
  obtain ⟨x, hx⟩ := h.owner _ v hv
  obtain rfl := h.own x o hx
  simp [ho] at hx

variable [DecidableEq ι]

/-- An operation that keeps the owners, accounts for the models and leaves the wrappers as `t`. -/
structure Effect (s s' : State ι V W) (evs : List (Event ι V A R)) (t : Reference ι V W)
    (seen : List (Event ι V A R)) : Prop where
  owned : Owned s'
  running : s'.ended = s.ended
  abstract : s'.abstract = t
  accounts : ∀ held, Holds s held →
    ∃ held', (ledger Event.move).replayFrom held evs = some held' ∧ Holds s' held'
  sound : ∀ e ∈ evs, e.Sound
  seen : evs.filter Event.observable = seen

section Access
variable {s : State ι V W} {o x : ι} {p : Place ι} {c : Option (Place ι)} {v : Option V}

@[simp] theorem setCallable_callable (s : State ι V W) (o : ι) (c : Option (Place ι)) :
    (s.setCallable o c).callable_ = Function.update s.callable_ o c := by
  funext x
  by_cases hx : x = o
  · subst hx
    simp [State.callable_, State.setCallable]
  · simp [State.callable_, State.setCallable, hx]

@[simp] theorem setModel_callable (s : State ι V W) (p : Place ι) (v : Option V) :
    (s.setModel p v).callable_ = s.callable_ := rfl

@[simp] theorem setCallable_models (s : State ι V W) (o : ι) (c : Option (Place ι)) :
    (s.setCallable o c).models = s.models := rfl

@[simp] theorem setModel_models (s : State ι V W) (p : Place ι) (v : Option V) :
    (s.setModel p v).models = Function.update s.models p v := rfl

theorem abstract_setCallable (s : State ι V W) (o : ι) (c : Option (Place ι)) :
    (s.setCallable o c).abstract = s.abstract.set o (c.bind s.models) := by
  unfold State.abstract Reference.set
  congr 1
  funext x
  by_cases hx : x = o
  · subst hx
    simp [State.setCallable]
  · simp [State.setCallable, hx]

/-- An empty object stays as it is when it is emptied. -/
theorem abstract_set_none (ho : s.objects o = some none) : s.abstract.set o none = s.abstract := by
  have habstract := abstract_setCallable s o none
  have hsame : s.setCallable o none = s := by
    rw [State.setCallable, Function.update_eq_self_iff.mpr ho.symm]
  rw [hsame] at habstract
  exact habstract.symm

/-- A model without an owner is not seen. -/
theorem abstract_setModel_of_unowned (hp : ∀ o, s.callable_ o ≠ some p) (v : Option V) :
    (s.setModel p v).abstract = s.abstract := by
  unfold State.abstract
  congr 1
  funext x
  cases hx : s.objects x with
  | none => simp [State.setModel, hx]
  | some c =>
    cases c with
    | none => simp [State.setModel, hx]
    | some q =>
      have hne : q ≠ p := by
        rintro rfl
        exact hp x (by simp [State.callable_, hx])
      simp [State.setModel, hx, hne]

/-- A model is seen through its owner. -/
theorem abstract_setModel (h : Owned s) (ho : s.callable_ o = some p) (v : Option V) :
    (s.setModel p v).abstract = s.abstract.set o v := by
  unfold State.abstract Reference.set
  congr 1
  funext x
  by_cases hx : x = o
  · subst hx
    have hobject : s.objects x = some (some p) := Option.join_eq_some_iff.mp ho
    simp [State.setModel, hobject]
  · cases hobject : s.objects x with
    | none => simp [State.setModel, hobject, hx]
    | some c =>
      cases c with
      | none => simp [State.setModel, hobject, hx]
      | some q =>
        have hne : q ≠ p := by
          rintro rfl
          exact hx (h.unique x o q (by simp [State.callable_, hobject]) ho)
        simp [State.setModel, hobject, hne, hx]

end Access

section Owners
variable {s : State ι V W} {o other : ι} {p : Place ι} {v : V}

/-- The object gives up its model, which is destroyed. -/
theorem Owned.disown (h : Owned s) (ho : s.callable_ o = some p) :
    Owned ((s.setModel p none).setCallable o none) := by
  have hcallable {x : ι} {q : Place ι}
      (hx : ((s.setModel p none).setCallable o none).callable_ x = some q) :
      x ≠ o ∧ s.callable_ x = some q ∧ q ≠ p := by
    rw [setCallable_callable, setModel_callable, Function.update_apply] at hx
    split at hx
    · cases hx
    · rename_i hne
      refine ⟨hne, hx, ?_⟩
      rintro rfl
      exact hne (h.unique x o q hx ho)
  constructor
  · intro x q hx
    obtain ⟨-, hx, hne⟩ := hcallable hx
    simpa [hne] using h.live x q hx
  · intro q v hv
    rw [setCallable_models, setModel_models, Function.update_apply] at hv
    split at hv
    · cases hv
    · rename_i hne
      obtain ⟨x, hx⟩ := h.owner q v hv
      have hxo : x ≠ o := by
        rintro rfl
        exact hne (Option.some.inj (hx.symm.trans ho))
      exact ⟨x, by simpa [hxo] using hx⟩
  · intro x x' q hx hx'
    exact h.unique x x' q (hcallable hx).2.1 (hcallable hx').2.1
  · intro x x' hx
    exact h.own x x' (hcallable hx).2.1

/-- An empty object gets a model that is new. -/
theorem Owned.give (h : Owned s) (ho : s.callable_ o = none) (hp : s.models p = none)
    (hown : ∀ o', p = .buffer o' → o' = o) (v : V) :
    Owned ((s.setModel p (some v)).setCallable o (some p)) := by
  have hcallable {x : ι} {q : Place ι}
      (hx : ((s.setModel p (some v)).setCallable o (some p)).callable_ x = some q) :
      x = o ∧ q = p ∨ x ≠ o ∧ s.callable_ x = some q ∧ q ≠ p := by
    rw [setCallable_callable, setModel_callable, Function.update_apply] at hx
    split at hx
    · exact .inl ⟨‹_›, (Option.some.inj hx).symm⟩
    · rename_i hne
      refine .inr ⟨hne, hx, ?_⟩
      rintro rfl
      obtain ⟨v, hv⟩ := h.live x q hx
      simp [hp] at hv
  constructor
  · intro x q hx
    rcases hcallable hx with ⟨-, rfl⟩ | ⟨-, hx, hne⟩
    · exact ⟨v, by simp⟩
    · simpa [hne] using h.live x q hx
  · intro q v' hv
    rw [setCallable_models, setModel_models, Function.update_apply] at hv
    split at hv
    · exact ⟨o, by simp [*]⟩
    · obtain ⟨x, hx⟩ := h.owner q v' hv
      have hxo : x ≠ o := by
        rintro rfl
        simp [ho] at hx
      exact ⟨x, by simpa [hxo] using hx⟩
  · intro x x' q hx hx'
    rcases hcallable hx with ⟨rfl, rfl⟩ | ⟨-, hx, hne⟩
    · rcases hcallable hx' with ⟨rfl, -⟩ | ⟨-, -, hne⟩
      · rfl
      · exact absurd rfl hne
    · rcases hcallable hx' with ⟨-, rfl⟩ | ⟨-, hx', -⟩
      · exact absurd rfl hne
      · exact h.unique x x' q hx hx'
  · intro x x' hx
    rcases hcallable hx with ⟨rfl, hbuffer⟩ | ⟨-, hx, -⟩
    · exact hown x' hbuffer.symm
    · exact h.own x x' hx

/-- A model changes its value. -/
theorem Owned.change (h : Owned s) (ho : s.callable_ o = some p) (v : V) :
    Owned (s.setModel p (some v)) := by
  refine ⟨fun x q hx => ?_, fun q v' hv => ?_, h.unique, h.own⟩
  · by_cases hq : q = p
    · subst hq
      exact ⟨v, by simp⟩
    · simpa [hq] using h.live x q hx
  · by_cases hq : q = p
    · subst hq
      exact ⟨o, ho⟩
    · exact h.owner q v' (by simpa [hq] using hv)

/-- A block changes its owner. -/
theorem Owned.handOver (h : Owned s) (ho : s.callable_ o = none) {block : ℕ}
    (hother : s.callable_ other = some (.heap block)) :
    Owned ((s.setCallable o (some (.heap block))).setCallable other none) := by
  have hne : o ≠ other := by
    rintro rfl
    simp [ho] at hother
  have hcallable {x : ι} {q : Place ι}
      (hx : ((s.setCallable o (some (.heap block))).setCallable other none).callable_ x = some q) :
      x = o ∧ q = .heap block ∨ x ≠ o ∧ s.callable_ x = some q ∧ q ≠ .heap block := by
    rw [setCallable_callable, setCallable_callable, Function.update_apply] at hx
    split at hx
    · cases hx
    · rename_i hxother
      rw [Function.update_apply] at hx
      split at hx
      · exact .inl ⟨‹_›, (Option.some.inj hx).symm⟩
      · refine .inr ⟨‹_›, hx, ?_⟩
        rintro rfl
        exact hxother (h.unique x other _ hx hother)
  constructor
  · intro x q hx
    rcases hcallable hx with ⟨-, rfl⟩ | ⟨-, hx, -⟩
    · exact h.live other _ hother
    · exact h.live x q hx
  · intro q v hv
    obtain ⟨x, hx⟩ := h.owner q v hv
    by_cases hxother : x = other
    · subst hxother
      obtain rfl := Option.some.inj (hother.symm.trans hx)
      exact ⟨o, by simp [hne]⟩
    · have hxo : x ≠ o := by
        rintro rfl
        simp [ho] at hx
      exact ⟨x, by simpa [hxother, hxo] using hx⟩
  · intro x x' q hx hx'
    rcases hcallable hx with ⟨rfl, rfl⟩ | ⟨-, hx, hq⟩
    · rcases hcallable hx' with ⟨rfl, -⟩ | ⟨-, -, hq⟩
      · rfl
      · exact absurd rfl hq
    · rcases hcallable hx' with ⟨-, rfl⟩ | ⟨-, hx', -⟩
      · exact absurd rfl hq
      · exact h.unique x x' q hx hx'
  · intro x x' hx
    rcases hcallable hx with ⟨-, hbuffer⟩ | ⟨-, hx, -⟩
    · cases hbuffer
    · exact h.own x x' hx

end Owners

section Effects
variable {s s₁ s₂ : State ι V W} {o other : ι} {p q : Place ι} {v : V} {c : Option V}
  {t t₁ t₂ : Reference ι V W} {evs evs' seen seen' : List (Event ι V A R)}

theorem Effect.refl (h : Owned s) (ht : s.abstract = t) :
    Effect s s ([] : List (Event ι V A R)) t [] :=
  ⟨h, rfl, ht, fun held hheld => ⟨held, rfl, hheld⟩, by simp, rfl⟩

/-- One operation after the other. -/
theorem Effect.trans (h₁ : Effect s s₁ evs t₁ seen) (h₂ : Effect s₁ s₂ evs' t₂ seen') :
    Effect s s₂ (evs ++ evs') t₂ (seen ++ seen') where
  owned := h₂.owned
  running := h₂.running.trans h₁.running
  abstract := h₂.abstract
  accounts held hheld := by
    obtain ⟨held₁, hreplay₁, hheld₁⟩ := h₁.accounts held hheld
    obtain ⟨held₂, hreplay₂, hheld₂⟩ := h₂.accounts held₁ hheld₁
    refine ⟨held₂, ?_, hheld₂⟩
    rw [Spec.replayFrom_append, hreplay₁, Option.bind_some, hreplay₂]
  sound e he := by
    rcases List.mem_append.mp he with he | he
    · exact h₁.sound e he
    · exact h₂.sound e he
  seen := by rw [List.filter_append, h₁.seen, h₂.seen]

/-- An object comes into being with a null pointer. -/
theorem effect_begin (h : Owned s) (ho : s.objects o = none) :
    Effect s (s.setCallable o none) ([] : List (Event ι V A R)) (s.abstract.set o none) [] := by
  have hsame : (s.setCallable o none).callable_ = s.callable_ := by
    rw [setCallable_callable]
    apply Function.update_eq_self_iff.mpr
    simp [State.callable_, ho]
  exact ⟨h.congr hsame rfl, rfl, abstract_setCallable s o none,
    fun held hheld => ⟨held, rfl, hheld⟩, by simp, rfl⟩

theorem replay_release {held : Finset (Place ι)} (hp : p ∈ held) {e : Event ι V A R}
    (he : e.move = .release p) :
    (ledger Event.move).replayFrom held [e] = some (held.erase p) := by
  simp [ledger, he, hp]

theorem replay_acquire {held : Finset (Place ι)} (hp : p ∉ held) {e : Event ι V A R}
    (he : e.move = .acquire p) :
    (ledger Event.move).replayFrom held [e] = some (insert p held) := by
  simp [ledger, he, hp]

theorem Holds.setModel_none {held : Finset (Place ι)} (h : Holds s held) (p : Place ι) :
    Holds (s.setModel p none) (held.erase p) := by
  intro q
  by_cases hq : q = p
  · simp [hq]
  · simpa [hq] using h q

theorem Holds.setModel_some {held : Finset (Place ι)} (h : Holds s held) (p : Place ι) (v : V) :
    Holds (s.setModel p (some v)) (insert p held) := by
  intro q
  by_cases hq : q = p
  · simp [hq]
  · simpa [hq] using h q

/-- The owner destroys its model. -/
theorem effect_clear (h : Owned s) {c : Option (Place ι)} (ho : s.objects o = some c) :
    ∃ s' evs, s.clear o = .ok (s', evs) ∧
      Effect (A := A) (R := R) s s' evs (s.abstract.set o none) [] ∧
      ∀ p, s.models p = none ∨ s.callable_ o = some p → s'.models p = none := by
  unfold State.clear
  have hc : s.callable_ o = c := by simp [State.callable_, ho]
  cases c with
  | none =>
    rw [hc]
    exact ⟨s, [], rfl, .refl h (abstract_set_none ho).symm, by simp⟩
  | some p =>
    obtain ⟨v, hv⟩ := h.live o p hc
    simp only [hc, hv]
    refine ⟨_, _, rfl, ⟨h.disown hc, rfl, ?_, fun held hheld => ?_, ?_, ?_⟩, ?_⟩
    · rw [abstract_setCallable, abstract_setModel h hc, Option.bind_none, Reference.set_set]
    · have hmem : p ∈ held := (hheld p).mpr ⟨v, hv⟩
      refine ⟨held.erase p, replay_release hmem ?_, hheld.setModel_none p⟩
      split <;> rfl
    · intro e he
      obtain rfl := List.mem_singleton.mp he
      cases p with
      | buffer o' =>
        obtain rfl := h.own o o' hc
        simp [State.isSbo, hc, Event.Sound]
      | heap block => simp [State.isSbo, hc, Event.Sound]
    · split <;> rfl
    · intro q hq
      simp only [setCallable_models, setModel_models, Function.update_apply]
      split
      · rfl
      · rename_i hne
        rcases hq with hq | hq
        · exact hq
        · exact absurd (Option.some.inj hq).symm hne

/-- A model is built where there is none. -/
theorem effect_install (h : Owned s) (ho : s.objects o = some none) (hp : s.models p = none)
    (hown : ∀ o', p = .buffer o' → o' = o) (v : V) :
    s.install (A := A) (R := R) o p v =
        .ok ((s.setModel p (some v)).setCallable o (some p), [.built p]) ∧
      Effect (A := A) (R := R) s ((s.setModel p (some v)).setCallable o (some p)) [.built p]
        (s.abstract.set o (some v)) [] := by
  have hc : s.callable_ o = none := by simp [State.callable_, ho]
  have hunowned (x : ι) : s.callable_ x ≠ some p := by
    intro hx
    obtain ⟨w, hw⟩ := h.live x p hx
    simp [hp] at hw
  refine ⟨by simp [State.install, hp, pure, Except.pure],
    ⟨h.give hc hp hown v, rfl, ?_, fun held hheld => ?_, by simp [Event.Sound], rfl⟩⟩
  · rw [abstract_setCallable, abstract_setModel_of_unowned hunowned]
    simp
  · have hnew : p ∉ held := by
      rw [hheld p, hp]
      simp
    exact ⟨insert p held, replay_acquire hnew rfl, hheld.setModel_some p v⟩

/-- A model changes its value. -/
theorem effect_change (h : Owned s) (ho : s.callable_ o = some p) (v : V) :
    Effect s (s.setModel p (some v)) ([] : List (Event ι V A R)) (s.abstract.set o (some v))
      [] := by
  obtain ⟨w, hw⟩ := h.live o p ho
  refine ⟨h.change ho v, rfl, abstract_setModel h ho (some v), fun held hheld => ?_, by simp, rfl⟩
  have hmem : p ∈ held := (hheld p).mpr ⟨w, hw⟩
  refine ⟨held, rfl, ?_⟩
  rw [← Finset.insert_eq_self.mpr hmem]
  exact hheld.setModel_some p v

/-- A block changes its owner. -/
theorem effect_handOver (h : Owned s) (ho : s.objects o = some none) {block : ℕ}
    (hother : s.objects other = some (some (.heap block))) :
    Effect s ((s.setCallable o (some (.heap block))).setCallable other none)
      ([] : List (Event ι V A R))
      ((s.abstract.set o (s.models (.heap block))).set other none) [] := by
  have hc : s.callable_ o = none := by simp [State.callable_, ho]
  have hc' : s.callable_ other = some (.heap block) := by simp [State.callable_, hother]
  refine ⟨h.handOver hc hc', rfl, ?_, fun held hheld => ⟨held, rfl, hheld⟩, by simp, rfl⟩
  rw [abstract_setCallable, abstract_setCallable]
  rfl

end Effects
end MyFunction
