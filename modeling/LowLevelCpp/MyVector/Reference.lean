import LowLevelCpp.MyVector.Contents
import LowLevelCpp.MyVector.Discipline

/-! Runs of `my::vector` beside a list: whichever way the buffer grows, moves or shrinks, the vector
holds what the list does. -/
namespace MyVector
open Foundations Outcome

variable {T : Type} {E : Environment} {s s' : State T} {xs : List T} {act : Act T}
  {evs log : List Event}

/-- What the members do to a list. -/
def Act.apply : Act T → List T → List T
  | .pushBack (.value v), xs | .emplaceBack (.value v), xs => xs ++ [v]
  | .emplace index (.value v), xs => xs.insertIdx index v
  | .popBack, xs => xs.dropLast
  | .clear, _ => []
  | _, xs => xs

/-- No argument is an element of the vector, and what is asked for is in the range of `size_t`: the
number of elements for `new T[]`, the number of bytes for `::operator new`. The vector is not
destroyed. -/
def State.Covered (E : Environment) (s : State T) : Act T → Prop
  | .pushBack (.value _) => s.size = s.capacity → s.asked < SIZE_RANGE
  | .emplaceBack (.value _) | .emplace _ (.value _) =>
    s.size = s.capacity → s.asked * E.sizeof < SIZE_RANGE
  | .reserve new_capacity => s.capacity < new_capacity → new_capacity * E.sizeof < SIZE_RANGE
  | .subscript _ | .popBack | .clear | .shrinkToFit => True
  | .pushBack (.object _ _) | .emplaceBack (.object _ _) | .emplace _ (.object _ _) | .destruct =>
    False

instance (s : State T) : (act : Act T) → Decidable (s.Covered E act)
  | .pushBack (.value _) => inferInstanceAs (Decidable (_ → s.asked < SIZE_RANGE))
  | .emplaceBack (.value _) | .emplace _ (.value _) =>
    inferInstanceAs (Decidable (_ → s.asked * E.sizeof < SIZE_RANGE))
  | .reserve n => inferInstanceAs (Decidable (_ → n * E.sizeof < SIZE_RANGE))
  | .subscript _ | .popBack | .clear | .shrinkToFit => .isTrue trivial
  | .pushBack (.object _ _) | .emplaceBack (.object _ _) | .emplace _ (.object _ _) | .destruct =>
    .isFalse id

/-- The call is left by an exception: a buffer that it needs is not to be had, or the index is past
the end. `new T[]` checks the bytes itself. -/
def State.Throws (E : Environment) (s : State T) : Act T → Prop
  | .pushBack _ => s.size = s.capacity ∧ s.ArrayFails E s.asked
  | .emplaceBack _ | .emplace _ _ => s.size = s.capacity ∧ E.allocationThrows s.calls = true
  | .reserve new_capacity => s.capacity < new_capacity ∧ E.allocationThrows s.calls = true
  | .shrinkToFit => s.capacity ≠ s.size ∧ s.size ≠ 0 ∧ E.allocationThrows s.calls = true
  | .subscript index => s.size ≤ index
  | .popBack | .clear | .destruct => False

/-- The vector has the elements of the list and no others, in a buffer with room for them; every
access was in bounds, and no other block is left. -/
structure Agrees (s : State T) (xs : List T) (log : List Event) : Prop where
  size : s.size = xs.length
  elements : ∀ i < s.size, s.objects s.data i = xs[i]?
  fits : s.size ≤ s.capacity
  inBounds : ∃ blocks, bounds.replay (lifetimes log) = some blocks ∧ ∀ b ≠ s.data, blocks b = none

theorem stores_init [Inhabited T] : Stores E (system T E).init [] := by
  refine ⟨rfl, ⟨Nat.one_pos, fun _ => rfl⟩, fun hdata => absurd rfl hdata, fun _ _ => rfl,
    Nat.le_refl 0, ?_, rfl, Nat.le_refl 0, nofun⟩
  exact Nat.lt_of_le_of_lt (Nat.le_of_eq (Nat.zero_mul E.sizeof)) (by decide)

variable [Inhabited T]

/-- The vector, and a list that changes with it unless a call throws. -/
def besideList (T : Type) [Inhabited T] (E : Environment) :
    System (State T × List T) (Act T) Event where
  init := ((system T E).init, [])
  step p act := (step E p.1 act).map fun q =>
    ((q.1, if .threw ∈ q.2 then p.2 else act.apply p.2), q.2)

/-- The list stays as it is exactly if the program of the member is left by an exception. -/
theorem step_apply (h : step E s act = some (s', evs)) (xs : List T) :
    (if .threw ∈ evs then xs else act.apply xs) =
      if (s.perform E act).threw then xs else act.apply xs :=
  if_congr (step_perform h).2.2.2.2 rfl rfl

theorem exists_step (hrunning : s.destructed = false) (hact : s.Covered E act)
    (hinside : s.Inside act) : ∃ s' evs, step E s act = some (s', evs) := by
  unfold step
  rw [hrunning, if_neg Bool.false_ne_true]
  cases act with
  | pushBack value | emplaceBack value =>
    cases value with
    | value v => exact ⟨_, _, rfl⟩
    | object b i => exact absurd hact id
  | emplace index args =>
    cases args with
    | value v => exact ⟨_, _, if_pos ⟨hinside, trivial⟩⟩
    | object b i => exact absurd hact id
  | subscript index =>
    by_cases hindex : s.size ≤ index
    · exact ⟨_, _, if_pos hindex⟩
    · exact ⟨_, _, if_neg hindex⟩
  | reserve _ | popBack | clear | shrinkToFit => exact ⟨_, _, rfl⟩
  | destruct => exact absurd hact id

section NoThrow
variable (hE : ∀ k, E.elementThrows k = false)
include hE

theorem does_perform (h : Stores E s xs) (hact : s.Covered E act) (hinside : s.Inside act) :
    Does E s (s.perform E act) (s.Throws E act) xs (act.apply xs) := by
  cases act with
  | pushBack value =>
    cases value with
    | value v => exact h.pushBack hE hact v
    | object b i => exact absurd hact id
  | emplaceBack args =>
    cases args with
    | value v => exact h.emplaceBack hE hact v
    | object b i => exact absurd hact id
  | emplace index args =>
    cases args with
    | value v => exact h.emplace hE hact hinside v
    | object b i => exact absurd hact id
  | reserve new_capacity => exact h.reserve hact
  | subscript index =>
    dsimp only [State.perform]
    split
    · exact .failed h ‹_› rfl
    · exact .done h ‹_›
  | popBack => exact h.popBack
  | clear => exact h.clear
  | shrinkToFit => exact h.shrinkToFit
  | destruct => exact absurd hact id

theorem stores_of_run {p : State T × List T}
    (h : (besideList T E).RunWhere (fun p act => p.1.Covered E act) p log) :
    Stores E p.1 p.2 ∧ bounds.replay (lifetimes log) = some p.1.blocks := by
  refine h.invariant (I := fun p log => Stores E p.1 p.2 ∧
    bounds.replay (lifetimes log) = some p.1.blocks) ⟨stores_init, rfl⟩ ?_
  intro p log act p' evs _ hI hact hboth
  obtain ⟨⟨s', evs'⟩, hs, heq⟩ := Option.map_eq_some_iff.mp hboth
  obtain ⟨rfl, rfl⟩ := Prod.mk.inj heq
  obtain ⟨-, hinside, hstate, hevents, -⟩ := step_perform hs
  have hdoes := does_perform hE hI.1 hact hinside
  have hstores := hdoes.stores
  rw [← step_apply hs, hstate] at hstores
  refine ⟨hstores, ?_⟩
  rw [lifetimes_append, Spec.replay_append _ hI.2, ← hevents, ← hstate]
  exact hdoes.inBounds

/-- What `emplace` returns is a pointer to the new element, unless there is no memory. -/
theorem emplace_returned (h : Stores E s xs) {index : ℕ} (hindex : index ≤ s.size) {v : T}
    (hact : s.Covered E (.emplace index (.value v))) :
    ∃ s' evs, step E s (.emplace index (.value v)) = some (s', evs) ∧
      (.threw ∈ evs ∧ E.allocationThrows s.calls = true ∨
        evs.getLast? = some (.returned s'.data index) ∧ s'.objects s'.data index = some v) := by
  have hdoes := h.emplace hE hact hindex v
  have hstep : step E s (.emplace index (.value v)) = some (report (s.emplace E index (.value v))
      [.returned (s.emplace E index (.value v)).state.data index]) := by
    unfold step
    rw [h.running]
    exact (if_neg Bool.false_ne_true).trans (if_pos ⟨hindex, trivial⟩)
  generalize s.emplace E index (.value v) = r at hdoes hstep
  refine ⟨_, (report r [.returned r.state.data index]).2, hstep, ?_⟩
  have hstores := hdoes.stores
  cases hthrew : r.threw with
  | true => exact .inl ⟨(threw_mem_report (by simp)).mpr hthrew, (hdoes.threw.mp hthrew).2⟩
  | false =>
    rw [hthrew, if_neg Bool.false_ne_true] at hstores
    have hxs : index ≤ xs.length := h.size ▸ hindex
    refine .inr ⟨by simp [report, hthrew], ?_⟩
    apply (hstores.elements index ?_).trans
    · rw [List.getElem?_insertIdx_self, if_pos hxs]
    · rw [hstores.size, List.length_insertIdx_of_le_length hxs]
      omega

/-- A call throws if and only if it finds no memory or its index is past the end. -/
theorem threw_iff (h : Stores E s xs) (hact : s.Covered E act)
    (hs : step E s act = some (s', evs)) : .threw ∈ evs ↔ s.Throws E act := by
  obtain ⟨-, hinside, -, -, hthrew⟩ := step_perform hs
  exact hthrew.trans (does_perform hE h hact hinside).threw

/-- In every run the vector holds what the list does and stays within its buffer. Each call returns,
or throws: those that allocate if and only if there is no memory, `operator[]` exactly for the
indices past the end, `pop_back` and `clear` never. `emplace` returns a pointer to the new
element. -/
theorem vector_contents {p : State T × List T}
    (hrun : (besideList T E).RunWhere (fun p act => p.1.Covered E act) p log) :
    Agrees p.1 p.2 log ∧
    (∀ act, p.1.Covered E act → p.1.Inside act →
      ∃ s' evs, step E p.1 act = some (s', evs) ∧ (.threw ∈ evs ↔ p.1.Throws E act)) ∧
    (∀ index v, index ≤ p.1.size → p.1.Covered E (.emplace index (.value v)) →
      ∃ s' evs, step E p.1 (.emplace index (.value v)) = some (s', evs) ∧
        (.threw ∈ evs ∧ E.allocationThrows p.1.calls = true ∨
          evs.getLast? = some (.returned s'.data index) ∧ s'.objects s'.data index = some v)) ∧
    ∀ index, ∃ evs, step E p.1 (.subscript index) = some (p.1, evs) ∧
      (.threw ∈ evs ↔ p.1.size ≤ index) := by
  obtain ⟨h, hbounds⟩ := stores_of_run hE hrun
  refine ⟨⟨h.size, h.elements, h.fits, p.1.blocks, hbounds, h.others⟩, fun act hact hinside => ?_,
    fun index v hindex hact => emplace_returned hE h hindex hact, fun index => ?_⟩
  · obtain ⟨s', evs, hs⟩ := exists_step h.running hact hinside
    exact ⟨s', evs, hs, threw_iff hE h hact hs⟩
  · unfold step
    rw [h.running]
    by_cases hindex : p.1.size ≤ index
    · exact ⟨_, if_pos hindex, by simp [hindex]⟩
    · exact ⟨_, if_neg hindex, by simp [hindex]⟩

end NoThrow

/-- Growth in all three ways, insertion into a full vector and at its end. -/
theorem vector_contents_mixed : ∃ (s : State ℕ) (log : List Event), Agrees s [7, 9, 8, 5] log := by
  obtain ⟨p, log, hrun, hq⟩ := (besideList ℕ plain).exists_run_of_exec
    (fun p act => p.1.Covered plain act)
    [.pushBack (.value 7), .emplaceBack (.value 8), .emplace 1 (.value 9), .shrinkToFit,
      .pushBack (.value 5), .emplace 4 (.value 6), .popBack, .reserve 10, .subscript 2]
    (fun p _ => p.2 = [7, 9, 8, 5]) (by decide)
  have hlist : p.2 = [7, 9, 8, 5] := of_decide_eq_true hq
  exact ⟨p.1, log, hlist ▸ (vector_contents (fun _ => rfl) hrun).1⟩

end MyVector
