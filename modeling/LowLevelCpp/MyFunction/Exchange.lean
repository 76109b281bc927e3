import LowLevelCpp.MyFunction.Nesting
import LowLevelCpp.MyFunction.Reference

/-! The assignments of `my::function` beside the exchange with a temporary, for functors whose
copies may throw and which may hold the other wrapper. -/
namespace MyFunction

variable {ι V : Type}

/-- A wrapper of the client, or one in the callable of such a wrapper. -/
structure Location (ι : Type) where
  root : ι
  path : List ℕ
  deriving DecidableEq

/-- The wrappers of the client. A callable that only a wrapper in it owns is lost; the path leads to
that wrapper. -/
structure Forest (ι V : Type) where
  roots : ι → Wrapper V
  lost : List (Wrapper V × List ℕ)

/-- How an assignment ends. -/
structure Exit (ι V : Type) where
  forest : Forest ι V
  threw : Bool

namespace Location

/-- `a` is a wrapper in the callable of `b`. -/
def Inside (a b : Location ι) : Prop := a.root = b.root ∧ b.path <+: a.path ∧ a.path ≠ b.path

def Apart (a b : Location ι) : Prop := a.root = b.root → Wrapper.Apart a.path b.path

/-- The path of `a` in the callable of `b`. -/
def pathFrom (a b : Location ι) : List ℕ := a.path.drop b.path.length

instance [DecidableEq ι] (a b : Location ι) : Decidable (a.Inside b) :=
  inferInstanceAs (Decidable (_ ∧ _ ∧ _))

variable {a b : Location ι}

theorem Inside.eq (h : a.Inside b) :
    a = ⟨b.root, b.path ++ a.pathFrom b⟩ ∧ a.pathFrom b ≠ [] := by
  obtain ⟨root, path⟩ := a
  obtain ⟨rfl, ⟨q, rfl⟩, hne⟩ := h
  have hpath : pathFrom ⟨b.root, b.path ++ q⟩ b = q := List.drop_left
  rw [hpath]
  refine ⟨rfl, ?_⟩
  rintro rfl
  exact hne (List.append_nil _)

theorem inside_irrefl (a : Location ι) : ¬ a.Inside a := fun h => h.2.2 rfl

theorem Inside.ne (h : a.Inside b) : a ≠ b := by
  rintro rfl
  exact a.inside_irrefl h

theorem Inside.asymm (h : a.Inside b) : ¬ b.Inside a := by
  intro h'
  exact h.2.2 (h.2.1.eq_of_length_le h'.2.1.length_le).symm

theorem Apart.symm (h : a.Apart b) : b.Apart a := fun hroot => (h hroot.symm).symm

theorem cases (a b : Location ι) : a = b ∨ a.Inside b ∨ b.Inside a ∨ a.Apart b := by
  obtain ⟨root, path⟩ := a
  obtain ⟨root', path'⟩ := b
  unfold Inside Apart Wrapper.Apart
  by_cases hroot : root = root'
  · subst hroot
    by_cases hpath : path = path'
    · subst hpath
      exact .inl rfl
    · have hpath' : path' ≠ path := Ne.symm hpath
      simp only [true_and, ne_eq, hpath, hpath', not_false_eq_true, and_true, forall_const]
      tauto
  · exact .inr (.inr (.inr fun h => absurd h hroot))

theorem Apart.not_inside (h : a.Apart b) : ¬ a.Inside b := fun hin => (h hin.1).2 hin.2.1

theorem Apart.ne (h : a.Apart b) : a ≠ b := by
  rintro rfl
  exact (h rfl).1 (List.prefix_refl _)

end Location

namespace Forest
variable [DecidableEq ι] {s : Forest ι V} {a b : Location ι} {w w' u : Wrapper V} {q : List ℕ}

def get (s : Forest ι V) (a : Location ι) : Option (Wrapper V) := (s.roots a.root).get a.path

def put (s : Forest ι V) (a : Location ι) (w : Wrapper V) : Forest ι V :=
  { s with roots := Function.update s.roots a.root ((s.roots a.root).put a.path w) }

theorem put_roots_of_ne {x : ι} (h : x ≠ a.root) : (s.put a w).roots x = s.roots x :=
  Function.update_of_ne h _ _

theorem put_roots : (s.put a w).roots a.root = (s.roots a.root).put a.path w :=
  Function.update_self ..

theorem get_put (h : s.get a = some u) : (s.put a w).get a = some w := by
  unfold get
  rw [put_roots]
  exact Wrapper.get_put h

theorem get_put_of_apart (h : a.Apart b) : (s.put a w).get b = s.get b := by
  unfold get
  by_cases hroot : b.root = a.root
  · rw [hroot, put_roots]
    exact Wrapper.get_put_of_apart (h hroot.symm)
  · rw [put_roots_of_ne hroot]

theorem get_put_inside (h : s.get a = some u) :
    (s.put a w).get ⟨a.root, a.path ++ q⟩ = w.get q := by
  unfold get
  rw [put_roots, Wrapper.get_append, Wrapper.get_put h]
  rfl

theorem put_inside (h : s.get a = some u) :
    s.put ⟨a.root, a.path ++ q⟩ w = s.put a (u.put q w) := by
  unfold put
  rw [Wrapper.put_append h]

theorem put_get (h : s.get a = some u) : s.put a u = s := by
  unfold put
  rw [Wrapper.put_get h, Function.update_eq_self]

@[simp] theorem put_put : (s.put a w).put a w' = s.put a w' := by
  simp only [put, Function.update_self, Wrapper.put_put, Function.update_idem]

theorem put_comm (h : a.Apart b) : (s.put a w).put b w' = (s.put b w').put a w := by
  unfold put
  by_cases hroot : a.root = b.root
  · simp only [hroot, Function.update_self, Function.update_idem]
    rw [Wrapper.put_comm (h hroot)]
  · simp only [Function.update_of_ne hroot, Function.update_of_ne (Ne.symm hroot)]
    rw [Function.update_comm hroot]

/-! ### The members -/

def clear (s : Forest ι V) (o : Location ι) : Forest ι V := s.put o .empty

/-- `o` gets the callable of `other`, which is left with `rest`. If `o` is a wrapper in that
callable then nothing else owns the callable any more. -/
def pass (s : Forest ι V) (o other : Location ι) (callable rest : Wrapper V) : Forest ι V :=
  if o.Inside other then
    { s.put other rest with lost := (callable, o.pathFrom other) :: s.lost }
  else (s.put other rest).put o callable

/-- `operator=(const function&)`; there is no result if `other` is gone when it is read. -/
def copyAssign (throws : V → Bool) (s : Forest ι V) (o other : Location ι) : Option (Exit ι V) :=
  if o = other then some ⟨s, false⟩
  else
    match (s.clear o).get other with
    | none => none
    | some .empty => some ⟨s.clear o, false⟩
    | some callable =>
      match callable.clone throws with
      | none => some ⟨s.clear o, true⟩
      | some copy => some ⟨(s.clear o).put o copy, false⟩

/-- `operator=(function&&)`; `left v` is the value of a functor that has been moved from, which is
then destroyed. -/
def moveAssign (left : V → V) (s : Forest ι V) (o other : Location ι) : Option (Forest ι V) :=
  if o = other then some s
  else
    match (s.clear o).get other with
    | none => none
    | some .empty => some (s.clear o)
    | some (.holds true v inner) =>
      some (((s.clear o).pass o other (.holds true v inner) (.holds true (left v) [])).clear other)
    | some (.holds false v inner) => some ((s.clear o).pass o other (.holds false v inner) .empty)

/-- A copy of `other` is constructed and exchanged with `o`; it is destroyed with the old callable
of `o`. -/
def copyExchange (throws : V → Bool) (s : Forest ι V) (o other : Location ι) :
    Option (Exit ι V) :=
  (s.get other).map fun callable =>
    match callable.clone throws with
    | none => ⟨s, true⟩
    | some copy => ⟨s.put o copy, false⟩

/-- A temporary takes the callable of `other` and is exchanged with `o`, which may be a wrapper in
that callable; it is destroyed with the old callable of `o`. -/
def moveExchange (s : Forest ι V) (o other : Location ι) : Option (Forest ι V) :=
  (s.get other).map fun callable =>
    if o.Inside other then
      { s.clear other with
        lost := (callable.put (o.pathFrom other) .empty, o.pathFrom other) :: s.lost }
    else (s.clear other).put o callable

end Forest

section Inside
variable {s : Forest ι V} {o other : Location ι} {w u : Wrapper V}

theorem get_of_inside (hother : s.get other = some u) (h : o.Inside other) :
    s.get o = u.get (o.pathFrom other) := by
  obtain ⟨heq, -⟩ := h.eq
  conv_lhs => rw [heq]
  unfold Forest.get at *
  rw [Wrapper.get_append, hother]
  rfl

/-- An empty wrapper holds no other one. -/
theorem ne_empty_of_inside (hother : s.get other = some u) (ho : s.get o = some w)
    (h : o.Inside other) : u ≠ .empty := by
  rintro rfl
  obtain ⟨k, q, hq⟩ := List.exists_cons_of_ne_nil h.eq.2
  rw [get_of_inside hother h, hq] at ho
  cases ho

variable [DecidableEq ι]

/-- A wrapper in the old callable of the target is destroyed with it. -/
theorem get_clear_of_contains (ho : s.get o = some w) (h : other.Inside o) :
    (s.clear o).get other = none := by
  obtain ⟨heq, hne⟩ := h.eq
  obtain ⟨k, q, hq⟩ := List.exists_cons_of_ne_nil hne
  rw [heq, Forest.clear, Forest.get_put_inside ho, hq]
  rfl

/-- The target is cleared in the callable that it is in. -/
theorem clear_of_inside (hother : s.get other = some u) (h : o.Inside other) :
    s.clear o = s.put other (u.put (o.pathFrom other) .empty) := by
  obtain ⟨heq, -⟩ := h.eq
  rw [Forest.clear]
  conv_lhs => rw [heq]
  exact Forest.put_inside hother

end Inside

section Assignments
variable [DecidableEq ι] {s : Forest ι V} {o other : Location ι} {w u : Wrapper V}
  {throws : V → Bool} {left : V → V}

theorem copyExchange_forest (hother : s.get other = some u) :
    (s.copyExchange throws o other).map Exit.forest =
      some (if (u.clone throws).isSome then s.put o u else s) := by
  unfold Forest.copyExchange
  simp only [hother, Option.map_some]
  cases hclone : u.clone throws with
  | none => rfl
  | some copy =>
    obtain rfl := Wrapper.eq_of_clone u hclone
    rfl

theorem copyAssign_forest (hne : o ≠ other) (hother : (s.clear o).get other = some u) :
    (s.copyAssign throws o other).map Exit.forest =
      some (if (u.clone throws).isSome then s.put o u else s.clear o) := by
  unfold Forest.copyAssign
  rw [if_neg hne, hother]
  cases u with
  | empty => rfl
  | holds sbo v inner =>
    dsimp only
    cases hclone : (Wrapper.holds sbo v inner).clone throws with
    | none => rfl
    | some copy =>
      obtain rfl := Wrapper.eq_of_clone _ hclone
      exact congrArg some Forest.put_put

theorem copyExchange_threw (hother : s.get other = some u) :
    (s.copyExchange throws o other).map Exit.threw = some (u.clone throws).isNone := by
  unfold Forest.copyExchange
  simp only [hother, Option.map_some]
  cases u.clone throws <;> rfl

theorem copyAssign_threw (hne : o ≠ other) (hother : (s.clear o).get other = some u) :
    (s.copyAssign throws o other).map Exit.threw = some (u.clone throws).isNone := by
  unfold Forest.copyAssign
  rw [if_neg hne, hother]
  cases u with
  | empty => rfl
  | holds sbo v inner =>
    dsimp only
    cases (Wrapper.holds sbo v inner).clone throws <;> rfl

/-- A copy of what the target is in is one without the callable of the target. -/
theorem copyAssign_ne_of_inside (hw : w ≠ .empty) (ho : s.get o = some w)
    (hother : s.get other = some u) (h : o.Inside other) :
    (s.copyAssign throws o other).map Exit.forest ≠
      (s.copyExchange throws o other).map Exit.forest := by
  have hcleared : (s.clear o).get other = some (u.put (o.pathFrom other) .empty) := by
    rw [clear_of_inside hother h]
    exact Forest.get_put hother
  have hu : u.get (o.pathFrom other) = some w := (get_of_inside hother h).symm.trans ho
  rw [copyAssign_forest h.ne hcleared, copyExchange_forest hother]
  intro heq
  have hget := congrArg (fun t => t.bind fun t : Forest ι V => t.get o) heq
  simp only [Option.bind_some, apply_ite fun t : Forest ι V => t.get o, Forest.clear,
    Forest.get_put ho, ho] at hget
  split at hget
  · rename_i hcopied
    split at hget
    · have hsame := congrArg (fun t => t.bind fun t => t.get (o.pathFrom other)) hget
      rw [Option.bind_some, Option.bind_some, Wrapper.get_put hu, hu] at hsame
      exact hw (Option.some.inj hsame).symm
    · rename_i hthrows
      refine hthrows (Wrapper.clone_of_put hu hcopied ?_)
      rwa [← Option.some.inj hget]
  · split at hget
    · exact ne_empty_of_inside hother ho h (Option.some.inj hget).symm
    · exact hw (Option.some.inj hget).symm

theorem copyAssign_iff (ho : s.get o = some w) (hother : s.get other = some u) :
    (s.copyAssign throws o other).map Exit.forest =
        (s.copyExchange throws o other).map Exit.forest ↔
      w = .empty ∨ o = other ∨
        ¬ other.Inside o ∧ ¬ o.Inside other ∧ (u.clone throws).isSome = true := by
  rcases Location.cases o other with rfl | h | h | h
  · refine iff_of_true ?_ (.inr (.inl rfl))
    rw [copyExchange_forest ho, Forest.put_get ho, ite_self, Forest.copyAssign, if_pos rfl]
    rfl
  · simp only [h, not_true, false_and, and_false, h.ne, or_false]
    constructor
    · intro heq
      by_contra hw
      exact copyAssign_ne_of_inside hw ho hother h heq
    · rintro rfl
      have hu : u.put (o.pathFrom other) .empty = u :=
        Wrapper.put_get ((get_of_inside hother h).symm.trans ho)
      have hcleared : (s.clear o).get other = some u := by
        rw [Forest.clear, Forest.put_get ho, hother]
      rw [copyAssign_forest h.ne hcleared, copyExchange_forest hother, Forest.clear,
        Forest.put_get ho]
  · have hw : w ≠ .empty := ne_empty_of_inside ho hother h
    have hne : o ≠ other := h.ne.symm
    refine iff_of_false (fun heq => ?_) ?_
    · rw [copyExchange_forest hother, Forest.copyAssign, if_neg hne,
        get_clear_of_contains ho h] at heq
      cases heq
    · simp [hw, hne, h]
  · have hcleared : (s.clear o).get other = some u := (Forest.get_put_of_apart h).trans hother
    rw [copyAssign_forest h.ne hcleared, copyExchange_forest hother]
    simp only [h.ne, h.not_inside, h.symm.not_inside, not_false_eq_true, true_and, false_or]
    split
    · rename_i hclone
      exact iff_of_true rfl (.inr hclone)
    · rename_i hclone
      rw [or_iff_left hclone]
      constructor
      · intro heq
        have hget := congrArg (fun t => t.bind fun t : Forest ι V => t.get o) heq
        rw [Option.bind_some, Option.bind_some, Forest.clear, Forest.get_put ho, ho] at hget
        exact (Option.some.inj hget).symm
      · rintro rfl
        rw [Forest.clear, Forest.put_get ho]

/-- What is left of a functor that has been moved from is destroyed. -/
theorem clear_pass (h : o.Inside other ∨ o.Apart other) (rest : Wrapper V) :
    (s.pass o other u rest).clear other = s.pass o other u .empty := by
  unfold Forest.pass
  split
  · simp only [Forest.clear, Forest.put, Function.update_self, Function.update_idem,
      Wrapper.put_put]
  · rename_i hin
    rw [Forest.clear, Forest.put_comm (h.resolve_left hin), Forest.put_put]

theorem moveAssign_eq (hne : o ≠ other) (h : o.Inside other ∨ o.Apart other)
    (hother : (s.clear o).get other = some u) (hu : u ≠ .empty) :
    s.moveAssign left o other = some ((s.clear o).pass o other u .empty) := by
  unfold Forest.moveAssign
  rw [if_neg hne, hother]
  cases u with
  | empty => exact absurd rfl hu
  | holds sbo v inner =>
    cases sbo with
    | false => rfl
    | true => exact congrArg some (clear_pass h _)

theorem moveAssign_of_inside (ho : s.get o = some w) (hother : s.get other = some u)
    (h : o.Inside other) : s.moveAssign left o other = s.moveExchange o other := by
  have hcleared : (s.clear o).get other = some (u.put (o.pathFrom other) .empty) := by
    rw [clear_of_inside hother h]
    exact Forest.get_put hother
  have hnonempty : u.put (o.pathFrom other) .empty ≠ .empty := by
    have hu := ne_empty_of_inside hother ho h
    obtain ⟨k, q, hq⟩ := List.exists_cons_of_ne_nil h.eq.2
    rw [hq]
    cases u with
    | empty => exact absurd rfl hu
    | holds sbo v inner => exact nofun
  rw [moveAssign_eq h.ne (.inl h) hcleared hnonempty, Forest.moveExchange, hother, Option.map_some,
    if_pos h, Forest.pass, if_pos h, clear_of_inside hother h, Forest.put_put]
  rfl

theorem moveAssign_of_apart (hother : s.get other = some u) (h : o.Apart other) :
    s.moveAssign left o other = s.moveExchange o other := by
  have hcleared : (s.clear o).get other = some u := (Forest.get_put_of_apart h).trans hother
  have hexchange : s.moveExchange o other = some ((s.clear other).put o u) := by
    rw [Forest.moveExchange, hother, Option.map_some, if_neg h.not_inside]
  by_cases hu : u = .empty
  · subst hu
    rw [hexchange, Forest.moveAssign, if_neg h.ne, hcleared, Forest.clear, Forest.clear,
      Forest.put_get hother]
  · rw [moveAssign_eq h.ne (.inr h) hcleared hu, hexchange, Forest.pass, if_neg h.not_inside,
      Forest.clear, Forest.put_comm h, Forest.put_put, Forest.clear]

theorem moveAssign_iff (ho : s.get o = some w) (hother : s.get other = some u) :
    s.moveAssign left o other = s.moveExchange o other ↔ ¬ other.Inside o := by
  rcases Location.cases o other with rfl | h | h | h
  · refine iff_of_true ?_ o.inside_irrefl
    rw [Forest.moveAssign, if_pos rfl, Forest.moveExchange, hother, Option.map_some,
      if_neg o.inside_irrefl, Forest.clear, Forest.put_put, Forest.put_get hother]
  · exact iff_of_true (moveAssign_of_inside ho hother h) h.asymm
  · have hne : o ≠ other := h.ne.symm
    refine iff_of_false (fun heq => ?_) (not_not.mpr h)
    rw [Forest.moveAssign, if_neg hne, get_clear_of_contains ho h, Forest.moveExchange,
      hother] at heq
    cases heq
  · exact iff_of_true (moveAssign_of_apart hother h) h.symm.not_inside

/-- Where the assignments agree the source is as it was when the target has been cleared. -/
theorem get_clear_other (ho : s.get o = some w) (hother : s.get other = some u) (hne : o ≠ other)
    (h : w = .empty ∨ o = other ∨ ¬ other.Inside o ∧ ¬ o.Inside other ∧
      (u.clone throws).isSome = true) : (s.clear o).get other = some u := by
  rcases h with rfl | h | ⟨h, h', -⟩
  · rwa [Forest.clear, Forest.put_get ho]
  · exact absurd h hne
  · have hapart := (((Location.cases o other).resolve_left hne).resolve_left h').resolve_left h
    exact (Forest.get_put_of_apart hapart).trans hother

end Assignments

section References
variable [DecidableEq ι] {W A R : Type} {s : Forest ι V} {o other : ι} {throws : V → Bool}
  {left : V → V}

/-- The wrappers of the client, each with its callable. -/
def Forest.reference (s : Forest ι V) (world : W) : Reference ι (V × List (Wrapper V)) W where
  objects o := some (s.roots o).callable
  world := world

theorem reference_put (s : Forest ι V) (o : ι) (w : Wrapper V) (world : W) :
    (s.put ⟨o, []⟩ w).reference world = (s.reference world).set o w.callable := by
  unfold Forest.reference Reference.set
  congr 1
  funext x
  by_cases hx : x = o
  · subst hx
    simp [Forest.put]
  · simp [Forest.put, hx]

/-- Between wrappers of the client an assignment does what it does to the reference. -/
theorem copyAssign_reference (F : Callables (V × List (Wrapper V)) W A R)
    (hcopy : ∀ f, F.copy f = f) (hne : o ≠ other)
    (hclone : ((s.roots other).clone throws).isSome = true) (fresh : ℕ) (world : W) :
    (s.copyAssign throws ⟨o, []⟩ ⟨other, []⟩).map (fun e => (e.forest.reference world, [])) =
      Reference.step F (s.reference world) (.copyAssign o other fresh) := by
  have hne' : (⟨o, []⟩ : Location ι) ≠ ⟨other, []⟩ := fun h => hne (Location.mk.inj h).1
  have hapart : (⟨o, []⟩ : Location ι).Apart ⟨other, []⟩ := fun h => absurd h hne
  have hcleared : (s.clear ⟨o, []⟩).get ⟨other, []⟩ = some (s.roots other) :=
    (Forest.get_put_of_apart hapart).trans Wrapper.get_nil
  have hforest : (s.copyAssign throws ⟨o, []⟩ ⟨other, []⟩).map Exit.forest =
      some (s.put ⟨o, []⟩ (s.roots other)) := by
    rw [copyAssign_forest hne' hcleared, if_pos hclone]
  have hmap := congrArg (Option.map fun t : Forest ι V =>
    (t.reference world, ([] : List (Event ι (V × List (Wrapper V)) A R)))) hforest
  rw [Option.map_map] at hmap
  refine hmap.trans ?_
  have hid : (s.roots other).callable.map F.copy = (s.roots other).callable := by
    rw [funext hcopy]
    exact Option.map_id'
  rw [Option.map_some, reference_put]
  simp only [Reference.step, Forest.reference, hne, if_false, hid]

theorem moveAssign_reference (F : Callables (V × List (Wrapper V)) W A R) (hne : o ≠ other)
    (world : W) : (s.moveAssign left ⟨o, []⟩ ⟨other, []⟩).map (fun t => (t.reference world, [])) =
      Reference.step F (s.reference world) (.moveAssign o other) := by
  have hapart : (⟨o, []⟩ : Location ι).Apart ⟨other, []⟩ := fun h => absurd h hne
  have hother : s.get ⟨other, []⟩ = some (s.roots other) := Wrapper.get_nil
  rw [moveAssign_of_apart hother hapart, Forest.moveExchange, hother, Option.map_some,
    if_neg hapart.not_inside, Option.map_some, Forest.clear, reference_put, reference_put]
  simp only [Reference.step, Reference.set, Forest.reference, Wrapper.callable, hne, if_false,
    Function.update_comm hne]

end References

/-- Copy assignment has the effect of copying and exchanging exactly if the target is empty or the
source itself, or neither wrapper is in the callable of the other and no copy throws; apart from
self-assignment an exception then leaves both or neither. Move assignment has the effect of moving
and exchanging exactly if the source is not in the callable of the target. -/
theorem assign_exchange {ι V : Type} [DecidableEq ι] {s : Forest ι V} {o other : Location ι}
    {w u : Wrapper V} (throws : V → Bool) (left : V → V) (ho : s.get o = some w)
    (hother : s.get other = some u) :
    ((s.copyAssign throws o other).map Exit.forest =
        (s.copyExchange throws o other).map Exit.forest ↔
      w = .empty ∨ o = other ∨
        ¬ other.Inside o ∧ ¬ o.Inside other ∧ (u.clone throws).isSome = true) ∧
    (o ≠ other → (s.copyAssign throws o other).map Exit.forest =
        (s.copyExchange throws o other).map Exit.forest →
      (s.copyAssign throws o other).map Exit.threw =
        (s.copyExchange throws o other).map Exit.threw) ∧
    (s.moveAssign left o other = s.moveExchange o other ↔ ¬ other.Inside o) := by
  refine ⟨copyAssign_iff ho hother, fun hne hsame => ?_, moveAssign_iff ho hother⟩
  have hcleared := get_clear_other ho hother hne ((copyAssign_iff ho hother).mp hsame)
  rw [copyAssign_threw hne hcleared, copyExchange_threw hother]

/-- Two wrappers, with callables of the values 7 and 8. -/
def pair : Forest ℕ ℕ where
  roots o := .holds (o == 0) (7 + o) []
  lost := []

/-- Copies that do not throw. -/
theorem assign_exchange_pair :
    (pair.copyAssign (fun _ => false) ⟨0, []⟩ ⟨1, []⟩).map Exit.forest =
      (pair.copyExchange (fun _ => false) ⟨0, []⟩ ⟨1, []⟩).map Exit.forest := by
  apply (assign_exchange (fun _ => false) id rfl rfl).1.mpr
  exact .inr (.inr (by decide))

/-- A copy throws, and the target has lost its callable. -/
theorem assign_not_exchange : ¬ ∀ (throws : ℕ → Bool) (s : Forest ℕ ℕ) (o other : Location ℕ)
    (w u : Wrapper ℕ), s.get o = some w → s.get other = some u →
    (s.copyAssign throws o other).map Exit.forest =
      (s.copyExchange throws o other).map Exit.forest := by
  intro hall
  have hsame := hall (fun v => v == 8) pair ⟨0, []⟩ ⟨1, []⟩ _ _ rfl rfl
  have hget := congrArg (fun t => t.bind fun t : Forest ℕ ℕ => t.get ⟨0, []⟩) hsame
  cases hget

end MyFunction
