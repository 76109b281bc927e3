import Mathlib.Data.Nat.Notation
import Mathlib.Data.List.Basic

/-! Wrappers whose callables hold other wrappers: how one is found and exchanged, and how a callable
is copied together with the wrappers in it. -/
namespace MyFunction

/-- A wrapper and what it owns. The callable, in the buffer or on the heap, has a value and holds
other wrappers. -/
inductive Wrapper (V : Type) where
  | empty
  | holds (sbo : Bool) (v : V) (inner : List (Wrapper V))

namespace Wrapper
variable {V : Type} {w u new new' : Wrapper V} {p q : List ℕ}

def inner : Wrapper V → List (Wrapper V)
  | .empty => []
  | .holds _ _ inner => inner

/-- The callable with the wrappers in it, in the buffer or on the heap. -/
def callable : Wrapper V → Option (V × List (Wrapper V))
  | .empty => none
  | .holds _ v inner => some (v, inner)

/-- The wrapper at the end of a path, which says at each callable which wrapper in it comes next. -/
def get : Wrapper V → List ℕ → Option (Wrapper V)
  | w, [] => some w
  | w, k :: p => w.inner[k]?.bind fun u => u.get p

/-- Another wrapper takes its place. -/
def put : Wrapper V → List ℕ → Wrapper V → Wrapper V
  | _, [], new => new
  | .empty, _ :: _, _ => .empty
  | .holds sbo v inner, k :: p, new => .holds sbo v (inner.modify k fun u => u.put p new)

@[simp] theorem get_nil : w.get [] = some w := by
  unfold get
  rfl

theorem get_cons (k : ℕ) : w.get (k :: p) = w.inner[k]?.bind fun u => u.get p := rfl

@[simp] theorem put_nil : w.put [] new = new := by
  cases w <;> rfl

theorem inner_put (k : ℕ) :
    (w.put (k :: p) new).inner = w.inner.modify k fun u => u.put p new := by
  cases w with
  | empty => exact (List.modify_nil _ k).symm
  | holds sbo v inner => rfl

/-- What is put further down only depends on the wrapper at the first step. -/
theorem put_cons_congr {k : ℕ}
    (h : ∀ u, w.inner[k]? = some u → u.put p new = u.put q new') :
    w.put (k :: p) new = w.put (k :: q) new' := by
  cases w with
  | empty => rfl
  | holds sbo v inner =>
    have hinner : inner.modify k (fun u => u.put p new) =
        inner.modify k fun u => u.put q new' := by
      apply List.ext_getElem?
      intro j
      by_cases hj : k = j
      · subst hj
        rw [List.getElem?_modify_eq, List.getElem?_modify_eq]
        cases hu : inner[k]? with
        | none => rfl
        | some u => exact congrArg some (h u hu)
      · rw [List.getElem?_modify_ne _ _ hj, List.getElem?_modify_ne _ _ hj]
    exact congrArg (Wrapper.holds sbo v) hinner

theorem get_append : w.get (p ++ q) = (w.get p).bind fun u => u.get q := by
  induction p generalizing w with
  | nil => simp
  | cons k p ih =>
    rw [List.cons_append, get_cons, get_cons, Option.bind_assoc]
    exact congrArg _ (funext fun u => ih)

theorem get_put (h : w.get p = some u) : (w.put p new).get p = some new := by
  induction p generalizing w with
  | nil => simp
  | cons k p ih =>
    obtain ⟨x, hx, h⟩ := Option.bind_eq_some_iff.mp h
    rw [get_cons, inner_put, List.getElem?_modify_eq, hx]
    exact ih h

theorem put_get (h : w.get p = some u) : w.put p u = w := by
  induction p generalizing w with
  | nil => simpa using h.symm
  | cons k p ih =>
    cases w with
    | empty => rfl
    | holds sbo v inner =>
      obtain ⟨x, hx, h⟩ := Option.bind_eq_some_iff.mp h
      have hinner : inner.modify k (fun y => y.put p u) = inner := by
        apply List.ext_getElem?
        intro j
        by_cases hj : k = j
        · subst hj
          have hk : inner[k]? = some x := hx
          rw [List.getElem?_modify_eq, hk]
          exact congrArg some (ih h)
        · rw [List.getElem?_modify_ne _ _ hj]
      exact congrArg (Wrapper.holds sbo v) hinner

theorem put_append (h : w.get p = some u) : w.put (p ++ q) new = w.put p (u.put q new) := by
  induction p generalizing w with
  | nil =>
    rw [get_nil] at h
    obtain rfl := Option.some.inj h
    simp
  | cons k p ih =>
    obtain ⟨x, hx, h⟩ := Option.bind_eq_some_iff.mp h
    refine put_cons_congr fun y hy => ?_
    obtain rfl := Option.some.inj (hx.symm.trans hy)
    exact ih h

@[simp] theorem put_put : (w.put p new).put p new' = w.put p new' := by
  induction p generalizing w with
  | nil => simp
  | cons k p ih =>
    cases w with
    | empty => rfl
    | holds sbo v inner =>
      have hinner : (inner.modify k fun u => u.put p new).modify k (fun u => u.put p new') =
          inner.modify k fun u => u.put p new' := by
        rw [List.modify_modify_eq]
        exact congrArg (inner.modify k) (funext fun u => ih)
      exact congrArg (Wrapper.holds sbo v) hinner

/-- Neither wrapper is in the callable of the other. -/
def Apart (p q : List ℕ) : Prop := ¬ p <+: q ∧ ¬ q <+: p

theorem Apart.symm (h : Apart p q) : Apart q p := ⟨h.2, h.1⟩

/-- Two paths that are apart part at some callable. -/
theorem Apart.cases (h : Apart p q) :
    ∃ i j p' q', p = i :: p' ∧ q = j :: q' ∧ (i = j → Apart p' q') := by
  obtain ⟨hp, hq⟩ := h
  cases p with
  | nil => exact absurd List.nil_prefix hp
  | cons i p =>
    cases q with
    | nil => exact absurd List.nil_prefix hq
    | cons j q =>
      refine ⟨i, j, p, q, rfl, rfl, ?_⟩
      rintro rfl
      exact ⟨fun h => hp (List.cons_prefix_cons.mpr ⟨rfl, h⟩),
        fun h => hq (List.cons_prefix_cons.mpr ⟨rfl, h⟩)⟩

theorem get_put_of_apart (h : Apart p q) : (w.put p new).get q = w.get q := by
  induction p generalizing w q with
  | nil => exact absurd List.nil_prefix h.1
  | cons k p ih =>
    obtain ⟨i, j, p', q', hp, rfl, hrest⟩ := h.cases
    obtain ⟨rfl, rfl⟩ := List.cons.inj hp
    rw [get_cons, get_cons, inner_put]
    by_cases hkj : k = j
    · subst hkj
      rw [List.getElem?_modify_eq]
      cases w.inner[k]? with
      | none => rfl
      | some u => exact ih (hrest rfl)
    · rw [List.getElem?_modify_ne _ _ hkj]

theorem put_comm (h : Apart p q) : (w.put p new).put q new' = (w.put q new').put p new := by
  induction p generalizing w q with
  | nil => exact absurd List.nil_prefix h.1
  | cons k p ih =>
    obtain ⟨i, j, p', q', hp, rfl, hrest⟩ := h.cases
    obtain ⟨rfl, rfl⟩ := List.cons.inj hp
    cases w with
    | empty => rfl
    | holds sbo v inner =>
      have hinner : (inner.modify k fun u => u.put p new).modify j (fun u => u.put q' new') =
          (inner.modify j fun u => u.put q' new').modify k fun u => u.put p new := by
        by_cases hkj : k = j
        · subst hkj
          rw [List.modify_modify_eq, List.modify_modify_eq]
          exact congrArg (inner.modify k) (funext fun u => ih (hrest rfl))
        · exact List.modify_modify_ne _ _ _ hkj
      exact congrArg (Wrapper.holds sbo v) hinner

section Clone
variable {throws : V → Bool} {sbo : Bool} {v : V} {ws : List (Wrapper V)}

mutual

/-- `clone`: a copy of the functor, which has the same value, with copies of the wrappers in it. The
copy constructor of a functor with the value `v` throws if `throws v`. -/
def clone (throws : V → Bool) : Wrapper V → Option (Wrapper V)
  | .empty => some .empty
  | .holds sbo v inner => if throws v then none else (cloneAll throws inner).map (.holds sbo v)

def cloneAll (throws : V → Bool) : List (Wrapper V) → Option (List (Wrapper V))
  | [] => some []
  | w :: ws => (clone throws w).bind fun w' => (cloneAll throws ws).map (w' :: ·)

end

mutual

theorem eq_of_clone : (w : Wrapper V) → ∀ {w'}, clone throws w = some w' → w' = w
  | .empty, _, h => (Option.some.inj h).symm
  | .holds sbo v inner, _, h => by
    rw [clone] at h
    obtain ⟨-, h⟩ := Option.ite_none_left_eq_some.mp h
    obtain ⟨inner', hinner, rfl⟩ := Option.map_eq_some_iff.mp h
    rw [eq_of_cloneAll inner hinner]

theorem eq_of_cloneAll : (ws : List (Wrapper V)) → ∀ {ws'}, cloneAll throws ws = some ws' → ws' = ws
  | [], _, h => (Option.some.inj h).symm
  | w :: ws, _, h => by
    rw [cloneAll] at h
    obtain ⟨w', hw, h⟩ := Option.bind_eq_some_iff.mp h
    obtain ⟨ws', hws, rfl⟩ := Option.map_eq_some_iff.mp h
    rw [eq_of_clone w hw, eq_of_cloneAll ws hws]

end

theorem cloneAll_isSome :
    (cloneAll throws ws).isSome = true ↔ ∀ w ∈ ws, (clone throws w).isSome = true := by
  induction ws with
  | nil => simp [cloneAll]
  | cons w ws ih =>
    rw [List.forall_mem_cons, ← ih, cloneAll]
    cases clone throws w with
    | none => simp
    | some w' => simp

theorem clone_isSome : (clone throws (.holds sbo v ws)).isSome = true ↔
    throws v = false ∧ ∀ w ∈ ws, (clone throws w).isSome = true := by
  rw [← cloneAll_isSome, clone]
  cases throws v with
  | true => simp
  | false => simp

/-- A callable is copied if it is copied without one of its wrappers, and that wrapper is. -/
theorem clone_of_put (h : w.get p = some u)
    (hput : (clone throws (w.put p new)).isSome = true)
    (hu : (clone throws u).isSome = true) : (clone throws w).isSome = true := by
  induction p generalizing w with
  | nil =>
    rw [get_nil] at h
    rwa [Option.some.inj h]
  | cons k p ih =>
    cases w with
    | empty => rfl
    | holds sbo v inner =>
      obtain ⟨x, hx, h⟩ := Option.bind_eq_some_iff.mp h
      obtain ⟨hv, hall⟩ := clone_isSome.mp hput
      refine clone_isSome.mpr ⟨hv, fun y hy => ?_⟩
      obtain ⟨j, hj⟩ := List.mem_iff_getElem?.mp hy
      by_cases hkj : k = j
      · subst hkj
        obtain rfl := Option.some.inj (hx.symm.trans hj)
        refine ih h (hall _ (List.mem_iff_getElem?.mpr ⟨k, ?_⟩))
        rw [List.getElem?_modify_eq, hj]
        rfl
      · refine hall _ (List.mem_iff_getElem?.mpr ⟨j, ?_⟩)
        rw [List.getElem?_modify_ne _ _ hkj, hj]

end Clone
end Wrapper
end MyFunction
