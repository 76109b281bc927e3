import LowLevelCpp.Foundations.System
import Mathlib.Logic.Function.Basic

/-! Lifetimes of objects in blocks of storage. The discipline accepts the logs in which objects are
built in free slots of allocated blocks, read, assigned to, moved from and destroyed while they
exist, and blocks released empty and in the form in which they were allocated. -/
namespace Foundations

/-- `new T[]`, which constructs its elements, or `::operator new`. -/
inductive Form where
  | array
  | raw
  deriving DecidableEq

structure Block where
  form : Form
  length : ℕ
  deriving DecidableEq

inductive Lifetime where
  | allocated (b : ℕ) (block : Block)
  | constructed (b i : ℕ)
  | copied (b i : ℕ)
  | assigned (b i : ℕ)
  | movedFrom (b i : ℕ)
  | destroyed (b i : ℕ)
  | released (b : ℕ) (form : Form)
  deriving DecidableEq

/-- The block that the event is about. -/
def Lifetime.block : Lifetime → ℕ
  | .allocated b _ | .constructed b _ | .copied b _ | .assigned b _ | .movedFrom b _
  | .destroyed b _ | .released b _ => b

/-- After the event nothing is left of the object: it is moved from or destroyed, or its block is
released. -/
def Lifetime.Ends (e : Lifetime) (b i : ℕ) : Prop :=
  e = .movedFrom b i ∨ e = .destroyed b i ∨ ∃ form, e = .released b form

/-- The object is read although nothing is left of it. -/
def ReadLate (b i : ℕ) (events : List Lifetime) : Prop :=
  ∃ before after, events = before ++ .copied b i :: after ∧ ∃ e ∈ before, e.Ends b i

section ReadLate
variable {b i : ℕ} {e : Lifetime} {xs ys : List Lifetime}

theorem Lifetime.Ends.block_eq (h : e.Ends b i) : e.block = b := by
  rcases h with rfl | rfl | ⟨form, rfl⟩ <;> rfl

theorem not_ends_copied (x j : ℕ) : ¬ (Lifetime.copied x j).Ends b i := by
  rintro (h | h | ⟨form, h⟩) <;> cases h

/-- What ends the object comes after the last time that it is read. -/
theorem not_readLate_append (hxs : ∀ e ∈ xs, ¬ e.Ends b i) (hys : ∀ e ∈ ys, e ≠ .copied b i) :
    ¬ ReadLate b i (xs ++ ys) := by
  rintro ⟨before, after, heq, e, he, hends⟩
  rcases List.append_eq_append_iff.mp heq with ⟨mid, rfl, hys'⟩ | ⟨mid, rfl, -⟩
  · refine hys (.copied b i) ?_ rfl
    rw [hys']
    exact List.mem_append_right _ List.mem_cons_self
  · exact hxs e (List.mem_append_left _ he) hends

theorem not_readLate_of_not_ends (h : ∀ e ∈ xs, ¬ e.Ends b i) : ¬ ReadLate b i xs := by
  rintro ⟨before, after, rfl, e, he, hends⟩
  exact h e (List.mem_append_left _ he) hends

theorem not_readLate_of_not_copied (h : ∀ e ∈ xs, e ≠ .copied b i) : ¬ ReadLate b i xs := by
  rintro ⟨before, after, rfl, -⟩
  exact h _ (List.mem_append_right _ List.mem_cons_self) rfl

end ReadLate

/-- The blocks that are allocated and the slots that hold an object. -/
structure Storage where
  blocks : ℕ → Option Block
  live : ℕ → ℕ → Bool

namespace Storage

def setBlock (t : Storage) (b : ℕ) (block : Option Block) : Storage :=
  { t with blocks := Function.update t.blocks b block }

def setLive (t : Storage) (b i : ℕ) (value : Bool) : Storage :=
  { t with live := Function.update t.live b (Function.update (t.live b) i value) }

/-- A slot of an allocated block in which no object exists. -/
def Free (t : Storage) (b i : ℕ) : Prop :=
  ∃ block, t.blocks b = some block ∧ i < block.length ∧ t.live b i = false

instance (t : Storage) (b i : ℕ) : Decidable (t.Free b i) :=
  match h : t.blocks b with
  | none => .isFalse (by simp [Free, h])
  | some block => decidable_of_iff (i < block.length ∧ t.live b i = false) (by simp [Free, h])

/-- `delete[]` and `::operator delete` fit what they release if the form is the same and no object
is left in it. -/
def Releasable (t : Storage) (b : ℕ) (form : Form) : Prop :=
  ∃ block, t.blocks b = some block ∧ block.form = form ∧
    ∀ i < block.length, t.live b i = false

instance (t : Storage) (b : ℕ) (form : Form) : Decidable (t.Releasable b form) :=
  match h : t.blocks b with
  | none => .isFalse (by simp [Releasable, h])
  | some block =>
    decidable_of_iff (block.form = form ∧ ∀ i < block.length, t.live b i = false)
      (by simp [Releasable, h])

end Storage

/-- The acceptor of the logs that keep the discipline. -/
def discipline : Spec Storage Lifetime where
  init := ⟨fun _ => none, fun _ _ => false⟩
  accept t e :=
    match e with
    | .allocated b block => if t.blocks b = none then some (t.setBlock b (some block)) else none
    | .constructed b i => if t.Free b i then some (t.setLive b i true) else none
    | .copied b i | .assigned b i | .movedFrom b i => if t.live b i then some t else none
    | .destroyed b i => if t.live b i then some (t.setLive b i false) else none
    | .released b form => if t.Releasable b form then some (t.setBlock b none) else none

namespace Storage
variable {t : Storage} {b i b' i' : ℕ} {block : Option Block} {value : Bool}

@[simp] theorem setBlock_live : (t.setBlock b block).live = t.live := rfl

@[simp] theorem setLive_live :
    (t.setLive b i value).live b' i' = if b' = b ∧ i' = i then value else t.live b' i' := by
  by_cases hb : b' = b
  · subst hb
    by_cases hi : i' = i
    · subst hi
      simp [setLive]
    · simp [setLive, hi]
  · simp [setLive, hb]

end Storage

section Accept
variable {t t' : Storage} {b i : ℕ} {block : Block} {form : Form}

theorem accept_allocated : discipline.accept t (.allocated b block) = some t' ↔
    t.blocks b = none ∧ t.setBlock b (some block) = t' := by
  simp [discipline]

theorem accept_constructed : discipline.accept t (.constructed b i) = some t' ↔
    t.Free b i ∧ t.setLive b i true = t' := by
  simp [discipline]

theorem accept_copied :
    discipline.accept t (.copied b i) = some t' ↔ t.live b i = true ∧ t = t' := by
  simp [discipline]

theorem accept_assigned :
    discipline.accept t (.assigned b i) = some t' ↔ t.live b i = true ∧ t = t' := by
  simp [discipline]

theorem accept_movedFrom :
    discipline.accept t (.movedFrom b i) = some t' ↔ t.live b i = true ∧ t = t' := by
  simp [discipline]

theorem accept_destroyed : discipline.accept t (.destroyed b i) = some t' ↔
    t.live b i = true ∧ t.setLive b i false = t' := by
  simp [discipline]

theorem accept_released : discipline.accept t (.released b form) = some t' ↔
    t.Releasable b form ∧ t.setBlock b none = t' := by
  simp [discipline]

end Accept

/-- In an accepted log each object is destroyed as often as it was constructed, once less while it
exists. -/
theorem discipline_count {t : Storage} {log : List Lifetime}
    (h : discipline.replay log = some t) (b i : ℕ) :
    log.count (.constructed b i) = log.count (.destroyed b i) + (t.live b i).toNat := by
  refine discipline.invariant (I := fun t log => log.count (.constructed b i) =
    log.count (.destroyed b i) + (t.live b i).toNat) h (by simp [discipline]) ?_
  intro t log e t' ih ha
  rw [List.count_append, List.count_append, ih]
  cases e with
  | allocated b' block =>
    obtain ⟨-, rfl⟩ := accept_allocated.mp ha
    simp
  | constructed b' i' =>
    obtain ⟨⟨block, -, -, hdead⟩, rfl⟩ := accept_constructed.mp ha
    by_cases hbi : b = b' ∧ i = i'
    · obtain ⟨rfl, rfl⟩ := hbi
      simp [hdead]
    · have hne : ¬ (b' = b ∧ i' = i) := fun h => hbi ⟨h.1.symm, h.2.symm⟩
      simp [hbi, hne]
  | destroyed b' i' =>
    obtain ⟨hlive, rfl⟩ := accept_destroyed.mp ha
    by_cases hbi : b = b' ∧ i = i'
    · obtain ⟨rfl, rfl⟩ := hbi
      simp [hlive]
    · have hne : ¬ (b' = b ∧ i' = i) := fun h => hbi ⟨h.1.symm, h.2.symm⟩
      simp [hbi, hne]
  | released b' form =>
    obtain ⟨-, rfl⟩ := accept_released.mp ha
    simp
  | copied b' i' =>
    obtain ⟨-, rfl⟩ := accept_copied.mp ha
    simp
  | assigned b' i' =>
    obtain ⟨-, rfl⟩ := accept_assigned.mp ha
    simp
  | movedFrom b' i' =>
    obtain ⟨-, rfl⟩ := accept_movedFrom.mp ha
    simp

/-- The slot is one of an allocated block. -/
def Within (blocks : ℕ → Option Block) (b i : ℕ) : Prop :=
  ∃ block, blocks b = some block ∧ i < block.length

instance (blocks : ℕ → Option Block) (b i : ℕ) : Decidable (Within blocks b i) :=
  match h : blocks b with
  | none => .isFalse (by simp [Within, h])
  | some block => decidable_of_iff (i < block.length) (by simp [Within, h])

/-- The acceptor of the logs in which only slots of allocated blocks are accessed, whether an
object exists there or not. -/
def bounds : Spec (ℕ → Option Block) Lifetime where
  init := fun _ => none
  accept blocks e :=
    match e with
    | .allocated b block =>
      if blocks b = none then some (Function.update blocks b (some block)) else none
    | .constructed b i | .copied b i | .assigned b i | .movedFrom b i | .destroyed b i =>
      if Within blocks b i then some blocks else none
    | .released b _ =>
      if (blocks b).isSome then some (Function.update blocks b none) else none

end Foundations
