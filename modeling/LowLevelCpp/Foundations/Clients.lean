import LowLevelCpp.Foundations.System
import Mathlib.Algebra.Order.BigOperators.Group.List
import Mathlib.Algebra.BigOperators.Group.Finset.Basic
import Mathlib.Algebra.BigOperators.Group.List.Basic
import Mathlib.Algebra.Order.Ring.Nat
import Mathlib.Algebra.Order.BigOperators.Group.Finset

/-! Programs over a shared object, and runs that cannot go on for ever. A program decides which
steps of the object its threads may take, reacts to the events of the object and takes steps of
its own; what holds in every run of the object then holds in every run of the program. A measure
that goes down at every step bounds the number of steps by what the environment adds to it. -/
namespace Foundations

variable {σ α ε π β : Type*}

/-- The threads of a program, as far as the object they share is concerned. -/
structure Client (α ε π β : Type*) where
  init : π
  allows : π → α → Bool
  react : π → ε → π
  tick : π → β → Option π

namespace System

/-- The object used by a program; the events are those of the object. -/
def drive (S : System σ α ε) (C : Client α ε π β) : System (σ × π) (α ⊕ β) ε where
  init := (S.init, C.init)
  step s
    | .inl a =>
      if C.allows s.2 a then
        (S.step s.1 a).map fun r => ((r.1, r.2.foldl C.react s.2), r.2)
      else none
    | .inr b => (C.tick s.2 b).map fun p => ((s.1, p), [])

section Drive
variable {S : System σ α ε} {C : Client α ε π β} {s s' : σ × π} {log evs : List ε}

theorem drive_inl {a : α} :
    (S.drive C).step s (.inl a) = some (s', evs) ↔
      C.allows s.2 a = true ∧ S.step s.1 a = some (s'.1, evs) ∧
        s'.2 = evs.foldl C.react s.2 := by
  obtain ⟨q', g'⟩ := s'
  by_cases ha : C.allows s.2 a = true
  · simp only [drive, ha, if_true, true_and]
    constructor
    · intro h
      obtain ⟨⟨q, out⟩, hstep, hr⟩ := Option.map_eq_some_iff.mp h
      obtain ⟨hq, rfl⟩ := Prod.mk.inj hr
      obtain ⟨rfl, rfl⟩ := Prod.mk.inj hq
      exact ⟨hstep, rfl⟩
    · rintro ⟨hstep, rfl⟩
      rw [hstep]
      rfl
  · simp [drive, ha]

theorem drive_inr {b : β} :
    (S.drive C).step s (.inr b) = some (s', evs) ↔
      C.tick s.2 b = some s'.2 ∧ s'.1 = s.1 ∧ evs = [] := by
  obtain ⟨q', g'⟩ := s'
  simp only [drive, Option.map_eq_some_iff, Prod.mk.injEq]
  constructor
  · rintro ⟨g, htick, ⟨rfl, rfl⟩, rfl⟩
    exact ⟨htick, rfl, rfl⟩
  · rintro ⟨htick, rfl, rfl⟩
    exact ⟨g', htick, ⟨rfl, rfl⟩, rfl⟩

/-- A run of the program is a run of the object. -/
theorem RunWhere.object {P : σ × π → α ⊕ β → Prop} {Q : σ → α → Prop}
    (h : (S.drive C).RunWhere P s log)
    (hQ : ∀ (s : σ × π) a, C.allows s.2 a = true → Q s.1 a) : S.RunWhere Q s.1 log := by
  refine h.invariant (I := fun s log => S.RunWhere Q s.1 log) .init
    fun s log a s' evs _ ih _ hs => ?_
  cases a with
  | inl a =>
    obtain ⟨hallows, hstep, -⟩ := drive_inl.mp hs
    exact ih.step (hQ s a hallows) hstep
  | inr b =>
    obtain ⟨-, hsame, rfl⟩ := drive_inr.mp hs
    rw [hsame, List.append_nil]
    exact ih

end Drive

/-- The runs from `s₀`, with the labels of their steps. -/
inductive LabelledFrom (S : System σ α ε) (s₀ : σ) : List α → σ → List ε → Prop
  | refl : LabelledFrom S s₀ [] s₀ []
  | step {as : List α} {s : σ} {log : List ε} {a : α} {s' : σ} {evs : List ε} :
      LabelledFrom S s₀ as s log → S.step s a = some (s', evs) →
      LabelledFrom S s₀ (as ++ [a]) s' (log ++ evs)

abbrev Labelled (S : System σ α ε) : List α → σ → List ε → Prop := S.LabelledFrom S.init

variable {S : System σ α ε} {s₀ s s' : σ} {as bs : List α} {log evs : List ε}

theorem RunWhere.continue (h : S.Run s log) (hrest : S.LabelledFrom s as s' evs) :
    S.Run s' (log ++ evs) := by
  induction hrest with
  | refl => simpa using h
  | step _ hs ih =>
    rw [← List.append_assoc]
    exact ih.step trivial hs

theorem LabelledFrom.run (h : S.Labelled as s log) : S.Run s log := RunWhere.init.continue h

theorem LabelledFrom.exec {P : σ → α → Prop} [∀ s a, Decidable (P s a)]
    (h : S.LabelledFrom s₀ as s log) (he : S.exec P s bs = some (s', evs)) :
    S.LabelledFrom s₀ (as ++ bs) s' (log ++ evs) := by
  induction bs generalizing s as log evs with
  | nil =>
    obtain ⟨rfl, rfl⟩ := Prod.mk.inj (Option.some.inj he)
    simpa using h
  | cons b bs ih =>
    unfold System.exec at he
    split at he
    · obtain ⟨⟨s₁, evs₁⟩, hs, he⟩ := Option.bind_eq_some_iff.mp he
      obtain ⟨⟨s₂, evs₂⟩, hrest, hq⟩ := Option.map_eq_some_iff.mp he
      obtain ⟨rfl, rfl⟩ := Prod.mk.inj hq
      rw [List.append_cons, ← List.append_assoc]
      exact ih (h.step hs) hrest
    · cases he

/-- A continuation given by its labels, with what can be computed of the state and the events it
ends in. -/
theorem exists_labelled_of_exec (S : System σ α ε) (s₀ : σ) (as : List α)
    (q : σ → List ε → Bool)
    (h : (S.exec (fun _ _ => True) s₀ as).any (fun r => q r.1 r.2) = true) :
    ∃ s log, S.LabelledFrom s₀ as s log ∧ q s log = true := by
  obtain ⟨⟨s, log⟩, hexec, hq⟩ := (Option.any_eq_true _ _).mp h
  exact ⟨s, log, LabelledFrom.refl.exec hexec, hq⟩

/-- The runs whose steps meet a condition, as a system of their own. -/
def restrict (S : System σ α ε) (P : σ → α → Prop) [∀ s a, Decidable (P s a)] : System σ α ε where
  init := S.init
  step s a := if P s a then S.step s a else none

theorem restrict_step {P : σ → α → Prop} [∀ s a, Decidable (P s a)] {a : α} :
    (S.restrict P).step s a = some (s', evs) ↔ P s a ∧ S.step s a = some (s', evs) := by
  by_cases hp : P s a <;> simp [restrict, hp]

theorem RunWhere.of_restrict {P : σ → α → Prop} [∀ s a, Decidable (P s a)]
    (h : (S.restrict P).Run s log) : S.RunWhere P s log := by
  induction h with
  | init => exact .init
  | step _ _ hs ih =>
    obtain ⟨hp, hs⟩ := restrict_step.mp hs
    exact ih.step hp hs

/-- If every step pays for itself out of the measure and of what its label adds, the labels pay
for a whole continuation of a run. -/
theorem LabelledFrom.length_le_from (μ : σ → List ε → ℕ) (cost : α → ℕ) {past : List ε}
    (hstep : ∀ s log a s' evs, S.Run s log → S.step s a = some (s', evs) →
      μ s' (log ++ evs) + 1 ≤ μ s log + cost a) (hpast : S.Run s₀ past)
    (h : S.LabelledFrom s₀ as s log) :
    as.length + μ s (past ++ log) ≤ μ s₀ past + (as.map cost).sum := by
  induction h with
  | refl => simp
  | @step as s log a s' evs hrun hs ih =>
    have hpaid := hstep s (past ++ log) a s' evs (hpast.continue hrun) hs
    simp only [List.length_append, List.length_singleton, List.map_append, List.map_singleton,
      List.sum_append, List.sum_singleton, ← List.append_assoc]
    omega

theorem LabelledFrom.length_le (μ : σ → List ε → ℕ) (cost : α → ℕ)
    (hstep : ∀ s log a s' evs, S.Run s log → S.step s a = some (s', evs) →
      μ s' (log ++ evs) + 1 ≤ μ s log + cost a) (h : S.Labelled as s log) :
    as.length + μ s log ≤ μ S.init [] + (as.map cost).sum :=
  h.length_le_from μ cost hstep .init

end System

/-- A thread that has executed a statement has executed those before it. -/
theorem subset_of_mem_append {ι : Type*} {past rest before after : List ι} {x : ι}
    (h : past ++ rest = before ++ x :: after) (hbefore : x ∉ before) (hx : x ∈ past) :
    before ⊆ past := by
  rcases List.append_eq_append_iff.mp h with ⟨more, hmore, -⟩ | ⟨more, hmore, -⟩
  · exact absurd (hmore ▸ List.mem_append_left _ hx) hbefore
  · exact hmore ▸ List.subset_append_left _ _

/-- A thread that stands at a statement has executed those before it. -/
theorem subset_of_append_cons {ι : Type*} {past rest before after : List ι} {x : ι}
    (h : past ++ x :: rest = before ++ after) (hbefore : x ∉ before) : before ⊆ past := by
  rcases List.append_eq_append_iff.mp h with ⟨more, rfl, hmore⟩ | ⟨more, rfl, -⟩
  · cases more with
    | nil => simp
    | cons y more =>
      obtain rfl := (List.cons.inj hmore).1
      exact absurd (by simp) hbefore
  · exact List.subset_append_left _ _

/-- What is paid for each label of one kind. -/
theorem sum_map_ite (as : List α) (p : α → Bool) (c : ℕ) :
    (as.map fun a => if p a then c else 0).sum = c * as.countP p := by
  induction as with
  | nil => rfl
  | cons a as ih =>
    rw [List.map_cons, List.sum_cons, ih, List.countP_cons]
    split
    · rw [Nat.mul_succ, Nat.add_comm]
    · rw [Nat.zero_add, Nat.add_zero]

/-- A sum over the threads, when one of them changes its share and the others do not add more
than `c` each. -/
theorem sum_le_of_others {ι : Type*} [Fintype ι] [DecidableEq ι] {f k : ι → ℕ} (i : ι) (c : ℕ)
    (hother : ∀ j, j ≠ i → k j ≤ f j + c) :
    ∑ j, k j + f i ≤ ∑ j, f j + k i + (Fintype.card ι - 1) * c := by
  have hrest : ∑ j ∈ Finset.univ.erase i, k j ≤ ∑ j ∈ Finset.univ.erase i, (f j + c) :=
    Finset.sum_le_sum fun j hj => hother j (Finset.ne_of_mem_erase hj)
  rw [Finset.sum_add_distrib, Finset.sum_const_nat (m := c) fun _ _ => rfl,
    Finset.card_erase_of_mem (Finset.mem_univ i), Finset.card_univ] at hrest
  rw [← Finset.add_sum_erase _ f (Finset.mem_univ i),
    ← Finset.add_sum_erase _ k (Finset.mem_univ i)]
  omega

/-- A sum over the threads, when one of them changes its share. -/
theorem exists_sum_split {ι M : Type*} [DecidableEq ι] [AddCommMonoid M] {s : Finset ι}
    {f k : ι → M} {i : ι} (hi : i ∈ s) (hother : ∀ j ∈ s, j ≠ i → k j = f j) :
    ∃ m, ∑ j ∈ s, f j = f i + m ∧ ∑ j ∈ s, k j = k i + m := by
  refine ⟨∑ j ∈ s.erase i, f j, (Finset.add_sum_erase s f hi).symm, ?_⟩
  rw [← Finset.add_sum_erase s k hi]
  congr 1
  exact Finset.sum_congr rfl fun j hj =>
    hother j (Finset.mem_of_mem_erase hj) (Finset.ne_of_mem_erase hj)

/-- One thread adds to its share. -/
theorem sum_update_add {ι M : Type*} [DecidableEq ι] [AddCommMonoid M] {s : Finset ι}
    {f : ι → M} {i : ι} (hi : i ∈ s) (x : M) :
    ∑ j ∈ s, Function.update f i (f i + x) j = ∑ j ∈ s, f j + x := by
  obtain ⟨m, hm, hm'⟩ := exists_sum_split hi (f := f) (k := Function.update f i (f i + x))
    fun j _ hj => Function.update_of_ne hj ..
  rw [hm, hm', Function.update_self, add_right_comm]

end Foundations
