import Mathlib.Data.Set.Insert
import Mathlib.Logic.Relation

/-! Tracing a graph past a set of vertices that are already marked. The marked set after
tracing from `S` is `M` and whatever a path outside `M` reaches from `S`; sources can be
traced one after the other, and a vertex can be traced by its successors. -/
namespace Foundations

variable {α : Type*} {E : α → α → Prop} {M S T : Set α} {a b : α}

/-- A vertex reached from `S` by a path of which no vertex, the ends included, is in `M`. -/
inductive White (E : α → α → Prop) (M S : Set α) : α → Prop
  | source {a : α} : a ∈ S → a ∉ M → White E M S a
  | step {a b : α} : White E M S a → E a b → b ∉ M → White E M S b

/-- The marked set after tracing from `S` with `M` marked before. -/
def traced (E : α → α → Prop) (M S : Set α) : Set α := M ∪ {b | White E M S b}

theorem mem_traced : b ∈ traced E M S ↔ b ∈ M ∨ White E M S b := Iff.rfl

theorem subset_traced : M ⊆ traced E M S := fun _ h => .inl h

theorem White.notMem (h : White E M S b) : b ∉ M := by
  cases h with
  | source _ h => exact h
  | step _ _ h => exact h

theorem White.mono_sources (h : White E M S b) (hST : S ⊆ T) : White E M T b := by
  induction h with
  | source ha hm => exact .source (hST ha) hm
  | step _ he hm ih => exact .step ih he hm

theorem White.anti_marks {M' : Set α} (h : White E M' S b) (hM : M ⊆ M') : White E M S b := by
  induction h with
  | source ha hm => exact .source ha fun h => hm (hM h)
  | step _ he hm ih => exact .step ih he fun h => hm (hM h)

theorem traced_of_subset (hS : S ⊆ M) : traced E M S = M := by
  refine Set.Subset.antisymm (fun b hb => ?_) subset_traced
  rcases hb with hb | hb
  · exact hb
  · induction hb with
    | source ha hm => exact absurd (hS ha) hm
    | step hw _ _ ih => exact absurd ih hw.notMem

/-- Sources can be traced in two rounds: a path that the first round blocks was followed
to its end by the first round. -/
theorem traced_union : traced E M (S ∪ T) = traced E (traced E M S) T := by
  refine Set.Subset.antisymm (fun b hb => ?_) (fun b hb => ?_)
  · rcases hb with hb | hb
    · exact .inl (.inl hb)
    · induction hb with
      | @source x hx hm =>
        by_cases hf : White E M S x
        · exact .inl (.inr hf)
        rcases hx with hx | hx
        · exact absurd (.source hx hm) hf
        · exact .inr (.source hx fun h => h.elim hm hf)
      | @step x y hw he hm ih =>
        by_cases hf : White E M S y
        · exact .inl (.inr hf)
        rcases ih with (ih | ih) | ih
        · exact absurd ih hw.notMem
        · exact absurd (White.step ih he hm) hf
        · exact .inr (White.step ih he fun h => h.elim hm hf)
  · rcases hb with (hb | hb) | hb
    · exact .inl hb
    · exact .inr (hb.mono_sources Set.subset_union_left)
    · exact .inr ((hb.anti_marks subset_traced).mono_sources Set.subset_union_right)

/-- An unmarked vertex is traced by marking it and then tracing its successors. -/
theorem traced_singleton (ha : a ∉ M) :
    traced E M {a} = traced E (insert a M) {b | E a b} := by
  refine Set.Subset.antisymm (fun b hb => ?_) (fun b hb => ?_)
  · rcases hb with hb | hb
    · exact .inl (.inr hb)
    · induction hb with
      | source hs _ => exact .inl (.inl hs)
      | @step x y hw he hm ih =>
        by_cases hy : y = a
        · exact .inl (.inl hy)
        have hy' : y ∉ insert a M := fun h => h.elim hy hm
        rcases ih with (rfl | ih) | ih
        · exact .inr (.source he hy')
        · exact absurd ih hw.notMem
        · exact .inr (White.step ih he hy')
  · have hself : White E M {a} a := .source rfl ha
    rcases hb with (rfl | hb) | hb
    · exact .inr hself
    · exact .inl hb
    · refine .inr ?_
      induction hb with
      | source hs hm => exact White.step hself hs fun h => hm (.inr h)
      | step _ he hm ih => exact White.step ih he fun h => hm (.inr h)

/-- With nothing marked, tracing is reachability. -/
theorem white_empty_iff : White E ∅ S b ↔ ∃ a ∈ S, Relation.ReflTransGen E a b := by
  constructor
  · intro h
    induction h with
    | @source x ha _ => exact ⟨x, ha, .refl⟩
    | step _ he _ ih =>
      obtain ⟨a, ha, hr⟩ := ih
      exact ⟨a, ha, hr.tail he⟩
  · rintro ⟨a, ha, hr⟩
    induction hr with
    | refl => exact .source ha (Set.notMem_empty _)
    | tail _ he ih => exact .step ih he (Set.notMem_empty _)

end Foundations
