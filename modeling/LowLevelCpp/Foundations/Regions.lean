import Mathlib.Data.List.Pairwise
import Mathlib.Data.Nat.Notation

/-! Regions of memory: which bytes they cover, and when two of them do not overlap. -/
namespace Foundations

structure Region where
  start : ℕ
  length : ℕ
  deriving DecidableEq

namespace Region

/-- The address behind the last byte. -/
def stop (b : Region) : ℕ := b.start + b.length

/-- `b` lies inside `c`. -/
def Inside (b c : Region) : Prop := c.start ≤ b.start ∧ b.stop ≤ c.stop

/-- No byte belongs to both. -/
def Apart (b c : Region) : Prop := b.stop ≤ c.start ∨ c.stop ≤ b.start

instance (b c : Region) : Decidable (b.Inside c) := inferInstanceAs (Decidable (_ ∧ _))

instance (b c : Region) : Decidable (b.Apart c) := inferInstanceAs (Decidable (_ ∨ _))

variable {b c d : Region} {bs : List Region}

theorem Inside.trans (hbc : b.Inside c) (hcd : c.Inside d) : b.Inside d :=
  ⟨Nat.le_trans hcd.1 hbc.1, Nat.le_trans hbc.2 hcd.2⟩

/-- What lies inside one of two regions stays apart from the other. -/
theorem Apart.of_inside (h : c.Apart d) (hb : b.Inside c) : b.Apart d :=
  h.imp (Nat.le_trans hb.2) fun hd => Nat.le_trans hd hb.1

/-- A region behind all the others. -/
theorem pairwise_apart_concat (h : bs.Pairwise Apart) (hc : ∀ b ∈ bs, b.stop ≤ c.start) :
    (bs ++ [c]).Pairwise Apart := by
  refine List.pairwise_append.mpr ⟨h, List.pairwise_singleton _ _, fun b hb d hd => ?_⟩
  rw [List.mem_singleton.mp hd]
  exact .inl (hc b hb)

end Region
end Foundations
