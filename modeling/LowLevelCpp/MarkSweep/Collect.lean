import LowLevelCpp.MarkSweep.Mark
import Mathlib.Data.Finset.Basic

/-! One collection: what marking, sweeping and printing do to the heap and the tracked
set, from any flags that the objects may carry when it starts. -/
namespace MarkSweep
open Foundations

variable {Addr : Type}

def State.sources (s : State Addr) : Set Addr := {a | some a ∈ s.roots}

/-- Reachable from the roots through `references`. -/
def State.Reachable (s : State Addr) (a : Addr) : Prop :=
  ∃ b ∈ s.sources, Relation.ReflTransGen s.heap.Edge b a

/-- What the mark phase leaves marked. -/
def State.markedAfter (s : State Addr) : Set Addr := traced s.heap.Edge s.heap.black s.sources

/-- Roots, and references of objects that are tracked or reachable, are non-null and
point to live objects. -/
structure State.PointersLive (s : State Addr) : Prop where
  roots : ∀ r ∈ s.roots, ∃ b ∈ s.heap.live, r = some b
  references : ∀ a, a ∈ s.objects ∨ s.Reachable a →
    ∀ r ∈ (s.heap.obj a).references, ∃ b ∈ s.heap.live, r = some b

theorem State.PointersLive.closed {s : State Addr} (hp : s.PointersLive) :
    Closed s.heap {a | s.Reachable a} := by
  have hnext {a b : Addr} (ha : s.Reachable a) (he : s.heap.Edge a b) : s.Reachable b := by
    obtain ⟨r, hr, hpath⟩ := ha
    exact ⟨r, hr, hpath.tail he⟩
  rintro a ⟨r, hr, hpath⟩
  have ha : s.Reachable a := ⟨r, hr, hpath⟩
  refine ⟨?_, fun p hpm => ?_⟩
  · rcases Relation.ReflTransGen.cases_tail hpath with rfl | ⟨c, hc, he⟩
    · obtain ⟨b, hb, hab⟩ := hp.roots _ hr
      exact Option.some.inj hab ▸ hb
    · obtain ⟨b, hb, hab⟩ := hp.references c (.inr ⟨r, hr, hc⟩) _ he
      exact Option.some.inj hab ▸ hb
  · obtain ⟨b, -, rfl⟩ := hp.references a (.inr ha) p hpm
    exact ⟨b, hnext ha hpm, rfl⟩

variable [DecidableEq Addr]

section Phases
variable {h : Heap Addr} {T : Set Addr}

theorem markAll_spec {depth : ℕ} (roots : List (Option Addr))
    (hroots : ∀ b, some b ∈ roots → b ∈ T) (hc : Closed h T) (hd : h.white.card < depth) :
    ∃ h' out, markAll depth h roots = .ok (h', out) ∧ Traces h h' {b | some b ∈ roots} out := by
  induction roots generalizing h with
  | nil => exact ⟨h, [], rfl, .refl (by simp)⟩
  | cons r roots ih =>
    have hrest : ∀ b, some b ∈ roots → b ∈ T := fun b hb => hroots b (List.mem_cons_of_mem _ hb)
    cases r with
    | none =>
      obtain ⟨h₁, out₁, hl, ht⟩ := ih hrest hc hd
      refine ⟨h₁, out₁, ?_, ?_⟩
      · simp [markAll, mark, hl, bind, Except.bind, pure, Except.pure]
      · have hset : {c | some c ∈ none :: roots} = {c | some c ∈ roots} := by
          ext c
          simp
        rwa [hset]
    | some b =>
      obtain ⟨h₁, out₁, hm, ht₁⟩ := mark_spec (hroots b List.mem_cons_self) hc hd
      obtain ⟨h₂, out₂, hl, ht₂⟩ := ih hrest (hc.of_sameGraph ht₁.graph)
        (lt_of_le_of_lt ht₁.white_card_le hd)
      refine ⟨h₂, out₁ ++ out₂, ?_, ?_⟩
      · simp [markAll, hm, hl, bind, Except.bind, pure, Except.pure]
      · have hset : {c | some c ∈ some b :: roots} = {b} ∪ {c | some c ∈ roots} := by
          ext c
          simp
        rw [hset]
        exact ht₁.append ht₂

@[simp] theorem delete_obj (h : Heap Addr) (a : Addr) : (h.delete a).obj = h.obj := rfl

/-- The sweep deletes the unmarked tracked objects and clears the flags of the others. -/
structure Sweeps (h h' : Heap Addr) (order : List Addr) (out : List (Line Addr)) : Prop where
  live : ∀ b, b ∈ h'.live ↔ b ∈ h.live ∧ b ∉ destroyed out
  obj : ∀ b, h'.obj b = if b ∈ order then { h.obj b with marked := false } else h.obj b
  deleted : destroyed out = order.filter fun a => (h.obj a).marked = false

theorem sweep_spec (order : List Addr) (hnodup : order.Nodup) (hlive : ∀ a ∈ order, a ∈ h.live) :
    ∃ h' out, sweep h order = .ok ((h', order.filter fun a => (h.obj a).marked), out) ∧
      Sweeps h h' order out := by
  induction order generalizing h with
  | nil => exact ⟨h, [], rfl, by simp [destroyed], by simp, rfl⟩
  | cons a rest ih =>
    obtain ⟨hnotin, hrest⟩ := List.nodup_cons.mp hnodup
    have ha : a ∈ h.live := hlive a List.mem_cons_self
    have hne {b : Addr} (hb : b ∈ rest) : b ≠ a := fun he => hnotin (he ▸ hb)
    by_cases hm : (h.obj a).marked = false
    · obtain ⟨h', out, hs, hw⟩ := ih (h := h.delete a) hrest fun b hb =>
        Finset.mem_erase.mpr ⟨hne hb, hlive b (List.mem_cons_of_mem _ hb)⟩
      have hdestroyed : destroyed (.unreachable a :: .destroying a :: out) = a :: destroyed out :=
        rfl
      refine ⟨h', .unreachable a :: .destroying a :: out, ?_, ⟨fun b => ?_, fun b => ?_, ?_⟩⟩
      · simp [sweep, deref_of_live ha, hm, hs, bind, Except.bind, pure, Except.pure]
      · rw [hw.live, hdestroyed, Heap.delete, Finset.mem_erase, List.mem_cons]
        tauto
      · rw [hw.obj]
        by_cases hb : b = a
        · subst hb
          simp [hnotin, ← hm]
        · simp [hb]
      · rw [hdestroyed, hw.deleted, List.filter_cons_of_pos (by simpa using hm)]
        rfl
    · have hm' : (h.obj a).marked = true := by simpa using hm
      obtain ⟨h', out, hs, hw⟩ := ih (h := h.setMarked a false) hrest fun b hb =>
        hlive b (List.mem_cons_of_mem _ hb)
      have hobj {b : Addr} (hb : b ∈ rest) : (h.setMarked a false).obj b = h.obj b := by
        simp [setMarked_obj, hne hb]
      have hkept : rest.filter (fun b => ((h.setMarked a false).obj b).marked) =
          rest.filter fun b => (h.obj b).marked :=
        List.filter_congr fun b hb => by rw [hobj hb]
      refine ⟨h', .keeping a :: out, ?_, ⟨fun b => ?_, fun b => ?_, ?_⟩⟩
      · simp [sweep, deref_of_live ha, hm', hs, hkept, bind, Except.bind, pure, Except.pure]
      · rw [hw.live, destroyed_cons rfl, setMarked_live]
      · rw [hw.obj]
        by_cases hb : b = a
        · subst hb
          simp [hnotin, setMarked_obj]
        · simp [hb, setMarked_obj]
      · rw [destroyed_cons rfl, hw.deleted, List.filter_cons_of_neg (by simpa using hm')]
        exact List.filter_congr fun b hb => by rw [hobj hb]

end Phases

/-- The effect of marking and sweeping on the program state. -/
structure Collects (s s' : State Addr) (out : List (Line Addr)) : Prop where
  roots : s'.roots = s.roots
  objects : ∀ a, a ∈ s'.objects ↔ a ∈ s.objects ∧ a ∈ s.markedAfter
  live : ∀ a, a ∈ s'.heap.live ↔ a ∈ s.heap.live ∧ a ∉ destroyed out
  references : ∀ a, (s'.heap.obj a).references = (s.heap.obj a).references
  black : s'.heap.black = {a | a ∈ s.markedAfter ∧ a ∉ s.objects}
  once : (destroyed out).Nodup
  deleted : ∀ a, a ∈ destroyed out ↔ a ∈ s.objects ∧ a ∉ s.markedAfter

section Collect
variable {s s' : State Addr} {order : List Addr}

theorem markAndSweep_spec (hobjects : s.objects ⊆ s.heap.live) (hp : s.PointersLive)
    (ho : IterationOrder s order) :
    ∃ s' out, markAndSweep order s = .ok (s', out) ∧ Collects s s' out := by
  have hroots : ∀ b, some b ∈ s.roots → s.Reachable b := fun b hb => ⟨b, hb, .refl⟩
  have hdepth : s.heap.white.card < s.heap.live.card + 1 :=
    Nat.lt_succ_of_le (Finset.card_filter_le _ _)
  obtain ⟨h₁, out₁, hm, ht⟩ := markAll_spec s.roots hroots hp.closed hdepth
  have horder (a : Addr) : a ∈ order ↔ a ∈ s.objects := by rw [← ho.2, List.mem_toFinset]
  obtain ⟨h₂, out₂, hs, hw⟩ := sweep_spec (h := h₁) order ho.1 fun a ha => by
    rw [ht.graph.live]
    exact hobjects ((horder a).mp ha)
  have hmarked (a : Addr) : (h₁.obj a).marked = true ↔ a ∈ s.markedAfter := by
    rw [State.markedAfter, State.sources, ← ht.black, mem_black]
  have hdestroyed : destroyed (out₁ ++ out₂) = destroyed out₂ := by simp [ht.spared]
  refine ⟨⟨h₂, (order.filter fun a => (h₁.obj a).marked).toFinset, s.roots⟩, out₁ ++ out₂,
    by simp [markAndSweep, hm, hs, bind, Except.bind, pure, Except.pure],
    rfl, fun a => ?_, fun a => ?_, fun a => ?_, ?_, ?_, fun a => ?_⟩
  · simp [horder, hmarked]
  · rw [hw.live, hdestroyed, ht.graph.live]
  · rw [hw.obj, ← ht.graph.references a]
    split <;> rfl
  · ext a
    rw [mem_black, hw.obj, Set.mem_ofPred_eq, ← hmarked, ← horder]
    split <;> simp_all
  · rw [hdestroyed, hw.deleted]
    exact ho.1.filter _
  · rw [hdestroyed, hw.deleted, List.mem_filter, horder, ← hmarked]
    simp

private theorem mapM_ok {α β ε : Type} {f : α → Except ε β} (l : List α)
    (hf : ∀ x ∈ l, ∃ y, f x = .ok y) : ∃ ys, l.mapM f = .ok ys := by
  induction l with
  | nil => exact ⟨[], rfl⟩
  | cons x l ih =>
    obtain ⟨y, hy⟩ := hf x List.mem_cons_self
    obtain ⟨ys, hys⟩ := ih fun z hz => hf z (List.mem_cons_of_mem _ hz)
    exact ⟨y :: ys, by simp [List.mapM_cons, hy, hys, bind, Except.bind, pure, Except.pure]⟩

private theorem mapM_forall {α β ε : Type} {f : α → Except ε β} {p : β → Prop}
    (hf : ∀ x y, f x = .ok y → p y) {l : List α} {ys : List β} (h : l.mapM f = .ok ys) :
    ∀ y ∈ ys, p y := by
  induction l generalizing ys with
  | nil =>
    obtain rfl : [] = ys := Except.ok.inj h
    simp
  | cons x l ih =>
    rw [List.mapM_cons] at h
    obtain ⟨y, hy, h⟩ := bind_eq_ok.mp h
    obtain ⟨zs, hzs, h⟩ := bind_eq_ok.mp h
    obtain rfl := Except.ok.inj h
    exact List.forall_mem_cons.mpr ⟨hf x y hy, ih hzs⟩

/-- Printing uses every root, every tracked object and each of its references. -/
theorem printGraph_ok (horder : ∀ a ∈ order, a ∈ s.heap.live)
    (hroots : ∀ r ∈ s.roots, ∃ b ∈ s.heap.live, r = some b)
    (hrefs : ∀ a ∈ order, ∀ r ∈ (s.heap.obj a).references, ∃ b ∈ s.heap.live, r = some b) :
    ∃ lines, printGraph order s = .ok lines := by
  have hderef {l : List (Option Addr)} (hl : ∀ r ∈ l, ∃ b ∈ s.heap.live, r = some b) :
      ∃ bs, l.mapM s.heap.deref = .ok bs := mapM_ok l fun r hr => by
    obtain ⟨b, hb, rfl⟩ := hl r hr
    exact ⟨b, deref_of_live hb⟩
  obtain ⟨rs, hrs⟩ := hderef hroots
  obtain ⟨os, hos⟩ := mapM_ok (f := fun it => do
      let obj ← s.heap.deref (some it)
      let refs ← (s.heap.obj obj).references.mapM s.heap.deref
      return Line.object obj (s.heap.obj obj).marked refs) order fun a ha => by
    obtain ⟨bs, hbs⟩ := hderef (hrefs a ha)
    exact ⟨.object a (s.heap.obj a).marked bs,
      by simp [deref_of_live (horder a ha), hbs, bind, Except.bind, pure, Except.pure]⟩
  exact ⟨rs.map .root ++ os, by simp only [printGraph, hrs, hos]; rfl⟩

theorem printGraph_destroyed {lines : List (Line Addr)} (h : printGraph order s = .ok lines) :
    destroyed lines = [] := by
  obtain ⟨rs, -, h⟩ := bind_eq_ok.mp h
  obtain ⟨os, hos, h⟩ := bind_eq_ok.mp h
  obtain rfl := Except.ok.inj h
  rw [destroyed, List.filterMap_eq_nil_iff]
  intro line hline
  rcases List.mem_append.mp hline with hr | ho
  · obtain ⟨r, -, rfl⟩ := List.mem_map.mp hr
    rfl
  · refine mapM_forall (p := fun line : Line Addr => line.destroying? = none) ?_ hos line ho
    intro it line hit
    obtain ⟨obj, -, hit⟩ := bind_eq_ok.mp hit
    obtain ⟨refs, -, hit⟩ := bind_eq_ok.mp hit
    obtain rfl := Except.ok.inj hit
    rfl

omit [DecidableEq Addr] in
/-- The printing around the two phases deletes nothing. -/
theorem Collects.congr {out out' : List (Line Addr)} (h : Collects s s' out)
    (hout : destroyed out' = destroyed out) : Collects s s' out' := by
  obtain ⟨h₁, h₂, h₃, h₄, h₅, h₆, h₇⟩ := h
  exact ⟨h₁, h₂, by rwa [hout], h₄, h₅, by rwa [hout], by rwa [hout]⟩

theorem collect_collects {out : List (Line Addr)} (hobjects : s.objects ⊆ s.heap.live)
    (hp : s.PointersLive) (ho : IterationOrder s order) (h : collect order s = .ok (s', out)) :
    Collects s s' out := by
  obtain ⟨before, hbefore, h⟩ := bind_eq_ok.mp h
  obtain ⟨⟨s₁, phases⟩, hphases, h⟩ := bind_eq_ok.mp h
  obtain ⟨after, hafter, h⟩ := bind_eq_ok.mp h
  obtain ⟨rfl, rfl⟩ := Prod.mk.inj (Except.ok.inj h)
  obtain ⟨s₂, out₂, hspec, hc⟩ := markAndSweep_spec hobjects hp ho
  obtain ⟨rfl, rfl⟩ := Prod.mk.inj (Except.ok.inj (hspec.symm.trans hphases))
  apply hc.congr
  simp [printGraph_destroyed hbefore, printGraph_destroyed hafter]

end Collect
end MarkSweep
