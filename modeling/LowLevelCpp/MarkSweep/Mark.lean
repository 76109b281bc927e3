import LowLevelCpp.Foundations.Trace
import LowLevelCpp.MarkSweep.Model

/-! The mark phase: the recursion of `mark` terminates and marks what tracing past the
objects already marked reaches, and nothing else in the heap changes. -/
namespace MarkSweep
open Foundations

variable {Addr : Type}

/-- The marked objects. -/
def Heap.black (h : Heap Addr) : Set Addr := {a | (h.obj a).marked = true}

def Heap.Edge (h : Heap Addr) (a b : Addr) : Prop := some b ∈ (h.obj a).references

/-- The heaps differ in mark flags at most. -/
structure SameGraph (h h' : Heap Addr) : Prop where
  live : h'.live = h.live
  references : ∀ a, (h'.obj a).references = (h.obj a).references

/-- `T` holds live objects only, and their references are non-null and stay in `T`. -/
def Closed (h : Heap Addr) (T : Set Addr) : Prop :=
  ∀ a ∈ T, a ∈ h.live ∧ ∀ r ∈ (h.obj a).references, ∃ b ∈ T, r = some b

def Line.marking? : Line Addr → Option Addr
  | .marking a => some a
  | _ => none

/-- The objects expanded, in the order of their `Marking:` lines. -/
def markings (out : List (Line Addr)) : List Addr := out.filterMap Line.marking?

def Line.destroying? : Line Addr → Option Addr
  | .destroying a => some a
  | _ => none

/-- The objects deleted, in order. -/
def destroyed (out : List (Line Addr)) : List Addr := out.filterMap Line.destroying?

/-- From `h`, tracing the sources `S` gives `h'` and prints `out`: each object that
becomes marked is expanded once, and none is deleted. -/
structure Traces (h h' : Heap Addr) (S : Set Addr) (out : List (Line Addr)) : Prop where
  graph : SameGraph h h'
  black : h'.black = traced h.Edge h.black S
  once : (markings out).Nodup
  expanded : ∀ a, a ∈ markings out ↔ a ∈ h'.black ∧ a ∉ h.black
  spared : destroyed out = []

section Basic
variable {h h₁ h₂ : Heap Addr} {S T : Set Addr} {out out₁ out₂ : List (Line Addr)}

@[simp] theorem markings_append (out₁ out₂ : List (Line Addr)) :
    markings (out₁ ++ out₂) = markings out₁ ++ markings out₂ := List.filterMap_append

@[simp] theorem destroyed_append (out₁ out₂ : List (Line Addr)) :
    destroyed (out₁ ++ out₂) = destroyed out₁ ++ destroyed out₂ := List.filterMap_append

theorem destroyed_cons {line : Line Addr} (hl : line.destroying? = none)
    (out : List (Line Addr)) : destroyed (line :: out) = destroyed out := by
  simp [destroyed, hl]

theorem SameGraph.edge (hg : SameGraph h h₁) : h₁.Edge = h.Edge := by
  funext a b
  rw [Heap.Edge, hg.references, Heap.Edge]

theorem SameGraph.trans (hg : SameGraph h h₁) (hg' : SameGraph h₁ h₂) : SameGraph h h₂ :=
  ⟨hg'.live.trans hg.live, fun a => (hg'.references a).trans (hg.references a)⟩

theorem Closed.of_sameGraph (hc : Closed h T) (hg : SameGraph h h₁) : Closed h₁ T := by
  intro a ha
  rw [hg.live, hg.references]
  exact hc a ha

theorem Traces.refl (hS : S ⊆ h.black) : Traces h h S [] where
  graph := ⟨rfl, fun _ => rfl⟩
  black := (traced_of_subset hS).symm
  once := List.nodup_nil
  expanded := by simp [markings]
  spared := rfl

theorem Traces.subset (ht : Traces h h₁ S out) : h.black ⊆ h₁.black :=
  ht.black ▸ subset_traced

/-- Sources traced one after the other. -/
theorem Traces.append (h₁t : Traces h h₁ S out₁) (h₂t : Traces h₁ h₂ T out₂) :
    Traces h h₂ (S ∪ T) (out₁ ++ out₂) where
  graph := h₁t.graph.trans h₂t.graph
  black := by rw [h₂t.black, h₁t.graph.edge, h₁t.black, traced_union]
  once := by
    rw [markings_append, List.nodup_append]
    refine ⟨h₁t.once, h₂t.once, fun a ha b hb hab => ?_⟩
    subst hab
    exact ((h₂t.expanded a).mp hb).2 ((h₁t.expanded a).mp ha).1
  expanded a := by
    have h₁₂ : a ∈ h₁.black → a ∈ h₂.black := fun ha => h₂t.subset ha
    have h₀₁ : a ∈ h.black → a ∈ h₁.black := fun ha => h₁t.subset ha
    rw [markings_append, List.mem_append, h₁t.expanded, h₂t.expanded]
    tauto
  spared := by rw [destroyed_append, h₁t.spared, h₂t.spared, List.append_nil]

/-- A line that expands and deletes nothing may be printed first. -/
theorem Traces.print (ht : Traces h h₁ S out) {line : Line Addr} (hl : line.marking? = none)
    (hd : line.destroying? = none) : Traces h h₁ S (line :: out) where
  graph := ht.graph
  black := ht.black
  once := by simpa [markings, hl] using ht.once
  expanded := by simpa [markings, hl] using ht.expanded
  spared := (destroyed_cons hd out).trans ht.spared

end Basic

/-- The unmarked live objects, which bound the depth of the recursion. -/
def Heap.white (h : Heap Addr) : Finset Addr := h.live.filter fun a => (h.obj a).marked = false

@[simp] theorem mem_black {h : Heap Addr} {a : Addr} :
    a ∈ h.black ↔ (h.obj a).marked = true := Iff.rfl

@[simp] theorem mem_white {h : Heap Addr} {a : Addr} :
    a ∈ h.white ↔ a ∈ h.live ∧ (h.obj a).marked = false := Finset.mem_filter

theorem Traces.white_card_le {h h' : Heap Addr} {S : Set Addr} {out : List (Line Addr)}
    (ht : Traces h h' S out) : h'.white.card ≤ h.white.card := by
  refine Finset.card_le_card fun a ha => ?_
  rw [mem_white] at ha ⊢
  refine ⟨ht.graph.live ▸ ha.1, ?_⟩
  by_contra hm
  have hblack : a ∈ h'.black := ht.subset (by simpa using hm)
  simp [ha.2] at hblack

variable [DecidableEq Addr]

section Mark
variable {h h' : Heap Addr} {T : Set Addr} {a : Addr} {out : List (Line Addr)}

theorem deref_of_live (ha : a ∈ h.live) : h.deref (some a) = .ok a := by simp [Heap.deref, ha]

@[simp] theorem setMarked_live (h : Heap Addr) (a : Addr) (m : Bool) :
    (h.setMarked a m).live = h.live := rfl

theorem setMarked_obj (h : Heap Addr) (a b : Addr) (m : Bool) :
    (h.setMarked a m).obj b = if b = a then { h.obj a with marked := m } else h.obj b := by
  simp [Heap.setMarked, Function.update_apply]

theorem setMarked_sameGraph (h : Heap Addr) (a : Addr) (m : Bool) :
    SameGraph h (h.setMarked a m) := by
  refine ⟨rfl, fun b => ?_⟩
  rw [setMarked_obj]
  split
  · rename_i hb
    rw [hb]
  · rfl

theorem setMarked_black (h : Heap Addr) (a : Addr) :
    (h.setMarked a true).black = insert a h.black := by
  ext b
  by_cases hb : b = a <;> simp [setMarked_obj, hb]

theorem setMarked_white_card (ha : a ∈ h.live) (hm : (h.obj a).marked = false) :
    (h.setMarked a true).white.card < h.white.card := by
  refine Finset.card_lt_card (Finset.ssubset_iff_of_subset (fun b hb => ?_) |>.mpr
    ⟨a, by simp [ha, hm], by simp [setMarked_obj]⟩)
  by_cases he : b = a
  · simp [setMarked_obj, he] at hb
  · simpa [setMarked_obj, he] using hb

/-- The loop over the references, given what `visit` does to one object of `T`. -/
theorem traceReferences_spec {visit : Heap Addr → Option Addr → Checked Addr (Printing Addr _)}
    {n : ℕ} (hvisit : ∀ (h : Heap Addr), ∀ b ∈ T, Closed h T → h.white.card < n →
      ∃ h' out, visit h (some b) = .ok (h', out) ∧ Traces h h' {b} out)
    (refs : List (Option Addr)) (hrefs : ∀ r ∈ refs, ∃ b ∈ T, r = some b)
    (hc : Closed h T) (hn : h.white.card < n) :
    ∃ h' out, traceReferences visit a h refs = .ok (h', out) ∧
      Traces h h' {b | some b ∈ refs} out := by
  induction refs generalizing h with
  | nil => exact ⟨h, [], rfl, .refl (by simp)⟩
  | cons r refs ih =>
    obtain ⟨b, hb, rfl⟩ := hrefs _ List.mem_cons_self
    obtain ⟨h₁, out₁, hv, ht₁⟩ := hvisit h b hb hc hn
    obtain ⟨h₂, out₂, hl, ht₂⟩ := ih (fun r hr => hrefs r (List.mem_cons_of_mem _ hr))
      (hc.of_sameGraph ht₁.graph) (lt_of_le_of_lt ht₁.white_card_le hn)
    refine ⟨h₂, .reference a b :: out₁ ++ out₂, ?_, ?_⟩
    · simp [traceReferences, deref_of_live (hc b hb).1, hv, hl, bind, Except.bind, pure,
        Except.pure]
    · have hset : {c | some c ∈ some b :: refs} = {b} ∪ {c | some c ∈ refs} := by
        ext c
        simp
      rw [hset, List.cons_append]
      exact (ht₁.append ht₂).print rfl rfl

/-- The white-path theorem for `mark`: any depth above the number of unmarked objects is
enough, and the objects marked are those that unmarked paths from the argument reach. -/
theorem mark_spec {depth : ℕ} (ha : a ∈ T) (hc : Closed h T) (hd : h.white.card < depth) :
    ∃ h' out, mark depth h (some a) = .ok (h', out) ∧ Traces h h' {a} out := by
  induction depth generalizing h a with
  | zero => omega
  | succ depth ih =>
    obtain ⟨hlive, hrefs⟩ := hc a ha
    by_cases hm : (h.obj a).marked = true
    · refine ⟨h, [.alreadyMarked a], ?_, (Traces.refl (by simpa using hm)).print rfl rfl⟩
      simp [mark, deref_of_live hlive, hm, bind, Except.bind, pure, Except.pure]
    · have hm' : (h.obj a).marked = false := by simpa using hm
      have hg := setMarked_sameGraph h a true
      have hcard := setMarked_white_card hlive hm'
      have hvisit (h : Heap Addr) (b : Addr) (hb : b ∈ T) (hc : Closed h T)
          (hn : h.white.card < depth) :
          ∃ h' out, mark depth h (some b) = .ok (h', out) ∧ Traces h h' {b} out := ih hb hc hn
      obtain ⟨h', out, hl, ht⟩ := traceReferences_spec (h := h.setMarked a true) (a := a) hvisit
        (h.obj a).references hrefs (hc.of_sameGraph hg) (by omega)
      refine ⟨h', .marking a :: out, ?_, ?_⟩
      · simp [mark, deref_of_live hlive, hm', hl, bind, Except.bind, pure, Except.pure]
      have hexp (b : Addr) : b ∈ markings out ↔ b ∈ h'.black ∧ b ≠ a ∧ b ∉ h.black := by
        rw [ht.expanded, setMarked_black]
        simp
      have hblack : h'.black = traced h.Edge h.black {a} := by
        rw [traced_singleton (by simpa using hm'), ht.black, hg.edge,
          setMarked_black]
        rfl
      have hself : a ∈ h'.black := ht.subset (by simp [setMarked_black])
      constructor
      · exact hg.trans ht.graph
      · exact hblack
      · refine List.nodup_cons.mpr ⟨fun hmem => ?_, ht.once⟩
        exact ((hexp a).mp hmem).2.1 rfl
      · intro b
        have hwhite : a ∉ h.black := by simpa using hm'
        change b ∈ a :: markings out ↔ _
        rw [List.mem_cons, hexp]
        by_cases hb : b = a
        · subst hb
          simp [hself, hwhite]
        · simp [hb]
      · exact (destroyed_cons rfl out).trans ht.spared

end Mark
end MarkSweep
