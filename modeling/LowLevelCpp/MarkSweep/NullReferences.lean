import LowLevelCpp.MarkSweep.Runs

/-! Null entries among the roots and the references. `mark` tests its argument for null, but the
names of roots and references are printed without a test, so that every null entry that
`printGraph` comes upon is dereferenced. -/
namespace MarkSweep
open Foundations

variable {Addr : Type}

/-- The tracked objects are live and unmarked, and pointers other than null point to them. -/
structure State.Prepared (s : State Addr) : Prop where
  live : s.objects ⊆ s.heap.live
  unmarked : ∀ a ∈ s.objects, (s.heap.obj a).marked = false
  roots : ∀ b, some b ∈ s.roots → b ∈ s.objects
  references : ∀ a ∈ s.objects, ∀ b, some b ∈ (s.heap.obj a).references → b ∈ s.objects

/-- No root and no reference of a tracked object is null. -/
def State.NoNulls (s : State Addr) : Prop :=
  none ∉ s.roots ∧ ∀ a ∈ s.objects, none ∉ (s.heap.obj a).references

section Prepared
variable {s : State Addr} {a : Addr}

theorem State.Prepared.reachable (hp : s.Prepared) (ha : s.Reachable a) : a ∈ s.objects := by
  obtain ⟨root, hroot, hpath⟩ := ha
  induction hpath with
  | refl => exact hp.roots root hroot
  | tail _ he ih => exact hp.references _ ih _ he

/-- Marks can only be on objects that are not reachable, where they block no path. -/
theorem State.Prepared.markedAfter (hp : s.Prepared) (ha : a ∈ s.objects) :
    a ∈ s.markedAfter ↔ s.Reachable a := by
  have hwhite {b : Addr} (hb : s.Reachable b) : b ∉ s.heap.black := by
    rw [mem_black, hp.unmarked b (hp.reachable hb)]
    decide
  constructor
  · rintro (hblack | hpath)
    · rw [mem_black, hp.unmarked a ha] at hblack
      cases hblack
    · exact white_empty_iff.mp (hpath.anti_marks (Set.empty_subset _))
  · rintro ⟨root, hroot, hpath⟩
    apply Or.inr
    induction hpath with
    | refl => exact White.source hroot (hwhite ⟨root, hroot, .refl⟩)
    | tail hpath he ih =>
      have hreach : s.Reachable _ := ⟨root, hroot, hpath⟩
      exact White.step (ih (hp.reachable hreach)) he (hwhite ⟨root, hroot, hpath.tail he⟩)

theorem State.Prepared.wellTracked (hp : s.Prepared) (hn : s.NoNulls) : s.WellTracked where
  roots r hr := by
    cases r with
    | none => exact absurd hr hn.1
    | some b => exact ⟨b, hp.roots b hr, rfl⟩
  references a ha r hr := by
    cases r with
    | none => exact absurd hr (hn.2 a ha)
    | some b => exact ⟨b, hp.references a ha b hr, rfl⟩

end Prepared

/-- One failure among calls that succeed or fail alike. -/
private theorem mapM_error {α β ε : Type} {f : α → Except ε β} {e : ε} {l : List α}
    (hf : ∀ x ∈ l, (∃ y, f x = .ok y) ∨ f x = .error e) (hfails : ∃ x ∈ l, f x = .error e) :
    l.mapM f = .error e := by
  induction l with
  | nil => simp at hfails
  | cons x l ih =>
    rw [List.mapM_cons]
    rcases hf x List.mem_cons_self with ⟨y, hy⟩ | hx
    · have hrest : ∃ z ∈ l, f z = .error e := by
        obtain ⟨z, hz, hfz⟩ := hfails
        rcases List.mem_cons.mp hz with rfl | hz
        · cases hy.symm.trans hfz
        · exact ⟨z, hz, hfz⟩
      rw [hy, ih (fun z hz => hf z (List.mem_cons_of_mem _ hz)) hrest]
      rfl
    · rw [hx]
      rfl

variable [DecidableEq Addr] {s : State Addr} {order : List Addr}

theorem deref_cases {h : Heap Addr} {r : Option Addr} (hr : ∀ b, r = some b → b ∈ h.live) :
    (∃ a, h.deref r = .ok a) ∨ h.deref r = .error .null := by
  cases r with
  | none => exact .inr rfl
  | some b => exact .inl ⟨b, deref_of_live (hr b rfl)⟩

/-- Reading the names behind pointers to live objects fails at the first null. -/
theorem mapM_deref {h : Heap Addr} {refs : List (Option Addr)}
    (hrefs : ∀ b, some b ∈ refs → b ∈ h.live) :
    (∃ bs, refs.mapM h.deref = .ok bs) ∨ refs.mapM h.deref = .error .null := by
  induction refs with
  | nil => exact .inl ⟨[], rfl⟩
  | cons r refs ih =>
    rw [List.mapM_cons]
    rcases deref_cases (h := h) (r := r) fun b hb => hrefs b (by simp [hb]) with ⟨a, ha⟩ | hnull
    · rcases ih fun b hb => hrefs b (List.mem_cons_of_mem _ hb) with ⟨bs, hbs⟩ | hnull
      · exact .inl ⟨a :: bs, by rw [ha, hbs]; rfl⟩
      · exact .inr (by rw [ha, hnull]; rfl)
    · exact .inr (by rw [hnull]; rfl)

theorem mapM_deref_null {h : Heap Addr} {refs : List (Option Addr)}
    (hrefs : ∀ b, some b ∈ refs → b ∈ h.live) (hnull : none ∈ refs) :
    refs.mapM h.deref = .error .null :=
  mapM_error (fun _ hr => deref_cases fun b hb => hrefs b (hb ▸ hr)) ⟨none, hnull, rfl⟩

/-- `printGraph` dereferences every root and every reference of a tracked object. -/
theorem printGraph_null (hp : s.Prepared) (ho : IterationOrder s order) (hnull : ¬ s.NoNulls) :
    printGraph order s = .error .null := by
  have horder (a : Addr) : a ∈ order ↔ a ∈ s.objects := by rw [← ho.2, List.mem_toFinset]
  have hroots : ∀ b, some b ∈ s.roots → b ∈ s.heap.live := fun b hb => hp.live (hp.roots b hb)
  have hrefs : ∀ a ∈ s.objects, ∀ b, some b ∈ (s.heap.obj a).references → b ∈ s.heap.live :=
    fun a ha b hb => hp.live (hp.references a ha b hb)
  unfold printGraph
  by_cases hroot : none ∈ s.roots
  · rw [mapM_deref_null hroots hroot]
    rfl
  obtain ⟨a, ha, href⟩ : ∃ a ∈ s.objects, none ∈ (s.heap.obj a).references := by
    by_contra! hnone
    exact hnull ⟨hroot, hnone⟩
  obtain ⟨bs, hbs⟩ | hfails := mapM_deref hroots
  · rw [hbs]
    simp only [bind, Except.bind]
    rw [mapM_error (e := .null)]
    · intro it hit
      have hobj := (horder it).mp hit
      rw [deref_of_live (hp.live hobj)]
      rcases mapM_deref (hrefs it hobj) with ⟨cs, hcs⟩ | hfails
      · exact .inl ⟨_, by simp only [hcs]; rfl⟩
      · exact .inr (by simp only [hfails])
    · refine ⟨a, (horder a).mpr ha, ?_⟩
      rw [deref_of_live (hp.live ha)]
      simp only [mapM_deref_null (hrefs a ha) href]
  · rw [hfails]
    rfl

/-- The collection ends, with the tracked objects that are reachable. -/
def State.KeptExactly (s : State Addr) (order : List Addr) : Prop :=
  ∃ s' out, collect order s = .ok (s', out) ∧
    (∀ a, a ∈ s'.objects ↔ a ∈ s.objects ∧ s.Reachable a) ∧
    ∀ a, a ∈ destroyed out ↔ a ∈ s.objects ∧ ¬ s.Reachable a

/-- `collect` keeps exactly what is reachable if there is no null entry, and dereferences null if
there is one. -/
theorem collect_null_safe_iff (hp : s.Prepared) (ho : IterationOrder s order) :
    (s.KeptExactly order ↔ s.NoNulls) ∧ (¬ s.NoNulls → collect order s = .error .null) := by
  have hfails (hnull : ¬ s.NoNulls) : collect order s = .error .null := by
    unfold collect
    rw [printGraph_null hp ho hnull]
    rfl
  refine ⟨⟨fun hkeeps => ?_, fun hn => ?_⟩, hfails⟩
  · obtain ⟨s', out, hcollect, -⟩ := hkeeps
    by_contra hnull
    cases hcollect.symm.trans (hfails hnull)
  · obtain ⟨s', out, hcollect, hexact⟩ :=
      (hp.wellTracked hn).collect hp.live (fun a ha => hp.markedAfter ha) ho
    exact ⟨s', out, hcollect, hexact.objects, hexact.deleted⟩

instance (s : State Addr) : Decidable s.NoNulls := inferInstanceAs (Decidable (_ ∧ _))

/-- One object on the root list, with the given references. -/
def oneObject (references : List (Option ℕ)) : State ℕ :=
  ⟨⟨{0}, fun _ => ⟨false, references⟩⟩, {0}, [some 0]⟩

theorem oneObject_prepared {references : List (Option ℕ)} (h : ∀ b, some b ∈ references → b = 0) :
    (oneObject references).Prepared := by
  refine ⟨Finset.Subset.refl _, fun _ _ => rfl, fun b hb => ?_, fun a _ b hb => ?_⟩
  · simpa [oneObject] using hb
  · simpa [oneObject] using h b hb

theorem collect_null_safe_iff_self :
    (oneObject [some 0]).KeptExactly [0] ∧ collect [0] (oneObject [none]) = .error .null :=
  ⟨(collect_null_safe_iff (oneObject_prepared (by simp)) (by decide)).1.mpr (by decide),
    (collect_null_safe_iff (oneObject_prepared (by simp)) (by decide)).2 (by decide)⟩

/-- The object has a null reference. -/
theorem collect_null_unsafe : ¬ ∀ (s : State ℕ) (order : List ℕ), s.Prepared →
    IterationOrder s order → s.KeptExactly order := by
  intro hall
  have hprepared : (oneObject [none]).Prepared := oneObject_prepared (by simp)
  obtain ⟨s', out, hcollect, -⟩ := hall (oneObject [none]) [0] hprepared (by decide)
  have hnull : collect [0] (oneObject [none]) = .error .null := rfl
  cases hcollect.symm.trans hnull

end MarkSweep
