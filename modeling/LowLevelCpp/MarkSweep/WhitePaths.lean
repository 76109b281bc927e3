import LowLevelCpp.MarkSweep.Collect

/-! `mark` on its own, from any marks. The recursion ends whatever the graph is, and no depth above
the number of objects makes a difference. -/
namespace MarkSweep
open Foundations

variable {Addr : Type} [DecidableEq Addr] {h h' : Heap Addr} {o : Addr} {depth depth' : ℕ}
  {r : Printing Addr (Heap Addr)}

theorem traceReferences_mono
    {visit visit' : Heap Addr → Option Addr → Checked Addr (Printing Addr (Heap Addr))}
    (hvisit : ∀ h p r, visit h p = .ok r → visit' h p = .ok r) {refs : List (Option Addr)}
    (ht : traceReferences visit o h refs = .ok r) :
    traceReferences visit' o h refs = .ok r := by
  induction refs generalizing h r with
  | nil => exact ht
  | cons ref refs ih =>
    obtain ⟨target, htarget, ht⟩ := bind_eq_ok.mp ht
    obtain ⟨⟨h₁, out⟩, hv, ht⟩ := bind_eq_ok.mp ht
    obtain ⟨⟨h₂, rest⟩, hl, ht⟩ := bind_eq_ok.mp ht
    simp only [traceReferences, htarget, hvisit _ _ _ hv, ih hl, bind, Except.bind]
    exact ht

/-- A recursion that ends is not cut off further down either. -/
theorem mark_mono (hle : depth ≤ depth') {p : Option Addr} (hm : mark depth h p = .ok r) :
    mark depth' h p = .ok r := by
  induction depth generalizing depth' h p r with
  | zero =>
    cases p with
    | none => simpa [mark] using hm
    | some a => simp [mark] at hm
  | succ depth ih =>
    obtain ⟨depth', rfl⟩ := Nat.exists_eq_add_one_of_ne_zero (Nat.ne_zero_of_lt hle)
    cases p with
    | none => exact hm
    | some a =>
      obtain ⟨obj, hobj, hm⟩ := bind_eq_ok.mp hm
      simp only [mark, hobj, bind, Except.bind]
      split at hm
      · rename_i hmarked
        rw [if_pos hmarked]
        exact hm
      · rename_i hmarked
        obtain ⟨⟨h₁, out⟩, ht, hm⟩ := bind_eq_ok.mp hm
        have hdeeper := traceReferences_mono
          (fun h p r => ih (h := h) (p := p) (r := r) (Nat.le_of_succ_le_succ hle)) ht
        rw [if_neg hmarked, hdeeper]
        exact hm

theorem markAll_mono (hle : depth ≤ depth') {roots : List (Option Addr)}
    (hm : markAll depth h roots = .ok r) : markAll depth' h roots = .ok r := by
  induction roots generalizing h r with
  | nil => exact hm
  | cons root roots ih =>
    obtain ⟨⟨h₁, out⟩, hfirst, hm⟩ := bind_eq_ok.mp hm
    obtain ⟨⟨h₂, rest⟩, hrest, hm⟩ := bind_eq_ok.mp hm
    simp only [markAll, mark_mono hle hfirst, ih hrest, bind, Except.bind]
    exact hm

/-- Every live object has non-null references to live objects. -/
def Heap.Whole (h : Heap Addr) : Prop := Closed h {a | a ∈ h.live}

instance (h : Heap Addr) : Decidable h.Whole :=
  decidable_of_iff
    (∀ a ∈ h.live, ∀ r ∈ (h.obj a).references, ∃ b ∈ h.live, r = some b)
    ⟨fun hw a ha => ⟨ha, hw a ha⟩, fun hw a ha => (hw a ha).2⟩

omit [DecidableEq Addr] in
theorem white_card_le (h : Heap Addr) : h.white.card ≤ h.live.card := Finset.card_filter_le _ _

/-- From any marks `mark` ends and adds to them what is reached by a path outside the marks, ends
included; it expands each object that it marks once and changes nothing else. From no marks
`markAll` marks what is reachable from the roots. -/
theorem mark_white_paths (hw : h.Whole) :
    (∀ o ∈ h.live, ∃ h' out, (∀ depth, h.live.card < depth →
        mark depth h (some o) = .ok (h', out)) ∧
      h'.black = h.black ∪ {b | White h.Edge h.black {o} b} ∧
      (markings out).Nodup ∧ (∀ a, a ∈ markings out ↔ a ∈ h'.black ∧ a ∉ h.black) ∧
      SameGraph h h') ∧
    (h.black = ∅ → ∀ roots : List (Option Addr), (∀ a, some a ∈ roots → a ∈ h.live) →
      ∃ h' out, (∀ depth, h.live.card < depth → markAll depth h roots = .ok (h', out)) ∧
        (∀ a, a ∈ h'.black ↔ ∃ root, some root ∈ roots ∧
          Relation.ReflTransGen h.Edge root a) ∧
        (markings out).Nodup ∧ SameGraph h h') := by
  have hdepth := Nat.lt_succ_of_le (white_card_le h)
  constructor
  · intro o ho
    obtain ⟨h', out, hmark, ht⟩ := mark_spec (T := {a | a ∈ h.live}) ho hw hdepth
    exact ⟨h', out, fun depth hd => mark_mono hd hmark, ht.black, ht.once, ht.expanded, ht.graph⟩
  · intro hblack roots hroots
    obtain ⟨h', out, hmark, ht⟩ := markAll_spec (T := {a | a ∈ h.live}) roots hroots hw hdepth
    refine ⟨h', out, fun depth hd => markAll_mono hd hmark, fun a => ?_, ht.once, ht.graph⟩
    rw [ht.black, hblack, mem_traced, white_empty_iff]
    simp

/-- Two cycles through one object, a self-loop and a repeated edge. -/
def loops : Heap ℕ where
  live := {0, 1, 2, 3}
  obj a :=
    if a = 0 then ⟨false, [some 1, some 1, some 0]⟩
    else if a = 1 then ⟨false, [some 0, some 2]⟩
    else if a = 2 then ⟨true, [some 3]⟩
    else ⟨false, [some 0]⟩

theorem mark_white_paths_loops : ∃ h' out, mark 5 loops (some 0) = .ok (h', out) ∧
    h'.black = loops.black ∪ {b | White loops.Edge loops.black {0} b} ∧
    (h'.obj 3).marked = false := by
  obtain ⟨h', out, hmark, hblack, -⟩ := (mark_white_paths (h := loops) (by decide)).1 0 (by decide)
  have hmark := hmark 5 (by decide)
  have hthree : (mark 5 loops (some 0)).toOption.map (fun r => (r.1.obj 3).marked) =
      some false := by decide +kernel
  rw [hmark] at hthree
  exact ⟨h', out, hmark, hblack, Option.some.inj hthree⟩

end MarkSweep
