import LowLevelCpp.Foundations.Clients
import Mathlib.Data.List.Nodup

/-! A main thread that starts threads, joins them and does things of its own in between, one
statement after the other. How far it is tells which threads are started and which have
returned. -/
namespace Foundations.ForkJoin

variable {τ κ : Type*}

inductive Phase where
  | unstarted
  | running
  | returned
  deriving DecidableEq

inductive Stmt (τ κ : Type*) where
  | start (t : τ)
  | join (t : τ)
  | own (k : κ)
  deriving DecidableEq

/-- The statements `past` of the script have been executed, those in `rest` have not. -/
structure Stage (script : List (Stmt τ κ)) (phase : τ → Phase) (past rest : List (Stmt τ κ)) :
    Prop where
  program : past ++ rest = script
  started : ∀ t, .start t ∈ past ↔ phase t ≠ .unstarted
  joined : ∀ t, .join t ∈ past → phase t = .returned

variable {script past rest : List (Stmt τ κ)} {phase phase' : τ → Phase} {t : τ} {p : Phase}

theorem stage_init (script : List (Stmt τ κ)) :
    Stage script (fun _ => .unstarted) [] script := by
  constructor <;> simp

theorem Stage.mem_script (h : Stage script phase past rest) (ht : phase t ≠ .unstarted) :
    .start t ∈ script :=
  h.program ▸ List.mem_append_left _ ((h.started t).mpr ht)

/-- A thread is started once. -/
theorem Stage.start_new (h : Stage script phase past (.start t :: rest))
    (hnodup : script.Nodup) : phase t = .unstarted := by
  rw [← h.program] at hnodup
  by_contra ht
  have hmem := (h.started t).mpr ht
  exact (List.nodup_append.mp hnodup).2.2 _ hmem _ List.mem_cons_self rfl

/-- What comes before a statement in the script has been executed when that statement is next. -/
theorem Stage.before {before after : List (Stmt τ κ)} {x : Stmt τ κ}
    (h : Stage (before ++ x :: after) phase past rest) (hbefore : x ∉ before)
    (hx : x ∈ past ∨ ∃ rest', rest = x :: rest') : before ⊆ past := by
  rcases hx with hx | ⟨rest', rfl⟩
  · exact subset_of_mem_append h.program hbefore hx
  · exact subset_of_append_cons h.program hbefore

theorem Stage.own {k : κ} (h : Stage script phase past (.own k :: rest)) :
    Stage script phase (past ++ [.own k]) rest := by
  refine ⟨by simpa using h.program, by simpa using h.started, by simpa using h.joined⟩

theorem Stage.join (h : Stage script phase past (.join t :: rest)) (ht : phase t = .returned) :
    Stage script phase (past ++ [.join t]) rest := by
  refine ⟨by simpa using h.program, by simpa using h.started, fun t' ht' => ?_⟩
  rcases List.mem_append.mp ht' with ht' | ht'
  · exact h.joined t' ht'
  · obtain rfl := Stmt.join.inj (List.mem_singleton.mp ht')
    exact ht

variable [DecidableEq τ]

theorem Stage.start (h : Stage script phase past (.start t :: rest)) (hnodup : script.Nodup) :
    Stage script (Function.update phase t .running) (past ++ [.start t]) rest := by
  have hnew := h.start_new hnodup
  refine ⟨by simpa using h.program, fun t' => ?_, fun t' ht' => ?_⟩
  · by_cases ht : t' = t
    · simp [ht]
    · rw [Function.update_of_ne ht]
      simpa [ht] using h.started t'
  · have hjoined := h.joined t' (by simpa using ht')
    have ht : t' ≠ t := by
      rintro rfl
      simp [hnew] at hjoined
    rw [Function.update_of_ne ht]
    exact hjoined

/-- A running thread goes on or returns. -/
theorem Stage.goto (h : Stage script phase past rest) (ht : phase t = .running)
    (hp : p ≠ .unstarted) : Stage script (Function.update phase t p) past rest := by
  refine ⟨h.program, fun t' => ?_, fun t' ht' => ?_⟩
  · by_cases he : t' = t
    · subst he
      simpa [hp] using (h.started t').mpr (by simp [ht])
    · rw [Function.update_of_ne he]
      exact h.started t'
  · have hjoined := h.joined t' ht'
    have he : t' ≠ t := by
      rintro rfl
      simp [ht] at hjoined
    rw [Function.update_of_ne he]
    exact hjoined

end Foundations.ForkJoin
