import Mathlib.Data.List.Induction
import Mathlib.Data.Option.Basic

/-! Labelled transition systems whose steps emit events, and specifications that
accept event logs. A run carries the events emitted so far, so that a statement about
a history is a statement about a run. -/
namespace Foundations

/-- A fallible computation succeeds when each of its parts does. -/
theorem bind_eq_ok {ε α β : Type*} {x : Except ε α} {f : α → Except ε β} {b : β} :
    x.bind f = .ok b ↔ ∃ a, x = .ok a ∧ f a = .ok b := by
  cases x <;> simp [Except.bind]

/-- A label resolves every choice of the environment; `none` says that the label is
not enabled in the state. -/
structure System (σ α ε : Type*) where
  init : σ
  step : σ → α → Option (σ × List ε)

/-- A deterministic acceptor of event logs: the abstract state after an event, or
`none` when the specification forbids the event. -/
structure Spec (τ ε : Type*) where
  init : τ
  accept : τ → ε → Option τ

namespace Spec
variable {τ ε : Type*} (T : Spec τ ε)

def replayFrom : τ → List ε → Option τ
  | t, [] => some t
  | t, e :: es => (T.accept t e).bind fun t' => replayFrom t' es

def replay (log : List ε) : Option τ := T.replayFrom T.init log

@[simp] theorem replayFrom_nil (t : τ) : T.replayFrom t [] = some t := rfl

@[simp] theorem replayFrom_cons (t : τ) (e : ε) (es : List ε) :
    T.replayFrom t (e :: es) = (T.accept t e).bind fun t' => T.replayFrom t' es := rfl

theorem replayFrom_cons_iff {t t' : τ} {e : ε} {es : List ε} :
    T.replayFrom t (e :: es) = some t' ↔
      ∃ t'', T.accept t e = some t'' ∧ T.replayFrom t'' es = some t' :=
  Option.bind_eq_some_iff

theorem replayFrom_singleton {t t' : τ} {e : ε} :
    T.replayFrom t [e] = some t' ↔ T.accept t e = some t' := by
  simp

theorem replayFrom_append (t : τ) (xs ys : List ε) :
    T.replayFrom t (xs ++ ys) = (T.replayFrom t xs).bind fun t' => T.replayFrom t' ys := by
  induction xs generalizing t with
  | nil => simp
  | cons x xs ih => simp only [List.cons_append, replayFrom_cons, ih, Option.bind_assoc]

theorem replay_append {t : τ} {log : List ε} (h : T.replay log = some t) (evs : List ε) :
    T.replay (log ++ evs) = T.replayFrom t evs := by
  unfold replay at h ⊢
  rw [replayFrom_append, h, Option.bind_some]

/-- A log is accepted only if each of its prefixes is. -/
theorem replay_prefix {t : τ} {log evs : List ε} (h : T.replay (log ++ evs) = some t) :
    ∃ t', T.replay log = some t' ∧ T.replayFrom t' evs = some t := by
  unfold replay at h ⊢
  rw [replayFrom_append] at h
  exact Option.bind_eq_some_iff.mp h

/-- The induction over an accepted log. -/
theorem invariant {I : τ → List ε → Prop} {t : τ} {log : List ε} (h : T.replay log = some t)
    (hinit : I T.init [])
    (hstep : ∀ t log e t', I t log → T.accept t e = some t' → I t' (log ++ [e])) : I t log := by
  induction log using List.reverseRecOn generalizing t with
  | nil => exact Option.some.inj h ▸ hinit
  | append_singleton log e ih =>
    obtain ⟨t', ht', he⟩ := T.replay_prefix h
    obtain ⟨t'', ha, ht''⟩ := Option.bind_eq_some_iff.mp he
    obtain rfl := Option.some.inj ht''
    exact hstep t' log e t'' (ih ht') ha

/-- An acceptor that leaves no choice to the answers: two accepted logs of the same requests are
the same. -/
theorem log_unique {ρ : Type*} {T : Spec τ ε} {request : ε → ρ}
    (hanswer : ∀ t e e', request e = request e' → (T.accept t e).isSome →
      (T.accept t e').isSome → e = e')
    {t u u' : τ} {log log' : List ε} (h : T.replayFrom t log = some u)
    (h' : T.replayFrom t log' = some u') (hrequests : log.map request = log'.map request) :
    log = log' := by
  induction log generalizing t log' with
  | nil => exact (List.map_eq_nil_iff.mp hrequests.symm).symm
  | cons e log ih =>
    cases log' with
    | nil => cases hrequests
    | cons e' log' =>
      obtain ⟨hhead, htail⟩ := List.cons.inj hrequests
      obtain ⟨s, hs, hrest⟩ := T.replayFrom_cons_iff.mp h
      obtain ⟨s', hs', hrest'⟩ := T.replayFrom_cons_iff.mp h'
      obtain rfl := hanswer t e e' hhead (Option.isSome_of_eq_some hs)
        (Option.isSome_of_eq_some hs')
      obtain rfl := Option.some.inj (hs.symm.trans hs')
      rw [ih hrest hrest' htail]

end Spec

/-- Whenever the event `e` was emitted, the history so far met `Q`. -/
def AtEach {ε : Type*} (Q : List ε → ε → Prop) (log : List ε) : Prop :=
  ∀ pre e post, log = pre ++ e :: post → Q pre e

theorem atEach_nil {ε : Type*} (Q : List ε → ε → Prop) : AtEach Q [] := by
  intro pre e post h
  simp at h

theorem AtEach.concat {ε : Type*} {Q : List ε → ε → Prop} {log : List ε} {e : ε}
    (h : AtEach Q log) (he : Q log e) : AtEach Q (log ++ [e]) := by
  intro pre e' post heq
  rcases List.eq_nil_or_concat post with rfl | ⟨post', last, rfl⟩
  · obtain ⟨rfl, he'⟩ := List.append_inj' heq rfl
    obtain rfl := (List.cons.inj he').1
    exact he
  · rw [List.concat_eq_append, ← List.cons_append, ← List.append_assoc] at heq
    exact h pre e' post' (List.append_inj' heq rfl).1

namespace System
variable {σ α ε : Type*} {S : System σ α ε} {P Q : σ → α → Prop}

/-- `S.RunWhere P s log`: some run from the initial state, each of whose steps meets
`P` in the state before it, ends in `s` and has emitted `log`. -/
inductive RunWhere (S : System σ α ε) (P : σ → α → Prop) : σ → List ε → Prop
  | init : RunWhere S P S.init []
  | step {s : σ} {log : List ε} {a : α} {s' : σ} {evs : List ε} : RunWhere S P s log → P s a →
      S.step s a = some (s', evs) → RunWhere S P s' (log ++ evs)

/-- Every run, whatever the environment does. -/
abbrev Run (S : System σ α ε) : σ → List ε → Prop := S.RunWhere fun _ _ => True

theorem RunWhere.mono {s : σ} {log : List ε} (h : S.RunWhere P s log)
    (hPQ : ∀ s a, P s a → Q s a) : S.RunWhere Q s log := by
  induction h with
  | init => exact .init
  | step _ hp hs ih => exact .step ih (hPQ _ _ hp) hs

/-- A condition that follows from an invariant of the run may be added. -/
theorem RunWhere.strengthen {s : σ} {log : List ε} (h : S.RunWhere P s log)
    (hPQ : ∀ s log a s' evs, S.RunWhere P s log → P s a → S.step s a = some (s', evs) → Q s a) :
    S.RunWhere Q s log := by
  induction h with
  | init => exact .init
  | step hr hp hs ih => exact .step ih (hPQ _ _ _ _ _ hr hp hs) hs

/-- The induction over a run: what holds initially and is kept by every step that
meets `P` holds in every state reached. The run itself is available at the step, so
that an earlier invariant can be used. -/
theorem RunWhere.invariant {I : σ → List ε → Prop} {s : σ} {log : List ε}
    (h : S.RunWhere P s log) (hinit : I S.init [])
    (hstep : ∀ s log a s' evs, S.RunWhere P s log → I s log → P s a →
      S.step s a = some (s', evs) → I s' (log ++ evs)) : I s log := by
  induction h with
  | init => exact hinit
  | step hr hp hs ih => exact hstep _ _ _ _ _ hr ih hp hs

/-- Run the given labels one after the other, checking `P` before each step. -/
def exec (S : System σ α ε) (P : σ → α → Prop) [∀ s a, Decidable (P s a)] :
    σ → List α → Option (σ × List ε)
  | s, [] => some (s, [])
  | s, a :: as =>
    if P s a then
      (S.step s a).bind fun r => (exec S P r.1 as).map fun q => (q.1, r.2 ++ q.2)
    else none

theorem RunWhere.exec [∀ s a, Decidable (P s a)] {s s' : σ} {log evs : List ε} {as : List α}
    (h : S.RunWhere P s log) (he : S.exec P s as = some (s', evs)) :
    S.RunWhere P s' (log ++ evs) := by
  induction as generalizing s log evs with
  | nil =>
    simp only [System.exec, Option.some.injEq, Prod.mk.injEq] at he
    obtain ⟨rfl, rfl⟩ := he
    simpa using h
  | cons a as ih =>
    unfold System.exec at he
    split at he
    · rename_i hp
      obtain ⟨⟨s₁, evs₁⟩, hs, he⟩ := Option.bind_eq_some_iff.mp he
      obtain ⟨⟨s₂, evs₂⟩, hrest, hq⟩ := Option.map_eq_some_iff.mp he
      obtain ⟨rfl, rfl⟩ := Prod.mk.inj hq
      rw [← List.append_assoc]
      exact ih (h.step hp hs) hrest
    · cases he

/-- A run given by its labels, with what can be computed of the state and the history it
ends in. -/
theorem exists_run_of_exec (S : System σ α ε) (P : σ → α → Prop) [∀ s a, Decidable (P s a)]
    (as : List α) (q : σ → List ε → Bool)
    (h : (S.exec P S.init as).any (fun r => q r.1 r.2) = true) :
    ∃ s log, S.RunWhere P s log ∧ q s log = true := by
  cases he : S.exec P S.init as with
  | none => simp [he] at h
  | some r => exact ⟨r.1, r.2, by simpa using RunWhere.init.exec he, by simpa [he] using h⟩

end System
end Foundations
