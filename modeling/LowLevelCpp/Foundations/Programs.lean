import LowLevelCpp.Foundations.System

/-! Programs that change a state, emit events and may be left by an exception. A monitor that sees
the state through a view and follows the events accepts a sequence or a loop exactly if it accepts
each part of it in the state in which that part starts. -/
namespace Foundations

structure Outcome (σ ε : Type*) where
  state : σ
  events : List ε
  threw : Bool

variable {σ ε τ : Type*}

namespace Outcome

def done (s : σ) : Outcome σ ε := ⟨s, [], false⟩

/-- One program after the other, unless an exception leaves the first. -/
def andThen (r : Outcome σ ε) (f : σ → Outcome σ ε) : Outcome σ ε :=
  if r.threw then r
  else ⟨(f r.state).state, r.events ++ (f r.state).events, (f r.state).threw⟩

/-- The handler cleans up, and the exception goes on. -/
def onThrow (r : Outcome σ ε) (handler : σ → Outcome σ ε) : Outcome σ ε :=
  if r.threw then ⟨(handler r.state).state, r.events ++ (handler r.state).events, true⟩
  else r

/-- The program ends in the state, without an exception. -/
def Ends (r : Outcome σ ε) (s : σ) : Prop := r.threw = false ∧ r.state = s

end Outcome

open Outcome

/-- The iterations `0`, ..., `n - 1` of a loop. -/
def loop (f : ℕ → σ → Outcome σ ε) : ℕ → σ → Outcome σ ε
  | 0, s => done s
  | n + 1, s => (loop f n s).andThen (f n)

section Sequence
variable {r : Outcome σ ε} {f : σ → Outcome σ ε} {body : ℕ → σ → Outcome σ ε} {n : ℕ} {s₁ s₂ : σ}

theorem andThen_of_threw (h : r.threw = true) (f : σ → Outcome σ ε) : r.andThen f = r := by
  simp [andThen, h]

theorem andThen_of_not_threw (h : r.threw = false) (f : σ → Outcome σ ε) :
    r.andThen f = ⟨(f r.state).state, r.events ++ (f r.state).events, (f r.state).threw⟩ := by
  simp [andThen, h]

/-- What follows a program only depends on the state that it leaves. -/
theorem andThen_congr {g : σ → Outcome σ ε} (h : f r.state = g r.state) :
    r.andThen f = r.andThen g := by
  unfold andThen
  rw [h]

@[simp] theorem done_andThen (s : σ) (f : σ → Outcome σ ε) : (done s).andThen f = f s := by
  simp [andThen, done]

theorem onThrow_of_threw (h : r.threw = true) (handler : σ → Outcome σ ε) :
    r.onThrow handler =
      ⟨(handler r.state).state, r.events ++ (handler r.state).events, true⟩ := by
  simp [onThrow, h]

theorem onThrow_of_not_threw (h : r.threw = false) (handler : σ → Outcome σ ε) :
    r.onThrow handler = r := by
  simp [onThrow, h]

theorem andThen_assoc (r : Outcome σ ε) (f g : σ → Outcome σ ε) :
    (r.andThen f).andThen g = r.andThen fun s => (f s).andThen g := by
  cases hr : r.threw with
  | true => rw [andThen_of_threw hr, andThen_of_threw hr, andThen_of_threw hr]
  | false =>
    rw [andThen_of_not_threw hr, andThen_of_not_threw hr]
    cases hf : (f r.state).threw with
    | true => rw [andThen_of_threw hf, andThen_of_threw rfl, hf]
    | false =>
      rw [andThen_of_not_threw hf, andThen_of_not_threw rfl]
      simp only [List.append_assoc]

@[simp] theorem andThen_done_events (r : Outcome σ ε) (g : σ → σ) :
    (r.andThen fun s => done (g s)).events = r.events := by
  unfold andThen
  split
  · rfl
  · exact List.append_nil _

theorem loop_succ (body : ℕ → σ → Outcome σ ε) (n : ℕ) (s : σ) :
    loop body (n + 1) s = (loop body n s).andThen (body n) := rfl

theorem ends_done (s : σ) : (done s : Outcome σ ε).Ends s := ⟨rfl, rfl⟩

theorem Outcome.Ends.andThen (hr : r.Ends s₁) (hf : (f s₁).Ends s₂) : (r.andThen f).Ends s₂ := by
  obtain ⟨hthrew, rfl⟩ := hr
  rw [andThen_of_not_threw hthrew]
  exact hf

/-- The state after a loop, from the one after each iteration. -/
theorem ends_loop (state : ℕ → σ) (hstep : ∀ k < n, (body k (state k)).Ends (state (k + 1))) :
    (loop body n (state 0)).Ends (state n) := by
  induction n with
  | zero => exact ends_done _
  | succ n ih =>
    have hn := ih fun k hk => hstep k (Nat.lt_succ_of_lt hk)
    exact hn.andThen (hstep n (Nat.lt_succ_self n))

/-- What the second program emits, the sequence emits. -/
theorem Outcome.Ends.mem_events {e : ε} (hr : r.Ends s₁) (he : e ∈ (f s₁).events) :
    e ∈ (r.andThen f).events := by
  obtain ⟨hthrew, rfl⟩ := hr
  rw [andThen_of_not_threw hthrew]
  exact List.mem_append_right _ he

end Sequence

/-- The program leaves a state with `I`, with or without an exception, and every event of it
meets `Q`. -/
def Stays (I : σ → Prop) (Q : ε → Prop) (r : Outcome σ ε) : Prop :=
  I r.state ∧ ∀ e ∈ r.events, Q e

section Invariant
variable {I : σ → Prop} {Q : ε → Prop} {s : σ} {r : Outcome σ ε} {f : σ → Outcome σ ε} {e : ε}

theorem stays_done (h : I s) : Stays I Q (done s) := ⟨h, by simp [done]⟩

/-- The first program may leave a state with more than what the sequence keeps. -/
theorem Stays.andThenFrom {J : σ → Prop} (hr : Stays J Q r) (hJ : ∀ s', J s' → I s')
    (hf : ∀ s', J s' → Stays I Q (f s')) : Stays I Q (r.andThen f) := by
  cases hthrew : r.threw with
  | true =>
    rw [andThen_of_threw hthrew]
    exact ⟨hJ _ hr.1, hr.2⟩
  | false =>
    rw [andThen_of_not_threw hthrew]
    obtain ⟨hstate, hevents⟩ := hf r.state hr.1
    exact ⟨hstate, List.forall_mem_append.mpr ⟨hr.2, hevents⟩⟩

theorem Stays.andThen (hr : Stays I Q r) (hf : ∀ s', I s' → Stays I Q (f s')) :
    Stays I Q (r.andThen f) :=
  hr.andThenFrom (fun _ h => h) hf

theorem Stays.onThrow (hr : Stays I Q r) (hf : ∀ s', I s' → Stays I Q (f s')) :
    Stays I Q (r.onThrow f) := by
  cases hthrew : r.threw with
  | false => rwa [onThrow_of_not_threw hthrew]
  | true =>
    rw [onThrow_of_threw hthrew]
    obtain ⟨hstate, hevents⟩ := hf r.state hr.1
    exact ⟨hstate, List.forall_mem_append.mpr ⟨hr.2, hevents⟩⟩

theorem stays_loop {body : ℕ → σ → Outcome σ ε} (h : I s) {n : ℕ}
    (hbody : ∀ k < n, ∀ s', I s' → Stays I Q (body k s')) : Stays I Q (loop body n s) := by
  induction n with
  | zero => exact stays_done h
  | succ n ih =>
    have hbefore := ih fun k hk => hbody k (Nat.lt_succ_of_lt hk)
    exact hbefore.andThen (hbody n (Nat.lt_succ_self n))

/-- What the first program emits, the sequence emits. -/
theorem mem_events_andThen (he : e ∈ r.events) : e ∈ (r.andThen f).events := by
  cases hthrew : r.threw with
  | true => rwa [andThen_of_threw hthrew]
  | false =>
    rw [andThen_of_not_threw hthrew]
    exact List.mem_append_left _ he

/-- What an iteration emits, the loop emits. -/
theorem mem_events_loop {body : ℕ → σ → Outcome σ ε} {k n : ℕ} (state : ℕ → σ)
    (hstep : ∀ k < n, (body k (state k)).Ends (state (k + 1))) (hk : k < n)
    (he : e ∈ (body k (state k)).events) : e ∈ (loop body n (state 0)).events := by
  induction n with
  | zero => exact absurd hk (Nat.not_lt_zero k)
  | succ n ih =>
    have hbefore : ∀ k < n, (body k (state k)).Ends (state (k + 1)) :=
      fun k hk => hstep k (Nat.lt_succ_of_lt hk)
    rcases Nat.lt_succ_iff_lt_or_eq.mp hk with hk | rfl
    · exact mem_events_andThen (ih hbefore hk)
    · exact (ends_loop state hbefore).mem_events he

end Invariant

/-- The program emits at most `k` events of the kind and at most `m` others. -/
structure Costs (kind : ε → Bool) (k m : ℕ) (r : Outcome σ ε) : Prop where
  ofKind : r.events.countP kind ≤ k
  others : r.events.countP (fun e => !kind e) ≤ m

section Cost
variable {kind : ε → Bool} {k k' m m' n : ℕ} {s s₁ : σ} {r : Outcome σ ε} {f : σ → Outcome σ ε}
  {body : ℕ → σ → Outcome σ ε}

theorem costs_done : Costs kind 0 0 (done s : Outcome σ ε) := ⟨Nat.le_refl 0, Nat.le_refl 0⟩

/-- A program without events of the kind. -/
theorem costs_of_forall (h : ∀ e ∈ r.events, kind e = false) (hm : r.events.length ≤ m) :
    Costs kind 0 m r := by
  constructor
  · exact Nat.le_of_eq (List.countP_eq_zero.mpr fun e he => by simp [h e he])
  · exact Nat.le_trans List.countP_le_length hm

theorem Costs.mono (h : Costs kind k m r) (hk : k ≤ k') (hm : m ≤ m') : Costs kind k' m' r :=
  ⟨Nat.le_trans h.ofKind hk, Nat.le_trans h.others hm⟩

theorem Costs.andThen (hr : Costs kind k m r)
    (hf : r.threw = false → Costs kind k' m' (f r.state)) :
    Costs kind (k + k') (m + m') (r.andThen f) := by
  cases hthrew : r.threw with
  | true =>
    rw [andThen_of_threw hthrew]
    exact hr.mono (Nat.le_add_right _ _) (Nat.le_add_right _ _)
  | false =>
    rw [andThen_of_not_threw hthrew]
    have hlast := hf hthrew
    constructor
    · rw [List.countP_append]
      exact Nat.add_le_add hr.ofKind hlast.ofKind
    · rw [List.countP_append]
      exact Nat.add_le_add hr.others hlast.others

theorem Costs.andThenFrom {l j : ℕ} (hr : Costs kind k m r) (hends : r.Ends s₁)
    (hf : Costs kind k' m' (f s₁)) (hk : k + k' ≤ l) (hm : m + m' ≤ j) :
    Costs kind l j (r.andThen f) := by
  obtain ⟨-, rfl⟩ := hends
  exact (hr.andThen fun _ => hf).mono hk hm

theorem Costs.finish {g : σ → σ} (hr : Costs kind k m r) :
    Costs kind k m (r.andThen fun s' => done (g s')) :=
  hr.andThen (f := fun s' => done (g s')) fun _ => costs_done

theorem costs_loop (h : ∀ i s', Costs kind k m (body i s')) (n : ℕ) :
    Costs kind (n * k) (n * m) (loop body n s) := by
  induction n with
  | zero => exact costs_done.mono (Nat.zero_le _) (Nat.zero_le _)
  | succ n ih =>
    rw [Nat.succ_mul, Nat.succ_mul]
    exact ih.andThen fun _ => h n _

end Cost

/-- The program attempts `n` operations, which are numbered as the counter says; it is left by an
exception exactly if one of them throws. -/
structure Attempts (throws : ℕ → Bool) (count : σ → ℕ) (n : ℕ) (s : σ) (r : Outcome σ ε) :
    Prop where
  threw_iff : r.threw = true ↔ ∃ k < n, throws (count s + k) = true
  counted : r.threw = false → count r.state = count s + n

section Counting
variable {throws : ℕ → Bool} {count : σ → ℕ} {n m : ℕ} {s : σ} {r : Outcome σ ε}
  {f : σ → Outcome σ ε} {body : ℕ → σ → Outcome σ ε}

theorem attempts_done : Attempts throws count 0 s (done s : Outcome σ ε) :=
  ⟨by simp [done], fun _ => rfl⟩

theorem Attempts.andThen (hr : Attempts throws count n s r)
    (hf : r.threw = false → Attempts throws count m r.state (f r.state)) :
    Attempts throws count (n + m) s (r.andThen f) := by
  cases hthrew : r.threw with
  | true =>
    rw [andThen_of_threw hthrew]
    obtain ⟨k, hk, hthrows⟩ := hr.threw_iff.mp hthrew
    exact ⟨iff_of_true hthrew ⟨k, by omega, hthrows⟩, fun hnot => by simp [hthrew] at hnot⟩
  | false =>
    rw [andThen_of_not_threw hthrew]
    have hlast := hf hthrew
    have hcount := hr.counted hthrew
    have hbefore : ¬ ∃ k < n, throws (count s + k) = true := by
      rw [← hr.threw_iff, hthrew]
      exact Bool.false_ne_true
    refine ⟨hlast.threw_iff.trans ⟨?_, ?_⟩, fun hnot => ?_⟩
    · rintro ⟨k, hk, hthrows⟩
      rw [hcount, Nat.add_assoc] at hthrows
      exact ⟨n + k, by omega, hthrows⟩
    · rintro ⟨k, hk, hthrows⟩
      have hn : n ≤ k := Nat.le_of_not_lt fun hlt => hbefore ⟨k, hlt, hthrows⟩
      refine ⟨k - n, by omega, ?_⟩
      rwa [hcount, Nat.add_assoc, Nat.add_sub_cancel' hn]
    · rw [hlast.counted hnot, hcount, Nat.add_assoc]

theorem Attempts.onThrow (hr : Attempts throws count n s r) :
    Attempts throws count n s (r.onThrow f) := by
  cases hthrew : r.threw with
  | false => rwa [onThrow_of_not_threw hthrew]
  | true =>
    rw [onThrow_of_threw hthrew]
    exact ⟨iff_of_true rfl (hr.threw_iff.mp hthrew), nofun⟩

theorem attempts_loop (hbody : ∀ k s', Attempts throws count 1 s' (body k s')) (n : ℕ) :
    Attempts throws count n s (loop body n s) := by
  induction n with
  | zero => exact attempts_done
  | succ n ih => exact ih.andThen fun _ => hbody n _

end Counting

section Monitor
variable (S : Spec τ ε) (view : σ → τ)

/-- As long as the monitor accepts the program, it sees the state that the program leaves. -/
def Tracks (s : σ) (r : Outcome σ ε) : Prop :=
  ∀ t, S.replayFrom (view s) r.events = some t → t = view r.state

def Accepted (s : σ) (r : Outcome σ ε) : Prop :=
  S.replayFrom (view s) r.events = some (view r.state)

variable {S view} {s s₁ : σ} {r : Outcome σ ε} {f : σ → Outcome σ ε} {body : ℕ → σ → Outcome σ ε}

theorem accepted_done : Accepted S view s (done s) := rfl

theorem tracks_done : Tracks S view s (done s) := fun _ ht => (Option.some.inj ht).symm

theorem Accepted.append (hr : Accepted S view s r) (hf : Accepted S view r.state (f r.state))
    (threw : Bool) :
    Accepted S view s ⟨(f r.state).state, r.events ++ (f r.state).events, threw⟩ := by
  unfold Accepted at *
  rw [Spec.replayFrom_append, hr, Option.bind_some]
  exact hf

/-- A sequence is accepted if each part is, in whatever state it starts. -/
theorem Accepted.andThen (hr : Accepted S view s r)
    (hf : r.threw = false → Accepted S view r.state (f r.state)) :
    Accepted S view s (r.andThen f) := by
  cases hthrew : r.threw with
  | true => rwa [andThen_of_threw hthrew]
  | false =>
    rw [andThen_of_not_threw hthrew]
    exact hr.append (hf hthrew) _

theorem Accepted.andThenFrom (hr : Accepted S view s r) (hends : r.Ends s₁)
    (hf : Accepted S view s₁ (f s₁)) : Accepted S view s (r.andThen f) := by
  obtain ⟨-, rfl⟩ := hends
  exact hr.andThen fun _ => hf

/-- The monitor accepts the program and sees no change. -/
def Quiet (S : Spec τ ε) (view : σ → τ) (s : σ) (r : Outcome σ ε) : Prop :=
  Accepted S view s r ∧ view r.state = view s

theorem quiet_loop {n : ℕ} (h : ∀ k < n, ∀ s', view s' = view s → Quiet S view s' (body k s')) :
    Quiet S view s (loop body n s) := by
  induction n with
  | zero => exact ⟨accepted_done, rfl⟩
  | succ n ih =>
    obtain ⟨hbefore, hview⟩ := ih fun k hk => h k (Nat.lt_succ_of_lt hk)
    have hlast := h n (Nat.lt_succ_self n) (loop body n s).state hview
    refine ⟨hbefore.andThen fun _ => hlast.1, ?_⟩
    rw [loop_succ]
    cases hthrew : (loop body n s).threw with
    | true => rwa [andThen_of_threw hthrew]
    | false =>
      rw [andThen_of_not_threw hthrew]
      exact hlast.2.trans hview

/-- A monitor that follows the program accepts it as soon as it does not reject it. -/
theorem Tracks.accepted_iff (h : Tracks S view s r) :
    Accepted S view s r ↔ ∃ t, S.replayFrom (view s) r.events = some t := by
  constructor
  · intro ha
    exact ⟨_, ha⟩
  · rintro ⟨t, ht⟩
    obtain rfl := h t ht
    exact ht

theorem Tracks.append (hr : Tracks S view s r) (hf : ∀ s', Tracks S view s' (f s')) (threw : Bool) :
    Tracks S view s ⟨(f r.state).state, r.events ++ (f r.state).events, threw⟩ := by
  intro t ht
  rw [Spec.replayFrom_append] at ht
  obtain ⟨t', hr', hf'⟩ := Option.bind_eq_some_iff.mp ht
  obtain rfl := hr t' hr'
  exact hf r.state t hf'

theorem Tracks.andThen (hr : Tracks S view s r) (hf : ∀ s', Tracks S view s' (f s')) :
    Tracks S view s (r.andThen f) := by
  cases hthrew : r.threw with
  | true => rwa [andThen_of_threw hthrew]
  | false =>
    rw [andThen_of_not_threw hthrew]
    exact hr.append hf _

theorem Tracks.onThrow (hr : Tracks S view s r) (hf : ∀ s', Tracks S view s' (f s')) :
    Tracks S view s (r.onThrow f) := by
  cases hthrew : r.threw with
  | true =>
    rw [onThrow_of_threw hthrew]
    exact hr.append hf _
  | false => rwa [onThrow_of_not_threw hthrew]

theorem tracks_loop (h : ∀ k s', Tracks S view s' (body k s')) (n : ℕ) :
    Tracks S view s (loop body n s) := by
  induction n with
  | zero => exact tracks_done
  | succ n ih => exact ih.andThen (h n)

theorem accepted_andThen (ht : Tracks S view s r) (hr : r.Ends s₁) :
    Accepted S view s (r.andThen f) ↔ Accepted S view s r ∧ Accepted S view s₁ (f s₁) := by
  obtain ⟨hthrew, rfl⟩ := hr
  rw [andThen_of_not_threw hthrew]
  constructor
  · intro h
    unfold Accepted at h ⊢
    rw [Spec.replayFrom_append] at h
    obtain ⟨t, hr, hf⟩ := Option.bind_eq_some_iff.mp h
    obtain rfl := ht t hr
    exact ⟨hr, hf⟩
  · rintro ⟨hr, hf⟩
    exact hr.append hf _

theorem accepted_of_andThen (ht : Tracks S view s r) (h : Accepted S view s (r.andThen f)) :
    Accepted S view s r := by
  cases hthrew : r.threw with
  | true => rwa [andThen_of_threw hthrew] at h
  | false => exact ((accepted_andThen ht ⟨hthrew, rfl⟩).mp h).1

/-- The monitor does not see the last assignment. -/
theorem accepted_andThen_done {g : σ → σ} (hg : ∀ s', view (g s') = view s') :
    Accepted S view s (r.andThen fun s' => done (g s')) ↔ Accepted S view s r := by
  cases hthrew : r.threw with
  | true => rw [andThen_of_threw hthrew]
  | false =>
    rw [andThen_of_not_threw hthrew]
    unfold Accepted done
    rw [List.append_nil, hg]

/-- A loop is accepted if every iteration is, in the state that the iterations before it leave. -/
theorem accepted_loop {n : ℕ} (ht : ∀ k s', Tracks S view s' (body k s')) (state : ℕ → σ)
    (hstep : ∀ k < n, (body k (state k)).Ends (state (k + 1))) :
    Accepted S view (state 0) (loop body n (state 0)) ↔
      ∀ k < n, Accepted S view (state k) (body k (state k)) := by
  induction n with
  | zero => simp [loop, accepted_done]
  | succ n ih =>
    have hbefore : ∀ k < n, (body k (state k)).Ends (state (k + 1)) :=
      fun k hk => hstep k (Nat.lt_succ_of_lt hk)
    rw [loop_succ, accepted_andThen (tracks_loop ht n) (ends_loop state hbefore), ih hbefore]
    constructor
    · rintro ⟨hall, hlast⟩ k hk
      rcases Nat.lt_succ_iff_lt_or_eq.mp hk with hk | rfl
      · exact hall k hk
      · exact hlast
    · intro hall
      exact ⟨fun k hk => hall k (Nat.lt_succ_of_lt hk), hall n (Nat.lt_succ_self n)⟩

end Monitor
end Foundations
