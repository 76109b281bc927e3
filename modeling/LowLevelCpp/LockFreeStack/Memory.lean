import LowLevelCpp.LockFreeStack.Progress
import LowLevelCpp.LockFreeStack.ZeroKeys

/-! The nodes of the stack: which are live, which thread may touch them, and what becomes of a
value that `pop` has read through a pointer to a node another thread has deleted. -/
namespace LockFreeStack
open Foundations Foundations.System

variable {Tid Addr : Type} [DecidableEq Tid] [DecidableEq Addr] {s s' : State Tid Addr}
  {a a' : Lifo Tid Addr} {t : Tid} {p : Pc Addr} {log evs : List (Event Tid Addr)}

/-- Nothing is live but the nodes on the stack and those a thread owns. -/
def Kept (s : State Tid Addr) (a : Lifo Tid Addr) : Prop :=
  ∀ n, (s.heap n).isSome → n ∈ a.nodes ∨ ∃ t, (s.pc t).owns = some n

section Nodes

omit [DecidableEq Addr] in
theorem Kept.assemble (h : Kept s a) (hpc : s'.pc = Function.update s.pc t p)
    (hnew : ∀ n, (s'.heap n).isSome → (s.heap n).isSome ∨ p.owns = some n)
    (hkept : ∀ n, (s'.heap n).isSome → n ∈ a.nodes ∨ (s.pc t).owns = some n →
      n ∈ a'.nodes ∨ p.owns = some n) : Kept s' a' := by
  intro n hlive
  have hself (hp : n ∈ a'.nodes ∨ p.owns = some n) :
      n ∈ a'.nodes ∨ ∃ t, (s'.pc t).owns = some n :=
    hp.imp_right fun hp => ⟨t, by rw [hpc, Function.update_self]; exact hp⟩
  rcases hnew n hlive with hold | hp
  · rcases h n hold with hmem | ⟨t', howns⟩
    · exact hself (hkept n hlive (.inl hmem))
    · by_cases ht : t' = t
      · exact hself (hkept n hlive (.inr (ht ▸ howns)))
      · exact .inr ⟨t', by rw [hpc, Function.update_of_ne ht]; exact howns⟩
  · exact hself (.inr hp)

omit [DecidableEq Addr] in
/-- A step that allocates, publishes, takes and deletes nothing. -/
theorem Kept.goto (h : Kept s a) (hpc : s'.pc = Function.update s.pc t p)
    (hheap : ∀ n, (s'.heap n).isSome → (s.heap n).isSome)
    (howns : ∀ n, (s.pc t).owns = some n → p.owns = some n) : Kept s' a :=
  h.assemble hpc (fun n hlive => .inl (hheap n hlive)) fun n _ hn => hn.imp_right (howns n)

theorem Kept.step (h : Kept s a) (hs : Step s t s' evs) (ha : lifo.replayFrom a evs = some a') :
    Kept s' a' := by
  cases hs with
  | callPush hpc | callPop hpc | pushLoad hpc | pushFetch hpc | pushRetry hpc | popLoad hpc
  | popReload hpc | popEmpty hpc | popTest hpc | popNext hpc | popFetch hpc | popRetry hpc
  | popKey hpc =>
    obtain rfl := Option.some.inj ha
    exact h.goto rfl (fun _ hn => hn) (by simp [hpc, Pc.owns])
  | @alloc key n hpc hfree =>
    obtain rfl := Option.some.inj ha
    refine h.assemble rfl (fun m hm => ?_) fun m _ hm => hm.imp_right (by simp [hpc, Pc.owns])
    by_cases hmn : m = n
    · exact .inr (by rw [hmn]; rfl)
    · exact .inl (by simpa [State.goto, State.alloc, Function.update_of_ne hmn] using hm)
  | @pushLink key n old hpc =>
    obtain rfl := Option.some.inj ha
    refine h.goto rfl (fun m hm => ?_) (by simp [hpc, Pc.owns])
    by_cases hmn : m = n
    · subst hmn
      simpa [State.goto, State.storeNext] using hm
    · simpa [State.goto, State.storeNext, Function.update_of_ne hmn] using hm
  | pushed hpc =>
    -- the node passes from the thread to the stack
    obtain rfl := Option.some.inj ha
    refine h.assemble rfl (fun _ hm => .inl hm) fun m _ hm => .inl ?_
    simp only [hpc, Pc.owns, Option.some.injEq] at hm
    simpa [Lifo.nodes, eq_comm, or_comm] using hm
  | @popped n oldTag next tag hpc htop =>
    -- the node passes from the stack to the thread
    have hacc := Spec.replayFrom_singleton _ |>.mp ha
    simp only [lifo, Lifo.accept] at hacc
    split at hacc
    · cases hacc
    · rename_i e rest hstack
      split at hacc
      · rename_i hok
        obtain rfl := Option.some.inj hacc
        refine h.assemble rfl (fun _ hm => .inl hm) fun m _ hm => ?_
        simpa [Lifo.nodes, hstack, hpc, Pc.owns, hok.1, eq_comm, or_comm] using hm
      · cases hacc
  | @popDelete n key hpc =>
    have hacc := Spec.replayFrom_singleton _ |>.mp ha
    have hnodes : a'.nodes = a.nodes := by
      simp only [lifo, Lifo.accept] at hacc
      split at hacc
      · cases hacc
      · split at hacc
        · obtain rfl := Option.some.inj hacc
          rfl
        · cases hacc
    have hne {m : Addr} (hm : (((s.delete n).goto t .idle).heap m).isSome) : m ≠ n := by
      rintro rfl
      simp [State.goto, State.delete] at hm
    refine h.assemble rfl (fun m hm => .inl ?_) fun m hm hmem => .inl ?_
    · simpa [State.goto, State.delete, Function.update_of_ne (hne hm)] using hm
    · rcases hmem with hmem | hown
      · rwa [hnodes]
      · rw [hpc] at hown
        exact absurd (Option.some.inj hown).symm (hne hm)

theorem kept_of_run (hrun : (system Tid Addr).Run s log) :
    ∀ a, lifo.replay log = some a → Kept s a := by
  refine hrun.invariant (I := fun s log => ∀ a, lifo.replay log = some a → Kept s a) ?_ ?_
  · intro a _ n hn
    simp [system, initial] at hn
  · intro s log act s' evs _ ih _ hs a' ha'
    obtain ⟨a, ha, hrest⟩ := lifo.replay_prefix ha'
    exact (ih a ha).step (step_cases hs) hrest

/-- A step changes no node but one that its thread owns or has just allocated. -/
theorem Step.touches (hs : Step s t s' evs) {n : Addr} (hne : s'.heap n ≠ s.heap n) :
    (s.pc t).owns = some n ∨ s.heap n = none ∧ (s'.pc t).owns = some n := by
  cases hs with
  | @alloc key m hpc hfree =>
    obtain rfl : n = m := by
      by_contra hnm
      exact hne (Function.update_of_ne hnm _ _)
    exact .inr ⟨hfree, by simp [State.goto, Pc.owns]⟩
  | @pushLink key m old hpc =>
    obtain rfl : n = m := by
      by_contra hnm
      exact hne (Function.update_of_ne hnm _ _)
    exact .inl (by rw [hpc]; rfl)
  | @popDelete m key hpc =>
    obtain rfl : n = m := by
      by_contra hnm
      exact hne (Function.update_of_ne hnm _ _)
    exact .inl (by rw [hpc]; rfl)
  | _ => exact absurd rfl hne

end Nodes

/-- No leak and no double delete. In every interleaving with fewer than `2 ^ 64` draws of a tag
a node is live exactly when it is on the stack or owned by a thread, never both and never by two
threads; and a step writes, allocates or deletes only a node of its own thread. -/
theorem nodes_accounted (hrun : (system Tid Addr).Run s log) (hbound : fetches log < 2 ^ 64) :
    ∃ nodes, Path s.link s.top.node nodes none ∧ nodes.Nodup ∧
      (∀ n, (s.heap n).isSome ↔ n ∈ nodes ∨ ∃ t, (s.pc t).owns = some n) ∧
      (∀ n ∈ nodes, ∀ t, (s.pc t).owns ≠ some n) ∧
      (∀ t t' n, (s.pc t).owns = some n → (s.pc t').owns = some n → t = t') ∧
      ∀ act s' evs, (system Tid Addr).step s act = some (s', evs) →
        ∀ n, s'.heap n ≠ s.heap n → (s.pc act.thread).owns = some n ∨
          s.heap n = none ∧ (s'.pc act.thread).owns = some n := by
  obtain ⟨⟨a, hreplay, hrel⟩, -⟩ := abstracts_of_run hrun hbound
  refine ⟨a.nodes, hrel.chain, hrel.chain.nodup, fun n => ⟨kept_of_run hrun a hreplay n, ?_⟩,
    fun n hn t howns => ((hrel.threads t).owned howns).1 hn, hrel.owners,
    fun act s' evs hs n => (step_cases hs).touches⟩
  rintro (hmem | ⟨t, howns⟩)
  · obtain ⟨e, he, rfl⟩ := List.mem_map.mp hmem
    obtain ⟨next, hcell⟩ := hrel.cells e he
    simp [hcell]
  · obtain ⟨-, nd, hnd⟩ := (hrel.threads t).owned howns
    simp [hnd]

/-- A pop deletes the only node, and nothing is live. -/
theorem nodes_accounted_zero : ∃ s log, (system Bool ℕ).Run s log ∧ ∀ n, s.heap n = none := by
  obtain ⟨s, log, hrun, hlog⟩ := exists_run_of_exec (system Bool ℕ) (fun _ _ => True) zeroRun
    (fun s log => decide (fetches log < 2 ^ 64 ∧ s.top.node = none ∧ ∀ t, (s.pc t).owns = none))
    (by decide)
  obtain ⟨hbound, htop, hidle⟩ := of_decide_eq_true hlog
  obtain ⟨nodes, hchain, -, hlive, -⟩ := nodes_accounted hrun hbound
  have hnil : nodes = [] := List.head?_eq_none_iff.mp (htop ▸ hchain.head_eq).symm
  refine ⟨s, log, hrun, fun n => ?_⟩
  rw [← Option.not_isSome_iff_eq_none, hlive, hnil]
  simp [hidle]

section Stale
variable {n : Addr} {tag : BitVec 64}

/-- The phases of `pop` between the emptiness test and the exchange. -/
def Pc.reading (n : Addr) (tag : BitVec 64) : Pc Addr → Prop
  | .popNext n' tag' | .popFetch n' tag' _ | .popCas n' tag' _ _ => n' = n ∧ tag' = tag
  | _ => False

omit [DecidableEq Addr] in
theorem Pc.reading.oldTop {p : Pc Addr} (h : p.reading n tag) : p.oldTop = some ⟨some n, tag⟩ := by
  cases p <;> simp_all [Pc.reading, Pc.oldTop]

omit [DecidableEq Addr] in
/-- A pair that `top` has held and holds no more is never in `top` again. -/
theorem TagInv.never_again {tp : TaggedPointer Addr} (h : TagInv s log)
    (h' : TagInv s' (log ++ evs)) (hstored : tp ∈ stores log) (hne : s.top ≠ tp) :
    s'.top ≠ tp := by
  intro heq
  have hnodup := h'.stores_nodup
  have hlast := h'.top
  rw [stores_append] at hnodup hlast
  by_cases hnil : swaps evs = []
  · rw [hnil, List.append_nil, h.top] at hlast
    exact hne ((Option.some.inj hlast).trans heq)
  · rw [List.getLast?_append_of_ne_nil _ hnil] at hlast
    exact (List.nodup_append.mp hnodup).2.2 _ hstored _ (List.mem_of_getLast? hlast) heq.symm

/-- A `pop` whose snapshot is out of date keeps it until the exchange. -/
theorem reading_step {t' : Tid} (hs : Step s t' s' evs) (hp : (s.pc t).reading n tag)
    (hne : s.top ≠ ⟨some n, tag⟩) (hsame : .snapshot t ∉ evs) : (s'.pc t).reading n tag := by
  by_cases ht : t = t'
  · subst ht
    cases hs with
    | popNext hpc | popFetch hpc =>
      rw [hpc] at hp
      simpa [State.goto, Pc.reading] using hp
    | popped hpc htop =>
      rw [hpc] at hp
      obtain ⟨rfl, rfl⟩ := hp
      exact absurd htop hne
    | popRetry hpc => simp at hsame
    | callPush hpc | callPop hpc | alloc hpc | pushLoad hpc | pushLink hpc | pushFetch hpc
    | pushed hpc | pushRetry hpc | popLoad hpc | popReload hpc | popEmpty hpc | popTest hpc
    | popKey hpc | popDelete hpc =>
      rw [hpc] at hp
      exact hp.elim
  · rw [hs.pc_of_ne ht]
    exact hp

end Stale

/-- Thread 1 reads from the node that thread 2 has deleted, and thread 0 pushes another at its
address. -/
def danglingRun : List (Act ℕ ℕ) :=
  [.readNext 1 (some 7), .run 1] ++ (reuseRun.drop 21).take 6

end LockFreeStack
