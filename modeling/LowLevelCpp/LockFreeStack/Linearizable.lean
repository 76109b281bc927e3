import LowLevelCpp.Foundations.Path
import LowLevelCpp.LockFreeStack.Lifo
import LowLevelCpp.LockFreeStack.Tags

/-! Linearizability of the lock-free stack: the history of every run is accepted by the
atomic last-in first-out store, whose contents are the chain of nodes from `top`. -/
namespace LockFreeStack
open Foundations Foundations.System

variable {Tid Addr : Type}

/-- The `next` link of a live node. -/
def State.link (s : State Tid Addr) (n : Addr) : Option Addr := (s.heap n).bind Node.next

/-- The node that only this thread may write or delete: one not yet published, or one
already taken off the stack. -/
def Pc.owns : Pc Addr → Option Addr
  | .pushLoad _ n | .pushLink _ n _ | .pushFetch _ n _ | .pushCas _ n _ _ | .popKey n
  | .popDelete n _ => some n
  | _ => none

variable [DecidableEq Tid]

/-- What a thread may rely on between its steps. A pop trusts the `next` it has read only
while `top` is still its snapshot. -/
def ThreadOk (s : State Tid Addr) (a : Lifo Tid Addr) (t : Tid) : Pc Addr → Prop
  | .pushLoad key n | .pushLink key n _ =>
    n ∉ a.nodes ∧ (∃ next, s.heap n = some ⟨key, next⟩) ∧ a.heldBy t = none
  | .pushFetch key n old | .pushCas key n old _ =>
    n ∉ a.nodes ∧ s.heap n = some ⟨key, old.node⟩ ∧ a.heldBy t = none
  | .popFetch n oldTag next | .popCas n oldTag next _ =>
    (s.top = ⟨some n, oldTag⟩ → s.link n = next) ∧ a.heldBy t = none
  | .popKey n =>
    n ∉ a.nodes ∧ ∃ e next, a.heldBy t = some e ∧ e.node = n ∧ s.heap n = some ⟨e.key, next⟩
  | .popDelete n key =>
    n ∉ a.nodes ∧ ∃ e next, a.heldBy t = some e ∧ e.key = key ∧ s.heap n = some ⟨key, next⟩
  | _ => a.heldBy t = none

/-- The abstraction relation: the nodes from `top` are the abstract stack. -/
structure Abstracts (s : State Tid Addr) (a : Lifo Tid Addr) : Prop where
  chain : Path s.link s.top.node a.nodes none
  cells : ∀ e ∈ a.stack, ∃ next, s.heap e.node = some ⟨e.key, next⟩
  threads : ∀ t, ThreadOk s a t (s.pc t)
  owners : ∀ t t' n, (s.pc t).owns = some n → (s.pc t').owns = some n → t = t'

section Frame
variable {s s' : State Tid Addr} {a a' : Lifo Tid Addr} {t : Tid} {p : Pc Addr}

theorem ThreadOk.owned (h : ThreadOk s a t p) {n : Addr} (hn : p.owns = some n) :
    n ∉ a.nodes ∧ ∃ nd, s.heap n = some nd := by
  cases p <;> simp only [Pc.owns, reduceCtorEq, Option.some.injEq] at hn <;> subst hn
  · exact ⟨h.1, h.2.1.imp' _ fun _ hx => hx⟩
  · exact ⟨h.1, h.2.1.imp' _ fun _ hx => hx⟩
  · exact ⟨h.1, _, h.2.1⟩
  · exact ⟨h.1, _, h.2.1⟩
  · obtain ⟨h₁, e, next, -, -, hx⟩ := h
    exact ⟨h₁, _, hx⟩
  · obtain ⟨h₁, e, next, -, -, hx⟩ := h
    exact ⟨h₁, _, hx⟩

/-- A step of another thread: it leaves the nodes that this thread owns alone, puts none
of them on the stack, and keeps the link under an unchanged snapshot. -/
theorem ThreadOk.frame (h : ThreadOk s a t p)
    (hnodes : ∀ n, p.owns = some n → n ∉ a'.nodes)
    (hheap : ∀ n, p.owns = some n → s'.heap n = s.heap n)
    (hheld : a'.heldBy t = a.heldBy t)
    (htop : ∀ n tag, p.oldTop = some ⟨some n, tag⟩ → s'.top = ⟨some n, tag⟩ →
      s.top = ⟨some n, tag⟩ ∧ s'.link n = s.link n) : ThreadOk s' a' t p := by
  cases p with
  | idle | pushNew | popLoad | popReload | popTest | popNext => exact hheld.trans h
  | pushLoad key n | pushLink key n old =>
    exact ⟨hnodes n rfl, by rw [hheap n rfl]; exact h.2.1, hheld.trans h.2.2⟩
  | pushFetch key n old | pushCas key n old tag =>
    exact ⟨hnodes n rfl, by rw [hheap n rfl]; exact h.2.1, hheld.trans h.2.2⟩
  | popFetch n oldTag next | popCas n oldTag next tag =>
    refine ⟨fun heq => ?_, hheld.trans h.2⟩
    obtain ⟨hold, hlink⟩ := htop n oldTag rfl heq
    exact hlink.trans (h.1 hold)
  | popKey n =>
    refine ⟨hnodes n rfl, ?_⟩
    rw [hheap n rfl, hheld]
    exact h.2
  | popDelete n key =>
    refine ⟨hnodes n rfl, ?_⟩
    rw [hheap n rfl, hheld]
    exact h.2

/-- A step of thread `t`, put together from the four parts of the relation. -/
theorem Abstracts.assemble (h : Abstracts s a) (hpc : s'.pc = Function.update s.pc t p)
    (hchain : Path s'.link s'.top.node a'.nodes none)
    (hcells : ∀ e ∈ a'.stack, ∃ next, s'.heap e.node = some ⟨e.key, next⟩)
    (hself : ThreadOk s' a' t p) (hothers : ∀ t', t' ≠ t → ThreadOk s' a' t' (s.pc t'))
    (howns : ∀ n, p.owns = some n → ∀ t', t' ≠ t → (s.pc t').owns ≠ some n) :
    Abstracts s' a' := by
  refine ⟨hchain, hcells, fun t' => ?_, fun t₁ t₂ n h₁ h₂ => ?_⟩
  · by_cases ht : t' = t
    · subst ht
      rw [hpc, Function.update_self]
      exact hself
    · rw [hpc, Function.update_of_ne ht]
      exact hothers t' ht
  · rw [hpc] at h₁ h₂
    by_cases ht₁ : t₁ = t <;> by_cases ht₂ : t₂ = t
    · rw [ht₁, ht₂]
    · subst ht₁
      rw [Function.update_self] at h₁
      rw [Function.update_of_ne ht₂] at h₂
      exact absurd h₂ (howns n h₁ t₂ ht₂)
    · subst ht₂
      rw [Function.update_self] at h₂
      rw [Function.update_of_ne ht₁] at h₁
      exact absurd h₁ (howns n h₂ t₁ ht₁)
    · rw [Function.update_of_ne ht₁] at h₁
      rw [Function.update_of_ne ht₂] at h₂
      exact h.owners t₁ t₂ n h₁ h₂

/-- A step that touches no shared memory. -/
theorem Abstracts.goto (h : Abstracts s a) (hp : ThreadOk s a t p)
    (howns : ∀ n, p.owns = some n → (s.pc t).owns = some n) : Abstracts (s.goto t p) a :=
  h.assemble rfl h.chain h.cells hp (fun t' _ => h.threads t') fun n hn t' ht hn' =>
    ht (h.owners t' t n hn' (howns n hn))

theorem Abstracts.fetchAdd (h : Abstracts s a) : Abstracts s.fetchAdd a :=
  ⟨h.chain, h.cells, h.threads, h.owners⟩

/-- A step that writes, allocates or deletes one node off the stack that no other thread
owns. -/
theorem Abstracts.write (h : Abstracts s a) {n : Addr} (hpc : s'.pc = Function.update s.pc t p)
    (htop : s'.top = s.top) (hheap : ∀ m, m ≠ n → s'.heap m = s.heap m)
    (hstack : a'.stack = a.stack) (hheld : ∀ t', t' ≠ t → a'.heldBy t' = a.heldBy t')
    (hoff : n ∉ a.nodes) (howner : ∀ t', t' ≠ t → (s.pc t').owns ≠ some n)
    (hself : ThreadOk s' a' t p) (howns : ∀ m, p.owns = some m → m = n) : Abstracts s' a' := by
  have hnodes : a'.nodes = a.nodes := congrArg (List.map Elem.node) hstack
  have hlink (m : Addr) (hm : m ≠ n) : s'.link m = s.link m := by
    simp only [State.link, hheap m hm]
  have hne {m : Addr} (hm : m ∈ a.nodes) : m ≠ n := fun he => hoff (he ▸ hm)
  refine h.assemble hpc ?_ ?_ hself (fun t' ht => ?_) fun m hm t' ht => ?_
  · rw [htop, hnodes]
    exact h.chain.congr fun m hm => hlink m (hne hm)
  · intro e he
    rw [hstack] at he
    rw [hheap e.node (hne (List.mem_map_of_mem he))]
    exact h.cells e he
  · refine (h.threads t').frame (fun m hm => ?_) (fun m hm => ?_) (hheld t' ht) ?_
    · rw [hnodes]
      exact ((h.threads t').owned hm).1
    · exact hheap m fun he => howner t' ht (he ▸ hm)
    · intro m tag _ htop'
      rw [htop] at htop'
      have hm : m ∈ a.nodes := by
        have hhead := h.chain.head_eq
        rw [htop'] at hhead
        exact List.mem_of_head? hhead.symm
      exact ⟨htop', hlink m (hne hm)⟩
  · rw [howns m hm]
    exact howner t' ht

/-- The node under `top` is live and is the newest element. -/
theorem Abstracts.newest (h : Abstracts s a) {n : Addr} (htop : s.top.node = some n) :
    ∃ e rest next, a.stack = e :: rest ∧ e.node = n ∧ s.heap n = some ⟨e.key, next⟩ := by
  have hhead := h.chain.head_eq
  rw [htop] at hhead
  obtain ⟨e, he, hn⟩ := Option.map_eq_some_iff.mp (by simpa [Lifo.nodes] using hhead.symm)
  obtain ⟨rest, hstack⟩ := List.head?_eq_some_iff.mp he
  obtain ⟨next, hcell⟩ := h.cells e (by simp [hstack])
  exact ⟨e, rest, next, hstack, hn, hn ▸ hcell⟩

/-- Another thread's snapshot is never the pair that has just been stored. -/
theorem TagInv.snapshot_ne_new {log : List (Event Tid Addr)} {e : Event Tid Addr}
    {tp : TaggedPointer Addr} (h : TagInv s' (log ++ [e])) (he : e.stored? = some tp)
    (hsnap : ∀ t', e.isSnapshotOf t' = false) (t' : Tid) : (s'.pc t').oldTop ≠ some s'.top := by
  intro hold
  have hnil := h.no_swap_since hold
  simp [hsnap t', he] at hnil

end Frame

section Step
variable {s s' : State Tid Addr} {a a' : Lifo Tid Addr} {t : Tid}
  {log evs : List (Event Tid Addr)}

theorem Abstracts.pushed (h : Abstracts s a) {key : ℤ} {n : Addr} {tag : BitVec 64}
    (hpc : s.pc t = .pushCas key n s.top tag)
    (htag : TagInv ((s.setTop ⟨some n, tag⟩).goto t .idle) (log ++ [.pushed t n key tag])) :
    Abstracts ((s.setTop ⟨some n, tag⟩).goto t .idle)
      { a with pushes := a.pushes + 1, stack := ⟨a.pushes, n, key⟩ :: a.stack } := by
  have hok := h.threads t
  rw [hpc] at hok
  obtain ⟨hoff, hcell, hheld⟩ := hok
  have howner (t' : Tid) (ht : t' ≠ t) : (s.pc t').owns ≠ some n := fun hn =>
    ht (h.owners t' t n hn (by rw [hpc]; rfl))
  refine h.assemble rfl ?_ ?_ hheld (fun t' ht => ?_) (by simp [Pc.owns])
  · refine ⟨rfl, ?_⟩
    have hlink : s.link n = s.top.node := by simp [State.link, hcell]
    exact hlink ▸ h.chain
  · intro e he
    rcases List.mem_cons.mp he with rfl | he
    · exact ⟨_, hcell⟩
    · exact h.cells e he
  · refine (h.threads t').frame (fun m hm hmem => ?_) (fun _ _ => rfl) rfl ?_
    · rcases List.mem_cons.mp hmem with rfl | hmem
      · exact howner t' ht hm
      · exact ((h.threads t').owned hm).1 hmem
    · intro m tag' hold htop
      refine absurd ?_ (htag.snapshot_ne_new rfl (fun _ => rfl) t')
      rw [htop]
      simpa [State.goto, State.setTop, Function.update_of_ne ht] using hold

variable [DecidableEq Addr]

theorem Abstracts.popped (h : Abstracts s a) {n : Addr} {oldTag tag : BitVec 64}
    {next : Option Addr} (hpc : s.pc t = .popCas n oldTag next tag)
    (htop : s.top = ⟨some n, oldTag⟩)
    (htag : TagInv ((s.setTop ⟨next, tag⟩).goto t (.popKey n)) (log ++ [.popped t n next tag])) :
    ∃ a', a.accept (.popped t n next tag) = some a' ∧
      Abstracts ((s.setTop ⟨next, tag⟩).goto t (.popKey n)) a' := by
  have hok := h.threads t
  rw [hpc] at hok
  obtain ⟨hnext, hheld⟩ := hok
  obtain ⟨e, rest, nx, hstack, hn, hcell⟩ := h.newest (congrArg TaggedPointer.node htop)
  have hchain := h.chain
  simp only [Lifo.nodes, hstack, List.map_cons, hn] at hchain
  have hnodup := List.nodup_cons.mp hchain.nodup
  refine ⟨{ a with stack := rest, held := (t, e) :: a.held },
    by simp [Lifo.accept, hstack, hn, hheld], ?_⟩
  refine h.assemble rfl ?_ ?_ ?_ (fun t' ht => ?_) (fun m hm t' _ hm' => ?_)
  · exact hnext htop ▸ hchain.2
  · exact fun e' he' => h.cells e' (by rw [hstack]; exact List.mem_cons_of_mem _ he')
  · exact ⟨hnodup.1, e, nx, by simp [Lifo.heldBy], hn, hcell⟩
  · refine (h.threads t').frame (fun m hm hmem => ?_) (fun _ _ => rfl) ?_ ?_
    · apply ((h.threads t').owned hm).1
      simp only [Lifo.nodes, hstack, List.map_cons]
      exact List.mem_cons_of_mem _ hmem
    · simp [Lifo.heldBy, ht.symm]
    · intro m tag' hold htop'
      refine absurd ?_ (htag.snapshot_ne_new rfl (fun _ => rfl) t')
      rw [htop']
      simpa [State.goto, State.setTop, Function.update_of_ne ht] using hold
  · -- a node on the stack is owned by nobody
    obtain rfl : n = m := Option.some.inj hm
    apply ((h.threads t').owned hm').1
    simp [Lifo.nodes, hstack, hn]

theorem Abstracts.popDelete (h : Abstracts s a) {n : Addr} {key : ℤ}
    (hpc : s.pc t = .popDelete n key) :
    ∃ a', a.accept (.returned t key) = some a' ∧ Abstracts ((s.delete n).goto t .idle) a' := by
  have hok := h.threads t
  rw [hpc] at hok
  obtain ⟨hoff, e, next, hheld, hkey, hcell⟩ := hok
  refine ⟨{ a with held := a.held.filter (fun p => p.1 ≠ t), returned := a.returned ++ [e] },
    by simp [Lifo.accept, hheld, hkey], ?_⟩
  refine h.write (n := n) rfl rfl ?_ rfl ?_ hoff ?_ ?_ (by simp [Pc.owns])
  · exact fun m hm => Function.update_of_ne hm _ _
  · intro t' ht
    simp only [Lifo.heldBy, List.find?_filter]
    congr 2
    funext p
    by_cases hp : p.1 = t' <;> simp [hp, ht]
  · exact fun t' ht hn => ht (h.owners t' t n hn (by rw [hpc]; rfl))
  · show Lifo.heldBy _ t = none
    simp [heldBy_eq_none]

/-- One step of the code is at most one step of the atomic store. -/
theorem Abstracts.step (h : Abstracts s a) (hs : Step s t s' evs)
    (htag : TagInv s' (log ++ evs)) :
    ∃ a', lifo.replayFrom a evs = some a' ∧ Abstracts s' a' := by
  have hok := h.threads t
  cases hs with
  | callPush hpc =>
    rw [hpc] at hok
    exact ⟨a, rfl, h.goto hok (by simp [Pc.owns])⟩
  | callPop hpc =>
    rw [hpc] at hok
    exact ⟨a, rfl, h.goto hok (by simp [Pc.owns])⟩
  | @alloc key n hpc hfree =>
    rw [hpc] at hok
    have howner (t' : Tid) : (s.pc t').owns ≠ some n := fun hn => by
      obtain ⟨-, nd, hnd⟩ := (h.threads t').owned hn
      simp [hfree] at hnd
    have hoff : n ∉ a.nodes := fun hmem => by
      obtain ⟨e, he, rfl⟩ := List.mem_map.mp hmem
      obtain ⟨next, hcell⟩ := h.cells e he
      simp [hfree] at hcell
    refine ⟨a, rfl, h.write (n := n) rfl rfl ?_ rfl (fun _ _ => rfl) hoff (fun t' _ => howner t')
      ⟨hoff, ⟨none, by simp [State.goto, State.alloc]⟩, hok⟩ (by simp [Pc.owns])⟩
    exact fun m hm => Function.update_of_ne hm _ _
  | pushLoad hpc =>
    rw [hpc] at hok
    exact ⟨a, rfl, h.goto hok (by simp [hpc, Pc.owns])⟩
  | @pushLink key n old hpc =>
    rw [hpc] at hok
    obtain ⟨hoff, ⟨next, hcell⟩, hheld⟩ := hok
    refine ⟨a, rfl, h.write (n := n) rfl rfl ?_ rfl (fun _ _ => rfl) hoff ?_
      ⟨hoff, by simp [State.goto, State.storeNext, hcell], hheld⟩ (by simp [Pc.owns])⟩
    · exact fun m hm => Function.update_of_ne hm _ _
    · exact fun t' ht hn => ht (h.owners t' t n hn (by rw [hpc]; rfl))
  | pushFetch hpc =>
    rw [hpc] at hok
    exact ⟨a, rfl, h.fetchAdd.goto hok (by simp [State.fetchAdd, hpc, Pc.owns])⟩
  | pushed hpc => exact ⟨_, rfl, h.pushed hpc htag⟩
  | pushRetry hpc =>
    rw [hpc] at hok
    exact ⟨a, rfl, h.goto ⟨hok.1, ⟨_, hok.2.1⟩, hok.2.2⟩ (by simp [hpc, Pc.owns])⟩
  | popLoad hpc =>
    rw [hpc] at hok
    exact ⟨a, rfl, h.goto hok (by simp [Pc.owns])⟩
  | popReload hpc =>
    rw [hpc] at hok
    exact ⟨a, rfl, h.goto hok (by simp [Pc.owns])⟩
  | popEmpty hpc =>
    rw [hpc] at hok
    exact ⟨a, rfl, h.goto hok (by simp [Pc.owns])⟩
  | popTest hpc =>
    rw [hpc] at hok
    exact ⟨a, rfl, h.goto hok (by simp [Pc.owns])⟩
  | @popNext n tag garbage hpc =>
    rw [hpc] at hok
    refine ⟨a, rfl, h.goto ⟨fun htop => ?_, hok⟩ (by simp [Pc.owns])⟩
    -- while `top` is the snapshot the node is live, and the read is not garbage
    obtain ⟨e, rest, next, -, -, hcell⟩ := h.newest (congrArg TaggedPointer.node htop)
    simp [State.link, State.loadNext, hcell]
  | popFetch hpc =>
    rw [hpc] at hok
    exact ⟨a, rfl, h.fetchAdd.goto hok (by simp [Pc.owns])⟩
  | popped hpc htop =>
    obtain ⟨a', ha', hrel⟩ := h.popped hpc htop htag
    exact ⟨a', by simp [lifo, ha'], hrel⟩
  | popRetry hpc =>
    rw [hpc] at hok
    exact ⟨a, rfl, h.goto hok.2 (by simp [Pc.owns])⟩
  | @popKey n garbage hpc =>
    rw [hpc] at hok
    obtain ⟨hoff, e, next, hheld, hn, hcell⟩ := hok
    refine ⟨a, rfl, h.goto ⟨hoff, e, next, hheld, ?_, ?_⟩ (by simp [hpc, Pc.owns])⟩
    · simp [State.loadKey, hcell]
    · simp [State.loadKey, hcell]
  | popDelete hpc =>
    obtain ⟨a', ha', hrel⟩ := h.popDelete hpc
    exact ⟨a', by simp [lifo, ha'], hrel⟩

/-- The abstract stack was empty at some moment since the latest call by thread `t`. -/
def SawEmpty (t : Tid) (log : List (Event Tid Addr)) : Prop :=
  ∃ before since a, log = before ++ since ∧ .called t ∈ before ∧ .called t ∉ since ∧
    lifo.replay before = some a ∧ a.stack = []

theorem SawEmpty.append (h : SawEmpty t log) (hevs : .called t ∉ evs) :
    SawEmpty t (log ++ evs) := by
  obtain ⟨before, since, a, rfl, hcall, hsince, hreplay, hstack⟩ := h
  refine ⟨before, since ++ evs, a, List.append_assoc _ _ _, hcall, ?_, hreplay, hstack⟩
  simp [hsince, hevs]

/-- A thread in a call has announced it, and one whose snapshot is null has seen the
stack empty during the call. -/
structure EmptyInv (s : State Tid Addr) (log : List (Event Tid Addr)) : Prop where
  called : ∀ t, s.pc t ≠ .idle → .called t ∈ log
  null : ∀ t tag, s.pc t = .popReload ⟨none, tag⟩ ∨ s.pc t = .popTest ⟨none, tag⟩ →
    SawEmpty t log

theorem EmptyInv.goto (h : EmptyInv s log) {p : Pc Addr} (hpc : s'.pc = Function.update s.pc t p)
    (hevs : ∀ t', t' ≠ t → .called t' ∉ evs) (hcalled : p ≠ .idle → .called t ∈ log ++ evs)
    (hnull : ∀ tag, p = .popReload ⟨none, tag⟩ ∨ p = .popTest ⟨none, tag⟩ →
      SawEmpty t (log ++ evs)) : EmptyInv s' (log ++ evs) := by
  constructor
  · intro t' hne
    by_cases ht : t' = t
    · subst ht
      exact hcalled (by simpa [hpc] using hne)
    · rw [hpc, Function.update_of_ne ht] at hne
      exact List.mem_append_left _ (h.called t' hne)
  · intro t' tag hp
    by_cases ht : t' = t
    · subst ht
      exact hnull tag (by simpa [hpc] using hp)
    · rw [hpc, Function.update_of_ne ht] at hp
      exact (h.null t' tag hp).append (hevs t' ht)

omit [DecidableEq Addr] in
/-- A null `top` is an empty abstract stack. -/
theorem Abstracts.stack_eq_nil (h : Abstracts s a) (htop : s.top.node = none) : a.stack = [] := by
  have hhead := h.chain.head_eq
  rw [htop] at hhead
  simpa [Lifo.nodes] using hhead.symm

theorem EmptyInv.step (h : EmptyInv s log) (hs : Step s t s' evs)
    (hreplay : lifo.replay log = some a) (hrel : Abstracts s a) : EmptyInv s' (log ++ evs) := by
  have hcall {p : Pc Addr} (hpc : s.pc t = p) (hne : p ≠ .idle) : .called t ∈ log :=
    h.called t (hpc ▸ hne)
  -- a snapshot of a null `top` is a moment at which the stack is empty
  have hsaw (hin : .called t ∈ log) (htop : s.top.node = none) :
      SawEmpty t (log ++ [.snapshot t]) :=
    ⟨log, [.snapshot t], a, rfl, hin, by simp, hreplay, hrel.stack_eq_nil htop⟩
  cases hs with
  | callPush hpc => exact h.goto rfl (fun t' ht => by simp [ht]) (by simp) (by simp)
  | callPop hpc => exact h.goto rfl (fun t' ht => by simp [ht]) (by simp) (by simp)
  | alloc hpc => exact h.goto rfl (by simp) (by simp [hcall hpc]) (by simp)
  | pushLoad hpc => exact h.goto rfl (by simp) (by simp [hcall hpc]) (by simp)
  | pushLink hpc => exact h.goto rfl (by simp) (by simp [hcall hpc]) (by simp)
  | pushFetch hpc => exact h.goto rfl (by simp) (by simp [hcall hpc]) (by simp)
  | pushed hpc => exact h.goto rfl (by simp) (by simp) (by simp)
  | pushRetry hpc => exact h.goto rfl (by simp) (by simp [hcall hpc]) (by simp)
  | popLoad hpc =>
    refine h.goto rfl (by simp) (by simp [hcall hpc]) fun tag hp => ?_
    simp only [Pc.popReload.injEq, reduceCtorEq, or_false] at hp
    exact hsaw (hcall hpc (by simp)) (by rw [hp])
  | popReload hpc =>
    refine h.goto rfl (by simp) (by simp [hcall hpc]) fun tag hp => ?_
    simp only [Pc.popTest.injEq, reduceCtorEq, false_or] at hp
    subst hp
    exact (h.null t tag (.inl hpc)).append (by simp)
  | popEmpty hpc => exact h.goto rfl (by simp) (by simp) (by simp)
  | popTest hpc => exact h.goto rfl (by simp) (by simp [hcall hpc]) (by simp)
  | popNext hpc => exact h.goto rfl (by simp) (by simp [hcall hpc]) (by simp)
  | popFetch hpc => exact h.goto rfl (by simp) (by simp [hcall hpc]) (by simp)
  | popped hpc => exact h.goto rfl (by simp) (by simp [hcall hpc]) (by simp)
  | popRetry hpc =>
    refine h.goto rfl (by simp) (by simp [hcall hpc]) fun tag hp => ?_
    simp only [Pc.popTest.injEq, reduceCtorEq, false_or] at hp
    exact hsaw (hcall hpc (by simp)) (by rw [hp])
  | popKey hpc => exact h.goto rfl (by simp) (by simp [hcall hpc]) (by simp)
  | popDelete hpc => exact h.goto rfl (by simp) (by simp) (by simp)

/-- Every empty exit in the history is justified by a moment of its own call. -/
def EmptyJustified (log : List (Event Tid Addr)) : Prop :=
  AtEach (fun pre e => ∀ t, e = .empty t → SawEmpty t pre) log

theorem EmptyInv.justified (h : EmptyInv s log) (hs : Step s t s' evs)
    (hj : EmptyJustified log) : EmptyJustified (log ++ evs) := by
  cases hs with
  | popEmpty hpc =>
    refine hj.concat fun t' he => ?_
    obtain rfl := Event.empty.inj he
    exact h.null _ _ (.inr hpc)
  | alloc | pushLink | popReload | popTest | popNext | popKey =>
    rw [List.append_nil]
    exact hj
  | _ => exact hj.concat (by simp)

end Step

variable [DecidableEq Addr]

theorem abstracts_initial :
    Abstracts (initial : State Tid Addr) (lifo : Spec (Lifo Tid Addr) _).init :=
  ⟨rfl, by simp [lifo], fun _ => rfl, by simp [initial, Pc.owns]⟩

theorem abstracts_of_run {s : State Tid Addr} {log : List (Event Tid Addr)}
    (hrun : (system Tid Addr).Run s log) : fetches log < 2 ^ 64 →
      (∃ a, lifo.replay log = some a ∧ Abstracts s a) ∧ EmptyInv s log ∧ EmptyJustified log := by
  refine hrun.invariant (I := fun s log => fetches log < 2 ^ 64 →
    (∃ a, lifo.replay log = some a ∧ Abstracts s a) ∧ EmptyInv s log ∧ EmptyJustified log) ?_ ?_
  · intro _
    refine ⟨⟨lifo.init, rfl, abstracts_initial⟩, ⟨?_, ?_⟩, atEach_nil _⟩ <;>
      simp [system, initial]
  · intro s log act s' evs hr ih _ hs hbound
    have hprefix : fetches log < 2 ^ 64 := by
      rw [fetches_append] at hbound
      omega
    have hstep := step_cases hs
    have htag := (tagInv_of_run hr hprefix).step hstep hbound
    obtain ⟨⟨a, hreplay, hrel⟩, hempty, hj⟩ := ih hprefix
    obtain ⟨a', ha', hrel'⟩ := hrel.step hstep htag
    refine ⟨⟨a', ?_, hrel'⟩, hempty.step hstep hreplay hrel, hempty.justified hstep hj⟩
    rw [lifo.replay_append hreplay, ha']

/-- Linearizability. The history of every run with fewer than `2 ^ 64` draws of a tag is
one of the atomic store, in which a pop takes the newest element and returns its key; the
chain from `top` is the store's contents; every pushed element is on the stack, held by
one pop or returned by one pop; and a pop reports empty only when the stack was empty at
some moment of its call. -/
theorem stack_linearizable {s : State Tid Addr} {log : List (Event Tid Addr)}
    (hrun : (system Tid Addr).Run s log) (hbound : fetches log < 2 ^ 64) :
    ∃ a, lifo.replay log = some a ∧
      Path s.link s.top.node (a.stack.map Elem.node) none ∧
      (∀ e ∈ a.stack, ∃ next, s.heap e.node = some ⟨e.key, next⟩) ∧
      (pushedElems log).Perm (a.stack ++ a.held.map Prod.snd ++ a.returned) ∧
      (pushedElems log).Nodup ∧ EmptyJustified log := by
  obtain ⟨⟨a, hreplay, hrel⟩, -, hj⟩ := abstracts_of_run hrun hbound
  exact ⟨a, hreplay, hrel.chain, hrel.cells, (lifo_conserved hreplay).elems,
    pushedElems_nodup log, hj⟩

/-- The reused-address run, in which the slow pop ends up with the second element. -/
theorem stack_linearizable_reuse : ∃ s log, (system ℕ ℕ).Run s log ∧
    .returned 1 8 ∈ log ∧ .returned 2 7 ∈ log ∧ EmptyJustified log := by
  obtain ⟨s, log, hrun, hlog⟩ := exists_run_of_exec (system ℕ ℕ) (fun _ _ => True) reuseRun
    (fun _ log => decide (fetches log < 2 ^ 64 ∧ .returned 1 8 ∈ log ∧ .returned 2 7 ∈ log))
    (by decide)
  obtain ⟨hbound, h₁, h₂⟩ := of_decide_eq_true hlog
  obtain ⟨-, -, -, -, -, -, h⟩ := stack_linearizable hrun hbound
  exact ⟨s, log, hrun, h₁, h₂, h⟩

end LockFreeStack
