import LowLevelCpp.Foundations.Mutator
import LowLevelCpp.MarkSweep.Runs

/-!
Programs that use the collector. A program that tracks the nodes it creates, and holds only pointers
that the roots reach when it collects, cannot tell a heap with collections from a memory that never
runs out: all its operations have the same answers, whenever it collects, in whatever order the
sweep visits the objects and wherever new nodes are put. A variable that is not used again counts
as null.
-/
namespace MarkSweep
open Foundations Foundations.System

variable {V Addr : Type}

/-- The collector and the variables of the program around it. -/
structure Program (V Addr : Type) where
  state : State Addr
  vars : V → Option Addr

namespace Program

/-- What the program has of the heap. -/
def memory (p : Program V Addr) : Memory V Addr where
  vars := p.vars
  roots := p.state.roots
  references := fun a => (p.state.heap.obj a).references

def tracked (p : Program V Addr) : Set Addr := {a | a ∈ p.state.objects}

/-- Every pointer in a variable is one that the roots reach. -/
def Rooted (p : Program V Addr) : Prop := ∀ x a, p.vars x = some a → p.state.Reachable a

variable [DecidableEq V] [DecidableEq Addr]

/-- A step of the collector on behalf of the program. -/
def call (p : Program V Addr) (act : Act Addr) : Option (Program V Addr) :=
  (step p.state act).map fun r => { p with state := r.1 }

def assign (p : Program V Addr) (x : V) (q : Option Addr) : Program V Addr :=
  { p with vars := Function.update p.vars x q }

/-- An operation of the program; `new` puts a node at `a`, and the node is tracked at once. -/
def execute (p : Program V Addr) (a : Addr) : Op V → Option (Program V Addr × ℕ)
  | .node x =>
    (p.call (.create a)).bind fun p => (p.call (.track (some a))).map fun p =>
      (p.assign x (some a), 0)
  | .null x => some (p.assign x none, 0)
  | .copy x y => some (p.assign x (p.vars y), 0)
  | .same x y => some (p, if p.vars x = p.vars y then 1 else 0)
  | .size x =>
    (p.state.heap.deref (p.vars x)).toOption.map fun b =>
      (p, (p.state.heap.obj b).references.length)
  | .follow x y i =>
    (p.state.heap.deref (p.vars y)).toOption.bind fun b =>
      (p.state.heap.obj b).references[i]?.map fun q => (p.assign x q, 0)
  | .push x y =>
    (p.state.heap.deref (p.vars x)).toOption.bind fun b => (p.vars y).bind fun c =>
      (p.call (.setReferences (p.vars x) ((p.state.heap.obj b).references ++ [some c]))).map
        fun p => (p, 0)
  | .clear x => (p.call (.setReferences (p.vars x) [])).map fun p => (p, 0)
  | .addRoot x => (p.call (.addRoot (p.vars x))).map fun p => (p, 0)
  | .clearRoots => (p.call (.setRoots [])).map fun p => (p, 0)
  | .root x i => p.state.roots[i]?.map fun q => (p.assign x q, 0)

/-- What the program does, and where the allocator puts a node if it makes one; or a collection. -/
inductive Act (V Addr : Type) where
  | op (o : Op V) (a : Addr)
  | collect (order : List Addr)

/-- The events are the operations with their answers. -/
def system (V Addr : Type) [DecidableEq V] [DecidableEq Addr] :
    System (Program V Addr) (Act V Addr) (Op V × ℕ) where
  init := ⟨initial, fun _ => none⟩
  step p
    | .op o a =>
      if a ∈ p.state.heap.live then none
      else (p.execute a o).map fun r => (r.1, [(o, r.2)])
    | .collect order => (p.call (.collect order)).map fun p => (p, [])

end Program

section Steps
variable [DecidableEq Addr] {p p' : Program V Addr} {act : Act Addr} {a b : Addr}
  {o : Op V} {m₁ : Memory V Addr} {O : Set Addr} {ans : ℕ}

/-- A call that is not a collection leaves the collector clean. -/
theorem Clean.call (h : Clean p.state) (hact : ∀ order, act ≠ .collect order)
    (hp : p.call act = some p') : Clean p'.state := by
  obtain ⟨⟨s', out⟩, hs, rfl⟩ := Option.map_eq_some_iff.mp hp
  exact h.step (fun order horder => absurd horder (hact order)) hs

theorem deref_toOption {h : Heap Addr} (hb : b ∈ h.live) :
    (h.deref (some b)).toOption = some b := by
  rw [deref_of_live hb]
  rfl

/-- The program after an operation: its memory, and the objects that are tracked. -/
structure Executes (p' : Program V Addr) (m₁ : Memory V Addr) (O : Set Addr) : Prop where
  memory : p'.memory = m₁
  clean : Clean p'.state
  tracked : p'.tracked = O

theorem call_setReferences (hclean : Clean p.state) (hb : b ∈ p.state.heap.live)
    (refs : List (Option Addr)) :
    ∃ p', p.call (.setReferences (some b) refs) = some p' ∧
      Executes p' (p.memory.setReferences b refs) p.tracked := by
  have hcall : p.call (.setReferences (some b) refs) =
      some { p with state := { p.state with heap := p.state.heap.setReferences b refs } } := by
    simp [Program.call, step, deref_toOption hb]
  refine ⟨_, hcall, ?_, hclean.call (by simp) hcall, rfl⟩
  simp only [Program.memory, Memory.setReferences, Memory.mk.injEq, true_and]
  funext c
  by_cases hcb : c = b
  · subst hcb
    simp [Heap.setReferences]
  · simp [Heap.setReferences, hcb]

variable [DecidableEq V] {x : V} {q : Option Addr}

omit [DecidableEq Addr] in
theorem Executes.assign (h : Executes p m₁ O) : Executes (p.assign x q) (m₁.setVar x q) O := by
  obtain ⟨rfl, hclean, rfl⟩ := h
  exact ⟨rfl, hclean, rfl⟩

omit [DecidableEq V] in
theorem call_node (hclean : Clean p.state) (ha : a ∉ p.state.heap.live) :
    ∃ p₁ p₂, p.call (.create a) = some p₁ ∧ p₁.call (.track (some a)) = some p₂ ∧
      Executes p₂ (p.memory.setReferences a []) (insert a p.tracked) := by
  have hcreate : p.call (.create a) =
      some { p with state := { p.state with heap := p.state.heap.create a } } := by
    simp [Program.call, step, ha]
  have hclean₁ := hclean.call (by simp) hcreate
  have htrack : Program.call { p with state := { p.state with heap := p.state.heap.create a } }
      (.track (some a)) = some { p with
        state.heap := p.state.heap.create a
        state.objects := insert a p.state.objects } := by
    simp [Program.call, step, track, Heap.deref, Heap.create, Except.toOption, bind, Except.bind,
      pure, Except.pure]
  refine ⟨_, _, hcreate, htrack, ?_, hclean₁.call (by simp) htrack, ?_⟩
  · simp only [Program.memory, Memory.setReferences, Memory.mk.injEq, true_and]
    funext c
    by_cases hca : c = a
    · subst hca
      simp [Heap.create]
    · simp [Heap.create, hca]
  · ext c
    simp [Program.tracked]

omit [DecidableEq V] in
theorem call_addRoot (hclean : Clean p.state) (hb : b ∈ p.state.heap.live) :
    ∃ p', p.call (.addRoot (some b)) = some p' ∧
      Executes p' { p.memory with roots := p.memory.roots ++ [some b] } p.tracked := by
  have hcall : p.call (.addRoot (some b)) =
      some { p with state := { p.state with roots := p.state.roots ++ [some b] } } := by
    simp [Program.call, step, addRoot, deref_of_live hb, Except.toOption, bind, Except.bind,
      pure, Except.pure]
  exact ⟨_, hcall, rfl, hclean.call (by simp) hcall, rfl⟩

/-- An operation that memory allows finds what it needs in the heap. -/
theorem execute_of_perform (hclean : Clean p.state) (hw : p.memory.Within p.tracked)
    (ha : a ∉ p.state.heap.live) (hm : p.memory.perform a o = some (m₁, ans)) :
    ∃ p', p.execute a o = some (p', ans) ∧ Executes p' m₁ (o.grow a p.tracked) := by
  have hself : Executes p p.memory p.tracked := ⟨rfl, hclean, rfl⟩
  have hlive : ∀ {x b}, p.vars x = some b → b ∈ p.state.heap.live :=
    fun hx => hclean.live (hw.vars _ _ hx)
  cases o with
  | node x =>
    obtain ⟨rfl, rfl⟩ := Prod.mk.inj (Option.some.inj hm)
    obtain ⟨p₁, p₂, hcreate, htrack, hp₂⟩ := call_node hclean ha
    exact ⟨p₂.assign x (some a), by simp [Program.execute, hcreate, htrack], hp₂.assign⟩
  | null x =>
    obtain ⟨rfl, rfl⟩ := Prod.mk.inj (Option.some.inj hm)
    exact ⟨_, rfl, hself.assign⟩
  | copy x y =>
    obtain ⟨rfl, rfl⟩ := Prod.mk.inj (Option.some.inj hm)
    exact ⟨_, rfl, hself.assign⟩
  | same x y =>
    obtain ⟨rfl, rfl⟩ := Prod.mk.inj (Option.some.inj hm)
    exact ⟨p, rfl, hself⟩
  | size x =>
    obtain ⟨b, hx, hb⟩ := Option.map_eq_some_iff.mp hm
    obtain ⟨rfl, rfl⟩ := Prod.mk.inj hb
    have hx : p.vars x = some b := hx
    refine ⟨p, ?_, hself⟩
    simp [Program.execute, hx, deref_toOption (hlive hx), Program.memory]
  | follow x y i =>
    obtain ⟨b, hy, hb⟩ := Option.bind_eq_some_iff.mp hm
    obtain ⟨q, hq, hr⟩ := Option.map_eq_some_iff.mp hb
    obtain ⟨rfl, rfl⟩ := Prod.mk.inj hr
    have hy : p.vars y = some b := hy
    have hq : (p.state.heap.obj b).references[i]? = some q := hq
    refine ⟨p.assign x q, ?_, hself.assign⟩
    simp [Program.execute, hy, deref_toOption (hlive hy), hq]
  | push x y =>
    obtain ⟨b, hx, hb⟩ := Option.bind_eq_some_iff.mp hm
    obtain ⟨c, hy, hr⟩ := Option.map_eq_some_iff.mp hb
    obtain ⟨rfl, rfl⟩ := Prod.mk.inj hr
    have hx : p.vars x = some b := hx
    have hy : p.vars y = some c := hy
    obtain ⟨p', hcall, hp'⟩ := call_setReferences hclean (hlive hx)
      ((p.state.heap.obj b).references ++ [some c])
    refine ⟨p', ?_, hp'⟩
    simp [Program.execute, hx, hy, deref_toOption (hlive hx), hcall]
  | clear x =>
    obtain ⟨b, hx, hr⟩ := Option.map_eq_some_iff.mp hm
    obtain ⟨rfl, rfl⟩ := Prod.mk.inj hr
    have hx : p.vars x = some b := hx
    obtain ⟨p', hcall, hp'⟩ := call_setReferences hclean (hlive hx) []
    refine ⟨p', ?_, hp'⟩
    simp [Program.execute, hx, hcall]
  | addRoot x =>
    obtain ⟨b, hx, hr⟩ := Option.map_eq_some_iff.mp hm
    obtain ⟨rfl, rfl⟩ := Prod.mk.inj hr
    have hx : p.vars x = some b := hx
    obtain ⟨p', hcall, hp'⟩ := call_addRoot hclean (hlive hx)
    refine ⟨p', ?_, hp'⟩
    simp [Program.execute, hx, hcall]
  | clearRoots =>
    obtain ⟨rfl, rfl⟩ := Prod.mk.inj (Option.some.inj hm)
    have hcall : p.call (.setRoots []) = some { p with state := { p.state with roots := [] } } :=
      rfl
    exact ⟨_, rfl, rfl, hclean.call (by simp) hcall, rfl⟩
  | root x i =>
    obtain ⟨q, hq, hr⟩ := Option.map_eq_some_iff.mp hm
    obtain ⟨rfl, rfl⟩ := Prod.mk.inj hr
    have hq : p.state.roots[i]? = some q := hq
    exact ⟨p.assign x q, by simp [Program.execute, hq], hself.assign⟩

/-- An operation that memory does not allow needs a pointer or a reference that is not there. -/
theorem execute_of_perform_none (hm : p.memory.perform a o = none) : p.execute a o = none := by
  cases o with
  | node | null | copy | same | clearRoots => cases hm
  | size x =>
    have hx : p.vars x = none := Option.map_eq_none_iff.mp hm
    simp [Program.execute, hx, Heap.deref, Except.toOption]
  | clear x =>
    have hx : p.vars x = none := Option.map_eq_none_iff.mp hm
    simp [Program.execute, Program.call, step, hx, Heap.deref, Except.toOption]
  | addRoot x =>
    have hx : p.vars x = none := Option.map_eq_none_iff.mp hm
    simp [Program.execute, Program.call, step, addRoot, hx, Heap.deref, Except.toOption, bind,
      Except.bind]
  | root x i =>
    have hi : p.state.roots[i]? = none := Option.map_eq_none_iff.mp hm
    simp [Program.execute, hi]
  | follow x y i =>
    refine Option.bind_eq_none_iff.mpr fun b hb => ?_
    have hy : p.vars y = some b := (deref_eq_ok (toOption_eq_some hb)).1
    have hi : (p.state.heap.obj b).references[i]? = none :=
      Option.map_eq_none_iff.mp (Option.bind_eq_none_iff.mp hm b hy)
    rw [hi, Option.map_none]
  | push x y =>
    refine Option.bind_eq_none_iff.mpr fun b hb => ?_
    have hx : p.vars x = some b := (deref_eq_ok (toOption_eq_some hb)).1
    have hy : p.vars y = none := Option.map_eq_none_iff.mp (Option.bind_eq_none_iff.mp hm b hx)
    rw [hy, Option.bind_none]

/-- Between two steps of the program: nothing is marked, and its memory is like one that never runs
out. -/
structure Transparent (p : Program V Addr) (t : Unbounded V) : Prop where
  clean : Clean p.state
  mirrors : Mirrors p.tracked p.memory t

omit [DecidableEq Addr] [DecidableEq V] in
theorem wellTracked_of_within (h : p.memory.Within p.tracked) : p.state.WellTracked :=
  ⟨h.roots, h.references⟩

omit [DecidableEq V] in
/-- The references and the roots are kept, and what the program holds survives. -/
theorem Transparent.collect {t : Unbounded V} {order : List Addr} (h : Transparent p t)
    (hrooted : p.Rooted) (ho : IterationOrder p.state order) :
    ∃ p', p.call (.collect order) = some p' ∧ Transparent p' t := by
  have hw := h.mirrors.within
  have hwell := wellTracked_of_within hw
  obtain ⟨s', out, hcollect, hexact⟩ :=
    hwell.collect h.clean.live (fun a _ => h.clean.markedAfter a) ho
  have hs : step p.state (.collect order) = some (s', out) := by
    simp [step, ho, hcollect, Except.toOption]
  have hmemory : Program.memory ⟨s', p.vars⟩ = p.memory := by
    simp only [Program.memory, Memory.mk.injEq, true_and]
    exact ⟨hexact.roots, funext hexact.references⟩
  have hkept : Program.tracked ⟨s', p.vars⟩ ⊆ p.tracked :=
    fun a ha => ((hexact.objects a).mp ha).1
  have hwithin : p.memory.Within (Program.tracked ⟨s', p.vars⟩) := by
    rw [← hmemory]
    refine ⟨fun x a hx => (hexact.objects a).mpr ?_, hexact.wellTracked.roots,
      hexact.wellTracked.references⟩
    exact ⟨hw.vars x a hx, hrooted x a hx⟩
  refine ⟨⟨s', p.vars⟩, by simp [Program.call, hs], ?_, ?_⟩
  · exact h.clean.step (fun _ _ => hwell.reachableTracked h.clean.live) hs
  · rw [hmemory]
    exact h.mirrors.restrict hkept hwithin

theorem Transparent.execute {t : Unbounded V} (h : Transparent p t) (ha : a ∉ p.state.heap.live)
    (he : p.execute a o = some (p', ans)) :
    ∃ t', (unbounded V).accept t (o, ans) = some t' ∧ Transparent p' t' := by
  cases hm : p.memory.perform a o with
  | none =>
    rw [execute_of_perform_none hm] at he
    cases he
  | some r =>
    obtain ⟨m₁, ans'⟩ := r
    obtain ⟨p'', he', hmemory, hclean, htracked⟩ :=
      execute_of_perform h.clean h.mirrors.within ha hm
    obtain ⟨rfl, rfl⟩ := Prod.mk.inj (Option.some.inj (he'.symm.trans he))
    obtain ⟨t', haccept, hmirrors⟩ :=
      h.mirrors.perform (fun hmem => ha (h.clean.live hmem)) hm
    refine ⟨t', haccept, hclean, ?_⟩
    rw [hmemory, htracked]
    exact hmirrors

/-- What the program can do, it can do over a memory that never runs out. -/
theorem Transparent.execute_isSome {t : Unbounded V} (h : Transparent p t)
    (ha : a ∉ p.state.heap.live) (o : Op V) :
    (p.execute a o).isSome = (t.memory.perform t.next o).isSome := by
  rw [h.mirrors.perform_isSome a o]
  cases hm : p.memory.perform a o with
  | none =>
    rw [execute_of_perform_none hm]
    rfl
  | some r =>
    obtain ⟨p', he, -⟩ := execute_of_perform h.clean h.mirrors.within ha hm
    rw [he]
    rfl

end Steps

/-- The program collects only when the roots reach every pointer that it holds. -/
def CollectsRooted (p : Program V Addr) (act : Program.Act V Addr) : Prop :=
  ∀ order, act = .collect order → p.Rooted

section Runs
variable [DecidableEq V] [DecidableEq Addr] {p : Program V Addr} {log : List (Op V × ℕ)}

theorem transparent_initial : Transparent (Program.system V Addr).init (unbounded V).init := by
  refine ⟨clean_initial, ⟨?_, ?_, ?_⟩, fun _ => 0, ⟨?_, ?_, rfl, ?_⟩, ?_⟩ <;>
    simp [Program.system, Program.memory, Program.tracked, initial, unbounded]

theorem transparent_of_run (hrun : (Program.system V Addr).RunWhere CollectsRooted p log) :
    ∃ t, (unbounded V).replay log = some t ∧ Transparent p t := by
  refine hrun.invariant (I := fun p log => ∃ t, (unbounded V).replay log = some t ∧
    Transparent p t) ⟨_, rfl, transparent_initial⟩ fun p log act p' evs _ h hrooted hs => ?_
  obtain ⟨t, hreplay, ht⟩ := h
  rw [Spec.replay_append _ hreplay]
  cases act with
  | op o a =>
    simp only [Program.system] at hs
    split at hs
    · cases hs
    · rename_i ha
      obtain ⟨⟨p₁, ans⟩, he, hr⟩ := Option.map_eq_some_iff.mp hs
      obtain ⟨rfl, rfl⟩ := Prod.mk.inj hr
      simp only [Spec.replayFrom_singleton]
      exact ht.execute ha he
  | collect order =>
    obtain ⟨p₁, hcall, hr⟩ := Option.map_eq_some_iff.mp hs
    obtain ⟨rfl, rfl⟩ := Prod.mk.inj hr
    obtain ⟨⟨s', out⟩, hstep, -⟩ := Option.map_eq_some_iff.mp hcall
    obtain ⟨p₂, hcall', ht'⟩ := ht.collect (hrooted order rfl) (collect_of_step hstep).1
    obtain rfl := Option.some.inj (hcall'.symm.trans hcall)
    exact ⟨t, rfl, ht'⟩

/-- The heap with a collector behaves like a memory that never runs out: in every run, wherever
nodes are put and whenever the program collects, all answers are those of that memory. The next
operation is possible exactly if it is there, so no pointer that the program holds ever dangles, and
a collection always returns. -/
theorem collector_transparent (hrun : (Program.system V Addr).RunWhere CollectsRooted p log) :
    ∃ t, (unbounded V).replay log = some t ∧
      (∀ o a, a ∉ p.state.heap.live →
        ((Program.system V Addr).step p (.op o a)).isSome =
          (t.memory.perform t.next o).isSome) ∧
      ∀ order, p.Rooted → IterationOrder p.state order →
        ((Program.system V Addr).step p (.collect order)).isSome = true := by
  obtain ⟨t, hreplay, ht⟩ := transparent_of_run hrun
  refine ⟨t, hreplay, fun o a ha => ?_, fun order hrooted ho => ?_⟩
  · rw [← ht.execute_isSome ha o]
    simp [Program.system, ha]
  · obtain ⟨p', hcall, -⟩ := ht.collect hrooted ho
    simp [Program.system, hcall]

/-- Two programs that do the same get the same answers, one of which may collect when the other does
not, and whatever their allocators and the orders of their sweeps are. -/
theorem collections_unobservable {Addr' : Type} [DecidableEq Addr'] {p' : Program V Addr'}
    {log' : List (Op V × ℕ)} (hrun : (Program.system V Addr).RunWhere CollectsRooted p log)
    (hrun' : (Program.system V Addr').RunWhere CollectsRooted p' log')
    (hops : log.map Prod.fst = log'.map Prod.fst) : log = log' := by
  obtain ⟨t, hreplay, -⟩ := transparent_of_run hrun
  obtain ⟨t', hreplay', -⟩ := transparent_of_run hrun'
  exact unbounded_log_unique hreplay hreplay' hops

end Runs

/-- The variables of a small program. -/
inductive Local where
  | list
  | cell
  deriving DecidableEq

/-- The pointers in the variables are roots themselves. -/
def HoldsRoots (p : Program Local ℕ) : Program.Act Local ℕ → Prop
  | .op _ _ => True
  | .collect _ => ∀ x ∈ [Local.list, .cell], p.vars x = none ∨ p.vars x ∈ p.state.roots

instance : ∀ p act, Decidable (HoldsRoots p act)
  | _, .op _ _ => .isTrue trivial
  | p, .collect _ => inferInstanceAs
    (Decidable (∀ x ∈ [Local.list, .cell], p.vars x = none ∨ p.vars x ∈ p.state.roots))

theorem HoldsRoots.collectsRooted {p : Program Local ℕ} {act : Program.Act Local ℕ}
    (h : HoldsRoots p act) : CollectsRooted p act := by
  rintro order rfl x a hx
  rcases h x (by cases x <;> simp) with hnone | hroot
  · rw [hx] at hnone
    cases hnone
  · rw [hx] at hroot
    exact ⟨a, hroot, .refl⟩

theorem exists_rooted_run (acts : List (Program.Act Local ℕ))
    (q : Program Local ℕ → List (Op Local × ℕ) → Bool)
    (h : ((Program.system Local ℕ).exec HoldsRoots (Program.system Local ℕ).init acts).any
      (fun r => q r.1 r.2) = true) :
    ∃ p log, (Program.system Local ℕ).RunWhere CollectsRooted p log ∧ q p log = true := by
  obtain ⟨p, log, hrun, hq⟩ := (Program.system Local ℕ).exists_run_of_exec HoldsRoots acts q h
  exact ⟨p, log, hrun.mono fun _ _ hroots => hroots.collectsRooted, hq⟩

/-- A list of two nodes loses the second and gets a new one. -/
def relink : List (Op Local) :=
  [.node .list, .addRoot .list, .node .cell, .push .list .cell, .null .cell,
    .follow .cell .list 0, .same .list .cell, .clear .list, .null .cell,
    .node .cell, .push .list .cell, .size .list]

/-- A collection keeps both nodes, and another one deletes the second, whose place is used again. -/
def collecting : List (Program.Act Local ℕ) :=
  [.op (.node .list) 7, .op (.addRoot .list) 8, .op (.node .cell) 8, .op (.push .list .cell) 9,
    .op (.null .cell) 9, .collect [8, 7],
    .op (.follow .cell .list 0) 9, .op (.same .list .cell) 9, .op (.clear .list) 9,
    .op (.null .cell) 9, .collect [7, 8],
    .op (.node .cell) 8, .op (.push .list .cell) 9, .op (.size .list) 9]

theorem collections_unobservable_relink : ∃ (p p' : Program Local ℕ) (log log' : _),
    (Program.system Local ℕ).RunWhere CollectsRooted p log ∧ p.state.heap.live = {7, 8} ∧
    (Program.system Local ℕ).RunWhere CollectsRooted p' log' ∧ p'.state.heap.live = {0, 1, 2} ∧
    log = log' := by
  obtain ⟨p, log, hrun, hq⟩ := exists_rooted_run collecting
    (fun p log => decide (p.state.heap.live = {7, 8} ∧ log.map Prod.fst = relink))
    (by decide +kernel)
  obtain ⟨p', log', hrun', hq'⟩ := exists_rooted_run
    [.op (.node .list) 0, .op (.addRoot .list) 9, .op (.node .cell) 1, .op (.push .list .cell) 9,
      .op (.null .cell) 9, .op (.follow .cell .list 0) 9, .op (.same .list .cell) 9,
      .op (.clear .list) 9, .op (.null .cell) 9, .op (.node .cell) 2, .op (.push .list .cell) 9,
      .op (.size .list) 9]
    (fun p log => decide (p.state.heap.live = {0, 1, 2} ∧ log.map Prod.fst = relink))
    (by decide +kernel)
  obtain ⟨hlive, hops⟩ := of_decide_eq_true hq
  obtain ⟨hlive', hops'⟩ := of_decide_eq_true hq'
  exact ⟨p, p', log, log', hrun, hlive, hrun', hlive',
    collections_unobservable hrun hrun' (hops.trans hops'.symm)⟩

theorem collector_transparent_relink : ∃ (p : Program Local ℕ) (log : _) (t : Unbounded Local),
    (Program.system Local ℕ).RunWhere CollectsRooted p log ∧ log.map Prod.fst = relink ∧
    (unbounded Local).replay log = some t := by
  obtain ⟨p, log, hrun, hq⟩ := exists_rooted_run collecting
    (fun _ log => decide (log.map Prod.fst = relink)) (by decide +kernel)
  obtain ⟨t, hreplay, -, -⟩ := collector_transparent hrun
  exact ⟨p, log, t, hrun, of_decide_eq_true hq, hreplay⟩

end MarkSweep
