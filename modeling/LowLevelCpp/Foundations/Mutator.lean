import LowLevelCpp.Foundations.System
import Mathlib.Data.Set.Function
import Mathlib.Logic.Function.Basic

/-! Programs over linked objects. What a program sees of its memory does not depend on where its
objects lie, nor on objects that it cannot reach: two memories that an embedding of the objects
makes alike give the same answers, and one of them may be a memory that never runs out. -/
namespace Foundations

/-- The pointers that a program holds, in its variables and in a list of roots, and the references
of each object. -/
structure Memory (V Addr : Type*) where
  vars : V → Option Addr
  roots : List (Option Addr)
  references : Addr → List (Option Addr)

/-- What a program does with pointers. -/
inductive Op (V : Type*) where
  | node (x : V)
  | null (x : V)
  | copy (x y : V)
  | same (x y : V)
  | size (x : V)
  | follow (x y : V) (i : ℕ)
  | push (x y : V)
  | clear (x : V)
  | addRoot (x : V)
  | clearRoots
  | root (x : V) (i : ℕ)
  deriving DecidableEq

variable {V Addr Addr' : Type*}

namespace Memory
variable [DecidableEq V] [DecidableEq Addr]

def setVar (m : Memory V Addr) (x : V) (p : Option Addr) : Memory V Addr :=
  { m with vars := Function.update m.vars x p }

def setReferences (m : Memory V Addr) (a : Addr) (refs : List (Option Addr)) : Memory V Addr :=
  { m with references := Function.update m.references a refs }

/-- An operation and its answer; a new object is put at `fresh`. Null pointers are neither followed
nor stored, and there is no reference behind the last. -/
def perform (m : Memory V Addr) (fresh : Addr) : Op V → Option (Memory V Addr × ℕ)
  | .node x => some ((m.setReferences fresh []).setVar x (some fresh), 0)
  | .null x => some (m.setVar x none, 0)
  | .copy x y => some (m.setVar x (m.vars y), 0)
  | .same x y => some (m, if m.vars x = m.vars y then 1 else 0)
  | .size x => (m.vars x).map fun a => (m, (m.references a).length)
  | .follow x y i =>
    (m.vars y).bind fun a => (m.references a)[i]?.map fun p => (m.setVar x p, 0)
  | .push x y =>
    (m.vars x).bind fun a => (m.vars y).map fun b =>
      (m.setReferences a (m.references a ++ [some b]), 0)
  | .clear x => (m.vars x).map fun a => (m.setReferences a [], 0)
  | .addRoot x => (m.vars x).map fun a => ({ m with roots := m.roots ++ [some a] }, 0)
  | .clearRoots => some ({ m with roots := [] }, 0)
  | .root x i => m.roots[i]?.map fun p => (m.setVar x p, 0)

end Memory

/-- The objects after an operation. -/
def Op.grow (o : Op V) (fresh : Addr) (O : Set Addr) : Set Addr :=
  match o with
  | .node _ => insert fresh O
  | _ => O

/-- The pointers of the program and of its objects stay among `O`. -/
structure Memory.Within (m : Memory V Addr) (O : Set Addr) : Prop where
  vars : ∀ x a, m.vars x = some a → a ∈ O
  roots : ∀ r ∈ m.roots, ∃ a ∈ O, r = some a
  references : ∀ a ∈ O, ∀ r ∈ m.references a, ∃ b ∈ O, r = some b

/-- Up to the places of the objects in `O`, the memories are the same. -/
structure Alike (f : Addr → Addr') (O : Set Addr) (m : Memory V Addr) (m' : Memory V Addr') :
    Prop where
  injOn : Set.InjOn f O
  vars : ∀ x, m'.vars x = (m.vars x).map f
  roots : m'.roots = m.roots.map (Option.map f)
  references : ∀ a ∈ O, m'.references (f a) = (m.references a).map (Option.map f)

section Alike
variable {f g : Addr → Addr'} {O P : Set Addr} {m m₁ : Memory V Addr} {m' : Memory V Addr'}
  {x : V} {a : Addr} {a' : Addr'} {p : Option Addr} {refs : List (Option Addr)} {ans : ℕ} {o : Op V}

/-- Fewer objects are enough if the pointers stay among them. -/
theorem Alike.restrict (h : Alike f O m m') (hP : P ⊆ O) : Alike f P m m' :=
  ⟨h.injOn.mono hP, h.vars, h.roots, fun a ha => h.references a (hP ha)⟩

/-- Where the embedding puts other objects does not matter. -/
theorem Alike.congr (h : Alike f O m m') (hw : m.Within O) (hg : ∀ a ∈ O, g a = f a) :
    Alike g O m m' := by
  have hmap : ∀ {r : Option Addr}, (∀ a, r = some a → a ∈ O) → r.map g = r.map f := by
    intro r hr
    cases r with
    | none => rfl
    | some a => exact congrArg some (hg a (hr a rfl))
  refine ⟨fun a ha b hb hab => h.injOn ha hb ?_, fun x => ?_, ?_, fun a ha => ?_⟩
  · rwa [← hg a ha, ← hg b hb]
  · rw [h.vars, hmap (hw.vars x)]
  · rw [h.roots]
    refine (List.map_congr_left fun r hr => hmap fun a ha => ?_).symm
    obtain ⟨b, hb, rfl⟩ := hw.roots r hr
    exact Option.some.inj ha ▸ hb
  · rw [hg a ha, h.references a ha]
    refine (List.map_congr_left fun r hr => hmap fun b hb => ?_).symm
    obtain ⟨c, hc, rfl⟩ := hw.references a ha r hr
    exact Option.some.inj hb ▸ hc

variable [DecidableEq V]

theorem Memory.Within.setVar (h : m.Within O) (hp : ∀ a, p = some a → a ∈ O) :
    (m.setVar x p).Within O := by
  refine ⟨fun y a hy => ?_, h.roots, h.references⟩
  by_cases hyx : y = x
  · subst hyx
    exact hp a (by simpa [Memory.setVar] using hy)
  · exact h.vars y a (by simpa [Memory.setVar, hyx] using hy)

theorem Alike.setVar (h : Alike f O m m') : Alike f O (m.setVar x p) (m'.setVar x (p.map f)) := by
  refine ⟨h.injOn, fun y => ?_, h.roots, h.references⟩
  by_cases hyx : y = x
  · subst hyx
    simp [Memory.setVar]
  · simp [Memory.setVar, hyx, h.vars y]

variable [DecidableEq Addr]

omit [DecidableEq V] in
theorem Memory.Within.setReferences (h : m.Within O)
    (hrefs : ∀ r ∈ refs, ∃ b ∈ O, r = some b) : (m.setReferences a refs).Within O := by
  refine ⟨h.vars, h.roots, fun b hb r hr => ?_⟩
  by_cases hba : b = a
  · subst hba
    exact hrefs r (by simpa [Memory.setReferences] using hr)
  · exact h.references b hb r (by simpa [Memory.setReferences, hba] using hr)

variable [DecidableEq Addr']

omit [DecidableEq V] in
theorem Alike.setReferences (h : Alike f O m m') (ha : a ∈ O) :
    Alike f O (m.setReferences a refs) (m'.setReferences (f a) (refs.map (Option.map f))) := by
  refine ⟨h.injOn, h.vars, h.roots, fun b hb => ?_⟩
  by_cases hba : b = a
  · subst hba
    simp [Memory.setReferences]
  · have hne : f b ≠ f a := fun he => hba (h.injOn hb ha he)
    simp [Memory.setReferences, hba, hne, h.references b hb]

omit [DecidableEq V] [DecidableEq Addr] [DecidableEq Addr'] in
theorem Alike.vars_eq_iff (h : Alike f O m m') (hw : m.Within O) (x y : V) :
    m'.vars x = m'.vars y ↔ m.vars x = m.vars y := by
  rw [h.vars, h.vars]
  cases hx : m.vars x with
  | none => cases hy : m.vars y <;> simp
  | some a =>
    cases hy : m.vars y with
    | none => simp
    | some b => simp [h.injOn.eq_iff (hw.vars x a hx) (hw.vars y b hy)]

omit [DecidableEq V] [DecidableEq Addr] [DecidableEq Addr'] in
theorem Alike.vars_eq_some (h : Alike f O m m') (hx : m.vars x = some a) :
    m'.vars x = some (f a) := by
  rw [h.vars, hx, Option.map_some]

theorem Memory.Within.node (hw : m.Within O) :
    ((m.setReferences a []).setVar x (some a)).Within (insert a O) := by
  have hgrow : ∀ {r : Option Addr}, (∃ b ∈ O, r = some b) → ∃ b ∈ insert a O, r = some b :=
    fun ⟨b, hb, hr⟩ => ⟨b, Set.mem_insert_of_mem a hb, hr⟩
  refine ⟨fun y b hy => ?_, fun r hr => hgrow (hw.roots r hr), fun b hb r hr => ?_⟩
  · by_cases hyx : y = x
    · subst hyx
      obtain rfl : a = b := by simpa [Memory.setVar] using hy
      exact Set.mem_insert a O
    · have hy : m.vars y = some b := by
        simpa [Memory.setVar, Memory.setReferences, hyx] using hy
      exact Set.mem_insert_of_mem a (hw.vars y b hy)
  · by_cases hba : b = a
    · subst hba
      simp [Memory.setVar, Memory.setReferences] at hr
    · exact hgrow (hw.references b (hb.resolve_left hba) r
        (by simpa [Memory.setVar, Memory.setReferences, hba] using hr))

/-- A new object, in a place that is free in each memory. -/
theorem Alike.node (h : Alike f O m m') (hw : m.Within O) (ha : a ∉ O) (ha' : ∀ b ∈ O, f b ≠ a') :
    Alike (Function.update f a a') (insert a O) ((m.setReferences a []).setVar x (some a))
      ((m'.setReferences a' []).setVar x (some a')) := by
  have hne : ∀ b ∈ O, b ≠ a := fun b hb hba => ha (hba ▸ hb)
  have hold : ∀ b ∈ O, Function.update f a a' b = f b :=
    fun b hb => Function.update_of_ne (hne b hb) a' f
  obtain ⟨-, hvars, hroots, hrefs⟩ := h.congr hw hold
  refine ⟨?_, fun y => ?_, hroots, fun b hb => ?_⟩
  · rintro b (rfl | hb) c (rfl | hc) hbc
    · rfl
    · rw [Function.update_self, hold c hc] at hbc
      exact absurd hbc.symm (ha' c hc)
    · rw [Function.update_self, hold b hb] at hbc
      exact absurd hbc (ha' b hb)
    · rw [hold b hb, hold c hc] at hbc
      exact h.injOn hb hc hbc
  · by_cases hyx : y = x
    · subst hyx
      simp [Memory.setVar]
    · simpa [Memory.setVar, Memory.setReferences, hyx] using hvars y
  · by_cases hba : b = a
    · subst hba
      simp [Memory.setVar, Memory.setReferences]
    · have hb := hb.resolve_left hba
      simpa [Memory.setVar, Memory.setReferences, hba, ha' b hb] using hrefs b hb

/-- An operation that makes no object. -/
theorem Alike.perform_of_ne_node (h : Alike f O m m') (hw : m.Within O) (hnode : ∀ x, o ≠ .node x)
    (hm : m.perform a o = some (m₁, ans)) (a' : Addr') :
    ∃ m₁', m'.perform a' o = some (m₁', ans) ∧ Alike f O m₁ m₁' ∧ m₁.Within O := by
  cases o with
  | node x => exact absurd rfl (hnode x)
  | null x =>
    obtain ⟨rfl, rfl⟩ := Prod.mk.inj (Option.some.inj hm)
    exact ⟨_, rfl, h.setVar, hw.setVar (by simp)⟩
  | copy x y =>
    obtain ⟨rfl, rfl⟩ := Prod.mk.inj (Option.some.inj hm)
    refine ⟨m'.setVar x (m'.vars y), rfl, ?_, hw.setVar (hw.vars y)⟩
    rw [h.vars]
    exact h.setVar
  | same x y =>
    obtain ⟨rfl, rfl⟩ := Prod.mk.inj (Option.some.inj hm)
    refine ⟨m', ?_, h, hw⟩
    simp only [Memory.perform, h.vars_eq_iff hw]
  | size x =>
    obtain ⟨b, hx, hb⟩ := Option.map_eq_some_iff.mp hm
    obtain ⟨rfl, rfl⟩ := Prod.mk.inj hb
    refine ⟨m', ?_, h, hw⟩
    simp [Memory.perform, h.vars_eq_some hx, h.references b (hw.vars x b hx)]
  | follow x y i =>
    obtain ⟨b, hy, hb⟩ := Option.bind_eq_some_iff.mp hm
    obtain ⟨p, hp, hr⟩ := Option.map_eq_some_iff.mp hb
    obtain ⟨rfl, rfl⟩ := Prod.mk.inj hr
    have hmem := hw.vars y b hy
    obtain ⟨c, hc, rfl⟩ := hw.references b hmem p (List.mem_of_getElem? hp)
    refine ⟨m'.setVar x ((some c).map f), ?_, h.setVar, hw.setVar ?_⟩
    · simp [Memory.perform, h.vars_eq_some hy, h.references b hmem, hp]
    · rintro _ ⟨⟩
      exact hc
  | push x y =>
    obtain ⟨b, hx, hb⟩ := Option.bind_eq_some_iff.mp hm
    obtain ⟨c, hy, hr⟩ := Option.map_eq_some_iff.mp hb
    obtain ⟨rfl, rfl⟩ := Prod.mk.inj hr
    have hmem := hw.vars x b hx
    refine ⟨m'.setReferences (f b) ((m.references b ++ [some c]).map (Option.map f)), ?_,
      h.setReferences hmem, hw.setReferences fun r hr => ?_⟩
    · simp [Memory.perform, h.vars_eq_some hx, h.vars_eq_some hy, h.references b hmem]
    · rcases List.mem_append.mp hr with hr | hr
      · exact hw.references b hmem r hr
      · exact ⟨c, hw.vars y c hy, List.mem_singleton.mp hr⟩
  | clear x =>
    obtain ⟨b, hx, hr⟩ := Option.map_eq_some_iff.mp hm
    obtain ⟨rfl, rfl⟩ := Prod.mk.inj hr
    refine ⟨m'.setReferences (f b) [], ?_, h.setReferences (hw.vars x b hx),
      hw.setReferences (by simp)⟩
    simp [Memory.perform, h.vars_eq_some hx]
  | addRoot x =>
    obtain ⟨b, hx, hr⟩ := Option.map_eq_some_iff.mp hm
    obtain ⟨rfl, rfl⟩ := Prod.mk.inj hr
    refine ⟨{ m' with roots := m'.roots ++ [some (f b)] }, ?_,
      ⟨h.injOn, h.vars, by simp [h.roots], h.references⟩,
      ⟨hw.vars, fun r hr => ?_, hw.references⟩⟩
    · simp [Memory.perform, h.vars_eq_some hx]
    · rcases List.mem_append.mp hr with hr | hr
      · exact hw.roots r hr
      · exact ⟨b, hw.vars x b hx, List.mem_singleton.mp hr⟩
  | clearRoots =>
    obtain ⟨rfl, rfl⟩ := Prod.mk.inj (Option.some.inj hm)
    exact ⟨_, rfl, ⟨h.injOn, h.vars, rfl, h.references⟩, ⟨hw.vars, by simp, hw.references⟩⟩
  | root x i =>
    obtain ⟨p, hp, hr⟩ := Option.map_eq_some_iff.mp hm
    obtain ⟨rfl, rfl⟩ := Prod.mk.inj hr
    obtain ⟨c, hc, rfl⟩ := hw.roots p (List.mem_of_getElem? hp)
    refine ⟨m'.setVar x ((some c).map f), ?_, h.setVar, hw.setVar ?_⟩
    · simp [Memory.perform, h.roots, hp]
    · rintro _ ⟨⟩
      exact hc

/-- Alike memories can do the same. -/
theorem Alike.perform_isSome (h : Alike f O m m') (hw : m.Within O) (a : Addr) (a' : Addr')
    (o : Op V) : (m'.perform a' o).isSome = (m.perform a o).isSome := by
  cases o with
  | node | null | copy | same | clearRoots => rfl
  | size x | clear x | addRoot x => simp [Memory.perform, h.vars]
  | root x i => simp [Memory.perform, h.roots]
  | push x y =>
    cases hx : m.vars x <;> cases hy : m.vars y <;> simp [Memory.perform, h.vars, hx, hy]
  | follow x y i =>
    cases hy : m.vars y with
    | none => simp [Memory.perform, h.vars, hy]
    | some b => simp [Memory.perform, h.vars, hy, h.references b (hw.vars y b hy)]

end Alike

/-- A memory that never runs out: each new object is put where nothing was before. -/
structure Unbounded (V : Type*) where
  memory : Memory V ℕ
  next : ℕ

/-- The acceptor of operations and their answers over such a memory. -/
def unbounded (V : Type*) [DecidableEq V] : Spec (Unbounded V) (Op V × ℕ) where
  init := ⟨⟨fun _ => none, [], fun _ => []⟩, 0⟩
  accept t e :=
    (t.memory.perform t.next e.1).bind fun r =>
      if r.2 = e.2 then some ⟨r.1, t.next + 1⟩ else none

theorem unbounded_accept [DecidableEq V] {t t₁ : Unbounded V} {o : Op V} {ans : ℕ} :
    (unbounded V).accept t (o, ans) = some t₁ ↔
      ∃ m₁, t.memory.perform t.next o = some (m₁, ans) ∧ ⟨m₁, t.next + 1⟩ = t₁ := by
  constructor
  · intro h
    obtain ⟨⟨m₁, ans'⟩, hm, hite⟩ := Option.bind_eq_some_iff.mp h
    split at hite
    · rename_i heq
      obtain rfl : ans' = ans := heq
      exact ⟨m₁, hm, Option.some.inj hite⟩
    · cases hite
  · rintro ⟨m₁, hm, rfl⟩
    simp [unbounded, hm]

/-- The answers are determined by the operations. -/
theorem unbounded_log_unique [DecidableEq V] {log log' : List (Op V × ℕ)} {t t' : Unbounded V}
    (h : (unbounded V).replay log = some t) (h' : (unbounded V).replay log' = some t')
    (hops : log.map Prod.fst = log'.map Prod.fst) : log = log' := by
  refine Spec.log_unique ?_ h h' hops
  rintro t ⟨o, ans⟩ ⟨o', ans'⟩ ho hs hs'
  obtain rfl : o = o' := ho
  obtain ⟨u, hu⟩ := Option.isSome_iff_exists.mp hs
  obtain ⟨u', hu'⟩ := Option.isSome_iff_exists.mp hs'
  obtain ⟨m₁, hm, -⟩ := unbounded_accept.mp hu
  obtain ⟨m₁', hm', -⟩ := unbounded_accept.mp hu'
  obtain ⟨-, rfl⟩ := Prod.mk.inj (Option.some.inj (hm.symm.trans hm'))
  rfl

/-- A memory that looks like the unbounded one, as far as the objects in `O` are concerned. -/
structure Mirrors (O : Set Addr) (m : Memory V Addr) (t : Unbounded V) : Prop where
  within : m.Within O
  alike : ∃ f, Alike f O m t.memory ∧ ∀ a ∈ O, f a < t.next

section Mirrors
variable {O P : Set Addr} {m m₁ : Memory V Addr} {t : Unbounded V} {a : Addr} {o : Op V} {ans : ℕ}

/-- What becomes unreachable does not matter. -/
theorem Mirrors.restrict (h : Mirrors O m t) (hP : P ⊆ O) (hw : m.Within P) : Mirrors P m t := by
  obtain ⟨-, f, hf, hlt⟩ := h
  exact ⟨hw, f, hf.restrict hP, fun a ha => hlt a (hP ha)⟩

variable [DecidableEq V] [DecidableEq Addr]

theorem Mirrors.perform_isSome (h : Mirrors O m t) (a : Addr) (o : Op V) :
    (t.memory.perform t.next o).isSome = (m.perform a o).isSome := by
  obtain ⟨hw, f, hf, -⟩ := h
  exact hf.perform_isSome hw a t.next o

/-- Each operation has the answer that it has over the unbounded memory. -/
theorem Mirrors.perform (h : Mirrors O m t) (ha : a ∉ O) (hm : m.perform a o = some (m₁, ans)) :
    ∃ t₁, (unbounded V).accept t (o, ans) = some t₁ ∧ Mirrors (o.grow a O) m₁ t₁ := by
  obtain ⟨hw, f, hf, hlt⟩ := h
  by_cases hnode : ∃ x, o = .node x
  · obtain ⟨x, rfl⟩ := hnode
    obtain ⟨rfl, rfl⟩ := Prod.mk.inj (Option.some.inj hm)
    refine ⟨_, rfl, hw.node, _, hf.node hw ha fun b hb => Nat.ne_of_lt (hlt b hb), ?_⟩
    rintro b (rfl | hb)
    · simp
    · have hba : b ≠ a := fun hba => ha (hba ▸ hb)
      rw [Function.update_of_ne hba]
      exact Nat.lt_succ_of_lt (hlt b hb)
  · obtain ⟨m₁', hm', hf', hw'⟩ :=
      hf.perform_of_ne_node hw (fun x hx => hnode ⟨x, hx⟩) hm t.next
    have hgrow : o.grow a O = O := by
      cases o with
      | node x => exact absurd ⟨x, rfl⟩ hnode
      | null | copy | same | size | follow | push | clear | addRoot | clearRoots | root => rfl
    refine ⟨⟨m₁', t.next + 1⟩, unbounded_accept.mpr ⟨m₁', hm', rfl⟩, ?_⟩
    rw [hgrow]
    exact ⟨hw', f, hf', fun b hb => Nat.lt_succ_of_lt (hlt b hb)⟩

end Mirrors

end Foundations
