import LowLevelCpp.LockFreeStack.Model
import Mathlib.Data.List.Perm.Basic
import Mathlib.Data.List.Nodup

/-! What the stack is for: an atomic last-in first-out store. The successful exchanges
are the moments at which an element enters and leaves it, and a pop holds the element it
has taken until it returns its key. -/
namespace LockFreeStack
open Foundations

/-- A pushed element; addresses and keys may repeat, the serial number does not. -/
structure Elem (Addr : Type) where
  serial : ℕ
  node : Addr
  key : ℤ
  deriving DecidableEq

/-- The abstract state, with `stack` newest first. -/
structure Lifo (Tid Addr : Type) where
  pushes : ℕ
  stack : List (Elem Addr)
  held : List (Tid × Elem Addr)
  returned : List (Elem Addr)

variable {Tid Addr : Type}

def Event.pushed? : Event Tid Addr → Option (Addr × ℤ)
  | .pushed _ n key _ => some (n, key)
  | _ => none

/-- The elements pushed in a history, oldest first. -/
def pushedElems (log : List (Event Tid Addr)) : List (Elem Addr) :=
  (log.filterMap Event.pushed?).mapIdx fun i p => ⟨i, p.1, p.2⟩

/-- Serial numbers tell the elements apart. -/
theorem pushedElems_nodup (log : List (Event Tid Addr)) : (pushedElems log).Nodup := by
  have hserial : (pushedElems log).map Elem.serial =
      List.range (log.filterMap Event.pushed?).length := by
    exact List.ext_getElem (by simp [pushedElems]) (by simp [pushedElems])
  exact List.Nodup.of_map Elem.serial (hserial ▸ List.nodup_range)

def Lifo.nodes (a : Lifo Tid Addr) : List Addr := a.stack.map Elem.node

variable [DecidableEq Tid] [DecidableEq Addr]

/-- The element that thread `t` has taken and not yet returned. -/
def Lifo.heldBy (a : Lifo Tid Addr) (t : Tid) : Option (Elem Addr) :=
  (a.held.find? fun p => p.1 = t).map Prod.snd

/-- A pop takes the newest element and no other, and returns the key of the element it
has taken. -/
def Lifo.accept (a : Lifo Tid Addr) : Event Tid Addr → Option (Lifo Tid Addr)
  | .pushed _ n key _ =>
    some { a with pushes := a.pushes + 1, stack := ⟨a.pushes, n, key⟩ :: a.stack }
  | .popped t n _ _ =>
    match a.stack with
    | [] => none
    | e :: rest =>
      if e.node = n ∧ a.heldBy t = none then
        some { a with stack := rest, held := (t, e) :: a.held }
      else none
  | .returned t key =>
    match a.heldBy t with
    | none => none
    | some e =>
      if e.key = key then
        some { a with held := a.held.filter (fun p => p.1 ≠ t), returned := a.returned ++ [e] }
      else none
  | _ => some a

def lifo : Spec (Lifo Tid Addr) (Event Tid Addr) where
  init := ⟨0, [], [], []⟩
  accept := Lifo.accept

omit [DecidableEq Addr] in
theorem heldBy_eq_none {a : Lifo Tid Addr} {t : Tid} :
    a.heldBy t = none ↔ t ∉ a.held.map Prod.fst := by
  simp only [Lifo.heldBy, Option.map_eq_none_iff, List.find?_eq_none, decide_eq_true_eq,
    List.mem_map, not_exists, not_and]

omit [DecidableEq Addr] in
/-- What a thread holds is one entry of `held`, which returning removes. -/
theorem held_perm_of_heldBy {a : Lifo Tid Addr} {t : Tid} {e : Elem Addr}
    (hnodup : (a.held.map Prod.fst).Nodup) (h : a.heldBy t = some e) :
    a.held.Perm ((t, e) :: a.held.filter fun p => p.1 ≠ t) := by
  obtain ⟨⟨t', e'⟩, hfind, rfl⟩ := Option.map_eq_some_iff.mp h
  have ht : t' = t := by simpa using List.find?_some hfind
  subst ht
  obtain ⟨as, bs, hsplit⟩ := List.append_of_mem (List.mem_of_find?_eq_some hfind)
  rw [hsplit] at hnodup ⊢
  have hkeys : ∀ p ∈ as ++ bs, p.1 ≠ t' := by
    intro p hp he
    rw [List.map_append, List.map_cons, List.nodup_middle, List.nodup_cons,
      ← List.map_append] at hnodup
    exact hnodup.1 (List.mem_map.mpr ⟨p, hp, he⟩)
  have hrest : (as ++ (t', e') :: bs).filter (fun p => p.1 ≠ t') = as ++ bs := by
    rw [List.filter_append, List.filter_cons_of_neg (by simp), ← List.filter_append]
    exact List.filter_eq_self.mpr fun p hp => by simpa using hkeys p hp
  rw [hrest]
  exact List.perm_middle

/-- No element is lost and none is taken twice: the pushed elements are those on the
stack, those held by a pop in progress and those returned. -/
structure Lifo.Conserved (a : Lifo Tid Addr) (log : List (Event Tid Addr)) : Prop where
  pushes : (log.filterMap Event.pushed?).length = a.pushes
  holders : (a.held.map Prod.fst).Nodup
  elems : (pushedElems log).Perm (a.stack ++ a.held.map Prod.snd ++ a.returned)

theorem lifo_conserved {a : Lifo Tid Addr} {log : List (Event Tid Addr)}
    (h : lifo.replay log = some a) : a.Conserved log := by
  refine lifo.invariant (I := fun a log => a.Conserved log) h
    ⟨rfl, List.nodup_nil, List.Perm.refl _⟩ ?_
  intro a log e a' ih haccept
  obtain ⟨hpushes, hholders, helems⟩ := ih
  have hother (he : e.pushed? = none) :
      (log ++ [e]).filterMap Event.pushed? = log.filterMap Event.pushed? := by simp [he]
  cases e with
  | pushed t n key tag =>
    cases haccept
    refine ⟨by simp [Event.pushed?, hpushes], hholders, ?_⟩
    have hnew : pushedElems (log ++ [.pushed t n key tag]) =
        pushedElems log ++ [⟨a.pushes, n, key⟩] := by
      simp [pushedElems, Event.pushed?, List.mapIdx_concat, hpushes]
    rw [hnew]
    exact (List.perm_append_singleton _ _).trans (helems.cons _)
  | popped t n next tag =>
    simp only [lifo, Lifo.accept] at haccept
    split at haccept
    · cases haccept
    · rename_i e rest hstack
      split at haccept
      · rename_i hok
        cases haccept
        refine ⟨by rw [hother rfl]; exact hpushes, ?_, ?_⟩
        · exact List.nodup_cons.mpr ⟨heldBy_eq_none.mp hok.2, hholders⟩
        · rw [pushedElems, hother rfl]
          apply helems.trans
          rw [hstack]
          exact List.Perm.append_right _ List.perm_middle.symm
      · cases haccept
  | returned t key =>
    simp only [lifo, Lifo.accept] at haccept
    split at haccept
    · cases haccept
    · rename_i e hheld
      split at haccept
      · cases haccept
        have hperm := held_perm_of_heldBy hholders hheld
        refine ⟨by rw [hother rfl]; exact hpushes, ?_, ?_⟩
        · exact hholders.sublist (List.filter_sublist.map Prod.fst)
        · rw [pushedElems, hother rfl]
          apply helems.trans
          rw [List.append_assoc, List.append_assoc]
          apply List.Perm.append_left _
          apply ((hperm.map Prod.snd).append_right _).trans
          rw [List.map_cons, List.cons_append, ← List.append_assoc]
          exact (List.perm_append_singleton _ _).symm
      · cases haccept
  | _ =>
    cases haccept
    exact ⟨by rw [hother rfl]; exact hpushes, hholders,
      by rw [pushedElems, hother rfl]; exact helems⟩

end LockFreeStack
