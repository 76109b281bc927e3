import LowLevelCpp.Foundations.System
import Mathlib.Data.Int.Notation
import Mathlib.Logic.Function.Basic

/-!
`Lock-free-stack/main.cpp`: `LockFreeStack` as an interleaving of the atomic steps of any
number of threads. Addresses and thread identifiers are arbitrary types, `none` is
`nullptr`, and the heap holds the live nodes, so the allocator may hand out the address
of a deleted node again and a read through a dangling pointer returns an arbitrary value.
-/
namespace LockFreeStack
open Foundations

structure Node (Addr : Type) where
  key : ℤ
  next : Option Addr
  deriving DecidableEq

structure TaggedPointer (Addr : Type) where
  node : Option Addr
  tag : BitVec 64
  deriving DecidableEq

/-- The next atomic step of a thread, with the local variables still in use. The phases
of `pop` after the emptiness test carry `old_top` as its node and its tag. -/
inductive Pc (Addr : Type) where
  | idle
  /-- `new Node(key)` -/
  | pushNew (key : ℤ)
  /-- `old_top = top.load()` -/
  | pushLoad (key : ℤ) (newNode : Addr)
  /-- `new_node->next = old_top.node` -/
  | pushLink (key : ℤ) (newNode : Addr) (oldTop : TaggedPointer Addr)
  /-- `new_top.tag = tag_counter.fetch_add(1)` -/
  | pushFetch (key : ℤ) (newNode : Addr) (oldTop : TaggedPointer Addr)
  /-- `top.compare_exchange_weak(old_top, new_top)` -/
  | pushCas (key : ℤ) (newNode : Addr) (oldTop : TaggedPointer Addr) (tag : BitVec 64)
  /-- `old_top = top.load()` -/
  | popLoad
  /-- the second `top.load()`, whose result is discarded -/
  | popReload (oldTop : TaggedPointer Addr)
  /-- `old_top.node == nullptr` -/
  | popTest (oldTop : TaggedPointer Addr)
  /-- `new_top.node = old_top.node->next` -/
  | popNext (node : Addr) (oldTag : BitVec 64)
  /-- `new_top.tag = tag_counter.fetch_add(1)` -/
  | popFetch (node : Addr) (oldTag : BitVec 64) (next : Option Addr)
  /-- `top.compare_exchange_weak(old_top, new_top)` -/
  | popCas (node : Addr) (oldTag : BitVec 64) (next : Option Addr) (tag : BitVec 64)
  /-- `key = old_top.node->key` -/
  | popKey (node : Addr)
  /-- `delete old_top.node; return key` -/
  | popDelete (node : Addr) (key : ℤ)
  deriving DecidableEq

structure State (Tid Addr : Type) where
  top : TaggedPointer Addr
  tagCounter : BitVec 64
  heap : Addr → Option (Node Addr)
  pc : Tid → Pc Addr

/-- A step of one thread, with what the environment decides in it: the address that `new`
returns, the value that a read through a dangling pointer yields, and whether the weak
exchange fails spuriously. -/
inductive Act (Tid Addr : Type) where
  | push (t : Tid) (key : ℤ)
  | pop (t : Tid)
  | alloc (t : Tid) (address : Addr)
  | readNext (t : Tid) (garbage : Option Addr)
  | readKey (t : Tid) (garbage : ℤ)
  | compareExchange (t : Tid) (spurious : Bool)
  | run (t : Tid)

/-- What a step contributes to the history. `pushed` and `popped` are the successful
exchanges, with the pair they store into `top`; `snapshot` is the moment at which a
thread obtains its `old_top`; `empty` is the `return 0` of the emptiness test. -/
inductive Event (Tid Addr : Type) where
  | called (t : Tid)
  | snapshot (t : Tid)
  | fetched (t : Tid)
  | pushed (t : Tid) (node : Addr) (key : ℤ) (tag : BitVec 64)
  | popped (t : Tid) (node : Addr) (next : Option Addr) (tag : BitVec 64)
  | returned (t : Tid) (key : ℤ)
  | empty (t : Tid)
  deriving DecidableEq

variable {Tid Addr : Type} [DecidableEq Tid] [DecidableEq Addr]

/-- `LockFreeStack::LockFreeStack` -/
def initial : State Tid Addr where
  top := ⟨none, 0⟩
  tagCounter := 0
  heap _ := none
  pc _ := .idle

namespace State

def goto (s : State Tid Addr) (t : Tid) (p : Pc Addr) : State Tid Addr :=
  { s with pc := Function.update s.pc t p }

/-- `new Node(key)` at an address that is not in use. -/
def alloc (s : State Tid Addr) (a : Addr) (key : ℤ) : State Tid Addr :=
  { s with heap := Function.update s.heap a (some ⟨key, none⟩) }

/-- `node->next = next` -/
def storeNext (s : State Tid Addr) (a : Addr) (next : Option Addr) : State Tid Addr :=
  { s with heap := Function.update s.heap a ((s.heap a).map fun nd => { nd with next }) }

def delete (s : State Tid Addr) (a : Addr) : State Tid Addr :=
  { s with heap := Function.update s.heap a none }

/-- `tag_counter.fetch_add(1)`; the result is the counter before it. -/
def fetchAdd (s : State Tid Addr) : State Tid Addr :=
  { s with tagCounter := s.tagCounter + 1 }

def setTop (s : State Tid Addr) (tp : TaggedPointer Addr) : State Tid Addr :=
  { s with top := tp }

/-- A read of `node->next`: arbitrary when the node has been deleted. -/
def loadNext (s : State Tid Addr) (a : Addr) (garbage : Option Addr) : Option Addr :=
  ((s.heap a).map Node.next).getD garbage

/-- A read of `node->key`: arbitrary when the node has been deleted. -/
def loadKey (s : State Tid Addr) (a : Addr) (garbage : ℤ) : ℤ :=
  ((s.heap a).map Node.key).getD garbage

end State

/-- `LockFreeStack::push` and `LockFreeStack::pop`, one atomic step at a time. A failed
exchange loads the current `top` into `old_top` and goes back to the head of the loop. -/
def step (s : State Tid Addr) : Act Tid Addr → Option (State Tid Addr × List (Event Tid Addr))
  | .push t key =>
    match s.pc t with
    | .idle => some (s.goto t (.pushNew key), [.called t])
    | _ => none
  | .pop t =>
    match s.pc t with
    | .idle => some (s.goto t .popLoad, [.called t])
    | _ => none
  | .alloc t a =>
    match s.pc t with
    | .pushNew key =>
      if s.heap a = none then some ((s.alloc a key).goto t (.pushLoad key a), []) else none
    | _ => none
  | .readNext t garbage =>
    match s.pc t with
    | .popNext n tag => some (s.goto t (.popFetch n tag (s.loadNext n garbage)), [])
    | _ => none
  | .readKey t garbage =>
    match s.pc t with
    | .popKey n => some (s.goto t (.popDelete n (s.loadKey n garbage)), [])
    | _ => none
  | .compareExchange t spurious =>
    match s.pc t with
    | .pushCas key n old tag =>
      if s.top = old ∧ spurious = false then
        some ((s.setTop ⟨some n, tag⟩).goto t .idle, [.pushed t n key tag])
      else some (s.goto t (.pushLink key n s.top), [.snapshot t])
    | .popCas n oldTag next tag =>
      if s.top = ⟨some n, oldTag⟩ ∧ spurious = false then
        some ((s.setTop ⟨next, tag⟩).goto t (.popKey n), [.popped t n next tag])
      else some (s.goto t (.popTest s.top), [.snapshot t])
    | _ => none
  | .run t =>
    match s.pc t with
    | .pushLoad key n => some (s.goto t (.pushLink key n s.top), [.snapshot t])
    | .pushLink key n old => some ((s.storeNext n old.node).goto t (.pushFetch key n old), [])
    | .pushFetch key n old =>
      some (s.fetchAdd.goto t (.pushCas key n old s.tagCounter), [.fetched t])
    | .popLoad => some (s.goto t (.popReload s.top), [.snapshot t])
    | .popReload old => some (s.goto t (.popTest old), [])
    | .popTest old =>
      match old.node with
      | none => some (s.goto t .idle, [.empty t])
      | some n => some (s.goto t (.popNext n old.tag), [])
    | .popFetch n oldTag next =>
      some (s.fetchAdd.goto t (.popCas n oldTag next s.tagCounter), [.fetched t])
    | .popDelete n key => some ((s.delete n).goto t .idle, [.returned t key])
    | _ => none

def system (Tid Addr : Type) [DecidableEq Tid] [DecidableEq Addr] :
    System (State Tid Addr) (Act Tid Addr) (Event Tid Addr) where
  init := initial
  step := step

/-- The transitions of `step`, one constructor for each. -/
inductive Step (s : State Tid Addr) (t : Tid) :
    State Tid Addr → List (Event Tid Addr) → Prop
  | callPush {key} (h : s.pc t = .idle) : Step s t (s.goto t (.pushNew key)) [.called t]
  | callPop (h : s.pc t = .idle) : Step s t (s.goto t .popLoad) [.called t]
  | alloc {key a} (h : s.pc t = .pushNew key) (hfree : s.heap a = none) :
      Step s t ((s.alloc a key).goto t (.pushLoad key a)) []
  | pushLoad {key n} (h : s.pc t = .pushLoad key n) :
      Step s t (s.goto t (.pushLink key n s.top)) [.snapshot t]
  | pushLink {key n old} (h : s.pc t = .pushLink key n old) :
      Step s t ((s.storeNext n old.node).goto t (.pushFetch key n old)) []
  | pushFetch {key n old} (h : s.pc t = .pushFetch key n old) :
      Step s t (s.fetchAdd.goto t (.pushCas key n old s.tagCounter)) [.fetched t]
  | pushed {key n tag} (h : s.pc t = .pushCas key n s.top tag) :
      Step s t ((s.setTop ⟨some n, tag⟩).goto t .idle) [.pushed t n key tag]
  | pushRetry {key n old tag} (h : s.pc t = .pushCas key n old tag) :
      Step s t (s.goto t (.pushLink key n s.top)) [.snapshot t]
  | popLoad (h : s.pc t = .popLoad) : Step s t (s.goto t (.popReload s.top)) [.snapshot t]
  | popReload {old} (h : s.pc t = .popReload old) : Step s t (s.goto t (.popTest old)) []
  | popEmpty {tag} (h : s.pc t = .popTest ⟨none, tag⟩) : Step s t (s.goto t .idle) [.empty t]
  | popTest {n tag} (h : s.pc t = .popTest ⟨some n, tag⟩) :
      Step s t (s.goto t (.popNext n tag)) []
  | popNext {n tag garbage} (h : s.pc t = .popNext n tag) :
      Step s t (s.goto t (.popFetch n tag (s.loadNext n garbage))) []
  | popFetch {n oldTag next} (h : s.pc t = .popFetch n oldTag next) :
      Step s t (s.fetchAdd.goto t (.popCas n oldTag next s.tagCounter)) [.fetched t]
  | popped {n oldTag next tag} (h : s.pc t = .popCas n oldTag next tag)
      (htop : s.top = ⟨some n, oldTag⟩) :
      Step s t ((s.setTop ⟨next, tag⟩).goto t (.popKey n)) [.popped t n next tag]
  | popRetry {n oldTag next tag} (h : s.pc t = .popCas n oldTag next tag) :
      Step s t (s.goto t (.popTest s.top)) [.snapshot t]
  | popKey {n garbage} (h : s.pc t = .popKey n) :
      Step s t (s.goto t (.popDelete n (s.loadKey n garbage))) []
  | popDelete {n key} (h : s.pc t = .popDelete n key) :
      Step s t ((s.delete n).goto t .idle) [.returned t key]

/-- The thread that takes the step. -/
def Act.thread : Act Tid Addr → Tid
  | .push t _ | .pop t | .alloc t _ | .readNext t _ | .readKey t _ | .compareExchange t _
  | .run t => t

/-- Every invariant is proved from these transitions; `step` is not unfolded again. -/
theorem step_cases {s s' : State Tid Addr} {a : Act Tid Addr} {evs : List (Event Tid Addr)}
    (h : step s a = some (s', evs)) : Step s a.thread s' evs := by
  cases a with
  | push t key =>
    simp only [step] at h
    split at h <;> cases h
    exact .callPush ‹_›
  | pop t =>
    simp only [step] at h
    split at h <;> cases h
    exact .callPop ‹_›
  | alloc t a =>
    simp only [step] at h
    split at h
    · split at h <;> cases h
      exact .alloc ‹_› ‹_›
    · cases h
  | readNext t garbage =>
    simp only [step] at h
    split at h <;> cases h
    exact .popNext ‹_›
  | readKey t garbage =>
    simp only [step] at h
    split at h <;> cases h
    exact .popKey ‹_›
  | compareExchange t spurious =>
    simp only [step] at h
    split at h
    · rename_i hpc
      split at h <;> cases h
      · rename_i hc
        exact .pushed (by rw [hc.1]; exact hpc)
      · exact .pushRetry hpc
    · split at h <;> cases h
      · rename_i hc
        exact .popped ‹_› hc.1
      · exact .popRetry ‹_›
    · cases h
  | run t =>
    simp only [step] at h
    split at h
    · cases h; exact .pushLoad ‹_›
    · cases h; exact .pushLink ‹_›
    · cases h; exact .pushFetch ‹_›
    · cases h; exact .popLoad ‹_›
    · cases h; exact .popReload ‹_›
    · rename_i old hpc
      obtain ⟨node, tag⟩ := old
      cases node <;> cases h
      · exact .popEmpty hpc
      · exact .popTest hpc
    · cases h; exact .popFetch ‹_›
    · cases h; exact .popDelete ‹_›
    · cases h

end LockFreeStack
