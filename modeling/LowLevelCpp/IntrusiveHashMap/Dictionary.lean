import LowLevelCpp.IntrusiveHashMap.Recency
import Mathlib.Data.List.Find

/-!
The entries of `main.cc`: a key and a value around an `HNode`. A client that computes the hash code
of each node from its key, and looks up with a dummy entry, has a dictionary whose answers depend
neither on the hash function and the table size nor on where the entries lie.
-/
namespace IntrusiveHashMap
open Foundations Foundations.System

structure Entry (K V : Type) where
  key : K
  value : V
  deriving DecidableEq

/-- `offsetof(Entry, node)`, behind two strings of 32 bytes. -/
def offsetof_node : ℕ := 64

/-- `&e->node` -/
def nodeOf (e : ℕ) : ℕ := e + offsetof_node

/-- `container_of(ptr, Entry, node)` -/
def container_of (p : ℕ) : ℕ := p - offsetof_node

/-- The map, and the entries by their addresses. -/
structure Client (K V : Type) where
  heap : Heap ℕ
  entries : ℕ → Option (Entry K V)

/-- What the client is told: the old value of a key is shadowed and comes back when the newer
entry is removed. -/
inductive Answer (K V : Type) where
  | put (key : K) (value : V)
  | got (key : K) (value : Option V)
  | dropped (key : K) (value : Option V)
  deriving DecidableEq

/-- The requests. The address of an entry comes from `new`, that of a dummy from the stack. -/
inductive Request (K V : Type) where
  | put (e : ℕ) (key : K) (value : V)
  | get (dummy : ℕ) (key : K)
  | drop (dummy : ℕ) (key : K)

section Model
variable {K V : Type} [DecidableEq K]

/-- `entry_eq` -/
def entry_eq (entries : ℕ → Option (Entry K V)) (lhs rhs : ℕ) : Bool :=
  (entries (container_of lhs)).map Entry.key == (entries (container_of rhs)).map Entry.key

/-- An entry is written at an address with no entry. -/
def Client.create (c : Client K V) (hash : K → BitVec 64) (e : ℕ) (entry : Entry K V) :
    Client K V where
  heap := { c.heap with nodes := Function.update c.heap.nodes (nodeOf e) ⟨none, hash entry.key⟩ }
  entries := Function.update c.entries e (some entry)

/-- `delete entry`, or the end of the scope of a dummy. -/
def Client.delete (c : Client K V) (e : ℕ) : Client K V :=
  { c with entries := Function.update c.entries e none }

/-- The value of the entry around a node that the map has returned. -/
def Client.valueOf (c : Client K V) (node : Option ℕ) : Option V :=
  node.bind fun p => (c.entries (container_of p)).map Entry.value

/-- One request, as `main` makes them; `none` when the address is in use or an access of the map
has no defined result. A dummy has a key and no value of its own. -/
def Client.step [Inhabited V] (hash : K → BitVec 64) (c : Client K V) :
    Request K V → Option (Client K V × List (Answer K V))
  | .put e key value => do
    guard (c.entries e).isNone
    let c := c.create hash e ⟨key, value⟩
    let heap ← (c.heap.insert (nodeOf e)).toOption
    return ({ c with heap }, [.put key value])
  | .get dummy key => do
    guard (c.entries dummy).isNone
    let c := c.create hash dummy ⟨key, default⟩
    let node ← (c.heap.lookup (nodeOf dummy) (entry_eq c.entries)).toOption
    return (c.delete dummy, [.got key (c.valueOf node)])
  | .drop dummy key => do
    guard (c.entries dummy).isNone
    let c := c.create hash dummy ⟨key, default⟩
    let (node, heap) ← (c.heap.remove (nodeOf dummy) (entry_eq c.entries)).toOption
    let value := c.valueOf node
    let c := match node with
      | some p => { c with heap }.delete (container_of p)
      | none => { c with heap }
    return (c.delete dummy, [.dropped key value])

/-- The client of a map with `n` slots. -/
def dictionary [Inhabited V] (n : TableSize) (hash : K → BitVec 64) :
    System (Client K V) (Request K V) (Answer K V) where
  init := ⟨⟨fun _ => {}, construct n true⟩, fun _ => none⟩
  step := Client.step hash

/-- A dictionary as the list of its entries, the most recent first. -/
def contents (K V : Type) [DecidableEq K] [DecidableEq V] :
    Spec (List (Entry K V)) (Answer K V) where
  init := []
  accept d
    | .put key value => some (⟨key, value⟩ :: d)
    | .got key value =>
      if value = (d.find? fun e => e.key = key).map Entry.value then some d else none
    | .dropped key value =>
      if value = (d.find? fun e => e.key = key).map Entry.value then
        some (d.eraseP fun e => e.key = key)
      else none

end Model

@[simp] theorem container_of_nodeOf (e : ℕ) : container_of (nodeOf e) = e :=
  Nat.add_sub_cancel e offsetof_node

theorem nodeOf_injective : Function.Injective nodeOf := fun _ _ h => Nat.add_right_cancel h

/-- The map holds the nodes of the entries `xs`, given with their addresses and the most recent
one first, and nothing else is allocated. -/
structure Backs {K V : Type} (n : TableSize) (hash : K → BitVec 64) (c : Client K V)
    (xs : List (ℕ × Entry K V)) : Prop where
  represents : Represents n c.heap (xs.map fun x => nodeOf x.1)
  live : ∀ e, c.entries e ≠ none → e ∈ xs.map Prod.fst
  content : ∀ x ∈ xs, c.entries x.1 = some x.2
  hashed : ∀ x ∈ xs, (c.heap.nodes (nodeOf x.1)).hcode = hash x.2.key

section Requests
variable {K V : Type} {n : TableSize} {hash : K → BitVec 64} {c c' : Client K V}
  {xs : List (ℕ × Entry K V)} {e dummy : ℕ} {entry : Entry K V} {key : K}

/-- Creating an entry, in a place of its own, leaves the others alone. -/
theorem Backs.create (h : Backs n hash c xs) (he : c.entries e = none) (entry : Entry K V) :
    nodeOf e ∉ xs.map (fun x => nodeOf x.1) ∧
      Represents n (c.create hash e entry).heap (xs.map fun x => nodeOf x.1) ∧
      (∀ x ∈ xs, (c.create hash e entry).entries x.1 = some x.2) ∧
      ∀ x ∈ xs, ((c.create hash e entry).heap.nodes (nodeOf x.1)).hcode = hash x.2.key := by
  have hne : ∀ x ∈ xs, x.1 ≠ e := by
    rintro x hx rfl
    rw [h.content x hx] at he
    cases he
  have hnode : nodeOf e ∉ xs.map fun x => nodeOf x.1 := by
    intro hin
    obtain ⟨x, hx, heq⟩ := List.mem_map.mp hin
    exact hne x hx (nodeOf_injective heq)
  refine ⟨hnode, h.represents.write hnode _, fun x hx => ?_, fun x hx => ?_⟩
  · exact (Function.update_of_ne (hne x hx) _ _).trans (h.content x hx)
  · have hkept : (c.create hash e entry).heap.nodes (nodeOf x.1) = c.heap.nodes (nodeOf x.1) :=
      Function.update_of_ne (fun heq => hne x hx (nodeOf_injective heq)) _ _
    rw [hkept, h.hashed x hx]

/-- At the end of the scope of a dummy everything is as it was, but for the client's node. -/
theorem Backs.scope (h : Backs n hash c xs) (he : c.entries e = none) (entry : Entry K V) :
    Backs n hash ((c.create hash e entry).delete e) xs := by
  obtain ⟨-, hrepresents, -, hhashed⟩ := h.create he entry
  have hentries : ((c.create hash e entry).delete e).entries = c.entries := by
    simp [Client.delete, Client.create, ← he]
  exact ⟨hrepresents, hentries ▸ h.live, hentries ▸ h.content, hhashed⟩

/-- With a dummy the search finds the most recent entry with the key. -/
theorem Backs.find [DecidableEq K] (h : Backs n hash c xs) (hdummy : c.entries dummy = none)
    (hentry : entry.key = key) :
    (xs.map fun x => nodeOf x.1).find? ((c.create hash dummy entry).heap.hits (nodeOf dummy)
        (entry_eq (c.create hash dummy entry).entries)) =
      (xs.find? fun x => x.2.key = key).map fun x => nodeOf x.1 := by
  obtain ⟨-, -, hcontent, hhashed⟩ := h.create hdummy entry
  have hself : (c.create hash dummy entry).entries dummy = some entry := Function.update_self _ _ _
  have hcode : ((c.create hash dummy entry).heap.nodes (nodeOf dummy)).hcode = hash key := by
    simp [Client.create, hentry]
  rw [List.find?_map]
  congr 1
  refine List.find?_congr fun x hx => ?_
  simp only [Function.comp_apply, Heap.hits, hhashed x hx, hcode, entry_eq, container_of_nodeOf,
    hcontent x hx, hself, Option.map_some, hentry]
  by_cases hkey : x.2.key = key <;> simp [hkey]

/-- The value found, before the dummy goes out of scope. -/
theorem Backs.valueOf [DecidableEq K] (h : Backs n hash c xs) (hdummy : c.entries dummy = none) :
    (c.create hash dummy entry).valueOf
        ((xs.find? fun x => x.2.key = key).map fun x => nodeOf x.1) =
      ((xs.map Prod.snd).find? fun x => x.key = key).map Entry.value := by
  obtain ⟨-, -, hcontent, -⟩ := h.create hdummy entry
  have hfind : (xs.map Prod.snd).find? (fun x => x.key = key) =
      (xs.find? fun x => x.2.key = key).map Prod.snd := List.find?_map
  rw [hfind]
  cases hx : xs.find? fun x => x.2.key = key with
  | none => rfl
  | some x => simp [Client.valueOf, hcontent x (List.mem_of_find?_eq_some hx)]

/-- A new entry goes in front. -/
theorem Backs.put (h : Backs n hash c xs) (he : c.entries e = none) (entry : Entry K V) :
    ∃ heap, (c.create hash e entry).heap.insert (nodeOf e) = .ok heap ∧
      Backs n hash { c.create hash e entry with heap } ((e, entry) :: xs) := by
  obtain ⟨hnode, hrepresents, hcontent, hhashed⟩ := h.create he entry
  obtain ⟨heap, hinsert, hrepresents', hcodes⟩ := hrepresents.insert hnode
  have hself : (c.create hash e entry).entries e = some entry := Function.update_self _ _ _
  refine ⟨heap, hinsert, hrepresents', fun x hx => ?_, fun x hx => ?_, fun x hx => ?_⟩
  · by_cases hxe : x = e
    · simp [hxe]
    · have hold : (c.create hash e entry).entries x = c.entries x :=
        Function.update_of_ne hxe _ _
      exact List.mem_cons_of_mem _ (h.live x (hold ▸ hx))
  · rcases List.mem_cons.mp hx with rfl | hx
    · exact hself
    · exact hcontent x hx
  · rw [hcodes]
    rcases List.mem_cons.mp hx with rfl | hx
    · simp [Client.create]
    · exact hhashed x hx

/-- Deleting the entry that the map has given up. -/
theorem Backs.drop [DecidableEq K] (h : Backs n hash c xs) {heap : Heap ℕ} {x : ℕ × Entry K V}
    (hfind : xs.find? (fun x => x.2.key = key) = some x) (hcodes : heap.SameCodes c.heap)
    (hrepresents : Represents n heap ((xs.map fun x => nodeOf x.1).erase (nodeOf x.1))) :
    Backs n hash (Client.delete { c with heap } x.1) (xs.eraseP fun x => x.2.key = key) := by
  obtain ⟨hkey, as, bs, rfl, has⟩ := List.find?_eq_some_iff_append.mp hfind
  have hdistinct := h.represents.distinct
  have herase : (as ++ x :: bs).eraseP (fun x => x.2.key = key) = as ++ bs := by
    rw [List.eraseP_append_right _ (by simpa using has)]
    exact congrArg (as ++ ·) (List.eraseP_cons_of_pos hkey)
  have hne : ∀ y ∈ as ++ bs, y.1 ≠ x.1 := by
    intro y hy heq
    have hnodup : (nodeOf x.1 :: (as ++ bs).map fun x => nodeOf x.1).Nodup := by
      refine (List.Perm.nodup_iff ?_).mp hdistinct
      simp [List.perm_middle]
    refine (List.nodup_cons.mp hnodup).1 ?_
    rw [← heq]
    exact List.mem_map_of_mem hy
  have hold : ∀ y ∈ as ++ bs, y ∈ as ++ x :: bs := by
    intro y hy
    simp only [List.mem_append, List.mem_cons] at hy ⊢
    tauto
  rw [herase]
  refine ⟨?_, fun e he => ?_, fun y hy => ?_, fun y hy => ?_⟩
  · have hnotin : nodeOf x.1 ∉ as.map fun x => nodeOf x.1 := by
      intro hin
      obtain ⟨y, hy, heq⟩ := List.mem_map.mp hin
      exact hne y (List.mem_append_left _ hy) (nodeOf_injective heq)
    rw [List.map_append, List.map_cons, List.erase_append_right _ hnotin,
      List.erase_cons_head] at hrepresents
    rw [List.map_append]
    exact hrepresents
  · by_cases hex : e = x.1
    · simp [Client.delete, hex] at he
    · have hlive := h.live e (by simpa [Client.delete, hex] using he)
      simp only [List.map_append, List.map_cons, List.mem_append, List.mem_cons] at hlive ⊢
      tauto
  · exact (Function.update_of_ne (hne y hy) _ _).trans (h.content y (hold y hy))
  · have hcode : (heap.nodes (nodeOf y.1)).hcode = hash y.2.key :=
      (hcodes _).trans (h.hashed y (hold y hy))
    exact hcode

end Requests

section Runs
variable {K V : Type} [DecidableEq K] [DecidableEq V] [Inhabited V] {n n' : TableSize}
  {hash hash' : K → BitVec 64} {c c' : Client K V} {xs : List (ℕ × Entry K V)}
  {log log' evs : List (Answer K V)}

theorem Backs.step (h : Backs n hash c xs) {r : Request K V}
    (hs : c.step hash r = some (c', evs)) :
    ∃ xs', Backs n hash c' xs' ∧
      (contents K V).replayFrom (xs.map Prod.snd) evs = some (xs'.map Prod.snd) := by
  cases r with
  | put e key value =>
    obtain ⟨u, hguard, hs⟩ := Option.bind_eq_some_iff.mp hs
    have he : c.entries e = none := by simpa [guard] using hguard
    obtain ⟨heap, hinsert, hbacks⟩ := h.put he ⟨key, value⟩
    simp only [hinsert, Except.toOption, Option.bind_eq_bind, Option.bind_some] at hs
    obtain ⟨rfl, rfl⟩ := Prod.mk.inj (Option.some.inj hs)
    exact ⟨_, hbacks, by simp [contents]⟩
  | get dummy key =>
    obtain ⟨u, hguard, hs⟩ := Option.bind_eq_some_iff.mp hs
    have he : c.entries dummy = none := by simpa [guard] using hguard
    obtain ⟨-, hrepresents, -, -⟩ := h.create he ⟨key, default⟩
    simp only [hrepresents.lookup, h.find he rfl, Except.toOption, Option.bind_eq_bind,
      Option.bind_some, h.valueOf he] at hs
    obtain ⟨rfl, rfl⟩ := Prod.mk.inj (Option.some.inj hs)
    exact ⟨xs, h.scope he _, by simp [contents]⟩
  | drop dummy key =>
    obtain ⟨u, hguard, hs⟩ := Option.bind_eq_some_iff.mp hs
    have he : c.entries dummy = none := by simpa [guard] using hguard
    obtain ⟨-, hrepresents, -, -⟩ := h.create he ⟨key, default⟩
    obtain ⟨heap, hremove, hrepresents', hcodes⟩ := hrepresents.remove (nodeOf dummy)
      (entry_eq (c.create hash dummy ⟨key, default⟩).entries)
    rw [h.find he rfl] at hremove hrepresents'
    have hscope := h.scope he ⟨key, default⟩
    simp only [hremove, Except.toOption, Option.bind_eq_bind, Option.bind_some, h.valueOf he] at hs
    have hcontents : (xs.map Prod.snd).eraseP (fun x => x.key = key) =
        (xs.eraseP fun x => x.2.key = key).map Prod.snd := List.eraseP_map
    refine ⟨xs.eraseP fun x => x.2.key = key, ?_, ?_⟩
    · cases hfind : xs.find? fun x => x.2.key = key with
      | none =>
        rw [hfind] at hs hrepresents'
        obtain ⟨rfl, -⟩ := Prod.mk.inj (Option.some.inj hs)
        rw [List.eraseP_of_forall_not (by simpa using hfind)]
        exact ⟨hrepresents', hscope.live, hscope.content, fun x hx =>
          (hcodes _).trans (hscope.hashed x hx)⟩
      | some x =>
        rw [hfind] at hs hrepresents'
        obtain ⟨rfl, -⟩ := Prod.mk.inj (Option.some.inj hs)
        have hdrop := hscope.drop hfind hcodes hrepresents'
        have hne : dummy ≠ x.1 := by
          rintro rfl
          rw [h.content x (List.mem_of_find?_eq_some hfind)] at he
          cases he
        simpa [Client.delete, Client.create, Function.update_comm hne] using hdrop
    · obtain ⟨-, rfl⟩ := Prod.mk.inj (Option.some.inj hs)
      simp [contents, hcontents]

theorem backs_of_run (hrun : (dictionary n hash).Run c log) :
    ∃ xs, Backs n hash c xs ∧ (contents K V).replay log = some (xs.map Prod.snd) := by
  refine hrun.invariant
    (I := fun c log => ∃ xs, Backs n hash c xs ∧
      (contents K V).replay log = some (xs.map Prod.snd)) ?_
    fun c log r c' evs _ ⟨xs, h, hreplay⟩ _ hs => ?_
  · exact ⟨[], ⟨represents_construct n, by simp [dictionary], by simp, by simp⟩, rfl⟩
  · obtain ⟨xs', h', hevs⟩ := h.step hs
    exact ⟨xs', h', by rw [(contents K V).replay_append hreplay, hevs]⟩

/-- What was asked for. -/
def Answer.request : Answer K V → Answer K V
  | .put key value => .put key value
  | .got key _ => .got key none
  | .dropped key _ => .dropped key none

end Runs

/-- The entries of `main`, at other addresses and with a shadowed one. -/
def users : List (Request String String) :=
  [.put 1024 "user_1" "John Doe", .put 2048 "user_2" "Jane Doe", .put 512 "user_1" "Johnny",
    .get 96 "user_1", .drop 96 "user_1", .get 32 "user_1", .drop 32 "user_2", .get 96 "user_2"]

def byLength (key : String) : BitVec 64 := BitVec.ofNat 64 key.length

/-- One slot, where everything collides. -/
def oneSlot : TableSize := ⟨1, by decide⟩

end IntrusiveHashMap
