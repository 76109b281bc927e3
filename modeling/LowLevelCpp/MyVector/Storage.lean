import LowLevelCpp.MyVector.Model

/-! What the operations of `my::vector` do to objects and blocks, and when the discipline accepts
them, for elements whose constructors and copy assignments do not throw. -/
namespace MyVector
open Foundations Outcome

variable {T : Type}

namespace State

/-- What the discipline sees of a state. -/
def storage (s : State T) : Storage := ⟨s.blocks, fun b i => (s.objects b i).isSome⟩

end State

abbrev Followed (s : State T) (r : Result T) : Prop := Tracks discipline State.storage s r

abbrev Clean (s : State T) (r : Result T) : Prop := Accepted discipline State.storage s r

theorem Followed.clean_iff {s : State T} {r : Result T} (h : Followed s r) :
    Clean s r ↔ ∃ t, discipline.replayFrom s.storage r.events = some t :=
  Tracks.accepted_iff h

theorem clean_andThen_done {s : State T} {r : Result T} {g : State T → State T}
    (hg : ∀ s', (g s').storage = s'.storage) :
    Clean s (r.andThen fun s' => done (g s')) ↔ Clean s r :=
  accepted_andThen_done hg

theorem followed_done {g : State T → State T} (hg : ∀ s', (g s').storage = s'.storage)
    (s' : State T) : Followed s' (done (g s')) :=
  fun _ ht => (Option.some.inj ht).symm.trans (hg s').symm

section Operations
variable {s : State T} {E : Environment} {b i b' i' n : ℕ} {arg : Argument T} {e : Lifetime}

@[simp] theorem storage_blocks : s.storage.blocks = s.blocks := rfl

@[simp] theorem storage_live : s.storage.live b i = (s.objects b i).isSome := rfl

theorem setObject_objects (s : State T) (b i : ℕ) (object : Option T) (x j : ℕ) :
    (s.setObject b i object).objects x j = if x = b ∧ j = i then object else s.objects x j := by
  unfold State.setObject
  by_cases hx : x = b
  · subst hx
    by_cases hj : j = i
    · subst hj
      simp
    · simp [hj]
  · simp [hx]

theorem storage_setObject (s : State T) (b i : ℕ) (object : Option T) :
    (s.setObject b i object).storage = s.storage.setLive b i object.isSome := by
  have hlive : (s.setObject b i object).storage.live =
      (s.storage.setLive b i object.isSome).live := by
    funext x j
    simp only [storage_live, setObject_objects, Storage.setLive_live]
    split <;> rfl
  unfold State.storage at hlive ⊢
  exact congrArg (Storage.mk s.blocks) hlive

theorem setLive_of_eq {t : Storage} {value : Bool} (h : t.live b i = value) :
    t.setLive b i value = t := by
  unfold Storage.setLive
  rw [← h, Function.update_eq_self, Function.update_eq_self]

theorem attempt_of_throws {throws : ℕ → Bool} (h : throws s.calls = true) (f : State T → Result T) :
    s.attempt throws f = ⟨{ s with calls := s.calls + 1 }, [], true⟩ := by
  simp [State.attempt, h]

theorem attempt_of_not_throws {throws : ℕ → Bool} (h : throws s.calls = false)
    (f : State T → Result T) : s.attempt throws f = f { s with calls := s.calls + 1 } := by
  simp [State.attempt, h]

theorem followed_attempt {throws : ℕ → Bool} {f : State T → Result T}
    (hf : ∀ s', Followed s' (f s')) : Followed s (s.attempt throws f) := by
  cases h : throws s.calls with
  | true =>
    rw [attempt_of_throws h]
    exact tracks_done
  | false =>
    rw [attempt_of_not_throws h]
    exact hf { s with calls := s.calls + 1 }

theorem followed_store
    (he : ∀ t t', discipline.accept t e = some t' → t.setLive b i true = t') :
    Followed s (s.store E e b i arg) := by
  apply followed_attempt
  intro s t ht
  rw [storage_setObject]
  cases arg with
  | value v => exact (he _ _ (discipline.replayFrom_singleton.mp ht)).symm
  | object b' i' =>
    obtain ⟨t', hread, ht⟩ := discipline.replayFrom_cons_iff.mp ht
    obtain ⟨hlive, rfl⟩ := accept_copied.mp hread
    rw [← he _ _ (discipline.replayFrom_singleton.mp ht)]
    exact congrArg _ hlive.symm

theorem followed_construct : Followed s (s.construct E b i arg) :=
  followed_store fun _ _ ha => (accept_constructed.mp ha).2

theorem followed_assign : Followed s (s.assign E b i arg) := by
  apply followed_store
  intro t t' ha
  obtain ⟨hlive, rfl⟩ := accept_assigned.mp ha
  exact setLive_of_eq hlive

theorem followed_destroy : Followed s (s.destroy b i) := by
  intro t ht
  rw [← (accept_destroyed.mp (discipline.replayFrom_singleton.mp ht)).2]
  exact (storage_setObject s b i none).symm

theorem followed_relocate : Followed s (s.relocate b i b' i') := by
  intro t ht
  obtain ⟨t₁, hmoved, ht⟩ := discipline.replayFrom_cons_iff.mp ht
  obtain ⟨hlive, rfl⟩ := accept_movedFrom.mp hmoved
  obtain ⟨t₂, hbuilt, ht⟩ := discipline.replayFrom_cons_iff.mp ht
  obtain ⟨-, rfl⟩ := accept_constructed.mp hbuilt
  obtain ⟨-, rfl⟩ := accept_destroyed.mp (discipline.replayFrom_singleton.mp ht)
  have hsome : (s.objects b i).isSome = true := hlive
  unfold State.relocate
  rw [storage_setObject, storage_setObject, hsome]
  rfl

theorem followed_release {form : Form} : Followed s (s.release b form) := by
  intro t ht
  exact (accept_released.mp (discipline.replayFrom_singleton.mp ht)).2.symm

theorem followed_allocate {block : Block} : Followed s (s.allocate E block) := by
  apply followed_attempt
  intro s t ht
  exact (accept_allocated.mp (discipline.replayFrom_singleton.mp ht)).2.symm

theorem followed_destroyArray : Followed s (s.destroyArray b n) :=
  tracks_loop (fun _ _ => followed_destroy) n

theorem followed_newArray [Inhabited T] : Followed s (s.newArray E n) := by
  unfold State.newArray
  split
  · exact fun t ht => (Option.some.inj ht).symm
  · apply followed_allocate.andThen
    intro s'
    apply tracks_loop
    intro i s'
    apply followed_construct.onThrow
    intro s'
    exact followed_destroyArray.andThen fun _ => followed_release

theorem followed_deleteArray : Followed s (s.deleteArray b) := by
  unfold State.deleteArray
  split
  · exact tracks_done
  · split
    · exact followed_destroyArray.andThen fun _ => followed_release
    · exact followed_release

theorem followed_operatorDelete : Followed s (s.operatorDelete b) := by
  unfold State.operatorDelete
  split
  · exact tracks_done
  · exact followed_release

theorem followed_resize [Inhabited T] : Followed s (s.resize E n) := by
  apply followed_newArray.andThen
  intro s'
  apply (tracks_loop (fun _ _ => followed_assign) _).andThen
  intro s'
  exact followed_deleteArray.andThen fun s' t ht => (Option.some.inj ht).symm

theorem followed_relocateAll : Followed s (s.relocateAll E n) := by
  apply followed_allocate.andThen
  intro s'
  apply (tracks_loop (fun _ _ => followed_relocate) _).andThen
  intro s'
  exact followed_operatorDelete.andThen fun s' t ht => (Option.some.inj ht).symm

theorem followed_reserve : Followed s (s.reserve E n) := by
  unfold State.reserve
  split
  · exact tracks_done
  · exact followed_relocateAll

theorem followed_shift : Followed s (s.shift n) := tracks_loop (fun _ _ => followed_relocate) _

theorem clean_destroy : Clean s (s.destroy b i) ↔ (s.objects b i).isSome = true := by
  rw [followed_destroy.clean_iff]
  unfold State.destroy
  simp only [Spec.replayFrom_singleton, accept_destroyed, exists_and_left, exists_eq', and_true,
    storage_live]

theorem clean_relocate : Clean s (s.relocate b i b' i') ↔
    (s.objects b i).isSome = true ∧ s.storage.Free b' i' := by
  rw [followed_relocate.clean_iff]
  unfold State.relocate
  simp only [Spec.replayFrom_cons_iff, Spec.replayFrom_nil, Option.some.injEq, exists_eq_right,
    accept_movedFrom, accept_constructed, accept_destroyed]
  constructor
  · rintro ⟨t, t₁, ⟨hlive, rfl⟩, t₂, ⟨hfree, -⟩, -⟩
    exact ⟨hlive, hfree⟩
  · rintro ⟨hlive, hfree⟩
    refine ⟨_, _, ⟨hlive, rfl⟩, _, ⟨hfree, rfl⟩, ?_, rfl⟩
    rw [Storage.setLive_live]
    split
    · rfl
    · exact hlive

theorem clean_release {form : Form} :
    Clean s (s.release b form) ↔ s.storage.Releasable b form := by
  rw [followed_release.clean_iff]
  unfold State.release
  simp only [Spec.replayFrom_singleton, accept_released, exists_and_left, exists_eq', and_true]

theorem clean_allocate {block : Block} (hnext : s.blocks s.next = none) :
    Clean s (s.allocate E block) := by
  cases h : E.allocationThrows s.calls with
  | true =>
    unfold State.allocate
    rw [attempt_of_throws h]
    rfl
  | false =>
    rw [followed_allocate.clean_iff]
    unfold State.allocate
    rw [attempt_of_not_throws h]
    exact ⟨_, discipline.replayFrom_singleton.mpr (accept_allocated.mpr ⟨hnext, rfl⟩)⟩

theorem clean_operatorDelete :
    Clean s (s.operatorDelete b) ↔ b = nullptr ∨ s.storage.Releasable b .raw := by
  unfold State.operatorDelete
  split
  · rename_i hb
    exact ⟨fun _ => .inl hb, fun _ => accepted_done⟩
  · rename_i hb
    simp [clean_release, hb]

/-- What is read is alive. -/
def Readable (s : State T) : Argument T → Prop
  | .value _ => True
  | .object b i => (s.objects b i).isSome = true

section NoThrow
variable (hE : ∀ k, E.elementThrows k = false)
include hE

theorem store_eq : s.store E e b i arg =
    ⟨{ s with calls := s.calls + 1 }.setObject b i (s.fetch arg), arg.reads ++ [e], false⟩ := by
  unfold State.store
  rw [attempt_of_not_throws (hE _)]
  cases arg <;> rfl

/-- The argument is read before the slot changes. -/
theorem clean_store_iff (he : ∀ t t', discipline.accept t e = some t' → t.setLive b i true = t') :
    Clean s (s.store E e b i arg) ↔
      Readable s arg ∧ ∃ t, discipline.accept s.storage e = some t := by
  rw [(followed_store he).clean_iff, store_eq hE]
  cases arg with
  | value v => simp [Argument.reads, Readable]
  | object b' i' =>
    simp only [Argument.reads, Readable, List.singleton_append, Spec.replayFrom_cons_iff,
      Spec.replayFrom_nil, Option.some.injEq, exists_eq_right, accept_copied, storage_live]
    constructor
    · rintro ⟨t, t', ⟨hlive, rfl⟩, ha⟩
      exact ⟨hlive, t, ha⟩
    · rintro ⟨hlive, t, ha⟩
      exact ⟨t, _, ⟨hlive, rfl⟩, ha⟩

theorem clean_construct :
    Clean s (s.construct E b i arg) ↔ Readable s arg ∧ s.storage.Free b i := by
  unfold State.construct
  rw [clean_store_iff hE fun _ _ ha => (accept_constructed.mp ha).2]
  simp only [accept_constructed, exists_and_left, exists_eq', and_true]

theorem clean_assign :
    Clean s (s.assign E b i arg) ↔ Readable s arg ∧ (s.objects b i).isSome = true := by
  have haccept (t t' : Storage) (ha : discipline.accept t (.assigned b i) = some t') :
      t.setLive b i true = t' := by
    obtain ⟨hlive, rfl⟩ := accept_assigned.mp ha
    exact setLive_of_eq hlive
  unfold State.assign
  rw [clean_store_iff hE haccept]
  simp only [accept_assigned, exists_and_left, exists_eq', and_true, storage_live]

end NoThrow
end Operations

section Loops
variable {s : State T} {E : Environment} {b b' n : ℕ}

def State.withObjects (s : State T) (objects : ℕ → ℕ → Option T) : State T := { s with objects }

theorem setObject_eq (s : State T) (b i : ℕ) (object : Option T) :
    s.setObject b i object =
      s.withObjects fun x j => if x = b ∧ j = i then object else s.objects x j := by
  unfold State.withObjects
  rw [← (funext fun x => funext fun j => setObject_objects s b i object x j)]
  rfl

/-- The objects in the first `n` slots of a block are gone. -/
def cleared (objects : ℕ → ℕ → Option T) (b n : ℕ) : ℕ → ℕ → Option T :=
  fun x j => if x = b ∧ j < n then none else objects x j

/-- The first `n` slots of a block hold what the function gives. -/
def filled (objects : ℕ → ℕ → Option T) (b n : ℕ) (f : ℕ → Option T) : ℕ → ℕ → Option T :=
  fun x j => if x = b ∧ j < n then f j else objects x j

/-- The last `k` of the objects in the slots up to `n` have moved up by one. -/
def shifted (objects : ℕ → ℕ → Option T) (b n k : ℕ) : ℕ → ℕ → Option T :=
  fun x j =>
    if x = b ∧ n - k ≤ j ∧ j ≤ n ∧ 0 < k then if j = n - k then none else objects b (j - 1)
    else objects x j

theorem withObjects_of_eq {objects : ℕ → ℕ → Option T} (h : ∀ x j, objects x j = s.objects x j) :
    s.withObjects objects = s := by
  unfold State.withObjects
  rw [funext fun x => funext (h x)]

theorem destroy_ends {f g : ℕ → ℕ → Option T} {b i : ℕ}
    (h : ∀ x j, (if x = b ∧ j = i then none else f x j) = g x j) :
    (State.destroy b i (s.withObjects f)).Ends (s.withObjects g) := by
  constructor
  · rfl
  · unfold State.destroy
    rw [setObject_eq]
    exact congrArg s.withObjects (funext fun x => funext (h x))

theorem relocate_ends {f g : ℕ → ℕ → Option T} {b i b' i' : ℕ}
    (h : ∀ x j, (if x = b ∧ j = i then none else if x = b' ∧ j = i' then f b i else f x j) =
      g x j) :
    (State.relocate b i b' i' (s.withObjects f)).Ends (s.withObjects g) := by
  constructor
  · rfl
  · unfold State.relocate
    rw [setObject_eq, setObject_eq]
    exact congrArg s.withObjects (funext fun x => funext (h x))

/-- The objects before each iteration of `destroyArray`. -/
def State.destroying (s : State T) (b n k : ℕ) : State T :=
  s.withObjects fun x j => if x = b ∧ n - k ≤ j ∧ j < n then none else s.objects x j

theorem destroying_zero : s.destroying b n 0 = s :=
  withObjects_of_eq fun _ _ => if_neg fun h => absurd h.2.2 (Nat.not_lt.mpr h.2.1)

theorem destroying_step {k : ℕ} (hk : k < n) :
    (State.destroy b (n - 1 - k) (s.destroying b n k)).Ends (s.destroying b n (k + 1)) := by
  unfold State.destroying
  apply destroy_ends
  intro x j
  grind

theorem destroyArray_ends : (s.destroyArray b n).Ends (s.withObjects (cleared s.objects b n)) := by
  have hloop := ends_loop (s.destroying b n) fun k hk => destroying_step hk
  rw [destroying_zero] at hloop
  have hlast : s.destroying b n n = s.withObjects (cleared s.objects b n) := by
    unfold State.destroying cleared
    simp
  exact hlast ▸ hloop

theorem clean_destroyArray :
    Clean s (s.destroyArray b n) ↔ ∀ i < n, (s.objects b i).isSome = true := by
  have hloop := accepted_loop (fun _ _ => followed_destroy) (s.destroying b n)
    fun k hk => destroying_step hk
  rw [destroying_zero] at hloop
  apply hloop.trans
  have hobject {k : ℕ} (hk : k < n) :
      (s.destroying b n k).objects b (n - 1 - k) = s.objects b (n - 1 - k) := by
    apply if_neg
    omega
  constructor
  · intro h i hi
    have hlast := clean_destroy.mp (h (n - 1 - i) (by omega))
    rw [hobject (by omega)] at hlast
    rwa [show n - 1 - (n - 1 - i) = i by omega] at hlast
  · intro h k hk
    apply clean_destroy.mpr
    rw [hobject hk]
    exact h _ (by omega)

theorem cleared_zero : s.withObjects (cleared s.objects b 0) = s :=
  withObjects_of_eq fun _ _ => by simp [cleared]

theorem cleared_step (k : ℕ) : (State.destroy b k (s.withObjects (cleared s.objects b k))).Ends
    (s.withObjects (cleared s.objects b (k + 1))) := by
  apply destroy_ends
  intro x j
  unfold cleared
  grind

theorem destroyLoop_ends : (loop (fun i => State.destroy b i) n s).Ends
    (s.withObjects (cleared s.objects b n)) := by
  have hloop := ends_loop (fun k => s.withObjects (cleared s.objects b k)) (n := n)
    fun k _ => cleared_step k
  rwa [cleared_zero] at hloop

theorem clean_destroyLoop : Clean s (loop (fun i => State.destroy b i) n s) ↔
    ∀ i < n, (s.objects b i).isSome = true := by
  have hloop := accepted_loop (fun _ _ => followed_destroy)
    (fun k => s.withObjects (cleared s.objects b k)) (n := n) fun k _ => cleared_step k
  rw [cleared_zero] at hloop
  refine hloop.trans (forall₂_congr fun k _ => clean_destroy.trans ?_)
  simp [State.withObjects, cleared]

theorem clean_deleteArray : Clean s (s.deleteArray b) ↔ b = nullptr ∨
    ∃ n, s.blocks b = some ⟨.array, n⟩ ∧ ∀ i < n, (s.objects b i).isSome = true := by
  unfold State.deleteArray
  split
  · rename_i hb
    exact ⟨fun _ => .inl hb, fun _ => accepted_done⟩
  rename_i hb
  split
  · rename_i n hblock
    apply (accepted_andThen followed_destroyArray destroyArray_ends).trans
    constructor
    · rintro ⟨hdestroy, -⟩
      exact .inr ⟨n, hblock, clean_destroyArray.mp hdestroy⟩
    · rintro (h | ⟨n', hblock', hlive⟩)
      · exact absurd h hb
      obtain ⟨-, rfl⟩ := Block.mk.inj (Option.some.inj (hblock.symm.trans hblock'))
      refine ⟨clean_destroyArray.mpr hlive, clean_release.mpr ⟨_, hblock, rfl, ?_⟩⟩
      intro i hi
      simp [State.withObjects, cleared, hi]
  · rename_i hblock
    rw [clean_release]
    constructor
    · rintro ⟨⟨form, n⟩, hb', hform, -⟩
      cases hform
      exact absurd hb' (hblock n)
    · rintro (h | ⟨n, hblock', -⟩)
      · exact absurd h hb
      · exact absurd hblock' (hblock n)

def State.lengthOf (s : State T) (b : ℕ) : ℕ := (s.blocks b).elim 0 Block.length

theorem deleteArray_ends (hnull : b = nullptr → s.blocks b = none)
    (hraw : ∀ n, s.blocks b ≠ some ⟨.raw, n⟩) :
    (s.deleteArray b).Ends { s.withObjects (cleared s.objects b (s.lengthOf b)) with
      blocks := Function.update s.blocks b none } := by
  have hnone (hb : s.blocks b = none) :
      s.withObjects (cleared s.objects b (s.lengthOf b)) = s := by
    apply withObjects_of_eq
    simp [cleared, State.lengthOf, hb]
  unfold State.deleteArray
  split
  · rename_i hb
    rw [hnone (hnull hb), Function.update_eq_self_iff.mpr (hnull hb).symm]
    exact ends_done s
  · split
    · rename_i n hblock
      simp only [State.lengthOf, hblock]
      exact destroyArray_ends.andThen ⟨rfl, rfl⟩
    · rename_i hblock
      have hb : s.blocks b = none := by
        cases hblock' : s.blocks b with
        | none => rfl
        | some block =>
          obtain ⟨form, n⟩ := block
          cases form with
          | array => exact absurd hblock' (hblock n)
          | raw => exact absurd hblock' (hraw n)
      rw [hnone hb]
      exact ⟨rfl, rfl⟩

theorem operatorDelete_ends (hnull : b = nullptr → s.blocks b = none) :
    (s.operatorDelete b).Ends { s with blocks := Function.update s.blocks b none } := by
  unfold State.operatorDelete
  split
  · rename_i hb
    rw [Function.update_eq_self_iff.mpr (hnull hb).symm]
    exact ends_done s
  · exact ⟨rfl, rfl⟩

/-- The state after a successful allocation. -/
def State.allocated (s : State T) (block : Block) : State T :=
  { s with
    blocks := Function.update s.blocks s.next (some block)
    next := s.next + 1
    calls := s.calls + 1 }

theorem allocate_of_throws {block : Block} (h : E.allocationThrows s.calls = true) :
    s.allocate E block = ⟨{ s with calls := s.calls + 1 }, [], true⟩ :=
  attempt_of_throws h _

theorem allocate_ends {block : Block} (h : E.allocationThrows s.calls = false) :
    (s.allocate E block).Ends (s.allocated block) := by
  unfold State.allocate
  rw [attempt_of_not_throws h]
  exact ⟨rfl, rfl⟩

/-- The objects in the first `k` slots of a block have moved to another block. -/
def relocated (objects : ℕ → ℕ → Option T) (b b' k : ℕ) : ℕ → ℕ → Option T :=
  cleared (filled objects b' k (objects b)) b k

theorem relocated_step (hb : b ≠ b') (k : ℕ) :
    (State.relocate b k b' k (s.withObjects (relocated s.objects b b' k))).Ends
      (s.withObjects (relocated s.objects b b' (k + 1))) := by
  apply relocate_ends
  intro x j
  unfold relocated cleared filled
  grind

theorem relocated_zero : s.withObjects (relocated s.objects b b' 0) = s :=
  withObjects_of_eq fun _ _ => by simp [relocated, cleared, filled]

theorem relocateLoop_ends (hb : b ≠ b') :
    (loop (fun i => State.relocate b i b' i) n s).Ends
      (s.withObjects (relocated s.objects b b' n)) := by
  have hloop := ends_loop (fun k => s.withObjects (relocated s.objects b b' k)) (n := n)
    fun k _ => relocated_step hb k
  rwa [relocated_zero] at hloop

theorem clean_relocateLoop (hb : b ≠ b') :
    Clean s (loop (fun i => State.relocate b i b' i) n s) ↔
      ∀ i < n, (s.objects b i).isSome = true ∧ s.storage.Free b' i := by
  have hloop := accepted_loop (fun _ _ => followed_relocate)
    (fun k => s.withObjects (relocated s.objects b b' k)) (n := n) fun k _ => relocated_step hb k
  rw [relocated_zero] at hloop
  refine hloop.trans (forall₂_congr fun k _ => clean_relocate.trans ?_)
  simp [State.withObjects, relocated, cleared, filled, Storage.Free, hb, hb.symm]

theorem shifted_zero : s.withObjects (shifted s.objects b n 0) = s :=
  withObjects_of_eq fun _ _ => by simp [shifted]

theorem shifted_step {k : ℕ} (hk : k < n) :
    (State.relocate b (n - k - 1) b (n - k) (s.withObjects (shifted s.objects b n k))).Ends
      (s.withObjects (shifted s.objects b n (k + 1))) := by
  apply relocate_ends
  intro x j
  unfold shifted
  grind

theorem shift_ends {index : ℕ} : (s.shift index).Ends
    (s.withObjects (shifted s.objects s.data s.size (s.size - index))) := by
  have hloop := ends_loop (fun k => s.withObjects (shifted s.objects s.data s.size k))
    (n := s.size - index) fun _ hk => shifted_step (Nat.lt_of_lt_of_le hk (Nat.sub_le _ _))
  rwa [shifted_zero] at hloop

/-- The first object to move needs a free slot, each other one that of its successor. -/
theorem clean_shift {index : ℕ} {block : Block} (hblock : s.blocks s.data = some block)
    (hsize : s.size ≤ block.length) (hlive : ∀ i < s.size, (s.objects s.data i).isSome = true) :
    Clean s (s.shift index) ↔ (index < s.size → s.storage.Free s.data s.size) := by
  have hloop := accepted_loop (fun _ _ => followed_relocate)
    (fun k => s.withObjects (shifted s.objects s.data s.size k)) (n := s.size - index)
    fun _ hk => shifted_step (Nat.lt_of_lt_of_le hk (Nat.sub_le _ _))
  rw [shifted_zero] at hloop
  apply hloop.trans
  constructor
  · intro h hindex
    have hfirst := (clean_relocate.mp (h 0 (by omega))).2
    simpa [State.withObjects, shifted, Storage.Free] using hfirst
  · intro h k hk
    apply clean_relocate.mpr
    constructor
    · simp only [State.withObjects, shifted]
      rw [if_neg (by omega)]
      exact hlive _ (by omega)
    · cases k with
      | zero => simpa [State.withObjects, shifted, Storage.Free] using h (by omega)
      | succ k =>
        refine ⟨block, hblock, by omega, ?_⟩
        simp [State.withObjects, shifted]

end Loops

end MyVector
