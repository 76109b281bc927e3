import LowLevelCpp.Foundations.Clients
import LowLevelCpp.MyVector.Reference
import Mathlib.Data.Nat.Log

/-! What it costs to append: a full vector allocates and touches every element, but as its capacity
doubles, the elements appended since pay for that. The potential is what they have paid in
advance. -/
namespace MyVector
open Foundations Foundations.System Outcome

variable {T : Type} {E : Environment} {s s' : State T} {b b' i i' n k m : ℕ}

def allocates : Lifetime → Bool
  | .allocated _ _ => true
  | _ => false

/-- At most `k` allocations and `m` other operations on objects and blocks. -/
abbrev Spends (k m : ℕ) (r : Result T) : Prop := Costs allocates k m r

section Operations

theorem spends_attempt {throws : ℕ → Bool} {f : State T → Result T}
    (h : ∀ s', Spends k m (f s')) : Spends k m (s.attempt throws f) := by
  unfold State.attempt
  split
  · exact ⟨Nat.zero_le _, Nat.zero_le _⟩
  · exact h _

theorem spends_store {e : Lifetime} (he : allocates e = false) (v : T) :
    Spends 0 1 (s.store E e b i (.value v)) := by
  apply spends_attempt
  intro s
  apply costs_of_forall
  · simp [Argument.reads, he]
  · simp [Argument.reads]

theorem spends_copy {e : Lifetime} (he : allocates e = false) :
    Spends 0 2 (s.store E e b i (.object b' i')) := by
  apply spends_attempt
  intro s
  apply costs_of_forall
  · simp [Argument.reads, he]
    rfl
  · simp [Argument.reads]

theorem spends_destroy : Spends 0 1 (s.destroy b i) :=
  costs_of_forall (by simp [State.destroy, allocates]) (Nat.le_refl 1)

theorem spends_relocate : Spends 0 3 (s.relocate b i b' i') :=
  costs_of_forall (by simp [State.relocate, allocates]) (Nat.le_refl 3)

theorem spends_release {form : Form} : Spends 0 1 (s.release b form) :=
  costs_of_forall (by simp [State.release, allocates]) (Nat.le_refl 1)

theorem spends_allocate {block : Block} : Spends 1 0 (s.allocate E block) :=
  spends_attempt fun _ => ⟨Nat.le_refl 1, Nat.le_refl 0⟩

theorem spends_loop {body : ℕ → State T → Result T} (h : ∀ i s', Spends 0 m (body i s')) (n : ℕ) :
    Spends 0 (n * m) (loop body n s) := by
  simpa using costs_loop h n

theorem spends_deleteArray : Spends 0 (s.lengthOf b + 1) (s.deleteArray b) := by
  unfold State.deleteArray
  split
  · exact costs_done.mono (Nat.le_refl 0) (Nat.zero_le _)
  · split
    · rename_i n hblock
      have hlength : s.lengthOf b = n * 1 := by simp [State.lengthOf, hblock]
      rw [hlength]
      exact (spends_loop (fun _ _ => spends_destroy) n).andThen fun _ => spends_release
    · exact spends_release.mono (Nat.le_refl 0) (Nat.le_add_left 1 _)

theorem spends_operatorDelete : Spends 0 1 (s.operatorDelete b) := by
  unfold State.operatorDelete
  split
  · exact costs_done.mono (Nat.le_refl 0) (Nat.zero_le _)
  · exact spends_release

theorem spends_relocateAll (hp : Placed s) : Spends 1 (3 * s.size + 1) (s.relocateAll E n) := by
  cases hthrows : E.allocationThrows s.calls with
  | true =>
    rw [relocateAll_fails hthrows]
    exact ⟨Nat.zero_le _, Nat.zero_le _⟩
  | false =>
    have hmove : Spends 0 (s.size * 3) (loop (fun i => State.relocate s.data i s.next i) s.size
        (s.allocated ⟨.raw, rawLength E n⟩)) := spends_loop (fun _ _ => spends_relocate) _
    have hfree : Spends 0 1 (((s.withMoved E n).operatorDelete s.data).andThen fun s' =>
        done { s' with data := s.next, capacity := n }) := spends_operatorDelete.finish
    unfold State.relocateAll State.operatorNew
    apply spends_allocate.andThenFrom (allocate_ends hthrows)
    · exact hmove.andThenFrom (relocateLoop_ends (Nat.ne_of_lt hp.data)) hfree (Nat.le_refl 0)
        (Nat.le_refl _)
    · exact Nat.le_refl 1
    · omega

section NewArray
variable [Inhabited T] (hE : ∀ k, E.elementThrows k = false)
include hE

theorem spends_newArray : Spends 1 n (s.newArray E n) := by
  by_cases hfails : s.ArrayFails E n
  · obtain ⟨calls, hnew⟩ := newArray_fails hfails
    rw [hnew]
    exact ⟨Nat.zero_le _, Nat.zero_le _⟩
  · rw [newArray_eq hE hfails]
    have hfill (s' : State T) : Spends 0 (n * 1)
        (loop (fun i s' => State.construct E s.next i (.value default) s') n s') :=
      spends_loop (fun _ _ => spends_store rfl default) n
    exact (spends_allocate.andThen fun _ => hfill _).mono (Nat.le_refl 1) (by omega)

theorem spends_resize (hp : Placed s) :
    Spends 1 (n + 2 * s.size + s.length + 1) (s.resize E n) := by
  by_cases hfails : s.ArrayFails E n
  · obtain ⟨calls, hresize⟩ := resize_fails hfails
    rw [hresize]
    exact ⟨Nat.zero_le _, Nat.zero_le _⟩
  · have hcopy : Spends 0 (s.size * 2)
        (loop (fun i => State.assign E s.next i (.object s.data i)) s.size (s.withArray n)) :=
      spends_loop (fun _ _ => spends_copy rfl) _
    have hlength : (s.withCopies n).lengthOf s.data = s.length := by
      unfold State.length State.lengthOf
      rw [(withCopies_data hp).1]
    have hfree : Spends 0 (s.length + 1) (((s.withCopies n).deleteArray s.data).andThen fun s' =>
        done { s' with data := s.next, capacity := n }) :=
      Costs.finish (hlength ▸ spends_deleteArray)
    have hcopied : (loop (fun i => State.assign E s.next i (.object s.data i)) s.size
        (s.withArray n)).Ends (s.withCopies n) := copyLoop_ends hE (Nat.ne_of_lt hp.data)
    unfold State.resize
    apply (spends_newArray hE).andThenFrom (newArray_ends hE hfails)
    · exact hcopy.andThenFrom hcopied hfree (Nat.le_refl 0) (Nat.le_refl _)
    · exact Nat.le_refl 1
    · omega

end NewArray
end Operations

/-- What the appended elements have paid for the next growth, and for the destruction of each. -/
def State.potential (s : State T) : ℕ := 5 * (2 * s.size - s.capacity) + s.size

theorem inBuffer_length (block : Block) (objects : ℕ → ℕ → Option T) (capacity calls : ℕ)
    (hp : Placed s) : (s.inBuffer block objects capacity calls).length = block.length := by
  unfold State.length State.lengthOf
  rw [inBuffer_block block objects capacity calls hp]
  rfl

/-- What comes before an element is appended: nothing, an allocation that fails, or growth. -/
inductive MakesRoom (s : State T) (r : Result T) : Prop
  | spare : r.events = [] → r.state.size = s.size → r.state.capacity = s.capacity →
      r.state.length = s.length → MakesRoom s r
  | grown : r.threw = false → s.size = s.capacity →
      Spends 1 (s.asked + 3 * s.capacity + 1) r → r.state.size = s.size →
      r.state.capacity = s.asked → r.state.length = s.asked → MakesRoom s r

section Room
variable (hp : Placed s) (hfull : s.size = s.capacity)
include hp hfull

theorem relocateAll_makesRoom (hbytes : s.asked * E.sizeof < SIZE_RANGE) :
    MakesRoom s (s.relocateAll E s.asked) := by
  cases hthrows : E.allocationThrows s.calls with
  | true =>
    rw [relocateAll_fails hthrows]
    exact .spare rfl rfl rfl rfl
  | false =>
    obtain ⟨hthrew, hends⟩ := relocateAll_ends (n := s.asked) hthrows hp
    have hspends := spends_relocateAll (E := E) (n := s.asked) hp
    apply MakesRoom.grown hthrew hfull (hspends.mono (Nat.le_refl 1) (by omega))
    · rw [hends]
      rfl
    · rw [hends]
      rfl
    · rw [hends]
      exact (inBuffer_length ⟨.raw, rawLength E s.asked⟩ _ _ _ hp).trans (rawLength_of_lt hbytes)

theorem resize_makesRoom [Inhabited T] (hE : ∀ k, E.elementThrows k = false)
    (hlength : s.length ≤ s.capacity) : MakesRoom s (s.resize E s.asked) := by
  by_cases hfails : s.ArrayFails E s.asked
  · obtain ⟨calls, hresize⟩ := resize_fails hfails
    rw [hresize]
    exact .spare rfl rfl rfl rfl
  · obtain ⟨objects, hdelete, -⟩ := deleteArray_frees (s := s.withCopies s.asked) (b := s.data)
      fun hnull => (withCopies_data hp).1.trans (hp.nullptr hnull)
    obtain ⟨hthrew, hends⟩ := resize_ends_of_delete hE hfails hp hdelete
    have hspends := spends_resize (n := s.asked) hE hp
    apply MakesRoom.grown hthrew hfull (hspends.mono (Nat.le_refl 1) (by omega))
    · rw [hends]
      rfl
    · rw [hends]
    · rw [hends]
      exact inBuffer_length ⟨.array, s.asked⟩ objects _ _ hp

end Room

/-- The call is paid for by the potential and by `13` for each element that it appends. Either the
buffer is the same, or a full vector has allocated one of twice the capacity. -/
inductive Pays (s : State T) (r : Result T) (pushed : ℕ) : Prop
  | spare {m : ℕ} : Spends 0 m r → m + r.state.potential ≤ s.potential + 13 * pushed →
      r.state.size ≤ s.size + pushed → r.state.capacity = s.capacity → r.state.length = s.length →
      Pays s r pushed
  | grown {m : ℕ} : Spends 1 m r → m + r.state.potential ≤ s.potential + 13 * pushed →
      r.state.size ≤ s.size + pushed → s.size = s.capacity → 0 < pushed →
      r.state.capacity = s.asked → r.state.length = s.asked → Pays s r pushed

/-- What stores an element in the next slot. -/
structure Appends (s : State T) (r : Result T) : Prop where
  returns : r.threw = false
  spends : Spends 0 1 r
  size : r.state.size ≤ s.size + 1
  capacity : r.state.capacity = s.capacity
  length : r.state.length = s.length

theorem incrementSize_le (s : State T) : s.incrementSize.size ≤ s.size + 1 := Nat.mod_le _ _

section Appending
variable (hE : ∀ k, E.elementThrows k = false)
include hE

theorem appends_assign (v : T) :
    Appends s (s.incrementSize.assign E s.data s.size (.value v)) := by
  obtain ⟨hthrew, hends⟩ := assign_ends hE s.incrementSize s.data s.size (.value v)
  refine ⟨hthrew, spends_store rfl v, ?_, ?_, ?_⟩
  all_goals rw [hends]
  · exact incrementSize_le s
  all_goals rfl

theorem appends_construct (v : T) : Appends s ((s.construct E s.data s.size (.value v)).andThen
    fun s => done s.incrementSize) := by
  obtain ⟨hthrew, hends⟩ := (construct_ends hE s s.data s.size (.value v)).andThen
    (f := fun s => done s.incrementSize) (ends_done _)
  refine ⟨hthrew, (spends_store rfl v).finish, ?_, ?_, ?_⟩
  all_goals rw [hends]
  · exact incrementSize_le _
  all_goals rfl

end Appending

/-- The members that neither insert in the middle nor change the capacity on request. -/
def Act.appends : Act T → Bool
  | .pushBack _ | .emplaceBack _ | .popBack | .clear | .subscript _ => true
  | .emplace _ _ | .reserve _ | .shrinkToFit | .destruct => false

def Act.pushes : Act T → Bool
  | .pushBack _ | .emplaceBack _ => true
  | _ => false

/-- How many elements a call appends: none if it is left by an exception. -/
def Act.appended (act : Act T) (threw : Bool) : ℕ := if act.pushes && !threw then 1 else 0

theorem appended_of_threw (act : Act T) : act.appended true = 0 := by
  simp [Act.appended]

theorem appended_of_pushes {act : Act T} (h : act.pushes = true) : act.appended false = 1 := by
  simp [Act.appended, h]

theorem MakesRoom.pays {r : Result T} {f : State T → Result T} {act : Act T}
    (h : MakesRoom s r) (hpush : act.pushes = true) (hf : ∀ s', Appends s' (f s')) :
    Pays s (r.andThen f) (act.appended (r.andThen f).threw) := by
  obtain ⟨hreturns, hspends, hsize', hcapacity', hlength'⟩ := hf r.state
  cases h with
  | spare hevents hsize hcapacity hlength =>
    have hnone : Spends 0 0 r := costs_of_forall (by simp [hevents]) (by simp [hevents])
    cases hthrew : r.threw with
    | true =>
      rw [andThen_of_threw hthrew, hthrew, appended_of_threw]
      refine .spare hnone ?_ (Nat.le_of_eq hsize) hcapacity hlength
      unfold State.potential
      rw [hsize, hcapacity]
      omega
    | false =>
      have hboth := hnone.andThen fun _ => hspends
      have hgrowth : (f r.state).state.size ≤ s.size + 1 := by omega
      rw [andThen_of_not_threw hthrew, hreturns] at hboth ⊢
      rw [appended_of_pushes hpush]
      refine .spare hboth ?_ hgrowth (hcapacity'.trans hcapacity) (hlength'.trans hlength)
      unfold State.potential
      simp only [hcapacity', hcapacity]
      omega
  | grown hthrew hfull hroom hsize hcapacity hlength =>
    have hasked : s.asked = if s.capacity = 0 then 1 else s.capacity * 2 := rfl
    have hboth := hroom.andThen fun _ => hspends
    have hgrowth : (f r.state).state.size ≤ s.size + 1 := by omega
    rw [andThen_of_not_threw hthrew, hreturns] at hboth ⊢
    rw [appended_of_pushes hpush]
    refine .grown hboth ?_ hgrowth hfull Nat.one_pos (hcapacity'.trans hcapacity)
      (hlength'.trans hlength)
    unfold State.potential
    simp only [hcapacity', hcapacity]
    split at hasked <;> omega

theorem pays_popBack : Pays s s.popBack 0 := by
  unfold State.popBack
  split
  · refine .spare (spends_destroy (s := { s with size := s.size - 1 })) ?_ (Nat.sub_le _ _) rfl rfl
    unfold State.potential State.destroy State.setObject
    simp only
    omega
  · exact .spare costs_done (by simp [done]) (Nat.le_refl _) rfl rfl

theorem pays_clear : Pays s s.clear 0 := by
  have hspends : Spends 0 (s.size * 1) s.clear :=
    Costs.finish (spends_loop (fun _ _ => spends_destroy) _)
  have hends := (destroyLoop_ends (s := s) (b := s.data) (n := s.size)).andThen
    (f := fun s' => done { s' with size := 0 }) ⟨rfl, rfl⟩
  have hstate : s.clear.state =
      { s with objects := cleared s.objects s.data s.size, size := 0 } := hends.2
  refine .spare hspends ?_ ?_ ?_ ?_
  all_goals rw [hstate]
  · unfold State.potential
    simp only
    omega
  · exact Nat.zero_le _
  · rfl

theorem asked_eq {g : ℕ} (h : s.capacity = 2 ^ g / 2) : s.asked = 2 ^ (g + 1) / 2 := by
  have hpow : 2 ^ (g + 1) / 2 = 2 ^ g := by
    rw [pow_succ, Nat.mul_div_cancel _ Nat.two_pos]
  unfold State.asked
  rw [h, hpow]
  cases g with
  | zero => rfl
  | succ g =>
    have hpos : 2 ^ g ≠ 0 := (Nat.two_pow_pos g).ne'
    rw [pow_succ, Nat.mul_div_cancel _ Nat.two_pos, if_neg hpos]

theorem pow_le_of_half (g : ℕ) : 2 ^ (g + 1) ≤ 4 * (2 ^ g / 2) + 2 := by
  cases g with
  | zero => exact Nat.le_refl 2
  | succ g =>
    rw [pow_succ _ (g + 1), pow_succ, Nat.mul_div_cancel _ Nat.two_pos]
    omega

/-- What is known of a vector to which `n` elements have been appended: the operations so far and
the potential are paid for, and after `g` growths the capacity is `2 ^ (g - 1)`. -/
structure Accounted (E : Environment) (n : ℕ) (s : State T) (log : List Event) : Prop where
  stores : ∃ xs, Stores E s xs
  length : s.length ≤ s.capacity
  size : s.size ≤ n
  paid : (lifetimes log).countP (fun e => !allocates e) + s.potential ≤ 13 * n
  grown : ∃ g, (lifetimes log).countP allocates ≤ g ∧ s.capacity = 2 ^ g / 2 ∧
    (g = 0 ∨ 2 ^ g < 4 * n)

section Runs
variable [Inhabited T] (hE : ∀ k, E.elementThrows k = false)

/-- The vector, and the number of elements that have been appended to it. -/
def besideCount (T : Type) [Inhabited T] (E : Environment) :
    System (State T × ℕ) (Act T) Event where
  init := ((system T E).init, 0)
  step p act := (step E p.1 act).map fun q =>
    ((q.1, p.2 + act.appended (.threw ∈ q.2)), q.2)

include hE

theorem pays_perform {xs : List T} {act : Act T} (h : Stores E s xs)
    (hlength : s.length ≤ s.capacity) (hact : s.Covered E act) (happends : act.appends = true) :
    Pays s (s.perform E act) (act.appended (s.perform E act).threw) := by
  cases act with
  | pushBack value =>
    cases value with
    | object b i => exact absurd hact id
    | value v =>
      have hroom : MakesRoom s (if s.size = s.capacity then s.resize E s.grown else done s) := by
        split
        · rename_i hfull
          rw [grown_of_lt (hact hfull)]
          exact resize_makesRoom h.placed hfull hE hlength
        · exact .spare rfl rfl rfl rfl
      exact hroom.pays rfl fun _ => appends_assign hE v
  | emplaceBack args =>
    cases args with
    | object b i => exact absurd hact id
    | value v =>
      have hroom : MakesRoom s (s.makeRoom E) := by
        unfold State.makeRoom
        split
        · rename_i hfull
          have hbytes := hact hfull
          have hasked := capacity_lt_asked s
          have hrange :=
            Nat.lt_of_le_of_lt (Nat.le_mul_of_pos_right s.asked E.sizeof_pos) hbytes
          unfold State.reserve
          rw [grown_of_lt hrange, if_neg (by omega)]
          exact relocateAll_makesRoom h.placed hfull hbytes
        · exact .spare rfl rfl rfl rfl
      exact hroom.pays rfl fun _ => appends_construct hE v
  | subscript index =>
    dsimp only [State.perform]
    have hnone (threw : Bool) : Spends 0 0 (⟨s, [], threw⟩ : Result T) :=
      ⟨Nat.le_refl 0, Nat.le_refl 0⟩
    split <;> exact .spare (hnone _) (Nat.le_of_eq (Nat.zero_add _)) (Nat.le_refl _) rfl rfl
  | popBack => exact pays_popBack
  | clear => exact pays_clear
  | emplace _ _ | reserve _ | shrinkToFit | destruct => cases happends

theorem Accounted.step {act : Act T} {log evs : List Event} (h : Accounted E n s log)
    (hact : s.Covered E act) (happends : act.appends = true)
    (hs : step E s act = some (s', evs)) :
    Accounted E (n + act.appended (.threw ∈ evs)) s' (log ++ evs) := by
  obtain ⟨xs, hstores⟩ := h.stores
  obtain ⟨-, hinside, rfl, hevents, hthrew⟩ := step_perform hs
  have hdoes := does_perform hE hstores hact hinside
  have hpays := pays_perform hE hstores h.length hact happends
  rw [(Bool.decide_congr hthrew).trans Bool.decide_eq_true]
  obtain ⟨g, hallocations, hcapacity, hgrown⟩ := h.grown
  have hsize := h.size
  have hpaid := h.paid
  generalize act.appended (s.perform E act).threw = pushed at hpays ⊢
  cases hpays with
  | spare hspends hpay hsize' hcapacity' hlength' =>
    have hkind := hspends.ofKind
    have hothers := hspends.others
    rw [hevents] at hkind hothers
    constructor
    · exact ⟨_, hdoes.stores⟩
    · rw [hlength', hcapacity']
      exact h.length
    · omega
    · rw [lifetimes_append, List.countP_append]
      omega
    · refine ⟨g, ?_, hcapacity'.trans hcapacity, hgrown.imp_right (by omega)⟩
      rw [lifetimes_append, List.countP_append]
      omega
  | grown hspends hpay hsize' hfull hpushed hcapacity' hlength' =>
    have hkind := hspends.ofKind
    have hothers := hspends.others
    rw [hevents] at hkind hothers
    have hpow := pow_le_of_half g
    constructor
    · exact ⟨_, hdoes.stores⟩
    · exact Nat.le_of_eq (hlength'.trans hcapacity'.symm)
    · omega
    · rw [lifetimes_append, List.countP_append]
      omega
    · refine ⟨g + 1, ?_, hcapacity'.trans (asked_eq hcapacity), .inr (by omega)⟩
      rw [lifetimes_append, List.countP_append]
      omega

/-- In every run of calls that append, remove from the end, clear or access elements of an empty
vector, allocations number at most the logarithm of the elements appended, all other operations on
objects and blocks at most 13 times as many as these, and the buffer has at most twice as many
slots. -/
theorem appends_amortised {p : State T × ℕ} {log : List Event}
    (hrun : (besideCount T E).RunWhere (fun p act => p.1.Covered E act ∧ act.appends = true)
      p log) :
    (lifetimes log).countP allocates ≤ Nat.clog 2 p.2 + 1 ∧
      (lifetimes log).countP (fun e => !allocates e) ≤ 13 * p.2 ∧
      p.1.length ≤ 2 * p.2 := by
  obtain ⟨s, n⟩ := p
  have h : Accounted E n s log := by
    refine hrun.invariant (I := fun p log => Accounted E p.2 p.1 log) ?_ ?_
    · refine ⟨⟨[], stores_init⟩, Nat.le_refl 0, Nat.le_refl 0, Nat.le_refl 0, 0, Nat.le_refl 0, rfl,
        .inl rfl⟩
    · intro p log act p' evs _ ih ⟨hact, happends⟩ hboth
      obtain ⟨⟨s', evs'⟩, hs, heq⟩ := Option.map_eq_some_iff.mp hboth
      obtain ⟨rfl, rfl⟩ := Prod.mk.inj heq
      exact ih.step hE hact happends hs
  obtain ⟨g, hallocations, hcapacity, hgrown⟩ := h.grown
  dsimp only
  refine ⟨hallocations.trans ?_, (Nat.le_add_right _ _).trans h.paid, h.length.trans ?_⟩
  · cases g with
    | zero => exact Nat.zero_le _
    | succ g =>
      cases g with
      | zero => exact Nat.le_add_left 1 _
      | succ g =>
        have hlt : 2 ^ g < n := by
          rw [pow_succ, pow_succ] at hgrown
          omega
        have hlog := (Nat.lt_clog_iff_pow_lt Nat.one_lt_two).mpr hlt
        omega
  · rcases hgrown with rfl | hgrown
    · simp [hcapacity]
    · omega

end Runs

/-- There is no memory for the first allocation. -/
def scarce : Environment := { plain with allocationThrows := fun k => k == 0 }

/-- The first call appends nothing; the fifth element needs the fourth allocation. -/
def sixPushes : List (Act ℕ) :=
  [.pushBack (.value 2), .pushBack (.value 3), .pushBack (.value 1), .pushBack (.value 4),
    .pushBack (.value 1), .pushBack (.value 5), .subscript 4, .popBack, .clear]

theorem appends_amortised_sixPushes : ∃ s log,
    (besideCount ℕ scarce).RunWhere (fun p act => p.1.Covered scarce act ∧ act.appends = true)
      (s, 5) log ∧
    (lifetimes log).countP allocates = 4 ∧ 4 ≤ Nat.clog 2 5 + 1 ∧
    (lifetimes log).countP (fun e => !allocates e) ≤ 65 ∧ s.length ≤ 10 := by
  obtain ⟨⟨s, n⟩, log, hrun, hq⟩ := (besideCount ℕ scarce).exists_run_of_exec
    (fun p act => p.1.Covered scarce act ∧ act.appends = true) sixPushes
    (fun p log => p.2 = 5 ∧ (lifetimes log).countP allocates = 4) (by decide)
  obtain ⟨hfive, hfour⟩ := of_decide_eq_true hq
  obtain rfl : n = 5 := hfive
  obtain ⟨hallocations, hothers, hlength⟩ := appends_amortised (fun _ => rfl) hrun
  rw [hfour] at hallocations
  exact ⟨s, log, hrun, hfour, hallocations, hothers, hlength⟩

end MyVector
