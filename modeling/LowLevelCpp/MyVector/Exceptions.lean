import LowLevelCpp.MyVector.Reference

/-! What is left of a vector when `push_back` or `emplace_back` is left by an exception, for
elements whose constructors and copy assignments may throw at any call. -/
namespace MyVector
open Foundations Outcome

variable {T : Type}

/-- The operations keep the property, as long as they touch no object of the blocks in `B`. -/
structure Closed (B : Set ℕ) (I : State T → Prop) : Prop where
  calls : ∀ s calls, I s → I { s with calls }
  object : ∀ s b i object, b ∉ B → I s → I (s.setObject b i object)
  allocated : ∀ s block, I s →
    I { s with blocks := Function.update s.blocks s.next (some block), next := s.next + 1 }
  released : ∀ s b, I s → I { s with blocks := Function.update s.blocks b none }

section Closed
variable {B : Set ℕ} {I : State T → Prop} {Q : Lifetime → Prop} {s : State T} {E : Environment}
  {b i b' i' n : ℕ} {e : Lifetime} {arg : Argument T} {block : Block} {form : Form}

namespace Closed

theorem attempt (hI : Closed B I) (h : I s) {throws : ℕ → Bool} {f : State T → Result T}
    (hf : ∀ s', I s' → Stays I Q (f s')) : Stays I Q (s.attempt throws f) := by
  unfold State.attempt
  split
  · exact ⟨hI.calls _ _ h, nofun⟩
  · exact hf _ (hI.calls _ _ h)

theorem store (hI : Closed B I) (h : I s) (hb : b ∉ B) (hQ : ∀ e' ∈ arg.reads ++ [e], Q e') :
    Stays I Q (s.store E e b i arg) :=
  hI.attempt h fun s' hs' => ⟨hI.object s' b i _ hb hs', hQ⟩

theorem destroy (hI : Closed B I) (h : I s) (hb : b ∉ B) (hQ : Q (.destroyed b i)) :
    Stays I Q (s.destroy b i) := by
  refine ⟨hI.object s b i none hb h, fun e he => ?_⟩
  obtain rfl := List.mem_singleton.mp he
  exact hQ

theorem relocate (hI : Closed B I) (h : I s) (hb : b ∉ B) (hb' : b' ∉ B)
    (hQ : Q (.movedFrom b i) ∧ Q (.constructed b' i') ∧ Q (.destroyed b i)) :
    Stays I Q (s.relocate b i b' i') := by
  refine ⟨hI.object _ b i none hb (hI.object s b' i' _ hb' h), ?_⟩
  simpa [State.relocate] using hQ

theorem allocate (hI : Closed B I) (h : I s) (hQ : ∀ b, Q (.allocated b block)) :
    Stays I Q (s.allocate E block) := by
  refine hI.attempt h fun s' hs' => ⟨hI.allocated s' block hs', fun e he => ?_⟩
  obtain rfl := List.mem_singleton.mp he
  exact hQ _

theorem release (hI : Closed B I) (h : I s) (hQ : Q (.released b form)) :
    Stays I Q (s.release b form) := by
  refine ⟨hI.released s b h, fun e he => ?_⟩
  obtain rfl := List.mem_singleton.mp he
  exact hQ

theorem destroyArray (hI : Closed B I) (h : I s) (hb : b ∉ B) (hQ : ∀ i, Q (.destroyed b i)) :
    Stays I Q (s.destroyArray b n) :=
  stays_loop h fun _ _ _ hs' => hI.destroy hs' hb (hQ _)

/-- The elements of `new T[n]`, once the memory is there. -/
theorem elements [Inhabited T] (hI : Closed B I) (h : I s) (hb : b ∉ B)
    (hQ : (∀ i, Q (.constructed b i)) ∧ (∀ i, Q (.destroyed b i)) ∧ Q (.released b .array)) :
    Stays I Q (loop (fun i s' => (State.construct E b i (.value default) s').onThrow fun s' =>
      (s'.destroyArray b i).andThen (State.release b .array)) n s) := by
  refine stays_loop h fun i _ s' hs' => ?_
  refine Stays.onThrow (hI.store hs' hb ?_) fun s'' hs'' => ?_
  · simpa [Argument.reads] using hQ.1 i
  · exact Stays.andThen (hI.destroyArray hs'' hb hQ.2.1) fun _ hs => hI.release hs hQ.2.2

theorem copyLoop (hI : Closed B I) (h : I s) (hb' : b' ∉ B)
    (hQ : ∀ i, Q (.copied b i) ∧ Q (.assigned b' i)) :
    Stays I Q (loop (fun i => State.assign E b' i (.object b i)) n s) := by
  refine stays_loop h fun i _ s' hs' => hI.store hs' hb' ?_
  simpa [Argument.reads] using hQ i

theorem deleteArray (hI : Closed B I) (h : I s) (hb : b ∉ B)
    (hQ : (∀ i, Q (.destroyed b i)) ∧ Q (.released b .array)) :
    Stays I Q (s.deleteArray b) := by
  unfold State.deleteArray
  split
  · exact stays_done h
  · split
    · exact Stays.andThen (hI.destroyArray h hb hQ.1) fun _ hs => hI.release hs hQ.2
    · exact hI.release h hQ.2

theorem operatorDelete (hI : Closed B I) (h : I s) (hQ : Q (.released b .raw)) :
    Stays I Q (s.operatorDelete b) := by
  unfold State.operatorDelete
  split
  · exact stays_done h
  · exact hI.release h hQ

end Closed
end Closed

/-- The vector's own fields and the objects of the blocks in `B` are as they were. -/
structure Intact (B : Set ℕ) (s s' : State T) : Prop where
  data : s'.data = s.data
  size : s'.size = s.size
  objects : ∀ b ∈ B, s'.objects b = s.objects b

theorem closed_intact (B : Set ℕ) (s : State T) : Closed B (Intact B s) where
  calls _ _ h := ⟨h.data, h.size, h.objects⟩
  object s' b i object hb h := by
    refine ⟨h.data, h.size, fun x hx => ?_⟩
    have hne : x ≠ b := by
      rintro rfl
      exact hb hx
    exact (Function.update_of_ne hne _ _).trans (h.objects x hx)
  allocated _ _ h := ⟨h.data, h.size, h.objects⟩
  released _ _ h := ⟨h.data, h.size, h.objects⟩

/-- No block is at the null pointer, the buffer is at an address below the next one, and only an
empty one is at the null pointer. -/
structure Rooted (s : State T) : Prop where
  data : s.data < s.next
  null : s.blocks nullptr = none
  capacity : s.data = nullptr → s.capacity = 0

namespace Rooted

theorem placed {s : State T} (h : Rooted s) : Placed s := ⟨h.data, fun hd => hd ▸ h.null⟩

theorem data_ne {s : State T} (h : Rooted s) (hcapacity : 0 < s.capacity) :
    s.data ≠ nullptr := fun hdata => Nat.ne_of_gt hcapacity (h.capacity hdata)

theorem next_pos {s : State T} (h : Rooted s) : 0 < s.next :=
  Nat.lt_of_le_of_lt (Nat.zero_le _) h.data

end Rooted

/-- Addresses below `lo` are no longer handed out. -/
structure RootedAbove (lo : ℕ) (s : State T) : Prop where
  rooted : Rooted s
  next : lo ≤ s.next

theorem closed_rooted (lo : ℕ) : Closed ∅ (RootedAbove (T := T) lo) where
  calls _ _ h := ⟨⟨h.rooted.data, h.rooted.null, h.rooted.capacity⟩, h.next⟩
  object _ _ _ _ _ h := ⟨⟨h.rooted.data, h.rooted.null, h.rooted.capacity⟩, h.next⟩
  allocated s block h := by
    refine ⟨⟨Nat.lt_succ_of_lt h.rooted.data, ?_, h.rooted.capacity⟩, Nat.le_succ_of_le h.next⟩
    have hne : nullptr ≠ s.next := Nat.ne_of_lt h.rooted.next_pos
    exact (Function.update_of_ne hne _ _).trans h.rooted.null
  released s b h := by
    refine ⟨⟨h.rooted.data, ?_, h.rooted.capacity⟩, h.next⟩
    show Function.update s.blocks b none nullptr = none
    by_cases hb : nullptr = b
    · subst hb
      simp
    · exact (Function.update_of_ne hb _ _).trans h.rooted.null

section Growth
variable [Inhabited T] {B : Set ℕ} {I : State T → Prop} {Q : Lifetime → Prop} {s : State T}
  {E : Environment} {b n : ℕ}

/-- The elements of the new array are constructed, and then the old ones copied. -/
def State.filling (E : Environment) (n b : ℕ) (s : State T) : Result T :=
  (loop (fun i s' => (State.construct E b i (.value default) s').onThrow fun s' =>
    (s'.destroyArray b i).andThen (State.release b .array)) n s).andThen fun s' =>
  loop (fun i => State.assign E b i (.object s'.data i)) s'.size s'

/-- What `resize` does until it has copied the elements. -/
def State.copied (E : Environment) (n : ℕ) (s : State T) : Result T :=
  (s.newArray E n).andThen fun s' =>
    loop (fun i => State.assign E s.next i (.object s'.data i)) s'.size s'

theorem resize_eq : s.resize E n = (s.copied E n).andThen fun s' =>
    (s'.deleteArray s'.data).andThen fun s' =>
      done { s' with data := s.next, capacity := n } := by
  unfold State.resize State.copied
  rw [andThen_assoc]

theorem copied_fails (h : s.ArrayFails E n) :
    ∃ calls, s.copied E n = ⟨{ s with calls }, [], true⟩ := by
  obtain ⟨calls, hnew⟩ := newArray_fails h
  refine ⟨calls, ?_⟩
  unfold State.copied
  rw [hnew]
  rfl

theorem newArray_granted (h : ¬ s.ArrayFails E n) : s.newArray E n =
    (s.allocate E ⟨.array, n⟩).andThen (loop (fun i s' =>
      (State.construct E s.next i (.value default) s').onThrow fun s' =>
        (s'.destroyArray s.next i).andThen (State.release s.next .array)) n) := by
  unfold State.newArray
  exact if_neg (not_or.mp h).1

theorem copied_eq (h : ¬ s.ArrayFails E n) : s.copied E n =
    ((s.allocate E ⟨.array, n⟩).andThen fun s' => s'.filling E n s.next) := by
  unfold State.copied State.filling
  rw [newArray_granted h, andThen_assoc]

theorem Closed.filling (hI : Closed B I) (h : I s) (hb : b ∉ B) (hnew : ∀ e, e.block = b → Q e)
    (hold : ∀ s', I s' → ∀ i, Q (.copied s'.data i)) : Stays I Q (s.filling E n b) := by
  refine Stays.andThen (hI.elements h hb ?_) fun s' hs' => hI.copyLoop hs' hb fun i => ?_
  · exact ⟨fun i => hnew _ rfl, fun i => hnew _ rfl, hnew _ rfl⟩
  · exact ⟨hold s' hs' i, hnew _ rfl⟩

theorem Closed.copied (hI : Closed B I) (hmemory : ¬ s.ArrayFails E n)
    (h : I (s.allocated ⟨.array, n⟩)) (hb : s.next ∉ B) (hnew : ∀ e, e.block = s.next → Q e)
    (hold : ∀ s', I s' → ∀ i, Q (.copied s'.data i)) : Stays I Q (s.copied E n) := by
  have hthrows : E.allocationThrows s.calls = false := Bool.eq_false_iff.mpr (not_or.mp hmemory).2
  obtain ⟨hstate, hevents⟩ := hI.filling (E := E) (n := n) h hb hnew hold
  rw [copied_eq hmemory]
  unfold State.allocate
  rw [attempt_of_not_throws hthrows, andThen_of_not_threw rfl]
  exact ⟨hstate, List.forall_mem_append.mpr ⟨List.forall_mem_singleton.mpr (hnew _ rfl), hevents⟩⟩

end Growth

section Rooted
variable {s s' : State T} {E : Environment} {n : ℕ}

theorem Rooted.withCalls (h : Rooted s) (calls : ℕ) : Rooted { s with calls } :=
  ⟨h.data, h.null, h.capacity⟩

theorem Rooted.toBuffer (h : Rooted s) (hnext : n < s.next) (hpos : 0 < n) (capacity : ℕ) :
    Rooted { s with data := n, capacity } :=
  ⟨hnext, h.null, fun hd => absurd hd (Nat.ne_of_gt hpos)⟩

theorem Rooted.above (h : Rooted s) : RootedAbove 0 s := ⟨h, Nat.zero_le _⟩

/-- The vector's own fields but the size, and the blocks, are as they were. -/
theorem Rooted.congr (h : Rooted s) (hdata : s'.data = s.data) (hnext : s'.next = s.next)
    (hblocks : s'.blocks = s.blocks) (hcapacity : s'.capacity = s.capacity) : Rooted s' := by
  refine ⟨?_, ?_, ?_⟩
  · rw [hdata, hnext]
    exact h.data
  · rw [hblocks]
    exact h.null
  · rw [hdata, hcapacity]
    exact h.capacity

theorem Rooted.allocated (h : Rooted s) (block : Block) :
    RootedAbove (s.next + 1) (s.allocated block) := by
  have hblock := (closed_rooted 0).allocated s block h.above
  exact ⟨hblock.rooted.congr rfl rfl rfl rfl, Nat.le_refl _⟩

/-- What a program leaves, whatever its events are. -/
abbrev Roots (r : Result T) : Prop := Stays (RootedAbove 0) (fun _ => True) r

theorem Rooted.resize [Inhabited T] (h : Rooted s) : Roots (s.resize E n) := by
  by_cases hfails : s.ArrayFails E n
  · obtain ⟨calls, hresize⟩ := resize_fails hfails
    rw [hresize]
    exact ⟨(h.withCalls calls).above, fun _ _ => trivial⟩
  · rw [resize_eq]
    have hI := closed_rooted (T := T) (s.next + 1)
    have hcopied := hI.copied (Q := fun _ => True) hfails (h.allocated _) nofun
      (fun _ _ => trivial) fun _ _ _ => trivial
    refine hcopied.andThenFrom (fun s' hs' => hs'.rooted.above) fun s' hs' => ?_
    have hdelete := hI.deleteArray (Q := fun _ => True) (b := s'.data) hs' nofun
      ⟨fun _ => trivial, trivial⟩
    refine hdelete.andThenFrom (fun s' hs' => hs'.rooted.above) fun s' hs' => ?_
    exact stays_done (hs'.rooted.toBuffer hs'.next h.next_pos n).above

theorem Rooted.relocateAll (h : Rooted s) : Roots (s.relocateAll E n) := by
  refine ⟨Rooted.above ?_, fun _ _ => trivial⟩
  cases hthrows : E.allocationThrows s.calls with
  | true =>
    rw [relocateAll_fails hthrows]
    exact h.withCalls _
  | false =>
    rw [(relocateAll_ends hthrows h.placed).2]
    obtain ⟨hallocated, hnext⟩ := h.allocated ⟨.raw, rawLength E n⟩
    have hmoved : Rooted (s.withMoved E n) := hallocated.congr rfl rfl rfl rfl
    have hreleased := (closed_rooted 0).released _ s.data hmoved.above
    exact hreleased.rooted.toBuffer hnext h.next_pos n

theorem Rooted.makeRoom (E : Environment) (h : Rooted s) : Roots (s.makeRoom E) := by
  unfold State.makeRoom State.reserve
  split
  · split
    · exact stays_done h.above
    · exact h.relocateAll
  · exact stays_done h.above

theorem Rooted.insertAt (E : Environment) (index : ℕ) (args : Argument T) (h : Rooted s) :
    Roots (s.insertAt E index args) := by
  have hI := closed_rooted (T := T) 0
  have hshift : Roots (s.shift index) := stays_loop h.above fun k _ s' hs' =>
    hI.relocate hs' nofun nofun ⟨trivial, trivial, trivial⟩
  refine hshift.andThen fun s' hs' => ?_
  have hbuilt : Roots (s'.construct E s'.data index args) := hI.store hs' nofun fun _ _ => trivial
  refine hbuilt.andThen fun s' hs' => ?_
  have hcounted : Rooted s'.incrementSize := hs'.rooted.congr rfl rfl rfl rfl
  exact stays_done hcounted.above

theorem Rooted.pushBack [Inhabited T] (h : Rooted s) (value : Argument T) :
    Roots (s.pushBack E value) := by
  have hgrow : Roots (if s.size = s.capacity then s.resize E s.grown else done s) := by
    split
    · exact h.resize
    · exact stays_done h.above
  refine hgrow.andThen fun s' hs' => ?_
  have hcounted : Rooted s'.incrementSize := hs'.rooted.congr rfl rfl rfl rfl
  exact (closed_rooted 0).store hcounted.above nofun fun _ _ => trivial

theorem Rooted.shrinkToFit (h : Rooted s) : Roots (s.shrinkToFit E) := by
  unfold State.shrinkToFit
  split
  · exact stays_done h.above
  · split
    · have hdelete : Roots (s.operatorDelete s.data) :=
        (closed_rooted 0).operatorDelete h.above trivial
      refine hdelete.andThen fun s' hs' => stays_done (Rooted.above ?_)
      exact ⟨hs'.rooted.next_pos, hs'.rooted.null, fun _ => rfl⟩
    · exact h.relocateAll

theorem Rooted.perform [Inhabited T] (h : Rooted s) (act : Act T) : Roots (s.perform E act) := by
  have hI := closed_rooted (T := T) 0
  cases act with
  | pushBack value => exact h.pushBack value
  | emplaceBack args =>
    show Roots (s.emplaceBack E args)
    rw [emplaceBack_eq]
    exact (h.makeRoom E).andThen fun s' hs' => hs'.rooted.insertAt E s'.size args
  | emplace index args =>
    exact (h.makeRoom E).andThen fun s' hs' => hs'.rooted.insertAt E index args
  | reserve new_capacity =>
    show Roots (s.reserve E new_capacity)
    unfold State.reserve
    split
    · exact stays_done h.above
    · exact h.relocateAll
  | subscript index =>
    dsimp only [State.perform]
    split <;> exact ⟨h.above, nofun⟩
  | popBack =>
    show Roots s.popBack
    unfold State.popBack
    split
    · exact hI.destroy (Rooted.above (h.congr rfl rfl rfl rfl)) nofun trivial
    · exact stays_done h.above
  | clear =>
    have hclear : Roots (loop (fun i => State.destroy s.data i) s.size s) :=
      stays_loop h.above fun i _ s' hs' => hI.destroy hs' nofun trivial
    refine hclear.andThen fun s' hs' => ?_
    have hempty : Rooted { s' with size := 0 } := hs'.rooted.congr rfl rfl rfl rfl
    exact stays_done hempty.above
  | shrinkToFit => exact h.shrinkToFit
  | destruct =>
    have hdelete : Roots (s.deleteArray s.data) :=
      hI.deleteArray h.above nofun ⟨fun _ => trivial, trivial⟩
    refine hdelete.andThen fun s' hs' => ?_
    have hgone : Rooted { s' with destructed := true } := hs'.rooted.congr rfl rfl rfl rfl
    exact stays_done hgone.above

theorem rooted_of_run [Inhabited T] {log : List Event} (hrun : (system T E).Run s log) :
    Rooted s := by
  refine hrun.invariant (I := fun s _ => Rooted s) ⟨Nat.one_pos, rfl, fun _ => rfl⟩ ?_
  intro s log act s' evs _ h _ hs
  obtain ⟨-, -, rfl, -, -⟩ := step_perform hs
  exact (h.perform act).1.rooted

end Rooted

section Failures
variable {s s' : State T} {E : Environment} {b b' i n : ℕ} {e : Lifetime} {arg : Argument T}

/-- The call left the size and the elements as they were. -/
def Kept (s s' : State T) : Prop :=
  s'.size = s.size ∧ ∀ i < s.size, s'.objects s'.data i = s.objects s.data i

/-- What ends the growth of `push_back`: there is no memory, or an element is not constructed or
not copied. -/
def State.ResizeFails (E : Environment) (n : ℕ) (s : State T) : Prop :=
  s.ArrayFails E n ∨ ∃ k < n + s.size, E.elementThrows (s.calls + 1 + k) = true

instance (n : ℕ) (s : State T) : Decidable (s.ResizeFails E n) := by
  unfold State.ResizeFails
  infer_instance

/-- What the program attempts are constructors and assignments of elements. -/
abbrev ElementAttempts (E : Environment) (n : ℕ) (s : State T) (r : Result T) : Prop :=
  Foundations.Attempts E.elementThrows State.calls n s r

theorem attempts_store : ElementAttempts E 1 s (s.store E e b i arg) := by
  unfold State.store
  cases hthrows : E.elementThrows s.calls with
  | true =>
    rw [attempt_of_throws hthrows]
    exact ⟨iff_of_true rfl ⟨0, Nat.one_pos, hthrows⟩, nofun⟩
  | false =>
    rw [attempt_of_not_throws hthrows]
    refine ⟨iff_of_false nofun ?_, fun _ => rfl⟩
    rintro ⟨k, hk, hthrows'⟩
    obtain rfl := Nat.lt_one_iff.mp hk
    exact absurd (hthrows.symm.trans hthrows') Bool.false_ne_true

theorem store_threw_state (h : (s.store E e b i arg).threw = true) :
    (s.store E e b i arg).state = { s with calls := s.calls + 1 } := by
  unfold State.store at *
  cases hthrows : E.elementThrows s.calls with
  | true => rw [attempt_of_throws hthrows]
  | false =>
    rw [attempt_of_not_throws hthrows] at h
    exact absurd h Bool.false_ne_true

theorem incrementSize_ne (s : State T) : s.incrementSize.size ≠ s.size := by
  show (s.size + 1) % SIZE_RANGE ≠ s.size
  unfold SIZE_RANGE
  omega

theorem deleteArray_not_threw : (s.deleteArray b).threw = false := by
  unfold State.deleteArray
  split
  · rfl
  · split
    · exact (destroyArray_ends.andThen ⟨rfl, rfl⟩).1
    · rfl

variable [Inhabited T]

theorem attempts_filling : ElementAttempts E (n + s.size) s (s.filling E n b) := by
  unfold State.filling
  refine Attempts.andThen (attempts_loop (fun i s' => attempts_store.onThrow) n) fun _ => ?_
  have hintact := (closed_intact ∅ s).elements (E := E) (n := n) (b := b) (Q := fun _ => True)
    ⟨rfl, rfl, nofun⟩ nofun ⟨fun _ => trivial, fun _ => trivial, trivial⟩
  rw [← hintact.1.size]
  exact attempts_loop (fun i s' => attempts_store) _

theorem copied_threw_iff : (s.copied E n).threw = true ↔ s.ResizeFails E n := by
  unfold State.ResizeFails
  by_cases hmemory : s.ArrayFails E n
  · obtain ⟨calls, hcopied⟩ := copied_fails hmemory
    rw [hcopied]
    exact iff_of_true rfl (.inl hmemory)
  · have hthrows : E.allocationThrows s.calls = false :=
      Bool.eq_false_iff.mpr (not_or.mp hmemory).2
    have hends : (s.allocate E ⟨.array, n⟩).Ends (s.allocated ⟨.array, n⟩) :=
      allocate_ends hthrows
    obtain ⟨hthrew, hstate⟩ := hends
    rw [copied_eq hmemory, andThen_of_not_threw hthrew, hstate, or_iff_right hmemory]
    exact attempts_filling.threw_iff

/-- If `resize` is left by an exception, then before it deletes the old array. -/
theorem resize_of_copied_threw (h : (s.copied E n).threw = true) :
    s.resize E n = s.copied E n := by
  rw [resize_eq, andThen_of_threw h]

theorem resize_threw_iff : (s.resize E n).threw = true ↔ s.ResizeFails E n := by
  rw [← copied_threw_iff]
  cases hthrew : (s.copied E n).threw with
  | true => rw [resize_of_copied_threw hthrew, hthrew]
  | false =>
    rw [resize_eq, andThen_of_not_threw hthrew, andThen_of_not_threw deleteArray_not_threw]
    rfl

/-- The elements are copied to a block that is not that of the vector. -/
theorem copied_intact (hp : Placed s) : Intact {s.data} s (s.copied E n).state := by
  by_cases hmemory : s.ArrayFails E n
  · obtain ⟨calls, hcopied⟩ := copied_fails hmemory
    rw [hcopied]
    exact ⟨rfl, rfl, fun _ _ => rfl⟩
  · have hne : s.next ∉ ({s.data} : Set ℕ) := Nat.ne_of_gt hp.data
    have hclosed := (closed_intact {s.data} s).copied (E := E) (Q := fun _ => True) hmemory
      ⟨rfl, rfl, fun _ _ => rfl⟩ hne (fun _ _ => trivial) fun _ _ _ => trivial
    exact hclosed.1

theorem resize_size (hp : Placed s) : (s.resize E n).state.size = s.size := by
  have hcopied := (copied_intact (E := E) (n := n) hp).size
  cases hthrew : (s.copied E n).threw with
  | true =>
    rw [resize_of_copied_threw hthrew]
    exact hcopied
  | false =>
    have hdelete := (closed_intact ∅ (s.copied E n).state).deleteArray (Q := fun _ => True)
      (b := (s.copied E n).state.data) ⟨rfl, rfl, nofun⟩ nofun ⟨fun _ => trivial, trivial⟩
    rw [resize_eq, andThen_of_not_threw hthrew, andThen_of_not_threw deleteArray_not_threw]
    exact hdelete.1.size.trans hcopied

/-- `push_back` leaves the elements alone as long as it has no room for another one. -/
theorem resize_kept (hp : Placed s) (hfails : s.ResizeFails E n) :
    Kept s (s.resize E n).state := by
  obtain ⟨hdata, hsize, hobjects⟩ := copied_intact (E := E) (n := n) hp
  rw [resize_of_copied_threw (copied_threw_iff.mpr hfails)]
  refine ⟨hsize, fun i _ => ?_⟩
  rw [hdata, hobjects s.data rfl]

/-- The size has been incremented when the assignment throws. -/
theorem pushBack_kept_iff (hp : Placed s) {value : Argument T}
    (hthrew : (s.pushBack E value).threw = true) :
    Kept s (s.pushBack E value).state ↔ s.size = s.capacity ∧ s.ResizeFails E s.grown := by
  unfold State.pushBack at *
  by_cases hcond : s.size = s.capacity ∧ s.ResizeFails E s.grown
  · obtain ⟨hfull, hfails⟩ := hcond
    rw [if_pos hfull, andThen_of_threw (resize_threw_iff.mpr hfails)]
    exact iff_of_true (resize_kept hp hfails) ⟨hfull, hfails⟩
  · have hgrow : (if s.size = s.capacity then s.resize E s.grown else done s).threw = false ∧
        (if s.size = s.capacity then s.resize E s.grown else done s).state.size = s.size := by
      split
      · rename_i hfull
        refine ⟨Bool.eq_false_iff.mpr fun hthrew => hcond ⟨hfull, ?_⟩, resize_size hp⟩
        exact resize_threw_iff.mp hthrew
      · exact ⟨rfl, rfl⟩
    generalize (if s.size = s.capacity then s.resize E s.grown else done s) = r at *
    rw [andThen_of_not_threw hgrow.1] at hthrew ⊢
    refine iff_of_false (fun hkept => ?_) hcond
    have hsize := hkept.1
    unfold State.assign at hsize
    rw [store_threw_state hthrew, ← hgrow.2] at hsize
    exact incrementSize_ne r.state hsize

end Failures

section Relocation
variable {s s' : State T} {E : Environment} {n : ℕ}

theorem relocateAll_kept (hp : Placed s) : Kept s (s.relocateAll E n).state := by
  cases hthrows : E.allocationThrows s.calls with
  | true =>
    rw [relocateAll_fails hthrows]
    exact ⟨rfl, fun _ _ => rfl⟩
  | false =>
    rw [(relocateAll_ends hthrows hp).2]
    refine ⟨rfl, fun i hi => ?_⟩
    have hne := Nat.ne_of_gt hp.data
    show relocated s.objects s.data s.next s.size s.next i = s.objects s.data i
    simp [relocated, cleared, filled, hi, hne]

theorem makeRoom_kept (hp : Placed s) : Kept s (s.makeRoom E).state := by
  unfold State.makeRoom State.reserve
  split
  · split
    · exact ⟨rfl, fun _ _ => rfl⟩
    · exact relocateAll_kept hp
  · exact ⟨rfl, fun _ _ => rfl⟩

/-- The size is incremented once the element exists. -/
theorem emplaceBack_kept (hp : Placed s) {args : Argument T}
    (hthrew : (s.emplaceBack E args).threw = true) : Kept s (s.emplaceBack E args).state := by
  have hroom := makeRoom_kept (E := E) hp
  unfold State.emplaceBack at *
  change ((s.makeRoom E).andThen _).threw = true at hthrew
  show Kept s ((s.makeRoom E).andThen _).state
  cases hgrow : (s.makeRoom E).threw with
  | true => rwa [andThen_of_threw hgrow]
  | false =>
    rw [andThen_of_not_threw hgrow] at hthrew ⊢
    generalize (s.makeRoom E).state = s' at *
    cases hbuilt : (s'.construct E s'.data s'.size args).threw with
    | true =>
      rw [andThen_of_threw hbuilt]
      unfold State.construct
      rw [store_threw_state hbuilt]
      exact hroom
    | false =>
      rw [andThen_of_not_threw hbuilt] at hthrew
      exact absurd hthrew Bool.false_ne_true

end Relocation

/-- A call of `emplace_back` that is left by an exception leaves the size and the elements as they
were; a call of `push_back` does so exactly if it is left during the growth. -/
theorem vector_kept {T : Type} [Inhabited T] {E : Environment} {s s' : State T}
    {log evs : List Event} {act : Act T} (hrun : (system T E).Run s log)
    (hs : step E s act = some (s', evs)) (hthrew : .threw ∈ evs) :
    (∀ args, act = .emplaceBack args → Kept s s') ∧
    ∀ value, act = .pushBack value →
      (Kept s s' ↔ s.size = s.capacity ∧ s.ResizeFails E s.grown) := by
  have hp := (rooted_of_run hrun).placed
  obtain ⟨-, hs⟩ := Option.ite_none_left_eq_some.mp hs
  constructor
  · rintro args rfl
    obtain ⟨-, h⟩ := Option.ite_none_right_eq_some.mp hs
    cases h
    exact emplaceBack_kept hp ((threw_mem_report (by simp)).mp hthrew)
  · rintro value rfl
    obtain ⟨-, h⟩ := Option.ite_none_right_eq_some.mp hs
    cases h
    exact pushBack_kept_iff hp ((threw_mem_report List.not_mem_nil).mp hthrew)

/-- Elements of which one constructor or assignment throws. -/
def throwing (n : ℕ) : Environment := { plain with elementThrows := fun k => k == n }

/-- The second `push_back` fails to copy the element to its new array. -/
theorem vector_kept_growth : ∃ (s s' : State ℕ) (log evs : List Event),
    (system ℕ (throwing 6)).Run s log ∧ s.size = 1 ∧ s.objects s.data 0 = some 7 ∧
      step (throwing 6) s (.pushBack (.value 8)) = some (s', evs) ∧ .threw ∈ evs ∧ Kept s s' := by
  have hrun := System.RunWhere.step (S := system ℕ (throwing 6)) (P := fun _ _ => True)
    (a := .pushBack (.value 7)) .init trivial rfl
  refine ⟨_, _, _, _, hrun, rfl, by decide, rfl, by decide, ?_⟩
  apply ((vector_kept hrun rfl (by decide)).2 (.value 8) rfl).mpr
  decide

/-- The first `push_back` fails to assign to the element of its array, and leaves size 1. -/
theorem vector_not_kept : ¬ ∀ (E : Environment) (s s' : State ℕ) (log evs : List Event)
    (act : Act ℕ), (system ℕ E).Run s log →
    (∃ arg, act = .pushBack arg ∨ act = .emplaceBack arg) → step E s act = some (s', evs) →
    .threw ∈ evs → Kept s s' := by
  intro hall
  have hkept := hall (throwing 2) _ _ _ _ (.pushBack (.value 7)) .init ⟨_, .inl rfl⟩ rfl (by decide)
  exact absurd hkept.1 (by decide)

end MyVector
