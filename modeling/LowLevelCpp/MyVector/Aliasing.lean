import LowLevelCpp.MyVector.Exceptions

/-! Calls of `my::vector` with one of its own elements as the argument, beside calls with a copy of
that element. -/
namespace MyVector
open Foundations Outcome

variable {T : Type}

/-- A call with the object `b[i]` does what one with a copy of it does, and does not read it when
nothing is left of it. -/
structure AsIfCopied (b i : ℕ) (r copy : Result T) : Prop where
  threw : r.threw = copy.threw
  size : r.state.size = copy.state.size
  contents : ∀ j < copy.state.size,
    r.state.objects r.state.data j = copy.state.objects copy.state.data j
  inTime : ¬ ReadLate b i r.events

/-- What stores `b[i]`, and what stores a copy of it: neither reads anything if it throws. -/
structure Stored (E : Environment) (b i : ℕ) (v : T) (s : State T) (r copy : Result T) : Prop where
  throws : E.elementThrows s.calls = true → r = copy ∧ r.events = []
  reads : E.elementThrows s.calls = false →
    ∃ rest, r.events = .copied b i :: rest ∧ ∀ e ∈ rest, e ≠ .copied b i
  same : E.elementThrows s.calls = false → s.objects b i = some v →
    r.state = copy.state ∧ r.threw = copy.threw

section Stored
variable {E : Environment} {s : State T} {r copy r₀ : Result T} {f g : State T → Result T}
  {b i x j : ℕ} {v : T} {e : Lifetime}

theorem stored_store (he : e ≠ .copied b i) :
    Stored E b i v s (s.store E e x j (.object b i)) (s.store E e x j (.value v)) := by
  unfold State.store
  cases hthrows : E.elementThrows s.calls with
  | true =>
    rw [attempt_of_throws hthrows, attempt_of_throws hthrows]
    exact ⟨fun _ => ⟨rfl, rfl⟩, fun h => by simp [hthrows] at h, fun h => by simp [hthrows] at h⟩
  | false =>
    rw [attempt_of_not_throws hthrows, attempt_of_not_throws hthrows]
    refine ⟨fun h => by simp [hthrows] at h, fun _ => ⟨[e], rfl, by simpa using he⟩, ?_⟩
    intro _ hobject
    refine ⟨?_, rfl⟩
    show State.setObject _ x j (s.objects b i) = State.setObject _ x j (some v)
    rw [hobject]

theorem Stored.andThen_done (h : Stored E b i v s r copy) (g : State T → State T) :
    Stored E b i v s (r.andThen fun s => done (g s)) (copy.andThen fun s => done (g s)) := by
  refine ⟨fun hthrows => ?_, fun hthrows => ?_, fun hthrows hobject => ?_⟩
  · obtain ⟨rfl, hnil⟩ := h.throws hthrows
    exact ⟨rfl, (andThen_done_events r g).trans hnil⟩
  · rw [andThen_done_events]
    exact h.reads hthrows
  · obtain ⟨hstate, hthrew⟩ := h.same hthrows hobject
    unfold Outcome.andThen
    rw [hstate, hthrew]
    split
    · exact ⟨hstate, hthrew⟩
    · exact ⟨rfl, rfl⟩

theorem asIfCopied_of_eq (hstate : r.state = copy.state) (hthrew : r.threw = copy.threw)
    (hin : ¬ ReadLate b i r.events) : AsIfCopied b i r copy := by
  refine ⟨hthrew, congrArg State.size hstate, ?_, hin⟩
  rw [hstate]
  exact fun _ _ => rfl

/-- The program that comes before decides: it may be left by an exception, -/
theorem asIfCopied_of_threw (hthrew : r₀.threw = true) (hin : ¬ ReadLate b i r₀.events) :
    AsIfCopied b i (r₀.andThen f) (r₀.andThen g) := by
  rw [andThen_of_threw hthrew, andThen_of_threw hthrew]
  exact asIfCopied_of_eq rfl rfl hin

/-- or leave the object alone, unless nothing is stored. -/
theorem asIfCopied_iff (hthrew : r₀.threw = false) (hin : ¬ ReadLate b i r₀.events)
    (hkept : (∀ e ∈ r₀.events, ¬ e.Ends b i) → r₀.state.objects b i = some v)
    (hlast : Stored E b i v r₀.state (f r₀.state) (g r₀.state)) :
    AsIfCopied b i (r₀.andThen f) (r₀.andThen g) ↔
      (∀ e ∈ r₀.events, ¬ e.Ends b i) ∨ E.elementThrows r₀.state.calls = true := by
  rw [andThen_of_not_threw hthrew, andThen_of_not_threw hthrew]
  cases hthrows : E.elementThrows r₀.state.calls with
  | true =>
    obtain ⟨heq, hnil⟩ := hlast.throws hthrows
    have hstate := congrArg Outcome.state heq
    have hthrew' := congrArg Outcome.threw heq
    refine iff_of_true (asIfCopied_of_eq hstate hthrew' ?_) (.inr rfl)
    rwa [hnil, List.append_nil]
  | false =>
    obtain ⟨rest, hevents, hrest⟩ := hlast.reads hthrows
    rw [or_iff_left Bool.false_ne_true]
    constructor
    · intro h e he hends
      refine h.inTime ⟨r₀.events, rest, ?_, e, he, hends⟩
      rw [hevents]
    · intro hleft
      obtain ⟨hstate, hthrew'⟩ := hlast.same hthrows (hkept hleft)
      refine asIfCopied_of_eq hstate hthrew' ?_
      show ¬ ReadLate b i (r₀.events ++ (f r₀.state).events)
      rw [hevents, List.append_cons]
      refine not_readLate_append (fun e he => ?_) hrest
      rcases List.mem_append.mp he with he | he
      · exact hleft e he
      · obtain rfl := List.mem_singleton.mp he
        exact not_ends_copied b i

end Stored

section Endings
variable {E : Environment} {s : State T} {b i x n : ℕ} {r : Result T}

theorem closed_true (B : Set ℕ) : Closed B fun _ : State T => True :=
  ⟨fun _ _ _ => trivial, fun _ _ _ _ _ _ => trivial, fun _ _ _ => trivial, fun _ _ _ => trivial⟩

/-- The program does not read the object. -/
abbrev Unread (b i : ℕ) (r : Result T) : Prop := Stays (fun _ => True) (fun e => e ≠ .copied b i) r

theorem unread_deleteArray : Unread x i (s.deleteArray b) :=
  (closed_true ∅).deleteArray trivial nofun ⟨nofun, nofun⟩

theorem released_mem_deleteArray (hb : b ≠ nullptr) :
    .released b .array ∈ (s.deleteArray b).events := by
  unfold State.deleteArray
  rw [if_neg hb]
  split
  · exact destroyArray_ends.mem_events List.mem_cons_self
  · exact List.mem_cons_self

theorem deleteArray_calls : (s.deleteArray b).state.calls = s.calls := by
  unfold State.deleteArray
  split
  · rfl
  · split
    · rw [andThen_of_not_threw destroyArray_ends.1, destroyArray_ends.2]
      rfl
    · rfl

end Endings

section PushBack
variable [Inhabited T] {E : Environment} {s : State T} {b i n : ℕ} {v : T}

/-- The exceptions that leave `push_back` on a full vector before it reads its argument. -/
def State.PushFails (E : Environment) (s : State T) : Prop :=
  s.ArrayFails E s.grown ∨ ∃ k ≤ s.grown + s.size, E.elementThrows (s.calls + 1 + k) = true

instance (s : State T) : Decidable (s.PushFails E) := by
  unfold State.PushFails
  infer_instance

/-- The old elements are still there when the new ones have been copied. -/
theorem copied_leaves (hp : Placed s) :
    ∀ e ∈ (s.copied E n).events, ¬ e.Ends s.data i := by
  by_cases hmemory : s.ArrayFails E n
  · obtain ⟨calls, hcopied⟩ := copied_fails hmemory
    rw [hcopied]
    exact nofun
  · refine ((closed_true ∅).copied hmemory trivial nofun (fun e he hends => ?_) ?_).2
    · exact Nat.ne_of_lt hp.data (hends.block_eq.symm.trans he)
    · exact fun s' _ j => not_ends_copied s'.data j

theorem copied_calls (hfails : ¬ s.ResizeFails E n) :
    (s.copied E n).state.calls = s.calls + 1 + (n + s.size) := by
  obtain ⟨hmemory, hthrows⟩ := not_or.mp hfails
  have hallocation : E.allocationThrows s.calls = false :=
    Bool.eq_false_iff.mpr (not_or.mp hmemory).2
  have hends : (s.allocate E ⟨.array, n⟩).Ends (s.allocated ⟨.array, n⟩) :=
    allocate_ends hallocation
  obtain ⟨hthrew, hstate⟩ := hends
  rw [copied_eq hmemory, andThen_of_not_threw hthrew, hstate]
  have hfilling := attempts_filling (E := E) (n := n) (b := s.next)
    (s := s.allocated ⟨.array, n⟩)
  exact hfilling.counted (Bool.eq_false_iff.mpr (mt hfilling.threw_iff.mp hthrows))

/-- What `resize` leaves of the old elements. -/
theorem resize_done (h : Rooted s) (hdata : s.data ≠ nullptr) (hfails : ¬ s.ResizeFails E n) :
    (s.resize E n).threw = false ∧ ¬ ReadLate s.data i (s.resize E n).events ∧
      .released s.data .array ∈ (s.resize E n).events ∧
      (s.resize E n).state.calls = s.calls + 1 + (n + s.size) := by
  have hthrew : (s.copied E n).threw = false :=
    Bool.eq_false_iff.mpr (mt copied_threw_iff.mp hfails)
  have hintact := copied_intact (E := E) (n := n) h.placed
  have hevents : (s.resize E n).events =
      (s.copied E n).events ++ ((s.copied E n).state.deleteArray s.data).events := by
    rw [resize_eq, andThen_of_not_threw hthrew, hintact.data]
    exact congrArg _ (andThen_done_events _ _)
  refine ⟨Bool.eq_false_iff.mpr (mt resize_threw_iff.mp hfails), ?_, ?_, ?_⟩
  · rw [hevents]
    exact not_readLate_append (copied_leaves h.placed) unread_deleteArray.2
  · rw [hevents]
    exact List.mem_append_right _ (released_mem_deleteArray hdata)
  · rw [resize_eq, andThen_of_not_threw hthrew, andThen_of_not_threw deleteArray_not_threw]
    exact deleteArray_calls.trans (copied_calls hfails)

/-- A full vector destroys the element before it stores a copy of it. -/
theorem pushBack_asIfCopied_iff (h : Rooted s) (hi : i < s.size)
    (hv : s.objects s.data i = some v) :
    AsIfCopied s.data i (s.pushBack E (.object s.data i)) (s.pushBack E (.value v)) ↔
      (s.size = s.capacity → s.PushFails E) := by
  have hlast (s' : State T) : Stored E s.data i v s'
      (s'.incrementSize.assign E s'.data s'.size (.object s.data i))
      (s'.incrementSize.assign E s'.data s'.size (.value v)) := by
    obtain ⟨hthrows, hreads, hsame⟩ := stored_store (E := E) (s := s'.incrementSize)
      (x := s'.data) (j := s'.size) (v := v) (e := .assigned s'.data s'.size)
      (b := s.data) (i := i) nofun
    exact ⟨hthrows, hreads, hsame⟩
  unfold State.pushBack
  split
  · rename_i hfull
    have hdata : s.data ≠ nullptr := h.data_ne (by omega)
    by_cases hfails : s.ResizeFails E s.grown
    · have hpush : s.PushFails E :=
        hfails.imp_right fun ⟨k, hk, hthrows⟩ => ⟨k, Nat.le_of_lt hk, hthrows⟩
      refine iff_of_true (asIfCopied_of_threw (resize_threw_iff.mpr hfails) ?_) fun _ => hpush
      rw [resize_of_copied_threw (copied_threw_iff.mpr hfails)]
      exact not_readLate_of_not_ends (copied_leaves h.placed)
    · obtain ⟨hthrew, hin, hreleased, hcalls⟩ := resize_done (E := E) (i := i) h hdata hfails
      have hends : ¬ ∀ e ∈ (s.resize E s.grown).events, ¬ e.Ends s.data i :=
        fun hleft => hleft _ hreleased (.inr (.inr ⟨_, rfl⟩))
      rw [asIfCopied_iff hthrew hin (fun hleft => absurd hleft hends) (hlast _), hcalls,
        or_iff_right hends]
      constructor
      · intro hthrows _
        exact .inr ⟨_, Nat.le_refl _, hthrows⟩
      · intro hpush
        obtain ⟨k, hk, hthrows⟩ := (hpush hfull).resolve_left fun hmemory => hfails (.inl hmemory)
        rcases Nat.lt_or_eq_of_le hk with hlt | rfl
        · exact absurd (.inr ⟨k, hlt, hthrows⟩) hfails
        · exact hthrows
  · rename_i hfull
    refine (asIfCopied_iff rfl ?_ (fun _ => hv) (hlast _)).trans ?_
    · exact not_readLate_of_not_ends nofun
    · exact iff_of_true (.inl nofun) fun hfull' => absurd hfull' hfull

end PushBack

section Emplace
variable {E : Environment} {s : State T} {i x n index : ℕ} {v : T}

/-- The element is where it was when `emplace` reads it, or an exception comes first. -/
def State.Undisturbed (E : Environment) (index i : ℕ) (s : State T) : Prop :=
  if s.size = s.capacity ∧ s.capacity < s.grown then
    E.allocationThrows s.calls = true ∨ E.elementThrows (s.calls + 1) = true
  else i < index ∨ E.elementThrows s.calls = true

instance (s : State T) : Decidable (s.Undisturbed E index i) := by
  unfold State.Undisturbed
  infer_instance

theorem unread_relocateLoop {b b' : ℕ} {slot slot' : ℕ → ℕ} :
    Unread x i (loop (fun k => State.relocate b (slot k) b' (slot' k)) n s) :=
  stays_loop trivial fun _ _ _ _ => (closed_true ∅).relocate trivial nofun nofun
    ⟨nofun, nofun, nofun⟩

theorem unread_shift : Unread x i (s.shift index) := unread_relocateLoop

theorem unread_relocateAll : Unread x i (s.relocateAll E n) := by
  have hallocate : Unread x i (s.operatorNew E n) := (closed_true ∅).allocate trivial nofun
  refine hallocate.andThen fun s' _ => unread_relocateLoop.andThen fun s' _ => ?_
  have hdelete : Unread x i (s'.operatorDelete s'.data) :=
    (closed_true ∅).operatorDelete trivial nofun
  exact hdelete.andThen fun _ _ => stays_done trivial

theorem released_mem_relocateAll (hthrows : E.allocationThrows s.calls = false) (hp : Placed s)
    (hdata : s.data ≠ nullptr) : .released s.data .raw ∈ (s.relocateAll E n).events := by
  have hdelete : .released s.data .raw ∈ ((s.withMoved E n).operatorDelete s.data).events := by
    unfold State.operatorDelete
    rw [if_neg hdata]
    exact List.mem_cons_self
  refine (allocate_ends hthrows).mem_events ?_
  exact (relocateLoop_ends (Nat.ne_of_lt hp.data)).mem_events (mem_events_andThen hdelete)

/-- The elements behind the position move, and the others stay. -/
theorem shift_leaves (hindex : index ≤ s.size) (hi : i < s.size) :
    (∀ e ∈ (s.shift index).events, ¬ e.Ends s.data i) ↔ i < index := by
  constructor
  · intro hleft
    by_contra hle
    have hslot : s.size - (s.size - i - 1) - 1 = i := by omega
    refine hleft (.movedFrom s.data i) ?_ (.inl rfl)
    have hmem := mem_events_loop (k := s.size - i - 1) (n := s.size - index)
      (e := .movedFrom s.data (s.size - (s.size - i - 1) - 1))
      (fun k => s.withObjects (shifted s.objects s.data s.size k))
      (fun _ hk => shifted_step (Nat.lt_of_lt_of_le hk (Nat.sub_le _ _))) (by omega)
      List.mem_cons_self
    rwa [hslot, shifted_zero] at hmem
  · intro hlt
    have hshift : Stays (fun _ => True) (fun e => ¬ e.Ends s.data i) (s.shift index) := by
      refine stays_loop trivial fun k hk s' _ => ?_
      have hne : s.size - k - 1 ≠ i := by omega
      refine (closed_true ∅).relocate trivial nofun nofun ⟨?_, ?_, ?_⟩
      all_goals simp [Lifetime.Ends, hne]
    exact hshift.2

theorem makeRoom_of_grows (h : s.size = s.capacity ∧ s.capacity < s.grown) :
    s.makeRoom E = s.relocateAll E s.grown := by
  unfold State.makeRoom State.reserve
  rw [if_pos h.1, if_neg (Nat.not_le.mpr h.2)]

theorem makeRoom_of_not_grows (h : ¬ (s.size = s.capacity ∧ s.capacity < s.grown)) :
    s.makeRoom E = done s := by
  unfold State.makeRoom State.reserve
  split
  · exact if_pos (Nat.le_of_not_lt fun hlt => h ⟨‹_›, hlt⟩)
  · rfl

theorem emplace_eq (args : Argument T) : s.emplace E index args =
    ((s.makeRoom E).andThen (State.shift index)).andThen fun s' =>
      (s'.construct E s'.data index args).andThen fun s'' => done s''.incrementSize := by
  rw [andThen_assoc]
  rfl

/-- Growth moves the element away, and so does the shift unless the element is in front. -/
theorem emplace_asIfCopied_iff (h : Rooted s) (hindex : index ≤ s.size) (hi : i < s.size)
    (hv : s.objects s.data i = some v) :
    AsIfCopied s.data i (s.emplace E index (.object s.data i)) (s.emplace E index (.value v)) ↔
      s.Undisturbed E index i := by
  have hlast (s' : State T) : Stored E s.data i v s'
      ((s'.construct E s'.data index (.object s.data i)).andThen fun s'' => done s''.incrementSize)
      ((s'.construct E s'.data index (.value v)).andThen fun s'' => done s''.incrementSize) := by
    have hstore := stored_store (E := E) (s := s') (x := s'.data) (j := index) (v := v)
      (e := .constructed s'.data index) (b := s.data) (i := i) nofun
    exact hstore.andThen_done State.incrementSize
  rw [emplace_eq, emplace_eq]
  unfold State.Undisturbed
  split
  · rename_i hgrows
    rw [makeRoom_of_grows hgrows]
    cases hallocation : E.allocationThrows s.calls with
    | true =>
      rw [relocateAll_fails hallocation, andThen_of_threw rfl]
      exact iff_of_true (asIfCopied_of_threw rfl (not_readLate_of_not_ends nofun)) (.inl rfl)
    | false =>
      have hdata : s.data ≠ nullptr := h.data_ne (by omega)
      have hends : ((s.relocateAll E s.grown).andThen (State.shift index)).Ends _ :=
        (relocateAll_ends hallocation h.placed).andThen shift_ends
      obtain ⟨hthrew, hstate⟩ := hends
      have hunread : Unread s.data i ((s.relocateAll E s.grown).andThen (State.shift index)) :=
        unread_relocateAll.andThen fun _ _ => unread_shift
      have hreleased := released_mem_relocateAll (n := s.grown) hallocation h.placed hdata
      have hends : ¬ ∀ e ∈ ((s.relocateAll E s.grown).andThen (State.shift index)).events,
          ¬ e.Ends s.data i :=
        fun hleft => hleft _ (mem_events_andThen hreleased) (.inr (.inr ⟨_, rfl⟩))
      rw [asIfCopied_iff hthrew (not_readLate_of_not_copied hunread.2)
        (fun hleft => absurd hleft hends) (hlast _), or_iff_right hends, hstate,
        or_iff_right Bool.false_ne_true]
      rfl
  · rename_i hgrows
    have hshift : (s.shift index).Ends _ := shift_ends
    obtain ⟨hthrew, hstate⟩ := hshift
    rw [makeRoom_of_not_grows hgrows, done_andThen, asIfCopied_iff hthrew
      (not_readLate_of_not_copied unread_shift.2) (fun hleft => ?_) (hlast _),
      shift_leaves hindex hi, hstate]
    · rfl
    · have hlt := (shift_leaves hindex hi).mp hleft
      rw [hstate, ← hv]
      exact if_neg (by omega)

/-- `emplace_back` is `emplace` at the end. -/
theorem emplaceBack_eq_emplace (hp : Placed s) (args : Argument T) :
    s.emplaceBack E args = s.emplace E s.size args := by
  have hsize := (makeRoom_kept (E := E) hp).1
  rw [emplaceBack_eq]
  exact andThen_congr (congrArg (fun n => State.insertAt E n args _) hsize)

end Emplace

variable [Inhabited T] {E : Environment} {s : State T} {log : List Event} {i : ℕ} {v : T}

end MyVector
