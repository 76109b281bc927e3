import LowLevelCpp.ReinC.Failures
import Mathlib.Data.List.Basic

/-! The computation graph that `create_var` and `create_node` build while no `arena_push` fails.
Every variable is newer than its inputs, and its blocks lie behind those of all the others, so that
no call touches what earlier ones have made. -/
namespace ReinC
open Foundations Foundations.System Relation

/-- The blocks of a variable, the last one first. -/
def Heap.blocks (h : Heap) (v : BitVec 64) : List Block :=
  [⟨(h.value v).data, dataSize (h.value v).rows (h.value v).cols⟩, ⟨(h.vars v).val, 16⟩, ⟨v, 48⟩]

/-- The variable, the header of its value and every byte of its blocks are as they were. -/
structure Heap.Keeps (h h' : Heap) (v : BitVec 64) : Prop where
  var : h'.vars v = h.vars v
  value : h'.value v = h.value v
  bytes : ∀ b ∈ h.blocks v, ∀ x, b.start ≤ x → x < b.stop → h'.bytes x = h.bytes x

/-- `v` is an input of `w`. -/
def Heap.Input (h : Heap) (w v : BitVec 64) : Prop := v ≠ 0 ∧ ∃ i, (h.vars w).inputs i = v

def State.blocks (s : State) : List Block := s.graph.flatMap fun p => s.heap.blocks p.1

/-- No `arena_push` of the call fails. -/
def Serves (types : BitVec 64 → VarType) (s : State) : Act → Prop
  | .create_var rows cols _ => Fits s.heap.arena.capacity.toNat s.heap.arena.pos.toNat
      [48, 16, (dataSize rows cols).toNat]
  | .create_node a b type => s.heap.Rejects types a b type ∨
      Fits s.heap.arena.capacity.toNat s.heap.arena.pos.toNat [48, 16,
        (dataSize (s.heap.nodeRows types a b type) (s.heap.nodeCols types a b type)).toNat]

/-- The invariant: the blocks are stacked, the counter is the number of variables, and a variable
carries the number of the older ones and reads only those. -/
structure Grown (r : Created) (s : State) : Prop where
  running : s.ended = false
  stacked : Stacked r ⟨s.heap.arena, s.heap.bytes, s.blocks⟩
  counted : s.heap.model.num_vars = BitVec.ofNat 32 s.graph.length
  ordered : ∀ newer p older, s.graph = newer ++ p :: older →
    (s.heap.vars p.1).index = BitVec.ofNat 32 older.length ∧
      ∀ i, (s.heap.vars p.1).inputs i = 0 ∨ (s.heap.vars p.1).inputs i ∈ older.map Prod.fst

/-- A call has put one variable with its matrix behind everything else. -/
structure Extends (r : Created) (h h' : Heap) (out : BitVec 64) (var : Var) (m : Matrix) :
    Prop where
  vars : h'.vars = Function.update h.vars out var
  matrices : h'.matrices = Function.update h.matrices var.val m
  counter : h'.model.num_vars = h.model.num_vars + 1
  index : var.index = h.model.num_vars
  out_eq : out.toNat = r.memory.toNat + alignedPos h.arena.pos.toNat
  val_eq : var.val.toNat = r.memory.toNat + alignedPos (alignedPos h.arena.pos.toNat + 48)
  data_eq : m.data.toNat = r.memory.toNat +
    alignedPos (alignedPos (alignedPos h.arena.pos.toNat + 48) + 16)
  arena : h'.arena.At r
  pos_eq : h'.arena.pos.toNat = alignedPos (alignedPos (alignedPos h.arena.pos.toNat + 48) + 16) +
    (dataSize m.rows m.cols).toNat
  bytes : h'.bytes = ((h.bytes.fill out.toNat 48 0).fill var.val.toNat 16 0).fill m.data.toNat
    (dataSize m.rows m.cols).toNat 0

section Calls
variable {r : Created} {h h' : Heap} {out v a b type : BitVec 64} {var : Var} {m : Matrix}
  {types : BitVec 64 → VarType}

theorem createVar_extends (rows cols flags : BitVec 32) (hat : h.arena.At r)
    (hfits : Fits r.capacity.toNat h.arena.pos.toNat [48, 16, (dataSize rows cols).toNat]) :
    ∃ out var data h', h.createVar rows cols flags = .ok (out, h') ∧ out ≠ 0 ∧
      Extends r h h' out var ⟨rows, cols, data⟩ ∧ ∀ i, var.inputs i = 0 := by
  obtain ⟨out, val, data, arena, bytes, hcreate, hne, hout, -, hval, hdata⟩ :=
    createVar_granted rows cols flags hat ⟨hfits.1, hfits.2.1, trivial⟩
  obtain ⟨-, hdata, hat', hpos, hbytes⟩ := hdata hfits
  exact ⟨out, _, data, _, hcreate, hne,
    ⟨rfl, rfl, rfl, rfl, hout, hval, hdata, hat', hpos, hbytes⟩, fun _ => rfl⟩

theorem nodeInputs_cases (t : VarType) (a b : BitVec 64) (inputs : Fin 2 → BitVec 64) (i : Fin 2) :
    Heap.nodeInputs t inputs a b i = inputs i ∨ Heap.nodeInputs t inputs a b i = a ∨
      Heap.nodeInputs t inputs a b i = b := by
  unfold Heap.nodeInputs
  by_cases hi : i = 0
  · subst hi
    split <;> simp
  · obtain rfl : i = 1 := by omega
    split <;> simp

theorem createNode_extends (hat : h.arena.At r) (hrejects : ¬ h.Rejects types a b type)
    (hfits : Fits r.capacity.toNat h.arena.pos.toNat [48, 16,
      (dataSize (h.nodeRows types a b type) (h.nodeCols types a b type)).toNat]) :
    ∃ out var m h', h.createNode types a b type = .ok (out, h') ∧ out ≠ 0 ∧
      Extends r h h' out var m ∧
      ∀ i, var.inputs i = 0 ∨ var.inputs i = a ∨ var.inputs i = b := by
  obtain ⟨out, var, data, h₁, hcreate, hne, he, hinputs⟩ :=
    createVar_extends _ _ (h.nodeFlag a b) hat hfits
  have hcreated := createNode_created hrejects hcreate
  rw [he.vars, Function.update_self] at hcreated
  refine ⟨out, { var with type, inputs := Heap.nodeInputs (types type) var.inputs a b }, _, _,
    hcreated, hne, ⟨?_, he.matrices, he.counter, he.index, he.out_eq, he.val_eq, he.data_eq,
      he.arena, he.pos_eq, he.bytes⟩, fun i => ?_⟩
  · simp only [Function.update_idem]
  · rw [← hinputs i]
    exact nodeInputs_cases (types type) a b var.inputs i

end Calls

section Extend
variable {r : Created} {s : State} {h' : Heap} {out v : BitVec 64} {var : Var} {m : Matrix}

theorem alignedPos_le (pos : ℕ) : pos ≤ alignedPos pos := (alignedPos_isLeast pos).1.2

/-- The blocks of a variable lie below the position of the arena. -/
theorem Grown.below (hg : Grown r s) (hv : v ∈ s.graph.map Prod.fst) {b : Block}
    (hb : b ∈ s.heap.blocks v) :
    r.memory.toNat ≤ b.start ∧ b.stop ≤ r.memory.toNat + s.heap.arena.pos.toNat := by
  obtain ⟨p, hp, rfl⟩ := List.mem_map.mp hv
  exact (hg.stacked.blocks b (List.mem_flatMap.mpr ⟨p, hp, hb⟩)).2

/-- What lies behind the position of the arena is not part of an earlier variable. -/
theorem Extends.keeps (he : Extends r s.heap h' out var m) (hg : Grown r s)
    (hv : v ∈ s.graph.map Prod.fst) : s.heap.Keeps h' v := by
  have hle := alignedPos_le s.heap.arena.pos.toNat
  have hle' := alignedPos_le (alignedPos s.heap.arena.pos.toNat + 48)
  have hle'' := alignedPos_le (alignedPos (alignedPos s.heap.arena.pos.toNat + 48) + 16)
  obtain ⟨-, hvar⟩ := hg.below (b := ⟨v, 48⟩) hv (by simp [Heap.blocks])
  obtain ⟨-, hval⟩ := hg.below (b := ⟨(s.heap.vars v).val, 16⟩) hv (by simp [Heap.blocks])
  have hout := he.out_eq
  have hvaleq := he.val_eq
  have hdata := he.data_eq
  have hsame : h'.vars v = s.heap.vars v := by
    rw [he.vars, Function.update_of_ne]
    rintro rfl
    change v.toNat + 48 ≤ _ at hvar
    omega
  refine ⟨hsame, ?_, fun b hb x _ hhi => ?_⟩
  · rw [Heap.value, hsame, he.matrices, Function.update_of_ne]
    · rfl
    · intro heq
      change (s.heap.vars v).val.toNat + 16 ≤ _ at hval
      rw [heq] at hval
      omega
  · have hstop := (hg.below hv hb).2
    rw [he.bytes, Bytes.fill_outside (by omega), Bytes.fill_outside (by omega),
      Bytes.fill_outside (by omega)]

theorem Heap.Keeps.blocks {h : Heap} (hk : h.Keeps h' v) : h'.blocks v = h.blocks v := by
  unfold Heap.blocks
  rw [hk.var, hk.value]

theorem Extends.blocks (he : Extends r s.heap h' out var m) (hg : Grown r s) (origin : Origin) :
    State.blocks { s with heap := h', graph := (out, origin) :: s.graph } =
      ⟨m.data, dataSize m.rows m.cols⟩ :: ⟨var.val, 16⟩ :: ⟨out, 48⟩ :: s.blocks := by
  have hvar : h'.vars out = var := by rw [he.vars, Function.update_self]
  have hvalue : h'.value out = m := by rw [Heap.value, hvar, he.matrices, Function.update_self]
  have hold : (s.graph.flatMap fun p => h'.blocks p.1) = s.blocks :=
    List.flatMap_congr fun p hp => (he.keeps hg (List.mem_map_of_mem hp)).blocks
  simp only [State.blocks, List.flatMap_cons] at hold ⊢
  rw [hold, Heap.blocks, hvar, hvalue]
  rfl

/-- The three new blocks lie above the old ones, in the order in which they were pushed. -/
theorem Extends.stacked (he : Extends r s.heap h' out var m) (hg : Grown r s) :
    Stacked r ⟨h'.arena, h'.bytes,
      ⟨m.data, dataSize m.rows m.cols⟩ :: ⟨var.val, 16⟩ :: ⟨out, 48⟩ :: s.blocks⟩ := by
  obtain ⟨⟨hdvd, hle⟩, -⟩ := alignedPos_isLeast s.heap.arena.pos.toNat
  obtain ⟨⟨hdvd', hle'⟩, -⟩ := alignedPos_isLeast (alignedPos s.heap.arena.pos.toNat + 48)
  obtain ⟨⟨hdvd'', hle''⟩, -⟩ :=
    alignedPos_isLeast (alignedPos (alignedPos s.heap.arena.pos.toNat + 48) + 16)
  have hout := he.out_eq
  have hval := he.val_eq
  have hdata := he.data_eq
  have hpos := he.pos_eq
  have hold (b : Block) (hb : b ∈ s.blocks) := hg.stacked.blocks b hb
  have hbelow (b : Block) (hb : b ∈ s.blocks) : b.stop ≤ out.toNat := by
    have hstop := (hold b hb).2.2
    simp only at hstop
    omega
  have hstruct : (48 : BitVec 64).toNat = 48 ∧ (16 : BitVec 64).toNat = 16 := ⟨rfl, rfl⟩
  obtain ⟨hvar48, hheader16⟩ := hstruct
  refine ⟨he.arena, fun b hb => ?_, ?_⟩
  · simp only [List.mem_cons] at hb
    rcases hb with rfl | rfl | rfl | hb
    · simp only [Block.start, Block.stop, hdata, hpos, Nat.add_sub_cancel_left]
      exact ⟨hdvd'', by omega, by omega⟩
    · simp only [Block.start, Block.stop, hval, hpos, hheader16, Nat.add_sub_cancel_left]
      exact ⟨hdvd', by omega, by omega⟩
    · simp only [Block.start, Block.stop, hout, hpos, hvar48, Nat.add_sub_cancel_left]
      exact ⟨hdvd, by omega, by omega⟩
    · obtain ⟨hoffset, hlo, hhi⟩ := hold b hb
      simp only at hhi
      refine ⟨hoffset, hlo, ?_⟩
      simp only [hpos]
      omega
  · simp only [List.pairwise_cons, List.mem_cons]
    refine ⟨?_, ?_, fun b hb => hbelow b hb, hg.stacked.above⟩
    · rintro b (rfl | rfl | hb)
      · simp only [Block.start, Block.stop, hdata, hval, hheader16]
        omega
      · simp only [Block.start, Block.stop, hdata, hout, hvar48]
        omega
      · have hstop := hbelow b hb
        simp only [Block.start, hdata]
        omega
    · rintro b (rfl | hb)
      · simp only [Block.start, Block.stop, hval, hout, hvar48]
        omega
      · have hstop := hbelow b hb
        simp only [Block.start, hval]
        omega

theorem Extends.grown (he : Extends r s.heap h' out var m) (hg : Grown r s)
    (hinputs : ∀ i, var.inputs i = 0 ∨ var.inputs i ∈ s.graph.map Prod.fst) (origin : Origin) :
    Grown r { s with heap := h', graph := (out, origin) :: s.graph } := by
  refine ⟨hg.running, he.blocks hg origin ▸ he.stacked hg, ?_, fun newer p older hsplit => ?_⟩
  · rw [he.counter, hg.counted, List.length_cons, BitVec.ofNat_add]
    rfl
  · cases newer with
    | nil =>
      obtain ⟨rfl, rfl⟩ := List.cons.inj hsplit
      rw [he.vars, Function.update_self, he.index]
      exact ⟨hg.counted, hinputs⟩
    | cons q newer =>
      obtain ⟨-, hrest⟩ := List.cons.inj hsplit
      have hp : p.1 ∈ s.graph.map Prod.fst := List.mem_map_of_mem (by simp [hrest])
      rw [(he.keeps hg hp).var]
      exact hg.ordered newer p older hrest

end Extend
section Runs
variable {r : Created} {types : BitVec 64 → VarType} {bytes : Bytes} {s s' : State}
  {log evs : List Event} {act : Act}

theorem grown_init : Grown r (system r types bytes).init := by
  refine ⟨rfl, ?_, rfl, by simp [system]⟩
  exact stacked_created r bytes

/-- A call of a run extends the graph, or is rejected and changes nothing. -/
theorem Grown.cases (hg : Grown r s) (hserves : Serves types s act)
    (hs : step types s act = some (s', evs)) :
    s' = s ∨ ∃ h' out var m origin, Extends r s.heap h' out var m ∧
      (∀ i, var.inputs i = 0 ∨ var.inputs i ∈ s.graph.map Prod.fst) ∧
      s' = { s with heap := h', graph := (out, origin) :: s.graph } := by
  have hcapacity := hg.stacked.arena.capacity
  simp only at hcapacity
  unfold ReinC.step at hs
  rw [hg.running] at hs
  cases act with
  | create_var rows cols flags =>
    simp only [Serves, hcapacity] at hserves
    obtain ⟨out, var, data, h', hcreate, hne, he, hinputs⟩ :=
      createVar_extends rows cols flags hg.stacked.arena hserves
    simp only [hcreate, State.call, if_neg hne] at hs
    cases hs
    exact .inr ⟨h', out, var, _, _, he, fun i => .inl (hinputs i), rfl⟩
  | create_node a b type =>
    simp only [Bool.false_eq_true, if_false] at hs
    split at hs
    · rename_i hoperands
      by_cases hrejects : s.heap.Rejects types a b type
      · simp only [createNode_rejected hrejects, State.call, if_pos] at hs
        cases hs
        exact .inl rfl
      · have hfits := hserves.resolve_left hrejects
        rw [hcapacity] at hfits
        obtain ⟨out, var, m, h', hcreate, hne, he, hinputs⟩ :=
          createNode_extends hg.stacked.arena hrejects hfits
        simp only [hcreate, State.call, if_neg hne] at hs
        cases hs
        refine .inr ⟨h', out, var, m, _, he, fun i => ?_, rfl⟩
        rcases hinputs i with hi | hi | hi
        · exact .inl hi
        · exact hi ▸ hoperands.1
        · exact hi ▸ hoperands.2
    · cases hs

theorem Grown.step (hg : Grown r s) (hserves : Serves types s act)
    (hs : step types s act = some (s', evs)) : Grown r s' := by
  rcases hg.cases hserves hs with rfl | ⟨h', out, var, m, origin, he, hinputs, rfl⟩
  · exact hg
  · exact he.grown hg hinputs origin

theorem Grown.keeps (hg : Grown r s) (hserves : Serves types s act)
    (hs : ReinC.step types s act = some (s', evs)) {v : BitVec 64}
    (hv : v ∈ s.graph.map Prod.fst) : s.heap.Keeps s'.heap v := by
  rcases hg.cases hserves hs with rfl | ⟨h', out, var, m, origin, he, hinputs, rfl⟩
  · exact ⟨rfl, rfl, fun _ _ _ _ _ => rfl⟩
  · exact he.keeps hg hv

theorem grown_of_run (hrun : (system r types bytes).RunWhere (Serves types) s log) : Grown r s :=
  hrun.invariant (I := fun s _ => Grown r s) grown_init
    fun _ _ _ _ _ _ hg hserves hs => hg.step hserves hs

/-- The variable at a place of the graph carries the number of the older ones. -/
theorem Grown.index (hg : Grown r s) (hfew : s.graph.length < 2 ^ 32) {newer older} {p}
    (hsplit : s.graph = newer ++ p :: older) : (s.heap.vars p.1).index.toNat = older.length := by
  rw [(hg.ordered newer p older hsplit).1, BitVec.toNat_ofNat]
  apply Nat.mod_eq_of_lt
  rw [hsplit, List.length_append, List.length_cons] at hfew
  omega

theorem Grown.indices (hg : Grown r s) (hfew : s.graph.length < 2 ^ 32) :
    s.graph.reverse.map (fun p => (s.heap.vars p.1).index.toNat) =
      List.range s.graph.length := by
  refine List.ext_getElem (by simp) fun k hk hk' => ?_
  rw [List.length_range] at hk'
  have hlt : s.graph.length - 1 - k < s.graph.length := by omega
  have hsplit : s.graph = s.graph.take (s.graph.length - 1 - k) ++
      s.graph[s.graph.length - 1 - k] :: s.graph.drop (s.graph.length - 1 - k + 1) := by
    rw [List.getElem_cons_drop, List.take_append_drop]
  rw [List.getElem_map, List.getElem_reverse, List.getElem_range, hg.index hfew hsplit,
    List.length_drop]
  omega

/-- An input is a variable of the graph with a smaller index. -/
theorem Grown.input_lt (hg : Grown r s) (hfew : s.graph.length < 2 ^ 32) {v w : BitVec 64}
    (hw : w ∈ s.graph.map Prod.fst) (hinput : s.heap.Input w v) :
    v ∈ s.graph.map Prod.fst ∧ (s.heap.vars v).index < (s.heap.vars w).index := by
  obtain ⟨hne, i, hi⟩ := hinput
  obtain ⟨p, hp, rfl⟩ := List.mem_map.mp hw
  obtain ⟨newer, older, hsplit⟩ := List.append_of_mem hp
  have hold : v ∈ older.map Prod.fst := by
    have hor := (hg.ordered newer p older hsplit).2 i
    rw [hi] at hor
    exact hor.resolve_left hne
  obtain ⟨q, hq, rfl⟩ := List.mem_map.mp hold
  obtain ⟨newer', older', hsplit'⟩ := List.append_of_mem hq
  have hdeep : s.graph = (newer ++ p :: newer') ++ q :: older' := by
    rw [hsplit, hsplit', List.append_assoc, List.cons_append]
  refine ⟨List.mem_map_of_mem (by simp [hdeep]), ?_⟩
  rw [BitVec.lt_def, hg.index hfew hdeep, hg.index hfew hsplit, hsplit', List.length_append,
    List.length_cons]
  omega

/-- Following inputs leads to smaller and smaller indices. -/
theorem Grown.inputs_lt (hg : Grown r s) (hfew : s.graph.length < 2 ^ 32) {v w : BitVec 64}
    (hw : w ∈ s.graph.map Prod.fst) (hpath : TransGen s.heap.Input w v) :
    v ∈ s.graph.map Prod.fst ∧ (s.heap.vars v).index < (s.heap.vars w).index := by
  induction hpath with
  | single hinput => exact hg.input_lt hfew hw hinput
  | tail _ hinput ih =>
    obtain ⟨hmem, hlt⟩ := ih
    obtain ⟨hmem', hlt'⟩ := hg.input_lt hfew hmem hinput
    exact ⟨hmem', BitVec.lt_trans hlt' hlt⟩

/-- While no `arena_push` fails and there are fewer than `2 ^ 32` variables: they are numbered
from zero in the order of their creation; every input of a variable that is not null is one with a
smaller number, so that the graph has no cycle; their blocks do not overlap; a rejected
`create_node` changes nothing; and no call changes an earlier variable, its matrix or any byte of
its blocks. -/
theorem graph_ordered_and_kept (hrun : (system r types bytes).RunWhere (Serves types) s log)
    (hfew : s.graph.length < 2 ^ 32) :
    (s.heap.model.num_vars.toNat = s.graph.length ∧
      s.graph.reverse.map (fun p => (s.heap.vars p.1).index.toNat) =
        List.range s.graph.length) ∧
    (∀ v w, w ∈ s.graph.map Prod.fst → s.heap.Input w v →
      v ∈ s.graph.map Prod.fst ∧ (s.heap.vars v).index < (s.heap.vars w).index) ∧
    (∀ v ∈ s.graph.map Prod.fst, ¬ TransGen s.heap.Input v v) ∧
    s.blocks.Pairwise (fun b b' => b.region.Apart b'.region) ∧
    (∀ a b type, s.heap.Rejects types a b type →
      s.heap.createNode types a b type = .ok (0, s.heap)) ∧
    ∀ act s' evs, Serves types s act → (system r types bytes).step s act = some (s', evs) →
      ∀ v ∈ s.graph.map Prod.fst, s.heap.Keeps s'.heap v := by
  have hg := grown_of_run hrun
  refine ⟨⟨?_, hg.indices hfew⟩, fun v w hw hinput => hg.input_lt hfew hw hinput,
    fun v hv hcycle => ?_, hg.stacked.above.imp fun hle => .inr hle,
    fun a b type => createNode_rejected, fun act s' evs hserves hs v hv => hg.keeps hserves hs hv⟩
  · rw [hg.counted, BitVec.toNat_ofNat, Nat.mod_eq_of_lt hfew]
  · exact BitVec.lt_irrefl _ (hg.inputs_lt hfew hv hcycle).2

end Runs

instance (types : BitVec 64 → VarType) (s : State) (act : Act) :
    Decidable (Serves types s act) := by
  cases act <;> unfold Serves Heap.Rejects <;> infer_instance

/-- A type that takes two operands of one shape, and rejects others. -/
def sameShape (_ : BitVec 64) : VarType where
  num_inputs := 2
  shape h a b _ _ := (if (h.value a).rows = (h.value b).rows then 1 else 0, 1, (h.value a).rows)

/-- Two leaves, a node over them, a rejected one, and a node over the first node and itself. -/
def diamond : List Act :=
  [.create_var 2 1 0, .create_var 2 1 0, .create_node 16384 16480 48, .create_node 16384 0 48,
    .create_node 16576 16576 48]

theorem graph_ordered_and_kept_diamond :
    ∃ s log, (system kilobyte sameShape fun _ => 7).RunWhere (Serves sameShape) s log ∧
      s.graph.map Prod.fst = [16672, 16576, 16480, 16384] ∧
      s.graph.reverse.map (fun p => (s.heap.vars p.1).index.toNat) = [0, 1, 2, 3] ∧
      s.heap.Input 16576 16384 ∧ s.heap.Input 16672 16576 ∧
      (s.heap.vars 16384).index < (s.heap.vars 16576).index ∧
      (s.heap.vars 16576).index < (s.heap.vars 16672).index := by
  obtain ⟨s, log, hrun, hq⟩ := (system kilobyte sameShape fun _ => 7).exists_run_of_exec
    (Serves sameShape) diamond
    (fun s _ => decide (s.graph.map Prod.fst = [16672, 16576, 16480, 16384] ∧
      (s.heap.vars 16576).inputs 0 = 16384 ∧ (s.heap.vars 16672).inputs 1 = 16576))
    (by decide +kernel)
  obtain ⟨hgraph, hleaf, hnode⟩ := of_decide_eq_true hq
  have hlength : s.graph.length = 4 := by rw [← List.length_map (f := Prod.fst), hgraph]; rfl
  have hleft : s.heap.Input 16576 16384 := ⟨by decide, 0, hleaf⟩
  have htwice : s.heap.Input 16672 16576 := ⟨by decide, 1, hnode⟩
  obtain ⟨⟨-, hindices⟩, hordered, -⟩ := graph_ordered_and_kept hrun (by omega)
  refine ⟨s, log, hrun, hgraph, ?_, hleft, htwice, (hordered _ _ ?_ hleft).2,
    (hordered _ _ ?_ htwice).2⟩
  · rw [hindices, hlength]
    rfl
  · simp [hgraph]
  · simp [hgraph]

end ReinC
