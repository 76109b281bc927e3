import LowLevelCpp.MyFunction.Exchange

/-! Which constructor of `my::function` is called with another `my::function` as the argument, and
what it does. -/
namespace MyFunction

/-- The types that occur when the argument is a `function`; `decay t` is the class `std::decay<t>`,
and not its member `type`. -/
inductive CppType where
  | function
  | nullptr_t
  | const (t : CppType)
  | lref (t : CppType)
  | rref (t : CppType)
  | decay (t : CppType)
  deriving DecidableEq

inductive Category where
  | lvalue
  | rvalue
  deriving DecidableEq

/-- An expression of a type that is not a reference. -/
structure Expr where
  type : CppType
  category : Category
  deriving DecidableEq

/-- `F` as it is deduced for a parameter `F &&`. -/
def deduce (e : Expr) : CppType :=
  match e.category with
  | .lvalue => .lref e.type
  | .rvalue => e.type

/-- `F &&`, where references collapse. -/
def forwardingRef : CppType → CppType
  | .lref t => .lref t
  | .rref t => .rref t
  | t => .rref t

/-- `std::forward<F>(f)` -/
def forward : CppType → Expr
  | .lref t => ⟨t, .lvalue⟩
  | .rref t => ⟨t, .rvalue⟩
  | t => ⟨t, .rvalue⟩

/-- `std::is_same_v` -/
def isSame (t t' : CppType) : Bool := t = t'

/-- The condition of `enable_if_t`. -/
def enabled (F : CppType) : Bool := !isSame (.decay F) .function

/-- The constructors with one parameter. -/
inductive Constructor where
  | nullptr
  | copy
  | move
  | converting (F : CppType)
  deriving DecidableEq

namespace Constructor

def parameter : Constructor → CppType
  | .nullptr => .nullptr_t
  | .copy => .lref (.const .function)
  | .move => .rref .function
  | .converting F => forwardingRef F

def isTemplate : Constructor → Bool
  | .converting _ => true
  | _ => false

end Constructor

/-- The expression initialises a parameter of the type. -/
def binds (e : Expr) : CppType → Bool
  | .lref (.const t) => e.type = t || e.type = .const t
  | .lref t => e.type = t && e.category = .lvalue
  | .rref t => (e.type = t || .const e.type = t) && e.category = .rvalue
  | _ => false

/-- The first parameter is initialised by the better conversion: an rvalue is bound to an rvalue
reference, or the type that is referred to is not `const`. -/
def convertsBetter (e : Expr) : CppType → CppType → Bool
  | .rref _, .lref _ => e.category = .rvalue
  | .lref t, .lref (.const t') => t = t'
  | .rref t, .rref (.const t') => t = t'
  | _, _ => false

/-- A better conversion decides, and then that a constructor is no template. -/
def better (e : Expr) (c d : Constructor) : Bool :=
  convertsBetter e c.parameter d.parameter ||
    !convertsBetter e d.parameter c.parameter && !c.isTemplate && d.isTemplate

def candidates (e : Expr) : List Constructor :=
  [.nullptr, .copy, .move] ++ if enabled (deduce e) then [.converting (deduce e)] else []

/-- Overload resolution: the constructor that is better than each other one that is viable. -/
def select (e : Expr) : Option Constructor :=
  let viable := (candidates e).filter fun c => binds e c.parameter
  viable.find? fun c => viable.all fun d => d = c || better e c d

/-- The argument, `const` or not. -/
def argument (isConst : Bool) (category : Category) : Expr :=
  ⟨if isConst then .const .function else .function, category⟩

/-- No class `std::decay<F>` is the type `function`. -/
theorem enabled_eq_true (F : CppType) : enabled F = true := rfl

/-- The template is a candidate whatever the argument is. -/
theorem candidates_eq (e : Expr) :
    candidates e = [.nullptr, .copy, .move, .converting (deduce e)] := by
  unfold candidates
  rw [enabled_eq_true, if_pos rfl]
  rfl

/-- `const` and value category decide: the template is the better match for a `const` rvalue, and
for an lvalue that is not `const`. -/
theorem select_argument (isConst : Bool) (category : Category) :
    select (argument isConst category) =
      match isConst, category with
      | true, .lvalue => some .copy
      | false, .rvalue => some .move
      | false, .lvalue => some (.converting (.lref .function))
      | true, .rvalue => some (.converting (.const .function)) := by
  unfold select
  rw [candidates_eq]
  cases isConst <;> cases category <;> decide

/-- What is passed on is what has been received. -/
theorem forward_deduce (isConst : Bool) (category : Category) :
    forward (deduce (argument isConst category)) = argument isConst category := by
  cases isConst <;> cases category <;> rfl

section Construction
variable {V W A R : Type}

/-- A construction that is left by an exception, or the new wrapper and what is left of the
source. -/
inductive Construction (V : Type) where
  | threw
  | built (new left : Wrapper V)

/-- `CallableModel<function>`, which is larger than the buffer. -/
def functionModel : Layout := ⟨64, 16⟩

/-- The construction from `f`, given as `e`, with at most `fuel` constructors inside each other: the
template constructs a model, whose `functor_` it constructs from what it has received. The value of
a functor that is a wrapper is `functor`. -/
def constructFrom (throws : V → Bool) (functor : V) :
    ℕ → Expr → Wrapper V → Option (Construction V)
  | 0, _, _ => none
  | fuel + 1, e, f =>
    match select e with
    | some .copy =>
      match f.clone throws with
      | none => some .threw
      | some copy => some (.built copy f)
    | some .move => some (.built f .empty)
    | some (.converting F) =>
      match constructFrom throws functor fuel (forward (deduce (forward F))) f with
      | none => none
      | some .threw => some .threw
      | some (.built functor_ left) =>
        some (.built (.holds (fitsInSbo functionModel) functor [functor_]) left)
    | some .nullptr | none => none

/-- The results of calls, each of which may change the callable; `none` is `bad_function_call`. -/
def calls (invoke : W → V × List (Wrapper V) → A → W × (V × List (Wrapper V)) × R) :
    W → Option (V × List (Wrapper V)) → List A → List (Option R)
  | _, _, [] => []
  | world, none, _ :: args => none :: calls invoke world none args
  | world, some callable, arg :: args =>
    let (world, callable, result) := invoke world callable arg
    some result :: calls invoke world (some callable) args

/-- The new wrapper is empty if the source was, and its calls have the results of calls of the
source; without a new wrapper, a copy has thrown. -/
def Construction.Faithful (throws : V → Bool)
    (invoke : W → V × List (Wrapper V) → A → W × (V × List (Wrapper V)) × R) (f : Wrapper V) :
    Construction V → Prop
  | .threw => f.clone throws = none
  | .built new _ => (new = .empty ↔ f = .empty) ∧
    ∀ world args, calls invoke world new.callable args = calls invoke world f.callable args

variable {throws : V → Bool} {functor : V} {f new left : Wrapper V} {isConst : Bool}
  {category : Category} {fuel : ℕ}

/-- The template calls itself. -/
theorem constructFrom_converting {F : CppType}
    (h : select (argument isConst category) = some (.converting F))
    (hF : F = deduce (argument isConst category)) (fuel : ℕ) :
    constructFrom throws functor fuel (argument isConst category) f = none := by
  induction fuel with
  | zero => rfl
  | succ fuel ih =>
    unfold constructFrom
    simp only [h, hF, forward_deduce, ih]

theorem constructFrom_copy (fuel : ℕ) :
    constructFrom throws functor (fuel + 1) (argument true .lvalue) f =
      some (match f.clone throws with
        | none => .threw
        | some copy => .built copy f) := by
  unfold constructFrom
  rw [select_argument]
  cases f.clone throws <;> rfl

theorem constructFrom_move (fuel : ℕ) :
    constructFrom throws functor (fuel + 1) (argument false .rvalue) f =
      some (.built f .empty) := by
  unfold constructFrom
  rw [select_argument]

/-- A construction that ends is one from a `const` lvalue or from an rvalue that is not `const`. -/
theorem constructFrom_cases {r : Construction V}
    (h : constructFrom throws functor fuel (argument isConst category) f = some r) :
    isConst = true ∧ category = .lvalue ∧
        r = (match f.clone throws with
          | none => .threw
          | some copy => .built copy f) ∨
      isConst = false ∧ category = .rvalue ∧ r = .built f .empty := by
  cases fuel with
  | zero => cases h
  | succ fuel =>
    have hselect := select_argument isConst category
    cases isConst with
    | true =>
      cases category with
      | lvalue =>
        rw [constructFrom_copy] at h
        exact .inl ⟨rfl, rfl, (Option.some.inj h).symm⟩
      | rvalue =>
        rw [constructFrom_converting hselect rfl] at h
        cases h
    | false =>
      cases category with
      | lvalue =>
        rw [constructFrom_converting hselect rfl] at h
        cases h
      | rvalue =>
        rw [constructFrom_move] at h
        exact .inr ⟨rfl, rfl, (Option.some.inj h).symm⟩

theorem constructFrom_copied (fuel : ℕ) (hclone : (f.clone throws).isSome = true) :
    constructFrom throws functor (fuel + 1) (argument true .lvalue) f = some (.built f f) := by
  obtain ⟨copy, hcopy⟩ := Option.isSome_iff_exists.mp hclone
  rw [constructFrom_copy, hcopy]
  exact congrArg (fun w => some (Construction.built w f)) (Wrapper.eq_of_clone f hcopy)

/-- A new wrapper of the client is the one that the reference constructs. -/
theorem constructFrom_reference {ι : Type} [DecidableEq ι] {s : Forest ι V} {o other : ι}
    (F : Callables (V × List (Wrapper V)) W A R) (hcopy : ∀ callable, F.copy callable = callable)
    (hne : o ≠ other) (fresh : ℕ) (world : W)
    (h : constructFrom throws functor fuel (argument isConst category) (s.roots other) =
      some (.built new left)) :
    Reference.step F ((s.reference world).drop o)
        (if isConst then .copyConstruct o other fresh else .moveConstruct o other) =
      some (((s.put ⟨other, []⟩ left).put ⟨o, []⟩ new).reference world, []) := by
  have hdrop (t : Reference ι (V × List (Wrapper V)) W) (c) : (t.drop o).set o c = t.set o c := by
    simp [Reference.drop, Reference.set]
  have ho : ((s.reference world).drop o).objects o = none := Function.update_self ..
  have hother : ((s.reference world).drop o).objects other = some (s.roots other).callable :=
    Function.update_of_ne hne.symm _ _
  rcases constructFrom_cases h with ⟨rfl, -, hbuilt⟩ | ⟨rfl, -, hbuilt⟩
  · cases hclone : (s.roots other).clone throws with
    | none =>
      rw [hclone] at hbuilt
      cases hbuilt
    | some copy =>
      rw [hclone] at hbuilt
      obtain ⟨rfl, rfl⟩ := Construction.built.inj hbuilt
      obtain rfl := Wrapper.eq_of_clone _ hclone
      have hsame : s.put ⟨other, []⟩ (s.roots other) = s := Forest.put_get Wrapper.get_nil
      have hid : (s.roots other).callable.map F.copy = (s.roots other).callable := by
        rw [funext hcopy]
        exact Option.map_id'
      rw [hsame, reference_put]
      simp only [if_true, Reference.step, ho, hother, hid, hdrop]
  · obtain ⟨rfl, rfl⟩ := Construction.built.inj hbuilt
    rw [reference_put, reference_put]
    simp only [Bool.false_eq_true, if_false, Reference.step, ho, hother, hdrop]
    simp only [Reference.set, Wrapper.callable, Function.update_comm hne]

end Construction

/-- Constructing a `function` from another one ends, with a wrapper that does what the source did or
with the exception of a copy, exactly if the source is a `const` lvalue or an rvalue that is not
`const`; otherwise overload resolution selects the template, which calls itself. -/
theorem construct_iff {V W A R : Type} (throws : V → Bool) (functor : V)
    (invoke : W → V × List (Wrapper V) → A → W × (V × List (Wrapper V)) × R) (isConst : Bool)
    (category : Category) (f : Wrapper V) :
    (select (argument isConst category) = some .copy ∨
        select (argument isConst category) = some .move ↔
      (isConst = true ↔ category = .lvalue)) ∧
    ((∃ fuel r, constructFrom throws functor fuel (argument isConst category) f = some r ∧
        r.Faithful throws invoke f) ↔
      (isConst = true ↔ category = .lvalue)) := by
  refine ⟨?_, ?_, ?_⟩
  · rw [select_argument]
    cases isConst <;> cases category <;> simp
  · rintro ⟨fuel, r, hr, -⟩
    rcases constructFrom_cases hr with ⟨rfl, rfl, -⟩ | ⟨rfl, rfl, -⟩ <;> decide
  · intro h
    cases isConst with
    | true =>
      obtain rfl := h.mp rfl
      cases hclone : f.clone throws with
      | none =>
        refine ⟨1, .threw, ?_, hclone⟩
        rw [constructFrom_copy, hclone]
      | some copy =>
        have hsome : (f.clone throws).isSome = true := by rw [hclone, Option.isSome_some]
        exact ⟨1, .built f f, constructFrom_copied 0 hsome, Iff.rfl, fun _ _ => rfl⟩
    | false =>
      cases category with
      | lvalue => exact absurd (h.mpr rfl) Bool.false_ne_true
      | rvalue => exact ⟨1, .built f .empty, constructFrom_move 0, Iff.rfl, fun _ _ => rfl⟩

/-- No copy of an empty wrapper is made from an lvalue that is not `const`. -/
theorem construct_diverges : ¬ ∀ (isConst : Bool) (category : Category) (f : Wrapper ℕ),
    ∃ fuel r, constructFrom (fun _ => false) 0 fuel (argument isConst category) f = some r ∧
      r.Faithful (fun _ => false) (fun (_ : Unit) callable (arg : ℕ) => ((), callable, arg)) f := by
  intro hall
  obtain ⟨fuel, r, hr, -⟩ := hall false .lvalue .empty
  rw [constructFrom_converting (select_argument false .lvalue) rfl] at hr
  cases hr

end MyFunction
