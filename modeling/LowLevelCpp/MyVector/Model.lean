import LowLevelCpp.Foundations.Lifetimes
import LowLevelCpp.Foundations.Programs
import Mathlib.Algebra.Group.Nat.Defs

/-!
`my_vector/main.cpp`: `my::vector`. `resize` and the destructor use `new T[]` and `delete[]`,
`reserve`, `emplace_back`, `emplace` and `shrink_to_fit` raw memory and placement `new`.
-/
namespace MyVector
open Foundations

def nullptr : ℕ := 0

/-- The range of `size_t`. -/
def SIZE_RANGE : ℕ := 2 ^ 64

/-- `sizeof(T)`, and which of the operations that may throw do: the `n`-th one throws if it is a
constructor or a copy assignment of `T` and `elementThrows n`, or an allocation and
`allocationThrows n`. Moves and destructors do not throw. -/
structure Environment where
  sizeof : ℕ
  sizeof_pos : 0 < sizeof
  elementThrows : ℕ → Bool
  allocationThrows : ℕ → Bool

/-- `objects b i` is the object in slot `i` of block `b`. Addresses of blocks are not used again,
`next` is the next one; `calls` counts the operations that may throw. -/
structure State (T : Type) where
  data : ℕ
  size : ℕ
  capacity : ℕ
  objects : ℕ → ℕ → Option T
  blocks : ℕ → Option Block
  next : ℕ
  calls : ℕ
  destructed : Bool

/-- What an argument refers to: a value outside the vector, or an object. -/
inductive Argument (T : Type) where
  | value (v : T)
  | object (b i : ℕ)

/-- A call returns a `T*` or `T&`, or is left by an exception. -/
inductive Event where
  | memory (e : Lifetime)
  | returned (b i : ℕ)
  | threw
  deriving DecidableEq

/-- The public members; `pos` is `begin() + index`. -/
inductive Act (T : Type) where
  | pushBack (value : Argument T)
  | emplaceBack (args : Argument T)
  | emplace (index : ℕ) (args : Argument T)
  | reserve (new_capacity : ℕ)
  | subscript (index : ℕ)
  | popBack
  | clear
  | shrinkToFit
  | destruct

abbrev Result (T : Type) := Outcome (State T) Lifetime

variable {T : Type}

def Argument.reads : Argument T → List Lifetime
  | .value _ => []
  | .object b i => [.copied b i]

/-- The elements that fit in the bytes of `::operator new(n * sizeof(T))`. -/
def rawLength (E : Environment) (n : ℕ) : ℕ := n * E.sizeof % SIZE_RANGE / E.sizeof

open Outcome

namespace State

def setObject (s : State T) (b i : ℕ) (object : Option T) : State T :=
  { s with objects := Function.update s.objects b (Function.update (s.objects b) i object) }

def fetch (s : State T) : Argument T → Option T
  | .value v => some v
  | .object b i => s.objects b i

/-- An operation that may throw. -/
def attempt (throws : ℕ → Bool) (s : State T) (f : State T → Result T) : Result T :=
  if throws s.calls then ⟨{ s with calls := s.calls + 1 }, [], true⟩
  else f { s with calls := s.calls + 1 }

/-- What a constructor and a copy assignment share: the argument is read and the slot gets the
value. One that throws does so before it has read its argument, and leaves the slot alone. -/
def store (E : Environment) (e : Lifetime) (b i : ℕ) (arg : Argument T) (s : State T) : Result T :=
  s.attempt E.elementThrows fun s => ⟨s.setObject b i (s.fetch arg), arg.reads ++ [e], false⟩

/-- `new (&b[i]) T(arg)` -/
def construct (E : Environment) (b i : ℕ) (arg : Argument T) (s : State T) : Result T :=
  s.store E (.constructed b i) b i arg

/-- `b[i] = arg` -/
def assign (E : Environment) (b i : ℕ) (arg : Argument T) (s : State T) : Result T :=
  s.store E (.assigned b i) b i arg

/-- `b[i].~T()` -/
def destroy (b i : ℕ) (s : State T) : Result T := ⟨s.setObject b i none, [.destroyed b i], false⟩

/-- `new (&b'[i']) T(std::move(b[i])); b[i].~T();` -/
def relocate (b i b' i' : ℕ) (s : State T) : Result T :=
  ⟨(s.setObject b' i' (s.objects b i)).setObject b i none,
    [.movedFrom b i, .constructed b' i', .destroyed b i], false⟩

def allocate (E : Environment) (block : Block) (s : State T) : Result T :=
  s.attempt E.allocationThrows fun s =>
    ⟨{ s with blocks := Function.update s.blocks s.next (some block), next := s.next + 1 },
      [.allocated s.next block], false⟩

def release (b : ℕ) (form : Form) (s : State T) : Result T :=
  ⟨{ s with blocks := Function.update s.blocks b none }, [.released b form], false⟩

/-- The objects `b[n - 1]`, ..., `b[0]` are destroyed. -/
def destroyArray (b n : ℕ) (s : State T) : Result T :=
  loop (fun k => destroy b (n - 1 - k)) n s

/-- `new T[n]` at the next address. What has been constructed is destroyed if a constructor
throws. -/
def newArray [Inhabited T] (E : Environment) (n : ℕ) (s : State T) : Result T :=
  if SIZE_RANGE ≤ n * E.sizeof then ⟨s, [], true⟩
  else
    (s.allocate E ⟨.array, n⟩).andThen <|
      loop (fun i s' =>
        (s'.construct E s.next i (.value default)).onThrow fun s' =>
          (s'.destroyArray s.next i).andThen (release s.next .array)) n

/-- `delete[] b` finds the number of elements in a block from `new T[]`. -/
def deleteArray (b : ℕ) (s : State T) : Result T :=
  if b = nullptr then done s
  else
    match s.blocks b with
    | some ⟨.array, n⟩ => (s.destroyArray b n).andThen (release b .array)
    | _ => s.release b .array

/-- `::operator new(n * sizeof(T))` at the next address. -/
def operatorNew (E : Environment) (n : ℕ) (s : State T) : Result T :=
  s.allocate E ⟨.raw, rawLength E n⟩

def operatorDelete (b : ℕ) (s : State T) : Result T :=
  if b = nullptr then done s else s.release b .raw

def resize [Inhabited T] (E : Environment) (new_capacity : ℕ) (s : State T) : Result T :=
  let new_data := s.next
  (s.newArray E new_capacity).andThen fun s =>
  (loop (fun i => assign E new_data i (.object s.data i)) s.size s).andThen fun s =>
  (s.deleteArray s.data).andThen fun s =>
  done { s with data := new_data, capacity := new_capacity }

/-- The capacity after growth. -/
def grown (s : State T) : ℕ := if s.capacity = 0 then 1 else s.capacity * 2 % SIZE_RANGE

/-- `_size++` -/
def incrementSize (s : State T) : State T := { s with size := (s.size + 1) % SIZE_RANGE }

def pushBack [Inhabited T] (E : Environment) (value : Argument T) (s : State T) : Result T :=
  (if s.size = s.capacity then s.resize E s.grown else done s).andThen fun s =>
  s.incrementSize.assign E s.data s.size value

/-- What `reserve` and `shrink_to_fit` share: the objects move to raw memory. -/
def relocateAll (E : Environment) (new_capacity : ℕ) (s : State T) : Result T :=
  let new_data := s.next
  (s.operatorNew E new_capacity).andThen fun s =>
  (loop (fun i => relocate s.data i new_data i) s.size s).andThen fun s =>
  (s.operatorDelete s.data).andThen fun s =>
  done { s with data := new_data, capacity := new_capacity }

def reserve (E : Environment) (new_capacity : ℕ) (s : State T) : Result T :=
  if new_capacity ≤ s.capacity then done s else s.relocateAll E new_capacity

def emplaceBack (E : Environment) (args : Argument T) (s : State T) : Result T :=
  (if s.size = s.capacity then s.reserve E s.grown else done s).andThen fun s =>
  (s.construct E s.data s.size args).andThen fun s =>
  done s.incrementSize

/-- The objects from `index` on move up by one slot, the last one first. -/
def shift (index : ℕ) (s : State T) : Result T :=
  loop (fun k => relocate s.data (s.size - k - 1) s.data (s.size - k)) (s.size - index) s

def emplace (E : Environment) (index : ℕ) (args : Argument T) (s : State T) : Result T :=
  (if s.size = s.capacity then s.reserve E s.grown else done s).andThen fun s =>
  (s.shift index).andThen fun s =>
  (s.construct E s.data index args).andThen fun s =>
  done s.incrementSize

def popBack (s : State T) : Result T :=
  if 0 < s.size then { s with size := s.size - 1 }.destroy s.data (s.size - 1) else done s

def clear (s : State T) : Result T :=
  (loop (fun i => destroy s.data i) s.size s).andThen fun s => done { s with size := 0 }

def shrinkToFit (E : Environment) (s : State T) : Result T :=
  if s.capacity = s.size then done s
  else if s.size = 0 then
    (s.operatorDelete s.data).andThen fun s => done { s with data := nullptr, capacity := 0 }
  else s.relocateAll E s.size

def destruct (s : State T) : Result T :=
  (s.deleteArray s.data).andThen fun s => done { s with destructed := true }

/-- The argument is a value, or an element of the vector. -/
def Refers (s : State T) : Argument T → Prop
  | .value _ => True
  | .object b i => b = s.data ∧ i < s.size

instance (s : State T) : (arg : Argument T) → Decidable (s.Refers arg)
  | .value _ => .isTrue trivial
  | .object b i => inferInstanceAs (Decidable (b = s.data ∧ i < s.size))

end State

/-- The call is over; `returned` is what it returns unless it is left by an exception. -/
def report (r : Result T) (returned : List Event) : State T × List Event :=
  (r.state, r.events.map .memory ++ if r.threw then [.threw] else returned)

def step [Inhabited T] (E : Environment) (s : State T) (act : Act T) :
    Option (State T × List Event) :=
  if s.destructed then none
  else
    match act with
    | .pushBack value =>
      if s.Refers value then some (report (s.pushBack E value) []) else none
    | .emplaceBack args =>
      if s.Refers args then
        let r := s.emplaceBack E args
        some (report r [.returned r.state.data s.size])
      else none
    | .emplace index args =>
      if index ≤ s.size ∧ s.Refers args then
        let r := s.emplace E index args
        some (report r [.returned r.state.data index])
      else none
    | .reserve new_capacity => some (report (s.reserve E new_capacity) [])
    | .subscript index =>
      if s.size ≤ index then some (s, [.threw]) else some (s, [.returned s.data index])
    | .popBack => some (report s.popBack [])
    | .clear => some (report s.clear [])
    | .shrinkToFit => some (report (s.shrinkToFit E) [])
    | .destruct => some (report s.destruct [])

def system (T : Type) [Inhabited T] (E : Environment) : System (State T) (Act T) Event where
  init := ⟨nullptr, 0, 0, fun _ _ => none, fun _ => none, 1, 0, false⟩
  step := step E

end MyVector
