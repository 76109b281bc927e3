import Mathlib.Data.List.Nodup
import Mathlib.Data.Nat.Notation
import Mathlib.Logic.Function.Basic

/-! Linked structures as paths: a link function is followed from a pointer through a
list of cells. A singly linked list is a path to the null pointer; a doubly linked one
is such a path forwards and one backwards. -/
namespace Foundations

variable {ι : Type*} {link link' : ι → Option ι} {p q r : Option ι} {x : ι} {xs ys : List ι}

/-- Following `link` from `p` visits exactly the cells `xs` and then stands at `q`. -/
def Path (link : ι → Option ι) : Option ι → List ι → Option ι → Prop
  | p, [], q => p = q
  | p, x :: xs, q => p = some x ∧ Path link (link x) xs q

@[simp] theorem path_nil : Path link p [] q ↔ p = q := Iff.rfl

@[simp] theorem path_cons :
    Path link p (x :: xs) q ↔ p = some x ∧ Path link (link x) xs q := Iff.rfl

theorem path_append :
    Path link p (xs ++ ys) q ↔ ∃ r, Path link p xs r ∧ Path link r ys q := by
  induction xs generalizing p with
  | nil => simp
  | cons x xs ih =>
    simp only [List.cons_append, path_cons, ih]
    constructor
    · rintro ⟨hp, r, hx, hy⟩
      exact ⟨r, ⟨hp, hx⟩, hy⟩
    · rintro ⟨r, ⟨hp, hx⟩, hy⟩
      exact ⟨hp, r, hx, hy⟩

theorem path_concat : Path link p (xs ++ [x]) q ↔ Path link p xs (some x) ∧ link x = q := by
  rw [path_append]
  constructor
  · rintro ⟨r, hx, rfl, hq⟩
    exact ⟨hx, hq⟩
  · rintro ⟨hx, hq⟩
    exact ⟨some x, hx, rfl, hq⟩

/-- Only the links of the cells on the path matter. -/
theorem Path.congr (h : Path link p xs q) (hl : ∀ x ∈ xs, link' x = link x) :
    Path link' p xs q := by
  induction xs generalizing p with
  | nil => exact h
  | cons x xs ih =>
    obtain ⟨hp, ht⟩ := h
    refine ⟨hp, ?_⟩
    rw [hl x (by simp)]
    exact ih ht fun y hy => hl y (by simp [hy])

theorem Path.head_eq (h : Path link p xs none) : p = xs.head? := by
  cases xs with
  | nil => exact h
  | cons x xs => exact h.1

/-- The link of a cell on a path that ends leads to the cell behind it. -/
theorem Path.link_eq (h : Path link p (xs ++ x :: ys) none) : link x = ys.head? := by
  obtain ⟨r, -, -, hrest⟩ := path_append.mp h
  exact hrest.head_eq

/-- The same path among the images of the cells. -/
theorem Path.map {κ : Type*} (f : ι → κ) (link₂ : κ → Option κ) (h : Path link p xs q)
    (hl : ∀ x ∈ xs, link₂ (f x) = (link x).map f) : Path link₂ (p.map f) (xs.map f) (q.map f) := by
  induction xs generalizing p with
  | nil => exact congrArg (Option.map f) h
  | cons x xs ih =>
    obtain ⟨rfl, ht⟩ := h
    refine ⟨rfl, ?_⟩
    rw [hl x (by simp)]
    exact ih ht fun y hy => hl y (by simp [hy])

/-- A pointer has at most one path to the null pointer. -/
theorem Path.unique (hx : Path link p xs none) (hy : Path link p ys none) : xs = ys := by
  induction xs generalizing p ys with
  | nil =>
    cases ys with
    | nil => rfl
    | cons y ys => simp [path_nil.mp hx] at hy
  | cons x xs ih =>
    obtain ⟨rfl, ht⟩ := hx
    cases ys with
    | nil => simp at hy
    | cons y ys =>
      obtain ⟨hxy, hs⟩ := hy
      obtain rfl := Option.some.inj hxy
      rw [ih ht hs]

/-- A path that ends visits no cell twice, since a repeated cell would repeat for ever. -/
theorem Path.nodup (h : Path link p xs none) : xs.Nodup := by
  induction xs generalizing p with
  | nil => exact List.nodup_nil
  | cons x xs ih =>
    refine List.nodup_cons.mpr ⟨fun hx => ?_, ih h.2⟩
    obtain ⟨as, bs, rfl⟩ := List.append_of_mem hx
    obtain ⟨r, _, hr⟩ := path_append.mp h.2
    have hshort : Path link p (x :: bs) none := ⟨h.1, hr.2⟩
    have hlen := congrArg List.length (h.unique hshort)
    simp only [List.length_cons, List.length_append] at hlen
    omega

/-- The cells visited from a pointer, `n` of them at most. -/
def follow (link : ι → Option ι) : ℕ → Option ι → List ι
  | 0, _ => []
  | _, none => []
  | n + 1, some x => x :: follow link n (link x)

theorem Path.follow_eq {n : ℕ} (h : Path link p xs none) (hn : xs.length ≤ n) :
    follow link n p = xs := by
  induction xs generalizing p n with
  | nil =>
    obtain rfl := path_nil.mp h
    cases n <;> rfl
  | cons x xs ih =>
    obtain ⟨rfl, ht⟩ := h
    obtain ⟨n, rfl⟩ : ∃ k, n = k + 1 := ⟨n - 1, by simp at hn; omega⟩
    rw [follow, ih ht (by simpa using hn)]

section Update
variable [DecidableEq ι]

theorem Path.update_notMem (h : Path link p xs q) (hx : x ∉ xs) (v : Option ι) :
    Path (Function.update link x v) p xs q :=
  h.congr fun y hy => Function.update_of_ne (fun he => hx (by rwa [← he])) _ _

/-- Rewriting the link of the last cell moves the end of the path. -/
theorem Path.redirect (h : Path link p (xs ++ [x]) q) (hx : x ∉ xs) (r : Option ι) :
    Path (Function.update link x r) p (xs ++ [x]) r :=
  path_concat.mpr ⟨(path_concat.mp h).1.update_notMem hx r, by simp⟩

/-- Appending a cell behind the last one. -/
theorem Path.snoc {y : ι} (h : Path link p (xs ++ [y]) none) (hx : x ∉ xs ++ [y]) :
    Path (Function.update (Function.update link x none) y (some x)) p (xs ++ [y] ++ [x]) none := by
  have hyx : x ≠ y := fun he => hx (by simp [he])
  have hy : y ∉ xs := fun hm => (List.nodup_append.mp h.nodup).2.2 y hm y (by simp) rfl
  refine path_concat.mpr ⟨(h.update_notMem hx none).redirect hy (some x), ?_⟩
  rw [Function.update_of_ne hyx, Function.update_self]

/-- Taking out a cell by giving its link to the cell before it. -/
theorem Path.unlink {y : ι} (h : Path link p (xs ++ [y] ++ x :: ys) none) :
    Path (Function.update link y (link x)) p (xs ++ [y] ++ ys) none := by
  obtain ⟨hleft, -, hdisjoint⟩ := List.nodup_append.mp h.nodup
  have hxs : y ∉ xs := fun hm => (List.nodup_append.mp hleft).2.2 y hm y (by simp) rfl
  have hys : y ∉ ys := fun hm => hdisjoint y (by simp) y (by simp [hm]) rfl
  obtain ⟨r, hpath, hr, hrest⟩ := path_append.mp h
  exact path_append.mpr ⟨link x, hpath.redirect hxs _, hrest.update_notMem hys _⟩

end Update
end Foundations
