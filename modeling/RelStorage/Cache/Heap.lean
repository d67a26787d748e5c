import Mathlib

namespace RelStorage

/-- The C memory behind the cache rings: for each address, the fields of the
`CPersistentRing` node stored there, one map per field. A ring home keeps its entry
count in `len`, its byte size in `frequency` and its cap in `maxLen`; an entry node
keeps its weight in `len` and its hit count in `frequency`. Address 0 is NULL. -/
structure Heap where
  rPrev : Nat → Nat
  rNext : Nat → Nat
  userData : Nat → Nat
  rParent : Nat → Nat
  frequency : Nat → Nat
  len : Nat → Nat
  maxLen : Nat → Nat

namespace Heap

/-- Walking along `rPrev` from `a` passes through `xs` and then reaches `b`, and every
`rNext` on the way points back. A ring with sentinel `home` holding `xs`, least recently
used first, is `heap.Path home xs home`. -/
def Path (heap : Heap) : Nat → List Nat → Nat → Prop
  | a, [], b => heap.rPrev a = b ∧ heap.rNext b = a
  | a, x :: xs, b => heap.rPrev a = x ∧ heap.rNext x = a ∧ heap.Path x xs b

variable {heap heap' : Heap} {a b c x : Nat} {xs ys : List Nat}

@[simp] theorem path_nil : heap.Path a [] b ↔ heap.rPrev a = b ∧ heap.rNext b = a := Iff.rfl

@[simp] theorem path_cons :
    heap.Path a (x :: xs) b ↔ heap.rPrev a = x ∧ heap.rNext x = a ∧ heap.Path x xs b := Iff.rfl

theorem path_append : heap.Path a (xs ++ b :: ys) c ↔ heap.Path a xs b ∧ heap.Path b ys c := by
  induction xs generalizing a with
  | nil => simp only [List.nil_append, path_cons, path_nil, and_assoc]
  | cons y xs ih => simp only [List.cons_append, path_cons, ih, and_assoc]

/-- The `rNext` link of the end of a path leads to the last point before it. -/
theorem Path.next_end_mem (path : heap.Path a xs b) : heap.rNext b ∈ a :: xs := by
  induction xs generalizing a with
  | nil => simp [path.2]
  | cons y xs ih => exact List.mem_cons_of_mem _ (ih path.2.2)

theorem Path.prev_mem (path : heap.Path a xs b) : ∀ p ∈ a :: xs, heap.rPrev p ∈ xs ++ [b] := by
  induction xs generalizing a with
  | nil => simp [path.1]
  | cons y xs ih =>
    intro p member
    rcases List.mem_cons.mp member with rfl | inner
    · simp [path.1]
    · exact List.mem_cons_of_mem _ (ih path.2.2 p inner)

theorem Path.next_mem (path : heap.Path a xs b) : ∀ p ∈ xs ++ [b], heap.rNext p ∈ a :: xs := by
  induction xs generalizing a with
  | nil => simp [path.2]
  | cons y xs ih =>
    intro p member
    rcases List.mem_cons.mp member with rfl | inner
    · simp [path.2.1]
    · exact List.mem_cons_of_mem _ (ih path.2.2 p inner)

/-- A path survives every write that leaves its own links alone. -/
theorem Path.frame (path : heap.Path a xs b)
    (prevSame : ∀ p ∈ a :: xs, heap'.rPrev p = heap.rPrev p)
    (nextSame : ∀ p ∈ xs ++ [b], heap'.rNext p = heap.rNext p) : heap'.Path a xs b := by
  induction xs generalizing a with
  | nil => simpa [prevSame a, nextSame b] using path
  | cons y xs ih =>
    refine ⟨(prevSame a (by simp)).trans path.1, (nextSame y (by simp)).trans path.2.1,
      ih path.2.2 (fun p member => prevSame p (List.mem_cons_of_mem _ member))
        (fun p member => nextSame p (List.mem_cons_of_mem _ member))⟩

/-- Rewriting the last link of a path, from the point before `b` to a new end `c`. -/
theorem Path.redirect (path : heap.Path a xs b) (nodup : (a :: xs).Nodup)
    (prevSame : ∀ p ∈ a :: xs, p ≠ heap.rNext b → heap'.rPrev p = heap.rPrev p)
    (nextSame : ∀ p ∈ xs, heap'.rNext p = heap.rNext p)
    (prevEnd : heap'.rPrev (heap.rNext b) = c) (nextEnd : heap'.rNext c = heap.rNext b) :
    heap'.Path a xs c := by
  induction xs generalizing a with
  | nil =>
    rw [path.2] at prevEnd nextEnd
    exact ⟨prevEnd, nextEnd⟩
  | cons y xs ih =>
    have last := path.2.2.next_end_mem
    have away : a ≠ heap.rNext b := fun same => (List.nodup_cons.mp nodup).1 (same ▸ last)
    refine ⟨(prevSame a (by simp) away).trans path.1, (nextSame y (by simp)).trans path.2.1,
      ih path.2.2 (List.nodup_cons.mp nodup).2 (fun p member => prevSame p (by simp [member]))
        (fun p member => nextSame p (List.mem_cons_of_mem _ member))⟩

theorem Path.setFrequency (path : heap.Path a xs b) (f : Nat → Nat) :
    { heap with frequency := f }.Path a xs b :=
  path.frame (fun _ _ => rfl) fun _ _ => rfl

theorem Path.setLen (path : heap.Path a xs b) (f : Nat → Nat) : { heap with len := f }.Path a xs b :=
  path.frame (fun _ _ => rfl) fun _ _ => rfl

theorem Path.setRParent (path : heap.Path a xs b) (f : Nat → Nat) :
    { heap with rParent := f }.Path a xs b :=
  path.frame (fun _ _ => rfl) fun _ _ => rfl

/-- Modelled from the spec: iterating a ring (`iter(self._ring)`, whose code is not under
`src/`) from `p`, following `rPrev` until the sentinel `home` and visiting at most `fuel`
points. -/
def walk (heap : Heap) (home : Nat) : Nat → Nat → Option (List Nat)
  | 0, _ => none
  | fuel + 1, p => if p = home then some [] else (heap.walk home fuel (heap.rPrev p)).map (p :: ·)

/-- Walking a path that ends at the sentinel lists exactly its points, given fuel for them. -/
theorem Path.walk (path : heap.Path a xs b) (outside : b ∉ xs) {fuel : Nat}
    (enough : xs.length < fuel) : heap.walk b fuel (heap.rPrev a) = some xs := by
  induction xs generalizing a fuel with
  | nil =>
    cases fuel with
    | zero => exact absurd enough (Nat.lt_irrefl 0)
    | succ fuel => simp [Heap.walk, path.1]
  | cons y xs ih =>
    cases fuel with
    | zero => exact absurd enough (Nat.not_lt_zero _)
    | succ fuel =>
      have away : y ≠ b := fun same => outside (same ▸ List.mem_cons_self y xs)
      have rest := ih path.2.2 (fun member => outside (List.mem_cons_of_mem _ member))
        (Nat.lt_of_succ_lt_succ enough)
      simp [Heap.walk, path.1, away, rest]

end Heap

end RelStorage
