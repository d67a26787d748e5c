import RelStorage.Cache.Ring

namespace RelStorage

open Function (update)

/-- The fields `ffi.new('CPersistentRing*', init)` is given; the others start at zero. -/
structure NodeInit where
  rPrev : Nat := 0
  rNext : Nat := 0
  userData : Nat := 0
  rParent : Nat := 0
  frequency : Nat := 0
  len : Nat := 0
  maxLen : Nat := 0

/-- A freshly allocated node at address `p`. -/
def Heap.alloc (heap : Heap) (p : Nat) (init : NodeInit) : Heap where
  rPrev := update heap.rPrev p init.rPrev
  rNext := update heap.rNext p init.rNext
  userData := update heap.userData p init.userData
  rParent := update heap.rParent p init.rParent
  frequency := update heap.frequency p init.frequency
  len := update heap.len p init.len
  maxLen := update heap.maxLen p init.maxLen

theorem Heap.alloc_sameAt {heap : Heap} {p q : Nat} {init : NodeInit} (away : p ≠ q) :
    heap.SameAt (heap.alloc q init) p := by
  simp [Heap.SameAt, Heap.alloc, away]

/-- Whether cffi stores a Python int into a `uint_fast64_t` field instead of raising
`OverflowError`. -/
def fitsUintFast64 (v : Int) : Bool := 0 ≤ v && v.toNat < 2 ^ 64

/-- A `SizedLRU` object: `limit`, the home node of `_ring`, and `over_size`. Its
`cffi_handle` is the address the object is kept at. -/
structure SizedLRU where
  limit : Int
  ringHome : Nat
  overSize : Bool

/-- A `SizedLRURingEntry`: `key`, `value` and `cffi_ring_node`. Its `cffi_ring_handle`
is the address the object is kept at. -/
structure SizedLRURingEntry where
  key : List UInt8
  value : List UInt8
  cffiRingNode : Nat

/-- The process: the C heap, the Python objects by handle, and the next free address. -/
structure World where
  heap : Heap
  sizedLRUs : Nat → Option SizedLRU
  entries : Nat → Option SizedLRURingEntry
  fresh : Nat

namespace World

/-- The process before any cache object exists; address 0 stays NULL. -/
def empty : World where
  heap := ⟨fun _ => 0, fun _ => 0, fun _ => 0, fun _ => 0, fun _ => 0, fun _ => 0, fun _ => 0⟩
  sizedLRUs := fun _ => none
  entries := fun _ => none
  fresh := 1

/-- `SizedLRU(limit)`: a handle, then a `Ring()` whose zeroed home node points at itself,
given `max_len = limit` and `r_parent` the handle. Out of the 64-bit range cffi raises. -/
def sizedLRU (w : World) (limit : Int) : Option (World × Nat) :=
  if fitsUintFast64 limit then
    some ({ w with
      heap := w.heap.alloc (w.fresh + 1)
        { rPrev := w.fresh + 1, rNext := w.fresh + 1, rParent := w.fresh, maxLen := limit.toNat }
      sizedLRUs := update w.sizedLRUs w.fresh (some ⟨limit, w.fresh + 1, false⟩)
      fresh := w.fresh + 2 }, w.fresh)
  else none

/-- `add_MRU(key, value)`: a new entry whose node holds `len(key) + len(value)`, frequency
1 and this object as parent, added to the ring, which reports `over_size`. Python
lengths are below 2^63, so cffi always accepts their sum. -/
def addMRU (w : World) (lru : Nat) (key value : List UInt8) : Option (World × Nat) := do
  let self ← w.sizedLRUs lru
  let added := (w.heap.alloc (w.fresh + 1)
    { userData := w.fresh, rParent := lru, frequency := 1, len := key.length + value.length }
    ).ringAdd self.ringHome (w.fresh + 1)
  pure ({ heap := added.1
          sizedLRUs := update w.sizedLRUs lru (some { self with overSize := added.2 })
          entries := update w.entries w.fresh (some ⟨key, value, w.fresh + 1⟩)
          fresh := w.fresh + 2 }, w.fresh)

/-- `take_ownership_of_entry_MRU(entry)`: move the node from the ring of `entry.__parent__`
to the front of this one; this object's `over_size` is the C flag, the old parent's is
recomputed from its size and limit. -/
def takeOwnershipOfEntryMRU (w : World) (lru entry : Nat) : Option World := do
  let self ← w.sizedLRUs lru
  let e ← w.entries entry
  let oldParent := w.heap.rParent e.cffiRingNode
  let parent ← w.sizedLRUs oldParent
  let moved := w.heap.ringMoveToHeadFromForeign parent.ringHome self.ringHome e.cffiRingNode
  let lrus := update w.sizedLRUs lru (some { self with overSize := moved.2 })
  pure { w with
    heap := moved.1
    sizedLRUs := update lrus oldParent
      (some { parent with overSize := parent.limit < moved.1.frequency parent.ringHome }) }

/-- `update_MRU(entry, value)`: `set_value` rewrites the value and the node's `len`, then
the ring takes the old and new sizes and reports `over_size`. -/
def updateMRU (w : World) (lru entry : Nat) (value : List UInt8) : Option World := do
  let self ← w.sizedLRUs lru
  let e ← w.entries entry
  let oldSize := w.heap.len e.cffiRingNode
  let heap := { w.heap with len := update w.heap.len e.cffiRingNode (e.key.length + value.length) }
  let updated := heap.lruUpdateMru self.ringHome e.cffiRingNode oldSize (heap.len e.cffiRingNode)
  pure { w with
    heap := updated.1
    sizedLRUs := update w.sizedLRUs lru (some { self with overSize := updated.2 })
    entries := update w.entries entry (some { e with value := value }) }

/-- `delete(entry)`: remove the node from this ring, then `over_size = size > limit`. -/
def delete (w : World) (lru entry : Nat) : Option World := do
  let self ← w.sizedLRUs lru
  let e ← w.entries entry
  let heap := w.heap.ringDelete self.ringHome e.cffiRingNode
  pure { w with
    heap := heap
    sizedLRUs := update w.sizedLRUs lru
      (some { self with overSize := self.limit < heap.frequency self.ringHome }) }

/-- `on_hit(entry)`: `entry.frequency += 1`, which cffi refuses past the 64-bit field, then
`make_MRU(entry)`. -/
def onHit (w : World) (lru entry : Nat) : Option World := do
  let self ← w.sizedLRUs lru
  let e ← w.entries entry
  let frequency := w.heap.frequency e.cffiRingNode + 1
  if fitsUintFast64 frequency then
    pure { w with
      heap := { w.heap with frequency := update w.heap.frequency e.cffiRingNode frequency
              }.ringMoveToHead self.ringHome e.cffiRingNode }
  else none

variable {w w' : World} {lru entry : Nat}

theorem sizedLRU_entries {limit : Int} (created : w.sizedLRU limit = some (w', lru)) :
    w'.entries = w.entries := by
  unfold sizedLRU at created
  split at created
  · simp only [Option.some.injEq, Prod.mk.injEq] at created
    rw [← created.1]
  · cases created

theorem addMRU_entries {key value : List UInt8} (created : w.addMRU lru key value = some (w', entry)) :
    w'.entries = update w.entries w.fresh (some ⟨key, value, w.fresh + 1⟩) ∧ entry = w.fresh := by
  simp only [addMRU, Option.bind_eq_bind, Option.bind_eq_some, Option.pure_def, Option.some.injEq,
    Prod.mk.injEq] at created
  obtain ⟨_, _, rfl, rfl⟩ := created
  exact ⟨rfl, rfl⟩

theorem takeOwnershipOfEntryMRU_entries (taken : w.takeOwnershipOfEntryMRU lru entry = some w') :
    w'.entries = w.entries := by
  simp only [takeOwnershipOfEntryMRU, Option.bind_eq_bind, Option.bind_eq_some, Option.pure_def,
    Option.some.injEq] at taken
  obtain ⟨_, _, _, _, _, _, rfl⟩ := taken
  rfl

theorem updateMRU_entries {value : List UInt8} (updated : w.updateMRU lru entry value = some w') :
    ∃ e, w.entries entry = some e ∧ w'.entries = update w.entries entry (some { e with value }) := by
  simp only [updateMRU, Option.bind_eq_bind, Option.bind_eq_some, Option.pure_def,
    Option.some.injEq] at updated
  obtain ⟨_, _, e, found, rfl⟩ := updated
  exact ⟨e, found, rfl⟩

theorem delete_entries (deleted : w.delete lru entry = some w') : w'.entries = w.entries := by
  simp only [delete, Option.bind_eq_bind, Option.bind_eq_some, Option.pure_def,
    Option.some.injEq] at deleted
  obtain ⟨_, _, _, _, rfl⟩ := deleted
  rfl

theorem onHit_entries (hit : w.onHit lru entry = some w') : w'.entries = w.entries := by
  simp only [onHit, Option.bind_eq_bind, Option.bind_eq_some] at hit
  obtain ⟨_, _, _, _, hit⟩ := hit
  split at hit
  · cases hit
    rfl
  · cases hit

/-- `len(lru)`: the count kept in the ring home. -/
def len (w : World) (lru : Nat) : Option Nat :=
  (w.sizedLRUs lru).map fun self => w.heap.len self.ringHome

/-- `lru.size`: the byte size kept in the `frequency` field of the ring home. -/
def size (w : World) (lru : Nat) : Option Nat :=
  (w.sizedLRUs lru).map fun self => w.heap.frequency self.ringHome

/-- `stats()`: `limit`, `size`, and `len(self._ring)`, the count kept in the ring home. -/
def stats (w : World) (lru : Nat) : Option (Int × Nat × Nat) :=
  (w.sizedLRUs lru).map fun self =>
    (self.limit, w.heap.frequency self.ringHome, w.heap.len self.ringHome)

/-- `iter(lru)`: the entries from least to most recently used. Every node lies below the
next free address, so a walk of `fresh` steps covers any ring. -/
def iter (w : World) (lru : Nat) : Option (List Nat) := do
  let self ← w.sizedLRUs lru
  let nodes ← w.heap.walk self.ringHome w.fresh (w.heap.rPrev self.ringHome)
  pure (nodes.map w.heap.userData)

/-- `entry.__parent__`: the `SizedLRU` whose handle the node's `r_parent` holds. -/
def parent (w : World) (entry : Nat) : Option Nat := do
  let e ← w.entries entry
  let _ ← w.sizedLRUs (w.heap.rParent e.cffiRingNode)
  pure (w.heap.rParent e.cffiRingNode)

/-- `entry.frequency`. -/
def frequency (w : World) (entry : Nat) : Option Nat :=
  (w.entries entry).map fun e => w.heap.frequency e.cffiRingNode

/-- `entry.len`, the weight kept in the node. -/
def entryLen (w : World) (entry : Nat) : Option Nat :=
  (w.entries entry).map fun e => w.heap.len e.cffiRingNode

/-- `len(entry.key) + len(entry.value)` for the entry's current value. -/
def weight (w : World) (entry : Nat) : Nat :=
  match w.entries entry with
  | some e => e.key.length + e.value.length
  | none => 0

end World

end RelStorage
