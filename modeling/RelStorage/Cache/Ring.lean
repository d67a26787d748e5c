import RelStorage.Cache.Heap

namespace RelStorage

open Function (update)

namespace Heap

/-- Modelled from the spec: the relinking half of `push_front(node)` (§4.1), which puts
`node` right after the sentinel `home`, at the most recently used end. -/
def linkFront (heap : Heap) (home node : Nat) : Heap :=
  { heap with
    rPrev := update (update heap.rPrev (heap.rNext home) node) node home
    rNext := update (update heap.rNext node (heap.rNext home)) home node }

/-- Modelled from the spec: the unlinking half of `remove(node)` (§4.1). -/
def unlink (heap : Heap) (node : Nat) : Heap :=
  { heap with
    rPrev := update heap.rPrev (heap.rNext node) (heap.rPrev node)
    rNext := update heap.rNext (heap.rPrev node) (heap.rNext node) }

/-- Whether the ring at `home` holds more bytes than its `max_len`. -/
def overSize (heap : Heap) (home : Nat) : Bool := heap.maxLen home < heap.frequency home

/-- Modelled from the spec: `push_front(node)` (§4.1) on the ring at `home`, with
`len += 1` and `size += node.weight`; returns whether the ring is now over its cap. -/
def ringAdd (heap : Heap) (home node : Nat) : Heap × Bool :=
  let added := { heap.linkFront home node with
    len := update heap.len home (heap.len home + 1)
    frequency := update heap.frequency home (heap.frequency home + heap.len node) }
  (added, added.overSize home)

/-- Modelled from the spec: `remove(node)` (§4.1) on the ring at `home`, with
`len -= 1` and `size -= node.weight`. -/
def ringDelete (heap : Heap) (home node : Nat) : Heap :=
  { heap.unlink node with
    len := update heap.len home (heap.len home - 1)
    frequency := update heap.frequency home (heap.frequency home - heap.len node) }

/-- Modelled from the spec: `move_to_front(node)` (§4.1), unlink and push in front again,
with no change of size. -/
def ringMoveToHead (heap : Heap) (home node : Nat) : Heap :=
  (heap.unlink node).linkFront home node

/-- Modelled from the spec: the value update of §4.2 on the ring at `home`, `size += new -
old`, and the `over_size` flag of §4.1. §4.2 names no move of the node; the move to the front
is taken from the names `lru_update_mru` and `update_MRU` in `lru.py`, where the other `_MRU`
names of `SizedLRU` (`add_MRU`, `take_ownership_of_entry_MRU`, and `make_MRU`, bound to
`move_to_head`) each leave the entry most recently used. -/
def lruUpdateMru (heap : Heap) (home node oldSize newSize : Nat) : Heap × Bool :=
  let moved := heap.ringMoveToHead home node
  let updated := { moved with
    frequency := update moved.frequency home (moved.frequency home - oldSize + newSize) }
  (updated, updated.overSize home)

/-- Modelled from the spec: `move_from_foreign(src, dst, node)` (§4.1), remove from `src`
and push in front of `dst`; the node's parent-ring identity (§3) becomes `dst`'s. -/
def ringMoveToHeadFromForeign (heap : Heap) (src dst node : Nat) : Heap × Bool :=
  { heap.ringDelete src node with
    rParent := update heap.rParent node (heap.rParent dst) }.ringAdd dst node

/-- Modelled from the spec: `lru()` (§4.1), the node before the sentinel, or none on an
empty ring. -/
def lru (heap : Heap) (home : Nat) : Option Nat :=
  if heap.rPrev home = home then none else some (heap.rPrev home)

variable {heap : Heap} {home node p src dst oldSize newSize : Nat} {xs pre post : List Nat}

@[simp] theorem linkFront_userData : (heap.linkFront home node).userData = heap.userData := rfl
@[simp] theorem linkFront_rParent : (heap.linkFront home node).rParent = heap.rParent := rfl
@[simp] theorem linkFront_frequency : (heap.linkFront home node).frequency = heap.frequency := rfl
@[simp] theorem linkFront_len : (heap.linkFront home node).len = heap.len := rfl
@[simp] theorem linkFront_maxLen : (heap.linkFront home node).maxLen = heap.maxLen := rfl
@[simp] theorem unlink_userData : (heap.unlink node).userData = heap.userData := rfl
@[simp] theorem unlink_rParent : (heap.unlink node).rParent = heap.rParent := rfl
@[simp] theorem unlink_frequency : (heap.unlink node).frequency = heap.frequency := rfl
@[simp] theorem unlink_len : (heap.unlink node).len = heap.len := rfl
@[simp] theorem unlink_maxLen : (heap.unlink node).maxLen = heap.maxLen := rfl

/-- Outside the sentinel, its front node and the new node, `push_front` changes no link. -/
theorem linkFront_links (front : p ≠ heap.rNext home) (fresh : p ≠ node) (other : p ≠ home) :
    (heap.linkFront home node).rPrev p = heap.rPrev p ∧
      (heap.linkFront home node).rNext p = heap.rNext p := by
  simp [linkFront, front, fresh, other]

/-- Outside the two neighbours of the node, unlinking changes no link. -/
theorem unlink_links (after : p ≠ heap.rNext node) (before : p ≠ heap.rPrev node) :
    (heap.unlink node).rPrev p = heap.rPrev p ∧ (heap.unlink node).rNext p = heap.rNext p := by
  simp [unlink, after, before]

/-- `push_front` appends the node at the most recently used end of the ring. -/
theorem Path.linkFront (ring : heap.Path home xs home) (nodup : (home :: xs).Nodup)
    (fresh : node ∉ home :: xs) : (heap.linkFront home node).Path home (xs ++ [node]) home := by
  have front := ring.next_end_mem
  have apart : heap.rNext home ≠ node := fun same => fresh (same ▸ front)
  have outside : home ∉ xs := (List.nodup_cons.mp nodup).1
  refine path_append.mpr ⟨ring.redirect nodup ?_ ?_ ?_ ?_, ?_⟩
  · intro p member away
    simp [Heap.linkFront, away, show p ≠ node from fun same => fresh (same ▸ member)]
  · intro p member
    simp [Heap.linkFront, show p ≠ node from fun same => fresh (same ▸ List.mem_cons_of_mem _ member),
      show p ≠ home from fun same => outside (same ▸ member)]
  · simp [Heap.linkFront, apart]
  · simp [Heap.linkFront, show node ≠ home from fun same => fresh (same ▸ List.mem_cons_self _ _)]
  · simp [Heap.linkFront]

/-- Unlinking a node of the ring leaves the others in their order. -/
theorem Path.unlink (ring : heap.Path home (pre ++ node :: post) home)
    (nodup : (home :: pre ++ node :: post).Nodup) :
    (heap.unlink node).Path home (pre ++ post) home := by
  obtain ⟨before, after⟩ := path_append.mp ring
  obtain ⟨preNodup, postNodup, apart⟩ := List.nodup_append.mp nodup
  have nextIn := before.next_end_mem
  have prevSame : ∀ q ∈ home :: pre, q ≠ heap.rNext node →
      (heap.unlink node).rPrev q = heap.rPrev q := fun q _ away => by simp [Heap.unlink, away]
  cases post with
  | nil =>
    rw [List.append_nil]
    refine before.redirect preNodup prevSame (fun q member => ?_) ?_ ?_
    · have away : q ≠ home := fun same => (List.nodup_cons.mp preNodup).1 (same ▸ member)
      simp [Heap.unlink, after.1, away]
    · simp [Heap.unlink, after.1]
    · simp [Heap.unlink, after.1]
  | cons y post =>
    obtain ⟨prevNode, nextY, rest⟩ := after
    have yOut : y ∉ home :: pre := fun member => apart member (by simp)
    refine path_append.mpr ⟨before.redirect preNodup prevSame (fun q member => ?_) ?_ ?_, ?_⟩
    · simp [Heap.unlink, prevNode, show q ≠ y from fun same => yOut (by simp [← same, member])]
    · simp [Heap.unlink, prevNode]
    · simp [Heap.unlink, prevNode]
    · refine rest.frame (fun q member => ?_) (fun q member => ?_)
      · have away : q ≠ heap.rNext node := fun same =>
          apart (same ▸ nextIn) (List.mem_cons_of_mem _ member)
        simp [Heap.unlink, away]
      · have away : q ≠ y := by
          rcases List.mem_append.mp member with inPost | isHome
          · exact fun same => (List.nodup_cons.mp (List.nodup_cons.mp postNodup).2).1 (same ▸ inPost)
          · exact fun same => yOut (by simp [← same, List.mem_singleton.mp isHome])
        simp [Heap.unlink, prevNode, away]

/-- Every field of the node at `p` is the same in both heaps. -/
def SameAt (heap heap' : Heap) (p : Nat) : Prop :=
  heap'.rPrev p = heap.rPrev p ∧ heap'.rNext p = heap.rNext p ∧
    heap'.userData p = heap.userData p ∧ heap'.rParent p = heap.rParent p ∧
    heap'.frequency p = heap.frequency p ∧ heap'.len p = heap.len p ∧
    heap'.maxLen p = heap.maxLen p

theorem SameAt.trans {heap'' : Heap} (first : SameAt heap heap' p) (second : SameAt heap' heap'' p) :
    SameAt heap heap'' p := by
  obtain ⟨a₁, b₁, c₁, d₁, e₁, f₁, g₁⟩ := first
  obtain ⟨a₂, b₂, c₂, d₂, e₂, f₂, g₂⟩ := second
  exact ⟨a₂.trans a₁, b₂.trans b₁, c₂.trans c₁, d₂.trans d₁, e₂.trans e₁, f₂.trans f₁, g₂.trans g₁⟩

theorem Path.transfer {heap' : Heap} {a b : Nat} (path : heap.Path a xs b)
    (same : ∀ q ∈ a :: xs, SameAt heap heap' q) (sameEnd : SameAt heap heap' b) :
    heap'.Path a xs b :=
  path.frame (fun q member => (same q member).1) fun q member => by
    rcases List.mem_append.mp member with inner | isEnd
    · exact (same q (List.mem_cons_of_mem _ inner)).2.1
    · exact List.mem_singleton.mp isEnd ▸ sameEnd.2.1

@[simp] theorem ringAdd_len : (heap.ringAdd home node).1.len =
    update heap.len home (heap.len home + 1) := rfl
@[simp] theorem ringAdd_frequency : (heap.ringAdd home node).1.frequency =
    update heap.frequency home (heap.frequency home + heap.len node) := rfl
@[simp] theorem ringAdd_userData : (heap.ringAdd home node).1.userData = heap.userData := rfl
@[simp] theorem ringAdd_rParent : (heap.ringAdd home node).1.rParent = heap.rParent := rfl
@[simp] theorem ringAdd_maxLen : (heap.ringAdd home node).1.maxLen = heap.maxLen := rfl
@[simp] theorem ringAdd_flag : (heap.ringAdd home node).2 =
    decide (heap.maxLen home < heap.frequency home + heap.len node) := by
  simp [ringAdd, overSize]

@[simp] theorem ringDelete_len : (heap.ringDelete home node).len =
    update heap.len home (heap.len home - 1) := rfl
@[simp] theorem ringDelete_frequency : (heap.ringDelete home node).frequency =
    update heap.frequency home (heap.frequency home - heap.len node) := rfl
@[simp] theorem ringDelete_userData : (heap.ringDelete home node).userData = heap.userData := rfl
@[simp] theorem ringDelete_rParent : (heap.ringDelete home node).rParent = heap.rParent := rfl
@[simp] theorem ringDelete_maxLen : (heap.ringDelete home node).maxLen = heap.maxLen := rfl

@[simp] theorem ringMoveToHead_len : (heap.ringMoveToHead home node).len = heap.len := rfl
@[simp] theorem ringMoveToHead_frequency :
    (heap.ringMoveToHead home node).frequency = heap.frequency := rfl
@[simp] theorem ringMoveToHead_userData :
    (heap.ringMoveToHead home node).userData = heap.userData := rfl
@[simp] theorem ringMoveToHead_rParent : (heap.ringMoveToHead home node).rParent = heap.rParent := rfl
@[simp] theorem ringMoveToHead_maxLen : (heap.ringMoveToHead home node).maxLen = heap.maxLen := rfl

@[simp] theorem lruUpdateMru_len : (heap.lruUpdateMru home node oldSize newSize).1.len = heap.len := rfl
@[simp] theorem lruUpdateMru_frequency : (heap.lruUpdateMru home node oldSize newSize).1.frequency =
    update heap.frequency home (heap.frequency home - oldSize + newSize) := rfl
@[simp] theorem lruUpdateMru_userData :
    (heap.lruUpdateMru home node oldSize newSize).1.userData = heap.userData := rfl
@[simp] theorem lruUpdateMru_rParent :
    (heap.lruUpdateMru home node oldSize newSize).1.rParent = heap.rParent := rfl
@[simp] theorem lruUpdateMru_maxLen :
    (heap.lruUpdateMru home node oldSize newSize).1.maxLen = heap.maxLen := rfl
@[simp] theorem lruUpdateMru_flag : (heap.lruUpdateMru home node oldSize newSize).2 =
    decide (heap.maxLen home < heap.frequency home - oldSize + newSize) := by
  simp [lruUpdateMru, overSize]

@[simp] theorem ringMoveToHeadFromForeign_len : (heap.ringMoveToHeadFromForeign src dst node).1.len =
    update (update heap.len src (heap.len src - 1)) dst
      (update heap.len src (heap.len src - 1) dst + 1) := rfl
@[simp] theorem ringMoveToHeadFromForeign_frequency :
    (heap.ringMoveToHeadFromForeign src dst node).1.frequency =
      update (update heap.frequency src (heap.frequency src - heap.len node)) dst
        (update heap.frequency src (heap.frequency src - heap.len node) dst +
          update heap.len src (heap.len src - 1) node) := rfl
@[simp] theorem ringMoveToHeadFromForeign_userData :
    (heap.ringMoveToHeadFromForeign src dst node).1.userData = heap.userData := rfl
@[simp] theorem ringMoveToHeadFromForeign_rParent :
    (heap.ringMoveToHeadFromForeign src dst node).1.rParent =
      update heap.rParent node (heap.rParent dst) := rfl
@[simp] theorem ringMoveToHeadFromForeign_maxLen :
    (heap.ringMoveToHeadFromForeign src dst node).1.maxLen = heap.maxLen := rfl
@[simp] theorem ringMoveToHeadFromForeign_flag : (heap.ringMoveToHeadFromForeign src dst node).2 =
    decide (heap.maxLen dst < update heap.frequency src (heap.frequency src - heap.len node) dst +
      update heap.len src (heap.len src - 1) node) := by
  simp [ringMoveToHeadFromForeign, ringDelete]

theorem ringAdd_sameAt (away : p ≠ home) (fresh : p ≠ node) (front : p ≠ heap.rNext home) :
    SameAt heap (heap.ringAdd home node).1 p := by
  simp [SameAt, ringAdd, linkFront, away, fresh, front]

theorem ringDelete_sameAt (away : p ≠ home) (after : p ≠ heap.rNext node)
    (before : p ≠ heap.rPrev node) : SameAt heap (heap.ringDelete home node) p := by
  simp [SameAt, ringDelete, unlink, away, after, before]

theorem ringMoveToHead_sameAt (away : p ≠ home) (self : p ≠ node) (after : p ≠ heap.rNext node)
    (before : p ≠ heap.rPrev node) (front : p ≠ heap.rNext home) :
    SameAt heap (heap.ringMoveToHead home node) p := by
  have front' : p ≠ (heap.unlink node).rNext home := by
    simp only [unlink, Function.update_apply]
    split <;> assumption
  have first : SameAt heap (heap.unlink node) p := by simp [SameAt, unlink, after, before]
  have second : SameAt (heap.unlink node) ((heap.unlink node).linkFront home node) p := by
    simp [SameAt, linkFront, away, self, front']
  exact first.trans second

theorem lruUpdateMru_sameAt (away : p ≠ home) (self : p ≠ node) (after : p ≠ heap.rNext node)
    (before : p ≠ heap.rPrev node) (front : p ≠ heap.rNext home) :
    SameAt heap (heap.lruUpdateMru home node oldSize newSize).1 p :=
  (ringMoveToHead_sameAt away self after before front).trans (by simp [SameAt, lruUpdateMru, away])

theorem ringMoveToHeadFromForeign_sameAt (awaySrc : p ≠ src) (awayDst : p ≠ dst) (self : p ≠ node)
    (after : p ≠ heap.rNext node) (before : p ≠ heap.rPrev node) (front : p ≠ heap.rNext dst) :
    SameAt heap (heap.ringMoveToHeadFromForeign src dst node).1 p := by
  have front' : p ≠ (heap.ringDelete src node).rNext dst := by
    simp only [ringDelete, unlink, Function.update_apply]
    split <;> assumption
  have first : SameAt heap { heap.ringDelete src node with
      rParent := update heap.rParent node (heap.rParent dst) } p := by
    simp [SameAt, ringDelete, unlink, awaySrc, after, before, self]
  exact first.trans (ringAdd_sameAt awayDst self front')

theorem Path.ringAdd (ring : heap.Path home xs home) (nodup : (home :: xs).Nodup)
    (fresh : node ∉ home :: xs) : (heap.ringAdd home node).1.Path home (xs ++ [node]) home :=
  (ring.linkFront nodup fresh).frame (fun _ _ => rfl) (fun _ _ => rfl)

theorem Path.ringDelete (ring : heap.Path home (pre ++ node :: post) home)
    (nodup : (home :: pre ++ node :: post).Nodup) :
    (heap.ringDelete home node).Path home (pre ++ post) home :=
  (ring.unlink nodup).frame (fun _ _ => rfl) (fun _ _ => rfl)

/-- Moving a node of the ring to its front keeps the others in their order. -/
theorem Path.ringMoveToHead (ring : heap.Path home (pre ++ node :: post) home)
    (nodup : (home :: pre ++ node :: post).Nodup) :
    (heap.ringMoveToHead home node).Path home (pre ++ post ++ [node]) home := by
  obtain ⟨preNodup, postNodup, apart⟩ := List.nodup_append.mp nodup
  refine (ring.unlink nodup).linkFront ?_ ?_
  · refine List.nodup_append.mpr ⟨preNodup, (List.nodup_cons.mp postNodup).2, ?_⟩
    exact fun _ inPre inPost => apart inPre (List.mem_cons_of_mem _ inPost)
  · intro member
    rcases List.mem_cons.mp member with isHome | rest
    · exact apart (List.mem_cons_self home pre) (isHome ▸ List.mem_cons_self node post)
    rcases List.mem_append.mp rest with inPre | inPost
    · exact apart (List.mem_cons_of_mem _ inPre) (List.mem_cons_self _ _)
    · exact (List.nodup_cons.mp postNodup).1 inPost

theorem Path.lruUpdateMru (ring : heap.Path home (pre ++ node :: post) home)
    (nodup : (home :: pre ++ node :: post).Nodup) (oldSize newSize : Nat) :
    (heap.lruUpdateMru home node oldSize newSize).1.Path home (pre ++ post ++ [node]) home :=
  (ring.ringMoveToHead nodup).setFrequency _

/-- The ring a node leaves keeps its other nodes in order, when the ring it joins lies apart. -/
theorem Path.ringMoveToHeadFromForeign_src (ring : heap.Path src (pre ++ node :: post) src)
    (nodup : (src :: pre ++ node :: post).Nodup) (dstOut : dst ∉ src :: pre ++ node :: post)
    (frontOut : heap.rNext dst ∉ src :: pre ++ node :: post) :
    (heap.ringMoveToHeadFromForeign src dst node).1.Path src (pre ++ post) src := by
  have member : node ∈ src :: pre ++ node :: post := by simp
  have before : heap.rPrev node ≠ dst := by
    intro same
    rcases List.mem_append.mp (ring.prev_mem node member) with inner | isSrc
    · exact dstOut (same ▸ List.mem_cons_of_mem _ inner)
    · exact dstOut (same ▸ List.mem_singleton.mp isSrc ▸ List.mem_cons_self _ _)
  have front : (heap.ringDelete src node).rNext dst = heap.rNext dst := by
    simp [Heap.ringDelete, Heap.unlink, before.symm]
  have kept (q : Nat) (inRing : q ∈ src :: pre ++ post) :
      SameAt { heap.ringDelete src node with rParent := update heap.rParent node (heap.rParent dst) }
        (heap.ringMoveToHeadFromForeign src dst node).1 q := by
    have inOld : q ∈ src :: pre ++ node :: post := by
      simp only [List.mem_cons, List.mem_append] at inRing ⊢; tauto
    have self : q ≠ node := fun same =>
      (List.nodup_cons.mp (List.nodup_middle.mp (show (src :: pre ++ node :: post).Nodup from
        nodup))).1 (same ▸ inRing)
    exact ringAdd_sameAt (fun same => dstOut (same ▸ inOld)) self
      (front ▸ fun same => frontOut (same ▸ inOld))
  exact ((ring.ringDelete nodup).setRParent _).transfer kept (kept src (List.mem_cons_self _ _))

/-- The ring a node joins gains it at the most recently used end, when the ring it leaves lies
apart. -/
theorem Path.ringMoveToHeadFromForeign_dst {ys : List Nat} (ring : heap.Path dst ys dst)
    (nodup : (dst :: ys).Nodup) (srcRing : heap.Path src (pre ++ node :: post) src)
    (apart : ∀ q ∈ dst :: ys, q ∉ src :: pre ++ node :: post) :
    (heap.ringMoveToHeadFromForeign src dst node).1.Path dst (ys ++ [node]) dst := by
  have member : node ∈ src :: pre ++ node :: post := by simp
  have same (q : Nat) (inRing : q ∈ dst :: ys) : SameAt heap
      { heap.ringDelete src node with rParent := update heap.rParent node (heap.rParent dst) } q := by
    have out := apart q inRing
    have after : q ≠ heap.rNext node := fun same =>
      out (same ▸ srcRing.next_mem node (by simp))
    have before : q ≠ heap.rPrev node := by
      intro same
      rcases List.mem_append.mp (srcRing.prev_mem node member) with inner | isSrc
      · exact out (same ▸ List.mem_cons_of_mem _ inner)
      · exact out (same ▸ List.mem_singleton.mp isSrc ▸ List.mem_cons_self _ _)
    have self : q ≠ node := fun same => out (same ▸ member)
    have awaySrc : q ≠ src := fun same => out (same ▸ List.mem_cons_self _ _)
    simp [SameAt, Heap.ringDelete, Heap.unlink, awaySrc, after, before, self]
  exact (ring.transfer same (same dst (List.mem_cons_self _ _))).ringAdd nodup
    fun inRing => apart node inRing member

end Heap

end RelStorage
