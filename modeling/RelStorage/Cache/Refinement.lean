import RelStorage.Cache.Moves
import RelStorage.Cache.Progress

namespace RelStorage

variable {calls : List Call} {w : World} {lru entry : Nat} {obj : SizedLRU}

/-- Every run from the empty process keeps the invariant. -/
theorem Reach.inv (reach : Reach calls w) : Inv calls w := by
  induction reach with
  | start => exact Inv.start
  | sizedLRU _ created ih => exact ih.sizedLRU created
  | addMRU _ created ih => exact ih.addMRU created
  | takeOwnershipOfEntryMRU _ member apart taken ih =>
    exact ih.takeOwnershipOfEntryMRU member apart taken
  | updateMRU _ member updated ih => exact ih.updateMRU member updated
  | delete _ member deleted ih => exact ih.delete member deleted
  | onHit _ member hit ih => exact ih.onHit member hit

namespace Inv

/-- A ring's home and nodes are distinct addresses below `fresh`, so it is shorter than
`fresh`. -/
theorem length_lt_fresh (inv : Inv calls w) (found : w.sizedLRUs lru = some obj) :
    (lists calls lru).length < w.fresh := by
  have sub : footprint lru (lists calls lru) ⊆ List.range w.fresh :=
    fun p member => List.mem_range.mpr (inv.footprint_below found member)
  have bound := ((inv.footprint_nodup found).subperm sub).length_le
  simp only [footprint, List.length_cons, List.length_map, List.length_range] at bound
  omega

theorem walk_eq (inv : Inv calls w) (found : w.sizedLRUs lru = some obj) :
    w.heap.walk (lru + 1) w.fresh (w.heap.rPrev (lru + 1)) =
      some ((lists calls lru).map (· + 1)) :=
  (inv.rings lru obj found).path.walk (List.nodup_cons.mp (inv.footprint_nodup found)).1
    (by simpa using inv.length_lt_fresh found)

theorem iter_eq (inv : Inv calls w) (found : w.sizedLRUs lru = some obj) :
    w.iter lru = some (lists calls lru) := by
  have ok := inv.rings lru obj found
  simp only [World.iter, found, ok.home, inv.walk_eq found, Option.bind_eq_bind,
    Option.some_bind, Option.pure_def, List.map_map, Option.some.injEq]
  conv_rhs => rw [← List.map_id (lists calls lru)]
  exact List.map_congr_left fun e member => ok.userData e member

end Inv

end RelStorage
