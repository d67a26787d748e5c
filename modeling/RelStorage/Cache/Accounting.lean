import RelStorage.Cache.Refinement

namespace RelStorage

open Function (update)

variable {calls : List Call} {w w' : World} {lru entry previous : Nat} {obj : SizedLRU}

namespace Inv

theorem parent_eq (inv : Inv calls w) (member : entry ∈ lists calls lru) :
    w.parent entry = some lru := by
  obtain ⟨obj, found⟩ := inv.live member
  obtain ⟨x, foundEntry⟩ := inv.entry_of_mem member
  simp [World.parent, foundEntry, inv.node entry x foundEntry,
    (inv.rings lru obj found).parent entry member, found]

/-- A live entry is met by iterating its own `SizedLRU` and no other. -/
theorem mem_iter_iff (inv : Inv calls w) (member : entry ∈ lists calls lru) (l : Nat) :
    (∃ xs, w.iter l = some xs ∧ entry ∈ xs) ↔ l = lru := by
  constructor
  · rintro ⟨xs, iterated, inXs⟩
    cases found : w.sizedLRUs l with
    | none => simp [World.iter, found] at iterated
    | some obj =>
      rw [inv.iter_eq found, Option.some.injEq] at iterated
      exact inv.owner _ _ _ (iterated ▸ inXs) member
  · rintro rfl
    obtain ⟨obj, found⟩ := inv.live member
    exact ⟨_, inv.iter_eq found, member⟩

theorem size_of_iter (inv : Inv calls w) {l : Nat} {xs : List Nat} (iterated : w.iter l = some xs) :
    w.size l = some (xs.map w.weight).sum ∧ w.len l = some xs.length := by
  cases found : w.sizedLRUs l with
  | none => simp [World.iter, found] at iterated
  | some obj =>
    rw [inv.iter_eq found, Option.some.injEq] at iterated
    subst iterated
    have ok := inv.rings l obj found
    simp [World.size, World.len, found, ok.home, ok.size, ok.count]

/-- The weight a ring operation takes off a ring's size is at most that size. -/
theorem len_le_frequency (inv : Inv calls w) (member : entry ∈ lists calls lru) :
    w.heap.len (entry + 1) ≤ w.heap.frequency (lru + 1) := by
  obtain ⟨obj, found⟩ := inv.live member
  have ok := inv.rings lru obj found
  have sum := List.sum_map_erase w.weight member
  rw [ok.weight_eq member, ok.size]
  omega

theorem count_pos (inv : Inv calls w) (member : entry ∈ lists calls lru) :
    0 < w.heap.len (lru + 1) := by
  obtain ⟨obj, found⟩ := inv.live member
  rw [(inv.rings lru obj found).count]
  exact List.length_pos_of_mem member

theorem entryLen_le_size (inv : Inv calls w) (member : entry ∈ lists calls lru) :
    ∃ weight size count, w.entryLen entry = some weight ∧ w.size lru = some size ∧
      w.len lru = some count ∧ weight ≤ size ∧ 0 < count := by
  obtain ⟨obj, found⟩ := inv.live member
  obtain ⟨x, foundEntry⟩ := inv.entry_of_mem member
  have home := (inv.rings lru obj found).home
  exact ⟨_, _, _, by simp [World.entryLen, foundEntry, inv.node entry x foundEntry],
    by simp [World.size, found, home], by simp [World.len, found, home],
    inv.len_le_frequency member, inv.count_pos member⟩

/-- `stats()` reports the limit, the total weight and the number of the entries of the ring. -/
theorem stats_eq (inv : Inv calls w) (found : w.sizedLRUs lru = some obj) :
    w.stats lru = some (obj.limit, ((lists calls lru).map w.weight).sum, (lists calls lru).length) := by
  have ok := inv.rings lru obj found
  simp [World.stats, found, ok.home, ok.size, ok.count]

/-- Taking an entry over moves its weight and one unit of count from the old ring to the new
one and leaves every other `SizedLRU` as it was. -/
theorem take_conserves (inv : Inv calls w) (member : entry ∈ lists calls previous)
    (apart : previous ≠ lru) (taken : w.takeOwnershipOfEntryMRU lru entry = some w') :
    (∃ s t s' t', w.size previous = some s ∧ w.size lru = some t ∧ w'.size previous = some s' ∧
      w'.size lru = some t' ∧ s' + t' = s + t) ∧
    (∃ m n m' n', w.len previous = some m ∧ w.len lru = some n ∧ w'.len previous = some m' ∧
      w'.len lru = some n' ∧ m' + n' = m + n) ∧
    ∀ l, l ≠ previous → l ≠ lru → w'.size l = w.size l ∧ w'.len l = w.len l := by
  obtain ⟨objPrev, foundPrev⟩ := inv.live member
  obtain ⟨x, foundEntry⟩ := inv.entry_of_mem member
  obtain ⟨obj, found⟩ := exists_lru_of_takeOwnershipOfEntryMRU taken
  have okPrev := inv.rings previous objPrev foundPrev
  have ok := inv.rings lru obj found
  have fits := inv.len_le_frequency member
  have positive := inv.count_pos member
  simp only [World.takeOwnershipOfEntryMRU, found, foundEntry, inv.node entry x foundEntry,
    okPrev.parent entry member, foundPrev, ok.home, okPrev.home, Option.bind_eq_bind,
    Option.some_bind, Option.pure_def, Option.some.injEq] at taken
  subst taken
  have prevHome : previous + 1 ≠ lru + 1 := by omega
  have entryApart : entry + 1 ≠ previous + 1 := (inv.home_ne_node foundPrev member).symm
  refine ⟨⟨w.heap.frequency (previous + 1), w.heap.frequency (lru + 1),
      w.heap.frequency (previous + 1) - w.heap.len (entry + 1),
      w.heap.frequency (lru + 1) + w.heap.len (entry + 1),
      by simp [World.size, foundPrev, okPrev.home], by simp [World.size, found, ok.home],
      by simp [World.size, prevHome], by simp [World.size, apart.symm, prevHome.symm, entryApart],
      by omega⟩,
    ⟨w.heap.len (previous + 1), w.heap.len (lru + 1), w.heap.len (previous + 1) - 1,
      w.heap.len (lru + 1) + 1, by simp [World.len, foundPrev, okPrev.home],
      by simp [World.len, found, ok.home], by simp [World.len, prevHome],
      by simp [World.len, apart.symm, prevHome.symm], by omega⟩,
    fun l isPrev isLRU => ?_⟩
  simp only [World.size, World.len, Function.update_noteq isPrev, Function.update_noteq isLRU]
  cases foundL : w.sizedLRUs l with
  | none => simp
  | some objL =>
    have home := (inv.rings l objL foundL).home
    simp [home, show l + 1 ≠ previous + 1 by omega, show l + 1 ≠ lru + 1 by omega]

end Inv

/-- An entry that a run created is still there, and no call before its creation hit it. -/
theorem Reach.entries_of_added {later earlier : List Call} {l : Nat}
    (reach : Reach (later ++ .addMRU l entry :: earlier) w) :
    w.entries entry ≠ none ∧ earlier.countP (Call.hits entry) = 0 := by
  induction later generalizing w with
  | nil =>
    cases reach with
    | addMRU previous created =>
      obtain ⟨entries, rfl⟩ := World.addMRU_entries created
      exact ⟨by simp [entries], previous.inv.unborn _ le_rfl⟩
  | cons call later ih =>
    cases reach with
    | sizedLRU previous created => exact World.sizedLRU_entries created ▸ ih previous
    | addMRU previous created =>
      obtain ⟨entries, rfl⟩ := World.addMRU_entries created
      obtain ⟨kept, before⟩ := ih previous
      refine ⟨?_, before⟩
      rw [entries, Function.update_apply]
      split <;> simp [kept]
    | takeOwnershipOfEntryMRU previous _ _ taken =>
      exact World.takeOwnershipOfEntryMRU_entries taken ▸ ih previous
    | updateMRU previous _ updated =>
      obtain ⟨e, _, entries⟩ := World.updateMRU_entries updated
      obtain ⟨kept, before⟩ := ih previous
      refine ⟨?_, before⟩
      rw [entries, Function.update_apply]
      split <;> simp [kept]
    | delete previous _ deleted => exact World.delete_entries deleted ▸ ih previous
    | onHit previous _ hit => exact World.onHit_entries hit ▸ ih previous

/-- After every run each live entry lies in the ring of exactly one `SizedLRU`, the one its
`__parent__` names; each ring's `size` and `len` are the total weight and the number of the
entries iterating it yields, and no ring operation takes off more than the ring holds; and a
change of owner conserves the size and the count of the two rings and touches no other. -/
theorem sizedLRU_accounting (reach : Reach calls w) :
    (∀ l e, e ∈ lists calls l → w.parent e = some l ∧
      (∀ l', (∃ xs, w.iter l' = some xs ∧ e ∈ xs) ↔ l' = l) ∧
      ∃ weight size count, w.entryLen e = some weight ∧ w.size l = some size ∧
        w.len l = some count ∧ weight ≤ size ∧ 0 < count) ∧
    (∀ l xs, w.iter l = some xs →
      w.size l = some (xs.map w.weight).sum ∧ w.len l = some xs.length) ∧
    ∀ lru e previous w', e ∈ lists calls previous → previous ≠ lru →
      w.takeOwnershipOfEntryMRU lru e = some w' →
      (∃ s t s' t', w.size previous = some s ∧ w.size lru = some t ∧
        w'.size previous = some s' ∧ w'.size lru = some t' ∧ s' + t' = s + t) ∧
      (∃ m n m' n', w.len previous = some m ∧ w.len lru = some n ∧
        w'.len previous = some m' ∧ w'.len lru = some n' ∧ m' + n' = m + n) ∧
      ∀ l, l ≠ previous → l ≠ lru → w'.size l = w.size l ∧ w'.len l = w.len l := by
  have inv := reach.inv
  exact ⟨fun l e member => ⟨inv.parent_eq member, inv.mem_iter_iff member,
      inv.entryLen_le_size member⟩,
    fun l xs iterated => inv.size_of_iter iterated,
    fun lru e previous w' member apart taken => inv.take_conserves member apart taken⟩

theorem sizedLRU_accounting_after_take :
    ∃ w, Reach [.takeOwnershipOfEntryMRU 3 5, .addMRU 1 5, .sizedLRU 3, .sizedLRU 1] w ∧
      w.parent 5 = some 3 ∧ w.size 3 = some 3 ∧ w.len 3 = some 1 := by
  have reach := Reach.takeOwnershipOfEntryMRU (Reach.addMRU (Reach.sizedLRU
    (Reach.sizedLRU Reach.start (show World.empty.sizedLRU 100 = some (_, 1) from rfl))
    (show World.sizedLRU _ 100 = some (_, 3) from rfl))
    (show World.addMRU _ 1 [1] [2, 3] = some (_, 5) from rfl))
    (show 5 ∈ lists [.addMRU 1 5, .sizedLRU 3, .sizedLRU 1] 1 by decide) (show 1 ≠ 3 by decide)
    (show World.takeOwnershipOfEntryMRU _ 3 5 = some _ from rfl)
  obtain ⟨live, ring, -⟩ := sizedLRU_accounting reach
  exact ⟨_, reach, (live 3 5 (by decide)).1, (ring 3 [5] rfl).1, (ring 3 [5] rfl).2⟩

/-- After every run each `SizedLRU`'s `over_size` is `size > limit`, and its ring's `max_len`
is its `limit`, so the flag the C ring returns and the one Python computes agree. -/
theorem overSize_iff_size_gt_limit (reach : Reach calls w) (found : w.sizedLRUs lru = some obj) :
    ∃ size, w.size lru = some size ∧ (w.heap.maxLen obj.ringHome : Int) = obj.limit ∧
      obj.overSize = decide (obj.limit < size) := by
  have ok := reach.inv.rings lru obj found
  exact ⟨w.heap.frequency obj.ringHome, by simp [World.size, found], by rw [ok.home, ok.maxLen],
    by rw [ok.home]; exact ok.overSize⟩

theorem overSize_iff_size_gt_limit_over :
    ∃ w, Reach [.addMRU 1 3, .sizedLRU 1] w ∧
      ∃ size, w.size 1 = some size ∧ (w.heap.maxLen 2 : Int) = 2 ∧ true = decide ((2 : Int) < size) := by
  have reach := Reach.addMRU (Reach.sizedLRU Reach.start
    (show World.empty.sizedLRU 2 = some (_, 1) from rfl))
    (show World.addMRU _ 1 [1] [2, 3] = some (_, 3) from rfl)
  exact ⟨_, reach, overSize_iff_size_gt_limit reach
    (show World.sizedLRUs _ 1 = some ⟨2, 2, true⟩ from rfl)⟩

/-- An entry's `frequency` is one more than the `on_hit` calls on it since `add_MRU` created
it, whatever else the run did to it, to other entries or to the rings' sizes. -/
theorem frequency_counts_hits {later earlier : List Call} {l : Nat}
    (reach : Reach (later ++ .addMRU l entry :: earlier) w) :
    w.frequency entry = some (1 + later.countP (Call.hits entry)) := by
  obtain ⟨created, before⟩ := reach.entries_of_added
  obtain ⟨x, foundEntry⟩ := Option.ne_none_iff_exists'.mp created
  have inv := reach.inv
  simp [World.frequency, foundEntry, inv.node entry x foundEntry, inv.hits entry created,
    List.countP_append, before, Call.hits]

theorem frequency_counts_hits_across_moves :
    ∃ w, Reach [.updateMRU 3 5, .onHit 3 5, .takeOwnershipOfEntryMRU 3 5, .onHit 1 5,
      .addMRU 1 5, .sizedLRU 3, .sizedLRU 1] w ∧ w.frequency 5 = some 3 := by
  have reach := Reach.updateMRU (Reach.onHit (Reach.takeOwnershipOfEntryMRU (Reach.onHit
    (Reach.addMRU (Reach.sizedLRU
      (Reach.sizedLRU Reach.start (show World.empty.sizedLRU 100 = some (_, 1) from rfl))
      (show World.sizedLRU _ 100 = some (_, 3) from rfl))
      (show World.addMRU _ 1 [1] [2, 3] = some (_, 5) from rfl))
    (by decide) (show World.onHit _ 1 5 = some _ from rfl))
    (show 5 ∈ lists [.onHit 1 5, .addMRU 1 5, .sizedLRU 3, .sizedLRU 1] 1 by decide)
    (show 1 ≠ 3 by decide) (show World.takeOwnershipOfEntryMRU _ 3 5 = some _ from rfl))
    (by decide) (show World.onHit _ 3 5 = some _ from rfl))
    (by decide) (show World.updateMRU _ 3 5 [7] = some _ from rfl)
  exact ⟨_, reach, frequency_counts_hits (show Reach ([.updateMRU 3 5, .onHit 3 5,
    .takeOwnershipOfEntryMRU 3 5, .onHit 1 5] ++ .addMRU 1 5 :: [.sizedLRU 3, .sizedLRU 1]) _
    from reach)⟩

end RelStorage
