import RelStorage.Cache.Invariant

namespace RelStorage

open Function (update)

variable {calls : List Call} {w w' : World} {lru entry : Nat} {obj : SizedLRU} {xs : List Nat}

/-- A listed entry splits its list, and erasing it joins the two sides. -/
theorem split_of_mem (member : entry ∈ xs) (nodup : xs.Nodup) :
    ∃ pre post, xs = pre ++ entry :: post ∧ xs.erase entry = pre ++ post := by
  obtain ⟨pre, post, rfl⟩ := List.append_of_mem member
  have outside : entry ∉ pre := fun inPre =>
    List.disjoint_of_nodup_append nodup inPre (List.mem_cons_self _ _)
  exact ⟨pre, post, rfl, by rw [List.erase_append_right _ outside, List.erase_cons_head]⟩

/-- Moving a listed entry to the end only reorders the list. -/
theorem touch_perm (member : entry ∈ xs) : List.Perm (xs.erase entry ++ [entry]) xs :=
  (List.perm_append_singleton _ _).trans (List.perm_cons_erase member).symm

theorem nodup_of_subperm {ys : List Nat} (sub : List.Subperm ys xs) (nodup : xs.Nodup) :
    ys.Nodup := by
  obtain ⟨zs, perm, sublist⟩ := sub
  exact perm.nodup_iff.mp (nodup.sublist sublist)

/-- A call that turns one list into a sub-permutation of it leaves the others alone. -/
theorem subperm_update {ys : List Nat} (sub : List.Subperm ys (lists calls lru)) (l : Nat) :
    List.Subperm (update (lists calls) lru ys l) (lists calls l) := by
  rw [Function.update_apply]
  split
  · subst l
    exact sub
  · exact List.Subperm.refl _

theorem RingOk.path_split {pre post : List Nat} (ok : RingOk w lru obj xs)
    (split : xs = pre ++ entry :: post) :
    w.heap.Path (lru + 1) (pre.map (· + 1) ++ (entry + 1) :: post.map (· + 1)) (lru + 1) := by
  simpa [split] using ok.path

namespace Inv

theorem footprint_split (inv : Inv calls w) (found : w.sizedLRUs lru = some obj) {pre post : List Nat}
    (split : lists calls lru = pre ++ entry :: post) :
    ((lru + 1) :: pre.map (· + 1) ++ (entry + 1) :: post.map (· + 1)).Nodup := by
  simpa [footprint, split] using inv.footprint_nodup found

/-- The ghost-list parts of the invariant survive calls that only drop or reorder entries. -/
theorem lists_of_subperm (inv : Inv calls w) (calls' : List Call)
    (sub : ∀ l, List.Subperm (lists calls' l) (lists calls l)) :
    (∀ l, (lists calls' l).Nodup) ∧ (∀ l l' e, e ∈ lists calls' l → e ∈ lists calls' l' → l = l') ∧
      ∀ l, lists calls l = [] → lists calls' l = [] :=
  ⟨fun l => nodup_of_subperm (sub l) (inv.nodup l),
    fun l l' e member member' => inv.owner l l' e ((sub l).subset member) ((sub l').subset member'),
    fun l empty => List.subperm_nil.mp (empty ▸ sub l)⟩

/-- The addresses a ring operation on a listed entry writes all lie in its own ring. -/
theorem touched (inv : Inv calls w) (found : w.sizedLRUs lru = some obj)
    (member : entry ∈ lists calls lru) :
    entry + 1 ∈ footprint lru (lists calls lru) ∧
      w.heap.rNext (entry + 1) ∈ footprint lru (lists calls lru) ∧
      w.heap.rPrev (entry + 1) ∈ footprint lru (lists calls lru) ∧
      w.heap.rNext (lru + 1) ∈ footprint lru (lists calls lru) := by
  have ok := inv.rings lru obj found
  have node : entry + 1 ∈ (lists calls lru).map (· + 1) := List.mem_map_of_mem _ member
  refine ⟨List.mem_cons_of_mem _ node, ok.path.next_mem _ (List.mem_append_left _ node), ?_,
    ok.path.next_end_mem⟩
  rcases List.mem_append.mp (ok.path.prev_mem _ (List.mem_cons_of_mem _ node)) with inner | isHome
  · exact List.mem_cons_of_mem _ inner
  · exact List.mem_singleton.mp isHome ▸ List.mem_cons_self _ _

/-- A ring other than `lru`'s is untouched by a call that writes only inside `lru`'s ring. -/
theorem other_ring (inv : Inv calls w) (found : w.sizedLRUs lru = some obj) {l : Nat}
    {obj' : SizedLRU} (found' : w.sizedLRUs l = some obj') (apart : l ≠ lru)
    (sameHeap : ∀ p, p ∉ footprint lru (lists calls lru) → w.heap.SameAt w'.heap p)
    (sameEntries : ∀ e, e ∉ lists calls lru → w'.entries e = w.entries e) :
    RingOk w' l obj' (lists calls l) :=
  (inv.rings l obj' found').frame
    (fun p member => sameHeap p fun inLRU => inv.footprint_disjoint found found' apart inLRU member)
    fun e member => sameEntries e fun inLRU => apart (inv.owner _ _ _ member inLRU)

/-- `delete` unlinks the entry and leaves the rest of its ring in order. -/
theorem delete (inv : Inv calls w) (member : entry ∈ lists calls lru)
    (deleted : w.delete lru entry = some w') : Inv (.delete lru entry :: calls) w' := by
  obtain ⟨obj, found⟩ := inv.live member
  obtain ⟨x, foundEntry⟩ := inv.entry_of_mem member
  have ok := inv.rings lru obj found
  simp only [World.delete, found, foundEntry, inv.node entry x foundEntry, ok.home,
    Option.bind_eq_bind, Option.some_bind, Option.pure_def, Option.some.injEq] at deleted
  subst deleted
  obtain ⟨-, afterIn, beforeIn, -⟩ := inv.touched found member
  obtain ⟨nodup, owner, empty⟩ := inv.lists_of_subperm (.delete lru entry :: calls)
    (subperm_update (List.erase_subperm _ _))
  have sameHeap (p : Nat) (outside : p ∉ footprint lru (lists calls lru)) :
      w.heap.SameAt (w.heap.ringDelete (lru + 1) (entry + 1)) p :=
    Heap.ringDelete_sameAt (fun same => outside (same ▸ List.mem_cons_self _ _))
      (fun same => outside (same ▸ afterIn)) (fun same => outside (same ▸ beforeIn))
  refine ⟨fun l obj' found' => ?_, fun l found' => ?_, nodup, owner,
    fun p => by simpa only [update_some_eq_none found] using inv.kinds p,
    fun l used => inv.lruBelow l (by simpa only [ne_eq, update_some_eq_none found] using used),
    inv.entryBelow, inv.node, fun e used => ?_, fun e above => by simpa [Call.hits] using inv.unborn e above⟩
  · simp only [lists_cons, Call.apply] at found' ⊢
    by_cases same : l = lru
    · subst same
      simp only [Function.update_same, Option.some.injEq] at found' ⊢
      subst found'
      obtain ⟨pre, post, split, erased⟩ := split_of_mem member (inv.nodup l)
      have apart (e : Nat) (inList : e ∈ (lists calls l).erase entry) : e + 1 ≠ l + 1 :=
        (inv.home_ne_node found (List.mem_of_mem_erase inList)).symm
      have sum := List.sum_map_erase w.weight member
      have weightEntry := ok.weight_eq member
      refine ⟨rfl, ?_, by simp [ok.homeParent], fun e inList => ?_, fun e inList => ?_,
        fun e inList => ?_, ?_, ?_, by simp [ok.maxLen], by simp⟩
      · simpa [erased] using (ok.path_split split).ringDelete (inv.footprint_split found split)
      · simpa using ok.parent e (List.mem_of_mem_erase inList)
      · simpa using ok.userData e (List.mem_of_mem_erase inList)
      · obtain ⟨x, foundE, len⟩ := ok.entry e (List.mem_of_mem_erase inList)
        exact ⟨x, foundE, by simp [apart e inList, len]⟩
      · simp [ok.count, List.length_erase_of_mem member]
      · show _ = (((lists calls l).erase entry).map w.weight).sum
        simp only [Heap.ringDelete_frequency, Function.update_same, ok.size]
        omega
    · rw [Function.update_noteq same] at found' ⊢
      exact inv.other_ring found found' same sameHeap fun _ _ => rfl
  · simp only at found'
    exact empty l (inv.orphan l ((update_some_eq_none found).mp found'))
  · simp [inv.node_ne_home used found, Call.hits, inv.hits e used]

/-- `on_hit` counts the hit in the entry's own node and moves it to the most recently used end. -/
theorem onHit (inv : Inv calls w) (member : entry ∈ lists calls lru)
    (hit : w.onHit lru entry = some w') : Inv (.onHit lru entry :: calls) w' := by
  obtain ⟨obj, found⟩ := inv.live member
  obtain ⟨x, foundEntry⟩ := inv.entry_of_mem member
  have ok := inv.rings lru obj found
  simp only [World.onHit, found, foundEntry, inv.node entry x foundEntry, ok.home,
    Option.bind_eq_bind, Option.some_bind, Option.pure_def] at hit
  split at hit
  case isFalse => cases hit
  simp only [Option.some.injEq] at hit
  subst hit
  obtain ⟨inFoot, afterIn, beforeIn, frontIn⟩ := inv.touched found member
  obtain ⟨pre, post, split, erased⟩ := split_of_mem member (inv.nodup lru)
  have perm := touch_perm member
  obtain ⟨nodup, owner, empty⟩ := inv.lists_of_subperm (.onHit lru entry :: calls)
    (subperm_update (perm.subperm))
  have sameHeap (p : Nat) (outside : p ∉ footprint lru (lists calls lru)) :
      w.heap.SameAt ({ w.heap with frequency := (update w.heap.frequency (entry + 1)
        (w.heap.frequency (entry + 1) + 1)) }.ringMoveToHead (lru + 1) (entry + 1)) p := by
    have away (q : Nat) (inside : q ∈ footprint lru (lists calls lru)) : p ≠ q :=
      fun same => outside (same ▸ inside)
    refine Heap.SameAt.trans (by simp [Heap.SameAt, away _ inFoot]) (Heap.ringMoveToHead_sameAt
      (away _ (List.mem_cons_self _ _)) (away _ inFoot) (away _ afterIn) (away _ beforeIn)
      (away _ frontIn))
  have apartHome : entry + 1 ≠ lru + 1 := (inv.home_ne_node found member).symm
  refine ⟨fun l obj' found' => ?_, fun l found' => ?_, nodup, owner, inv.kinds, inv.lruBelow,
    inv.entryBelow, inv.node, fun e used => ?_, fun e above => ?_⟩
  · simp only [lists_cons, Call.apply] at found' ⊢
    by_cases same : l = lru
    · subst same
      rw [found] at found'
      cases found'
      simp only [Function.update_same]
      have members (e : Nat) (inList : e ∈ (lists calls l).erase entry ++ [entry]) :
          e ∈ lists calls l := perm.subset inList
      refine ⟨ok.home, ?_, by simp [ok.homeParent], fun e inList => ?_, fun e inList => ?_,
        fun e inList => ?_, by simp [ok.count, perm.length_eq], ?_, by simp [ok.maxLen],
        by simp [apartHome.symm, ok.overSize]⟩
      · have moved := ((ok.path_split split).setFrequency (update w.heap.frequency (entry + 1)
          (w.heap.frequency (entry + 1) + 1))).ringMoveToHead (inv.footprint_split found split)
        simpa [erased] using moved
      · simpa using ok.parent e (members e inList)
      · simpa using ok.userData e (members e inList)
      · simpa using ok.entry e (members e inList)
      · show _ = (((lists calls l).erase entry ++ [entry]).map w.weight).sum
        rw [(perm.map w.weight).sum_eq]
        simp [apartHome.symm, ok.size]
    · rw [Function.update_noteq same]
      exact inv.other_ring found found' same sameHeap fun _ _ => rfl
  · exact empty l (inv.orphan l found')
  · by_cases same : e = entry
    · subst same
      simp [inv.hits e used, Call.hits]
      omega
    · have apart : e + 1 ≠ entry + 1 := by omega
      simp [apart, inv.node_ne_home used found, inv.hits e used, Call.hits, Ne.symm same]
  · have below : e ≠ entry := by
      have := inv.entryBelow entry (by simp [foundEntry])
      simp only at above
      omega
    simp [Call.hits, Ne.symm below, inv.unborn e above]

/-- `update_MRU` reweighs the entry for its new value and moves it to the most recently used
end. -/
theorem updateMRU {value : List UInt8} (inv : Inv calls w) (member : entry ∈ lists calls lru)
    (updated : w.updateMRU lru entry value = some w') : Inv (.updateMRU lru entry :: calls) w' := by
  obtain ⟨obj, found⟩ := inv.live member
  obtain ⟨x, foundEntry⟩ := inv.entry_of_mem member
  have ok := inv.rings lru obj found
  simp only [World.updateMRU, found, foundEntry, inv.node entry x foundEntry, ok.home,
    Function.update_same, Option.bind_eq_bind, Option.some_bind, Option.pure_def,
    Option.some.injEq] at updated
  subst updated
  obtain ⟨inFoot, afterIn, beforeIn, frontIn⟩ := inv.touched found member
  obtain ⟨pre, post, split, erased⟩ := split_of_mem member (inv.nodup lru)
  have perm := touch_perm member
  obtain ⟨nodup, owner, empty⟩ := inv.lists_of_subperm (.updateMRU lru entry :: calls)
    (subperm_update (perm.subperm))
  have sameHeap (p : Nat) (outside : p ∉ footprint lru (lists calls lru)) :
      w.heap.SameAt ({ w.heap with len := (update w.heap.len (entry + 1)
        (x.key.length + value.length)) }.lruUpdateMru (lru + 1) (entry + 1)
        (w.heap.len (entry + 1)) (x.key.length + value.length)).1 p := by
    have away (q : Nat) (inside : q ∈ footprint lru (lists calls lru)) : p ≠ q :=
      fun same => outside (same ▸ inside)
    exact Heap.SameAt.trans (by simp [Heap.SameAt, away _ inFoot]) (Heap.lruUpdateMru_sameAt
      (away _ (List.mem_cons_self _ _)) (away _ inFoot) (away _ afterIn) (away _ beforeIn)
      (away _ frontIn))
  have apartHome : entry + 1 ≠ lru + 1 := (inv.home_ne_node found member).symm
  have oldEntry (e : Nat) {y : SizedLRURingEntry} (used : update w.entries entry (some y) e ≠ none) :
      w.entries e ≠ none := by simpa only [ne_eq, update_some_eq_none foundEntry] using used
  refine ⟨fun l obj' found' => ?_, fun l found' => ?_, nodup, owner,
    fun p => by simpa only [update_some_eq_none found, update_some_eq_none foundEntry] using inv.kinds p,
    fun l used => inv.lruBelow l (by simpa only [ne_eq, update_some_eq_none found] using used),
    fun e used => inv.entryBelow e (oldEntry e used), fun e x' found' => ?_, fun e used => ?_,
    fun e above => by simpa [Call.hits] using inv.unborn e above⟩
  · simp only [lists_cons, Call.apply] at found' ⊢
    by_cases same : l = lru
    · subst same
      simp only [Function.update_same, Option.some.injEq] at found' ⊢
      subst found'
      have members (e : Nat) (inList : e ∈ (lists calls l).erase entry ++ [entry]) :
          e ∈ lists calls l := perm.subset inList
      have others (e : Nat) (inList : e ∈ (lists calls l).erase entry) : e ≠ entry :=
        fun same => (inv.nodup l).not_mem_erase (same ▸ inList)
      refine ⟨rfl, ?_, by simp [ok.homeParent], fun e inList => ?_, fun e inList => ?_,
        fun e inList => ?_, by simp [apartHome.symm, ok.count, perm.length_eq], ?_,
        by simp [ok.maxLen], by simp [apartHome.symm, ← ok.maxLen]; norm_cast⟩
      · have moved := ((ok.path_split split).setLen (update w.heap.len (entry + 1)
          (x.key.length + value.length))).lruUpdateMru (inv.footprint_split found split)
          (w.heap.len (entry + 1)) (x.key.length + value.length)
        simpa [erased] using moved
      · simpa using ok.parent e (members e inList)
      · simpa using ok.userData e (members e inList)
      · rcases List.mem_append.mp inList with old | new
        · obtain ⟨x', foundE, len⟩ := ok.entry e (List.mem_of_mem_erase old)
          have apart : e + 1 ≠ entry + 1 := by have := others e old; omega
          exact ⟨x', by simp [others e old, foundE], by simp [apart, len]⟩
        · rw [List.mem_singleton.mp new]
          exact ⟨⟨x.key, value, entry + 1⟩, by simp, by simp⟩
      · have sum := List.sum_map_erase w.weight member
        have weightEntry := ok.weight_eq member
        simp only [List.map_append, List.sum_append, List.map_singleton, List.sum_singleton]
        rw [World.sum_weight_congr fun e inList => Function.update_noteq (others e inList) _ _]
        simp only [Heap.lruUpdateMru_frequency, Function.update_same, World.weight]
        simp [ok.size]
        omega
    · rw [Function.update_noteq same] at found' ⊢
      exact inv.other_ring found found' same sameHeap fun e outside =>
        Function.update_noteq (by rintro rfl; exact outside member) _ _
  · simp only at found'
    exact empty l (inv.orphan l ((update_some_eq_none found).mp found'))
  · simp only at found'
    by_cases same : e = entry
    · subst same
      simp only [Function.update_same, Option.some.injEq] at found'
      rw [← found']
    · rw [Function.update_noteq same] at found'
      exact inv.node e x' found'
  · simp [inv.node_ne_home (oldEntry e used) found, Call.hits, inv.hits e (oldEntry e used)]

theorem exists_lru_of_takeOwnershipOfEntryMRU
    (taken : w.takeOwnershipOfEntryMRU lru entry = some w') : ∃ obj, w.sizedLRUs lru = some obj := by
  cases found : w.sizedLRUs lru with
  | none => simp [World.takeOwnershipOfEntryMRU, found] at taken
  | some obj => exact ⟨obj, rfl⟩

/-- `take_ownership_of_entry_MRU` moves an entry of another ring to the most recently used end
of this one; the two rings trade its weight and every other ring stays as it was. -/
theorem takeOwnershipOfEntryMRU {previous : Nat} (inv : Inv calls w)
    (member : entry ∈ lists calls previous) (apart : previous ≠ lru)
    (taken : w.takeOwnershipOfEntryMRU lru entry = some w') :
    Inv (.takeOwnershipOfEntryMRU lru entry :: calls) w' := by
  obtain ⟨objPrev, foundPrev⟩ := inv.live member
  obtain ⟨x, foundEntry⟩ := inv.entry_of_mem member
  obtain ⟨obj, found⟩ := exists_lru_of_takeOwnershipOfEntryMRU taken
  have okPrev := inv.rings previous objPrev foundPrev
  have ok := inv.rings lru obj found
  simp only [World.takeOwnershipOfEntryMRU, found, foundEntry, inv.node entry x foundEntry,
    okPrev.parent entry member, foundPrev, ok.home, okPrev.home, Option.bind_eq_bind,
    Option.some_bind, Option.pure_def, Option.some.injEq] at taken
  subst taken
  obtain ⟨pre, post, split, erased⟩ := split_of_mem member (inv.nodup previous)
  obtain ⟨inFoot, afterIn, beforeIn, -⟩ := inv.touched foundPrev member
  have frontIn : w.heap.rNext (lru + 1) ∈ footprint lru (lists calls lru) := ok.path.next_end_mem
  have notHere (l : Nat) (away : l ≠ previous) : entry ∉ lists calls l :=
    fun inL => away (inv.owner _ _ _ inL member)
  have listsLRU : lists (.takeOwnershipOfEntryMRU lru entry :: calls) lru =
      lists calls lru ++ [entry] := by
    simp [Call.apply, List.erase_of_not_mem (notHere lru apart.symm)]
  have listsPrev : lists (.takeOwnershipOfEntryMRU lru entry :: calls) previous =
      (lists calls previous).erase entry := by
    simp [Call.apply, apart]
  have listsOther (l : Nat) (away : l ≠ previous) (away' : l ≠ lru) :
      lists (.takeOwnershipOfEntryMRU lru entry :: calls) l = lists calls l := by
    simp [Call.apply, away', List.erase_of_not_mem (notHere l away)]
  have outsidePrev (p : Nat) (inLRU : p ∈ footprint lru (lists calls lru)) :
      p ∉ (previous + 1) :: (pre.map (· + 1) ++ (entry + 1) :: post.map (· + 1)) := by
    simpa [footprint, split] using inv.footprint_disjoint found foundPrev apart inLRU
  have sameHeap (p : Nat) (notPrev : p ∉ footprint previous (lists calls previous))
      (notLRU : p ∉ footprint lru (lists calls lru)) :
      w.heap.SameAt (w.heap.ringMoveToHeadFromForeign (previous + 1) (lru + 1) (entry + 1)).1 p :=
    Heap.ringMoveToHeadFromForeign_sameAt (fun same => notPrev (same ▸ List.mem_cons_self _ _))
      (fun same => notLRU (same ▸ List.mem_cons_self _ _)) (fun same => notPrev (same ▸ inFoot))
      (fun same => notPrev (same ▸ afterIn)) (fun same => notPrev (same ▸ beforeIn))
      (fun same => notLRU (same ▸ frontIn))
  have prevHome : previous + 1 ≠ lru + 1 := by omega
  have entryApart : entry + 1 ≠ previous + 1 := (inv.home_ne_node foundPrev member).symm
  have entryApartLRU : entry + 1 ≠ lru + 1 := (inv.home_ne_node found member).symm
  have lrus (p : Nat) {a b : SizedLRU} :
      update (update w.sizedLRUs lru (some a)) previous (some b) p = none ↔ w.sizedLRUs p = none := by
    rw [update_some_eq_none (by rw [Function.update_noteq apart]; exact foundPrev),
      update_some_eq_none found]
  have moved : lists (.takeOwnershipOfEntryMRU lru entry :: calls) =
      update (fun l => (lists calls l).erase entry) lru ((lists calls lru).erase entry ++ [entry]) := by
    funext l
    by_cases isLRU : l = lru
    · subst isLRU
      simp [Call.apply]
    · simp [Call.apply, isLRU]
  obtain ⟨nodup, owner⟩ := append_fresh (fun l => (inv.nodup l).erase entry)
    (fun l l' e inL inL' => inv.owner l l' e (List.mem_of_mem_erase inL) (List.mem_of_mem_erase inL'))
    fun l => (inv.nodup l).not_mem_erase
  refine ⟨fun l obj' found' => ?_, fun l found' => ?_, fun l => ?_, fun l l' e inL inL' => ?_,
    fun p => by simpa only [lrus] using inv.kinds p,
    fun l used => inv.lruBelow l (by simpa only [ne_eq, lrus] using used), inv.entryBelow,
    inv.node, fun e used => ?_, fun e above => by simpa [Call.hits] using inv.unborn e above⟩
  · by_cases isPrev : l = previous
    · subst isPrev
      simp only [Function.update_same, Option.some.injEq] at found'
      subst found'
      rw [listsPrev]
      have sum := List.sum_map_erase w.weight member
      have weightEntry := okPrev.weight_eq member
      have others (e : Nat) (inList : e ∈ (lists calls l).erase entry) : e + 1 ≠ entry + 1 := by
        exact fun same => (inv.nodup l).not_mem_erase (by rwa [Nat.add_right_cancel same] at inList)
      have apartHome (e : Nat) (inList : e ∈ (lists calls l).erase entry) : e + 1 ≠ l + 1 :=
        (inv.home_ne_node foundPrev (List.mem_of_mem_erase inList)).symm
      have apartLRU (e : Nat) (inList : e ∈ (lists calls l).erase entry) : e + 1 ≠ lru + 1 :=
        (inv.home_ne_node found (List.mem_of_mem_erase inList)).symm
      refine ⟨rfl, ?_, by simp [entryApart.symm, okPrev.homeParent], fun e inList => ?_,
        fun e inList => ?_, fun e inList => ?_, ?_, ?_, by simp [okPrev.maxLen], rfl⟩
      · have moved := (okPrev.path_split split).ringMoveToHeadFromForeign_src
          (inv.footprint_split foundPrev split) (outsidePrev _ (List.mem_cons_self _ _))
          (outsidePrev _ frontIn)
        simpa [erased] using moved
      · simpa [others e inList] using okPrev.parent e (List.mem_of_mem_erase inList)
      · simpa using okPrev.userData e (List.mem_of_mem_erase inList)
      · obtain ⟨x', foundE, len⟩ := okPrev.entry e (List.mem_of_mem_erase inList)
        exact ⟨x', foundE, by simp [apartHome e inList, apartLRU e inList, len]⟩
      · simp [prevHome, okPrev.count, List.length_erase_of_mem member]
      · show _ = (((lists calls l).erase entry).map w.weight).sum
        simp only [Heap.ringMoveToHeadFromForeign_frequency, Function.update_noteq prevHome,
          Function.update_same, okPrev.size]
        omega
    · by_cases isLRU : l = lru
      · subst isLRU
        simp only [Function.update_noteq isPrev, Function.update_same, Option.some.injEq] at found'
        subst found'
        rw [listsLRU]
        have weightEntry := okPrev.weight_eq member
        have oldApart (e : Nat) (old : e ∈ lists calls l) : e + 1 ≠ entry + 1 := by
          exact fun same => notHere l isPrev (by rwa [Nat.add_right_cancel same] at old)
        refine ⟨rfl, ?_, by simp [entryApartLRU.symm, ok.homeParent], fun e inList => ?_,
          fun e inList => ?_, fun e inList => ?_, by simp [prevHome.symm, ok.count], ?_,
          by simp [ok.maxLen], by simp [prevHome.symm, entryApart, ← ok.maxLen]; norm_cast⟩
        · have moved := ok.path.ringMoveToHeadFromForeign_dst (inv.footprint_nodup found)
            (okPrev.path_split split) outsidePrev
          simpa using moved
        · rcases List.mem_append.mp inList with old | new
          · simp [oldApart e old, ok.parent e old]
          · simp [List.mem_singleton.mp new, ok.homeParent]
        · rcases List.mem_append.mp inList with old | new
          · simpa using ok.userData e old
          · simpa [List.mem_singleton.mp new] using okPrev.userData entry member
        · rcases List.mem_append.mp inList with old | new
          · obtain ⟨x', foundE, len⟩ := ok.entry e old
            have homeApart : e + 1 ≠ previous + 1 := (inv.home_ne_node foundPrev old).symm
            have selfApart : e + 1 ≠ l + 1 := (inv.home_ne_node found old).symm
            exact ⟨x', foundE, by simp [homeApart, selfApart, len]⟩
          · obtain ⟨x', foundE, len⟩ := okPrev.entry entry member
            rw [List.mem_singleton.mp new]
            exact ⟨x', foundE, by simp [entryApart, entryApartLRU, len]⟩
        · show _ = ((lists calls l ++ [entry]).map w.weight).sum
          simp [prevHome.symm, entryApart, ok.size]
          omega
      · simp only [Function.update_noteq isPrev, Function.update_noteq isLRU] at found'
        rw [listsOther l isPrev isLRU]
        exact (inv.rings l obj' found').frame (fun p inL => sameHeap p
          (inv.footprint_disjoint found' foundPrev (Ne.symm isPrev) inL)
          (inv.footprint_disjoint found' found (Ne.symm isLRU) inL)) fun _ _ => rfl
  · have none := (lrus l).mp found'
    have notLRU : l ≠ lru := by rintro rfl; simp [found] at none
    by_cases isPrev : l = previous
    · subst isPrev; simp [foundPrev] at none
    · rw [listsOther l isPrev notLRU]
      exact inv.orphan l none
  · rw [moved]
    exact nodup l
  · rw [moved] at inL inL'
    exact owner l l' e inL inL'
  · simp [inv.node_ne_home used foundPrev, inv.node_ne_home used found, Call.hits, inv.hits e used]

end Inv

end RelStorage
