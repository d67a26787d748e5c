import RelStorage.Cache.Reach

namespace RelStorage

open Function (update)

/-- The addresses the ring of the `SizedLRU` at handle `lru` occupies while it holds the
entries `xs`: its home, then their nodes. -/
def footprint (lru : Nat) (xs : List Nat) : List Nat := (lru + 1) :: xs.map (· + 1)

/-- The ring of the `SizedLRU` at `lru` holds the entries `xs`, least recently used first,
and its home node and its Python object agree with them. -/
structure RingOk (w : World) (lru : Nat) (obj : SizedLRU) (xs : List Nat) : Prop where
  home : obj.ringHome = lru + 1
  path : w.heap.Path (lru + 1) (xs.map (· + 1)) (lru + 1)
  homeParent : w.heap.rParent (lru + 1) = lru
  parent : ∀ e ∈ xs, w.heap.rParent (e + 1) = lru
  userData : ∀ e ∈ xs, w.heap.userData (e + 1) = e
  entry : ∀ e ∈ xs, ∃ x, w.entries e = some x ∧ w.heap.len (e + 1) = x.key.length + x.value.length
  count : w.heap.len (lru + 1) = xs.length
  size : w.heap.frequency (lru + 1) = (xs.map w.weight).sum
  maxLen : (w.heap.maxLen (lru + 1) : Int) = obj.limit
  overSize : obj.overSize = decide (obj.limit < w.heap.frequency (lru + 1))

/-- What holds after every run: each `SizedLRU`'s ring is its ghost list, each entry lives
in one list, handles and nodes are apart, and each entry's node counts its hits. -/
structure Inv (calls : List Call) (w : World) : Prop where
  rings : ∀ lru self, w.sizedLRUs lru = some self → RingOk w lru self (lists calls lru)
  orphan : ∀ lru, w.sizedLRUs lru = none → lists calls lru = []
  nodup : ∀ lru, (lists calls lru).Nodup
  owner : ∀ l l' e, e ∈ lists calls l → e ∈ lists calls l' → l = l'
  kinds : ∀ p, w.sizedLRUs p = none ∨ w.entries p = none
  lruBelow : ∀ lru, w.sizedLRUs lru ≠ none → lru + 1 < w.fresh
  entryBelow : ∀ e, w.entries e ≠ none → e + 1 < w.fresh
  node : ∀ e x, w.entries e = some x → x.cffiRingNode = e + 1
  hits : ∀ e, w.entries e ≠ none → w.heap.frequency (e + 1) = 1 + calls.countP (Call.hits e)
  unborn : ∀ e, w.fresh ≤ e → calls.countP (Call.hits e) = 0

variable {calls : List Call} {w w' : World} {lru entry : Nat} {self : SizedLRU} {xs : List Nat}

theorem World.weight_of_entries (same : w'.entries entry = w.entries entry) :
    w'.weight entry = w.weight entry := by
  simp [World.weight, same]

theorem World.sum_weight_congr (agree : ∀ e ∈ xs, w'.entries e = w.entries e) :
    (xs.map w'.weight).sum = (xs.map w.weight).sum := by
  rw [List.map_congr_left fun e member => World.weight_of_entries (agree e member)]

theorem RingOk.weight_eq (ok : RingOk w lru self xs) (member : entry ∈ xs) :
    w.heap.len (entry + 1) = w.weight entry := by
  obtain ⟨x, found, len⟩ := ok.entry entry member
  simp [World.weight, found, len]

/-- A ring stays as it is when nothing it occupies is written. -/
theorem RingOk.frame (ok : RingOk w lru self xs)
    (same : ∀ p ∈ footprint lru xs, w.heap.SameAt w'.heap p)
    (entries : ∀ e ∈ xs, w'.entries e = w.entries e) : RingOk w' lru self xs := by
  have home := same (lru + 1) (List.mem_cons_self _ _)
  have node : ∀ e ∈ xs, w.heap.SameAt w'.heap (e + 1) := fun e member =>
    same (e + 1) (List.mem_cons_of_mem _ (List.mem_map_of_mem _ member))
  refine ⟨ok.home, ok.path.transfer (fun q member => same q member) home,
    home.2.2.2.1.trans ok.homeParent,
    fun e member => (node e member).2.2.2.1.trans (ok.parent e member),
    fun e member => (node e member).2.2.1.trans (ok.userData e member), fun e member => ?_,
    home.2.2.2.2.2.1.trans ok.count, by rw [home.2.2.2.2.1, World.sum_weight_congr entries, ok.size],
    by rw [home.2.2.2.2.2.2, ok.maxLen], by rw [home.2.2.2.2.1, ok.overSize]⟩
  obtain ⟨x, found, len⟩ := ok.entry e member
  exact ⟨x, (entries e member).trans found, (node e member).2.2.2.2.2.1.trans len⟩

theorem update_some_eq_none {α : Type} {objects : Nat → Option α} {o o' : α} {p : Nat}
    (found : objects lru = some o) : update objects lru (some o') p = none ↔ objects p = none := by
  by_cases same : p = lru
  · subst same
    simp [found]
  · rw [Function.update_noteq same]

/-- Adding an entry that no list holds to the end of one list keeps every list free of
duplicates and every entry in one list. -/
theorem append_fresh {ls : Nat → List Nat} (nodup : ∀ l, (ls l).Nodup)
    (owner : ∀ l l' e, e ∈ ls l → e ∈ ls l' → l = l') (outside : ∀ l, entry ∉ ls l) :
    (∀ l, (update ls lru (ls lru ++ [entry]) l).Nodup) ∧
      ∀ l l' e, e ∈ update ls lru (ls lru ++ [entry]) l →
        e ∈ update ls lru (ls lru ++ [entry]) l' → l = l' := by
  have mem (l e : Nat) (member : e ∈ update ls lru (ls lru ++ [entry]) l) :
      e = entry ∧ l = lru ∨ e ∈ ls l := by
    rw [Function.update_apply] at member
    split at member
    case isTrue isLRU =>
      rcases List.mem_append.mp member with old | new
      · exact Or.inr (isLRU ▸ old)
      · exact Or.inl ⟨List.mem_singleton.mp new, isLRU⟩
    case isFalse => exact Or.inr member
  refine ⟨fun l => ?_, fun l l' e member member' => ?_⟩
  · rw [Function.update_apply]
    split
    · exact List.nodup_append.mpr ⟨nodup lru, List.nodup_singleton _,
        fun a old new => outside lru (List.mem_singleton.mp new ▸ old)⟩
    · exact nodup l
  · rcases mem l e member with ⟨rfl, rfl⟩ | old <;>
      rcases mem l' e member' with ⟨same, rfl⟩ | old'
    · rfl
    · exact absurd old' (outside l')
    · exact absurd (same ▸ old) (outside l)
    · exact owner _ _ _ old old'

namespace Inv

theorem start : Inv [] World.empty where
  rings := by simp [World.empty]
  orphan := by simp
  nodup := by simp
  owner := by simp
  kinds := by simp [World.empty]
  lruBelow := by simp [World.empty]
  entryBelow := by simp [World.empty]
  node := by simp [World.empty]
  hits := by simp [World.empty]
  unborn := by simp

theorem live (inv : Inv calls w) (member : entry ∈ lists calls lru) :
    ∃ self, w.sizedLRUs lru = some self := by
  cases found : w.sizedLRUs lru with
  | none => simp [inv.orphan lru found] at member
  | some self => exact ⟨self, rfl⟩

theorem entry_of_mem (inv : Inv calls w) (member : entry ∈ lists calls lru) :
    ∃ x, w.entries entry = some x := by
  obtain ⟨self, found⟩ := inv.live member
  obtain ⟨x, foundEntry, _⟩ := (inv.rings lru self found).entry entry member
  exact ⟨x, foundEntry⟩

theorem mem_footprint {p : Nat}
    (member : p ∈ footprint lru (lists calls lru)) :
    p = lru + 1 ∨ ∃ e, e ∈ lists calls lru ∧ p = e + 1 := by
  rcases List.mem_cons.mp member with rfl | inner
  · exact Or.inl rfl
  · obtain ⟨e, inList, rfl⟩ := List.mem_map.mp inner
    exact Or.inr ⟨e, inList, rfl⟩

theorem footprint_below (inv : Inv calls w) (found : w.sizedLRUs lru = some self) {p : Nat}
    (member : p ∈ footprint lru (lists calls lru)) : p < w.fresh := by
  rcases mem_footprint member with rfl | ⟨e, inList, rfl⟩
  · exact inv.lruBelow lru (by simp [found])
  · obtain ⟨x, foundEntry⟩ := inv.entry_of_mem inList
    exact inv.entryBelow e (by simp [foundEntry])

/-- A handle never names both a `SizedLRU` and an entry, so an entry's node is no ring home. -/
theorem node_ne_home (inv : Inv calls w) {e l : Nat} (used : w.entries e ≠ none)
    (found : w.sizedLRUs l = some self) : e + 1 ≠ l + 1 := by
  intro same
  rcases inv.kinds e with none | none
  · simp [Nat.add_right_cancel same, found] at none
  · exact used none

theorem home_ne_node (inv : Inv calls w) (found : w.sizedLRUs lru = some self)
    {l e : Nat} (member : e ∈ lists calls l) : lru + 1 ≠ e + 1 := by
  obtain ⟨x, foundEntry⟩ := inv.entry_of_mem member
  exact (inv.node_ne_home (by simp [foundEntry]) found).symm

/-- Nothing lives at or above the next free address. -/
theorem lru_eq_none_of_le (inv : Inv calls w) (p : Nat) (above : w.fresh ≤ p + 1) :
    w.sizedLRUs p = none := by
  by_contra used
  exact absurd (inv.lruBelow p used) (by omega)

theorem entry_eq_none_of_le (inv : Inv calls w) (p : Nat) (above : w.fresh ≤ p + 1) :
    w.entries p = none := by
  by_contra used
  exact absurd (inv.entryBelow p used) (by omega)

theorem footprint_nodup (inv : Inv calls w) (found : w.sizedLRUs lru = some self) :
    (footprint lru (lists calls lru)).Nodup := by
  refine List.nodup_cons.mpr ⟨fun member => ?_, (inv.nodup lru).map (add_left_injective 1)⟩
  obtain ⟨e, inList, same⟩ := List.mem_map.mp member
  exact inv.home_ne_node found inList same.symm

/-- The rings of two different `SizedLRU`s occupy different addresses. -/
theorem footprint_disjoint (inv : Inv calls w) (found : w.sizedLRUs lru = some self)
    {other : Nat} {self' : SizedLRU} (found' : w.sizedLRUs other = some self')
    (apart : other ≠ lru) {p : Nat} (member : p ∈ footprint lru (lists calls lru)) :
    p ∉ footprint other (lists calls other) := by
  intro member'
  rcases mem_footprint member with rfl | ⟨e, inList, rfl⟩ <;>
    rcases mem_footprint member' with same | ⟨e', inList', same⟩
  · exact apart (Nat.add_right_cancel same).symm
  · exact inv.home_ne_node found inList' same
  · exact inv.home_ne_node found' inList same.symm
  · exact apart (inv.owner _ _ _ inList' (Nat.add_right_cancel same ▸ inList))

/-- `SizedLRU(limit)` adds an empty ring at fresh addresses and touches nothing else. -/
theorem sizedLRU {limit : Int} (inv : Inv calls w) (created : w.sizedLRU limit = some (w', lru)) :
    Inv (.sizedLRU lru :: calls) w' := by
  unfold World.sizedLRU at created
  split at created
  case isFalse => cases created
  rename_i fits
  simp only [Option.some.injEq, Prod.mk.injEq] at created
  obtain ⟨rfl, rfl⟩ := created
  have positive : 0 ≤ limit := by simp [fitsUintFast64] at fits; exact fits.1
  have unused := inv.lru_eq_none_of_le w.fresh (by omega)
  have noEntry := inv.entry_eq_none_of_le w.fresh (by omega)
  refine ⟨fun l obj found => ?_, fun l found => ?_, fun l => inv.nodup l, inv.owner, fun p => ?_,
    fun l found => ?_, fun e found => by have := inv.entryBelow e found; simp only; omega,
    inv.node, fun e found => ?_, fun e above => ?_⟩
  · simp only [lists_cons, Call.apply] at found ⊢
    by_cases fresh : l = w.fresh
    · subst fresh
      simp only [Function.update_same, Option.some.injEq] at found
      subst found
      rw [inv.orphan _ unused]
      refine ⟨rfl, by simp [Heap.alloc], by simp [Heap.alloc], by simp, by simp, by simp,
        by simp [Heap.alloc], by simp [Heap.alloc], by simp [Heap.alloc, positive],
        by simp [Heap.alloc]; omega⟩
    · rw [Function.update_noteq fresh] at found
      exact (inv.rings l obj found).frame
        (fun p member => Heap.alloc_sameAt (by have := inv.footprint_below found member; omega))
        fun _ _ => rfl
  · simp only [lists_cons, Call.apply] at found ⊢
    by_cases fresh : l = w.fresh
    · subst fresh
      simp at found
    · rw [Function.update_noteq fresh] at found
      exact inv.orphan l found
  · by_cases fresh : p = w.fresh
    · exact Or.inr (fresh ▸ noEntry)
    · simpa [Function.update_noteq fresh] using inv.kinds p
  · simp only at found ⊢
    by_cases fresh : l = w.fresh
    · omega
    · rw [Function.update_noteq fresh] at found
      have := inv.lruBelow l found
      omega
  · have below := inv.entryBelow e found
    simp [Heap.alloc, show e + 1 ≠ w.fresh + 1 by omega, inv.hits e found, Call.hits]
  · simp [Call.hits, inv.unborn e (by simp only at above; omega)]

theorem exists_lru_of_addMRU {key value : List UInt8}
    (created : w.addMRU lru key value = some (w', entry)) : ∃ obj, w.sizedLRUs lru = some obj := by
  cases found : w.sizedLRUs lru with
  | none => simp [World.addMRU, found] at created
  | some obj => exact ⟨obj, rfl⟩

/-- `add_MRU` puts a fresh entry at the most recently used end of its ring. -/
theorem addMRU {key value : List UInt8} (inv : Inv calls w)
    (created : w.addMRU lru key value = some (w', entry)) :
    Inv (.addMRU lru entry :: calls) w' := by
  obtain ⟨obj, found⟩ := exists_lru_of_addMRU created
  have ok := inv.rings lru obj found
  simp only [World.addMRU, found, ok.home, Option.bind_eq_bind, Option.some_bind,
    Option.pure_def, Option.some.injEq, Prod.mk.injEq] at created
  obtain ⟨rfl, rfl⟩ := created
  have lruBelow := inv.lruBelow lru (by simp [found])
  have below : ∀ p ∈ footprint lru (lists calls lru), p < w.fresh :=
    fun p member => inv.footprint_below found member
  have oldEntry : ∀ e, w.entries e ≠ none → e + 1 < w.fresh := inv.entryBelow
  have notListed : ∀ l, w.fresh ∉ lists calls l := fun l member => by
    obtain ⟨x, foundEntry⟩ := inv.entry_of_mem member
    have := oldEntry w.fresh (by simp [foundEntry])
    omega
  obtain ⟨nodup, owner⟩ := append_fresh inv.nodup inv.owner notListed
  refine ⟨fun l obj' found' => ?_, fun l found' => ?_, nodup, owner, fun p => ?_, fun l found' => ?_, fun e found' => ?_, fun e x found' => ?_,
    fun e found' => ?_, fun e above => ?_⟩
  · simp only [lists_cons, Call.apply] at found' ⊢
    by_cases same : l = lru
    · subst same
      simp only [Function.update_same, Option.some.injEq] at found' ⊢
      subst found'
      have nodes : ∀ e ∈ lists calls l, e + 1 < w.fresh := fun e member =>
        below (e + 1) (List.mem_cons_of_mem _ (List.mem_map_of_mem _ member))
      have homeApart : l + 1 ≠ w.fresh + 1 := by omega
      have allocated (init : NodeInit) :
          ∀ q ∈ footprint l (lists calls l), w.heap.SameAt (w.heap.alloc (w.fresh + 1) init) q :=
        fun q member => Heap.alloc_sameAt (by have := below q member; omega)
      have path := (ok.path.transfer
        (allocated { userData := w.fresh, rParent := l, frequency := 1, len := key.length + value.length })
        (allocated _ _ (List.mem_cons_self _ _))).ringAdd
        (inv.footprint_nodup found)
        (show w.fresh + 1 ∉ footprint l (lists calls l) from fun member => by
          have := below _ member; omega)
      refine ⟨rfl, by simpa [List.map_append] using path, by simp [Heap.alloc, homeApart,
        ok.homeParent], fun e member => ?_, fun e member => ?_, fun e member => ?_,
        by simp [Heap.alloc, homeApart, ok.count], ?_, by simp [Heap.alloc, homeApart, ok.maxLen],
        by simp [Heap.alloc, homeApart, ← ok.maxLen]; norm_cast⟩
      · rcases List.mem_append.mp member with old | new
        · simp [Heap.alloc, show e + 1 ≠ w.fresh + 1 by have := nodes e old; omega, ok.parent e old]
        · simp [List.mem_singleton.mp new, Heap.alloc]
      · rcases List.mem_append.mp member with old | new
        · simp [Heap.alloc, show e + 1 ≠ w.fresh + 1 by have := nodes e old; omega, ok.userData e old]
        · simp [List.mem_singleton.mp new, Heap.alloc]
      · rcases List.mem_append.mp member with old | new
        · obtain ⟨x, foundEntry, len⟩ := ok.entry e old
          have fresh : e ≠ w.fresh := by have := nodes e old; omega
          have apart : e + 1 ≠ l + 1 := (inv.home_ne_node found old).symm
          exact ⟨x, by simp [Function.update_noteq fresh, foundEntry],
            by simp [Heap.alloc, apart, show e + 1 ≠ w.fresh + 1 by omega, len]⟩
        · rw [List.mem_singleton.mp new]
          exact ⟨⟨key, value, w.fresh + 1⟩, by simp, by simp [Heap.alloc, homeApart.symm]⟩
      · simp only [List.map_append, List.sum_append, List.map_singleton, List.sum_singleton]
        rw [World.sum_weight_congr fun e member =>
          Function.update_noteq (show e ≠ w.fresh by have := nodes e member; omega) _ _]
        simp [← ok.size, World.weight, Heap.alloc, homeApart]
    · rw [Function.update_noteq same] at found' ⊢
      have front : w.heap.rNext (lru + 1) ∈ footprint lru (lists calls lru) := ok.path.next_end_mem
      refine (inv.rings l obj' found').frame (fun p member => ?_) (fun e member => ?_)
      · have away (q : Nat) (inLRU : q ∈ footprint lru (lists calls lru)) : p ≠ q :=
          fun equal => inv.footprint_disjoint found found' same inLRU (equal ▸ member)
        have pBelow := inv.footprint_below found' member
        refine (Heap.alloc_sameAt (by omega)).trans (Heap.ringAdd_sameAt
          (away _ (List.mem_cons_self _ _)) (by omega) ?_)
        simpa [Heap.alloc, show lru + 1 ≠ w.fresh + 1 by omega] using away _ front
      · have := inv.footprint_below found' (List.mem_cons_of_mem _ (List.mem_map_of_mem _ member))
        simp [Function.update_noteq (show e ≠ w.fresh by omega)]
  · simp only [lists_cons, Call.apply] at found' ⊢
    have same : l ≠ lru := by rintro rfl; simp at found'
    rw [Function.update_noteq same] at found' ⊢
    exact inv.orphan l found'
  · simp only [update_some_eq_none found]
    by_cases isFresh : p = w.fresh
    · exact Or.inl (inv.lru_eq_none_of_le p (by omega))
    · rw [Function.update_noteq isFresh]
      exact inv.kinds p
  · have := inv.lruBelow l (by simpa only [ne_eq, update_some_eq_none found] using found')
    simp only
    omega
  · simp only at found' ⊢
    by_cases isFresh : e = w.fresh
    · omega
    · rw [Function.update_noteq isFresh] at found'
      have := oldEntry e found'
      omega
  · simp only at found'
    by_cases isFresh : e = w.fresh
    · subst isFresh
      simp only [Function.update_same, Option.some.injEq] at found'
      rw [← found']
    · rw [Function.update_noteq isFresh] at found'
      exact inv.node e x found'
  · simp only at found'
    by_cases isFresh : e = w.fresh
    · subst isFresh
      simp [Heap.alloc, show w.fresh + 1 ≠ lru + 1 by omega, inv.unborn _ le_rfl, Call.hits]
    · rw [Function.update_noteq isFresh] at found'
      have := oldEntry e found'
      simp [Heap.alloc, inv.node_ne_home found' found, show e + 1 ≠ w.fresh + 1 by omega,
        inv.hits e found', Call.hits]
  · simp only at above
    simp [Call.hits, inv.unborn e (by omega)]

end Inv

end RelStorage
