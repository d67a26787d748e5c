import RelStorage.Cache.LRU

namespace RelStorage

open Function (update)

/-- A call of a `SizedLRU` method that returned normally: the object it was made on and
the entry it named or created. -/
inductive Call
  | sizedLRU (lru : Nat)
  | addMRU (lru entry : Nat)
  | takeOwnershipOfEntryMRU (lru entry : Nat)
  | updateMRU (lru entry : Nat)
  | delete (lru entry : Nat)
  | onHit (lru entry : Nat)
  deriving DecidableEq

/-- What each call does to the list of entries of every `SizedLRU`, least recently used
first: add at the most recently used end, move there on a hit or an update, take away on
a delete, and for a change of owner take away from the old list and add to the new one. -/
def Call.apply : Call → (Nat → List Nat) → Nat → List Nat
  | .sizedLRU _, lists => lists
  | .addMRU lru entry, lists => update lists lru (lists lru ++ [entry])
  | .takeOwnershipOfEntryMRU lru entry, lists => fun l =>
      if l = lru then (lists l).erase entry ++ [entry] else (lists l).erase entry
  | .updateMRU lru entry, lists => update lists lru ((lists lru).erase entry ++ [entry])
  | .delete lru entry, lists => update lists lru ((lists lru).erase entry)
  | .onHit lru entry, lists => update lists lru ((lists lru).erase entry ++ [entry])

/-- The lists after `calls`, the most recent call first. -/
def lists (calls : List Call) : Nat → List Nat :=
  calls.foldr Call.apply fun _ => []

/-- Whether the call is `on_hit(entry)` on some `SizedLRU`. -/
def Call.hits (entry : Nat) : Call → Bool
  | .onHit _ e => e == entry
  | _ => false

/-- The runs of a program on an empty process: calls that returned normally, the most
recent first, each on an entry live where its callers promise, in the receiving
`SizedLRU` or, for `take_ownership_of_entry_MRU`, in another one. -/
inductive Reach : List Call → World → Prop
  | start : Reach [] World.empty
  | sizedLRU {calls w w' limit lru} : Reach calls w → w.sizedLRU limit = some (w', lru) →
      Reach (.sizedLRU lru :: calls) w'
  | addMRU {calls w w' lru key value entry} : Reach calls w →
      w.addMRU lru key value = some (w', entry) → Reach (.addMRU lru entry :: calls) w'
  | takeOwnershipOfEntryMRU {calls w w' lru entry previous} : Reach calls w →
      entry ∈ lists calls previous → previous ≠ lru →
      w.takeOwnershipOfEntryMRU lru entry = some w' →
      Reach (.takeOwnershipOfEntryMRU lru entry :: calls) w'
  | updateMRU {calls w w' lru entry value} : Reach calls w → entry ∈ lists calls lru →
      w.updateMRU lru entry value = some w' → Reach (.updateMRU lru entry :: calls) w'
  | delete {calls w w' lru entry} : Reach calls w → entry ∈ lists calls lru →
      w.delete lru entry = some w' → Reach (.delete lru entry :: calls) w'
  | onHit {calls w w' lru entry} : Reach calls w → entry ∈ lists calls lru →
      w.onHit lru entry = some w' → Reach (.onHit lru entry :: calls) w'

@[simp] theorem lists_nil : lists [] = fun _ => [] := rfl

@[simp] theorem lists_cons (call : Call) (calls : List Call) :
    lists (call :: calls) = call.apply (lists calls) := rfl

end RelStorage
