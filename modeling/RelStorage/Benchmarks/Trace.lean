import Mathlib

namespace RelStorage

/-- `struct.unpack(">I", word)[0]`: an unsigned 32-bit word, most significant byte first. -/
def unpackUInt32BE (b0 b1 b2 b3 : UInt8) : Nat :=
  ((b0.toNat * 256 + b1.toNat) * 256 + b2.toNat) * 256 + b3.toNat

/-- The words of the first loop of `_read_binary_records`: `f.read(4)` until it returns
nothing, each read unpacked; a last read of one to three bytes makes `struct.unpack` raise
`struct.error` (none). -/
def unpackWords : List UInt8 → Option (List Nat)
  | [] => some []
  | b0 :: b1 :: b2 :: b3 :: rest => (unpackWords rest).map (unpackUInt32BE b0 b1 b2 b3 :: ·)
  | _ => none

/-- The `keys` of `_read_binary_records`: each word numbered from 0 and written in decimal
(`str(key)`). -/
def readBinaryKeys (data : List UInt8) : Option (List (Nat × String)) :=
  (unpackWords data).map fun words => words.enum.map fun (i, key) => (i, toString key)

/-- Modelled from the trace format the reader expects: a key as the four bytes
`struct.pack(">I", key)` writes. -/
def packUInt32BE (key : Nat) : List UInt8 :=
  [(key / 2 ^ 24).toUInt8, (key / 2 ^ 16).toUInt8, (key / 2 ^ 8).toUInt8, key.toUInt8]

theorem toNat_toUInt8 (n : Nat) : n.toUInt8.toNat = n % 256 := by
  simp [UInt8.toNat, UInt8.ofNat]

theorem unpack_packUInt32BE {key : Nat} (small : key < 2 ^ 32) :
    unpackUInt32BE (key / 2 ^ 24).toUInt8 (key / 2 ^ 16).toUInt8 (key / 2 ^ 8).toUInt8
      key.toUInt8 = key := by
  simp only [unpackUInt32BE, toNat_toUInt8]
  omega

theorem packUInt32BE_unpack (b0 b1 b2 b3 : UInt8) :
    packUInt32BE (unpackUInt32BE b0 b1 b2 b3) = [b0, b1, b2, b3] ∧
      unpackUInt32BE b0 b1 b2 b3 < 2 ^ 32 := by
  have bounds := And.intro (UInt8.toNat_lt b0) (And.intro (UInt8.toNat_lt b1)
    (And.intro (UInt8.toNat_lt b2) (UInt8.toNat_lt b3)))
  simp only [packUInt32BE, unpackUInt32BE, List.cons.injEq, UInt8.ext_iff, toNat_toUInt8, and_true]
  omega

theorem unpackWords_pack (keys : List Nat) (small : ∀ key ∈ keys, key < 2 ^ 32) :
    unpackWords (keys.flatMap packUInt32BE) = some keys := by
  induction keys with
  | nil => rfl
  | cons key keys ih =>
    rw [List.flatMap_cons, packUInt32BE, List.cons_append, List.cons_append, List.cons_append,
      List.cons_append, List.nil_append, unpackWords, ih fun k member => small k (List.mem_cons_of_mem _ member), Option.map_some',
      unpack_packUInt32BE (small key (List.mem_cons_self _ _))]

theorem pack_unpackWords : ∀ {data : List UInt8} {keys : List Nat}, unpackWords data = some keys →
    keys.flatMap packUInt32BE = data ∧ ∀ key ∈ keys, key < 2 ^ 32
  | [], _, read => by
    cases read
    simp
  | [_], _, read | [_, _], _, read | [_, _, _], _, read => by simp [unpackWords] at read
  | b0 :: b1 :: b2 :: b3 :: rest, _, read => by
    simp only [unpackWords, Option.map_eq_some'] at read
    obtain ⟨words, rest', rfl⟩ := read
    obtain ⟨packed, small⟩ := pack_unpackWords rest'
    obtain ⟨word, wordSmall⟩ := packUInt32BE_unpack b0 b1 b2 b3
    refine ⟨by rw [List.flatMap_cons, word, packed]; rfl, fun key member => ?_⟩
    rcases List.mem_cons.mp member with rfl | later
    · exact wordSmall
    · exact small key later

theorem unpackWords_isSome_iff : ∀ data : List UInt8, (unpackWords data).isSome ↔ data.length % 4 = 0
  | [] | [_] | [_, _] | [_, _, _] => by simp [unpackWords]
  | b0 :: b1 :: b2 :: b3 :: rest => by
    simp only [unpackWords, Option.isSome_map', unpackWords_isSome_iff rest, List.length_cons]
    omega

/-- `_read_binary_records` reads the keys of a binary trace exactly when its length is a
multiple of four, and otherwise `struct.unpack` raises on the short tail. The keys it reads
are the file's 4-byte big-endian words, in order, below 2^32, and writing any keys below 2^32
in that format reads them back, numbered from 0 and in decimal. -/
theorem readBinaryKeys_round_trip :
    (∀ data : List UInt8, (readBinaryKeys data).isSome ↔ data.length % 4 = 0) ∧
    (∀ (data : List UInt8) (keys : List Nat), unpackWords data = some keys →
      keys.flatMap packUInt32BE = data ∧ ∀ key ∈ keys, key < 2 ^ 32) ∧
    ∀ keys : List Nat, (∀ key ∈ keys, key < 2 ^ 32) →
      readBinaryKeys (keys.flatMap packUInt32BE) =
        some (keys.enum.map fun (i, key) => (i, toString key)) := by
  refine ⟨fun data => ?_, fun data keys read => pack_unpackWords read, fun keys small => ?_⟩
  · rw [readBinaryKeys, Option.isSome_map', unpackWords_isSome_iff]
  · rw [readBinaryKeys, unpackWords_pack keys small, Option.map_some']

end RelStorage
