import ChunkStore.Proofs.ByteWidths
import ChunkStore.Proofs.FixedArray.Fields
import ChunkStore.Proofs.FixedArray.Lookup

/-!
# Stored sizes of a builder made for a grid

The field of stored sizes has one byte more than a chunk's bytes take, so in a builder that is made
for a grid (`ofGeometry`) it is wide enough for filters that make a chunk up to 256 times as long
(`takes_of_setAll`). The width of an entry follows from it, and the reader accepts every width that
comes about so (`byte_widths_agree`).
-/

namespace ChunkStore.FixedArrayBuilder

open Index Index.FixedArray

variable {widths : FileWidths} {g : Geometry} {filtered : Bool} {pageBits : UInt8}
  {empty : FixedArrayBuilder}

/-- The width of an entry follows the signature, the version and the client. -/
theorem getElem?_image (b : FixedArrayBuilder) (address : Nat) :
    (b.image address)[6]? = some (UInt8.ofNat b.entrySize) := by
  have signature : headerSignature = [70, 65, 72, 68] := by decide +kernel
  rw [image, header, signature]
  rfl

section Made

variable (started : ofGeometry widths g filtered pageBits = .ok empty)

include started

theorem widths_setAll (sets : List (Nat × Descriptor)) : (empty.setAll sets).widths = widths := by
  obtain ⟨count, -, rfl⟩ := ofGeometry_eq_ok started
  exact (setAll_frame _ sets).1

theorem sizeLength_setAll (sets : List (Nat × Descriptor)) : (empty.setAll sets).sizeLength =
    if filtered then some (chunkSizeLength g.chunkBytes) else none := by
  obtain ⟨count, -, rfl⟩ := ofGeometry_eq_ok started
  exact (setAll_frame _ sets).2.2.1

theorem sizeLength_le_of_setAll (sets : List (Nat × Descriptor)) :
    ∀ n, (empty.setAll sets).sizeLength = some n → 1 ≤ n ∧ n ≤ 8 := by
  rw [sizeLength_setAll started]
  intro n given
  split at given
  · cases given
    exact chunkSizeLength_le _
  · cases given

/-- What is not set has no size, and what is set may be 256 times as long as a chunk. -/
theorem takes_of_setAll {sets : List (Nat × Descriptor)}
    (grown : ∀ p ∈ sets, p.2.storedSize ≤ maxWord ∧ p.2.storedSize ≤ 256 * g.chunkBytes)
    {d : Descriptor} (mem : d ∈ (empty.setAll sets).entries) :
    d.storedSize ≤ maxWord ∧ (empty.setAll sets).Takes d := by
  have bounds : d.storedSize ≤ maxWord ∧ d.storedSize ≤ 256 * g.chunkBytes := by
    rcases mem_entries_setAll mem with old | ⟨p, new, rfl⟩
    · obtain ⟨count, -, rfl⟩ := ofGeometry_eq_ok started
      obtain rfl : d = .undefined := List.eq_of_mem_replicate old
      exact ⟨Nat.zero_le _, Nat.zero_le _⟩
    · exact grown p new
  refine ⟨bounds.1, fun n given => ?_⟩
  rw [sizeLength_setAll started] at given
  split at given
  · cases given
    exact lt_pow_chunkSizeLength bounds.1 bounds.2
  · cases given

/-- The width of an entry, as its byte gives it, suits a reader of the same dataset. -/
theorem arrayElementSize_of_setAll (sets : List (Nat × Descriptor)) {s : Settings}
    (sameWidths : s.widths = widths) (sameFilters : s.filtered = filtered) :
    arrayElementSize s (UInt8.ofNat (empty.setAll sets).entrySize).toNat =
      .ok (UInt8.ofNat (empty.setAll sets).entrySize).toNat := by
  have narrow := sizeLength_le_of_setAll started sets
  have readBy : (empty.setAll sets).ReadBy s := by
    refine ⟨sameWidths.trans (widths_setAll started sets).symm, ?_⟩
    rw [sizeLength_setAll started, sameFilters]
    cases filtered <;> rfl
  have small := entrySize_le_of_narrow fun n given => (narrow n given).2
  rw [UInt8.toNat_ofNat_of_lt' (Nat.lt_succ_of_le small)]
  exact arrayElementSize_entrySize readBy narrow

end Made

/-- Of the counts of one to eight bytes `minByteCount` is the least one that holds a 64-bit number,
`limitSize` is the same, and `chunkSizeLength` is one more, eight at most. Therefore a builder that
is made for a grid gives an image, wherever its header ends within 64 bits, whatever was set in it
with stored sizes of at most 256 times the bytes of a chunk; and the width of an entry that stands
in the image is accepted by every reader of such a dataset. -/
theorem byte_widths_agree :
    (∀ v ≤ maxWord, IsLeast {n | 1 ≤ n ∧ n ≤ 8 ∧ v < 256 ^ n} (minByteCount v) ∧
      TreeTwo.limitSize v = minByteCount v ∧ chunkSizeLength v = min 8 (minByteCount v + 1)) ∧
    ∀ (widths : FileWidths) (g : Geometry) (filtered : Bool) (pageBits : UInt8)
      (empty : FixedArrayBuilder), ofGeometry widths g filtered pageBits = .ok empty →
      ∀ sets : List (Nat × Descriptor),
        (∀ p ∈ sets, p.2.storedSize ≤ maxWord ∧ p.2.storedSize ≤ 256 * g.chunkBytes) →
        ∀ address,
          ((∃ raw, (empty.setAll sets).build address = .ok raw) ↔
            address + headerLength widths ≤ maxWord) ∧
          ∀ raw, (empty.setAll sets).build address = .ok raw →
            ∃ width : UInt8, raw[6]? = some width ∧
              ∀ s : Settings, s.widths = widths → s.filtered = filtered →
                arrayElementSize s width.toNat = .ok width.toNat := by
  refine ⟨fun v word => ?_, fun widths g filtered pageBits empty started sets grown address => ?_⟩
  · exact ⟨isLeast_minByteCount word, TreeTwo.limitSize_eq_minByteCount v, chunkSizeLength_eq v⟩
  have builds {raw : Bytes} : (empty.setAll sets).build address = .ok raw ↔ _ :=
    build_eq_ok_iff (fun n given => (sizeLength_le_of_setAll started sets n given).2)
      fun d mem => (takes_of_setAll started grown mem).1
  simp only [widths_setAll started sets] at builds
  constructor
  · constructor
    · rintro ⟨raw, built⟩
      exact (builds.1 built).1
    · intro room
      exact ⟨_, builds.2 ⟨room, fun d mem => (takes_of_setAll started grown mem).2, rfl⟩⟩
  · intro raw built
    obtain ⟨-, -, rfl⟩ := builds.1 built
    exact ⟨_, getElem?_image _ address, fun s sameWidths sameFilters =>
      arrayElementSize_of_setAll started sets sameWidths sameFilters⟩

/-- A number that takes eight bytes has no byte more for its stored size; and chunks of 256 bytes
that filters have made 256 times as long take all of their three bytes. -/
theorem byte_widths_agree_at_power :
    IsLeast {n | 1 ≤ n ∧ n ≤ 8 ∧ 256 ^ 7 < 256 ^ n} (minByteCount (256 ^ 7)) ∧
      TreeTwo.limitSize (256 ^ 7) = 8 ∧ chunkSizeLength (256 ^ 7) = 8 ∧
    ∃ empty raw, ofGeometry ⟨.two, .two⟩ ⟨[2], [2], 256⟩ true 10 = .ok empty ∧
      (empty.setAll [(1, ⟨16, 65536, 0⟩)]).build 16 = .ok raw ∧ raw[6]? = some 9 ∧
      arrayElementSize ⟨⟨.two, .two⟩, ⟨[2], [2], 256⟩, [256], 1, true, true⟩ 9 = .ok 9 := by
  obtain ⟨least, same, more⟩ := byte_widths_agree.1 (256 ^ 7) (by decide)
  have eight : minByteCount (256 ^ 7) = 8 := by decide
  have started : ofGeometry ⟨.two, .two⟩ ⟨[2], [2], 256⟩ true 10 =
    .ok (ofCount ⟨.two, .two⟩ 2 10 (some 3)) := rfl
  obtain ⟨builds, accepts⟩ := byte_widths_agree.2 _ _ _ _ _ started [(1, ⟨16, 65536, 0⟩)]
    (by decide) 16
  obtain ⟨raw, built⟩ := builds.2 (by decide)
  obtain ⟨width, stands, accepted⟩ := accepts raw built
  have nine : raw[6]? = some 9 := by
    obtain ⟨-, -, rfl⟩ := (build_eq_ok_iff (by rintro n ⟨⟩; decide) (by decide)).1 built
    exact getElem?_image _ 16
  obtain rfl : width = 9 := Option.some.inj (stands.symm.trans nine)
  exact ⟨least, same.trans eight, by rw [more, eight]; rfl, _, raw, started, built, nine,
    accepted _ rfl rfl⟩

end ChunkStore.FixedArrayBuilder
