import ChunkStore.Proofs.Parser
import ChunkStore.Proofs.Placed
import ChunkStore.Proofs.Session

/-!
# Entries of arrays

Arrays keep descriptors one after another, in as many bytes each as the header says. `entryOf` is
the descriptor that so many bytes are: every byte string of whole entries is read as those of its
runs (`arrayElements_eq`), if the width fits the dataset. A structure passes under the checksum that
was written after it (`check_withChecksum`), so a page is read as its entries
(`answers_pageEntries`).
-/

namespace ChunkStore.Index

open ChunkStore.Parser

variable {s : Settings} {width : Nat}

theorem check_withChecksum (s : Settings) {bytes : Bytes} {covered : Nat} (part : Part)
    (address : Nat) (all : covered = bytes.length) (fits : bytes.length + 4 ≤ maxWord) :
    s.check (withChecksum bytes) covered part address = .ok () := by
  unfold Settings.check
  split
  · exact verifyChecksum_withChecksum part address all fits
  · rfl

/-- The entry in so many bytes: an address and, for a filtered dataset, a size and a filter mask. -/
def entryOf (s : Settings) (raw : Bytes) : Descriptor :=
  let address := addressOf (raw.take s.offsetSize)
  let sizeLength := raw.length - (s.offsetSize + 4)
  if s.filtered then
    Settings.stored address (LittleEndian.decode (slice raw s.offsetSize sizeLength))
      (UInt32.ofNat (LittleEndian.decode (raw.drop (s.offsetSize + sizeLength))))
  else s.plain address

/-- An entry has as many bytes as the dataset gives it, and a filtered one up to eight for the
stored size. -/
theorem width_of_arrayElementSize {found : Nat} (fits : arrayElementSize s width = .ok found) :
    width = found ∧ if s.filtered then s.offsetSize + 4 < width ∧ width ≤ s.offsetSize + 12
      else width = s.offsetSize := by
  by_cases holds : if s.filtered then s.offsetSize + 4 < width ∧ width ≤ s.offsetSize + 12
      else width = s.offsetSize
  · rw [arrayElementSize, if_pos holds] at fits
    exact ⟨Except.ok.inj fits, holds⟩
  · rw [arrayElementSize, if_neg holds] at fits
    cases fits

theorem pos_of_arrayElementSize (fits : arrayElementSize s width = .ok width) : 0 < width := by
  have pos : 0 < s.offsetSize := s.widths.offset.bytes_pos
  have range := (width_of_arrayElementSize fits).2
  split at range
  all_goals omega

theorem reads_arrayElement (fits : arrayElementSize s width = .ok width) {n : Nat} {raw : Bytes}
    (whole : raw.length = width) : Reads (arrayElement s width) n raw (entryOf s raw) := by
  have range := (width_of_arrayElementSize fits).2
  cases filtered : s.filtered with
  | false =>
    rw [if_neg (by simp [filtered])] at range
    have all : raw.take s.offsetSize = raw := List.take_of_length_le (by omega)
    rw [arrayElement, entryOf, filtered, all]
    exact .bind_last (.rawAddress (whole.trans range)) (.pure _)
  | true =>
    rw [if_pos filtered] at range
    -- what is left between the address and the mask is the stored size
    obtain ⟨k, hk⟩ : ∃ k, width - (s.offsetSize + 4) = k := ⟨_, rfl⟩
    have size : (slice raw s.offsetSize k).length = k := length_slice (by omega)
    have mask : (raw.drop (s.offsetSize + k)).length = 4 := by
      rw [List.length_drop]
      omega
    have read : Reads (arrayElement s width) n
        (raw.take s.offsetSize ++ (slice raw s.offsetSize k ++ raw.drop (s.offsetSize + k)))
        (entryOf s raw) := by
      rw [arrayElement, entryOf, filtered, whole, hk]
      refine .bind (.rawAddress (List.length_take_of_le (by show s.offsetSize ≤ _; omega))) ?_
      refine .ite_neg (by simp) (.ite_neg (by omega) ?_)
      refine .bind (.uint size (by omega)) (.bind_pure _ ?_)
      exact .bind_pure UInt32.ofNat (.uint mask (by decide))
    rwa [slice_append_drop, List.take_append_drop] at read

/-- Whole entries are read run by run. -/
theorem arrayElements_eq (fits : arrayElementSize s width = .ok width) {count : Nat} {raw : Bytes}
    (whole : raw.length = count * width) :
    arrayElements s width raw = .ok ((takeChunks width count raw).map (entryOf s)) := by
  have pos := pos_of_arrayElementSize fits
  rw [arrayElements, if_neg pos.ne', chunksExact, whole, Nat.mul_div_cancel _ pos, mapM_eq_ok_iff,
    List.forall₂_map_right_iff, List.forall₂_same]
  intro run mem
  have read := (reads_arrayElement (n := 0) fits
    (length_of_mem_takeChunks whole.ge run mem)).parse []
  rwa [List.append_nil] at read

/-- A page with its checksum is read as its entries, in every state. -/
theorem answers_pageEntries {σ : Type} {inv : σ → Prop} {file : Image} {part : Part}
    {address count width : Nat} {raw : Bytes} {entries : List Descriptor}
    (placed : Placed file address (withChecksum raw)) (size : raw.length = count * width)
    (bound : file.length ≤ maxWord) (decoded : arrayElements s width raw = .ok entries) :
    Session.Answers file inv (Index.pageEntries s part address count width) entries := by
  have inside := placed.le
  rw [length_withChecksum] at inside
  have span : byteSpan count width part = .ok raw.length := by
    rw [byteSpan, ← size, checked, if_pos (by omega)]
  refine .bind (.ofExcept span) (.bind (.fetch (placed.read ?_)) (.ofExcept ?_))
  · rw [length_withChecksum, saturate_of_le (by omega)]
  · have front : Bounds.run (withChecksum raw) 0 raw.length = .ok raw := by
      rw [Bounds.run_eq_ok_iff, length_withChecksum]
      exact ⟨by omega, List.take_left⟩
    rw [check_withChecksum s part address rfl (by omega), front]
    exact decoded

end ChunkStore.Index
