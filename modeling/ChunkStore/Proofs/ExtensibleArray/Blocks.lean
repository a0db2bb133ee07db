import ChunkStore.Proofs.ExtensibleArray.Lookup
import ChunkStore.Proofs.Index.Elements
import ChunkStore.Proofs.Placed

/-!
# The entries of a data block

A data block that is not kept in pages has its entries behind its front (`dataBlock`), and entry
`offset` is the one in the bytes there (`answers_entryInBlock`). The pages of another data block
come after its front, one like the other, each with a checksum of its own, and an entry is the one
in the bytes of its page (`answers_entryInBlock_of_page`). Both hold in every state of a handle that
keeps nothing else at the address (`KeepsOnly`).
-/

namespace ChunkStore.Index.ExtensibleArray

open Session ChunkStore.Parser

variable {image : Image} {s : Settings} {address : Nat} {h : Header} {x y : ExtensibleArray}
variable {entries own offset : Nat} {raw : Bytes}

/-! ## Entries in their bytes -/

/-- The entries of the array are as wide as those of the dataset. -/
def Header.Fits (s : Settings) (h : Header) : Prop :=
  arrayElementSize s h.entrySize = .ok h.entrySize

theorem ensures_fits (s : Settings) (address : Nat) (bytes : Bytes) :
    Ensures (headerParser s address bytes) (Header.Fits s) := by
  refine .bind_any fun _ => .bind_any fun _ => .bind_any fun _ => .bind_any fun width => ?_
  refine (Ensures.lift fun entrySize fits => fits).bind fun entrySize fits => ?_
  obtain ⟨rfl, -⟩ := width_of_arrayElementSize fits
  refine .bind_any fun _ => .bind_any fun _ => .bind_any fun _ => .bind_any fun _ => ?_
  refine .bind_any fun _ => .guard fun _ => .guard fun _ => .bind_any fun _ => ?_
  refine .bind_any fun _ => .bind_any fun _ => .bind_any fun _ => .bind_any fun _ => ?_
  exact .bind_any fun _ => .bind_any fun _ => .pure fits

theorem fits_of_headerAt (found : headerAt image s address = .ok h) : h.Fits s := by
  rw [headerAt, recallHeader, fst_runOn_recallOne image _ rfl] at found
  refine Meets.of_eq_ok found ((Meets.any _).bind fun bytes _ => ?_)
  exact .ofExcept fun h done => (ensures_fits s address bytes).parse done

/-- The entries are found again one by one. -/
theorem getD_map_entryOf {count width i : Nat} (inside : i < count) :
    ((takeChunks width count raw).map (entryOf s)).getD i .undefined =
      entryOf s (slice raw (i * width) width) := by
  rw [List.getD_eq_getElem?_getD, List.getElem?_map, getElem?_takeChunks, if_pos inside]
  rfl

/-! ## A data block that is not kept in pages -/

/-- What the data blocks of the array with its header at `address` open with. -/
def blockFront (s : Settings) (address : Nat) : Bytes :=
  "EADB".toUTF8.toList ++ ([0] ++ ([UInt8.ofNat s.filtered.toNat] ++
    LittleEndian.encode s.offsetSize address))

/-- A data block with the entries `raw`; `place` is where in the array they are. -/
def dataBlock (s : Settings) (address : Nat) (place raw : Bytes) : Bytes :=
  withChecksum (blockFront s address ++ (place ++ raw))

theorem length_signature : "EADB".toUTF8.toList.length = 4 := by decide +kernel

theorem length_blockFront (s : Settings) (address : Nat) :
    (blockFront s address).length = 6 + s.offsetSize := by
  simp only [blockFront, List.length_append, LittleEndian.length_encode, length_signature,
    List.length_cons, List.length_nil]
  omega

theorem length_dataBlock (s : Settings) (address : Nat) {place : Bytes}
    (room : place.length = h.offsetWidth) :
    (dataBlock s address place raw).length = h.blockOverhead s.offsetSize + raw.length := by
  rw [dataBlock, length_withChecksum, List.length_append, List.length_append, length_blockFront,
    room, Header.blockOverhead]
  omega

theorem reads_blockStart (addressable : Addressable s.widths address) (n : Nat) :
    Reads (blockStart s "EADB" .extensibleArrayDataBlock address) n (blockFront s address) () := by
  have client : ∀ n, Reads (s.client .extensibleArrayDataBlock) n
      [UInt8.ofNat s.filtered.toNat] () := by
    refine fun n => .bind_last (.uint_one _) (.ite_neg (fun differ => differ ?_) (.pure ()))
    cases s.filtered <;> rfl
  refine .bind (.signature length_signature) (.bind (.version 0 _) (.bind (client _) ?_))
  exact .bind_last (.address addressable) (.ite_neg (fun differ => differ rfl) (.pure ()))

theorem parse_dataBlock (fits : h.Fits s) (addressable : Addressable s.widths address)
    {place : Bytes} (room : place.length = h.offsetWidth)
    (whole : raw.length = entries * h.entrySize)
    (short : (dataBlock s address place raw).length ≤ maxWord) (own : Nat) :
    (dataBlockParser s address h (entries * h.entrySize) own (dataBlock s address place raw)).parse
      (dataBlock s address place raw) =
        .ok ((takeChunks h.entrySize entries raw).map (entryOf s)) := by
  rw [dataBlock, length_withChecksum] at short
  generalize image : dataBlock s address place raw = bytes
  conv => lhs; arg 2; rw [← image, dataBlock, withChecksum]
  refine Reads.parse ?_ _
  refine .bind (reads_blockStart addressable 0) (.bind (.skip room) ?_)
  refine .bind_last (.take whole) (.bind_nil .position (.bind_nil (a := ()) (.lift ?_) (.lift ?_)))
  · rw [← image, dataBlock]
    refine check_withChecksum s _ own ?_ short
    rw [List.length_append, List.length_append, Nat.zero_add, Nat.add_assoc]
  · exact arrayElements_eq fits whole

/-- The memo keeps nothing else at an address. -/
def KeepsOnly {α : Type} (memo : Memo α) (address : Nat) (item : α) : Prop :=
  ∀ held, memo.get? address = some held → held = item

theorem keepsOnly_insert {α : Type} (memo : Memo α) (address : Nat) (item : α) :
    KeepsOnly (memo.insert address item) address item := by
  intro held found
  rw [Memo.get?_insert, if_pos rfl] at found
  exact (Option.some.inj found).symm

/-- A data block is recalled as the entries in its bytes. -/
theorem answers_recallDataBlock (opening : x.opening = (s, address)) (fits : h.Fits s)
    (addressable : Addressable s.widths address) (bound : image.length ≤ maxWord) {place : Bytes}
    (room : place.length = h.offsetWidth) (whole : raw.length = entries * h.entrySize)
    (placed : Placed image own (dataBlock s address place raw)) :
    Answers image
      (fun y => KeepsOnly y.dataBlocks own ((takeChunks h.entrySize entries raw).map (entryOf s)))
      (x.recallDataBlock h entries own) ((takeChunks h.entrySize entries raw).map (entryOf s)) := by
  obtain ⟨rfl, rfl⟩ : x.settings = s ∧ x.address = address := Prod.ext_iff.1 opening
  have length : (dataBlock x.settings x.address place raw).length = _ := length_dataBlock _ _ room
  have inside := placed.le
  have span : byteSpan entries h.entrySize .extensibleArrayDataBlock =
      .ok (entries * h.entrySize) := by
    rw [byteSpan, checked, if_pos (by omega)]
  refine Memo.answers_recallAt image (fun y held keeps => keeps held) ?_ ?_
  · exact fun y _ => keepsOnly_insert y.dataBlocks own _
  · refine .bind (.ofExcept span) (.bind (.fetch (placed.read ?_)) (.ofExcept ?_))
    · rw [saturate_of_le (by omega), length, whole]
    · exact parse_dataBlock fits addressable room whole (by omega) own

/-- An entry of a data block that is not kept in pages is the one in the bytes at its place. -/
theorem answers_entryInBlock (header : headerAt image s address = .ok h)
    (opening : x.opening = (s, address)) (addressable : Addressable s.widths address)
    (bound : image.length ≤ maxWord) {place : Bytes} (room : place.length = h.offsetWidth)
    (whole : raw.length = entries * h.entrySize)
    (placed : Placed image own (dataBlock s address place raw))
    (unpaged : entries ≤ 2 ^ h.pageBits) (inside : offset < entries) :
    Answers image
      (fun y => KeepsOnly y.dataBlocks own ((takeChunks h.entrySize entries raw).map (entryOf s)))
      (entryInBlock x h entries own offset)
      (entryOf s (slice raw (offset * h.entrySize) h.entrySize)) := by
  have fits := fits_of_headerAt header
  rw [entryInBlock, if_neg (Nat.not_lt.2 unpaged), ← getD_map_entryOf inside]
  exact .bind (answers_recallDataBlock opening fits addressable bound room whole placed) (.pure _)

/-! ## Pages -/

/-- Where a page of the data block at `own` begins. -/
def pageAddress (s : Settings) (h : Header) (own page : Nat) : Nat :=
  own + h.blockOverhead s.offsetSize + page * (2 ^ h.pageBits * h.entrySize + 4)

/-- A page is recalled as the entries in its bytes. -/
theorem answers_recallPage (opening : x.opening = (s, address)) (fits : h.Fits s)
    (bound : image.length ≤ maxWord) (same : h.pageEntries = 2 ^ h.pageBits) {page : Nat}
    (whole : raw.length = 2 ^ h.pageBits * h.entrySize)
    (placed : Placed image (pageAddress s h own page) (withChecksum raw)) :
    Answers image
      (fun y => KeepsOnly y.pages (pageAddress s h own page)
        ((takeChunks h.entrySize (2 ^ h.pageBits) raw).map (entryOf s)))
      (x.recallPage h own page)
      ((takeChunks h.entrySize (2 ^ h.pageBits) raw).map (entryOf s)) := by
  obtain ⟨rfl, rfl⟩ : x.settings = s ∧ x.address = address := Prod.ext_iff.1 opening
  have inside := placed.le
  rw [length_withChecksum, pageAddress, whole] at inside
  have stride : h.pageStride = 2 ^ h.pageBits * h.entrySize + 4 := by
    rw [Header.pageStride, same, saturate_of_le (n := _ * _) (by omega), saturate_of_le (by omega)]
  have here : saturate (saturate (own + h.blockOverhead x.settings.offsetSize) +
      saturate (page * h.pageStride)) = pageAddress x.settings h own page := by
    rw [stride, saturate_of_le (n := own + _) (by omega), saturate_of_le (n := page * _) (by omega),
      saturate_of_le (by omega), pageAddress]
  rw [recallPage, here, same]
  refine Memo.answers_recallAt image (fun y held keeps => keeps held) ?_ ?_
  · exact fun y _ => keepsOnly_insert y.pages _ _
  · exact answers_pageEntries placed whole bound (arrayElements_eq fits whole)

/-- An entry of a data block that is kept in pages is the one in the bytes at its place in its
page. -/
theorem answers_entryInBlock_of_page (header : headerAt image s address = .ok h)
    (opening : x.opening = (s, address)) (bound : image.length ≤ maxWord)
    (whole : raw.length = 2 ^ h.pageBits * h.entrySize)
    (placed : Placed image (pageAddress s h own (offset / 2 ^ h.pageBits)) (withChecksum raw))
    (few : entries < 2 ^ 63) (paged : 2 ^ h.pageBits < entries) :
    Answers image
      (fun y => KeepsOnly y.pages (pageAddress s h own (offset / 2 ^ h.pageBits))
        ((takeChunks h.entrySize (2 ^ h.pageBits) raw).map (entryOf s)))
      (entryInBlock x h entries own offset)
      (entryOf s (slice raw (offset % 2 ^ h.pageBits * h.entrySize) h.entrySize)) := by
  have inPage : offset % 2 ^ h.pageBits < 2 ^ h.pageBits := Nat.mod_lt _ (Nat.two_pow_pos _)
  have same := pageEntries_of_lt few paged
  have fits := fits_of_headerAt header
  rw [entryInBlock, if_pos paged, ← getD_map_entryOf inPage]
  exact .bind (answers_recallPage opening fits bound same whole placed) (.pure _)

end ChunkStore.Index.ExtensibleArray
