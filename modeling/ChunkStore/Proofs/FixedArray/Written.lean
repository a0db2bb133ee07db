import ChunkStore.Proofs.Bitmap
import ChunkStore.Proofs.Index.Elements
import ChunkStore.Proofs.Placed
import ChunkStore.Proofs.Results
import ChunkStore.Proofs.Session
import ChunkStore.Writer

/-!
# What a builder writes, read back piece by piece

The header (`parse_header`), the data block (`parse_block`) and the entries (`arrayElements_encode`)
that a `FixedArrayBuilder` writes are read back by the parsers of the fixed array, under settings
that fit the builder (`ReadBy`), as long as the fields are wide enough (`Fits`).
`build_cases` says how the pieces follow one another, and `markPages_eq` which pages the bitmap of a
data block marks.
-/

namespace ChunkStore

namespace Index.Settings

/-- What a lookup gives for a descriptor that was written: an unfiltered array keeps only the
address. -/
def readBack (s : Settings) (d : Descriptor) : Descriptor :=
  if s.filtered then stored d.address d.storedSize d.filterMask else s.plain d.address

@[simp] theorem readBack_undefined (s : Settings) : s.readBack .undefined = .undefined := by
  unfold readBack stored plain
  split <;> exact if_pos rfl

theorem readBack_of_not_isAllocated (s : Settings) {d : Descriptor}
    (free : d.isAllocated = false) : s.readBack d = .undefined := by
  have nowhere : d.address = undefinedAddress := by
    simpa only [Descriptor.isAllocated, decide_eq_false_iff_not, Classical.not_not] using free
  simp only [readBack, stored, plain, if_pos nowhere, ite_self]

theorem readBack_of_isAllocated (s : Settings) {d : Descriptor} (somewhere : d.isAllocated = true) :
    s.readBack d = if s.filtered then d else ⟨d.address, s.geometry.chunkBytes, 0⟩ := by
  have other : d.address ≠ undefinedAddress := of_decide_eq_true somewhere
  rw [readBack, stored, plain, if_neg other, if_neg other]

/-- What is read back at a place where there is something. -/
theorem getD_map_readBack (s : Settings) (ds : List Descriptor) (i : Nat) :
    (ds.map s.readBack).getD i .undefined = s.readBack (ds.getD i .undefined) := by
  rw [List.getD_eq_getElem?_getD, List.getD_eq_getElem?_getD, List.getElem?_map]
  cases ds[i]? with
  | none => exact s.readBack_undefined.symm
  | some d => rfl

end Index.Settings

namespace FixedArrayBuilder

open Index Index.FixedArray ChunkStore.Parser

/-- The settings describe the dataset of the builder. -/
structure ReadBy (b : FixedArrayBuilder) (s : Settings) : Prop where
  widths : s.widths = b.widths
  filtered : s.filtered = b.sizeLength.isSome

/-- The fields of the array are wide enough for what the builder holds. -/
structure Fits (b : FixedArrayBuilder) : Prop where
  count : b.entries.length < 256 ^ b.widths.lengthSize
  sizeLength : ∀ n, b.sizeLength = some n → 1 ≤ n ∧ n ≤ 8
  addresses : ∀ d ∈ b.entries, Addressable b.widths d.address
  sizes : ∀ d ∈ b.entries, d.storedSize ≤ maxWord

variable {b : FixedArrayBuilder} {s : Settings}

theorem client_toNat (readBy : b.ReadBy s) : b.client.toNat = s.filtered.toNat := by
  rw [client, readBy.filtered]
  cases b.sizeLength.isSome <;> rfl

theorem entrySize_le (fits : b.Fits) : 0 < b.entrySize ∧ b.entrySize ≤ 20 := by
  have wide : b.widths.offsetSize ≤ 8 := b.widths.offset.bytes_le
  have pos : 0 < b.widths.offsetSize := b.widths.offset.bytes_pos
  cases found : b.sizeLength with
  | none =>
    simp only [entrySize, found]
    omega
  | some n =>
    have narrow := fits.sizeLength n found
    simp only [entrySize, found]
    omega

theorem arrayElementSize_entrySize (readBy : b.ReadBy s)
    (sizeLength : ∀ n, b.sizeLength = some n → 1 ≤ n ∧ n ≤ 8) :
    arrayElementSize s b.entrySize = .ok b.entrySize := by
  refine if_pos ?_
  rw [readBy.filtered, Settings.offsetSize, readBy.widths]
  cases found : b.sizeLength with
  | none => simp [entrySize, found]
  | some n =>
    have narrow := sizeLength n found
    simp only [entrySize, found, Option.isSome_some, if_true]
    omega

/-! ## The bitmap of pages -/

/-- One bit per page: whether it has an allocated chunk. -/
def bitmap (b : FixedArrayBuilder) : Bytes :=
  Bits.pack (b.pages.map fun page => page.any Descriptor.isAllocated)

theorem testBit_mark : ∀ m < 8, ∀ n < 8,
    ((0x80 : UInt8) >>> UInt8.ofNat m).toNat.testBit (7 - n) = decide (n = m) := by decide

theorem exists_setBit? {bits : Array UInt8} {i : Nat} (inside : i / 8 < bits.size) :
    ∃ next, setBit? bits i = some next ∧ next.size = bits.size ∧
      ∀ k, bitIsSet next.toList k = (bitIsSet bits.toList k || decide (k = i)) := by
  have found : setBit? bits i =
      some (bits.setIfInBounds (i / 8) (bits[i / 8] ||| 0x80 >>> UInt8.ofNat (i % 8))) := by
    rw [setBit?, Array.getElem?_eq_getElem inside]
    rfl
  refine ⟨_, found, Array.size_setIfInBounds, fun k => ?_⟩
  rw [bitIsSet, bitIsSet, Array.getElem?_toList, Array.getElem?_toList,
    Array.getElem?_setIfInBounds]
  by_cases byte : i / 8 = k / 8
  · rw [if_pos byte, if_pos inside, ← byte, Array.getElem?_eq_getElem inside]
    show (_ ||| _ : UInt8).toNat.testBit _ = _
    have place : k % 8 = i % 8 ↔ k = i := by omega
    rw [UInt8.toNat_or, Nat.testBit_or,
      testBit_mark _ (Nat.mod_lt i (by decide)) _ (Nat.mod_lt k (by decide)),
      decide_eq_decide.2 place]
  · have other : k ≠ i := by
      rintro rfl
      exact byte rfl
    rw [if_neg byte, decide_eq_false other, Bool.or_false]

theorem exists_markPage {bits : Array UInt8} {i : Nat} (inside : i / 8 < bits.size)
    (page : List Descriptor) :
    ∃ next, markPage bits page i = some next ∧ next.size = bits.size ∧ ∀ k,
      bitIsSet next.toList k =
        (bitIsSet bits.toList k || decide (k = i) && page.any Descriptor.isAllocated) := by
  rw [markPage]
  split
  next used =>
    simp only [used, Bool.and_true]
    exact exists_setBit? inside
  next unused =>
    exact ⟨bits, rfl, rfl, fun k => by simp [unused]⟩

/-- The pages from number `start` on are marked, and no others. -/
theorem exists_foldlM_markPage {pages : List (List Descriptor)} {bits : Array UInt8} {start : Nat}
    (room : start + pages.length ≤ 8 * bits.size) :
    ∃ next, (pages.zipIdx start).foldlM (fun bits (page, i) => markPage bits page i) bits =
        some next ∧ next.size = bits.size ∧ ∀ k, bitIsSet next.toList k =
          (bitIsSet bits.toList k || decide (start ≤ k) &&
            (pages.map fun page => page.any Descriptor.isAllocated).getD (k - start) false) := by
  induction pages generalizing bits start with
  | nil => exact ⟨bits, rfl, rfl, fun k => by simp⟩
  | cons page pages ih =>
    rw [List.length_cons] at room
    obtain ⟨first, marked, size, bit⟩ := @exists_markPage bits start (by omega) page
    obtain ⟨last, rest, size', bits'⟩ := @ih first (start + 1) (by omega)
    refine ⟨last, ?_, size'.trans size, fun k => ?_⟩
    · rw [List.zipIdx_cons, List.foldlM_cons]
      show markPage bits page start >>= _ = _
      rw [marked]
      exact rest
    · rw [bits', bit, Bool.or_assoc]
      congr 1
      rcases Nat.lt_trichotomy k start with before | rfl | behind
      · simp [show k ≠ start by omega, show ¬ start ≤ k by omega, show ¬ start + 1 ≤ k by omega]
      · simp
      · have place : k - start = k - (start + 1) + 1 := by omega
        simp [place, show k ≠ start by omega, show start ≤ k by omega,
          show start + 1 ≤ k by omega]

/-- The bitmap has room for all pages. -/
theorem markPages_eq (b : FixedArrayBuilder) : markPages b.pages = some b.bitmap := by
  obtain ⟨marked, done, size, bit⟩ := @exists_foldlM_markPage b.pages
    (Array.replicate ((b.pages.length + 7) / 8) 0) 0 (by rw [Array.size_replicate]; omega)
  rw [markPages, done]
  refine congrArg some (ext_bitIsSet ?_ fun k => ?_)
  · rw [Array.length_toList, size, Array.size_replicate, bitmap, Bits.length_pack, List.length_map]
  · have none : bitIsSet (List.replicate ((b.pages.length + 7) / 8) 0) k = false := by
      rw [bitIsSet, List.getElem?_replicate]
      split_ifs
      · exact Nat.zero_testBit _
      · rfl
    rw [bit, bitmap, bitIsSet_pack, Array.toList_replicate, none]
    simp

/-! ## Entries -/

theorem length_encodeEntry {d : Descriptor} {raw : Bytes} (written : b.encodeEntry d = .ok raw) :
    raw.length = b.entrySize := by
  cases found : b.sizeLength with
  | none =>
    simp only [encodeEntry, found, Except.ok.injEq] at written
    rw [← written, LittleEndian.length_encode, entrySize, found]
  | some n =>
    cases fields : filteredFields n d with
    | error e => simp [encodeEntry, found, fields, Except.map] at written
    | ok more =>
      simp only [encodeEntry, found, fields, Except.map, Except.ok.injEq] at written
      have length : more.length = n + 4 := by
        unfold filteredFields at fields
        split at fields
        · cases fields
        split at fields
        · cases fields
        cases fields
        simp only [List.length_append, LittleEndian.length_encode]
      simp only [← written, List.length_append, LittleEndian.length_encode, entrySize, found]
      omega

/-- A size that was written without an error fits into its field. -/
theorem filteredFields_eq_ok {n : Nat} {d : Descriptor} {raw : Bytes}
    (size : d.storedSize ≤ maxWord) (written : filteredFields n d = .ok raw) :
    n ≤ 8 ∧ d.storedSize < 256 ^ n ∧
      raw = LittleEndian.encode n d.storedSize ++ LittleEndian.encode 4 d.filterMask.toNat := by
  unfold filteredFields at written
  split at written
  · cases written
  · next holds =>
      split at written
      · cases written
      · next narrow =>
          cases written
          refine ⟨by omega, ?_, rfl⟩
          rw [show 256 = 2 ^ 8 from rfl, ← Nat.pow_mul]
          rcases Nat.lt_or_ge n 8 with short | whole
          · rw [Nat.one_shiftLeft] at holds
            omega
          · have eight : n = 8 := by omega
            subst eight
            exact Nat.lt_succ_of_le size

theorem parse_encodeEntry {d : Descriptor} {raw : Bytes} (readBy : b.ReadBy s)
    (fits : b.Fits) (address : Addressable b.widths d.address) (size : d.storedSize ≤ maxWord)
    (written : b.encodeEntry d = .ok raw) :
    (arrayElement s b.entrySize).parse raw = .ok (s.readBack d) := by
  have filtered := readBy.filtered
  have widths := readBy.widths
  suffices reads : Reads (arrayElement s b.entrySize) 0 raw (s.readBack d) by
    have read := reads.parse []
    rwa [List.append_nil] at read
  rw [← widths] at address
  unfold encodeEntry at written
  unfold Settings.readBack arrayElement
  cases found : b.sizeLength with
  | none =>
    rw [found] at written filtered
    cases written
    rw [← widths, filtered]
    exact .bind_last (.address address) (.ite_pos rfl (.pure _))
  | some n =>
    rw [found] at written filtered
    cases fields : filteredFields n d with
    | error e => simp [fields, Except.map] at written
    | ok more =>
      simp only [fields, Except.map, Except.ok.injEq] at written
      obtain ⟨narrow, fit, rfl⟩ := filteredFields_eq_ok size fields
      have bounds := fits.sizeLength n found
      subst written
      have width : b.entrySize = s.offsetSize + n + 4 := by
        rw [entrySize, found, Settings.offsetSize, widths]
      have field : b.entrySize - (s.offsetSize + 4) = n := by omega
      rw [← widths, filtered]
      refine Reads.bind (Reads.address address) (.ite_neg (by simp) (.ite_neg (by omega) ?_))
      rw [field]
      exact .bind (Reads.uint_encode narrow fit) (.bind_pure _ (Reads.word32 d.filterMask))

/-- Entries that were written one after another are read back in order. -/
theorem arrayElements_encode {ds : List Descriptor} {raw : Bytes} (readBy : b.ReadBy s)
    (fits : b.Fits) (held : ∀ d ∈ ds, d ∈ b.entries) (written : b.encodeEntries ds = .ok raw) :
    raw.length = ds.length * b.entrySize ∧
      arrayElements s b.entrySize raw = .ok (ds.map s.readBack) := by
  unfold encodeEntries at written
  cases each : ds.mapM b.encodeEntry with
  | error e => simp [each, Except.map] at written
  | ok raws =>
    simp only [each, Except.map, Except.ok.injEq] at written
    subst written
    have steps := mapM_eq_ok_iff.1 each
    have uniform : ∀ r ∈ raws, r.length = b.entrySize :=
      forall_of_forall₂ steps fun _ _ => length_encodeEntry
    have pos := (entrySize_le fits).1
    refine ⟨by rw [length_flatten_of_forall uniform, steps.length_eq], ?_⟩
    rw [arrayElements, if_neg (by omega), chunksExact_flatten pos uniform, mapM_eq_ok_iff,
      List.forall₂_map_right_iff]
    refine List.Forall₂.flip (((List.forall₂_and_left _ _).2 ⟨held, steps⟩).imp ?_)
    rintro d r ⟨mem, wrote⟩
    exact parse_encodeEntry readBy fits (fits.addresses d mem) (fits.sizes d mem) wrote

/-! ## The header and the data block -/

theorem reads_client (readBy : b.ReadBy s) (part : Part) (n : Nat) :
    Reads (s.client part) n [b.client] () :=
  .bind_last (.uint_one b.client) (.ite_neg (fun differ => differ (client_toNat readBy)) (.pure ()))

theorem reads_owner (readBy : b.ReadBy s) (part : Part) (n : Nat) {header : Nat}
    (fits : Addressable b.widths header) :
    Reads (s.owner header part) n (LittleEndian.encode b.widths.offsetSize header) () := by
  rw [← readBy.widths] at fits ⊢
  exact .bind_last (.address fits) (.ite_neg (fun differ => differ rfl) (.pure ()))

theorem length_headerSignature : headerSignature.length = 4 := by decide +kernel

theorem length_blockSignature : blockSignature.length = 4 := by decide +kernel

/-- The header as its parser gives it. -/
def headerRead (b : FixedArrayBuilder) (blockAddress : Nat) : Header :=
  ⟨b.entrySize, b.pageBits, b.entries.length, blockAddress⟩

theorem length_header (b : FixedArrayBuilder) (blockAddress : Nat) :
    (b.header blockAddress).length = headerLength b.widths := by
  have four := length_headerSignature
  simp only [header, length_withChecksum, List.length_append, LittleEndian.length_encode, four,
    headerLength, List.length_cons, List.length_nil]

theorem parse_header (readBy : b.ReadBy s) (fits : b.Fits) {blockAddress : Nat}
    (place : Addressable b.widths blockAddress) (address : Nat) :
    (headerParser s address (b.header blockAddress)).parse (b.header blockAddress) =
      .ok (b.headerRead blockAddress) := by
  have four := length_headerSignature
  have wide : b.widths.offsetSize ≤ 8 := b.widths.offset.bytes_le
  have wide' : b.widths.lengthSize ≤ 8 := b.widths.length.bytes_le
  have small : b.entrySize ≤ 20 := (entrySize_le fits).2
  have byte : (UInt8.ofNat b.entrySize).toNat = b.entrySize :=
    UInt8.toNat_ofNat_of_lt' (by rw [UInt8.size]; omega)
  generalize body : headerSignature ++ [0, b.client, UInt8.ofNat b.entrySize, b.pageBits] ++
      LittleEndian.encode b.widths.lengthSize b.entries.length ++
      LittleEndian.encode b.widths.offsetSize blockAddress = bytes
  have length : bytes.length + 4 ≤ maxWord := by
    rw [← body]
    simp only [List.length_append, LittleEndian.length_encode, four, List.length_cons,
      List.length_nil]
    have : 64 ≤ maxWord := by decide
    omega
  have parts : bytes = headerSignature ++ ([0] ++ ([b.client] ++ ([UInt8.ofNat b.entrySize] ++
      ([b.pageBits] ++ (LittleEndian.encode s.widths.lengthSize b.entries.length ++
        LittleEndian.encode s.widths.offsetSize blockAddress))))) := by
    rw [← body, readBy.widths]
    simp only [List.append_assoc, List.cons_append, List.nil_append]
  rw [header, body]
  refine Reads.parse ?_ _
  conv => arg 3; rw [parts]
  refine .bind (.signature four) (.bind (.version 0 _) (.bind (reads_client readBy _ _) ?_))
  refine .bind (.uint_one _) ?_
  rw [byte]
  refine .bind_nil (.lift (arrayElementSize_entrySize readBy fits.sizeLength)) (.bind (.byte _) ?_)
  refine .bind (.length (readBy.widths ▸ fits.count)) ?_
  refine .bind_last (.address (readBy.widths ▸ place)) (.bind_nil .position ?_)
  refine .bind_nil (.lift (check_withChecksum s _ address ?_ length)) (.pure _)
  rw [parts]
  simp only [List.length_append, List.length_cons, List.length_nil]
  omega

theorem length_block (b : FixedArrayBuilder) (address : Nat) (body : Bytes) :
    (b.block address body).length = blockPrefix b.widths + body.length + 4 := by
  have four := length_blockSignature
  simp only [block, length_withChecksum, List.length_append, LittleEndian.length_encode, four,
    blockPrefix, List.length_cons, List.length_nil]

theorem saturate_blockLength {b : FixedArrayBuilder} {address : Nat} {body : Bytes}
    (bound : (b.block address body).length ≤ maxWord) :
    saturate (saturate (blockPrefix b.widths + body.length) + 4) =
      (b.block address body).length := by
  rw [length_block] at bound ⊢
  have inner : saturate (blockPrefix b.widths + body.length) = blockPrefix b.widths + body.length :=
    saturate_of_le (by omega)
  rw [inner, saturate_of_le bound]

/-- A block is read up to its body; the header then decides what the body means. -/
theorem parse_block (readBy : b.ReadBy s) {h : Header} {address : Nat} {body : Bytes}
    {result : Block} (place : Addressable b.widths address) (whole : body.length = h.bodyLength)
    (length : (b.block address body).length ≤ maxWord)
    (meaning : ∀ n, Reads (do
      if h.isPaged then
        return .paged body (← Bounds.within (h.block + (b.block address body).length))
      else return .unpaged (← arrayElements s h.entrySize body)) n [] result) :
    (blockParser s address h (b.block address body)).parse (b.block address body) =
      .ok result := by
  have four := length_blockSignature
  rw [length_block] at length
  generalize image : b.block address body = bytes at meaning ⊢
  have parts : bytes = withChecksum (blockSignature ++ ([0] ++ ([b.client] ++
      (LittleEndian.encode b.widths.offsetSize address ++ body)))) := by
    rw [← image, block]
    simp only [List.append_assoc, List.cons_append, List.nil_append]
  have covered : (blockSignature ++ ([0] ++ ([b.client] ++
      (LittleEndian.encode b.widths.offsetSize address ++ body)))).length =
        blockPrefix b.widths + body.length := by
    simp only [List.length_append, LittleEndian.length_encode, four, blockPrefix,
      List.length_cons, List.length_nil]
    omega
  conv => lhs; arg 2; rw [parts, withChecksum]
  refine Reads.parse ?_ _
  refine .bind (.signature four) (.bind (.version 0 _) (.bind (reads_client readBy _ _) ?_))
  refine .bind (reads_owner readBy _ _ place) (.bind_last (.take whole) (.bind_nil .position ?_))
  refine .bind_nil (a := ()) (.lift ?_) (meaning _)
  rw [parts]
  refine check_withChecksum s _ h.block ?_ (covered ▸ length)
  rw [covered]
  simp only [LittleEndian.length_encode, four, blockPrefix, List.length_cons, List.length_nil]

theorem isPaged_headerRead (b : FixedArrayBuilder) (blockAddress : Nat) :
    (b.headerRead blockAddress).isPaged = decide (b.pageEntries < b.entries.length) := rfl

theorem parse_block_unpaged (readBy : b.ReadBy s) (fits : b.Fits) {address : Nat} {raw : Bytes}
    (blockAddress : Nat) (place : Addressable b.widths address)
    (small : b.entries.length ≤ b.pageEntries) (written : b.encodeEntries b.entries = .ok raw)
    (length : (b.block address raw).length ≤ maxWord) :
    (b.headerRead blockAddress).bodyLength = raw.length ∧
    (blockParser s address (b.headerRead blockAddress) (b.block address raw)).parse
      (b.block address raw) = .ok (.unpaged (b.entries.map s.readBack)) := by
  obtain ⟨size, decoded⟩ := arrayElements_encode readBy fits (fun _ mem => mem) written
  have one : (b.headerRead blockAddress).isPaged = false := by
    rw [isPaged_headerRead, decide_eq_false_iff_not]
    omega
  have whole : (b.headerRead blockAddress).bodyLength = raw.length := by
    rw [Header.bodyLength, one, size]
    refine saturate_of_le ?_
    show b.entries.length * b.entrySize ≤ maxWord
    rw [length_block] at length
    omega
  refine ⟨whole, parse_block readBy place whole.symm length fun n => ?_⟩
  rw [one]
  exact .bind_nil (.lift decoded) (.pure _)

theorem parse_block_paged (readBy : b.ReadBy s) {address : Nat} (blockAddress : Nat)
    (place : Addressable b.widths address) (large : b.pageEntries < b.entries.length)
    (length : blockAddress + (b.block address b.bitmap).length ≤ maxWord) :
    (b.headerRead blockAddress).bodyLength = b.bitmap.length ∧
    (blockParser s address (b.headerRead blockAddress) (b.block address b.bitmap)).parse
      (b.block address b.bitmap) =
        .ok (.paged b.bitmap (blockAddress + (b.block address b.bitmap).length)) := by
  have many : (b.headerRead blockAddress).isPaged = true := by
    rw [isPaged_headerRead, decide_eq_true large]
  have whole : (b.headerRead blockAddress).bodyLength = b.bitmap.length := by
    rw [Header.bodyLength, many, bitmap, Bits.length_pack, List.length_map, pages,
      length_takeChunks]
    rfl
  refine ⟨whole, parse_block readBy place whole.symm (by omega) fun n => ?_⟩
  rw [many]
  exact .bind_nil (.lift (Bounds.within_eq_ok_iff.2 ⟨length, rfl⟩)) (.pure _)

/-! ## Pages -/

theorem pageEntries_pos (b : FixedArrayBuilder) : 0 < b.pageEntries := by
  rw [pageEntries, Nat.one_shiftLeft]
  exact Nat.two_pow_pos _

/-- The pages cut the entries at the multiples of the entries of a page. -/
theorem getElem?_pages_eq_some {b : FixedArrayBuilder} {i : Nat} {page : List Descriptor} :
    b.pages[i]? = some page ↔
      i * b.pageEntries < b.entries.length ∧
        slice b.entries (i * b.pageEntries) b.pageEntries = page := by
  have pos := b.pageEntries_pos
  have below : i < (b.entries.length + b.pageEntries - 1) / b.pageEntries ↔
      i * b.pageEntries < b.entries.length := by
    rw [← Nat.succ_le_iff, Nat.le_div_iff_mul_le pos, Nat.succ_mul]
    omega
  rw [pages, getElem?_takeChunks]
  split
  · next lt =>
      rw [Option.some.injEq]
      exact ⟨fun same => ⟨below.1 lt, same⟩, fun h => h.2⟩
  · next ge => exact ⟨fun h => absurd h (by simp), fun h => absurd (below.2 h.1) ge⟩

/-- The page of an entry, and the entry in it. -/
theorem page_of_entry {b : FixedArrayBuilder} {i : Nat} (lt : i < b.entries.length) :
    ∃ page, b.pages[i / b.pageEntries]? = some page ∧
      page[i % b.pageEntries]? = b.entries[i]? := by
  have pos := b.pageEntries_pos
  have split := Nat.div_add_mod' i b.pageEntries
  refine ⟨_, getElem?_pages_eq_some.2 ⟨by omega, rfl⟩, ?_⟩
  rw [getElem?_slice, if_pos (Nat.mod_lt i pos), split]

theorem length_page {b : FixedArrayBuilder} {i : Nat} {page : List Descriptor}
    (found : b.pages[i]? = some page) :
    page.length = min b.pageEntries (b.entries.length - i * b.pageEntries) := by
  obtain ⟨-, rfl⟩ := getElem?_pages_eq_some.1 found
  rw [slice, List.length_take, List.length_drop]

/-- Every page before another one is full. -/
theorem length_page_of_lt {b : FixedArrayBuilder} {i j : Nat} {page : List Descriptor}
    (more : i * b.pageEntries < b.entries.length) (lt : j < i) (found : b.pages[j]? = some page) :
    page.length = b.pageEntries := by
  have step : (j + 1) * b.pageEntries ≤ i * b.pageEntries := Nat.mul_le_mul_right _ lt
  rw [Nat.succ_mul] at step
  rw [length_page found, Nat.min_eq_left (by omega)]

theorem mem_entries_of_page {b : FixedArrayBuilder} {i : Nat} {page : List Descriptor}
    (found : b.pages[i]? = some page) : ∀ d ∈ page, d ∈ b.entries := by
  obtain ⟨-, rfl⟩ := getElem?_pages_eq_some.1 found
  intro d mem
  exact List.mem_of_mem_drop (List.mem_of_mem_take mem)

/-! ## The whole image -/

/-- What was built is a header and a block with all the entries, or with the bitmap and the pages
after it. -/
theorem build_cases {address : Nat} {image : Bytes} (built : b.build address = .ok image) :
    address + headerLength b.widths ≤ maxWord ∧
    ((b.entries.length ≤ b.pageEntries ∧ ∃ raw, b.encodeEntries b.entries = .ok raw ∧
        image = b.header (address + headerLength b.widths) ++ b.block address raw) ∨
      (b.pageEntries < b.entries.length ∧ ∃ images,
        List.Forall₂ (fun page image => ∃ raw, b.encodeEntries page = .ok raw ∧
          image = withChecksum raw) b.pages images ∧
        image = b.header (address + headerLength b.widths) ++ b.block address b.bitmap ++
          images.flatten)) := by
  unfold build at built
  obtain ⟨-, built⟩ := guard_eq_ok_iff.1 built
  obtain ⟨_, room, built⟩ := bind_eq_ok_iff.1 built
  obtain ⟨bound, rfl⟩ := Bounds.within_eq_ok_iff.1 room
  refine ⟨bound, ?_⟩
  by_cases small : b.entries.length ≤ b.pageEntries
  · simp only [if_pos small] at built
    obtain ⟨raw, encoded, built⟩ := bind_eq_ok_iff.1 built
    cases built
    exact .inl ⟨small, raw, encoded, rfl⟩
  · simp only [if_neg small, markPages_eq] at built
    obtain ⟨images, encoded, built⟩ := bind_eq_ok_iff.1 built
    cases built
    refine .inr ⟨by omega, images, ?_, rfl⟩
    refine (mapM_eq_ok_iff.1 encoded).imp fun page image step => ?_
    obtain ⟨raw, encoded, made⟩ := bind_eq_ok_iff.1 step
    cases made
    exact ⟨raw, encoded, rfl⟩

end FixedArrayBuilder

end ChunkStore
