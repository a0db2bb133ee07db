import ChunkStore.Proofs.ExtensibleArray.Groups
import ChunkStore.Proofs.Index.Numbering
import ChunkStore.Proofs.Parser

/-!
# Lookups in an extensible array

A lookup of an index in use goes to the index block's own entries, to nothing, or to the one data
block that has the index. `entryOfBlock` says how a data block is reached: through the index block
for the first `2 * (minPointers - 1)` data blocks, and through the secondary block of its group for
the others. Whatever a handle has looked up before, its lookup is `entryOfBlock`
(`Held.runOn_entry`), since it holds no other header and index block than those of the file
(`Held`).
-/

namespace ChunkStore.Index.ExtensibleArray

open Session ChunkStore.Parser

/-- The header at an address, as a new handle reads it. -/
def headerAt (image : Image) (s : Settings) (address : Nat) : Except Error Header :=
  ((ofAddress s address).recallHeader.runOn image (ofAddress s address)).1

/-- The index block, as a new handle reads it. -/
def indexBlockAt (image : Image) (s : Settings) (address : Nat) (h : Header) :
    Except Error IndexBlock :=
  (((ofAddress s address).recallIndexBlock h).runOn image (ofAddress s address)).1

/-- Entry `offset` of the data block at an address. A data block of more than `2 ^ pageBits`
entries is kept in pages of so many. -/
def entryInBlock (x : ExtensibleArray) (h : Header) (entries address offset : Nat) :
    Session ExtensibleArray Descriptor :=
  if 2 ^ h.pageBits < entries then do
    let page ← x.recallPage h address (offset / 2 ^ h.pageBits)
    return page.getD (offset % 2 ^ h.pageBits) .undefined
  else do
    let block ← x.recallDataBlock h entries address
    return block.getD offset .undefined

/-- Entry `offset` of data block number `k`, which is `d`. The address of the data block is in the
index block or in the secondary block of its group; a data block without an address, and a page
that the secondary block does not say is in use, have no entries. -/
def entryOfBlock (x : ExtensibleArray) (h : Header) (b : IndexBlock) (k : Nat) (d : DataBlock)
    (offset : Nat) : Session ExtensibleArray Descriptor := do
  let entries := d.entries h.minElements
  if k < 2 * (h.minPointers - 1) then
    let address ← Bounds.item b.dataBlocks k
    if address = undefinedAddress then return .undefined
    entryInBlock x h entries address offset
  else
    let own ← Bounds.item b.secondaryBlocks (d.group - 2 * Nat.log2 h.minPointers)
    if own = undefinedAddress then return .undefined
    let sb ← x.recallSecondaryBlock h (groupRow h.minElements d.group) own
    let address := sb.dataBlocks.getD d.position undefinedAddress
    if address = undefinedAddress then return .undefined
    let page := d.position * (entries / 2 ^ h.pageBits) + offset / 2 ^ h.pageBits
    if 2 ^ h.pageBits < entries ∧ !bitIsSet sb.pagesInUse page then return .undefined
    entryInBlock x h entries address offset

variable {image : Image} {s : Settings} {address : Nat} {h : Header}

/-! ## Reading -/

theorem ensures_headerParser (s : Settings) (address : Nat) (bytes : Bytes) :
    Ensures (headerParser s address bytes) Header.Accepted := by
  refine .bind_any fun _ => .bind_any fun _ => .bind_any fun _ => .bind_any fun _ => ?_
  refine .bind_any fun entrySize => .bind_any fun maxBits => .bind_any fun indexElements => ?_
  refine (Ensures.uint 1).bind fun minElements narrow => .bind_any fun minPointers => ?_
  refine .bind_any fun pageBits => ?_
  refine .guard fun elements => .guard fun pointers => ?_
  refine .bind_any fun _ => (Ensures.uint _).bind fun maxIndexSet used => ?_
  refine .bind_any fun _ => .bind_any fun indexBlock => .bind_any fun _ => .bind_any fun _ => ?_
  refine (Ensures.lift fun groups table => table).bind fun groups table => .pure ?_
  exact {
    elements := by simpa using elements
    narrow := narrow
    pointers := by simpa using pointers
    table := table
    used := Nat.le_sub_one_of_lt (Nat.lt_of_lt_of_le used (pow_lengthSize_le s.widths)) }

theorem accepted_of_headerAt (found : headerAt image s address = .ok h) : h.Accepted := by
  rw [headerAt, recallHeader, fst_runOn_recallOne image _ rfl] at found
  refine Meets.of_eq_ok found ((Meets.any _).bind fun bytes _ => ?_)
  exact .ofExcept fun h done => (ensures_headerParser s address bytes).parse done

/-- A header that was read stands somewhere, in a file of 64-bit length. -/
theorem ne_undefinedAddress_of_headerAt (bound : image.length ≤ maxWord)
    (found : headerAt image s address = .ok h) : address ≠ undefinedAddress := by
  rw [headerAt, recallHeader, fst_runOn_recallOne image _ rfl] at found
  exact ne_undefinedAddress_of_fetch image _ bound (Nat.succ_pos _) found

/-- An index block that was read stands somewhere, in a file of 64-bit length. -/
theorem ne_undefinedAddress_of_indexBlockAt (bound : image.length ≤ maxWord) {b : IndexBlock}
    (found : indexBlockAt image s address h = .ok b) : h.indexBlock ≠ undefinedAddress := by
  rw [indexBlockAt, recallIndexBlock, fst_runOn_recallOne image _ rfl] at found
  dsimp only at found
  rw [runOn_bind, runOn_liftM] at found
  split at found
  next length _ fits =>
    obtain ⟨-, rfl⟩ := Bounds.within_eq_ok_iff.1 (Prod.ext_iff.1 fits).1
    exact ne_undefinedAddress_of_fetch image _ bound (Nat.succ_pos _) found
  next => cases found

/-- An index block has the header's number of entries, and the addresses of the data blocks and
secondary blocks that the header makes it name. -/
structure IndexBlock.Shaped (h : Header) (b : IndexBlock) : Prop where
  entries : b.entries.length = h.indexElements
  dataBlocks : b.dataBlocks.length = h.directBlocks
  secondaryBlocks : b.secondaryBlocks.length = h.indirectGroups

theorem ensures_indexBlockParser (s : Settings) (address : Nat) (h : Header) (bytes : Bytes) :
    Ensures (indexBlockParser s address h bytes) (IndexBlock.Shaped h) := by
  refine .bind_any fun _ => (Ensures.times (.any _) _).bind fun entries own => ?_
  refine (Ensures.times (.any _) _).bind fun dataBlocks direct => ?_
  refine (Ensures.times (.any _) _).bind fun secondaryBlocks indirect => ?_
  exact .bind_any fun _ => .bind_any fun _ => .pure ⟨own.1, direct.1, indirect.1⟩

theorem shaped_of_indexBlockAt {b : IndexBlock} (found : indexBlockAt image s address h = .ok b) :
    b.Shaped h := by
  rw [indexBlockAt, recallIndexBlock, fst_runOn_recallOne image _ rfl] at found
  refine Meets.of_eq_ok found ((Meets.any _).bind fun _ _ => (Meets.any _).bind fun bytes _ => ?_)
  exact .ofExcept fun b done => (ensures_indexBlockParser s address h bytes).parse done

/-! ## A data block's entries -/

theorem pageEntries_eq (narrow : h.pageBits ≤ 63) : h.pageEntries = 2 ^ h.pageBits := by
  rw [Header.pageEntries, Nat.one_shiftLeft, Nat.min_eq_left narrow]

/-- A data block that is kept in pages has pages of `2 ^ pageBits` entries; no data block is so
long that the limit on `pageBits` would matter. -/
theorem pageEntries_lt_iff {entries : Nat} (few : entries < 2 ^ 63) :
    h.pageEntries < entries ↔ 2 ^ h.pageBits < entries := by
  rcases Nat.le_or_ge h.pageBits 63 with narrow | wide
  · rw [pageEntries_eq narrow]
  · have most : 2 ^ 63 ≤ 2 ^ h.pageBits := Nat.pow_le_pow_right (by decide) wide
    have same : h.pageEntries = 2 ^ 63 := by
      rw [Header.pageEntries, Nat.one_shiftLeft, Nat.min_eq_right wide]
    rw [same]
    omega

theorem pageEntries_of_lt {entries : Nat} (few : entries < 2 ^ 63)
    (paged : 2 ^ h.pageBits < entries) : h.pageEntries = 2 ^ h.pageBits := by
  apply pageEntries_eq
  by_contra wide
  have most : 2 ^ 63 ≤ 2 ^ h.pageBits := Nat.pow_le_pow_right (by decide) (by omega)
  omega

theorem pagesPerBlock_eq {entries : Nat} (few : entries < 2 ^ 63) :
    h.pagesPerBlock entries = if 2 ^ h.pageBits < entries then entries / 2 ^ h.pageBits else 0 := by
  by_cases paged : 2 ^ h.pageBits < entries
  · rw [Header.pagesPerBlock, if_pos ((pageEntries_lt_iff few).2 paged), if_pos paged,
      pageEntries_of_lt few paged]
  · rw [Header.pagesPerBlock, if_neg (mt (pageEntries_lt_iff few).1 paged), if_neg paged]

theorem pagesPerBlock_ne_zero_iff {entries : Nat} (few : entries < 2 ^ 63) :
    h.pagesPerBlock entries ≠ 0 ↔ 2 ^ h.pageBits < entries := by
  rw [pagesPerBlock_eq few]
  split
  next paged => exact iff_of_true (Nat.div_pos paged.le (Nat.two_pow_pos _)).ne' paged
  next whole => exact iff_of_false (fun differs => differs rfl) whole

theorem blockEntry_eq (x : ExtensibleArray) (address : Nat) {entries : Nat}
    (few : entries < 2 ^ 63) (offset : Nat) :
    x.blockEntry h address entries offset = entryInBlock x h entries address offset := by
  rw [blockEntry, entryInBlock]
  by_cases paged : 2 ^ h.pageBits < entries
  · rw [if_neg ((pagesPerBlock_ne_zero_iff few).2 paged), if_pos paged,
      pageEntries_of_lt few paged]
  · rw [if_pos (not_not.1 (mt (pagesPerBlock_ne_zero_iff few).1 paged)), if_neg paged]

/-! ## Ways to a data block -/

theorem entries_lt (accepted : h.Accepted) {d : DataBlock} (inside : d.group < h.groups.length) :
    d.entries h.minElements < 2 ^ 63 := by
  have most := accepted.length_groups_le
  have power : 2 ^ ((d.group + 1) / 2) ≤ 2 ^ 32 := Nat.pow_le_pow_right (by decide) (by omega)
  calc d.entries h.minElements = 2 ^ ((d.group + 1) / 2) * h.minElements := rfl
    _ ≤ 2 ^ 32 * 256 := Nat.mul_le_mul power accepted.narrow.le
    _ < 2 ^ 63 := by decide

/-- The number of a page among all pages of its group stays within 64 bits. -/
theorem saturate_page (accepted : h.Accepted) {d : DataBlock} {offset : Nat} (size : Nat)
    (inside : d.group < h.groups.length) (position : d.position < 2 ^ (d.group / 2))
    (less : offset < d.entries h.minElements) :
    saturate (saturate (d.position * (d.entries h.minElements / size)) + offset / size) =
      d.position * (d.entries h.minElements / size) + offset / size := by
  have pages : d.position * (d.entries h.minElements / size) ≤
      d.position * d.entries h.minElements := Nat.mul_le_mul_left _ (Nat.div_le_self _ _)
  have page := Nat.div_le_self offset size
  have all : d.position * d.entries h.minElements + offset < 2 ^ 64 :=
    calc d.position * d.entries h.minElements + offset
      _ < d.position * d.entries h.minElements + d.entries h.minElements := by omega
      _ = (d.position + 1) * d.entries h.minElements := (Nat.succ_mul _ _).symm
      _ ≤ 2 ^ (d.group / 2) * d.entries h.minElements := Nat.mul_le_mul_right _ position
      _ = 2 ^ d.group * h.minElements := by
        rw [DataBlock.entries, blocks_mul_blockSize]
      _ ≤ 2 ^ 64 := accepted.two_pow_mul_le inside
  rw [saturate_of_lt (Nat.lt_of_le_of_lt pages (by omega)), saturate_of_lt (by omega)]

/-- Where `locate` sends an index, a lookup reads the entry of the data block that has the index. -/
theorem entryAt_eq (accepted : h.Accepted) {b : IndexBlock} (shaped : b.Shaped h) {i k : Nat}
    {d : DataBlock} (contains : h.Contains k d i) (x : ExtensibleArray) :
    x.entryAt h b (
      if k < h.directBlocks then
        .direct (groupRow h.minElements d.group) k (i - h.firstIndex k)
      else
        .indirect (groupRow h.minElements d.group) (d.group - h.directGroups) d.position
          (i - h.firstIndex k)) = entryOfBlock x h b k d (i - h.firstIndex k) := by
  obtain ⟨inside, position, number⟩ := getElem?_dataBlocksOf.1 contains.block
  have few := entries_lt accepted inside
  have less : i - h.firstIndex k < d.entries h.minElements := by
    have lt := contains.lt
    have ge := contains.ge
    omega
  rw [entryOfBlock]
  dsimp only
  by_cases direct : k < h.directBlocks
  · have listed : k < b.dataBlocks.length := by rwa [shaped.dataBlocks]
    have found := List.getElem?_eq_getElem listed
    have value : b.dataBlocks.getD k undefinedAddress = b.dataBlocks[k] := by
      rw [List.getD_eq_getElem?_getD, found, Option.getD_some]
    rw [if_pos direct, if_pos (show k < 2 * (h.minPointers - 1) from direct),
      Bounds.item_eq_ok_iff.2 found, entryAt, value]
    show _ = (if b.dataBlocks[k] = undefinedAddress then _ else _)
    split
    · rfl
    · exact blockEntry_eq x _ few _
  · have later : h.directGroups ≤ d.group := by
      rw [number, accepted.lt_directBlocks_iff position] at direct
      exact Nat.not_lt.1 direct
    have listed : d.group - h.directGroups < b.secondaryBlocks.length := by
      rw [shaped.secondaryBlocks, Header.indirectGroups]
      omega
    have found := List.getElem?_eq_getElem listed
    have value : b.secondaryBlocks.getD (d.group - h.directGroups) undefinedAddress =
        b.secondaryBlocks[d.group - h.directGroups] := by
      rw [List.getD_eq_getElem?_getD, found, Option.getD_some]
    have asked : Bounds.item b.secondaryBlocks (d.group - 2 * Nat.log2 h.minPointers) = _ :=
      Bounds.item_eq_ok_iff.2 found
    rw [if_neg direct, if_neg (show ¬ k < 2 * (h.minPointers - 1) from direct), asked, entryAt,
      value]
    show _ = (if b.secondaryBlocks[d.group - h.directGroups] = undefinedAddress then _ else _)
    split
    · rfl
    refine congrArg (_ >>= ·) (funext fun sb => ?_)
    dsimp only
    split
    · rfl
    show (if h.pagesPerBlock (d.entries h.minElements) ≠ 0 ∧ (!bitIsSet sb.pagesInUse
      (saturate (saturate (d.position * h.pagesPerBlock (d.entries h.minElements)) +
        (i - h.firstIndex k) / h.pageEntries))) = true then _ else _) = _
    have pages := pagesPerBlock_ne_zero_iff (h := h) few
    by_cases paged : 2 ^ h.pageBits < d.entries h.minElements
    · rw [pagesPerBlock_eq few, if_pos paged] at pages ⊢
      rw [pageEntries_of_lt few paged, saturate_page accepted _ inside position less]
      exact if_congr (and_congr_left' pages) rfl (blockEntry_eq x _ few _)
    · rw [if_neg fun both => paged (pages.1 both.1), if_neg fun both => paged both.1]
      exact blockEntry_eq x _ few _

/-! ## A handle on an array -/

/-- The handle was opened on the array, and its header and index block are the array's. -/
structure Held (image : Image) (s : Settings) (address : Nat) (h : Header) (x : ExtensibleArray) :
    Prop where
  opening : x.opening = (s, address)
  header : ∀ h', x.header = some h' → h' = h
  indexBlock : ∀ b, x.indexBlock = some b → indexBlockAt image s address h = .ok b

theorem held_ofAddress (image : Image) (s : Settings) (address : Nat) (h : Header) :
    Held image s address h (.ofAddress s address) where
  opening := rfl
  header := fun _ held => by cases held
  indexBlock := fun _ held => by cases held

theorem Held.of_front {x x' : ExtensibleArray} (same : x'.front = x.front)
    (held : Held image s address h x) : Held image s address h x' := by
  obtain ⟨opening, rest⟩ := Prod.ext_iff.1 same
  obtain ⟨header, indexBlock⟩ := Prod.ext_iff.1 rest
  have opening : x'.opening = x.opening := opening
  have header : x'.header = x.header := header
  have indexBlock : x'.indexBlock = x.indexBlock := indexBlock
  refine ⟨opening.trans held.opening, ?_, ?_⟩
  · rw [header]
    exact held.header
  · rw [indexBlock]
    exact held.indexBlock

/-- The header that a lookup goes by is the array's. -/
theorem Held.runOn_recallHeader {x : ExtensibleArray} (held : Held image s address h x)
    (found : headerAt image s address = .ok h) :
    x.recallHeader.runOn image x = (.ok h, { x with header := some h }) := by
  obtain ⟨rfl, rfl⟩ : x.settings = s ∧ x.address = address := Prod.ext_iff.1 held.opening
  refine runOn_recallOne_of_free image x (fun h' known => ⟨held.header h' known, ?_⟩)
    (.bind (.fetch ..) fun _ => .ofExcept _) rfl found
  rw [← known]

/-- The index block that a lookup goes by is the array's. -/
theorem Held.runOn_recallIndexBlock {x : ExtensibleArray} (held : Held image s address h x)
    {b : IndexBlock} (found : indexBlockAt image s address h = .ok b) :
    (x.recallIndexBlock h).runOn image { x with header := some h } =
      (.ok b, { x with header := some h, indexBlock := some b }) := by
  obtain ⟨rfl, rfl⟩ : x.settings = s ∧ x.address = address := Prod.ext_iff.1 held.opening
  refine runOn_recallOne_of_free image _ (fun b' known => ⟨?_, ?_⟩)
    (.bind (.liftM _) fun _ => .bind (.fetch ..) fun _ => .ofExcept _) rfl found
  · have read := held.indexBlock b' known
    rw [found] at read
    exact (Except.ok.inj read).symm
  · rw [← known]

/-- Lookups keep the array's header and index block. -/
theorem meets_lookup (found : headerAt image s address = .ok h) (c : Coordinate) :
    Meets image (Held image s address h) (lookup c) fun _ => True := by
  refine .get_bind fun x held => .ite (.pure trivial) (.get_bind fun x held => ?_)
  obtain ⟨rfl, rfl⟩ : x.settings = s ∧ x.address = address := Prod.ext_iff.1 held.opening
  have header : Meets image (Held image x.settings x.address h) x.recallHeader
      fun h' => headerAt image x.settings x.address = .ok h' := by
    refine meets_recallOne_of_free image (ofAddress x.settings x.address) ?_ ?_
      (.bind (.fetch ..) fun _ => .ofExcept _) rfl
    · intro x' h' held known
      rw [held.header h' known]
      exact found
    · intro x' h' held read
      have same : headerAt image x.settings x.address = .ok h' := read
      rw [found] at same
      exact { held with header := fun _ known => by cases known; exact (Except.ok.inj same).symm }
  have indexBlock : Meets image (Held image x.settings x.address h) (x.recallIndexBlock h)
      fun b => indexBlockAt image x.settings x.address h = .ok b := by
    refine meets_recallOne_of_free image (ofAddress x.settings x.address) ?_ ?_
      (.bind (.liftM _) fun _ => .bind (.fetch ..) fun _ => .ofExcept _) rfl
    · exact fun x' b held known => held.indexBlock b known
    · exact fun x' b held read =>
        { held with indexBlock := fun _ known => by cases known; exact read }
  refine header.bind fun h' read => ?_
  rw [found] at read
  cases read
  refine .ite (.pure trivial) (indexBlock.bind fun b _ => ?_)
  refine (Meets.liftM fun (_ : Place) _ => trivial).bind fun p _ => ⟨fun x' held => ?_⟩
  exact ⟨held.of_front ((keeps_entryAt x h b p).same image x'), fun _ _ => trivial⟩

/-- What a lookup comes to in every state that a handle on the array can be in. -/
theorem Held.runOn_entry {x : ExtensibleArray} (held : Held image s address h x)
    (found : headerAt image s address = .ok h) {i : Nat} (used : i < h.maxIndexSet)
    {b : IndexBlock} (block : indexBlockAt image s address h = .ok b)
    (somewhere : h.indexBlock ≠ undefinedAddress) {p : Place} (place : h.locate i = .ok p) :
    (entry i).runOn image x =
      (x.entryAt h b p).runOn image { x with header := some h, indexBlock := some b } := by
  have allocated : ¬ (h.maxIndexSet ≤ i ∨ h.indexBlock = undefinedAddress) :=
    fun either => either.elim (Nat.not_le.2 used) somewhere
  rw [entry, runOn_get_bind, runOn_bind_ok image (held.runOn_recallHeader found), if_neg allocated,
    runOn_bind_ok image (held.runOn_recallIndexBlock block), place]
  rfl

end ChunkStore.Index.ExtensibleArray

namespace ChunkStore.ChunkIndex

open Session Index Index.ExtensibleArray

/-- The data blocks share out all indexes behind the entries of the index block. A lookup of an
index in use finds an entry of the index block, nothing behind the last group, and elsewhere the
entry of the data block that has the index, at the distance from the data block's first index. The
handle may have answered any lookups before; `x` is what it has decoded. -/
theorem lookup_extensibleArray {image : Image} {s : Settings} {address : Nat} {h : Header}
    (bound : image.length ≤ maxWord) (header : headerAt image s address = .ok h) :
    h.Tiled ∧
    ∀ earlier c i, s.geometry.Holds c → linearIndex s.geometry c = i → i < h.maxIndexSet →
      (h.indexBlock = undefinedAddress →
        answerAfter image (extensibleArray (.ofAddress s address)) earlier c = .ok .undefined) ∧
      ∀ b, indexBlockAt image s address h = .ok b →
        (i < h.indexElements → ∃ d, b.entries[i]? = some d ∧
          answerAfter image (extensibleArray (.ofAddress s address)) earlier c = .ok d) ∧
        (h.firstIndex h.dataBlocks.length ≤ i →
          answerAfter image (extensibleArray (.ofAddress s address)) earlier c =
            .ok .undefined) ∧
        ∀ k d, h.Contains k d i →
          (k < 2 * (h.minPointers - 1) → k < b.dataBlocks.length) ∧
          ∃ x, (extensibleArray (.ofAddress s address)).after image earlier = extensibleArray x ∧
            answerAfter image (extensibleArray (.ofAddress s address)) earlier c =
              ((entryOfBlock x h b k d (i - h.firstIndex k)).runOn image
                { x with header := some h, indexBlock := some b }).1 := by
  have accepted := accepted_of_headerAt header
  refine ⟨accepted.tiled, fun earlier c i holds index used => ?_⟩
  obtain ⟨x, reached, held⟩ := embeds_extensibleArray.after (fun x held => held.opening)
    (fun c _ => meets_lookup header c) (held_ofAddress image s address h) earlier
  have asked : answerAfter image (extensibleArray (.ofAddress s address)) earlier c =
      ((entry i).runOn image x).1 := by
    obtain ⟨rfl, rfl⟩ : x.settings = s ∧ x.address = address := Prod.ext_iff.1 held.opening
    rw [answerAfter, reached, @runOn_lookup_eq_answer image (extensibleArray x) c rfl holds, number,
      index, answer, if_neg (ne_undefinedAddress_of_headerAt bound header)]
  rw [asked]
  refine ⟨fun nowhere => ?_, fun b block => ?_⟩
  · rw [entry, runOn_get_bind, runOn_bind_ok image (held.runOn_recallHeader header),
      if_pos (.inr nowhere), runOn_pure]
  · have shaped := shaped_of_indexBlockAt block
    have somewhere := ne_undefinedAddress_of_indexBlockAt bound block
    have fits : i < maxWord := Nat.lt_of_lt_of_le used accepted.used
    refine ⟨fun own => ?_, fun behind => ?_, fun k d contains => ⟨fun direct => ?_, x, reached, ?_⟩⟩
    · have listed : i < b.entries.length := by rwa [shaped.entries]
      refine ⟨b.entries[i], List.getElem?_eq_getElem listed, ?_⟩
      rw [held.runOn_entry header used block somewhere (Header.locate_of_lt own), entryAt,
        Bounds.item_eq_ok_iff.2 (List.getElem?_eq_getElem listed), runOn_liftM]
    · rw [held.runOn_entry header used block somewhere (accepted.locate_of_ge behind fits), entryAt,
        runOn_pure]
    · rwa [shaped.dataBlocks]
    · rw [held.runOn_entry header used block somewhere (accepted.locate_of_contains contains fits),
        entryAt_eq accepted shaped contains]

/-- After lookups of 0 and 17: index 4 is the second entry of data block 0, which is not kept in
pages, and index 18 the second entry of the first page of data block 4, the first in group 3, which
a secondary block names. -/
theorem lookup_extensibleArray_in_block_and_page : ∃ image h b,
    headerAt image ⟨⟨.two, .two⟩, ⟨[40], [40], 4⟩, [1], 4, false, true⟩ 1 = .ok h ∧
    indexBlockAt image ⟨⟨.two, .two⟩, ⟨[40], [40], 4⟩, [1], 4, false, true⟩ 1 h = .ok b ∧
    (h.Contains 0 ⟨0, 0⟩ 4 ∧ h.firstIndex 0 = 3 ∧
      (⟨0, 0⟩ : DataBlock).entries h.minElements ≤ 2 ^ h.pageBits) ∧
    (h.Contains 4 ⟨3, 0⟩ 18 ∧ h.firstIndex 4 = 17 ∧
      2 ^ h.pageBits < (⟨3, 0⟩ : DataBlock).entries h.minElements) ∧
    (∀ i k d, (i, k, d) ∈ [(4, 0, ⟨0, 0⟩), (18, 4, ⟨3, 0⟩)] → ∃ x,
      (extensibleArray (.ofAddress ⟨⟨.two, .two⟩, ⟨[40], [40], 4⟩, [1], 4, false, true⟩ 1)).after
        image [[0], [17]] = extensibleArray x ∧
      answerAfter image
        (extensibleArray (.ofAddress ⟨⟨.two, .two⟩, ⟨[40], [40], 4⟩, [1], 4, false, true⟩ 1))
        [[0], [17]] [i] = ((entryOfBlock x h b k d 1).runOn image
          { x with header := some h, indexBlock := some b }).1) ∧
    answerAfter image
      (extensibleArray (.ofAddress ⟨⟨.two, .two⟩, ⟨[40], [40], 4⟩, [1], 4, false, true⟩ 1))
      [[0], [17]] [4] = .ok ⟨111, 4, 0⟩ ∧
    answerAfter image
      (extensibleArray (.ofAddress ⟨⟨.two, .two⟩, ⟨[40], [40], 4⟩, [1], 4, false, true⟩ 1))
      [[0], [17]] [18] = .ok ⟨118, 4, 0⟩ := by
  have header : headerAt
      ([7] ++
        withChecksum [69, 65, 72, 68, 0, 0, 2, 6, 3, 2, 2, 2, 1, 0, 0, 0, 0, 0, 0, 0, 33, 0, 33, 0,
          31, 0] ++
        withChecksum [69, 65, 73, 66, 0, 0, 1, 0, 100, 0, 101, 0, 102, 0, 105, 0, 255, 255,
          255, 255, 61, 0, 255, 255, 255, 255] ++
        withChecksum [69, 65, 83, 66, 0, 0, 1, 0, 14, 128, 0, 80, 0, 255, 255] ++
        withChecksum [69, 65, 68, 66, 0, 0, 1, 0, 14] ++
        withChecksum [117, 0, 118, 0, 119, 0, 120, 0] ++
        withChecksum [69, 65, 68, 66, 0, 0, 1, 0, 0, 110, 0, 111, 0])
      ⟨⟨.two, .two⟩, ⟨[40], [40], 4⟩, [1], 4, false, true⟩ 1 =
      .ok ⟨2, 6, 3, 2, 2, 2, 33, 31, (List.range 6).map (groupRow 2)⟩ := by decide +kernel
  have whole : Header.Contains ⟨2, 6, 3, 2, 2, 2, 33, 31, (List.range 6).map (groupRow 2)⟩
      0 ⟨0, 0⟩ 4 := ⟨by decide +kernel, by decide +kernel, by decide +kernel⟩
  have paged : Header.Contains ⟨2, 6, 3, 2, 2, 2, 33, 31, (List.range 6).map (groupRow 2)⟩
      4 ⟨3, 0⟩ 18 := ⟨by decide +kernel, by decide +kernel, by decide +kernel⟩
  have answers := (lookup_extensibleArray (by decide +kernel) header).2 [[0], [17]]
  refine ⟨_, _, ⟨[⟨100, 4, 0⟩, ⟨101, 4, 0⟩, ⟨102, 4, 0⟩], [105, undefinedAddress],
      [undefinedAddress, 61, undefinedAddress, undefinedAddress]⟩, header, by decide +kernel,
    ⟨whole, by decide +kernel, by decide⟩, ⟨paged, by decide +kernel, by decide⟩, ?_,
    by decide +kernel, by decide +kernel⟩
  intro i k d mem
  rcases List.mem_cons.1 mem with same | mem
  · cases same
    exact (((answers [4] 4 (by decide) (by decide) (by decide)).2 _
      (by decide +kernel)).2.2 0 ⟨0, 0⟩ whole).2
  · cases List.mem_singleton.1 mem
    exact (((answers [18] 18 (by decide) (by decide) (by decide)).2 _
      (by decide +kernel)).2.2 4 ⟨3, 0⟩ paged).2

end ChunkStore.ChunkIndex
