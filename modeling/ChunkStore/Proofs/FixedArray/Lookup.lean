import ChunkStore.Proofs.FixedArray.Written
import ChunkStore.Proofs.Grid.RowMajor
import ChunkStore.Proofs.Index.Handle

/-!
# Lookups in an array that was built

An array `Laid` down in a file is found again by every handle that holds nothing but decoded parts
of it (`Consistent`), whatever it has looked up before. `answers_entry` is the step: entry `i` of
the index is what the builder holds at `i`.
-/

namespace ChunkStore.FixedArrayBuilder

open Index Index.FixedArray Session ChunkStore.Parser

/-- The array stands at `address` in the file, and `s` describes its dataset. -/
structure Laid (b : FixedArrayBuilder) (s : Settings) (address : Nat) (file : Image) : Prop where
  readBy : b.ReadBy s
  fits : b.Fits
  room : address + headerLength b.widths + 1 < 256 ^ b.widths.offsetSize
  bound : file.length ≤ maxWord
  image : ∃ image, b.build address = .ok image ∧ Placed file address image

variable {b : FixedArrayBuilder} {s : Settings} {address : Nat} {file : Image}

/-- Where the data block starts. -/
def blockAddress (b : FixedArrayBuilder) (address : Nat) : Nat := address + headerLength b.widths

/-- Where the first page starts, in an array with pages. -/
def firstPage (b : FixedArrayBuilder) (address : Nat) : Nat :=
  b.blockAddress address + (b.block address b.bitmap).length

/-- Bytes from one page to the next. -/
def pageStride (b : FixedArrayBuilder) : Nat := b.pageEntries * b.entrySize + 4

/-- Where page `i` starts, in an array with pages. -/
def pageAddress (b : FixedArrayBuilder) (address i : Nat) : Nat :=
  b.firstPage address + i * b.pageStride

/-- The data block as its parser gives it. -/
def blockRead (b : FixedArrayBuilder) (s : Settings) (address : Nat) : Block :=
  if b.entries.length ≤ b.pageEntries then .unpaged (b.entries.map s.readBack)
  else .paged b.bitmap (b.firstPage address)

/-- The handle was opened on the array and holds nothing but parts of it. -/
structure Consistent (b : FixedArrayBuilder) (s : Settings) (address : Nat) (a : FixedArray) :
    Prop where
  opening : a.opening = (s, address)
  header : ∀ h, a.header = some h → h = b.headerRead (b.blockAddress address)
  block : ∀ x, a.block = some x → x = b.blockRead s address
  pages : ∀ i page entries, b.pages[i]? = some page →
    a.pages.get? (b.pageAddress address i) = some entries → entries = page.map s.readBack

theorem consistent_ofAddress (b : FixedArrayBuilder) (s : Settings) (address : Nat) :
    b.Consistent s address (.ofAddress s address) where
  opening := rfl
  header := fun _ held => by cases held
  block := fun _ held => by cases held
  pages := fun _ _ _ _ held => by cases held

/-- The index is such a handle. -/
def Serves (b : FixedArrayBuilder) (s : Settings) (address : Nat) (ix : ChunkIndex) : Prop :=
  ∃ a, ix = .fixedArray a ∧ b.Consistent s address a

theorem pageAddress_inj {i j : Nat} (same : b.pageAddress address i = b.pageAddress address j) :
    i = j := by
  have stride : 0 < b.pageStride := Nat.succ_pos _
  exact Nat.eq_of_mul_eq_mul_right stride (Nat.add_left_cancel same)

namespace Laid

theorem addressable (laid : b.Laid s address file) :
    Addressable b.widths address ∧ Addressable b.widths (b.blockAddress address) := by
  have room := laid.room
  exact ⟨.inl (by omega), .inl room⟩

/-- The header is placed, and with it one block with all the entries or a block and its pages. -/
theorem placed (laid : b.Laid s address file) :
    Placed file address (b.header (b.blockAddress address)) ∧
    ((b.entries.length ≤ b.pageEntries ∧ ∃ raw, b.encodeEntries b.entries = .ok raw ∧
        Placed file (b.blockAddress address) (b.block address raw)) ∨
      (b.pageEntries < b.entries.length ∧
        Placed file (b.blockAddress address) (b.block address b.bitmap) ∧ ∃ images,
        List.Forall₂ (fun page image => ∃ raw, b.encodeEntries page = .ok raw ∧
          image = withChecksum raw) b.pages images ∧
        Placed file (b.firstPage address) images.flatten)) := by
  obtain ⟨image, built, placed⟩ := laid.image
  obtain ⟨-, ⟨small, raw, encoded, rfl⟩ | ⟨large, images, encoded, rfl⟩⟩ := build_cases built
  · refine ⟨placed.left, .inl ⟨small, raw, encoded, ?_⟩⟩
    have block := placed.right
    rwa [length_header] at block
  · refine ⟨placed.left.left, .inr ⟨large, ?_, images, encoded, ?_⟩⟩
    · have block := placed.left.right
      rwa [length_header] at block
    · have pages := placed.right
      rwa [List.length_append, length_header, ← Nat.add_assoc] at pages

theorem answers_recallHeader (laid : b.Laid s address file) {x : FixedArray}
    (opened : x.opening = (s, address)) :
    Answers file (b.Consistent s address) x.recallHeader
      (b.headerRead (b.blockAddress address)) := by
  obtain ⟨rfl, rfl⟩ : x.settings = s ∧ x.address = address := Prod.ext_iff.1 opened
  refine answers_recallOne file (fun a h keeps held => keeps.header h held) ?_ ?_
  · intro a keeps
    exact { keeps with header := fun h held => by cases held; rfl }
  · obtain ⟨header, -⟩ := laid.placed
    refine .bind (.fetch (header.read ?_)) (.ofExcept ?_)
    · rw [length_header, laid.readBy.widths]
    · exact parse_header laid.readBy laid.fits laid.addressable.2 _

theorem answers_recallBlock (laid : b.Laid s address file) {x : FixedArray}
    (opened : x.opening = (s, address)) :
    Answers file (b.Consistent s address)
      (x.recallBlock (b.headerRead (b.blockAddress address))) (b.blockRead s address) := by
  obtain ⟨rfl, rfl⟩ : x.settings = s ∧ x.address = address := Prod.ext_iff.1 opened
  refine answers_recallOne file (fun a h keeps held => keeps.block h held) ?_ ?_
  · intro a keeps
    exact { keeps with block := fun h held => by cases held; rfl }
  · have bound := laid.bound
    obtain ⟨-, ⟨small, raw, encoded, block⟩ | ⟨large, block, -⟩⟩ := laid.placed
    · have inside := block.le
      obtain ⟨whole, parsed⟩ := parse_block_unpaged laid.readBy laid.fits
        (b.blockAddress x.address) laid.addressable.1 small encoded (by omega)
      rw [blockRead, if_pos small]
      refine .bind (.fetch (block.read ?_)) (.ofExcept parsed)
      rw [laid.readBy.widths, whole]
      exact saturate_blockLength (by omega)
    · have inside := block.le
      obtain ⟨whole, parsed⟩ := parse_block_paged laid.readBy (b.blockAddress x.address)
        laid.addressable.1 large (by omega)
      rw [blockRead, if_neg (by omega)]
      refine .bind (.fetch (block.read ?_)) (.ofExcept parsed)
      rw [laid.readBy.widths, whole]
      exact saturate_blockLength (by omega)

/-- A page of an array with pages is placed where the lookup expects it. -/
theorem placed_page (laid : b.Laid s address file) (large : b.pageEntries < b.entries.length)
    {i : Nat} {page : List Descriptor} (found : b.pages[i]? = some page) :
    ∃ raw, b.encodeEntries page = .ok raw ∧
      Placed file (b.pageAddress address i) (withChecksum raw) := by
  obtain ⟨-, ⟨small, -⟩ | ⟨-, -, images, encoded, placed⟩⟩ := laid.placed
  · omega
  obtain ⟨image, there, raw, wrote, rfl⟩ := forall₂_getElem? encoded found
  obtain ⟨more, -⟩ := getElem?_pages_eq_some.1 found
  have strides : ∀ r ∈ images.take i, r.length = b.pageStride := by
    intro r mem
    obtain ⟨j, at'⟩ := List.mem_iff_getElem?.1 mem
    rw [List.getElem?_take] at at'
    split at at'
    · next lt =>
        obtain ⟨earlier, foundEarlier, raw', wrote', rfl⟩ := forall₂_getElem? encoded.flip at'
        obtain ⟨size, -⟩ := arrayElements_encode laid.readBy laid.fits
          (mem_entries_of_page foundEarlier) wrote'
        rw [length_withChecksum, size, length_page_of_lt more lt foundEarlier, pageStride]
    · cases at'
  have count : (images.take i).length = i := by
    rw [List.length_take]
    exact Nat.min_eq_left (List.getElem?_eq_some_iff.1 there).1.le
  have place := placed.run there
  rw [length_flatten_of_forall strides, count] at place
  exact ⟨raw, wrote, place⟩

/-- In an array with pages the first page is full, so the distance of the pages is not cut off. -/
theorem pageStride_headerRead (laid : b.Laid s address file)
    (large : b.pageEntries < b.entries.length) :
    (b.headerRead (b.blockAddress address)).pageStride = b.pageStride := by
  have bound := laid.bound
  have first : b.pages[0]? = some (slice b.entries (0 * b.pageEntries) b.pageEntries) :=
    getElem?_pages_eq_some.2 ⟨by omega, rfl⟩
  obtain ⟨raw, wrote, place⟩ := laid.placed_page large first
  obtain ⟨size, -⟩ := arrayElements_encode laid.readBy laid.fits (mem_entries_of_page first) wrote
  rw [length_page first, Nat.min_eq_left (by omega)] at size
  have inside := place.le
  rw [length_withChecksum, size] at inside
  show saturate (saturate (b.pageEntries * b.entrySize) + 4) = b.pageEntries * b.entrySize + 4
  have product : saturate (b.pageEntries * b.entrySize) = b.pageEntries * b.entrySize :=
    saturate_of_le (by omega)
  rw [product, saturate_of_le (by omega)]

theorem answers_recallPage (laid : b.Laid s address file)
    (large : b.pageEntries < b.entries.length) {x : FixedArray} (opened : x.opening = (s, address))
    {i : Nat} {page : List Descriptor} (found : b.pages[i]? = some page) :
    Answers file (b.Consistent s address)
      (x.recallPage (b.headerRead (b.blockAddress address)) (b.firstPage address) i)
      (page.map s.readBack) := by
  obtain ⟨rfl, rfl⟩ : x.settings = s ∧ x.address = address := Prod.ext_iff.1 opened
  have bound := laid.bound
  obtain ⟨raw, wrote, place⟩ := laid.placed_page large found
  obtain ⟨size, decoded⟩ := arrayElements_encode laid.readBy laid.fits
    (mem_entries_of_page found) wrote
  obtain ⟨more, -⟩ := getElem?_pages_eq_some.1 found
  have inside := place.le
  have start : saturate (b.firstPage x.address + saturate (i *
      (b.headerRead (b.blockAddress x.address)).pageStride)) = b.pageAddress x.address i := by
    rw [laid.pageStride_headerRead large]
    rw [pageAddress] at inside ⊢
    rw [saturate_of_le (n := i * _) (by omega), saturate_of_le (by omega)]
  have count : b.entries.length ≤ maxWord := by
    have fit := laid.fits.count.trans_le (pow_lengthSize_le b.widths)
    have top : UInt64.size = maxWord + 1 := by decide
    omega
  refine .bind (.liftM (Bounds.within_eq_ok_iff.2 ⟨?_, rfl⟩))
    (.bind (.liftM (Bounds.sub_eq_ok_iff.2 (Nat.add_sub_of_le more.le))) ?_)
  · exact more.le.trans count
  rw [start]
  refine Memo.answers_recallAt file ?_ ?_ ?_
  · intro a entries keeps held
    exact keeps.pages i page entries found held
  · intro a keeps
    refine { keeps with pages := fun j other entries foundOther held => ?_ }
    dsimp only at held
    rw [Memo.get?_insert] at held
    split at held
    · next same =>
        obtain rfl := pageAddress_inj same
        cases held
        rw [found] at foundOther
        cases foundOther
        rfl
    · exact keeps.pages j other entries foundOther held
  · refine answers_pageEntries place ?_ bound decoded
    rw [size, length_page found]
    rfl

/-! ## Entries -/

/-- The bit of a page says whether it has an allocated chunk. -/
theorem bitIsSet_bitmap {i : Nat} {page : List Descriptor} (found : b.pages[i]? = some page) :
    bitIsSet b.bitmap i = page.any Descriptor.isAllocated := by
  obtain ⟨lt, -⟩ := List.getElem?_eq_some_iff.1 found
  rw [bitmap, bitIsSet_pack, List.getD_eq_getElem?_getD,
    List.getElem?_map, found]
  rfl

/-- Entry `i` of the index is what the builder holds there. -/
theorem answers_entry (laid : b.Laid s address file) (i : Nat) :
    Answers file (b.Consistent s address) (FixedArray.entry i)
      (s.readBack (b.entries.getD i .undefined)) := by
  apply Answers.get_bind
  intro x keeps
  apply Answers.bind (laid.answers_recallHeader keeps.opening)
  by_cases beyond : b.entries.length ≤ i
  · rw [List.getD_eq_getElem?_getD, List.getElem?_eq_none beyond, Option.getD_none,
      Settings.readBack_undefined]
    exact .ite_pos (.inl beyond) (.pure _)
  have somewhere : b.blockAddress address ≠ undefinedAddress := ne_undefinedAddress laid.room
  refine .ite_neg (fun h => h.elim beyond somewhere) ?_
  apply Answers.bind (laid.answers_recallBlock keeps.opening)
  by_cases small : b.entries.length ≤ b.pageEntries
  · rw [blockRead, if_pos small, ← Settings.getD_map_readBack]
    exact .pure _
  · rw [blockRead, if_neg small]
    obtain ⟨page, found, entry⟩ := page_of_entry (Nat.lt_of_not_le beyond)
    have value : s.readBack (b.entries.getD i .undefined) =
        (page.map s.readBack).getD (i % b.pageEntries) .undefined := by
      rw [Settings.getD_map_readBack, List.getD_eq_getElem?_getD, ← entry,
        ← List.getD_eq_getElem?_getD]
    cases inUse : bitIsSet b.bitmap (i / b.pageEntries) with
    | false =>
      -- A page without a bit has no allocated chunk, so nothing is at the entry either.
      have free : (b.entries.getD i .undefined).isAllocated = false := by
        rw [bitIsSet_bitmap found, List.any_eq_false] at inUse
        rw [List.getD_eq_getElem?_getD, ← entry]
        cases here : page[i % b.pageEntries]? with
        | none => rfl
        | some d => exact Bool.eq_false_iff.2 (inUse d (List.mem_of_getElem? here))
      rw [s.readBack_of_not_isAllocated free]
      refine .ite_pos ?_ (.pure _)
      show (!bitIsSet b.bitmap (i / b.pageEntries)) = true
      rw [inUse]
      rfl
    | true =>
      rw [value]
      refine .ite_neg ?_ ?_
      · show ¬ (!bitIsSet b.bitmap (i / b.pageEntries)) = true
        rw [inUse]
        decide
      · exact .bind (laid.answers_recallPage (by omega) keeps.opening found) (.pure _)

/-- A coordinate within the largest extent finds what the builder holds under its number, and one
beyond it finds nothing. -/
theorem answers_lookup (laid : b.Laid s address file) (c : Coordinate) :
    Answers file (b.Consistent s address) (FixedArray.lookup c)
      (if s.geometry.withinMax c then
        s.readBack (b.entries.getD (Coordinate.linearIndex c s.geometry.downMaxCounts) .undefined)
      else .undefined) := by
  apply Answers.get_bind
  intro x keeps
  obtain ⟨rfl, rfl⟩ : x.settings = s ∧ x.address = address := Prod.ext_iff.1 keeps.opening
  have somewhere : x.address ≠ undefinedAddress := by
    have room := laid.room
    exact @ne_undefinedAddress b.widths _ (by omega)
  cases inside : x.settings.geometry.withinMax c with
  | false => exact .ite_pos (.inr rfl) (.pure _)
  | true => exact .ite_neg (fun h => h.elim somewhere (by simp)) (laid.answers_entry _)

/-- A lookup answers from the array, and leaves a handle that holds nothing but parts of it. -/
theorem runOn_lookup (laid : b.Laid s address file) {ix : ChunkIndex}
    (serves : b.Serves s address ix) (c : Coordinate) :
    ∃ ix', (ChunkIndex.lookup c).runOn file ix =
        ((s.geometry.checkRank c).map fun _ => if s.geometry.withinMax c then
          s.readBack
            (b.entries.getD (Coordinate.linearIndex c s.geometry.downMaxCounts) .undefined)
          else .undefined, ix') ∧ b.Serves s address ix' := by
  obtain ⟨a, rfl, keeps⟩ := serves
  have settings : a.settings = s := (Prod.ext_iff.1 keeps.opening).1
  have geometry : (ChunkIndex.fixedArray a).geometry = s.geometry :=
    congrArg Settings.geometry settings
  cases right : s.geometry.checkRank c with
  | error e =>
    rw [ChunkIndex.runOn_lookup_rank file (geometry ▸ right)]
    exact ⟨_, rfl, a, rfl, keeps⟩
  | ok =>
    obtain ⟨a', run, keeps'⟩ := (laid.answers_lookup c).run a keeps
    rw [ChunkIndex.runOn_lookup file (geometry ▸ right)]
    simp only [run]
    exact ⟨_, rfl, a', rfl, keeps'⟩

/-- Lookups, whatever they are for, leave a handle that holds nothing but parts of the array. -/
theorem serves_after (laid : b.Laid s address file) {ix : ChunkIndex}
    (serves : b.Serves s address ix) (earlier : List Coordinate) :
    b.Serves s address (ix.after file earlier) := by
  induction earlier generalizing ix with
  | nil => exact serves
  | cons c earlier ih =>
    obtain ⟨ix', run, serves'⟩ := laid.runOn_lookup serves c
    rw [ChunkIndex.after_cons, run]
    exact ih serves'

/-- The array is found again by a handle opened on it, whatever was looked up before. -/
theorem lookup_after (laid : b.Laid s address file) {c : Coordinate} (holds : s.geometry.Holds c)
    (earlier : List Coordinate) :
    ((ChunkIndex.lookup c).runOn file
      ((ChunkIndex.fixedArray (.ofAddress s address)).after file earlier)).1 =
        .ok (s.readBack
          (b.entries.getD (Coordinate.linearIndex c s.geometry.downMaxCounts) .undefined)) := by
  have serves := laid.serves_after ⟨_, rfl, consistent_ofAddress b s address⟩ earlier
  obtain ⟨ix', run, -⟩ := laid.runOn_lookup serves c
  rw [run, holds.checkRank, if_pos holds.2]
  rfl

end Laid

/-! ## A sequence of sets -/

/-- A builder that is made for a grid has an entry for each of its chunks, none of them set. -/
theorem ofGeometry_eq_ok {widths : FileWidths} {g : Geometry} {filtered : Bool} {pageBits : UInt8}
    {b : FixedArrayBuilder} (started : ofGeometry widths g filtered pageBits = .ok b) :
    ∃ count, checkedProduct 1 g.scaledMaxDims = some count ∧
      b = ofCount widths count pageBits
        (if filtered then some (chunkSizeLength g.chunkBytes) else none) := by
  unfold ofGeometry at started
  split at started
  · cases started
  split at started
  · cases started
  next count product =>
    cases started
    exact ⟨count, product, rfl⟩

/-- Puts descriptors at their indexes, one after another. -/
def setAll (b : FixedArrayBuilder) (sets : List (Nat × Descriptor)) : FixedArrayBuilder :=
  sets.foldl (fun b p => b.set p.1 p.2) b

/-- The descriptor that was put at an index last. -/
def lastSet (sets : List (Nat × Descriptor)) (i : Nat) : Descriptor :=
  (sets.reverse.lookup i).getD .undefined

theorem setAll_cons (b : FixedArrayBuilder) (i : Nat) (d : Descriptor)
    (sets : List (Nat × Descriptor)) : b.setAll ((i, d) :: sets) = (b.set i d).setAll sets := rfl

/-- Sets change the entries and nothing else, and no entries come or go. -/
theorem setAll_frame (b : FixedArrayBuilder) (sets : List (Nat × Descriptor)) :
    (b.setAll sets).widths = b.widths ∧ (b.setAll sets).pageBits = b.pageBits ∧
      (b.setAll sets).sizeLength = b.sizeLength ∧
        (b.setAll sets).entries.length = b.entries.length := by
  induction sets generalizing b with
  | nil => exact ⟨rfl, rfl, rfl, rfl⟩
  | cons p sets ih =>
    obtain ⟨widths, pageBits, sizeLength, length⟩ := ih (b.set p.1 p.2)
    exact ⟨widths, pageBits, sizeLength, length.trans List.length_set⟩

theorem entries_setAll {b : FixedArrayBuilder} {i : Nat} (lt : i < b.entries.length)
    (sets : List (Nat × Descriptor)) :
    (b.setAll sets).entries.getD i .undefined =
      (sets.reverse.lookup i).getD (b.entries.getD i .undefined) := by
  induction sets generalizing b with
  | nil => rfl
  | cons p sets ih =>
    obtain ⟨j, d⟩ := p
    have lt' : i < (b.set j d).entries.length := by
      rwa [show (b.set j d).entries = b.entries.set j d from rfl, List.length_set]
    rw [setAll_cons, ih lt', List.reverse_cons, List.lookup_append]
    cases sets.reverse.lookup i with
    | some later => rfl
    | none =>
      rw [Option.getD_none, Option.none_or, List.getD_eq_getElem?_getD]
      show (b.entries.set j d)[i]?.getD .undefined = _
      rw [List.getElem?_set]
      by_cases same : j = i
      · subst same
        simp [lt]
      · have other : (i == j) = false := beq_eq_false_iff_ne.2 fun h => same h.symm
        simp [same, other, List.lookup_cons, List.getD_eq_getElem?_getD]

theorem mem_entries_setAll {b : FixedArrayBuilder} {sets : List (Nat × Descriptor)}
    {d : Descriptor} (mem : d ∈ (b.setAll sets).entries) :
    d ∈ b.entries ∨ ∃ p ∈ sets, p.2 = d := by
  induction sets generalizing b with
  | nil => exact .inl mem
  | cons p sets ih =>
    rcases ih mem with before | ⟨q, later, same⟩
    · rcases List.mem_or_eq_of_mem_set before with old | new
      · exact .inl old
      · exact .inr ⟨p, List.mem_cons_self, new.symm⟩
    · exact .inr ⟨q, List.mem_cons_of_mem p later, same⟩

/-- An empty builder after some sets holds at each of its indexes what was set there last. -/
theorem entries_ofCount_setAll {widths : FileWidths} {count i : Nat} {pageBits : UInt8}
    {sizeLength : Option Nat} (sets : List (Nat × Descriptor)) (lt : i < count) :
    ((ofCount widths count pageBits sizeLength).setAll sets).entries.getD i .undefined =
      lastSet sets i := by
  have length : (ofCount widths count pageBits sizeLength).entries.length = count :=
    List.length_replicate
  have free : (ofCount widths count pageBits sizeLength).entries.getD i .undefined =
      .undefined := by
    show (List.replicate count Descriptor.undefined).getD _ _ = _
    rw [List.getD_eq_getElem?_getD, List.getElem?_replicate]
    split <;> rfl
  rw [entries_setAll (Nat.lt_of_lt_of_eq lt length.symm), free]
  rfl

/-- The image of an empty builder after some sets is an array laid down where it stands. -/
theorem laid_of_build {widths : FileWidths} {count : Nat} {pageBits : UInt8}
    {sizeLength : Option Nat} {sets : List (Nat × Descriptor)} {address : Nat} {image file : Bytes}
    {s : Settings} (countFits : count < 256 ^ widths.lengthSize)
    (sizeFits : ∀ n, sizeLength = some n → 1 ≤ n ∧ n ≤ 8)
    (addressable : ∀ p ∈ sets, Addressable widths p.2.address)
    (words : ∀ p ∈ sets, p.2.storedSize ≤ maxWord)
    (built : ((ofCount widths count pageBits sizeLength).setAll sets).build address = .ok image)
    (placed : Placed file address image)
    (room : address + headerLength widths + 1 < 256 ^ widths.offsetSize)
    (bound : file.length ≤ maxWord) (sameWidths : s.widths = widths)
    (filtered : s.filtered = sizeLength.isSome) :
    ((ofCount widths count pageBits sizeLength).setAll sets).Laid s address file := by
  generalize start : ofCount widths count pageBits sizeLength = b at built
  have none : ∀ d ∈ b.entries, d = .undefined := by
    rw [← start]
    exact fun d mem => List.eq_of_mem_replicate mem
  have length : b.entries.length = count := by
    rw [← start]
    exact List.length_replicate
  obtain ⟨frameWidths, -, frameSize, frameLength⟩ := setAll_frame b sets
  have fits : (b.setAll sets).Fits := by
    refine ⟨?_, ?_, ?_, ?_⟩
    · rw [frameLength, frameWidths, length, ← start]; exact countFits
    · rw [frameSize, ← start]; exact sizeFits
    · intro d mem
      rw [frameWidths, ← start]
      rcases mem_entries_setAll mem with old | ⟨p, new, rfl⟩
      · rw [none d old]; exact .inr rfl
      · exact addressable p new
    · intro d mem
      rcases mem_entries_setAll mem with old | ⟨p, new, rfl⟩
      · rw [none d old]; exact Nat.zero_le _
      · exact words p new
  refine ⟨⟨?_, ?_⟩, fits, ?_, bound, image, built, placed⟩
  · rw [frameWidths, sameWidths, ← start]; rfl
  · rw [frameSize, filtered, ← start]; rfl
  · rw [frameWidths, ← start]; exact room

/-- What is set last at an index is found again at every coordinate with this number: with its
size and filter mask in a filtered array, by its address in an unfiltered one, and as undefined
where nothing is allocated. The array may stand anywhere in a file, and the handle may have
answered any lookups before. -/
theorem lookup_of_build {widths : FileWidths} {count : Nat} {pageBits : UInt8}
    {sizeLength : Option Nat} {sets : List (Nat × Descriptor)} {address : Nat} {image file : Bytes}
    {s : Settings} {c : Coordinate} (countFits : count < 256 ^ widths.lengthSize)
    (sizeFits : ∀ n, sizeLength = some n → 1 ≤ n ∧ n ≤ 8)
    (addressable : ∀ p ∈ sets, Addressable widths p.2.address)
    (words : ∀ p ∈ sets, p.2.storedSize ≤ maxWord)
    (built : ((ofCount widths count pageBits sizeLength).setAll sets).build address = .ok image)
    (placed : Placed file address image)
    (room : address + headerLength widths + 1 < 256 ^ widths.offsetSize)
    (bound : file.length ≤ maxWord) (sameWidths : s.widths = widths)
    (filtered : s.filtered = sizeLength.isSome)
    (ranks : s.geometry.scaledMaxDims.length = s.geometry.rank)
    (extent : s.geometry.scaledMaxDims.prod = count) (holds : s.geometry.Holds c)
    (earlier : List Coordinate) :
    ((ChunkIndex.lookup c).runOn file
      ((ChunkIndex.fixedArray (.ofAddress s address)).after file earlier)).1 =
        .ok (s.readBack (lastSet sets (Coordinate.linearIndex c s.geometry.downMaxCounts))) := by
  have number : Coordinate.linearIndex c s.geometry.downMaxCounts < count := by
    rw [← extent] at countFits ⊢
    exact holds.linearIndex_lt ranks (countFits.le.trans (pow_lengthSize_le widths))
  have laid := laid_of_build countFits sizeFits addressable words built placed room bound
    sameWidths filtered
  rw [laid.lookup_after holds earlier, entries_ofCount_setAll sets number]

/-- Three entries in pages of one, of which the middle one was set, after lookups on both sides. -/
theorem lookup_in_one_page_of_three : ∃ image,
    ((ofCount ⟨.two, .two⟩ 3 0 none).setAll [(1, ⟨5, 1, 0⟩)]).build 1 = .ok image ∧
    ((ChunkIndex.lookup [1]).runOn ([7] ++ image ++ [8])
      ((ChunkIndex.fixedArray (.ofAddress
        ⟨⟨.two, .two⟩, ⟨[3], [3], 4⟩, [1], 4, false, true⟩ 1)).after ([7] ++ image ++ [8])
          [[2], [0]])).1 = .ok ⟨5, 4, 0⟩ := by
  have built : ((ofCount ⟨.two, .two⟩ 3 0 none).setAll [(1, ⟨5, 1, 0⟩)]).build 1 =
      .ok [70, 65, 72, 68, 0, 0, 2, 0, 3, 0, 17, 0, 62, 196, 192, 157, 70, 65, 68, 66, 0, 0, 1, 0,
        64, 181, 173, 247, 157, 255, 255, 226, 122, 186, 141, 5, 0, 93, 111, 190, 201, 255, 255,
        226, 122, 186, 141] := by decide +kernel
  refine ⟨_, built, ?_⟩
  exact lookup_of_build (by decide) (by simp) (by decide) (by decide) built
    ⟨[7], [8], rfl, rfl⟩ (by decide) (by decide) rfl rfl rfl rfl (by decide) [[2], [0]]

end ChunkStore.FixedArrayBuilder
