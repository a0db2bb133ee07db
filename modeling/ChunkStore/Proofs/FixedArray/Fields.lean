import ChunkStore.Bytes.Lemmas
import ChunkStore.Proofs.FixedArray.Written
import Mathlib.Data.Nat.ModEq

/-!
# What an image tells of its entries

`build_eq_ok_iff` says when a builder gives an image, and which one: the stored sizes have to fit
their fields, and nothing else is checked. Addresses are cut to their width (`fields`), so an image
tells the entries up to what was cut off, and which pages have a chunk (`image_eq_iff`). Where all
addresses fit that is everything (`eq_of_fields_eq`); in narrower files every allocated entry can be
exchanged for another one that the image does not tell from it (`exists_same_bytes`,
`build_set_address`).
-/

namespace ChunkStore

namespace LittleEndian

theorem encode_eq_encode_iff {width m n : Nat} :
    encode width m = encode width n ↔ m % 256 ^ width = n % 256 ^ width := by
  constructor
  · intro same
    rw [← decode_encode, ← decode_encode, same]
  · intro same
    rw [← encode_mod width m, ← encode_mod width n, same]

end LittleEndian

theorem withChecksum_inj {first second : Bytes} :
    withChecksum first = withChecksum second ↔ first = second := by
  constructor
  · intro same
    have length := congrArg List.length same
    simp only [length_withChecksum, Nat.add_right_cancel_iff] at length
    exact (List.append_inj same length).1
  · rintro rfl
    rfl

theorem Bits.pack_inj {bits bits' : List Bool} (count : bits.length = bits'.length) :
    Bits.pack bits = Bits.pack bits' ↔ bits = bits' := by
  constructor
  · intro same
    obtain ⟨_, unpacked⟩ := Bits.unpack_pack bits
    obtain ⟨_, unpacked'⟩ := Bits.unpack_pack bits'
    rw [same, unpacked'] at unpacked
    exact (List.append_inj unpacked.symm count).1
  · rintro rfl
    rfl

/-! ## Lists that agree -/

section Lists

variable {α β γ : Type}

theorem map_eq_map_iff_of_iff {f : α → β} {g : α → γ} {xs ys : List α}
    (same : ∀ x ∈ xs, ∀ y ∈ ys, f x = f y ↔ g x = g y) :
    xs.map f = ys.map f ↔ xs.map g = ys.map g := by
  induction xs generalizing ys with
  | nil => simp
  | cons x xs ih =>
    cases ys with
    | nil => simp
    | cons y ys =>
      have heads := same x List.mem_cons_self y List.mem_cons_self
      have tails := @ih ys fun x memX y memY =>
        same x (List.mem_cons_of_mem _ memX) y (List.mem_cons_of_mem _ memY)
      simp only [List.map_cons, List.cons.injEq, heads, tails]

theorem takeChunks_map (f : α → β) (width count : Nat) (xs : List α) :
    takeChunks width count (xs.map f) = (takeChunks width count xs).map (List.map f) := by
  induction count generalizing xs with
  | zero => rfl
  | succ count ih => simp [takeChunks, List.map_take, ← ih, List.map_drop]

/-- A traversal whose steps succeed on some items, each with one result. -/
theorem mapM_eq_ok_iff_of_iff {ε : Type} {f : α → Except ε β} {g : α → β} {P : α → Prop}
    {xs : List α} {ys : List β} (step : ∀ x ∈ xs, ∀ y, f x = .ok y ↔ P x ∧ y = g x) :
    xs.mapM f = .ok ys ↔ (∀ x ∈ xs, P x) ∧ ys = xs.map g := by
  rw [mapM_eq_ok_iff]
  induction xs generalizing ys with
  | nil => simp [List.forall₂_nil_left_iff]
  | cons x xs ih =>
    have first := step x List.mem_cons_self
    have others := fun ys => @ih ys fun x mem => step x (List.mem_cons_of_mem _ mem)
    rw [List.forall₂_cons_left_iff]
    simp only [first, others, List.forall_mem_cons, List.map_cons]
    constructor
    · rintro ⟨_, _, ⟨here, rfl⟩, ⟨there, rfl⟩, rfl⟩
      exact ⟨⟨here, there⟩, rfl⟩
    · rintro ⟨⟨here, there⟩, rfl⟩
      exact ⟨_, _, ⟨here, rfl⟩, ⟨there, rfl⟩, rfl⟩

/-- An item may be exchanged for another one that `f` does not tell from it. -/
theorem map_set_of_eq {f : α → β} {xs : List α} {i : Nat} {x y : α} (found : xs[i]? = some x)
    (same : f y = f x) : (xs.set i y).map f = xs.map f := by
  apply List.ext_getElem?
  intro j
  rw [List.map_set, List.getElem?_set]
  split
  next here =>
    subst here
    obtain ⟨lt, rfl⟩ := List.getElem?_eq_some_iff.1 found
    simp [lt, same]
  next => rfl

end Lists

namespace FixedArrayBuilder

open Index.FixedArray ChunkStore.Parser

variable {b : FixedArrayBuilder} {d d' : Descriptor} {ds ds' : List Descriptor}

/-! ## Entries -/

/-- The field of stored sizes is wide enough for the entry's. -/
def Takes (b : FixedArrayBuilder) (d : Descriptor) : Prop :=
  ∀ n, b.sizeLength = some n → d.storedSize < 256 ^ n

/-- What the fields of an entry hold: the address cut to its width and, of a filtered chunk, its
size and mask. -/
def fields (b : FixedArrayBuilder) (d : Descriptor) : Nat × Option (Nat × UInt32) :=
  (d.address % 256 ^ b.widths.offsetSize, b.sizeLength.map fun _ => (d.storedSize, d.filterMask))

/-- The bytes of an entry. -/
def entryBytes (b : FixedArrayBuilder) (d : Descriptor) : Bytes :=
  LittleEndian.encode b.widths.offsetSize d.address ++
    match b.sizeLength with
    | none => []
    | some n => LittleEndian.encode n d.storedSize ++ LittleEndian.encode 4 d.filterMask.toNat

theorem length_entryBytes (b : FixedArrayBuilder) (d : Descriptor) :
    (b.entryBytes d).length = b.entrySize := by
  unfold entryBytes entrySize
  cases b.sizeLength <;> simp
  omega

theorem entrySize_pos (b : FixedArrayBuilder) : 0 < b.entrySize := by
  have pos : 0 < b.widths.offsetSize := b.widths.offset.bytes_pos
  unfold entrySize
  split <;> omega

theorem filteredFields_eq_ok_iff {n : Nat} (narrow : n ≤ 8) (size : d.storedSize ≤ maxWord)
    {raw : Bytes} : filteredFields n d = .ok raw ↔ d.storedSize < 256 ^ n ∧
      raw = LittleEndian.encode n d.storedSize ++ LittleEndian.encode 4 d.filterMask.toNat := by
  constructor
  · intro written
    obtain ⟨-, fit, same⟩ := filteredFields_eq_ok size written
    exact ⟨fit, same⟩
  · rintro ⟨fit, rfl⟩
    have small : ¬ (n < 8 ∧ 1 <<< (8 * n) ≤ d.storedSize) := by
      rw [Nat.one_shiftLeft, Nat.pow_mul, show 2 ^ 8 = 256 from rfl]
      omega
    rw [filteredFields, if_neg small, if_neg (by omega)]

theorem encodeEntry_eq_ok_iff (narrow : ∀ n, b.sizeLength = some n → n ≤ 8)
    (size : d.storedSize ≤ maxWord) {raw : Bytes} :
    b.encodeEntry d = .ok raw ↔ b.Takes d ∧ raw = b.entryBytes d := by
  unfold encodeEntry Takes entryBytes
  cases width : b.sizeLength with
  | none => simp [eq_comm]
  | some n =>
    simp only [map_eq_ok_iff, filteredFields_eq_ok_iff (narrow n width) size, Option.some.injEq,
      forall_eq']
    constructor
    · rintro ⟨_, ⟨fit, rfl⟩, rfl⟩
      exact ⟨fit, rfl⟩
    · rintro ⟨fit, rfl⟩
      exact ⟨_, ⟨fit, rfl⟩, rfl⟩

theorem entryBytes_eq_iff (takes : b.Takes d) (takes' : b.Takes d') :
    b.entryBytes d = b.entryBytes d' ↔ b.fields d = b.fields d' := by
  unfold entryBytes fields
  rw [List.append_eq_append_iff_of_size_eq_left (by simp), LittleEndian.encode_eq_encode_iff,
    Prod.mk.injEq, and_congr_right_iff]
  intro _
  cases width : b.sizeLength with
  | none => simp
  | some n =>
    have mask : d.filterMask.toNat < 256 ^ 4 := d.filterMask.toNat_lt
    have mask' : d'.filterMask.toNat < 256 ^ 4 := d'.filterMask.toNat_lt
    dsimp only
    rw [List.append_eq_append_iff_of_size_eq_left (by simp), LittleEndian.encode_eq_encode_iff,
      LittleEndian.encode_eq_encode_iff, Nat.mod_eq_of_lt (takes n width),
      Nat.mod_eq_of_lt (takes' n width), Nat.mod_eq_of_lt mask, Nat.mod_eq_of_lt mask',
      UInt32.toNat_inj]
    simp

theorem encodeEntries_eq_ok_iff (narrow : ∀ n, b.sizeLength = some n → n ≤ 8)
    (sizes : ∀ d ∈ ds, d.storedSize ≤ maxWord) {raw : Bytes} :
    b.encodeEntries ds = .ok raw ↔ (∀ d ∈ ds, b.Takes d) ∧ raw = ds.flatMap b.entryBytes := by
  unfold encodeEntries
  simp only [map_eq_ok_iff, List.flatMap_def,
    mapM_eq_ok_iff_of_iff fun d mem _ => encodeEntry_eq_ok_iff narrow (sizes d mem)]
  constructor
  · rintro ⟨_, ⟨takes, rfl⟩, rfl⟩
    exact ⟨takes, rfl⟩
  · rintro ⟨takes, rfl⟩
    exact ⟨_, ⟨takes, rfl⟩, rfl⟩

/-- Entries have the same bytes when their fields hold the same. -/
theorem flatMap_entryBytes_eq_iff (takes : ∀ d ∈ ds, b.Takes d) (takes' : ∀ d ∈ ds', b.Takes d) :
    ds.flatMap b.entryBytes = ds'.flatMap b.entryBytes ↔ ds.map b.fields = ds'.map b.fields := by
  have each : ds.map b.entryBytes = ds'.map b.entryBytes ↔ ds.map b.fields = ds'.map b.fields :=
    map_eq_map_iff_of_iff fun d mem d' mem' => entryBytes_eq_iff (takes d mem) (takes' d' mem')
  rw [← each, List.flatMap_def, List.flatMap_def]
  constructor
  · intro same
    rw [← chunksExact_flatten b.entrySize_pos (length_of_mem_map b.length_entryBytes), same,
      chunksExact_flatten b.entrySize_pos (length_of_mem_map b.length_entryBytes)]
  · intro same
    rw [same]

/-! ## The image -/

theorem flatten_pages (b : FixedArrayBuilder) : b.pages.flatten = b.entries := by
  have pos := b.pageEntries_pos
  have whole := Nat.div_add_mod' (b.entries.length + b.pageEntries - 1) b.pageEntries
  have rest := Nat.mod_lt (b.entries.length + b.pageEntries - 1) pos
  exact flatten_takeChunks_of_le (by omega)

theorem forall_pages_iff (b : FixedArrayBuilder) {P : Descriptor → Prop} :
    (∀ page ∈ b.pages, ∀ d ∈ page, P d) ↔ ∀ d ∈ b.entries, P d := by
  rw [← b.flatten_pages, List.forall_mem_flatten]

/-- The pages one after another, each with its checksum. -/
def pageImages (b : FixedArrayBuilder) : Bytes :=
  (b.pages.map fun page => withChecksum (page.flatMap b.entryBytes)).flatten

/-- What is built for a header at `address`. -/
def image (b : FixedArrayBuilder) (address : Nat) : Bytes :=
  b.header (address + headerLength b.widths) ++
    if b.entries.length ≤ b.pageEntries then b.block address (b.entries.flatMap b.entryBytes)
    else b.block address b.bitmap ++ b.pageImages

theorem entrySize_le_of_narrow (narrow : ∀ n, b.sizeLength = some n → n ≤ 8) :
    b.entrySize ≤ 255 := by
  have wide : b.widths.offsetSize ≤ 8 := b.widths.offset.bytes_le
  unfold entrySize
  split
  next n width =>
    have := narrow n width
    omega
  next => omega

/-- A builder gives an image when the stored sizes fit their fields and its header ends within 64
bits. Whether anything else fits its field is not asked. -/
theorem build_eq_ok_iff (narrow : ∀ n, b.sizeLength = some n → n ≤ 8)
    (sizes : ∀ d ∈ b.entries, d.storedSize ≤ maxWord) {address : Nat} {raw : Bytes} :
    b.build address = .ok raw ↔ address + headerLength b.widths ≤ maxWord ∧
      (∀ d ∈ b.entries, b.Takes d) ∧ raw = b.image address := by
  have small := entrySize_le_of_narrow narrow
  unfold build image
  simp only [guard_eq_ok_iff, bind_eq_ok_iff, Bounds.within_eq_ok_iff]
  by_cases one : b.entries.length ≤ b.pageEntries
  · simp only [if_pos one, bind_eq_ok_iff, encodeEntries_eq_ok_iff narrow sizes]
    constructor
    · rintro ⟨-, _, ⟨room, rfl⟩, _, ⟨takes, rfl⟩, ⟨⟩⟩
      exact ⟨room, takes, rfl⟩
    · rintro ⟨room, takes, rfl⟩
      exact ⟨by omega, _, ⟨room, rfl⟩, _, ⟨takes, rfl⟩, rfl⟩
  · have pages : ∀ raws, b.pages.mapM (fun page => do
        return withChecksum (← b.encodeEntries page)) = .ok raws ↔
        (∀ page ∈ b.pages, ∀ d ∈ page, b.Takes d) ∧
          raws = b.pages.map fun page => withChecksum (page.flatMap b.entryBytes) := by
      intro raws
      apply mapM_eq_ok_iff_of_iff
      intro page mem raw
      have held := b.forall_pages_iff.2 sizes page mem
      simp only [bind_eq_ok_iff, encodeEntries_eq_ok_iff narrow held]
      constructor
      · rintro ⟨_, ⟨takes, rfl⟩, ⟨⟩⟩
        exact ⟨takes, rfl⟩
      · rintro ⟨takes, rfl⟩
        exact ⟨_, ⟨takes, rfl⟩, rfl⟩
    simp only [if_neg one, markPages_eq, bind_eq_ok_iff, pages, b.forall_pages_iff]
    constructor
    · rintro ⟨-, _, ⟨room, rfl⟩, _, ⟨takes, rfl⟩, ⟨⟩⟩
      exact ⟨room, takes, List.append_assoc ..⟩
    · rintro ⟨room, takes, rfl⟩
      exact ⟨by omega, _, ⟨room, rfl⟩, _, ⟨takes, rfl⟩, congrArg Except.ok (List.append_assoc ..)⟩

/-! ## Two builders for one array -/

/-- The two builders are for one array: only what they hold at the indexes may differ. -/
structure Alike (b b' : FixedArrayBuilder) : Prop where
  widths : b'.widths = b.widths
  pageBits : b'.pageBits = b.pageBits
  sizeLength : b'.sizeLength = b.sizeLength
  count : b'.entries.length = b.entries.length

/-- Which pages have an allocated chunk; nothing of an array without pages. -/
def marks (b : FixedArrayBuilder) : List Bool :=
  if b.entries.length ≤ b.pageEntries then []
  else b.pages.map fun page => page.any Descriptor.isAllocated

namespace Alike

variable {b' : FixedArrayBuilder}

theorem holding (alike : b.Alike b') : b' = { b with entries := b'.entries } := by
  obtain ⟨widths, pageBits, sizeLength, -⟩ := alike
  cases b'
  simp_all

theorem entryBytes (alike : b.Alike b') : b'.entryBytes = b.entryBytes := by
  rw [alike.holding]
  rfl

theorem pageEntries_eq (alike : b.Alike b') : b'.pageEntries = b.pageEntries := by
  rw [alike.holding]
  rfl

theorem length_pages (alike : b.Alike b') : b'.pages.length = b.pages.length := by
  rw [alike.holding]
  simp [pages, pageEntries, alike.count]

/-- Something is the same for all pages when it is the same for all entries. -/
theorem map_pages_eq_iff {β : Type} (alike : b.Alike b') (f : Descriptor → β) :
    b.pages.map (List.map f) = b'.pages.map (List.map f) ↔
      b.entries.map f = b'.entries.map f := by
  constructor
  · intro same
    have joined := congrArg List.flatten same
    rwa [← List.map_flatten, ← List.map_flatten, flatten_pages, flatten_pages] at joined
  · intro same
    rw [alike.holding]
    unfold pages
    rw [← takeChunks_map, ← takeChunks_map, same]
    simp only [alike.count]
    rfl

theorem header_eq_iff (alike : b.Alike b') {block block' : Nat} :
    b.header block = b'.header block' ↔
      block % 256 ^ b.widths.offsetSize = block' % 256 ^ b.widths.offsetSize := by
  have count := alike.count
  rw [alike.holding]
  unfold header
  rw [withChecksum_inj, List.append_eq_append_iff_of_size_eq_left (by simp),
    LittleEndian.encode_eq_encode_iff]
  simp [client, entrySize, count]

theorem block_eq_iff (alike : b.Alike b') {address address' : Nat} {body body' : Bytes} :
    b.block address body = b'.block address' body' ↔
      address % 256 ^ b.widths.offsetSize = address' % 256 ^ b.widths.offsetSize ∧
        body = body' := by
  rw [alike.holding]
  unfold block
  rw [withChecksum_inj, List.append_eq_append_iff_of_size_eq_left (by simp),
    List.append_eq_append_iff_of_size_eq_left (by simp), LittleEndian.encode_eq_encode_iff]
  simp [client]

/-- The bits of the pages, when there are as many. -/
theorem bitmap_eq_iff (alike : b.Alike b') : b.bitmap = b'.bitmap ↔
    (b.pages.map fun page => page.any Descriptor.isAllocated) =
      b'.pages.map fun page => page.any Descriptor.isAllocated :=
  Bits.pack_inj (by simp [alike.length_pages])

theorem pageImages_eq_iff (alike : b.Alike b') (takes : ∀ d ∈ b.entries, b.Takes d)
    (takes' : ∀ d ∈ b'.entries, b.Takes d) :
    b.pageImages = b'.pageImages ↔ b.entries.map b.fields = b'.entries.map b.fields := by
  have lengths : b.pages.map List.length = b'.pages.map List.length := by
    have units : b.entries.map (fun _ => ()) = b'.entries.map fun _ => () := by
      simp [alike.count]
    have same := congrArg (List.map List.length) ((alike.map_pages_eq_iff fun _ => ()).2 units)
    simpa [Function.comp_def] using same
  have pages : ∀ page ∈ b.pages, ∀ page' ∈ b'.pages,
      withChecksum (page.flatMap b.entryBytes) = withChecksum (page'.flatMap b.entryBytes) ↔
        page.map b.fields = page'.map b.fields := by
    intro page mem page' mem'
    rw [withChecksum_inj]
    exact flatMap_entryBytes_eq_iff (b.forall_pages_iff.2 takes page mem)
      (b'.forall_pages_iff.2 takes' page' mem')
  rw [← alike.map_pages_eq_iff, ← map_eq_map_iff_of_iff pages, pageImages, pageImages,
    alike.entryBytes, List.eq_iff_flatten_eq, and_iff_left]
  have sizes (ps : List (List Descriptor)) :
      (ps.map fun page => withChecksum (page.flatMap b.entryBytes)).map List.length =
        (ps.map List.length).map (· * b.entrySize + 4) := by
    simp [length_withChecksum, length_flatMap_of_forall b.length_entryBytes]
  rw [sizes, sizes, lengths]

/-- Two images are the same when they are for the same place and every entry's fields and every
page's mark are the same. -/
theorem image_eq_iff (alike : b.Alike b') (takes : ∀ d ∈ b.entries, b.Takes d)
    (takes' : ∀ d ∈ b'.entries, b.Takes d) {address address' : Nat} :
    b.image address = b'.image address' ↔
      address % 256 ^ b.widths.offsetSize = address' % 256 ^ b.widths.offsetSize ∧
        b.entries.map b.fields = b'.entries.map b.fields ∧ b.marks = b'.marks := by
  have headers : (b.header (address + headerLength b.widths)).length =
      (b'.header (address' + headerLength b'.widths)).length := by
    rw [length_header, length_header, alike.widths]
  have moved : (address + headerLength b.widths) % 256 ^ b.widths.offsetSize =
        (address' + headerLength b.widths) % 256 ^ b.widths.offsetSize ↔
      address % 256 ^ b.widths.offsetSize = address' % 256 ^ b.widths.offsetSize :=
    ⟨Nat.ModEq.add_right_cancel' _, Nat.ModEq.add_right _⟩
  unfold image marks
  rw [List.append_eq_append_iff_of_size_eq_left headers, alike.header_eq_iff, alike.widths, moved,
    alike.pageEntries_eq, alike.count]
  by_cases one : b.entries.length ≤ b.pageEntries
  · simp only [if_pos one]
    rw [alike.block_eq_iff, alike.entryBytes, flatMap_entryBytes_eq_iff takes takes']
    tauto
  · have blocks : (b.block address b.bitmap).length = (b'.block address' b'.bitmap).length := by
      simp [length_block, bitmap, Bits.length_pack, alike.length_pages, alike.widths]
    simp only [if_neg one]
    rw [List.append_eq_append_iff_of_size_eq_left blocks, alike.block_eq_iff, alike.bitmap_eq_iff,
      alike.pageImages_eq_iff takes takes']
    tauto

theorem marks_eq (alike : b.Alike b')
    (same : b.entries.map Descriptor.isAllocated = b'.entries.map Descriptor.isAllocated) :
    b.marks = b'.marks := by
  have each := congrArg (List.map (·.any id)) ((alike.map_pages_eq_iff _).2 same)
  simp only [List.map_map, Function.comp_def, List.any_map, id] at each
  unfold marks
  rw [alike.pageEntries_eq, alike.count, each]

/-- What was built from two builders is the same when place, fields and marks are. -/
theorem build_eq_iff (alike : b.Alike b') (narrow : ∀ n, b.sizeLength = some n → n ≤ 8)
    (sizes : ∀ d ∈ b.entries, d.storedSize ≤ maxWord)
    (sizes' : ∀ d ∈ b'.entries, d.storedSize ≤ maxWord) {address address' : Nat}
    {raw raw' : Bytes} (built : b.build address = .ok raw) (built' : b'.build address' = .ok raw') :
    raw = raw' ↔ address % 256 ^ b.widths.offsetSize = address' % 256 ^ b.widths.offsetSize ∧
      b.entries.map b.fields = b'.entries.map b.fields ∧ b.marks = b'.marks := by
  have narrow' : ∀ n, b'.sizeLength = some n → n ≤ 8 := alike.sizeLength ▸ narrow
  obtain ⟨-, takes, rfl⟩ := (build_eq_ok_iff narrow sizes).1 built
  obtain ⟨-, takes', rfl⟩ := (build_eq_ok_iff narrow' sizes').1 built'
  apply alike.image_eq_iff takes
  intro d mem n width
  apply takes' d mem n
  rw [alike.sizeLength, width]

end Alike

/-! ## Addresses that fit, and addresses that are cut -/

theorem eq_of_mod_eq {widths : FileWidths} {address address' : Nat}
    (fits : Addressable widths address) (fits' : Addressable widths address')
    (same : address % 256 ^ widths.offsetSize = address' % 256 ^ widths.offsetSize) :
    address = address' := by
  have ones : undefinedAddress % 256 ^ widths.offsetSize = 256 ^ widths.offsetSize - 1 := by
    unfold FileWidths.offsetSize
    cases widths.offset <;> decide
  rcases fits with fits | rfl <;> rcases fits' with fits' | rfl
  · rwa [Nat.mod_eq_of_lt (by omega), Nat.mod_eq_of_lt (by omega)] at same
  · rw [Nat.mod_eq_of_lt (by omega), ones] at same
    omega
  · rw [Nat.mod_eq_of_lt (a := address') (by omega), ones] at same
    omega
  · rfl

/-- Entries with one content of their fields are one, as far as the array has fields for them. -/
theorem eq_of_fields_eq (fits : Addressable b.widths d.address)
    (fits' : Addressable b.widths d'.address) (same : b.fields d = b.fields d') :
    d.address = d'.address ∧ (b.sizeLength.isSome → d = d') := by
  obtain ⟨cut, rest⟩ := Prod.ext_iff.1 same
  have address : d.address = d'.address := eq_of_mod_eq fits fits' cut
  constructor
  · exact address
  · intro filtered
    obtain ⟨n, width⟩ := Option.isSome_iff_exists.1 filtered
    simp only [fields, width, Option.map_some, Option.some.injEq, Prod.mk.injEq] at rest
    obtain ⟨size, mask⟩ := rest
    cases d
    cases d'
    simp_all

/-- Eight bytes hold every 64-bit address. -/
theorem addressable_of_eight {widths : FileWidths} (wide : widths.offset = .eight) {address : Nat}
    (word : address ≤ maxWord) : Addressable widths address := by
  have largest : undefinedAddress + 1 = 256 ^ widths.offsetSize := by
    rw [FileWidths.offsetSize, wide]
    decide
  unfold Addressable
  have last : undefinedAddress = maxWord := rfl
  omega

/-- In narrower files another address has the same bytes. -/
theorem exists_same_bytes {widths : FileWidths} (narrow : widths.offset ≠ .eight) {address : Nat}
    (word : address ≤ maxWord) :
    ∃ other ≤ maxWord, other ≠ address ∧ other ≠ undefinedAddress ∧
      other % 256 ^ widths.offsetSize = address % 256 ^ widths.offsetSize := by
  have wide : 256 ^ widths.offsetSize ≤ 4294967296 := by
    unfold FileWidths.offsetSize
    generalize widths.offset = width at narrow ⊢
    cases width with
    | two => decide
    | four => decide
    | eight => exact absurd rfl narrow
  have pos : 0 < 256 ^ widths.offsetSize := Nat.pow_pos (by decide)
  have last : undefinedAddress = 18446744073709551615 := rfl
  have largest : maxWord = 18446744073709551615 := rfl
  rcases Nat.lt_or_ge address (256 ^ widths.offsetSize) with low | high
  · refine ⟨address + 256 ^ widths.offsetSize, ?_, ?_, ?_, Nat.add_mod_right ..⟩ <;> omega
  · refine ⟨address - 256 ^ widths.offsetSize, ?_, ?_, ?_, (Nat.mod_eq_sub_mod high).symm⟩ <;> omega

/-- Another address with the same bytes does not show at an allocated entry. -/
theorem build_set_address {i other : Nat} (narrow : ∀ n, b.sizeLength = some n → n ≤ 8)
    (sizes : ∀ d ∈ b.entries, d.storedSize ≤ maxWord) (found : b.entries[i]? = some d)
    (allocated : d.isAllocated = true) (somewhere : other ≠ undefinedAddress)
    (same : other % 256 ^ b.widths.offsetSize = d.address % 256 ^ b.widths.offsetSize)
    {address : Nat} {raw : Bytes} (built : b.build address = .ok raw) :
    (b.set i { d with address := other }).build address = .ok raw := by
  obtain ⟨room, takes, rfl⟩ := (build_eq_ok_iff narrow sizes).1 built
  have mem : d ∈ b.entries := List.mem_of_getElem? found
  set b' := b.set i { d with address := other } with exchanged
  have alike : b.Alike b' := ⟨rfl, rfl, rfl, List.length_set⟩
  have held : ∀ P : Nat → Prop, (∀ d ∈ b.entries, P d.storedSize) →
      ∀ d ∈ b'.entries, P d.storedSize := by
    intro P before x memX
    rcases List.mem_or_eq_of_mem_set memX with old | rfl
    · exact before x old
    · exact before d mem
  have takes' : ∀ d ∈ b'.entries, b.Takes d :=
    held (fun size => ∀ n, b.sizeLength = some n → size < 256 ^ n) takes
  have fields : b'.entries.map b.fields = b.entries.map b.fields :=
    map_set_of_eq found (by simp [FixedArrayBuilder.fields, same])
  have marked : b'.entries.map Descriptor.isAllocated = b.entries.map Descriptor.isAllocated :=
    map_set_of_eq found (by rw [allocated]; simpa [Descriptor.isAllocated] using somewhere)
  have image : b.image address = b'.image address :=
    (alike.image_eq_iff takes takes').2 ⟨rfl, fields.symm, alike.marks_eq marked.symm⟩
  exact (build_eq_ok_iff (b := b') narrow (held (· ≤ maxWord) sizes)).2 ⟨room, takes', image⟩

/-- What an image tells of the builder that it was built from. There is one when the stored sizes
fit and the header ends within 64 bits. Two images are the same when place, fields and marks are.
Where addresses have eight bytes, or all addresses fit, builders with one image hold the same. In
narrower files every allocated entry has another address that the image does not tell from its. -/
theorem build_tells_fields {b' : FixedArrayBuilder} (alike : b.Alike b')
    (narrow : ∀ n, b.sizeLength = some n → n ≤ 8)
    (words : ∀ d ∈ b.entries ++ b'.entries, d.address ≤ maxWord ∧ d.storedSize ≤ maxWord) :
    (∀ address, (∃ raw, b.build address = .ok raw) ↔
      address + headerLength b.widths ≤ maxWord ∧ ∀ d ∈ b.entries, b.Takes d) ∧
    (∀ address address' raw raw', b.build address = .ok raw → b'.build address' = .ok raw' →
      (raw = raw' ↔ address % 256 ^ b.widths.offsetSize = address' % 256 ^ b.widths.offsetSize ∧
        b.entries.map b.fields = b'.entries.map b.fields ∧ b.marks = b'.marks)) ∧
    ((b.widths.offset = .eight ∨ ∀ d ∈ b.entries ++ b'.entries, Addressable b.widths d.address) →
      ∀ address raw, b.build address = .ok raw → b'.build address = .ok raw →
        ∀ (i : Nat) (d d' : Descriptor), b.entries[i]? = some d → b'.entries[i]? = some d' →
          d.address = d'.address ∧ (b.sizeLength.isSome → d = d')) ∧
    (b.widths.offset ≠ .eight → ∀ (i : Nat) (d : Descriptor), b.entries[i]? = some d →
      d.isAllocated = true → ∃ other ≤ maxWord, other ≠ d.address ∧ other ≠ undefinedAddress ∧
        ∀ address raw, b.build address = .ok raw →
          (b.set i { d with address := other }).build address = .ok raw) := by
  have sizes : ∀ d ∈ b.entries, d.storedSize ≤ maxWord :=
    fun d mem => (words d (List.mem_append_left _ mem)).2
  have sizes' : ∀ d ∈ b'.entries, d.storedSize ≤ maxWord :=
    fun d mem => (words d (List.mem_append_right _ mem)).2
  refine ⟨?_, ?_, ?_, ?_⟩
  · intro address
    simp only [build_eq_ok_iff narrow sizes]
    constructor
    · rintro ⟨_, room, takes, -⟩
      exact ⟨room, takes⟩
    · rintro ⟨room, takes⟩
      exact ⟨_, room, takes, rfl⟩
  · intro address address' raw raw' built built'
    exact alike.build_eq_iff narrow sizes sizes' built built'
  · intro wide address raw built built' i d d' found found'
    have fits : ∀ d ∈ b.entries ++ b'.entries, Addressable b.widths d.address := by
      rcases wide with eight | fits
      · exact fun d mem => addressable_of_eight eight (words d mem).1
      · exact fits
    obtain ⟨-, fields, -⟩ := (alike.build_eq_iff narrow sizes sizes' built built').1 rfl
    have here : b.fields d = b.fields d' := by
      simpa [found, found'] using congrArg (·[i]?) fields
    apply eq_of_fields_eq _ _ here
    · exact fits d (List.mem_append_left _ (List.mem_of_getElem? found))
    · exact fits d' (List.mem_append_right _ (List.mem_of_getElem? found'))
  · intro small i d found allocated
    have mem : d ∈ b.entries ++ b'.entries := List.mem_append_left _ (List.mem_of_getElem? found)
    obtain ⟨other, word, differs, somewhere, same⟩ := exists_same_bytes small (words d mem).1
    refine ⟨other, word, differs, somewhere, fun address raw built => ?_⟩
    exact build_set_address narrow sizes found allocated somewhere same built

/-- Addresses of two bytes: 65552 is written as 16 is. -/
theorem build_tells_fields_beyond_two_bytes :
    let b := ofCount ⟨.two, .two⟩ 1 10 (some 2)
    let b₁ := b.set 0 ⟨16, 4, 0⟩
    let b₂ := b.set 0 ⟨65552, 4, 0⟩
    ∃ raw, b₁.build 0 = .ok raw ∧ b₂.build 0 = .ok raw := by
  intro b b₁ b₂
  have narrow : ∀ n, b.sizeLength = some n → n ≤ 8 := by
    rintro n ⟨⟩
    decide
  have takes : (∀ d ∈ b₁.entries, b.Takes d) ∧ ∀ d ∈ b₂.entries, b.Takes d := by
    constructor
    all_goals
      rintro d mem n ⟨⟩
      revert d
      decide
  have alike : b₁.Alike b₂ := ⟨rfl, rfl, rfl, rfl⟩
  have back : b₂.Alike b₁ := ⟨rfl, rfl, rfl, rfl⟩
  obtain ⟨succeeds₁, told, -, -⟩ := build_tells_fields alike narrow (by decide)
  obtain ⟨succeeds₂, -, -, -⟩ := build_tells_fields back narrow (by decide)
  obtain ⟨raw, built⟩ := (succeeds₁ 0).2 ⟨by decide, takes.1⟩
  obtain ⟨raw', built'⟩ := (succeeds₂ 0).2 ⟨by decide, takes.2⟩
  obtain rfl : raw = raw' :=
    (told 0 0 raw raw' built built').2 ⟨rfl, by decide +kernel, by decide +kernel⟩
  exact ⟨raw, built, built'⟩

end FixedArrayBuilder

end ChunkStore
