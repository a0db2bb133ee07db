import ChunkStore.Proofs.Index.InRange
import ChunkStore.Proofs.Screening

/-!
# Lookups with and without checksums

On a new handle that compares checksums a lookup gives what it gives on one that does not, or it
fails because a checksum does not match; it reads the same ranges of the file, or, where it fails
so, the first of them (`ChunkIndex.lookup_screened`). Every structure ends with its checksum: what
its decoder passes before the check is all of the structure but four bytes, for every width, count
and depth. Of a node of a version 2 B-tree this follows from what its header says of the widths of
records and pointers (`TreeTwo.Header.Measured`).
-/

namespace ChunkStore.Index

open Session
open ChunkStore.Parser (Ensures Spans)

variable {image : Image} {s : Settings} {address : Nat}

/-! ## What arrays share -/

/-- A sum that is less than the largest number was not cut off. -/
theorem saturate_eq_of_lt {n : Nat} (less : saturate n < maxWord) : saturate n = n := by
  unfold saturate at less ⊢
  omega

theorem saturate_add_eq_of_lt {n m : Nat} (less : saturate (saturate n + m) < maxWord) :
    saturate (saturate n + m) = n + m := by
  unfold saturate at less ⊢
  omega

theorem eq_of_byteSpan {count width bytes : Nat} {part : Part}
    (done : byteSpan count width part = .ok bytes) : bytes = count * width := by
  unfold byteSpan at done
  split at done
  next span =>
    cases done
    exact (checked_eq_some_iff.1 span).2.symm
  next => cases done

theorem Settings.spans_client (s : Settings) (part : Part) : Spans 1 (s.client part) :=
  (Spans.uint 1).bind_last fun _ => .guard (.pure _)

theorem Settings.spans_owner (s : Settings) (header : Nat) (part : Part) :
    Spans s.widths.offsetSize (s.owner header part) :=
  (Spans.address _).bind_last fun _ => .guard (.pure _)

theorem screened_pageEntries {σ : Type} {strict : σ → σ} (bound : image.length < maxWord)
    (s : Settings) (part : Part) (address count width : Nat) :
    Session.Screened image (fun _ => True) strict
      (pageEntries s part address count width (σ := σ))
      (pageEntries s.verifying part address count width) := by
  refine .bind_any (.ofExcept (.refl _)) fun body => ?_
  refine (Session.Screened.fetch _ _).bind (.fetch fun _ read => length_of_read read)
    fun bytes read => ?_
  have whole : saturate (body + 4) = body + 4 := saturate_eq_of_lt (by omega)
  refine .ofExcept ((s.screened_check part address ?_ ?_).bind fun _ _ => .refl _)
  all_goals omega

/-! ## Fixed arrays -/

namespace FixedArray

/-- The handle with checksums compared. -/
def verifying (a : FixedArray) : FixedArray := { a with settings := a.settings.verifying }

theorem screened_headerParser (s : Settings) (address : Nat) {bytes : Bytes}
    (whole : bytes.length = headerLength s.widths) (fits : bytes.length ≤ maxWord) :
    Parser.Screened 0 (headerParser s address bytes) (headerParser s.verifying address bytes) := by
  refine .bind (.signature ..) fun _ => .bind (.version ..) fun _ => ?_
  refine .bind (s.spans_client _) fun _ => .bind (.uint 1) fun _ => .bind (.lift _) fun _ => ?_
  refine .bind .byte fun _ => .bind (.length _) fun _ => .bind (.address _) fun _ => ?_
  refine .bind_check s ?_ fits
  rw [whole, headerLength]

theorem screened_blockParser (s : Settings) (address : Nat) (h : Header) {bytes : Bytes}
    (whole : bytes.length = blockPrefix s.widths + h.bodyLength + 4)
    (fits : bytes.length ≤ maxWord) :
    Parser.Screened 0 (blockParser s address h bytes)
      (blockParser s.verifying address h bytes) := by
  refine .bind (.signature ..) fun _ => .bind (.version ..) fun _ => ?_
  refine .bind (s.spans_client _) fun _ => .bind (s.spans_owner ..) fun _ => ?_
  refine .bind (.take _) fun _ => .bind_check s ?_ fits
  rw [whole, blockPrefix]

theorem screened_recallHeader (bound : image.length < maxWord) (a : FixedArray) :
    Session.Screened image (fun _ => True) verifying a.recallHeader a.verifying.recallHeader :=
  screened_recallOne (fun _ => rfl) (fun _ _ => rfl)
    (.fetch_parse fun _ whole _ => screened_headerParser _ _ whole (by omega))

theorem screened_recallBlock (bound : image.length < maxWord) (a : FixedArray) (h : Header) :
    Session.Screened image (fun _ => True) verifying (a.recallBlock h)
      (a.verifying.recallBlock h) := by
  refine screened_recallOne (fun _ => rfl) (fun _ _ => rfl)
    (.fetch_parse fun bytes length inside => ?_)
  rw [saturate_add_eq_of_lt (by omega)] at length
  exact screened_blockParser _ _ h length (by omega)

theorem screened_recallPage (bound : image.length < maxWord) (a : FixedArray) (h : Header)
    (firstPage page : Nat) :
    Session.Screened image (fun _ => True) verifying (a.recallPage h firstPage page)
      (a.verifying.recallPage h firstPage page) := by
  refine .bind_any (.liftM _) fun _ => .bind_any (.liftM _) fun _ => ?_
  exact Memo.screened_recallAt (fun _ => rfl) (fun _ _ => rfl) (screened_pageEntries bound ..)

theorem screened_entry (bound : image.length < maxWord) (i : Nat) :
    Session.Screened image (fun _ => True) verifying (entry i) (entry i) := by
  refine .get_bind fun a _ => .bind_any (screened_recallHeader bound a) fun h => ?_
  refine .ite (.pure _) (.bind_any (screened_recallBlock bound a h) fun b => ?_)
  cases b with
  | unpaged entries => exact .pure _
  | paged bitmap firstPage =>
    exact .ite (.pure _) (.bind_any (screened_recallPage bound a h firstPage _) fun _ => .pure _)

theorem screened_lookup (bound : image.length < maxWord) (c : Coordinate) :
    Session.Screened image (fun _ => True) verifying (lookup c) (lookup c) :=
  .get_bind fun _ _ => .ite (.pure _) (screened_entry bound _)

end FixedArray

/-! ## Extensible arrays -/

namespace ExtensibleArray

/-- The handle with checksums compared. -/
def verifying (a : ExtensibleArray) : ExtensibleArray :=
  { a with settings := a.settings.verifying }

theorem screened_headerParser (s : Settings) (address : Nat) {bytes : Bytes}
    (whole : bytes.length = headerLength s.widths) (fits : bytes.length ≤ maxWord) :
    Parser.Screened 0 (headerParser s address bytes) (headerParser s.verifying address bytes) := by
  refine .bind (.signature ..) fun _ => .bind (.version ..) fun _ => ?_
  refine .bind (s.spans_client _) fun _ => .bind (.uint 1) fun _ => .bind (.lift _) fun _ => ?_
  refine .bind (.uint 1) fun _ => .bind (.uint 1) fun _ => .bind (.uint 1) fun _ => ?_
  refine .bind (.uint 1) fun _ => .bind (.uint 1) fun _ => .guard (.guard ?_)
  refine .bind (.times (.length _) 4) fun _ => .bind (.length _) fun _ => ?_
  refine .bind (.length _) fun _ => .bind (.address _) fun _ => .bind_check s ?_ fits
  rw [whole, headerLength]
  omega

theorem spans_blockStart (s : Settings) (signature : String) (part : Part) (header : Nat) :
    Spans (6 + s.widths.offsetSize) (blockStart s signature part header) := by
  have parts : Spans (4 + (1 + (1 + s.widths.offsetSize))) (blockStart s signature part header) :=
    .bind (.signature ..) fun _ => .bind (.version ..) fun _ => .bind (s.spans_client _) fun _ =>
      s.spans_owner ..
  rwa [← Nat.add_assoc, ← Nat.add_assoc] at parts

theorem spans_entryParser (s : Settings) (h : Header) : Spans h.entrySize (entryParser s h) :=
  (Spans.take _).bind_last fun _ => .lift _

theorem screened_indexBlockParser (s : Settings) (address : Nat) (h : Header) {bytes : Bytes}
    (whole : bytes.length = 6 + s.offsetSize + h.indexElements * h.entrySize +
      (h.directBlocks + h.indirectGroups) * s.offsetSize + 4)
    (fits : bytes.length ≤ maxWord) :
    Parser.Screened 0 (indexBlockParser s address h bytes)
      (indexBlockParser s.verifying address h bytes) := by
  refine .bind (spans_blockStart ..) fun _ => .bind (.times (spans_entryParser s h) _) fun _ => ?_
  refine .bind (.times (.address _) _) fun _ => .bind (.times (.address _) _) fun _ => ?_
  refine .bind_check s ?_ fits
  rw [whole, Nat.add_mul, Settings.offsetSize]
  omega

theorem screened_secondaryBlockParser (s : Settings) (address : Nat) (h : Header) (group : Group)
    (bitmap own : Nat) {bytes : Bytes}
    (whole : bytes.length = h.blockOverhead s.offsetSize + bitmap + group.blocks * s.offsetSize)
    (fits : bytes.length ≤ maxWord) :
    Parser.Screened 0 (secondaryBlockParser s address h group bitmap own bytes)
      (secondaryBlockParser s.verifying address h group bitmap own bytes) := by
  refine .bind (spans_blockStart ..) fun _ => .bind (.skip _) fun _ => .bind (.take _) fun _ => ?_
  refine .bind (.times (.address _) _) fun _ => .bind_check s ?_ fits
  rw [whole, Header.blockOverhead, Settings.offsetSize]
  omega

theorem screened_dataBlockParser (s : Settings) (address : Nat) (h : Header) (body own : Nat)
    {bytes : Bytes} (whole : bytes.length = h.blockOverhead s.offsetSize + body)
    (fits : bytes.length ≤ maxWord) :
    Parser.Screened 0 (dataBlockParser s address h body own bytes)
      (dataBlockParser s.verifying address h body own bytes) := by
  refine .bind (spans_blockStart ..) fun _ => .bind (.skip _) fun _ => .bind (.take _) fun _ => ?_
  refine .bind_check s ?_ fits
  rw [whole, Header.blockOverhead, Settings.offsetSize]
  omega

theorem screened_recallHeader (bound : image.length < maxWord) (a : ExtensibleArray) :
    Session.Screened image (fun _ => True) verifying a.recallHeader a.verifying.recallHeader :=
  screened_recallOne (fun _ => rfl) (fun _ _ => rfl)
    (.fetch_parse fun _ whole _ => screened_headerParser _ _ whole (by omega))

theorem screened_recallIndexBlock (bound : image.length < maxWord) (a : ExtensibleArray)
    (h : Header) :
    Session.Screened image (fun _ => True) verifying (a.recallIndexBlock h)
      (a.verifying.recallIndexBlock h) := by
  refine screened_recallOne (fun _ => rfl) (fun _ _ => rfl) ?_
  refine .bind_liftM fun length fits => .fetch_parse fun bytes whole inside => ?_
  obtain ⟨-, rfl⟩ := Bounds.within_eq_ok_iff.1 fits
  exact screened_indexBlockParser _ _ h whole (by omega)

theorem screened_recallSecondaryBlock (bound : image.length < maxWord) (a : ExtensibleArray)
    (h : Header) (group : Group) (own : Nat) :
    Session.Screened image (fun _ => True) verifying (a.recallSecondaryBlock h group own)
      (a.verifying.recallSecondaryBlock h group own) := by
  refine Memo.screened_recallAt (fun _ => rfl) (fun _ _ => rfl) ?_
  refine .bind_any (.ofExcept (.refl _)) fun bitmap => .bind (.ofExcept (.refl _))
    (.ofExcept fun _ done => done) fun pointers span => ?_
  obtain rfl := eq_of_byteSpan span
  refine .fetch_parse fun bytes length inside => ?_
  rw [saturate_add_eq_of_lt (by omega)] at length
  exact screened_secondaryBlockParser _ _ h group bitmap own length (by omega)

theorem screened_recallDataBlock (bound : image.length < maxWord) (a : ExtensibleArray)
    (h : Header) (blockEntries own : Nat) :
    Session.Screened image (fun _ => True) verifying (a.recallDataBlock h blockEntries own)
      (a.verifying.recallDataBlock h blockEntries own) := by
  refine Memo.screened_recallAt (fun _ => rfl) (fun _ _ => rfl) ?_
  refine .bind_any (.ofExcept (.refl _)) fun body => .fetch_parse fun bytes length inside => ?_
  rw [saturate_eq_of_lt (by omega)] at length
  exact screened_dataBlockParser _ _ h body own length (by omega)

theorem screened_recallPage (bound : image.length < maxWord) (a : ExtensibleArray) (h : Header)
    (block page : Nat) :
    Session.Screened image (fun _ => True) verifying (a.recallPage h block page)
      (a.verifying.recallPage h block page) := by
  unfold recallPage
  exact Memo.screened_recallAt (fun _ => rfl) (fun _ _ => rfl) (screened_pageEntries bound ..)

theorem screened_blockEntry (bound : image.length < maxWord) (a : ExtensibleArray) (h : Header)
    (block blockEntries offset : Nat) :
    Session.Screened image (fun _ => True) verifying (a.blockEntry h block blockEntries offset)
      (a.verifying.blockEntry h block blockEntries offset) := by
  refine .ite ?_ ?_
  · exact .bind_any (screened_recallDataBlock bound ..) fun _ => .pure _
  · exact .bind_any (screened_recallPage bound ..) fun _ => .pure _

theorem screened_entryAt (bound : image.length < maxWord) (a : ExtensibleArray) (h : Header)
    (b : IndexBlock) (p : Place) :
    Session.Screened image (fun _ => True) verifying (a.entryAt h b p)
      (a.verifying.entryAt h b p) := by
  cases p with
  | inIndexBlock slot => exact .liftM _
  | beyond => exact .pure _
  | direct group block offset => exact .ite (.pure _) (screened_blockEntry bound ..)
  | indirect group secondary block offset =>
    refine .ite (.pure _) (.bind_any (screened_recallSecondaryBlock bound a h group _) fun sb => ?_)
    exact .ite (.pure _) (.ite (.pure _) (screened_blockEntry bound ..))

theorem screened_entry (bound : image.length < maxWord) (i : Nat) :
    Session.Screened image (fun _ => True) verifying (entry i) (entry i) := by
  refine .get_bind fun a _ => .bind_any (screened_recallHeader bound a) fun h => ?_
  refine .ite (.pure _) (.bind_any (screened_recallIndexBlock bound a h) fun b => ?_)
  exact .bind_any (.liftM _) fun p => screened_entryAt bound a h b p

theorem screened_lookup (bound : image.length < maxWord) (c : Coordinate) :
    Session.Screened image (fun _ => True) verifying (lookup c) (lookup c) :=
  .get_bind fun _ _ => .ite (.pure _) (screened_entry bound _)

end ExtensibleArray

/-! ## Version 1 B-trees -/

namespace TreeOne

/-- The handle with checksums compared, of which there are none in such a tree. -/
def verifying (t : TreeOne) : TreeOne := { t with settings := t.settings.verifying }

theorem screened_recallNode (s : Settings) (address : Nat) :
    Session.Screened image (fun _ => True) verifying (recallNode s address)
      (recallNode s.verifying address) := by
  refine Memo.screened_recallAt (fun _ => rfl) (fun _ _ => rfl) ?_
  refine .bind_any (.fetch ..) fun head => ?_
  refine .bind_any (.ofExcept (.refl _)) fun (level, entries) => ?_
  refine .bind_any (.liftM _) fun start => .bind_any (.liftM _) fun length => ?_
  exact .fetch_parse fun _ _ _ => .refl _

theorem screened_descend (s : Settings) (target : List Nat) (level : Nat) (n : Node) :
    Session.Screened image (fun _ => True) verifying (descend s target level n)
      (descend s.verifying target level n) := by
  induction level generalizing n with
  | zero =>
    refine .bind_any (.liftM _) fun slot => ?_
    cases slot with
    | none => exact .pure _
    | some slot => exact .liftM _
  | succ level ih =>
    refine .bind_any (.liftM _) fun slot => ?_
    cases slot with
    | none => exact .pure _
    | some slot =>
      refine .bind_any (.liftM _) fun address => .bind_any (screened_recallNode ..) fun child => ?_
      exact .ite (.bind_any (.throw _) fun _ => ih child) (ih child)

theorem screened_lookup (c : Coordinate) :
    Session.Screened image (fun _ => True) verifying (lookup c) (lookup c) :=
  .get_bind fun t _ => .ite (.pure _) (.bind_any (screened_recallNode ..) fun root =>
    screened_descend t.settings _ root.level root)

end TreeOne

/-! ## Version 2 B-trees -/

namespace TreeTwo

variable {h : Header}

/-- The handle with checksums compared. -/
def verifying (t : TreeTwo) : TreeTwo := { t with settings := t.settings.verifying }

/-- What a header that was read says of the widths of records and pointers. -/
structure Header.Measured (s : Settings) (h : Header) : Prop where
  unfiltered : s.filtered = false → h.recordSize = recordBase s
  pointer : ∀ depth capacity totalSize, 0 < depth → h.capacity[depth]? = some capacity →
    totalSizeAt h depth = .ok totalSize →
    capacity.pointerSize = s.offsetSize + h.countSize + totalSize

/-- A pointer has an address, a number of records and, above the lowest inner nodes, the number of
all records below the child. -/
theorem Header.Accepted.totalSizeAt_eq {nodeSize depth : Nat} (accepted : h.Accepted s nodeSize)
    (inside : depth + 1 ≤ h.depth) : ∃ totalSize, totalSizeAt h (depth + 1) = .ok totalSize ∧
      pointerAt nodeSize h.recordSize s.offsetSize (depth + 1) =
        s.offsetSize + h.countSize + totalSize := by
  have below : h.capacity[depth]? = some (capacityAt nodeSize h.recordSize s.offsetSize depth) :=
    (getElem?_capacities accepted.levels).2 ⟨by omega, rfl⟩
  refine ⟨if 1 < depth + 1 then (capacityAt nodeSize h.recordSize s.offsetSize depth).totalSize
    else 0, ?_, ?_⟩
  · unfold totalSizeAt
    split
    · rw [Nat.add_sub_cancel, Bounds.item_eq_ok_iff.2 below]
      rfl
    · rfl
  · rw [accepted.count]
    rfl

theorem Header.Accepted.measured {nodeSize : Nat} (accepted : h.Accepted s nodeSize) :
    h.Measured s where
  unfiltered := by
    intro plain
    have fits := accepted.recordSize
    rwa [plain] at fits
  pointer := by
    intro depth capacity totalSize inner level total
    obtain ⟨below, rfl⟩ := Nat.exists_eq_succ_of_ne_zero inner.ne'
    obtain ⟨inside, rfl⟩ := (getElem?_capacities accepted.levels).1 level
    obtain ⟨totalSize', total', width⟩ := accepted.totalSizeAt_eq inside
    cases total.symm.trans total'
    exact width

theorem measured_of_headerAt (found : headerAt image s address = .ok h) : h.Measured s := by
  obtain ⟨nodeSize, accepted⟩ := accepted_of_headerAt found
  exact accepted.measured

theorem screened_headerParser (s : Settings) (address : Nat) {bytes : Bytes}
    (whole : bytes.length = headerLength s.widths) (fits : bytes.length ≤ maxWord) :
    Parser.Screened 0 (headerParser s address bytes) (headerParser s.verifying address bytes) := by
  refine .bind (.signature ..) fun _ => .bind (.version ..) fun _ => .bind (.uint 1) fun _ => ?_
  refine .guard (.bind (.uint 4) fun _ => .bind (.uint 2) fun _ => .bind (.uint 2) fun _ => ?_)
  refine .bind (.skip 2) fun _ => .bind (.address _) fun _ => .bind (.uint 2) fun _ => ?_
  refine .bind (.length _) fun _ => .bind_check s ?_ fits
  rw [whole, headerLength]

/-- A record has as many bytes as the header says. -/
theorem spans_recordParser (limited : h.Limited s) (measured : h.Measured s) :
    Spans h.recordSize (recordParser s h) := by
  have scaled (d : Descriptor) : Spans (8 * s.chunkDims.length)
      (do return ⟨← Parser.times (Parser.uint 8) s.chunkDims.length, d⟩ : Parser Record) := by
    rw [Nat.mul_comm]
    exact (Spans.times (.uint 8) _).bind_last fun _ => .pure _
  cases filtered : s.filtered with
  | false =>
    have size : h.recordSize = s.widths.offsetSize + 8 * s.chunkDims.length := by
      rw [measured.unfiltered filtered, recordBase, filtered]
      rfl
    rw [size, recordParser, filtered]
    exact .bind (.address _) fun _ => .bind_nil (.pure _) scaled
  | true =>
    have room := limited.room filtered
    have size : s.widths.offsetSize +
        (h.recordSize - recordBase s + (4 + 8 * s.chunkDims.length)) = h.recordSize := by
      rw [recordBase, if_pos filtered, Settings.offsetSize] at room ⊢
      omega
    have parts : Spans (s.widths.offsetSize +
        (h.recordSize - recordBase s + (4 + 8 * s.chunkDims.length))) (recordParser s h) := by
      rw [recordParser, filtered]
      refine .bind (.address _) fun _ => .bind_lift fun stored left => ?_
      obtain rfl : stored = h.recordSize - recordBase s :=
        Nat.eq_sub_of_add_eq' (Bounds.sub_eq_ok_iff.1 left)
      exact .bind (.uint _) fun _ => .bind .word32 fun _ => .bind_nil (.pure _) scaled
    rwa [size] at parts

theorem spans_childParser (s : Settings) (h : Header) (totalSize : Nat) :
    Spans (s.offsetSize + (h.countSize + totalSize)) (childParser s h totalSize) :=
  .bind (.address _) fun _ => .bind (.uint _) fun _ => (Spans.skip _).bind_last fun _ => .pure _

theorem screened_nodeParser (limited : h.Limited s) (measured : h.Measured s)
    (address records : Nat) {depth : Nat} {capacity : NodeCapacity}
    (level : h.capacity[depth]? = some capacity) {bytes : Bytes}
    (whole : bytes.length = nodeLength h capacity records depth) (fits : bytes.length ≤ maxWord) :
    Parser.Screened 0 (nodeParser s h address records depth bytes)
      (nodeParser s.verifying h address records depth bytes) := by
  refine .bind (.signature ..) fun _ => .bind (.version ..) fun _ => .bind (.uint 1) fun _ => ?_
  refine .guard (.bind (.times (spans_recordParser limited measured) _) fun _ => ?_)
  refine .bind_ensured (.lift _) (.lift fun _ done => done) fun totalSize total => ?_
  refine .bind (.times (spans_childParser s h totalSize) _) fun _ => .bind_check s ?_ fits
  rw [whole, nodeLength]
  split
  next => omega
  next inner =>
    rw [measured.pointer depth capacity totalSize (Nat.pos_of_ne_zero inner) level total,
      Nat.add_assoc s.offsetSize]
    omega

theorem screened_recallHeader (bound : image.length < maxWord) (t : TreeTwo) :
    Session.Screened image (fun _ => True) verifying t.recallHeader t.verifying.recallHeader :=
  screened_recallOne (fun _ => rfl) (fun _ _ => rfl)
    (.fetch_parse fun _ whole _ => screened_headerParser _ _ whole (by omega))

theorem screened_recallNode (bound : image.length < maxWord) (limited : h.Limited s)
    (measured : h.Measured s) (address records depth : Nat) :
    Session.Screened image (fun _ => True) verifying (recallNode s h address records depth)
      (recallNode s.verifying h address records depth) := by
  refine Memo.screened_recallAt (fun _ => rfl) (fun _ _ => rfl) ?_
  unfold readNode
  split
  next => exact .throw _
  next capacity level =>
    have rest : Session.Screened image (fun _ => True) verifying
        (do
          let length ← Bounds.within (nodeLength h capacity records depth)
          let bytes ← Session.fetch address length
          Session.ofExcept ((nodeParser s h address records depth bytes).parse bytes))
        (do
          let length ← Bounds.within (nodeLength h capacity records depth)
          let bytes ← Session.fetch address length
          Session.ofExcept
            ((nodeParser s.verifying h address records depth bytes).parse bytes)) := by
      refine .bind_liftM fun length fits => .fetch_parse fun bytes whole inside => ?_
      obtain ⟨-, rfl⟩ := Bounds.within_eq_ok_iff.1 fits
      exact screened_nodeParser limited measured _ _ level whole (by omega)
    exact .ite (.bind_any (.throw _) fun _ => rest) rest

theorem screened_descend (bound : image.length < maxWord) (limited : h.Limited s)
    (measured : h.Measured s) (target : Coordinate) (depth address records : Nat) :
    Session.Screened image (fun _ => True) verifying (descend s h target depth address records)
      (descend s.verifying h target depth address records) := by
  induction depth generalizing address records with
  | zero =>
    unfold descend
    refine .bind_any (screened_recallNode bound limited measured ..) fun n => ?_
    exact .ite (.bind_any (.liftM _) fun _ => .pure _) (.pure _)
  | succ depth ih =>
    unfold descend
    refine .bind_any (screened_recallNode bound limited measured ..) fun n => ?_
    refine .ite (.bind_any (.liftM _) fun _ => .pure _) ?_
    dsimp only
    split
    · exact .pure _
    · exact .ite (.pure _) (ih ..)

theorem screened_lookup (bound : image.length < maxWord) (c : Coordinate) :
    Session.Screened image (Opened image s address) verifying (lookup c) (lookup c) := by
  refine .get_bind fun t opened => .ite (.pure _) ?_
  obtain ⟨rfl, rfl⟩ : t.settings = s ∧ t.address = address := Prod.ext_iff.1 opened.opening
  refine ((screened_recallHeader bound t).weaken fun _ _ => trivial).bind
    (repeats_recallHeader (fun _ => id) (fun _ _ => Opened.keep_header) opened.opening).meets
    fun h found => .ite (.pure _) ?_
  exact (screened_descend bound (limited_of_headerAt found) (measured_of_headerAt found)
    c ..).weaken fun _ _ => trivial

end TreeTwo

end ChunkStore.Index

/-! ## The index of a dataset -/

namespace ChunkStore.ChunkIndex

open Session Index

/-- The index with checksums compared. -/
def verifying : ChunkIndex → ChunkIndex
  | single s d => single s.verifying d
  | implicit s base => implicit s.verifying base
  | fixedArray a => fixedArray a.verifying
  | extensibleArray a => extensibleArray a.verifying
  | treeOne t => treeOne t.verifying
  | treeTwo t => treeTwo t.verifying

@[simp] theorem geometry_verifying (ix : ChunkIndex) : ix.verifying.geometry = ix.geometry := by
  cases ix <;> rfl

variable {layout : ChunkedLayout} {g : Geometry} {widths : FileWidths} {filtered : Bool}

/-- Whether an index can be set up has nothing to do with checksums. -/
theorem ofLayout_verifying (layout : ChunkedLayout) (g : Geometry) (widths : FileWidths)
    (filtered : Bool) : ofLayout layout g widths filtered true =
      (ofLayout layout g widths filtered false).map verifying := by
  unfold ofLayout
  split
  · rfl
  dsimp only
  split
  all_goals first
    | rfl
    | (split
       · rfl
       split
       all_goals rfl)

/-- What a lookup of the right rank reads is what the structure that the index consists of reads. -/
theorem ranges_lookup {c : Coordinate} {ix : ChunkIndex} (image : Image)
    (right : ix.geometry.checkRank c = .ok ()) :
    (lookup c).ranges image ix = match ix with
      | single _ _ => []
      | implicit _ _ => []
      | fixedArray a => (FixedArray.lookup c).ranges image a
      | extensibleArray a => (ExtensibleArray.lookup c).ranges image a
      | treeOne t => (TreeOne.lookup c).ranges image t
      | treeTwo t => (TreeTwo.lookup c).ranges image t := by
  have own {σ : Type} (x : Fetch (Except Error Descriptor × σ)) (embed : σ → ChunkIndex) :
      (do let (result, t) ← x; return (result, embed t) :
        Fetch (Except Error Descriptor × ChunkIndex)).ranges image = x.ranges image :=
    (Fetch.ranges_bind ..).trans (List.append_nil _)
  show Fetch.ranges image (lookup c ix : Fetch _) = _
  simp only [lookup, right]
  cases ix with
  | single s d => rfl
  | implicit s base => rfl
  | fixedArray a => exact own ..
  | extensibleArray a => exact own ..
  | treeOne t => exact own ..
  | treeTwo t => exact own ..

/-- What compares of the structure that an index consists of compares of the index. -/
theorem Embeds.screenedFrom {image : Image} {σ : Type} {embed : σ → ChunkIndex}
    {opening : σ → Settings × Nat} {look : Coordinate → Session σ Descriptor}
    (embeds : Embeds embed opening look) {strict : σ → σ}
    (same : ∀ x, (embed x).verifying = embed (strict x)) {c : Coordinate}
    (ranges : ∀ x, (embed x).geometry.checkRank c = .ok () →
      (lookup c).ranges image (embed x) = (look c).ranges image x)
    {x : σ} (right : (embed x).geometry.checkRank c = .ok ())
    (h : ScreenedFrom image strict (look c) (look c) x) :
    ScreenedFrom image verifying (lookup c) (lookup c) (embed x) := by
  have right' : (embed (strict x)).geometry.checkRank c = .ok () := by
    rwa [← same, geometry_verifying]
  unfold ScreenedFrom
  rw [same, embeds.run image right, embeds.run image right', ranges x right, ranges _ right']
  rcases h with ⟨answer, read⟩ | mismatch
  · rw [answer]
    exact .inl ⟨congrArg (Prod.mk _) (same _).symm, read⟩
  · exact .inr mismatch

/-- On a new handle a lookup compares with the one that compares checksums. -/
theorem screened_lookup {image : Image} (bound : image.length < maxWord) {ix : ChunkIndex}
    (new : ix.fresh = ix) (c : Coordinate) :
    ScreenedFrom image verifying (lookup c) (lookup c) ix := by
  cases right : ix.geometry.checkRank c with
  | error e =>
    have wrong : ix.verifying.geometry.checkRank c = .error e := by
      rw [geometry_verifying, right]
    have still {ix : ChunkIndex} (wrong : ix.geometry.checkRank c = .error e) :
        (lookup c).ranges image ix = [] := by
      show Fetch.ranges image (lookup c ix : Fetch _) = []
      simp only [lookup, wrong]
      rfl
    refine .inl ⟨?_, ?_⟩
    · rw [runOn_lookup_rank image right, runOn_lookup_rank image wrong]
    · rw [still right, still wrong]
  | ok =>
    cases ix with
    | single s d =>
      rw [ScreenedFrom, runOn_lookup image right, ranges_lookup image right]
      exact .inl ⟨@runOn_lookup c (single s.verifying d) image right,
        @ranges_lookup c (single s.verifying d) image right⟩
    | implicit s base =>
      rw [ScreenedFrom, runOn_lookup image right, ranges_lookup image right]
      exact .inl ⟨@runOn_lookup c (implicit s.verifying base) image right,
        @ranges_lookup c (implicit s.verifying base) image right⟩
    | fixedArray a =>
      exact embeds_fixedArray.screenedFrom (fun _ => rfl) (fun _ right => ranges_lookup image right)
        right ((FixedArray.screened_lookup bound c).run a trivial)
    | extensibleArray a =>
      exact embeds_extensibleArray.screenedFrom (fun _ => rfl)
        (fun _ right => ranges_lookup image right) right
        ((ExtensibleArray.screened_lookup bound c).run a trivial)
    | treeOne t =>
      exact embeds_treeOne.screenedFrom (fun _ => rfl) (fun _ right => ranges_lookup image right)
        right ((TreeOne.screened_lookup c).run t trivial)
    | treeTwo t =>
      rw [← new] at right ⊢
      exact embeds_treeTwo.screenedFrom (fun _ => rfl) (fun _ right => ranges_lookup image right)
        right ((TreeTwo.screened_lookup bound c).run _ (TreeTwo.opened_ofAddress ..))

/-- Of two new handles one compares checksums. Either neither can be set up, for the same reason; or
a lookup on the one that compares them gives the same descriptor or error as on the other one and
reads the same ranges of the file, or it fails because a checksum does not match and has read the
first of these ranges. So what it finds the other one finds. -/
theorem lookup_screened {image : Image} (bound : image.length < maxWord) (layout : ChunkedLayout)
    (g : Geometry) (widths : FileWidths) (filtered : Bool) (c : Coordinate) :
    (∃ e, ∀ verify, ofLayout layout g widths filtered verify = .error e) ∨
    ∃ plain verified, ofLayout layout g widths filtered false = .ok plain ∧
      ofLayout layout g widths filtered true = .ok verified ∧
      ((((lookup c).runOn image verified).1 = ((lookup c).runOn image plain).1 ∧
          (lookup c).ranges image verified = (lookup c).ranges image plain) ∨
        (IsMismatch ((lookup c).runOn image verified).1 ∧
          (lookup c).ranges image verified <+: (lookup c).ranges image plain)) ∧
      ∀ d, ((lookup c).runOn image verified).1 = .ok d →
        ((lookup c).runOn image plain).1 = .ok d := by
  have set_up := ofLayout_verifying layout g widths filtered
  cases opened : ofLayout layout g widths filtered false with
  | error e =>
    rw [opened] at set_up
    refine .inl ⟨e, fun verify => ?_⟩
    cases verify with
    | false => exact opened
    | true => exact set_up
  | ok plain =>
    rw [opened] at set_up
    have compared : ScreenedFrom image verifying (lookup c) (lookup c) plain :=
      screened_lookup bound (fresh_of_ofLayout opened).1 c
    refine .inr ⟨plain, plain.verifying, rfl, set_up, ?_, fun d done => ?_⟩
    · rcases compared with ⟨same, ranges⟩ | mismatch
      · refine .inl ⟨?_, ranges⟩
        rw [same]
      · exact .inr mismatch
    · rcases compared with ⟨same, -⟩ | ⟨⟨_, _, _, _, _, failed⟩, -⟩
      · rw [same] at done
        exact done
      · cases done.symm.trans failed

/-- The header of an array of one entry, with a wrong checksum, and the block after it. -/
def corruptHeader : Image :=
  [7] ++ [70, 65, 72, 68, 0, 0, 2, 10, 1, 0, 17, 0] ++ [0, 0, 0, 0] ++
    [70, 65, 68, 66, 0, 0, 1, 0, 100, 0] ++ [0, 0, 0, 0]

/-- Without checksums the entry of the array is found, and with them the lookup fails before it
reads the block. -/
theorem lookup_screened_of_wrong_checksum : ∃ plain verified,
    ofLayout ⟨4, 0, [1], 4, .fixedArray 10, 1⟩ ⟨[1], [1], 4⟩ ⟨.two, .two⟩ false false = .ok plain ∧
    ofLayout ⟨4, 0, [1], 4, .fixedArray 10, 1⟩ ⟨[1], [1], 4⟩ ⟨.two, .two⟩ false true =
      .ok verified ∧
    ((lookup [0]).runOn corruptHeader plain).1 = .ok ⟨100, 4, 0⟩ ∧
    IsMismatch ((lookup [0]).runOn corruptHeader verified).1 ∧
    (lookup [0]).ranges corruptHeader verified = [(1, 16)] ∧
    (lookup [0]).ranges corruptHeader plain = [(1, 16), (17, 14)] := by
  obtain ⟨e, fails⟩ | ⟨plain, verified, opened, opened', compared, -⟩ := lookup_screened
    (show corruptHeader.length < maxWord by decide +kernel) ⟨4, 0, [1], 4, .fixedArray 10, 1⟩
    ⟨[1], [1], 4⟩ ⟨.two, .two⟩ false [0]
  · cases fails true
  refine ⟨plain, verified, opened, opened', ?_⟩
  cases opened
  cases opened'
  refine ⟨by decide +kernel, ?_, by decide +kernel, by decide +kernel⟩
  rcases compared with ⟨same, -⟩ | ⟨mismatch, -⟩
  · exact absurd same (by decide +kernel)
  · exact mismatch

end ChunkStore.ChunkIndex
