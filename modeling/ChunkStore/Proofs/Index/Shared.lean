import ChunkStore.Proofs.ExtensibleArray.Lookup
import ChunkStore.Proofs.Index.Repeated
import ChunkStore.Proofs.Index.Settled

/-!
# Structures whose address several pointers may name

In a version 2 B-tree a node is decoded by its depth and its number of records, and in an
extensible array a block by the size of its group, but either is kept by its address alone. A file
may name one address in several ways, and then a handle keeps what it has decoded first.
`PointersAgree` says that this makes no difference: what decodes through one pointer that lookups
follow (`Met`) decodes to the same through every other one to the same address. Lookups in such a
file do not depend on what was decoded before (`TreeTwo.steady_lookup`,
`ExtensibleArray.steady_lookup`).
-/

namespace ChunkStore.Index

open Session

variable {image : Image} {s : Settings} {address : Nat}

/-! ## Version 2 B-trees -/

namespace TreeTwo

variable {h : Header}

/-- The pointers, with the depth of their nodes, that the lookup of a target follows. -/
inductive Met (image : Image) (s : Settings) (h : Header) (target : Coordinate) :
    Nat → Child → Prop where
  | root : Met image s h target h.depth ⟨h.root, h.rootRecords⟩
  | child {depth slot : Nat} {c child : Child} {n : Node} {side : Ordering}
      (above : Met image s h target (depth + 1) c) (read : nodeAt image s h (depth + 1) c = .ok n)
      (probed : locate n.records target = (slot, side)) (unequal : side ≠ .eq)
      (chosen : n.children[placeBeside slot side]? = some child)
      (somewhere : child.address ≠ undefinedAddress) : Met image s h target depth child

/-- A node that decodes through one pointer that lookups follow decodes to the same through every
other one to its address. -/
def PointersAgree (image : Image) (s : Settings) (address : Nat) : Prop :=
  ∀ h, headerAt image s address = .ok h → ∀ target depth c target' depth' c' n,
    Met image s h target depth c → Met image s h target' depth' c' → c.address = c'.address →
      nodeAt image s h depth c = .ok n → nodeAt image s h depth' c' = .ok n

/-- The handle was opened on the tree, and its header is what the file has. -/
structure Opened (image : Image) (s : Settings) (address : Nat) (t : TreeTwo) : Prop where
  opening : t.opening = (s, address)
  header : ∀ h, t.header = some h → headerAt image s address = .ok h

/-- What the handle holds was decoded through pointers that lookups follow. -/
structure Derived (image : Image) (s : Settings) (address : Nat) (t : TreeTwo) : Prop
    extends Opened image s address t where
  nodes : ∀ own n, t.nodes.get? own = some n → ∃ h target depth c,
    headerAt image s address = .ok h ∧ Met image s h target depth c ∧ c.address = own ∧
    nodeAt image s h depth c = .ok n

theorem opened_ofAddress (image : Image) (s : Settings) (address : Nat) :
    Opened image s address (.ofAddress s address) where
  opening := rfl
  header := fun _ held => by cases held

theorem derived_ofAddress (image : Image) (s : Settings) (address : Nat) :
    Derived image s address (.ofAddress s address) where
  toOpened := opened_ofAddress image s address
  nodes := fun _ _ held => by cases held

theorem Opened.keep_header {t : TreeTwo} (opened : Opened image s address t)
    (read : headerAt image s address = .ok h) :
    Opened image s address { t with header := some h } :=
  { opened with header := fun _ held => by cases held; exact read }

theorem Derived.keep_header {t : TreeTwo} (derived : Derived image s address t)
    (read : headerAt image s address = .ok h) :
    Derived image s address { t with header := some h } :=
  { derived with toOpened := derived.toOpened.keep_header read }

/-- Whatever else is known of a handle, it gets the header that the file has. -/
theorem repeats_recallHeader {inv : TreeTwo → Prop}
    (opened : ∀ t, inv t → Opened image s address t)
    (kept : ∀ t h, inv t → headerAt image s address = .ok h → inv { t with header := some h })
    {t : TreeTwo} (opening : t.opening = (s, address)) :
    Repeats image inv t.recallHeader (headerAt image s address) := by
  obtain ⟨rfl, rfl⟩ : t.settings = s ∧ t.address = address := Prod.ext_iff.1 opening
  exact repeats_recallOne_of_free (ofAddress t.settings t.address)
    (fun x h keeps held => (opened x keeps).header h held) kept
    (.bind (.fetch ..) fun _ => .ofExcept _) rfl

/-- Through a pointer that they follow lookups get the node that it names. -/
theorem repeats_recallNode (agree : PointersAgree image s address)
    (found : headerAt image s address = .ok h) {target : Coordinate} {depth : Nat} {c : Child}
    (met : Met image s h target depth c) :
    Repeats image (Derived image s address) (recallNode s h c.address c.records depth)
      (nodeAt image s h depth c) := by
  refine Memo.repeats_recallAt ?_ ?_ (.of_detached (ofAddress s c.address) (detached_readNode ..))
  · intro t n keeps held
    obtain ⟨h', target', depth', c', found', met', same, read⟩ := keeps.nodes _ n held
    rw [found] at found'
    cases found'
    exact agree h found target' depth' c' target depth c n met' met same read
  · intro t n keeps read
    exact { keeps with
      nodes := Memo.forall_insert keeps.nodes ⟨h, target, depth, c, found, met, rfl, read⟩ }

theorem steady_descend (agree : PointersAgree image s address)
    (found : headerAt image s address = .ok h) {target : Coordinate} {depth : Nat} {c : Child}
    (met : Met image s h target depth c) :
    Steady image (Derived image s address) (descend s h target depth c.address c.records) := by
  induction depth generalizing c with
  | zero =>
    unfold descend
    refine .bind (repeats_recallNode agree found met) fun n _ => ?_
    exact .ite (fun _ => .bind (.liftM _) fun _ _ => .pure _) fun _ => .pure _
  | succ depth ih =>
    unfold descend
    refine .bind (repeats_recallNode agree found met) fun n read => ?_
    refine .ite (fun _ => .bind (.liftM _) fun _ _ => .pure _) fun unequal => ?_
    dsimp only
    split
    next => exact .pure _
    next child chosen =>
      refine .ite (fun _ => .pure _) fun somewhere => ?_
      exact ih (met.child read rfl unequal chosen somewhere)

/-- Where pointers agree, the result of a lookup does not depend on what was decoded before. -/
theorem steady_lookup (agree : PointersAgree image s address) (c : Coordinate) :
    Steady image (Derived image s address) (lookup c) := by
  apply Steady.get_bind
  · rintro ⟨_, _, _, _⟩ ⟨_, _, _, _⟩ keeps keeps'
    cases keeps.opening.trans keeps'.opening.symm
    rfl
  intro t keeps
  obtain ⟨rfl, rfl⟩ : t.settings = s ∧ t.address = address := Prod.ext_iff.1 keeps.opening
  refine .ite (fun _ => .pure _) fun _ => ?_
  refine .bind (repeats_recallHeader (fun _ => Derived.toOpened) (fun _ _ => Derived.keep_header)
    keeps.opening) fun h found => ?_
  exact .ite (fun _ => .pure _) fun _ => steady_descend agree found .root

/-- Pointers agree where all that lookups may follow are among some of which each names an address
of its own. -/
theorem pointersAgree_of_closed (pointers : List (Nat × Child))
    (found : headerAt image s address = .ok h)
    (root : (h.depth, ⟨h.root, h.rootRecords⟩) ∈ pointers)
    (closed : ∀ depth c n, (depth + 1, c) ∈ pointers → nodeAt image s h (depth + 1) c = .ok n →
      ∀ child ∈ n.children, (depth, child) ∈ pointers)
    (apart : ∀ p ∈ pointers, ∀ q ∈ pointers, p.2.address = q.2.address → p = q) :
    PointersAgree image s address := by
  intro h' found' target depth c target' depth' c' n met met' same read
  obtain rfl : h' = h := Except.ok.inj (found'.symm.trans found)
  have among : ∀ {target depth c}, Met image s h' target depth c → (depth, c) ∈ pointers := by
    intro target depth c met
    induction met with
    | root => exact root
    | child _ read _ _ chosen _ above =>
      exact closed _ _ _ above read _ (List.mem_of_getElem? chosen)
  obtain ⟨rfl, rfl⟩ := Prod.mk.inj (apart _ (among met) _ (among met') same)
  exact read

end TreeTwo

/-! ## Extensible arrays -/

namespace ExtensibleArray

variable {h : Header} {b : IndexBlock}

/-- The secondary block of a group at an address, as a new handle reads it. -/
def secondaryBlockAt (image : Image) (s : Settings) (address : Nat) (h : Header) (group : Group)
    (own : Nat) : Except Error SecondaryBlock :=
  (((ofAddress s address).recallSecondaryBlock h group own).runOn image (ofAddress s address)).1

/-- The entries of the data block at an address, as a new handle reads them. -/
def dataBlockAt (image : Image) (s : Settings) (address : Nat) (h : Header)
    (blockEntries own : Nat) : Except Error (List Descriptor) :=
  (((ofAddress s address).recallDataBlock h blockEntries own).runOn image (ofAddress s address)).1

/-- The entries of the page at an address, as a new handle reads them. All pages of an array are
decoded in the same way. -/
def pageAt (image : Image) (s : Settings) (address : Nat) (h : Header) (own : Nat) :
    Except Error (List Descriptor) :=
  ((pageEntries s .extensibleArrayPage own h.pageEntries h.entrySize).runOn image
    (ofAddress s address)).1

/-- A pointer to a block, with what decoding the block needs. -/
inductive Pointer where
  | secondaryBlock (group : Group) (own : Nat)
  | dataBlock (blockEntries own : Nat)

/-- The pointers that lookups of indexes in use follow. -/
inductive Met (image : Image) (s : Settings) (address : Nat) (h : Header) (b : IndexBlock) :
    Pointer → Prop where
  | direct {i block offset own : Nat} {group : Group} (used : i < h.maxIndexSet)
      (place : h.locate i = .ok (.direct group block offset))
      (named : b.dataBlocks.getD block undefinedAddress = own) (somewhere : own ≠ undefinedAddress)
      (whole : h.pagesPerBlock group.blockEntries = 0) :
      Met image s address h b (.dataBlock group.blockEntries own)
  | secondary {i secondary block offset own : Nat} {group : Group} (used : i < h.maxIndexSet)
      (place : h.locate i = .ok (.indirect group secondary block offset))
      (named : b.secondaryBlocks.getD secondary undefinedAddress = own)
      (somewhere : own ≠ undefinedAddress) : Met image s address h b (.secondaryBlock group own)
  | indirect {i secondary block offset own : Nat} {group : Group} {sb : SecondaryBlock}
      (used : i < h.maxIndexSet)
      (place : h.locate i = .ok (.indirect group secondary block offset))
      (read : secondaryBlockAt image s address h group
        (b.secondaryBlocks.getD secondary undefinedAddress) = .ok sb)
      (named : sb.dataBlocks.getD block undefinedAddress = own)
      (somewhere : own ≠ undefinedAddress) (whole : h.pagesPerBlock group.blockEntries = 0) :
      Met image s address h b (.dataBlock group.blockEntries own)

/-- A block that decodes through one pointer that lookups follow decodes to the same through every
other one to its address. -/
structure PointersAgree (image : Image) (s : Settings) (address : Nat) : Prop where
  secondaryBlocks : ∀ h b, headerAt image s address = .ok h →
    indexBlockAt image s address h = .ok b → ∀ group group' own sb,
    Met image s address h b (.secondaryBlock group own) →
    Met image s address h b (.secondaryBlock group' own) →
    secondaryBlockAt image s address h group own = .ok sb →
      secondaryBlockAt image s address h group' own = .ok sb
  dataBlocks : ∀ h b, headerAt image s address = .ok h →
    indexBlockAt image s address h = .ok b → ∀ blockEntries blockEntries' own entries,
    Met image s address h b (.dataBlock blockEntries own) →
    Met image s address h b (.dataBlock blockEntries' own) →
    dataBlockAt image s address h blockEntries own = .ok entries →
      dataBlockAt image s address h blockEntries' own = .ok entries

/-- The handle was opened on the array, and its header and index block are what the file has. -/
structure Opened (image : Image) (s : Settings) (address : Nat) (a : ExtensibleArray) : Prop where
  opening : a.opening = (s, address)
  header : ∀ h, a.header = some h → headerAt image s address = .ok h
  indexBlock : ∀ b, a.indexBlock = some b →
    ∃ h, headerAt image s address = .ok h ∧ indexBlockAt image s address h = .ok b

/-- What the handle holds was decoded through pointers that lookups follow. -/
structure Derived (image : Image) (s : Settings) (address : Nat) (a : ExtensibleArray) : Prop
    extends Opened image s address a where
  secondaryBlocks : ∀ own sb, a.secondaryBlocks.get? own = some sb → ∃ h b group,
    headerAt image s address = .ok h ∧ indexBlockAt image s address h = .ok b ∧
    Met image s address h b (.secondaryBlock group own) ∧
    secondaryBlockAt image s address h group own = .ok sb
  dataBlocks : ∀ own entries, a.dataBlocks.get? own = some entries → ∃ h b blockEntries,
    headerAt image s address = .ok h ∧ indexBlockAt image s address h = .ok b ∧
    Met image s address h b (.dataBlock blockEntries own) ∧
    dataBlockAt image s address h blockEntries own = .ok entries
  pages : ∀ own entries, a.pages.get? own = some entries →
    ∃ h, headerAt image s address = .ok h ∧ pageAt image s address h own = .ok entries

theorem opened_ofAddress (image : Image) (s : Settings) (address : Nat) :
    Opened image s address (.ofAddress s address) where
  opening := rfl
  header := fun _ held => by cases held
  indexBlock := fun _ held => by cases held

theorem derived_ofAddress (image : Image) (s : Settings) (address : Nat) :
    Derived image s address (.ofAddress s address) where
  toOpened := opened_ofAddress image s address
  secondaryBlocks := fun _ _ held => by cases held
  dataBlocks := fun _ _ held => by cases held
  pages := fun _ _ held => by cases held

theorem Opened.keep_header {x : ExtensibleArray} (opened : Opened image s address x)
    (read : headerAt image s address = .ok h) :
    Opened image s address { x with header := some h } :=
  { opened with header := fun _ held => by cases held; exact read }

theorem Derived.keep_header {x : ExtensibleArray} (derived : Derived image s address x)
    (read : headerAt image s address = .ok h) :
    Derived image s address { x with header := some h } :=
  { derived with toOpened := derived.toOpened.keep_header read }

theorem Opened.keep_indexBlock {x : ExtensibleArray} (opened : Opened image s address x)
    (found : headerAt image s address = .ok h) (read : indexBlockAt image s address h = .ok b) :
    Opened image s address { x with indexBlock := some b } :=
  { opened with indexBlock := fun _ held => by cases held; exact ⟨h, found, read⟩ }

theorem Derived.keep_indexBlock {x : ExtensibleArray} (derived : Derived image s address x)
    (found : headerAt image s address = .ok h) (read : indexBlockAt image s address h = .ok b) :
    Derived image s address { x with indexBlock := some b } :=
  { derived with toOpened := derived.toOpened.keep_indexBlock found read }

/-- Whatever else is known of a handle, it gets the header that the file has. -/
theorem repeats_recallHeader {inv : ExtensibleArray → Prop}
    (opened : ∀ x, inv x → Opened image s address x)
    (kept : ∀ x h, inv x → headerAt image s address = .ok h → inv { x with header := some h })
    {x : ExtensibleArray} (opening : x.opening = (s, address)) :
    Repeats image inv x.recallHeader (headerAt image s address) := by
  obtain ⟨rfl, rfl⟩ : x.settings = s ∧ x.address = address := Prod.ext_iff.1 opening
  exact repeats_recallOne_of_free (ofAddress x.settings x.address)
    (fun a h keeps held => (opened a keeps).header h held) kept
    (.bind (.fetch ..) fun _ => .ofExcept _) rfl

/-- Whatever else is known of a handle, it gets the index block that the file has. -/
theorem repeats_recallIndexBlock {inv : ExtensibleArray → Prop}
    (opened : ∀ x, inv x → Opened image s address x) (found : headerAt image s address = .ok h)
    (kept : ∀ x b, inv x → indexBlockAt image s address h = .ok b →
      inv { x with indexBlock := some b })
    {x : ExtensibleArray} (opening : x.opening = (s, address)) :
    Repeats image inv (x.recallIndexBlock h) (indexBlockAt image s address h) := by
  obtain ⟨rfl, rfl⟩ : x.settings = s ∧ x.address = address := Prod.ext_iff.1 opening
  refine repeats_recallOne_of_free (ofAddress x.settings x.address) ?_ kept
    (.bind (.liftM _) fun _ => .bind (.fetch ..) fun _ => .ofExcept _) rfl
  intro a b keeps held
  obtain ⟨h', found', read⟩ := (opened a keeps).indexBlock b held
  rw [found] at found'
  cases found'
  exact read

/-- Through a pointer that they follow lookups get the secondary block that it names. -/
theorem repeats_recallSecondaryBlock (agree : PointersAgree image s address)
    (found : headerAt image s address = .ok h)
    (block : indexBlockAt image s address h = .ok b) {x : ExtensibleArray}
    (opened : x.opening = (s, address)) {group : Group} {own : Nat}
    (met : Met image s address h b (.secondaryBlock group own)) :
    Repeats image (Derived image s address) (x.recallSecondaryBlock h group own)
      (secondaryBlockAt image s address h group own) := by
  obtain ⟨rfl, rfl⟩ : x.settings = s ∧ x.address = address := Prod.ext_iff.1 opened
  refine Memo.repeats_recallAt_of_free (ofAddress x.settings x.address) ?_ ?_
    (.bind (.ofExcept _) fun _ => .bind (.ofExcept _) fun _ =>
      .bind (.fetch ..) fun _ => .ofExcept _) rfl
  · intro a sb keeps held
    obtain ⟨h', b', group', found', block', met', read⟩ := keeps.secondaryBlocks own sb held
    rw [found] at found'
    cases found'
    rw [block] at block'
    cases block'
    exact agree.secondaryBlocks h b found block group' group own sb met' met read
  · intro a sb keeps read
    exact { keeps with
      secondaryBlocks := Memo.forall_insert keeps.secondaryBlocks
        ⟨h, b, group, found, block, met, read⟩ }

/-- Through a pointer that they follow lookups get the data block that it names. -/
theorem repeats_recallDataBlock (agree : PointersAgree image s address)
    (found : headerAt image s address = .ok h)
    (block : indexBlockAt image s address h = .ok b) {x : ExtensibleArray}
    (opened : x.opening = (s, address)) {blockEntries own : Nat}
    (met : Met image s address h b (.dataBlock blockEntries own)) :
    Repeats image (Derived image s address) (x.recallDataBlock h blockEntries own)
      (dataBlockAt image s address h blockEntries own) := by
  obtain ⟨rfl, rfl⟩ : x.settings = s ∧ x.address = address := Prod.ext_iff.1 opened
  refine Memo.repeats_recallAt_of_free (ofAddress x.settings x.address) ?_ ?_
    (.bind (.ofExcept _) fun _ => .bind (.fetch ..) fun _ => .ofExcept _) rfl
  · intro a entries keeps held
    obtain ⟨h', b', count, found', block', met', read⟩ := keeps.dataBlocks own entries held
    rw [found] at found'
    cases found'
    rw [block] at block'
    cases block'
    exact agree.dataBlocks h b found block count blockEntries own entries met' met read
  · intro a entries keeps read
    exact { keeps with
      dataBlocks := Memo.forall_insert keeps.dataBlocks
        ⟨h, b, blockEntries, found, block, met, read⟩ }

/-- The address of a page says how it is decoded. -/
theorem steady_recallPage (found : headerAt image s address = .ok h) {x : ExtensibleArray}
    (opened : x.opening = (s, address)) (block page : Nat) :
    Steady image (Derived image s address) (x.recallPage h block page) := by
  obtain ⟨rfl, rfl⟩ : x.settings = s ∧ x.address = address := Prod.ext_iff.1 opened
  unfold recallPage
  dsimp only
  generalize saturate (saturate (block + _) + saturate (page * h.pageStride)) = own
  refine ⟨pageAt image x.settings x.address h own, Memo.repeats_recallAt ?_ ?_
    (.of_detached (ofAddress x.settings x.address) (detached_pageEntries ..))⟩
  · intro a entries keeps held
    obtain ⟨h', found', read⟩ := keeps.pages own entries held
    rw [found] at found'
    cases found'
    exact read
  · intro a entries keeps read
    exact { keeps with pages := Memo.forall_insert keeps.pages ⟨h, found, read⟩ }

theorem steady_blockEntry (agree : PointersAgree image s address)
    (found : headerAt image s address = .ok h)
    (block : indexBlockAt image s address h = .ok b) {x : ExtensibleArray}
    (opened : x.opening = (s, address)) {blockEntries own : Nat}
    (met : h.pagesPerBlock blockEntries = 0 →
      Met image s address h b (.dataBlock blockEntries own)) (offset : Nat) :
    Steady image (Derived image s address) (x.blockEntry h own blockEntries offset) := by
  refine .ite (fun whole => ?_) fun _ => ?_
  · exact .bind (repeats_recallDataBlock agree found block opened (met whole)) fun _ _ => .pure _
  · obtain ⟨result, page⟩ := steady_recallPage found opened own (offset / h.pageEntries)
    exact .bind page fun _ _ => .pure _

theorem steady_entryAt (agree : PointersAgree image s address)
    (found : headerAt image s address = .ok h)
    (block : indexBlockAt image s address h = .ok b) {x : ExtensibleArray}
    (opened : x.opening = (s, address)) {i : Nat} (used : i < h.maxIndexSet) {p : Place}
    (place : h.locate i = .ok p) :
    Steady image (Derived image s address) (x.entryAt h b p) := by
  cases p with
  | inIndexBlock slot => exact .liftM _
  | beyond => exact .pure _
  | direct group number offset =>
    refine .ite (fun _ => .pure _) fun somewhere => ?_
    exact steady_blockEntry agree found block opened (.direct used place rfl somewhere) offset
  | indirect group secondary number offset =>
    refine .ite (fun _ => .pure _) fun somewhere => ?_
    refine .bind (repeats_recallSecondaryBlock agree found block opened
      (.secondary used place rfl somewhere)) fun sb read => ?_
    refine .ite (fun _ => .pure _) fun allocated => .ite (fun _ => .pure _) fun _ => ?_
    exact steady_blockEntry agree found block opened (.indirect used place read rfl allocated)
      offset

theorem steady_entry (agree : PointersAgree image s address) (i : Nat) :
    Steady image (Derived image s address) (entry i) := by
  apply Steady.get_bind
  · rintro ⟨_, _, _, _, _, _, _⟩ ⟨_, _, _, _, _, _, _⟩ keeps keeps'
    cases keeps.opening.trans keeps'.opening.symm
    rfl
  intro a keeps
  refine .bind (repeats_recallHeader (fun _ => Derived.toOpened) (fun _ _ => Derived.keep_header)
    keeps.opening) fun h found => .ite (fun _ => .pure _) fun inUse => ?_
  refine .bind (repeats_recallIndexBlock (fun _ => Derived.toOpened) found
    (fun _ _ keeps => keeps.keep_indexBlock found) keeps.opening) fun b block => ?_
  have used : i < h.maxIndexSet := Nat.lt_of_not_le fun free => inUse (.inl free)
  exact .bind (.liftM _) fun p place => steady_entryAt agree found block keeps.opening used place

/-- Where pointers agree, the result of a lookup does not depend on what was decoded before. -/
theorem steady_lookup (agree : PointersAgree image s address) (c : Coordinate) :
    Steady image (Derived image s address) (lookup c) := by
  apply Steady.get_bind
  · rintro ⟨_, _, _, _, _, _, _⟩ ⟨_, _, _, _, _, _, _⟩ keeps keeps'
    cases keeps.opening.trans keeps'.opening.symm
    rfl
  intro a keeps
  exact .ite (fun _ => .pure _) fun _ => steady_entry agree _

end ExtensibleArray

end ChunkStore.Index
