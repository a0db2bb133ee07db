import ChunkStore.Proofs.Index.Repeated
import ChunkStore.Proofs.Index.Settled

/-!
# Structures that their address tells apart

In a fixed array and in a version 1 B-tree the address of a structure says how it is decoded: a
node by its address alone, a page because no two pages of the array have the same address, unless
it lies beyond every file (`FixedArray.pageAddress_inj`). So a handle holds at an address only what
a new handle decodes there, in any file, and its lookups are steady: they do not depend on which of
the structures were decoded before (`FixedArray.steady_lookup`, `TreeOne.steady_lookup`).
-/

namespace ChunkStore.Index

open Session

variable {image : Image} {s : Settings}

/-! ## Fixed arrays -/

namespace FixedArray

/-- The header at an address, as a new handle reads it. -/
def headerAt (image : Image) (s : Settings) (address : Nat) : Except Error Header :=
  ((ofAddress s address).recallHeader.runOn image (ofAddress s address)).1

/-- The data block, as a new handle reads it. -/
def blockAt (image : Image) (s : Settings) (address : Nat) (h : Header) : Except Error Block :=
  (((ofAddress s address).recallBlock h).runOn image (ofAddress s address)).1

/-- The address of page `page`, when the first page starts at `firstPage`. -/
def pageAddress (h : Header) (firstPage page : Nat) : Nat :=
  saturate (firstPage + saturate (page * h.pageStride))

/-- The entries of page `page`, as a new handle reads them. -/
def pageAt (image : Image) (s : Settings) (address : Nat) (h : Header) (firstPage page : Nat) :
    Except Error (List Descriptor) :=
  (((ofAddress s address).recallPage h firstPage page).runOn image (ofAddress s address)).1

variable {address : Nat} {h : Header}

theorem pageStride_pos (h : Header) : 0 < h.pageStride := by
  have word : 4 ≤ maxWord := by decide
  rw [Header.pageStride, saturate]
  omega

/-- Pages at the same address are the same page, unless the address lies beyond every file. -/
theorem pageAddress_inj {firstPage page other : Nat}
    (inside : pageAddress h firstPage page ≠ maxWord)
    (same : pageAddress h firstPage page = pageAddress h firstPage other) : page = other := by
  unfold pageAddress saturate at inside same
  have distance : page * h.pageStride = other * h.pageStride := by omega
  exact Nat.eq_of_mul_eq_mul_right (pageStride_pos h) distance

/-- What is read of a page is what its address and its number of entries say. -/
theorem pageAt_eq {firstPage page before rest : Nat}
    (within : Bounds.within (page * h.pageEntries) = .ok before)
    (sub : Bounds.sub h.entries before = .ok rest) :
    pageAt image s address h firstPage page =
      ((pageEntries s .fixedArrayPage (pageAddress h firstPage page) (min h.pageEntries rest)
        h.entrySize).runOn image (ofAddress s address)).1 := by
  simp only [pageAt, recallPage, within, sub, runOn_bind, runOn_liftM]
  exact Memo.fst_runOn_recallAt rfl

/-- A page that was read lies before the end of a file of 64-bit length. -/
theorem pageAddress_ne_of_pageAt (bound : image.length ≤ maxWord) {firstPage page : Nat}
    {entries : List Descriptor}
    (found : pageAt image s address h firstPage page = .ok entries) :
    pageAddress h firstPage page ≠ maxWord := by
  cases within : Bounds.within (page * h.pageEntries) with
  | error e =>
    simp only [pageAt, recallPage, within, runOn_bind, runOn_liftM] at found
    cases found
  | ok before =>
    cases sub : Bounds.sub h.entries before with
    | error e =>
      simp only [pageAt, recallPage, within, sub, runOn_bind, runOn_liftM] at found
      cases found
    | ok rest =>
      rw [pageAt_eq within sub, pageEntries, runOn_bind, runOn_ofExcept] at found
      split at found
      next body _ _ =>
        have pos : 0 < saturate (body + 4) := by
          have word : 4 ≤ maxWord := by decide
          rw [saturate]
          omega
        exact ne_undefinedAddress_of_fetch image _ bound pos found
      next => cases found

/-! ### A handle on an array -/

/-- The handle was opened on the array, and what it holds is what the file has. -/
structure Consistent (image : Image) (s : Settings) (address : Nat) (a : FixedArray) : Prop where
  opening : a.opening = (s, address)
  header : ∀ h, a.header = some h → headerAt image s address = .ok h
  block : ∀ b, a.block = some b →
    ∃ h, headerAt image s address = .ok h ∧ blockAt image s address h = .ok b
  pages : ∀ own entries, a.pages.get? own = some entries → ∃ h bitmap firstPage page,
    headerAt image s address = .ok h ∧ blockAt image s address h = .ok (.paged bitmap firstPage) ∧
    pageAddress h firstPage page = own ∧ pageAt image s address h firstPage page = .ok entries

theorem consistent_ofAddress (image : Image) (s : Settings) (address : Nat) :
    Consistent image s address (.ofAddress s address) where
  opening := rfl
  header := fun _ held => by cases held
  block := fun _ held => by cases held
  pages := fun _ _ held => by cases held

theorem repeats_recallHeader {x : FixedArray} (opened : x.opening = (s, address)) :
    Repeats image (Consistent image s address) x.recallHeader (headerAt image s address) := by
  obtain ⟨rfl, rfl⟩ : x.settings = s ∧ x.address = address := Prod.ext_iff.1 opened
  refine repeats_recallOne_of_free (ofAddress x.settings x.address)
    (fun a h keeps held => keeps.header h held) ?_ (.bind (.fetch ..) fun _ => .ofExcept _) rfl
  intro a h keeps read
  exact { keeps with header := fun h' held => by cases held; exact read }

theorem repeats_recallBlock (found : headerAt image s address = .ok h) {x : FixedArray}
    (opened : x.opening = (s, address)) :
    Repeats image (Consistent image s address) (x.recallBlock h)
      (blockAt image s address h) := by
  obtain ⟨rfl, rfl⟩ : x.settings = s ∧ x.address = address := Prod.ext_iff.1 opened
  refine repeats_recallOne_of_free (ofAddress x.settings x.address) ?_ ?_
    (.bind (.fetch ..) fun _ => .ofExcept _) rfl
  · intro a b keeps held
    obtain ⟨h', found', read⟩ := keeps.block b held
    rw [found] at found'
    cases found'
    exact read
  · intro a b keeps read
    exact { keeps with block := fun b' held => by cases held; exact ⟨h, found, read⟩ }

/-- A page is kept at its address, where no other page of the array can have been read. -/
theorem steady_recallPage (bound : image.length ≤ maxWord)
    (found : headerAt image s address = .ok h) {bitmap : Bytes} {firstPage : Nat}
    (block : blockAt image s address h = .ok (.paged bitmap firstPage)) {x : FixedArray}
    (opened : x.opening = (s, address)) (page : Nat) :
    Steady image (Consistent image s address) (x.recallPage h firstPage page) := by
  obtain ⟨rfl, rfl⟩ : x.settings = s ∧ x.address = address := Prod.ext_iff.1 opened
  refine .bind (.liftM _) fun before within => .bind (.liftM _) fun rest sub => ?_
  refine ⟨pageAt image x.settings x.address h firstPage page, Memo.repeats_recallAt ?_ ?_ ?_⟩
  · intro a entries keeps held
    obtain ⟨h', bitmap', firstPage', page', found', block', same, read⟩ := keeps.pages _ _ held
    rw [found] at found'
    cases found'
    rw [block] at block'
    cases block'
    obtain rfl := pageAddress_inj (pageAddress_ne_of_pageAt bound read) same
    exact read
  · intro a entries keeps read
    exact { keeps with
      pages := Memo.forall_insert keeps.pages
        ⟨h, bitmap, firstPage, page, found, block, rfl, read⟩ }
  · rw [pageAt_eq within sub]
    exact .of_detached _ (detached_pageEntries ..)

/-- The result of a lookup does not depend on what was decoded before. -/
theorem steady_entry (bound : image.length ≤ maxWord) (i : Nat) :
    Steady image (Consistent image s address) (entry i) := by
  apply Steady.get_bind
  · rintro ⟨_, _, _, _, _⟩ ⟨_, _, _, _, _⟩ keeps keeps'
    cases keeps.opening.trans keeps'.opening.symm
    rfl
  intro a keeps
  refine .bind (repeats_recallHeader keeps.opening) fun h found => ?_
  refine .ite (fun _ => .pure _) fun _ => ?_
  refine .bind (repeats_recallBlock found keeps.opening) fun b block => ?_
  cases b with
  | unpaged entries => exact .pure _
  | paged bitmap firstPage =>
    obtain ⟨result, page⟩ :=
      steady_recallPage bound found block keeps.opening (i / h.pageEntries)
    exact .ite (fun _ => .pure _) fun _ => .bind page fun entries _ => .pure _

theorem steady_lookup (bound : image.length ≤ maxWord) (c : Coordinate) :
    Steady image (Consistent image s address) (lookup c) := by
  apply Steady.get_bind
  · rintro ⟨_, _, _, _, _⟩ ⟨_, _, _, _, _⟩ keeps keeps'
    cases keeps.opening.trans keeps'.opening.symm
    rfl
  intro a keeps
  exact .ite (fun _ => .pure _) fun _ => steady_entry bound _

end FixedArray

/-! ## Version 1 B-trees -/

namespace TreeOne

variable {root : Nat}

theorem repeats_recallNode (address : Nat) :
    Repeats image (Consistent image s root) (recallNode s address) (nodeAt image s address) := by
  refine Memo.repeats_recallAt (fun t n keeps held => keeps.nodes address n held) ?_
    (.of_detached (ofRoot s address) (detached_readNode ..))
  intro t n keeps read
  exact { keeps with nodes := Memo.forall_insert keeps.nodes read }

theorem steady_descend (target : List Nat) (level : Nat) (n : Node) :
    Steady image (Consistent image s root) (descend s target level n) := by
  induction level generalizing n with
  | zero =>
    refine .bind (.liftM _) fun slot _ => ?_
    cases slot with
    | none => exact .pure _
    | some slot => exact .liftM _
  | succ level ih =>
    refine .bind (.liftM _) fun slot _ => ?_
    cases slot with
    | none => exact .pure _
    | some slot =>
      refine .bind (.liftM _) fun address _ => .bind (repeats_recallNode address) fun child _ => ?_
      exact .ite (fun _ => .bind (.throw _) fun _ _ => ih child) fun _ => ih child

/-- The result of a lookup does not depend on what was decoded before. -/
theorem steady_lookup (c : Coordinate) :
    Steady image (Consistent image s root) (lookup c) := by
  apply Steady.get_bind
  · rintro ⟨_, _, _⟩ ⟨_, _, _⟩ keeps keeps'
    cases keeps.opening.trans keeps'.opening.symm
    rfl
  intro t keeps
  obtain ⟨rfl, rfl⟩ : t.settings = s ∧ t.root = root := Prod.ext_iff.1 keeps.opening
  exact .ite (fun _ => .pure _) fun _ =>
    .bind (repeats_recallNode _) fun n _ => steady_descend _ _ n

end TreeOne

end ChunkStore.Index
