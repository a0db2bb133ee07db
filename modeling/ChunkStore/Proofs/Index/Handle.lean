import ChunkStore.Index.Chunks
import ChunkStore.Proofs.Session

/-!
# An index handle between lookups

Lookups decode structures and keep them; what the index was opened with they leave alone. The
`keeps_lookup` lemmas say so for each kind of index, and `ChunkIndex.keeps_lookup` for all.
`ChunkIndex.after` is the handle after some lookups, in any order and with any answers;
`ChunkIndex.Embeds.after` says what it keeps of an invariant of its structure.
-/

namespace ChunkStore.Index

open Session

theorem keeps_pageEntries {σ τ : Type} {part : σ → τ} (s : Settings) (p : Part)
    (address count width : Nat) : Keeps part (pageEntries s p address count width (σ := σ)) := by
  apply Keeps.bind (.ofExcept _)
  intro body
  apply Keeps.bind (.fetch ..)
  intro image
  exact .ofExcept _

/-! ## Fixed arrays -/

namespace FixedArray

/-- What a fixed array was opened with. -/
def opening (a : FixedArray) : Settings × Nat := (a.settings, a.address)

theorem keeps_recallHeader (a : FixedArray) : Keeps opening a.recallHeader := by
  apply keeps_recallOne
  · exact .bind (.fetch ..) fun image => .ofExcept _
  · intro h a
    rfl

theorem keeps_recallBlock (a : FixedArray) (h : Header) : Keeps opening (a.recallBlock h) := by
  apply keeps_recallOne
  · exact .bind (.fetch ..) fun image => .ofExcept _
  · intro b a
    rfl

theorem keeps_recallPage (a : FixedArray) (h : Header) (firstPage page : Nat) :
    Keeps opening (a.recallPage h firstPage page) := by
  apply Keeps.bind (.liftM _)
  intro before
  apply Keeps.bind (.liftM _)
  intro rest
  apply Memo.keeps_recallAt (keeps_pageEntries ..)
  intro pages a
  rfl

theorem keeps_entry (i : Nat) : Keeps opening (entry i) := by
  apply Keeps.bind .get
  intro a
  apply Keeps.bind (keeps_recallHeader a)
  intro h
  apply Keeps.ite (.pure _)
  apply Keeps.bind (keeps_recallBlock a h)
  intro b
  cases b with
  | unpaged entries => exact .pure _
  | paged bitmap firstPage =>
    apply Keeps.ite (.pure _)
    exact .bind (keeps_recallPage a h firstPage _) fun entries => .pure _

theorem keeps_lookup (c : Coordinate) : Keeps opening (lookup c) := by
  apply Keeps.bind .get
  intro a
  exact .ite (.pure _) (keeps_entry _)

end FixedArray

/-! ## Extensible arrays -/

namespace ExtensibleArray

/-- What an extensible array was opened with. -/
def opening (a : ExtensibleArray) : Settings × Nat := (a.settings, a.address)

theorem keeps_recallHeader (a : ExtensibleArray) : Keeps opening a.recallHeader := by
  apply keeps_recallOne
  · exact .bind (.fetch ..) fun image => .ofExcept _
  · intro h a
    rfl

theorem keeps_recallIndexBlock (a : ExtensibleArray) (h : Header) :
    Keeps opening (a.recallIndexBlock h) := by
  apply keeps_recallOne
  · apply Keeps.bind (.liftM _)
    intro length
    exact .bind (.fetch ..) fun image => .ofExcept _
  · intro b a
    rfl

/-- What an extensible array was opened with, and what every lookup starts from. -/
def front (a : ExtensibleArray) : (Settings × Nat) × Option Header × Option IndexBlock :=
  (a.opening, a.header, a.indexBlock)

theorem keeps_recallSecondaryBlock (a : ExtensibleArray) (h : Header) (group : Group)
    (own : Nat) : Keeps front (a.recallSecondaryBlock h group own) := by
  apply Memo.keeps_recallAt
  · apply Keeps.bind (.ofExcept _)
    intro bitmap
    apply Keeps.bind (.ofExcept _)
    intro pointers
    exact .bind (.fetch ..) fun image => .ofExcept _
  · intro blocks a
    rfl

theorem keeps_recallDataBlock (a : ExtensibleArray) (h : Header) (blockEntries own : Nat) :
    Keeps front (a.recallDataBlock h blockEntries own) := by
  apply Memo.keeps_recallAt
  · apply Keeps.bind (.ofExcept _)
    intro body
    exact .bind (.fetch ..) fun image => .ofExcept _
  · intro blocks a
    rfl

theorem keeps_recallPage (a : ExtensibleArray) (h : Header) (block page : Nat) :
    Keeps front (a.recallPage h block page) := by
  unfold recallPage
  apply Memo.keeps_recallAt (keeps_pageEntries ..)
  intro pages a
  rfl

theorem keeps_blockEntry (a : ExtensibleArray) (h : Header) (block blockEntries offset : Nat) :
    Keeps front (a.blockEntry h block blockEntries offset) := by
  apply Keeps.ite
  · exact .bind (keeps_recallDataBlock ..) fun entries => .pure _
  · exact .bind (keeps_recallPage ..) fun entries => .pure _

theorem keeps_entryAt (a : ExtensibleArray) (h : Header) (b : IndexBlock) (p : Place) :
    Keeps front (a.entryAt h b p) := by
  cases p with
  | inIndexBlock slot => exact .liftM _
  | beyond => exact .pure _
  | direct group block offset => exact .ite (.pure _) (keeps_blockEntry ..)
  | indirect group secondary block offset =>
    apply Keeps.ite (.pure _)
    apply Keeps.bind (keeps_recallSecondaryBlock ..)
    intro sb
    exact .ite (.pure _) (.ite (.pure _) (keeps_blockEntry ..))

theorem keeps_entry (i : Nat) : Keeps opening (entry i) := by
  apply Keeps.bind .get
  intro a
  apply Keeps.bind (keeps_recallHeader a)
  intro h
  apply Keeps.ite (.pure _)
  apply Keeps.bind (keeps_recallIndexBlock a h)
  intro b
  apply Keeps.bind (.liftM _)
  intro p
  exact (keeps_entryAt a h b p).comp Prod.fst

theorem keeps_lookup (c : Coordinate) : Keeps opening (lookup c) := by
  apply Keeps.bind .get
  intro a
  exact .ite (.pure _) (keeps_entry _)

end ExtensibleArray

/-! ## B-trees -/

namespace TreeOne

/-- What a version 1 B-tree was opened with. -/
def opening (t : TreeOne) : Settings × Nat := (t.settings, t.root)

theorem keeps_recallNode (s : Settings) (address : Nat) : Keeps opening (recallNode s address) := by
  apply Memo.keeps_recallAt
  · apply Keeps.bind (.fetch ..)
    intro head
    apply Keeps.bind (.ofExcept _)
    intro (level, entries)
    apply Keeps.bind (.liftM _)
    intro start
    apply Keeps.bind (.liftM _)
    intro length
    exact .bind (.fetch ..) fun body => .ofExcept _
  · intro nodes t
    rfl

theorem keeps_descend (s : Settings) (target : List Nat) (level : Nat) (n : Node) :
    Keeps opening (descend s target level n) := by
  induction level generalizing n with
  | zero =>
    apply Keeps.bind (.liftM _)
    intro slot
    cases slot with
    | none => exact .pure _
    | some slot => exact .liftM _
  | succ level ih =>
    apply Keeps.bind (.liftM _)
    intro slot
    cases slot with
    | none => exact .pure _
    | some slot =>
      apply Keeps.bind (.liftM _)
      intro address
      apply Keeps.bind (keeps_recallNode ..)
      intro child
      exact .ite (.bind (.throw _) fun _ => ih child) (ih child)

theorem keeps_lookup (c : Coordinate) : Keeps opening (lookup c) := by
  apply Keeps.bind .get
  intro t
  apply Keeps.ite (.pure _)
  exact .bind (keeps_recallNode ..) fun root => keeps_descend ..

end TreeOne

namespace TreeTwo

/-- What a version 2 B-tree was opened with. -/
def opening (t : TreeTwo) : Settings × Nat := (t.settings, t.address)

theorem keeps_recallHeader (t : TreeTwo) : Keeps opening t.recallHeader := by
  apply keeps_recallOne
  · exact .bind (.fetch ..) fun image => .ofExcept _
  · intro h t
    rfl

/-- What a version 2 B-tree was opened with, and what every lookup starts from. -/
def front (t : TreeTwo) : (Settings × Nat) × Option Header := (t.opening, t.header)

theorem keeps_recallNode (s : Settings) (h : Header) (address records depth : Nat) :
    Keeps front (recallNode s h address records depth) := by
  refine Memo.keeps_recallAt ?_ fun _ _ => rfl
  unfold readNode
  split
  · exact .throw _
  · next capacity found =>
      have rest : Keeps front (do
          let length ← Bounds.within (nodeLength h capacity records depth)
          let image ← Session.fetch address length
          Session.ofExcept ((nodeParser s h address records depth image).parse image)) := by
        apply Keeps.bind (.liftM _)
        intro length
        exact .bind (.fetch ..) fun image => .ofExcept _
      exact .ite (.bind (.throw _) fun _ => rest) rest

theorem keeps_descend (s : Settings) (h : Header) (target : Coordinate)
    (depth address records : Nat) : Keeps front (descend s h target depth address records) := by
  induction depth generalizing address records with
  | zero =>
    unfold descend
    apply Keeps.bind (keeps_recallNode ..)
    intro node
    exact .ite (.bind (.liftM _) fun record => .pure _) (.pure _)
  | succ depth ih =>
    unfold descend
    apply Keeps.bind (keeps_recallNode ..)
    intro node
    apply Keeps.ite (.bind (.liftM _) fun record => .pure _)
    dsimp only
    split
    · exact .pure _
    · exact .ite (.pure _) (ih ..)

theorem keeps_lookup (c : Coordinate) : Keeps opening (lookup c) := by
  apply Keeps.bind .get
  intro t
  apply Keeps.ite (.pure _)
  apply Keeps.bind (keeps_recallHeader t)
  intro h
  exact .ite (.pure _) ((keeps_descend ..).comp Prod.fst)

end TreeTwo

end ChunkStore.Index

/-! ## The index of a dataset -/

namespace ChunkStore.ChunkIndex

open Session Index

/-- The index as it was opened, with nothing decoded. -/
def fresh : ChunkIndex → ChunkIndex
  | single s d => single s d
  | implicit s base => implicit s base
  | fixedArray a => fixedArray (.ofAddress a.settings a.address)
  | extensibleArray a => extensibleArray (.ofAddress a.settings a.address)
  | treeOne t => treeOne (.ofRoot t.settings t.root)
  | treeTwo t => treeTwo (.ofAddress t.settings t.address)

@[simp] theorem settings_fresh (ix : ChunkIndex) : ix.fresh.settings = ix.settings := by
  cases ix <;> rfl

/-- An index just opened is fresh, and its settings are those it was opened with. -/
theorem fresh_of_ofLayout {layout : ChunkedLayout} {g : Geometry} {widths : FileWidths}
    {filtered verify : Bool} {ix : ChunkIndex}
    (opened : ofLayout layout g widths filtered verify = .ok ix) :
    ix.fresh = ix ∧ layout.chunkDims.length = g.rank ∧
      ix.settings = ⟨widths, g, layout.chunkDims, layout.elementSize, filtered, verify⟩ := by
  unfold ofLayout at opened
  split at opened
  · cases opened
  · next rank =>
      refine ⟨?_, Classical.not_not.1 rank, ?_⟩
      all_goals
        dsimp only at opened
        split at opened
        all_goals first
          | (cases opened; rfl)
          | (split at opened; · cases opened
             split at opened; · cases opened
             cases opened; rfl)

/-- A coordinate of the wrong rank is refused before anything is read. -/
theorem runOn_lookup_rank {c : Coordinate} {ix : ChunkIndex} {e : Error} (image : Image)
    (wrong : ix.geometry.checkRank c = .error e) :
    (lookup c).runOn image ix = (.error e, ix) := by
  show (lookup c ix : Fetch _).run image = _
  simp only [lookup, wrong]
  rfl

/-- A coordinate of the right rank goes to the structure that the index consists of. -/
theorem runOn_lookup {c : Coordinate} {ix : ChunkIndex} (image : Image)
    (right : ix.geometry.checkRank c = .ok ()) :
    (lookup c).runOn image ix = match ix with
      | single s d => (lookupSingle d c, single s d)
      | implicit s base => (.ok (lookupImplicit s base c), implicit s base)
      | fixedArray a =>
        let (result, a) := (FixedArray.lookup c).runOn image a
        (result, fixedArray a)
      | extensibleArray a =>
        let (result, a) := (ExtensibleArray.lookup c).runOn image a
        (result, extensibleArray a)
      | treeOne t =>
        let (result, t) := (TreeOne.lookup c).runOn image t
        (result, treeOne t)
      | treeTwo t =>
        let (result, t) := (TreeTwo.lookup c).runOn image t
        (result, treeTwo t) := by
  show (lookup c ix : Fetch _).run image = _
  simp only [lookup, right]
  cases ix with
  | single s d => rfl
  | implicit s base => rfl
  | fixedArray a => exact Fetch.run_bind ..
  | extensibleArray a => exact Fetch.run_bind ..
  | treeOne t => exact Fetch.run_bind ..
  | treeTwo t => exact Fetch.run_bind ..

theorem keeps_lookup (c : Coordinate) : Keeps fresh (lookup c) := by
  refine ⟨fun image ix => ?_⟩
  cases right : ix.geometry.checkRank c with
  | error e => rw [runOn_lookup_rank image right]
  | ok =>
    rw [runOn_lookup image right]
    cases ix with
    | single s d => rfl
    | implicit s base => rfl
    | fixedArray a =>
      have kept := (FixedArray.keeps_lookup c).same image a
      exact congrArg (fun o => fixedArray (.ofAddress o.1 o.2)) kept
    | extensibleArray a =>
      have kept := (ExtensibleArray.keeps_lookup c).same image a
      exact congrArg (fun o => extensibleArray (.ofAddress o.1 o.2)) kept
    | treeOne t =>
      have kept := (TreeOne.keeps_lookup c).same image t
      exact congrArg (fun o => treeOne (.ofRoot o.1 o.2)) kept
    | treeTwo t =>
      have kept := (TreeTwo.keeps_lookup c).same image t
      exact congrArg (fun o => treeTwo (.ofAddress o.1 o.2)) kept

/-- The index after lookups of the given coordinates, one after another. -/
def after (image : Image) (ix : ChunkIndex) (earlier : List Coordinate) : ChunkIndex :=
  earlier.foldl (fun ix c => ((lookup c).runOn image ix).2) ix

@[simp] theorem after_nil (image : Image) (ix : ChunkIndex) : ix.after image [] = ix := rfl

theorem after_cons (image : Image) (ix : ChunkIndex) (c : Coordinate)
    (earlier : List Coordinate) :
    ix.after image (c :: earlier) = (((lookup c).runOn image ix).2).after image earlier := rfl

@[simp] theorem fresh_after (image : Image) (ix : ChunkIndex) (earlier : List Coordinate) :
    (ix.after image earlier).fresh = ix.fresh := by
  induction earlier generalizing ix with
  | nil => rfl
  | cons c earlier ih => rw [after_cons, ih, (keeps_lookup c).same]

@[simp] theorem settings_after (image : Image) (ix : ChunkIndex) (earlier : List Coordinate) :
    (ix.after image earlier).settings = ix.settings := by
  rw [← settings_fresh, fresh_after, settings_fresh]

/-- What a lookup answers when others were made before it. -/
def answerAfter (image : Image) (ix : ChunkIndex) (earlier : List Coordinate) (c : Coordinate) :
    Except Error Descriptor :=
  ((lookup c).runOn image (ix.after image earlier)).1

/-- The index consists of one structure, which was opened with the index's settings, and `look`
answers for coordinates of its rank. -/
structure Embeds {σ : Type} (embed : σ → ChunkIndex) (opening : σ → Settings × Nat)
    (look : Coordinate → Session σ Descriptor) : Prop where
  settings : ∀ x, (embed x).settings = (opening x).1
  run : ∀ image {c x}, (embed x).geometry.checkRank c = .ok () →
    (lookup c).runOn image (embed x) =
      (((look c).runOn image x).1, embed ((look c).runOn image x).2)

theorem embeds_extensibleArray :
    Embeds extensibleArray ExtensibleArray.opening ExtensibleArray.lookup :=
  ⟨fun _ => rfl, fun image _ _ right => by rw [runOn_lookup image right]⟩

theorem embeds_treeOne : Embeds treeOne TreeOne.opening TreeOne.lookup :=
  ⟨fun _ => rfl, fun image _ _ right => by rw [runOn_lookup image right]⟩

theorem embeds_treeTwo : Embeds treeTwo TreeTwo.opening TreeTwo.lookup :=
  ⟨fun _ => rfl, fun image _ _ right => by rw [runOn_lookup image right]⟩

namespace Embeds

variable {σ : Type} {embed : σ → ChunkIndex} {opening : σ → Settings × Nat}
variable {look : Coordinate → Session σ Descriptor} {image : Image} {inv : σ → Prop}
variable {s : Settings} {address : Nat}

theorem rank_eq (embeds : Embeds embed opening look) {x : σ} (opened : opening x = (s, address)) :
    (embed x).geometry.rank = s.geometry.rank := by
  rw [geometry, embeds.settings, opened]

/-- Lookups, whatever they are for, keep an invariant that every lookup of the structure keeps. -/
theorem after (embeds : Embeds embed opening look)
    (opened : ∀ x, inv x → opening x = (s, address))
    (keeps : ∀ c : Coordinate, c.length = s.geometry.rank → Meets image inv (look c) fun _ => True)
    {x : σ} (holds : inv x) (earlier : List Coordinate) :
    ∃ x', (embed x).after image earlier = embed x' ∧ inv x' := by
  induction earlier generalizing x with
  | nil => exact ⟨x, rfl, holds⟩
  | cons c earlier ih =>
    rw [after_cons]
    by_cases right : c.length = (embed x).geometry.rank
    · rw [embeds.run image (if_pos right)]
      rw [embeds.rank_eq (opened x holds)] at right
      exact ih ((keeps c right).run x holds).1
    · rw [runOn_lookup_rank image (if_neg right)]
      exact ih holds

/-- A lookup with one answer, whatever the handle holds, has it after any other lookups. -/
theorem answerAfter_eq (embeds : Embeds embed opening look)
    (opened : ∀ x, inv x → opening x = (s, address)) {value : Coordinate → Descriptor}
    (answers : ∀ c : Coordinate, c.length = s.geometry.rank →
      Answers image inv (look c) (value c))
    {x : σ} (holds : inv x) {c : Coordinate} (right : c.length = s.geometry.rank)
    (earlier : List Coordinate) : answerAfter image (embed x) earlier c = .ok (value c) := by
  obtain ⟨x', reached, holds'⟩ :=
    embeds.after opened (fun c right => (answers c right).meets) holds earlier
  obtain ⟨x'', run, -⟩ := (answers c right).run x' holds'
  have right : (embed x').geometry.checkRank c = .ok () :=
    if_pos (right.trans (embeds.rank_eq (opened x' holds')).symm)
  rw [answerAfter, reached, embeds.run image right, run]

end Embeds

end ChunkStore.ChunkIndex
