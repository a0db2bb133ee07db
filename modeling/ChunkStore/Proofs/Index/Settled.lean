import ChunkStore.Proofs.TreeOne.Lookup
import ChunkStore.Proofs.TreeTwo.Lookup
import Mathlib.Order.Defs.PartialOrder

/-!
# Lookups made again

A handle never gives up a structure that it holds, so handles over one file are ordered by what
they hold. A session settles (`Session.Settles`) when it only moves the handle up in this order
and, once it has succeeded, gives the same answer in every later state and decodes nothing more.
Recalling a structure settles, and sessions that settle can be put together; the lookups of every
kind of index are made so, whatever the file holds (`ChunkIndex.settles_lookup`).
-/

namespace ChunkStore

namespace Session

variable {σ α β : Type} [Preorder σ] {image : Image}

/-- The state only grows, and where the session has succeeded it answers the same ever after and
leaves the state alone. -/
structure Settles (image : Image) (x : Session σ α) : Prop where
  grows : ∀ s, s ≤ (x.runOn image s).2
  again : ∀ {s s' later a}, x.runOn image s = (.ok a, s') → s' ≤ later →
    x.runOn image later = (.ok a, later)

namespace Settles

/-- What has nothing to do with the state settles. -/
theorem of_detached {x : Session σ α} (h : Detached x) : Settles image x := by
  constructor
  · intro s
    rw [h.run image s s]
  · intro s s' later a run _
    rw [h.run image later s, run]

theorem pure (a : α) : Settles image (pure a : Session σ α) :=
  ⟨fun s => le_refl s, fun run _ => by cases run; rfl⟩

theorem throw (e : Error) : Settles image (throw e : Session σ α) := of_detached (.throw e)

theorem liftM (x : Except Error α) : Settles image (liftM x : Session σ α) :=
  of_detached (.liftM x)

theorem bind {x : Session σ α} {f : α → Session σ β} (hx : Settles image x)
    (hf : ∀ a, Settles image (f a)) : Settles image (x >>= f) := by
  constructor
  · intro s
    have first := hx.grows s
    rw [runOn_bind]
    cases run : x.runOn image s with
    | mk result s' =>
      rw [run] at first
      cases result with
      | error e => exact first
      | ok a => exact le_trans first ((hf a).grows s')
  · intro s s'' later b run after
    rw [runOn_bind] at run
    cases first : x.runOn image s with
    | mk result s' =>
      rw [first] at run
      cases result with
      | error e => cases run
      | ok a =>
        have between : s' ≤ s'' := by
          have grown := (hf a).grows s'
          rwa [show (f a).runOn image s' = (.ok b, s'') from run] at grown
        rw [runOn_bind, hx.again first (le_trans between after)]
        exact (hf a).again run after

/-- What the rest takes from the state must be what growing leaves alone. -/
theorem get_bind {f : σ → Session σ β} (same : ∀ s s', s ≤ s' → f s = f s')
    (h : ∀ s, Settles image (f s)) : Settles image ((MonadState.get : Session σ σ) >>= f) := by
  constructor
  · exact fun s => (h s).grows s
  · intro s s' later b run after
    have grown : s ≤ s' := by
      have grown := (h s).grows s
      rwa [show (f s).runOn image s = (.ok b, s') from run] at grown
    rw [runOn_get_bind, ← same s later (le_trans grown after)]
    exact (h s).again run after

theorem ite {c : Prop} [Decidable c] {x y : Session σ α} (hx : Settles image x)
    (hy : Settles image y) : Settles image (if c then x else y) := by
  split
  · exact hx
  · exact hy

end Settles

end Session

namespace Index

open Session

variable {σ α : Type} [Preorder σ] {image : Image}

/-- A structure of which there is one is decoded once. -/
theorem settles_recallOne {held : σ → Option α} {keep : α → σ → σ} {read : Session σ α}
    (stays : ∀ {s s' a}, s ≤ s' → held s = some a → held s' = some a)
    (kept : ∀ {s} a, held s = none → s ≤ keep a s ∧ held (keep a s) = some a)
    (detached : Detached read) : Settles image (recallOne held keep read) := by
  constructor
  · intro s
    rw [runOn_recallOne]
    cases known : held s with
    | some a => exact le_refl s
    | none =>
      rw [detached.run image s s]
      cases (read.runOn image s).1 with
      | error e => exact le_refl s
      | ok a => exact (kept a known).1
  · intro s s' later a run after
    rw [runOn_recallOne] at run ⊢
    have found : held s' = some a := by
      cases known : held s with
      | some b =>
        rw [known] at run
        cases run
        exact known
      | none =>
        rw [known, detached.run image s s] at run
        cases answer : (read.runOn image s).1 with
        | error e =>
          rw [answer] at run
          cases run
        | ok b =>
          rw [answer] at run
          cases run
          exact (kept _ known).2
    rw [stays after found]

/-- A structure at an address is decoded once. -/
theorem Memo.settles_recallAt {memo : σ → Memo α} {keep : Memo α → σ → σ} {address : Nat}
    {read : Session σ α}
    (stays : ∀ {s s' a}, s ≤ s' → (memo s).get? address = some a →
      (memo s').get? address = some a)
    (kept : ∀ {s} a, (memo s).get? address = none →
      s ≤ keep ((memo s).insert address a) s ∧
        memo (keep ((memo s).insert address a) s) = (memo s).insert address a)
    (detached : Detached read) : Settles image (Memo.recallAt memo keep address read) := by
  constructor
  · intro s
    rw [Memo.runOn_recallAt]
    cases known : (memo s).get? address with
    | some a => exact le_refl s
    | none =>
      rw [detached.run image s s]
      cases (read.runOn image s).1 with
      | error e => exact le_refl s
      | ok a => exact (kept a known).1
  · intro s s' later a run after
    rw [Memo.runOn_recallAt] at run ⊢
    have found : (memo s').get? address = some a := by
      cases known : (memo s).get? address with
      | some b =>
        rw [known] at run
        cases run
        exact known
      | none =>
        rw [known, detached.run image s s] at run
        cases answer : (read.runOn image s).1 with
        | error e =>
          rw [answer] at run
          cases run
        | ok b =>
          rw [answer] at run
          cases run
          rw [(kept _ known).2, Memo.get?_insert, if_pos rfl]
    rw [stays after found]

/-- What a memo holds stays when another structure is decoded. -/
theorem Memo.get?_insert_of_free {m : Memo α} {address other : Nat} {a b : α}
    (free : m.get? address = none) (held : m.get? other = some b) :
    (m.insert address a).get? other = some b := by
  rw [Memo.get?_insert]
  split
  next same =>
    rw [same, free] at held
    cases held
  next => exact held

theorem detached_pageEntries {τ : Type} (s : Settings) (p : Part) (address count width : Nat) :
    Detached (pageEntries s p address count width (σ := τ)) := by
  apply Detached.bind (.ofExcept _)
  intro body
  exact .bind (.fetch ..) fun image => .ofExcept _

/-! ## Fixed arrays -/

namespace FixedArray

/-- The second handle is one on the same array and holds what the first one holds. -/
structure Below (a b : FixedArray) : Prop where
  opening : a.opening = b.opening
  header : ∀ {h}, a.header = some h → b.header = some h
  block : ∀ {x}, a.block = some x → b.block = some x
  pages : ∀ {address x}, a.pages.get? address = some x → b.pages.get? address = some x

instance : Preorder FixedArray where
  le := Below
  le_refl _ := ⟨rfl, id, id, id⟩
  le_trans _ _ _ h k :=
    ⟨h.opening.trans k.opening, k.header ∘ h.header, k.block ∘ h.block, k.pages ∘ h.pages⟩

theorem settles_recallHeader (a : FixedArray) : Settles image a.recallHeader := by
  refine settles_recallOne (fun le => le.header) ?_ (.bind (.fetch ..) fun _ => .ofExcept _)
  intro s h free
  exact ⟨⟨rfl, fun held => (nomatch free.symm.trans held), id, id⟩, rfl⟩

theorem settles_recallBlock (a : FixedArray) (h : Header) : Settles image (a.recallBlock h) := by
  refine settles_recallOne (fun le => le.block) ?_ (.bind (.fetch ..) fun _ => .ofExcept _)
  intro s b free
  exact ⟨⟨rfl, id, fun held => (nomatch free.symm.trans held), id⟩, rfl⟩

theorem settles_recallPage (a : FixedArray) (h : Header) (firstPage page : Nat) :
    Settles image (a.recallPage h firstPage page) := by
  apply Settles.bind (.liftM _)
  intro before
  apply Settles.bind (.liftM _)
  intro rest
  refine Memo.settles_recallAt (fun le => le.pages) ?_ (detached_pageEntries ..)
  intro s entries free
  exact ⟨⟨rfl, id, id, Memo.get?_insert_of_free free⟩, rfl⟩

theorem settles_entry (i : Nat) : Settles image (entry i) := by
  apply Settles.get_bind
  · rintro ⟨s, address, _, _, _⟩ ⟨_, _, _, _, _⟩ le
    cases le.opening
    rfl
  intro a
  apply Settles.bind (settles_recallHeader a)
  intro h
  apply Settles.ite (.pure _)
  apply Settles.bind (settles_recallBlock a h)
  intro b
  cases b with
  | unpaged entries => exact .pure _
  | paged bitmap firstPage =>
    apply Settles.ite (.pure _)
    exact .bind (settles_recallPage a h firstPage _) fun entries => .pure _

theorem settles_lookup (c : Coordinate) : Settles image (lookup c) := by
  apply Settles.get_bind
  · rintro ⟨s, address, _, _, _⟩ ⟨_, _, _, _, _⟩ le
    cases le.opening
    rfl
  intro a
  exact .ite (.pure _) (settles_entry _)

end FixedArray

/-! ## Extensible arrays -/

namespace ExtensibleArray

/-- The second handle is one on the same array and holds what the first one holds. -/
structure Below (a b : ExtensibleArray) : Prop where
  opening : a.opening = b.opening
  header : ∀ {h}, a.header = some h → b.header = some h
  indexBlock : ∀ {x}, a.indexBlock = some x → b.indexBlock = some x
  secondaryBlocks : ∀ {address x},
    a.secondaryBlocks.get? address = some x → b.secondaryBlocks.get? address = some x
  dataBlocks : ∀ {address x},
    a.dataBlocks.get? address = some x → b.dataBlocks.get? address = some x
  pages : ∀ {address x}, a.pages.get? address = some x → b.pages.get? address = some x

instance : Preorder ExtensibleArray where
  le := Below
  le_refl _ := ⟨rfl, id, id, id, id, id⟩
  le_trans _ _ _ h k :=
    ⟨h.opening.trans k.opening, k.header ∘ h.header, k.indexBlock ∘ h.indexBlock,
      k.secondaryBlocks ∘ h.secondaryBlocks, k.dataBlocks ∘ h.dataBlocks, k.pages ∘ h.pages⟩

theorem settles_recallHeader (a : ExtensibleArray) : Settles image a.recallHeader := by
  refine settles_recallOne (fun le => le.header) ?_ (.bind (.fetch ..) fun _ => .ofExcept _)
  intro s h free
  exact ⟨⟨rfl, fun held => (nomatch free.symm.trans held), id, id, id, id⟩, rfl⟩

theorem settles_recallIndexBlock (a : ExtensibleArray) (h : Header) :
    Settles image (a.recallIndexBlock h) := by
  refine settles_recallOne (fun le => le.indexBlock) ?_
    (.bind (.liftM _) fun _ => .bind (.fetch ..) fun _ => .ofExcept _)
  intro s b free
  exact ⟨⟨rfl, id, fun held => (nomatch free.symm.trans held), id, id, id⟩, rfl⟩

theorem settles_recallSecondaryBlock (a : ExtensibleArray) (h : Header) (group : Group)
    (own : Nat) : Settles image (a.recallSecondaryBlock h group own) := by
  refine Memo.settles_recallAt (fun le => le.secondaryBlocks) ?_
    (.bind (.ofExcept _) fun _ => .bind (.ofExcept _) fun _ =>
      .bind (.fetch ..) fun _ => .ofExcept _)
  intro s block free
  exact ⟨⟨rfl, id, id, Memo.get?_insert_of_free free, id, id⟩, rfl⟩

theorem settles_recallDataBlock (a : ExtensibleArray) (h : Header) (blockEntries own : Nat) :
    Settles image (a.recallDataBlock h blockEntries own) := by
  refine Memo.settles_recallAt (fun le => le.dataBlocks) ?_
    (.bind (.ofExcept _) fun _ => .bind (.fetch ..) fun _ => .ofExcept _)
  intro s entries free
  exact ⟨⟨rfl, id, id, id, Memo.get?_insert_of_free free, id⟩, rfl⟩

theorem settles_recallPage (a : ExtensibleArray) (h : Header) (block page : Nat) :
    Settles image (a.recallPage h block page) := by
  unfold recallPage
  refine Memo.settles_recallAt (fun le => le.pages) ?_ (detached_pageEntries ..)
  intro s entries free
  exact ⟨⟨rfl, id, id, id, id, Memo.get?_insert_of_free free⟩, rfl⟩

theorem settles_blockEntry (a : ExtensibleArray) (h : Header) (block blockEntries offset : Nat) :
    Settles image (a.blockEntry h block blockEntries offset) := by
  apply Settles.ite
  · exact .bind (settles_recallDataBlock ..) fun entries => .pure _
  · exact .bind (settles_recallPage ..) fun entries => .pure _

theorem settles_entryAt (a : ExtensibleArray) (h : Header) (b : IndexBlock) (p : Place) :
    Settles image (a.entryAt h b p) := by
  cases p with
  | inIndexBlock slot => exact .liftM _
  | beyond => exact .pure _
  | direct group block offset => exact .ite (.pure _) (settles_blockEntry ..)
  | indirect group secondary block offset =>
    apply Settles.ite (.pure _)
    apply Settles.bind (settles_recallSecondaryBlock ..)
    intro sb
    exact .ite (.pure _) (.ite (.pure _) (settles_blockEntry ..))

theorem settles_entry (i : Nat) : Settles image (entry i) := by
  apply Settles.get_bind
  · rintro ⟨s, address, _, _, _, _, _⟩ ⟨_, _, _, _, _, _, _⟩ le
    cases le.opening
    rfl
  intro a
  apply Settles.bind (settles_recallHeader a)
  intro h
  apply Settles.ite (.pure _)
  apply Settles.bind (settles_recallIndexBlock a h)
  intro b
  exact .bind (.liftM _) fun p => settles_entryAt a h b p

theorem settles_lookup (c : Coordinate) : Settles image (lookup c) := by
  apply Settles.get_bind
  · rintro ⟨s, address, _, _, _, _, _⟩ ⟨_, _, _, _, _, _, _⟩ le
    cases le.opening
    rfl
  intro a
  exact .ite (.pure _) (settles_entry _)

end ExtensibleArray

/-! ## B-trees -/

namespace TreeOne

/-- The second handle is one on the same tree and holds what the first one holds. -/
structure Below (t u : TreeOne) : Prop where
  opening : t.opening = u.opening
  nodes : ∀ {address n}, t.nodes.get? address = some n → u.nodes.get? address = some n

instance : Preorder TreeOne where
  le := Below
  le_refl _ := ⟨rfl, id⟩
  le_trans _ _ _ h k := ⟨h.opening.trans k.opening, k.nodes ∘ h.nodes⟩

theorem settles_recallNode (s : Settings) (address : Nat) :
    Settles image (recallNode s address) := by
  refine Memo.settles_recallAt (fun le => le.nodes) ?_ (detached_readNode ..)
  intro t n free
  exact ⟨⟨rfl, Memo.get?_insert_of_free free⟩, rfl⟩

theorem settles_descend (s : Settings) (target : List Nat) (level : Nat) (n : Node) :
    Settles image (descend s target level n) := by
  induction level generalizing n with
  | zero =>
    apply Settles.bind (.liftM _)
    intro slot
    cases slot with
    | none => exact .pure _
    | some slot => exact .liftM _
  | succ level ih =>
    apply Settles.bind (.liftM _)
    intro slot
    cases slot with
    | none => exact .pure _
    | some slot =>
      apply Settles.bind (.liftM _)
      intro address
      apply Settles.bind (settles_recallNode ..)
      intro child
      exact .ite (.bind (.throw _) fun _ => ih child) (ih child)

theorem settles_lookup (c : Coordinate) : Settles image (lookup c) := by
  apply Settles.get_bind
  · rintro ⟨s, root, _⟩ ⟨_, _, _⟩ le
    cases le.opening
    rfl
  intro t
  apply Settles.ite (.pure _)
  exact .bind (settles_recallNode ..) fun root => settles_descend ..

end TreeOne

namespace TreeTwo

/-- The second handle is one on the same tree and holds what the first one holds. -/
structure Below (t u : TreeTwo) : Prop where
  opening : t.opening = u.opening
  header : ∀ {h}, t.header = some h → u.header = some h
  nodes : ∀ {address n}, t.nodes.get? address = some n → u.nodes.get? address = some n

instance : Preorder TreeTwo where
  le := Below
  le_refl _ := ⟨rfl, id, id⟩
  le_trans _ _ _ h k := ⟨h.opening.trans k.opening, k.header ∘ h.header, k.nodes ∘ h.nodes⟩

theorem settles_recallHeader (t : TreeTwo) : Settles image t.recallHeader := by
  refine settles_recallOne (fun le => le.header) ?_ (.bind (.fetch ..) fun _ => .ofExcept _)
  intro s h free
  exact ⟨⟨rfl, fun held => (nomatch free.symm.trans held), id⟩, rfl⟩

/-- A node is kept by its address alone, so the first one that was read there stays. -/
theorem settles_recallNode (s : Settings) (h : Header) (address records depth : Nat) :
    Settles image (recallNode s h address records depth) := by
  refine Memo.settles_recallAt (fun le => le.nodes) ?_ (detached_readNode ..)
  intro t n free
  exact ⟨⟨rfl, id, Memo.get?_insert_of_free free⟩, rfl⟩

theorem settles_descend (s : Settings) (h : Header) (target : Coordinate)
    (depth address records : Nat) : Settles image (descend s h target depth address records) := by
  induction depth generalizing address records with
  | zero =>
    unfold descend
    apply Settles.bind (settles_recallNode ..)
    intro node
    exact .ite (.bind (.liftM _) fun record => .pure _) (.pure _)
  | succ depth ih =>
    unfold descend
    apply Settles.bind (settles_recallNode ..)
    intro node
    apply Settles.ite (.bind (.liftM _) fun record => .pure _)
    dsimp only
    split
    · exact .pure _
    · exact .ite (.pure _) (ih ..)

theorem settles_lookup (c : Coordinate) : Settles image (lookup c) := by
  apply Settles.get_bind
  · rintro ⟨s, address, _, _⟩ ⟨_, _, _, _⟩ le
    cases le.opening
    rfl
  intro t
  apply Settles.ite (.pure _)
  apply Settles.bind (settles_recallHeader t)
  intro h
  exact .ite (.pure _) (settles_descend ..)

end TreeTwo

end Index

/-! ## The index of a dataset -/

namespace ChunkIndex

open Session Index

/-- The second handle is one on the same index and holds what the first one holds. -/
inductive Below : ChunkIndex → ChunkIndex → Prop where
  | single (s : Settings) (d : Descriptor) : Below (single s d) (single s d)
  | implicit (s : Settings) (base : Nat) : Below (implicit s base) (implicit s base)
  | fixedArray {a b : FixedArray} (le : a ≤ b) : Below (fixedArray a) (fixedArray b)
  | extensibleArray {a b : ExtensibleArray} (le : a ≤ b) :
      Below (extensibleArray a) (extensibleArray b)
  | treeOne {t u : TreeOne} (le : t ≤ u) : Below (treeOne t) (treeOne u)
  | treeTwo {t u : TreeTwo} (le : t ≤ u) : Below (treeTwo t) (treeTwo u)

instance : Preorder ChunkIndex where
  le := Below
  le_refl ix := by
    cases ix with
    | single s d => exact .single s d
    | implicit s base => exact .implicit s base
    | fixedArray a => exact .fixedArray (le_refl a)
    | extensibleArray a => exact .extensibleArray (le_refl a)
    | treeOne t => exact .treeOne (le_refl t)
    | treeTwo t => exact .treeTwo (le_refl t)
  le_trans ix ix' ix'' h k := by
    cases h with
    | single s d => exact k
    | implicit s base => exact k
    | fixedArray le => cases k with | fixedArray le' => exact .fixedArray (le_trans le le')
    | extensibleArray le =>
      cases k with | extensibleArray le' => exact .extensibleArray (le_trans le le')
    | treeOne le => cases k with | treeOne le' => exact .treeOne (le_trans le le')
    | treeTwo le => cases k with | treeTwo le' => exact .treeTwo (le_trans le le')

theorem settings_eq_of_le {ix ix' : ChunkIndex} (le : ix ≤ ix') : ix.settings = ix'.settings := by
  cases le with
  | single s d => rfl
  | implicit s base => rfl
  | fixedArray le => exact congrArg Prod.fst le.opening
  | extensibleArray le => exact congrArg Prod.fst le.opening
  | treeOne le => exact congrArg Prod.fst le.opening
  | treeTwo le => exact congrArg Prod.fst le.opening

variable {image : Image}

theorem embeds_fixedArray : Embeds fixedArray FixedArray.opening FixedArray.lookup :=
  ⟨fun _ => rfl, fun image _ _ right => by rw [runOn_lookup image right]⟩

/-- What settles on the structure that an index consists of settles on the index. -/
theorem Embeds.settles {σ : Type} [Preorder σ] {embed : σ → ChunkIndex}
    {opening : σ → Settings × Nat} {look : Coordinate → Session σ Descriptor}
    (embeds : Embeds embed opening look) (mono : ∀ {x y}, x ≤ y → embed x ≤ embed y)
    (above : ∀ {x ix}, embed x ≤ ix → ∃ y, ix = embed y ∧ x ≤ y) {c : Coordinate}
    (h : Settles image (look c)) {x : σ} (right : (embed x).geometry.checkRank c = .ok ()) :
    embed x ≤ ((lookup c).runOn image (embed x)).2 ∧
      ∀ {ix later d}, (lookup c).runOn image (embed x) = (.ok d, ix) → ix ≤ later →
        (lookup c).runOn image later = (.ok d, later) := by
  have run := embeds.run image right
  constructor
  · rw [run]
    exact mono (h.grows x)
  · intro ix later d answer after
    rw [run] at answer
    cases look_x : (look c).runOn image x with
    | mk result x' =>
      rw [look_x] at answer
      cases answer
      obtain ⟨y, rfl, le⟩ := above after
      have grown : x ≤ x' := by
        have grown := h.grows x
        rwa [look_x] at grown
      have still : (embed y).geometry.checkRank c = .ok () := by
        rw [geometry, ← settings_eq_of_le (mono (le_trans grown le))]
        exact right
      rw [embeds.run image still, h.again look_x le]

/-- A lookup on any file only adds to what is held, and when it has succeeded it gives the same
descriptor ever after and decodes nothing more. -/
theorem settles_lookup (c : Coordinate) : Settles image (lookup c) := by
  have all : ∀ {ix}, ix.geometry.checkRank c = .ok () →
      ix ≤ ((lookup c).runOn image ix).2 ∧
        ∀ {ix' later d}, (lookup c).runOn image ix = (.ok d, ix') → ix' ≤ later →
          (lookup c).runOn image later = (.ok d, later) := by
    intro ix right
    cases ix with
    | single s d =>
      have run := runOn_lookup image right
      refine ⟨by rw [run], fun answer after => ?_⟩
      obtain ⟨-, rfl⟩ := Prod.mk.inj (run.symm.trans answer)
      cases after
      exact answer
    | implicit s base =>
      have run := runOn_lookup image right
      refine ⟨by rw [run], fun answer after => ?_⟩
      obtain ⟨-, rfl⟩ := Prod.mk.inj (run.symm.trans answer)
      cases after
      exact answer
    | fixedArray a =>
      refine embeds_fixedArray.settles .fixedArray ?_ (FixedArray.settles_lookup c) right
      intro _ _ le
      cases le with | fixedArray le => exact ⟨_, rfl, le⟩
    | extensibleArray a =>
      refine embeds_extensibleArray.settles .extensibleArray ?_
        (ExtensibleArray.settles_lookup c) right
      intro _ _ le
      cases le with | extensibleArray le => exact ⟨_, rfl, le⟩
    | treeOne t =>
      refine embeds_treeOne.settles .treeOne ?_ (TreeOne.settles_lookup c) right
      intro _ _ le
      cases le with | treeOne le => exact ⟨_, rfl, le⟩
    | treeTwo t =>
      refine embeds_treeTwo.settles .treeTwo ?_ (TreeTwo.settles_lookup c) right
      intro _ _ le
      cases le with | treeTwo le => exact ⟨_, rfl, le⟩
  constructor
  · intro ix
    cases right : ix.geometry.checkRank c with
    | error e => rw [runOn_lookup_rank image right]
    | ok => exact (all right).1
  · intro ix ix' later d run after
    cases right : ix.geometry.checkRank c with
    | error e =>
      rw [runOn_lookup_rank image right] at run
      cases run
    | ok => exact (all right).2 run after

end ChunkIndex

end ChunkStore
