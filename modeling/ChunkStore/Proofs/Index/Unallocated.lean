import ChunkStore.Proofs.Index.InRange

/-!
# Chunks that were never written

A descriptor without an address is canonical when it is `Descriptor.undefined` and says nothing
else. Arrays, version 2 B-trees, a chunk alone and chunks back to back bring every entry that they
decode into this form, so their handles hold nothing else (`Clear`) and answer nothing else. A
version 1 B-tree hands out the key before a child as it stands: `Way` follows a target down to the
key and the child of a leaf, and `TreeOne.answers_lookup_of_finds` says that both are what a lookup
answers. So what an index answers is canonical (`canonical_of_answerAfter`) except for a stray key,
one with a size or a mask before a child that is not there (`answerAfter_of_stray`).
-/

namespace ChunkStore

/-- A descriptor without an address says nothing else. -/
def Descriptor.Canonical (d : Descriptor) : Prop := d.address = undefinedAddress → d = .undefined

namespace Index

open Session ChunkStore.Parser

variable {image : Image} {s : Settings} {address : Nat}

/-! ## What is brought into canonical form -/

theorem canonical_undefined : Descriptor.undefined.Canonical := fun _ => rfl

theorem Settings.canonical_plain (s : Settings) (address : Nat) : (s.plain address).Canonical := by
  unfold plain Descriptor.Canonical
  split
  · exact fun _ => rfl
  next somewhere => exact fun nowhere => absurd nowhere somewhere

theorem Settings.canonical_stored (address storedSize : Nat) (filterMask : UInt32) :
    (stored address storedSize filterMask).Canonical := by
  unfold stored Descriptor.Canonical
  split
  · exact fun _ => rfl
  next somewhere => exact fun nowhere => absurd nowhere somewhere

theorem canonical_getD {entries : List Descriptor} (all : ∀ d ∈ entries, d.Canonical) (i : Nat) :
    (entries.getD i .undefined).Canonical := by
  rw [List.getD_eq_getElem?_getD]
  cases found : entries[i]? with
  | none => exact canonical_undefined
  | some d => exact all d (List.mem_of_getElem? found)

theorem canonical_arrayElement (s : Settings) (width : Nat) :
    Ensures (arrayElement s width) Descriptor.Canonical := by
  apply Ensures.bind_any
  intro address
  split
  · exact .pure (s.canonical_plain address)
  · apply Ensures.guard
    intro _
    apply Ensures.bind_any
    intro storedSize
    exact .bind_any fun mask => .pure (Settings.canonical_stored address storedSize mask)

theorem canonical_of_arrayElements {width : Nat} {raw : Bytes} {entries : List Descriptor}
    (decoded : arrayElements s width raw = .ok entries) : ∀ d ∈ entries, d.Canonical := by
  unfold arrayElements at decoded
  split at decoded
  · cases decoded
  · exact forall_of_forall₂ (mapM_eq_ok_iff.1 decoded) fun _ _ parsed =>
      (canonical_arrayElement s width).parse parsed

theorem meets_pageEntries {σ : Type} {inv : σ → Prop} (s : Settings) (p : Part)
    (address count width : Nat) :
    Meets image inv (pageEntries s p address count width) fun entries =>
      ∀ d ∈ entries, d.Canonical := by
  apply Meets.bind (.ofExcept fun _ _ => trivial)
  intro body _
  apply Meets.fetch_ofExcept
  intro bytes entries done
  obtain ⟨_, -, done⟩ := bind_eq_ok_iff.1 done
  obtain ⟨raw, -, decoded⟩ := bind_eq_ok_iff.1 done
  exact canonical_of_arrayElements decoded

/-! ## Fixed arrays -/

namespace FixedArray

/-- The entries of a block without pages are canonical. -/
def Block.Clear (b : Block) : Prop := ∀ entries, b = .unpaged entries → ∀ d ∈ entries, d.Canonical

/-- The handle was opened on the array, and the entries that it holds are canonical. -/
structure Clear (s : Settings) (address : Nat) (a : FixedArray) : Prop where
  opening : a.opening = (s, address)
  block : ∀ b, a.block = some b → b.Clear
  pages : ∀ own entries, a.pages.get? own = some entries → ∀ d ∈ entries, d.Canonical

theorem clear_ofAddress (s : Settings) (address : Nat) :
    Clear s address (.ofAddress s address) where
  opening := rfl
  block := nofun
  pages := nofun

theorem meets_recallHeader (a : FixedArray) :
    Meets image (Clear s address) a.recallHeader fun _ => True := by
  apply meets_recallOne (fun _ _ _ _ => trivial)
  · intro x h clear _
    exact { clear with }
  · exact .fetch_ofExcept fun _ _ _ => trivial

theorem clear_blockParser (s : Settings) (address : Nat) (h : Header) (bytes : Bytes) :
    Ensures (blockParser s address h bytes) Block.Clear := by
  refine .bind_any fun _ => .bind_any fun _ => .bind_any fun _ => .bind_any fun _ => ?_
  refine .bind_any fun raw => .bind_any fun _ => .bind_any fun _ => ?_
  split
  · exact .bind_any fun _ => .pure nofun
  · apply Ensures.bind (.lift fun entries decoded => canonical_of_arrayElements decoded)
    intro entries canonical
    apply Ensures.pure
    rintro _ ⟨⟩
    exact canonical

theorem meets_recallBlock (a : FixedArray) (h : Header) :
    Meets image (Clear s address) (a.recallBlock h) Block.Clear := by
  apply meets_recallOne (fun x b clear held => clear.block b held)
  · intro x b clear known
    exact { clear with block := fun _ held => by cases held; exact known }
  · exact .fetch_ofExcept fun bytes b done => (clear_blockParser ..).parse done

theorem meets_recallPage (a : FixedArray) (h : Header) (firstPage page : Nat) :
    Meets image (Clear s address) (a.recallPage h firstPage page) fun entries =>
      ∀ d ∈ entries, d.Canonical := by
  apply Meets.bind (.liftM fun _ _ => trivial)
  intro before _
  apply Meets.bind (.liftM fun _ _ => trivial)
  intro rest _
  apply Memo.meets_recallAt (fun x entries clear held => clear.pages _ entries held)
  · intro x entries clear known
    exact { clear with pages := Memo.forall_insert clear.pages known }
  · exact meets_pageEntries ..

theorem meets_lookup_clear (c : Coordinate) :
    Meets image (Clear s address) (lookup c) Descriptor.Canonical := by
  apply Meets.get_bind
  intro a _
  apply Meets.ite (.pure canonical_undefined)
  apply Meets.get_bind
  intro a _
  apply Meets.bind (meets_recallHeader a)
  intro h _
  apply Meets.ite (.pure canonical_undefined)
  apply Meets.bind (meets_recallBlock a h)
  intro b clear
  cases b with
  | unpaged entries => exact .pure (canonical_getD (clear entries rfl) _)
  | paged bitmap firstPage =>
    apply Meets.ite (.pure canonical_undefined)
    apply Meets.bind (meets_recallPage a h firstPage _)
    intro entries canonical
    exact .pure (canonical_getD canonical _)

end FixedArray

/-! ## Extensible arrays -/

namespace ExtensibleArray

/-- The handle was opened on the array, and the entries that it holds are canonical. -/
structure Clear (s : Settings) (address : Nat) (a : ExtensibleArray) : Prop where
  opening : a.opening = (s, address)
  indexBlock : ∀ b, a.indexBlock = some b → ∀ d ∈ b.entries, d.Canonical
  dataBlocks : ∀ own entries, a.dataBlocks.get? own = some entries → ∀ d ∈ entries, d.Canonical
  pages : ∀ own entries, a.pages.get? own = some entries → ∀ d ∈ entries, d.Canonical

theorem clear_ofAddress (s : Settings) (address : Nat) :
    Clear s address (.ofAddress s address) where
  opening := rfl
  indexBlock := nofun
  dataBlocks := nofun
  pages := nofun

theorem meets_recallHeader (a : ExtensibleArray) :
    Meets image (Clear s address) a.recallHeader fun _ => True := by
  apply meets_recallOne (fun _ _ _ _ => trivial)
  · intro x h clear _
    exact { clear with }
  · exact .fetch_ofExcept fun _ _ _ => trivial

theorem canonical_indexBlockParser (s : Settings) (address : Nat) (h : Header) (bytes : Bytes) :
    Ensures (indexBlockParser s address h bytes) fun b => ∀ d ∈ b.entries, d.Canonical := by
  have entry : Ensures (entryParser s h) Descriptor.Canonical := by
    apply Ensures.bind_any
    intro raw
    exact .lift fun d parsed => (canonical_arrayElement ..).parse parsed
  apply Ensures.bind_any
  intro _
  apply Ensures.bind (entry.times h.indexElements)
  intro entries each
  refine .bind_any fun _ => .bind_any fun _ => .bind_any fun _ => .bind_any fun _ => ?_
  exact .pure each.2

theorem meets_recallIndexBlock (a : ExtensibleArray) (h : Header) :
    Meets image (Clear s address) (a.recallIndexBlock h) fun b => ∀ d ∈ b.entries, d.Canonical := by
  apply meets_recallOne (fun x b clear held => clear.indexBlock b held)
  · intro x b clear known
    exact { clear with indexBlock := fun _ held => by cases held; exact known }
  · apply Meets.bind (.liftM fun _ _ => trivial)
    intro length _
    exact .fetch_ofExcept fun bytes b done => (canonical_indexBlockParser ..).parse done

theorem meets_recallSecondaryBlock (a : ExtensibleArray) (h : Header) (group : Group) (own : Nat) :
    Meets image (Clear s address) (a.recallSecondaryBlock h group own) fun _ => True := by
  apply Memo.meets_recallAt (fun _ _ _ _ => trivial)
  · intro x b clear _
    exact { clear with }
  · apply Meets.bind (.ofExcept fun _ _ => trivial)
    intro bitmap _
    apply Meets.bind (.ofExcept fun _ _ => trivial)
    intro pointers _
    exact .fetch_ofExcept fun _ _ _ => trivial

theorem canonical_dataBlockParser (s : Settings) (address : Nat) (h : Header) (body own : Nat)
    (bytes : Bytes) :
    Ensures (dataBlockParser s address h body own bytes) fun entries =>
      ∀ d ∈ entries, d.Canonical := by
  refine .bind_any fun _ => .bind_any fun _ => .bind_any fun _ => .bind_any fun _ => ?_
  exact .bind_any fun _ => .lift fun entries decoded => canonical_of_arrayElements decoded

theorem meets_recallDataBlock (a : ExtensibleArray) (h : Header) (blockEntries own : Nat) :
    Meets image (Clear s address) (a.recallDataBlock h blockEntries own) fun entries =>
      ∀ d ∈ entries, d.Canonical := by
  apply Memo.meets_recallAt (fun x entries clear held => clear.dataBlocks _ entries held)
  · intro x entries clear known
    exact { clear with dataBlocks := Memo.forall_insert clear.dataBlocks known }
  · apply Meets.bind (.ofExcept fun _ _ => trivial)
    intro body _
    exact .fetch_ofExcept fun bytes entries done => (canonical_dataBlockParser ..).parse done

theorem meets_recallPage (a : ExtensibleArray) (h : Header) (block page : Nat) :
    Meets image (Clear s address) (a.recallPage h block page) fun entries =>
      ∀ d ∈ entries, d.Canonical := by
  unfold recallPage
  apply Memo.meets_recallAt (fun x entries clear held => clear.pages _ entries held)
  · intro x entries clear known
    exact { clear with pages := Memo.forall_insert clear.pages known }
  · exact meets_pageEntries ..

theorem meets_blockEntry (a : ExtensibleArray) (h : Header) (block blockEntries offset : Nat) :
    Meets image (Clear s address) (a.blockEntry h block blockEntries offset)
      Descriptor.Canonical := by
  apply Meets.ite
  · apply Meets.bind (meets_recallDataBlock a h blockEntries block)
    intro entries canonical
    exact .pure (canonical_getD canonical _)
  · apply Meets.bind (meets_recallPage a h block _)
    intro entries canonical
    exact .pure (canonical_getD canonical _)

theorem meets_entryAt (a : ExtensibleArray) (h : Header) {b : IndexBlock}
    (canonical : ∀ d ∈ b.entries, d.Canonical) (p : Place) :
    Meets image (Clear s address) (a.entryAt h b p) Descriptor.Canonical := by
  cases p with
  | inIndexBlock slot =>
    exact .liftM fun d found =>
      canonical d (List.mem_of_getElem? (Bounds.item_eq_ok_iff.1 found))
  | beyond => exact .pure canonical_undefined
  | direct group block offset =>
    exact .ite (.pure canonical_undefined) (meets_blockEntry ..)
  | indirect group secondary block offset =>
    apply Meets.ite (.pure canonical_undefined)
    apply Meets.bind (meets_recallSecondaryBlock ..)
    intro sb _
    apply Meets.ite (.pure canonical_undefined)
    exact .ite (.pure canonical_undefined) (meets_blockEntry ..)

theorem meets_lookup_clear (c : Coordinate) :
    Meets image (Clear s address) (lookup c) Descriptor.Canonical := by
  apply Meets.get_bind
  intro a _
  apply Meets.ite (.pure canonical_undefined)
  apply Meets.get_bind
  intro a _
  apply Meets.bind (meets_recallHeader a)
  intro h _
  apply Meets.ite (.pure canonical_undefined)
  apply Meets.bind (meets_recallIndexBlock a h)
  intro b canonical
  apply Meets.bind (.liftM fun _ _ => trivial)
  intro p _
  exact meets_entryAt a h canonical p

end ExtensibleArray

/-! ## Version 2 B-trees -/

namespace TreeTwo

/-- The descriptors of a node are canonical. -/
def Node.Clear (n : Node) : Prop := ∀ r ∈ n.records, r.descriptor.Canonical

/-- The handle was opened on the tree, and the descriptors that it holds are canonical. -/
structure Clear (s : Settings) (address : Nat) (t : TreeTwo) : Prop where
  opening : t.opening = (s, address)
  nodes : ∀ own n, t.nodes.get? own = some n → n.Clear

theorem clear_ofAddress (s : Settings) (address : Nat) :
    Clear s address (.ofAddress s address) where
  opening := rfl
  nodes := nofun

theorem meets_recallHeader (t : TreeTwo) :
    Meets image (Clear s address) t.recallHeader fun _ => True := by
  apply meets_recallOne (fun _ _ _ _ => trivial)
  · intro x h clear _
    exact { clear with }
  · exact .fetch_ofExcept fun _ _ _ => trivial

theorem canonical_recordParser (s : Settings) (h : Header) :
    Ensures (recordParser s h) fun r => r.descriptor.Canonical := by
  have rest {d : Descriptor} (canonical : d.Canonical) : Ensures (do
      let d ← pure d
      return ⟨← Parser.times (Parser.uint 8) s.chunkDims.length, d⟩ : Parser Record)
      fun r => r.descriptor.Canonical := by
    have same : Ensures (pure d : Parser Descriptor) (· = d) := .pure rfl
    apply Ensures.bind same
    rintro _ rfl
    exact .bind_any fun _ => .pure canonical
  apply Ensures.bind_any
  intro address
  dsimp only
  split
  · refine .bind_any fun _ => .bind_any fun storedSize => .bind_any fun mask => ?_
    exact rest (Settings.canonical_stored address storedSize mask)
  · exact rest (s.canonical_plain address)

theorem clear_nodeParser (s : Settings) (h : Header) (address records depth : Nat)
    (bytes : Bytes) : Ensures (nodeParser s h address records depth bytes) Node.Clear := by
  refine .bind_any fun _ => .bind_any fun _ => .bind_any fun _ => .guard fun _ => ?_
  apply Ensures.bind ((canonical_recordParser s h).times records)
  intro found each
  refine .bind_any fun _ => .bind_any fun _ => .bind_any fun _ => .bind_any fun _ => ?_
  exact .pure each.2

theorem meets_recallNode (h : Header) (own records depth : Nat) :
    Meets image (Clear s address) (recallNode s h own records depth) Node.Clear := by
  apply Memo.meets_recallAt (fun x n clear held => clear.nodes _ n held)
  · intro x n clear known
    exact { clear with nodes := Memo.forall_insert clear.nodes known }
  · unfold readNode
    split
    · exact .throw _ _
    · apply Meets.guard
      intro _
      apply Meets.bind (.liftM fun _ _ => trivial)
      intro length _
      exact .fetch_ofExcept fun bytes n done => (clear_nodeParser ..).parse done

theorem meets_descend (h : Header) (target : Coordinate) (depth own records : Nat) :
    Meets image (Clear s address) (descend s h target depth own records)
      Descriptor.Canonical := by
  have record {n : Node} (clear : n.Clear) (slot : Nat) : Meets image (Clear s address)
      (do return (← Bounds.item n.records slot).descriptor) Descriptor.Canonical := by
    apply Meets.bind (.liftM fun r found => Bounds.item_eq_ok_iff.1 found)
    intro r there
    exact .pure (clear r (List.mem_of_getElem? there))
  induction depth generalizing own records with
  | zero =>
    unfold descend
    apply Meets.bind (meets_recallNode ..)
    intro n clear
    exact .ite (record clear _) (.pure canonical_undefined)
  | succ depth ih =>
    unfold descend
    apply Meets.bind (meets_recallNode ..)
    intro n clear
    apply Meets.ite (record clear _)
    dsimp only
    split
    · exact .pure canonical_undefined
    · exact .ite (.pure canonical_undefined) (ih ..)

theorem meets_lookup_clear (c : Coordinate) :
    Meets image (Clear s address) (lookup c) Descriptor.Canonical := by
  apply Meets.get_bind
  intro t clear
  obtain ⟨rfl, rfl⟩ : t.settings = s ∧ t.address = address := Prod.ext_iff.1 clear.opening
  apply Meets.ite (.pure canonical_undefined)
  apply Meets.bind (meets_recallHeader t)
  intro h _
  exact .ite (.pure canonical_undefined) (meets_descend ..)

end TreeTwo

/-! ## Version 1 B-trees -/

namespace TreeOne

variable {root : Nat} {target : List Nat} {c : Coordinate} {k : Key} {child : Nat}

/-- The search for a target goes from a node of some level down to a key of a leaf and the child
after it. -/
inductive Way (image : Image) (s : Settings) (target : List Nat) :
    (level : Nat) → Node → Key → (child : Nat) → Prop
  | leaf {n : Node} {slot : Nat} {k : Key} {child : Nat}
      (chosen : findChild n.keys target = .ok (some slot)) (key : n.keys[slot]? = some k)
      (there : n.children[slot]? = some child) : Way image s target 0 n k child
  | inner {level : Nat} {n below : Node} {slot address : Nat} {k : Key} {child : Nat}
      (chosen : findChild n.keys target = .ok (some slot))
      (there : n.children[slot]? = some address) (read : nodeAt image s address = .ok below)
      (one : below.level = level) (rest : Way image s target level below k child) :
      Way image s target (level + 1) n k child

/-- The descriptor that a key and the child after it make. -/
def Key.descriptor (k : Key) (child : Nat) : Descriptor :=
  ⟨child, k.storedSize.toNat, k.filterMask⟩

/-- The search for the chunk at a coordinate ends at a key that is the chunk's. -/
def Finds (image : Image) (s : Settings) (root : Nat) (c : Coordinate) (k : Key) (child : Nat) :
    Prop :=
  root ≠ undefinedAddress ∧ k.scaled = c ++ [0] ∧
    ∃ n, nodeAt image s root = .ok n ∧ Way image s (c ++ [0]) n.level n k child

/-- Whatever is not the undefined descriptor was found at the end of the way. -/
theorem meets_descend (level : Nat) (n : Node) :
    Meets image (Consistent image s root) (descend s target level n) fun d =>
      d = .undefined ∨ ∃ k child, Way image s target level n k child ∧ k.scaled = target ∧
        d = k.descriptor child := by
  induction level generalizing n with
  | zero =>
    apply Meets.bind (.liftM fun slot chosen => chosen)
    intro slot chosen
    cases slot with
    | none => exact .pure (.inl rfl)
    | some slot =>
      apply Meets.liftM
      intro d entry
      unfold leafEntry at entry
      obtain ⟨k, key, entry⟩ := bind_eq_ok_iff.1 entry
      split at entry
      · cases entry
        exact .inl rfl
      next same =>
        obtain ⟨child, there, entry⟩ := bind_eq_ok_iff.1 entry
        cases entry
        rw [Bounds.item_eq_ok_iff] at key there
        exact .inr ⟨k, child, .leaf chosen key there, Classical.not_not.1 same, rfl⟩
  | succ level ih =>
    apply Meets.bind (.liftM fun slot chosen => chosen)
    intro slot chosen
    cases slot with
    | none => exact .pure (.inl rfl)
    | some slot =>
      apply Meets.bind (.liftM fun address there => Bounds.item_eq_ok_iff.1 there)
      intro address there
      apply Meets.bind (repeats_recallNode address).meets
      intro below read
      apply Meets.guard
      intro one
      refine (ih below).imp ?_
      rintro d (rfl | ⟨k, child, rest, same, rfl⟩)
      · exact .inl rfl
      · exact .inr ⟨k, child, .inner chosen there read (Classical.not_not.1 one) rest, same, rfl⟩

/-- What is found at the end of the way is answered as it stands. -/
theorem answers_descend_of_way {level : Nat} {n : Node} (way : Way image s target level n k child)
    (same : k.scaled = target) :
    Answers image (Consistent image s root) (descend s target level n) (k.descriptor child) := by
  induction way with
  | leaf chosen key there =>
    apply Answers.bind (.liftM chosen)
    apply Answers.liftM
    rw [leafEntry, Bounds.item_eq_ok_iff.2 key]
    show (if _ then _ else _) = _
    rw [if_neg (not_not.2 same), Bounds.item_eq_ok_iff.2 there]
    rfl
  | inner chosen there read one _ ih =>
    apply Answers.bind (.liftM chosen)
    apply Answers.bind (.liftM (Bounds.item_eq_ok_iff.2 there))
    apply Answers.bind (answers_recallNode read)
    exact .ite_neg (not_not.2 one) (ih same)

theorem meets_lookup_finds (c : Coordinate) :
    Meets image (Consistent image s root) (lookup c) fun d =>
      d = .undefined ∨ ∃ k child, Finds image s root c k child ∧ d = k.descriptor child := by
  apply Meets.get_bind
  intro t keeps
  obtain ⟨rfl, rfl⟩ : t.settings = s ∧ t.root = root := Prod.ext_iff.1 keeps.opening
  by_cases nowhere : t.root = undefinedAddress
  · rw [if_pos nowhere]
    exact .pure (.inl rfl)
  · rw [if_neg nowhere]
    apply Meets.bind (repeats_recallNode _).meets
    intro n read
    refine (meets_descend n.level n).imp ?_
    rintro d (rfl | ⟨k, child, way, same, rfl⟩)
    · exact .inl rfl
    · exact .inr ⟨k, child, ⟨nowhere, same, n, read, way⟩, rfl⟩

theorem answers_lookup_of_finds (finds : Finds image s root c k child) :
    Answers image (Consistent image s root) (lookup c) (k.descriptor child) := by
  obtain ⟨somewhere, same, n, read, way⟩ := finds
  apply Answers.get_bind
  intro t keeps
  obtain ⟨rfl, rfl⟩ : t.settings = s ∧ t.root = root := Prod.ext_iff.1 keeps.opening
  apply Answers.ite_neg somewhere
  exact .bind (answers_recallNode read) (answers_descend_of_way way same)

end TreeOne

end Index

/-! ## The index of a dataset -/

namespace ChunkIndex

open Session Index

/-- What every lookup of the structure answers, from all states that lookups lead to, is answered
by the index after any of them. -/
theorem Embeds.post_of_answerAfter {σ : Type} {embed : σ → ChunkIndex}
    {opening : σ → Settings × Nat} {look : Coordinate → Session σ Descriptor} {image : Image}
    {inv : σ → Prop} {s : Settings} {address : Nat} {post : Coordinate → Descriptor → Prop}
    (embeds : Embeds embed opening look) (opened : ∀ x, inv x → opening x = (s, address))
    (meets : ∀ c, Meets image inv (look c) (post c)) {x : σ} (holds : inv x)
    {earlier : List Coordinate} {c : Coordinate} {d : Descriptor}
    (answer : answerAfter image (embed x) earlier c = .ok d) :
    c.length = s.geometry.rank ∧ post c d := by
  obtain ⟨x', holds', same⟩ := embeds.exists_answerAfter opened
    (fun c _ => (meets c).imp fun _ _ => trivial) holds earlier c
  rw [same] at answer
  split at answer
  next right => exact ⟨right, ((meets c).run x' holds').2 d answer⟩
  next => cases answer

/-- A key with a size or a mask before a child that is not there, at the end of the way of a
coordinate. Only a version 1 B-tree has one. -/
def Stray (image : Image) (ix : ChunkIndex) (c : Coordinate) (k : TreeOne.Key) : Prop :=
  ∃ t : TreeOne, ix = .treeOne t ∧ c.length = t.settings.geometry.rank ∧
    TreeOne.Finds image t.settings t.root c k undefinedAddress ∧
    (k.storedSize ≠ 0 ∨ k.filterMask ≠ 0)

variable {image : Image} {layout : ChunkedLayout} {g : Geometry} {widths : FileWidths}
variable {filtered verify : Bool} {ix : ChunkIndex}

theorem canonical_singleDescriptor (s : Settings) (address : Nat) (info : Option (Nat × UInt32)) :
    (singleDescriptor s address info).Canonical := by
  cases info with
  | none => exact s.canonical_plain address
  | some info => exact Settings.canonical_stored address info.1 info.2

theorem canonical_lookupImplicit (s : Settings) (base : Nat) (c : Coordinate) :
    (lookupImplicit s base c).Canonical := by
  unfold lookupImplicit
  split
  · exact canonical_undefined
  · dsimp only
    split
    · exact s.canonical_plain _
    · exact canonical_undefined

/-- The only chunk of an index that was just opened is canonical. -/
theorem canonical_of_ofLayout {s : Settings} {d : Descriptor}
    (opened : ofLayout layout g widths filtered verify = .ok (.single s d)) : d.Canonical := by
  unfold ofLayout at opened
  split at opened
  · cases opened
  · dsimp only at opened
    split at opened
    · cases opened
      exact canonical_singleDescriptor _ _ _
    · split at opened
      · cases opened
      · split at opened <;> cases opened
    all_goals cases opened

/-- Where nothing is stray, only the undefined descriptor has no address. -/
theorem canonical_of_answerAfter (opened : ofLayout layout g widths filtered verify = .ok ix)
    {earlier : List Coordinate} {c : Coordinate} (clean : ∀ k, ¬ ix.Stray image c k)
    {d : Descriptor} (answer : answerAfter image ix earlier c = .ok d) : d.Canonical := by
  obtain ⟨fresh, -, -⟩ := fresh_of_ofLayout opened
  -- An index that was just opened holds nothing, and so has each of the invariants.
  rw [← fresh] at answer
  cases ix with
  | single s own =>
    have canonical := canonical_of_ofLayout opened
    have meets (c : Coordinate) : Meets image (fun _ : Unit => True)
        (Session.ofExcept (lookupSingle own c)) Descriptor.Canonical := by
      apply Meets.ofExcept
      intro d found
      unfold lookupSingle at found
      split at found
      · cases found
        exact canonical
      · cases found
    exact ((embeds_single s own).post_of_answerAfter (fun _ _ => rfl) meets (x := ()) trivial
      answer).2
  | implicit s base =>
    have meets (c : Coordinate) : Meets image (fun _ : Unit => True)
        (Session.ofExcept (.ok (lookupImplicit s base c))) Descriptor.Canonical := by
      apply Meets.ofExcept
      rintro _ ⟨⟩
      exact canonical_lookupImplicit s base c
    exact ((embeds_implicit s base).post_of_answerAfter (fun _ _ => rfl) meets (x := ()) trivial
      answer).2
  | fixedArray a =>
    exact (embeds_fixedArray.post_of_answerAfter (fun _ clear => clear.opening)
      FixedArray.meets_lookup_clear (FixedArray.clear_ofAddress ..) answer).2
  | extensibleArray a =>
    exact (embeds_extensibleArray.post_of_answerAfter (fun _ clear => clear.opening)
      ExtensibleArray.meets_lookup_clear (ExtensibleArray.clear_ofAddress ..) answer).2
  | treeOne t =>
    obtain ⟨right, rfl | ⟨k, child, finds, rfl⟩⟩ :=
      embeds_treeOne.post_of_answerAfter (fun _ keeps => keeps.opening)
        TreeOne.meets_lookup_finds (TreeOne.consistent_ofRoot ..) answer
    · exact canonical_undefined
    · intro nowhere
      obtain rfl : child = undefinedAddress := nowhere
      have empty : k.storedSize = 0 ∧ k.filterMask = 0 := by
        by_contra differs
        exact clean k ⟨t, rfl, right, finds, not_and_or.1 differs⟩
      simp [TreeOne.Key.descriptor, Descriptor.undefined, empty.1, empty.2]
  | treeTwo t =>
    exact (embeds_treeTwo.post_of_answerAfter (fun _ clear => clear.opening)
      TreeTwo.meets_lookup_clear (TreeTwo.clear_ofAddress ..) answer).2

/-- A stray key is answered as it stands. -/
theorem answerAfter_of_stray (opened : ofLayout layout g widths filtered verify = .ok ix)
    (earlier : List Coordinate) {c : Coordinate} {k : TreeOne.Key} (stray : ix.Stray image c k) :
    answerAfter image ix earlier c = .ok (k.descriptor undefinedAddress) := by
  obtain ⟨fresh, -, -⟩ := fresh_of_ofLayout opened
  obtain ⟨t, rfl, right, finds, -⟩ := stray
  rw [← fresh]
  obtain ⟨t', keeps, answer⟩ := embeds_treeOne.exists_answerAfter (fun _ keeps => keeps.opening)
    (fun c _ => (TreeOne.meets_lookup_finds c).imp fun _ _ => trivial)
    (TreeOne.consistent_ofRoot image t.settings t.root) earlier c
  obtain ⟨t'', run, -⟩ := (TreeOne.answers_lookup_of_finds finds).run t' keeps
  rw [if_pos right, run] at answer
  exact answer

/-- On any file, in any index and after any lookups, a lookup that answers no address answers the
undefined descriptor, except for a stray key, which it answers with its size and its mask. -/
theorem lookup_undefined_iff (opened : ofLayout layout g widths filtered verify = .ok ix)
    (earlier : List Coordinate) (c : Coordinate) :
    ((∀ d, answerAfter image ix earlier c = .ok d → d.address = undefinedAddress →
        d = .undefined) ↔ ∀ k, ¬ ix.Stray image c k) ∧
      ∀ k, ix.Stray image c k →
        answerAfter image ix earlier c =
          .ok ⟨undefinedAddress, k.storedSize.toNat, k.filterMask⟩ := by
  constructor
  · constructor
    · intro promise k stray
      have same := promise _ (answerAfter_of_stray opened earlier stray) rfl
      obtain ⟨t, -, -, -, something⟩ := stray
      have size : k.storedSize.toNat = 0 := congrArg Descriptor.storedSize same
      have mask : k.filterMask = 0 := congrArg Descriptor.filterMask same
      rcases something with sized | masked
      · exact sized (UInt32.toNat_inj.1 size)
      · exact masked mask
    · intro clean d answer
      exact canonical_of_answerAfter opened clean answer
  · intro k stray
    exact answerAfter_of_stray opened earlier stray

/-- A leaf with the key of a chunk of 20 bytes before a child that is not there. -/
theorem lookup_undefined_iff_of_stray_key : ∃ image ix,
    ofLayout ⟨3, 0, [2], 4, .treeOne, 1⟩ ⟨[4], [4], 8⟩ ⟨.two, .two⟩ true true = .ok ix ∧
    answerAfter image ix [[0]] [0] = .ok ⟨undefinedAddress, 20, 1⟩ ∧
    ¬ ∀ d, answerAfter image ix [[0]] [0] = .ok d → d.address = undefinedAddress →
      d = .undefined := by
  have opened : ofLayout ⟨3, 0, [2], 4, .treeOne, 1⟩ ⟨[4], [4], 8⟩ ⟨.two, .two⟩ true true =
    .ok (.treeOne (.ofRoot ⟨⟨.two, .two⟩, ⟨[4], [4], 8⟩, [2], 4, true, true⟩ 1)) := rfl
  generalize file : ([7] ++ [84, 82, 69, 69, 1, 0, 1, 0, 255, 255, 255, 255] ++
      [20, 0, 0, 0, 1, 0, 0, 0, 0, 0, 0, 0, 0, 0, 0, 0, 0, 0, 0, 0, 0, 0, 0, 0, 255, 255] ++
      [0, 0, 0, 0, 0, 0, 0, 0, 8, 0, 0, 0, 0, 0, 0, 0, 0, 0, 0, 0, 0, 0, 0, 0] : Image) = image
  have chosen : TreeOne.findChild [⟨20, 1, [0, 0]⟩, ⟨0, 0, [4, 0]⟩] [0, 0] = .ok (some 0) := by
    decide +kernel
  have stray : Stray image
      (.treeOne (.ofRoot ⟨⟨.two, .two⟩, ⟨[4], [4], 8⟩, [2], 4, true, true⟩ 1)) [0]
      ⟨20, 1, [0, 0]⟩ := by
    refine ⟨_, rfl, rfl, ⟨by decide, rfl, ⟨0, [⟨20, 1, [0, 0]⟩, ⟨0, 0, [4, 0]⟩],
      [undefinedAddress]⟩, ?_, .leaf chosen rfl rfl⟩, .inl (by decide)⟩
    subst file
    decide +kernel
  exact ⟨image, _, opened, (lookup_undefined_iff opened [[0]] [0]).2 _ stray,
    fun promise => (lookup_undefined_iff opened [[0]] [0]).1.1 promise _ stray⟩

end ChunkIndex

end ChunkStore
