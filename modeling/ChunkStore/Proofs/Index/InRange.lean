import ChunkStore.Proofs.Index.Decoders
import ChunkStore.Proofs.Index.Shared

/-!
# Lookups stay in range

Whatever bytes a file consists of, a lookup answers with a descriptor or with an error of the
format: no number on the way leaves its 64 bits, nothing is divided by zero and no item is taken
that a list does not have (`ChunkIndex.lookup_in_range`). The headers and the shapes of what was
decoded limit what a lookup computes with; a handle has the header that the file has, after any
lookups (`Opened`).
-/

namespace ChunkStore.Index

open Session

variable {image : Image} {s : Settings} {address : Nat}

/-- A structure that a handle without it has read is such as its parser ensures. -/
theorem of_recalled {σ α : Type} {held : σ → Option α} {keep : α → σ → σ} {x : σ} {a : α}
    {offset length : Nat} {p : Bytes → Parser α} {post : α → Prop}
    (ensured : ∀ bytes, Parser.Ensures (p bytes) post) (free : held x = none)
    (found : ((recallOne held keep (do
      let bytes ← Session.fetch offset length
      Session.ofExcept ((p bytes).parse bytes))).runOn image x).1 = .ok a) : post a := by
  rw [fst_runOn_recallOne image x free] at found
  refine Meets.of_eq_ok found ((Meets.any _).bind fun bytes _ => ?_)
  exact .ofExcept fun a done => (ensured bytes).parse done

/-! ## Fixed arrays -/

namespace FixedArray

variable {inv : FixedArray → Prop} {h : Header}

theorem limited_of_headerAt (found : headerAt image s address = .ok h) : h.Limited :=
  of_recalled (ensures_headerParser s address) rfl found

theorem inRange_recallHeader (bound : image.length + 4 ≤ maxWord) (a : FixedArray) :
    Session.InRange image inv a.recallHeader :=
  inRange_recallOne (.fetch_parse bound fun _ _ => inRange_headerParser _ _ (by omega))

theorem inRange_recallBlock (bound : image.length + 4 ≤ maxWord) (limited : h.Limited)
    (a : FixedArray) : Session.InRange image inv (a.recallBlock h) :=
  inRange_recallOne (.fetch_parse bound fun _ _ =>
    inRange_blockParser _ _ limited (by omega) (by omega))

/-- A page that starts before the last entry has entries. -/
theorem inRange_recallPage (bound : image.length + 4 ≤ maxWord) (limited : h.Limited)
    (a : FixedArray) (firstPage : Nat) {page : Nat} (inside : page * h.pageEntries < h.entries) :
    Session.InRange image inv (a.recallPage h firstPage page) := by
  have few := limited.entries
  refine .bind_liftM (.within (by omega)) fun before within => ?_
  obtain ⟨-, rfl⟩ := Bounds.within_eq_ok_iff.1 within
  refine .bind_liftM (.sub inside.le) fun rest _ => ?_
  exact Memo.inRange_recallAt (inRange_pageEntries _ _ _ _ bound limited.entrySize)

theorem inRange_entry (bound : image.length + 4 ≤ maxWord) (i : Nat) :
    Session.InRange image (Consistent image s address) (entry i) := by
  refine .get_bind fun a keeps => ?_
  refine (inRange_recallHeader bound a).bind (repeats_recallHeader keeps.opening).meets
    fun h found => .ite (fun _ => .pure _) fun inUse => ?_
  have limited := limited_of_headerAt found
  refine (inRange_recallBlock bound limited a).bind (repeats_recallBlock found keeps.opening).meets
    fun b block => ?_
  cases b with
  | unpaged entries => exact .pure _
  | paged bitmap firstPage =>
    have used : i < h.entries := Nat.lt_of_not_le fun beyond => inUse (.inl beyond)
    have inside : i / h.pageEntries * h.pageEntries < h.entries :=
      (Nat.div_mul_le_self ..).trans_lt used
    refine .ite (fun _ => .pure _) fun _ => ?_
    exact (inRange_recallPage bound limited a firstPage inside).bind
      (steady_recallPage (by omega) found block keeps.opening _).meets fun _ _ => .pure _

theorem inRange_lookup (bound : image.length + 4 ≤ maxWord) (c : Coordinate) :
    Session.InRange image (Consistent image s address) (lookup c) :=
  .get_bind fun _ _ => .ite (fun _ => .pure _) fun _ => inRange_entry bound _

end FixedArray

/-! ## Extensible arrays -/

namespace ExtensibleArray

variable {inv : ExtensibleArray → Prop} {h : Header}

theorem limited_of_headerAt (found : headerAt image s address = .ok h) : h.Limited :=
  of_recalled (limited_of_headerParser s address) rfl found

/-- Every index has a place, one in the index block only if the block has so many entries. -/
theorem Header.Accepted.exists_place (accepted : h.Accepted) {i : Nat} (fits : i < maxWord) :
    ∃ p, h.locate i = .ok p ∧ ∀ slot, p = .inIndexBlock slot → slot < h.indexElements := by
  by_cases own : i < h.indexElements
  · exact ⟨_, Header.locate_of_lt own, fun slot same => by cases same; exact own⟩
  · obtain ⟨relative, rfl⟩ := Nat.exists_eq_add_of_le (Nat.le_of_not_lt own)
    obtain ⟨n, within, less, rfl⟩ := exists_within accepted.minElements_pos relative
    rw [accepted.locate_within less fits, accepted.placeIn_eq]
    split
    · split
      all_goals exact ⟨_, rfl, nofun⟩
    · exact ⟨_, rfl, nofun⟩

/-- An index block has a number of bytes. -/
theorem indexBlockLength_le (limited : h.Limited) (accepted : h.Accepted) {offsetSize : Nat}
    (narrow : offsetSize ≤ 8) :
    6 + offsetSize + h.indexElements * h.entrySize +
      (h.directBlocks + h.indirectGroups) * offsetSize + 4 ≤ maxWord := by
  have entries : h.indexElements * h.entrySize ≤ 256 * 20 :=
    Nat.mul_le_mul limited.indexElements.le limited.narrow
  have few : h.directBlocks + h.indirectGroups ≤ 1024 := by
    have pointers := limited.minPointers
    have groups := accepted.length_groups_le
    rw [Header.directBlocks, Header.indirectGroups]
    omega
  have addresses : (h.directBlocks + h.indirectGroups) * offsetSize ≤ 1024 * 8 :=
    Nat.mul_le_mul few narrow
  have word : 6 + 8 + 256 * 20 + 1024 * 8 + 4 ≤ maxWord := by decide
  omega

theorem inRange_recallHeader (bound : image.length + 4 ≤ maxWord) (a : ExtensibleArray) :
    Session.InRange image inv a.recallHeader :=
  inRange_recallOne (.fetch_parse bound fun _ _ => inRange_headerParser _ _ (by omega))

theorem inRange_recallIndexBlock (bound : image.length + 4 ≤ maxWord) (limited : h.Limited)
    (accepted : h.Accepted) (a : ExtensibleArray) :
    Session.InRange image inv (a.recallIndexBlock h) := by
  have fits := indexBlockLength_le limited accepted a.settings.widths.offset.bytes_le
  refine inRange_recallOne (.bind_liftM (.within fits) fun _ _ => ?_)
  exact .fetch_parse bound fun _ _ => inRange_indexBlockParser _ _ h (by omega)

theorem inRange_recallSecondaryBlock (bound : image.length + 4 ≤ maxWord) (a : ExtensibleArray)
    (h : Header) (group : Group) (own : Nat) :
    Session.InRange image inv (a.recallSecondaryBlock h group own) := by
  refine Memo.inRange_recallAt (.bind_ofExcept (inRange_bitmapLength h group) fun bitmap _ => ?_)
  refine .bind_ofExcept (inRange_byteSpan _ _ _) fun _ _ => ?_
  exact .fetch_parse bound fun _ _ =>
    inRange_secondaryBlockParser _ _ h group bitmap own (by omega)

theorem inRange_recallDataBlock (bound : image.length + 4 ≤ maxWord) (limited : h.Limited)
    (a : ExtensibleArray) (blockEntries own : Nat) :
    Session.InRange image inv (a.recallDataBlock h blockEntries own) := by
  refine Memo.inRange_recallAt (.bind_ofExcept (inRange_byteSpan _ _ _) fun body _ => ?_)
  exact .fetch_parse bound fun _ _ => inRange_dataBlockParser _ _ limited body own (by omega)

theorem inRange_recallPage (bound : image.length + 4 ≤ maxWord) (limited : h.Limited)
    (a : ExtensibleArray) (block page : Nat) :
    Session.InRange image inv (a.recallPage h block page) := by
  unfold recallPage
  exact Memo.inRange_recallAt (inRange_pageEntries _ _ _ _ bound limited.entrySize)

theorem inRange_blockEntry (bound : image.length + 4 ≤ maxWord) (limited : h.Limited)
    (a : ExtensibleArray) (block blockEntries offset : Nat) :
    Session.InRange image (fun _ => True) (a.blockEntry h block blockEntries offset) := by
  refine .ite (fun _ => ?_) fun _ => ?_
  · exact (inRange_recallDataBlock bound limited ..).bind (.any _) fun _ _ => .pure _
  · exact (inRange_recallPage bound limited ..).bind (.any _) fun _ _ => .pure _

/-- The entries of blocks are looked for, so that only the index block has to have its entry. -/
theorem inRange_entryAt (bound : image.length + 4 ≤ maxWord) (limited : h.Limited)
    (a : ExtensibleArray) {b : IndexBlock} {p : Place}
    (own : ∀ slot, p = .inIndexBlock slot → slot < b.entries.length) :
    Session.InRange image (fun _ => True) (a.entryAt h b p) := by
  cases p with
  | inIndexBlock slot => exact .liftM (.item (own slot rfl))
  | beyond => exact .pure _
  | direct group block offset =>
    exact .ite (fun _ => .pure _) fun _ => inRange_blockEntry bound limited ..
  | indirect group secondary block offset =>
    -- What was kept at the address may be the secondary block of another group.
    refine .ite (fun _ => .pure _) fun _ => ?_
    refine (inRange_recallSecondaryBlock bound a h group _).bind (.any _) fun sb _ => ?_
    refine .ite (fun _ => .pure _) fun _ => .ite (fun _ => .pure _) fun _ => ?_
    exact inRange_blockEntry bound limited ..

theorem Opened.of_front {x x' : ExtensibleArray} (same : x'.front = x.front)
    (opened : Opened image s address x) : Opened image s address x' := by
  obtain ⟨opening, rest⟩ := Prod.ext_iff.1 same
  obtain ⟨header, indexBlock⟩ := Prod.ext_iff.1 rest
  have header : x'.header = x.header := header
  have indexBlock : x'.indexBlock = x.indexBlock := indexBlock
  exact ⟨opening.trans opened.opening, header ▸ opened.header, indexBlock ▸ opened.indexBlock⟩

/-- Lookups, whatever becomes of them, keep the header and the index block that the file has. -/
theorem meets_lookup_opened (c : Coordinate) :
    Meets image (Opened image s address) (lookup c) fun _ => True := by
  refine .get_bind fun _ _ => .ite (.pure trivial) (.get_bind fun a opened => ?_)
  refine (repeats_recallHeader (fun _ => id) (fun _ _ => Opened.keep_header)
    opened.opening).meets.bind fun h found => .ite (.pure trivial) ?_
  refine (repeats_recallIndexBlock (fun _ => id) found
    (fun _ _ opened => opened.keep_indexBlock found) opened.opening).meets.bind fun b _ => ?_
  refine (Meets.liftM fun (_ : Place) _ => trivial).bind fun p _ => ⟨fun x opened => ?_⟩
  exact ⟨opened.of_front ((keeps_entryAt a h b p).same image x), fun _ _ => trivial⟩

theorem inRange_entry (bound : image.length + 4 ≤ maxWord) (i : Nat) :
    Session.InRange image (Opened image s address) (entry i) := by
  refine .get_bind fun a opened => ?_
  refine (inRange_recallHeader bound a).bind (repeats_recallHeader (fun _ => id)
    (fun _ _ => Opened.keep_header) opened.opening).meets fun h found => ?_
  have limited := limited_of_headerAt found
  have accepted := accepted_of_headerAt found
  refine .ite (fun _ => .pure _) fun inUse => ?_
  refine (inRange_recallIndexBlock bound limited accepted a).bind (repeats_recallIndexBlock
    (fun _ => id) found (fun _ _ opened => opened.keep_indexBlock found) opened.opening).meets
    fun b block => ?_
  have used := accepted.used
  obtain ⟨p, place, own⟩ := accepted.exists_place (i := i) (by omega)
  refine .bind_liftM (place ▸ .ok p) fun p' same => ?_
  obtain rfl : p = p' := Except.ok.inj (place.symm.trans same)
  refine (inRange_entryAt bound limited a fun slot here => ?_).weaken fun _ _ => trivial
  rw [(shaped_of_indexBlockAt block).entries]
  exact own slot here

theorem inRange_lookup (bound : image.length + 4 ≤ maxWord) (c : Coordinate) :
    Session.InRange image (Opened image s address) (lookup c) :=
  .get_bind fun _ _ => .ite (fun _ => .pure _) fun _ => inRange_entry bound _

end ExtensibleArray

/-! ## Version 1 B-trees -/

namespace TreeOne

variable {inv : TreeOne → Prop} {root : Nat} {target : List Nat}

theorem inRange_compareSpan {left right : List Nat} (length : left.length = target.length)
    (length' : right.length = target.length) : InRange (compareSpan left target right) := by
  match target, left, right, length, length' with
  | [_, _], [_, _], [_, _], _, _ => exact .ok _
  | [], _, _, _, _ => exact .ok _
  | [_], _, _, _, _ => exact .ok _
  | _ :: _ :: _ :: _, _, _, _, _ => exact .ok _

theorem inRange_findBetween {keys : Array Key}
    (components : ∀ k ∈ keys, k.scaled.length = target.length) (low high : Nat)
    (h : high < keys.size) : InRange (findBetween keys target low high h) := by
  fun_induction findBetween keys target low high h with
  | case1 low high h lt middle before behind =>
    refine (inRange_compareSpan (components _ (Array.getElem_mem _))
      (components _ (Array.getElem_mem _))).bind fun side _ => ?_
    cases side with
    | lt => exact before
    | gt => exact behind
    | eq => exact .ok _
  | case2 => exact .ok none

/-- The child that is found is one of those searched. -/
theorem lt_of_findBetween {keys : Array Key} {low high slot : Nat} {h : high < keys.size}
    (found : findBetween keys target low high h = .ok (some slot)) : slot < high := by
  fun_induction findBetween keys target low high h with
  | case1 low high h lt middle before behind =>
    obtain ⟨side, -, found⟩ := bind_eq_ok_iff.1 found
    cases side with
    | lt => exact (before found).trans (by omega)
    | gt => exact behind found
    | eq =>
      have here : middle = slot := Option.some.inj (Except.ok.inj found)
      omega
  | case2 => cases found

theorem inRange_findChild {keys : List Key}
    (components : ∀ k ∈ keys, k.scaled.length = target.length) :
    InRange (findChild keys target) := by
  unfold findChild
  dsimp only
  split
  · exact inRange_findBetween (fun k mem => components k (List.mem_toArray.1 mem)) _ _ _
  · exact .ok none

theorem lt_of_findChild {keys : List Key} {slot : Nat}
    (found : findChild keys target = .ok (some slot)) : slot + 1 < keys.length := by
  unfold findChild at found
  dsimp only at found
  split at found
  · have less := lt_of_findBetween found
    rw [List.size_toArray] at less
    omega
  · cases found

theorem inRange_leafEntry {n : Node} {slot : Nat} (key : slot < n.keys.length)
    (child : slot < n.children.length) : InRange (leafEntry n target slot) := by
  refine (InRange.item key).bind fun k _ => ?_
  split
  · exact .ok _
  · exact (InRange.item child).bind fun _ _ => .ok _

theorem inRange_readNode (bound : image.length + 4 ≤ maxWord) (dims : 0 ∉ s.chunkDims)
    (rank : 8 * s.chunkDims.length < 2 ^ 47) (address : Nat) :
    Session.InRange image inv (readNode s address) := by
  refine .bind_fetch fun head length inside => ?_
  refine .bind_ofExcept inRange_headParser.parse fun (level, entries) parsed => ?_
  have few : entries < 2 ^ 16 := ensures_headParser.parse parsed
  refine .bind_liftM (.within (by omega)) fun start _ => ?_
  refine .bind_liftM (.within (bodyLength_le rank few)) fun body _ => ?_
  exact .fetch_parse bound fun _ _ => inRange_bodyParser dims level entries

theorem inRange_descend (bound : image.length + 4 ≤ maxWord) (dims : 0 ∉ s.chunkDims)
    (rank : 8 * s.chunkDims.length < 2 ^ 47) (components : target.length = s.chunkDims.length + 1)
    (level : Nat) {n : Node} (shaped : n.Shaped s) :
    Session.InRange image (Consistent image s root) (descend s target level n) := by
  have search {n : Node} (shaped : n.Shaped s) : InRange (findChild n.keys target) :=
    inRange_findChild fun k mem => (shaped.components k mem).trans components.symm
  induction level generalizing n with
  | zero =>
    refine .bind_liftM (search shaped) fun slot found => ?_
    cases slot with
    | none => exact .pure _
    | some slot =>
      have inside := lt_of_findChild found
      have one := shaped.one
      exact .liftM (inRange_leafEntry (by omega) (by omega))
  | succ level ih =>
    refine .bind_liftM (search shaped) fun slot found => ?_
    cases slot with
    | none => exact .pure _
    | some slot =>
      have inside := lt_of_findChild found
      have one := shaped.one
      refine .bind_liftM (.item (by omega)) fun address _ => ?_
      refine (Memo.inRange_recallAt (inRange_readNode bound dims rank address)).bind
        (repeats_recallNode address).meets fun child read => ?_
      exact .guard (by nofun) fun _ => ih (shaped_of_nodeAt read)

theorem inRange_lookup (bound : image.length + 4 ≤ maxWord) (dims : 0 ∉ s.chunkDims)
    (rank : 8 * s.chunkDims.length < 2 ^ 47) {c : Coordinate}
    (right : c.length = s.chunkDims.length) :
    Session.InRange image (Consistent image s root) (lookup c) := by
  refine .get_bind fun t keeps => ?_
  obtain ⟨rfl, rfl⟩ : t.settings = s ∧ t.root = root := Prod.ext_iff.1 keeps.opening
  refine .ite (fun _ => .pure _) fun _ => ?_
  refine (Memo.inRange_recallAt (inRange_readNode bound dims rank _)).bind
    (repeats_recallNode _).meets fun n read => ?_
  have components : (c ++ [0]).length = t.settings.chunkDims.length + 1 := by
    rw [List.length_append, right, List.length_singleton]
  exact inRange_descend bound dims rank components _ (shaped_of_nodeAt read)

end TreeOne

/-! ## Version 2 B-trees -/

namespace TreeTwo

variable {inv : TreeTwo → Prop} {h : Header}

theorem accepted_of_headerAt (found : headerAt image s address = .ok h) :
    ∃ nodeSize, h.Accepted s nodeSize := by
  have accepted := of_recalled (accepted_of_headerParser s address) rfl found
  exact accepted

theorem limited_of_headerAt (found : headerAt image s address = .ok h) : h.Limited s := by
  obtain ⟨nodeSize, accepted⟩ := accepted_of_headerAt found
  exact accepted.limited

/-- The record that is found is one of those searched. -/
theorem lt_of_probe {records : Array Record} {target : Coordinate} {low high slot : Nat}
    {h : high ≤ records.size} {last : Nat × Ordering} (unequal : last.2 ≠ .eq)
    (found : probe records target low high h last = (slot, .eq)) : slot < records.size := by
  fun_induction probe records target low high h last with
  | case1 low high h last lt middle inside less ih => exact ih (by simp) found
  | case2 low high h last lt middle inside greater ih => exact ih (by simp) found
  | case3 low high h last lt middle inside same =>
    exact (Prod.mk.inj found).1 ▸ inside
  | case4 low high h last meet =>
    subst found
    exact absurd rfl unequal

theorem lt_of_locate {records : List Record} {target : Coordinate}
    (found : (locate records target).2 = .eq) : (locate records target).1 < records.length := by
  have probed : probe records.toArray target 0 records.toArray.size (Nat.le_refl _) (0, .lt) =
      ((locate records target).1, .eq) := Prod.ext rfl found
  exact lt_of_probe (by simp) probed

theorem inRange_recallHeader (bound : image.length + 4 ≤ maxWord) (t : TreeTwo) :
    Session.InRange image inv t.recallHeader :=
  inRange_recallOne (.fetch_parse bound fun _ _ => inRange_headerParser _ _ (by omega))

theorem inRange_readNode (bound : image.length + 4 ≤ maxWord) (limited : h.Limited s)
    (address records depth : Nat) :
    Session.InRange image inv (readNode s h address records depth) := by
  unfold readNode
  split
  next => exact .throw (by nofun)
  next capacity found =>
    have level := limited.capacity capacity (List.mem_of_getElem? found)
    have inside := (List.getElem?_eq_some_iff.1 found).1
    refine .guard (by nofun) fun fits => ?_
    refine .bind_liftM (.within (nodeLength_le limited level (Nat.le_of_not_lt fits) depth))
      fun _ _ => ?_
    exact .fetch_parse bound fun _ _ => inRange_nodeParser limited _ _ inside (by omega)

/-- Whatever nodes a handle holds, only the record that was found is taken. -/
theorem inRange_descend (bound : image.length + 4 ≤ maxWord) (limited : h.Limited s)
    (target : Coordinate) (depth address records : Nat) :
    Session.InRange image (fun _ => True) (descend s h target depth address records) := by
  induction depth generalizing address records with
  | zero =>
    unfold descend
    refine (Memo.inRange_recallAt (inRange_readNode bound limited ..)).bind (.any _) fun n _ => ?_
    exact .ite (fun found => .bind_liftM (.item (lt_of_locate found)) fun _ _ => .pure _)
      fun _ => .pure _
  | succ depth ih =>
    unfold descend
    refine (Memo.inRange_recallAt (inRange_readNode bound limited ..)).bind (.any _) fun n _ => ?_
    refine .ite (fun found => .bind_liftM (.item (lt_of_locate found)) fun _ _ => .pure _)
      fun _ => ?_
    dsimp only
    split
    · exact .pure _
    · exact .ite (fun _ => .pure _) fun _ => ih _ _

theorem Opened.of_front {t t' : TreeTwo} (same : t'.front = t.front)
    (opened : Opened image s address t) : Opened image s address t' := by
  obtain ⟨opening, header⟩ := Prod.ext_iff.1 same
  have header : t'.header = t.header := header
  exact ⟨opening.trans opened.opening, header ▸ opened.header⟩

/-- Lookups, whatever becomes of them, keep the header that the file has. -/
theorem meets_lookup_opened (c : Coordinate) :
    Meets image (Opened image s address) (lookup c) fun _ => True := by
  refine .get_bind fun t opened => .ite (.pure trivial) ?_
  refine (repeats_recallHeader (fun _ => id) (fun _ _ => Opened.keep_header)
    opened.opening).meets.bind fun h _ => .ite (.pure trivial) ⟨fun x opened => ?_⟩
  exact ⟨opened.of_front ((keeps_descend ..).same image x), fun _ _ => trivial⟩

theorem inRange_lookup (bound : image.length + 4 ≤ maxWord) (c : Coordinate) :
    Session.InRange image (Opened image s address) (lookup c) := by
  refine .get_bind fun t opened => ?_
  obtain ⟨rfl, rfl⟩ : t.settings = s ∧ t.address = address := Prod.ext_iff.1 opened.opening
  refine .ite (fun _ => .pure _) fun _ => ?_
  refine (inRange_recallHeader bound t).bind (repeats_recallHeader (fun _ => id)
    (fun _ _ => Opened.keep_header) opened.opening).meets fun h found => ?_
  refine .ite (fun _ => .pure _) fun _ => ?_
  exact (inRange_descend bound (limited_of_headerAt found) c ..).weaken fun _ _ => trivial

end TreeTwo

end ChunkStore.Index

/-! ## The index of a dataset -/

namespace ChunkStore.ChunkIndex

open Session Index

/-- A lookup that stays in range from every state that lookups lead to stays in range after any of
them. -/
theorem Embeds.inRange_answerAfter {σ : Type} {embed : σ → ChunkIndex}
    {opening : σ → Settings × Nat} {look : Coordinate → Session σ Descriptor} {image : Image}
    {inv : σ → Prop} {s : Settings} {address : Nat} (embeds : Embeds embed opening look)
    (opened : ∀ x, inv x → opening x = (s, address))
    (keeps : ∀ c : Coordinate, c.length = s.geometry.rank → Meets image inv (look c) fun _ => True)
    (within : ∀ c : Coordinate, c.length = s.geometry.rank → Session.InRange image inv (look c))
    {x : σ} (holds : inv x) (earlier : List Coordinate) (c : Coordinate) :
    InRange (answerAfter image (embed x) earlier c) := by
  obtain ⟨x', holds', answer⟩ := embeds.exists_answerAfter opened keeps holds earlier c
  rw [answer]
  split
  next right => exact (within c right).run x' holds'
  next =>
    intro same
    cases same

/-- The only chunk is known without the file. -/
theorem embeds_single (s : Settings) (d : Descriptor) :
    Embeds (fun _ : Unit => single s d) (fun _ => (s, d.address))
      fun c => Session.ofExcept (lookupSingle d c) :=
  ⟨fun _ => rfl, fun image _ _ right => by rw [runOn_lookup image right]; rfl⟩

/-- Chunks back to back are counted off without the file. -/
theorem embeds_implicit (s : Settings) (base : Nat) :
    Embeds (fun _ : Unit => implicit s base) (fun _ => (s, base))
      fun c => Session.ofExcept (.ok (lookupImplicit s base c)) :=
  ⟨fun _ => rfl, fun image _ _ right => by rw [runOn_lookup image right]; rfl⟩

theorem inRange_lookupSingle (d : Descriptor) (c : Coordinate) : InRange (lookupSingle d c) := by
  unfold lookupSingle
  split
  · exact .ok d
  · exact nofun

variable {image : Image} {layout : ChunkedLayout} {g : Geometry} {widths : FileWidths}
variable {filtered verify : Bool} {ix : ChunkIndex}

/-- In any index and after any lookups, a lookup stays in range. -/
theorem inRange_answerAfter (bound : image.length + 4 ≤ maxWord)
    (rank : 8 * layout.chunkDims.length < 2 ^ 47) (dims : 0 ∉ layout.chunkDims)
    (opened : ofLayout layout g widths filtered verify = .ok ix) (earlier : List Coordinate)
    (c : Coordinate) : InRange (answerAfter image ix earlier c) := by
  obtain ⟨fresh, length, settings⟩ := fresh_of_ofLayout opened
  -- An index that was just opened holds nothing, and so has each of the invariants.
  rw [← fresh]
  cases ix with
  | single s d =>
    have within (c : Coordinate) : Session.InRange image (fun _ : Unit => True)
        (Session.ofExcept (lookupSingle d c)) := .ofExcept (inRange_lookupSingle d c)
    exact (embeds_single s d).inRange_answerAfter (fun _ _ => rfl) (fun _ _ => .any _)
      (fun c _ => within c) (x := ()) trivial earlier c
  | implicit s base =>
    have within (c : Coordinate) : Session.InRange image (fun _ : Unit => True)
        (Session.ofExcept (.ok (lookupImplicit s base c))) := .ofExcept (.ok _)
    exact (embeds_implicit s base).inRange_answerAfter (fun _ _ => rfl) (fun _ _ => .any _)
      (fun c _ => within c) (x := ()) trivial earlier c
  | fixedArray a =>
    exact embeds_fixedArray.inRange_answerAfter (fun _ keeps => keeps.opening)
      (fun c _ => (FixedArray.steady_lookup (by omega) c).meets)
      (fun c _ => FixedArray.inRange_lookup bound c) (FixedArray.consistent_ofAddress ..) earlier c
  | extensibleArray a =>
    exact embeds_extensibleArray.inRange_answerAfter (fun _ keeps => keeps.opening)
      (fun c _ => ExtensibleArray.meets_lookup_opened c)
      (fun c _ => ExtensibleArray.inRange_lookup bound c) (ExtensibleArray.opened_ofAddress ..)
      earlier c
  | treeOne t =>
    obtain ⟨own, root, nodes⟩ := t
    obtain rfl : own = _ := settings
    exact embeds_treeOne.inRange_answerAfter (fun _ keeps => keeps.opening)
      (fun c _ => (TreeOne.steady_lookup c).meets)
      (fun c right => TreeOne.inRange_lookup bound dims rank (right.trans length.symm))
      (TreeOne.consistent_ofRoot ..) earlier c
  | treeTwo t =>
    exact embeds_treeTwo.inRange_answerAfter (fun _ keeps => keeps.opening)
      (fun c _ => TreeTwo.meets_lookup_opened c) (fun c _ => TreeTwo.inRange_lookup bound c)
      (TreeTwo.opened_ofAddress ..) earlier c

/-- On any file, in any index and after any lookups, a lookup gives a descriptor or an error of the
format: nothing on the way is out of range. A file has fewer than `2 ^ 64 - 4` bytes, and the
shape of a chunk, eight bytes to a dimension, fits into a memory with addresses of 47 bits. -/
theorem lookup_in_range (bound : image.length + 4 ≤ maxWord)
    (rank : 8 * layout.chunkDims.length < 2 ^ 47) (dims : 0 ∉ layout.chunkDims)
    (opened : ofLayout layout g widths filtered verify = .ok ix) (earlier : List Coordinate)
    (c : Coordinate) :
    (∃ d, answerAfter image ix earlier c = .ok d) ∨
      ∃ e, e ≠ .outOfRange ∧ answerAfter image ix earlier c = .error e :=
  (inRange_answerAfter bound rank dims opened earlier c).ok_or_error

/-- An array that claims as many entries as 64 bits can number, in two pages: the first page has
more bytes than 64 bits can count, and the second one lies beyond every file. -/
theorem lookup_in_range_of_endless_array : ∃ image ix,
    ofLayout ⟨4, 0, [1], 4, .fixedArray 63, 1⟩ ⟨[2 ^ 64 - 1], [2 ^ 64 - 1], 4⟩ ⟨.two, .eight⟩ false
      true = .ok ix ∧
    ((∃ d, answerAfter image ix [[0]] [2 ^ 63] = .ok d) ∨
      ∃ e, e ≠ .outOfRange ∧ answerAfter image ix [[0]] [2 ^ 63] = .error e) ∧
    answerAfter image ix [] [0] = .error (.corrupt .fixedArrayPage (.entrySpan (2 ^ 63) 2)) ∧
    answerAfter image ix [[0]] [2 ^ 63] = .error (.unexpectedEnd (2 ^ 64 - 1) 36) := by
  have opened : ofLayout ⟨4, 0, [1], 4, .fixedArray 63, 1⟩ ⟨[2 ^ 64 - 1], [2 ^ 64 - 1], 4⟩
      ⟨.two, .eight⟩ false true = .ok (fixedArray (.ofAddress
        ⟨⟨.two, .eight⟩, ⟨[2 ^ 64 - 1], [2 ^ 64 - 1], 4⟩, [1], 4, false, true⟩ 1)) := rfl
  refine ⟨[7] ++
    withChecksum [70, 65, 72, 68, 0, 0, 2, 63, 255, 255, 255, 255, 255, 255, 255, 255, 23, 0] ++
    withChecksum [70, 65, 68, 66, 0, 0, 1, 0, 192], _, opened, ?_, by decide +kernel,
    by decide +kernel⟩
  exact lookup_in_range (by decide +kernel) (by decide) (by decide) opened [[0]] [2 ^ 63]

end ChunkStore.ChunkIndex
