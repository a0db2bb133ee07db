import ChunkStore.Proofs.Index.Decoding
import ChunkStore.Proofs.Index.Shared
import ChunkStore.Proofs.Index.Unique

/-!
# Lookups and the lookups before them

What an index answers does not depend on what its handle was asked before where the address of a
structure tells how it is decoded (`lookup_independent`). Where pointers may name one address in
several ways the first pointer that is followed decides what is kept
(`lookup_depends_on_first_pointer`), and only in files whose pointers agree lookups are independent
of those before them (`lookup_independent_of_agree`).
-/

namespace ChunkStore.ChunkIndex

open Session Index

variable {image : Image} {layout : ChunkedLayout} {g : Geometry} {widths : FileWidths}
variable {filtered verify : Bool} {ix : ChunkIndex}

theorem after_concat (image : Image) (ix : ChunkIndex) (earlier : List Coordinate)
    (c : Coordinate) :
    ix.after image (earlier ++ [c]) = ((lookup c).runOn image (ix.after image earlier)).2 :=
  List.foldl_concat ..

theorem price_fresh (ix : ChunkIndex) : ix.fresh.price = ix.price := by
  cases ix <;> rfl

/-- A fixed array or a version 1 B-tree was opened as one of the two. -/
theorem cases_of_ofLayout (opened : ofLayout layout g widths filtered verify = .ok ix)
    (kind : layout.index = .treeOne ∨ ∃ pageBits, layout.index = .fixedArray pageBits) :
    (∃ s, ix = fixedArray (.ofAddress s layout.address)) ∨
      ∃ s, ix = treeOne (.ofRoot s layout.address) := by
  unfold ofLayout at opened
  split at opened
  · cases opened
  rcases kind with tree | ⟨pageBits, array⟩
  · simp only [tree] at opened
    cases opened
    exact .inr ⟨_, rfl⟩
  · simp only [array] at opened
    cases opened
    exact .inl ⟨_, rfl⟩

/-- A lookup in a fixed array or a version 1 B-tree, on any file, answers after any lookups what it
answers on a new handle. The handle holds no structure twice and counts those it holds. What a
lookup adds to them is new to the handle and was read for; a successful lookup has read for
nothing else, and a failed one for at most one structure that could not be decoded. -/
theorem lookup_independent (bound : image.length ≤ maxWord)
    (opened : ofLayout layout g widths filtered verify = .ok ix)
    (kind : layout.index = .treeOne ∨ ∃ pageBits, layout.index = .fixedArray pageBits)
    (earlier : List Coordinate) (c : Coordinate) :
    answerAfter image ix earlier c = answerAfter image ix [] c ∧
    (ix.after image earlier).held.Nodup ∧
    (ix.after image earlier).decoded = (ix.after image earlier).held.length ∧
    ∃ new, (ix.after image (earlier ++ [c])).held.Perm (new ++ (ix.after image earlier).held) ∧
      (new ++ (ix.after image earlier).held).Nodup ∧
      (ix.after image (earlier ++ [c])).decoded =
        (ix.after image earlier).decoded + new.length ∧
      (lookup c).reads image (ix.after image earlier) ≤ ix.price * (new.length + 1) ∧
      ∀ d, answerAfter image ix earlier c = .ok d →
        (lookup c).reads image (ix.after image earlier) = ix.price * new.length := by
  obtain ⟨nodup, counted⟩ := held_after image (fresh_of_ofLayout opened).1 earlier
  obtain ⟨new, perm, fresh, more, most, paid⟩ :=
    decodes_lookup image c (ix.after image earlier) nodup
  have price : (ix.after image earlier).price = ix.price := by
    rw [← price_fresh, fresh_after, price_fresh]
  rw [after_concat]
  refine ⟨?_, nodup, counted, new, perm, fresh, more, price ▸ most, price ▸ paid⟩
  rcases cases_of_ofLayout opened kind with ⟨s, rfl⟩ | ⟨s, rfl⟩
  · exact embeds_fixedArray.answerAfter_new (fun a keeps => keeps.opening)
      (fun c _ => FixedArray.steady_lookup bound c)
      (FixedArray.consistent_ofAddress image s layout.address) earlier c
  · exact embeds_treeOne.answerAfter_new (fun t keeps => keeps.opening)
      (fun c _ => TreeOne.steady_lookup c) (TreeOne.consistent_ofRoot image s layout.address)
      earlier c

/-- A root over two leaves, the second of which cannot be decoded: after a lookup that failed
there, a lookup in the first leaf answers as on a new handle, and the root was decoded once. -/
theorem lookup_independent_of_failure : ∃ image ix,
    ofLayout ⟨3, 0, [2], 4, .treeOne, 1⟩ ⟨[4], [4], 8⟩ ⟨.two, .two⟩ true true = .ok ix ∧
    answerAfter image ix [] [3] = .error (.badSignature .treeOneNode [84, 82, 69, 0]) ∧
    answerAfter image ix [[3]] [1] = answerAfter image ix [] [1] ∧
    answerAfter image ix [] [1] = .ok ⟨201, 21, 0⟩ ∧
    (ix.after image [[3]]).decoded = 1 ∧ (ix.after image ([[3]] ++ [[1]])).decoded = 2 := by
  have opened : ofLayout ⟨3, 0, [2], 4, .treeOne, 1⟩ ⟨[4], [4], 8⟩ ⟨.two, .two⟩ true true =
      .ok (treeOne (.ofRoot ⟨⟨.two, .two⟩, ⟨[4], [4], 8⟩, [2], 4, true, true⟩ 1)) := rfl
  refine ⟨[7] ++
    [84, 82, 69, 69, 1, 1, 2, 0, 255, 255, 255, 255] ++
      [20, 0, 0, 0, 0, 0, 0, 0, 0, 0, 0, 0, 0, 0, 0, 0, 0, 0, 0, 0, 0, 0, 0, 0, 89, 0] ++
      [23, 0, 0, 0, 1, 0, 0, 0, 6, 0, 0, 0, 0, 0, 0, 0, 0, 0, 0, 0, 0, 0, 0, 0, 177, 0] ++
      [0, 0, 0, 0, 0, 0, 0, 0, 8, 0, 0, 0, 0, 0, 0, 0, 0, 0, 0, 0, 0, 0, 0, 0] ++
    [84, 82, 69, 69, 1, 0, 2, 0, 255, 255, 177, 0] ++
      [20, 0, 0, 0, 0, 0, 0, 0, 0, 0, 0, 0, 0, 0, 0, 0, 0, 0, 0, 0, 0, 0, 0, 0, 200, 0] ++
      [21, 0, 0, 0, 0, 0, 0, 0, 2, 0, 0, 0, 0, 0, 0, 0, 0, 0, 0, 0, 0, 0, 0, 0, 201, 0] ++
      [0, 0, 0, 0, 0, 0, 0, 0, 6, 0, 0, 0, 0, 0, 0, 0, 0, 0, 0, 0, 0, 0, 0, 0] ++
    [84, 82, 69, 0, 1, 0, 1, 0, 89, 0, 255, 255], _, opened, by decide +kernel, ?_,
    by decide +kernel, by decide +kernel, by decide +kernel⟩
  exact (lookup_independent (by decide +kernel) opened (.inl rfl) [[3]] [1]).1

/-! ## Pointers to one address -/

/-- Pointers of the index that name one address agree on what is there. -/
def PointersAgree (image : Image) : ChunkIndex → Prop
  | extensibleArray a => ExtensibleArray.PointersAgree image a.settings a.address
  | treeTwo t => TreeTwo.PointersAgree image t.settings t.address
  | single .. | implicit .. | fixedArray _ | treeOne _ => True

/-- Two lookups through pointers to one address, a node in a version 2 B-tree and a data block in
an extensible array, each with all checksums right: the second lookup finds a chunk on a new handle
and nothing on a handle that has followed the other pointer. -/
theorem lookup_depends_on_first_pointer :
    (∃ image ix,
      ofLayout ⟨4, 0, [1], 4, .treeTwo 40 100 40, 1⟩ ⟨[10000], [10000], 4⟩ ⟨.two, .two⟩ false true =
        .ok ix ∧
      answerAfter image ix [] [0] = .ok ⟨100, 4, 0⟩ ∧
      answerAfter image ix [] [9779] = .ok ⟨43613, 4, 0⟩ ∧
      answerAfter image ix [[0]] [9779] = .ok .undefined) ∧
    ∃ image ix,
      ofLayout ⟨4, 0, [1], 4, .extensibleArray 6 3 2 2 2, 1⟩ ⟨[40], [40], 4⟩ ⟨.two, .two⟩ false
        true = .ok ix ∧
      answerAfter image ix [] [3] = .ok ⟨103, 4, 0⟩ ∧
      answerAfter image ix [] [8] = .ok ⟨27771, 4, 0⟩ ∧
      answerAfter image ix [[3]] [8] = .ok .undefined := by
  -- The leaf and the data block are told longer by one pointer than by the other; the checksum of
  -- the shorter one is part of what the longer one holds.
  refine ⟨⟨[7] ++
    withChecksum [66, 84, 72, 68, 0, 10, 40, 0, 0, 0, 10, 0, 1, 0, 0, 0, 27, 0, 1, 0, 4, 0] ++
    withChecksum [66, 84, 73, 78, 0, 10, 101, 0, 1, 0, 0, 0, 0, 0, 0, 0, 53, 0, 1, 53, 0, 2] ++
    withChecksum (withChecksum [66, 84, 76, 70, 0, 10, 100, 0, 0, 0, 0, 0, 0, 0, 0, 0] ++
      [0, 0, 0, 0, 0, 0]), _, rfl, by decide +kernel, by decide +kernel, by decide +kernel⟩, ?_⟩
  exact ⟨[7] ++
    withChecksum [69, 65, 72, 68, 0, 0, 2, 6, 3, 2, 2, 2, 1, 0, 0, 0, 0, 0, 0, 0, 33, 0, 33, 0,
      31, 0] ++
    withChecksum [69, 65, 73, 66, 0, 0, 1, 0, 100, 0, 101, 0, 102, 0, 61, 0, 61, 0,
      255, 255, 255, 255, 255, 255, 255, 255] ++
    withChecksum (withChecksum [69, 65, 68, 66, 0, 0, 1, 0, 0, 103, 0, 104, 0]),
    _, rfl, by decide +kernel, by decide +kernel, by decide +kernel⟩

/-- An extensible array or a version 2 B-tree was opened as one of the two. -/
theorem cases_of_ofLayout_shared (opened : ofLayout layout g widths filtered verify = .ok ix)
    (kind : (∃ nodeSize splitPercent mergePercent,
        layout.index = .treeTwo nodeSize splitPercent mergePercent) ∨
      ∃ maxBits indexElements minPointers minElements pageBits,
        layout.index = .extensibleArray maxBits indexElements minPointers minElements pageBits) :
    (∃ s, ix = treeTwo (.ofAddress s layout.address)) ∨
      ∃ s, ix = extensibleArray (.ofAddress s layout.address) := by
  unfold ofLayout at opened
  split at opened
  · cases opened
  rcases kind with ⟨_, _, _, tree⟩ | ⟨_, _, _, _, _, array⟩
  · simp only [tree] at opened
    cases opened
    exact .inl ⟨_, rfl⟩
  · simp only [array] at opened
    cases opened
    exact .inr ⟨_, rfl⟩

/-- A lookup in an extensible array or a version 2 B-tree answers after any lookups what it answers
on a new handle, in every file where pointers that lookups follow to one address agree. -/
theorem lookup_independent_of_agree (opened : ofLayout layout g widths filtered verify = .ok ix)
    (kind : (∃ nodeSize splitPercent mergePercent,
        layout.index = .treeTwo nodeSize splitPercent mergePercent) ∨
      ∃ maxBits indexElements minPointers minElements pageBits,
        layout.index = .extensibleArray maxBits indexElements minPointers minElements pageBits)
    (agree : ix.PointersAgree image) (earlier : List Coordinate) (c : Coordinate) :
    answerAfter image ix earlier c = answerAfter image ix [] c := by
  rcases cases_of_ofLayout_shared opened kind with ⟨s, rfl⟩ | ⟨s, rfl⟩
  · exact embeds_treeTwo.answerAfter_new (fun t keeps => keeps.opening)
      (fun c _ => TreeTwo.steady_lookup agree c) (TreeTwo.derived_ofAddress image s layout.address)
      earlier c
  · exact embeds_extensibleArray.answerAfter_new (fun a keeps => keeps.opening)
      (fun c _ => ExtensibleArray.steady_lookup agree c)
      (ExtensibleArray.derived_ofAddress image s layout.address) earlier c

/-- A root both of whose children are one leaf, named with the same number of records: what is in
the leaf is found after a lookup that went there through the other pointer. -/
theorem lookup_independent_of_agree_in_leaf : ∃ image ix,
    ofLayout ⟨4, 0, [1], 4, .treeTwo 40 100 40, 1⟩ ⟨[9], [9], 4⟩ ⟨.two, .two⟩ false true = .ok ix ∧
    ix.PointersAgree image ∧
    answerAfter image ix [[5]] [0] = answerAfter image ix [] [0] ∧
    answerAfter image ix [] [0] = .ok ⟨100, 4, 0⟩ := by
  have opened : ofLayout ⟨4, 0, [1], 4, .treeTwo 40 100 40, 1⟩ ⟨[9], [9], 4⟩ ⟨.two, .two⟩ false
      true = .ok (treeTwo (.ofAddress ⟨⟨.two, .two⟩, ⟨[9], [9], 4⟩, [1], 4, false, true⟩ 1)) := rfl
  refine ⟨[7] ++
    withChecksum [66, 84, 72, 68, 0, 10, 40, 0, 0, 0, 10, 0, 1, 0, 0, 0, 27, 0, 1, 0, 2, 0] ++
    withChecksum [66, 84, 73, 78, 0, 10, 101, 0, 1, 0, 0, 0, 0, 0, 0, 0, 53, 0, 1, 53, 0, 1] ++
    withChecksum [66, 84, 76, 70, 0, 10, 100, 0, 0, 0, 0, 0, 0, 0, 0, 0], _, opened, ?_⟩
  suffices agree : PointersAgree _ _ from
    ⟨agree, lookup_independent_of_agree opened (.inl ⟨_, _, _, rfl⟩) agree [[5]] [0],
      by decide +kernel⟩
  refine TreeTwo.pointersAgree_of_closed [(1, ⟨27, 1⟩), (0, ⟨53, 1⟩)]
    (h := ⟨10, 10, 1, 27, 1, 1, [⟨3, 3, 0, 0⟩, ⟨2, 11, 1, 3⟩]⟩) (by decide +kernel) (by decide) ?_
    (by decide)
  intro depth c n among read
  obtain ⟨rfl, rfl⟩ : depth = 0 ∧ c = ⟨27, 1⟩ := by simpa using among
  obtain rfl : n = ⟨[⟨[1], ⟨101, 4, 0⟩⟩], [⟨53, 1⟩, ⟨53, 1⟩]⟩ :=
    Except.ok.inj (read.symm.trans (by decide +kernel))
  decide

end ChunkStore.ChunkIndex
