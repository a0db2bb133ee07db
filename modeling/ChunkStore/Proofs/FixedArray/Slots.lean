import ChunkStore.Proofs.FixedArray.Lookup
import ChunkStore.Proofs.Grid.Enumeration

/-!
# Whose entry a record sets

`setChunk` reduces a coordinate to its number and looks at the number only. In a builder that has
one entry for each chunk of the grid (`Covers`), every number below the count of entries is that of
one chunk, so a record `Sets` the entry of exactly one chunk or is ignored (`Ignores`). A chunk of
the grid sets its own entry. A coordinate outside the grid has a number too, and its record is
ignored only if that number happens to lie beyond the entries: with two dimensions or more and at
least one chunk, some coordinate outside the grid wraps around to the first chunk
(`linearIndex_wraps`), and `setChunk_ignores_iff` says that those are all the exceptions.
-/

namespace ChunkStore

/-- A product that 64 bits hold all along is a 64-bit number. -/
theorem checkedProduct_le {start n : Nat} {factors : List Nat} (word : start ≤ maxWord)
    (product : checkedProduct start factors = some n) : n ≤ maxWord := by
  unfold checkedProduct at product
  induction factors generalizing start with
  | nil =>
    cases product
    exact word
  | cons f factors ih =>
    rw [List.foldlM_cons, Option.bind_eq_bind, Option.bind_eq_some_iff] at product
    obtain ⟨m, step, rest⟩ := product
    obtain ⟨fits, rfl⟩ := checked_eq_some_iff.1 step
    exact ih fits rest

namespace Coordinate

theorem dot_replicate_zero (k : Nat) (down : List Nat) : dot (List.replicate k 0) down = 0 := by
  induction k generalizing down with
  | zero => cases down <;> rfl
  | succ k ih =>
    cases down with
    | nil => rfl
    | cons d down => rw [List.replicate_succ, dot, Nat.zero_mul, Nat.zero_add, ih]

/-- One step beyond the second dimension is one step along the first; `2 ^ 64 - 1` steps more go
round to the first chunk. -/
theorem linearIndex_wraps {e e' : Nat} {es : List Nat} (pos : ∀ x ∈ e' :: es, 0 < x)
    (fits : (e' :: es).prod ≤ maxWord) :
    linearIndex (maxWord :: e' :: List.replicate es.length 0) (downCounts (e :: e' :: es)) = 0 := by
  have inner : ∀ x ∈ es, 0 < x := fun x mem => pos x (List.mem_cons_of_mem _ mem)
  have below : es.prod ≤ (e' :: es).prod := by
    rw [List.prod_cons]
    exact Nat.le_mul_of_pos_left _ (pos e' List.mem_cons_self)
  have round : maxWord * (e' * es.prod) + (e' * es.prod + 0) = UInt64.size * (e' * es.prod) := by
    rw [Nat.add_zero, ← Nat.succ_mul]
    rfl
  rw [linearIndex, downCounts, downCounts, dot, dot, dot_replicate_zero, extentProduct_eq pos fits,
    extentProduct_eq inner (below.trans fits), List.prod_cons, round]
  exact Nat.mul_mod_right _ _

/-- With two dimensions or more, some coordinate of 64-bit components that is not below the extents
has the number of the first chunk. -/
theorem exists_stray {es : List Nat} (plane : 1 < es.length) (some : 0 < es.prod)
    (fits : es.prod ≤ maxWord) :
    ∃ s, s.length = es.length ∧ (∀ x ∈ s, x ≤ maxWord) ∧ ¬Within s es ∧
      linearIndex s (downCounts es) = 0 := by
  obtain _ | ⟨e, _ | ⟨e', es⟩⟩ := es
  · simp at plane
  · simp at plane
  have pos : ∀ x ∈ e :: e' :: es, 0 < x := List.prod_pos_iff_forall_pos_nat.1 some
  have inner : ∀ x ∈ e' :: es, 0 < x := fun x mem => pos x (List.mem_cons_of_mem _ mem)
  have tail : (e' :: es).prod ≤ maxWord := by
    refine Nat.le_trans ?_ fits
    rw [List.prod_cons (a := e)]
    exact Nat.le_mul_of_pos_left _ (pos e List.mem_cons_self)
  refine ⟨maxWord :: e' :: List.replicate es.length 0, ?_, ?_, ?_, linearIndex_wraps inner tail⟩
  · simp
  · intro x mem
    simp only [List.mem_cons, List.mem_replicate] at mem
    rcases mem with rfl | rfl | ⟨-, rfl⟩
    · exact Nat.le_refl _
    · exact (le_prod inner List.mem_cons_self).trans tail
    · exact Nat.zero_le _
  · rintro (_ | ⟨-, _ | ⟨beyond, -⟩⟩)
    exact Nat.lt_irrefl _ beyond

/-- With one dimension at most, only coordinates below the extents have a number below their
product. -/
theorem within_of_linearIndex_lt {s es : List Nat} (line : es.length ≤ 1)
    (rank : s.length = es.length) (word : ∀ x ∈ s, x ≤ maxWord)
    (lt : linearIndex s (downCounts es) < es.prod) : Within s es := by
  obtain _ | ⟨e, _ | ⟨e', es⟩⟩ := es
  · rw [List.length_eq_zero_iff.1 rank]
    exact .nil
  · obtain ⟨x, rfl⟩ := List.length_eq_one_iff.1 rank
    have small : x < UInt64.size := Nat.lt_succ_of_le (word x List.mem_cons_self)
    have number : linearIndex [x] (downCounts [e]) = x := by
      rw [linearIndex, downCounts, dot, extentProduct, Nat.mul_one]
      exact Nat.mod_eq_of_lt small
    rw [number, List.prod_singleton] at lt
    exact .cons lt .nil
  · simp at line

/-- A number below the product of the extents tells that the coordinate is below them exactly when
there is one dimension at most. -/
theorem within_of_linearIndex_lt_iff {es : List Nat} (some : 0 < es.prod)
    (fits : es.prod ≤ maxWord) :
    (∀ s, s.length = es.length → (∀ x ∈ s, x ≤ maxWord) →
      linearIndex s (downCounts es) < es.prod → Within s es) ↔ es.length ≤ 1 := by
  constructor
  · intro all
    by_contra plane
    obtain ⟨s, rank, word, outside, number⟩ := exists_stray (Nat.lt_of_not_le plane) some fits
    exact outside (all s rank word (number ▸ some))
  · exact fun line s rank word => within_of_linearIndex_lt line rank word

end Coordinate

namespace FixedArrayBuilder

open Coordinate

/-- The builder has one entry for each chunk of the grid, and 64 bits hold their count. -/
structure Covers (b : FixedArrayBuilder) (g : Geometry) : Prop where
  ranks : g.scaledMaxDims.length = g.rank
  count : b.entries.length = g.scaledMaxDims.prod
  fits : g.scaledMaxDims.prod ≤ maxWord

/-- The entry at the number of a coordinate. -/
def entryAt (b : FixedArrayBuilder) (g : Geometry) (c : Coordinate) : Option Descriptor :=
  b.entries[linearIndex c g.downMaxCounts]?

/-- A record at `s` becomes the entry of `t`, and the entries of all other chunks stay. -/
def Sets (b : FixedArrayBuilder) (g : Geometry) (s t : Coordinate) : Prop :=
  ∀ d, (b.setChunk g s d).entryAt g t = some d ∧
    ∀ u, g.Holds u → u ≠ t → (b.setChunk g s d).entryAt g u = b.entryAt g u

/-- A record at `s` changes nothing. -/
def Ignores (b : FixedArrayBuilder) (g : Geometry) (s : Coordinate) : Prop :=
  ∀ d, b.setChunk g s d = b

theorem covers_of_ofGeometry {b : FixedArrayBuilder} {g : Geometry} {widths : FileWidths}
    {filtered : Bool} {pageBits : UInt8} (ranks : g.scaledMaxDims.length = g.rank)
    (started : ofGeometry widths g filtered pageBits = .ok b) : b.Covers g := by
  obtain ⟨count, product, rfl⟩ := ofGeometry_eq_ok started
  have same : count = g.scaledMaxDims.prod := (checkedProduct_eq product).trans (Nat.one_mul _)
  have fits : count ≤ maxWord := checkedProduct_le (by decide) product
  exact ⟨ranks, List.length_replicate.trans same, same ▸ fits⟩

theorem Covers.setAll {b : FixedArrayBuilder} {g : Geometry} (covers : b.Covers g)
    (sets : List (Nat × Descriptor)) : (b.setAll sets).Covers g :=
  ⟨covers.ranks, (setAll_frame b sets).2.2.2.trans covers.count, covers.fits⟩

/-! ## One record -/

section Record

variable {b : FixedArrayBuilder} {g : Geometry} {s t : Coordinate}

theorem ignores_of_le (beyond : b.entries.length ≤ linearIndex s g.downMaxCounts) :
    b.Ignores g s := by
  intro d
  have same : b.entries.set (linearIndex s g.downMaxCounts) d = b.entries :=
    List.set_eq_of_length_le beyond
  rw [setChunk, set, same]

/-- Beside an entry there is always another descriptor. -/
theorem exists_descriptor_ne (d : Descriptor) : ∃ d', d' ≠ d := by
  refine ⟨{ d with address := d.address + 1 }, fun same => ?_⟩
  have address := congrArg Descriptor.address same
  exact Nat.succ_ne_self _ address

/-- A record is ignored exactly when its number lies beyond the entries. -/
theorem ignores_iff : b.Ignores g s ↔ b.entries.length ≤ linearIndex s g.downMaxCounts := by
  refine ⟨fun ignores => ?_, ignores_of_le⟩
  by_contra within
  rw [Nat.not_le] at within
  obtain ⟨d, differs⟩ := exists_descriptor_ne (b.entries[linearIndex s g.downMaxCounts])
  have unchanged : b.entries.set (linearIndex s g.downMaxCounts) d = b.entries :=
    congrArg entries (ignores d)
  have written := List.getElem?_set_self (a := d) within
  rw [unchanged, List.getElem?_eq_getElem within, Option.some.injEq] at written
  exact differs written.symm

namespace Covers

variable (covers : b.Covers g)
include covers

theorem words : g.scaledMaxDims.prod ≤ UInt64.size :=
  covers.fits.trans (Nat.sub_le _ _)

theorem number_lt (holds : g.Holds t) : linearIndex t g.downMaxCounts < b.entries.length := by
  rw [covers.count]
  exact holds.linearIndex_lt covers.ranks covers.words

theorem number_inj (held : g.Holds s) (holds : g.Holds t)
    (same : linearIndex s g.downMaxCounts = linearIndex t g.downMaxCounts) : s = t :=
  linearIndex_injective_iff.2 covers.words s t ((Geometry.holds_iff_within covers.ranks).1 held)
    ((Geometry.holds_iff_within covers.ranks).1 holds) same

/-- Every number below the count of entries is that of a chunk. -/
theorem exists_number {n : Nat} (lt : n < b.entries.length) :
    ∃ t, g.Holds t ∧ linearIndex t g.downMaxCounts = n := by
  rw [covers.count] at lt
  have within := within_ofRowMajor lt
  refine ⟨ofRowMajor n g.scaledMaxDims, (Geometry.holds_iff_within covers.ranks).2 within, ?_⟩
  rw [Geometry.downMaxCounts, linearIndex_downCounts within covers.words, rowMajor_ofRowMajor lt]

theorem entryAt_setChunk (d : Descriptor) (holds : g.Holds t) :
    (b.setChunk g s d).entryAt g t =
      if linearIndex s g.downMaxCounts = linearIndex t g.downMaxCounts then some d
      else b.entryAt g t := by
  show (b.entries.set _ d)[_]? = _
  rw [List.getElem?_set]
  split
  · next same => rw [if_pos (same ▸ covers.number_lt holds)]
  · rfl

theorem sets_of_number (holds : g.Holds t)
    (same : linearIndex s g.downMaxCounts = linearIndex t g.downMaxCounts) : b.Sets g s t := by
  intro d
  refine ⟨?_, fun u held other => ?_⟩
  · rw [covers.entryAt_setChunk d holds, if_pos same]
  · rw [covers.entryAt_setChunk d held, if_neg]
    exact fun meets => other (covers.number_inj held holds (meets.symm.trans same))

/-- A record sets the entry of a chunk only if it has the number of that chunk. -/
theorem number_of_sets (holds : g.Holds t) (sets : b.Sets g s t) :
    linearIndex s g.downMaxCounts = linearIndex t g.downMaxCounts := by
  by_contra differ
  have stays : ∀ d, b.entryAt g t = some d := by
    intro d
    have set := (sets d).1
    rwa [covers.entryAt_setChunk d holds, if_neg differ] at set
  obtain ⟨d, other⟩ := exists_descriptor_ne .undefined
  exact other (Option.some.inj ((stays d).symm.trans (stays .undefined)))

/-- A number below the count of entries makes the record that of exactly one chunk. -/
theorem exists_unique_sets (lt : linearIndex s g.downMaxCounts < b.entries.length) :
    ∃! t, g.Holds t ∧ b.Sets g s t := by
  obtain ⟨t, holds, same⟩ := covers.exists_number lt
  refine ⟨t, ⟨holds, covers.sets_of_number holds same.symm⟩, ?_⟩
  rintro u ⟨held, sets⟩
  exact covers.number_inj held holds ((covers.number_of_sets held sets).symm.trans same.symm)

end Covers

end Record

/-- In a builder made for a grid, whatever was recorded before, a chunk of the grid sets its own
entry and no other one. Any record whose number lies beyond the entries is ignored, and any other
one sets the entry of exactly one chunk, that with the same number. All coordinates outside the
grid are ignored exactly when it has one dimension at most or no chunks. -/
theorem setChunk_ignores_iff {dims maxDims chunkDims : List Nat} {elementSize : Nat}
    {g : Geometry} {widths : FileWidths} {filtered : Bool} {pageBits : UInt8}
    {empty b : FixedArrayBuilder} {sets : List (Nat × Descriptor)}
    (made : Geometry.ofExtents dims maxDims chunkDims elementSize = .ok g)
    (started : ofGeometry widths g filtered pageBits = .ok empty)
    (recorded : b = empty.setAll sets) :
    (∀ s, g.Holds s → b.Sets g s s) ∧
    (∀ s, b.Ignores g s ↔ b.entries.length ≤ linearIndex s g.downMaxCounts) ∧
    (∀ s t, g.Holds t →
      (b.Sets g s t ↔ linearIndex s g.downMaxCounts = linearIndex t g.downMaxCounts)) ∧
    (∀ s, b.Ignores g s ∨ ∃! t, g.Holds t ∧ b.Sets g s t) ∧
    ((∀ s, s.length = g.rank → (∀ x ∈ s, x ≤ maxWord) → ¬g.Holds s → b.Ignores g s) ↔
      g.rank ≤ 1 ∨ b.entries = []) := by
  obtain ⟨-, ranks⟩ := Geometry.ranks_of_ofExtents made
  have covers : b.Covers g := recorded ▸ (covers_of_ofGeometry ranks started).setAll sets
  refine ⟨?_, fun s => ignores_iff, ?_, ?_, ?_⟩
  · exact fun s holds => covers.sets_of_number holds rfl
  · exact fun s t holds => ⟨covers.number_of_sets holds, covers.sets_of_number holds⟩
  · intro s
    rcases Nat.lt_or_ge (linearIndex s g.downMaxCounts) b.entries.length with lt | beyond
    · exact .inr (covers.exists_unique_sets lt)
    · exact .inl (ignores_of_le beyond)
  · by_cases vacant : b.entries = []
    · exact iff_of_true (fun s _ _ _ => ignores_of_le (vacant ▸ Nat.zero_le _)) (.inr vacant)
    have some : 0 < g.scaledMaxDims.prod := covers.count ▸ List.length_pos_iff.2 vacant
    rw [or_iff_left vacant, ← covers.ranks, ← within_of_linearIndex_lt_iff some covers.fits]
    refine forall₃_congr fun s rank word => ?_
    rw [Geometry.holds_iff_within covers.ranks, ignores_iff, covers.count, ← Nat.not_lt,
      not_imp_not]
    rfl

/-- In a grid of 2 by 3 chunks the record of `[0, 5]`, beyond the end of the first row, replaces
that of `[1, 2]`; so does the record of `[2 ^ 64 - 1, 8]`, whose number wraps around. -/
theorem setChunk_replaces_other_record :
    ∃ g b, Geometry.ofExtents [2, 3] [2, 3] [1, 1] 1 = .ok g ∧
      (ofGeometry ⟨.eight, .eight⟩ g false 10).map (set · 5 ⟨40, 1, 0⟩) = .ok b ∧
      b.entryAt g [1, 2] = some ⟨40, 1, 0⟩ ∧ ¬g.Holds [0, 5] ∧ ¬g.Holds [maxWord, 8] ∧
      b.Sets g [0, 5] [1, 2] ∧ b.Sets g [maxWord, 8] [1, 2] ∧ ¬b.Ignores g [0, 5] := by
  have made : Geometry.ofExtents [2, 3] [2, 3] [1, 1] 1 = .ok ⟨[2, 3], [2, 3], 1⟩ := by decide
  have started : ofGeometry ⟨.eight, .eight⟩ ⟨[2, 3], [2, 3], 1⟩ false 10 =
    .ok (ofCount ⟨.eight, .eight⟩ 6 10 none) := rfl
  have recorded : (ofCount ⟨.eight, .eight⟩ 6 10 none).set 5 ⟨40, 1, 0⟩ =
    (ofCount ⟨.eight, .eight⟩ 6 10 none).setAll [(5, ⟨40, 1, 0⟩)] := rfl
  obtain ⟨-, ignored, own, -, -⟩ := setChunk_ignores_iff made started recorded
  refine ⟨_, _, made, rfl, rfl, by decide, by decide, ?_, ?_, ?_⟩
  · exact (own [0, 5] [1, 2] (by decide)).2 (by decide)
  · exact (own [maxWord, 8] [1, 2] (by decide)).2 (by decide)
  · exact fun ignores => absurd ((ignored [0, 5]).1 ignores) (by decide)

end FixedArrayBuilder

end ChunkStore
