import ChunkStore.Proofs.Filter.RoundTrip

/-!
# What the filter mask records

`Registry.leavesOut` says which filters writing leaves out: optional ones without a codec, or with
a codec that fails on the chunk as it comes to them. The mask has room for 32 places.
`Registry.mask_faithful_iff`: at these the mask names just the filters that were left out, and from
place 32 on it names none, so reading runs a filter there whether or not writing did.
-/

namespace ChunkStore

/-- No mask leaves out the filter at a place that it has no room for. -/
theorem isMasked_of_le {k : Nat} (beyond : 32 ≤ k) (mask : UInt32) : isMasked mask k = false := by
  simp [isMasked, maskBit, Nat.not_lt.2 beyond]

/-- What the mask says of each place once a place is noted. -/
theorem isMasked_note (mask : UInt32) (i j : Nat) :
    isMasked (mask ||| maskBit i) j = (isMasked mask j || decide (i = j ∧ i < 32)) := by
  rcases Nat.lt_or_ge i 32 with here | beyond
  · rcases Nat.lt_or_ge j 32 with there | far
    · simp [isMasked_or here there, here]
    · rw [isMasked_of_le far, isMasked_of_le far]
      simp
      omega
  · simp [maskBit, Nat.not_lt.2 beyond]

namespace Registry

variable {r : Registry} {p : Pipeline} {size bytes : Nat} {data : Bytes}

/-- Applies the filter at one place. -/
def apply (r : Registry) (p : Pipeline) (elementSize chunkBytes : Nat) (data : Bytes) :
    FilterEntry × Nat → Except Error Bytes
  | (entry, k) => do
    let codec ← r.codecOf entry
    codec.encode ⟨entry, k, elementSize, chunkBytes, outputHint p k chunkBytes⟩ data

/-- Undoes the filter at one place. -/
def undo (r : Registry) (p : Pipeline) (elementSize chunkBytes : Nat) (data : Bytes) :
    FilterEntry × Nat → Except Error Bytes
  | (entry, k) => do
    let codec ← r.codecOf entry
    codec.decode ⟨entry, k, elementSize, chunkBytes, outputHint p k chunkBytes⟩ data

/-- A chunk as it comes to the filter at place `k`, and the mask as it is then. -/
def encodedBefore (r : Registry) (p : Pipeline) (data : Bytes) (elementSize k : Nat) :
    Except Error Encoded :=
  (p.filters.zipIdx.take k).foldlM (r.encodeStep p elementSize data.length) ⟨data, 0⟩

/-- Whether writing leaves out the filter at place `k`: it is optional, and it cannot be applied to
the chunk that comes to it. -/
def leavesOut (r : Registry) (p : Pipeline) (data : Bytes) (elementSize k : Nat) : Bool :=
  match p.filters[k]?, r.encodedBefore p data elementSize k with
  | some entry, .ok chunk =>
    entry.isOptional && !(r.apply p elementSize data.length chunk.data (entry, k)).isOk
  | _, _ => false

/-! ## Writing, filter by filter -/

theorem encodedBefore_zero : r.encodedBefore p data size 0 = .ok ⟨data, 0⟩ := rfl

theorem encodedBefore_length :
    r.encodedBefore p data size p.filters.length = r.encode p data size := by
  rw [encodedBefore, List.take_of_length_le (by simp), encode]

theorem encodedBefore_succ {k : Nat} {f : FilterEntry} (there : p.filters[k]? = some f) :
    r.encodedBefore p data size (k + 1) =
      r.encodedBefore p data size k >>= fun chunk =>
        r.encodeStep p size data.length chunk (f, k) := by
  have numbered : p.filters.zipIdx[k]? = some (f, k) := by simp [there]
  rw [encodedBefore, List.take_add_one, numbered, List.foldlM_append]
  simp [encodedBefore]

/-- A chunk that went through a filter came to it. -/
theorem exists_encodedBefore {k : Nat} {next : Encoded} (inside : k < p.filters.length)
    (after : r.encodedBefore p data size (k + 1) = .ok next) :
    ∃ chunk, r.encodedBefore p data size k = .ok chunk := by
  rw [encodedBefore_succ (List.getElem?_eq_getElem inside)] at after
  obtain ⟨chunk, before, -⟩ := bind_eq_ok_iff.1 after
  exact ⟨chunk, before⟩

theorem encodeStep_of_ok {f : FilterEntry} {k : Nat} {chunk : Encoded} {after : Bytes}
    (applied : r.apply p size bytes chunk.data (f, k) = .ok after) :
    r.encodeStep p size bytes chunk (f, k) = .ok { chunk with data := after } := by
  unfold apply at applied
  unfold encodeStep
  dsimp only at applied ⊢
  rw [applied]

theorem encodeStep_of_error {f : FilterEntry} {k : Nat} {chunk : Encoded} {e : Error}
    (failed : r.apply p size bytes chunk.data (f, k) = .error e) :
    r.encodeStep p size bytes chunk (f, k) =
      if f.isOptional then .ok ⟨chunk.data, chunk.mask ||| maskBit k⟩ else .error e := by
  unfold apply at failed
  unfold encodeStep
  dsimp only at failed ⊢
  rw [failed]

/-- A filter is left out and noted, or it is applied. -/
theorem encodedBefore_cases {k : Nat} {f : FilterEntry} {chunk next : Encoded}
    (there : p.filters[k]? = some f) (before : r.encodedBefore p data size k = .ok chunk)
    (after : r.encodedBefore p data size (k + 1) = .ok next) :
    (r.leavesOut p data size k = true ∧ next = ⟨chunk.data, chunk.mask ||| maskBit k⟩) ∨
    (r.leavesOut p data size k = false ∧ next.mask = chunk.mask ∧
      r.apply p size data.length chunk.data (f, k) = .ok next.data) := by
  rw [encodedBefore_succ there, before] at after
  change r.encodeStep p size data.length chunk (f, k) = .ok next at after
  rw [leavesOut, there, before]
  cases applied : r.apply p size data.length chunk.data (f, k) with
  | ok data =>
    rw [encodeStep_of_ok applied] at after
    cases after
    refine .inr ⟨?_, rfl, rfl⟩
    simp [applied, Except.isOk, Except.toBool]
  | error e =>
    rw [encodeStep_of_error applied] at after
    split at after
    next optional =>
      cases after
      refine .inl ⟨?_, rfl⟩
      simp [applied, optional, Except.isOk, Except.toBool]
    next => cases after

/-- The mask names the filters left out so far, where it has room for them. -/
theorem isMasked_encodedBefore {k : Nat} {chunk : Encoded} (inside : k ≤ p.filters.length)
    (before : r.encodedBefore p data size k = .ok chunk) (i : Nat) :
    isMasked chunk.mask i = (decide (i < k ∧ i < 32) && r.leavesOut p data size i) := by
  induction k generalizing chunk with
  | zero =>
    rw [encodedBefore_zero] at before
    cases before
    simp [isMasked]
  | succ k ih =>
    have there : p.filters[k]? = some p.filters[k] := List.getElem?_eq_getElem inside
    obtain ⟨earlier, reached⟩ := exists_encodedBefore inside before
    have ih := ih (Nat.le_of_succ_le inside) reached
    rcases encodedBefore_cases there reached before with ⟨left, rfl⟩ | ⟨applied, mask, -⟩
    · rw [isMasked_note, ih]
      by_cases here : k = i
      · subst here
        simp [left]
      · have above : i < k + 1 ↔ i < k := by omega
        simp [here, above]
    · rw [mask, ih]
      by_cases here : i = k
      · subst here
        simp [applied]
      · have above : i < k + 1 ↔ i < k := by omega
        simp [above]

/-! ## Reading -/

/-- Reading undoes, last first, the filters that the mask does not name. -/
theorem decode_eq_foldlM (mask : UInt32) (stored : Bytes) :
    r.decode p mask stored size bytes =
      (p.filters.zipIdx.filter fun (_, k) => !isMasked mask k).reverse.foldlM
        (r.undo p size bytes) stored := by
  rw [decode, ← List.filter_reverse, List.foldlM_filter]
  congr 1
  funext chunk (f, k)
  rw [decodeStep, undo]
  dsimp only
  by_cases masked : isMasked mask k = true
  · rw [if_pos masked, if_neg (by simp [masked])]
    rfl
  · rw [if_neg masked, if_pos (by simpa using masked)]

/-- Below place 32 reading leaves out just the filters that writing left out, and from there on it
leaves out none. So the mask is faithful at every place exactly if writing left out none there. -/
theorem mask_faithful_iff {out : Encoded} (encoded : r.encode p data size = .ok out) :
    (∀ k, isMasked out.mask k = true ↔ k < 32 ∧ r.leavesOut p data size k = true) ∧
    ((∀ k < p.filters.length, isMasked out.mask k = true ↔ r.leavesOut p data size k = true) ↔
      ∀ k, 32 ≤ k → r.leavesOut p data size k = false) ∧
    ∀ size' bytes stored, r.decode p out.mask stored size' bytes =
      (p.filters.zipIdx.filter fun (_, k) => 32 ≤ k || !r.leavesOut p data size k).reverse.foldlM
        (r.undo p size' bytes) stored := by
  have beyond : ∀ k, p.filters.length ≤ k → r.leavesOut p data size k = false := by
    intro k le
    rw [leavesOut, List.getElem?_eq_none le]
  have noted : ∀ k, isMasked out.mask k = true ↔ k < 32 ∧ r.leavesOut p data size k = true := by
    intro k
    rw [isMasked_encodedBefore (Nat.le_refl _) (encodedBefore_length.trans encoded)]
    rcases Nat.lt_or_ge k p.filters.length with inside | outside
    · simp [inside]
    · simp [beyond k outside]
  refine ⟨noted, ?_, ?_⟩
  · constructor
    · intro faithful k far
      rcases Nat.lt_or_ge k p.filters.length with inside | outside
      · rw [← Bool.not_eq_true, ← faithful k inside, isMasked_of_le far]
        exact Bool.false_ne_true
      · exact beyond k outside
    · intro none k _
      rw [noted k]
      rcases Nat.lt_or_ge k 32 with near | far
      · simp [near]
      · simp [none k far]
  · intro size' bytes stored
    rw [decode_eq_foldlM]
    congr 3
    funext (_, k)
    rw [Bool.eq_iff_iff]
    simp only [Bool.not_eq_true', Bool.or_eq_true, decide_eq_true_eq, ← Bool.not_eq_true, noted k,
      not_and_or, Nat.not_lt]

/-- A filter that nobody knows is left out at place 0 and noted, and one that does not fit the chunk
is left out at place 32 and not noted: reading runs it and gives another chunk. -/
theorem mask_unfaithful_at_place_32 : ∃ (p : Pipeline) (data : Bytes) (out : Encoded),
    p.filters.length = 33 ∧ data.length = 21 ∧ builtin.encode p data 1 = .ok out ∧ out.mask = 1 ∧
    builtin.leavesOut p data 1 32 = true ∧
    ¬ (∀ k < p.filters.length, isMasked out.mask k = true ↔ builtin.leavesOut p data 1 k = true) ∧
    out.data = data ∧ builtin.decode p out.mask out.data 1 data.length = .ok [7] := by
  let p : Pipeline := .ofFilters (⟨400, none, 1, []⟩ :: List.replicate 31 ⟨2, none, 0, [1]⟩ ++
    [⟨6, none, 1, [2, 0, 1, 0, 1, 0, 0, 0]⟩])
  let data : Bytes := [0, 0, 0, 0, 1, 7] ++ List.replicate 15 0
  have encoded : builtin.encode p data 1 = .ok ⟨data, 1⟩ := by decide +kernel
  have left : builtin.leavesOut p data 1 32 = true := by decide +kernel
  refine ⟨p, data, _, rfl, rfl, encoded, rfl, left, ?_, rfl, by decide +kernel⟩
  rw [(mask_faithful_iff encoded).2.1]
  intro none
  rw [none 32 (Nat.le_refl 32)] at left
  cases left

end Registry

end ChunkStore
