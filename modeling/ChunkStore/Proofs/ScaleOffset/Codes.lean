import ChunkStore.Proofs.ScaleOffset.Elements

/-!
# Codes and what they stand for

What packing asks of floating-point operations is gathered in `Arithmetic`: a least value, a code
for each element and an element for each code. The operations on bit patterns are one choice
(`Arithmetic.real`); any other would do for what is shown here. The codes of a chunk are never
above its span (`codesUsing_eq_some`), so a width that is less than a whole element holds them and
keeps the code of all one-bits for the fill value (`lt_of_codeWidth_lt`). Codes of integers give the
elements again, signed or not (`integerCodes_eq_some`).
-/

namespace ChunkStore.ScaleOffset

/-- What floating-point operations make of the elements of a chunk. -/
structure Arithmetic where
  /-- What is stored as the least of some elements. -/
  least : (live : List Nat) → Nat
  /-- The scaled and rounded distance of an element from the least one. -/
  distance : (live : List Nat) → (element : Nat) → Nat
  /-- The element at a distance from what was stored as the least one. -/
  element : (minval code : Nat) → Nat

namespace Arithmetic

/-- The least of some elements; zero when there are none. -/
def leastReal (p : Parameters) (live : List Nat) : Real :=
  match live.map (realOf p) with
  | [] => 0
  | first :: others => others.foldl Real.min first

/-- The operations on bit patterns. -/
def real (p : Parameters) : Arithmetic where
  least live :=
    if p.size = 4 then (Real.toSingle (leastReal p live)).toNat else (leastReal p live).toNat
  distance live element :=
    realCode (Real.powerOfTen p.scaleFactor.toInt) (leastReal p live) (realOf p element)
  element := reconstruct { p with numberClass := .float }

end Arithmetic

variable {p : Parameters} {a : Arithmetic} {values live : List Nat} {c : Codes}

/-- A code for each element, and none for the fill value. -/
def codeAll (p : Parameters) (distance : Nat → Nat) (values : List Nat) : List (Option Nat) :=
  values.map fun v => if some v = p.fillValue then none else some (distance v)

/-- The codes of floats. -/
def floatCodesUsing (a : Arithmetic) (p : Parameters) (values live : List Nat) : Option Codes :=
  if live.isEmpty then none
  else
    let codes := codeAll p (a.distance live) values
    some { minval := a.least live, codes, span := (codes.filterMap id).foldl max 0 }

/-- The codes of a chunk, or none when every element is the fill value. -/
def codesUsing (a : Arithmetic) (p : Parameters) (values : List Nat) : Option Codes :=
  let live := values.filter fun v => some v ≠ p.fillValue
  match p.numberClass with
  | .integer => integerCodes p values live
  | .float => floatCodesUsing a p values live

/-- The element of a code. -/
def valueUsing (a : Arithmetic) (p : Parameters) (minbits minval code : Nat) : Nat :=
  let element := match p.numberClass with
    | .integer => reconstruct p minval code
    | .float => a.element minval code
  match p.fillValue with
  | some fill => if code = allOnes minbits then fill else element
  | none => element

theorem codesUsing_real (p : Parameters) : codesUsing (.real p) p = codesOf p := by
  funext values
  unfold codesUsing codesOf floatCodesUsing floatCodes
  cases p.numberClass with
  | integer => rfl
  | float =>
    generalize (values.filter fun v => some v ≠ p.fillValue) = live
    cases live <;> rfl

theorem valueUsing_real (p : Parameters) : valueUsing (.real p) p = valueOfCode p := by
  funext minbits minval code
  unfold valueUsing valueOfCode
  cases number : p.numberClass with
  | integer => rfl
  | float =>
    have same : (Arithmetic.real p).element minval code = reconstruct p minval code := by
      unfold Arithmetic.real reconstruct
      rw [number]
    dsimp only
    rewrite [same]
    rfl

/-! ## Codes of integers -/

/-- The code of an integer: its distance from the least one. -/
def integerDistance (p : Parameters) (least : Int) (v : Nat) : Nat := (key p v - least).toNat

theorem key_emod (p : Parameters) (v : Nat) :
    key p v % (2 ^ p.bits : Nat) = v % (2 ^ p.bits : Nat) := by
  unfold key signExtend
  split
  · rw [Nat.one_shiftLeft, Int.bmod_emod]
  · rfl

theorem toWord_lt (n : Int) : toWord n < 256 ^ 8 := by
  have pos : (0 : Int) < UInt64.size := by decide
  have small := Int.emod_lt_of_pos n pos
  have word : UInt64.size = 256 ^ 8 := by decide
  rw [toWord]
  omega

/-- Distances and the least value, in as many bits as an element has, give the element again. -/
theorem integerDistance_add (bits : p.bits ≤ 64) {least : Int} {v : Nat} (small : v < 2 ^ p.bits)
    (below : least ≤ key p v) :
    (integerDistance p least v + toWord least) % 1 <<< p.bits = v := by
  have distance : ((integerDistance p least v : Nat) : Int) = key p v - least :=
    Int.toNat_of_nonneg (by omega)
  have word : ((toWord least : Nat) : Int) = least % UInt64.size :=
    Int.toNat_of_nonneg (Int.emod_nonneg _ (by decide))
  have divides : ((2 ^ p.bits : Nat) : Int) ∣ (UInt64.size : Nat) :=
    Int.natCast_dvd_natCast.2 (Nat.pow_dvd_pow 2 bits)
  rw [Nat.one_shiftLeft]
  apply Int.natCast_inj.1
  calc ((((integerDistance p least v + toWord least) % 2 ^ p.bits : Nat)) : Int)
      = (key p v - least + least % UInt64.size) % (2 ^ p.bits : Nat) := by
        rw [Int.natCast_emod, Int.natCast_add, distance, word]
    _ = (key p v - least + least) % (2 ^ p.bits : Nat) := by
        rw [Int.add_emod, Int.emod_emod_of_dvd _ divides, ← Int.add_emod]
    _ = v % (2 ^ p.bits : Nat) := by rw [Int.sub_add_cancel, key_emod]
    _ = v := Int.emod_eq_of_lt (Int.natCast_nonneg v) (Int.ofNat_lt.2 small)

theorem integerCodes_eq_none (uncoded : integerCodes p values live = none) : live = [] := by
  by_contra some
  have keys : live.map (key p) ≠ [] := fun h => some (List.map_eq_nil_iff.1 h)
  obtain ⟨least, low⟩ := Option.isSome_iff_exists.1 (List.isSome_min?_iff.2 keys)
  obtain ⟨greatest, high⟩ := Option.isSome_iff_exists.1 (List.isSome_max?_iff.2 keys)
  unfold integerCodes at uncoded
  dsimp only at uncoded
  rw [low, high] at uncoded
  cases uncoded

theorem integerCodes_eq_some (coded : integerCodes p values live = some c) :
    ∃ least, c.minval = toWord least ∧ c.codes = codeAll p (integerDistance p least) values ∧
      ∀ v ∈ live, least ≤ key p v ∧ integerDistance p least v ≤ c.span := by
  unfold integerCodes at coded
  obtain ⟨least, low, coded⟩ := Option.bind_eq_some_iff.1 coded
  obtain ⟨greatest, high, coded⟩ := Option.bind_eq_some_iff.1 coded
  cases coded
  refine ⟨least, rfl, rfl, ?_⟩
  intro v mem
  have above := (List.min?_eq_some_iff.1 low).2 _ (List.mem_map_of_mem mem)
  have below := (List.max?_eq_some_iff.1 high).2 _ (List.mem_map_of_mem mem)
  refine ⟨above, ?_⟩
  show (key p v - least).toNat ≤ (greatest - least).toNat
  omega

/-! ## Codes of either class -/

theorem floatCodesUsing_eq_none (uncoded : floatCodesUsing a p values live = none) :
    live = [] := by
  unfold floatCodesUsing at uncoded
  split at uncoded
  next empty => exact List.isEmpty_iff.1 empty
  next => cases uncoded

theorem floatCodesUsing_eq_some (coded : floatCodesUsing a p values live = some c) :
    c.codes = codeAll p (a.distance live) values ∧
      ∀ v ∈ values, some v ≠ p.fillValue → a.distance live v ≤ c.span := by
  unfold floatCodesUsing at coded
  split at coded
  · cases coded
  cases coded
  refine ⟨rfl, ?_⟩
  intro v mem other
  apply (le_foldl_max _ 0).2
  refine List.mem_filterMap.2 ⟨some (a.distance live v), List.mem_map.2 ⟨v, mem, ?_⟩, rfl⟩
  rw [if_neg other]

/-- A chunk without codes has the fill value everywhere. -/
theorem codesUsing_eq_none (uncoded : codesUsing a p values = none) :
    ∀ v ∈ values, some v = p.fillValue := by
  have empty : values.filter (fun v => some v ≠ p.fillValue) = [] := by
    unfold codesUsing at uncoded
    cases number : p.numberClass with
    | integer =>
      rw [number] at uncoded
      exact integerCodes_eq_none uncoded
    | float =>
      rw [number] at uncoded
      exact floatCodesUsing_eq_none uncoded
  intro v mem
  by_contra other
  have live : v ∈ values.filter fun v => some v ≠ p.fillValue :=
    List.mem_filter.2 ⟨mem, decide_eq_true other⟩
  rw [empty] at live
  cases live

/-- Codes are distances that the span bounds; integers are given again by theirs. -/
theorem codesUsing_eq_some (bits : p.bits ≤ 64) (coded : codesUsing a p values = some c) :
    ∃ distance, c.codes = codeAll p distance values ∧
      ∀ v ∈ values, some v ≠ p.fillValue → distance v ≤ c.span ∧
        (p.numberClass = .integer → v < 2 ^ p.bits →
          reconstruct p (c.minval % 256 ^ 8) (distance v) = v) := by
  unfold codesUsing at coded
  cases number : p.numberClass with
  | integer =>
    rw [number] at coded
    obtain ⟨least, minval, codes, near⟩ := integerCodes_eq_some coded
    refine ⟨_, codes, ?_⟩
    intro v mem other
    obtain ⟨above, bound⟩ := near v (List.mem_filter.2 ⟨mem, decide_eq_true other⟩)
    refine ⟨bound, fun _ small => ?_⟩
    rw [minval, Nat.mod_eq_of_lt (toWord_lt least), reconstruct, number]
    exact integerDistance_add bits small above
  | float =>
    rw [number] at coded
    obtain ⟨codes, bound⟩ := floatCodesUsing_eq_some coded
    refine ⟨_, codes, ?_⟩
    intro v mem other
    exact ⟨bound v mem other, fun integer => nomatch integer⟩

/-! ## Widths -/

theorem lt_two_pow_bitLength (n : Nat) : n < 2 ^ bitLength n := by
  unfold bitLength
  split
  next zero => simp [zero]
  next => exact Nat.lt_log2_self

/-- A width below that of an element holds every distance, and if there is a fill value leaves the
code of all one-bits to it. -/
theorem lt_of_codeWidth_lt {span : Nat} (narrow : codeWidth p span < p.bits) (bits : p.bits ≤ 64) :
    span < 2 ^ codeWidth p span ∧ (p.fillValue.isSome → span < allOnes (codeWidth p span)) := by
  unfold codeWidth at narrow ⊢
  split at narrow
  next unfilled =>
    rw [if_pos unfilled]
    refine ⟨lt_two_pow_bitLength span, fun filled => ?_⟩
    rw [Option.isNone_iff_eq_none.1 unfilled] at filled
    cases filled
  next filled =>
    rw [if_neg filled]
    split at narrow
    · omega
    next room =>
      have wide := lt_two_pow_bitLength (span + 1)
      rw [if_neg room, allOnes, Nat.one_shiftLeft]
      exact ⟨by omega, fun _ => by omega⟩

end ChunkStore.ScaleOffset
