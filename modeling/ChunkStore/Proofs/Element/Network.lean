import ChunkStore.Element.Kernel

/-!
# What the rounds of a kernel do to a block

The rounds of instructions that separate a block into byte planes, or put its elements together
again, move bytes without regard to what they are. So it is enough to follow labels: bytes that say
where they started. `planes_windows`, `elements_windows` and `gather_window` give the place of every
byte of a block, for each width that has a table and for registers of one lane; `planes_map` and
`elements_map` carry this to any machine whose instructions act on each lane alone.
-/

namespace ChunkStore.Element

namespace Lane

/-- The 16 bytes of `f` from `offset` on. -/
def window (f : Nat → UInt8) (offset : Nat) : Lane := Vector.ofFn fun i => f (offset + i)

/-- Bytes that say where they stand. -/
def labels (offset : Nat) : Lane := window UInt8.ofNat offset

/-- Bytes are moved without regard to what they are, as long as none is replaced by zero. -/
theorem gather_map {table : Lane} (inside : ∀ i : Fin 16, (table.get i).toNat < 128)
    (g : UInt8 → UInt8) (v : Lane) : gather table (v.map g) = (gather table v).map g := by
  ext i lt
  have moved : ¬ 128 ≤ table[i].toNat := Nat.not_le.2 (inside ⟨i, lt⟩)
  simp [gather, moved]

theorem interleave_map (start unit : Nat) (g : UInt8 → UInt8) (a b : Lane) :
    interleave start unit (a.map g) (b.map g) = (interleave start unit a b).map g := by
  ext i lt
  simp only [interleave, Vector.getElem_ofFn, Vector.getElem_map]
  split
  all_goals simp

end Lane

/-! ## Rounds on another machine -/

section

variable {V V' : Type} {m : Machine V} {m' : Machine V'} {φ : V → V'}

/-- What one machine interleaves is seen through `φ` to be interleaved by another. -/
structure Machine.Carries (m : Machine V) (m' : Machine V') (φ : V → V') : Prop where
  low : ∀ unit a b, φ (m.interleaveLow unit a b) = m'.interleaveLow unit (φ a) (φ b)
  high : ∀ unit a b, φ (m.interleaveHigh unit a b) = m'.interleaveHigh unit (φ a) (φ b)

theorem map_rounds (carries : m.Carries m' φ) (u v w : Nat) (r0 r1 r2 r3 r4 r5 r6 r7 : V) :
    (planes.rounds m u v w r0 r1 r2 r3 r4 r5 r6 r7).map φ =
      planes.rounds m' u v w (φ r0) (φ r1) (φ r2) (φ r3) (φ r4) (φ r5) (φ r6) (φ r7) := by
  simp only [planes.rounds, pairUp, List.map_cons, List.map_nil, carries.low, carries.high]

theorem planes_map (carries : m.Carries m' φ) (rs : List V) :
    (planes m rs).map φ = planes m' (rs.map φ) := by
  match rs with
  | [] | [_] | [_, _, _] | [_, _, _, _, _] | [_, _, _, _, _, _] | [_, _, _, _, _, _, _]
  | _ :: _ :: _ :: _ :: _ :: _ :: _ :: _ :: _ :: _ => rfl
  | [_, _] | [_, _, _, _] =>
    simp only [planes, List.map_cons, List.map_nil, carries.low, carries.high]
  | [_, _, _, _, _, _, _, _] => exact map_rounds carries 2 4 8 ..

theorem elements_map (carries : m.Carries m' φ) (rs : List V) :
    (elements m rs).map φ = elements m' (rs.map φ) := by
  match rs with
  | [] | [_] | [_, _, _] | [_, _, _, _, _] | [_, _, _, _, _, _] | [_, _, _, _, _, _, _]
  | _ :: _ :: _ :: _ :: _ :: _ :: _ :: _ :: _ :: _ => rfl
  | [_, _] | [_, _, _, _] =>
    simp only [elements, List.map_cons, List.map_nil, carries.low, carries.high]
  | [_, _, _, _, _, _, _, _] => exact map_rounds carries 1 2 4 ..

theorem carries_map (g : UInt8 → UInt8) : Machine.lane.Carries Machine.lane (Vector.map g) where
  low unit a b := (Lane.interleave_map 0 unit g a b).symm
  high unit a b := (Lane.interleave_map 8 unit g a b).symm

end

/-! ## Labels -/

/-- What moves bytes without regard to what they are moves all bytes as it moves the labels. -/
theorem windows_of_labels (moves : List Lane → List Lane)
    (natural : ∀ g rs, moves (rs.map (Vector.map g)) = (moves rs).map (Vector.map g))
    {count : Nat} (few : count ≤ 16) {place : Nat → Nat → Nat}
    (known : moves ((List.range count).map fun k => Lane.labels (16 * k)) =
      (List.range count).map fun k => Lane.window (fun i => UInt8.ofNat (place k i)) 0)
    (inside : ∀ k < count, ∀ i < 16, place k i < 256) (f : Nat → UInt8) :
    moves ((List.range count).map fun k => Lane.window f (16 * k)) =
      (List.range count).map fun k => Lane.window (fun i => f (place k i)) 0 := by
  have started : ((List.range count).map fun k => Lane.window f (16 * k)) =
      ((List.range count).map fun k => Lane.labels (16 * k)).map
        (Vector.map fun b => f b.toNat) := by
    rw [List.map_map]
    refine List.map_congr_left fun k mem => ?_
    have lt := List.mem_range.1 mem
    ext i below
    have small : 16 * k + i < 256 := by omega
    simp [Lane.labels, Lane.window, Nat.mod_eq_of_lt small]
  rw [started, natural, known, List.map_map]
  refine List.map_congr_left fun k mem => ?_
  ext i below
  have small := inside k (List.mem_range.1 mem) i below
  simp [Lane.window, Nat.mod_eq_of_lt small]

theorem planes_of_labels {width : Nat} (few : width ≤ 8) {table : Lane}
    (inside : ∀ i : Fin 16, (table.get i).toNat < 128)
    (known : planes Machine.lane
        ((List.range width).map fun k => Lane.gather table (Lane.labels (16 * k))) =
      (List.range width).map fun j => Lane.window (fun i => UInt8.ofNat (i * width + j)) 0)
    (f : Nat → UInt8) :
    planes Machine.lane
        ((List.range width).map fun k => Lane.gather table (Lane.window f (16 * k))) =
      (List.range width).map fun j => Lane.window (fun i => f (i * width + j)) 0 := by
  have gathered (v : Nat → Lane) : (List.range width).map (fun k => Lane.gather table (v k)) =
      ((List.range width).map v).map (Lane.gather table) := by
    rw [List.map_map]
    rfl
  have natural (g : UInt8 → UInt8) (rs : List Lane) :
      planes Machine.lane ((rs.map (Vector.map g)).map (Lane.gather table)) =
        (planes Machine.lane (rs.map (Lane.gather table))).map (Vector.map g) := by
    rw [planes_map (carries_map g), List.map_map, List.map_map]
    exact congrArg _ (List.map_congr_left fun v _ => Lane.gather_map inside g v)
  rw [gathered] at known ⊢
  refine windows_of_labels (fun rs => planes Machine.lane (rs.map (Lane.gather table))) natural
    (by omega) known (fun j lt i below => ?_) f
  have most : i * width ≤ 15 * 8 := Nat.mul_le_mul (by omega) few
  omega

/-- The planes of a block of 16 elements: plane `j` has byte `j` of every element. -/
theorem planes_windows {width : Nat} {table : Lane} (found : gatherTable? width = some table)
    (f : Nat → UInt8) :
    planes Machine.lane
        ((List.range width).map fun k => Lane.gather table (Lane.window f (16 * k))) =
      (List.range width).map fun j => Lane.window (fun i => f (i * width + j)) 0 := by
  unfold gatherTable? at found
  split at found
  case h_4 => cases found
  all_goals
    cases found
    exact planes_of_labels (by decide) (by decide) (by decide +kernel) f

/-- The elements of a block from its planes: byte `i` of register `k` is one of element
`(16 * k + i) / width`. -/
theorem elements_windows {width : Nat} {table : Lane} (found : gatherTable? width = some table)
    (f : Nat → UInt8) :
    elements Machine.lane ((List.range width).map fun j => Lane.window f (16 * j)) =
      (List.range width).map fun k => Lane.window
        (fun i => f (16 * ((16 * k + i) % width) + (16 * k + i) / width)) 0 := by
  have natural (g : UInt8 → UInt8) (rs : List Lane) : elements Machine.lane
      (rs.map (Vector.map g)) = (elements Machine.lane rs).map (Vector.map g) :=
    (elements_map (carries_map g) rs).symm
  unfold gatherTable? at found
  split at found
  case h_4 => cases found
  all_goals
    cases found
    exact windows_of_labels (elements Machine.lane) natural (by decide) (by decide +kernel)
      (fun k lt i below => by omega) f

theorem gather_window_of_table {table : Lane} {place : Nat → Nat}
    (places : ∀ i : Fin 16, (table.get i).toNat = place i ∧ place i < 16) (f : Nat → UInt8) :
    Lane.gather table (Lane.window f 0) = Lane.window (fun i => f (place i)) 0 := by
  ext i lt
  obtain ⟨same, inside⟩ := places ⟨i, lt⟩
  have same : table[i].toNat = place i := same
  have moved : ¬ 128 ≤ place i := Nat.not_le.2 (Nat.lt_of_lt_of_le inside (by decide))
  have whole : place i % 16 = place i := Nat.mod_eq_of_lt inside
  simp [Lane.gather, Lane.window, same, moved, whole]

/-- The elements of a register backwards. -/
theorem gather_window {width : Nat} {table : Lane} (found : reverseTable? width = some table)
    (f : Nat → UInt8) : Lane.gather table (Lane.window f 0) =
      Lane.window (fun i => f (i - i % width + (width - 1 - i % width))) 0 := by
  unfold reverseTable? at found
  split at found
  case h_5 => cases found
  all_goals
    cases found
    exact gather_window_of_table (by decide) f

end ChunkStore.Element
