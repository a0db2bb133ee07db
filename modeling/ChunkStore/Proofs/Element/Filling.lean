import ChunkStore.Proofs.Element.Network

/-!
# Buffers that registers fill

Every byte of the destination of a transform shall be a certain one, its target. `Holds` says which
bytes of a buffer are already what they shall be, whatever the buffer held before, and `Fills` that
a computation succeeds with such a buffer. A register that shows the target where it is stored makes
16 bytes right for each of its lanes and spoils none; a store succeeds only inside the buffer.
`Machine.Lawful` collects what the instructions of a machine do in these terms, and `lawful_lane`
and `lawful_wide` say it of registers of one lane and of two.
-/

namespace ChunkStore.Element

/-- A buffer of `size` bytes of which those at the places in `done` are what they shall be. -/
structure Holds (target : Nat → UInt8) (size : Nat) (done : Nat → Prop) (out : Array UInt8) :
    Prop where
  length : out.size = size
  right : ∀ k < size, done k → out[k]? = some (target k)

/-- The computation succeeds with such a buffer. -/
def Fills (target : Nat → UInt8) (size : Nat) (done : Nat → Prop) (x : Option (Array UInt8)) :
    Prop := ∃ out, x = some out ∧ Holds target size done out

variable {target : Nat → UInt8} {size : Nat} {done done' : Nat → Prop} {out : Array UInt8}

namespace Holds

theorem mono (holds : Holds target size done out) (fewer : ∀ k < size, done' k → done k) :
    Holds target size done' out :=
  ⟨holds.length, fun k lt there => holds.right k lt (fewer k lt there)⟩

/-- A byte that is what it shall be. -/
theorem set (holds : Holds target size done out) {i : Nat} {b : UInt8} (right : b = target i) :
    Holds target size (fun k => done k ∨ k = i) (out.setIfInBounds i b) := by
  refine ⟨by rw [Array.size_setIfInBounds, holds.length], fun k lt there => ?_⟩
  rw [Array.getElem?_setIfInBounds, holds.length]
  by_cases same : i = k
  · subst same
    rw [if_pos rfl, if_pos lt, right]
  · rw [if_neg same]
    exact holds.right k lt (there.resolve_right fun same' => same same'.symm)

/-- When all bytes are right the buffer is the target. -/
theorem eq_target (holds : Holds target size done out) (all : ∀ k < size, done k) :
    out = ((List.range size).map target).toArray := by
  refine Array.ext_getElem? fun k => ?_
  by_cases lt : k < size
  · rw [holds.right k lt (all k lt)]
    simp [lt]
  · have beyond : out.size ≤ k := by
      rw [holds.length]
      exact Nat.le_of_not_lt lt
    rw [Array.getElem?_eq_none beyond]
    simp [Nat.le_of_not_lt lt]

/-- Nothing of a buffer has to be right before the first step. -/
theorem start (fits : out.size = size) : Holds target size (fun _ => False) out :=
  ⟨fits, fun _ _ => False.elim⟩

end Holds

namespace Fills

theorem pure (holds : Holds target size done out) : Fills target size done (some out) :=
  ⟨out, rfl, holds⟩

theorem mono {x : Option (Array UInt8)} (h : Fills target size done x)
    (fewer : ∀ k < size, done' k → done k) : Fills target size done' x := by
  obtain ⟨out, rfl, holds⟩ := h
  exact .pure (holds.mono fewer)

theorem bind {x : Option (Array UInt8)} {f : Array UInt8 → Option (Array UInt8)}
    (first : Fills target size done x)
    (next : ∀ out, Holds target size done out → Fills target size done' (f out)) :
    Fills target size done' (x >>= f) := by
  obtain ⟨out, rfl, holds⟩ := first
  exact next out holds

/-- A run of bytes and the run after it. -/
theorem append {x : Option (Array UInt8)} {f : Array UInt8 → Option (Array UInt8)}
    {first middle last last' : Nat}
    (lower : Fills target size (fun k => done k ∨ first ≤ k ∧ k < middle) x)
    (upper : ∀ out, Holds target size (fun k => done k ∨ first ≤ k ∧ k < middle) out →
      Fills target size
        (fun k => (done k ∨ first ≤ k ∧ k < middle) ∨ middle ≤ k ∧ k < last') (f out))
    (reach : last ≤ last') :
    Fills target size (fun k => done k ∨ first ≤ k ∧ k < last) (x >>= f) := by
  refine lower.bind fun out holds => (upper out holds).mono fun k _ there => ?_
  rcases there with there | ⟨low, high⟩
  · exact .inl (.inl there)
  · by_cases early : k < middle
    · exact .inl (.inr ⟨low, early⟩)
    · exact .inr ⟨Nat.le_of_not_lt early, Nat.lt_of_lt_of_le high reach⟩

/-- A loop of which every pass makes its own part right. -/
theorem foldlM {α : Type} {step : Array UInt8 → α → Option (Array UInt8)}
    {part : α → Nat → Prop} {xs : List α}
    (steps : ∀ x ∈ xs, ∀ {done out}, Holds target size done out →
      Fills target size (fun k => done k ∨ part x k) (step out x))
    (holds : Holds target size done out) :
    Fills target size (fun k => done k ∨ ∃ x ∈ xs, part x k) (xs.foldlM step out) := by
  induction xs generalizing done out with
  | nil =>
    refine .pure (holds.mono fun k _ there => there.resolve_right ?_)
    rintro ⟨x, none, -⟩
    cases none
  | cons x xs ih =>
    obtain ⟨first, others⟩ := List.forall_mem_cons.1 steps
    rw [List.foldlM_cons]
    refine (first holds).bind fun out holds => (ih others holds).mono fun k _ there => ?_
    rcases there with there | ⟨y, mem, there⟩
    · exact .inl (.inl there)
    · rcases List.mem_cons.1 mem with rfl | later
      · exact .inl (.inr there)
      · exact .inr ⟨y, later, there⟩

/-- A single byte. -/
theorem setByte? (holds : Holds target size done out) {i : Nat} {b : UInt8} (inside : i < size)
    (right : b = target i) :
    Fills target size (fun k => done k ∨ k = i) (Element.setByte? out i b) := by
  rw [Element.setByte?, if_pos (by rwa [holds.length])]
  exact .pure (holds.set right)

end Fills

/-! ## Stores -/

theorem holds_foldl_set {offset : Nat} (bytes : List (UInt8 × Nat))
    (right : ∀ p ∈ bytes, p.1 = target (offset + p.2)) (holds : Holds target size done out) :
    Holds target size (fun k => done k ∨ ∃ p ∈ bytes, k = offset + p.2)
      (bytes.foldl (fun buffer (b, i) => buffer.setIfInBounds (offset + i) b) out) := by
  induction bytes generalizing done out with
  | nil => exact holds.mono fun k _ there => there.resolve_right nofun
  | cons p bytes ih =>
    obtain ⟨here, others⟩ := List.forall_mem_cons.1 right
    refine (ih others (holds.set here)).mono fun k _ there => ?_
    rcases there with there | ⟨q, mem, rfl⟩
    · exact .inl (.inl there)
    · rcases List.mem_cons.1 mem with rfl | later
      · exact .inl (.inr rfl)
      · exact .inr ⟨q, later, rfl⟩

/-- A lane that shows the target is stored inside the buffer. -/
theorem fills_store (holds : Holds target size done out) {offset : Nat}
    (inside : offset + 16 ≤ size) :
    Fills target size (fun k => done k ∨ offset ≤ k ∧ k < offset + 16)
      (Lane.store out offset (Lane.window target offset)) := by
  have fits : offset + 16 ≤ out.size := by rwa [holds.length]
  rw [Lane.store, if_pos fits]
  have byte (i : Nat) (b : UInt8) :
      (b, i) ∈ (Lane.window target offset).toList.zipIdx ↔ i < 16 ∧ b = target (offset + i) := by
    simp [Lane.window, List.mem_zipIdx_iff_getElem?, eq_comm]
  refine .mono (.pure (holds_foldl_set _ (fun p mem => ((byte p.2 p.1).1 mem).2) holds))
    fun k _ there => ?_
  rcases there with there | ⟨low, high⟩
  · exact .inl there
  · refine .inr ⟨(target k, k - offset), (byte _ _).2 ⟨by omega, ?_⟩, ?_⟩
    · rw [Nat.add_sub_cancel' low]
    · exact (Nat.add_sub_cancel' low).symm

/-! ## Machines -/

/-- How registers are made of lanes. -/
structure Lanes (V : Type) where
  count : Nat
  make : (Nat → Lane) → V
  lane : Nat → V → Lane
  pos : 0 < count
  lane_make : ∀ g, ∀ l < count, lane l (make g) = g l

namespace Lanes

variable {V : Type}

/-- The register with the bytes of `f` from `offset` on. -/
def window (ls : Lanes V) (f : Nat → UInt8) (offset : Nat) : V :=
  ls.make fun l => Lane.window f (offset + 16 * l)

/-- The register has the bytes of `f` from `offset` on. -/
def Shows (ls : Lanes V) (f : Nat → UInt8) (offset : Nat) (v : V) : Prop :=
  ∀ l < ls.count, ls.lane l v = Lane.window f (offset + 16 * l)

/-- Register `k` of a block of `width` registers: in lane `l` it has the 16 bytes number
`l * width + k` of `f` from `offset` on. -/
def blockWindow (ls : Lanes V) (f : Nat → UInt8) (width offset k : Nat) : V :=
  ls.make fun l => Lane.window f (offset + 16 * (l * width + k))

/-- The registers of a block have, lane after lane, the bytes of `f` from `offset` on. -/
def ShowsBlock (ls : Lanes V) (f : Nat → UInt8) (offset : Nat) (vs : List V) : Prop :=
  ∀ (k : Nat) (v : V), vs[k]? = some v → ∀ l < ls.count,
    ls.lane l v = Lane.window f (offset + 16 * (l * vs.length + k))

/-- Registers of one lane. -/
def one : Lanes Lane where
  count := 1
  make g := g 0
  lane _ v := v
  pos := by decide
  lane_make g l lt := by rw [Nat.lt_one_iff.1 lt]

/-- Registers of two lanes. -/
def two : Lanes Wide where
  count := 2
  make g := ⟨g 0, g 1⟩
  lane l v := if l = 0 then v.low else v.high
  pos := by decide
  lane_make g l lt := by
    rcases Nat.lt_succ_iff.1 lt with _ | ⟨_ | _⟩
    all_goals rfl

end Lanes

/-- The instructions of a machine act on each lane alone, its loads show the bytes that they read,
and its stores make right what shows the target. -/
structure Machine.Lawful {V : Type} (m : Machine V) (ls : Lanes V) : Prop where
  size : m.size = 16 * ls.count
  gather : ∀ l table v, ls.lane l (m.gather table v) = Lane.gather table (ls.lane l v)
  carries : ∀ l, m.Carries Machine.lane (ls.lane l)
  load : ∀ (buffer : Array UInt8) (offset : Nat), offset + m.size ≤ buffer.size →
    m.load buffer offset = some (ls.window (fun k => buffer.getD k 0) offset)
  store : ∀ {target size done out offset v}, Holds target size done out →
    offset + m.size ≤ size → ls.Shows target offset v →
    Fills target size (fun k => done k ∨ offset ≤ k ∧ k < offset + m.size) (m.store out offset v)
  loadBlock : ∀ {width : Nat}, 2 ∣ width → ∀ (buffer : Array UInt8) (offset : Nat),
    offset + width * m.size ≤ buffer.size → m.loadBlock width buffer offset =
      some ((List.range width).map (ls.blockWindow (fun k => buffer.getD k 0) width offset))
  storeBlock : ∀ {target size done out offset vs}, 2 ∣ vs.length → Holds target size done out →
    offset + vs.length * m.size ≤ size → ls.ShowsBlock target offset vs →
    Fills target size (fun k => done k ∨ offset ≤ k ∧ k < offset + vs.length * m.size)
      (m.storeBlock out offset vs)

/-- Loads that succeed one by one succeed together. -/
theorem mapM_eq_some {α β : Type} {f : α → Option β} {g : α → β} {xs : List α}
    (each : ∀ x ∈ xs, f x = some (g x)) : xs.mapM f = some (xs.map g) := by
  induction xs with
  | nil => rfl
  | cons x xs ih =>
    obtain ⟨here, others⟩ := List.forall_mem_cons.1 each
    rw [List.mapM_cons, here, ih others]
    rfl

theorem Lane.load_eq {buffer : Array UInt8} {offset : Nat} (inside : offset + 16 ≤ buffer.size) :
    Lane.load buffer offset = some (Lane.window (fun k => buffer.getD k 0) offset) := by
  rw [Lane.load, dif_pos inside]
  refine congrArg some (Vector.ext fun i lt => ?_)
  have within : offset + i < buffer.size := by omega
  rw [Lane.window, Vector.getElem_ofFn, Vector.getElem_ofFn, Array.getD_eq_getD_getElem?,
    Array.getElem?_eq_getElem within]
  rfl

/-! ### One lane -/

theorem fills_storeAll {vs : List Lane} {offset : Nat} (holds : Holds target size done out)
    (inside : offset + vs.length * 16 ≤ size)
    (shows : ∀ (k : Nat) (v : Lane), vs[k]? = some v → v = Lane.window target (offset + 16 * k)) :
    Fills target size (fun k => done k ∨ offset ≤ k ∧ k < offset + vs.length * 16)
      (storeAll Lane.store 16 out offset vs) := by
  induction vs generalizing offset done out with
  | nil => exact .pure (holds.mono fun k _ there => there.resolve_right (by simp))
  | cons v vs ih =>
    rw [List.length_cons] at inside ⊢
    obtain rfl : v = Lane.window target offset := shows 0 v rfl
    have later : ∀ (k : Nat) (v : Lane), vs[k]? = some v →
        v = Lane.window target (offset + 16 + 16 * k) := by
      intro k v found
      have same : offset + 16 * (k + 1) = offset + 16 + 16 * k := by omega
      rw [shows (k + 1) v found, same]
    exact (fills_store holds (by omega)).append (fun out holds => ih holds (by omega) later)
      (by omega)

theorem load_lanes_eq {width offset : Nat} {buffer : Array UInt8}
    (inside : offset + width * 16 ≤ buffer.size) :
    ((List.range width).mapM fun k => Lane.load buffer (offset + 16 * k)) = some
      ((List.range width).map fun k =>
        Lane.window (fun i => buffer.getD i 0) (offset + 16 * k)) := by
  refine mapM_eq_some fun k mem => Lane.load_eq ?_
  have lt := List.mem_range.1 mem
  omega

theorem Lanes.one_blockWindow (f : Nat → UInt8) (width offset k : Nat) :
    Lanes.one.blockWindow f width offset k = Lane.window f (offset + 16 * k) := by
  show Lane.window f (offset + 16 * (0 * width + k)) = _
  rw [Nat.zero_mul, Nat.zero_add]

theorem lawful_lane : Machine.lane.Lawful .one where
  size := rfl
  gather _ _ _ := rfl
  carries _ := ⟨fun _ _ _ => rfl, fun _ _ _ => rfl⟩
  load _ _ inside := Lane.load_eq inside
  store {_ _ _ _ offset v} holds inside shows := by
    obtain rfl : v = Lane.window _ offset := shows 0 (by decide)
    exact fills_store holds inside
  loadBlock {width} _ buffer offset inside := by
    refine (load_lanes_eq inside).trans (congrArg some (List.map_congr_left fun k _ => ?_))
    exact (Lanes.one_blockWindow _ width offset k).symm
  storeBlock even holds inside shows := by
    refine fills_storeAll holds inside fun k v found => ?_
    have shown := shows k v found 0 (by decide)
    rwa [Nat.zero_mul, Nat.zero_add] at shown

/-! ### Two lanes -/

theorem Wide.load_eq {buffer : Array UInt8} {offset : Nat} (inside : offset + 32 ≤ buffer.size) :
    Wide.load buffer offset = some (Lanes.two.window (fun k => buffer.getD k 0) offset) := by
  rw [Wide.load, Lane.load_eq (by omega), Lane.load_eq (by omega)]
  rfl

/-- The halves of registers in memory order, regrouped by lane. -/
theorem splitLanes_eq {width : Nat} (even : 2 ∣ width) (f : Nat → UInt8) (offset : Nat) :
    Wide.splitLanes width
        ((List.range width).map fun k => Lanes.two.window f (offset + 32 * k)) =
      some ((List.range width).map (Lanes.two.blockWindow f width offset)) := by
  obtain ⟨half, rfl⟩ := even
  refine mapM_eq_some fun k mem => ?_
  have lt := List.mem_range.1 mem
  have first : k / 2 < 2 * half := by omega
  have second : (2 * half + k) / 2 < 2 * half := by omega
  rw [List.getElem?_map, List.getElem?_map, List.getElem?_range first, List.getElem?_range second]
  show some (if k % 2 = 0 then _ else _) = some _
  refine congrArg some ?_
  split
  next low =>
    have here : offset + 32 * (k / 2) + 16 * 0 = offset + 16 * (0 * (2 * half) + k) := by omega
    have there : offset + 32 * ((2 * half + k) / 2) + 16 * 0 =
        offset + 16 * (1 * (2 * half) + k) := by omega
    show Wide.mk (Lane.window f _) (Lane.window f _) = Wide.mk (Lane.window f _) (Lane.window f _)
    rw [here, there]
  next high =>
    have here : offset + 32 * (k / 2) + 16 * 1 = offset + 16 * (0 * (2 * half) + k) := by omega
    have there : offset + 32 * ((2 * half + k) / 2) + 16 * 1 =
        offset + 16 * (1 * (2 * half) + k) := by omega
    show Wide.mk (Lane.window f _) (Lane.window f _) = Wide.mk (Lane.window f _) (Lane.window f _)
    rw [here, there]

theorem fills_storeWide (holds : Holds target size done out) {offset : Nat} {v : Wide}
    (inside : offset + 32 ≤ size) (low : v.low = Lane.window target offset)
    (high : v.high = Lane.window target (offset + 16)) :
    Fills target size (fun k => done k ∨ offset ≤ k ∧ k < offset + 32)
      (Wide.store out offset v) := by
  rw [Wide.store, low, high]
  refine (fills_store holds (by omega)).append (fun out holds => ?_) (Nat.le_refl _)
  exact fills_store holds (by omega)

/-- The low lanes of a block, two by two in registers of memory order. -/
theorem fills_joinLanes {done : Nat → Prop} {out : Array UInt8} {vs : List Wide} {offset : Nat}
    (even : 2 ∣ vs.length) (holds : Holds target size done out)
    (inside : offset + 16 * vs.length ≤ size)
    (shows : ∀ (k : Nat) (v : Wide), vs[k]? = some v →
      v.low = Lane.window target (offset + 16 * k)) :
    Fills target size (fun k => done k ∨ offset ≤ k ∧ k < offset + 16 * vs.length)
      (storeAll Wide.store 32 out offset (Wide.joinLanes vs)) := by
  match vs with
  | [] => exact .pure (holds.mono fun k _ there => there.resolve_right (by simp))
  | [v] => simp at even
  | a :: b :: rest =>
    rw [List.length_cons, List.length_cons] at even inside ⊢
    have later : ∀ (k : Nat) (v : Wide), rest[k]? = some v →
        v.low = Lane.window target (offset + 32 + 16 * k) := by
      intro k v found
      have same : offset + 16 * (k + 2) = offset + 32 + 16 * k := by omega
      rw [shows (k + 2) v found, same]
    have first : Fills target size (fun k => done k ∨ offset ≤ k ∧ k < offset + 32)
        (Wide.store out offset (Wide.lowLanes a b)) :=
      fills_storeWide holds (by omega) (shows 0 a rfl) (shows 1 b rfl)
    exact first.append (fun out holds => fills_joinLanes (by omega) holds (by omega) later)
      (by omega)

/-- The register with its lanes exchanged. -/
def Wide.exchanged (v : Wide) : Wide := ⟨v.high, v.low⟩

theorem joinHighLanes_eq (vs : List Wide) :
    Wide.joinHighLanes vs = Wide.joinLanes (vs.map Wide.exchanged) := by
  match vs with
  | [] | [_] => rfl
  | a :: b :: rest => exact congrArg _ (joinHighLanes_eq rest)

theorem load_wides_eq {width offset : Nat} {buffer : Array UInt8}
    (inside : offset + width * 32 ≤ buffer.size) :
    ((List.range width).mapM fun k => Wide.load buffer (offset + 32 * k)) = some
      ((List.range width).map fun k =>
        Lanes.two.window (fun i => buffer.getD i 0) (offset + 32 * k)) := by
  refine mapM_eq_some fun k mem => Wide.load_eq ?_
  have lt := List.mem_range.1 mem
  omega

/-- The low lanes of a block, then its high lanes. -/
theorem fills_storeSplit {vs : List Wide} {offset : Nat} (even : 2 ∣ vs.length)
    (holds : Holds target size done out) (inside : offset + vs.length * 32 ≤ size)
    (shows : Lanes.two.ShowsBlock target offset vs) :
    Fills target size (fun k => done k ∨ offset ≤ k ∧ k < offset + vs.length * 32)
      (Machine.wide.storeBlock out offset vs) := by
  have low : ∀ (k : Nat) (v : Wide), vs[k]? = some v →
      v.low = Lane.window target (offset + 16 * k) := by
    intro k v found
    have shown := shows k v found 0 (by decide)
    rwa [Nat.zero_mul, Nat.zero_add] at shown
  have high : ∀ (k : Nat) (v : Wide), (vs.map Wide.exchanged)[k]? = some v →
      v.low = Lane.window target (offset + 16 * vs.length + 16 * k) := by
    intro k v found
    rw [List.getElem?_map] at found
    obtain ⟨u, there, rfl⟩ := Option.map_eq_some_iff.1 found
    have shown := shows k u there 1 (by decide)
    rwa [Nat.one_mul, Nat.mul_add, ← Nat.add_assoc] at shown
  have count : (vs.map Wide.exchanged).length = vs.length := List.length_map _
  have upper : ∀ out, Holds target size
      (fun k => done k ∨ offset ≤ k ∧ k < offset + 16 * vs.length) out → Fills target size
        (fun k => (done k ∨ offset ≤ k ∧ k < offset + 16 * vs.length) ∨
          offset + 16 * vs.length ≤ k ∧ k < offset + 16 * vs.length + 16 * vs.length)
        (storeAll Wide.store 32 out (offset + 16 * vs.length) (Wide.joinHighLanes vs)) := by
    intro out holds
    rw [joinHighLanes_eq]
    have filled := fills_joinLanes (by rwa [count]) holds (by omega) high
    rwa [count] at filled
  exact (fills_joinLanes even holds (by omega) low).append upper (by omega)

theorem lawful_wide : Machine.wide.Lawful .two where
  size := rfl
  gather l _ _ := by
    show (if l = 0 then _ else _) = Lane.gather _ (if l = 0 then _ else _)
    split
    all_goals rfl
  carries l := by
    constructor
    · intro unit a b
      show (if l = 0 then _ else _) =
        Lane.interleaveLow unit (if l = 0 then _ else _) (if l = 0 then _ else _)
      split
      all_goals rfl
    · intro unit a b
      show (if l = 0 then _ else _) =
        Lane.interleaveHigh unit (if l = 0 then _ else _) (if l = 0 then _ else _)
      split
      all_goals rfl
  load _ _ inside := Wide.load_eq inside
  store holds inside shows :=
    fills_storeWide holds inside (shows 0 (by decide)) (shows 1 (by decide))
  loadBlock even _ offset inside := by
    show (List.range _).mapM _ >>= _ = _
    rw [load_wides_eq inside]
    exact splitLanes_eq even _ offset
  storeBlock := fills_storeSplit

end ChunkStore.Element
