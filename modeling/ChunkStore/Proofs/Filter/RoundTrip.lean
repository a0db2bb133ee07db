import ChunkStore.Bytes.Lemmas
import ChunkStore.Filter.Builtin
import ChunkStore.Proofs.Element.Loops
import ChunkStore.Proofs.Results
import ChunkStore.Proofs.Zlib.RoundTrip

/-!
# Filters undone

A codec that reads back what it writes (`Codec.RoundTrips`) may stand anywhere in a pipeline:
`Registry.decode_encode` undoes a whole pipeline, whichever optional filters were left out, under
any pipeline whose entries agree with those that were applied. `Codec.shuffle`, `Codec.fletcher`
and `Codec.deflateBy` with any library that loses nothing are such codecs. Of the codecs of other
filters it is enough that they read back in the context they wrote in (`Codec.Inverts`): then
`Registry.Reversible.decode_encode_self` undoes a pipeline under itself.
-/

namespace ChunkStore

/-- The entries ask for the same filter; their names may differ. -/
def FilterEntry.Agrees (f g : FilterEntry) : Prop :=
  f.id = g.id ∧ f.flags = g.flags ∧ f.clientData = g.clientData

theorem Pipeline.isEmpty_of_agrees {p p' : Pipeline}
    (agree : List.Forall₂ FilterEntry.Agrees p.filters p'.filters) : p'.isEmpty = p.isEmpty := by
  have length := agree.length_eq
  rw [isEmpty, isEmpty, Bool.eq_iff_iff, List.isEmpty_iff_length_eq_zero,
    List.isEmpty_iff_length_eq_zero, length]

/-! ## Codecs -/

namespace Codec

/-- What the codec writes in the first context it reads back in the second, if the hint of that one
allows for the data. -/
def Undoes (codec : Codec) (ctx ctx' : FilterContext) : Prop :=
  ∀ ⦃data stored : Bytes⦄, codec.encode ctx data = .ok stored →
    (ctx'.outputHint = 0 ∨ data.length ≤ ctx'.outputHint) → codec.decode ctx' stored = .ok data

/-- What the codec writes it reads back in the context that it wrote it in. -/
def Inverts (codec : Codec) : Prop :=
  ∀ ⦃ctx : FilterContext⦄ ⦃data stored : Bytes⦄, codec.encode ctx data = .ok stored →
    codec.decode ctx stored = .ok data

/-- What the codec writes it reads back, for entries that agree and under any hint. -/
def Restores (codec : Codec) : Prop :=
  ∀ {ctx ctx' : FilterContext} {data stored : Bytes}, codec.encode ctx data = .ok stored →
    ctx.entry.Agrees ctx'.entry → ctx.elementSize = ctx'.elementSize →
      codec.decode ctx' stored = .ok data

/-- What the codec writes it reads back, for entries that agree and under every hint that allows
for the data and that memory has room for. -/
def RoundTrips (codec : Codec) : Prop :=
  ∀ {ctx ctx' : FilterContext}, ctx.entry.Agrees ctx'.entry → ctx.elementSize = ctx'.elementSize →
    ctx'.outputHint < UInt64.size / 2 → codec.Undoes ctx ctx'

section Kinds

variable {codec : Codec}

theorem Restores.roundTrips (restores : codec.Restores) : codec.RoundTrips :=
  fun agrees size _ _ _ encoded _ => restores encoded agrees size

theorem Restores.inverts (restores : codec.Restores) : codec.Inverts :=
  fun _ _ _ encoded => restores encoded ⟨rfl, rfl, rfl⟩ rfl

theorem Inverts.undoes (inverts : codec.Inverts) (ctx : FilterContext) : codec.Undoes ctx ctx :=
  fun _ _ encoded _ => inverts encoded

end Kinds

theorem mapError_eq_ok_iff {α ε ε' : Type} {x : Except ε α} {f : ε → ε'} {a : α} :
    x.mapError f = .ok a ↔ x = .ok a := by
  cases x with
  | error e => simp [Except.mapError]
  | ok b => simp [Except.mapError]

theorem length_shuffle {ctx : FilterContext} {data stored : Bytes}
    (encoded : shuffle.encode ctx data = .ok stored) : stored.length = data.length := by
  simp only [shuffle] at encoded
  split at encoded
  · cases encoded
    rfl
  · obtain ⟨-, -, rfl⟩ :=
      (Element.Transform.whole_eq_ok_iff .shuffle).1 (mapError_eq_ok_iff.1 encoded)
    exact Element.length_transpose ..

theorem restores_shuffle : shuffle.Restores := by
  intro ctx ctx' data stored encoded agrees size
  have width : shuffleWidth ctx' = shuffleWidth ctx := by
    simp only [shuffleWidth, ← agrees.2.2, ← size]
  have length := length_shuffle encoded
  simp only [shuffle] at encoded ⊢
  rw [width]
  split at encoded
  next narrow =>
    cases encoded
    rw [if_pos narrow]
  next wide =>
    obtain ⟨pos, whole, rfl⟩ :=
      (Element.Transform.whole_eq_ok_iff .shuffle).1 (mapError_eq_ok_iff.1 encoded)
    rw [if_neg wide, mapError_eq_ok_iff]
    exact (Element.Transform.whole_eq_ok_iff .unshuffle).2
      ⟨pos, by rwa [length], (Element.untranspose_transpose whole).symm⟩

theorem restores_fletcher : fletcher.Restores := by
  intro ctx ctx' data stored encoded _ _
  cases encoded
  have front : (data ++ LittleEndian.encode 4 (Checksum.fletcher32 data).toNat).length - 4 =
      data.length := by simp
  have sum := LittleEndian.decode_encode_of_lt
    (show (Checksum.fletcher32 data).toNat < 256 ^ 4 from (Checksum.fletcher32 data).toNat_lt)
  show checkFletcher _ = _
  simp only [checkFletcher, front, List.take_left, List.drop_left]
  simp [sum]

/-- Any library that loses nothing will do, and it may compress by any level. -/
theorem roundTrips_deflateBy {σ ε : Type} [ToString ε] {library : Zlib.Library σ ε}
    (lossless : library.Lossless) : (deflateBy library).RoundTrips := by
  intro ctx ctx' _ _ held data stored encoded allows
  have compressed := mapError_eq_ok_iff.1 encoded
  exact mapError_eq_ok_iff.2 (lossless.decompress_eq compressed allows held)

end Codec

/-! ## Masks -/

/-- Noting a filter at one place changes nothing at the others. -/
theorem isMasked_or {i j : Nat} (hi : i < 32) (hj : j < 32) (mask : UInt32) :
    isMasked (mask ||| maskBit i) j = (isMasked mask j || decide (i = j)) := by
  have bits : ∀ i j : Fin 32, (maskBit i.val &&& maskBit j.val = 0) ↔ i ≠ j := by decide +kernel
  have here := bits ⟨i, hi⟩ ⟨j, hj⟩
  have distrib : (mask ||| maskBit i) &&& maskBit j =
      (mask &&& maskBit j) ||| (maskBit i &&& maskBit j) := by
    apply UInt32.toNat_inj.1
    simp [Nat.and_or_distrib_right]
  simp only [Fin.mk.injEq, ne_eq] at here
  rw [isMasked, isMasked, distrib, Bool.eq_iff_iff]
  simp only [bne_iff_ne, ne_eq, UInt32.or_eq_zero_iff, Bool.or_eq_true, decide_eq_true_eq, here]
  tauto

/-! ## Pipelines -/

namespace Registry

variable {r : Registry} {p p' : Pipeline} {size bytes : Nat}

/-- The filter at one place was applied, or it is optional and was noted in the mask. -/
theorem encodeStep_cases {chunk next : Encoded} {f : FilterEntry} {k : Nat}
    (step : r.encodeStep p size bytes chunk (f, k) = .ok next) :
    (∃ codec, r.codecOf f = .ok codec ∧
      codec.encode ⟨f, k, size, bytes, outputHint p k bytes⟩ chunk.data = .ok next.data ∧
        next.mask = chunk.mask) ∨
    next = ⟨chunk.data, chunk.mask ||| maskBit k⟩ := by
  unfold encodeStep at step
  dsimp only at step
  cases result : (do
      let codec ← r.codecOf f
      codec.encode ⟨f, k, size, bytes, outputHint p k bytes⟩ chunk.data) with
  | ok data =>
    rw [result] at step
    cases step
    obtain ⟨codec, found, encoded⟩ := bind_eq_ok_iff.1 result
    exact .inl ⟨codec, found, encoded, rfl⟩
  | error e =>
    rw [result] at step
    dsimp only at step
    split at step
    · cases step
      exact .inr rfl
    · cases step

theorem codecOf_congr {f g : FilterEntry} {codec : Codec} (sameId : f.id = g.id)
    (found : r.codecOf f = .ok codec) : r.codecOf g = .ok codec := by
  unfold codecOf at *
  rw [← sameId]
  split at found
  next here =>
    cases found
    rfl
  · cases found

theorem get?_of_codecOf {f : FilterEntry} {codec : Codec} (found : r.codecOf f = .ok codec) :
    r.get? f.id = some codec := by
  unfold codecOf at found
  split at found
  next here =>
    cases found
    exact here
  · cases found

/-- Every codec that the first pipeline uses undoes its filter in the second, which has a filter
with the same identifier at each place. -/
structure Undone (r : Registry) (p p' : Pipeline) (size bytes : Nat)
    (related : FilterEntry → FilterEntry → Prop) : Prop where
  sameId : ∀ {f g}, related f g → f.id = g.id
  undoes : ∀ {f g codec k}, f ∈ p.filters → related f g → r.codecOf f = .ok codec →
    codec.Undoes ⟨f, k, size, bytes, outputHint p k bytes⟩
      ⟨g, k, size, bytes, outputHint p' k bytes⟩
  keeps : ∀ {f codec}, f ∈ p.filters → f.id = shuffleId → r.codecOf f = .ok codec →
    ∀ {ctx data stored}, codec.encode ctx data = .ok stored → stored.length = data.length

/-- Filters from place `k` on are undone: `before` are those that come before them. -/
theorem Undone.foldlM_decodeStep {related : FilterEntry → FilterEntry → Prop}
    (undone : r.Undone p p' size bytes related) {before filters filters' : List FilterEntry}
    {k : Nat} {chunk out : Encoded} (agree : List.Forall₂ related filters filters')
    (some : ∀ f ∈ filters, f ∈ p.filters)
    (rest : p'.filters = before ++ filters') (place : before.length = k)
    (few : k + filters.length ≤ 32)
    (hint : before.all (fun f => f.id == shuffleId) = true → chunk.data.length ≤ bytes)
    (free : ∀ i, k ≤ i → i < 32 → isMasked chunk.mask i = false)
    (run : (filters.zipIdx k).foldlM (r.encodeStep p size bytes) chunk = .ok out) :
    (∀ i < k, isMasked out.mask i = isMasked chunk.mask i) ∧
      (filters'.zipIdx k).reverse.foldlM (r.decodeStep p' out.mask size bytes) out.data =
        .ok chunk.data := by
  induction agree generalizing before k chunk with
  | nil =>
    cases run
    exact ⟨fun _ _ => rfl, rfl⟩
  | @cons f g filters filters' same _ ih =>
    rw [List.length_cons] at few
    rw [List.zipIdx_cons, List.foldlM_cons] at run
    obtain ⟨next, step, run⟩ := bind_eq_ok_iff.1 run
    have here : k < 32 := by omega
    have used : f ∈ p.filters := some f List.mem_cons_self
    have front : p'.filters.take k = before := by rw [rest, List.take_left' place]
    -- What the step did, to the data and to the mask.
    obtain ⟨maskFree, maskBelow, shuffled, undo⟩ :
        (∀ i, k + 1 ≤ i → i < 32 → isMasked next.mask i = false) ∧
        (∀ i < k, isMasked next.mask i = isMasked chunk.mask i) ∧
        ((before ++ [g]).all (fun f => f.id == shuffleId) = true → next.data.length ≤ bytes) ∧
        (isMasked out.mask k = isMasked next.mask k →
          r.decodeStep p' out.mask size bytes next.data (g, k) = .ok chunk.data) := by
      rcases encodeStep_cases step with ⟨codec, found, encoded, mask⟩ | rfl
      · refine ⟨?_, ?_, ?_, ?_⟩
        · intro i above lt
          rw [mask]
          exact free i (by omega) lt
        · intro i below
          rw [mask]
        · intro all
          rw [List.all_append, Bool.and_eq_true] at all
          have shuffles : f.id = shuffleId := by
            rw [undone.sameId same]
            simpa using all.2
          rw [undone.keeps used shuffles found encoded]
          exact hint all.1
        · intro asBefore
          have unmasked : isMasked out.mask k = false := by
            rw [asBefore, mask]
            exact free k (Nat.le_refl k) here
          have allows : outputHint p' k bytes = 0 ∨
              chunk.data.length ≤ outputHint p' k bytes := by
            rw [outputHint, front]
            split
            next all => exact .inr (hint all)
            next => exact .inl rfl
          rw [decodeStep, unmasked, codecOf_congr (undone.sameId same) found]
          exact undone.undoes used same found encoded allows
      · refine ⟨?_, ?_, ?_, ?_⟩
        · intro i above lt
          rw [isMasked_or here lt, free i (by omega) lt]
          simp
          omega
        · intro i below
          rw [isMasked_or here (by omega)]
          simp
          omega
        · intro all
          rw [List.all_append, Bool.and_eq_true] at all
          exact hint all.1
        · intro asBefore
          have masked : isMasked out.mask k = true := by
            rw [asBefore, isMasked_or here here]
            simp
          rw [decodeStep, masked]
          rfl
    obtain ⟨earlier, later⟩ := @ih (before ++ [g]) (k + 1) next
      (fun f mem => some f (List.mem_cons_of_mem _ mem)) (by rw [rest]; simp)
      (by simp [place]) (by omega) shuffled maskFree run
    constructor
    · intro i below
      rw [earlier i (by omega), maskBelow i below]
    · rw [List.zipIdx_cons, List.reverse_cons, List.foldlM_append, later]
      have last := undo (earlier k (Nat.lt_succ_self k))
      show (List.foldlM _ next.data [(g, k)] : Except Error Bytes) = _
      rw [List.foldlM_cons, last]
      rfl

/-- A pipeline is undone under the mask that its application noted. -/
theorem Undone.decode_eq {related : FilterEntry → FilterEntry → Prop} {data : Bytes}
    {out : Encoded} (undone : r.Undone p p' size data.length related)
    (agree : List.Forall₂ related p.filters p'.filters) (few : p.filters.length ≤ 32)
    (encoded : r.encode p data size = .ok out) :
    r.decode p' out.mask out.data size data.length = .ok data := by
  have free : ∀ i, 0 ≤ i → i < 32 → isMasked 0 i = false := by
    intro i _ _
    simp [isMasked]
  have all := @Undone.foldlM_decodeStep r p p' size data.length related undone [] p.filters
    p'.filters 0 ⟨data, 0⟩ out agree (fun _ mem => mem) (List.nil_append _).symm rfl (by omega)
    (fun _ => Nat.le_refl _) free encoded
  exact all.2

/-- A pipeline is undone under every other one whose entries agree with its own. -/
theorem decode_encode {data : Bytes} {out : Encoded}
    (agree : List.Forall₂ FilterEntry.Agrees p.filters p'.filters)
    (few : p.filters.length ≤ 32) (held : data.length < UInt64.size / 2)
    (codecs : ∀ f ∈ p.filters, ∀ codec, r.codecOf f = .ok codec → codec.RoundTrips)
    (keeps : ∀ f ∈ p.filters, f.id = shuffleId → ∀ codec, r.codecOf f = .ok codec →
      ∀ ctx data stored, codec.encode ctx data = .ok stored → stored.length = data.length)
    (encoded : r.encode p data size = .ok out) :
    r.decode p' out.mask out.data size data.length = .ok data := by
  have undone : r.Undone p p' size data.length FilterEntry.Agrees :=
    { sameId := fun agrees => agrees.1
      undoes := fun used agrees found =>
        codecs _ used _ found agrees rfl (Nat.lt_of_le_of_lt (outputHint_le ..) held)
      keeps := fun used id found _ _ _ => keeps _ used id _ found _ _ _ }
  exact undone.decode_eq agree few encoded

/-- Shuffling, the Fletcher-32 checksum, and deflating by the given library. -/
structure Standard {σ ε : Type} [ToString ε] (r : Registry) (library : Zlib.Library σ ε) :
    Prop where
  shuffle : r.get? shuffleId = some .shuffle
  fletcher : r.get? fletcherId = some .fletcher
  deflate : r.get? deflateId = some (.deflateBy library)

theorem standard_builtin : builtin.Standard Zlib.storing := ⟨rfl, rfl, rfl⟩

end Registry

/-- At most 32 filters, each of them one of the three. -/
structure Pipeline.Standard (p : Pipeline) : Prop where
  few : p.filters.length ≤ 32
  known : ∀ f ∈ p.filters, f.id = shuffleId ∨ f.id = fletcherId ∨ f.id = deflateId

/-- Every pipeline of the three filters is undone, with any library that loses nothing. -/
theorem Registry.Standard.decode_encode {σ ε : Type} [ToString ε] {library : Zlib.Library σ ε}
    {r : Registry} (standard : r.Standard library) (lossless : library.Lossless) {p p' : Pipeline}
    (usual : p.Standard) (agree : List.Forall₂ FilterEntry.Agrees p.filters p'.filters)
    {size : Nat} {data : Bytes} (held : data.length < UInt64.size / 2) {out : Encoded}
    (encoded : r.encode p data size = .ok out) :
    r.decode p' out.mask out.data size data.length = .ok data := by
  have codecOf : ∀ {f : FilterEntry} {codec codec' : Codec}, r.get? f.id = some codec' →
      r.codecOf f = .ok codec → codec = codec' := by
    intro f codec codec' known found
    rw [Registry.codecOf, known] at found
    cases found
    rfl
  apply Registry.decode_encode agree usual.few held ?_ ?_ encoded
  · intro f mem codec found
    rcases usual.known f mem with id | id | id
    · rw [codecOf (id ▸ standard.shuffle) found]
      exact Codec.restores_shuffle.roundTrips
    · rw [codecOf (id ▸ standard.fletcher) found]
      exact Codec.restores_fletcher.roundTrips
    · rw [codecOf (id ▸ standard.deflate) found]
      exact Codec.roundTrips_deflateBy lossless
  · intro f _ id codec found ctx data stored encoded
    rw [codecOf (id ▸ standard.shuffle) found] at encoded
    exact Codec.length_shuffle encoded

namespace Codec

end Codec

namespace Registry

/-- Shuffling and the Fletcher-32 checksum under their identifiers, and under that of deflating a
codec that undoes itself where its hint allows; all others but scale-offset invert. -/
structure Reversible (r : Registry) : Prop where
  shuffle : r.get? shuffleId = some .shuffle
  fletcher : r.get? fletcherId = some .fletcher
  deflate : ∃ codec, r.get? deflateId = some codec ∧ ∀ ctx, codec.Undoes ctx ctx
  others : ∀ {id codec}, r.get? id = some codec → id ≠ shuffleId → id ≠ fletcherId →
    id ≠ deflateId → id ≠ scaleOffsetId → codec.Inverts

namespace Reversible

variable {r : Registry}

/-- Each codec but scale-offset undoes itself in every context whose hint allows for the data. -/
theorem undoes (reversible : r.Reversible) {id : UInt16} {codec : Codec}
    (found : r.get? id = some codec) (other : id ≠ scaleOffsetId) (ctx : FilterContext) :
    codec.Undoes ctx ctx := by
  by_cases shuffles : id = shuffleId
  · rw [shuffles, reversible.shuffle] at found
    cases found
    exact Codec.restores_shuffle.inverts.undoes ctx
  by_cases sums : id = fletcherId
  · rw [sums, reversible.fletcher] at found
    cases found
    exact Codec.restores_fletcher.inverts.undoes ctx
  by_cases deflates : id = deflateId
  · obtain ⟨deflate, registered, undoes⟩ := reversible.deflate
    rw [deflates, registered] at found
    cases found
    exact undoes ctx
  exact (reversible.others found shuffles sums deflates other).undoes ctx

end Reversible

end Registry

end ChunkStore
