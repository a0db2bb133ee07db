import ChunkStore.Proofs.Filter.Mask
import ChunkStore.Proofs.ScaleOffset.RoundTrip

/-!
# Pipelines that pack integers

Shuffles and checksums are undone wherever they stand. Scale-offset packs as many bytes as its
parameters say, and undoes so many only if a chunk has room for them. `Registry.packsMore` says at
which places it packs more than the chunk because earlier filters added to it. A pipeline of these
filters reads back what it wrote exactly when there is no such place, and refuses its own chunk
otherwise (`Registry.decode_integers_iff`).
-/

namespace ChunkStore

open ScaleOffset

/-! ## Single filters -/

namespace Codec

/-- How a chunk is refused that has no room for what scale-offset would unpack. -/
def Refuses (bytes : Nat) (result : Except Error Bytes) : Prop :=
  ∃ count size, bytes < count * size ∧
    result = .error (.corrupt .scaleOffsetParameters (.decodedElements count size bytes))

/-- What scale-offset packs it unpacks if the chunk has room, and refuses otherwise. -/
theorem unpack_of_encode {ctx : FilterContext} {data stored : Bytes}
    (integers : ∀ q, Parameters.ofClientData ctx.entry.clientData = .ok q →
      q.numberClass = .integer) (packed : scaleOffset.encode ctx data = .ok stored) :
    (data.length ≤ ctx.chunkBytes → unpack ctx stored = .ok data) ∧
    (ctx.chunkBytes < data.length → Refuses ctx.chunkBytes (unpack ctx stored)) := by
  obtain ⟨q, parsed, packed⟩ := bind_eq_ok_iff.1 packed
  obtain ⟨-, length⟩ := encode_eq_ok packed
  have unpacked := decode_of_encode (integers q parsed) packed
  rw [unpack, parsed]
  constructor
  · intro room
    rw [length] at room
    exact (if_neg (Nat.not_lt.2 room)).trans unpacked
  · intro full
    rw [length] at full
    exact ⟨_, _, full, if_pos full⟩

end Codec

/-! ## Pipelines -/

/-- A shuffle, a checksum, or scale-offset for integers. -/
def FilterEntry.IsForIntegers (f : FilterEntry) : Prop :=
  f.id = shuffleId ∨ f.id = fletcherId ∨ f.id = scaleOffsetId ∧
    ∀ q, Parameters.ofClientData f.clientData = .ok q → q.numberClass = .integer

namespace Registry

open Codec (Refuses)

variable {p : Pipeline} {data : Bytes} {size : Nat}

/-- Whether the filter at place `k` is scale-offset, and packs more bytes than the chunk has. -/
def packsMore (r : Registry) (p : Pipeline) (data : Bytes) (elementSize k : Nat) : Bool :=
  match p.filters[k]?, r.encodedBefore p data elementSize k with
  | some f, .ok chunk =>
    f.id == scaleOffsetId && !r.leavesOut p data elementSize k && data.length < chunk.data.length
  | _, _ => false

/-- The filters before place `k` that were applied, undone, last first. -/
def undoBefore (r : Registry) (p : Pipeline) (data : Bytes) (elementSize k : Nat) (stored : Bytes) :
    Except Error Bytes :=
  ((p.filters.zipIdx.take k).filter fun (_, i) => !r.leavesOut p data elementSize i).reverse.foldlM
    (r.undo p elementSize data.length) stored

/-- A filter that was applied is undone, unless it packed more than the chunk has. -/
theorem undo_of_apply {f : FilterEntry} {k bytes : Nat} {before after : Bytes}
    (known : f.IsForIntegers) (applied : builtin.apply p size bytes before (f, k) = .ok after) :
    (¬ (f.id = scaleOffsetId ∧ bytes < before.length) →
      builtin.undo p size bytes after (f, k) = .ok before) ∧
    (f.id = scaleOffsetId ∧ bytes < before.length →
      Refuses bytes (builtin.undo p size bytes after (f, k))) := by
  obtain ⟨codec, found, encoded⟩ := bind_eq_ok_iff.1 applied
  have undone : builtin.undo p size bytes after (f, k) =
      codec.decode ⟨f, k, size, bytes, outputHint p k bytes⟩ after := by
    rw [undo, found]
    rfl
  rw [undone]
  have registered := get?_of_codecOf found
  rcases known with shuffles | sums | ⟨packs, integers⟩
  · rw [shuffles, standard_builtin.shuffle] at registered
    cases registered
    refine ⟨fun _ => Codec.restores_shuffle.inverts encoded, fun more => ?_⟩
    exact absurd (shuffles.symm.trans more.1) (by decide)
  · rw [sums, standard_builtin.fletcher] at registered
    cases registered
    refine ⟨fun _ => Codec.restores_fletcher.inverts encoded, fun more => ?_⟩
    exact absurd (sums.symm.trans more.1) (by decide)
  · rw [packs, show builtin.get? scaleOffsetId = some .scaleOffset from rfl] at registered
    cases registered
    obtain ⟨room, full⟩ := Codec.unpack_of_encode integers encoded
    refine ⟨fun enough => room ?_, fun more => full more.2⟩
    exact Nat.not_lt.1 fun more => enough ⟨packs, more⟩

theorem undoBefore_succ {r : Registry} {k : Nat} {f : FilterEntry} (there : p.filters[k]? = some f)
    (stored : Bytes) : r.undoBefore p data size (k + 1) stored =
      if r.leavesOut p data size k then r.undoBefore p data size k stored
      else r.undo p size data.length stored (f, k) >>= r.undoBefore p data size k := by
  have numbered : p.filters.zipIdx[k]? = some (f, k) := by simp [there]
  unfold undoBefore
  rw [List.take_add_one, numbered, List.filter_append, List.reverse_append]
  cases left : r.leavesOut p data size k with
  | true => simp [left]
  | false => simp [left]

theorem packsMore_iff {k : Nat} {f : FilterEntry} {chunk : Encoded}
    (there : p.filters[k]? = some f) (before : builtin.encodedBefore p data size k = .ok chunk) :
    builtin.packsMore p data size k = true ↔ builtin.leavesOut p data size k = false ∧
      f.id = scaleOffsetId ∧ data.length < chunk.data.length := by
  simp only [packsMore, there, before, Bool.and_eq_true, beq_iff_eq, Bool.not_eq_true',
    decide_eq_true_eq]
  tauto

/-- One place further reading back meets the same chunk, or is refused there. -/
theorem undoBefore_step {k : Nat} {chunk next : Encoded} (known : ∀ f ∈ p.filters, f.IsForIntegers)
    (inside : k < p.filters.length) (before : builtin.encodedBefore p data size k = .ok chunk)
    (after : builtin.encodedBefore p data size (k + 1) = .ok next) :
    (builtin.packsMore p data size k = false →
      builtin.undoBefore p data size (k + 1) next.data =
        builtin.undoBefore p data size k chunk.data) ∧
    (builtin.packsMore p data size k = true →
      Refuses data.length (builtin.undoBefore p data size (k + 1) next.data)) := by
  have there : p.filters[k]? = some p.filters[k] := List.getElem?_eq_getElem inside
  rw [undoBefore_succ there, ← Bool.not_eq_true, packsMore_iff there before]
  rcases encodedBefore_cases there before after with ⟨left, rfl⟩ | ⟨kept, -, applied⟩
  · rw [if_pos left, left]
    exact ⟨fun _ => rfl, fun more => by cases more.1⟩
  · obtain ⟨undone, refused⟩ := undo_of_apply (known _ (List.getElem_mem inside)) applied
    rw [kept, if_neg Bool.false_ne_true]
    constructor
    · intro less
      rw [undone fun more => less ⟨rfl, more⟩]
      rfl
    · intro more
      obtain ⟨count, bytes, large, failed⟩ := refused more.2
      rw [failed]
      exact ⟨count, bytes, large, rfl⟩

/-- Reading back what came to place `k`: the first chunk again, unless scale-offset before that
place packed more than the chunk has. -/
theorem undoBefore_encodedBefore (known : ∀ f ∈ p.filters, f.IsForIntegers) {k : Nat}
    {chunk : Encoded} (inside : k ≤ p.filters.length)
    (before : builtin.encodedBefore p data size k = .ok chunk) :
    ((∀ i < k, builtin.packsMore p data size i = false) →
      builtin.undoBefore p data size k chunk.data = .ok data) ∧
    (∀ i < k, builtin.packsMore p data size i = true →
      Refuses data.length (builtin.undoBefore p data size k chunk.data)) := by
  induction k generalizing chunk with
  | zero =>
    rw [encodedBefore_zero] at before
    cases before
    exact ⟨fun _ => rfl, fun i lt => absurd lt (Nat.not_lt_zero i)⟩
  | succ k ih =>
    obtain ⟨earlier, reached⟩ := exists_encodedBefore inside before
    obtain ⟨reads, refuses⟩ := ih (Nat.le_of_succ_le inside) reached
    obtain ⟨same, refused⟩ := undoBefore_step known inside reached before
    cases here : builtin.packsMore p data size k with
    | false =>
      rw [same here]
      refine ⟨fun none => reads fun i lt => none i (Nat.lt_succ_of_lt lt), fun i lt more => ?_⟩
      rcases Nat.lt_succ_iff_lt_or_eq.1 lt with less | rfl
      · exact refuses i less more
      · rw [here] at more
        cases more
    | true =>
      refine ⟨fun none => ?_, fun _ _ _ => refused here⟩
      rw [none k (Nat.lt_succ_self k)] at here
      cases here

/-- What a pipeline of at most 32 filters wrote is undone by undoing what it applied. -/
theorem decode_eq_undoBefore {r : Registry} {out : Encoded} (few : p.filters.length ≤ 32)
    (encoded : r.encode p data size = .ok out) :
    r.decode p out.mask out.data size data.length =
      r.undoBefore p data size p.filters.length out.data := by
  rw [decode_eq_foldlM, undoBefore, List.take_of_length_le (by simp)]
  congr 2
  apply List.filter_congr
  rintro ⟨f, k⟩ mem
  have inside : k < p.filters.length := by
    have := List.mem_zipIdx mem
    omega
  show (!isMasked out.mask k) = !r.leavesOut p data size k
  rw [isMasked_encodedBefore (Nat.le_refl _) (encodedBefore_length.trans encoded)]
  simp [inside, show k < 32 by omega]

/-- A pipeline of at most 32 shuffles, checksums and scale-offset filters for integers reads back
what it wrote, unless scale-offset packed more than the chunk has; then its own chunk is refused. -/
theorem decode_integers_iff (few : p.filters.length ≤ 32)
    (known : ∀ f ∈ p.filters, f.IsForIntegers) {out : Encoded}
    (encoded : builtin.encode p data size = .ok out) :
    (builtin.decode p out.mask out.data size data.length = .ok data ↔
      ∀ k, builtin.packsMore p data size k = false) ∧
    ∀ k, builtin.packsMore p data size k = true →
      Refuses data.length (builtin.decode p out.mask out.data size data.length) := by
  obtain ⟨reads, refuses⟩ := undoBefore_encodedBefore known (Nat.le_refl _)
    (encodedBefore_length.trans encoded)
  rw [decode_eq_undoBefore few encoded]
  have inside : ∀ k, builtin.packsMore p data size k = true → k < p.filters.length := by
    intro k more
    by_contra outside
    simp [packsMore, List.getElem?_eq_none (Nat.le_of_not_lt outside)] at more
  refine ⟨⟨?_, fun none => reads fun k _ => none k⟩, fun k more => refuses k (inside k more) more⟩
  intro done k
  by_contra more
  rw [Bool.not_eq_false] at more
  obtain ⟨_, _, -, failed⟩ := refuses k (inside k more) more
  rw [done] at failed
  cases failed

/-- Four bytes and their checksum are packed as eight elements, more than a chunk of four bytes has
room for. -/
theorem refuses_packed_checksum : ∃ (p : Pipeline) (out : Encoded),
    p.filters.map FilterEntry.id = [fletcherId, scaleOffsetId] ∧
    (∀ f ∈ p.filters, f.IsForIntegers) ∧
    builtin.encode p [1, 2, 3, 4] 1 = .ok out ∧ builtin.packsMore p [1, 2, 3, 4] 1 1 = true ∧
    builtin.decode p out.mask out.data 1 4 ≠ .ok [1, 2, 3, 4] ∧
    Refuses 4 (builtin.decode p out.mask out.data 1 4) := by
  let p : Pipeline := .ofFilters [⟨3, none, 0, []⟩, ⟨6, none, 0, [2, 0, 8, 0, 1, 0, 0, 0]⟩]
  have known : ∀ f ∈ p.filters, f.IsForIntegers := by
    intro f mem
    rcases List.mem_cons.1 mem with rfl | mem
    · exact .inr (.inl rfl)
    · rw [List.mem_singleton.1 mem]
      exact .inr (.inr ⟨rfl, fun q parsed => by cases parsed; rfl⟩)
  have encoded : builtin.encode p [1, 2, 3, 4] 1 =
      .ok ⟨[3, 0, 0, 0, 8, 1, 0, 0, 0, 0, 0, 0, 0, 0, 0, 0, 0, 0, 0, 0, 0, 5, 58, 252], 0⟩ := by
    decide +kernel
  have more : builtin.packsMore p [1, 2, 3, 4] 1 1 = true := by decide +kernel
  have few : p.filters.length ≤ 32 := by decide
  obtain ⟨reads, refuses⟩ := decode_integers_iff few known encoded
  refine ⟨p, _, rfl, known, encoded, more, fun done => ?_, refuses 1 more⟩
  have less := reads.1 done 1
  rw [more] at less
  cases less

end Registry

end ChunkStore
