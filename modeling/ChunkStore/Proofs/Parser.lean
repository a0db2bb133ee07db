import ChunkStore.Bytes.Lemmas
import ChunkStore.Proofs.Results
import ChunkStore.Proofs.Runs
import ChunkStore.Field

/-!
# What a parser reads off written bytes

`Parser.Reads p n bytes value`: standing at position `n`, `p` reads `bytes` and gives `value`,
whatever follows. Each field parser reads what the encoder of its field writes, and `Reads` is
closed under the ways in which parsers are put together, so that a structure is read field by
field. `verifyChecksum_withChecksum` is the checksum's part. Behind a signature or a version nothing
is read unless it is the expected one (`signature_bind_eq_ok_iff`, `version_bind_eq_ok_iff`). In the
other direction `Parser.Ensures p post` says what any value is like that `p` gives, whatever it
reads.
-/

namespace ChunkStore

namespace Parser

variable {α β : Type}

/-- At position `n`, `p` reads exactly `bytes` and gives `value`. -/
structure Reads (p : Parser α) (n : Nat) (bytes : Bytes) (value : α) : Prop where
  run : ∀ rest, p ⟨n, bytes ++ rest⟩ = .ok (value, ⟨n + bytes.length, rest⟩)

namespace Reads

variable {n : Nat} {bytes more : Bytes}

theorem pure (a : α) : Reads (pure a : Parser α) n [] a := ⟨fun _ => rfl⟩

/-- After a step the rest goes on with what is left. -/
theorem run_bind {p : Parser α} {a : α} (first : Reads p n bytes a) (f : α → Parser β)
    (rest : Bytes) : (p >>= f) ⟨n, bytes ++ rest⟩ = f a ⟨n + bytes.length, rest⟩ := by
  show Except.bind (p ⟨n, bytes ++ rest⟩) _ = _
  rw [first.run]
  rfl

theorem bind {p : Parser α} {f : α → Parser β} {a : α} {b : β} (first : Reads p n bytes a)
    (next : Reads (f a) (n + bytes.length) more b) : Reads (p >>= f) n (bytes ++ more) b := by
  refine ⟨fun rest => ?_⟩
  rw [List.append_assoc, first.run_bind, next.run, List.length_append, Nat.add_assoc]

/-- A step after which nothing more is read. -/
theorem bind_last {p : Parser α} {f : α → Parser β} {a : α} {b : β} (first : Reads p n bytes a)
    (next : Reads (f a) (n + bytes.length) [] b) : Reads (p >>= f) n bytes b := by
  have last := bind first next
  rwa [List.append_nil] at last

theorem bind_pure {p : Parser α} {a : α} (f : α → β) (h : Reads p n bytes a) :
    Reads (p >>= fun a => Pure.pure (f a)) n bytes (f a) := bind_last h (pure (f a))

theorem map {p : Parser α} {a : α} (f : α → β) (h : Reads p n bytes a) :
    Reads (f <$> p) n bytes (f a) := bind_pure f h

/-- A step that reads nothing, before the others. -/
theorem bind_nil {p : Parser α} {f : α → Parser β} {a : α} {b : β} (first : Reads p n [] a)
    (next : Reads (f a) n bytes b) : Reads (p >>= f) n bytes b :=
  first.bind (f := f) next

theorem ite_pos {c : Prop} [Decidable c] {p q : Parser α} {a : α} (holds : c)
    (h : Reads p n bytes a) : Reads (if c then p else q) n bytes a := by
  rwa [if_pos holds]

theorem ite_neg {c : Prop} [Decidable c] {p q : Parser α} {a : α} (fails : ¬ c)
    (h : Reads q n bytes a) : Reads (if c then p else q) n bytes a := by
  rwa [if_neg fails]

theorem lift {x : Except Error α} {a : α} (h : x = .ok a) :
    Reads (liftM x : Parser α) n [] a := by
  refine ⟨fun rest => ?_⟩
  rw [h]
  rfl

theorem run_lift_bind {x : Except Error α} {a : α} (done : x = .ok a) (f : α → Parser β)
    (c : Cursor) : ((liftM x : Parser α) >>= f) c = f a c := by
  rw [done]
  rfl

theorem position : Reads position n [] n := ⟨fun _ => rfl⟩

/-- What is made of the position goes on from there. -/
theorem run_position_bind (f : Nat → Parser β) (c : Cursor) :
    (Parser.position >>= f) c = f c.position c := rfl

/-- A check at the end gives what was read, or its error. -/
theorem run_lift_pure (x : Except Error α) (b : β) (c : Cursor) :
    ((liftM x : Parser α) >>= fun _ => Pure.pure b) c = x.map fun _ => (b, c) := by
  cases x with
  | error e => rfl
  | ok a => rfl

theorem take {count : Nat} (length : bytes.length = count) :
    Reads (take count) n bytes bytes := by
  refine ⟨fun rest => ?_⟩
  have front : (bytes ++ rest).take count = bytes := List.take_left' length
  have back : (bytes ++ rest).drop count = rest := List.drop_left' length
  simp only [Parser.take, front, back, length, if_true]

/-- The bytes that were taken are the next ones. -/
theorem eq_take {count : Nat} {c c' : Cursor} (taken : Parser.take count c = .ok (bytes, c')) :
    bytes = c.rest.take count := by
  unfold Parser.take at taken
  dsimp only at taken
  split at taken
  · cases taken
    rfl
  · cases taken

theorem skip {count : Nat} (length : bytes.length = count) : Reads (skip count) n bytes () :=
  map (fun _ => ()) (take length)

theorem uint {size : Nat} (length : bytes.length = size) (narrow : size ≤ 8) :
    Reads (uint size) n bytes (LittleEndian.decode bytes) := by
  have small : ¬ size > 8 := Nat.not_lt.2 narrow
  exact .ite_neg small (bind_pure LittleEndian.decode (take length))

/-- Of a number the bits that its width holds are read. -/
theorem uint_encode_mod {size : Nat} (narrow : size ≤ 8) (m : Nat) :
    Reads (Parser.uint size) n (LittleEndian.encode size m) (m % 256 ^ size) := by
  have read := uint (n := n) (LittleEndian.length_encode size m) narrow
  rwa [LittleEndian.decode_encode] at read

/-- A number that its width holds is read as it was written. -/
theorem uint_encode {size m : Nat} (narrow : size ≤ 8) (fits : m < 256 ^ size) :
    Reads (Parser.uint size) n (LittleEndian.encode size m) m := by
  have read := uint_encode_mod (n := n) narrow m
  rwa [Nat.mod_eq_of_lt fits] at read

theorem uint_one (b : UInt8) : Reads (Parser.uint 1) n [b] b.toNat := by
  have read : Reads (Parser.uint 1) n [b] (LittleEndian.decode [b]) := uint rfl (by decide)
  rwa [LittleEndian.decode, LittleEndian.decode, Nat.mul_zero, Nat.add_zero] at read

theorem byte (b : UInt8) : Reads byte n [b] b := by
  have read := bind_pure UInt8.ofNat (uint_one (n := n) b)
  rwa [UInt8.ofNat_toNat] at read

theorem word16 (w : UInt16) : Reads word16 n (LittleEndian.encode 2 w.toNat) w := by
  have number : Reads (Parser.uint 2) n (LittleEndian.encode 2 w.toNat) w.toNat :=
    uint_encode (by decide) w.toNat_lt
  have read := bind_pure UInt16.ofNat number
  rwa [UInt16.ofNat_toNat] at read

theorem word32 (w : UInt32) : Reads word32 n (LittleEndian.encode 4 w.toNat) w := by
  have number : Reads (Parser.uint 4) n (LittleEndian.encode 4 w.toNat) w.toNat :=
    uint_encode (by decide) w.toNat_lt
  have read := bind_pure UInt32.ofNat number
  rwa [UInt32.ofNat_toNat] at read

theorem length {widths : FileWidths} {m : Nat} (fits : m < 256 ^ widths.lengthSize) :
    Reads (Parser.length widths) n (LittleEndian.encode widths.lengthSize m) m :=
  uint_encode widths.length.bytes_le fits

theorem signature {expected : Bytes} {part : Part} (four : expected.length = 4) :
    Reads (Parser.signature expected part) n expected () :=
  bind_last (take four) (ite_neg (fun differ => differ rfl) (pure ()))

theorem version (expected : UInt8) (part : Part) :
    Reads (Parser.version expected part) n [expected] () :=
  bind_last (byte expected) (ite_neg (fun differ => differ rfl) (pure ()))

/-- Items one after another, each read off the bytes that an encoder wrote for it. -/
theorem times {γ : Type} {p : Parser α} {encode : γ → Bytes} {value : γ → α} {items : List γ}
    (each : ∀ n, ∀ item ∈ items, Reads p n (encode item) (value item)) :
    Reads (times p items.length) n (items.flatMap encode) (items.map value) := by
  induction items generalizing n with
  | nil => exact .pure []
  | cons item items ih =>
    rw [List.flatMap_cons]
    refine .bind (each n item List.mem_cons_self) ?_
    exact bind_pure (value item :: ·) (ih fun n x hx => each n x (List.mem_cons_of_mem item hx))

/-- Items of one width, read off bytes that no encoder need have written. -/
theorem times_takeChunks {p : Parser α} {value : Bytes → α} {width count : Nat}
    (each : ∀ n raw, raw.length = width → Reads p n raw (value raw))
    (whole : bytes.length = count * width) :
    Reads (Parser.times p count) n bytes ((takeChunks width count bytes).map value) := by
  have read : Reads (Parser.times p (takeChunks width count bytes).length) n
      ((takeChunks width count bytes).flatMap id) ((takeChunks width count bytes).map value) :=
    times fun n raw mem => each n raw (length_of_mem_takeChunks whole.ge raw mem)
  rwa [length_takeChunks, List.flatMap_id, flatten_takeChunks whole] at read

theorem parse {p : Parser α} {a : α} (h : Reads p 0 bytes a) (rest : Bytes) :
    p.parse (bytes ++ rest) = .ok a := by
  show (p ⟨0, bytes ++ rest⟩).map Prod.fst = _
  rw [h.run]
  rfl

end Reads

/-! ## What a check lets through -/

section

variable {n : Nat} {rest : Bytes} {part : Part} {f : Unit → Parser β} {r : β × Cursor}

theorem run_bind_error {p : Parser α} {f : α → Parser β} {c : Cursor} {e : Error}
    (failed : p c = .error e) : (p >>= f) c = .error e := by
  show Except.bind (p c) _ = _
  rw [failed]
  rfl

/-- What stands behind a signature is read when the signature is the expected one. -/
theorem signature_bind_eq_ok_iff {expected front : Bytes} (four : front.length = 4) :
    (signature expected part >>= f) ⟨n, front ++ rest⟩ = .ok r ↔
      front = expected ∧ f () ⟨n + 4, rest⟩ = .ok r := by
  by_cases same : front = expected
  · subst same
    rw [(Reads.signature four).run_bind, four, and_iff_right rfl]
  · have refused : signature expected part ⟨n, front ++ rest⟩ =
        .error (.badSignature part front) := by
      rw [signature, (Reads.take four).run_bind]
      exact congrFun (if_pos same) _
    rw [run_bind_error refused]
    exact iff_of_false nofun fun both => same both.1

theorem version_bind_eq_ok_iff {expected b : UInt8} :
    (version expected part >>= f) ⟨n, [b] ++ rest⟩ = .ok r ↔
      b = expected ∧ f () ⟨n + 1, rest⟩ = .ok r := by
  by_cases same : b = expected
  · subst same
    rw [(Reads.version b part).run_bind, List.length_singleton, and_iff_right rfl]
  · have refused : version expected part ⟨n, [b] ++ rest⟩ =
        .error (.unsupportedVersion part b.toNat) := by
      rw [version, (Reads.byte b).run_bind]
      exact congrFun (if_pos same) _
    rw [run_bind_error refused]
    exact iff_of_false nofun fun both => same both.1

end

/-! ## What a parser's values are like -/

/-- Every value that `p` gives has the property `post`. -/
structure Ensures (p : Parser α) (post : α → Prop) : Prop where
  run : ∀ {c a c'}, p c = .ok (a, c') → post a

namespace Ensures

theorem any (p : Parser α) : Ensures p fun _ => True := ⟨fun _ => trivial⟩

theorem pure {a : α} {post : α → Prop} (h : post a) : Ensures (pure a : Parser α) post :=
  ⟨fun done => by cases done; exact h⟩

theorem throw (e : Error) (post : α → Prop) : Ensures (throw e : Parser α) post :=
  ⟨fun done => by cases done⟩

theorem lift {x : Except Error α} {post : α → Prop} (h : ∀ a, x = .ok a → post a) :
    Ensures (liftM x : Parser α) post := by
  refine ⟨fun done => ?_⟩
  cases x with
  | error e => cases done
  | ok b =>
    cases done
    exact h _ rfl

theorem bind {p : Parser α} {f : α → Parser β} {between : α → Prop} {post : β → Prop}
    (first : Ensures p between) (next : ∀ a, between a → Ensures (f a) post) :
    Ensures (p >>= f) post := by
  refine ⟨fun done => ?_⟩
  obtain ⟨⟨a, c⟩, here, done⟩ := bind_eq_ok_iff.1 done
  exact (next a (first.run here)).run done

theorem bind_any {p : Parser α} {f : α → Parser β} {post : β → Prop}
    (next : ∀ a, Ensures (f a) post) : Ensures (p >>= f) post :=
  (any p).bind fun a _ => next a

/-- A check that was passed. -/
theorem guard {c : Prop} [Decidable c] {e : Error} {f : PUnit → Parser α} {post : α → Prop}
    (next : ¬ c → Ensures (f ⟨⟩) post) :
    Ensures (if c then MonadExcept.throw e >>= f else f ⟨⟩) post := by
  split
  · exact (throw e fun _ => False).bind fun _ never => never.elim
  next fails => exact next fails

theorem take (count : Nat) : Ensures (Parser.take count) fun bytes => bytes.length = count := by
  refine ⟨fun done => ?_⟩
  unfold Parser.take at done
  dsimp only at done
  split at done
  next length =>
    cases done
    exact length
  next => cases done

theorem uint (size : Nat) : Ensures (Parser.uint size) fun n => n < 256 ^ size := by
  unfold Parser.uint
  apply guard
  intro narrow
  refine (take size).bind fun bytes length => pure ?_
  rw [← length]
  exact LittleEndian.decode_lt bytes

theorem times {p : Parser α} {post : α → Prop} (each : Ensures p post) (count : Nat) :
    Ensures (Parser.times p count) fun items => items.length = count ∧ ∀ a ∈ items, post a := by
  induction count with
  | zero => exact pure ⟨rfl, fun _ none => by cases none⟩
  | succ count ih =>
    refine each.bind fun item head => ih.bind fun items rest => pure ⟨?_, ?_⟩
    · rw [List.length_cons, rest.1]
    · intro a mem
      rcases List.mem_cons.1 mem with rfl | later
      · exact head
      · exact rest.2 a later

theorem parse {p : Parser α} {post : α → Prop} (h : Ensures p post) {bytes : Bytes} {a : α}
    (done : p.parse bytes = .ok a) : post a := by
  obtain ⟨⟨b, c⟩, run, rfl⟩ := map_eq_ok_iff.1 done
  exact h.run run

end Ensures

/-! ## Addresses -/

theorem undefinedAddress_mod (w : IntWidth) :
    undefinedAddress % 256 ^ w.bytes + 1 = 256 ^ w.bytes := by
  cases w <;> decide

/-- An address that its width holds and that is not the undefined one's bits, or the undefined
one. -/
def Addressable (widths : FileWidths) (address : Nat) : Prop :=
  address + 1 < 256 ^ widths.offsetSize ∨ address = undefinedAddress

instance (widths : FileWidths) (address : Nat) : Decidable (Addressable widths address) :=
  inferInstanceAs (Decidable (_ ∨ _))

theorem ne_undefinedAddress {widths : FileWidths} {address : Nat}
    (fits : address + 1 < 256 ^ widths.offsetSize) : address ≠ undefinedAddress := by
  have wide : 256 ^ widths.offsetSize ≤ 256 ^ 8 :=
    Nat.pow_le_pow_right (by decide) widths.offset.bytes_le
  have top : 256 ^ 8 = undefinedAddress + 1 := by decide
  omega

/-- What a length field holds has 64 bits. -/
theorem pow_lengthSize_le (widths : FileWidths) : 256 ^ widths.lengthSize ≤ UInt64.size :=
  Nat.pow_le_pow_right (show 0 < 256 by decide) widths.length.bytes_le

theorem all_eq_ff_iff {bytes : Bytes} :
    bytes.all (· == 0xff) = true ↔ LittleEndian.decode bytes + 1 = 256 ^ bytes.length := by
  induction bytes with
  | nil => simp [LittleEndian.decode]
  | cons b bytes ih =>
    have byte : b.toNat < 256 := b.toNat_lt
    have below := LittleEndian.decode_lt bytes
    rw [List.all_cons, Bool.and_eq_true, ih, LittleEndian.decode, List.length_cons, Nat.pow_succ,
      beq_iff_eq, ← UInt8.toNat_inj]
    show b.toNat = 255 ∧ _ ↔ _
    omega

theorem Reads.rawAddress {widths : FileWidths} {n : Nat} {raw : Bytes}
    (length : raw.length = widths.offsetSize) :
    Reads (Parser.address widths) n raw (addressOf raw) :=
  bind_pure addressOf (take length)

theorem Reads.address {widths : FileWidths} {n a : Nat} (fits : Addressable widths a) :
    Reads (Parser.address widths) n (LittleEndian.encode widths.offsetSize a) a := by
  have read : Reads (Parser.address widths) n _ _ :=
    rawAddress (LittleEndian.length_encode widths.offsetSize a)
  have value : addressOf (LittleEndian.encode widths.offsetSize a) = a := by
    rw [addressOf]
    have all := @all_eq_ff_iff (LittleEndian.encode widths.offsetSize a)
    rw [LittleEndian.decode_encode, LittleEndian.length_encode] at all
    rcases fits with below | rfl
    · rw [Nat.mod_eq_of_lt (by omega)] at all
      rw [if_neg (fun h => by have := all.1 h; omega),
        LittleEndian.decode_encode_of_lt (by omega)]
    · rw [if_pos (all.2 (undefinedAddress_mod widths.offset))]
  rwa [value] at read

theorem Ensures.address (widths : FileWidths) :
    Ensures (Parser.address widths) (Addressable widths) := by
  refine (Ensures.take widths.offsetSize).bind fun raw length => .pure ?_
  have below := LittleEndian.decode_lt raw
  unfold addressOf
  split
  · exact .inr rfl
  next some =>
    rw [all_eq_ff_iff] at some
    rw [length] at below some
    exact .inl (by omega)

end Parser

/-! ## Checksums -/

theorem length_withChecksum (bytes : Bytes) : (withChecksum bytes).length = bytes.length + 4 := by
  rw [withChecksum, List.length_append, LittleEndian.length_encode]

/-- A structure passes under the checksum that was written after it. -/
theorem verifyChecksum_withChecksum {bytes : Bytes} {covered : Nat} (part : Part) (address : Nat)
    (all : covered = bytes.length) (fits : bytes.length + 4 ≤ maxWord) :
    verifyChecksum (withChecksum bytes) covered part address = .ok () := by
  subst all
  have word : slice (withChecksum bytes) bytes.length 4 =
      LittleEndian.encode 4 (Checksum.lookup3 bytes).toNat := by
    rw [withChecksum, slice, List.drop_left]
    exact List.take_of_length_le (by rw [LittleEndian.length_encode])
  have front : (withChecksum bytes).take bytes.length = bytes := List.take_left
  have value : UInt32.ofNat (LittleEndian.decode
      (LittleEndian.encode 4 (Checksum.lookup3 bytes).toNat)) = Checksum.lookup3 bytes := by
    rw [LittleEndian.decode_encode_of_lt (Checksum.lookup3 bytes).toNat_lt, UInt32.ofNat_toNat]
  simp only [verifyChecksum, word, front, value, Bounds.within, if_pos fits,
    LittleEndian.length_encode, Nat.lt_irrefl, if_false, ne_eq, not_true_eq_false]
  rfl

end ChunkStore
