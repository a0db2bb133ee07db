import ChunkStore.Filter.Pipeline
import ChunkStore.Proofs.Filter.RoundTrip
import ChunkStore.Proofs.Parser
import ChunkStore.Proofs.Utf8

/-!
# The filter pipeline message read back

A pipeline comes back from its message with the same filters (`Pipeline.parse_serialize`), of which
only the names may differ: the message cuts them off or leaves them out. Names without a zero byte
that have room in the message come back as they are, unless version 2 leaves them out, and so a
pipeline with such names comes back as a whole (`Pipeline.parse_serialize_eq`).
-/

namespace ChunkStore

open ChunkStore.Parser

namespace Pipeline

/-- The version of the message that is written for a pipeline. -/
def written (version : UInt8) : UInt8 := if version = 1 then 1 else 2

/-- The fields of an entry fit into their places in the message. -/
structure Fits (version : UInt8) (f : FilterEntry) : Prop where
  words : f.clientData.length < 256 ^ 2
  name : hasNameField version f.id = true → (nameField version f.name).length < 256 ^ 2

theorem paddedLength_nameField (name : Option String) :
    paddedLength (nameField 1 name).length = (nameField 1 name).length := by
  simp only [nameField, if_true, List.length_append, List.length_replicate]
  generalize (if (Utf8.encode (name.getD "")).isEmpty then [] else
    Utf8.encode (name.getD "") ++ [0]).length = n
  simp only [paddedLength]
  omega

/-- The name that is read back. -/
def restoredName (version : UInt8) (f : FilterEntry) : Option String :=
  if hasNameField version f.id then
    if (nameField version f.name).length = 0 then none else some (nameOf (nameField version f.name))
  else none

/-- The length of the name field stands before the flags. -/
theorem reads_parseNameLength {version : UInt8} {f : FilterEntry} (fits : Fits version f)
    (n : Nat) : Reads (parseNameLength version f.id) n
      (if hasNameField version f.id then
        LittleEndian.encode 2 (nameField version f.name).length else [])
      (if hasNameField version f.id then (nameField version f.name).length else 0) := by
  unfold parseNameLength
  split
  next named => exact .uint_encode (by decide) (fits.name named)
  next => exact .pure 0

/-- The name itself stands after the count of words. -/
theorem reads_parseName (version : UInt8) (f : FilterEntry) (n : Nat) {length : Nat}
    (given : length =
      if hasNameField version f.id then (nameField version f.name).length else 0) :
    Reads (parseName version length) n
      (if hasNameField version f.id then nameField version f.name else [])
      (restoredName version f) := by
  unfold parseName
  unfold restoredName
  split at given
  next named =>
    subst given
    rw [if_pos named, if_pos named]
    split
    next empty =>
      rw [List.length_eq_zero_iff.1 empty]
      exact .pure none
    next some =>
      -- Version 1 reads on to a multiple of eight bytes, to which the field was filled up.
      have count : (nameField version f.name).length =
          if version = 1 then paddedLength (nameField version f.name).length
          else (nameField version f.name).length := by
        split
        next one =>
          rw [one]
          exact (paddedLength_nameField f.name).symm
        next => rfl
      have read := Reads.bind_pure
        (fun raw : Bytes => Option.some (nameOf (raw.take (nameField version f.name).length)))
        (Reads.take (n := n) count)
      rwa [List.take_length] at read
  next unnamed =>
    rw [if_pos given, if_neg unnamed, if_neg unnamed]
    exact .pure none

theorem reads_parseFilter {version : UInt8} {f : FilterEntry} (fits : Fits version f) (n : Nat) :
    Reads (parseFilter version) n (serializeFilter version f)
      { f with name := restoredName version f } := by
  have parts : serializeFilter version f = LittleEndian.encode 2 f.id.toNat ++
      ((if hasNameField version f.id then
          LittleEndian.encode 2 (nameField version f.name).length else []) ++
        (LittleEndian.encode 2 f.flags.toNat ++ (LittleEndian.encode 2 f.clientData.length ++
          ((if hasNameField version f.id then nameField version f.name else []) ++
            (f.clientData.flatMap (fun word => LittleEndian.encode 4 word.toNat) ++
              (if version = 1 ∧ f.clientData.length % 2 = 1 then List.replicate 4 0
                else [])))))) := by
    simp only [serializeFilter, List.append_assoc]
  have words : ∀ n, Reads (times word32 f.clientData.length) n
      (f.clientData.flatMap fun word => LittleEndian.encode 4 word.toNat) f.clientData := by
    intro n
    have read : Reads (times word32 f.clientData.length) n
        (f.clientData.flatMap fun word => LittleEndian.encode 4 word.toNat)
        (f.clientData.map id) := .times fun n word _ => .word32 word
    rwa [List.map_id] at read
  have padding : ∀ n, Reads (skipPadding version f.clientData.length) n
      (if version = 1 ∧ f.clientData.length % 2 = 1 then List.replicate 4 0 else []) () := by
    intro n
    unfold skipPadding
    split
    · exact .skip rfl
    · exact .pure ()
  rw [parts]
  refine .bind (.word16 f.id) (.bind (reads_parseNameLength fits _) ?_)
  refine .bind (.word16 f.flags) (.bind (.uint_encode (by decide) fits.words) ?_)
  refine .bind (reads_parseName version f _ rfl) (.bind (words _) ?_)
  exact .bind_last (padding _) (.pure _)

/-- A message is its version, the number of its filters, the padding of version 1 and the
filters. -/
theorem serialize_eq (p : Pipeline) :
    p.serialize = [written p.version] ++ ([UInt8.ofNat p.filters.length] ++
      ((if written p.version = 1 then List.replicate 6 0 else []) ++
        p.filters.flatMap (serializeFilter (written p.version)))) := by
  simp [serialize, written]

/-- No message is written of a version that is not read. -/
theorem written_known (version : UInt8) : ¬ (written version ≠ 1 ∧ written version ≠ 2) := by
  unfold written
  split
  · simp
  · simp

/-- A written pipeline is read with the names that the message keeps, to the last byte of it. -/
theorem reads_serialize {p : Pipeline} (count : p.filters.length < 256)
    (fits : ∀ f ∈ p.filters, Fits (written p.version) f) :
    Reads parser 0 p.serialize ⟨written p.version, p.filters.map fun f =>
      { f with name := restoredName (written p.version) f }⟩ := by
  have number : (UInt8.ofNat p.filters.length).toNat = p.filters.length :=
    UInt8.toNat_ofNat_of_lt' count
  have filters : ∀ n, Reads (times (parseFilter (written p.version)) p.filters.length) n
      (p.filters.flatMap (serializeFilter (written p.version)))
      (p.filters.map fun f => { f with name := restoredName (written p.version) f }) :=
    fun n => .times fun n f mem => reads_parseFilter (fits f mem) n
  rw [serialize_eq]
  refine .bind (.byte _) (.bind (.byte _) (.ite_neg (written_known _) ?_))
  rw [number]
  split
  · exact .bind (.skip rfl) (.bind_pure _ (filters _))
  · exact .bind_pure _ (filters _)

/-- A written pipeline is read with the names that the message keeps, whatever follows it. -/
theorem parse_serialize_append {p : Pipeline} (count : p.filters.length < 256)
    (fits : ∀ f ∈ p.filters, Fits (written p.version) f) (rest : Bytes) :
    parse (p.serialize ++ rest) = .ok ⟨written p.version, p.filters.map fun f =>
      { f with name := restoredName (written p.version) f }⟩ :=
  (reads_serialize count fits).parse rest

/-- A written pipeline is read with the same filters, up to their names. -/
theorem parse_serialize {p : Pipeline} (count : p.filters.length < 256)
    (fits : ∀ f ∈ p.filters, Fits (written p.version) f) :
    ∃ p', parse p.serialize = .ok p' ∧ List.Forall₂ FilterEntry.Agrees p.filters p'.filters := by
  have read := parse_serialize_append count fits []
  rw [List.append_nil] at read
  refine ⟨_, read, ?_⟩
  rw [List.forall₂_map_right_iff]
  exact List.forall₂_same.2 fun f _ => ⟨rfl, rfl, rfl⟩

/-- The message counts the words of a filter in two bytes, so `2 ^ 16` words are read as none. -/
theorem parse_serialize_of_many_words {f : FilterEntry} (predefined : f.id < 256)
    (many : f.clientData.length = 2 ^ 16) :
    parse (ofFilters [f]).serialize =
      .ok (ofFilters [{ f with name := none, clientData := [] }]) := by
  have unnamed : hasNameField 2 f.id = false := by
    rw [hasNameField, Bool.or_eq_false_iff]
    exact ⟨rfl, decide_eq_false (by simpa using predefined)⟩
  have counted : LittleEndian.encode 2 f.clientData.length = LittleEndian.encode 2 0 := by
    rw [many]
    decide
  have cut : (ofFilters [f]).serialize = (ofFilters [{ f with clientData := [] }]).serialize ++
      f.clientData.flatMap fun word => LittleEndian.encode 4 word.toNat := by
    simp [serialize, ofFilters, serializeFilter, counted]
  have read := @parse_serialize_append (ofFilters [{ f with clientData := [] }])
    (show 1 < 256 by decide)
    (fun g mem => ?_) (f.clientData.flatMap fun word => LittleEndian.encode 4 word.toNat)
  · rw [cut, read]
    simp [ofFilters, written, restoredName, unnamed]
  · rw [List.mem_singleton.1 mem]
    exact ⟨show 0 < 256 ^ 2 by decide, fun named => by cases unnamed.symm.trans named⟩

/-! ## Names -/

/-- A name that a message gives back: it has characters, none of them of number zero, and at most
`room` bytes. -/
structure Nameable (room : Nat) (name : String) : Prop where
  nonempty : name ≠ ""
  nonzero : ∀ c ∈ name.toList, c.toNat ≠ 0
  bytes : (Utf8.encode name).length ≤ room

/-- The most bytes of a name, which a zero byte and in version 1 others follow. -/
def nameRoom (version : UInt8) : Nat := if version = 1 then 65527 else 65534

/-- What the message says of a filter: version 2 leaves out the names of the filters below 256. -/
def kept (version : UInt8) (f : FilterEntry) : FilterEntry :=
  if version = 2 ∧ f.id < 256 then { f with name := none } else f

/-- The pipeline is of a version that there is, and its counts and names have room in the
message. -/
structure Representable (p : Pipeline) : Prop where
  version : p.version = 1 ∨ p.version = 2
  count : p.filters.length ≤ 255
  words : ∀ f ∈ p.filters, f.clientData.length ≤ 65535
  names : ∀ f ∈ p.filters, ∀ name, f.name = some name → Nameable (nameRoom p.version) name

theorem nameField_none (version : UInt8) : nameField version none = [] := by
  unfold nameField
  split
  · rfl
  · rfl

/-- A name field holds the name, a zero byte and what fills up version 1. -/
theorem nameField_eq {name : String} (nonempty : name ≠ "") (version : UInt8) :
    nameField version (some name) = Utf8.encode name ++ 0 :: List.replicate
      (if version = 1 then paddedLength ((Utf8.encode name).length + 1) -
        ((Utf8.encode name).length + 1) else 0) 0 := by
  have text : ¬ (Utf8.encode name).isEmpty = true := fun none =>
    nonempty (Utf8.encode_eq_nil_iff.1 (List.isEmpty_iff.1 none))
  unfold nameField
  dsimp only [Option.getD_some]
  rw [if_neg text]
  split
  · rw [List.length_append, List.length_singleton, List.append_assoc, List.singleton_append]
  · rfl

theorem nameOf_nameField {room : Nat} {name : String} (nameable : Nameable room name)
    (version : UInt8) : nameOf (nameField version (some name)) = name := by
  have text : ∀ b ∈ Utf8.encode name, decide (b ≠ 0) = true := by
    intro b mem
    exact decide_eq_true fun zero => Utf8.zero_notMem_encode nameable.nonzero (zero ▸ mem)
  rw [nameOf, nameField_eq nameable.nonempty, List.takeWhile_append_of_pos text,
    List.takeWhile_cons_of_neg (by decide), List.append_nil, Utf8.decodeLossy_encode]

/-- A name that has room has a field with a length in two bytes. -/
theorem length_nameField {version : UInt8} {name : String}
    (nameable : Nameable (nameRoom version) name) :
    0 < (nameField version (some name)).length ∧
      (nameField version (some name)).length < 256 ^ 2 := by
  have bytes := nameable.bytes
  rw [nameField_eq nameable.nonempty, List.length_append, List.length_cons, List.length_replicate]
  unfold nameRoom at bytes
  split at bytes
  next one =>
    rw [if_pos one, paddedLength]
    omega
  next other =>
    rw [if_neg other]
    omega

namespace Representable

variable {p : Pipeline} {f : FilterEntry}

theorem fits (representable : p.Representable) (mem : f ∈ p.filters) : Fits p.version f := by
  have words := representable.words f mem
  refine ⟨by omega, fun _ => ?_⟩
  cases name : f.name with
  | none =>
    rw [nameField_none]
    decide
  | some name' => exact (length_nameField (representable.names f mem name' name)).2

/-- A name that has a field is read back from it. -/
theorem restoredName_of_named (representable : p.Representable) (mem : f ∈ p.filters)
    (named : hasNameField p.version f.id = true) : restoredName p.version f = f.name := by
  rw [restoredName, if_pos named]
  cases name : f.name with
  | none => rw [nameField_none, if_pos List.length_nil]
  | some name' =>
    have nameable := representable.names f mem name' name
    have some := (length_nameField nameable).1
    rw [if_neg (by omega), nameOf_nameField nameable]

/-- What is read back of a filter is what the message says of it. -/
theorem restored_eq (representable : p.Representable) (mem : f ∈ p.filters) :
    { f with name := restoredName p.version f } = kept p.version f := by
  unfold kept
  split
  next out =>
    have unnamed : hasNameField p.version f.id = false := by
      rw [hasNameField, out.1, Bool.or_eq_false_iff]
      exact ⟨rfl, decide_eq_false (UInt16.not_le.2 out.2)⟩
    rw [restoredName, unnamed]
    rfl
  next inside =>
    have named : hasNameField p.version f.id = true := by
      rw [hasNameField, Bool.or_eq_true]
      rcases representable.version with one | two
      · exact .inl (beq_iff_eq.2 one)
      · exact .inr (decide_eq_true (UInt16.not_lt.1 fun below => inside ⟨two, below⟩))
    rw [representable.restoredName_of_named mem named]

end Representable

/-- A pipeline is read from its message as it was written: its version and its filters in their
order, with their identifiers, flags and words, and with the names that the version has. -/
theorem parse_serialize_eq {p : Pipeline} (representable : p.Representable) :
    parse p.serialize = .ok ⟨p.version, p.filters.map (kept p.version)⟩ := by
  have version : written p.version = p.version := by
    rcases representable.version with one | two
    · rw [one]
      rfl
    · rw [two]
      rfl
  have read := parse_serialize_append (p := p) (Nat.lt_succ_of_le representable.count)
    (fun f mem => by rw [version]; exact representable.fits mem) []
  rw [List.append_nil, version] at read
  rw [read, List.map_congr_left fun f mem => representable.restored_eq mem]

/-- Names of two and of four bytes: in version 1 any filter may have one, in version 2 that of the
filter below 256 is left out. -/
theorem parse_serialize_eq_of_names :
    parse (serialize ⟨1, [⟨1, some "é", 1, [7]⟩, ⟨1, none, 65535, [8, 9]⟩]⟩) =
      .ok ⟨1, [⟨1, some "é", 1, [7]⟩, ⟨1, none, 65535, [8, 9]⟩]⟩ ∧
    parse (serialize ⟨2, [⟨255, some "é", 0, []⟩, ⟨256, some "𝄞", 0, [7]⟩]⟩) =
      .ok ⟨2, [⟨255, none, 0, []⟩, ⟨256, some "𝄞", 0, [7]⟩]⟩ := by
  have single : ∀ {room : Nat} {name : String} {c : Char}, name.toList = [c] → c.toNat ≠ 0 →
      (Utf8.encode name).length ≤ room → Nameable room name := by
    intro room name c chars some bytes
    refine ⟨?_, ?_, bytes⟩
    · rintro rfl
      cases chars
    · rw [chars]
      exact List.forall_mem_singleton.2 some
  have accent : ∀ room, 2 ≤ room → Nameable room "é" := fun room wide =>
    single (by decide +kernel : "é".toList = ['é']) (by decide) (le_trans (by decide +kernel) wide)
  have clef : Nameable 65534 "𝄞" :=
    single (by decide +kernel : "𝄞".toList = ['𝄞']) (by decide) (by decide +kernel)
  constructor
  · refine parse_serialize_eq ⟨.inl rfl, by decide, by decide,
      List.forall_mem_cons.2 ⟨?_, List.forall_mem_singleton.2 nofun⟩⟩
    intro name same
    obtain rfl := Option.some.inj same
    exact accent _ (by decide)
  · refine parse_serialize_eq ⟨.inr rfl, by decide, by decide,
      List.forall_mem_cons.2 ⟨?_, List.forall_mem_singleton.2 ?_⟩⟩
    · intro name same
      obtain rfl := Option.some.inj same
      exact accent _ (by decide)
    · intro name same
      obtain rfl := Option.some.inj same
      exact clef

end Pipeline

end ChunkStore
