import ChunkStore.Proofs.Message.Pipeline
import Mathlib.Data.List.TakeWhile

/-!
# Parsed pipelines written again

A pipeline that was parsed from any message is written again and parsed. What comes back is the
same pipeline exactly when each of its names has characters and, with the zero byte and the padding
after it, fewer than `2 ^ 16` bytes (`parse_serialize_iff`): an empty name is written as no name,
and a longer name with the length that two bytes hold of its own. Nothing else of a pipeline is
lost.
-/

namespace ChunkStore

open ChunkStore.Parser

namespace Pipeline

/-! ## What is parsed -/

/-- A filter as a message describes it. -/
structure Described (version : UInt8) (f : FilterEntry) : Prop where
  words : f.clientData.length < 256 ^ 2
  nonzero : ∀ name, f.name = some name → ∀ c ∈ name.toList, c.toNat ≠ 0
  unnamed : ¬ hasNameField version f.id → f.name = none

theorem nonzero_nameOf (raw : Bytes) : ∀ c ∈ (nameOf raw).toList, c.toNat ≠ 0 := by
  rw [nameOf, Utf8.decodeLossy, String.toList_ofList]
  refine Utf8.nonzero_of_mem_decodeChars fun mem => ?_
  have nonzero := List.all_eq_true.1 List.all_takeWhile 0 mem
  cases nonzero

theorem ensures_parseName (version : UInt8) (length : Nat) :
    Ensures (parseName version length) fun name =>
      (∀ text, name = some text → ∀ c ∈ text.toList, c.toNat ≠ 0) ∧ (length = 0 → name = none) := by
  unfold parseName
  split
  next => exact .pure ⟨nofun, fun _ => rfl⟩
  next some =>
    refine .bind_any fun raw => .pure ⟨?_, fun zero => absurd zero some⟩
    rintro _ ⟨⟩
    exact nonzero_nameOf _

theorem ensures_parseFilter (version : UInt8) :
    Ensures (parseFilter version) (Described version) := by
  refine .bind_any fun id => ?_
  have length : Ensures (parseNameLength version id) fun length =>
      ¬ hasNameField version id → length = 0 := by
    unfold parseNameLength
    split
    next named => exact ⟨fun _ unnamed => absurd named unnamed⟩
    next => exact .pure fun _ => rfl
  refine length.bind fun length none => .bind_any fun flags => ?_
  refine (Ensures.uint 2).bind fun words few => ?_
  refine (ensures_parseName version length).bind fun name given => ?_
  refine (Ensures.times (.any _) words).bind fun clientData count => .bind_any fun _ => .pure ?_
  exact ⟨count.1 ▸ few, given.1, fun unnamed => given.2 (none unnamed)⟩

/-- A pipeline as a message describes it. -/
structure Parsed (p : Pipeline) : Prop where
  version : p.version = 1 ∨ p.version = 2
  count : p.filters.length < 256
  filters : ∀ f ∈ p.filters, Described p.version f

theorem ensures_parsed : Ensures parser Parsed := by
  refine .bind_any fun version => .bind_any fun count => .guard fun known => ?_
  have known : version = 1 ∨ version = 2 := by
    by_contra neither
    exact known (not_or.1 neither)
  have filters : Ensures (do
      return (⟨version, ← times (parseFilter version) count.toNat⟩ : Pipeline)) Parsed := by
    refine (Ensures.times (ensures_parseFilter version) _).bind fun filters given => .pure ?_
    exact ⟨known, by rw [given.1]; exact count.toNat_lt, given.2⟩
  split
  · exact .bind_any fun _ => filters
  · exact filters

theorem Parsed.written_eq {p : Pipeline} (parsed : p.Parsed) : written p.version = p.version := by
  rcases parsed.version with one | two
  · rw [one]
    rfl
  · rw [two]
    rfl

/-! ## Names that come back -/

/-- The field of a name has room in the message. -/
def HasRoom (version : UInt8) (name : String) : Prop :=
  (Utf8.encode name).length ≤ nameRoom version

instance (version : UInt8) (name : String) : Decidable (HasRoom version name) :=
  inferInstanceAs (Decidable (_ ≤ _))

/-- The filter without a name that has no characters. -/
def withoutEmptyName (f : FilterEntry) : FilterEntry :=
  { f with name := f.name.filter (· ≠ "") }

theorem length_nameField_lt_iff {name : String} (nonempty : name ≠ "") (version : UInt8) :
    (nameField version (some name)).length < 256 ^ 2 ↔ HasRoom version name := by
  rw [HasRoom, nameRoom, nameField_eq nonempty, List.length_append, List.length_cons,
    List.length_replicate]
  split
  · rw [paddedLength]
    omega
  · omega

theorem nameField_empty (version : UInt8) : nameField version (some "") = [] := by
  unfold nameField
  split
  all_goals rfl

variable {version : UInt8} {f : FilterEntry}

theorem Described.fits (described : Described version f)
    (room : ∀ name, f.name = some name → HasRoom version name) : Fits version f := by
  refine ⟨described.words, fun _ => ?_⟩
  cases given : f.name with
  | none =>
    rw [nameField_none]
    decide
  | some name =>
    by_cases empty : name = ""
    · rw [empty, nameField_empty]
      decide
    · exact (length_nameField_lt_iff empty version).2 (room name given)

theorem Described.restoredName_eq (described : Described version f)
    (room : ∀ name, f.name = some name → HasRoom version name) :
    restoredName version f = f.name.filter (· ≠ "") := by
  unfold restoredName
  split
  next named =>
    cases given : f.name with
    | none => rw [nameField_none, if_pos List.length_nil, Option.filter_none]
    | some name =>
      by_cases empty : name = ""
      · rw [empty, nameField_empty, if_pos List.length_nil]
        rfl
      · have nameable : Nameable (nameRoom version) name :=
          ⟨empty, described.nonzero name given, room name given⟩
        have some := (length_nameField nameable).1
        rw [if_neg (by omega), nameOf_nameField nameable, Option.filter_some,
          if_pos (decide_eq_true empty)]
  next unnamed => rw [described.unnamed unnamed, Option.filter_none]

/-- Where every name has room only the empty ones are lost. -/
theorem Parsed.parse_serialize_of_room {p : Pipeline} (parsed : p.Parsed)
    (room : ∀ f ∈ p.filters, ∀ name, f.name = some name → HasRoom p.version name) :
    parse p.serialize = .ok ⟨p.version, p.filters.map withoutEmptyName⟩ := by
  have read := parse_serialize_append parsed.count (fun f mem => by
    rw [parsed.written_eq]
    exact (parsed.filters f mem).fits (room f mem)) []
  rw [List.append_nil, parsed.written_eq] at read
  rw [read]
  congr 2
  refine List.map_congr_left fun f mem => ?_
  rw [(parsed.filters f mem).restoredName_eq (room f mem)]
  rfl

/-! ## Names that do not come back -/

/-- The name is written such that it is read back: it has characters, and room. -/
def Lasting (version : UInt8) (name : String) : Prop := name ≠ "" ∧ HasRoom version name

/-- A name field is the name, a zero byte and seven bytes of padding at most. -/
theorem length_nameField_le {name : String} (nonempty : name ≠ "") (version : UInt8) :
    (Utf8.encode name).length < (nameField version (some name)).length ∧
      (nameField version (some name)).length ≤ (Utf8.encode name).length + 8 := by
  rw [nameField_eq nonempty, List.length_append, List.length_cons, List.length_replicate]
  split
  · rw [paddedLength]
    omega
  · omega

/-- Of a name that is cut off by more than twelve bytes the same name is not read again. -/
theorem length_le_of_nameOf_take {name : String} (nonzero : ∀ c ∈ name.toList, c.toNat ≠ 0)
    {n : Nat} (read : nameOf ((Utf8.encode name).take n) = name) :
    (Utf8.encode name).length ≤ n + 12 := by
  have text : ∀ b ∈ (Utf8.encode name).take n, decide (b ≠ 0) = true := by
    intro b mem
    exact decide_eq_true fun zero =>
      Utf8.zero_notMem_encode nonzero (zero ▸ List.mem_of_mem_take mem)
  rw [nameOf, List.takeWhile_eq_self_iff.2 text, Utf8.decodeLossy] at read
  have chars := congrArg String.toList read
  rw [String.toList_ofList] at chars
  exact Utf8.length_le_of_decodeChars_take chars

/-- A name is read back from its field only if it lasts: of a longer one only the length modulo
`2 ^ 16` is written. -/
theorem lasting_of_parseName {name : String} (nonzero : ∀ c ∈ name.toList, c.toNat ≠ 0) {n : Nat}
    {rest : Bytes} {c : Cursor}
    (read : parseName version ((nameField version (some name)).length % 256 ^ 2)
      ⟨n, nameField version (some name) ++ rest⟩ = .ok (some name, c)) :
    Lasting version name := by
  have nonempty : name ≠ "" := by
    rintro rfl
    rw [nameField_empty] at read
    cases read
  refine ⟨nonempty, (length_nameField_lt_iff nonempty version).1 (Nat.lt_of_not_le fun long => ?_)⟩
  obtain ⟨above, below⟩ := length_nameField_le nonempty version
  -- What is read lies within the name, far from its end.
  generalize count : (nameField version (some name)).length % 256 ^ 2 = length at read
  have inside : length ≤ (Utf8.encode name).length := by omega
  unfold parseName at read
  split at read
  · cases read
  obtain ⟨⟨raw, c'⟩, taken, given⟩ := bind_eq_ok_iff.1 read
  have given : nameOf (raw.take length) = name := by
    cases given
    rfl
  have front : raw.take length = (Utf8.encode name).take length := by
    have most : length ≤ if version = 1 then paddedLength length else length := by
      split
      · rw [paddedLength]
        omega
      · exact Nat.le_refl _
    rw [Reads.eq_take taken, List.take_take, Nat.min_eq_left most, nameField_eq nonempty,
      List.append_assoc, List.take_append_of_le_length inside]
  rw [front] at given
  have near := length_le_of_nameOf_take nonzero given
  omega

/-- A filter is read back from what was written for it only if its name lasts. -/
theorem Described.lasting_of_parseFilter (described : Described version f) {n : Nat} {rest : Bytes}
    {c : Cursor}
    (read : parseFilter version ⟨n, serializeFilter version f ++ rest⟩ = .ok (f, c)) :
    ∀ name, f.name = some name → Lasting version name := by
  intro name given
  by_cases named : hasNameField version f.id = true
  · have parts : serializeFilter version f ++ rest = LittleEndian.encode 2 f.id.toNat ++
        (LittleEndian.encode 2 (nameField version f.name).length ++
          (LittleEndian.encode 2 f.flags.toNat ++ (LittleEndian.encode 2 f.clientData.length ++
            (nameField version f.name ++
              (f.clientData.flatMap (fun word => LittleEndian.encode 4 word.toNat) ++
                ((if version = 1 ∧ f.clientData.length % 2 = 1 then List.replicate 4 0 else []) ++
                  rest)))))) := by
      simp only [serializeFilter, if_pos named, List.append_assoc]
    have length : Reads (parseNameLength version f.id) (n + 2)
        (LittleEndian.encode 2 (nameField version f.name).length)
        ((nameField version f.name).length % 256 ^ 2) :=
      .ite_pos named (.uint_encode_mod (by decide) _)
    rw [parts, parseFilter, (Reads.word16 f.id).run_bind, LittleEndian.length_encode,
      length.run_bind, (Reads.word16 f.flags).run_bind,
      (Reads.uint_encode (by decide) described.words).run_bind] at read
    obtain ⟨⟨name', c'⟩, named', others⟩ := bind_eq_ok_iff.1 read
    have same : Ensures (do
        let clientData ← times word32 f.clientData.length
        skipPadding version f.clientData.length
        return (⟨f.id, name', f.flags, clientData⟩ : FilterEntry)) fun g => g.name = name' :=
      .bind_any fun _ => .bind_any fun _ => .pure rfl
    rw [← same.run others, given] at named'
    exact lasting_of_parseName (described.nonzero name given) named'
  · rw [described.unnamed named] at given
    cases given

theorem lasting_of_times {fs : List FilterEntry} (described : ∀ f ∈ fs, Described version f)
    {n : Nat} {rest : Bytes} {c : Cursor}
    (read : times (parseFilter version) fs.length
      ⟨n, fs.flatMap (serializeFilter version) ++ rest⟩ = .ok (fs, c)) :
    ∀ f ∈ fs, ∀ name, f.name = some name → Lasting version name := by
  induction fs generalizing n with
  | nil => exact nofun
  | cons f fs ih =>
    obtain ⟨here, others⟩ := List.forall_mem_cons.1 described
    rw [List.flatMap_cons, List.append_assoc] at read
    obtain ⟨⟨f', c'⟩, first, later⟩ := bind_eq_ok_iff.1 read
    obtain ⟨⟨fs', c''⟩, next, same⟩ := bind_eq_ok_iff.1 later
    cases same
    have lasting := here.lasting_of_parseFilter first
    -- A filter whose name lasts is read to its last byte, and the others after it.
    have fits := here.fits fun name given => (lasting name given).2
    obtain rfl : _ = c' :=
      congrArg Prod.snd (Except.ok.inj (((reads_parseFilter fits n).run _).symm.trans first))
    exact List.forall_mem_cons.2 ⟨lasting, ih others next⟩

theorem Parsed.lasting_of_filters {p : Pipeline} (parsed : p.Parsed) {n : Nat} {rest : Bytes}
    {c : Cursor}
    (read : (do return ⟨p.version, ← times (parseFilter p.version) p.filters.length⟩ :
      Parser Pipeline) ⟨n, p.filters.flatMap (serializeFilter p.version) ++ rest⟩ = .ok (p, c)) :
    ∀ f ∈ p.filters, ∀ name, f.name = some name → Lasting p.version name := by
  obtain ⟨⟨filters, c'⟩, filters_read, made⟩ := bind_eq_ok_iff.1 read
  have same : (⟨p.version, filters⟩ : Pipeline) = p := congrArg Prod.fst (Except.ok.inj made)
  obtain rfl : filters = p.filters := congrArg Pipeline.filters same
  exact lasting_of_times parsed.filters filters_read

/-- A pipeline comes back only if each of its names does. -/
theorem Parsed.lasting {p : Pipeline} (parsed : p.Parsed) (read : parse p.serialize = .ok p) :
    ∀ f ∈ p.filters, ∀ name, f.name = some name → Lasting p.version name := by
  have number : (UInt8.ofNat p.filters.length).toNat = p.filters.length :=
    UInt8.toNat_ofNat_of_lt' parsed.count
  obtain ⟨⟨p', c⟩, whole, same⟩ := map_eq_ok_iff.1 read
  obtain rfl : p' = p := same
  change parser ⟨0, _⟩ = _ at whole
  rw [serialize_eq, ← List.append_nil (_ ++ _), List.append_assoc, List.append_assoc,
    List.append_assoc, parser, (Reads.byte _).run_bind, (Reads.byte _).run_bind, number,
    if_neg (written_known _), parsed.written_eq] at whole
  dsimp only at whole
  split at whole
  · rw [(Reads.skip (by rfl)).run_bind] at whole
    exact parsed.lasting_of_filters whole
  · exact parsed.lasting_of_filters whole

/-! ## The round trip -/

theorem map_withoutEmptyName {fs : List FilterEntry}
    (named : ∀ f ∈ fs, ∀ name, f.name = some name → name ≠ "") : fs.map withoutEmptyName = fs := by
  refine (List.map_congr_left fun f mem => ?_).trans (List.map_id fs)
  unfold withoutEmptyName
  cases given : f.name with
  | none =>
    rw [Option.filter_none, ← given]
    rfl
  | some name =>
    rw [Option.filter_some, if_pos (decide_eq_true (named f mem name given)), ← given]
    rfl

/-- A parsed pipeline that is written comes back exactly when each of its names has characters and
room in the message. Where the names have room, all that is lost is that an empty one was there. -/
theorem parse_serialize_iff {message : Bytes} {p : Pipeline} (parsed : parse message = .ok p) :
    (parse p.serialize = .ok p ↔
      ∀ f ∈ p.filters, ∀ name, f.name = some name → name ≠ "" ∧ HasRoom p.version name) ∧
    ((∀ f ∈ p.filters, ∀ name, f.name = some name → HasRoom p.version name) →
      parse p.serialize = .ok ⟨p.version, p.filters.map withoutEmptyName⟩) := by
  have given : p.Parsed := ensures_parsed.parse parsed
  refine ⟨⟨given.lasting, fun lasting => ?_⟩, given.parse_serialize_of_room⟩
  rw [given.parse_serialize_of_room fun f mem name named => (lasting f mem name named).2,
    map_withoutEmptyName fun f mem name named => (lasting f mem name named).1]

/-- A name field of one zero byte is read as an empty name, for which no name is written. -/
theorem parse_serialize_ne_of_empty_name :
    parse [2, 1, 0, 1, 1, 0, 0, 0, 0, 0, 0] = .ok ⟨2, [⟨256, some "", 0, []⟩]⟩ ∧
    parse (serialize ⟨2, [⟨256, some "", 0, []⟩]⟩) = .ok ⟨2, [⟨256, none, 0, []⟩]⟩ ∧
    parse (serialize ⟨2, [⟨256, some "", 0, []⟩]⟩) ≠ .ok ⟨2, [⟨256, some "", 0, []⟩]⟩ := by
  have parsed : parse [2, 1, 0, 1, 1, 0, 0, 0, 0, 0, 0] = .ok ⟨2, [⟨256, some "", 0, []⟩]⟩ := by
    decide +kernel
  obtain ⟨comes_back, restored⟩ := parse_serialize_iff parsed
  refine ⟨parsed, restored (List.forall_mem_singleton.2 ?_), fun same => ?_⟩
  · intro name empty
    obtain rfl := Option.some.inj empty
    decide +kernel
  · exact (comes_back.1 same _ (List.mem_singleton.2 rfl) "" rfl).1 rfl

end Pipeline

end ChunkStore
