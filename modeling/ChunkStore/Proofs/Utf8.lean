import ChunkStore.Utf8
import Mathlib.Tactic.SplitIfs

/-!
# Text read back

`Utf8.decodeLossy` reads a text back from its bytes (`Utf8.decodeLossy_encode`): the first byte of a
character says how many bits it adds, how many bytes follow and in which range the second one lies,
and it says so rightly for every character. Only the character of number zero has a zero byte
(`Utf8.zero_notMem_encode`). Of bytes that are no text, too, no character of number zero is read
unless one of them is zero (`Utf8.nonzero_of_mem_decodeChars`), and of a text that is cut off by
many bytes the same text is not read again (`Utf8.length_le_of_decodeChars_take`).
-/

namespace ChunkStore.Utf8

/-! ## Characters of several bytes -/

theorem tailRun_append {tail rest : Bytes}
    (each : ∀ b ∈ tail, 0x80 ≤ b.toNat ∧ b.toNat ≤ 0xbf) :
    tailRun tail.length 0x80 0xbf (tail ++ rest) = tail := by
  induction tail with
  | nil =>
    rw [List.length_nil]
    unfold tailRun
    rfl
  | cons b tail ih =>
    obtain ⟨inside, others⟩ := List.forall_mem_cons.1 each
    rw [List.length_cons, List.cons_append, tailRun, if_pos inside, ih others]

theorem not_ascii_of_lead {b : Nat} {lead : Lead} (found : lead? b = some lead) : ¬ b < 0x80 := by
  unfold lead? at found
  split_ifs at found
  all_goals omega

/-- A first byte, a second one in its range and as many tail bytes as it asks for are a
character. -/
theorem decodeChars_of_lead {b second : UInt8} (tail rest : Bytes) {bits low high : Nat}
    (lead : lead? b.toNat = some ⟨bits, tail.length + 1, low, high⟩)
    (first : low ≤ second.toNat ∧ second.toNat ≤ high)
    (others : ∀ t ∈ tail, 0x80 ≤ t.toNat ∧ t.toNat ≤ 0xbf) :
    decodeChars (b :: second :: (tail ++ rest)) =
      charOf bits (second :: tail) :: decodeChars rest := by
  have run : tailRun (tail.length + 1) low high (second :: (tail ++ rest)) = second :: tail := by
    rw [tailRun, if_pos first, tailRun_append others]
  rw [decodeChars, if_neg (not_ascii_of_lead lead), lead]
  dsimp only
  rw [run, List.length_cons, if_pos rfl, List.drop_succ_cons, List.drop_left]

/-! ## First bytes -/

variable {v : Nat}

theorem lead?_of_two (least : 0x80 ≤ v) (most : v ≤ 0x7ff) :
    lead? (v / 64 + 0xc0) = some ⟨v / 64, 1, 0x80, 0xbf⟩ := by
  rw [lead?, if_pos (by omega), Nat.add_sub_cancel]

/-- The second byte is in the range for the first one: no shorter character has the same number,
and the number is no surrogate. -/
theorem exists_lead_of_three (least : 0x800 ≤ v) (most : v ≤ 0xffff)
    (valid : v < 0xd800 ∨ 0xdfff < v) :
    ∃ low high, lead? (v / 4096 + 0xe0) = some ⟨v / 4096, 2, low, high⟩ ∧
      low ≤ v / 64 % 64 + 0x80 ∧ v / 64 % 64 + 0x80 ≤ high := by
  unfold lead?
  -- One case for each row of the table of first bytes; rows for other lengths cannot apply.
  split_ifs
  · omega
  · have zero : v / 4096 = 0 := by omega
    exact ⟨0xa0, 0xbf, by rw [zero], by omega, by omega⟩
  · have before : v / 4096 = 0xd := by omega
    exact ⟨0x80, 0x9f, by rw [before], by omega, by omega⟩
  · exact ⟨0x80, 0xbf, by rw [Nat.add_sub_cancel], by omega, by omega⟩
  all_goals omega

/-- The second byte is in the range for the first one: no shorter character has the same number,
and the number is not too large. -/
theorem exists_lead_of_four (least : 0xffff < v) (most : v < 0x110000) :
    ∃ low high, lead? (v / 262144 + 0xf0) = some ⟨v / 262144, 3, low, high⟩ ∧
      low ≤ v / 4096 % 64 + 0x80 ∧ v / 4096 % 64 + 0x80 ≤ high := by
  unfold lead?
  split_ifs
  iterate 4 omega
  · have zero : v / 262144 = 0 := by omega
    exact ⟨0x90, 0xbf, by rw [zero], by omega, by omega⟩
  · exact ⟨0x80, 0xbf, by rw [Nat.add_sub_cancel], by omega, by omega⟩
  · have last : v / 262144 = 4 := by omega
    exact ⟨0x80, 0x8f, by rw [last], by omega, by omega⟩
  · omega

/-! ## Characters -/

theorem toNat_ofNat {n : Nat} (byte : n < 256) : (UInt8.ofNat n).toNat = n :=
  UInt8.toNat_ofNat_of_lt' byte

/-- A tail byte holds six bits. -/
theorem toNat_tail (n : Nat) : (UInt8.ofNat (n % 64 + 0x80)).toNat = n % 64 + 0x80 :=
  toNat_ofNat (by omega)

theorem tail_inside (n : Nat) : 0x80 ≤ (UInt8.ofNat (n % 64 + 0x80)).toNat ∧
    (UInt8.ofNat (n % 64 + 0x80)).toNat ≤ 0xbf := by
  rw [toNat_tail]
  omega

theorem decodeChars_two (least : 0x80 ≤ v) (most : v ≤ 0x7ff) (rest : Bytes) :
    decodeChars (UInt8.ofNat (v / 64 % 32 + 0xc0) :: UInt8.ofNat (v % 64 + 0x80) :: rest) =
      Char.ofNat v :: decodeChars rest := by
  have whole : v / 64 % 32 = v / 64 := Nat.mod_eq_of_lt (by omega)
  have first := toNat_ofNat (show v / 64 + 0xc0 < 256 by omega)
  have number : charOf (v / 64) [UInt8.ofNat (v % 64 + 0x80)] = Char.ofNat v := by
    simp only [charOf, List.foldl_cons, List.foldl_nil, toNat_tail, Nat.add_sub_cancel,
      Nat.div_add_mod']
  rw [whole, ← number]
  refine decodeChars_of_lead [] rest ?_ (tail_inside v) nofun
  rw [first]
  exact lead?_of_two least most

theorem decodeChars_three (least : 0x800 ≤ v) (most : v ≤ 0xffff)
    (valid : v < 0xd800 ∨ 0xdfff < v) (rest : Bytes) :
    decodeChars (UInt8.ofNat (v / 4096 % 16 + 0xe0) :: UInt8.ofNat (v / 64 % 64 + 0x80) ::
      UInt8.ofNat (v % 64 + 0x80) :: rest) = Char.ofNat v :: decodeChars rest := by
  have whole : v / 4096 % 16 = v / 4096 := Nat.mod_eq_of_lt (by omega)
  have first := toNat_ofNat (show v / 4096 + 0xe0 < 256 by omega)
  have number : charOf (v / 4096) [UInt8.ofNat (v / 64 % 64 + 0x80), UInt8.ofNat (v % 64 + 0x80)] =
      Char.ofNat v := by
    simp only [charOf, List.foldl_cons, List.foldl_nil, toNat_tail, Nat.add_sub_cancel]
    congr 1
    omega
  obtain ⟨low, high, lead, above, below⟩ := exists_lead_of_three least most valid
  rw [whole, ← number]
  refine decodeChars_of_lead [_] rest (by rw [first]; exact lead) ?_ ?_
  · rw [toNat_tail]
    exact ⟨above, below⟩
  · exact List.forall_mem_singleton.2 (tail_inside v)

theorem decodeChars_four (least : 0xffff < v) (most : v < 0x110000) (rest : Bytes) :
    decodeChars (UInt8.ofNat (v / 262144 % 8 + 0xf0) :: UInt8.ofNat (v / 4096 % 64 + 0x80) ::
      UInt8.ofNat (v / 64 % 64 + 0x80) :: UInt8.ofNat (v % 64 + 0x80) :: rest) =
      Char.ofNat v :: decodeChars rest := by
  have whole : v / 262144 % 8 = v / 262144 := Nat.mod_eq_of_lt (by omega)
  have first := toNat_ofNat (show v / 262144 + 0xf0 < 256 by omega)
  have number : charOf (v / 262144) [UInt8.ofNat (v / 4096 % 64 + 0x80),
      UInt8.ofNat (v / 64 % 64 + 0x80), UInt8.ofNat (v % 64 + 0x80)] = Char.ofNat v := by
    simp only [charOf, List.foldl_cons, List.foldl_nil, toNat_tail, Nat.add_sub_cancel]
    congr 1
    omega
  obtain ⟨low, high, lead, above, below⟩ := exists_lead_of_four least most
  rw [whole, ← number]
  refine decodeChars_of_lead [_, _] rest (by rw [first]; exact lead) ?_ ?_
  · rw [toNat_tail]
    exact ⟨above, below⟩
  · exact List.forall_mem_cons.2 ⟨tail_inside _, List.forall_mem_singleton.2 (tail_inside v)⟩

/-- The character read back from the bytes of a character is the character. -/
theorem decodeChars_utf8EncodeChar (c : Char) (rest : Bytes) :
    decodeChars (String.utf8EncodeChar c ++ rest) = c :: decodeChars rest := by
  have valid : c.val.toNat < 0xd800 ∨ 0xdfff < c.val.toNat ∧ c.val.toNat < 0x110000 := c.valid
  have number : Char.ofNat c.val.toNat = c := Char.ofNat_toNat c
  unfold String.utf8EncodeChar
  dsimp only
  generalize c.val.toNat = v at valid number ⊢
  rw [← number]
  split_ifs with one two three
  · have byte := toNat_ofNat (show v < 256 by omega)
    rw [List.singleton_append, decodeChars, byte, if_pos (by omega)]
  · exact decodeChars_two (by omega) two rest
  · exact decodeChars_three (by omega) three (by omega) rest
  · exact decodeChars_four (by omega) (by omega) rest

/-! ## Texts -/

/-- A text is read back from its bytes. -/
theorem decodeLossy_encode (text : String) : decodeLossy (encode text) = text := by
  have chars : ∀ cs : List Char, decodeChars (cs.flatMap String.utf8EncodeChar) = cs := by
    intro cs
    induction cs with
    | nil => rw [List.flatMap_nil, decodeChars]
    | cons c cs ih => rw [List.flatMap_cons, decodeChars_utf8EncodeChar, ih]
  rw [decodeLossy, encode, chars, String.ofList_toList]

theorem zero_notMem_utf8EncodeChar {c : Char} (some : c.toNat ≠ 0) :
    0 ∉ String.utf8EncodeChar c := by
  have valid : c.val.toNat < 0xd800 ∨ 0xdfff < c.val.toNat ∧ c.val.toNat < 0x110000 := c.valid
  have some : c.val.toNat ≠ 0 := some
  have nonzero : ∀ n, 0 < n → n < 256 → (0 : UInt8) ≠ UInt8.ofNat n := by
    intro n pos byte same
    have zero := toNat_ofNat byte
    rw [← same] at zero
    exact Nat.ne_of_lt pos zero
  unfold String.utf8EncodeChar
  dsimp only
  generalize c.val.toNat = v at valid some ⊢
  split_ifs
  all_goals
    simp only [List.mem_cons, List.not_mem_nil, or_false, not_or]
    repeat' apply And.intro
    all_goals exact nonzero _ (by omega) (by omega)

/-- Only the character of number zero has a zero byte. -/
theorem zero_notMem_encode {text : String} (some : ∀ c ∈ text.toList, c.toNat ≠ 0) :
    0 ∉ encode text := by
  intro mem
  obtain ⟨c, inside, byte⟩ := List.mem_flatMap.1 mem
  exact zero_notMem_utf8EncodeChar (some c inside) byte

/-- Only the empty text has no bytes. -/
theorem encode_eq_nil_iff {text : String} : encode text = [] ↔ text = "" := by
  constructor
  · intro empty
    rw [← decodeLossy_encode text, empty, decodeLossy, decodeChars]
  · rintro rfl
    rfl

/-! ## Any bytes -/

/-- Text has no more characters than it has bytes. -/
theorem length_decodeChars_le (bytes : Bytes) : (decodeChars bytes).length ≤ bytes.length := by
  fun_induction decodeChars bytes with
  | case1 => exact Nat.le_refl 0
  | case2 b rest ascii ih => exact Nat.succ_le_succ ih
  | case3 b rest other none ih => exact Nat.succ_le_succ ih
  | case4 b rest other lead found tail c ih =>
    rw [List.length_drop] at ih
    rw [List.length_cons, List.length_cons]
    omega

theorem length_utf8EncodeChar_le (c : Char) : (String.utf8EncodeChar c).length ≤ 4 := by
  rw [String.length_utf8EncodeChar]
  exact c.utf8Size_le_four

theorem length_flatMap_utf8EncodeChar_le (cs : List Char) :
    (cs.flatMap String.utf8EncodeChar).length ≤ 4 * cs.length := by
  induction cs with
  | nil => exact Nat.le_refl 0
  | cons c cs ih =>
    have short := length_utf8EncodeChar_le c
    rw [List.flatMap_cons, List.length_append, List.length_cons]
    omega

/-- Of a text that is cut off little more is read than what is left. -/
theorem length_le_of_decodeChars_take {cs : List Char} {n : Nat}
    (read : decodeChars ((cs.flatMap String.utf8EncodeChar).take n) = cs) :
    (cs.flatMap String.utf8EncodeChar).length ≤ n + 12 := by
  induction cs generalizing n with
  | nil => exact Nat.zero_le _
  | cons c cs ih =>
    rw [List.flatMap_cons] at read ⊢
    have short := length_utf8EncodeChar_le c
    rw [List.length_append]
    rcases Nat.lt_or_ge n (String.utf8EncodeChar c).length with inside | beyond
    · -- The bytes end inside the first character, so that at most two others are read.
      rw [List.take_append_of_le_length (Nat.le_of_lt inside)] at read
      have few := length_decodeChars_le ((String.utf8EncodeChar c).take n)
      rw [read, List.length_cons, List.length_take] at few
      have others := length_flatMap_utf8EncodeChar_le cs
      omega
    · rw [List.take_append, List.take_of_length_le beyond, decodeChars_utf8EncodeChar] at read
      have rest := ih (List.cons.inj read).2
      omega

/-- The number of a character that there is. -/
theorem toNat_charOfNat {n : Nat} (valid : n.isValidChar) : (Char.ofNat n).toNat = n := by
  rw [Char.ofNat, dif_pos valid]
  rfl

theorem tail_of_mem_tailRun {n : Nat} {rest : Bytes} {b : UInt8}
    (mem : b ∈ tailRun n 0x80 0xbf rest) : 0x80 ≤ b.toNat ∧ b.toNat ≤ 0xbf := by
  induction n generalizing rest with
  | zero => cases mem
  | succ n ih =>
    cases rest with
    | nil => cases mem
    | cons first rest =>
      rw [tailRun] at mem
      split at mem
      next inside =>
        rcases List.mem_cons.1 mem with rfl | later
        · exact inside
        · exact ih later
      next => cases mem

/-- Bytes that follow a first byte in full: one in the range for it, and tail bytes. -/
theorem exists_of_tailRun {n low high : Nat} {rest : Bytes}
    (full : (tailRun (n + 1) low high rest).length = n + 1) :
    ∃ second tail, tailRun (n + 1) low high rest = second :: tail ∧ tail.length = n ∧
      (low ≤ second.toNat ∧ second.toNat ≤ high) ∧
      ∀ b ∈ tail, 0x80 ≤ b.toNat ∧ b.toNat ≤ 0xbf := by
  cases rest with
  | nil => cases full
  | cons second rest =>
    rw [tailRun] at full ⊢
    split at full
    next inside =>
      rw [if_pos inside]
      exact ⟨second, _, rfl, Nat.succ.inj full, inside, fun b => tail_of_mem_tailRun⟩
    next => cases full

/-- A character of several bytes does not have number zero. -/
theorem charOf_nonzero {b : Nat} {lead : Lead} (found : lead? b = some lead) {rest : Bytes}
    (full : (tailRun lead.tail lead.low lead.high rest).length = lead.tail) :
    (charOf lead.bits (tailRun lead.tail lead.low lead.high rest)).toNat ≠ 0 := by
  have nonzero {n : Nat} (valid : n.isValidChar) (pos : 0 < n) : (Char.ofNat n).toNat ≠ 0 := by
    rw [toNat_charOfNat valid]
    omega
  unfold lead? at found
  -- One case for each row of the table of first bytes.
  split_ifs at found
  all_goals
    obtain rfl := Option.some.inj found
    obtain ⟨second, tail, run, length, first, others⟩ := exists_of_tailRun full
    dsimp only at run first ⊢
    rw [run, charOf, List.foldl_cons]
  · obtain rfl := List.length_eq_zero_iff.1 length
    rw [List.foldl_nil]
    exact nonzero (.inl (by omega)) (by omega)
  iterate 3
    obtain ⟨third, rfl⟩ := List.length_eq_one_iff.1 length
    obtain ⟨third', -⟩ := List.forall_mem_cons.1 others
    rw [List.foldl_cons, List.foldl_nil]
    exact nonzero (by unfold Nat.isValidChar; omega) (by omega)
  iterate 3
    obtain ⟨third, tail, rfl⟩ := List.exists_cons_of_length_eq_add_one length
    obtain ⟨fourth, rfl⟩ := List.length_eq_one_iff.1 (Nat.succ.inj length)
    obtain ⟨third', others⟩ := List.forall_mem_cons.1 others
    obtain ⟨fourth', -⟩ := List.forall_mem_cons.1 others
    rw [List.foldl_cons, List.foldl_cons, List.foldl_nil]
    exact nonzero (by unfold Nat.isValidChar; omega) (by omega)

/-- A text that is read from bytes none of which is zero has no character of number zero. -/
theorem nonzero_of_mem_decodeChars {bytes : Bytes} (some : 0 ∉ bytes) :
    ∀ c ∈ decodeChars bytes, c.toNat ≠ 0 := by
  fun_induction decodeChars bytes with
  | case1 => exact nofun
  | case2 b rest ascii ih =>
    obtain ⟨first, others⟩ := not_or.1 (mt List.mem_cons.2 some)
    refine List.forall_mem_cons.2 ⟨?_, ih others⟩
    rw [toNat_charOfNat (.inl (by omega))]
    exact fun zero => first (UInt8.toNat_inj.1 zero).symm
  | case3 b rest other none ih =>
    obtain ⟨-, others⟩ := not_or.1 (mt List.mem_cons.2 some)
    exact List.forall_mem_cons.2 ⟨by decide, ih others⟩
  | case4 b rest other lead found tail c ih =>
    obtain ⟨-, others⟩ := not_or.1 (mt List.mem_cons.2 some)
    refine List.forall_mem_cons.2 ⟨?_, ih fun mem => others (List.mem_of_mem_drop mem)⟩
    unfold c
    split
    next full => exact charOf_nonzero found full
    next => decide

end ChunkStore.Utf8
