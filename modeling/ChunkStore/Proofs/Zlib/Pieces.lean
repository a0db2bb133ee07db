import ChunkStore.Proofs.Results
import ChunkStore.Zlib.Reader

/-!
# Data collected from its pieces

However a reader cuts its data into pieces, `Reader.decompress` comes to what the whole data, the
fault after it and the hint say (`Reader.decompress_eq_outcome`). For this a buffer that is no
longer than the data is filled with its front (`Reader.fill_of_le`), and a longer one with all of it
or with the fault (`Reader.fill_of_lt`), and reading to the end gives all of it or the fault
(`Reader.readToEnd_eq`). So a hint that memory has room for only refuses data that is longer
(`Reader.decompress_with_hint`).
-/

namespace ChunkStore.Zlib

/-- What decompression comes to, from the data and the fault after it. -/
def outcome {ε : Type} (data : Bytes) (fault : Option ε) (hint : Nat) :
    Except (InflateError ε) Bytes :=
  if UInt64.size / 2 ≤ hint then .error (.noRoom hint)
  else if hint ≠ 0 ∧ hint < data.length then .error (.beyondHint hint)
  else match fault with
    | none => .ok data
    | some e => .error (.fault e)

/-- Without a hint the data comes to itself. -/
theorem outcome_zero {ε : Type} (data : Bytes) (fault : Option ε) : outcome data fault 0 =
    match fault with
    | none => .ok data
    | some e => .error (.fault e) := by
  unfold outcome
  rw [if_neg (by decide), if_neg fun both => both.1 rfl]

/-- A hint that memory has room for matters to longer data only. -/
theorem outcome_of_lt {ε : Type} {data : Bytes} {fault : Option ε} {hint : Nat}
    (positive : 0 < hint) (held : hint < UInt64.size / 2) : outcome data fault hint =
      if hint < data.length then .error (.beyondHint hint) else outcome data fault 0 := by
  have bounds : hint ≠ 0 ∧ hint < data.length ↔ hint < data.length :=
    and_iff_right (Nat.ne_of_gt positive)
  rw [outcome_zero]
  unfold outcome
  rw [if_neg (Nat.not_le.2 held)]
  exact if_congr bounds rfl rfl

theorem outcome_eq_ok_iff {ε : Type} {data out : Bytes} {fault : Option ε} {hint : Nat} :
    outcome data fault hint = .ok out ↔
      fault = none ∧ data = out ∧ (hint = 0 ∨ out.length ≤ hint ∧ hint < UInt64.size / 2) := by
  have free : outcome data fault 0 = .ok out ↔ fault = none ∧ data = out := by
    rw [outcome_zero]
    cases fault with
    | none => simp
    | some e => simp
  rcases Nat.eq_zero_or_pos hint with rfl | positive
  · rw [free]
    simp
  have nonzero : hint ≠ 0 := Nat.ne_of_gt positive
  rcases Nat.lt_or_ge hint (UInt64.size / 2) with held | roomless
  · rw [outcome_of_lt positive held]
    split
    next beyond =>
      refine iff_of_false nofun ?_
      rintro ⟨-, rfl, none | ⟨within, -⟩⟩
      · exact nonzero none
      · exact Nat.not_le_of_gt beyond within
    next within =>
      rw [free]
      refine and_congr_right fun _ => ⟨?_, And.left⟩
      rintro rfl
      exact ⟨rfl, .inr ⟨Nat.le_of_not_lt within, held⟩⟩
  · unfold outcome
    rw [if_pos roomless]
    refine iff_of_false nofun ?_
    rintro ⟨-, -, none | ⟨-, held⟩⟩
    · exact nonzero none
    · exact Nat.not_lt.2 roomless held

/-- A hint that memory has room for is never refused for want of it. -/
theorem outcome_ne_noRoom {ε : Type} (data : Bytes) (fault : Option ε) {hint : Nat}
    (held : hint < UInt64.size / 2) (n : Nat) : outcome data fault hint ≠ .error (.noRoom n) := by
  unfold outcome
  rw [if_neg (Nat.not_le.2 held)]
  split
  · exact nofun
  · cases fault with
    | none => exact nofun
    | some e => exact nofun

namespace Reader

variable {σ τ ε : Type} {s : σ} {t : τ} (R : Reader σ ε) (R' : Reader τ ε)

/-- A buffer with room is filled with the next piece and then with what follows. -/
theorem fill_piece {room : Nat} (pos : 0 < room) (some : R.rest s ≠ []) : ∃ piece s',
    piece ≠ [] ∧ piece.length ≤ room ∧ R.rest s = piece ++ R.rest s' ∧ R.fault s' = R.fault s ∧
      R.fill room s =
        (R.fill (room - piece.length) s').map fun filled => (piece ++ filled.1, filled.2) := by
  obtain ⟨piece, s', given, bytes, fits, front, fault⟩ := R.read_piece pos some
  refine ⟨piece, s', bytes, fits, front, fault, ?_⟩
  rw [fill, dif_neg (Nat.ne_of_gt pos), given]
  dsimp only
  rw [dif_neg bytes]
  rfl

/-- A buffer that is no longer than the data is filled with its front. -/
theorem fill_of_le {room : Nat} (fits : room ≤ (R.rest s).length) : ∃ s',
    R.fill room s = .ok ((R.rest s).take room, s') ∧ R.rest s' = (R.rest s).drop room ∧
      R.fault s' = R.fault s := by
  induction room using Nat.strongRecOn generalizing s with
  | ind room ih =>
    rcases Nat.eq_zero_or_pos room with rfl | pos
    · exact ⟨s, by rw [fill, dif_pos rfl, List.take_zero], rfl, rfl⟩
    have some : R.rest s ≠ [] := List.length_pos_iff.1 (Nat.lt_of_lt_of_le pos fits)
    obtain ⟨piece, s', bytes, inside, front, fault, filled⟩ := R.fill_piece pos some
    have byte : 0 < piece.length := List.length_pos_iff.2 bytes
    rw [front, List.length_append] at fits
    obtain ⟨s'', rest, after, fault'⟩ := ih (room - piece.length) (by omega) (s := s') (by omega)
    refine ⟨s'', ?_, ?_, fault'.trans fault⟩
    · rw [filled, rest, front, List.take_append, List.take_of_length_le inside]
      rfl
    · rw [after, front, List.drop_append, List.drop_of_length_le inside, List.nil_append]

/-- A buffer that is longer than the data is given all of it, or the fault after it. -/
theorem fill_of_lt {room : Nat} (more : (R.rest s).length < room) : ∃ s',
    R.fill room s = (afterLast (R.fault s)).map fun _ => (R.rest s, s') := by
  induction room using Nat.strongRecOn generalizing s with
  | ind room ih =>
    have pos : 0 < room := Nat.zero_lt_of_lt more
    by_cases last : R.rest s = []
    · obtain ⟨s', given, -, -⟩ := R.read_last pos last
      refine ⟨s', ?_⟩
      rw [fill, dif_neg (Nat.ne_of_gt pos), given, last]
      cases R.fault s with
      | none => rfl
      | some e => rfl
    · obtain ⟨piece, s', bytes, inside, front, fault, filled⟩ := R.fill_piece pos last
      have byte : 0 < piece.length := List.length_pos_iff.2 bytes
      rw [front, List.length_append] at more
      obtain ⟨s'', rest⟩ := ih (room - piece.length) (by omega) (s := s') (by omega)
      refine ⟨s'', ?_⟩
      rw [filled, rest, fault, front]
      cases R.fault s with
      | none => rfl
      | some e => rfl

/-- A call that ends the data, or fails, ends the reading. -/
theorem readToEnd_last {buffers : Nat → Nat} {calls : Nat} (last : R.rest s = []) :
    R.readToEnd buffers calls s = afterLast (R.fault s) := by
  obtain ⟨s', given, -, -⟩ := R.read_last (Nat.succ_pos (buffers calls)) last
  rw [readToEnd]
  cases fault : R.fault s with
  | none =>
    rw [fault] at given
    split
    next read => cases given.symm.trans read
    next read =>
      cases given.symm.trans read
      rfl
  | some e =>
    rw [fault] at given
    split
    next read =>
      cases given.symm.trans read
      rfl
    next read => cases given.symm.trans read

/-- A piece is followed by what the calls after it are given. -/
theorem readToEnd_piece {buffers : Nat → Nat} {calls : Nat} {piece : Bytes} {s' : σ}
    (given : R.read (buffers calls + 1) s = (.ok piece, s')) (some : piece ≠ []) :
    R.readToEnd buffers calls s = (R.readToEnd buffers (calls + 1) s').map (piece ++ ·) := by
  rw [readToEnd]
  split
  next read => cases given.symm.trans read
  next read =>
    cases given.symm.trans read
    rw [dif_neg some]
    rfl

/-- Reading to the end gives all the data, or the fault after it. -/
theorem readToEnd_eq (buffers : Nat → Nat) (calls : Nat) (s : σ) :
    R.readToEnd buffers calls s = (afterLast (R.fault s)).map fun _ => R.rest s := by
  generalize length : (R.rest s).length = n
  induction n using Nat.strongRecOn generalizing calls s with
  | ind n ih =>
    subst length
    have pos : 0 < buffers calls + 1 := Nat.succ_pos _
    by_cases last : R.rest s = []
    · rw [R.readToEnd_last last, last]
      cases R.fault s with
      | none => rfl
      | some e => rfl
    · obtain ⟨piece, s', given, some, -, front, fault⟩ := R.read_piece pos last
      have less := R.length_rest_of_read pos given some
      rw [R.readToEnd_piece given some, ih _ less (calls + 1) s' rfl, fault, front]
      cases R.fault s with
      | none => rfl
      | some e => rfl

/-- A buffer that memory has no room for ends everything before a byte is read. -/
theorem readWithin_of_noRoom {hint : Nat} (roomless : UInt64.size / 2 ≤ hint) :
    R.readWithin hint s = .error (.noRoom hint) := by
  rw [readWithin, if_pos roomless]
  rfl

/-- A buffer that is not filled holds all the data, and nothing is probed. -/
theorem readWithin_of_lt {hint : Nat} (held : hint < UInt64.size / 2)
    (more : (R.rest s).length < hint) :
    R.readWithin hint s = ((afterLast (R.fault s)).map fun _ => R.rest s).mapError .fault := by
  obtain ⟨s', filled⟩ := R.fill_of_lt more
  have short : (R.rest s).length ≠ hint := Nat.ne_of_lt more
  rw [readWithin, if_neg (Nat.not_le.2 held), filled]
  cases R.fault s with
  | none =>
    show (if (R.rest s).length = hint then _ else _) = _
    rw [if_neg short]
    rfl
  | some e => rfl

/-- After a buffer that is filled a call for one byte more decides. -/
theorem readWithin_of_le {hint : Nat} (held : hint < UInt64.size / 2)
    (fits : hint ≤ (R.rest s).length) : ∃ s',
    R.rest s' = (R.rest s).drop hint ∧ R.fault s' = R.fault s ∧
      R.readWithin hint s = (R.read 1 s').1.mapError .fault >>= fun probe =>
        if probe ≠ [] then .error (.beyondHint hint) else .ok ((R.rest s).take hint) := by
  obtain ⟨s', filled, rest, fault⟩ := R.fill_of_le fits
  refine ⟨s', rest, fault, ?_⟩
  have full : ((R.rest s).take hint).length = hint := List.length_take_of_le fits
  rw [readWithin, if_neg (Nat.not_le.2 held), filled]
  show (if ((R.rest s).take hint).length = hint then _ else _) = _
  rw [if_pos full]
  refine congrArg ((R.read 1 s').1.mapError InflateError.fault >>= ·) (funext fun probe => ?_)
  split
  · rfl
  · rfl

/-- However the data is cut into pieces, decompression comes to what the whole data, the fault
after it and the hint say. -/
theorem decompress_eq_outcome (buffers : Nat → Nat) (hint : Nat) (s : σ) :
    R.decompress buffers hint s = outcome (R.rest s) (R.fault s) hint := by
  unfold decompress
  rcases Nat.eq_zero_or_pos hint with rfl | positive
  · rw [if_pos rfl, R.readToEnd_eq, outcome_zero]
    cases R.fault s with
    | none => rfl
    | some e => rfl
  rw [if_neg (Nat.ne_of_gt positive)]
  rcases Nat.lt_or_ge hint (UInt64.size / 2) with held | roomless
  case inr => exact (R.readWithin_of_noRoom roomless).trans (if_pos roomless).symm
  rw [outcome_of_lt positive held, outcome_zero]
  rcases Nat.lt_trichotomy (R.rest s).length hint with more | exact | less
  · rw [if_neg (Nat.lt_asymm more), R.readWithin_of_lt held more]
    cases R.fault s with
    | none => rfl
    | some e => rfl
  · obtain ⟨s', rest, fault, decided⟩ := R.readWithin_of_le held (Nat.le_of_eq exact.symm)
    have last : R.rest s' = [] := by rw [rest, ← exact, List.drop_length]
    obtain ⟨s'', given, -, -⟩ := R.read_last Nat.one_pos last
    rw [if_neg fun beyond => Nat.ne_of_gt beyond exact, decided, given, fault, ← exact,
      List.take_length]
    cases R.fault s with
    | none => rfl
    | some e => rfl
  · obtain ⟨s', rest, fault, decided⟩ := R.readWithin_of_le held (Nat.le_of_lt less)
    have some : R.rest s' ≠ [] := by
      rw [rest]
      exact fun none => Nat.not_le_of_gt less (List.drop_eq_nil_iff.1 none)
    obtain ⟨piece, s'', given, bytes, -⟩ := R.read_piece Nat.one_pos some
    rw [if_pos less, decided, given]
    exact if_pos bytes

/-- Two readers that hand out the same data and end alike, in any pieces: with a positive hint that
memory has room for, the data is given exactly when it is given without a hint and has no more bytes
than the hint. Longer data is refused because of the hint, and shorter data is followed by the
reader's fault if there is one. A hint that memory has no room for ends everything, whatever the
data. Neither the pieces nor the sizes of buffers matter for any hint. -/
theorem decompress_with_hint [ToString ε] (data : R.rest s = R'.rest t)
    (fault : R.fault s = R'.fault t) (buffers buffers' : Nat → Nat) {hint : Nat}
    (positive : 0 < hint) :
    (hint < UInt64.size / 2 →
      (∀ out, R.decompress buffers hint s = .ok out ↔
        R'.decompress buffers' 0 t = .ok out ∧ out.length ≤ hint) ∧
      (hint < (R.rest s).length → ∃ e : InflateError ε, R.decompress buffers hint s = .error e ∧
        e.message = s!"deflate stream decodes to more than the expected {hint} bytes") ∧
      ∀ e, (R.rest s).length ≤ hint → R.fault s = some e →
        R.decompress buffers hint s = .error (.fault e)) ∧
    (UInt64.size / 2 ≤ hint → R.decompress buffers hint s = .error (.noRoom hint)) ∧
    (R'.decompress buffers' 0 t = match R'.fault t with
      | none => .ok (R'.rest t)
      | some e => .error (.fault e)) ∧
    ∀ any, R.decompress buffers any s = R'.decompress buffers' any t := by
  simp only [decompress_eq_outcome, ← data, ← fault]
  refine ⟨fun held => ⟨fun out => ?_, fun less => ?_, fun e within faulty => ?_⟩, ?_,
    outcome_zero _ _, fun _ => trivial⟩
  · have nonzero : hint ≠ 0 := Nat.ne_of_gt positive
    rw [outcome_eq_ok_iff, outcome_eq_ok_iff]
    simp [nonzero, held, and_assoc]
  · exact ⟨.beyondHint hint, by rw [outcome_of_lt positive held, if_pos less], rfl⟩
  · rw [outcome_of_lt positive held, if_neg (Nat.not_lt.2 within), outcome_zero, faulty]
  · exact fun roomless => if_pos roomless

/-- Three bytes and then a fault, handed out one by one and two at a time: a buffer for just these
bytes still meets the fault behind them, and a smaller one is refused because of its size. Where
there is no fault the bytes are given without a hint, but not with one of half the address space. -/
theorem decompress_with_hint_of_late_fault : ∃ r r' whole : PieceReader,
    r.rest = ⟨[1, 2, 3], some .incomplete⟩ ∧ r'.rest = r.rest ∧ r.wish 0 = 1 ∧ r'.wish 0 = 2 ∧
    (0 < 2 ∧ 0 < 3 ∧ 0 < UInt64.size / 2) ∧
    PieceReader.reader.decompress (fun _ => 0) 3 r = .error (.fault .incomplete) ∧
    PieceReader.reader.decompress (fun _ => 0) 3 r =
      PieceReader.reader.decompress (fun _ => 7) 3 r' ∧
    (∃ e : InflateError Fault, PieceReader.reader.decompress (fun _ => 0) 2 r = .error e ∧
      e.message = "deflate stream decodes to more than the expected 2 bytes") ∧
    PieceReader.reader.decompress (fun _ => 0) 0 whole = .ok [1, 2, 3] ∧
    PieceReader.reader.decompress (fun _ => 0) (UInt64.size / 2) whole =
      .error (.noRoom (UInt64.size / 2)) := by
  let r : PieceReader := ⟨⟨[1, 2, 3], some .incomplete⟩, 0, fun _ => 1⟩
  let r' : PieceReader := ⟨⟨[1, 2, 3], some .incomplete⟩, 0, fun _ => 2⟩
  let whole : PieceReader := ⟨⟨[1, 2, 3], none⟩, 0, fun _ => 1⟩
  obtain ⟨exact, -, -, same⟩ := decompress_with_hint PieceReader.reader PieceReader.reader
    (s := r) (t := r') rfl rfl (fun _ => 0) (fun _ => 7) (show 0 < 3 by decide)
  obtain ⟨small, -⟩ := decompress_with_hint PieceReader.reader PieceReader.reader
    (s := r) (t := r') rfl rfl (fun _ => 0) (fun _ => 7) (show 0 < 2 by decide)
  obtain ⟨-, roomless, unhinted, -⟩ := decompress_with_hint PieceReader.reader PieceReader.reader
    (s := whole) (t := whole) rfl rfl (fun _ => 0) (fun _ => 0)
    (show 0 < UInt64.size / 2 by decide)
  exact ⟨r, r', whole, rfl, rfl, rfl, rfl, by decide,
    (exact (by decide)).2.2 .incomplete (by decide) rfl, same 3,
    (small (by decide)).2.1 (by decide), unhinted, roomless (Nat.le_refl _)⟩

end Reader

/-- Data that was compressed comes back, under a hint that allows for it and that memory has room
for. -/
theorem Library.Lossless.decompress_eq {σ ε : Type} {l : Library σ ε} (lossless : l.Lossless)
    {level hint : Nat} {data stream : Bytes} (compressed : l.compress level data = .ok stream)
    (allows : hint = 0 ∨ data.length ≤ hint) (held : hint < UInt64.size / 2) :
    l.decompress stream hint = .ok data := by
  obtain ⟨rest, fault⟩ := lossless compressed
  rw [decompress, Reader.decompress_eq_outcome, rest, fault, outcome_eq_ok_iff]
  exact ⟨rfl, rfl, allows.imp_right fun within => ⟨within, held⟩⟩

end ChunkStore.Zlib
