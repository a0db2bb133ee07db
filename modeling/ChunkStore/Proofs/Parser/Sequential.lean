import ChunkStore.Proofs.Parser

/-!
# Parsers that go by what they have passed

A parser is `Sequential` when bytes beyond those that it passes make no difference to it: a value
that it gives, and an error that it finds in a field, it gives and finds whatever follows. Only the
error that the bytes end may go away when more of them follow. Each field parser is sequential, and
so is what is put together of such parsers. Hence a value is not changed by bytes after it
(`Sequential.parse_append`), and of bytes that a parser reads to the end it refuses every proper
front because it ends (`Sequential.parse_front`).
-/

namespace ChunkStore

/-- The cursor with more bytes after those ahead. -/
def Cursor.extend (c : Cursor) (more : Bytes) : Cursor := ⟨c.position, c.rest ++ more⟩

/-- Bytes of the structure in which the cursor stands. -/
def Cursor.total (c : Cursor) : Nat := c.position + c.rest.length

namespace Parser

variable {α β : Type}

/-- More bytes after those ahead change neither a value of the parser nor an error, except that the
bytes end. -/
structure Sequential (p : Parser α) : Prop where
  ok : ∀ {c a c'}, p c = .ok (a, c') →
    c'.total = c.total ∧ ∀ more, p (c.extend more) = .ok (a, c'.extend more)
  error : ∀ {c e}, p c = .error e →
    (∃ expected, e = .unexpectedEnd expected c.total) ∨ ∀ more, p (c.extend more) = .error e

namespace Sequential

theorem pure (a : α) : Sequential (pure a : Parser α) where
  ok done := by
    cases done
    exact ⟨rfl, fun _ => rfl⟩
  error never := by cases never

theorem throw (e : Error) : Sequential (throw e : Parser α) where
  ok never := by cases never
  error failed := by
    cases failed
    exact .inr fun _ => rfl

theorem lift (x : Except Error α) : Sequential (liftM x : Parser α) := by
  cases x with
  | ok a => exact pure a
  | error e => exact throw e

theorem bind {p : Parser α} {f : α → Parser β} (hp : Sequential p)
    (hf : ∀ a, Sequential (f a)) : Sequential (p >>= f) where
  ok done := by
    obtain ⟨⟨a, c⟩, first, next⟩ := bind_eq_ok_iff.1 done
    obtain ⟨total, more⟩ := hp.ok first
    obtain ⟨total', more'⟩ := (hf a).ok next
    exact ⟨total'.trans total, fun bytes => bind_eq_ok_iff.2 ⟨_, more bytes, more' bytes⟩⟩
  error {c e} failed := by
    rcases bind_eq_error_iff.1 failed with first | ⟨⟨a, c'⟩, first, next⟩
    · rcases hp.error first with ended | more
      · exact .inl ended
      · exact .inr fun bytes => bind_eq_error_iff.2 (.inl (more bytes))
    · obtain ⟨total, more⟩ := hp.ok first
      rcases (hf a).error next with ended | more'
      · rw [total] at ended
        exact .inl ended
      · exact .inr fun bytes => bind_eq_error_iff.2 (.inr ⟨_, more bytes, more' bytes⟩)

theorem ite {c : Prop} [Decidable c] {p q : Parser α} (hp : Sequential p) (hq : Sequential q) :
    Sequential (if c then p else q) := by
  split
  · exact hp
  · exact hq

/-- A check before the rest. -/
theorem guard {c : Prop} [Decidable c] {e : Error} {f : PUnit → Parser α}
    (h : Sequential (f ⟨⟩)) : Sequential (if c then MonadExcept.throw e >>= f else f ⟨⟩) :=
  ite ((throw e).bind fun _ => h) h

theorem take (n : Nat) : Sequential (Parser.take n) where
  ok {c a c'} done := by
    unfold Parser.take at done
    dsimp only at done
    split at done
    next enough =>
      cases done
      rw [List.length_take] at enough
      have inside : n ≤ c.rest.length := by omega
      constructor
      · show c.position + n + (c.rest.drop n).length = c.position + c.rest.length
        rw [List.length_drop]
        omega
      · intro more
        have front : (c.rest ++ more).take n = c.rest.take n :=
          List.take_append_of_le_length inside
        have back : (c.rest ++ more).drop n = c.rest.drop n ++ more :=
          List.drop_append_of_le_length inside
        have length : (c.rest.take n).length = n := List.length_take_of_le inside
        simp only [Parser.take, Cursor.extend, front, back, length, if_true]
    next => cases done
  error {c e} failed := by
    unfold Parser.take at failed
    dsimp only at failed
    split at failed
    next => cases failed
    next =>
      cases failed
      exact .inl ⟨_, rfl⟩

theorem skip (n : Nat) : Sequential (Parser.skip n) := (take n).bind fun _ => pure _

theorem uint (size : Nat) : Sequential (Parser.uint size) := by
  unfold Parser.uint
  exact guard ((take size).bind fun _ => pure _)

theorem byte : Sequential Parser.byte := (uint 1).bind fun _ => pure _

theorem word16 : Sequential Parser.word16 := (uint 2).bind fun _ => pure _

theorem word32 : Sequential Parser.word32 := (uint 4).bind fun _ => pure _

theorem address (widths : FileWidths) : Sequential (Parser.address widths) :=
  (take _).bind fun _ => pure _

theorem length (widths : FileWidths) : Sequential (Parser.length widths) := uint _

theorem times {p : Parser α} (each : Sequential p) (count : Nat) :
    Sequential (Parser.times p count) := by
  induction count with
  | zero => exact pure []
  | succ count ih => exact each.bind fun _ => ih.bind fun _ => pure _

variable {p : Parser α} {bytes : Bytes} {a : α}

/-- What follows a message makes no difference to a value. -/
theorem parse_append (h : Sequential p) (done : p.parse bytes = .ok a) (more : Bytes) :
    p.parse (bytes ++ more) = .ok a := by
  obtain ⟨⟨a, c⟩, run, rfl⟩ := map_eq_ok_iff.1 done
  exact map_eq_ok_iff.2 ⟨_, (h.ok run).2 more, rfl⟩

/-- A message that is read to its end is refused as one that ends early wherever it is cut off. -/
theorem parse_front (h : Sequential p) (reads : Reads p 0 bytes a) {front : Bytes}
    (cut : front <+: bytes) (proper : front ≠ bytes) :
    ∃ expected, p.parse front = .error (.unexpectedEnd expected front.length) := by
  obtain ⟨rest, rfl⟩ := cut
  have whole := reads.run []
  rw [List.append_nil] at whole
  cases run : p ⟨0, front⟩ with
  | ok result =>
    -- Then the rest would be left over by the whole message.
    have more := (h.ok run).2 rest
    have left : result.2.rest ++ rest = [] :=
      congrArg (fun r => r.2.rest) (Except.ok.inj (more.symm.trans whole))
    rw [(List.append_eq_nil_iff.1 left).2, List.append_nil] at proper
    exact absurd rfl proper
  | error e =>
    rcases h.error run with ⟨expected, rfl⟩ | more
    · refine ⟨expected, ?_⟩
      show (p ⟨0, front⟩).map Prod.fst = _
      rw [run, Cursor.total, Nat.zero_add]
      rfl
    · cases (more rest).symm.trans whole

end Sequential

end Parser

end ChunkStore
