import ChunkStore.Proofs.Parser
import ChunkStore.Proofs.Session

/-!
# Computations that stay in range

A result is in range (`InRange`) when no number left its 64 bits on the way to it, no divisor was
zero and no item was taken that a list does not have: it is a value or one of the other errors.
`Parser.InRange` says so of a parser over a structure of a given length, whose checksum can be asked
for wherever the parser stands, and `Session.InRange` of a session from every state with an
invariant. All three are closed under the ways in which computations are put together; a step whose
operands are limited by what came before is in range by what is known of them. `Arithmetic` says of
a result that it is out of range when it is not a value.
-/

namespace ChunkStore

/-- The result is a value, or an error of another kind than a number or an item out of range. -/
def InRange {α : Type} (x : Except Error α) : Prop := x ≠ .error .outOfRange

namespace InRange

variable {α β : Type}

theorem ok (a : α) : InRange (.ok a) := nofun

theorem ok_or_error {x : Except Error α} (h : InRange x) :
    (∃ a, x = .ok a) ∨ ∃ e, e ≠ .outOfRange ∧ x = .error e := by
  cases x with
  | ok a => exact .inl ⟨a, rfl⟩
  | error e => exact .inr ⟨e, fun same => h (by rw [same]), rfl⟩

theorem bind {x : Except Error α} {f : α → Except Error β} (hx : InRange x)
    (hf : ∀ a, x = .ok a → InRange (f a)) : InRange (x >>= f) := by
  cases x with
  | ok a => exact hf a rfl
  | error e => exact fun same => hx (by cases same; rfl)

theorem map {x : Except Error α} (f : α → β) (hx : InRange x) : InRange (x.map f) := by
  cases x with
  | ok a => exact ok (f a)
  | error e => exact fun same => hx (by cases same; rfl)

theorem mapM {f : α → Except Error β} {xs : List α} (each : ∀ x, InRange (f x)) :
    InRange (xs.mapM f) := by
  induction xs with
  | nil => exact ok []
  | cons x xs ih =>
    rw [List.mapM_cons]
    exact (each x).bind fun y _ => ih.bind fun ys _ => ok (y :: ys)

theorem foldlM {f : β → α → Except Error β} {xs : List α} (each : ∀ b x, InRange (f b x)) (b : β) :
    InRange (xs.foldlM f b) := by
  induction xs generalizing b with
  | nil => exact ok b
  | cons x xs ih =>
    rw [List.foldlM_cons]
    exact (each b x).bind fun b _ => ih b

/-- What fails for other reasons fails with other errors. -/
theorem mapError {ε : Type} {x : Except ε α} {f : ε → Error} (other : ∀ e, f e ≠ .outOfRange) :
    InRange (x.mapError f) := by
  cases x with
  | ok a => exact ok a
  | error e => exact fun same => other e (Except.error.inj same)

theorem within {n : Nat} (fits : n ≤ maxWord) : InRange (Bounds.within n) := by
  rw [Bounds.within, if_pos fits]
  exact ok n

theorem sub {a b : Nat} (le : b ≤ a) : InRange (Bounds.sub a b) := by
  rw [Bounds.sub, if_pos le]
  exact ok _

theorem div {a b : Nat} (some : b ≠ 0) : InRange (Bounds.div a b) := by
  rw [Bounds.div, if_neg some]
  exact ok _

theorem item {xs : List α} {i : Nat} (inside : i < xs.length) : InRange (Bounds.item xs i) := by
  rw [Bounds.item_eq_ok_iff.2 (List.getElem?_eq_getElem inside)]
  exact ok _

theorem run {xs : List α} {offset length : Nat} (inside : offset + length ≤ xs.length) :
    InRange (Bounds.run xs offset length) := by
  rw [Bounds.run, if_pos inside]
  exact ok _

end InRange

/-- The result is a value, or the error that a number or an item is out of range. -/
def Arithmetic {α : Type} (x : Except Error α) : Prop := ∀ e, x = .error e → e = .outOfRange

namespace Arithmetic

variable {α β : Type}

theorem ok (a : α) : Arithmetic (.ok a) := nofun

theorem outOfRange : Arithmetic (.error .outOfRange : Except Error α) := by
  intro e same
  cases same
  rfl

theorem bind {x : Except Error α} {f : α → Except Error β} (hx : Arithmetic x)
    (hf : ∀ a, Arithmetic (f a)) : Arithmetic (x >>= f) := by
  cases x with
  | ok a => exact hf a
  | error e => exact fun e' same => hx e' (by cases same; rfl)

theorem foldlM {f : β → α → Except Error β} {xs : List α} (each : ∀ b x, Arithmetic (f b x))
    (b : β) : Arithmetic (xs.foldlM f b) := by
  induction xs generalizing b with
  | nil => exact ok b
  | cons x xs ih =>
    rw [List.foldlM_cons]
    exact (each b x).bind ih

theorem within (n : Nat) : Arithmetic (Bounds.within n) := by
  unfold Bounds.within
  split
  · exact ok n
  · exact outOfRange

theorem sub (a b : Nat) : Arithmetic (Bounds.sub a b) := by
  unfold Bounds.sub
  split
  · exact ok _
  · exact outOfRange

theorem run (xs : List α) (offset length : Nat) : Arithmetic (Bounds.run xs offset length) := by
  unfold Bounds.run
  split
  · exact ok _
  · exact outOfRange

theorem product (factors : List Nat) : Arithmetic (Bounds.product factors) :=
  foldlM (fun _ _ => within _) 1

/-- Arithmetic is out of range exactly when it has no value. -/
theorem eq_outOfRange_iff {x : Except Error α} (h : Arithmetic x) :
    x = .error .outOfRange ↔ ¬ ∃ a, x = .ok a := by
  cases x with
  | ok a => exact iff_of_false nofun (not_not_intro ⟨a, rfl⟩)
  | error e => exact iff_of_true (congrArg _ (h e rfl)) nofun

end Arithmetic

/-- A read fails only because the file ends. -/
theorem Image.inRange_read (image : Image) (offset length : Nat) :
    InRange (image.read offset length) := by
  unfold Image.read
  split
  · exact .ok _
  · exact nofun

theorem length_of_read {image : Image} {offset length : Nat} {bytes : Bytes}
    (read : image.read offset length = .ok bytes) :
    bytes.length = length ∧ offset + length ≤ image.length := by
  unfold Image.read at read
  split at read
  next inside =>
    cases read
    refine ⟨?_, inside⟩
    rw [slice, List.length_take, List.length_drop]
    omega
  next => cases read

/-- A checksum that is asked for within a structure can be compared. -/
theorem inRange_verifyChecksum {bytes : Bytes} {covered : Nat} (part : Part) (address : Nat)
    (fits : covered + 4 ≤ maxWord) : InRange (verifyChecksum bytes covered part address) := by
  refine (InRange.within fits).bind fun stop _ => ?_
  dsimp only
  split
  · exact nofun
  · split
    · exact nofun
    · exact nofun

theorem Index.Settings.inRange_check (s : Settings) {bytes : Bytes} {covered : Nat} (part : Part)
    (address : Nat) (fits : covered + 4 ≤ maxWord) :
    InRange (s.check bytes covered part address) := by
  unfold check
  split
  · exact inRange_verifyChecksum part address fits
  · exact .ok ()

namespace Parser

variable {α β : Type}

/-- Over a structure of `total` bytes, wherever it stands, the parser is in range and goes on in
the structure. -/
structure InRange (total : Nat) (p : Parser α) : Prop where
  run : ∀ c, c.position + c.rest.length = total → ChunkStore.InRange (p c) ∧
    ∀ a c', p c = .ok (a, c') → c'.position + c'.rest.length = total

namespace InRange

variable {total : Nat}

theorem pure (a : α) : InRange total (pure a : Parser α) :=
  ⟨fun _ whole => ⟨nofun, fun _ _ done => by cases done; exact whole⟩⟩

theorem throw {e : Error} (other : e ≠ .outOfRange) : InRange total (throw e : Parser α) :=
  ⟨fun _ _ => ⟨fun same => other (by cases same; rfl), fun _ _ done => by cases done⟩⟩

theorem lift {x : Except Error α} (h : ChunkStore.InRange x) :
    InRange total (liftM x : Parser α) := by
  refine ⟨fun c whole => ?_⟩
  cases x with
  | ok a => exact ⟨nofun, fun _ _ done => by cases done; exact whole⟩
  | error e =>
    exact ⟨fun same => h (by cases same; rfl), fun _ _ done => by cases done⟩

/-- The rest is in range for what the first step can give. -/
theorem bind_ensured {p : Parser α} {f : α → Parser β} {post : α → Prop} (hp : InRange total p)
    (ensured : Ensures p post) (hf : ∀ a, post a → InRange total (f a)) :
    InRange total (p >>= f) := by
  refine ⟨fun c whole => ?_⟩
  obtain ⟨first, goes⟩ := hp.run c whole
  constructor
  · refine first.bind fun (a, c') done => ?_
    exact ((hf a (ensured.run done)).run c' (goes a c' done)).1
  · intro b c'' done
    obtain ⟨⟨a, c'⟩, here, done⟩ := bind_eq_ok_iff.1 done
    exact ((hf a (ensured.run here)).run c' (goes a c' here)).2 b c'' done

theorem bind {p : Parser α} {f : α → Parser β} (hp : InRange total p)
    (hf : ∀ a, InRange total (f a)) : InRange total (p >>= f) :=
  hp.bind_ensured (.any p) fun a _ => hf a

/-- The parser stands somewhere in the structure. -/
theorem bind_position {f : Nat → Parser β} (hf : ∀ n, n ≤ total → InRange total (f n)) :
    InRange total (position >>= f) :=
  ⟨fun c whole => (hf c.position (by omega)).run c whole⟩

theorem ite {c : Prop} [Decidable c] {p q : Parser α} (hp : c → InRange total p)
    (hq : ¬ c → InRange total q) : InRange total (if c then p else q) := by
  split
  next holds => exact hp holds
  next fails => exact hq fails

/-- A check before the rest. -/
theorem guard {c : Prop} [Decidable c] {e : Error} {f : PUnit → Parser α}
    (other : e ≠ .outOfRange) (h : ¬ c → InRange total (f ⟨⟩)) :
    InRange total (if c then MonadExcept.throw e >>= f else f ⟨⟩) :=
  .ite (fun _ => (throw other).bind_ensured (.throw e fun _ => False) fun _ never => never.elim) h

theorem take (n : Nat) : InRange total (Parser.take n) := by
  refine ⟨fun c whole => ?_⟩
  unfold Parser.take
  dsimp only
  split
  next length =>
    refine ⟨nofun, fun _ _ done => ?_⟩
    cases done
    rw [List.length_take] at length
    show c.position + n + (c.rest.drop n).length = total
    rw [List.length_drop]
    omega
  next => exact ⟨nofun, fun _ _ done => by cases done⟩

theorem skip (n : Nat) : InRange total (Parser.skip n) := (take n).bind fun _ => .pure _

theorem uint (size : Nat) : InRange total (Parser.uint size) := by
  unfold Parser.uint
  exact .guard (by nofun) fun _ => (take size).bind fun _ => .pure _

theorem byte : InRange total Parser.byte := (uint 1).bind fun _ => .pure _

theorem word32 : InRange total Parser.word32 := (uint 4).bind fun _ => .pure _

theorem address (widths : FileWidths) : InRange total (Parser.address widths) :=
  (take _).bind fun _ => .pure _

theorem length (widths : FileWidths) : InRange total (Parser.length widths) := uint _

theorem times {p : Parser α} (each : InRange total p) (count : Nat) :
    InRange total (Parser.times p count) := by
  induction count with
  | zero => exact .pure []
  | succ count ih => exact each.bind fun _ => ih.bind fun _ => .pure _

theorem signature (expected : Bytes) (part : Part) :
    InRange total (Parser.signature expected part) :=
  (take 4).bind fun _ => .ite (fun _ => .throw (by nofun)) fun _ => .pure _

theorem version (expected : UInt8) (part : Part) : InRange total (Parser.version expected part) :=
  byte.bind fun _ => .ite (fun _ => .throw (by nofun)) fun _ => .pure _

/-- The structure is read from its first byte on. -/
theorem parse {p : Parser α} {bytes : Bytes} (h : InRange bytes.length p) :
    ChunkStore.InRange (p.parse bytes) :=
  .map _ (h.run ⟨0, bytes⟩ (Nat.zero_add _)).1

end InRange

end Parser

namespace Session

variable {σ α β : Type} {image : Image} {inv : σ → Prop}

/-- From every state with the invariant the session's result is in range. -/
structure InRange (image : Image) (inv : σ → Prop) (x : Session σ α) : Prop where
  run : ∀ s, inv s → ChunkStore.InRange (x.runOn image s).1

namespace InRange

theorem pure (a : α) : InRange image inv (pure a : Session σ α) := ⟨fun _ _ => nofun⟩

theorem throw {e : Error} (other : e ≠ .outOfRange) : InRange image inv (throw e : Session σ α) :=
  ⟨fun _ _ same => other (by cases same; rfl)⟩

theorem ofExcept {x : Except Error α} (h : ChunkStore.InRange x) :
    InRange image inv (ofExcept x : Session σ α) := ⟨fun _ _ => h⟩

theorem liftM {x : Except Error α} (h : ChunkStore.InRange x) :
    InRange image inv (liftM x : Session σ α) := ⟨fun _ _ => h⟩

theorem fetch (offset length : Nat) : InRange image inv (fetch offset length : Session σ Bytes) :=
  ⟨fun _ _ => image.inRange_read offset length⟩

theorem set (s' : σ) : InRange image inv (MonadStateOf.set s' : Session σ PUnit) :=
  ⟨fun _ _ => nofun⟩

/-- The rest is in range for what the first step can answer. -/
theorem bind {x : Session σ α} {f : α → Session σ β} {between : α → Prop}
    (hx : InRange image inv x) (meets : Meets image inv x between)
    (hf : ∀ a, between a → InRange image inv (f a)) : InRange image inv (x >>= f) := by
  refine ⟨fun s keeps => ?_⟩
  have here := hx.run s keeps
  obtain ⟨kept, answers⟩ := meets.run s keeps
  rw [runOn_bind]
  cases run : x.runOn image s with
  | mk result s' =>
    rw [run] at here kept answers
    cases result with
    | ok a => exact (hf a (answers a rfl)).run s' kept
    | error e => exact fun same => here (by cases same; rfl)

/-- A step that reads the file without regard to the state, before the rest. -/
theorem bind_ofExcept {x : Except Error α} {f : α → Session σ β} (hx : ChunkStore.InRange x)
    (hf : ∀ a, x = .ok a → InRange image inv (f a)) :
    InRange image inv ((Session.ofExcept x : Session σ α) >>= f) :=
  (ofExcept hx).bind (.ofExcept fun _ done => done) hf

theorem bind_liftM {x : Except Error α} {f : α → Session σ β} (hx : ChunkStore.InRange x)
    (hf : ∀ a, x = .ok a → InRange image inv (f a)) :
    InRange image inv ((MonadLift.monadLift x : Session σ α) >>= f) :=
  (liftM hx).bind (.liftM fun _ done => done) hf

theorem bind_fetch {offset length : Nat} {f : Bytes → Session σ β}
    (hf : ∀ bytes, bytes.length = length → offset + length ≤ image.length →
      InRange image inv (f bytes)) :
    InRange image inv ((Session.fetch offset length : Session σ Bytes) >>= f) :=
  (fetch offset length).bind (.fetch fun _ read => length_of_read read)
    fun bytes read => hf bytes read.1 read.2

theorem get_bind {f : σ → Session σ β} (hf : ∀ s, inv s → InRange image inv (f s)) :
    InRange image inv ((MonadState.get : Session σ σ) >>= f) :=
  ⟨fun s keeps => (hf s keeps).run s keeps⟩

theorem ite {c : Prop} [Decidable c] {x y : Session σ α} (hx : c → InRange image inv x)
    (hy : ¬ c → InRange image inv y) : InRange image inv (if c then x else y) := by
  split
  next holds => exact hx holds
  next fails => exact hy fails

/-- A check before the rest. -/
theorem guard {c : Prop} [Decidable c] {e : Error} {f : PUnit → Session σ α}
    (other : e ≠ .outOfRange) (h : ¬ c → InRange image inv (f ⟨⟩)) :
    InRange image inv (if c then MonadExcept.throw e >>= f else f ⟨⟩) :=
  .ite (fun _ => (throw other).bind (.throw e fun _ => False) fun _ never => never.elim) h

/-- What is in range from more states is in range from fewer. -/
theorem weaken {inv' : σ → Prop} {x : Session σ α} (h : InRange image inv x)
    (fewer : ∀ s, inv' s → inv s) : InRange image inv' x :=
  ⟨fun s keeps => h.run s (fewer s keeps)⟩

/-- What is read of a file and parsed lies in the file. -/
theorem fetch_parse {offset length : Nat} {p : Bytes → Parser α}
    (bound : image.length + 4 ≤ maxWord)
    (h : ∀ bytes : Bytes, offset + bytes.length + 4 ≤ maxWord →
      Parser.InRange bytes.length (p bytes)) :
    InRange image inv (do
      let bytes ← (Session.fetch offset length : Session σ Bytes)
      Session.ofExcept ((p bytes).parse bytes)) :=
  .bind_fetch fun bytes read inside => .ofExcept (h bytes (by omega)).parse

end InRange

/-- What is read and then kept. -/
theorem inRange_keep {read : Session σ α} {keep : α → σ → σ} (hread : InRange image inv read) :
    InRange image inv (do let a ← read; modify (keep a); return a) := by
  refine ⟨fun s keeps => ?_⟩
  have here := hread.run s keeps
  rw [runOn_bind]
  rcases run : read.runOn image s with ⟨_ | a, s'⟩
  · rw [run] at here
    exact here
  · exact .ok a

end Session

namespace Index

open Session

variable {σ α : Type} {image : Image} {inv : σ → Prop}

theorem inRange_recallOne {held : σ → Option α} {keep : α → σ → σ} {read : Session σ α}
    (hread : Session.InRange image inv read) :
    Session.InRange image inv (recallOne held keep read) := by
  refine .get_bind fun s _ => ?_
  split
  · exact .pure _
  · exact inRange_keep hread

theorem Memo.inRange_recallAt {memo : σ → Memo α} {keep : Memo α → σ → σ} {address : Nat}
    {read : Session σ α} (hread : Session.InRange image inv read) :
    Session.InRange image inv (Memo.recallAt memo keep address read) := by
  refine .get_bind fun s _ => ?_
  split
  · exact .pure _
  · exact inRange_keep hread

end Index

end ChunkStore
