import ChunkStore.Proofs.Bounds

/-!
# Runs with and without a checksum

A computation that compares checksums is set beside the one that does not. `Screened` says that the
first gives what the second gives, or fails because a checksum does not match. Of parsers
`Parser.Screened` says so from a position on: `Parser.Spans` counts the bytes that each step passes,
so that a checksum is known to be the last word of its structure, and to be there. Of sessions
`Session.Screened` also compares what is read (`Session.ranges`): the same ranges of the file, and
of these only the first ones where a checksum does not match. All are closed under the ways in which
computations are put together.
-/

namespace ChunkStore

/-- The result is the error of a checksum that does not match. -/
def IsMismatch {α : Type} (x : Except Error α) : Prop :=
  ∃ part address stored computed, stored ≠ computed ∧
    x = .error (.checksumMismatch part address stored computed)

/-- With checksums compared the result is that without, or that a checksum does not match. -/
def Screened {α : Type} (plain verified : Except Error α) : Prop :=
  verified = plain ∨ IsMismatch verified

namespace Screened

variable {α β : Type}

theorem refl (x : Except Error α) : Screened x x := .inl rfl

theorem bind {x y : Except Error α} {f g : α → Except Error β} (first : Screened x y)
    (next : ∀ a, x = .ok a → Screened (f a) (g a)) : Screened (x >>= f) (y >>= g) := by
  rcases first with rfl | ⟨part, address, stored, computed, differ, rfl⟩
  · cases y with
    | ok a => exact next a rfl
    | error e => exact refl _
  · exact .inr ⟨part, address, stored, computed, differ, rfl⟩

theorem map {x y : Except Error α} (f : α → β) (h : Screened x y) :
    Screened (x.map f) (y.map f) := by
  rcases h with rfl | ⟨part, address, stored, computed, differ, rfl⟩
  · exact refl _
  · exact .inr ⟨part, address, stored, computed, differ, rfl⟩

end Screened

namespace Index.Settings

/-- The settings with checksums compared. -/
def verifying (s : Settings) : Settings := { s with verify := true }

/-- A checksum in the last word of a structure is there to be compared. -/
theorem screened_check (s : Settings) {bytes : Bytes} {covered : Nat} (part : Part) (address : Nat)
    (last : covered + 4 = bytes.length) (fits : bytes.length ≤ maxWord) :
    Screened (s.check bytes covered part address)
      (s.verifying.check bytes covered part address) := by
  unfold check
  rw [if_pos (show s.verifying.verify = true from rfl)]
  split
  · exact .refl _
  · have stop : Bounds.within (covered + 4) = .ok (covered + 4) :=
      Bounds.within_eq_ok_iff.2 ⟨last ▸ fits, rfl⟩
    have word : ¬ (slice bytes covered 4).length < 4 := by
      rw [slice, List.length_take, List.length_drop]
      omega
    rw [verifyChecksum, stop]
    dsimp only [bind, Except.bind]
    rw [if_neg word]
    split
    next differ => exact .inr ⟨part, address, _, _, differ, rfl⟩
    next => exact .refl _

end Index.Settings

/-! ## Parsers -/

namespace Parser

variable {α β : Type}

/-- The parser passes `n` bytes. -/
structure Spans (n : Nat) (p : Parser α) : Prop where
  run : ∀ {c a c'}, p c = .ok (a, c') → c'.position = c.position + n

namespace Spans

variable {n m : Nat}

theorem pure (a : α) : Spans 0 (pure a : Parser α) := ⟨fun done => by cases done; rfl⟩

theorem throw (e : Error) (n : Nat) : Spans n (throw e : Parser α) := ⟨fun done => by cases done⟩

theorem lift (x : Except Error α) : Spans 0 (liftM x : Parser α) := by
  cases x with
  | ok a => exact pure a
  | error e => exact throw e 0

theorem bind {p : Parser α} {f : α → Parser β} (hp : Spans n p) (hf : ∀ a, Spans m (f a)) :
    Spans (n + m) (p >>= f) := by
  refine ⟨fun done => ?_⟩
  obtain ⟨⟨a, c⟩, first, next⟩ := bind_eq_ok_iff.1 done
  rw [(hf a).run next, hp.run first, Nat.add_assoc]

/-- A step after which nothing more is passed. -/
theorem bind_last {p : Parser α} {f : α → Parser β} (hp : Spans n p) (hf : ∀ a, Spans 0 (f a)) :
    Spans n (p >>= f) := bind hp hf

/-- A step that passes nothing, before the others. -/
theorem bind_nil {p : Parser α} {f : α → Parser β} (hp : Spans 0 p) (hf : ∀ a, Spans n (f a)) :
    Spans n (p >>= f) := by
  have both := bind hp hf
  rwa [Nat.zero_add] at both

/-- What is computed passes nothing, and limits what comes after it. -/
theorem bind_lift {x : Except Error α} {f : α → Parser β} (hf : ∀ a, x = .ok a → Spans n (f a)) :
    Spans n ((liftM x : Parser α) >>= f) := by
  cases x with
  | ok a => exact ⟨fun done => (hf a rfl).run done⟩
  | error e => exact ⟨fun done => by cases done⟩

theorem ite {c : Prop} [Decidable c] {p q : Parser α} (hp : c → Spans n p) (hq : ¬ c → Spans n q) :
    Spans n (if c then p else q) := by
  split
  next holds => exact hp holds
  next fails => exact hq fails

/-- A check before the rest. -/
theorem guard {c : Prop} [Decidable c] {e : Error} {f : PUnit → Parser α} (h : Spans n (f ⟨⟩)) :
    Spans n (if c then MonadExcept.throw e >>= f else f ⟨⟩) :=
  .ite (fun _ => ⟨fun done => by cases done⟩) fun _ => h

theorem take (n : Nat) : Spans n (Parser.take n) := by
  refine ⟨fun done => ?_⟩
  unfold Parser.take at done
  dsimp only at done
  split at done
  · cases done
    rfl
  · cases done

theorem skip (n : Nat) : Spans n (Parser.skip n) := (take n).bind_last fun _ => .pure _

theorem uint (size : Nat) : Spans size (Parser.uint size) := by
  unfold Parser.uint
  exact .guard ((take size).bind_last fun _ => .pure _)

theorem byte : Spans 1 Parser.byte := (uint 1).bind_last fun _ => .pure _

theorem word32 : Spans 4 Parser.word32 := (uint 4).bind_last fun _ => .pure _

theorem address (widths : FileWidths) : Spans widths.offsetSize (Parser.address widths) :=
  (take _).bind_last fun _ => .pure _

theorem length (widths : FileWidths) : Spans widths.lengthSize (Parser.length widths) := uint _

theorem times {p : Parser α} (each : Spans n p) (count : Nat) :
    Spans (count * n) (Parser.times p count) := by
  induction count with
  | zero =>
    rw [Nat.zero_mul]
    exact .pure []
  | succ count ih =>
    rw [Nat.add_mul, Nat.one_mul, Nat.add_comm]
    exact each.bind fun _ => ih.bind_last fun _ => .pure _

theorem signature (expected : Bytes) (part : Part) : Spans 4 (Parser.signature expected part) :=
  (take 4).bind_last fun _ => .guard (.pure _)

theorem version (expected : UInt8) (part : Part) : Spans 1 (Parser.version expected part) :=
  byte.bind_last fun _ => .guard (.pure _)

end Spans

/-- From position `start` on, the parser that compares checksums gives what the other one gives, or
that a checksum does not match. -/
structure Screened (start : Nat) (plain verified : Parser α) : Prop where
  run : ∀ c, c.position = start → ChunkStore.Screened (plain c) (verified c)

namespace Screened

variable {start n : Nat}

theorem refl (p : Parser α) : Screened start p p := ⟨fun c _ => .refl (p c)⟩

/-- A step that both parsers take passes some bytes, after which they go on. -/
theorem bind_ensured {p : Parser α} {f g : α → Parser β} {post : α → Prop} (spans : Spans n p)
    (ensured : Ensures p post) (next : ∀ a, post a → Screened (start + n) (f a) (g a)) :
    Screened start (p >>= f) (p >>= g) := by
  refine ⟨fun c here => ?_⟩
  show ChunkStore.Screened (Except.bind (p c) _) (Except.bind (p c) _)
  refine (ChunkStore.Screened.refl (p c)).bind fun (a, c') first => ?_
  exact (next a (ensured.run first)).run c' ((spans.run first).trans (by rw [here]))

theorem bind {p : Parser α} {f g : α → Parser β} (spans : Spans n p)
    (next : ∀ a, Screened (start + n) (f a) (g a)) : Screened start (p >>= f) (p >>= g) :=
  bind_ensured spans (.any p) fun a _ => next a

/-- A check before the rest. -/
theorem guard {c : Prop} [Decidable c] {e : Error} {f g : PUnit → Parser α}
    (h : Screened start (f ⟨⟩) (g ⟨⟩)) :
    Screened start (if c then MonadExcept.throw e >>= f else f ⟨⟩)
      (if c then MonadExcept.throw e >>= g else g ⟨⟩) := by
  split
  · exact ⟨fun _ _ => .refl _⟩
  · exact h

/-- The checksum of a structure, in its last word. -/
theorem bind_check (s : Index.Settings) {bytes : Bytes} {part : Part} {address : Nat}
    {f : Unit → Parser α} (last : start + 4 = bytes.length) (fits : bytes.length ≤ maxWord) :
    Screened start
      (position >>= fun covered => liftM (s.check bytes covered part address) >>= f)
      (position >>= fun covered => liftM (s.verifying.check bytes covered part address) >>= f) := by
  refine ⟨fun c here => ?_⟩
  have checked := s.screened_check part address (here ▸ last) fits
  have lifted {x y : Except Error Unit} (h : ChunkStore.Screened x y) :
      ChunkStore.Screened ((liftM x : Parser Unit) c) ((liftM y : Parser Unit) c) := by
    exact h.map fun u => (u, c)
  exact (lifted checked).bind fun _ _ => .refl _

/-- A structure is read from its first byte on. -/
theorem parse {p q : Parser α} (h : Screened 0 p q) (bytes : Bytes) :
    ChunkStore.Screened (p.parse bytes) (q.parse bytes) := (h.run ⟨0, bytes⟩ rfl).map _

end Screened

end Parser

/-! ## Sessions -/

/-- The ranges of a file in memory that a computation asks for, with their lengths. -/
def Fetch.ranges {α : Type} (image : Image) : Fetch α → List (Nat × Nat)
  | done _ => []
  | read offset length next => (offset, length) :: (next (image.read offset length)).ranges image

theorem Fetch.ranges_bind {α β : Type} (image : Image) (x : Fetch α) (f : α → Fetch β) :
    (x >>= f).ranges image = x.ranges image ++ (f (x.run image)).ranges image := by
  show (Fetch.bind x f).ranges image = _
  induction x with
  | done a => rfl
  | read offset length next ih => exact congrArg _ (ih _)

namespace Session

variable {σ τ α β : Type} {image : Image}

/-- The ranges of the file that a session asks for. -/
def ranges (x : Session σ α) (image : Image) (s : σ) : List (Nat × Nat) :=
  ((ExceptT.run x).run s).ranges image

theorem ranges_bind (x : Session σ α) (f : α → Session σ β) (s : σ) :
    (x >>= f).ranges image s = match x.runOn image s with
      | (.ok a, s') => x.ranges image s ++ (f a).ranges image s'
      | (.error _, _) => x.ranges image s := by
  show Fetch.ranges image ((x s : Fetch (Except Error α × σ)) >>= _) = _
  rw [Fetch.ranges_bind]
  show _ ++ Fetch.ranges image _ = match (x s).run image with
    | (.ok a, s') => x.ranges image s ++ (f a).ranges image s'
    | (.error _, _) => x.ranges image s
  rcases (x s).run image with ⟨_ | _, _⟩
  · exact List.append_nil _
  · rfl

/-- The session that compares checksums, from a state, reads and gives what the other one reads and
gives from the state that goes with it, or it finds on the way that a checksum does not match. -/
def ScreenedFrom (image : Image) (strict : σ → σ) (plain verified : Session σ α) (s : σ) : Prop :=
  (verified.runOn image (strict s) = ((plain.runOn image s).1, strict (plain.runOn image s).2) ∧
    verified.ranges image (strict s) = plain.ranges image s) ∨
  (IsMismatch (verified.runOn image (strict s)).1 ∧
    verified.ranges image (strict s) <+: plain.ranges image s)

/-- The two sessions so compare from every state with the invariant. -/
structure Screened (image : Image) (inv : σ → Prop) (strict : σ → σ)
    (plain verified : Session σ α) : Prop where
  run : ∀ s, inv s → ScreenedFrom image strict plain verified s

namespace Screened

variable {inv : σ → Prop} {strict : σ → σ}

theorem pure (a : α) : Screened image inv strict (pure a : Session σ α) (pure a) :=
  ⟨fun _ _ => .inl ⟨rfl, rfl⟩⟩

theorem throw (e : Error) : Screened image inv strict (throw e : Session σ α) (throw e) :=
  ⟨fun _ _ => .inl ⟨rfl, rfl⟩⟩

theorem liftM (x : Except Error α) :
    Screened image inv strict (liftM x : Session σ α) (liftM x) := ⟨fun _ _ => .inl ⟨rfl, rfl⟩⟩

theorem fetch (offset length : Nat) :
    Screened image inv strict (fetch offset length : Session σ Bytes)
      (Session.fetch offset length) :=
  ⟨fun _ _ => .inl ⟨rfl, rfl⟩⟩

theorem ofExcept {x y : Except Error α} (h : ChunkStore.Screened x y) :
    Screened image inv strict (ofExcept x : Session σ α) (Session.ofExcept y) := by
  refine ⟨fun s _ => ?_⟩
  rcases h with rfl | mismatch
  · exact .inl ⟨rfl, rfl⟩
  · exact .inr ⟨mismatch, List.prefix_refl _⟩

theorem modify {f g : σ → σ} (same : ∀ s, g (strict s) = strict (f s)) :
    Screened image inv strict (modify f : Session σ PUnit) (modify g) :=
  ⟨fun s _ => .inl ⟨congrArg (Prod.mk _) (same s), rfl⟩⟩

/-- The rest compares for what the first step can answer. -/
theorem bind {x y : Session σ α} {f g : α → Session σ β} {between : α → Prop}
    (first : Screened image inv strict x y) (meets : Meets image inv x between)
    (next : ∀ a, between a → Screened image inv strict (f a) (g a)) :
    Screened image inv strict (x >>= f) (y >>= g) := by
  refine ⟨fun s keeps => ?_⟩
  obtain ⟨kept, answers⟩ := meets.run s keeps
  unfold ScreenedFrom
  rw [runOn_bind, runOn_bind, ranges_bind, ranges_bind]
  rcases first.run s keeps with ⟨same, ranges⟩ | ⟨mismatch, front⟩
  · rw [same, ranges]
    cases run : x.runOn image s with
    | mk result s' =>
      rw [run] at kept answers
      cases result with
      | error e => exact .inl ⟨rfl, rfl⟩
      | ok a =>
        rcases (next a (answers a rfl)).run s' kept with ⟨same, ranges⟩ | ⟨mismatch, front⟩
        · exact .inl ⟨same, congrArg _ ranges⟩
        · exact .inr ⟨mismatch, (List.prefix_append_right_inj _).2 front⟩
  · obtain ⟨part, address, stored, computed, differ, failed⟩ := mismatch
    have longer : x.ranges image s <+: match x.runOn image s with
        | (.ok a, s') => x.ranges image s ++ (f a).ranges image s'
        | (.error _, _) => x.ranges image s := by
      split
      · exact List.prefix_append _ _
      · exact List.prefix_refl _
    cases run : y.runOn image (strict s) with
    | mk result s' =>
      rw [run] at failed
      obtain rfl : result = _ := failed
      exact .inr ⟨⟨part, address, stored, computed, differ, rfl⟩, front.trans longer⟩

theorem bind_any {x y : Session σ α} {f g : α → Session σ β}
    (first : Screened image (fun _ => True) strict x y)
    (next : ∀ a, Screened image (fun _ => True) strict (f a) (g a)) :
    Screened image (fun _ => True) strict (x >>= f) (y >>= g) :=
  first.bind (.any x) fun a _ => next a

/-- A number that is computed alike, before the rest. -/
theorem bind_liftM {x : Except Error α} {f g : α → Session σ β}
    (next : ∀ a, x = .ok a → Screened image inv strict (f a) (g a)) :
    Screened image inv strict ((MonadLift.monadLift x : Session σ α) >>= f)
      (MonadLift.monadLift x >>= g) :=
  (liftM x).bind (.liftM fun _ done => done) next

theorem get_bind {f g : σ → Session σ β}
    (next : ∀ s, inv s → Screened image inv strict (f s) (g (strict s))) :
    Screened image inv strict ((MonadState.get : Session σ σ) >>= f) (MonadState.get >>= g) :=
  ⟨fun s keeps => (next s keeps).run s keeps⟩

theorem ite {c : Prop} [Decidable c] {x y x' y' : Session σ α}
    (h : Screened image inv strict x y) (h' : Screened image inv strict x' y') :
    Screened image inv strict (if c then x else x') (if c then y else y') := by
  split
  · exact h
  · exact h'

/-- What compares from more states compares from fewer. -/
theorem weaken {inv' : σ → Prop} {x y : Session σ α} (h : Screened image inv strict x y)
    (fewer : ∀ s, inv' s → inv s) : Screened image inv' strict x y :=
  ⟨fun s keeps => h.run s (fewer s keeps)⟩

/-- What is read of a file and parsed lies in the file. -/
theorem fetch_parse {offset length : Nat} {p q : Bytes → Parser α}
    (h : ∀ bytes : Bytes, bytes.length = length → bytes.length ≤ image.length →
      Parser.Screened 0 (p bytes) (q bytes)) :
    Screened image inv strict
      (do
        let bytes ← (Session.fetch offset length : Session σ Bytes)
        Session.ofExcept ((p bytes).parse bytes))
      (do
        let bytes ← Session.fetch offset length
        Session.ofExcept ((q bytes).parse bytes)) := by
  refine (fetch offset length).bind (.fetch fun _ read => length_of_read read) fun bytes read => ?_
  obtain ⟨whole, inside⟩ := read
  exact .ofExcept ((h bytes whole (by omega)).parse bytes)

end Screened

end Session

namespace Index

open Session

variable {σ α : Type} {image : Image} {inv : σ → Prop} {strict : σ → σ}

/-- What is read and then kept. -/
private theorem screened_keep {x y : Session σ α} {keep keep' : α → σ → σ}
    (same : ∀ a s, keep' a (strict s) = strict (keep a s))
    (read : Session.Screened image (fun _ => True) strict x y) :
    Session.Screened image (fun _ => True) strict
      (do let a ← x; modify (keep a); return a) (do let a ← y; modify (keep' a); return a) :=
  read.bind_any fun a => .bind_any (.modify (same a)) fun _ => .pure a

theorem screened_recallOne {held : σ → Option α} {keep : α → σ → σ} {x y : Session σ α}
    (own : ∀ s, held (strict s) = held s) (same : ∀ a s, keep a (strict s) = strict (keep a s))
    (read : Session.Screened image (fun _ => True) strict x y) :
    Session.Screened image (fun _ => True) strict (recallOne held keep x)
      (recallOne held keep y) := by
  refine .get_bind fun s _ => ?_
  rw [own]
  split
  · exact .pure _
  · exact screened_keep same read

theorem Memo.screened_recallAt {memo : σ → Memo α} {keep : Memo α → σ → σ} {address : Nat}
    {x y : Session σ α} (own : ∀ s, memo (strict s) = memo s)
    (same : ∀ m s, keep m (strict s) = strict (keep m s))
    (read : Session.Screened image (fun _ => True) strict x y) :
    Session.Screened image (fun _ => True) strict (Memo.recallAt memo keep address x)
      (Memo.recallAt memo keep address y) := by
  refine .get_bind fun s _ => ?_
  rw [own]
  split
  · exact .pure _
  · refine screened_keep (fun a s => ?_) read
    rw [own, same]

end Index

end ChunkStore
