import ChunkStore.Proofs.Index.Handle

/-!
# Results that do not depend on what is held

A session repeats a result (`Session.Repeats`) when it gives this result, an answer or an error,
from every state with an invariant, and keeps the invariant; it is steady (`Session.Steady`) when
it repeats some result. What a handle recalls repeats when only that is ever held which reading
gives (`repeats_recallOne`, `Memo.repeats_recallAt`). A handle whose lookups are steady answers
after any lookups, failed ones among them, as it does when it is new (`Embeds.answerAfter_new`).
-/

namespace ChunkStore

namespace Session

variable {σ α β : Type} {image : Image} {inv : σ → Prop}

/-- From every state with the invariant the session gives this result and keeps the invariant. -/
structure Repeats (image : Image) (inv : σ → Prop) (x : Session σ α)
    (result : Except Error α) : Prop where
  run : ∀ s, inv s → (x.runOn image s).1 = result ∧ inv (x.runOn image s).2

/-- From every state with the invariant the session gives one and the same result. -/
def Steady (image : Image) (inv : σ → Prop) (x : Session σ α) : Prop :=
  ∃ result, Repeats image inv x result

namespace Repeats

/-- What has nothing to do with the state gives one result. -/
theorem of_detached {x : Session σ α} (s : σ) (h : Detached x) :
    Repeats image inv x (x.runOn image s).1 := by
  refine ⟨fun s' keeps => ?_⟩
  rw [h.run image s' s]
  exact ⟨rfl, keeps⟩

theorem pure (a : α) : Repeats image inv (pure a : Session σ α) (.ok a) :=
  ⟨fun _ keeps => ⟨rfl, keeps⟩⟩

theorem throw (e : Error) : Repeats image inv (throw e : Session σ α) (.error e) :=
  ⟨fun _ keeps => ⟨rfl, keeps⟩⟩

theorem liftM (x : Except Error α) : Repeats image inv (liftM x : Session σ α) x :=
  ⟨fun _ keeps => ⟨rfl, keeps⟩⟩

theorem modify {f : σ → σ} (h : ∀ s, inv s → inv (f s)) :
    Repeats image inv (modify f : Session σ PUnit) (.ok ⟨⟩) := ⟨fun s keeps => ⟨rfl, h s keeps⟩⟩

/-- A first step that always answers hands its answer to the rest. -/
theorem bind {x : Session σ α} {f : α → Session σ β} {a : α} {result : Except Error β}
    (first : Repeats image inv x (.ok a)) (next : Repeats image inv (f a) result) :
    Repeats image inv (x >>= f) result := by
  refine ⟨fun s keeps => ?_⟩
  obtain ⟨answer, kept⟩ := first.run s keeps
  have run : x.runOn image s = (.ok a, (x.runOn image s).2) := Prod.ext answer rfl
  rw [runOn_bind_ok image run]
  exact next.run _ kept

/-- A first step that always fails ends the session. -/
theorem bind_error {x : Session σ α} {f : α → Session σ β} {e : Error}
    (first : Repeats image inv x (.error e)) : Repeats image inv (x >>= f) (.error e) := by
  refine ⟨fun s keeps => ?_⟩
  obtain ⟨answer, kept⟩ := first.run s keeps
  have run : x.runOn image s = (.error e, (x.runOn image s).2) := Prod.ext answer rfl
  rw [runOn_bind_error image run]
  exact ⟨rfl, kept⟩

/-- The state that a session starts from has the invariant. -/
theorem get_bind {f : σ → Session σ β} {result : Except Error β}
    (next : ∀ s, inv s → Repeats image inv (f s) result) :
    Repeats image inv ((MonadState.get : Session σ σ) >>= f) result :=
  ⟨fun s keeps => (next s keeps).run s keeps⟩

theorem meets {x : Session σ α} {result : Except Error α} (h : Repeats image inv x result) :
    Meets image inv x fun a => result = .ok a :=
  ⟨fun s keeps => ⟨(h.run s keeps).2, fun _ answer => (h.run s keeps).1.symm.trans answer⟩⟩

end Repeats

/-- What is read and then kept. -/
theorem repeats_keep {read : Session σ α} {keep : α → σ → σ} {result : Except Error α}
    (kept : ∀ s a, inv s → result = .ok a → inv (keep a s))
    (hread : Repeats image inv read result) :
    Repeats image inv (do let a ← read; modify (keep a); return a) result := by
  cases result with
  | error e => exact hread.bind_error
  | ok a => exact hread.bind (.bind (.modify fun s keeps => kept s a keeps rfl) (.pure a))

namespace Steady

theorem pure (a : α) : Steady image inv (pure a : Session σ α) := ⟨_, .pure a⟩

theorem liftM (x : Except Error α) : Steady image inv (liftM x : Session σ α) := ⟨_, .liftM x⟩

/-- The rest matters only after the answer that the first step always gives. -/
theorem bind {x : Session σ α} {f : α → Session σ β} {result : Except Error α}
    (first : Repeats image inv x result)
    (next : ∀ a, result = .ok a → Steady image inv (f a)) : Steady image inv (x >>= f) := by
  cases result with
  | error e => exact ⟨_, first.bind_error⟩
  | ok a =>
    obtain ⟨last, rest⟩ := next a rfl
    exact ⟨last, first.bind rest⟩

/-- What the rest takes from the state must be the same in all states with the invariant. -/
theorem get_bind {f : σ → Session σ β} (same : ∀ s s', inv s → inv s' → f s = f s')
    (next : ∀ s, inv s → Steady image inv (f s)) :
    Steady image inv ((MonadState.get : Session σ σ) >>= f) := by
  by_cases some : ∃ s, inv s
  · obtain ⟨s, keeps⟩ := some
    obtain ⟨result, rest⟩ := next s keeps
    refine ⟨result, ⟨fun s' keeps' => ?_⟩⟩
    rw [runOn_get_bind, same s' s keeps' keeps]
    exact rest.run s' keeps'
  · exact ⟨.error .outOfRange, ⟨fun s keeps => absurd ⟨s, keeps⟩ some⟩⟩

theorem ite {c : Prop} [Decidable c] {x y : Session σ α} (hx : c → Steady image inv x)
    (hy : ¬ c → Steady image inv y) : Steady image inv (if c then x else y) := by
  split
  next holds => exact hx holds
  next fails => exact hy fails

theorem meets {x : Session σ α} (h : Steady image inv x) : Meets image inv x fun _ => True := by
  obtain ⟨result, repeats⟩ := h
  exact ⟨fun s keeps => ⟨(repeats.run s keeps).2, fun _ _ => trivial⟩⟩

end Steady

end Session

namespace Index

open Session

variable {σ α : Type} {image : Image} {inv : σ → Prop}

/-- A structure of which only that is ever held which reading gives. -/
theorem repeats_recallOne {held : σ → Option α} {keep : α → σ → σ} {read : Session σ α}
    {right : Except Error α} (only : ∀ s a, inv s → held s = some a → right = .ok a)
    (kept : ∀ s a, inv s → right = .ok a → inv (keep a s))
    (hread : Repeats image inv read right) :
    Repeats image inv (recallOne held keep read) right := by
  refine .get_bind fun s keeps => ?_
  split
  next a known => exact only s a keeps known ▸ .pure a
  next => exact repeats_keep kept hread

/-- A structure of which only that is ever held which a handle that holds nothing reads. -/
theorem repeats_recallOne_of_free {held : σ → Option α} {keep : α → σ → σ} {read : Session σ α}
    (first : σ)
    (only : ∀ s a, inv s → held s = some a →
      ((recallOne held keep read).runOn image first).1 = .ok a)
    (kept : ∀ s a, inv s → ((recallOne held keep read).runOn image first).1 = .ok a →
      inv (keep a s))
    (detached : Detached read) (free : held first = none) :
    Repeats image inv (recallOne held keep read)
      ((recallOne held keep read).runOn image first).1 := by
  rw [fst_runOn_recallOne image first free] at only kept ⊢
  exact repeats_recallOne only kept (.of_detached first detached)

/-- A structure of which only that is ever held at its address which reading gives. -/
theorem Memo.repeats_recallAt {memo : σ → Memo α} {keep : Memo α → σ → σ} {address : Nat}
    {read : Session σ α} {right : Except Error α}
    (only : ∀ s a, inv s → (memo s).get? address = some a → right = .ok a)
    (kept : ∀ s a, inv s → right = .ok a → inv (keep ((memo s).insert address a) s))
    (hread : Repeats image inv read right) :
    Repeats image inv (Memo.recallAt memo keep address read) right := by
  refine .get_bind fun s keeps => ?_
  split
  next a known => exact only s a keeps known ▸ .pure a
  next => exact repeats_keep kept hread

/-- What a handle that holds nothing at an address reads and keeps is what it reads. -/
theorem Memo.fst_runOn_recallAt {memo : σ → Memo α} {keep : Memo α → σ → σ} {address : Nat}
    {read : Session σ α} {s : σ} (free : (memo s).get? address = none) :
    ((Memo.recallAt memo keep address read).runOn image s).1 = (read.runOn image s).1 := by
  rw [Memo.runOn_recallAt, free]
  rcases read.runOn image s with ⟨_ | _, _⟩ <;> rfl

/-- A structure of which only that is ever held at its address which a handle that holds nothing
reads. -/
theorem Memo.repeats_recallAt_of_free {memo : σ → Memo α} {keep : Memo α → σ → σ} {address : Nat}
    {read : Session σ α} (first : σ)
    (only : ∀ s a, inv s → (memo s).get? address = some a →
      ((Memo.recallAt memo keep address read).runOn image first).1 = .ok a)
    (kept : ∀ s a, inv s → ((Memo.recallAt memo keep address read).runOn image first).1 = .ok a →
      inv (keep ((memo s).insert address a) s))
    (detached : Detached read) (free : (memo first).get? address = none) :
    Repeats image inv (Memo.recallAt memo keep address read)
      ((Memo.recallAt memo keep address read).runOn image first).1 := by
  rw [Memo.fst_runOn_recallAt free] at only kept ⊢
  exact Memo.repeats_recallAt only kept (.of_detached first detached)

end Index

namespace ChunkIndex.Embeds

open Session Index

variable {σ : Type} {embed : σ → ChunkIndex} {opening : σ → Settings × Nat}
variable {look : Coordinate → Session σ Descriptor} {image : Image} {inv : σ → Prop}
variable {s : Settings} {address : Nat}

/-- After any lookups a lookup of the right rank is answered by a structure with an invariant that
every lookup of the structure keeps. -/
theorem exists_answerAfter (embeds : Embeds embed opening look)
    (opened : ∀ x, inv x → opening x = (s, address))
    (keeps : ∀ c : Coordinate, c.length = s.geometry.rank → Meets image inv (look c) fun _ => True)
    {x : σ} (holds : inv x) (earlier : List Coordinate) (c : Coordinate) :
    ∃ x', inv x' ∧ answerAfter image (embed x) earlier c =
      if c.length = s.geometry.rank then ((look c).runOn image x').1
      else .error (.rankMismatch s.geometry.rank c.length) := by
  obtain ⟨x', reached, holds'⟩ := embeds.after opened keeps holds earlier
  refine ⟨x', holds', ?_⟩
  rw [answerAfter, reached, ← embeds.rank_eq (opened x' holds')]
  split
  next right => rw [embeds.run image (if_pos right)]
  next wrong => rw [runOn_lookup_rank image (if_neg wrong)]

/-- A lookup that is steady for every coordinate answers after any others as on a new handle. -/
theorem answerAfter_new (embeds : Embeds embed opening look)
    (opened : ∀ x, inv x → opening x = (s, address))
    (steady : ∀ c : Coordinate, c.length = s.geometry.rank → Steady image inv (look c))
    {x : σ} (holds : inv x) (earlier : List Coordinate) (c : Coordinate) :
    answerAfter image (embed x) earlier c = answerAfter image (embed x) [] c := by
  have keeps (c : Coordinate) (right : c.length = s.geometry.rank) := (steady c right).meets
  obtain ⟨x', holds', answer⟩ := embeds.exists_answerAfter opened keeps holds earlier c
  obtain ⟨new, holds, first⟩ := embeds.exists_answerAfter opened keeps holds [] c
  rw [answer, first]
  split
  next right =>
    obtain ⟨result, repeats⟩ := steady c right
    exact (repeats.run x' holds').1.trans (repeats.run new holds).1.symm
  next => rfl

end ChunkIndex.Embeds

end ChunkStore
