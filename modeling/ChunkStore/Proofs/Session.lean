import ChunkStore.Index.Basic

/-!
# Running sessions over an image

`Session.runOn` of each step a session is made of: what it answers and which state it leaves. A
step that is met for the first time decodes a structure and keeps it (`runOn_recallOne`,
`runOn_recallAt`). `Session.Keeps` says that a session never changes a part of the state,
`Session.Meets` that it keeps an invariant and what its answer is like, `Session.Answers` that it
succeeds with one answer, `Session.Detached` that it has nothing to do with the state. They are
closed under the ways in which sessions are put together.
-/

namespace ChunkStore

namespace Session

variable {σ τ α β : Type} (image : Image) (s : σ)

@[simp] theorem runOn_pure (a : α) : (pure a : Session σ α).runOn image s = (.ok a, s) := rfl

theorem runOn_bind (x : Session σ α) (f : α → Session σ β) :
    (x >>= f).runOn image s = match x.runOn image s with
      | (.ok a, s) => (f a).runOn image s
      | (.error e, s) => (.error e, s) := by
  show Fetch.run image ((x s : Fetch (Except Error α × σ)) >>= _) = _
  rw [Fetch.run_bind]
  show _ = match (x s).run image with
    | (.ok a, s) => (f a).runOn image s
    | (.error e, s) => (.error e, s)
  rcases (x s).run image with ⟨_ | _, _⟩ <;> rfl

/-- A step that succeeds hands its answer and its state to the rest. -/
theorem runOn_bind_ok {x : Session σ α} {f : α → Session σ β} {a : α} {s s' : σ}
    (h : x.runOn image s = (.ok a, s')) :
    (x >>= f).runOn image s = (f a).runOn image s' := by
  rw [runOn_bind, h]

/-- A step that fails ends the session. -/
theorem runOn_bind_error {x : Session σ α} {f : α → Session σ β} {e : Error} {s s' : σ}
    (h : x.runOn image s = (.error e, s')) :
    (x >>= f).runOn image s = (.error e, s') := by
  rw [runOn_bind, h]

@[simp] theorem runOn_get : (get : Session σ σ).runOn image s = (.ok s, s) := rfl

@[simp] theorem runOn_set (s' : σ) : (set s' : Session σ PUnit).runOn image s = (.ok ⟨⟩, s') := rfl

@[simp] theorem runOn_modify (f : σ → σ) :
    (modify f : Session σ PUnit).runOn image s = (.ok ⟨⟩, f s) := rfl

@[simp] theorem runOn_throw (e : Error) :
    (throw e : Session σ α).runOn image s = (.error e, s) := rfl

@[simp] theorem runOn_ofExcept (x : Except Error α) :
    (ofExcept x : Session σ α).runOn image s = (x, s) := rfl

@[simp] theorem runOn_liftM (x : Except Error α) :
    (liftM x : Session σ α).runOn image s = (x, s) := rfl

@[simp] theorem runOn_fetch (offset length : Nat) :
    (fetch offset length : Session σ Bytes).runOn image s = (image.read offset length, s) := rfl

@[simp] theorem runOn_get_bind (f : σ → Session σ β) :
    ((get : Session σ σ) >>= f).runOn image s = (f s).runOn image s := rfl

theorem runOn_zoom (get : σ → τ) (set : τ → σ → σ) (x : Session τ α) :
    (zoom get set x).runOn image s =
      ((x.runOn image (get s)).1, set (x.runOn image (get s)).2 s) := by
  show Fetch.run image (x (get s) >>= _) = _
  rw [Fetch.run_bind]
  rfl

/-- What was read stands somewhere, in a file of 64-bit length. -/
theorem ne_undefinedAddress_of_fetch (bound : image.length ≤ maxWord) {offset length : Nat}
    (pos : 0 < length) {f : Bytes → Session σ α} {a : α}
    (done : ((fetch offset length >>= f).runOn image s).1 = .ok a) : offset ≠ undefinedAddress := by
  rintro rfl
  have beyond : ¬ undefinedAddress + length ≤ image.length := by
    rw [undefinedAddress]
    omega
  have refused : image.read undefinedAddress length = .error _ := if_neg beyond
  rw [runOn_bind, runOn_fetch, refused] at done
  cases done

/-! ## Parts of the state that a session leaves alone -/

/-- The session changes nothing that `part` sees, whether it succeeds or fails. -/
structure Keeps (part : σ → τ) (x : Session σ α) : Prop where
  same : ∀ image s, part (x.runOn image s).2 = part s

namespace Keeps

variable {part : σ → τ}

theorem pure (a : α) : Keeps part (pure a : Session σ α) := ⟨fun _ _ => rfl⟩

theorem throw (e : Error) : Keeps part (throw e : Session σ α) := ⟨fun _ _ => rfl⟩

theorem get : Keeps part (get : Session σ σ) := ⟨fun _ _ => rfl⟩

theorem ofExcept (x : Except Error α) : Keeps part (ofExcept x : Session σ α) :=
  ⟨fun _ _ => rfl⟩

theorem liftM (x : Except Error α) : Keeps part (liftM x : Session σ α) := ⟨fun _ _ => rfl⟩

theorem fetch (offset length : Nat) : Keeps part (fetch offset length : Session σ Bytes) :=
  ⟨fun _ _ => rfl⟩

theorem modify {f : σ → σ} (h : ∀ s, part (f s) = part s) :
    Keeps part (modify f : Session σ PUnit) := ⟨fun _ s => h s⟩

theorem bind {x : Session σ α} {f : α → Session σ β} (hx : Keeps part x)
    (hf : ∀ a, Keeps part (f a)) : Keeps part (x >>= f) := by
  refine ⟨fun image s => ?_⟩
  have first := hx.same image s
  rw [runOn_bind]
  cases h : x.runOn image s with
  | mk result s' =>
    rw [h] at first
    cases result with
    | ok a => exact ((hf a).same image s').trans first
    | error e => exact first

theorem ite {p : Prop} [Decidable p] {x y : Session σ α} (hx : Keeps part x) (hy : Keeps part y) :
    Keeps part (if p then x else y) := by
  split
  · exact hx
  · exact hy

/-- What is made of a part that stays the same stays the same. -/
theorem comp {ρ : Type} (f : τ → ρ) {x : Session σ α} (h : Keeps part x) :
    Keeps (fun s => f (part s)) x := ⟨fun image s => congrArg f (h.same image s)⟩

end Keeps

/-! ## Sessions that have nothing to do with the state -/

/-- The session answers the same in every state, and leaves the state alone. -/
structure Detached (x : Session σ α) : Prop where
  run : ∀ image s s', x.runOn image s = ((x.runOn image s').1, s)

namespace Detached

theorem throw (e : Error) : Detached (throw e : Session σ α) := ⟨fun _ _ _ => rfl⟩

theorem ofExcept (x : Except Error α) : Detached (ofExcept x : Session σ α) := ⟨fun _ _ _ => rfl⟩

theorem liftM (x : Except Error α) : Detached (liftM x : Session σ α) := ⟨fun _ _ _ => rfl⟩

theorem fetch (offset length : Nat) : Detached (fetch offset length : Session σ Bytes) :=
  ⟨fun _ _ _ => rfl⟩

theorem bind {x : Session σ α} {f : α → Session σ β} (hx : Detached x)
    (hf : ∀ a, Detached (f a)) : Detached (x >>= f) := by
  refine ⟨fun image s s' => ?_⟩
  rw [runOn_bind, runOn_bind, hx.run image s s', hx.run image s' s']
  cases (x.runOn image s').1 with
  | ok a => exact (hf a).run image s s'
  | error e => rfl

theorem ite {p : Prop} [Decidable p] {x y : Session σ α} (hx : Detached x) (hy : Detached y) :
    Detached (if p then x else y) := by
  split
  · exact hx
  · exact hy

/-- A check before the rest. -/
theorem guard {c : Prop} [Decidable c] {e : Error} {f : PUnit → Session σ α}
    (h : Detached (f ⟨⟩)) : Detached (if c then MonadExcept.throw e >>= f else f ⟨⟩) :=
  ite (bind (throw e) fun _ => h) h

end Detached

/-! ## Sessions that keep an invariant -/

/-- From every state with the invariant the session keeps the invariant, whether it succeeds or
fails, and what it answers has the property `post`. -/
structure Meets (image : Image) (inv : σ → Prop) (x : Session σ α) (post : α → Prop) : Prop where
  run : ∀ s, inv s → inv (x.runOn image s).2 ∧ ∀ a, (x.runOn image s).1 = .ok a → post a

namespace Meets

variable {image : Image} {inv : σ → Prop}

theorem imp {x : Session σ α} {post post' : α → Prop} (h : Meets image inv x post)
    (imp : ∀ a, post a → post' a) : Meets image inv x post' :=
  ⟨fun s holds => ⟨(h.run s holds).1, fun a answer => imp a ((h.run s holds).2 a answer)⟩⟩

/-- Nothing is asked of any session. -/
theorem any (x : Session σ α) : Meets image (fun _ => True) x fun _ => True :=
  ⟨fun _ _ => ⟨trivial, fun _ _ => trivial⟩⟩

theorem pure {a : α} {post : α → Prop} (h : post a) :
    Meets image inv (pure a : Session σ α) post :=
  ⟨fun _ keeps => ⟨keeps, fun _ answer => by cases answer; exact h⟩⟩

theorem throw (e : Error) (post : α → Prop) : Meets image inv (throw e : Session σ α) post :=
  ⟨fun _ keeps => ⟨keeps, fun _ answer => by cases answer⟩⟩

theorem ofExcept {x : Except Error α} {post : α → Prop} (h : ∀ a, x = .ok a → post a) :
    Meets image inv (ofExcept x : Session σ α) post := ⟨fun _ keeps => ⟨keeps, h⟩⟩

theorem liftM {x : Except Error α} {post : α → Prop} (h : ∀ a, x = .ok a → post a) :
    Meets image inv (liftM x : Session σ α) post := ⟨fun _ keeps => ⟨keeps, h⟩⟩

theorem fetch {offset length : Nat} {post : Bytes → Prop}
    (h : ∀ bytes, image.read offset length = .ok bytes → post bytes) :
    Meets image inv (fetch offset length : Session σ Bytes) post := ⟨fun _ keeps => ⟨keeps, h⟩⟩

theorem set {s' : σ} (h : inv s') :
    Meets image inv (MonadStateOf.set s' : Session σ PUnit) fun _ => True :=
  ⟨fun _ _ => ⟨h, fun _ _ => trivial⟩⟩

theorem modify {f : σ → σ} (h : ∀ s, inv s → inv (f s)) :
    Meets image inv (modify f : Session σ PUnit) fun _ => True :=
  ⟨fun s keeps => ⟨h s keeps, fun _ _ => trivial⟩⟩

theorem bind {x : Session σ α} {f : α → Session σ β} {between : α → Prop} {post : β → Prop}
    (first : Meets image inv x between) (next : ∀ a, between a → Meets image inv (f a) post) :
    Meets image inv (x >>= f) post := by
  refine ⟨fun s keeps => ?_⟩
  obtain ⟨kept, answers⟩ := first.run s keeps
  rw [runOn_bind]
  cases run : x.runOn image s with
  | mk result s' =>
    rw [run] at kept answers
    cases result with
    | error e => exact ⟨kept, fun _ answer => by cases answer⟩
    | ok a => exact (next a (answers a rfl)).run s' kept

/-- Bytes are fetched and decoded. -/
theorem fetch_ofExcept {offset length : Nat} {decode : Bytes → Except Error α}
    {post : α → Prop} (h : ∀ bytes a, decode bytes = .ok a → post a) :
    Meets image inv (do
      let bytes ← Session.fetch offset length
      Session.ofExcept (decode bytes)) post :=
  bind (fetch fun _ _ => trivial) fun bytes _ => ofExcept (h bytes)

/-- The state that a session starts from has the invariant. -/
theorem get_bind {f : σ → Session σ β} {post : β → Prop}
    (next : ∀ s, inv s → Meets image inv (f s) post) :
    Meets image inv ((MonadState.get : Session σ σ) >>= f) post :=
  ⟨fun s keeps => (next s keeps).run s keeps⟩

theorem ite {c : Prop} [Decidable c] {x y : Session σ α} {post : α → Prop}
    (hx : Meets image inv x post) (hy : Meets image inv y post) :
    Meets image inv (if c then x else y) post := by
  split
  · exact hx
  · exact hy

/-- A check that was passed. -/
theorem guard {c : Prop} [Decidable c] {e : Error} {f : PUnit → Session σ α} {post : α → Prop}
    (h : ¬ c → Meets image inv (f ⟨⟩) post) :
    Meets image inv (if c then MonadExcept.throw e >>= f else f ⟨⟩) post := by
  split
  · exact bind (throw e fun _ => False) fun _ never => never.elim
  next fails => exact h fails

/-- What an answer is like, whatever the state was. -/
theorem of_eq_ok {x : Session σ α} {post : α → Prop} {s : σ} {a : α}
    (answer : (x.runOn image s).1 = .ok a) (h : Meets image (fun _ => True) x post) : post a :=
  (h.run s trivial).2 a answer

/-- What a session answers in one state it answers in all, when it has nothing to do with them. -/
theorem of_detached {x : Session σ α} (s : σ) (h : Detached x) :
    Meets image inv x fun a => (x.runOn image s).1 = .ok a := by
  refine ⟨fun s' keeps => ?_⟩
  rw [h.run image s' s]
  exact ⟨keeps, fun _ answer => answer⟩

end Meets

/-! ## Sessions with one answer -/

/-- From every state with the invariant the session answers `value` and keeps the invariant. -/
structure Answers (image : Image) (inv : σ → Prop) (x : Session σ α) (value : α) : Prop where
  run : ∀ s, inv s → ∃ s', x.runOn image s = (.ok value, s') ∧ inv s'

namespace Answers

variable {image : Image} {inv : σ → Prop}

theorem pure (a : α) : Answers image inv (pure a : Session σ α) a := ⟨fun s h => ⟨s, rfl, h⟩⟩

theorem ofExcept {x : Except Error α} {a : α} (h : x = .ok a) :
    Answers image inv (ofExcept x : Session σ α) a :=
  ⟨fun s keeps => ⟨s, by rw [runOn_ofExcept, h], keeps⟩⟩

theorem liftM {x : Except Error α} {a : α} (h : x = .ok a) :
    Answers image inv (liftM x : Session σ α) a :=
  ⟨fun s keeps => ⟨s, by rw [runOn_liftM, h], keeps⟩⟩

theorem fetch {offset length : Nat} {bytes : Bytes} (h : image.read offset length = .ok bytes) :
    Answers image inv (fetch offset length : Session σ Bytes) bytes :=
  ⟨fun s keeps => ⟨s, by rw [runOn_fetch, h], keeps⟩⟩

theorem set {s' : σ} (h : inv s') :
    Answers image inv (MonadStateOf.set s' : Session σ PUnit) ⟨⟩ := ⟨fun _ _ => ⟨s', rfl, h⟩⟩

theorem modify {f : σ → σ} (h : ∀ s, inv s → inv (f s)) :
    Answers image inv (modify f : Session σ PUnit) ⟨⟩ :=
  ⟨fun s keeps => ⟨f s, rfl, h s keeps⟩⟩

theorem bind {x : Session σ α} {f : α → Session σ β} {a : α} {b : β}
    (first : Answers image inv x a) (next : Answers image inv (f a) b) :
    Answers image inv (x >>= f) b := by
  refine ⟨fun s keeps => ?_⟩
  obtain ⟨s', run, keeps'⟩ := first.run s keeps
  rw [runOn_bind_ok image run]
  exact next.run s' keeps'

/-- What a session answers in one state it answers in all, when it has nothing to do with them. -/
theorem of_detached {x : Session σ α} {a : α} {s : σ} (h : Detached x)
    (answer : (x.runOn image s).1 = .ok a) : Answers image inv x a :=
  ⟨fun s' keeps => ⟨s', by rw [h.run image s' s, answer], keeps⟩⟩

theorem meets {x : Session σ α} {a : α} (h : Answers image inv x a) :
    Meets image inv x fun _ => True := by
  refine ⟨fun s keeps => ?_⟩
  obtain ⟨s', run, keeps'⟩ := h.run s keeps
  rw [run]
  exact ⟨keeps', fun _ _ => trivial⟩

/-- The state that a session starts from has the invariant. -/
theorem get_bind {f : σ → Session σ β} {b : β}
    (next : ∀ s, inv s → Answers image inv (f s) b) :
    Answers image inv ((MonadState.get : Session σ σ) >>= f) b :=
  ⟨fun s keeps => (next s keeps).run s keeps⟩

theorem ite_pos {c : Prop} [Decidable c] {x y : Session σ α} {a : α} (holds : c)
    (h : Answers image inv x a) : Answers image inv (if c then x else y) a := by
  rwa [if_pos holds]

theorem ite_neg {c : Prop} [Decidable c] {x y : Session σ α} {a : α} (fails : ¬ c)
    (h : Answers image inv y a) : Answers image inv (if c then x else y) a := by
  rwa [if_neg fails]

end Answers

end Session

namespace Index

open Session

variable {σ α : Type} (image : Image) (s : σ)

theorem runOn_recallOne (held : σ → Option α) (keep : α → σ → σ) (read : Session σ α) :
    (recallOne held keep read).runOn image s = match held s with
      | some item => (.ok item, s)
      | none => match read.runOn image s with
        | (.ok item, s) => (.ok item, keep item s)
        | (.error e, s) => (.error e, s) := by
  rw [recallOne, runOn_get_bind]
  cases held s with
  | some item => rfl
  | none =>
    simp only [runOn_bind]
    rcases read.runOn image s with ⟨_ | _, _⟩ <;> rfl

theorem Memo.runOn_recallAt (memo : σ → Memo α) (keep : Memo α → σ → σ) (address : Nat)
    (read : Session σ α) :
    (Memo.recallAt memo keep address read).runOn image s =
      match (memo s).get? address with
      | some item => (.ok item, s)
      | none => match read.runOn image s with
        | (.ok item, s) => (.ok item, keep ((memo s).insert address item) s)
        | (.error e, s) => (.error e, s) := by
  rw [Memo.recallAt, runOn_get_bind]
  cases (memo s).get? address with
  | some item => rfl
  | none =>
    simp only [runOn_bind]
    rcases read.runOn image s with ⟨_ | _, _⟩ <;> rfl

theorem keeps_recallOne {τ : Type} {part : σ → τ} {held : σ → Option α} {keep : α → σ → σ}
    {read : Session σ α} (hread : Keeps part read) (hkeep : ∀ a s, part (keep a s) = part s) :
    Keeps part (recallOne held keep read) := by
  refine .bind .get fun s => ?_
  split
  · exact .pure _
  · exact .bind hread fun a => .bind (.modify (hkeep a)) fun _ => .pure _

theorem Memo.keeps_recallAt {τ : Type} {part : σ → τ} {memo : σ → Memo α}
    {keep : Memo α → σ → σ} {address : Nat} {read : Session σ α} (hread : Keeps part read)
    (hkeep : ∀ m s, part (keep m s) = part s) :
    Keeps part (Memo.recallAt memo keep address read) := by
  refine .bind .get fun s => ?_
  split
  · exact .pure _
  · exact .bind hread fun a => .bind (.modify fun s => hkeep _ s) fun _ => .pure _

/-- What is known of a structure that is held, and of one that is read, is known of the
structure. -/
theorem meets_recallOne {image : Image} {inv : σ → Prop} {post : α → Prop} {held : σ → Option α}
    {keep : α → σ → σ} {read : Session σ α} (knows : ∀ s a, inv s → held s = some a → post a)
    (keeps : ∀ s a, inv s → post a → inv (keep a s)) (reads : Meets image inv read post) :
    Meets image inv (recallOne held keep read) post := by
  apply Meets.get_bind
  intro s holds
  split
  next a found => exact .pure (knows s a holds found)
  next =>
    apply Meets.bind reads
    intro a known
    exact .bind (.modify fun s holds => keeps s a holds known) fun _ _ => .pure known

theorem Memo.meets_recallAt {image : Image} {inv : σ → Prop} {post : α → Prop}
    {memo : σ → Memo α} {keep : Memo α → σ → σ} {address : Nat} {read : Session σ α}
    (knows : ∀ s a, inv s → (memo s).get? address = some a → post a)
    (keeps : ∀ s a, inv s → post a → inv (keep ((memo s).insert address a) s))
    (reads : Meets image inv read post) :
    Meets image inv (Memo.recallAt memo keep address read) post := by
  apply Meets.get_bind
  intro s holds
  split
  next a found => exact .pure (knows s a holds found)
  next =>
    apply Meets.bind reads
    intro a known
    exact .bind (.modify fun s holds => keeps s a holds known) fun _ _ => .pure known

/-- A structure of which only the right one is ever held. -/
theorem answers_recallOne {inv : σ → Prop} {held : σ → Option α} {keep : α → σ → σ}
    {read : Session σ α} {right : α} (only : ∀ s a, inv s → held s = some a → a = right)
    (kept : ∀ s, inv s → inv (keep right s)) (hread : Answers image inv read right) :
    Answers image inv (recallOne held keep read) right := by
  refine ⟨fun s keeps => ?_⟩
  rw [runOn_recallOne]
  cases found : held s with
  | some a =>
    obtain rfl := only s a keeps found
    exact ⟨s, rfl, keeps⟩
  | none =>
    obtain ⟨s', run, keeps'⟩ := hread.run s keeps
    rw [run]
    exact ⟨keep right s', rfl, kept s' keeps'⟩

/-- What a handle that holds nothing reads and keeps is what it reads. -/
theorem fst_runOn_recallOne {held : σ → Option α} {keep : α → σ → σ} {read : Session σ α}
    (free : held s = none) :
    ((recallOne held keep read).runOn image s).1 = (read.runOn image s).1 := by
  rw [runOn_recallOne, free]
  rcases read.runOn image s with ⟨_ | _, _⟩ <;> rfl

/-- The state in which a structure leaves a handle, whether it is held or read: the one structure
that a handle which holds nothing reads. -/
theorem runOn_recallOne_of_free {held : σ → Option α} {keep : α → σ → σ} {read : Session σ α}
    {right : α} {first : σ} (only : ∀ a, held s = some a → a = right ∧ keep a s = s)
    (detached : Detached read) (free : held first = none)
    (found : ((recallOne held keep read).runOn image first).1 = .ok right) :
    (recallOne held keep read).runOn image s = (.ok right, keep right s) := by
  rw [fst_runOn_recallOne image first free] at found
  rw [runOn_recallOne]
  cases known : held s with
  | some a =>
    obtain ⟨rfl, same⟩ := only a known
    rw [same]
  | none =>
    rw [detached.run image s first, found]

/-- A structure of which only such are ever held as a handle that holds nothing reads. -/
theorem meets_recallOne_of_free {inv : σ → Prop} {held : σ → Option α} {keep : α → σ → σ}
    {read : Session σ α} (first : σ)
    (only : ∀ s a, inv s → held s = some a →
      ((recallOne held keep read).runOn image first).1 = .ok a)
    (kept : ∀ s a, inv s → ((recallOne held keep read).runOn image first).1 = .ok a →
      inv (keep a s))
    (detached : Detached read) (free : held first = none) :
    Meets image inv (recallOne held keep read) fun a =>
      ((recallOne held keep read).runOn image first).1 = .ok a := by
  rw [fst_runOn_recallOne image first free] at only kept ⊢
  exact meets_recallOne only kept (.of_detached first detached)

/-- A structure of which only that is ever held which a handle that holds nothing reads. -/
theorem answers_recallOne_of_free {inv : σ → Prop} {held : σ → Option α} {keep : α → σ → σ}
    {read : Session σ α} {right : α} (only : ∀ s a, inv s → held s = some a → a = right)
    (kept : ∀ s, inv s → inv (keep right s)) (detached : Detached read) (free : held s = none)
    (first : ((recallOne held keep read).runOn image s).1 = .ok right) :
    Answers image inv (recallOne held keep read) right :=
  answers_recallOne image only kept
    (.of_detached detached ((fst_runOn_recallOne image s free).symm.trans first))

/-- A structure of which only the right one is ever held at its address. -/
theorem Memo.answers_recallAt {inv : σ → Prop} {memo : σ → Memo α} {keep : Memo α → σ → σ}
    {address : Nat} {read : Session σ α} {right : α}
    (only : ∀ s a, inv s → (memo s).get? address = some a → a = right)
    (kept : ∀ s, inv s → inv (keep ((memo s).insert address right) s))
    (hread : Answers image inv read right) :
    Answers image inv (Memo.recallAt memo keep address read) right := by
  refine ⟨fun s keeps => ?_⟩
  rw [Memo.runOn_recallAt]
  cases found : (memo s).get? address with
  | some a =>
    obtain rfl := only s a keeps found
    exact ⟨s, rfl, keeps⟩
  | none =>
    obtain ⟨s', run, keeps'⟩ := hread.run s keeps
    rw [run]
    exact ⟨_, rfl, kept s' keeps'⟩

@[simp] theorem Memo.get?_empty (address : Nat) : (Memo.empty : Memo α).get? address = none := rfl

/-- A structure that is kept is found again at its address, and nothing else is. -/
theorem Memo.get?_insert (m : Memo α) (address other : Nat) (item : α) :
    (m.insert address item).get? other =
      if other = address then some item else m.get? other := by
  rw [Memo.insert, Memo.get?, Memo.get?, List.lookup_cons]
  by_cases h : other = address
  · simp [h]
  · simp [h, beq_eq_false_iff_ne.2 h]

/-- What is known of all that a memo keeps and of what is added is known of all that it keeps
then. -/
theorem Memo.forall_insert {m : Memo α} {post : Nat → α → Prop} {address : Nat} {item : α}
    (old : ∀ own item, m.get? own = some item → post own item) (new : post address item) :
    ∀ own item', (m.insert address item).get? own = some item' → post own item' := by
  intro own item' found
  rw [Memo.get?_insert] at found
  split at found
  next same =>
    cases found
    rwa [same]
  next => exact old own item' found

end Index

end ChunkStore
