import ChunkStore.Proofs.Index.Settled

/-!
# What lookups decode

Decoding a structure is what makes an index read the file: `Session.reads` counts the ranges that a
session asks for. An `Account` says which structures a handle holds, how many it has counted and
how many ranges one of them takes. A session is accounted for (`Session.Decodes`) when all that it
adds to the handle is new, is counted, and has been paid for with what was read: a session that
succeeds reads for nothing else, and one that fails reads at most for one structure more, which
could not be decoded. The lookups of every kind of index are accounted for
(`ChunkIndex.decodes_lookup`), so no structure is decoded twice.
-/

namespace ChunkStore

/-- How many ranges of a file in memory a computation asks for. -/
def Fetch.reads {α : Type} (image : Image) : Fetch α → Nat
  | done _ => 0
  | read offset length next => (next (image.read offset length)).reads image + 1

theorem Fetch.reads_bind {α β : Type} (image : Image) (x : Fetch α) (f : α → Fetch β) :
    (x >>= f).reads image = x.reads image + (f (x.run image)).reads image := by
  show (Fetch.bind x f).reads image = _
  induction x with
  | done a => exact (Nat.zero_add _).symm
  | read offset length next ih =>
    show ((next _).bind f).reads image + 1 = (next _).reads image + 1 + _
    rw [ih, Nat.add_right_comm]
    rfl

namespace Index

/-- A structure of an index that a handle can hold. -/
inductive Structure where
  | header
  /-- The one block of a fixed array, and the index block of an extensible array. -/
  | block
  | secondaryBlock (address : Nat)
  | dataBlock (address : Nat)
  | page (address : Nat)
  | node (address : Nat)
  deriving DecidableEq, Repr

/-- How a handle accounts for what it has decoded. -/
structure Account (σ : Type) where
  /-- Ranges that decoding one structure reads. -/
  price : Nat
  held : σ → List Structure
  /-- How many structures the handle has counted. -/
  decoded : σ → Nat

end Index

namespace Session

open Index

variable {σ α β : Type} {image : Image} {account : Account σ}

/-- How many ranges of the file a session asks for. -/
def reads (x : Session σ α) (image : Image) (s : σ) : Nat := ((ExceptT.run x).run s).reads image

theorem reads_bind (x : Session σ α) (f : α → Session σ β) (s : σ) :
    (x >>= f).reads image s = match x.runOn image s with
      | (.ok a, s') => x.reads image s + (f a).reads image s'
      | (.error _, _) => x.reads image s := by
  show Fetch.reads image ((x s : Fetch (Except Error α × σ)) >>= _) = _
  rw [Fetch.reads_bind]
  show _ + Fetch.reads image _ = match (x s).run image with
    | (.ok a, s') => x.reads image s + (f a).reads image s'
    | (.error _, _) => x.reads image s
  rcases (x s).run image with ⟨_ | _, _⟩ <;> rfl

/-- The session asks for at most so many ranges, and for just so many when it succeeds. -/
structure Costs (image : Image) (most : Nat) (x : Session σ α) : Prop where
  run : ∀ s, x.reads image s ≤ most ∧
    ∀ a, (x.runOn image s).1 = .ok a → x.reads image s = most

namespace Costs

theorem ofExcept (x : Except Error α) : Costs image 0 (ofExcept x : Session σ α) :=
  ⟨fun _ => ⟨Nat.le_refl 0, fun _ _ => rfl⟩⟩

theorem liftM (x : Except Error α) : Costs image 0 (liftM x : Session σ α) :=
  ⟨fun _ => ⟨Nat.le_refl 0, fun _ _ => rfl⟩⟩

theorem throw (e : Error) (most : Nat) : Costs image most (throw e : Session σ α) :=
  ⟨fun _ => ⟨Nat.zero_le most, fun _ never => by cases never⟩⟩

theorem fetch (offset length : Nat) : Costs image 1 (fetch offset length : Session σ Bytes) :=
  ⟨fun _ => ⟨Nat.le_refl 1, fun _ _ => rfl⟩⟩

theorem bind {x : Session σ α} {f : α → Session σ β} {first next : Nat}
    (hx : Costs image first x) (hf : ∀ a, Costs image next (f a)) :
    Costs image (first + next) (x >>= f) := by
  refine ⟨fun s => ?_⟩
  obtain ⟨most, all⟩ := hx.run s
  rw [reads_bind, runOn_bind]
  cases run : x.runOn image s with
  | mk result s' =>
    rw [run] at all
    cases result with
    | error e => exact ⟨Nat.le_add_right_of_le most, fun _ never => by cases never⟩
    | ok a =>
      obtain ⟨most', all'⟩ := (hf a).run s'
      exact ⟨Nat.add_le_add most most', fun b done => congrArg₂ (· + ·) (all a rfl) (all' b done)⟩

/-- A check before the rest. -/
theorem guard {c : Prop} [Decidable c] {e : Error} {f : PUnit → Session σ α} {most : Nat}
    (h : Costs image most (f ⟨⟩)) :
    Costs image most (if c then MonadExcept.throw e >>= f else f ⟨⟩) := by
  split
  · rw [← Nat.zero_add most]
    exact bind (throw e 0) fun _ => h
  · exact h

end Costs

/-- What the session adds to the handle is new, is counted and has been paid for; a failure costs
at most the price of one structure. -/
def DecodesFrom (image : Image) (account : Account σ) (x : Session σ α) (s : σ) : Prop :=
  ∃ new, (account.held (x.runOn image s).2).Perm (new ++ account.held s) ∧
    (new ++ account.held s).Nodup ∧
    account.decoded (x.runOn image s).2 = account.decoded s + new.length ∧
    x.reads image s ≤ account.price * (new.length + 1) ∧
    ∀ a, (x.runOn image s).1 = .ok a → x.reads image s = account.price * new.length

/-- The session is accounted for from every state that holds no structure twice. -/
structure Decodes (image : Image) (account : Account σ) (x : Session σ α) : Prop where
  run : ∀ s, (account.held s).Nodup → DecodesFrom image account x s

/-- A session that reads nothing and leaves the state alone. -/
theorem DecodesFrom.of_still {x : Session σ α} {s : σ} (nodup : (account.held s).Nodup)
    (same : (x.runOn image s).2 = s) (none : x.reads image s = 0) :
    DecodesFrom image account x s := by
  refine ⟨[], ?_, nodup, ?_, ?_, fun _ _ => none⟩
  · rw [same]
    exact .refl _
  · rw [same]
    rfl
  · rw [none]
    exact Nat.zero_le _

/-- What a session does first of all is look at the state. -/
theorem DecodesFrom.get_bind {f : σ → Session σ β} {s : σ}
    (next : DecodesFrom image account (f s) s) :
    DecodesFrom image account ((MonadState.get : Session σ σ) >>= f) s := next

namespace Decodes

theorem pure (a : α) : Decodes image account (pure a : Session σ α) :=
  ⟨fun _ nodup => .of_still nodup rfl rfl⟩

theorem throw (e : Error) : Decodes image account (throw e : Session σ α) :=
  ⟨fun _ nodup => .of_still nodup rfl rfl⟩

theorem liftM (x : Except Error α) : Decodes image account (liftM x : Session σ α) :=
  ⟨fun _ nodup => .of_still nodup rfl rfl⟩

theorem bind {x : Session σ α} {f : α → Session σ β} (hx : Decodes image account x)
    (hf : ∀ a, Decodes image account (f a)) : Decodes image account (x >>= f) := by
  refine ⟨fun s nodup => ?_⟩
  obtain ⟨new, perm, fresh, counted, most, paid⟩ := hx.run s nodup
  unfold DecodesFrom
  rw [reads_bind, runOn_bind]
  cases run : x.runOn image s with
  | mk result s' =>
    rw [run] at perm counted paid
    dsimp only at perm counted paid
    cases result with
    | error e => exact ⟨new, perm, fresh, counted, most, fun _ never => by cases never⟩
    | ok a =>
      obtain ⟨new', perm', fresh', counted', most', paid'⟩ :=
        (hf a).run s' (perm.nodup_iff.2 fresh)
      have paid := paid a rfl
      have joined : (new' ++ account.held s').Perm (new' ++ new ++ account.held s) := by
        rw [List.append_assoc]
        exact perm.append_left new'
      refine ⟨new' ++ new, perm'.trans joined, joined.nodup_iff.1 fresh', ?_, ?_, ?_⟩
      · rw [counted', counted, List.length_append]
        omega
      · rw [paid, List.length_append]
        calc account.price * new.length + (f a).reads image s'
          _ ≤ account.price * new.length + account.price * (new'.length + 1) :=
            Nat.add_le_add_left most' _
          _ = account.price * (new'.length + new.length + 1) := by ring
      · intro b done
        rw [List.length_append]
        calc x.reads image s + (f a).reads image s'
          _ = account.price * new.length + account.price * new'.length := by
            rw [paid, paid' b done]
          _ = account.price * (new'.length + new.length) := by ring

theorem get_bind {f : σ → Session σ β} (next : ∀ s, Decodes image account (f s)) :
    Decodes image account ((MonadState.get : Session σ σ) >>= f) :=
  ⟨fun s nodup => .get_bind ((next s).run s nodup)⟩

theorem ite {c : Prop} [Decidable c] {x y : Session σ α} (hx : Decodes image account x)
    (hy : Decodes image account y) : Decodes image account (if c then x else y) := by
  split
  · exact hx
  · exact hy

end Decodes

/-- Reading a structure that is not held and keeping it. -/
theorem decodesFrom_keep {read : Session σ α} {keep : α → σ → σ} {item : Structure} {s : σ}
    (nodup : (account.held s).Nodup) (free : item ∉ account.held s)
    (kept : ∀ a, (account.held (keep a s)).Perm (item :: account.held s) ∧
      account.decoded (keep a s) = account.decoded s + 1)
    (detached : Detached read) (costs : Costs image account.price read) :
    DecodesFrom image account (do let a ← read; modify (keep a); return a) s := by
  obtain ⟨most, all⟩ := costs.run s
  unfold DecodesFrom
  rw [reads_bind, runOn_bind]
  have run := detached.run image s s
  cases answer : (read.runOn image s).1 with
  | error e =>
    rw [answer] at run
    rw [run]
    refine ⟨[], .refl _, nodup, rfl, ?_, fun _ never => by cases never⟩
    rwa [List.length_nil, Nat.zero_add, Nat.mul_one]
  | ok a =>
    rw [answer] at run
    rw [run]
    obtain ⟨perm, counted⟩ := kept a
    have paid : read.reads image s = account.price := all a answer
    refine ⟨[item], perm, List.nodup_cons.2 ⟨free, nodup⟩, counted, ?_, fun _ _ => ?_⟩
    · show read.reads image s + 0 ≤ _
      rw [paid]
      exact Nat.le_mul_of_pos_right _ (Nat.succ_pos _)
    · show read.reads image s + 0 = _
      rw [paid]
      exact (Nat.mul_one _).symm

end Session

namespace Index

open Session

variable {σ α : Type} {image : Image} {account : Account σ}

/-- A structure of which there is one is read only when it is not held. -/
theorem decodes_recallOne {held : σ → Option α} {keep : α → σ → σ} {read : Session σ α}
    (item : Structure) (free : ∀ s, held s = none → item ∉ account.held s)
    (kept : ∀ s a, held s = none → (account.held (keep a s)).Perm (item :: account.held s) ∧
      account.decoded (keep a s) = account.decoded s + 1)
    (detached : Detached read) (costs : Costs image account.price read) :
    Decodes image account (recallOne held keep read) := by
  refine ⟨fun s nodup => .get_bind ?_⟩
  split
  next a known => exact .of_still nodup rfl rfl
  next known =>
    exact decodesFrom_keep nodup (free s known) (fun a => kept s a known) detached costs

/-- The structures of a memo. -/
def Memo.held (named : Nat → Structure) (m : Memo α) : List Structure :=
  m.items.map fun p => named p.1

theorem Memo.not_mem_held {named : Nat → Structure} (inj : ∀ a b, named a = named b → a = b)
    {m : Memo α} {address : Nat} (free : m.get? address = none) :
    named address ∉ m.held named := by
  intro mem
  obtain ⟨p, among, same⟩ := List.mem_map.1 mem
  have differs := List.lookup_eq_none_iff.1 free p among
  rw [inj _ _ same] at differs
  simp at differs

/-- A structure at an address is read only when it is not held. -/
theorem Memo.decodes_recallAt {memo : σ → Memo α} {keep : Memo α → σ → σ} {address : Nat}
    {read : Session σ α} (named : Nat → Structure) (inj : ∀ a b, named a = named b → a = b)
    (own : ∀ s, named address ∈ account.held s → named address ∈ (memo s).held named)
    (kept : ∀ s a,
      (account.held (keep ((memo s).insert address a) s)).Perm
        (named address :: account.held s) ∧
      account.decoded (keep ((memo s).insert address a) s) = account.decoded s + 1)
    (detached : Detached read) (costs : Costs image account.price read) :
    Decodes image account (Memo.recallAt memo keep address read) := by
  refine ⟨fun s nodup => .get_bind ?_⟩
  split
  next a known => exact .of_still nodup rfl rfl
  next known =>
    exact decodesFrom_keep nodup (fun mem => Memo.not_mem_held inj known (own s mem)) (kept s)
      detached costs

theorem costs_pageEntries (s : Settings) (p : Part) (address count width : Nat) :
    Costs image 1 (pageEntries s p address count width (σ := σ)) :=
  .bind (.ofExcept _) fun _ => .bind (.fetch ..) fun _ => .ofExcept _

end Index

namespace Index

open Session

variable {image : Image}

/-! ## Fixed arrays -/

namespace FixedArray

/-- The structures that a handle holds. -/
def held (a : FixedArray) : List Structure :=
  (a.header.map fun _ => .header).toList ++ (a.block.map fun _ => .block).toList ++
    a.pages.held .page

/-- A structure is decoded from one range. -/
def account : Account FixedArray := ⟨1, held, decoded⟩

theorem decodes_recallHeader (a : FixedArray) : Decodes image account a.recallHeader := by
  refine decodes_recallOne .header ?_ ?_ (.bind (.fetch ..) fun _ => .ofExcept _)
    (.bind (.fetch ..) fun _ => .ofExcept _)
  · intro s free
    simp [account, held, Memo.held, free]
  · intro s h free
    constructor
    · simp [account, held, free]
    · simp [account, decoded, free]
      omega

theorem decodes_recallBlock (a : FixedArray) (h : Header) :
    Decodes image account (a.recallBlock h) := by
  refine decodes_recallOne .block ?_ ?_ (.bind (.fetch ..) fun _ => .ofExcept _)
    (.bind (.fetch ..) fun _ => .ofExcept _)
  · intro s free
    simp [account, held, Memo.held, free]
  · intro s h free
    constructor
    · simp [account, held, free, List.perm_middle]
    · simp [account, decoded, free]
      omega

theorem decodes_recallPage (a : FixedArray) (h : Header) (firstPage page : Nat) :
    Decodes image account (a.recallPage h firstPage page) := by
  refine .bind (.liftM _) fun before => .bind (.liftM _) fun rest => ?_
  refine Memo.decodes_recallAt .page (by simp) ?_ ?_ (detached_pageEntries ..)
    (costs_pageEntries ..)
  · intro s mem
    simpa [account, held] using mem
  · intro s entries
    exact ⟨List.perm_middle, rfl⟩

theorem decodes_entry (i : Nat) : Decodes image account (entry i) := by
  apply Decodes.get_bind
  intro a
  apply Decodes.bind (decodes_recallHeader a)
  intro h
  apply Decodes.ite (.pure _)
  apply Decodes.bind (decodes_recallBlock a h)
  intro b
  cases b with
  | unpaged entries => exact .pure _
  | paged bitmap firstPage =>
    apply Decodes.ite (.pure _)
    exact .bind (decodes_recallPage a h firstPage _) fun entries => .pure _

theorem decodes_lookup (c : Coordinate) : Decodes image account (lookup c) := by
  apply Decodes.get_bind
  intro a
  exact .ite (.pure _) (decodes_entry _)

end FixedArray

/-! ## Extensible arrays -/

namespace ExtensibleArray

/-- The structures that a handle holds. -/
def held (a : ExtensibleArray) : List Structure :=
  (a.header.map fun _ => .header).toList ++ (a.indexBlock.map fun _ => .block).toList ++
    (a.secondaryBlocks.held .secondaryBlock ++ (a.dataBlocks.held .dataBlock ++ a.pages.held .page))

/-- A structure is decoded from one range. -/
def account : Account ExtensibleArray := ⟨1, held, decoded⟩

theorem decodes_recallHeader (a : ExtensibleArray) : Decodes image account a.recallHeader := by
  refine decodes_recallOne .header ?_ ?_ (.bind (.fetch ..) fun _ => .ofExcept _)
    (.bind (.fetch ..) fun _ => .ofExcept _)
  · intro s free
    simp [account, held, Memo.held, free]
  · intro s h free
    constructor
    · simp [account, held, free]
    · simp [account, decoded, free]
      omega

theorem decodes_recallIndexBlock (a : ExtensibleArray) (h : Header) :
    Decodes image account (a.recallIndexBlock h) := by
  refine decodes_recallOne .block ?_ ?_
    (.bind (.liftM _) fun _ => .bind (.fetch ..) fun _ => .ofExcept _)
    (.bind (.liftM _) fun _ => .bind (.fetch ..) fun _ => .ofExcept _)
  · intro s free
    simp [account, held, Memo.held, free]
  · intro s b free
    constructor
    · simp [account, held, free, List.perm_middle]
    · simp [account, decoded, free]
      omega

theorem decodes_recallSecondaryBlock (a : ExtensibleArray) (h : Header) (group : Group)
    (own : Nat) : Decodes image account (a.recallSecondaryBlock h group own) := by
  refine Memo.decodes_recallAt .secondaryBlock (by simp) ?_ ?_
    (.bind (.ofExcept _) fun _ => .bind (.ofExcept _) fun _ =>
      .bind (.fetch ..) fun _ => .ofExcept _)
    (.bind (.ofExcept _) fun _ => .bind (.ofExcept _) fun _ =>
      .bind (.fetch ..) fun _ => .ofExcept _)
  · intro s mem
    simpa [account, held, Memo.held] using mem
  · intro s block
    refine ⟨List.perm_middle, ?_⟩
    simp only [account, decoded, Memo.insert]
    omega

theorem decodes_recallDataBlock (a : ExtensibleArray) (h : Header) (blockEntries own : Nat) :
    Decodes image account (a.recallDataBlock h blockEntries own) := by
  refine Memo.decodes_recallAt .dataBlock (by simp) ?_ ?_
    (.bind (.ofExcept _) fun _ => .bind (.fetch ..) fun _ => .ofExcept _)
    (.bind (.ofExcept _) fun _ => .bind (.fetch ..) fun _ => .ofExcept _)
  · intro s mem
    simpa [account, held, Memo.held] using mem
  · intro s entries
    constructor
    · exact (List.Perm.append_left _ List.perm_middle).trans List.perm_middle
    · simp only [account, decoded, Memo.insert]
      omega

theorem decodes_recallPage (a : ExtensibleArray) (h : Header) (block page : Nat) :
    Decodes image account (a.recallPage h block page) := by
  unfold recallPage
  refine Memo.decodes_recallAt .page (by simp) ?_ ?_ (detached_pageEntries ..)
    (costs_pageEntries ..)
  · intro s mem
    simpa [account, held, Memo.held] using mem
  · intro s entries
    constructor
    · exact (List.Perm.append_left _ ((List.Perm.append_left _ List.perm_middle).trans
        List.perm_middle)).trans List.perm_middle
    · simp only [account, decoded, Memo.insert]
      omega

theorem decodes_blockEntry (a : ExtensibleArray) (h : Header) (block blockEntries offset : Nat) :
    Decodes image account (a.blockEntry h block blockEntries offset) := by
  apply Decodes.ite
  · exact .bind (decodes_recallDataBlock ..) fun entries => .pure _
  · exact .bind (decodes_recallPage ..) fun entries => .pure _

theorem decodes_entryAt (a : ExtensibleArray) (h : Header) (b : IndexBlock) (p : Place) :
    Decodes image account (a.entryAt h b p) := by
  cases p with
  | inIndexBlock slot => exact .liftM _
  | beyond => exact .pure _
  | direct group block offset => exact .ite (.pure _) (decodes_blockEntry ..)
  | indirect group secondary block offset =>
    apply Decodes.ite (.pure _)
    apply Decodes.bind (decodes_recallSecondaryBlock ..)
    intro sb
    exact .ite (.pure _) (.ite (.pure _) (decodes_blockEntry ..))

theorem decodes_entry (i : Nat) : Decodes image account (entry i) := by
  apply Decodes.get_bind
  intro a
  apply Decodes.bind (decodes_recallHeader a)
  intro h
  apply Decodes.ite (.pure _)
  apply Decodes.bind (decodes_recallIndexBlock a h)
  intro b
  exact .bind (.liftM _) fun p => decodes_entryAt a h b p

theorem decodes_lookup (c : Coordinate) : Decodes image account (lookup c) := by
  apply Decodes.get_bind
  intro a
  exact .ite (.pure _) (decodes_entry _)

end ExtensibleArray

/-! ## B-trees -/

namespace TreeOne

/-- The structures that a handle holds. -/
def held (t : TreeOne) : List Structure := t.nodes.held .node

/-- A node is decoded from two ranges: what its first bytes say gives the length of the others. -/
def account : Account TreeOne := ⟨2, held, decoded⟩

theorem decodes_recallNode (s : Settings) (address : Nat) :
    Decodes image account (recallNode s address) := by
  refine Memo.decodes_recallAt .node (by simp) (fun _ mem => mem) (fun t n => ⟨.refl _, rfl⟩)
    (detached_readNode ..) ?_
  show Costs image (1 + (0 + (0 + (0 + (1 + 0))))) _
  refine .bind (.fetch ..) fun _ => .bind (.ofExcept _) fun (level, entries) => ?_
  exact .bind (.liftM _) fun _ => .bind (.liftM _) fun _ => .bind (.fetch ..) fun _ => .ofExcept _

theorem decodes_descend (s : Settings) (target : List Nat) (level : Nat) (n : Node) :
    Decodes image account (descend s target level n) := by
  induction level generalizing n with
  | zero =>
    apply Decodes.bind (.liftM _)
    intro slot
    cases slot with
    | none => exact .pure _
    | some slot => exact .liftM _
  | succ level ih =>
    apply Decodes.bind (.liftM _)
    intro slot
    cases slot with
    | none => exact .pure _
    | some slot =>
      apply Decodes.bind (.liftM _)
      intro address
      apply Decodes.bind (decodes_recallNode ..)
      intro child
      exact .ite (.bind (.throw _) fun _ => ih child) (ih child)

theorem decodes_lookup (c : Coordinate) : Decodes image account (lookup c) := by
  apply Decodes.get_bind
  intro t
  apply Decodes.ite (.pure _)
  exact .bind (decodes_recallNode ..) fun root => decodes_descend ..

end TreeOne

namespace TreeTwo

/-- The structures that a handle holds. -/
def held (t : TreeTwo) : List Structure :=
  (t.header.map fun _ => .header).toList ++ t.nodes.held .node

/-- A structure is decoded from one range. -/
def account : Account TreeTwo := ⟨1, held, decoded⟩

theorem decodes_recallHeader (t : TreeTwo) : Decodes image account t.recallHeader := by
  refine decodes_recallOne .header ?_ ?_ (.bind (.fetch ..) fun _ => .ofExcept _)
    (.bind (.fetch ..) fun _ => .ofExcept _)
  · intro s free
    simp [account, held, Memo.held, free]
  · intro s h free
    constructor
    · simp [account, held, free]
    · simp [account, decoded, free]
      omega

theorem decodes_recallNode (s : Settings) (h : Header) (address records depth : Nat) :
    Decodes image account (recallNode s h address records depth) := by
  refine Memo.decodes_recallAt .node (by simp) ?_ (fun t n => ⟨List.perm_middle, rfl⟩)
    (detached_readNode ..) ?_
  · intro t mem
    simpa [account, held] using mem
  · unfold readNode
    split
    · exact .throw _ _
    · exact .guard (.bind (.liftM _) fun _ => .bind (.fetch ..) fun _ => .ofExcept _)

theorem decodes_descend (s : Settings) (h : Header) (target : Coordinate)
    (depth address records : Nat) :
    Decodes image account (descend s h target depth address records) := by
  induction depth generalizing address records with
  | zero =>
    unfold descend
    apply Decodes.bind (decodes_recallNode ..)
    intro node
    exact .ite (.bind (.liftM _) fun record => .pure _) (.pure _)
  | succ depth ih =>
    unfold descend
    apply Decodes.bind (decodes_recallNode ..)
    intro node
    apply Decodes.ite (.bind (.liftM _) fun record => .pure _)
    dsimp only
    split
    · exact .pure _
    · exact .ite (.pure _) (ih ..)

theorem decodes_lookup (c : Coordinate) : Decodes image account (lookup c) := by
  apply Decodes.get_bind
  intro t
  apply Decodes.ite (.pure _)
  apply Decodes.bind (decodes_recallHeader t)
  intro h
  exact .ite (.pure _) (decodes_descend ..)

end TreeTwo

end Index

/-! ## The index of a dataset -/

namespace ChunkIndex

open Session Index

/-- The structures that a handle holds. -/
def held : ChunkIndex → List Structure
  | single .. | implicit .. => []
  | fixedArray a => a.held
  | extensibleArray a => a.held
  | treeOne t => t.held
  | treeTwo t => t.held

/-- Ranges of the file that decoding a structure of an index reads. -/
def price : ChunkIndex → Nat
  | treeOne _ => 2
  | _ => 1

/-- An account for handles on an index like `ix`. -/
def account (ix : ChunkIndex) : Account ChunkIndex := ⟨ix.price, held, decoded⟩

/-- What is accounted for on the structure that an index consists of is so on the index. -/
theorem decodesFrom_of_embeds {image : Image} {σ : Type} {embed : σ → ChunkIndex}
    {opening : σ → Settings × Nat} {look : Coordinate → Session σ Descriptor}
    (embeds : Embeds embed opening look) {own : Account σ} {c : Coordinate} {x : σ}
    (right : (embed x).geometry.checkRank c = .ok ())
    (reads : (lookup c).reads image (embed x) = (look c).reads image x)
    (price : (embed x).price = own.price) (held : ∀ x, (embed x).held = own.held x)
    (decoded : ∀ x, (embed x).decoded = own.decoded x)
    (h : Decodes image own (look c)) (nodup : (embed x).held.Nodup) :
    DecodesFrom image (embed x).account (lookup c) (embed x) := by
  rw [held] at nodup
  obtain ⟨new, perm, fresh, counted, most, paid⟩ := h.run x nodup
  have run := embeds.run image right
  refine ⟨new, ?_, ?_, ?_, ?_, ?_⟩
  · rw [run]
    show (embed _).held.Perm (new ++ (embed x).held)
    rwa [held, held]
  · show (new ++ (embed x).held).Nodup
    rwa [held]
  · rw [run]
    show (embed _).decoded = (embed x).decoded + new.length
    rwa [decoded, decoded]
  · show _ ≤ (embed x).price * _
    rwa [reads, price]
  · intro d done
    show _ = (embed x).price * _
    rw [reads, price]
    rw [run] at done
    exact paid d done

/-- What a lookup of the right rank reads is what the structure that the index consists of reads. -/
theorem reads_lookup {c : Coordinate} {ix : ChunkIndex} (image : Image)
    (right : ix.geometry.checkRank c = .ok ()) :
    (lookup c).reads image ix = match ix with
      | single _ _ => 0
      | implicit _ _ => 0
      | fixedArray a => (FixedArray.lookup c).reads image a
      | extensibleArray a => (ExtensibleArray.lookup c).reads image a
      | treeOne t => (TreeOne.lookup c).reads image t
      | treeTwo t => (TreeTwo.lookup c).reads image t := by
  show Fetch.reads image (lookup c ix : Fetch _) = _
  simp only [lookup, right]
  cases ix with
  | single s d => rfl
  | implicit s base => rfl
  | fixedArray a => exact Fetch.reads_bind ..
  | extensibleArray a => exact Fetch.reads_bind ..
  | treeOne t => exact Fetch.reads_bind ..
  | treeTwo t => exact Fetch.reads_bind ..

/-- A coordinate of the wrong rank is refused before anything is read. -/
theorem reads_lookup_rank {c : Coordinate} {ix : ChunkIndex} {e : Error} (image : Image)
    (wrong : ix.geometry.checkRank c = .error e) : (lookup c).reads image ix = 0 := by
  show Fetch.reads image (lookup c ix : Fetch _) = 0
  simp only [lookup, wrong]
  rfl

/-- A lookup on any file adds to the handle only what it did not hold, and reads for nothing that
it held. -/
theorem decodes_lookup (image : Image) (c : Coordinate) (ix : ChunkIndex)
    (nodup : ix.held.Nodup) : DecodesFrom image ix.account (lookup c) ix := by
  cases right : ix.geometry.checkRank c with
  | error e =>
    exact .of_still nodup (by rw [runOn_lookup_rank image right]) (reads_lookup_rank image right)
  | ok =>
    have reads := reads_lookup image right
    cases ix with
    | single s d => exact .of_still nodup (by rw [runOn_lookup image right]) reads
    | implicit s base => exact .of_still nodup (by rw [runOn_lookup image right]) reads
    | fixedArray a =>
      exact decodesFrom_of_embeds embeds_fixedArray right reads rfl (fun _ => rfl) (fun _ => rfl)
        (FixedArray.decodes_lookup c) nodup
    | extensibleArray a =>
      exact decodesFrom_of_embeds embeds_extensibleArray right reads rfl (fun _ => rfl)
        (fun _ => rfl) (ExtensibleArray.decodes_lookup c) nodup
    | treeOne t =>
      exact decodesFrom_of_embeds embeds_treeOne right reads rfl (fun _ => rfl) (fun _ => rfl)
        (TreeOne.decodes_lookup c) nodup
    | treeTwo t =>
      exact decodesFrom_of_embeds embeds_treeTwo right reads rfl (fun _ => rfl) (fun _ => rfl)
        (TreeTwo.decodes_lookup c) nodup

/-- After any lookups on a new handle it holds no structure twice and has counted them all. -/
theorem held_after (image : Image) {ix : ChunkIndex} (new : ix.fresh = ix)
    (earlier : List Coordinate) :
    (ix.after image earlier).held.Nodup ∧
      (ix.after image earlier).decoded = (ix.after image earlier).held.length := by
  have step : ∀ ix : ChunkIndex, ix.held.Nodup ∧ ix.decoded = ix.held.length →
      (ix.after image earlier).held.Nodup ∧
        (ix.after image earlier).decoded = (ix.after image earlier).held.length := by
    induction earlier with
    | nil => exact fun ix counted => counted
    | cons c earlier ih =>
      intro ix ⟨nodup, counted⟩
      rw [after_cons]
      obtain ⟨added, perm, fresh, more, -⟩ := decodes_lookup image c ix nodup
      refine ih _ ⟨perm.nodup_iff.2 fresh, ?_⟩
      have length : ((lookup c).runOn image ix).2.held.length = (added ++ ix.held).length :=
        perm.length_eq
      have more : ((lookup c).runOn image ix).2.decoded = ix.decoded + added.length := more
      rw [more, length, List.length_append, counted, Nat.add_comm]
  apply step
  rw [← new]
  cases ix <;> exact ⟨List.nodup_nil, rfl⟩

end ChunkIndex

end ChunkStore
