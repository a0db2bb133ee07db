import ChunkStore.Proofs.Index.InRange

/-!
# The nodes that a lookup in a B-tree visits

The descent of a lookup is a loop without a bound of its own: each pass recalls the node at an
address that came out of the file, through a memo, and answers or goes on at a child.
`Session.Loops` says that a loop comes to its end, and where its passes started on the way; the end
is what the recursion over levels or depths answers (`Loops.result_eq`). A pass goes on only at a
lower level, whatever the memo holds: in version 1 a node says its own level, which that of the next
one is held against (`TreeOne.goesOn`), and in version 2 the loop counts down itself
(`TreeTwo.goesOn`). So in every file, those included whose child pointers lead back up, a lookup
visits one node a level at most and decodes no more than it visits (`ChunkIndex.lookup_visits`).
-/

namespace ChunkStore

namespace Session

variable {σ π α : Type} {image : Image} {pass : π → Session σ (π ⊕ α)}

/-- The loop that begins with `x` and goes on with the passes comes to an end: its passes start at
the places `visited`, one after another, and the last one gives the result and leaves the state
`s'`. No number of passes is set beforehand; a loop that never ends has no such run. -/
inductive Loops (image : Image) (pass : π → Session σ (π ⊕ α)) :
    Session σ (π ⊕ α) → σ → List π → Except Error α → σ → Prop where
  | fails {x s e s'} (run : x.runOn image s = (.error e, s')) :
      Loops image pass x s [] (.error e) s'
  | answers {x s a s'} (run : x.runOn image s = (.ok (.inr a), s')) :
      Loops image pass x s [] (.ok a) s'
  | goesOn {x s p s' visited result last} (run : x.runOn image s = (.ok (.inl p), s'))
      (rest : Loops image pass (pass p) s' visited result last) :
      Loops image pass x s (p :: visited) result last

namespace Loops

variable {x : Session σ (π ⊕ α)} {s s' last last' : σ} {visited visited' : List π}
variable {result result' : Except Error α}

/-- A pass that goes on, and the loop from the state that it leaves. -/
theorem next {p : π} (run : (x.runOn image s).1 = .ok (.inl p))
    (rest : Loops image pass (pass p) (x.runOn image s).2 visited result last) :
    Loops image pass x s (p :: visited) result last := .goesOn (Prod.ext run rfl) rest

/-- A pass that answers. -/
theorem stops {a : α} (run : (x.runOn image s).1 = .ok (.inr a)) :
    Loops image pass x s [] (.ok a) (x.runOn image s).2 := .answers (Prod.ext run rfl)

/-- A loop has one course. -/
theorem unique (loops : Loops image pass x s visited result last)
    (other : Loops image pass x s visited' result' last') :
    visited' = visited ∧ result' = result ∧ last' = last := by
  induction loops generalizing visited' with
  | fails run =>
    cases other with
    | fails run' => cases run.symm.trans run'; exact ⟨rfl, rfl, rfl⟩
    | answers run' => cases run.symm.trans run'
    | goesOn run' _ => cases run.symm.trans run'
  | answers run =>
    cases other with
    | fails run' => cases run.symm.trans run'
    | answers run' => cases run.symm.trans run'; exact ⟨rfl, rfl, rfl⟩
    | goesOn run' _ => cases run.symm.trans run'
  | goesOn run _ ih =>
    cases other with
    | fails run' => cases run.symm.trans run'
    | answers run' => cases run.symm.trans run'
    | goesOn run' rest' =>
      cases run.symm.trans run'
      obtain ⟨rfl, rfl, rfl⟩ := ih rest'
      exact ⟨rfl, rfl, rfl⟩

/-- What unrolls to a pass and itself is what the loop comes to. -/
theorem result_eq {whole : π → Session σ α}
    (unrolls : ∀ p s, (whole p).runOn image s = (pass p >>= Sum.elim whole pure).runOn image s)
    (loops : Loops image pass x s visited result last) :
    (x >>= Sum.elim whole pure).runOn image s = (result, last) := by
  induction loops with
  | fails run => exact runOn_bind_error image run
  | answers run => exact runOn_bind_ok image run
  | goesOn run _ ih =>
    rw [runOn_bind_ok image run]
    exact (unrolls _ _).trans ih

/-- A loop of which no pass adds more than 1 to a count adds no more than its number of passes. -/
theorem count_le (count : σ → Nat)
    (one : ∀ p s, count ((pass p).runOn image s).2 ≤ count s + 1)
    (loops : Loops image pass x s visited result last) :
    count last ≤ count (x.runOn image s).2 + visited.length := by
  induction loops with
  | fails run => rw [run]; exact Nat.le_refl _
  | answers run => rw [run]; exact Nat.le_refl _
  | @goesOn x s p s' visited result last run _ ih =>
    have step := one p s'
    rw [run, List.length_cons]
    dsimp only
    omega

end Loops

/-- A loop of which every pass that goes on lowers a measure comes to its end, with no more passes
than the measure says. -/
theorem exists_loops (measure : π → Nat) (valid : π → Prop)
    (step : ∀ p s q s', valid p → (pass p).runOn image s = (.ok (.inl q), s') →
      valid q ∧ measure q < measure p)
    {bound : Nat} {x : Session σ (π ⊕ α)} {s : σ}
    (first : ∀ q s', x.runOn image s = (.ok (.inl q), s') → valid q ∧ measure q < bound) :
    ∃ visited result last, Loops image pass x s visited result last ∧ visited.length ≤ bound := by
  induction bound using Nat.strongRecOn generalizing x s with
  | ind bound ih =>
    cases run : x.runOn image s with
    | mk answer s' =>
      match answer with
      | .error e => exact ⟨[], _, _, .fails run, Nat.zero_le _⟩
      | .ok (.inr a) => exact ⟨[], _, _, .answers run, Nat.zero_le _⟩
      | .ok (.inl q) =>
        obtain ⟨fine, less⟩ := first q s' run
        obtain ⟨visited, result, last, loops, few⟩ :=
          ih (measure q) less fun q' s'' run' => step q s' q' s'' fine run'
        exact ⟨q :: visited, result, last, .goesOn run loops, Nat.succ_le_of_lt (few.trans_lt less)⟩

end Session

namespace Index

open Session

variable {image : Image} {s : Settings}

/-- Recalling a structure, and then making something of it, adds at most one to a memo. -/
theorem Memo.decoded_le {σ α β : Type} {memo : σ → Memo α} {keep : Memo α → σ → σ}
    {address : Nat} {read : Session σ α} (kept : ∀ m x, memo (keep m x) = m)
    (detached : Detached read) (f : α → Except Error β) (x : σ) :
    (memo ((do
      let a ← Memo.recallAt memo keep address read
      Session.ofExcept (f a)).runOn image x).2).decoded ≤ (memo x).decoded + 1 := by
  rw [runOn_bind, Memo.runOn_recallAt]
  cases (memo x).get? address with
  | some item => exact Nat.le_succ _
  | none =>
    rw [detached.run image x x]
    cases (read.runOn image x).1 with
    | error e => exact Nat.le_succ _
    | ok item => exact (congrArg Memo.decoded (kept _ x)).le

/-! ## Version 1 B-trees -/

namespace TreeOne

/-- Where a descent stands: before the node at an address, below a node of a level unless it is the
root. -/
structure Visit where
  address : Nat
  above : Option Nat
  deriving DecidableEq, Repr

/-- Insists on the level below the one above. -/
def checkLevel (n : Node) : Option Nat → Except Error Unit
  | some level =>
    if n.level + 1 = level then .ok ()
    else .error (.corrupt .treeOneNode (.nodeLevel n.level level))
  | none => .ok ()

/-- The child at a slot, or in a leaf the answer that its entry gives. -/
def follow (target : List Nat) (n : Node) (slot : Nat) : Except Error (Visit ⊕ Descriptor) :=
  match n.level with
  | 0 => (leafEntry n target slot).map .inr
  | level + 1 => (Bounds.item n.children slot).map fun address => .inl ⟨address, some (level + 1)⟩

/-- The child of a node that the descent goes on with, or its answer. -/
def choose (target : List Nat) (n : Node) : Except Error (Visit ⊕ Descriptor) := do
  match ← findChild n.keys target with
  | none => return .inr .undefined
  | some slot => follow target n slot

/-- One pass of the descent. -/
def pass (s : Settings) (target : List Nat) (v : Visit) : Session TreeOne (Visit ⊕ Descriptor) := do
  let n ← recallNode s v.address
  Session.ofExcept do
    checkLevel n v.above
    choose target n

/-- What comes before the first pass. -/
def start : Session TreeOne (Visit ⊕ Descriptor) := do
  let t ← get
  if t.root = undefinedAddress then return .inr .undefined
  return .inl ⟨t.root, none⟩

/-- The descent from a node on, by recursion over the levels. -/
def descendFrom (s : Settings) (target : List Nat) (v : Visit) : Session TreeOne Descriptor := do
  let n ← recallNode s v.address
  Session.ofExcept (checkLevel n v.above)
  descend s target n.level n

variable {target : List Nat}

/-- The recursion checks the level of a child where the loop checks it in the next pass. -/
theorem descendFrom_below (below address : Nat) (t : TreeOne) :
    (do
      let child ← recallNode s address
      if child.level ≠ below then
        throw (.corrupt .treeOneNode (.nodeLevel child.level (below + 1)))
      descend s target below child : Session TreeOne Descriptor).runOn image t =
    (descendFrom s target ⟨address, some (below + 1)⟩).runOn image t := by
  rw [descendFrom, runOn_bind, runOn_bind]
  cases (recallNode s address).runOn image t with
  | mk answer t' =>
    cases answer with
    | error e => rfl
    | ok child =>
      dsimp only
      rw [checkLevel]
      by_cases same : child.level = below
      · rw [if_neg (not_not.2 same), if_pos (congrArg (· + 1) same), same]
        rfl
      · rw [if_pos same, if_neg fun same' => same (Nat.succ.inj same')]
        rfl

/-- From a node on, the recursion is the choice of a child and the recursion from there on. -/
theorem descend_unrolls (n : Node) (t : TreeOne) :
    (descend s target n.level n).runOn image t = (Session.ofExcept (choose target n) >>=
      Sum.elim (descendFrom s target) pure).runOn image t := by
  unfold choose
  cases level : n.level with
  | zero =>
    rw [descend]
    cases findChild n.keys target with
    | error e => rfl
    | ok slot =>
      cases slot with
      | none => rfl
      | some slot =>
        show _ = (Session.ofExcept (follow target n slot) >>= _).runOn image t
        simp only [follow, level]
        show (leafEntry n target slot, t) = _
        cases leafEntry n target slot <;> rfl
  | succ below =>
    rw [descend]
    cases findChild n.keys target with
    | error e => rfl
    | ok slot =>
      cases slot with
      | none => rfl
      | some slot =>
        show ((liftM (Bounds.item n.children slot) : Session TreeOne Nat) >>= _).runOn image t =
          (Session.ofExcept (follow target n slot) >>= _).runOn image t
        simp only [follow, level]
        cases Bounds.item n.children slot with
        | error e => rfl
        | ok address => exact descendFrom_below below address t

theorem descendFrom_unrolls (v : Visit) (t : TreeOne) :
    (descendFrom s target v).runOn image t =
      (pass s target v >>= Sum.elim (descendFrom s target) pure).runOn image t := by
  rw [descendFrom, pass, runOn_bind, runOn_bind, runOn_bind]
  cases (recallNode s v.address).runOn image t with
  | mk answer t' =>
    cases answer with
    | error e => rfl
    | ok n =>
      dsimp only
      cases checkLevel n v.above with
      | error e => rfl
      | ok =>
        show (descend s target n.level n).runOn image t' = _
        rw [descend_unrolls, runOn_bind]
        rfl

theorem lookup_unrolls (c : Coordinate) (t : TreeOne) :
    (lookup c).runOn image t =
      (start >>= Sum.elim (descendFrom t.settings (c ++ [0])) pure).runOn image t := by
  rw [lookup, runOn_get_bind, start, runOn_bind, runOn_get_bind]
  split
  · rfl
  · show _ = (descendFrom t.settings (c ++ [0]) ⟨t.root, none⟩).runOn image t
    rw [descendFrom, runOn_bind, runOn_bind]
    cases (recallNode t.settings t.root).runOn image t with
    | mk answer t' =>
      cases answer with
      | error e => rfl
      | ok root => rfl

/-- A pass goes on only from an inner node, of the level that the one above asks for, to a child
below the level of that node. Nothing is assumed of what the handle holds. -/
theorem goesOn {v w : Visit} {t t' : TreeOne}
    (run : (pass s target v).runOn image t = (.ok (.inl w), t')) :
    ∃ n, ((recallNode s v.address).runOn image t).1 = .ok n ∧ checkLevel n v.above = .ok () ∧
      0 < n.level ∧ w.above = some n.level := by
  rw [pass, runOn_bind] at run
  cases recalled : (recallNode s v.address).runOn image t with
  | mk answer t₁ =>
    rw [recalled] at run
    cases answer with
    | error e => cases run
    | ok n =>
      obtain ⟨⟨⟩, checked, chosen⟩ := bind_eq_ok_iff.1 (congrArg Prod.fst run)
      refine ⟨n, rfl, checked, ?_⟩
      obtain ⟨slot, -, followed⟩ := bind_eq_ok_iff.1 chosen
      cases slot with
      | none => cases followed
      | some slot =>
        unfold follow at followed
        cases level : n.level with
        | zero =>
          simp only [level] at followed
          obtain ⟨_, -, never⟩ := map_eq_ok_iff.1 followed
          cases never
        | succ below =>
          simp only [level] at followed
          obtain ⟨_, -, child⟩ := map_eq_ok_iff.1 followed
          cases child
          exact ⟨Nat.succ_pos below, rfl⟩

/-- The descent comes to its end, after one pass for each level from the root's on at most. -/
theorem exists_visits (target : List Nat) {t : TreeOne} {most : Nat}
    (levels : ∀ n, ((recallNode t.settings t.root).runOn image t).1 = .ok n → n.level ≤ most) :
    ∃ visited result last, Loops image (pass t.settings target) start t visited result last ∧
      visited.length ≤ most + 1 := by
  by_cases nowhere : t.root = undefinedAddress
  · have ended : (start : Session TreeOne (Visit ⊕ Descriptor)).runOn image t =
        (.ok (.inr .undefined), t) := by
      rw [start, runOn_get_bind, if_pos nowhere]
      rfl
    exact ⟨[], _, _, .answers ended, Nat.zero_le _⟩
  have first : (start : Session TreeOne (Visit ⊕ Descriptor)).runOn image t =
      (.ok (.inl ⟨t.root, none⟩), t) := by
    rw [start, runOn_get_bind, if_neg nowhere]
    rfl
  -- Below a node of a level there is room for as many passes as that level has below it.
  have step : ∀ v t₁ w t₂, v.above.isSome →
      (pass t.settings target v).runOn image t₁ = (.ok (.inl w), t₂) →
        w.above.isSome ∧ w.above.getD 0 - 1 < v.above.getD 0 - 1 := by
    intro v t₁ w t₂ inside run
    obtain ⟨n, -, checked, inner, child⟩ := goesOn run
    obtain ⟨level, above⟩ := Option.isSome_iff_exists.1 inside
    have below : n.level + 1 = level := by
      rw [above, checkLevel] at checked
      by_contra other
      rw [if_neg other] at checked
      cases checked
    rw [child, above]
    exact ⟨rfl, by simp only [Option.getD_some]; omega⟩
  have below : ∀ v t', (pass t.settings target ⟨t.root, none⟩).runOn image t = (.ok (.inl v), t') →
      v.above.isSome ∧ v.above.getD 0 - 1 < most := by
    intro v t' run
    obtain ⟨n, root, -, inner, child⟩ := goesOn run
    have low := levels n root
    rw [child]
    exact ⟨rfl, by simp only [Option.getD_some]; omega⟩
  obtain ⟨visited, result, last, loops, few⟩ :=
    exists_loops (fun v : Visit => v.above.getD 0 - 1) (fun v => v.above.isSome) step below
  exact ⟨_, result, last, .goesOn first loops, Nat.succ_le_succ few⟩

/-- A pass decodes at most the node that it visits. -/
theorem decoded_pass_le (v : Visit) (t : TreeOne) :
    ((pass s target v).runOn image t).2.nodes.decoded ≤ t.nodes.decoded + 1 :=
  Memo.decoded_le (fun _ _ => rfl) (detached_readNode s v.address) _ t

/-- The descent is what a lookup does: it comes to the end that the lookup comes to, and decodes no
more than it visits. -/
theorem visits_lookup (c : Coordinate) {t : TreeOne} {most : Nat}
    (levels : ∀ n, ((recallNode t.settings t.root).runOn image t).1 = .ok n → n.level ≤ most) :
    ∃ visited result last, Loops image (pass t.settings (c ++ [0])) start t visited result last ∧
      (lookup c).runOn image t = (result, last) ∧ visited.length ≤ most + 1 ∧
      last.nodes.decoded ≤ t.nodes.decoded + visited.length := by
  obtain ⟨visited, result, last, loops, few⟩ := exists_visits (c ++ [0]) levels
  refine ⟨visited, result, last, loops, ?_, few, ?_⟩
  · rw [lookup_unrolls]
    exact loops.result_eq descendFrom_unrolls
  · have still : (start.runOn image t).2 = t := by
      rw [start, runOn_get_bind]
      split <;> rfl
    have grown := loops.count_le (fun t => t.nodes.decoded) decoded_pass_le
    rwa [still] at grown

end TreeOne

/-! ## Version 2 B-trees -/

namespace TreeTwo

/-- Where a descent stands: before the node that a pointer names, at a depth that the descent
counts down from the header's. -/
structure Visit where
  header : Header
  address : Nat
  records : Nat
  depth : Nat
  deriving DecidableEq, Repr

/-- The child of a node that the descent goes on with, or its answer. -/
def choose (target : Coordinate) (v : Visit) (n : Node) : Except Error (Visit ⊕ Descriptor) :=
  let (slot, side) := locate n.records target
  if side = .eq then (Bounds.item n.records slot).map fun r => .inr r.descriptor
  else match v.depth with
    | 0 => .ok (.inr .undefined)
    | below + 1 =>
      match n.children[if side = .gt then slot + 1 else slot]? with
      | none => .ok (.inr .undefined)
      | some child =>
        if child.address = undefinedAddress then .ok (.inr .undefined)
        else .ok (.inl ⟨v.header, child.address, child.records, below⟩)

/-- One pass of the descent. -/
def pass (s : Settings) (target : Coordinate) (v : Visit) :
    Session TreeTwo (Visit ⊕ Descriptor) := do
  let n ← recallNode s v.header v.address v.records v.depth
  Session.ofExcept (choose target v n)

/-- What comes before the first pass. -/
def start : Session TreeTwo (Visit ⊕ Descriptor) := do
  let t ← get
  if t.address = undefinedAddress then return .inr .undefined
  let h ← t.recallHeader
  if h.root = undefinedAddress ∨ h.rootRecords = 0 then return .inr .undefined
  return .inl ⟨h, h.root, h.rootRecords, h.depth⟩

/-- The descent from a node on, by recursion over the depths. -/
def descendFrom (s : Settings) (target : Coordinate) (v : Visit) : Session TreeTwo Descriptor :=
  descend s v.header target v.depth v.address v.records

variable {target : Coordinate}

theorem descendFrom_unrolls (v : Visit) (t : TreeTwo) :
    (descendFrom s target v).runOn image t =
      (pass s target v >>= Sum.elim (descendFrom s target) pure).runOn image t := by
  obtain ⟨h, address, records, depth⟩ := v
  rw [descendFrom, descend, pass, runOn_bind, runOn_bind, runOn_bind]
  dsimp only
  cases (recallNode s h address records depth).runOn image t with
  | mk answer t' =>
    cases answer with
    | error e => rfl
    | ok n =>
      dsimp only
      rw [choose]
      cases locate n.records target with
      | mk slot side =>
        dsimp only
        by_cases same : side = .eq
        · rw [if_pos same, if_pos same]
          cases Bounds.item n.records slot <;> rfl
        · rw [if_neg same, if_neg same]
          cases depth with
          | zero => rfl
          | succ below =>
            dsimp only
            cases n.children[if side = .gt then slot + 1 else slot]? with
            | none => rfl
            | some child =>
              dsimp only
              by_cases nowhere : child.address = undefinedAddress
              · rw [if_pos nowhere, if_pos nowhere]
                rfl
              · rw [if_neg nowhere, if_neg nowhere]
                rfl

theorem lookup_unrolls (c : Coordinate) (t : TreeTwo) :
    (lookup c).runOn image t =
      (start >>= Sum.elim (descendFrom t.settings c) pure).runOn image t := by
  rw [lookup, runOn_get_bind, start, runOn_bind, runOn_get_bind]
  split
  · rfl
  · rw [runOn_bind, runOn_bind]
    cases t.recallHeader.runOn image t with
    | mk answer t' =>
      cases answer with
      | error e => rfl
      | ok h =>
        dsimp only
        split <;> rfl

/-- A pass goes on only above depth 0, and then one depth further down. -/
theorem goesOn {v w : Visit} {t t' : TreeTwo}
    (run : (pass s target v).runOn image t = (.ok (.inl w), t')) : w.depth + 1 = v.depth := by
  rw [pass, runOn_bind] at run
  cases recalled : (recallNode s v.header v.address v.records v.depth).runOn image t with
  | mk answer t₁ =>
    rw [recalled] at run
    cases answer with
    | error e => cases run
    | ok n =>
      have chosen : choose target v n = .ok (.inl w) := congrArg Prod.fst run
      unfold choose at chosen
      dsimp only at chosen
      split at chosen
      · obtain ⟨_, -, never⟩ := map_eq_ok_iff.1 chosen
        cases never
      · split at chosen
        · cases chosen
        next below depth =>
          split at chosen
          · cases chosen
          · split at chosen
            · cases chosen
            · cases chosen
              exact depth.symm

/-- The descent comes to its end, after one pass for each depth from the header's on at most, and
without any if there is no header. -/
theorem exists_visits (target : Coordinate) {t : TreeTwo} {most : Nat}
    (depths : ∀ h, (t.recallHeader.runOn image t).1 = .ok h → h.depth < most) :
    ∃ visited result last, Loops image (pass t.settings target) start t visited result last ∧
      visited.length ≤ most := by
  have step : ∀ v t₁ w t₂, True → (pass t.settings target v).runOn image t₁ = (.ok (.inl w), t₂) →
      True ∧ w.depth < v.depth :=
    fun _ _ _ _ _ run => ⟨trivial, Nat.lt_of_succ_le (goesOn run).le⟩
  refine exists_loops Visit.depth (fun _ => True) step fun v t' run => ⟨trivial, ?_⟩
  rw [start, runOn_get_bind] at run
  split at run
  · cases run
  rw [runOn_bind] at run
  cases recalled : t.recallHeader.runOn image t with
  | mk answer t₁ =>
    rw [recalled] at run
    cases answer with
    | error e => cases run
    | ok h =>
      dsimp only at run
      split at run
      · cases run
      · cases run
        exact depths h (congrArg Prod.fst recalled)

/-- A pass decodes at most the node that it visits. -/
theorem decoded_pass_le (v : Visit) (t : TreeTwo) :
    ((pass s target v).runOn image t).2.nodes.decoded ≤ t.nodes.decoded + 1 :=
  Memo.decoded_le (fun _ _ => rfl) (detached_readNode ..) _ t

/-- The descent is what a lookup does: it comes to the end that the lookup comes to, and decodes no
more than it visits, and the header. -/
theorem visits_lookup (c : Coordinate) {t : TreeTwo} {most : Nat}
    (depths : ∀ h, (t.recallHeader.runOn image t).1 = .ok h → h.depth < most) :
    ∃ visited result last, Loops image (pass t.settings c) start t visited result last ∧
      (lookup c).runOn image t = (result, last) ∧ visited.length ≤ most ∧
      last.nodes.decoded ≤ t.nodes.decoded + visited.length := by
  obtain ⟨visited, result, last, loops, few⟩ := exists_visits c depths
  refine ⟨visited, result, last, loops, ?_, few, ?_⟩
  · rw [lookup_unrolls]
    exact loops.result_eq descendFrom_unrolls
  · have still : Keeps TreeTwo.nodes start := by
      refine .bind .get fun t => .ite (.pure _) (.bind ?_ fun h => .ite (.pure _) (.pure _))
      exact keeps_recallOne (.bind (.fetch ..) fun _ => .ofExcept _) fun _ _ => rfl
    have grown := loops.count_le (fun t => t.nodes.decoded) decoded_pass_le
    rwa [still.same] at grown

end TreeTwo

end Index

/-! ## The index of a dataset -/

namespace ChunkIndex

open Session Index

/-- How many nodes of a B-tree were decoded. -/
def nodesDecoded : ChunkIndex → Nat
  | treeOne t => t.nodes.decoded
  | treeTwo t => t.nodes.decoded
  | _ => 0

/-- How many headers a B-tree has beside its nodes. -/
def headers : ChunkIndex → Nat
  | treeTwo _ => 1
  | _ => 0

@[simp] theorem headers_fresh (ix : ChunkIndex) : ix.fresh.headers = ix.headers := by
  cases ix <;> rfl

/-- The nodes that a lookup may visit in a B-tree, by what its file says: one for each level from
the root's down, or for each depth from the header's down. A root that cannot be decoded is visited
in vain, and without a header nothing is visited. -/
def mostVisits (image : Image) : ChunkIndex → Option Nat
  | treeOne t => match TreeOne.nodeAt image t.settings t.root with
    | .ok root => some (root.level + 1)
    | .error _ => some 1
  | treeTwo t => match TreeTwo.headerAt image t.settings t.address with
    | .ok h => some (h.depth + 1)
    | .error _ => some 0
  | _ => none

/-- The loop of a lookup in a B-tree comes to its end: it visits the nodes at some addresses, one
after another, gives the result and leaves the handle behind. A coordinate of the wrong rank is
refused before. -/
inductive Visits (image : Image) (c : Coordinate) :
    ChunkIndex → List Nat → Except Error Descriptor → ChunkIndex → Prop where
  | refused {ix e} (wrong : ix.geometry.checkRank c = .error e) :
      Visits image c ix [] (.error e) ix
  | inTreeOne {t places result t'} (right : (treeOne t).geometry.checkRank c = .ok ())
      (loops : Loops image (TreeOne.pass t.settings (c ++ [0])) TreeOne.start t places result t') :
      Visits image c (treeOne t) (places.map TreeOne.Visit.address) result (treeOne t')
  | inTreeTwo {t places result t'} (right : (treeTwo t).geometry.checkRank c = .ok ())
      (loops : Loops image (TreeTwo.pass t.settings c) TreeTwo.start t places result t') :
      Visits image c (treeTwo t) (places.map TreeTwo.Visit.address) result (treeTwo t')

variable {image : Image} {c : Coordinate}

/-- A lookup has one course. -/
theorem Visits.unique {ix last last' : ChunkIndex} {visited visited' : List Nat}
    {result result' : Except Error Descriptor} (visits : Visits image c ix visited result last)
    (other : Visits image c ix visited' result' last') :
    visited' = visited ∧ result' = result ∧ last' = last := by
  cases visits with
  | refused wrong =>
    cases other with
    | refused wrong' => cases wrong.symm.trans wrong'; exact ⟨rfl, rfl, rfl⟩
    | inTreeOne right _ => cases wrong.symm.trans right
    | inTreeTwo right _ => cases wrong.symm.trans right
  | inTreeOne right loops =>
    cases other with
    | refused wrong => cases wrong.symm.trans right
    | inTreeOne _ loops' =>
      obtain ⟨rfl, rfl, rfl⟩ := loops.unique loops'
      exact ⟨rfl, rfl, rfl⟩
  | inTreeTwo right loops =>
    cases other with
    | refused wrong => cases wrong.symm.trans right
    | inTreeTwo _ loops' =>
      obtain ⟨rfl, rfl, rfl⟩ := loops.unique loops'
      exact ⟨rfl, rfl, rfl⟩

/-- A lookup comes to an end, after `most` visits at most, and decodes no more nodes than it
visits. -/
def EndsWithin (image : Image) (c : Coordinate) (ix : ChunkIndex) (most : Nat) : Prop :=
  ∃ visited result last, Visits image c ix visited result last ∧
    (lookup c).runOn image ix = (result, last) ∧ visited.length ≤ most ∧
    last.nodesDecoded ≤ ix.nodesDecoded + visited.length ∧
    last.decoded ≤ ix.decoded + visited.length + ix.headers

theorem endsWithin_of_refused {ix : ChunkIndex} {e : Error} (most : Nat)
    (wrong : ix.geometry.checkRank c = .error e) : EndsWithin image c ix most :=
  ⟨[], _, ix, .refused wrong, runOn_lookup_rank image wrong, Nat.zero_le _, Nat.le_refl _,
    Nat.le_add_right _ _⟩

theorem endsWithin_treeOne {t : TreeOne} {most : Nat}
    (levels : ∀ n, ((TreeOne.recallNode t.settings t.root).runOn image t).1 = .ok n →
      n.level ≤ most) : EndsWithin image c (treeOne t) (most + 1) := by
  cases right : (treeOne t).geometry.checkRank c with
  | error e => exact endsWithin_of_refused _ right
  | ok =>
    obtain ⟨places, result, last, loops, run, few, grown⟩ := TreeOne.visits_lookup c levels
    refine ⟨_, result, treeOne last, .inTreeOne right loops, ?_, ?_, ?_, ?_⟩
    · rw [embeds_treeOne.run image right, run]
    · rwa [List.length_map]
    · rwa [List.length_map]
    · rwa [List.length_map]

theorem endsWithin_treeTwo {t : TreeTwo} {most : Nat}
    (depths : ∀ h, (t.recallHeader.runOn image t).1 = .ok h → h.depth < most) :
    EndsWithin image c (treeTwo t) most := by
  cases right : (treeTwo t).geometry.checkRank c with
  | error e => exact endsWithin_of_refused _ right
  | ok =>
    obtain ⟨places, result, last, loops, run, few, grown⟩ := TreeTwo.visits_lookup c depths
    refine ⟨_, result, treeTwo last, .inTreeTwo right loops, ?_, ?_, ?_, ?_⟩
    · rw [embeds_treeTwo.run image right, run]
    · rwa [List.length_map]
    · rwa [List.length_map]
    · have one : last.header.isSome.toNat ≤ 1 := Bool.toNat_le _
      show last.header.isSome.toNat + last.nodes.decoded ≤
        t.header.isSome.toNat + t.nodes.decoded + _ + 1
      rw [List.length_map]
      omega

/-- What bounds a lookup on a new handle bounds it after any others: a handle that lookups lead to
recalls the root of version 1, and the header of version 2, as the file has them. -/
theorem endsWithin_after {ix : ChunkIndex} {most : Nat} (new : ix.fresh = ix)
    (tree : mostVisits image ix = some most) (earlier : List Coordinate) :
    EndsWithin image c (ix.after image earlier) most := by
  rw [← new]
  cases ix with
  | treeOne t =>
    obtain ⟨s, root, nodes⟩ := t
    obtain ⟨t, reached, keeps⟩ := embeds_treeOne.after (fun _ keeps => keeps.opening)
      (fun c _ => (TreeOne.steady_lookup c).meets) (TreeOne.consistent_ofRoot image s root) earlier
    rw [fresh, reached]
    obtain ⟨own, place⟩ : t.settings = s ∧ t.root = root := Prod.ext_iff.1 keeps.opening
    have recalled := ((TreeOne.repeats_recallNode root).run t keeps).1
    rw [mostVisits] at tree
    split at tree
    next top found =>
      cases tree
      refine endsWithin_treeOne fun n read => ?_
      rw [own, place, recalled, found] at read
      cases read
      exact Nat.le_refl _
    next e found =>
      cases tree
      refine endsWithin_treeOne fun n read => ?_
      rw [own, place, recalled, found] at read
      cases read
  | treeTwo t =>
    obtain ⟨s, address, header, nodes⟩ := t
    obtain ⟨t, reached, opened⟩ := embeds_treeTwo.after (fun _ opened => opened.opening)
      (fun c _ => TreeTwo.meets_lookup_opened c) (TreeTwo.opened_ofAddress image s address) earlier
    rw [fresh, reached]
    have recalled := ((TreeTwo.repeats_recallHeader (fun _ => id)
      (fun _ _ => TreeTwo.Opened.keep_header) opened.opening).run t opened).1
    rw [mostVisits] at tree
    split at tree
    next h found =>
      cases tree
      refine endsWithin_treeTwo fun h' read => ?_
      rw [recalled, found] at read
      cases read
      exact Nat.lt_succ_self _
    next e found =>
      cases tree
      refine endsWithin_treeTwo fun h' read => ?_
      rw [recalled, found] at read
      cases read
  | single s d => cases tree
  | implicit s base => cases tree
  | fixedArray a => cases tree
  | extensibleArray a => cases tree

/-- The descents of lookups in B-trees come to an end in every file, whatever was looked up before
and in whatever circles the child pointers lead. A lookup visits a node for each level from the
root's down at most, or in version 2 for each depth from the header's down, and decodes no more
nodes than it visits, with the header of version 2 besides. It then answers or fails, and, in a file
and with a shape of chunks that memories have room for, it fails with an error of the format. -/
theorem lookup_visits {image : Image} {layout : ChunkedLayout} {g : Geometry} {widths : FileWidths}
    {filtered verify : Bool} {ix : ChunkIndex} {most : Nat}
    (opened : ofLayout layout g widths filtered verify = .ok ix)
    (tree : mostVisits image ix = some most) (earlier : List Coordinate) (c : Coordinate) :
    ∃ visited result last,
      (∀ visited' result' last', Visits image c (ix.after image earlier) visited' result' last' ↔
        visited' = visited ∧ result' = result ∧ last' = last) ∧
      (lookup c).runOn image (ix.after image earlier) = (result, last) ∧
      visited.length ≤ most ∧
      last.nodesDecoded ≤ (ix.after image earlier).nodesDecoded + visited.length ∧
      last.decoded ≤ (ix.after image earlier).decoded + visited.length + ix.headers ∧
      (image.length + 4 ≤ maxWord → 8 * layout.chunkDims.length < 2 ^ 47 → 0 ∉ layout.chunkDims →
        (∃ d, result = .ok d) ∨ ∃ e, e ≠ .outOfRange ∧ result = .error e) := by
  obtain ⟨new, -, -⟩ := fresh_of_ofLayout opened
  obtain ⟨visited, result, last, visits, run, few, grown, counted⟩ :=
    endsWithin_after (c := c) new tree earlier
  refine ⟨visited, result, last, fun visited' result' last' => ⟨visits.unique, ?_⟩, run, few, grown,
    ?_, fun bound rank dims => ?_⟩
  · rintro ⟨rfl, rfl, rfl⟩
    exact visits
  · rwa [← headers_fresh, fresh_after, headers_fresh] at counted
  · have answer := inRange_answerAfter bound rank dims opened earlier c
    rw [answerAfter, run] at answer
    exact answer.ok_or_error

/-- A tree of depth 2 whose only node names itself as both of its children. A lookup that goes down
in it visits that node three times, once for each depth, decodes it once and finds nothing. -/
theorem lookup_visits_circle : ∃ image ix last,
    ofLayout ⟨4, 0, [1], 4, .treeTwo 64 100 40, 1⟩ ⟨[8], [8], 4⟩ ⟨.two, .two⟩ false true = .ok ix ∧
    mostVisits image ix = some 3 ∧
    (∀ visited result last', Visits image [0] (ix.after image []) visited result last' ↔
      visited = [27, 27, 27] ∧ result = .ok .undefined ∧ last' = last) ∧
    last.nodesDecoded = 1 ∧ last.decoded = 2 := by
  let image : Image := [7] ++
    withChecksum [66, 84, 72, 68, 0, 10, 64, 0, 0, 0, 10, 0, 2, 0, 0, 0, 27, 0, 1, 0, 1, 0] ++
    withChecksum [66, 84, 73, 78, 0, 10, 244, 1, 5, 0, 0, 0, 0, 0, 0, 0, 27, 0, 1, 0, 27, 0, 1, 0]
  let s : Settings := ⟨⟨.two, .two⟩, ⟨[8], [8], 4⟩, [1], 4, false, true⟩
  let h : TreeTwo.Header :=
    ⟨10, 10, 2, 27, 1, 1, [⟨5, 5, 0, 0⟩, ⟨3, 23, 1, 3⟩, ⟨3, 95, 1, 4⟩]⟩
  have opened : ofLayout ⟨4, 0, [1], 4, .treeTwo 64 100 40, 1⟩ ⟨[8], [8], 4⟩ ⟨.two, .two⟩ false
    true = .ok (treeTwo (.ofAddress s 1)) := rfl
  have tree : mostVisits image (treeTwo (.ofAddress s 1)) = some 3 := by decide +kernel
  have circle : ∃ last, Loops image (TreeTwo.pass s [0]) TreeTwo.start (.ofAddress s 1)
      [⟨h, 27, 1, 2⟩, ⟨h, 27, 1, 1⟩, ⟨h, 27, 1, 0⟩] (.ok .undefined) last :=
    ⟨_, .next (by decide +kernel) (.next (by decide +kernel) (.next (by decide +kernel)
      (.stops (by decide +kernel))))⟩
  obtain ⟨last, loops⟩ := circle
  obtain ⟨visited, result, last', only, run, -⟩ := lookup_visits opened tree [] [0]
  obtain ⟨rfl, rfl, rfl⟩ := (only _ _ _).1 (.inTreeTwo rfl loops)
  refine ⟨image, _, _, opened, tree, only, ?_, ?_⟩
  · have same := congrArg (fun r => r.2.nodesDecoded) run
    exact same.symm.trans (by decide +kernel)
  · have same := congrArg (fun r => r.2.decoded) run
    exact same.symm.trans (by decide +kernel)

end ChunkIndex

end ChunkStore
