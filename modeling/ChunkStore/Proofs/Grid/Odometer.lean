import ChunkStore.Selection

/-!
# The odometer over a box

`Box.visitAll` steps from coordinate to coordinate with `Box.advance`. The coordinates that it comes
to from a given one are its `Box.visits`; from the lower corner they are all that
`Box.coordinates` lists (`visits_start`), and so visiting is a fold over that list in every monad
(`visitAll_eq`): an error, or any other effect of a visit, has the place there that it has in the
list. `run_visitAll_noting` says which coordinates are visited before the first error.
-/

namespace ChunkStore.Box

variable {box : Box} {c next : Coordinate}

/-! ## The coordinates that are visited -/

/-- The coordinates from `c` on, until all dimensions start over. -/
def visits (box : Box) (c : Coordinate) : List Coordinate :=
  match _step : advance box c with
  | (next, false) => c :: visits box next
  | (_, true) => [c]
termination_by stepsLeft box c
decreasing_by exact stepsLeft_lt _step

theorem visits_of_step (step : advance box c = (next, false)) :
    visits box c = c :: visits box next := by
  rw [visits]
  split
  · next other => rw [step] at other; cases other; rfl
  · next other => rw [step] at other; cases other

theorem visits_of_over (last : advance box c = (next, true)) : visits box c = [c] := by
  rw [visits]
  split
  · next other => rw [last] at other; cases other
  · rfl

theorem length_advance (rank : c.length = box.length) : (advance box c).1.length = box.length := by
  induction box generalizing c with
  | nil => exact rank
  | cons p box ih =>
    obtain ⟨low, high⟩ := p
    obtain _ | ⟨c, cs⟩ := c
    · cases rank
    have inner := ih (Nat.succ.inj rank)
    rw [advance]
    generalize advance box cs = next at inner ⊢
    obtain ⟨next, _ | _⟩ := next
    · exact congrArg Nat.succ inner
    · dsimp only
      split <;> exact congrArg Nat.succ inner

/-- After the last coordinate, every dimension starts over. -/
theorem advance_over (rank : c.length = box.length) (last : advance box c = (next, true)) :
    next = box.map Prod.fst := by
  induction box generalizing c next with
  | nil =>
    cases last
    exact List.length_eq_zero_iff.1 rank
  | cons p box ih =>
    obtain ⟨low, high⟩ := p
    obtain _ | ⟨c, cs⟩ := c
    · cases rank
    rw [advance] at last
    split at last
    · cases last
    · next inner =>
        split at last
        · cases last
        · cases last
          rw [ih (Nat.succ.inj rank) inner, List.map_cons]

/-- A dimension more: the others are gone through for one value of it, and then start over for the
next. -/
theorem visits_cons {low high d : Nat} (rank : c.length = box.length) :
    visits ((low, high) :: box) (d :: c) = (visits box c).map (d :: ·) ++
      if d < high then visits ((low, high) :: box) ((d + 1) :: box.map Prod.fst) else [] := by
  fun_induction visits box c with
  | case1 c next step ih =>
    have outer : advance ((low, high) :: box) (d :: c) = (d :: next, false) := by
      rw [advance, step]
    have rank' : next.length = box.length := by
      have kept := length_advance rank
      rwa [step] at kept
    rw [visits_of_step outer, ih rank']
    rfl
  | case2 c next last =>
    have start := advance_over rank last
    by_cases room : d < high
    · have outer : advance ((low, high) :: box) (d :: c) = ((d + 1) :: next, false) := by
        simp only [advance, last, room, if_true]
      rw [visits_of_step outer, start, if_pos room]
      rfl
    · have outer : advance ((low, high) :: box) (d :: c) = (low :: next, true) := by
        simp only [advance, last, room, if_false]
      rw [visits_of_over outer, if_neg room]
      rfl

/-- From the first value of the other dimensions on, the slowest one goes up to its bound. -/
theorem visits_range {low d n : Nat} :
    visits ((low, d + n) :: box) (d :: box.map Prod.fst) =
      (List.range' d (n + 1)).flatMap fun d => (visits box (box.map Prod.fst)).map (d :: ·) := by
  induction n generalizing d with
  | zero =>
    rw [Nat.add_zero, visits_cons (List.length_map _), if_neg (Nat.lt_irrefl d)]
    simp
  | succ n ih =>
    have later := @ih (d + 1)
    rw [Nat.add_right_comm] at later
    rw [visits_cons (List.length_map _), if_pos (by omega), List.range'_succ, List.flatMap_cons,
      ← later]
    rfl

/-- From the lower corner on, all coordinates of the box are visited. -/
theorem visits_start (proper : ∀ p ∈ box, p.1 ≤ p.2) :
    visits box (box.map Prod.fst) = coordinates box := by
  induction box with
  | nil => exact @visits_of_over [] [] [] rfl
  | cons p box ih =>
    obtain ⟨low, high⟩ := p
    have least : low ≤ high := proper _ List.mem_cons_self
    obtain ⟨n, rfl⟩ := Nat.exists_eq_add_of_le least
    have count : low + n + 1 - low = n + 1 := by omega
    rw [List.map_cons, visits_range, ih fun p mem => proper p (List.mem_cons_of_mem _ mem),
      coordinates, count]

/-- A box with an empty dimension has no coordinates. -/
theorem coordinates_eq_nil {p : Nat × Nat} (mem : p ∈ box) (empty : p.2 < p.1) :
    coordinates box = [] := by
  induction box with
  | nil => cases mem
  | cons q box ih =>
    obtain ⟨low, high⟩ := q
    rw [coordinates, List.flatMap_eq_nil_iff]
    intro c between
    rcases List.mem_cons.1 mem with rfl | mem
    · have upper := List.mem_range'_1.1 between
      dsimp only at empty
      omega
    · rw [ih mem]
      rfl

/-! ## Visiting them -/

variable {m : Type → Type} [Monad m] {β : Type}

theorem visitFrom_eq (box : Box) (visit : β → Coordinate → m β) (b : β) (c : Coordinate) :
    visitFrom box visit b c = (visits box c).foldlM visit b := by
  fun_induction visits box c generalizing b with
  | case1 c next step ih =>
    rw [visitFrom, List.foldlM_cons]
    refine bind_congr fun b => ?_
    split
    · next other => rw [step] at other; cases other; exact ih b
    · next other => rw [step] at other; cases other
  | case2 c next last =>
    rw [visitFrom, List.foldlM_cons]
    refine bind_congr fun b => ?_
    split
    · next other => rw [last] at other; cases other
    · rfl

/-- Visiting a box is a fold over its coordinates. -/
theorem visitAll_eq (box : Box) (visit : β → Coordinate → m β) (b : β) :
    visitAll box visit b = (coordinates box).foldlM visit b := by
  unfold visitAll
  split
  · next some =>
      obtain ⟨p, mem, empty⟩ := List.any_eq_true.1 some
      rw [coordinates_eq_nil mem (of_decide_eq_true empty)]
      rfl
  · next none =>
      rw [visitFrom_eq, visits_start]
      intro p mem
      refine Nat.le_of_not_lt fun empty => none ?_
      exact List.any_eq_true.2 ⟨p, mem, decide_eq_true empty⟩

/-! ## The first error -/

variable {ε : Type}

/-- A visit that is noted, whether it succeeds or not. -/
def noting (visit : β → Coordinate → Except ε β) (b : β) (c : Coordinate) :
    ExceptT ε (StateM (List Coordinate)) β :=
  ExceptT.mk do
    modify (· ++ [c])
    return visit b c

theorem run_noting_bind (visit : β → Coordinate → Except ε β) (b : β) (c : Coordinate)
    (f : β → ExceptT ε (StateM (List Coordinate)) β) (noted : List Coordinate) :
    (noting visit b c >>= f).run.run noted = match visit b c with
      | .ok b => (f b).run.run (noted ++ [c])
      | .error e => (.error e, noted ++ [c]) := by
  show (ExceptT.bindCont f (visit b c)).run (noted ++ [c]) = _
  cases visit b c <;> rfl

/-- Either all coordinates are visited and none fails, or there is a first one that fails, and it is
the last one visited. -/
theorem run_foldlM_noting (cs : List Coordinate) (visit : β → Coordinate → Except ε β) (b : β)
    (noted : List Coordinate) :
    (∃ b', cs.foldlM visit b = .ok b' ∧
      (cs.foldlM (noting visit) b).run.run noted = (.ok b', noted ++ cs)) ∨
    ∃ before c after b' e, cs = before ++ c :: after ∧ before.foldlM visit b = .ok b' ∧
      visit b' c = .error e ∧ cs.foldlM visit b = .error e ∧
      (cs.foldlM (noting visit) b).run.run noted = (.error e, noted ++ (before ++ [c])) := by
  induction cs generalizing b noted with
  | nil =>
    left
    refine ⟨b, rfl, ?_⟩
    rw [List.append_nil]
    rfl
  | cons c cs ih =>
    rw [List.foldlM_cons, List.foldlM_cons, run_noting_bind]
    cases step : visit b c with
    | error e => exact .inr ⟨[], c, cs, b, e, rfl, rfl, step, rfl, rfl⟩
    | ok next =>
      dsimp only
      rcases ih next (noted ++ [c]) with ⟨b', done, run⟩ |
        ⟨before, d, after, b', e, split, done, failed, stops, run⟩
      · left
        refine ⟨b', done, ?_⟩
        rw [run, List.append_assoc]
        rfl
      · right
        refine ⟨c :: before, d, after, b', e, congrArg (c :: ·) split, ?_, failed, stops, ?_⟩
        · rw [List.foldlM_cons, step]
          exact done
        · rw [run, List.append_assoc]
          rfl

/-- A visit that fails is the last one. -/
theorem run_visitAll_noting (box : Box) (visit : β → Coordinate → Except ε β) (b : β) :
    (∃ b', visitAll box visit b = .ok b' ∧
      (visitAll box (noting visit) b).run.run [] = (.ok b', coordinates box)) ∨
    ∃ before c after b' e, coordinates box = before ++ c :: after ∧
      before.foldlM visit b = .ok b' ∧ visit b' c = .error e ∧
      visitAll box visit b = .error e ∧
      (visitAll box (noting visit) b).run.run [] = (.error e, before ++ [c]) := by
  rw [visitAll_eq, visitAll_eq]
  exact run_foldlM_noting (coordinates box) visit b []

end ChunkStore.Box
