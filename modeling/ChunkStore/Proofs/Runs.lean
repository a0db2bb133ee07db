import ChunkStore.Bytes
import Mathlib.Data.List.Forall2

/-!
# Lists cut into runs and joined again

`getElem?_slice` and `getElem?_takeChunks` say which items a run consists of; runs of one width
that are joined are found again by `takeChunks` (`takeChunks_flatten`), and what is cut into runs
can be joined again (`flatten_chunksExact`). The lemmas at the end are about two lists that go
together, item by item.
-/

namespace ChunkStore

variable {α β : Type}

theorem getElem?_slice (xs : List α) (offset length i : Nat) :
    (slice xs offset length)[i]? = if i < length then xs[offset + i]? else none := by
  rw [slice, List.getElem?_take, List.getElem?_drop]

/-- A run is its front and what comes after the front. -/
theorem slice_append_slice (xs : List α) (offset m n : Nat) :
    slice xs offset m ++ slice xs (offset + m) n = slice xs offset (m + n) := by
  rw [slice, slice, slice, List.take_add, List.drop_drop]

theorem slice_append_drop (xs : List α) (offset length : Nat) :
    slice xs offset length ++ xs.drop (offset + length) = xs.drop offset := by
  rw [slice, ← List.drop_drop, List.take_append_drop]

theorem getElem?_takeChunks (width count : Nat) (xs : List α) (i : Nat) :
    (takeChunks width count xs)[i]? =
      if i < count then some (slice xs (i * width) width) else none := by
  induction count generalizing xs i with
  | zero => rfl
  | succ count ih =>
    cases i with
    | zero => simp [takeChunks, slice]
    | succ i =>
      rw [takeChunks, List.getElem?_cons_succ, ih]
      simp only [slice, List.drop_drop, Nat.succ_lt_succ_iff, Nat.succ_mul, Nat.add_comm width]

theorem length_flatten_of_forall {width : Nat} {runs : List (List α)}
    (uniform : ∀ r ∈ runs, r.length = width) : runs.flatten.length = runs.length * width := by
  induction runs with
  | nil => simp
  | cons r runs ih =>
    rw [List.flatten_cons, List.length_append, List.length_cons, Nat.succ_mul,
      uniform r List.mem_cons_self, ih fun x hx => uniform x (List.mem_cons_of_mem r hx)]
    omega

theorem length_of_mem_map {f : α → List β} {width : Nat} (uniform : ∀ a, (f a).length = width)
    {xs : List α} : ∀ r ∈ xs.map f, r.length = width := by
  intro r mem
  obtain ⟨a, -, rfl⟩ := List.mem_map.1 mem
  exact uniform a

theorem length_flatMap_of_forall {f : α → List β} {width : Nat}
    (uniform : ∀ a, (f a).length = width) (xs : List α) :
    (xs.flatMap f).length = xs.length * width := by
  rw [List.flatMap_def, length_flatten_of_forall (length_of_mem_map uniform), List.length_map]

theorem takeChunks_flatten {width : Nat} {runs : List (List α)} (rest : List α)
    (uniform : ∀ r ∈ runs, r.length = width) :
    takeChunks width runs.length (runs.flatten ++ rest) = runs := by
  induction runs with
  | nil => rfl
  | cons r runs ih =>
    have first : r.length = width := uniform r List.mem_cons_self
    rw [List.length_cons, takeChunks, List.flatten_cons, List.append_assoc,
      List.take_left' first, List.drop_left' first,
      ih fun x hx => uniform x (List.mem_cons_of_mem r hx)]

/-- A run is found again where the runs before it end. -/
theorem slice_flatMap {f : α → List β} {width : Nat} (uniform : ∀ a, (f a).length = width)
    {xs : List α} {i : Nat} {a : α} (here : xs[i]? = some a) :
    slice (xs.flatMap f) (i * width) width = f a := by
  obtain ⟨inside, -⟩ := List.getElem?_eq_some_iff.1 here
  have equal : ∀ r ∈ xs.map f, r.length = width := length_of_mem_map uniform
  have runs := takeChunks_flatten [] equal
  have run := congrArg (·[i]?) runs
  simp only [List.append_nil, List.length_map, getElem?_takeChunks, if_pos inside,
    List.getElem?_map, here, Option.map_some, Option.some_inj] at run
  rw [List.flatMap_def, run]

theorem chunksExact_flatten {width : Nat} {runs : List (List α)} (pos : 0 < width)
    (uniform : ∀ r ∈ runs, r.length = width) : chunksExact width runs.flatten = runs := by
  have length := length_flatten_of_forall uniform
  have cut := takeChunks_flatten [] uniform
  rw [List.append_nil] at cut
  rw [chunksExact, length, Nat.mul_div_cancel _ pos, cut]

theorem flatten_takeChunks_of_le {width count : Nat} {xs : List α}
    (enough : xs.length ≤ count * width) : (takeChunks width count xs).flatten = xs := by
  induction count generalizing xs with
  | zero =>
    have empty : xs = [] := by simpa using enough
    simp [takeChunks, empty]
  | succ count ih =>
    rw [Nat.succ_mul] at enough
    have rest : (xs.drop width).length ≤ count * width := by simp; omega
    rw [takeChunks, List.flatten_cons, ih rest, List.take_append_drop]

theorem flatten_takeChunks {width count : Nat} {xs : List α}
    (whole : xs.length = count * width) : (takeChunks width count xs).flatten = xs :=
  flatten_takeChunks_of_le (Nat.le_of_eq whole)

theorem length_le_of_mem_takeChunks {width count : Nat} {xs : List α} :
    ∀ r ∈ takeChunks width count xs, r.length ≤ width := by
  induction count generalizing xs with
  | zero => exact nofun
  | succ count ih =>
    intro r mem
    rcases List.mem_cons.1 mem with rfl | mem
    · exact List.length_take_le ..
    · exact ih r mem

theorem length_of_mem_takeChunks {width count : Nat} {xs : List α}
    (enough : count * width ≤ xs.length) : ∀ r ∈ takeChunks width count xs, r.length = width := by
  induction count generalizing xs with
  | zero => simp [takeChunks]
  | succ count ih =>
    rw [Nat.succ_mul] at enough
    intro r mem
    rcases List.mem_cons.1 mem with rfl | mem
    · rw [List.length_take]
      omega
    · exact ih (by rw [List.length_drop]; omega) r mem

theorem flatten_chunksExact {width : Nat} {xs : List α} (whole : width ∣ xs.length) :
    (chunksExact width xs).flatten = xs :=
  flatten_takeChunks (Nat.div_mul_cancel whole).symm

theorem length_of_mem_chunksExact {width : Nat} {xs : List α} :
    ∀ r ∈ chunksExact width xs, r.length = width :=
  length_of_mem_takeChunks (Nat.div_mul_le_self ..)

theorem le_foldl_max (ns : List Nat) (start : Nat) :
    start ≤ ns.foldl max start ∧ ∀ n ∈ ns, n ≤ ns.foldl max start := by
  induction ns generalizing start with
  | nil => simp
  | cons m ns ih =>
    obtain ⟨first, others⟩ := ih (max start m)
    rw [List.foldl_cons]
    refine ⟨by omega, ?_⟩
    intro n mem
    rcases List.mem_cons.1 mem with rfl | mem
    · omega
    · exact others n mem

theorem foldl_max_le {ns : List Nat} {start bound : Nat} (below : start ≤ bound)
    (all : ∀ n ∈ ns, n ≤ bound) : ns.foldl max start ≤ bound := by
  induction ns generalizing start with
  | nil => exact below
  | cons m ns ih =>
    have here := all m List.mem_cons_self
    exact ih (by omega) fun n mem => all n (List.mem_cons_of_mem m mem)

theorem forall_of_forall₂ {R : α → β → Prop} {P : β → Prop} {xs : List α} {ys : List β}
    (h : List.Forall₂ R xs ys) (imp : ∀ x y, R x y → P y) : ∀ y ∈ ys, P y := by
  induction h with
  | nil => simp
  | cons head _ ih =>
    intro y hy
    rcases List.mem_cons.1 hy with rfl | hy
    · exact imp _ _ head
    · exact ih y hy

/-- Relations that agree at the items of the second list. -/
theorem forall₂_congr_right {R S : α → β → Prop} {xs : List α} {ys : List β}
    (same : ∀ y ∈ ys, ∀ x, R x y ↔ S x y) : List.Forall₂ R xs ys ↔ List.Forall₂ S xs ys := by
  induction ys generalizing xs with
  | nil => rw [List.forall₂_nil_right_iff, List.forall₂_nil_right_iff]
  | cons y ys ih =>
    rw [List.forall₂_cons_right_iff, List.forall₂_cons_right_iff]
    simp only [same y List.mem_cons_self, ih fun y' mem => same y' (List.mem_cons_of_mem y mem)]

theorem forall₂_concat_right {R : α → β → Prop} {xs : List α} {ys : List β} {y : β} :
    List.Forall₂ R xs (ys ++ [y]) ↔ ∃ zs z, xs = zs ++ [z] ∧ List.Forall₂ R zs ys ∧ R z y := by
  constructor
  · intro h
    rw [← List.forall₂_reverse_iff, List.reverse_concat, List.forall₂_cons_right_iff] at h
    obtain ⟨z, zs, here, others, whole⟩ := h
    refine ⟨zs.reverse, z, ?_, ?_, here⟩
    · rw [← List.reverse_reverse xs, whole, List.reverse_cons]
    · rwa [← List.forall₂_reverse_iff, List.reverse_reverse]
  · rintro ⟨zs, z, rfl, others, here⟩
    exact List.rel_append others (.cons here .nil)

theorem forall₂_getElem? {R : α → β → Prop} {xs : List α} {ys : List β}
    (h : List.Forall₂ R xs ys) {i : Nat} {x : α} (found : xs[i]? = some x) :
    ∃ y, ys[i]? = some y ∧ R x y := by
  induction h generalizing i with
  | nil => simp at found
  | @cons x' y' _ _ head _ ih =>
    cases i with
    | zero =>
      rw [List.getElem?_cons_zero] at found
      cases found
      exact ⟨y', rfl, head⟩
    | succ i => exact ih found

/-- Two association lists that go together answer together, where the number tells the key from
the others. -/
theorem rel_lookup {κ ν : Type} [BEq κ] [LawfulBEq κ] [BEq ν] [LawfulBEq ν]
    (number : κ → ν) {R : α → β → Prop} {ps : List (κ × α)} {qs : List (ν × β)} {k : κ}
    (together : List.Forall₂ (fun p q => q.1 = number p.1 ∧ R p.2 q.2) ps qs)
    (apart : ∀ p ∈ ps, number p.1 = number k → p.1 = k) :
    Option.Rel R (ps.lookup k) (qs.lookup (number k)) := by
  induction together with
  | nil => exact .none
  | @cons p q ps qs head _ ih =>
    obtain ⟨key, value⟩ := p
    obtain ⟨_, value'⟩ := q
    obtain ⟨rfl, related⟩ := head
    rw [List.lookup_cons, List.lookup_cons]
    by_cases same : k = key
    · subst same
      simpa using Option.Rel.some related
    · have other : number k ≠ number key := fun equal =>
        same (apart _ List.mem_cons_self equal.symm).symm
      rw [beq_eq_false_iff_ne.2 same, beq_eq_false_iff_ne.2 other]
      exact ih fun p mem => apart p (List.mem_cons_of_mem _ mem)

end ChunkStore
