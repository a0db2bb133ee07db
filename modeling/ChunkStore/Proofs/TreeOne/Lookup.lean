import ChunkStore.Proofs.Index.Handle
import ChunkStore.Proofs.Parser
import ChunkStore.Proofs.TreeOne.Search
import ChunkStore.Proofs.TreeTwo.Search

/-!
# Lookups in a version 1 B-tree

`Subtree.Stored` says that a file holds a subtree, level by level down to the leaves: the keys of
each node are in order, and the span of a child has all the entries below it. The entries of the
leaves, told as records, are then in order too (`Subtree.Stored.sorted`), and the way down from a
node ends at the entry of the target or nowhere (`answers_descend`), since the only child that can
have the target is the one whose span covers it.
-/

namespace ChunkStore.Index.TreeOne

open Session ChunkStore.Parser
open TreeTwo (Record Sorted descriptorOf descriptorOf_eq descriptorOf_eq_undefined
  descriptorOf_eq_of_sublist)

/-- The node at an address, as a new handle reads it. -/
def nodeAt (image : Image) (s : Settings) (address : Nat) : Except Error Node :=
  ((TreeOne.readNode s address).runOn image (ofRoot s address)).1

/-- A key of a leaf with the child after it, as a record that has all components of the key. -/
def Key.entry (k : Key) (address : Nat) : Record :=
  ⟨k.scaled, address, k.storedSize.toNat, k.filterMask⟩

/-- The nodes of a subtree, and the entries of its leaves from left to right. -/
structure Subtree where
  nodes : List Node
  entries : List Record

namespace Subtree

/-- A leaf alone. -/
def leaf (n : Node) : Subtree := ⟨[n], List.zipWith Key.entry n.keys n.children⟩

/-- An inner node with the subtrees below it. -/
def inner (n : Node) (below : List Subtree) : Subtree :=
  ⟨n :: below.flatMap nodes, (below.map entries).flatten⟩

/-- The entries below each child lie from the key before the child up to, and without, the key
after it. -/
def Within (keys : List Key) (below : List Subtree) : Prop :=
  ∀ (slot : Nat) t, below[slot]? = some t → ∀ e ∈ t.entries, Covers keys e.scaled slot

instance (keys : List Key) (below : List Subtree) : Decidable (Within keys below) :=
  decidable_of_iff (∀ p ∈ below.zipIdx, ∀ e ∈ p.1.entries, Covers keys e.scaled p.2)
    ⟨fun each slot t there => each (t, slot) (List.mem_zipIdx_iff_getElem?.2 there),
      fun each p mem => each p.2 p.1 (List.mem_zipIdx_iff_getElem?.1 mem)⟩

/-- The file holds the subtree with its top node at an address. -/
def Stored (image : Image) (s : Settings) : (level : Nat) → (address : Nat) → Subtree → Prop
  | 0, address, t => ∃ n, nodeAt image s address = .ok n ∧ n.level = 0 ∧ Ordered n.keys ∧
      t = leaf n
  | level + 1, address, t => ∃ n below, nodeAt image s address = .ok n ∧ n.level = level + 1 ∧
      Ordered n.keys ∧ List.Forall₂ (Stored image s level) n.children below ∧
      Within n.keys below ∧ t = inner n below

end Subtree

variable {image : Image} {s : Settings} {root : Nat}

/-! ## Reading -/

/-- What a node is like in any file: a key more than children, and a component of each key for each
dimension and one more. -/
structure Node.Shaped (s : Settings) (n : Node) : Prop where
  one : n.keys.length = n.children.length + 1
  components : ∀ k ∈ n.keys, k.scaled.length = s.chunkDims.length + 1

theorem ensures_scaledOffsets (sizes : List Nat) :
    Ensures (scaledOffsets sizes) fun offsets => offsets.length = sizes.length := by
  induction sizes with
  | nil => exact .pure rfl
  | cons size sizes ih =>
    exact .bind_any fun offset => ih.bind fun offsets length =>
      .pure (congrArg (· + 1) length)

theorem ensures_keyParser (s : Settings) :
    Ensures (keyParser s) fun k => k.scaled.length = s.chunkDims.length + 1 := by
  refine .bind_any fun _ => .bind_any fun _ => (ensures_scaledOffsets _).bind fun _ length => ?_
  rw [List.length_append] at length
  exact .pure length

theorem ensures_bodyParser (s : Settings) (level entries : Nat) :
    Ensures (bodyParser s level entries) (Node.Shaped s) := by
  have entry : Ensures (entryParser s) fun p => p.1.scaled.length = s.chunkDims.length + 1 :=
    (ensures_keyParser s).bind fun _ length => .bind_any fun _ => .pure length
  refine (entry.times entries).bind fun pairs each => ?_
  refine (ensures_keyParser s).bind fun last length => .pure ⟨?_, ?_⟩
  · rw [List.length_append, List.length_map, List.length_map, List.length_singleton]
  · intro k mem
    rcases List.mem_append.1 mem with front | own
    · obtain ⟨p, among, rfl⟩ := List.mem_map.1 front
      exact each.2 p among
    · rw [List.mem_singleton.1 own]
      exact length

theorem shaped_of_nodeAt {address : Nat} {n : Node} (found : nodeAt image s address = .ok n) :
    n.Shaped s := by
  refine Meets.of_eq_ok found ?_
  refine (Meets.any _).bind fun _ _ => (Meets.any _).bind fun (level, entries) _ => ?_
  refine (Meets.any _).bind fun _ _ => (Meets.any _).bind fun _ _ => (Meets.any _).bind ?_
  exact fun _ _ => .ofExcept fun n done => (ensures_bodyParser s level entries).parse done

theorem detached_readNode (s : Settings) (address : Nat) :
    Detached (TreeOne.readNode s address) := by
  refine .bind (.fetch ..) fun _ => .bind (.ofExcept _) fun (level, entries) => ?_
  exact .bind (.liftM _) fun _ => .bind (.liftM _) fun _ => .bind (.fetch ..) fun _ => .ofExcept _

/-- A node that was read stands somewhere, in a file of 64-bit length. -/
theorem ne_undefinedAddress_of_nodeAt (bound : image.length ≤ maxWord) {n : Node}
    (found : nodeAt image s root = .ok n) : root ≠ undefinedAddress := by
  have pos : 0 < nodePrefix s.widths := by
    rw [nodePrefix]
    omega
  exact ne_undefinedAddress_of_fetch image _ bound pos found

/-- Between the keys of a node both comparisons agree. -/
theorem Node.Shaped.compareSpan_eq {n : Node} (shaped : n.Shaped s) (ordered : Ordered n.keys)
    {c : Coordinate} (rank : c.length = s.chunkDims.length) :
    ∀ l ∈ n.keys, ∀ r ∈ n.keys,
      compareSpan l.scaled (c ++ [0]) r.scaled = .ok (compareLex l.scaled (c ++ [0]) r.scaled) := by
  intro l left r right
  have length := shaped.components l left
  have length' := shaped.components r right
  rw [← rank] at length length'
  exact TreeOne.compareSpan_eq length length' (ordered.last l left) (ordered.last r right)

theorem Subtree.Stored.compareSpan_eq {level address : Nat} {t : Subtree}
    (stored : Stored image s level address t) {c : Coordinate}
    (rank : c.length = s.chunkDims.length) :
    ∀ n ∈ t.nodes, ∀ l ∈ n.keys, ∀ r ∈ n.keys,
      compareSpan l.scaled (c ++ [0]) r.scaled = .ok (compareLex l.scaled (c ++ [0]) r.scaled) := by
  induction level generalizing address t with
  | zero =>
    obtain ⟨n, read, -, ordered, rfl⟩ := stored
    intro n' mem
    rw [List.mem_singleton.1 mem]
    exact (shaped_of_nodeAt read).compareSpan_eq ordered rank
  | succ level ih =>
    obtain ⟨n, below, read, -, ordered, children, -, rfl⟩ := stored
    intro n' mem
    rcases List.mem_cons.1 mem with rfl | lower
    · exact (shaped_of_nodeAt read).compareSpan_eq ordered rank
    · obtain ⟨t, among, mem⟩ := List.mem_flatMap.1 lower
      exact forall_of_forall₂ children (fun _ _ child => ih child) t among n' mem

/-! ## The entries of a subtree -/

theorem mem_entries_leaf {n : Node} {e : Record} :
    e ∈ (Subtree.leaf n).entries ↔ ∃ (slot : Nat) (k : Key) (address : Nat),
      n.keys[slot]? = some k ∧ n.children[slot]? = some address ∧ k.entry address = e := by
  rw [Subtree.leaf, List.mem_iff_getElem?]
  simp only [List.getElem?_zipWith_eq_some]

theorem sorted_leaf {n : Node} (ordered : Ordered n.keys) : Sorted (Subtree.leaf n).entries := by
  refine List.pairwise_iff_getElem.2 fun i j hi hj less => ?_
  simp only [Subtree.leaf, List.length_zipWith, List.getElem_zipWith] at hi hj ⊢
  exact List.pairwise_iff_getElem.1 ordered.increasing i j (by omega) (by omega) less

theorem sorted_inner {n : Node} {below : List Subtree} (ordered : Ordered n.keys)
    (spans : Subtree.Within n.keys below) (each : ∀ t ∈ below, Sorted t.entries) :
    Sorted (Subtree.inner n below).entries := by
  refine List.pairwise_flatten.2 ⟨?_, ?_⟩
  · intro entries mem
    obtain ⟨t, among, rfl⟩ := List.mem_map.1 mem
    exact each t among
  · refine List.pairwise_map.2 (List.pairwise_iff_getElem.2 fun i j hi hj less e mem e' mem' => ?_)
    obtain ⟨-, right, -, there, -, short⟩ := spans i _ (List.getElem?_eq_getElem hi) e mem
    obtain ⟨left, -, here, -, reached, -⟩ := spans j _ (List.getElem?_eq_getElem hj) e' mem'
    exact short.trans_le ((ordered.le_of_le there here less).trans reached)

theorem Subtree.Stored.sorted {level address : Nat} {t : Subtree}
    (stored : Stored image s level address t) : Sorted t.entries := by
  induction level generalizing address t with
  | zero =>
    obtain ⟨n, -, -, ordered, rfl⟩ := stored
    exact sorted_leaf ordered
  | succ level ih =>
    obtain ⟨n, below, -, -, ordered, children, spans, rfl⟩ := stored
    exact sorted_inner ordered spans (forall_of_forall₂ children fun _ _ child => ih child)

/-- An entry of a leaf is in the span between its key and the next. -/
theorem covers_of_mem_leaf {n : Node} (shaped : n.Shaped s) (ordered : Ordered n.keys) {slot : Nat}
    {k : Key} {address : Nat} (key : n.keys[slot]? = some k)
    (child : n.children[slot]? = some address) : Covers n.keys k.scaled slot := by
  have inside := (List.getElem?_eq_some_iff.1 child).1
  have next : slot + 1 < n.keys.length := by
    rw [shaped.one]
    exact Nat.succ_lt_succ inside
  obtain ⟨here, rfl⟩ := List.getElem?_eq_some_iff.1 key
  exact ⟨_, _, key, List.getElem?_eq_getElem next, le_refl _,
    List.pairwise_iff_getElem.1 ordered.increasing _ _ here next (Nat.lt_succ_self slot)⟩

/-- The descriptor that the covering span of a leaf gives. -/
theorem leafEntry_eq {n : Node} {target : List Nat} {slot : Nat} (shaped : n.Shaped s)
    (ordered : Ordered n.keys) (covers : Covers n.keys target slot) :
    leafEntry n target slot = .ok (descriptorOf (Subtree.leaf n).entries target) := by
  obtain ⟨k, right, key, there, reached, short⟩ := covers
  have inside : slot < n.children.length := by
    have next := (List.getElem?_eq_some_iff.1 there).1
    rw [shaped.one] at next
    omega
  have child := List.getElem?_eq_getElem inside
  rw [leafEntry, Bounds.item_eq_ok_iff.2 key]
  show (if k.scaled ≠ target then _ else _) = _
  by_cases same : k.scaled = target
  · rw [if_neg (not_not.2 same), Bounds.item_eq_ok_iff.2 child]
    have mem : k.entry n.children[slot] ∈ (Subtree.leaf n).entries :=
      mem_entries_leaf.2 ⟨slot, k, _, key, child, rfl⟩
    rw [descriptorOf_eq (sorted_leaf ordered) mem same]
    rfl
  · rw [if_pos same, descriptorOf_eq_undefined]
    · rfl
    intro e mem here
    obtain ⟨slot', k', address, key', child', rfl⟩ := mem_entries_leaf.1 mem
    obtain rfl : k'.scaled = target := here
    have own := covers_of_mem_leaf shaped ordered key' child'
    obtain rfl := Covers.unique ordered own ⟨k, right, key, there, reached, short⟩
    rw [key] at key'
    cases key'
    exact same rfl

theorem Subtree.Stored.top {level address : Nat} {t : Subtree}
    (stored : Stored image s level address t) :
    ∃ n, nodeAt image s address = .ok n ∧ n.level = level := by
  cases level with
  | zero =>
    obtain ⟨n, read, level, -⟩ := stored
    exact ⟨n, read, level⟩
  | succ level =>
    obtain ⟨n, -, read, level, -⟩ := stored
    exact ⟨n, read, level⟩

theorem mem_entries_inner {n : Node} {below : List Subtree} {e : Record} :
    e ∈ (Subtree.inner n below).entries ↔
      ∃ (slot : Nat) (t : Subtree), below[slot]? = some t ∧ e ∈ t.entries := by
  rw [Subtree.inner, ← List.flatMap_def, List.mem_flatMap]
  constructor
  · rintro ⟨t, among, mem⟩
    obtain ⟨slot, there⟩ := List.mem_iff_getElem?.1 among
    exact ⟨slot, t, there, mem⟩
  · rintro ⟨slot, t, there, mem⟩
    exact ⟨t, List.mem_of_getElem? there, mem⟩

/-- Below an inner node, what is in a span is below the child of the span. -/
theorem descriptorOf_inner {n : Node} {below : List Subtree} {target : List Nat} {slot : Nat}
    {t : Subtree} (ordered : Ordered n.keys) (spans : Subtree.Within n.keys below)
    (sorted : Sorted (Subtree.inner n below).entries) (covers : Covers n.keys target slot)
    (there : below[slot]? = some t) :
    descriptorOf (Subtree.inner n below).entries target = descriptorOf t.entries target := by
  have part : t.entries.Sublist (Subtree.inner n below).entries :=
    List.sublist_flatten_of_mem (List.mem_map.2 ⟨t, List.mem_of_getElem? there, rfl⟩)
  refine descriptorOf_eq_of_sublist sorted part fun e mem here => ?_
  obtain ⟨slot', t', there', mem'⟩ := mem_entries_inner.1 mem
  have covers' := spans slot' t' there' e mem'
  rw [here] at covers'
  obtain rfl := Covers.unique ordered covers covers'
  rw [there] at there'
  cases there'
  exact mem'

/-! ## A handle on a tree -/

/-- The handle was opened on the tree, and what it holds is what the file has. -/
structure Consistent (image : Image) (s : Settings) (root : Nat) (x : TreeOne) : Prop where
  opening : x.opening = (s, root)
  nodes : ∀ address n, x.nodes.get? address = some n → nodeAt image s address = .ok n

theorem consistent_ofRoot (image : Image) (s : Settings) (root : Nat) :
    Consistent image s root (.ofRoot s root) where
  opening := rfl
  nodes := fun _ _ held => by cases held

theorem answers_recallNode {address : Nat} {n : Node}
    (found : nodeAt image s address = .ok n) :
    Answers image (Consistent image s root) (TreeOne.recallNode s address) n := by
  refine Memo.answers_recallAt image ?_ ?_ (.of_detached (detached_readNode ..) found)
  · intro x n' keeps held
    have read := keeps.nodes address n' held
    rw [found] at read
    exact (Except.ok.inj read).symm
  · intro x keeps
    exact { keeps with nodes := Memo.forall_insert keeps.nodes found }

/-- The way down from a node ends at the entry of the target among those below the node. -/
theorem answers_descend {c : Coordinate} (rank : c.length = s.chunkDims.length) {level : Nat}
    {address : Nat} {n : Node} {t : Subtree} (stored : t.Stored image s level address)
    (read : nodeAt image s address = .ok n) :
    Answers image (Consistent image s root) (TreeOne.descend s (c ++ [0]) level n)
      (descriptorOf t.entries (c ++ [0])) := by
  induction level generalizing address n t with
  | zero =>
    obtain ⟨n', read', -, ordered, rfl⟩ := stored
    rw [read] at read'
    cases read'
    have shaped := shaped_of_nodeAt read
    unfold TreeOne.descend
    rcases findChild_cases ordered (shaped.compareSpan_eq ordered rank) with
      ⟨slot, found, covers⟩ | ⟨found, none⟩
    · exact .bind (.liftM found) (.liftM (leafEntry_eq shaped ordered covers))
    · have absent : ∀ e ∈ (Subtree.leaf n).entries, e.scaled ≠ c ++ [0] := by
        intro e mem here
        obtain ⟨slot, k, address, key, child, rfl⟩ := mem_entries_leaf.1 mem
        exact none slot (here ▸ covers_of_mem_leaf shaped ordered key child)
      rw [descriptorOf_eq_undefined absent]
      exact .bind (.liftM found) (.pure _)
  | succ level ih =>
    have sorted := stored.sorted
    obtain ⟨n', below, read', -, ordered, children, spans, rfl⟩ := stored
    rw [read] at read'
    cases read'
    have shaped := shaped_of_nodeAt read
    unfold TreeOne.descend
    rcases findChild_cases ordered (shaped.compareSpan_eq ordered rank) with
      ⟨slot, found, covers⟩ | ⟨found, none⟩
    · have inside : slot < n.children.length := by
        obtain ⟨-, right, -, there, -, -⟩ := covers
        have next := (List.getElem?_eq_some_iff.1 there).1
        rw [shaped.one] at next
        exact Nat.lt_of_succ_lt_succ next
      have chosen := List.getElem?_eq_getElem inside
      obtain ⟨sub, there, held⟩ := forall₂_getElem? children chosen
      obtain ⟨child, readChild, childLevel⟩ := held.top
      rw [descriptorOf_inner ordered spans sorted covers there]
      apply Answers.bind (.liftM found)
      apply Answers.bind (.liftM (Bounds.item_eq_ok_iff.2 chosen))
      apply Answers.bind (answers_recallNode readChild)
      exact .ite_neg (not_not.2 childLevel) (ih held readChild)
    · have absent : ∀ e ∈ (Subtree.inner n below).entries, e.scaled ≠ c ++ [0] := by
        intro e mem here
        obtain ⟨slot, t, there, mem'⟩ := mem_entries_inner.1 mem
        exact none slot (here ▸ spans slot t there e mem')
      rw [descriptorOf_eq_undefined absent]
      exact .bind (.liftM found) (.pure _)

/-- Every lookup in a stored tree finds what its entries say, in every state that a handle on the
tree can be in. -/
theorem Subtree.Stored.answers_lookup {level : Nat} {t : Subtree}
    (stored : t.Stored image s level root) (bound : image.length ≤ maxWord) {c : Coordinate}
    (rank : c.length = s.chunkDims.length) :
    Answers image (Consistent image s root) (TreeOne.lookup c)
      (descriptorOf t.entries (c ++ [0])) := by
  obtain ⟨n, read, rfl⟩ := stored.top
  apply Answers.get_bind
  intro x keeps
  obtain ⟨rfl, rfl⟩ : x.settings = s ∧ x.root = root := Prod.ext_iff.1 keeps.opening
  refine .ite_neg (ne_undefinedAddress_of_nodeAt bound read) ?_
  exact .bind (answers_recallNode read) (answers_descend rank stored read)

end ChunkStore.Index.TreeOne

namespace ChunkStore.ChunkIndex

open Index Index.TreeOne
open Index.TreeTwo (Record descriptorOf_eq descriptorOf_eq_undefined)

/-- Lookup in a stored tree is lookup in the list of its leaf entries: the entry whose key has the
coordinate and 0, of which there is only one, gives the answer, and without such an entry nothing
is there. The handle may have answered any lookups before. In every node both ways to compare a
span agree. -/
theorem lookup_treeOne {image : Image} {s : Settings} {root level : Nat} {t : Subtree}
    (bound : image.length ≤ maxWord) (dims : s.chunkDims.length = s.geometry.rank)
    (stored : t.Stored image s level root) {c : Coordinate} (rank : c.length = s.geometry.rank)
    (earlier : List Coordinate) :
    (∀ e ∈ t.entries, e.scaled = c ++ [0] →
      (∀ e' ∈ t.entries, e'.scaled = c ++ [0] → e' = e) ∧
      answerAfter image (treeOne (.ofRoot s root)) earlier c = .ok e.descriptor) ∧
    ((∀ e ∈ t.entries, e.scaled ≠ c ++ [0]) →
      answerAfter image (treeOne (.ofRoot s root)) earlier c = .ok .undefined) ∧
    ∀ n ∈ t.nodes, ∀ l ∈ n.keys, ∀ r ∈ n.keys,
      compareSpan l.scaled (c ++ [0]) r.scaled = .ok (compareLex l.scaled (c ++ [0]) r.scaled) := by
  rw [embeds_treeOne.answerAfter_eq (fun x keeps => keeps.opening)
    (fun c right => stored.answers_lookup bound (right.trans dims.symm))
    (consistent_ofRoot image s root) rank earlier]
  refine ⟨fun e mem here => ⟨fun e' mem' here' => ?_, ?_⟩, fun absent => ?_, ?_⟩
  · exact stored.sorted.eq_of_mem mem' mem (here'.trans here.symm)
  · rw [descriptorOf_eq stored.sorted mem here]
  · rw [descriptorOf_eq_undefined absent]
  · exact fun n mem => stored.compareSpan_eq (rank.trans dims.symm) n mem

/-- A root over two leaves, with a chunk missing in the span of the first: the entry of the second
leaf, after lookups on both sides. -/
theorem lookup_treeOne_in_second_leaf : ∃ image t,
    Subtree.Stored image ⟨⟨.two, .two⟩, ⟨[4], [4], 8⟩, [2], 4, true, true⟩ 1 1 t ∧
    t.nodes.length = 3 ∧ t.entries.map Record.scaled = [[0, 0], [1, 0], [3, 0]] ∧
    answerAfter image
      (treeOne (.ofRoot ⟨⟨.two, .two⟩, ⟨[4], [4], 8⟩, [2], 4, true, true⟩ 1)) [[0], [2]] [3] =
        .ok ⟨203, 23, 1⟩ := by
  have stored : Subtree.Stored
      ([7] ++
        [84, 82, 69, 69, 1, 1, 2, 0, 255, 255, 255, 255] ++
          [20, 0, 0, 0, 0, 0, 0, 0, 0, 0, 0, 0, 0, 0, 0, 0, 0, 0, 0, 0, 0, 0, 0, 0, 89, 0] ++
          [23, 0, 0, 0, 1, 0, 0, 0, 6, 0, 0, 0, 0, 0, 0, 0, 0, 0, 0, 0, 0, 0, 0, 0, 177, 0] ++
          [0, 0, 0, 0, 0, 0, 0, 0, 8, 0, 0, 0, 0, 0, 0, 0, 0, 0, 0, 0, 0, 0, 0, 0] ++
        [84, 82, 69, 69, 1, 0, 2, 0, 255, 255, 177, 0] ++
          [20, 0, 0, 0, 0, 0, 0, 0, 0, 0, 0, 0, 0, 0, 0, 0, 0, 0, 0, 0, 0, 0, 0, 0, 200, 0] ++
          [21, 0, 0, 0, 0, 0, 0, 0, 2, 0, 0, 0, 0, 0, 0, 0, 0, 0, 0, 0, 0, 0, 0, 0, 201, 0] ++
          [0, 0, 0, 0, 0, 0, 0, 0, 6, 0, 0, 0, 0, 0, 0, 0, 0, 0, 0, 0, 0, 0, 0, 0] ++
        [84, 82, 69, 69, 1, 0, 1, 0, 89, 0, 255, 255] ++
          [23, 0, 0, 0, 1, 0, 0, 0, 6, 0, 0, 0, 0, 0, 0, 0, 0, 0, 0, 0, 0, 0, 0, 0, 203, 0] ++
          [0, 0, 0, 0, 0, 0, 0, 0, 8, 0, 0, 0, 0, 0, 0, 0, 0, 0, 0, 0, 0, 0, 0, 0])
      ⟨⟨.two, .two⟩, ⟨[4], [4], 8⟩, [2], 4, true, true⟩ 1 1
      (.inner ⟨1, [⟨20, 0, [0, 0]⟩, ⟨23, 1, [3, 0]⟩, ⟨0, 0, [4, 0]⟩], [89, 177]⟩
        [.leaf ⟨0, [⟨20, 0, [0, 0]⟩, ⟨21, 0, [1, 0]⟩, ⟨0, 0, [3, 0]⟩], [200, 201]⟩,
          .leaf ⟨0, [⟨23, 1, [3, 0]⟩, ⟨0, 0, [4, 0]⟩], [203]⟩]) := by
    refine ⟨_, _, by decide +kernel, rfl, ⟨by decide, by decide⟩, ?_, ?_, rfl⟩
    · exact .cons ⟨_, by decide +kernel, rfl, ⟨by decide, by decide⟩, rfl⟩
        (.cons ⟨_, by decide +kernel, rfl, ⟨by decide, by decide⟩, rfl⟩ .nil)
    · decide
  have answers := lookup_treeOne (c := [3]) (by decide +kernel) rfl stored rfl [[0], [2]]
  exact ⟨_, _, stored, rfl, rfl, (answers.1 ⟨[3, 0], ⟨203, 23, 1⟩⟩ (by decide) rfl).2⟩

end ChunkStore.ChunkIndex
