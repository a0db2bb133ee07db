import ChunkStore.Proofs.Index.Handle
import ChunkStore.Proofs.Parser
import ChunkStore.Proofs.TreeTwo.Search

/-!
# Lookups in a version 2 B-tree

`Subtree.Stored` says that a file holds a subtree below a pointer, node by node, and `Tree.Stored`
that it holds a tree whose nodes do not share addresses and whose records are in order. A handle
opened on such a tree holds nothing but nodes of it (`Consistent`), and the way down from a node
ends at the record of the target or nowhere (`answers_descend`): the records that the way leaves
aside are all before the target or all behind it.
-/

namespace ChunkStore.Index.TreeTwo

open Session ChunkStore.Parser

/-- The header at an address, as a new handle reads it. -/
def headerAt (image : Image) (s : Settings) (address : Nat) : Except Error Header :=
  ((ofAddress s address).recallHeader.runOn image (ofAddress s address)).1

/-- The node at a depth where a pointer says, as a new handle reads it. -/
def nodeAt (image : Image) (s : Settings) (h : Header) (depth : Nat) (c : Child) :
    Except Error Node :=
  ((readNode s h c.address c.records depth).runOn image (ofAddress s c.address)).1

/-- An inner node has a record, and one child more than records, none of them undefined. -/
structure Node.Branches (n : Node) : Prop where
  some : n.records ≠ []
  one : n.children.length = n.records.length + 1
  defined : ∀ c ∈ n.children, c.address ≠ undefinedAddress

/-- The nodes below a pointer with their addresses, and the records of all of them in order. -/
structure Subtree where
  nodes : List (Nat × Node)
  records : List Record

namespace Subtree

/-- No nodes. -/
def empty : Subtree := ⟨[], []⟩

/-- A leaf alone. -/
def leaf (address : Nat) (n : Node) : Subtree := ⟨[(address, n)], n.records⟩

/-- An inner node with the subtrees below it. -/
def inner (address : Nat) (n : Node) (below : List Subtree) : Subtree :=
  ⟨(address, n) :: below.flatMap nodes, inOrder n.records (below.map records)⟩

/-- The file holds the subtree below a pointer to a node at a depth. -/
def Stored (image : Image) (s : Settings) (h : Header) : (depth : Nat) → Child → Subtree → Prop
  | 0, c, t => ∃ n, nodeAt image s h 0 c = .ok n ∧ t = leaf c.address n
  | depth + 1, c, t => ∃ n below, nodeAt image s h (depth + 1) c = .ok n ∧ n.Branches ∧
      List.Forall₂ (Stored image s h depth) n.children below ∧ t = inner c.address n below

end Subtree

/-- The file has the tree's header at `address` and the nodes where their pointers say; a header
without a root has none. No two pointers share an address, and all the records are in order. -/
structure Tree.Stored (image : Image) (s : Settings) (address : Nat) (h : Header) (t : Subtree) :
    Prop where
  header : headerAt image s address = .ok h
  nodes : h.root = undefinedAddress ∧ t = .empty ∨ h.root ≠ undefinedAddress ∧
    Subtree.Stored image s h h.depth ⟨h.root, h.rootRecords⟩ t
  once : (t.nodes.map Prod.fst).Nodup
  sorted : Sorted t.records

variable {image : Image} {s : Settings} {address : Nat} {h : Header} {t : Subtree}

/-! ## Reading -/

theorem detached_readNode (s : Settings) (h : Header) (address records depth : Nat) :
    Detached (readNode s h address records depth) := by
  unfold readNode
  split
  · exact .throw _
  · exact .guard (.bind (.liftM _) fun _ => .bind (.fetch ..) fun _ => .ofExcept _)

/-- A header that was read stands somewhere, in a file of 64-bit length. -/
theorem ne_undefinedAddress_of_headerAt (bound : image.length ≤ maxWord)
    (found : headerAt image s address = .ok h) : address ≠ undefinedAddress := by
  rw [headerAt, recallHeader, fst_runOn_recallOne image _ rfl] at found
  exact ne_undefinedAddress_of_fetch image _ bound (Nat.succ_pos _) found

/-- A node has the number of records that its pointer names. -/
theorem length_records_of_nodeAt {depth : Nat} {c : Child} {n : Node}
    (found : nodeAt image s h depth c = .ok n) : n.records.length = c.records := by
  have parsed : ∀ {bytes}, Ensures (nodeParser s h c.address c.records depth bytes)
      fun n => n.records.length = c.records := by
    intro bytes
    refine .bind_any fun _ => .bind_any fun _ => .bind_any fun _ => .guard fun _ => ?_
    refine (Ensures.times (.any _) c.records).bind fun records count => ?_
    exact .bind_any fun _ => .bind_any fun _ => .bind_any fun _ => .bind_any fun _ =>
      .pure count.1
  have read : Meets image (fun _ => True) (readNode s h c.address c.records depth)
      fun n => n.records.length = c.records := by
    unfold readNode
    split
    · exact .throw _ _
    · refine .guard fun _ => (Meets.any _).bind fun _ _ => (Meets.any _).bind fun bytes _ => ?_
      exact .ofExcept fun n done => parsed.parse done
  exact (read.run _ trivial).2 n found

theorem Subtree.Stored.records_eq_nil {depth address : Nat}
    (stored : Stored image s h depth ⟨address, 0⟩ t) : t.records = [] := by
  cases depth with
  | zero =>
    obtain ⟨n, read, rfl⟩ := stored
    exact List.eq_nil_of_length_eq_zero (length_records_of_nodeAt read)
  | succ depth =>
    obtain ⟨n, below, read, branches, -⟩ := stored
    exact absurd (List.eq_nil_of_length_eq_zero (length_records_of_nodeAt read)) branches.some

/-! ## A handle on a tree -/

/-- The handle was opened on the tree, and what it holds of the tree is the tree's. -/
structure Consistent (s : Settings) (address : Nat) (h : Header) (t : Subtree) (x : TreeTwo) :
    Prop where
  opening : x.opening = (s, address)
  header : ∀ h', x.header = some h' → h' = h
  nodes : ∀ p ∈ t.nodes, ∀ n, x.nodes.get? p.1 = some n → n = p.2

theorem consistent_ofAddress (s : Settings) (address : Nat) (h : Header) (t : Subtree) :
    Consistent s address h t (.ofAddress s address) where
  opening := rfl
  header := fun _ held => by cases held
  nodes := fun _ _ _ held => by cases held

theorem answers_recallHeader (found : headerAt image s address = .ok h) {x : TreeTwo}
    (opened : x.opening = (s, address)) :
    Answers image (Consistent s address h t) x.recallHeader h := by
  obtain ⟨rfl, rfl⟩ : x.settings = s ∧ x.address = address := Prod.ext_iff.1 opened
  refine answers_recallOne_of_free image (ofAddress x.settings x.address)
    (fun x' h' keeps held => keeps.header h' held) ?_
    (.bind (.fetch ..) fun _ => .ofExcept _) rfl found
  intro x' keeps
  exact { keeps with header := fun h' held => by cases held; rfl }

/-- A node of a tree without shared addresses. -/
theorem answers_recallNode (once : (t.nodes.map Prod.fst).Nodup) {depth : Nat} {c : Child}
    {n : Node} (found : nodeAt image s h depth c = .ok n) (mem : (c.address, n) ∈ t.nodes) :
    Answers image (Consistent s address h t) (recallNode s h c.address c.records depth) n := by
  refine Memo.answers_recallAt image ?_ ?_ (.of_detached (detached_readNode ..) found)
  · intro x n' keeps held
    exact keeps.nodes _ mem n' held
  · intro x keeps
    refine { keeps with nodes := fun p other n' held => ?_ }
    dsimp only at held
    rw [Memo.get?_insert] at held
    split at held
    next same =>
      cases held
      rw [List.inj_on_of_nodup_map once other mem same]
    next => exact keeps.nodes p other n' held

/-- The way down from a pointer ends at the record of the target among those below the pointer. -/
theorem answers_descend (once : (t.nodes.map Prod.fst).Nodup) (target : Coordinate) {depth : Nat}
    {c : Child} {sub : Subtree} (stored : sub.Stored image s h depth c)
    (part : sub.nodes ⊆ t.nodes) (sorted : Sorted sub.records) :
    Answers image (Consistent s address h t) (descend s h target depth c.address c.records)
      (descriptorOf sub.records target) := by
  induction depth generalizing c sub with
  | zero =>
    obtain ⟨n, read, rfl⟩ := stored
    unfold descend
    apply Answers.bind (answers_recallNode once read (part List.mem_cons_self))
    have own : Sorted n.records := sorted
    show Answers _ _ _ (descriptorOf n.records target)
    rcases locate_cases own target with
      ⟨slot, r, found, here, same⟩ | ⟨slot, side, found, unequal, splits⟩
    · rw [found, descriptorOf_eq own (List.mem_of_getElem? here) same]
      exact .ite_pos rfl (.bind (.liftM (Bounds.item_eq_ok_iff.2 here)) (.pure _))
    · rw [found, descriptorOf_eq_undefined splits.absent]
      exact .ite_neg unequal (.pure _)
  | succ depth ih =>
    obtain ⟨n, below, read, branches, children, rfl⟩ := stored
    unfold descend
    apply Answers.bind (answers_recallNode once read (part List.mem_cons_self))
    have sorted : Sorted (inOrder n.records (below.map Subtree.records)) := sorted
    have lengths : (below.map Subtree.records).length = n.records.length + 1 := by
      rw [List.length_map, ← children.length_eq, branches.one]
    have more : n.records.length ≤ (below.map Subtree.records).length := by omega
    have own : Sorted n.records := sorted.of_inOrder more
    show Answers _ _ _ (descriptorOf (inOrder n.records (below.map Subtree.records)) target)
    rcases locate_cases own target with
      ⟨slot, r, found, here, same⟩ | ⟨slot, side, found, unequal, splits⟩
    · have mem := mem_inOrder_of_mem_own more (List.mem_of_getElem? here)
      rw [found, descriptorOf_eq sorted mem same]
      exact .ite_pos rfl (.bind (.liftM (Bounds.item_eq_ok_iff.2 here)) (.pure _))
    · rw [found]
      refine .ite_neg unequal ?_
      dsimp only
      have inside : placeBeside slot side < n.children.length := by
        rw [branches.one]
        exact Nat.lt_succ_of_le splits.le
      have chosen : n.children[placeBeside slot side]? = some n.children[placeBeside slot side] :=
        List.getElem?_eq_getElem inside
      obtain ⟨sub, there, held⟩ := forall₂_getElem? children chosen
      have among : sub ∈ below := List.mem_of_getElem? there
      have listed : (below.map Subtree.records)[placeBeside slot side]? = some sub.records := by
        rw [List.getElem?_map, there]
        rfl
      rw [descriptorOf_inOrder sorted lengths splits listed]
      have asked : n.children[if side = .gt then slot + 1 else slot]? = some _ := chosen
      rw [asked]
      refine .ite_neg (branches.defined _ (List.getElem_mem inside)) (ih held ?_ ?_)
      · exact fun p mem => part
          (List.mem_cons_of_mem _ (List.mem_flatMap.2 ⟨sub, among, mem⟩))
      · exact sorted.sublist (sublist_inOrder more (List.mem_of_getElem? listed))

/-- Every lookup in a stored tree finds what its records say, in every state that a handle on the
tree can be in. -/
theorem Tree.Stored.answers_lookup (tree : Stored image s address h t)
    (bound : image.length ≤ maxWord) (c : Coordinate) :
    Answers image (Consistent s address h t) (lookup c) (descriptorOf t.records c) := by
  apply Answers.get_bind
  intro x keeps
  obtain ⟨rfl, rfl⟩ : x.settings = s ∧ x.address = address := Prod.ext_iff.1 keeps.opening
  refine .ite_neg (ne_undefinedAddress_of_headerAt bound tree.header) ?_
  apply Answers.bind (answers_recallHeader tree.header keeps.opening)
  rcases tree.nodes with ⟨nowhere, rfl⟩ | ⟨somewhere, stored⟩
  · exact .ite_pos (.inl nowhere) (.pure _)
  by_cases none : h.rootRecords = 0
  · rw [none] at stored
    rw [stored.records_eq_nil]
    exact .ite_pos (.inr none) (.pure _)
  · exact .ite_neg (fun either => either.elim somewhere none)
      (answers_descend tree.once c stored (List.Subset.refl _) tree.sorted)

end ChunkStore.Index.TreeTwo

namespace ChunkStore.ChunkIndex

open Index Index.TreeTwo

/-- Lookup in a stored tree is lookup in the list of its records: the record with the coordinate,
of which there is only one, gives the answer, and without such a record nothing is there. The
handle may have answered any lookups before. -/
theorem lookup_treeTwo {image : Image} {s : Settings} {address : Nat} {h : Header} {t : Subtree}
    (bound : image.length ≤ maxWord) (tree : Tree.Stored image s address h t) {c : Coordinate}
    (rank : c.length = s.geometry.rank) (earlier : List Coordinate) :
    (∀ r ∈ t.records, r.scaled = c → (∀ r' ∈ t.records, r'.scaled = c → r' = r) ∧
      answerAfter image (treeTwo (.ofAddress s address)) earlier c = .ok r.descriptor) ∧
    ((∀ r ∈ t.records, r.scaled ≠ c) →
      answerAfter image (treeTwo (.ofAddress s address)) earlier c = .ok .undefined) := by
  rw [embeds_treeTwo.answerAfter_eq (fun x keeps => keeps.opening)
    (fun c _ => tree.answers_lookup bound c) (consistent_ofAddress s address h t) rank earlier]
  refine ⟨fun r mem here => ⟨fun r' mem' here' => ?_, ?_⟩, fun absent => ?_⟩
  · exact tree.sorted.eq_of_mem mem' mem (here'.trans here.symm)
  · rw [descriptorOf_eq tree.sorted mem here]
  · rw [descriptorOf_eq_undefined absent]

/-- A root over two leaves: the first record of the second leaf, after lookups on both sides. -/
theorem lookup_treeTwo_in_second_leaf : ∃ image h t,
    Tree.Stored image ⟨⟨.two, .two⟩, ⟨[9], [9], 4⟩, [1], 4, false, true⟩ 1 h t ∧
    t.nodes.length = 3 ∧ t.records.map Record.scaled = [[0], [1], [2], [3]] ∧
    answerAfter image
      (treeTwo (.ofAddress ⟨⟨.two, .two⟩, ⟨[9], [9], 4⟩, [1], 4, false, true⟩ 1)) [[0], [8]] [2] =
        .ok ⟨102, 4, 0⟩ := by
  have tree : Tree.Stored
      ([7] ++
        withChecksum [66, 84, 72, 68, 0, 10, 40, 0, 0, 0, 10, 0, 1, 0, 0, 0, 27, 0, 1, 0, 4, 0] ++
        withChecksum [66, 84, 73, 78, 0, 10, 101, 0, 1, 0, 0, 0, 0, 0, 0, 0, 53, 0, 1, 73, 0, 2] ++
        withChecksum [66, 84, 76, 70, 0, 10, 100, 0, 0, 0, 0, 0, 0, 0, 0, 0] ++
        withChecksum [66, 84, 76, 70, 0, 10, 102, 0, 2, 0, 0, 0, 0, 0, 0, 0, 103, 0, 3, 0, 0, 0, 0,
          0, 0, 0])
      ⟨⟨.two, .two⟩, ⟨[9], [9], 4⟩, [1], 4, false, true⟩ 1
      ⟨10, 10, 1, 27, 1, 1, [⟨3, 3, 0, 0⟩, ⟨2, 11, 1, 3⟩]⟩
      (.inner 27 ⟨[⟨[1], ⟨101, 4, 0⟩⟩], [⟨53, 1⟩, ⟨73, 2⟩]⟩
        [.leaf 53 ⟨[⟨[0], ⟨100, 4, 0⟩⟩], []⟩,
          .leaf 73 ⟨[⟨[2], ⟨102, 4, 0⟩⟩, ⟨[3], ⟨103, 4, 0⟩⟩], []⟩]) := by
    refine ⟨by decide +kernel, .inr ⟨by decide, _, _, by decide +kernel, ?_, ?_, rfl⟩, by decide,
      by decide⟩
    · exact ⟨by decide, rfl, by decide⟩
    · exact .cons ⟨_, by decide +kernel, rfl⟩ (.cons ⟨_, by decide +kernel, rfl⟩ .nil)
  have answers := lookup_treeTwo (c := [2]) (by decide +kernel) tree rfl [[0], [8]]
  exact ⟨_, _, _, tree, rfl, rfl, (answers.1 ⟨[2], ⟨102, 4, 0⟩⟩ (by decide) rfl).2⟩

end ChunkStore.ChunkIndex
