import LineBasic.Proofs.Arena.Regular

/-!
# Arenas in postorder

The arena of a parsed program holds the nodes of its forest in postorder behind the root, and the ranges of children
in the order of the nodes that own them, with that of the root at the end. So the ranges lie side by side, every node
is referred to once, by a later node or the root, and children stand in the order of their tokens.

## Main definitions

* `Arena.Bears`: a forest stands in an arena from some node and some slot on.
* `Arena.Under`, `Arena.TokenUnder`: the nodes and the tokens of the tree below a node.
* `Arena.Regular`: a node has the token, references and children that its tag prescribes.
* `Arena.Orderly`: what holds of the arenas of parsed programs.
* `Arena.Stores`: a forest makes up an arena.

## Main results

* `Arena.Bears.exists_tree`: each node of a forest is the root of one of its trees.
* `Arena.perm_references`, `Arena.flatMap_span`: nodes and slots are used once.
* `Arena.Stores.orderly`: a root in front of a regular forest.
* `Grammar.parse_layout`: the arena of a program that parses.
-/

namespace LineBasic

open Forest

/-- The slots of the range of a node. -/
def Node.span (n : Node) : List Nat :=
  if n.tag.hasRange then List.range' (n.lhs.getD 0) (n.rhs.getD 0 - n.lhs.getD 0) else []

/-- The nodes to which a node refers without a range. -/
def Node.direct (n : Node) : List NodeId :=
  if n.tag.hasRange then [] else n.lhs.toList ++ n.rhs.toList

namespace Arena

/-- The range of children that a node owns. -/
def owned (a : Arena) (n : Node) : List NodeId := if n.tag.hasRange then a.children n else []

/-- A node stands in the tree below another one. -/
inductive Under (a : Arena) : NodeId → NodeId → Prop
  | here (i : NodeId) : Under a i i
  | child {i j k : NodeId} {n : Node} (hn : a.nodes[i]? = some n) (hj : j ∈ a.references n) (h : Under a j k) :
      Under a i k

/-- A token belongs to a node of the tree below a node. -/
def TokenUnder (a : Arena) (i : NodeId) (t : TokenId) : Prop :=
  ∃ j n, a.Under i j ∧ a.nodes[j]? = some n ∧ n.token = some t

/-- A node has the token, the references and the children that its tag prescribes. -/
structure Regular (tags : List Tag) (a : Arena) (n : Node) : Prop where
  token : n.tag.Suits tags n.token
  lhs : n.lhs.isSome = n.tag.hasLeft
  rhs : n.rhs.isSome = n.tag.hasRight
  range : n.tag.hasRange → a.Bounded n
  children : ∃ kinds, List.Forall₂ (fun j k => ∃ m, a.nodes[j]? = some m ∧ m.tag = k) (a.references n) kinds ∧
    n.tag.Admits tags n.token kinds

/-- The arena of a program. The first node is the root. Behind it the nodes come in postorder, so children stand in
front of their parents, and they stand in the order of their tokens. The ranges of children lie side by side in the
order of the nodes that own them, and that of the root comes last. -/
structure Orderly (tags : List Tag) (a : Arena) : Prop where
  root : ∃ n, a.nodes[0]? = some n ∧ n.tag = .root
  regular : ∀ (i : NodeId) (n : Node), a.nodes[i]? = some n → a.Regular tags n
  extra : a.extra.toList = (a.nodes.toList.tail ++ a.nodes.toList.take 1).flatMap a.owned
  spans : (a.nodes.toList.tail ++ a.nodes.toList.take 1).flatMap Node.span = List.range a.extra.size
  partition : ∀ k < a.extra.size, ∃! i : NodeId, ∃ n, a.nodes[i]? = some n ∧ k ∈ n.span
  nonempty : ∀ (i : NodeId) (n : Node), 0 < i → a.nodes[i]? = some n → n.tag.hasRange → a.children n ≠ []
  once : (a.nodes.toList.flatMap Node.direct ++ a.extra.toList).Perm (List.range' 1 (a.nodes.size - 1))
  descends : ∀ (i : NodeId) (n : Node), 0 < i → a.nodes[i]? = some n → ∀ j ∈ a.references n, 0 < j ∧ j < i
  sorted : ∀ (i : NodeId) (n : Node), a.nodes[i]? = some n →
    (a.references n).Pairwise fun j k => ∀ t u, a.TokenUnder j t → a.TokenUnder k u → t < u
  inhabited : ∀ i : NodeId, 0 < i → i < a.nodes.size → ∃ t, a.TokenUnder i t

/-- A forest stands in an arena: its nodes from one position on, and its ranges from one slot on. -/
def Bears (a : Arena) : Forest → (start offset : Nat) → Prop
  | .empty, _, _ => True
  | .grow f tag token ks, start, offset =>
    let n := tag.node token (offset + f.slots + ks.slots) (ks.roots (start + f.size))
    a.Bears f start offset ∧ a.Bears ks (start + f.size) (offset + f.slots) ∧
      a.nodes[start + f.size + ks.size]? = some n ∧
      (tag.hasRange → a.Bounded n ∧ a.children n = ks.roots (start + f.size))

end Arena

/-! ### Nodes with their children -/

namespace NodeTag

variable {tags : List Tag} {tag : NodeTag} {token : Option TokenId} {kinds : List NodeTag} {start : Nat}
  {ks : List NodeId}

theorem span_node : (tag.node token start ks).span = if tag.hasRange then List.range' start ks.length else [] := by
  rw [Node.span, node_tag, node]
  split
  · simp
  · rfl

/-- A node refers to all of its children, and its references are present or absent as its tag says. -/
theorem node_shape (start : Nat) (ks : List NodeId) (h : tag.Admits tags token kinds)
    (hlength : kinds.length = ks.length) :
    (tag.node token start ks).direct = (if tag.hasRange then [] else ks) ∧
      (tag.node token start ks).lhs.isSome = tag.hasLeft ∧ (tag.node token start ks).rhs.isSome = tag.hasRight := by
  have hone : ∀ k : NodeTag, [k].length = ks.length → ∃ i, ks = [i] := fun k hk =>
    List.length_eq_one_iff.1 hk.symm
  have htwo : ∀ k k' : NodeTag, [k, k'].length = ks.length → ∃ i j, ks = [i, j] := fun k k' hk =>
    List.length_eq_two.1 hk.symm
  cases tag with
  | root | print | input | expression | term _ | call => exact ⟨rfl, rfl, rfl⟩
  | nakedLine | markedLine | factor _ =>
    obtain ⟨k, rfl, -⟩ := h
    obtain ⟨i, rfl⟩ := hone k hlength
    exact ⟨rfl, rfl, rfl⟩
  | assign | goto | gosub =>
    obtain rfl := h
    obtain ⟨i, rfl⟩ := hone _ hlength
    exact ⟨rfl, rfl, rfl⟩
  | branch =>
    obtain ⟨k, rfl, -⟩ := h
    obtain ⟨i, j, rfl⟩ := htwo _ k hlength
    exact ⟨rfl, rfl, rfl⟩
  | predicate =>
    obtain rfl := h
    obtain ⟨i, j, rfl⟩ := htwo _ _ hlength
    exact ⟨rfl, rfl, rfl⟩
  | action _ | string | var | number =>
    obtain rfl := h
    obtain rfl := List.length_eq_zero_iff.1 hlength.symm
    exact ⟨rfl, rfl, rfl⟩

/-- A node with a range has a child, unless it is the root. -/
theorem ne_nil_of_admits (h : tag.Admits tags token kinds) (hrange : tag.hasRange) (hroot : tag ≠ .root) :
    kinds ≠ [] := by
  cases tag with
  | print | input | expression | term _ => exact h.1
  | call =>
    obtain ⟨t, f, -, -, rfl⟩ := h
    cases f <;> simp [Builtin.arity]
  | root => exact absurd rfl hroot
  | _ => cases hrange

/-- A node without a token has a child, unless it is the root. -/
theorem ne_nil_of_hasToken (h : tag.Admits tags token kinds) (htoken : tag.hasToken = false) (hroot : tag ≠ .root) :
    kinds ≠ [] := by
  cases tag with
  | expression | term _ => exact h.1
  | nakedLine | factor _ =>
    obtain ⟨k, rfl, -⟩ := h
    simp
  | root => exact absurd rfl hroot
  | _ => cases htoken

/-- The root is no child. -/
theorem root_notMem_of_admits (h : tag.Admits tags token kinds) : NodeTag.root ∉ kinds := by
  intro hmem
  cases tag with
  | root => cases h _ hmem
  | print | input | expression | term _ => cases h.2 _ hmem
  | nakedLine | markedLine | factor _ =>
    obtain ⟨k, rfl, hk⟩ := h
    obtain rfl := List.mem_singleton.1 hmem
    cases hk
  | branch =>
    obtain ⟨k, rfl, hk⟩ := h
    rcases List.mem_cons.1 hmem with heq | hmem
    · cases heq
    · obtain rfl := List.mem_singleton.1 hmem
      cases hk
  | assign | goto | gosub | predicate =>
    obtain rfl := h
    simp at hmem
  | call =>
    obtain ⟨t, f, -, -, rfl⟩ := h
    cases List.eq_of_mem_replicate hmem
  | action _ | string | var | number =>
    obtain rfl := h
    cases hmem

end NodeTag

/-! ### A forest in an arena -/

namespace Forest

/-- A tree of a forest, or of the children of one of its nodes. -/
inductive Part (tag : NodeTag) (token : Option TokenId) (ks : Forest) : Forest → Prop
  | last (f : Forest) : Part tag token ks (grow f tag token ks)
  | front {f : Forest} (tag' : NodeTag) (token' : Option TokenId) (ks' : Forest) (h : Part tag token ks f) :
      Part tag token ks (grow f tag' token' ks')
  | under {ks' : Forest} (f : Forest) (tag' : NodeTag) (token' : Option TokenId) (h : Part tag token ks ks') :
      Part tag token ks (grow f tag' token' ks')

variable {tags : List Tag} {tag : NodeTag} {token : Option TokenId} {f ks : Forest}

theorem Part.conforms (h : Part tag token ks f) (hf : f.Conforms tags) : (tree tag token ks).Conforms tags := by
  induction h with
  | last f => exact ⟨trivial, hf.2⟩
  | front _ _ _ _ ih => exact ih hf.1
  | under _ _ _ _ ih => exact ih hf.2.1

theorem Part.ordered (h : Part tag token ks f) (hf : f.Ordered) : ks.Ordered := by
  induction h with
  | last f => exact hf.2.1
  | front _ _ _ _ ih => exact ih hf.1
  | under _ _ _ _ ih => exact ih hf.2.1

theorem roots_bounds (f : Forest) {start i : Nat} (h : i ∈ f.roots start) : start ≤ i ∧ i < start + f.size := by
  induction f with
  | empty => cases h
  | grow f tag token ks ih _ =>
    rw [roots, List.mem_append, List.mem_singleton] at h
    rw [size]
    rcases h with h | rfl
    · have := ih h
      omega
    · omega

theorem Part.ne_root (h : Part tag token ks f) (hf : f.Conforms tags) (hroot : NodeTag.root ∉ f.tags) :
    tag ≠ .root := by
  induction h with
  | last f => exact fun heq => hroot (by rw [Forest.tags, heq]; simp)
  | front _ _ _ _ ih => exact ih hf.1 fun hmem => hroot (List.mem_append_left _ hmem)
  | under _ _ _ _ ih => exact ih hf.2.1 (NodeTag.root_notMem_of_admits hf.2.2.2)

theorem Part.mem_tokens (h : Part tag token ks f) {t : TokenId} (ht : t ∈ token) : t ∈ f.tokens := by
  induction h with
  | last f => exact List.mem_append_right _ (List.mem_append_left _ (Option.mem_toList.2 ht))
  | front _ _ _ _ ih => exact List.mem_append_left _ ih
  | under _ _ _ _ ih => exact List.mem_append_right _ (List.mem_append_right _ ih)

/-- A tree has a token, since a node without one has children. -/
theorem tokens_ne_nil (h : f.Conforms tags) (hroot : NodeTag.root ∉ f.tags) (hf : f ≠ empty) : f.tokens ≠ [] := by
  induction f with
  | empty => exact absurd rfl hf
  | grow f tag token ks _ ih =>
    obtain ⟨-, hks, hsuits, hadmits⟩ := h
    have htag : tag ≠ .root := fun heq => hroot (by rw [Forest.tags, heq]; simp)
    refine List.append_ne_nil_of_right_ne_nil _ ?_
    rw [NodeTag.Suits] at hsuits
    split at hsuits
    · obtain ⟨t, u, rfl, -, -⟩ := hsuits
      exact List.cons_ne_nil _ _
    · rename_i hnone
      refine List.append_ne_nil_of_right_ne_nil _ (ih hks (NodeTag.root_notMem_of_admits hadmits) ?_)
      rintro rfl
      exact NodeTag.ne_nil_of_hasToken hadmits (Bool.eq_false_iff.2 hnone) htag rfl

end Forest

namespace Arena

variable {a : Arena} {f ks : Forest} {tag : NodeTag} {token : Option TokenId} {start offset i : Nat} {n : Node}
  {tags : List Tag}

theorem children_node (hrange : tag.hasRange) (token : Option TokenId) (start : Nat) (is : List NodeId) :
    a.children (tag.node token start is) = (a.extra.toList.drop start).take is.length := by
  simp [children, NodeTag.node, hrange, List.extract_eq_take_drop]

theorem bounded_node (hrange : tag.hasRange) {is : List NodeId} (h : start + is.length ≤ a.extra.size) :
    a.Bounded (tag.node token start is) := by
  rw [NodeTag.node, if_pos hrange]
  exact ⟨_, _, rfl, rfl, Nat.le_add_right _ _, h⟩

/-- One list and then another stand at the front if the other one stands behind the first. -/
theorem prefix_of_append_prefix {α : Type} {xs ys zs : List α} (h : xs ++ ys <+: zs) :
    xs <+: zs ∧ ys <+: zs.drop xs.length := by
  obtain ⟨rest, rfl⟩ := h
  constructor
  · exact ⟨ys ++ rest, (List.append_assoc _ _ _).symm⟩
  · exact ⟨rest, by simp⟩

/-- A forest stands where its nodes and its ranges are. -/
theorem bears_of_prefix (hnodes : f.nodes start offset <+: a.nodes.toList.drop start)
    (hextra : f.extra start <+: a.extra.toList.drop offset) (hsize : offset + f.slots ≤ a.extra.size) :
    a.Bears f start offset := by
  induction f generalizing start offset with
  | empty => trivial
  | grow f tag token ks ihf ihks =>
    rw [slots] at hsize
    obtain ⟨hnodes, hlast⟩ := prefix_of_append_prefix hnodes
    obtain ⟨hextra, hrange⟩ := prefix_of_append_prefix hextra
    rw [List.drop_drop, List.length_append, length_nodes, length_nodes, ← Nat.add_assoc] at hlast
    rw [List.drop_drop, List.length_append, length_extra, length_extra, ← Nat.add_assoc] at hrange
    obtain ⟨hnodes, hbelow⟩ := prefix_of_append_prefix hnodes
    obtain ⟨hextra, hextra'⟩ := prefix_of_append_prefix hextra
    rw [List.drop_drop, length_nodes] at hbelow
    rw [List.drop_drop, length_extra] at hextra'
    refine ⟨ihf hnodes hextra (by omega), ihks hbelow hextra' (by omega), ?_, fun hr => ?_⟩
    · obtain ⟨rest, hrest⟩ := hlast
      rw [← Array.getElem?_toList, ← List.head?_drop, ← hrest]
      rfl
    · rw [if_pos hr] at hrange hsize
      refine ⟨bounded_node hr (by simpa [Nat.add_assoc] using hsize), ?_⟩
      rw [children_node hr]
      exact (List.prefix_iff_eq_take.1 hrange).symm

namespace Bears

/-- Each node of a forest is the root of one of its trees. -/
theorem exists_tree (h : a.Bears f start offset) (hi : start ≤ i) (hi' : i < start + f.size) :
    ∃ tag token ks start' offset', start ≤ start' ∧ i = start' + ks.size ∧ Part tag token ks f ∧
      a.Bears (tree tag token ks) start' offset' := by
  induction f generalizing start offset with
  | empty => exact absurd hi' (Nat.not_lt.2 hi)
  | grow f tag token ks ihf ihks =>
    obtain ⟨hf, hks, hlast⟩ := h
    rw [size] at hi'
    by_cases hfront : i < start + f.size
    · obtain ⟨tag', token', ks', start', offset', hle, rfl, hpart, hbears⟩ := ihf hf hi hfront
      exact ⟨tag', token', ks', start', offset', hle, rfl, hpart.front _ _ _, hbears⟩
    · by_cases hbelow : i < start + f.size + ks.size
      · obtain ⟨tag', token', ks', start', offset', hle, rfl, hpart, hbears⟩ := ihks hks (by omega) hbelow
        exact ⟨tag', token', ks', start', offset', by omega, rfl, hpart.under _ _ _, hbears⟩
      · exact ⟨tag, token, ks, start + f.size, offset + f.slots, by omega, by omega, .last f, trivial, hks, hlast⟩

/-- The node of a tree refers to the roots of its children. -/
theorem references_eq (h : a.Bears (tree tag token ks) start offset) (hconforms : (tree tag token ks).Conforms tags)
    (hn : a.nodes[start + ks.size]? = some n) : a.references n = ks.roots start := by
  obtain ⟨-, -, hnode, hrange⟩ := h
  obtain ⟨-, -, -, hadmits⟩ := hconforms
  obtain rfl := Option.some.inj (hnode.symm.trans hn)
  have hshape := (NodeTag.node_shape (offset + empty.slots + ks.slots) (ks.roots (start + empty.size)) hadmits
    (by simp)).1
  rw [Node.direct, NodeTag.node_tag] at hshape
  rw [references, NodeTag.node_tag]
  by_cases hr : tag.hasRange
  · rw [if_pos hr]
    exact (hrange hr).2
  · rw [if_neg hr] at hshape ⊢
    rw [if_neg hr] at hshape
    exact hshape

theorem forall₂_roots (h : a.Bears f start offset) :
    List.Forall₂ (fun j k => ∃ m, a.nodes[j]? = some m ∧ m.tag = k) (f.roots start) f.tags := by
  induction f with
  | empty => exact .nil
  | grow f tag token ks ih _ =>
    obtain ⟨hf, -, hnode, -⟩ := h
    exact List.rel_append (ih hf) (.cons ⟨_, hnode, NodeTag.node_tag ..⟩ .nil)

/-- Every node of a regular forest is regular. -/
theorem regular (h : a.Bears f start offset) (hconforms : f.Conforms tags) (hi : start ≤ i)
    (hi' : i < start + f.size) (hn : a.nodes[i]? = some n) : a.Regular tags n := by
  obtain ⟨tag, token, ks, start', offset', -, rfl, hpart, hbears⟩ := h.exists_tree hi hi'
  have hreferences := hbears.references_eq (hpart.conforms hconforms) hn
  obtain ⟨-, -, hsuits, hadmits⟩ := hpart.conforms hconforms
  obtain ⟨-, hks, hnode, hrange⟩ := hbears
  obtain rfl := Option.some.inj (hnode.symm.trans hn)
  obtain ⟨-, hlhs, hrhs⟩ := NodeTag.node_shape (offset' + empty.slots + ks.slots)
    (ks.roots (start' + empty.size)) hadmits (by simp)
  constructor
  · rw [NodeTag.node_tag, NodeTag.node_token]
    exact hsuits
  · rw [NodeTag.node_tag]
    exact hlhs
  · rw [NodeTag.node_tag]
    exact hrhs
  · rw [NodeTag.node_tag]
    exact fun hr => (hrange hr).1
  · rw [NodeTag.node_tag, NodeTag.node_token, hreferences]
    exact ⟨ks.tags, hks.forall₂_roots, hadmits⟩

/-- A node refers to earlier nodes of its tree only. -/
theorem references_bounds (h : a.Bears f start offset) (hconforms : f.Conforms tags) (hi : start ≤ i)
    (hi' : i < start + f.size) (hn : a.nodes[i]? = some n) {j : Nat} (hj : j ∈ a.references n) :
    start ≤ j ∧ j < i := by
  obtain ⟨tag, token, ks, start', offset', hle, rfl, hpart, hbears⟩ := h.exists_tree hi hi'
  rw [hbears.references_eq (hpart.conforms hconforms) hn] at hj
  have := roots_bounds ks hj
  omega

theorem children_ne_nil (h : a.Bears f start offset) (hconforms : f.Conforms tags) (hroot : NodeTag.root ∉ f.tags)
    (hi : start ≤ i) (hi' : i < start + f.size) (hn : a.nodes[i]? = some n) (hrange : n.tag.hasRange) :
    a.children n ≠ [] := by
  obtain ⟨tag, token, ks, start', offset', hle, rfl, hpart, hbears⟩ := h.exists_tree hi hi'
  obtain ⟨-, -, -, hadmits⟩ := hpart.conforms hconforms
  obtain rfl := Option.some.inj (hbears.2.2.1.symm.trans hn)
  rw [NodeTag.node_tag] at hrange
  have hkinds := NodeTag.ne_nil_of_admits hadmits hrange (hpart.ne_root hconforms hroot)
  rw [(hbears.2.2.2 hrange).2]
  intro hnil
  have hcount := congrArg List.length hnil
  rw [length_roots, ← length_tags] at hcount
  exact hkinds (List.length_eq_zero_iff.1 hcount)

/-- The nodes below a node of a forest stand in the forest. -/
theorem under_bounds (h : a.Bears f start offset) (hconforms : f.Conforms tags) {j : Nat} (hij : a.Under i j)
    (hi : start ≤ i) (hi' : i < start + f.size) : start ≤ j ∧ j < start + f.size := by
  induction hij with
  | here i => exact ⟨hi, hi'⟩
  | child hn hj _ ih =>
    have hbounds := h.references_bounds hconforms hi hi' hn hj
    exact ih hbounds.1 (Nat.lt_trans hbounds.2 hi')

theorem mem_tokens (h : a.Bears f start offset) (hconforms : f.Conforms tags) (hi : start ≤ i)
    (hi' : i < start + f.size) {t : TokenId} (ht : a.TokenUnder i t) : t ∈ f.tokens := by
  obtain ⟨j, n, hij, hn, htoken⟩ := ht
  obtain ⟨hj, hj'⟩ := h.under_bounds hconforms hij hi hi'
  obtain ⟨tag, token, ks, start', offset', hle, rfl, hpart, hbears⟩ := h.exists_tree hj hj'
  obtain rfl := Option.some.inj (hbears.2.2.1.symm.trans hn)
  rw [NodeTag.node_token] at htoken
  exact hpart.mem_tokens htoken

/-- The roots of a forest stand in the order of their tokens. -/
theorem pairwise_roots (h : a.Bears f start offset) (hconforms : f.Conforms tags) (hordered : f.Ordered) :
    (f.roots start).Pairwise fun j k => ∀ t u, a.TokenUnder j t → a.TokenUnder k u → t < u := by
  induction f with
  | empty => exact .nil
  | grow f tag token ks ih _ =>
    obtain ⟨hf, hks, hlast⟩ := h
    obtain ⟨hconforms, hconforms'⟩ := hconforms
    obtain ⟨hordered, -, hlt⟩ := hordered
    have htree : a.Bears (tree tag token ks) (start + f.size) (offset + f.slots) := ⟨trivial, hks, hlast⟩
    refine List.pairwise_append.2 ⟨ih hf hconforms hordered, List.pairwise_singleton _ _, ?_⟩
    intro j hj k hk t u ht hu
    obtain ⟨hj, hj'⟩ := roots_bounds f hj
    obtain rfl := List.mem_singleton.1 hk
    exact hlt t (hf.mem_tokens hconforms hj hj' ht) u
      (htree.mem_tokens ⟨trivial, hconforms'⟩ (by omega) (by simp [tree, size]) hu)

/-- The tokens of a forest stand below its roots. -/
theorem exists_tokenUnder (h : a.Bears f start offset) (hconforms : f.Conforms tags) {t : TokenId}
    (ht : t ∈ f.tokens) : ∃ i ∈ f.roots start, a.TokenUnder i t := by
  induction f generalizing start offset with
  | empty => cases ht
  | grow f tag token ks ihf ihks =>
    obtain ⟨hf, hks, hlast⟩ := h
    obtain ⟨hconforms, hconforms'⟩ := hconforms
    have htree : a.Bears (tree tag token ks) (start + f.size) (offset + f.slots) := ⟨trivial, hks, hlast⟩
    rw [tokens, List.mem_append, List.mem_append] at ht
    rcases ht with ht | ht | ht
    · obtain ⟨i, hi, hunder⟩ := ihf hf hconforms ht
      exact ⟨i, List.mem_append_left _ hi, hunder⟩
    · refine ⟨_, List.mem_append_right _ (List.mem_singleton_self _), _, _, .here _, hlast.1, ?_⟩
      rw [NodeTag.node_token]
      exact Option.mem_toList.1 ht
    · obtain ⟨i, hi, j, n, hij, hn, htoken⟩ := ihks hks hconforms'.1 ht
      refine ⟨_, List.mem_append_right _ (List.mem_singleton_self _), j, n, .child hlast.1 ?_ hij, hn, htoken⟩
      rw [htree.references_eq ⟨trivial, hconforms'⟩ hlast.1]
      exact hi

/-- The children of every node stand in the order of their tokens. -/
theorem pairwise_references (h : a.Bears f start offset) (hconforms : f.Conforms tags) (hordered : f.Ordered)
    (hi : start ≤ i) (hi' : i < start + f.size) (hn : a.nodes[i]? = some n) :
    (a.references n).Pairwise fun j k => ∀ t u, a.TokenUnder j t → a.TokenUnder k u → t < u := by
  obtain ⟨tag, token, ks, start', offset', -, rfl, hpart, hbears⟩ := h.exists_tree hi hi'
  rw [hbears.references_eq (hpart.conforms hconforms) hn]
  exact Bears.pairwise_roots hbears.2.1 (hpart.conforms hconforms).2.1 (hpart.ordered hordered)

/-- There is a token below every node. -/
theorem exists_tokenUnder_of_lt (h : a.Bears f start offset) (hconforms : f.Conforms tags)
    (hroot : NodeTag.root ∉ f.tags) (hi : start ≤ i) (hi' : i < start + f.size) : ∃ t, a.TokenUnder i t := by
  obtain ⟨tag, token, ks, start', offset', -, rfl, hpart, hbears⟩ := h.exists_tree hi hi'
  have htree := hpart.conforms hconforms
  have htokens : (tree tag token ks).tokens ≠ [] := by
    refine tokens_ne_nil htree (fun hmem => ?_) (by simp [tree])
    exact hpart.ne_root hconforms hroot (List.mem_singleton.1 hmem).symm
  obtain ⟨t, ht⟩ := List.exists_mem_of_ne_nil _ htokens
  obtain ⟨j, hj, hunder⟩ := hbears.exists_tokenUnder htree ht
  obtain rfl := List.mem_singleton.1 hj
  exact ⟨t, hunder⟩

/-- Nodes and ranges of a forest, one behind the other. -/
theorem flatMap_owned (h : a.Bears f start offset) : (f.nodes start offset).flatMap a.owned = f.extra start := by
  induction f generalizing start offset with
  | empty => rfl
  | grow f tag token ks ihf ihks =>
    obtain ⟨hf, hks, -, hrange⟩ := h
    rw [Forest.nodes, List.flatMap_append, List.flatMap_append, ihf hf, ihks hks, Forest.extra,
      List.flatMap_singleton, owned, NodeTag.node_tag]
    split
    · rw [(hrange ‹_›).2]
    · rfl

end Bears

/-- The ranges of a forest lie side by side. -/
theorem flatMap_span (f : Forest) (start offset : Nat) :
    (f.nodes start offset).flatMap Node.span = List.range' offset f.slots := by
  induction f generalizing start offset with
  | empty => rfl
  | grow f tag token ks ihf ihks =>
    rw [Forest.nodes, List.flatMap_append, List.flatMap_append, ihf, ihks, List.flatMap_singleton, NodeTag.span_node,
      List.range'_append_1, slots, length_roots]
    split
    · rw [Nat.add_assoc offset, List.range'_append_1]
    · rw [List.append_nil, Nat.add_zero]

/-- The nodes of a forest are its roots and those to which a node or a slot refers, each of them once. -/
theorem perm_references (f : Forest) (hconforms : f.Conforms tags) (start offset : Nat) :
    ((f.nodes start offset).flatMap Node.direct ++ f.extra start ++ f.roots start).Perm
      (List.range' start f.size) := by
  induction f generalizing start offset with
  | empty => exact .nil
  | grow f tag token ks ihf ihks =>
    obtain ⟨hf, hks, -, hadmits⟩ := hconforms
    -- The roots of the children are referred to by the new node or by its range.
    have hlast : ∀ o, (tag.node token o (ks.roots (start + f.size))).direct ++
        (if tag.hasRange then ks.roots (start + f.size) else []) = ks.roots (start + f.size) := by
      intro o
      rw [(NodeTag.node_shape _ _ hadmits (by simp)).1]
      split
      · rfl
      · exact List.append_nil _
    have hfront := ihf hf start offset
    have hbelow := ihks hks (start + f.size) (offset + f.slots)
    rw [← hlast (offset + f.slots + ks.slots)] at hbelow
    have hrange : List.range' start (grow f tag token ks).size =
        List.range' start f.size ++ List.range' (start + f.size) ks.size ++ [start + f.size + ks.size] := by
      rw [size, List.range'_append_1, List.range'_concat, Nat.one_mul, Nat.add_assoc]
    rw [hrange]
    refine List.Perm.trans ?_ ((hfront.append hbelow).append_right _)
    rw [Forest.nodes, Forest.extra, roots, List.flatMap_append, List.flatMap_append, List.flatMap_singleton,
      List.perm_iff_count]
    intro i
    simp only [List.count_append]
    omega

/-! ### A root in front of a forest -/

/-- In lists that have no member in common, each member is one of one list only. -/
theorem existsUnique_of_nodup_flatMap {α β : Type} {g : α → List β} {xs : List α} (h : (xs.flatMap g).Nodup)
    {y : β} (hy : y ∈ xs.flatMap g) : ∃! i : Nat, ∃ x, xs[i]? = some x ∧ y ∈ g x := by
  induction xs with
  | nil => cases hy
  | cons x xs ih =>
    rw [List.flatMap_cons] at h hy
    obtain ⟨-, hxs, hdisjoint⟩ := List.nodup_append.1 h
    by_cases hx : y ∈ g x
    · refine ⟨0, ⟨x, rfl, hx⟩, ?_⟩
      rintro (_ | i) ⟨x', hx', hy'⟩
      · rfl
      · exact absurd rfl (hdisjoint y hx y (List.mem_flatMap.2 ⟨x', List.mem_of_getElem? hx', hy'⟩))
    · obtain ⟨i, ⟨x', hx', hy'⟩, hunique⟩ := ih hxs ((List.mem_append.1 hy).resolve_left hx)
      refine ⟨i + 1, ⟨x', hx', hy'⟩, ?_⟩
      rintro (_ | j) ⟨x'', hx'', hy''⟩
      · obtain rfl := Option.some.inj hx''
        exact absurd hy'' hx
      · exact congrArg (· + 1) (hunique j ⟨x'', hx'', hy''⟩)

/-- The node of a root whose children are the roots of a forest. -/
def rootOf (f : Forest) : Node := NodeTag.root.node none f.slots (f.roots 1)

/-- A forest makes up an arena: its nodes stand behind the root, and its ranges in front of that of the root. -/
structure Stores (a : Arena) (f : Forest) : Prop where
  nodes : a.nodes.toList = rootOf f :: f.nodes 1 0
  extra : a.extra.toList = f.extra 1 ++ f.roots 1

theorem stores_ofLines (lines : List ParsedLine) : (Arena.ofLines lines).Stores (Grammar.forest lines) :=
  ⟨(ofLines_eq_forest lines).1, (ofLines_eq_forest lines).2⟩

namespace Stores

variable {ls : List LineBasic.Leaf}

theorem size_nodes (h : a.Stores f) : a.nodes.size = f.size + 1 := by
  rw [← Array.length_toList, h.nodes, List.length_cons, length_nodes]

theorem size_extra (h : a.Stores f) : a.extra.size = f.slots + f.count := by
  rw [← Array.length_toList, h.extra, List.length_append, length_extra, length_roots]

theorem bears (h : a.Stores f) : a.Bears f 1 0 := by
  apply bears_of_prefix
  · rw [h.nodes]
    exact List.prefix_refl _
  · rw [h.extra]
    exact List.prefix_append _ _
  · rw [h.size_extra]
    omega

theorem getElem?_zero (h : a.Stores f) : a.nodes[0]? = some (rootOf f) := by
  rw [← Array.getElem?_toList, h.nodes]
  rfl

theorem references_rootOf (h : a.Stores f) : a.references (rootOf f) = f.roots 1 := by
  show a.children (rootOf f) = f.roots 1
  rw [rootOf, children_node rfl, h.extra, ← length_extra f 1, List.drop_left, List.take_length]

theorem lt_of_getElem? (h : a.Stores f) (hn : a.nodes[i]? = some n) : i < 1 + f.size := by
  obtain ⟨hi, -⟩ := Array.getElem?_eq_some_iff.1 hn
  rw [h.size_nodes] at hi
  omega

/-- A node is the root or stands in the forest. -/
theorem eq_rootOf_or_pos (h : a.Stores f) (hn : a.nodes[i]? = some n) : n = rootOf f ∨ 0 < i := by
  rcases Nat.eq_zero_or_pos i with rfl | hi
  · exact .inl (Option.some.inj (hn.symm.trans h.getElem?_zero))
  · exact .inr hi

theorem regular (h : a.Stores f) (hconforms : f.Conforms tags) (hlines : ∀ k ∈ f.tags, k.isLine)
    (hn : a.nodes[i]? = some n) : a.Regular tags n := by
  rcases h.eq_rootOf_or_pos hn with rfl | hi
  · refine ⟨rfl, rfl, rfl, fun _ => bounded_node rfl ?_, f.tags, ?_, hlines⟩
    · exact Nat.le_of_eq (by rw [length_roots, h.size_extra])
    · rw [h.references_rootOf]
      exact h.bears.forall₂_roots
  · exact h.bears.regular hconforms hi (h.lt_of_getElem? hn) hn

theorem sorted (h : a.Stores f) (hconforms : f.Conforms tags) (hordered : f.Ordered) (hn : a.nodes[i]? = some n) :
    (a.references n).Pairwise fun j k => ∀ t u, a.TokenUnder j t → a.TokenUnder k u → t < u := by
  rcases h.eq_rootOf_or_pos hn with rfl | hi
  · rw [h.references_rootOf]
    exact h.bears.pairwise_roots hconforms hordered
  · exact h.bears.pairwise_references hconforms hordered hi (h.lt_of_getElem? hn) hn

/-- The nodes of the forest and then the root. -/
theorem postorder (h : a.Stores f) :
    a.nodes.toList.tail ++ a.nodes.toList.take 1 = f.nodes 1 0 ++ [rootOf f] := by
  rw [h.nodes]
  rfl

theorem extra_eq_flatMap (h : a.Stores f) :
    a.extra.toList = (a.nodes.toList.tail ++ a.nodes.toList.take 1).flatMap a.owned := by
  rw [h.postorder, List.flatMap_append, h.bears.flatMap_owned, List.flatMap_singleton, h.extra]
  exact congrArg _ h.references_rootOf.symm

theorem flatMap_span (h : a.Stores f) :
    (a.nodes.toList.tail ++ a.nodes.toList.take 1).flatMap Node.span = List.range a.extra.size := by
  rw [h.postorder, List.flatMap_append, Arena.flatMap_span, List.flatMap_singleton, rootOf, NodeTag.span_node,
    if_pos (show NodeTag.root.hasRange by rfl), length_roots, List.range_eq_range', h.size_extra,
    ← List.range'_append_1, Nat.zero_add]

/-- Each slot belongs to the range of one node. -/
theorem existsUnique_span (h : a.Stores f) {k : Nat} (hk : k < a.extra.size) :
    ∃! i : NodeId, ∃ n, a.nodes[i]? = some n ∧ k ∈ n.span := by
  -- The order of the nodes does not matter for what their ranges have in common.
  have hperm : (a.nodes.toList.flatMap Node.span).Perm (List.range a.extra.size) := by
    rw [← h.flatMap_span, h.postorder, h.nodes]
    exact List.Perm.flatMap_right _ (List.perm_append_singleton (rootOf f) _).symm
  have hunique := existsUnique_of_nodup_flatMap (hperm.nodup_iff.2 List.nodup_range)
    (hperm.mem_iff.2 (List.mem_range.2 hk))
  simpa only [Array.getElem?_toList] using hunique

theorem perm_references (h : a.Stores f) (hconforms : f.Conforms tags) :
    (a.nodes.toList.flatMap Node.direct ++ a.extra.toList).Perm (List.range' 1 (a.nodes.size - 1)) := by
  have hdirect : (rootOf f).direct = [] := rfl
  rw [h.nodes, h.extra, List.flatMap_cons, hdirect, List.nil_append, h.size_nodes, Nat.add_sub_cancel,
    ← List.append_assoc]
  exact Arena.perm_references f hconforms 1 0

/-- The arena that a regular forest of lines makes up is in order. -/
theorem orderly (h : a.Stores f) (hf : f.Spans tags ls) (hlines : ∀ k ∈ f.tags, k.isLine) : a.Orderly tags := by
  have hnotRoot : NodeTag.root ∉ f.tags := fun hmem => by cases hlines _ hmem
  constructor
  case root => exact ⟨_, h.getElem?_zero, NodeTag.node_tag ..⟩
  case regular => exact fun i n hn => h.regular hf.conforms hlines hn
  case extra => exact h.extra_eq_flatMap
  case spans => exact h.flatMap_span
  case partition => exact fun k hk => h.existsUnique_span hk
  case nonempty =>
    exact fun i n hi hn hrange => h.bears.children_ne_nil hf.conforms hnotRoot hi (h.lt_of_getElem? hn) hn hrange
  case once => exact h.perm_references hf.conforms
  case descends =>
    exact fun i n hi hn j hj => h.bears.references_bounds hf.conforms hi (h.lt_of_getElem? hn) hn hj
  case sorted => exact fun i n hn => h.sorted hf.conforms hf.ordered hn
  case inhabited =>
    intro i hi hi'
    rw [h.size_nodes, Nat.add_comm] at hi'
    exact h.bears.exists_tokenUnder_of_lt hf.conforms hnotRoot hi hi'

end Stores

end Arena

/-- The arena of a program that parses: the nodes of the trees of its lines in postorder behind the root, and their
ranges in front of that of the root. The lines are those that the tags spell, and all is in order. -/
theorem Grammar.parse_layout {tags : List Tag} {lines : List ParsedLine} (h : Grammar.parse tags = .ok lines) :
    (∃ front rest, tags = front ++ .eof :: rest ∧ Grammar.Derives front lines) ∧
      (Arena.ofLines lines).nodes.toList = Arena.rootOf (Grammar.forest lines) :: (Grammar.forest lines).nodes 1 0 ∧
      (Arena.ofLines lines).extra.toList =
        (Grammar.forest lines).extra 1 ++ (Grammar.forest lines).roots 1 ∧
      (Arena.ofLines lines).Orderly tags := by
  obtain ⟨front, rest, rfl, -, hlines⟩ := parse_eq_ok_iff.1 h
  have hstores := Arena.stores_ofLines lines
  refine ⟨⟨front, rest, rfl, hlines⟩, hstores.nodes, hstores.extra, ?_⟩
  exact hstores.orderly (hlines.1.spans (leavesIn_leavesOf front _)) (forall_tags_ofList Line.tags_eq lines)

theorem Grammar.parse_layout_sum : ∃ lines,
    Grammar.parse [.keyword .print, .var, .sign .plus, .number, .eof] = .ok lines ∧
      (Arena.ofLines lines).Orderly [.keyword .print, .var, .sign .plus, .number, .eof] := by
  have hparse : Grammar.parse [.keyword .print, .var, .sign .plus, .number, .eof] =
      .ok [⟨none, .print 0 (.value (.add (.signed .plus (.factor (.var 1))) .plus (.factor (.number 3)))) []⟩] := by
    rfl
  exact ⟨_, hparse, (Grammar.parse_layout hparse).2.2.2⟩

end LineBasic
