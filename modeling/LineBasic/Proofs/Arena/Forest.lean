import LineBasic.Proofs.Arena.Layout

/-!
# Forests of nodes

What a program becomes in its arena is a forest with a tree for each line. Its nodes are numbered in postorder, and
with the numbers of the children of each node they are what the arena holds.

## Main definitions

* `Forest`: lists of trees whose nodes have a tag and a token.
* `Forest.nodes`, `Forest.extra`, `Forest.roots`: the nodes in postorder, the ranges of children that they own, and
  the positions of the roots.
* `Expr.forest`, `Item.forest`, `Stmt.forest`, `Line.forest`: the forests of the parts of a tree.
* `Arena.grown`: an arena with the nodes and ranges of a forest behind its own.

## Main results

* `Expr.lays_layout`, `Stmt.lays_layout`, `Line.lays_layout`: laying out a part of a tree adds its forest.
* `Arena.ofLines_eq_forest`: the arena of a program.
-/

namespace LineBasic

/-- A list of trees. It is empty, or there is a last tree, which has a node and the list of its children. -/
inductive Forest where
  | empty
  | grow (front : Forest) (tag : NodeTag) (token : Option TokenId) (children : Forest)
  deriving DecidableEq, Repr

/-- A node with a tag, a token and children. If it has a range, the range begins at `start`. Otherwise the children
are its references; the value of an assignment is the right one. -/
def NodeTag.node (tag : NodeTag) (token : Option TokenId) (start : Nat) (children : List NodeId) : Node :=
  if tag.hasRange then ⟨tag, token, some start, some (start + children.length)⟩
  else if tag = .assign then ⟨tag, token, none, children[0]?⟩
  else ⟨tag, token, children[0]?, children[1]?⟩

@[simp] theorem NodeTag.node_tag (tag : NodeTag) (token : Option TokenId) (start : Nat) (ks : List NodeId) :
    (tag.node token start ks).tag = tag := by
  rw [node]
  split
  · rfl
  · split <;> rfl

@[simp] theorem NodeTag.node_token (tag : NodeTag) (token : Option TokenId) (start : Nat) (ks : List NodeId) :
    (tag.node token start ks).token = token := by
  rw [node]
  split
  · rfl
  · split <;> rfl

namespace Forest

/-- A single tree. -/
def tree (tag : NodeTag) (token : Option TokenId) (children : Forest) : Forest := grow empty tag token children

/-- The trees of one list in front of those of another. -/
def append (f : Forest) : Forest → Forest
  | empty => f
  | grow g tag token ks => grow (f.append g) tag token ks

instance : Append Forest := ⟨append⟩

/-- The number of nodes. -/
def size : Forest → Nat
  | empty => 0
  | grow f _ _ ks => f.size + ks.size + 1

/-- The number of trees. -/
def count : Forest → Nat
  | empty => 0
  | grow f _ _ _ => f.count + 1

/-- The number of nodes that stand in a range. -/
def slots : Forest → Nat
  | empty => 0
  | grow f tag _ ks => f.slots + ks.slots + if tag.hasRange then ks.count else 0

/-- The tags of the roots. -/
def tags : Forest → List NodeTag
  | empty => []
  | grow f tag _ _ => f.tags ++ [tag]

/-- All tokens. -/
def tokens : Forest → List TokenId
  | empty => []
  | grow f _ token ks => f.tokens ++ (token.toList ++ ks.tokens)

/-- The positions of the roots if the first node stands at `start`. A root comes behind all else in its tree. -/
def roots (start : Nat) : Forest → List NodeId
  | empty => []
  | grow f _ _ ks => f.roots start ++ [start + f.size + ks.size]

/-- The ranges of children, in the order of the nodes that own them. -/
def extra (start : Nat) : Forest → List NodeId
  | empty => []
  | grow f tag _ ks =>
    f.extra start ++ ks.extra (start + f.size) ++ if tag.hasRange then ks.roots (start + f.size) else []

/-- The nodes in postorder if the first one stands at `start` and the first range begins at `offset`. -/
def nodes (start offset : Nat) : Forest → List Node
  | empty => []
  | grow f tag token ks =>
    f.nodes start offset ++ ks.nodes (start + f.size) (offset + f.slots) ++
      [tag.node token (offset + f.slots + ks.slots) (ks.roots (start + f.size))]

variable (f g : Forest) (start offset : Nat) (tag : NodeTag) (token : Option TokenId)

@[simp] theorem length_roots : (f.roots start).length = f.count := by
  induction f with
  | empty => rfl
  | grow f tag token ks ih _ => rw [roots, List.length_append, ih]; rfl

@[simp] theorem length_tags : f.tags.length = f.count := by
  induction f with
  | empty => rfl
  | grow f tag token ks ih _ => rw [tags, List.length_append, ih]; rfl

@[simp] theorem length_nodes : (f.nodes start offset).length = f.size := by
  induction f generalizing start offset with
  | empty => rfl
  | grow f tag token ks ihf ihks =>
    rw [nodes, List.length_append, List.length_append, ihf, ihks]
    rfl

@[simp] theorem length_extra : (f.extra start).length = f.slots := by
  induction f generalizing start with
  | empty => rfl
  | grow f tag token ks ihf ihks =>
    rw [extra, List.length_append, List.length_append, ihf, ihks, slots]
    split
    · rw [length_roots]
    · rfl

@[simp] theorem append_empty : f ++ empty = f := rfl

@[simp] theorem append_grow (ks : Forest) : f ++ grow g tag token ks = grow (f ++ g) tag token ks := rfl

@[simp] theorem empty_append : empty ++ f = f := by
  induction f with
  | empty => rfl
  | grow f tag token ks ih _ => rw [append_grow, ih]

theorem append_assoc (h : Forest) : f ++ g ++ h = f ++ (g ++ h) := by
  induction h with
  | empty => rfl
  | grow h tag token ks ih _ => rw [append_grow, append_grow, append_grow, ih]

@[simp] theorem size_append : (f ++ g).size = f.size + g.size := by
  induction g with
  | empty => rfl
  | grow g tag token ks ih _ =>
    rw [append_grow, size, size, ih]
    omega

@[simp] theorem slots_append : (f ++ g).slots = f.slots + g.slots := by
  induction g with
  | empty => rfl
  | grow g tag token ks ih _ =>
    rw [append_grow, slots, slots, ih]
    omega

theorem tags_append : (f ++ g).tags = f.tags ++ g.tags := by
  induction g with
  | empty => exact (List.append_nil _).symm
  | grow g tag token ks ih _ => rw [append_grow, tags, tags, ih, List.append_assoc]

theorem tokens_append : (f ++ g).tokens = f.tokens ++ g.tokens := by
  induction g with
  | empty => exact (List.append_nil _).symm
  | grow g tag token ks ih _ => rw [append_grow, tokens, tokens, ih, List.append_assoc]

theorem roots_append : (f ++ g).roots start = f.roots start ++ g.roots (start + f.size) := by
  induction g with
  | empty => exact (List.append_nil _).symm
  | grow g tag token ks ih _ =>
    rw [append_grow, roots, roots, ih, size_append, List.append_assoc, ← Nat.add_assoc start]

theorem extra_append : (f ++ g).extra start = f.extra start ++ g.extra (start + f.size) := by
  induction g with
  | empty => exact (List.append_nil _).symm
  | grow g tag token ks ih _ =>
    rw [append_grow, extra, extra, ih, size_append, Nat.add_assoc start]
    simp only [List.append_assoc]

theorem nodes_append : (f ++ g).nodes start offset =
    f.nodes start offset ++ g.nodes (start + f.size) (offset + f.slots) := by
  induction g with
  | empty => exact (List.append_nil _).symm
  | grow g tag token ks ih _ =>
    rw [append_grow, nodes, nodes, ih, size_append, slots_append, Nat.add_assoc start, ← Nat.add_assoc offset]
    simp only [List.append_assoc]

end Forest

open Forest

/-! ### The forest of a program -/

/-- The forest of an expression: the tree of an operand, the trees of the factors of a product, or those of the
terms of a sum. -/
def Expr.forest : {l : Level} → ParsedExpr l → Forest
  | _, .var v => tree .var (some v) empty
  | _, .number n => tree .number (some n) empty
  | _, .group e => tree .expression none e.forest
  | _, .abs mark e => tree .call (some mark) (tree .expression none e.forest)
  | _, .rnd mark e => tree .call (some mark) (tree .expression none e.forest)
  | _, .mod mark e₁ e₂ =>
    tree .call (some mark) (tree .expression none e₁.forest ++ tree .expression none e₂.forest)
  | _, .factor a => tree (.factor .times) none a.forest
  | _, .scale p o a => p.forest ++ tree (.factor o) none a.forest
  | _, .signed s p => tree (.term s) none p.forest
  | _, .add e s p => e.forest ++ tree (.term s) none p.forest

/-- The tree of an expression that stands in a statement. -/
def Expr.wholeForest (e : ParsedExpr .sum) : Forest := tree .expression none e.forest

/-- The tree of an item of PRINT. -/
def Item.forest : ParsedItem → Forest
  | .text s => tree .string (some s) empty
  | .value e => e.wholeForest

/-- The trees of the members of a list. -/
def Forest.ofList {α : Type} (forest : α → Forest) : List α → Forest
  | [] => empty
  | x :: xs => forest x ++ ofList forest xs

/-- The tree of a statement. -/
def Stmt.forest : ParsedStmt → Forest
  | .print mark item more => tree .print (some mark) (ofList Item.forest (item :: more))
  | .input mark v more => tree .input (some mark) (ofList (fun v => tree .var (some v) empty) (v :: more))
  | .assign v e => tree .assign (some v) e.wholeForest
  | .branch mark e₁ _ relation e₂ body =>
    tree .branch (some mark) (tree .predicate (some relation) (e₁.wholeForest ++ e₂.wholeForest) ++ body.forest)
  | .goto mark e => tree .goto (some mark) e.wholeForest
  | .gosub mark e => tree .gosub (some mark) e.wholeForest
  | .action mark a => tree (.action a) (some mark) empty

/-- The tree of a line. -/
def Line.forest (line : ParsedLine) : Forest :=
  match line.number with
  | some n => tree .markedLine (some n) line.body.forest
  | none => tree .nakedLine none line.body.forest

/-- The trees of the lines of a program. -/
def Grammar.forest (lines : List ParsedLine) : Forest := ofList Line.forest lines

/-! ### Laying out adds the forest -/

namespace Arena

/-- The nodes and the ranges of a forest behind those of an arena. -/
def grown (a : Arena) (f : Forest) : Arena :=
  ⟨a.nodes ++ f.nodes a.nodes.size a.extra.size, a.extra ++ f.extra a.nodes.size⟩

variable (a : Arena) (f g : Forest)

theorem ext_toList {a b : Arena} (hnodes : a.nodes.toList = b.nodes.toList)
    (hextra : a.extra.toList = b.extra.toList) : a = b := by
  obtain ⟨⟨nodes⟩, ⟨extra⟩⟩ := a
  obtain ⟨⟨nodes'⟩, ⟨extra'⟩⟩ := b
  cases hnodes
  cases hextra
  rfl

@[simp] theorem toList_nodes_grown : (a.grown f).nodes.toList = a.nodes.toList ++ f.nodes a.nodes.size a.extra.size :=
  Array.toList_appendList

@[simp] theorem toList_extra_grown : (a.grown f).extra.toList = a.extra.toList ++ f.extra a.nodes.size :=
  Array.toList_appendList

@[simp] theorem size_nodes_grown : (a.grown f).nodes.size = a.nodes.size + f.size := by
  rw [grown, size_append_list, length_nodes]

@[simp] theorem size_extra_grown : (a.grown f).extra.size = a.extra.size + f.slots := by
  rw [grown, size_append_list, length_extra]

@[simp] theorem grown_empty : a.grown empty = a :=
  ext_toList (by simp [Forest.nodes]) (by simp [Forest.extra])

theorem grown_grown : (a.grown f).grown g = a.grown (f ++ g) := by
  apply ext_toList
  · simp [nodes_append]
  · simp [extra_append]

end Arena

namespace Layout

variable {α : Type} {x : Layout α} {f : Forest} {tag : NodeTag} {token : Option TokenId}

/-- The layout adds the trees of a forest and gives their roots. -/
def LaysAll (x : Layout (List NodeId)) (f : Forest) : Prop := ∀ a, x a = (f.roots a.nodes.size, a.grown f)

/-- The layout adds a tree and gives its root. -/
def Lays (x : Layout NodeId) (f : Forest) : Prop := ∀ a, ∃ i, x a = (i, a.grown f) ∧ f.roots a.nodes.size = [i]

/-- A node behind the trees of its children makes a tree of them. -/
theorem node_grown (a : Arena) {lhs rhs : Option NodeId} (hrange : tag.hasRange = false)
    (hnode : tag.node token (a.extra.size + f.slots) (f.roots a.nodes.size) = ⟨tag, token, lhs, rhs⟩) :
    node tag token lhs rhs (a.grown f) = (a.nodes.size + f.size, a.grown (tree tag token f)) := by
  rw [node, Arena.size_nodes_grown, ← hnode]
  refine Prod.ext rfl (Arena.ext_toList ?_ ?_)
  · simp [tree, Forest.nodes, size, slots]
  · simp [tree, Forest.extra, size, hrange]

/-- A node with its range behind the trees of its children makes a tree of them. -/
theorem parent_grown (a : Arena) (hrange : tag.hasRange) :
    parent tag token (f.roots a.nodes.size) (a.grown f) = (a.nodes.size + f.size, a.grown (tree tag token f)) := by
  have hparent : parent tag token (f.roots a.nodes.size) (a.grown f) = ((a.grown f).nodes.size,
      ⟨(a.grown f).nodes.push ⟨tag, token, some (a.grown f).extra.size,
        some ((a.grown f).extra ++ f.roots a.nodes.size).size⟩, (a.grown f).extra ++ f.roots a.nodes.size⟩) := rfl
  rw [hparent, size_append_list, Arena.size_extra_grown, Arena.size_nodes_grown]
  refine Prod.ext rfl (Arena.ext_toList ?_ ?_)
  · simp [tree, Forest.nodes, size, slots, NodeTag.node, hrange]
  · simp [tree, Forest.extra, size, hrange]

theorem roots_tree (start : Nat) : (tree tag token f).roots start = [start + f.size] := rfl

theorem LaysAll.parent {x : Layout (List NodeId)} (h : LaysAll x f) (hrange : tag.hasRange) :
    Lays (x >>= Layout.parent tag token) (tree tag token f) := by
  intro a
  refine ⟨_, ?_, roots_tree _⟩
  show Layout.parent tag token (x a).1 (x a).2 = _
  rw [h a]
  exact parent_grown a hrange

theorem Lays.single {x : Layout NodeId} (h : Lays x f) : LaysAll (x >>= fun i => pure [i]) f := by
  intro a
  obtain ⟨i, hx, hroots⟩ := h a
  show (do return [(x a).1] : Layout (List NodeId)) (x a).2 = _
  rw [hx, hroots]
  rfl

theorem LaysAll.concat {x : Layout (List NodeId)} {y : Layout NodeId} {g : Forest} (hx : LaysAll x f)
    (hy : Lays y g) : LaysAll (x >>= fun is => y >>= fun i => pure (is ++ [i])) (f ++ g) := by
  intro a
  obtain ⟨i, hy, hroots⟩ := hy (a.grown f)
  show (fun r : NodeId × Arena => ((x a).1 ++ [r.1], r.2)) (y (x a).2) = _
  rw [hx a, hy, roots_append, Arena.grown_grown]
  rw [Arena.size_nodes_grown] at hroots
  rw [hroots]

theorem Lays.cons {x : Layout NodeId} {y : Layout (List NodeId)} {g : Forest} (hx : Lays x f)
    (hy : LaysAll y g) : LaysAll (x >>= fun i => y >>= fun is => pure (i :: is)) (f ++ g) := by
  intro a
  obtain ⟨i, hx, hroots⟩ := hx a
  show (fun r : List NodeId × Arena => ((x a).1 :: r.1, r.2)) (y (x a).2) = _
  rw [hx, hy (a.grown f), roots_append, hroots, Arena.grown_grown, Arena.size_nodes_grown]
  rfl

theorem laysAll_mapM {β : Type} {layout : β → Layout NodeId} {forest : β → Forest}
    (h : ∀ b, Lays (layout b) (forest b)) (bs : List β) : LaysAll (bs.mapM layout) (ofList forest bs) := by
  induction bs with
  | nil =>
    intro a
    rw [ofList, Arena.grown_empty]
    rfl
  | cons b bs ih =>
    rw [List.mapM_cons]
    exact (h b).cons ih

/-- A node that was made from a token alone. -/
theorem lays_leaf (hrange : tag.hasRange = false) : Lays (node tag token none none) (tree tag token empty) := by
  intro a
  have hnode : tag.node token (a.extra.size + empty.slots) (empty.roots a.nodes.size) = ⟨tag, token, none, none⟩ := by
    simp [NodeTag.node, hrange, roots]
  have hrun := node_grown a hrange hnode
  rw [Arena.grown_empty] at hrun
  exact ⟨_, hrun, roots_tree _⟩

/-- A node that refers to another one. -/
theorem Lays.node {x : Layout NodeId} (h : Lays x f) (hrange : tag.hasRange = false) (hassign : tag ≠ .assign) :
    Lays (x >>= fun i => Layout.node tag token (some i) none) (tree tag token f) := by
  intro a
  obtain ⟨i, hx, hroots⟩ := h a
  refine ⟨_, ?_, roots_tree _⟩
  show Layout.node tag token (some (x a).1) none (x a).2 = _
  rw [hx]
  refine node_grown a hrange ?_
  rw [hroots, NodeTag.node, hrange, if_neg hassign]
  rfl

/-- An assignment has its value at the right. -/
theorem Lays.assign {x : Layout NodeId} (h : Lays x f) :
    Lays (x >>= fun i => Layout.node .assign token none (some i)) (tree .assign token f) := by
  intro a
  obtain ⟨i, hx, hroots⟩ := h a
  refine ⟨_, ?_, roots_tree _⟩
  show Layout.node .assign token none (some (x a).1) (x a).2 = _
  rw [hx]
  refine node_grown a rfl ?_
  rw [hroots]
  rfl

/-- A node with references to two others. -/
theorem Lays.pair {x y : Layout NodeId} {g : Forest} (hx : Lays x f) (hy : Lays y g)
    (hrange : tag.hasRange = false) (hassign : tag ≠ .assign) :
    Lays (x >>= fun i => y >>= fun j => Layout.node tag token (some i) (some j)) (tree tag token (f ++ g)) := by
  intro a
  obtain ⟨i, hx, hroots⟩ := hx a
  obtain ⟨j, hy, hroots'⟩ := hy (a.grown f)
  rw [Arena.size_nodes_grown] at hroots'
  refine ⟨_, ?_, roots_tree _⟩
  show (fun r : NodeId × Arena => Layout.node tag token (some (x a).1) (some r.1) r.2) (y (x a).2) = _
  rw [hx, hy, Arena.grown_grown]
  refine node_grown a hrange ?_
  rw [roots_append, hroots, hroots', NodeTag.node, hrange, if_neg hassign]
  rfl

end Layout

open Layout

/-- Laying out an operand adds its tree, and laying out a product or a sum the trees of its members. -/
theorem Expr.lays_layout {l : Level} (e : ParsedExpr l) :
    match l, e with
    | .operand, e => Lays e.layout e.forest
    | .product, e => LaysAll e.layout e.forest
    | .sum, e => LaysAll e.layout e.forest := by
  induction e with
  | var v => exact lays_leaf rfl
  | number n => exact lays_leaf rfl
  | group e ih => exact ih.parent rfl
  | abs mark e ih => exact (ih.parent rfl).single.parent rfl
  | rnd mark e ih => exact (ih.parent rfl).single.parent rfl
  | mod mark e₁ e₂ ih₁ ih₂ => exact ((ih₁.parent rfl).single.concat (ih₂.parent rfl)).parent rfl
  | factor a ih => exact (ih.node rfl (by simp)).single
  | scale p o a ihp iha => exact ihp.concat (iha.node rfl (by simp))
  | signed s p ih => exact (ih.parent rfl).single
  | add e s p ihe ihp => exact ihe.concat (ihp.parent rfl)

theorem Expr.lays_layoutWhole (e : ParsedExpr .sum) : Lays e.layoutWhole e.wholeForest :=
  LaysAll.parent (lays_layout e) rfl

theorem Item.lays_layout (item : ParsedItem) : Lays item.layout item.forest := by
  cases item with
  | text s => exact lays_leaf rfl
  | value e => exact e.lays_layoutWhole

theorem Stmt.lays_layout (s : ParsedStmt) : Lays s.layout s.forest := by
  induction s with
  | print mark item more => exact (laysAll_mapM Item.lays_layout (item :: more)).parent rfl
  | input mark v more => exact (laysAll_mapM (fun _ => lays_leaf rfl) (v :: more)).parent rfl
  | assign v e => exact e.lays_layoutWhole.assign
  | branch mark e₁ r relation e₂ body ih =>
    have hcondition : Lays _ (tree .predicate (some relation) (e₁.wholeForest ++ e₂.wholeForest)) :=
      e₁.lays_layoutWhole.pair e₂.lays_layoutWhole rfl (by simp)
    exact hcondition.pair ih rfl (by simp)
  | goto mark e => exact e.lays_layoutWhole.node rfl (by simp)
  | gosub mark e => exact e.lays_layoutWhole.node rfl (by simp)
  | action mark a => exact lays_leaf rfl

theorem Line.lays_layout (line : ParsedLine) : Lays line.layout line.forest := by
  obtain ⟨number, body⟩ := line
  cases number with
  | none => exact body.lays_layout.node rfl (by simp)
  | some n => exact body.lays_layout.node rfl (by simp)

/-- The arena of a program: its root, and behind it the forest of its lines. The range of the root comes last. -/
theorem Arena.ofLines_eq_forest (lines : List ParsedLine) :
    (Arena.ofLines lines).nodes.toList =
        NodeTag.root.node none (Grammar.forest lines).slots ((Grammar.forest lines).roots 1) ::
          (Grammar.forest lines).nodes 1 0 ∧
      (Arena.ofLines lines).extra.toList =
        (Grammar.forest lines).extra 1 ++ (Grammar.forest lines).roots 1 := by
  have hlay : lines.mapM Line.layout bare = ((Grammar.forest lines).roots 1, bare.grown (Grammar.forest lines)) :=
    laysAll_mapM Line.lays_layout lines bare
  rw [ofLines_eq hlay]
  constructor
  · simp [bare, NodeTag.node, NodeTag.hasRange]
  · simp [bare]

end LineBasic
