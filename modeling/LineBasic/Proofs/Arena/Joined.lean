import LineBasic.Proofs.Arena.Regular
import LineBasic.Proofs.Grammar.Translation

/-!
# Arenas of joined programs

When the lines of one program are put in front of another one, the arena of the whole is made of the two arenas. Behind
the root stand the nodes of the first program and then those of the second one. The list of children holds the ranges
inside of the lines of the first and of the second program, and then the lines of the first and of the second one. What
comes second is moved: its tokens by the number of tags in front, its references to nodes by the number of nodes in
front, and its bounds of ranges by the number of children in front.

## Main definitions

* `Forest.moved`: the forest of a part of a program that stands further on.
* `Node.moved`: a node behind other ones.
* `Arena.Splits`: the nodes, the children inside of lines and the lines of an arena.

## Main results

* `Forest.nodes_moved`, `Forest.extra_moved`: the nodes and ranges of a forest that stands further on.
* `Grammar.parse_append`: the arena and the errors of lines in front of a text.
-/

namespace LineBasic

/-- The node with its token, its references to nodes and its bounds of a range each increased by a number. -/
def Node.moved (tokens nodes slots : Nat) (n : Node) : Node :=
  let references := if n.tag.hasRange then slots else nodes
  ⟨n.tag, n.token.map (· + tokens), n.lhs.map (· + references), n.rhs.map (· + references)⟩

/-- The root owns the last range of the arena, that of the lines. In front of it are the ranges inside of lines. -/
structure Arena.Splits (a : Arena) (nodes : List Node) (inner lines : List NodeId) : Prop where
  nodes : a.nodes.toList = ⟨.root, none, some inner.length, some (inner.length + lines.length)⟩ :: nodes
  extra : a.extra.toList = inner ++ lines

variable {d : Nat}

theorem NodeTag.node_moved (tag : NodeTag) (token : Option TokenId) (start n s : Nat) (children : List NodeId) :
    tag.node (token.map (· + d)) (start + s) (children.map (· + n)) =
      (tag.node token start children).moved d n s := by
  by_cases hrange : tag.hasRange
  · simp only [node, Node.moved, hrange, if_true, List.length_map, Option.map_some, Nat.add_right_comm]
  · by_cases hassign : tag = .assign
    · subst hassign
      simp [node, Node.moved, hasRange]
    · simp [node, Node.moved, hrange, hassign]

namespace Forest

/-- The forest whose tokens stand a number of positions further on. -/
def moved (d : Nat) : Forest → Forest
  | empty => empty
  | grow f tag token ks => grow (f.moved d) tag (token.map (· + d)) (ks.moved d)

variable (f g : Forest) (start offset n s : Nat)

@[simp] theorem size_moved : (f.moved d).size = f.size := by
  induction f with
  | empty => rfl
  | grow f tag token ks ihf ihks => rw [moved, size, size, ihf, ihks]

@[simp] theorem count_moved : (f.moved d).count = f.count := by
  induction f with
  | empty => rfl
  | grow f tag token ks ihf _ => rw [moved, count, count, ihf]

@[simp] theorem slots_moved : (f.moved d).slots = f.slots := by
  induction f with
  | empty => rfl
  | grow f tag token ks ihf ihks => rw [moved, slots, slots, ihf, ihks, count_moved]

theorem roots_moved : (f.moved d).roots (start + n) = (f.roots start).map (· + n) := by
  induction f with
  | empty => rfl
  | grow f tag token ks ihf _ =>
    rw [moved, roots, roots, ihf, size_moved, size_moved, List.map_append, List.map_singleton]
    simp only [Nat.add_right_comm]

theorem extra_moved : (f.moved d).extra (start + n) = (f.extra start).map (· + n) := by
  induction f generalizing start with
  | empty => rfl
  | grow f tag token ks ihf ihks =>
    rw [moved, extra, extra, ihf, size_moved, Nat.add_right_comm, ihks, roots_moved, List.map_append, List.map_append]
    split <;> rfl

/-- The nodes behind others are those that come first, moved one by one. -/
theorem nodes_moved : (f.moved d).nodes (start + n) (offset + s) = (f.nodes start offset).map (Node.moved d n s) := by
  induction f generalizing start offset with
  | empty => rfl
  | grow f tag token ks ihf ihks =>
    have hoffset : offset + s + f.slots + ks.slots = offset + f.slots + ks.slots + s := by omega
    rw [moved, nodes, nodes, ihf, size_moved, slots_moved, slots_moved, hoffset, Nat.add_right_comm start,
      Nat.add_right_comm offset, ihks, roots_moved, NodeTag.node_moved, List.map_append, List.map_append,
      List.map_singleton]

theorem moved_append : (f ++ g).moved d = f.moved d ++ g.moved d := by
  induction g with
  | empty => rfl
  | grow g tag token ks ih _ => rw [append_grow, moved, moved, ih, append_grow]

theorem moved_tree (tag : NodeTag) (token : Option TokenId) (ks : Forest) :
    (tree tag token ks).moved d = tree tag (token.map (· + d)) (ks.moved d) := rfl

theorem moved_ofList {α : Type} (forest : α → Forest) {move : α → α} (h : ∀ x, forest (move x) = (forest x).moved d)
    (xs : List α) : ofList forest (xs.map move) = (ofList forest xs).moved d := by
  induction xs with
  | nil => rfl
  | cons x xs ih => rw [List.map_cons, ofList, ofList, h, ih, moved_append]

end Forest

/-! ### The forest of a part of a program that stands further on -/

open Forest

theorem Expr.forest_moved {l : Level} (e : ParsedExpr l) : (e.moved d).forest = e.forest.moved d := by
  induction e with
  | var v | number n => rfl
  | group e ih => rw [moved, forest, forest, ih]; rfl
  | abs mark e ih | rnd mark e ih => rw [moved, forest, forest, ih]; rfl
  | mod mark e₁ e₂ ih₁ ih₂ => rw [moved, forest, forest, ih₁, ih₂]; rfl
  | factor a ih => rw [moved, forest, forest, ih]; rfl
  | scale p o a ihp iha => rw [moved, forest, forest, ihp, iha]; rfl
  | signed s p ih => rw [moved, forest, forest, ih]; rfl
  | add e s p ihe ihp => rw [moved, forest, forest, ihe, ihp]; rfl

theorem Expr.wholeForest_moved (e : ParsedExpr .sum) : (e.moved d).wholeForest = e.wholeForest.moved d := by
  rw [wholeForest, forest_moved]
  rfl

theorem Item.forest_moved (item : ParsedItem) : (item.moved d).forest = item.forest.moved d := by
  cases item with
  | text s => rfl
  | value e => exact e.wholeForest_moved

theorem Stmt.forest_moved (s : ParsedStmt) : (s.moved d).forest = s.forest.moved d := by
  induction s with
  | print mark item more =>
    rw [moved, forest, ← List.map_cons, moved_ofList Item.forest Item.forest_moved]
    rfl
  | input mark v more =>
    exact congrArg (tree .input (some (mark + d)))
      (moved_ofList (fun v => tree .var (some v) empty) (fun _ => rfl) (v :: more))
  | assign v e => rw [moved, forest, Expr.wholeForest_moved]; rfl
  | branch mark e₁ r relation e₂ body ih =>
    rw [forest, moved_tree, moved_append, moved_tree, moved_append, ← Expr.wholeForest_moved, ← Expr.wholeForest_moved,
      ← ih]
    rfl
  | goto mark e | gosub mark e => rw [moved, forest, Expr.wholeForest_moved]; rfl
  | action mark a => rfl

theorem Line.forest_moved (line : ParsedLine) : (line.moved d).forest = line.forest.moved d := by
  obtain ⟨number, body⟩ := line
  cases number with
  | none => rw [moved, forest, forest]; exact congrArg (tree .nakedLine none) body.forest_moved
  | some n => rw [moved, forest, forest]; exact congrArg (tree .markedLine (some (n + d))) body.forest_moved

theorem Grammar.forest_moved (lines : List ParsedLine) :
    Grammar.forest (lines.map (Line.moved d)) = (Grammar.forest lines).moved d :=
  moved_ofList Line.forest Line.forest_moved lines

/-! ### Joined programs -/

theorem Arena.splits_ofLines (lines : List ParsedLine) :
    (Arena.ofLines lines).Splits ((Grammar.forest lines).nodes 1 0) ((Grammar.forest lines).extra 1)
      ((Grammar.forest lines).roots 1) := by
  obtain ⟨hnodes, hextra⟩ := Arena.ofLines_eq_forest lines
  refine ⟨?_, hextra⟩
  rw [hnodes, length_extra]
  rfl

/-- The arena of two lists of lines is made of the arenas of the two. -/
theorem Arena.splits_append (lines lines' : List ParsedLine) :
    let f := Grammar.forest lines
    let g := Grammar.forest lines'
    (Arena.ofLines (lines ++ lines'.map (Line.moved d))).Splits
      (f.nodes 1 0 ++ (g.nodes 1 0).map (Node.moved d f.size f.slots))
      (f.extra 1 ++ (g.extra 1).map (· + f.size)) (f.roots 1 ++ (g.roots 1).map (· + f.size)) := by
  have hforest : Grammar.forest (lines ++ lines'.map (Line.moved d)) =
      Grammar.forest lines ++ (Grammar.forest lines').moved d := by
    rw [← Grammar.forest_moved]
    exact ofList_append Line.forest lines _
  have hsplits := splits_ofLines (lines ++ lines'.map (Line.moved d))
  rwa [hforest, nodes_append, extra_append, roots_append, nodes_moved, extra_moved, roots_moved] at hsplits

namespace Grammar

/-- Parsing is compositional over lines. In front of a text that parses, lines put their nodes, ranges and lines in
front of those of the text, which are moved. In front of a text that does not, they leave the error as it is, but for
the position of its token. -/
theorem parse_append {front : List Tag} {lines : List ParsedLine} (hend : EndsLine front) (heof : .eof ∉ front)
    (h : parse (front ++ [.eof]) = .ok lines) : ∃ nodes inner roots,
    (Arena.ofLines lines).Splits nodes inner roots ∧ ∀ tags,
      (∀ more, parse tags = .ok more → ∃ nodes' inner' roots' all, (Arena.ofLines more).Splits nodes' inner' roots' ∧
        parse (front ++ tags) = .ok all ∧
        (Arena.ofLines all).Splits (nodes ++ nodes'.map (Node.moved front.length nodes.length inner.length))
          (inner ++ inner'.map (· + nodes.length)) (roots ++ roots'.map (· + nodes.length))) ∧
      ∀ k i, parse tags = .error (.wrong ⟨k, i⟩) →
        parse (front ++ tags) = .error (.wrong ⟨k, i + front.length⟩) := by
  refine ⟨_, _, _, Arena.splits_ofLines lines, fun tags => ⟨fun more hmore => ?_, fun k i hwrong => ?_⟩⟩
  · refine ⟨_, _, _, _, Arena.splits_ofLines more, parse_append_of_ok hend heof h hmore, ?_⟩
    rw [length_nodes, length_extra]
    exact Arena.splits_append lines more
  · exact parse_append_of_wrong hend heof h hwrong

/-- A line in front of one that parses, and in front of one that ends behind its first token. -/
theorem parse_append_print :
    EndsLine [Tag.keyword .print, .var, .eol] ∧ Tag.eof ∉ [Tag.keyword .print, .var, .eol] ∧ ∃ lines nodes inner roots,
      parse [Tag.keyword .print, .var, .eol, .eof] = .ok lines ∧ (Arena.ofLines lines).Splits nodes inner roots ∧
      (∃ nodes' inner' roots' more all, parse [Tag.number, .keyword .goto, .var, .eof] = .ok more ∧
        (Arena.ofLines more).Splits nodes' inner' roots' ∧
        parse [Tag.keyword .print, .var, .eol, .number, .keyword .goto, .var, .eof] = .ok all ∧
        (Arena.ofLines all).Splits (nodes ++ nodes'.map (Node.moved 3 nodes.length inner.length))
          (inner ++ inner'.map (· + nodes.length)) (roots ++ roots'.map (· + nodes.length))) ∧
      parse [Tag.keyword .goto, .eof] = .error (.wrong ⟨.expectExpression, 1⟩) ∧
      parse [Tag.keyword .print, .var, .eol, .keyword .goto, .eof] = .error (.wrong ⟨.expectExpression, 4⟩) := by
  have hend : EndsLine [Tag.keyword .print, .var, .eol] := .inr rfl
  have heof : Tag.eof ∉ [Tag.keyword .print, .var, .eol] := by decide
  have hlines : parse ([Tag.keyword .print, .var, .eol] ++ [.eof]) =
      .ok [⟨none, .print 0 (.value (.signed .plus (.factor (.var 1)))) []⟩] := rfl
  have hmore : parse [Tag.number, .keyword .goto, .var, .eof] =
      .ok [⟨some 0, .goto 1 (.signed .plus (.factor (.var 2)))⟩] := rfl
  have hwrong : parse [Tag.keyword .goto, .eof] = .error (.wrong ⟨.expectExpression, 1⟩) := rfl
  obtain ⟨nodes, inner, roots, hsplits, htags⟩ := parse_append hend heof hlines
  obtain ⟨nodes', inner', roots', all, hsplits', hall, hjoined⟩ := (htags _).1 _ hmore
  exact ⟨hend, heof, _, nodes, inner, roots, hlines, hsplits,
    ⟨nodes', inner', roots', _, all, hmore, hsplits', hall, hjoined⟩, hwrong, (htags _).2 _ _ hwrong⟩

end Grammar

end LineBasic
