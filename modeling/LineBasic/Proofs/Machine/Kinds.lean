import LineBasic.Proofs.Arena.Postorder
import LineBasic.Proofs.Machine.WellFormed

/-!
# Well-kinded programs

A tree that was made by hand may differ from those of the parser and still make sense: values stand where values are
wanted, statements where statements are wanted, and literals are made from literals. Such a program has an image.

## Main definitions

* `NodeTag.isValue`: the nodes that have a value.
* `Program.Kinded`, `Program.WellKinded`: the kinds of the nodes that a node refers to, and of its token.

## Main results

* `Program.DerivedFrom.wellKinded`: parsed programs are well-kinded.
* `Program.WellKinded.exists_image`: well-kinded programs have images.
-/

namespace LineBasic

/-- The nodes that have a value. -/
def NodeTag.isValue : NodeTag → Bool
  | .var | .number | .factor _ | .term _ | .expression | .predicate | .call => true
  | _ => false

namespace Arena

/-- A reference names an earlier node of some kind. -/
def Names (a : Arena) (i : NodeId) (kind : NodeTag → Bool) (reference : Option NodeId) : Prop :=
  ∃ j n, reference = some j ∧ j < i ∧ a.nodes[j]? = some n ∧ kind n.tag

/-- The range of a node lies within bounds and has earlier nodes with some property as its members. -/
def Members (a : Arena) (i : NodeId) (member : Node → Prop) (n : Node) : Prop :=
  a.Bounded n ∧ ∀ j ∈ a.children n, j < i ∧ ∃ m, a.nodes[j]? = some m ∧ member m

theorem Members.imp {a : Arena} {i : NodeId} {n : Node} {member member' : Node → Prop} (h : a.Members i member n)
    (himp : ∀ (j : NodeId) (m : Node), j ∈ a.children n → a.nodes[j]? = some m → member m → member' m) :
    a.Members i member' n := by
  refine ⟨h.1, fun j hj => ?_⟩
  obtain ⟨hlt, m, hm, hmember⟩ := h.2 j hj
  exact ⟨hlt, m, hm, himp j m hj hm hmember⟩

end Arena

namespace Program

/-- A node has a token with some property. -/
def HasToken (p : Program) (n : Node) (good : Tag → Prop) : Prop :=
  ∃ t token, n.token = some t ∧ p.tokens[t]? = some token ∧ good token.tag

/-- What a node refers to, and the token that it was made from, are of the kinds that its tag has a use for. -/
def Kinded (p : Program) (i : NodeId) (n : Node) : Prop :=
  match n.tag with
  | .root | .action _ => True
  | .nakedLine => p.arena.Names i NodeTag.isStatement n.lhs
  | .markedLine => p.arena.Names i NodeTag.isStatement n.lhs ∧ p.HasToken n (· = .number)
  | .print => p.arena.Members i (fun m => m.tag.isValue ∨ m.tag = .string) n
  | .input => p.arena.Members i (fun m => p.HasToken m (· = .var)) n
  | .assign => p.arena.Names i NodeTag.isValue n.rhs ∧ p.HasToken n (· = .var)
  | .branch => p.arena.Names i NodeTag.isValue n.lhs ∧ p.arena.Names i NodeTag.isStatement n.rhs
  | .goto | .gosub | .factor _ => p.arena.Names i NodeTag.isValue n.lhs
  | .expression | .term _ => p.arena.Members i (fun m => m.tag.isValue) n
  | .predicate =>
    p.arena.Names i NodeTag.isValue n.lhs ∧ p.arena.Names i NodeTag.isValue n.rhs ∧ p.HasToken n fun _ => True
  | .call => p.arena.Members i (fun m => m.tag.isValue) n ∧ p.HasToken n fun _ => True
  | .string => p.HasToken n (· = .string)
  | .number => p.HasToken n (· = .number)
  | .var => p.HasToken n (· = .var)

/-- The first node is a root over lines, all others are kinded, and the tokens are those of the source. -/
structure WellKinded (p : Program) : Prop where
  tokens : ∃ tokens, scan p.source = .ok tokens ∧ p.tokens = tokens.toArray
  root : ∃ n, p.arena.nodes[0]? = some n ∧ n.tag = .root ∧ p.arena.Bounded n ∧
    ∀ i ∈ p.arena.children n, ∃ m, p.arena.nodes[i]? = some m ∧ m.tag.isLine
  node : ∀ (i : NodeId) (n : Node), 0 < i → p.arena.nodes[i]? = some n → p.Kinded i n

end Program

/-! ### Parsed programs -/

namespace Arena.Regular

variable {a : Arena} {tags : List Tag} {i : NodeId} {n : Node} {kind : NodeTag → Bool}

theorem hasToken {p : Program} (h : p.arena.Regular (p.tokens.toList.map Token.tag) n) (htag : n.tag.hasToken) :
    p.HasToken n n.tag.Takes := by
  have hsuits := h.token
  rw [NodeTag.Suits, if_pos htag] at hsuits
  obtain ⟨t, u, ht, hu, htakes⟩ := hsuits
  rw [List.getElem?_map, Option.map_eq_some_iff] at hu
  obtain ⟨token, htoken, rfl⟩ := hu
  exact ⟨t, token, ht, by rwa [← Array.getElem?_toList], htakes⟩

theorem members (kind : NodeTag → Bool) (h : a.Regular tags n) (hearlier : ∀ j ∈ a.references n, j < i)
    (hrange : n.tag.hasRange)
    (hkinds : ∀ kinds, n.tag.Admits tags n.token kinds → ∀ k ∈ kinds, kind k) :
    a.Members i (fun m => kind m.tag) n := by
  obtain ⟨kinds, hforall, hadmits⟩ := h.children
  refine ⟨h.range hrange, fun j hj => ?_⟩
  have hj := mem_references_children hrange hj
  obtain ⟨k, hk, m, hm, rfl⟩ := exists_mem_of_forall₂ hforall hj
  exact ⟨hearlier j hj, m, hm, hkinds kinds hadmits _ hk⟩

/-- A node with a single reference. -/
theorem only (h : a.Regular tags n) (hearlier : ∀ j ∈ a.references n, j < i) {j? : Option NodeId} {j : NodeId}
    (hj : j? = some j) (hreferences : a.references n = [j])
    (hkinds : ∀ kinds, n.tag.Admits tags n.token kinds → ∃ k, kinds = [k] ∧ kind k) : a.Names i kind j? := by
  obtain ⟨kinds, hforall, hadmits⟩ := h.children
  obtain ⟨k, rfl, hk⟩ := hkinds kinds hadmits
  rw [hreferences] at hforall hearlier
  obtain ⟨⟨m, hm, rfl⟩, -⟩ := List.forall₂_cons.1 hforall
  exact ⟨j, m, hj, hearlier j (List.mem_singleton_self j), hm, hk⟩

/-- A node whose only reference is the left one. -/
theorem left (h : a.Regular tags n) (hearlier : ∀ j ∈ a.references n, j < i) (hrange : n.tag.hasRange = false)
    (hleft : n.tag.hasLeft) (hright : n.tag.hasRight = false)
    (hkinds : ∀ kinds, n.tag.Admits tags n.token kinds → ∃ k, kinds = [k] ∧ kind k) : a.Names i kind n.lhs := by
  obtain ⟨j, hj⟩ := Option.isSome_iff_exists.1 (h.lhs.trans hleft)
  have hnone := Option.not_isSome_iff_eq_none.1 (Bool.eq_false_iff.1 (h.rhs.trans hright))
  have hreferences : a.references n = [j] := by rw [references, if_neg (by simp [hrange]), hj, hnone]; rfl
  exact h.only hearlier hj hreferences hkinds

/-- A node whose only reference is the right one. -/
theorem right (h : a.Regular tags n) (hearlier : ∀ j ∈ a.references n, j < i) (hrange : n.tag.hasRange = false)
    (hleft : n.tag.hasLeft = false) (hright : n.tag.hasRight)
    (hkinds : ∀ kinds, n.tag.Admits tags n.token kinds → ∃ k, kinds = [k] ∧ kind k) : a.Names i kind n.rhs := by
  obtain ⟨j, hj⟩ := Option.isSome_iff_exists.1 (h.rhs.trans hright)
  have hnone := Option.not_isSome_iff_eq_none.1 (Bool.eq_false_iff.1 (h.lhs.trans hleft))
  have hreferences : a.references n = [j] := by rw [references, if_neg (by simp [hrange]), hj, hnone]; rfl
  exact h.only hearlier hj hreferences hkinds

/-- A node with both references. -/
theorem both (kind kind' : NodeTag → Bool) (h : a.Regular tags n) (hearlier : ∀ j ∈ a.references n, j < i)
    (hrange : n.tag.hasRange = false) (hleft : n.tag.hasLeft) (hright : n.tag.hasRight)
    (hkinds : ∀ kinds, n.tag.Admits tags n.token kinds → ∃ k k', kinds = [k, k'] ∧ kind k ∧ kind' k') :
    a.Names i kind n.lhs ∧ a.Names i kind' n.rhs := by
  obtain ⟨kinds, hforall, hadmits⟩ := h.children
  obtain ⟨k, k', rfl, hk, hk'⟩ := hkinds kinds hadmits
  obtain ⟨j, hj⟩ := Option.isSome_iff_exists.1 (h.lhs.trans hleft)
  obtain ⟨j', hj'⟩ := Option.isSome_iff_exists.1 (h.rhs.trans hright)
  have hreferences : a.references n = [j, j'] := by rw [references, if_neg (by simp [hrange]), hj, hj']; rfl
  rw [hreferences] at hforall hearlier
  obtain ⟨⟨m, hm, rfl⟩, hrest⟩ := List.forall₂_cons.1 hforall
  obtain ⟨⟨m', hm', rfl⟩, -⟩ := List.forall₂_cons.1 hrest
  exact ⟨⟨j, m, hj, hearlier j (by simp), hm, hk⟩, j', m', hj', hearlier j' (by simp), hm', hk'⟩

end Arena.Regular

namespace NodeTag

variable {k : NodeTag}

theorem isValue_of_isOperand (h : k.isOperand) : k.isValue := by
  cases k <;> first | rfl | cases h

theorem isValue_of_isFactor (h : k.isFactor) : k.isValue := by
  cases k <;> first | rfl | cases h

theorem isValue_of_isTerm (h : k.isTerm) : k.isValue := by
  cases k <;> first | rfl | cases h

theorem isValue_or_eq_of_isItem (h : k.isItem) : k.isValue ∨ k = .string := by
  cases k <;> first | exact .inl rfl | exact .inr rfl | cases h

end NodeTag

/-- In an arena that is in order, every node is of the kinds that its tag has a use for. -/
theorem Arena.Orderly.kinded {p : Program} (h : p.arena.Orderly (p.tokens.toList.map Token.tag)) {i : NodeId}
    {n : Node} (hi : 0 < i) (hn : p.arena.nodes[i]? = some n) : p.Kinded i n := by
  have hregular := h.regular i n hn
  have hearlier : ∀ j ∈ p.arena.references n, j < i := fun j hj => (h.descends i n hi hn j hj).2
  have htoken := hregular.hasToken
  obtain ⟨tag, token, lhs, rhs⟩ := n
  rw [Program.Kinded]
  -- The kinds that a tag admits are those of its references, and each kind is the tag of an earlier node.
  cases tag with
  | root | action _ => trivial
  | nakedLine => exact hregular.left hearlier rfl rfl rfl fun kinds hkinds => hkinds
  | markedLine => exact ⟨hregular.left hearlier rfl rfl rfl fun kinds hkinds => hkinds, htoken rfl⟩
  | print =>
    exact (hregular.members _ hearlier rfl fun kinds hkinds => hkinds.2).imp
      fun j m _ _ => NodeTag.isValue_or_eq_of_isItem
  | input =>
    refine (hregular.members (· = .var) hearlier rfl fun kinds hkinds k hk => ?_).imp
      fun j m _ hm hvar => ?_
    · simpa using hkinds.2 k hk
    · have hvar : m.tag = .var := by simpa using hvar
      have htoken := (h.regular j m hm).hasToken (by rw [hvar]; rfl)
      rwa [hvar] at htoken
  | assign => exact ⟨hregular.right hearlier rfl rfl rfl fun kinds hkinds => ⟨_, hkinds, rfl⟩, htoken rfl⟩
  | branch =>
    refine hregular.both _ _ hearlier rfl rfl rfl fun kinds hkinds => ?_
    obtain ⟨k, rfl, hk⟩ := hkinds
    exact ⟨_, k, rfl, rfl, hk⟩
  | goto | gosub => exact hregular.left hearlier rfl rfl rfl fun kinds hkinds => ⟨_, hkinds, rfl⟩
  | factor _ =>
    refine hregular.left hearlier rfl rfl rfl fun kinds hkinds => ?_
    obtain ⟨k, rfl, hk⟩ := hkinds
    exact ⟨k, rfl, NodeTag.isValue_of_isOperand hk⟩
  | expression =>
    exact hregular.members _ hearlier rfl fun kinds hkinds k hk => NodeTag.isValue_of_isTerm (hkinds.2 k hk)
  | term _ =>
    exact hregular.members _ hearlier rfl fun kinds hkinds k hk => NodeTag.isValue_of_isFactor (hkinds.2 k hk)
  | predicate =>
    obtain ⟨hlhs, hrhs⟩ := hregular.both NodeTag.isValue NodeTag.isValue hearlier rfl rfl rfl
      fun kinds hkinds => ⟨_, _, hkinds, rfl, rfl⟩
    obtain ⟨t, token, ht, htoken, -⟩ := htoken rfl
    exact ⟨hlhs, hrhs, t, token, ht, htoken, trivial⟩
  | call =>
    obtain ⟨t, token, ht, htoken, -⟩ := htoken rfl
    refine ⟨hregular.members _ hearlier rfl fun kinds hkinds k hk => ?_, t, token, ht, htoken, trivial⟩
    obtain ⟨t, f, -, -, rfl⟩ := hkinds
    obtain rfl := List.eq_of_mem_replicate hk
    rfl
  | string | number | var => exact htoken rfl

namespace Program

variable {p : Program}

/-- The arena of a parsed program is in order. -/
theorem DerivedFrom.orderly {lines : List ParsedLine} (h : p.DerivedFrom lines) :
    p.arena.Orderly (p.tokens.toList.map Token.tag) := by
  obtain ⟨front, eof, -, htokens, hlines, harena⟩ := h
  have htags : p.tokens.toList.map Token.tag = front.map Token.tag ++ [eof.tag] := by
    rw [htokens]
    simp
  rw [harena, htags]
  exact (Arena.stores_ofLines lines).orderly (hlines.1.spans (leavesIn_leavesOf _ _))
    (Forest.forall_tags_ofList Line.tags_eq lines)

/-- Parsed programs are well-kinded. -/
theorem DerivedFrom.wellKinded {lines : List ParsedLine} (h : p.DerivedFrom lines) : p.WellKinded := by
  have horderly := h.orderly
  obtain ⟨front, eof, hscan, htokens, -⟩ := h
  refine ⟨⟨_, hscan, htokens⟩, ?_, fun i n hi hn => horderly.kinded hi hn⟩
  obtain ⟨n, hn, hroot⟩ := horderly.root
  have hrange : n.tag.hasRange := by rw [hroot]; rfl
  have hregular := horderly.regular 0 n hn
  refine ⟨n, hn, hroot, hregular.range hrange, fun i hi => ?_⟩
  obtain ⟨kinds, hforall, hadmits⟩ := hregular.children
  obtain ⟨k, hk, m, hm, rfl⟩ := exists_mem_of_forall₂ hforall (Arena.mem_references_children hrange hi)
  rw [hroot] at hadmits
  exact ⟨m, hm, hadmits _ hk⟩

/-! ### Literals and lines of well-kinded programs -/

/-- A number has a value, which is small enough for a variable. -/
theorem WellKinded.exists_number (h : p.WellKinded) {n : Node} (hn : p.HasToken n (· = .number)) :
    ∃ (t : TokenId) (v : Numeral), n.token = some t ∧ p.number t = .ok v.val := by
  obtain ⟨t, token, htoken, ht, htag⟩ := hn
  obtain ⟨tokens, hscan, htokens⟩ := h.tokens
  obtain ⟨v, hv⟩ := (sound_lexeme hscan htokens ht).numeral htag
  exact ⟨t, v, htoken, number_eq (lexemeAt_of_token ht hv)⟩

/-- A line is there, and its number can be read if it has one. -/
theorem WellKinded.exists_lineNumber (h : p.WellKinded) {i : NodeId} {n : Node}
    (hn : p.arena.nodes[i]? = some n) (hline : n.tag.isLine) : ∃ number?, Image.lineNumber? p i = .ok number? := by
  have hi : 0 < i := by
    obtain ⟨root, hroot, htag, -⟩ := h.root
    rcases Nat.eq_zero_or_pos i with rfl | hi
    · obtain rfl := Option.some.inj (hroot.symm.trans hn)
      rw [htag] at hline
      cases hline
    · exact hi
  have hkinded := h.node i n hi hn
  rw [Image.lineNumber?, node_eq hn]
  obtain ⟨tag, token, lhs, rhs⟩ := n
  cases tag with
  | nakedLine => exact ⟨none, rfl⟩
  | markedLine =>
    obtain ⟨t, v, rfl, hv⟩ := h.exists_number hkinded.2
    refine ⟨some v.val, ?_⟩
    show (do return some (← p.number t) : Except Fault (Option Nat)) = _
    rw [hv]
    rfl
  | _ => cases hline

/-- Entering lines makes a table that leads to their positions. -/
theorem exists_enterLines_eq_ok (is : List NodeId) (hlines : ∀ i ∈ is, ∃ number?, Image.lineNumber? p i = .ok number?)
    (position : Nat) (table : LineTable) (htable : ∀ n k, table.find? n = some k → k < position) :
    ∃ table', Image.enterLines p position is table = .ok table' ∧
      ∀ n k, table'.find? n = some k → k < position + is.length := by
  induction is generalizing position table with
  | nil => exact ⟨table, rfl, htable⟩
  | cons i is ih =>
    obtain ⟨⟨number?, hnumber⟩, hlines⟩ := List.forall_mem_cons.1 hlines
    have hlength : position + 1 + is.length = position + (i :: is).length := by
      rw [List.length_cons]
      omega
    rw [Image.enterLines, hnumber, ok_bind, ← hlength]
    cases number? with
    | none => exact ih hlines _ _ fun n k hk => Nat.lt_succ_of_lt (htable n k hk)
    | some number =>
      refine ih hlines _ _ fun n k hk => ?_
      rw [LineTable.find?_insert] at hk
      split at hk
      · cases hk
        exact Nat.lt_succ_self _
      · exact Nat.lt_succ_of_lt (htable n k hk)

/-- A well-kinded program has an image, and jumps lead to its lines. -/
theorem WellKinded.exists_image (h : p.WellKinded) : ∃ image, Image.ofProgram p = .ok image ∧ image.program = p ∧
    (∀ i ∈ image.lines, ∃ n, p.arena.nodes[i]? = some n ∧ n.tag.isLine) ∧
    ∀ n k, image.table.find? n = some k → k < image.lines.size := by
  obtain ⟨root, hroot, -, -, hlines⟩ := h.root
  have hnumbers : ∀ i ∈ p.arena.children root, ∃ number?, Image.lineNumber? p i = .ok number? := by
    intro i hi
    obtain ⟨n, hn, hline⟩ := hlines i hi
    exact h.exists_lineNumber hn hline
  obtain ⟨table, htable, hfind⟩ := exists_enterLines_eq_ok _ hnumbers 0 [] (by simp)
  refine ⟨⟨p, (p.arena.children root).toArray, table⟩, ?_, rfl, ?_, ?_⟩
  · rw [Image.ofProgram_of_root (node_eq hroot), htable]
    rfl
  · simpa using hlines
  · simpa using hfind

end Program

end LineBasic
