import LineBasic.Proofs.Machine.Alike

/-!
# Images that are in order

The arena of a parsed program is sound, so nothing that a node refers to is missing, and what a node evaluates
comes before it. So evaluation comes to an end, and it does not depend on the number of frames if there are enough.

## Main definitions

* `Image.WellFormed`: tokens, ranges, references, literals, lines and jumps are all in place.
* `Image.Descends`: the evaluation of a node depends on earlier nodes only.

## Main results

* `Image.Represents.wellFormed`: images of parsed programs are in order.
* `Image.WellFormed.descends`: evaluation descends in them.
-/

namespace LineBasic

open Execution
open Program (reference)

/-! ### The arena is in order -/

/-- Everything that a node of the program, a line or a jump refers to is there, and it is of the right kind. Only
the root refers to later nodes. -/
structure Image.WellFormed (image : Image) : Prop where
  token : ∀ {i : NodeId} {n : Node}, image.program.arena.nodes[i]? = some n →
    ∀ t ∈ n.token, ∃ token, image.program.tokens[t]? = some token ∧ n.tag.Takes token.tag
  range : ∀ {i : NodeId} {n : Node}, image.program.arena.nodes[i]? = some n → n.tag.hasRange →
    image.program.arena.Bounded n
  references : ∀ {i : NodeId} {n : Node}, image.program.arena.nodes[i]? = some n →
    ∀ j ∈ image.program.arena.references n, 0 < j ∧ j < image.program.arena.nodes.size ∧ (i ≠ 0 → j < i)
  number : ∀ {t : TokenId} {token : Token}, image.program.tokens[t]? = some token → token.tag = .number →
    ∃ n, n ≤ maxLiteral ∧ image.program.number t = .ok n
  string : ∀ {t : TokenId} {token : Token}, image.program.tokens[t]? = some token → token.tag = .string →
    ∃ s, image.program.string t = .ok s
  letter : ∀ {t : TokenId} {token : Token}, image.program.tokens[t]? = some token → token.tag = .var →
    ∃ v, image.program.letter t = .ok v
  line : ∀ i ∈ image.lines, ∃ n, image.program.arena.nodes[i]? = some n ∧
    (n.tag = .nakedLine ∨ n.tag = .markedLine)
  jump : ∀ {n : Int} {k : Nat}, image.table.find? n = some k → k < image.lines.size

section WellFormed

variable {image : Image} {clauses : List Clause} {p : Program}

theorem Program.lexemeAt_of_token {t : TokenId} {token : Token} (h : p.tokens[t]? = some token)
    {P : Lexeme → Prop} (hP : P (token.tag, token.text p.source)) : LexemeAt p.lexemes t P := by
  refine ⟨_, ?_, hP⟩
  rw [lexemes, lexemesOf, List.getElem?_map, Array.getElem?_toList, h]
  rfl

/-- The lexemes of the tokens of a source are sound. -/
theorem Program.sound_lexeme {tokens : List Token} (hscan : scan p.source = .ok tokens)
    (htokens : p.tokens = tokens.toArray) {token : Token} {t : TokenId} (ht : p.tokens[t]? = some token) :
    Lexeme.Sound (token.tag, token.text p.source) := by
  rw [htokens, List.getElem?_toArray] at ht
  exact sound_of_mem_lexemesOf hscan (List.mem_map_of_mem (List.mem_of_getElem? ht))

theorem Program.Means.sound_lexeme (h : p.Means clauses) {token : Token} {t : TokenId}
    (ht : p.tokens[t]? = some token) : Lexeme.Sound (token.tag, token.text p.source) := by
  obtain ⟨lines, ⟨front, eof, hscan, htokens, -⟩, -⟩ := h
  exact Program.sound_lexeme hscan htokens ht

theorem lastNumbered_lt {n : Int} {k : Nat} (h : lastNumbered n clauses = some k) : k < clauses.length := by
  induction clauses generalizing k with
  | nil => cases h
  | cons c clauses ih =>
    rw [lastNumbered] at h
    split at h
    · rename_i i hi
      cases h
      exact Nat.succ_lt_succ (ih hi)
    · split at h
      · cases h
        exact Nat.succ_pos _
      · cases h

theorem Image.Represents.wellFormed (h : image.Represents clauses) (hp : image.program.Means clauses) :
    image.WellFormed := by
  obtain ⟨root, hroot, hroottag, hroottoken, hrootbound, hlines⟩ := h.shows.root
  have hzero : ∀ {n : Node}, image.program.arena.nodes[0]? = some n → n = root := fun hn =>
    Option.some.inj (hn.symm.trans hroot)
  have hchildren : ∀ j ∈ image.program.arena.children root, image.program.arena.Holds j :=
    forall_holds hlines fun _ _ => Clause.ShownIn.holds
  constructor
  case token =>
    intro i n hn t ht
    rcases Nat.eq_zero_or_pos i with rfl | hi
    · rw [hzero hn, hroottoken] at ht
      cases ht
    · obtain ⟨token, htoken, htag⟩ := Program.exists_token_eq (h.shows.sound.fits ⟨hi, hn⟩ t ht)
      refine ⟨token, ?_, htag⟩
      rw [Program.token] at htoken
      split at htoken
      · cases htoken
        assumption
      · cases htoken
  case range =>
    intro i n hn hrange
    rcases Nat.eq_zero_or_pos i with rfl | hi
    · exact hzero hn ▸ hrootbound
    · exact h.shows.sound.bounded ⟨hi, hn⟩ hrange
  case references =>
    -- The root comes first and refers to lines behind it; all other nodes refer to earlier ones.
    intro i n hn j hj
    rcases Nat.eq_zero_or_pos i with rfl | hi
    · rw [hzero hn, Arena.references, hroottag] at hj
      obtain ⟨hpos, hlt⟩ := Arena.holds_iff.1 (hchildren j hj)
      exact ⟨hpos, hlt, fun h => absurd rfl h⟩
    · obtain ⟨hpos, hlt⟩ := h.shows.sound.below ⟨hi, hn⟩ j hj
      have hsize : i < image.program.arena.nodes.size := Arena.Has.lt_size ⟨hi, hn⟩
      exact ⟨hpos, Nat.lt_trans hlt hsize, fun _ => hlt⟩
  case number =>
    intro t token ht htag
    obtain ⟨n, hn⟩ := (hp.sound_lexeme ht).numeral htag
    exact ⟨n.val, Nat.le_of_lt_succ n.isLt, Program.number_eq (Program.lexemeAt_of_token ht hn)⟩
  case string =>
    intro t token ht htag
    obtain ⟨s, hs⟩ := (hp.sound_lexeme ht).body htag
    exact ⟨s.val, Program.string_eq (Program.lexemeAt_of_token ht hs)⟩
  case letter =>
    intro t token ht htag
    obtain ⟨v, hv⟩ := (hp.sound_lexeme ht).letter htag
    exact ⟨v, Program.letter_eq (Program.lexemeAt_of_token ht hv)⟩
  case line =>
    intro i hi
    obtain ⟨position, hposition⟩ := List.mem_iff_getElem?.1 (Array.mem_toList_iff.2 hi)
    have hlt : position < clauses.length := by
      rw [h.lines.length_eq]
      exact (List.getElem?_eq_some_iff.1 hposition).1
    obtain ⟨i', b, n, hi', hn, -, htag, -⟩ := h.exists_line (List.getElem?_eq_getElem hlt)
    rw [← Array.getElem?_toList, hposition] at hi'
    cases hi'
    exact ⟨n, hn.2, htag⟩
  case jump =>
    intro n k hk
    rw [h.table] at hk
    have hlength : clauses.length = image.lines.size := h.lines.length_eq
    exact hlength ▸ lastNumbered_lt hk

end WellFormed

/-! ### Evaluation descends -/

section Descent

variable {image : Image} {i : NodeId}

/-- What a node does depends on what the earlier nodes do, and on no others. -/
theorem Image.evaluateWith_congr (himage : image.WellFormed) (hi : i ≠ 0)
    {operand operand' item item' argument argument' : NodeId → Execution Value}
    (ho : ∀ j, 0 < j → j < i → operand j = operand' j) (hitem : ∀ j, 0 < j → j < i → item j = item' j)
    (ha : ∀ j, 0 < j → j < i → argument j = argument' j) :
    image.evaluateWith operand item argument i = image.evaluateWith operand' item' argument' i := by
  -- All nodes that this one refers to are earlier ones.
  have agree : ∀ {f g : NodeId → Execution Value}, (∀ j, 0 < j → j < i → f j = g j) →
      image.AlikeBelow Eq (fun _ => False) i f g := by
    intro f g hfg n hn j hj
    obtain ⟨hpos, -, hlt⟩ := himage.references (Program.getElem?_of_node hn) j hj
    rw [hfg j hpos (hlt hi)]
    exact .refl _
  exact eq_of_alike (evaluateWith_alike (keeps_eq _) (agree ho) (agree hitem) (agree ha) fun _ _ => .refl _)

/-- The evaluation of a node other than the root depends on that of earlier nodes only, and on the frames only if
there are few. -/
structure Image.Descends (image : Image) : Prop where
  earlier : ∀ {i : NodeId} {operand operand' item item' argument argument' : NodeId → Execution Value}, i ≠ 0 →
    (∀ j, 0 < j → j < i → operand j = operand' j) → (∀ j, 0 < j → j < i → item j = item' j) →
    (∀ j, 0 < j → j < i → argument j = argument' j) →
    image.evaluateWith operand item argument i = image.evaluateWith operand' item' argument' i
  frames : ∀ {i frames frames' : Nat}, i ≠ 0 → 3 * i < frames → 3 * i < frames' →
    image.evaluate frames i = image.evaluate frames' i

theorem three_mul_lt {i j f : Nat} (hj : j < i) (h : 3 * i < f + 1) :
    3 * j < f ∧ 3 * j < f - 1 ∧ 3 * j < f - 2 := by
  omega

theorem Image.WellFormed.descends (himage : image.WellFormed) : image.Descends := by
  refine ⟨fun hi => evaluateWith_congr himage hi, ?_⟩
  intro i
  induction i using Nat.strongRecOn with
  | ind i ih =>
    intro frames frames' hi h h'
    obtain ⟨f, rfl⟩ : ∃ f, frames = f + 1 := ⟨frames - 1, by omega⟩
    obtain ⟨f', rfl⟩ : ∃ f', frames' = f' + 1 := ⟨frames' - 1, by omega⟩
    -- An argument has two frames less than an operand; three frames for each node make up for them.
    rw [evaluate_succ, evaluate_succ]
    refine evaluateWith_congr himage hi (fun j hpos hlt => ?_) (fun j hpos hlt => ?_) (fun j hpos hlt => ?_)
    · exact ih j hlt (Nat.ne_of_gt hpos) (three_mul_lt hlt h).1 (three_mul_lt hlt h').1
    · exact ih j hlt (Nat.ne_of_gt hpos) (three_mul_lt hlt h).2.1 (three_mul_lt hlt h').2.1
    · exact ih j hlt (Nat.ne_of_gt hpos) (three_mul_lt hlt h).2.2 (three_mul_lt hlt h').2.2

end Descent

end LineBasic
