import LineBasic.Proofs.Arena.Placement
import LineBasic.Proofs.Program.Parsed

/-!
# Reading nodes and literals

Asking a program for a node or a literal that is there succeeds. What a literal gives is what its lexeme writes.

## Main results

* `Program.node_eq`, `Program.exists_token_eq`: nodes and tokens.
* `Program.letter_eq`, `Program.number_eq`, `Program.string_eq`: literals.
-/

namespace LineBasic.Program

theorem ok_bind {ε α β : Type} (a : α) (f : α → Except ε β) : (Except.ok a >>= f) = f a := rfl

variable {p : Program} {i : TokenId}

theorem getElem?_of_node {i : NodeId} {n : Node} (h : p.node i = .ok n) : p.arena.nodes[i]? = some n := by
  rw [node] at h
  split at h
  · rename_i hn
    rwa [← Except.ok.inj h]
  · cases h

theorem node_eq {i : NodeId} {n : Node} (h : p.arena.nodes[i]? = some n) : p.node i = .ok n := by
  rw [node, h]

theorem exists_token_eq {P : Lexeme → Prop} (h : LexemeAt p.lexemes i P) :
    ∃ t, p.token i = .ok t ∧ P (t.tag, t.text p.source) := by
  obtain ⟨w, hw, hP⟩ := h
  rw [lexemes, lexemesOf, List.getElem?_map, Option.map_eq_some_iff] at hw
  obtain ⟨t, ht, rfl⟩ := hw
  refine ⟨t, ?_, hP⟩
  rw [token, ← Array.getElem?_toList, ht]

theorem exists_token_tag {tag : Tag} (h : LexemeAt p.lexemes i (·.HasTag tag)) :
    ∃ t, p.token i = .ok t ∧ t.tag = tag := exists_token_eq h

theorem number_eq {n : Numeral} (h : LexemeAt p.lexemes i (·.IsNumeral n)) : p.number i = .ok n.val := by
  obtain ⟨t, ht, htag, hn⟩ := exists_token_eq h
  dsimp only at htag hn
  rw [Decimal.unsigned?] at hn
  split at hn
  · rw [number, ht]
    show (if t.tag = .number then _ else _ : Except Fault Nat) = _
    rw [if_pos htag, ← Option.some.inj hn]
    rfl
  · cases hn

theorem string_eq {s : Body} (h : LexemeAt p.lexemes i (·.IsBody s)) : p.string i = .ok s.val := by
  obtain ⟨t, ht, hs⟩ := exists_token_eq h
  obtain ⟨htag, htext⟩ := Prod.mk.inj hs
  rw [string, ht]
  show (if t.tag = .string then _ else _ : Except Fault (List Char)) = _
  rw [if_pos htag, htext, List.tail_cons, List.dropLast_concat]
  rfl

theorem letter_eq {v : Letter} (h : LexemeAt p.lexemes i (·.IsLetter v)) : p.letter i = .ok v := by
  obtain ⟨t, ht, hv⟩ := exists_token_eq h
  obtain ⟨htag, htext⟩ := Prod.mk.inj hv
  have hhead : (p.source.drop t.start).head? = some v.char := by
    rw [Token.text] at htext
    cases hdrop : p.source.drop t.start with
    | nil =>
      rw [hdrop, List.take_nil] at htext
      cases htext
    | cons c cs =>
      rw [hdrop] at htext
      cases hlength : t.stop - t.start with
      | zero =>
        rw [hlength] at htext
        cases htext
      | succ n =>
        rw [hlength, List.take_succ_cons] at htext
        rw [List.head?_cons, (List.cons.inj htext).1]
  rw [letter, ht, ok_bind, htag, hhead, Option.bind_some, Letter.ofChar?_char]
  rfl

end LineBasic.Program
