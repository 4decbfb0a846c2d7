import LineBasic.Batch
import LineBasic.Proofs.Grammar.Ending
import LineBasic.Proofs.Machine.Output

/-!
# Loading a text

What a batch run writes before the program starts. The nodes of a well-kinded program can always be listed, and a text
that can be cut into tokens is a program or gets a report.

## Main results

* `Program.WellKinded.exists_listing`: the listing of the nodes.
* `Batch.put_of_accepted`, `Batch.put_of_refused`: writes.
* `Batch.load_eq_report`, `Batch.load_eq_program`, `Batch.load_eq_error`: what loading does.
-/

namespace LineBasic

/-! ### Listing the nodes -/

namespace Program

variable {p : Program} {i : NodeId} {n : Node}

theorem HasToken.exists_eq {good : Tag → Prop} (h : p.HasToken n good) :
    ∃ t token, n.token = some t ∧ p.token t = .ok token := by
  obtain ⟨t, token, ht, htoken, -⟩ := h
  exact ⟨t, token, ht, by rw [Program.token, htoken]⟩

/-- A node that is kinded can be listed. -/
theorem Kinded.exists_nodeBody (h : p.Kinded i n) : ∃ body, p.nodeBody n = .ok body := by
  obtain ⟨tag, token, lhs, rhs⟩ := n
  have htoken : ∀ {good : Tag → Prop}, p.HasToken ⟨tag, token, lhs, rhs⟩ good →
      ∃ t u, token = some t ∧ p.token t = .ok u := HasToken.exists_eq
  rw [Kinded] at h
  rw [nodeBody]
  cases tag with
  | root | nakedLine | print | input | branch | goto | gosub | action _ | expression | term _ | factor _ =>
    exact ⟨_, rfl⟩
  | markedLine | assign | call =>
    obtain ⟨t, u, rfl, hu⟩ := htoken h.2
    exact ⟨_, by dsimp only [reference, tokenText]; rw [ok_bind, hu]; rfl⟩
  | predicate =>
    obtain ⟨t, u, rfl, hu⟩ := htoken h.2.2
    exact ⟨_, by dsimp only [reference]; rw [ok_bind, hu]; rfl⟩
  | string | number | var =>
    obtain ⟨t, u, rfl, hu⟩ := htoken h
    exact ⟨_, by dsimp only [reference, tokenText]; rw [ok_bind, hu]; rfl⟩

theorem exists_mapM_eq_ok {ε α : Type} {xs : List (Except ε α)} (h : ∀ x ∈ xs, ∃ a, x = .ok a) :
    ∃ as, xs.mapM id = .ok as := by
  induction xs with
  | nil => exact ⟨[], rfl⟩
  | cons x xs ih =>
    obtain ⟨⟨a, rfl⟩, hxs⟩ := List.forall_mem_cons.1 h
    obtain ⟨as, has⟩ := ih hxs
    exact ⟨a :: as, by rw [List.mapM_cons, id, ok_bind, has]; rfl⟩

/-- The nodes of a well-kinded program can be listed. -/
theorem WellKinded.exists_listing (h : p.WellKinded) : ∃ listing, p.listNodes = .ok listing := by
  have hlines : ∀ line ∈ p.arena.nodes.toList.mapIdx (fun i n => p.nodeLine i n), ∃ text, line = .ok text := by
    intro line hline
    obtain ⟨i, hi, rfl⟩ := List.mem_mapIdx.1 hline
    have hn : p.arena.nodes[i]? = some p.arena.nodes.toList[i] := by
      rw [← Array.getElem?_toList, List.getElem?_eq_getElem]
    have hbody : ∃ body, p.nodeBody p.arena.nodes.toList[i] = .ok body := by
      rcases Nat.eq_zero_or_pos i with rfl | hpos
      · obtain ⟨root, hroot, htag, -⟩ := h.root
        obtain rfl := Option.some.inj (hn.symm.trans hroot)
        exact Kinded.exists_nodeBody (i := 0) (by rw [Kinded, htag]; trivial)
      · exact (h.node i _ hpos hn).exists_nodeBody
    obtain ⟨body, hbody⟩ := hbody
    exact ⟨_, by rw [nodeLine, hbody]; rfl⟩
  obtain ⟨lines, hmapM⟩ := exists_mapM_eq_ok hlines
  exact ⟨_, by rw [listNodes, hmapM]; rfl⟩

end Program

/-! ### Loading -/

namespace Batch

variable {source : List Char} {tokens : List Token} {debug : Bool} {c : Console} {p : Program}

theorem sound_ok {α : Type} (a : α) : sound (.ok a) = pure a := rfl

theorem put_of_accepted (h : c.writes ∉ c.failing) (text : String) : put text c = (.ok (), c.wrote text) := by
  rw [put, Console.write, if_neg h]
  rfl

theorem put_of_refused (h : c.writes ∈ c.failing) (text : String) :
    put text c = (.error (.write c.failure), { c with writes := c.writes + 1 }) := by
  rw [put, Console.write, if_pos h]

theorem putIf_of_accepted {wanted : Bool} (h : wanted = true → c.writes ∉ c.failing) (text : String) :
    putIf wanted (pure text) c = (.ok (), c.wroteIf wanted text) := by
  cases wanted with
  | false => rfl
  | true => exact put_of_accepted (h rfl) text

theorem put_eq (h : c.failing = []) (text : String) : put text c = (.ok (), c.wrote text) :=
  put_of_accepted (by simp [h]) text

theorem putIf_eq (h : c.failing = []) (wanted : Bool) (text : String) :
    putIf wanted (pure text) c = (.ok (), c.wroteIf wanted text) :=
  putIf_of_accepted (by simp [h]) text

/-- A text that cannot be cut into tokens is not reported. -/
theorem load_eq_error {e : ScanError} (h : scan source = .error e) : load debug source c = (.error (.scan e), c) := by
  rw [load, h]
  rfl

/-- A text that is no program is reported. -/
theorem load_eq_report {e : SyntaxError} (hc : c.failing = []) (h : scan source = .ok tokens)
    (hparse : Program.ofTokens source tokens = .error (.wrong e)) :
    load debug source c = (.ok none, (c.wroteIf debug (listTokens source tokens)).wrote (e.report source tokens)) := by
  rw [load, h]
  dsimp only
  rw [bind_apply, putIf_eq hc, hparse]
  dsimp only
  rw [bind_apply, put_eq (by simp [hc])]
  rfl

/-- A program is listed if that is asked for. -/
theorem load_eq_program {listing : String} (hc : c.failing = []) (h : scan source = .ok tokens)
    (hparse : Program.ofTokens source tokens = .ok p) (hlisting : p.listNodes = .ok listing) :
    load debug source c =
      (.ok (some p), (c.wroteIf debug (listTokens source tokens)).wroteIf debug listing) := by
  rw [load, h]
  dsimp only
  rw [bind_apply, putIf_eq hc, hparse]
  dsimp only
  rw [bind_apply, hlisting, sound_ok, putIf_eq (by simp [hc])]
  rfl

/-- The tokens of a text come to an end, so it is a program or has an error. -/
theorem ofTokens_cases (h : scan source = .ok tokens) :
    (∃ e, Program.ofTokens source tokens = .error (.wrong e)) ∨ ∃ p, Program.ofTokens source tokens = .ok p := by
  have heof : Tag.eof ∈ tokens.map Token.tag := by
    obtain ⟨front, t, rfl, ht, -⟩ := (Scanner.scans_of_tokens h).eof
    exact List.mem_map.2 ⟨t, by simp, ht⟩
  rw [Program.ofTokens]
  cases hparse : Grammar.parse (tokens.map Token.tag) with
  | ok lines => exact .inr ⟨_, rfl⟩
  | error e =>
    cases e with
    | wrong e => exact .inl ⟨e, rfl⟩
    | outOfTokens => exact absurd hparse (Grammar.parse_ne_outOfTokens heof)

theorem parse_eq_ok (h : scan source = .ok tokens) (hparse : Program.ofTokens source tokens = .ok p) :
    Program.parse source = .ok p := by
  rw [Program.parse_of_scan h, hparse]
  rfl

theorem parse_eq_error {e : ParseFailure} (h : scan source = .ok tokens)
    (hparse : Program.ofTokens source tokens = .error e) : Program.parse source = .error (.parse tokens e) := by
  rw [Program.parse_of_scan h, hparse]
  rfl

end Batch

end LineBasic
