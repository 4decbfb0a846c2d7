import LineBasic.Proofs.Machine.Evaluation

/-!
# Executing statements that are shown

Evaluating the node of a statement mirrors the effect of the statement, and so does a step of the program.

## Main results

* `Stmt.ShownIn.mirrors`: statements.
-/

namespace LineBasic

open Execution
open Program (reference)

namespace Image

variable {image : Image} {f : Nat} {i j : NodeId} {ks : List NodeId} {t : TokenId}

theorem itemText_string {s : Body} {value : NodeId → Execution Value}
    (h : image.program.arena.Leaf image.program.lexemes i .string (·.IsBody s)) :
    image.itemText value i = pure (String.ofList s.val) := by
  obtain ⟨t, ht, hi⟩ := h
  rw [itemText, Program.node_eq hi.2]
  show (do return String.ofList (← look (image.program.string t)) : Execution String) = _
  rw [Program.string_eq ht]
  rfl

theorem itemText_expression {value : NodeId → Execution Value}
    (h : image.program.arena.Owns i .expression none ks) :
    image.itemText value i = do return (← value i).text := by
  obtain ⟨⟨tag, token, lhs, rhs⟩, hn, rfl, rfl, -⟩ := h
  rw [itemText, Program.node_eq hn.2]
  rfl

theorem inputVariable_eq {v : Letter}
    (h : image.program.arena.Leaf image.program.lexemes i .var (·.IsLetter v)) :
    image.inputVariable i = (do assign v (.number (← onConsole Console.readNumber))) := by
  obtain ⟨t, ht, hi⟩ := h
  rw [inputVariable, Program.node_eq hi.2]
  show (do
    let l ← look (image.program.letter t)
    assign l (.number (← onConsole Console.readNumber)) : Execution Unit) = _
  rw [Program.letter_eq ht]
  rfl

theorem evaluate_print (h : image.program.arena.Owns i .print (some t) ks) :
    image.evaluate (f + 2) i = do
      let items ← ks.mapM (image.itemText (image.evaluate f))
      onConsole (Console.print (" ".intercalate items ++ "\n"))
      return .nothing := by
  obtain ⟨⟨tag, token, lhs, rhs⟩, hn, rfl, rfl, -, rfl⟩ := h
  rw [evaluate_succ, evaluateWith, Program.node_eq hn.2]
  rfl

theorem evaluate_input (h : image.program.arena.Owns i .input (some t) ks) :
    image.evaluate (f + 1) i = do
      ks.forM image.inputVariable
      return .nothing := by
  obtain ⟨⟨tag, token, lhs, rhs⟩, hn, rfl, rfl, -, rfl⟩ := h
  rw [evaluate_succ, evaluateWith, Program.node_eq hn.2]
  rfl

theorem evaluate_assign {v : Letter} (ht : LexemeAt image.program.lexemes t (·.IsLetter v))
    (h : image.program.arena.Has i ⟨.assign, some t, none, some j⟩) :
    image.evaluate (f + 1) i = do
      assign v (← image.evaluate f j)
      return .nothing := by
  rw [evaluate_succ, evaluateWith, Program.node_eq h.2]
  show (do
    let v ← image.evaluate f j
    assign (← look (image.program.letter t)) v
    return .nothing : Execution Value) = _
  rw [Program.letter_eq ht]
  rfl

theorem evaluate_predicate {r : Comparison} {j₁ j₂ : NodeId}
    (ht : LexemeAt image.program.lexemes t (·.HasTag (.comparison r)))
    (h : image.program.arena.Has i ⟨.predicate, some t, some j₁, some j₂⟩) :
    image.evaluate (f + 1) i = do
      let a ← image.evaluate f j₁
      let b ← image.evaluate f j₂
      return .number (truth (← look (r.relates a b))) := by
  obtain ⟨token, htoken, htag⟩ := Program.exists_token_tag ht
  rw [evaluate_succ, evaluateWith, Program.node_eq h.2]
  show (do
    let a ← image.evaluate f j₁
    let b ← image.evaluate f j₂
    let operator ← look (image.program.token t)
    return .number (truth (← look (operator.tag.relation.relates a b))) : Execution Value) = _
  rw [htoken]
  show (do
    let a ← image.evaluate f j₁
    let b ← image.evaluate f j₂
    return .number (truth (← look (token.tag.relation.relates a b))) : Execution Value) = _
  rw [htag]
  rfl

theorem evaluate_branch {c b : NodeId}
    (h : image.program.arena.Has i ⟨.branch, some t, some c, some b⟩) :
    image.evaluate (f + 1) i = do
      let condition ← image.evaluate f c
      if condition = .number 0 then return .nothing
      else
        let _ ← image.evaluate f b
        return .nothing := by
  rw [evaluate_succ, evaluateWith, Program.node_eq h.2]
  show image.evaluate f c >>= _ = _
  refine bind_congr fun condition => ?_
  by_cases hzero : condition = .number 0
  · rw [if_pos hzero, if_neg (not_not.2 hzero)]
  · rw [if_neg hzero, if_pos hzero]
    rfl

theorem evaluate_goto (h : image.program.arena.Has i ⟨.goto, some t, some j, none⟩) :
    image.evaluate (f + 1) i = do
      image.jump (← image.evaluate f j)
      return .nothing := by
  rw [evaluate_succ, evaluateWith, Program.node_eq h.2]
  rfl

theorem evaluate_gosub (h : image.program.arena.Has i ⟨.gosub, some t, some j, none⟩) :
    image.evaluate (f + 1) i = do
      save
      image.jump (← image.evaluate f j)
      return .nothing := by
  rw [evaluate_succ, evaluateWith, Program.node_eq h.2]
  rfl

theorem evaluate_action {k : Action} (h : image.program.arena.Has i ⟨.action k, some t, none, none⟩) :
    image.evaluate (f + 1) i =
      match k with
      | .ret => do
        restore
        return .nothing
      | .halt => do
        goTo endPosition
        return .nothing
      | .clear | .list | .run => stop .notImplemented := by
  rw [evaluate_succ, evaluateWith, Program.node_eq h.2]
  cases k <;> rfl

end Image

variable {image : Image} {table : Int → Option Nat}

theorem Comparison.relates_val (r : Comparison) (x w : Word) :
    r.relates x.toValue w.toValue = .ok (r.holds x.val w.val) := by
  cases r <;> simp [Comparison.relates, Comparison.holds, Word.toValue, Value.toInt] <;> rfl

theorem Item.ShownIn.mirrors {item : PlainItem} {i : NodeId} {frames : Nat}
    (h : item.ShownIn image.program.lexemes image.program.arena i) (hframes : 6 * item.nesting ≤ frames) :
    Mirrors (image.itemText (image.evaluate frames) i) item.printed id := by
  cases item with
  | text s =>
    rw [Image.itemText_string h]
    exact Mirrors.pure (String.ofList s.val) id
  | value e =>
    have he : Mirrors (image.evaluate frames i) e.value Word.toValue := Expr.WholeIn.mirrors h hframes
    obtain ⟨ks, -, hi⟩ := h
    rw [Image.itemText_expression hi]
    exact he.bind fun w => Mirrors.pure (toString w.val) id

theorem mirrors_jump (htable : ∀ n, image.table.find? n = table n) (w : Word) :
    Mirrors (image.jump w.toValue) (Run.jump table w) id := by
  have hposition : image.position? w.toValue = table w.val := htable w.val
  rw [Image.jump, Run.jump, hposition]
  cases table w.val with
  | none => exact Mirrors.stop _ _
  | some position => exact Mirrors.goTo position

theorem mirrors_test {e₁ e₂ : PlainExpr .sum} {r : Comparison} {t : TokenId} {c j₁ j₂ : NodeId} {frames : Nat}
    (ht : LexemeAt image.program.lexemes t (·.HasTag (.comparison r)))
    (hc : image.program.arena.Has c ⟨.predicate, some t, some j₁, some j₂⟩)
    (h₁ : e₁.WholeIn image.program.lexemes image.program.arena j₁)
    (h₂ : e₂.WholeIn image.program.lexemes image.program.arena j₂) (hframes₁ : 6 * e₁.nesting ≤ frames)
    (hframes₂ : 6 * e₂.nesting ≤ frames) :
    Mirrors (image.evaluate (frames + 1) c) (r.test e₁ e₂) fun b => .number (truth b) := by
  rw [Image.evaluate_predicate ht hc]
  refine (h₁.mirrors hframes₁).bind fun x => (h₂.mirrors hframes₂).bind fun w => ?_
  rw [r.relates_val]
  exact Mirrors.pure _ _

/-- The evaluation of the condition of an IF statement mirrors its test. The level of nesting that the statement has
taken pays for the frame of its body. -/
theorem Stmt.ShownIn.mirrors_condition {e₁ e₂ : PlainExpr .sum} {r : Comparison} {body : PlainStmt} {t : TokenId}
    {i : NodeId} {frames : Nat}
    (h : ShownIn image.program.lexemes image.program.arena (.branch () e₁ r () e₂ body) t i)
    (hframes : 6 * nesting (.branch () e₁ r () e₂ body : PlainStmt) + 2 ≤ frames) : ∃ f tb c b, frames = f + 1 ∧
      image.program.arena.Has i ⟨.branch, some t, some c, some b⟩ ∧
      Mirrors (image.evaluate f c) (r.test e₁ e₂) (fun holds => .number (truth holds)) ∧
      body.ShownIn image.program.lexemes image.program.arena tb b ∧ 6 * body.nesting + 2 ≤ f := by
  obtain ⟨j₁, j₂, tr, c, tb, b, hj₁, hj₂, htr, hc, hb, hi⟩ := h
  rw [Stmt.nesting] at hframes
  obtain ⟨f, rfl⟩ : ∃ f, frames = f + 2 := ⟨frames - 2, by omega⟩
  exact ⟨f + 1, tb, c, b, rfl, hi, mirrors_test htr hc hj₁ hj₂ (by omega) (by omega), hb, by omega⟩

/-- The evaluation of a statement mirrors its effect if there are six frames for each level of nesting, and two
more. -/
theorem Stmt.ShownIn.mirrors (htable : ∀ n, image.table.find? n = table n) {s : PlainStmt} {t : TokenId}
    {i : NodeId} {frames : Nat} (h : s.ShownIn image.program.lexemes image.program.arena t i)
    (hframes : 6 * s.nesting + 2 ≤ frames) :
    Mirrors (image.evaluate frames i) (s.exec table) fun _ => Value.nothing := by
  induction s generalizing t i frames with
  | print mark item more =>
    obtain ⟨js, hjs, hi⟩ := h
    obtain ⟨f, rfl⟩ : ∃ f, frames = f + 2 := ⟨frames - 2, by omega⟩
    -- Items are evaluated one frame deeper than the operands of a statement.
    have hnesting : ∀ item' ∈ item :: more, item'.nesting ≤ (Stmt.print mark item more).nesting :=
      List.forall_mem_cons.2 (Stmt.nesting_print_le_iff.1 (Nat.le_refl _))
    have hitems : Mirrors (js.mapM (image.itemText (image.evaluate f))) ((item :: more).mapM Item.printed)
        (List.map id) := by
      refine Mirrors.mapM hjs fun item' i hmem hitem => hitem.mirrors ?_
      have hle := hnesting item' hmem
      omega
    rw [Image.evaluate_print hi]
    refine hitems.bind fun texts => ?_
    rw [List.map_id]
    exact (Mirrors.print _).follow fun _ => rfl
  | input _ v more =>
    obtain ⟨js, hjs, hi⟩ := h
    obtain ⟨f, rfl⟩ : ∃ f, frames = f + 1 := ⟨frames - 1, by omega⟩
    rw [Image.evaluate_input hi]
    refine Mirrors.follow (Mirrors.forM hjs fun v i hv => ?_) fun _ => rfl
    rw [Image.inputVariable_eq hv]
    exact Mirrors.bind Mirrors.ask fun w => Mirrors.assign v w
  | assign v e =>
    obtain ⟨j, hj, ht, hi⟩ := h
    rw [Stmt.nesting] at hframes
    obtain ⟨f, rfl⟩ : ∃ f, frames = f + 1 := ⟨frames - 1, by omega⟩
    rw [Image.evaluate_assign ht hi]
    exact (hj.mirrors (by omega)).bind fun w => (Mirrors.assign v w).follow fun _ => rfl
  | branch _ e₁ r _ e₂ body ih =>
    obtain ⟨f, tb, c, b, rfl, hi, hcondition, hb, hbody⟩ := h.mirrors_condition hframes
    rw [Image.evaluate_branch hi]
    refine hcondition.bind fun holds => ?_
    cases holds with
    | false => exact Mirrors.pure () fun _ => Value.nothing
    | true => exact (ih hb hbody).follow fun _ => rfl
  | goto _ e =>
    obtain ⟨j, hj, hi⟩ := h
    rw [Stmt.nesting] at hframes
    obtain ⟨f, rfl⟩ : ∃ f, frames = f + 1 := ⟨frames - 1, by omega⟩
    rw [Image.evaluate_goto hi]
    exact (hj.mirrors (by omega)).bind fun w => (mirrors_jump htable w).follow fun _ => rfl
  | gosub _ e =>
    obtain ⟨j, hj, hi⟩ := h
    rw [Stmt.nesting] at hframes
    obtain ⟨f, rfl⟩ : ∃ f, frames = f + 1 := ⟨frames - 1, by omega⟩
    rw [Image.evaluate_gosub hi]
    refine Mirrors.save.bind fun _ => ?_
    exact (hj.mirrors (by omega)).bind fun w => (mirrors_jump htable w).follow fun _ => rfl
  | action _ k =>
    obtain ⟨f, rfl⟩ : ∃ f, frames = f + 1 := ⟨frames - 1, by omega⟩
    rw [Image.evaluate_action h]
    cases k with
    | ret => exact Mirrors.restore.follow fun _ => rfl
    | halt => exact (Mirrors.goTo endPosition).follow fun _ => rfl
    | clear => exact Mirrors.stop .notImplemented _
    | list => exact Mirrors.stop .notImplemented _
    | run => exact Mirrors.stop .notImplemented _

end LineBasic
