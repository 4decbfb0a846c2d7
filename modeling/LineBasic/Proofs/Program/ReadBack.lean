import LineBasic.Proofs.Arena.Layout
import LineBasic.Proofs.Program.Accessors
import LineBasic.Proofs.Program.Rendering

/-!
# Reading a program back

The plain lines of a program can be read off its arena: from the root down the children and references of the nodes,
with the literals at their tokens. What was written comes back.

## Main definitions

* `Program.readOperand`, `Program.readSum`: expressions, given how deep they are nested.
* `Program.readStmt`, `Program.readLine`, `Program.readLines`: statements, lines and programs.

## Main results

* `Expr.ShownIn.readsAt`, `Stmt.ShownIn.readStmt_eq`: what is shown at a node is read there.
* `Program.Means.readLines_eq`: the lines that a program means are read from it.
* `Program.readLines_parse_render`: lines that are written and parsed are read back.
-/

namespace LineBasic

namespace Program

variable (p : Program)

/-- The number at a token. -/
def readNumeral (t : TokenId) : Except Fault Numeral := do
  let n ← p.number t
  if h : n < maxLiteral + 1 then return ⟨n, h⟩ else throw .noValue

/-- The string at a token. -/
def readBody (t : TokenId) : Except Fault Body := do
  let s ← p.string t
  if h : s.all isStringChar then return ⟨s, h⟩ else throw .noValue

/-- A factor with its operator, given how operands are read. -/
def readFactor (operand : NodeId → Except Fault (PlainExpr .operand)) (i : NodeId) :
    Except Fault (Scale × PlainExpr .operand) := do
  let n ← p.node i
  match n.tag with
  | .factor o => return (o, ← operand (← reference n.lhs))
  | _ => throw .noValue

/-- A term with its sign. The operator of the first factor is a multiplication. -/
def readTerm (operand : NodeId → Except Fault (PlainExpr .operand)) (i : NodeId) :
    Except Fault (Sign × PlainExpr .product) := do
  let n ← p.node i
  match n.tag, ← (p.arena.children n).mapM (p.readFactor operand) with
  | .term s, (.times, a) :: more => return (s, .ofFactors a more)
  | _, _ => throw .noValue

/-- A whole expression. -/
def readSum (operand : NodeId → Except Fault (PlainExpr .operand)) (i : NodeId) :
    Except Fault (PlainExpr .sum) := do
  let n ← p.node i
  match n.tag, ← (p.arena.children n).mapM (p.readTerm operand) with
  | .expression, (s, q) :: more => return .ofTerms s q more
  | _, _ => throw .noValue

/-- A call of a function with some arguments. -/
def callOf : Tag → List (PlainExpr .sum) → Except Fault (PlainExpr .operand)
  | .builtin .abs, [e] => .ok (.abs () e)
  | .builtin .rnd, [e] => .ok (.rnd () e)
  | .builtin .mod, [e₁, e₂] => .ok (.mod () e₁ e₂)
  | _, _ => .error .noValue

/-- An operand, given how whole expressions are read. -/
def readOperandWith (sum : NodeId → Except Fault (PlainExpr .sum)) (i : NodeId) :
    Except Fault (PlainExpr .operand) := do
  let n ← p.node i
  match n.tag with
  | .var => return .var (← reference n.token >>= p.letter)
  | .number => return .number (← reference n.token >>= p.readNumeral)
  | .expression => return .group (← sum i)
  | .call =>
    let function ← reference n.token >>= p.token
    callOf function.tag (← (p.arena.children n).mapM sum)
  | _ => throw .noValue

/-- An operand with less than `depth` expressions inside one another. -/
def readOperand : (depth : Nat) → NodeId → Except Fault (PlainExpr .operand)
  | 0, _ => throw .tooDeep
  | depth + 1, i => p.readOperandWith (p.readSum (readOperand depth)) i

/-- An item of PRINT. -/
def readItem (depth : Nat) (i : NodeId) : Except Fault PlainItem := do
  let n ← p.node i
  match n.tag with
  | .string => return .text (← reference n.token >>= p.readBody)
  | _ => return .value (← p.readSum (p.readOperand depth) i)

/-- A variable of INPUT. -/
def readVariable (i : NodeId) : Except Fault Letter := do
  let n ← p.node i
  match n.tag with
  | .var => reference n.token >>= p.letter
  | _ => throw .noValue

/-- A statement with less than `depth` IF statements and expressions inside one another. -/
def readStmt : (depth : Nat) → NodeId → Except Fault PlainStmt
  | 0, _ => throw .tooDeep
  | depth + 1, i => do
    let sum := p.readSum (p.readOperand depth)
    let n ← p.node i
    match n.tag with
    | .print =>
      match ← (p.arena.children n).mapM (p.readItem depth) with
      | item :: more => return .print () item more
      | [] => throw .noValue
    | .input =>
      match ← (p.arena.children n).mapM p.readVariable with
      | v :: more => return .input () v more
      | [] => throw .noValue
    | .assign => return .assign (← reference n.token >>= p.letter) (← reference n.rhs >>= sum)
    | .branch =>
      let c ← reference n.lhs >>= p.node
      let operator ← reference c.token >>= p.token
      match c.tag, operator.tag with
      | .predicate, .comparison r =>
        return .branch () (← reference c.lhs >>= sum) r () (← reference c.rhs >>= sum)
          (← reference n.rhs >>= readStmt depth)
      | _, _ => throw .noValue
    | .goto => return .goto () (← reference n.lhs >>= sum)
    | .gosub => return .gosub () (← reference n.lhs >>= sum)
    | .action a => return .action () a
    | _ => throw .noValue

/-- A line. -/
def readLine (i : NodeId) : Except Fault PlainLine := do
  let n ← p.node i
  let body ← reference n.lhs >>= p.readStmt (Grammar.maxNesting + 1)
  match n.tag with
  | .nakedLine => return ⟨none, body⟩
  | .markedLine => return ⟨some (← reference n.token >>= p.readNumeral), body⟩
  | _ => throw .noValue

/-- The lines of the program. -/
def readLines : Except Fault (List PlainLine) := do
  let root ← p.node 0
  match root.tag with
  | .root => (p.arena.children root).mapM p.readLine
  | _ => throw .noValue

end Program

/-! ### Expressions -/

section Reading

variable {p : Program}

theorem Program.readNumeral_eq {t : TokenId} {n : Numeral} (h : LexemeAt p.lexemes t (·.IsNumeral n)) :
    p.readNumeral t = .ok n := by
  rw [readNumeral, number_eq h]
  show (if h : n.val < maxLiteral + 1 then _ else _ : Except Fault Numeral) = _
  rw [dif_pos n.isLt]
  rfl

theorem Program.readBody_eq {t : TokenId} {s : Body} (h : LexemeAt p.lexemes t (·.IsBody s)) :
    p.readBody t = .ok s := by
  rw [readBody, string_eq h]
  show (if h : s.val.all isStringChar then _ else _ : Except Fault Body) = _
  rw [dif_pos s.property]
  rfl

theorem mapM_concat_eq {α β : Type} {f : α → Except Fault β} {xs : List α} {x : α} {ys : List β} {y : β}
    (hxs : xs.mapM f = .ok ys) (hx : f x = .ok y) : (xs ++ [x]).mapM f = .ok (ys ++ [y]) := by
  rw [List.mapM_append, hxs]
  show (do
    let ys' ← [x].mapM f
    return ys ++ ys' : Except Fault (List β)) = _
  rw [List.mapM_cons, hx]
  rfl

theorem mapM_singleton_eq {α β : Type} {f : α → Except Fault β} {x : α} {y : β} (hx : f x = .ok y) :
    [x].mapM f = .ok [y] := by
  show ([] ++ [x]).mapM f = .ok ([] ++ [y])
  exact mapM_concat_eq rfl hx

/-- What is read from the nodes at which the members of a list are shown. -/
theorem mapM_eq_map {α β γ : Type} {R : β → α → Prop} {f : α → Except Fault γ} {g : β → γ} {xs : List α}
    {ys : List β} (h : List.Forall₂ R ys xs) (hf : ∀ y x, y ∈ ys → R y x → f x = .ok (g y)) :
    xs.mapM f = .ok (ys.map g) := by
  induction h with
  | nil => rfl
  | @cons y x ys xs hy _ ih =>
    rw [List.mapM_cons, hf y x List.mem_cons_self hy]
    show (do
      let zs ← xs.mapM f
      return g y :: zs : Except Fault (List γ)) = _
    rw [ih fun y x hmem => hf y x (List.mem_cons_of_mem _ hmem)]
    rfl

namespace Program

variable {operand : NodeId → Except Fault (PlainExpr .operand)} {sum : NodeId → Except Fault (PlainExpr .sum)}
  {i j k : NodeId} {ks : List NodeId}

theorem readFactor_eq {o : Scale} {a : PlainExpr .operand} (hk : p.arena.Has k ⟨.factor o, none, some j, none⟩)
    (hj : operand j = .ok a) : p.readFactor operand k = .ok (o, a) := by
  rw [readFactor, node_eq hk.2]
  show (do return (o, ← operand j) : Except Fault (Scale × PlainExpr .operand)) = _
  rw [hj]
  rfl

theorem readTerm_eq {s : Sign} {a : PlainExpr .operand} {more : List (Scale × PlainExpr .operand)}
    (hk : p.arena.Owns k (.term s) none ks) (hks : ks.mapM (p.readFactor operand) = .ok ((.times, a) :: more)) :
    p.readTerm operand k = .ok (s, .ofFactors a more) := by
  obtain ⟨⟨tag, token, lhs, rhs⟩, hn, rfl, -, -, rfl⟩ := hk
  rw [readTerm, node_eq hn.2]
  show (do
    match NodeTag.term s, ← (p.arena.children _).mapM (p.readFactor operand) with
    | .term s, (.times, a) :: more => return (s, .ofFactors a more)
    | _, _ => throw .noValue : Except Fault (Sign × PlainExpr .product)) = _
  rw [hks]
  rfl

theorem readSum_eq {s : Sign} {q : PlainExpr .product} {more : List (Sign × PlainExpr .product)}
    (hi : p.arena.Owns i .expression none ks) (hks : ks.mapM (p.readTerm operand) = .ok ((s, q) :: more)) :
    p.readSum operand i = .ok (.ofTerms s q more) := by
  obtain ⟨⟨tag, token, lhs, rhs⟩, hn, rfl, -, -, rfl⟩ := hi
  rw [readSum, node_eq hn.2]
  show (do
    match NodeTag.expression, ← (p.arena.children _).mapM (p.readTerm operand) with
    | .expression, (s, q) :: more => return .ofTerms s q more
    | _, _ => throw .noValue : Except Fault (PlainExpr .sum)) = _
  rw [hks]
  rfl

theorem readOperandWith_group {e : PlainExpr .sum} (hi : p.arena.Owns i .expression none ks)
    (he : sum i = .ok e) : p.readOperandWith sum i = .ok (.group e) := by
  obtain ⟨⟨tag, token, lhs, rhs⟩, hn, rfl, -⟩ := hi
  rw [readOperandWith, node_eq hn.2]
  show (do return .group (← sum i) : Except Fault (PlainExpr .operand)) = _
  rw [he]
  rfl

theorem readOperandWith_call {f : Builtin} {es : List (PlainExpr .sum)}
    (hi : p.arena.Calls p.lexemes i f ks) (hks : ks.mapM sum = .ok es) :
    p.readOperandWith sum i = callOf (.builtin f) es := by
  obtain ⟨t, ht, ⟨tag, token, lhs, rhs⟩, hn, rfl, rfl, -, rfl⟩ := hi
  obtain ⟨function, hfunction, htag⟩ := exists_token_tag ht
  rw [readOperandWith, node_eq hn.2]
  show (do
    let function ← p.token t
    callOf function.tag (← (p.arena.children _).mapM sum) : Except Fault (PlainExpr .operand)) = _
  rw [hfunction, ok_bind, htag, hks]
  rfl

/-- What is read of an expression: an operand at its node, the factors of a product and the terms of a sum. -/
def ReadsAt (p : Program) : {l : Level} → PlainExpr l → Placed l → Prop
  | .operand, e, i => ∀ depth, e.nesting < depth → p.readOperand depth i = .ok e
  | .product, e, ks => ∀ depth, e.nesting < depth → ∃ a more,
    ks.mapM (p.readFactor (p.readOperand depth)) = .ok ((.times, a) :: more) ∧ e = .ofFactors a more
  | .sum, e, ks => ∀ depth, e.nesting ≤ depth → ∃ s q more,
    ks.mapM (p.readTerm (p.readOperand depth)) = .ok ((s, q) :: more) ∧ e = .ofTerms s q more

theorem ReadsAt.wrap {e : PlainExpr .sum} {depth : Nat}
    (h : ∀ ks, e.ShownIn p.lexemes p.arena ks → p.ReadsAt e ks) (hi : e.WholeIn p.lexemes p.arena i)
    (hdepth : e.nesting ≤ depth) : p.readSum (p.readOperand depth) i = .ok e := by
  obtain ⟨ks, hks, hi⟩ := hi
  obtain ⟨s, q, more, hread, rfl⟩ := h ks hks depth hdepth
  exact readSum_eq hi hread

end Program

theorem Expr.ShownIn.readsAt {l : Level} {e : PlainExpr l} {r : Placed l} (h : e.ShownIn p.lexemes p.arena r) :
    p.ReadsAt e r := by
  induction e with
  | var v =>
    intro depth hdepth
    obtain ⟨t, ht, hi⟩ := h
    obtain ⟨d, rfl⟩ : ∃ d, depth = d + 1 := ⟨depth - 1, by omega⟩
    rw [Program.readOperand, Program.readOperandWith, Program.node_eq hi.2]
    show (do return .var (← p.letter t) : Except Fault (PlainExpr .operand)) = _
    rw [Program.letter_eq ht]
    rfl
  | number n =>
    intro depth hdepth
    obtain ⟨t, ht, hi⟩ := h
    obtain ⟨d, rfl⟩ : ∃ d, depth = d + 1 := ⟨depth - 1, by omega⟩
    rw [Program.readOperand, Program.readOperandWith, Program.node_eq hi.2]
    show (do return .number (← p.readNumeral t) : Except Fault (PlainExpr .operand)) = _
    rw [Program.readNumeral_eq ht]
    rfl
  | group e ih =>
    intro depth hdepth
    rw [Expr.nesting] at hdepth
    obtain ⟨d, rfl⟩ : ∃ d, depth = d + 1 := ⟨depth - 1, by omega⟩
    have he := Program.ReadsAt.wrap (fun _ => ih) h (Nat.le_of_lt_succ hdepth)
    obtain ⟨ks, -, hi⟩ := h
    exact Program.readOperandWith_group hi he
  | abs _ e ih =>
    intro depth hdepth
    rw [Expr.nesting] at hdepth
    obtain ⟨j, hj, hi⟩ := h
    obtain ⟨d, rfl⟩ : ∃ d, depth = d + 1 := ⟨depth - 1, by omega⟩
    have he := Program.ReadsAt.wrap (fun _ => ih) hj (Nat.le_of_lt_succ hdepth)
    exact Program.readOperandWith_call hi (mapM_singleton_eq he)
  | rnd _ e ih =>
    intro depth hdepth
    rw [Expr.nesting] at hdepth
    obtain ⟨j, hj, hi⟩ := h
    obtain ⟨d, rfl⟩ : ∃ d, depth = d + 1 := ⟨depth - 1, by omega⟩
    have he := Program.ReadsAt.wrap (fun _ => ih) hj (Nat.le_of_lt_succ hdepth)
    exact Program.readOperandWith_call hi (mapM_singleton_eq he)
  | mod _ e₁ e₂ ih₁ ih₂ =>
    intro depth hdepth
    rw [Expr.nesting] at hdepth
    obtain ⟨j₁, j₂, hj₁, hj₂, hi⟩ := h
    obtain ⟨d, rfl⟩ : ∃ d, depth = d + 1 := ⟨depth - 1, by omega⟩
    obtain ⟨hdepth₁, hdepth₂⟩ := Nat.max_le.1 (Nat.le_of_lt_succ hdepth)
    have he₁ := Program.ReadsAt.wrap (fun _ => ih₁) hj₁ hdepth₁
    have he₂ := Program.ReadsAt.wrap (fun _ => ih₂) hj₂ hdepth₂
    have hboth : ([j₁] ++ [j₂]).mapM (p.readSum (p.readOperand d)) = .ok ([e₁] ++ [e₂]) :=
      mapM_concat_eq (mapM_singleton_eq he₁) he₂
    exact Program.readOperandWith_call hi hboth
  | factor b ih =>
    intro depth hdepth
    obtain ⟨j, k, hj, hk, rfl⟩ := h
    exact ⟨b, [], mapM_singleton_eq (Program.readFactor_eq hk (ih hj depth hdepth)), rfl⟩
  | scale q o b ihq ihb =>
    intro depth hdepth
    rw [Expr.nesting] at hdepth
    obtain ⟨ks, j, k, hq, hj, hk, rfl⟩ := h
    -- The factors in front were read in their order, so the new one goes to the end of the list.
    obtain ⟨a, more, hread, rfl⟩ := ihq hq depth (by omega)
    refine ⟨a, more ++ [(o, b)], ?_, (Expr.ofFactors_concat a b o more).symm⟩
    exact mapM_concat_eq hread (Program.readFactor_eq hk (ihb hj depth (by omega)))
  | signed s q ih =>
    intro depth hdepth
    obtain ⟨ks, k, hq, hk, rfl⟩ := h
    obtain ⟨a, more, hread, rfl⟩ := ih hq depth hdepth
    exact ⟨s, _, [], mapM_singleton_eq (Program.readTerm_eq hk hread), rfl⟩
  | add e s q ihe ihq =>
    intro depth hdepth
    rw [Expr.nesting] at hdepth
    obtain ⟨ks₁, ks₂, k, he, hq, hk, rfl⟩ := h
    obtain ⟨s₁, q₁, more, hread, rfl⟩ := ihe he depth (by omega)
    obtain ⟨a, more', hread', rfl⟩ := ihq hq depth (by omega)
    refine ⟨s₁, q₁, more ++ [(s, _)], ?_, (Expr.ofTerms_concat s₁ s q₁ _ more).symm⟩
    exact mapM_concat_eq hread (Program.readTerm_eq hk hread')

theorem Expr.WholeIn.readSum_eq {e : PlainExpr .sum} {i : NodeId} {depth : Nat} (h : e.WholeIn p.lexemes p.arena i)
    (hdepth : e.nesting ≤ depth) : p.readSum (p.readOperand depth) i = .ok e :=
  Program.ReadsAt.wrap (fun _ => Expr.ShownIn.readsAt) h hdepth

/-! ### Statements and lines -/

theorem Item.ShownIn.readItem_eq {item : PlainItem} {i : NodeId} {depth : Nat}
    (h : item.ShownIn p.lexemes p.arena i) (hdepth : item.nesting ≤ depth) : p.readItem depth i = .ok item := by
  cases item with
  | text s =>
    obtain ⟨t, ht, hi⟩ := h
    rw [Program.readItem, Program.node_eq hi.2]
    show (do return .text (← p.readBody t) : Except Fault PlainItem) = _
    rw [Program.readBody_eq ht]
    rfl
  | value e =>
    have he := Expr.WholeIn.readSum_eq h hdepth
    obtain ⟨ks, -, ⟨tag, token, lhs, rhs⟩, hn, rfl, -⟩ := h
    rw [Program.readItem, Program.node_eq hn.2]
    show (do return .value (← p.readSum (p.readOperand depth) i) : Except Fault PlainItem) = _
    rw [he]
    rfl

theorem Letter.ShownIn.readVariable_eq {v : Letter} {i : NodeId} (h : v.ShownIn p.lexemes p.arena i) :
    p.readVariable i = .ok v := by
  obtain ⟨t, ht, hi⟩ := h
  rw [Program.readVariable, Program.node_eq hi.2]
  exact Program.letter_eq ht

theorem Program.readStmt_branch {e₁ e₂ : PlainExpr .sum} {r : Comparison} {body : PlainStmt} {depth : Nat}
    {t tr : TokenId} {i j₁ j₂ c b : NodeId} (hi : p.arena.Has i ⟨.branch, some t, some c, some b⟩)
    (hc : p.arena.Has c ⟨.predicate, some tr, some j₁, some j₂⟩)
    (htr : LexemeAt p.lexemes tr (·.HasTag (.comparison r)))
    (he₁ : p.readSum (p.readOperand depth) j₁ = .ok e₁) (he₂ : p.readSum (p.readOperand depth) j₂ = .ok e₂)
    (hbody : p.readStmt depth b = .ok body) : p.readStmt (depth + 1) i = .ok (.branch () e₁ r () e₂ body) := by
  obtain ⟨operator, hoperator, htag⟩ := exists_token_tag htr
  rw [readStmt, node_eq hi.2]
  show (do
    let c ← p.node c
    let operator ← reference c.token >>= p.token
    match c.tag, operator.tag with
    | .predicate, .comparison r =>
      return .branch () (← reference c.lhs >>= p.readSum (p.readOperand depth)) r ()
        (← reference c.rhs >>= p.readSum (p.readOperand depth)) (← p.readStmt depth b)
    | _, _ => throw .noValue : Except Fault PlainStmt) = _
  rw [node_eq hc.2, ok_bind]
  show (do
    let operator ← p.token tr
    match NodeTag.predicate, operator.tag with
    | .predicate, .comparison r =>
      return .branch () (← p.readSum (p.readOperand depth) j₁) r () (← p.readSum (p.readOperand depth) j₂)
        (← p.readStmt depth b)
    | _, _ => throw .noValue : Except Fault PlainStmt) = _
  rw [hoperator, ok_bind, htag, he₁, he₂, hbody]
  rfl

theorem Stmt.ShownIn.readStmt_eq {s : PlainStmt} {t : TokenId} {i : NodeId} {depth : Nat}
    (h : s.ShownIn p.lexemes p.arena t i) (hdepth : s.nesting < depth) : p.readStmt depth i = .ok s := by
  obtain ⟨d, rfl⟩ : ∃ d, depth = d + 1 := ⟨depth - 1, by omega⟩
  induction s generalizing t i d with
  | print _ item more =>
    obtain ⟨js, hjs, ⟨tag, token, lhs, rhs⟩, hn, rfl, -, -, rfl⟩ := h
    have hnesting : ∀ item' ∈ item :: more, item'.nesting ≤ d :=
      List.forall_mem_cons.2 (Stmt.nesting_print_le_iff.1 (Nat.le_of_lt_succ hdepth))
    have hitems := mapM_eq_map (g := id) hjs fun item' j hmem hj => hj.readItem_eq (hnesting item' hmem)
    rw [Program.readStmt, Program.node_eq hn.2]
    show (do
      match ← (p.arena.children _).mapM (p.readItem d) with
      | item :: more => return .print () item more
      | [] => throw .noValue : Except Fault PlainStmt) = _
    rw [hitems, List.map_id]
    rfl
  | input _ v more =>
    obtain ⟨js, hjs, ⟨tag, token, lhs, rhs⟩, hn, rfl, -, -, rfl⟩ := h
    have hvs := mapM_eq_map (g := id) hjs fun v j _ hj => Letter.ShownIn.readVariable_eq hj
    rw [Program.readStmt, Program.node_eq hn.2]
    show (do
      match ← (p.arena.children _).mapM p.readVariable with
      | v :: more => return .input () v more
      | [] => throw .noValue : Except Fault PlainStmt) = _
    rw [hvs, List.map_id]
    rfl
  | assign v e =>
    obtain ⟨j, hj, ht, hi⟩ := h
    have he := hj.readSum_eq (Nat.le_of_lt_succ hdepth)
    rw [Program.readStmt, Program.node_eq hi.2]
    show (do return .assign (← p.letter t) (← p.readSum (p.readOperand d) j) : Except Fault PlainStmt) = _
    rw [Program.letter_eq ht, he]
    rfl
  | branch _ e₁ r _ e₂ body ih =>
    obtain ⟨j₁, j₂, tr, c, tb, b, hj₁, hj₂, htr, hc, hb, hi⟩ := h
    rw [Stmt.nesting] at hdepth
    have hdepth₁ : e₁.nesting ≤ d := by omega
    have hdepth₂ : e₂.nesting ≤ d := by omega
    have he₁ := hj₁.readSum_eq hdepth₁
    have he₂ := hj₂.readSum_eq hdepth₂
    -- A statement has a level of its own, so there is one left for the body.
    obtain ⟨d', rfl⟩ : ∃ d', d = d' + 1 := ⟨d - 1, by omega⟩
    have hbody := ih hb d' (by omega)
    exact Program.readStmt_branch hi hc htr he₁ he₂ hbody
  | goto _ e =>
    obtain ⟨j, hj, hi⟩ := h
    have he := hj.readSum_eq (Nat.le_of_lt_succ hdepth)
    rw [Program.readStmt, Program.node_eq hi.2]
    show (do return .goto () (← p.readSum (p.readOperand d) j) : Except Fault PlainStmt) = _
    rw [he]
    rfl
  | gosub _ e =>
    obtain ⟨j, hj, hi⟩ := h
    have he := hj.readSum_eq (Nat.le_of_lt_succ hdepth)
    rw [Program.readStmt, Program.node_eq hi.2]
    show (do return .gosub () (← p.readSum (p.readOperand d) j) : Except Fault PlainStmt) = _
    rw [he]
    rfl
  | action _ a =>
    rw [Program.readStmt, Program.node_eq h.2]
    rfl

theorem Clause.ShownIn.readLine_eq {c : Clause} {i : NodeId} (h : c.ShownIn p.lexemes p.arena i)
    (hnesting : c.line.body.nesting ≤ Grammar.maxNesting) : p.readLine i = .ok c.line := by
  obtain ⟨token, number, body⟩ := c
  obtain ⟨b, hb, hi⟩ := h
  have hbody := hb.readStmt_eq (Nat.lt_succ_of_le hnesting)
  cases number with
  | none =>
    rw [Program.readLine, Program.node_eq hi.2]
    show (do
      let body ← p.readStmt (Grammar.maxNesting + 1) b
      return ⟨none, body⟩ : Except Fault PlainLine) = _
    rw [hbody]
    rfl
  | some n =>
    obtain ⟨t, ht, hi⟩ := hi
    rw [Program.readLine, Program.node_eq hi.2]
    show (do
      let body ← p.readStmt (Grammar.maxNesting + 1) b
      return ⟨some (← p.readNumeral t), body⟩ : Except Fault PlainLine) = _
    rw [hbody, Program.readNumeral_eq ht]
    rfl

/-- The lines that a parsed program means are read from it. -/
theorem Program.Means.readLines_eq {clauses : List Clause} (h : p.Means clauses) :
    p.readLines = .ok (clauses.map Clause.line) := by
  have hnesting := h.nesting_le
  obtain ⟨lines, ⟨front, eof, -, -, -, harena⟩, hclauses⟩ := h
  obtain ⟨-, ⟨tag, token, lhs, rhs⟩, hroot, rfl, -, -, hlines⟩ := harena ▸ Arena.shows_ofLines hclauses
  rw [readLines, node_eq hroot]
  show (p.arena.children _).mapM p.readLine = _
  exact mapM_eq_map hlines fun c i hmem hi => hi.readLine_eq (hnesting c hmem)

end Reading

/-- Plain lines within the limit on nesting that are written and parsed are read back. -/
theorem Program.readLines_parse_render (style : Style) (lines : List PlainLine)
    (hlines : ∀ line ∈ lines, line.body.nesting ≤ Grammar.maxNesting) :
    ∃ p, Program.parse (render style lines) = .ok p ∧ p.readLines = .ok lines := by
  obtain ⟨p, clauses, hp, hmeans, rfl⟩ := exists_parse_render style hlines
  exact ⟨p, hp, hmeans.readLines_eq⟩

theorem Program.readLines_parse_print :
    ∃ p, Program.parse "10 PRINT \"A\" , - B * 2\n".toList = .ok p ∧ p.readLines = .ok [⟨some 10, .print ()
      (.text ⟨['A'], rfl⟩) [.value (.signed .minus (.scale (.factor (.var ⟨1, by decide⟩)) .times (.number 2)))]⟩] := by
  have hrender : render ⟨false, false⟩ [⟨some 10, .print () (.text ⟨['A'], rfl⟩)
      [.value (.signed .minus (.scale (.factor (.var ⟨1, by decide⟩)) .times (.number 2)))]⟩] =
      "10 PRINT \"A\" , - B * 2\n".toList := by
    decide +kernel
  rw [← hrender]
  exact Program.readLines_parse_render ⟨false, false⟩ _ (by decide)

end LineBasic
