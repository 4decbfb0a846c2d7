import LineBasic.Proofs.Program.Words

/-!
# Writing plain lines

Plain lines are written word by word, with single blanks between the words and a line end behind each line. The
text that comes about is a program, and the program means the lines that were written.

## Main definitions

* `Style`: what is left open when lines are written.
* `Expr.words`, `Stmt.words`, `Line.words`: the words of trees.
* `render`: the text of plain lines.
* `Written`: leaves at which words stand.

## Main results

* `cut_render`: the text is cut into its words.
* `Expr.exists_spelledBy`, `Stmt.exists_spelledBy`: the words of a tree spell a tree that means it.
* `Program.exists_parse_render`: the text is a program.
-/

namespace LineBasic

open Lexeme

/-- What is left open when lines are written: whether a plus is put in front of a sum that starts without a minus,
and whether not equal is written the other way round. -/
structure Style where
  plus : Bool
  swapped : Bool
  deriving DecidableEq, Repr

/-- The words of a relational operator. -/
def Comparison.word (style : Style) (r : Comparison) : Lexeme :=
  if r = .ne ∧ style.swapped then (.comparison .ne, ['>', '<']) else .ofTag (.comparison r)

theorem Comparison.word_tag (style : Style) (r : Comparison) : (r.word style).1 = .comparison r := by
  unfold word
  split
  · rename_i h
    rw [h.1]
  · rfl

section Words

variable (style : Style)

/-- The words of an expression. -/
def Expr.words : {l : Level} → PlainExpr l → List Lexeme
  | _, .var v => [ofLetter v]
  | _, .number n => [ofNumeral n]
  | _, .group e => ofTag .lparen :: e.words ++ [ofTag .rparen]
  | _, .abs _ e => ofTag (.builtin .abs) :: ofTag .lparen :: e.words ++ [ofTag .rparen]
  | _, .rnd _ e => ofTag (.builtin .rnd) :: ofTag .lparen :: e.words ++ [ofTag .rparen]
  | _, .mod _ e₁ e₂ =>
    ofTag (.builtin .mod) :: ofTag .lparen :: e₁.words ++ ofTag .comma :: e₂.words ++ [ofTag .rparen]
  | _, .factor a => a.words
  | _, .scale p o a => p.words ++ ofTag (.scale o) :: a.words
  | _, .signed s p => if s = .plus ∧ style.plus = false then p.words else ofTag (.sign s) :: p.words
  | _, .add e s p => e.words ++ ofTag (.sign s) :: p.words

/-- The words of an item of PRINT. -/
def Item.words : PlainItem → List Lexeme
  | .text s => [ofBody s]
  | .value e => e.words style

/-- Words behind commas. -/
def behindCommas {α : Type} (words : α → List Lexeme) (as : List α) : List Lexeme :=
  as.flatMap fun a => ofTag .comma :: words a

/-- The words of a statement. -/
def Stmt.words : PlainStmt → List Lexeme
  | .print _ item more => ofTag (.keyword .print) :: item.words style ++ behindCommas (Item.words style) more
  | .input _ v more => ofTag (.keyword .input) :: ofLetter v :: behindCommas (fun v => [ofLetter v]) more
  | .assign v e => ofTag (.keyword .let) :: ofLetter v :: ofTag (.comparison .eq) :: e.words style
  | .branch _ e₁ r _ e₂ body =>
    ofTag (.keyword .if) :: e₁.words style ++ r.word style :: e₂.words style ++ ofTag (.keyword .then) :: body.words
  | .goto _ e => ofTag (.keyword .goto) :: e.words style
  | .gosub _ e => ofTag (.keyword .gosub) :: e.words style
  | .action _ a => [ofTag (.keyword a.keyword)]

/-- The words of a line, without its end. -/
def Line.words (line : PlainLine) : List Lexeme :=
  (line.number.map ofNumeral).toList ++ line.body.words style

/-- The text of some words: single blanks between them, and a line end behind the last one. -/
def lineText (ws : List Lexeme) : List Char :=
  [' '].intercalate (ws.map Prod.snd) ++ ['\n']

/-- The text of plain lines. -/
def render (lines : List PlainLine) : List Char :=
  lines.flatMap fun line => lineText (line.words style)

/-- The words of plain lines, line ends included. -/
def programWords (lines : List PlainLine) : List Lexeme :=
  lines.flatMap fun line => line.words style ++ [ofTag .eol]

end Words

/-! ### The words are closed -/

section Closed

variable (style : Style)

theorem closed_sign (s : Sign) : (ofTag (.sign s)).Closed := by
  cases s <;> exact closed_symbol (by decide)

theorem closed_scale (o : Scale) : (ofTag (.scale o)).Closed := by
  cases o <;> exact closed_symbol (by decide)

theorem closed_lparen : (ofTag .lparen).Closed := closed_symbol (by decide)

theorem closed_rparen : (ofTag .rparen).Closed := closed_symbol (by decide)

theorem closed_comma : (ofTag .comma).Closed := closed_symbol (by decide)

theorem Comparison.closed_word (r : Comparison) : (r.word style).Closed := by
  unfold word
  split
  · refine ⟨by decide, fun c r hc => ⟨gap_eq_zero (by decide) (startsRemark_eq_false (by decide)), ?_⟩⟩
    rcases hc with rfl | rfl <;> rfl
  · cases r <;> exact closed_symbol (by decide)

/-- All of the words are closed. -/
def AllClosed (ws : List Lexeme) : Prop := ∀ w ∈ ws, w.Closed

@[simp] theorem allClosed_nil : AllClosed [] := by simp [AllClosed]

@[simp] theorem allClosed_cons {w : Lexeme} {ws : List Lexeme} : AllClosed (w :: ws) ↔ w.Closed ∧ AllClosed ws :=
  List.forall_mem_cons

@[simp] theorem allClosed_append {ws ws' : List Lexeme} :
    AllClosed (ws ++ ws') ↔ AllClosed ws ∧ AllClosed ws' :=
  List.forall_mem_append

theorem Expr.closed_words {l : Level} (e : PlainExpr l) : AllClosed (e.words style) := by
  induction e with
  | var v => simp [words, closed_ofLetter]
  | number n => simp [words, closed_ofNumeral]
  | group e ih => simp [words, closed_lparen, closed_rparen, ih]
  | abs _ e ih => simp [words, closed_builtin, closed_lparen, closed_rparen, ih]
  | rnd _ e ih => simp [words, closed_builtin, closed_lparen, closed_rparen, ih]
  | mod _ e₁ e₂ ih₁ ih₂ =>
    simp [words, closed_builtin, closed_lparen, closed_rparen, closed_comma, ih₁, ih₂]
  | factor a ih => exact ih
  | scale p o a ihp iha => simp [words, closed_scale, ihp, iha]
  | signed s p ih =>
    rw [words]
    split
    · exact ih
    · exact allClosed_cons.2 ⟨closed_sign s, ih⟩
  | add e s p ihe ihp => simp [words, closed_sign, ihe, ihp]

theorem Item.closed_words (item : PlainItem) : AllClosed (item.words style) := by
  cases item with
  | text s => simp [words, closed_ofBody]
  | value e => exact e.closed_words style

theorem closed_behindCommas {α : Type} {words : α → List Lexeme} (h : ∀ a, AllClosed (words a)) (as : List α) :
    AllClosed (behindCommas words as) := by
  intro w hw
  obtain ⟨a, -, hw⟩ := List.mem_flatMap.1 hw
  rcases List.mem_cons.1 hw with rfl | hw
  · exact closed_comma
  · exact h a w hw

theorem Stmt.closed_words (s : PlainStmt) : AllClosed (s.words style) := by
  induction s with
  | print _ item more =>
    simp [words, closed_keyword, item.closed_words, closed_behindCommas (Item.closed_words style) more]
  | input _ v more =>
    have hmore : AllClosed (behindCommas (fun v => [ofLetter v]) more) :=
      closed_behindCommas (fun v => by simp [closed_ofLetter]) more
    simp [words, closed_keyword, closed_ofLetter, hmore]
  | assign v e =>
    have heq : (ofTag (.comparison .eq)).Closed := closed_symbol (by decide)
    simp [words, closed_keyword, closed_ofLetter, heq, e.closed_words]
  | branch _ e₁ r _ e₂ body ih =>
    simp [words, closed_keyword, r.closed_word, e₁.closed_words, e₂.closed_words, ih]
  | goto _ e => simp [words, closed_keyword, e.closed_words]
  | gosub _ e => simp [words, closed_keyword, e.closed_words]
  | action _ a => simp [words, closed_keyword]

theorem Line.closed_words (line : PlainLine) : AllClosed (line.words style) := by
  obtain ⟨number, body⟩ := line
  cases number with
  | none => exact body.closed_words style
  | some n => exact allClosed_cons.2 ⟨closed_ofNumeral n, body.closed_words style⟩

theorem cut_lineText {ws ws' : List Lexeme} {r : List Char} (hws : AllClosed ws) (h : Cut r ws') :
    Cut (lineText ws ++ r) (ws ++ ofTag .eol :: ws') := by
  induction ws with
  | nil => exact h.line
  | cons w ws ih =>
    obtain ⟨hw, hws⟩ := allClosed_cons.1 hws
    cases ws with
    | nil => simpa [lineText] using Cut.word hw (.inr rfl) h.line
    | cons w' ws => simpa [lineText] using Cut.word hw (.inl rfl) (ih hws).blank

/-- The text of plain lines is cut into their words. -/
theorem cut_render (lines : List PlainLine) : Cut (render style lines) (programWords style lines) := by
  induction lines with
  | nil => exact .nil
  | cons line lines ih =>
    simpa [render, programWords] using cut_lineText (line.closed_words style) ih

end Closed

/-! ### What words spell -/

/-- The leaves have the tags of the words, and the words stand at their positions. -/
def Written (ws : List Lexeme) (ls : List Leaf) (words : List Lexeme) : Prop :=
  List.Forall₂ (fun l w => ws[l.2]? = some w ∧ l.1 = w.1) ls words

section Spelled

variable {ws words words' : List Lexeme} {ls : List Leaf} {style : Style}

@[simp] theorem written_nil : Written ws ls [] ↔ ls = [] := List.forall₂_nil_right_iff

@[simp] theorem written_cons {w : Lexeme} : Written ws ls (w :: words) ↔
    ∃ i, ws[i]? = some w ∧ ∃ ls', Written ws ls' words ∧ ls = (w.1, i) :: ls' := by
  rw [Written, List.forall₂_cons_right_iff]
  constructor
  · rintro ⟨⟨t, i⟩, ls', ⟨hi, rfl⟩, hls, rfl⟩
    exact ⟨i, hi, ls', hls, rfl⟩
  · rintro ⟨i, hi, ls', hls, rfl⟩
    exact ⟨(w.1, i), ls', ⟨hi, rfl⟩, hls, rfl⟩

@[simp] theorem written_append : Written ws ls (words ++ words') ↔
    ∃ ls₁, Written ws ls₁ words ∧ ∃ ls₂, Written ws ls₂ words' ∧ ls = ls₁ ++ ls₂ :=
  forall₂_append_right_iff

theorem LexemeAt.ofTag {i : TokenId} {t : Tag} (h : ws[i]? = some (ofTag t)) : LexemeAt ws i (·.HasTag t) :=
  ⟨_, h, rfl⟩

/-- The words of an expression spell one that means it. -/
theorem Expr.exists_spelledBy {l : Level} {e : PlainExpr l} (h : Written ws ls (e.words style)) :
    ∃ e' : ParsedExpr l, e'.SpelledBy ls ∧ e'.Means ws e := by
  induction e generalizing ls with
  | var v =>
    simp only [words, written_cons, written_nil] at h
    obtain ⟨i, hi, _, rfl, rfl⟩ := h
    exact ⟨_, .var i, .var ⟨_, hi, rfl⟩⟩
  | number n =>
    simp only [words, written_cons, written_nil] at h
    obtain ⟨i, hi, _, rfl, rfl⟩ := h
    exact ⟨_, .number i, .number ⟨_, hi, isNumeral_ofNumeral n⟩⟩
  | group e ih =>
    simp only [words, List.cons_append, written_cons, written_append, written_nil] at h
    obtain ⟨i, -, _, ⟨ls, he, _, ⟨j, -, _, rfl, rfl⟩, rfl⟩, rfl⟩ := h
    obtain ⟨e', he', hmeans⟩ := ih he
    exact ⟨_, .group i j he', .group hmeans⟩
  | abs _ e ih =>
    simp only [words, List.cons_append, written_cons, written_append, written_nil] at h
    obtain ⟨m, hm, _, ⟨i, -, _, ⟨ls, he, _, ⟨j, -, _, rfl, rfl⟩, rfl⟩, rfl⟩, rfl⟩ := h
    obtain ⟨e', he', hmeans⟩ := ih he
    exact ⟨_, .abs m i j he', .abs (.ofTag hm) hmeans⟩
  | rnd _ e ih =>
    simp only [words, List.cons_append, written_cons, written_append, written_nil] at h
    obtain ⟨m, hm, _, ⟨i, -, _, ⟨ls, he, _, ⟨j, -, _, rfl, rfl⟩, rfl⟩, rfl⟩, rfl⟩ := h
    obtain ⟨e', he', hmeans⟩ := ih he
    exact ⟨_, .rnd m i j he', .rnd (.ofTag hm) hmeans⟩
  | mod _ e₁ e₂ ih₁ ih₂ =>
    simp only [words, List.cons_append, written_cons, written_append, written_nil] at h
    obtain ⟨m, hm, _, ⟨i, -, _, ⟨_, ⟨ls₁, he₁, _, ⟨j, -, ls₂, he₂, rfl⟩, rfl⟩, _, ⟨k, -, _, rfl, rfl⟩, rfl⟩, rfl⟩,
      rfl⟩ := h
    obtain ⟨e₁', he₁', hmeans₁⟩ := ih₁ he₁
    obtain ⟨e₂', he₂', hmeans₂⟩ := ih₂ he₂
    exact ⟨_, .mod m i j k he₁' he₂', .mod (.ofTag hm) hmeans₁ hmeans₂⟩
  | factor a ih =>
    obtain ⟨a', ha', hmeans⟩ := ih h
    exact ⟨_, .factor ha', .factor hmeans⟩
  | scale p o a ihp iha =>
    simp only [words, written_cons, written_append] at h
    obtain ⟨ls, hp, _, ⟨i, -, ls', ha, rfl⟩, rfl⟩ := h
    obtain ⟨p', hp', hpmeans⟩ := ihp hp
    obtain ⟨a', ha', hameans⟩ := iha ha
    exact ⟨_, .scale o i hp' ha', .scale o hpmeans hameans⟩
  | signed s p ih =>
    -- Whether a plus in front is written is a matter of style.
    rw [words] at h
    split at h
    · rename_i hs
      obtain ⟨p', hp', hmeans⟩ := ih h
      rw [hs.1]
      exact ⟨_, .unsigned hp', .signed .plus hmeans⟩
    · simp only [written_cons] at h
      obtain ⟨i, -, ls, hp, rfl⟩ := h
      obtain ⟨p', hp', hmeans⟩ := ih hp
      exact ⟨_, .signed s i hp', .signed s hmeans⟩
  | add e s p ihe ihp =>
    simp only [words, written_cons, written_append] at h
    obtain ⟨ls, he, _, ⟨i, -, ls', hp, rfl⟩, rfl⟩ := h
    obtain ⟨e', he', hemeans⟩ := ihe he
    obtain ⟨p', hp', hpmeans⟩ := ihp hp
    exact ⟨_, .add s i he' hp', .add s hemeans hpmeans⟩

theorem Item.exists_spelledBy {item : PlainItem} (h : Written ws ls (item.words style)) :
    ∃ item' : ParsedItem, item'.SpelledBy ls ∧ item'.Means ws item := by
  cases item with
  | text s =>
    simp only [words, written_cons, written_nil] at h
    obtain ⟨i, hi, _, rfl, rfl⟩ := h
    exact ⟨_, .text i, .text ⟨_, hi, rfl⟩⟩
  | value e =>
    obtain ⟨e', he', hmeans⟩ := Expr.exists_spelledBy h
    exact ⟨_, .value he', .value hmeans⟩

theorem exists_variableSpelledBy {v : Letter} (h : Written ws ls [ofLetter v]) :
    ∃ i, VariableSpelledBy i ls ∧ VariableMeans ws i v := by
  simp only [written_cons, written_nil] at h
  obtain ⟨i, hi, _, rfl, rfl⟩ := h
  exact ⟨i, rfl, _, hi, rfl⟩

theorem exists_listSpelledBy {α β : Type} {wordsOf : β → List Lexeme} {spelled : α → List Leaf → Prop}
    {means : α → β → Prop} (hspelled : ∀ b ls, Written ws ls (wordsOf b) → ∃ a, spelled a ls ∧ means a b)
    {bs : List β} (h : Written ws ls (behindCommas wordsOf bs)) :
    ∃ as, ListSpelledBy (Behind .comma spelled) as ls ∧ List.Forall₂ means as bs := by
  induction bs generalizing ls with
  | nil =>
    obtain rfl := written_nil.1 h
    exact ⟨[], .nil, .nil⟩
  | cons b bs ih =>
    rw [behindCommas, List.flatMap_cons, List.cons_append] at h
    simp only [written_cons, written_append] at h
    obtain ⟨i, -, _, ⟨ls, hb, ls', hbs, rfl⟩, rfl⟩ := h
    obtain ⟨a, ha, hmeans⟩ := hspelled b ls hb
    obtain ⟨as, has, hmeans'⟩ := ih hbs
    exact ⟨a :: as, .cons ⟨i, ls, rfl, ha⟩ has, .cons hmeans hmeans'⟩

/-- The words of a statement spell one that means it. -/
theorem Stmt.exists_spelledBy {s : PlainStmt} (h : Written ws ls (s.words style)) :
    ∃ s' : ParsedStmt, s'.SpelledBy ls ∧ s'.Means ws s := by
  induction s generalizing ls with
  | print _ item more =>
    simp only [words, List.cons_append, written_cons, written_append] at h
    obtain ⟨m, hm, _, ⟨ls, hitem, ls', hmore, rfl⟩, rfl⟩ := h
    obtain ⟨item', hitem', hmeans⟩ := Item.exists_spelledBy hitem
    obtain ⟨more', hmore', hmeans'⟩ := exists_listSpelledBy (fun _ _ => Item.exists_spelledBy) hmore
    exact ⟨_, .print m hitem' hmore', .print (.ofTag hm) hmeans hmeans'⟩
  | input _ v more =>
    simp only [words, written_cons] at h
    obtain ⟨m, hm, _, ⟨i, hi, ls, hmore, rfl⟩, rfl⟩ := h
    obtain ⟨more', hmore', hmeans⟩ := exists_listSpelledBy (fun _ _ => exists_variableSpelledBy) hmore
    have hv : VariableSpelledBy i [(.var, i)] := rfl
    exact ⟨_, .input m hv hmore', .input (.ofTag hm) ⟨_, hi, rfl⟩ hmeans⟩
  | assign v e =>
    simp only [words, written_cons] at h
    obtain ⟨i, -, _, ⟨k, hk, _, ⟨j, -, ls, he, rfl⟩, rfl⟩, rfl⟩ := h
    obtain ⟨e', he', hmeans⟩ := Expr.exists_spelledBy he
    exact ⟨_, .assign i j he', .assign ⟨_, hk, rfl⟩ hmeans⟩
  | branch _ e₁ r _ e₂ body ih =>
    simp only [words, List.cons_append, written_cons, written_append, r.word_tag] at h
    obtain ⟨m, hm, _, ⟨_, ⟨ls₁, he₁, _, ⟨k, hk, ls₂, he₂, rfl⟩, rfl⟩, _, ⟨i, -, ls, hbody, rfl⟩, rfl⟩, rfl⟩ := h
    obtain ⟨e₁', he₁', hmeans₁⟩ := Expr.exists_spelledBy he₁
    obtain ⟨e₂', he₂', hmeans₂⟩ := Expr.exists_spelledBy he₂
    obtain ⟨body', hbody', hmeans⟩ := ih hbody
    exact ⟨_, .branch m r k i he₁' he₂' hbody', .branch (.ofTag hm) ⟨_, hk, r.word_tag style⟩ hmeans₁ hmeans₂ hmeans⟩
  | goto _ e =>
    simp only [words, written_cons] at h
    obtain ⟨m, hm, ls, he, rfl⟩ := h
    obtain ⟨e', he', hmeans⟩ := Expr.exists_spelledBy he
    exact ⟨_, .goto m he', .goto (.ofTag hm) hmeans⟩
  | gosub _ e =>
    simp only [words, written_cons] at h
    obtain ⟨m, hm, ls, he, rfl⟩ := h
    obtain ⟨e', he', hmeans⟩ := Expr.exists_spelledBy he
    exact ⟨_, .gosub m he', .gosub (.ofTag hm) hmeans⟩
  | action _ a =>
    simp only [words, written_cons, written_nil] at h
    obtain ⟨m, hm, _, rfl, rfl⟩ := h
    exact ⟨_, .action m a, .action (.ofTag hm)⟩

theorem Line.exists_spelledBy {line : PlainLine} (h : Written ws ls (line.words style)) :
    ∃ line' : ParsedLine, Grammar.LineSpelledBy (some line') ls ∧ line'.Means ws line := by
  obtain ⟨number, body⟩ := line
  cases number with
  | none =>
    obtain ⟨body', hbody', hmeans⟩ := Stmt.exists_spelledBy (s := body) h
    exact ⟨_, .naked hbody', .naked hmeans⟩
  | some n =>
    obtain ⟨i, hi, ls, hbody, rfl⟩ := written_cons.1 h
    obtain ⟨body', hbody', hmeans⟩ := Stmt.exists_spelledBy hbody
    exact ⟨_, .marked i hbody', .marked ⟨_, hi, isNumeral_ofNumeral n⟩ hmeans⟩

/-- The words of plain lines spell lines that mean them. -/
theorem exists_spelledBy {lines : List PlainLine} (h : Written ws ls (programWords style lines)) :
    ∃ parsed : List ParsedLine, Grammar.SpelledBy parsed ls ∧ List.Forall₂ (Line.Means ws) parsed lines := by
  induction lines generalizing ls with
  | nil =>
    obtain rfl := written_nil.1 h
    exact ⟨[], .nil, .nil⟩
  | cons line lines ih =>
    rw [programWords, List.flatMap_cons, List.append_assoc, List.singleton_append] at h
    simp only [written_cons, written_append] at h
    obtain ⟨ls, hline, _, ⟨i, -, ls', hlines, rfl⟩, rfl⟩ := h
    obtain ⟨line', hline', hmeans⟩ := Line.exists_spelledBy hline
    obtain ⟨parsed, hparsed, hmeans'⟩ := ih hlines
    exact ⟨line' :: parsed, .line i hline' hparsed, .cons hmeans hmeans'⟩

end Spelled

theorem written_zipIdx (front words rest : List Lexeme) :
    Written (front ++ words ++ rest) ((words.map Prod.fst).zipIdx front.length) words := by
  induction words generalizing front with
  | nil => exact .nil
  | cons w words ih =>
    refine .cons ⟨?_, rfl⟩ ?_
    · simp
    · have h := ih (front ++ [w])
      rwa [List.append_assoc front, List.singleton_append, List.length_append] at h

theorem exists_clauses {ws : List Lexeme} {parsed : List ParsedLine} {lines : List PlainLine}
    (h : List.Forall₂ (Line.Means ws) parsed lines) :
    ∃ clauses, List.Forall₂ (Clause.MeantBy ws) parsed clauses ∧ clauses.map Clause.line = lines := by
  induction h with
  | nil => exact ⟨[], .nil, rfl⟩
  | @cons line' line parsed lines hline _ ih =>
    obtain ⟨clauses, hclauses, hlines⟩ := ih
    exact ⟨⟨line'.body.blame, line⟩ :: clauses, .cons ⟨hline, rfl⟩ hclauses, congrArg (line :: ·) hlines⟩

theorem nesting_le_of_means {ws : List Lexeme} {parsed : List ParsedLine} {lines : List PlainLine} {limit : Nat}
    (h : List.Forall₂ (Line.Means ws) parsed lines) (hlines : ∀ line ∈ lines, line.body.nesting ≤ limit) :
    ∀ line ∈ parsed, line.body.nesting ≤ limit := by
  induction h with
  | nil => simp
  | cons hline _ ih =>
    obtain ⟨hhead, htail⟩ := List.forall_mem_cons.1 hlines
    exact List.forall_mem_cons.2 ⟨hline.nesting ▸ hhead, ih htail⟩

/-- The text of plain lines within the limit on nesting is a program, and it means these lines. -/
theorem Program.exists_parse_render (style : Style) {lines : List PlainLine}
    (hlines : ∀ line ∈ lines, line.body.nesting ≤ Grammar.maxNesting) :
    ∃ p clauses, Program.parse (render style lines) = .ok p ∧ p.Means clauses ∧ clauses.map Clause.line = lines := by
  -- The text is scanned into the words that it was made of, and these spell lines that mean the given ones.
  obtain ⟨front, eof, hscan, hwords⟩ := (cut_render style lines).exists_scan_eq
  have htags : front.map Token.tag = (programWords style lines).map Prod.fst := by
    rw [← hwords, lexemesOf, List.map_map]
    rfl
  have hwritten := written_zipIdx [] (programWords style lines) (lexemesOf (render style lines) [eof])
  obtain ⟨parsed, hparsed, hmeans⟩ := exists_spelledBy hwritten
  obtain ⟨clauses, hclauses, rfl⟩ := exists_clauses hmeans
  let p : Program := ⟨render style (clauses.map Clause.line), (front ++ [eof]).toArray, Arena.ofLines parsed⟩
  have hlexemes : p.lexemes = programWords style (clauses.map Clause.line) ++
      lexemesOf (render style (clauses.map Clause.line)) [eof] := by
    rw [← hwords]
    exact List.map_append
  have hderived : p.DerivedFrom parsed :=
    ⟨front, eof, hscan, rfl, ⟨htags ▸ hparsed, nesting_le_of_means hmeans hlines⟩, rfl⟩
  refine ⟨p, clauses, Program.parse_eq_ok_iff.2 ⟨rfl, parsed, hderived⟩, ⟨parsed, hderived, ?_⟩, rfl⟩
  rw [hlexemes]
  exact hclauses

end LineBasic
