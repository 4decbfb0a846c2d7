import LineBasic.Proofs.Grammar.Complaint
import LineBasic.Proofs.Grammar.Prediction

/-!
# Syntax errors are found at the first impossible token

The tags in front of the token that a syntax error names can begin a sentence of the grammar. Together with this
token they cannot, and what the error asks for instead can stand there. If expressions and IF statements are nested
too deep, the tags in front of the token can already begin no sentence that keeps to the limit.

## Main definitions

* `Grammar.Sentence`: a program of any nesting, with the end of the text.
* `Grammar.LimitedSentence`: one within the limit on nesting.
* `Grammar.Begins`: the tags are the beginning of such a list.

## Main results

* `Grammar.parse_error_located`: where a syntax error stands.
-/

namespace LineBasic

/-- Behind each THEN comes a tag with which a statement can begin. -/
def ThenStarts : List Leaf → Prop
  | [] => True
  | l :: ls => (l.1 = .keyword .then → ∃ l' ∈ ls.head?, l'.1.StartsStatement) ∧ ThenStarts ls

namespace ThenStarts

variable {ls ls' : List Leaf}

theorem append (h : ThenStarts ls) (h' : ThenStarts ls') : ThenStarts (ls ++ ls') := by
  induction ls with
  | nil => exact h'
  | cons l ls ih =>
    refine ⟨fun hl => ?_, ih h.2⟩
    obtain ⟨l', hl', hstarts⟩ := h.1 hl
    exact ⟨l', by simp [List.head?_append, Option.mem_def.1 hl'], hstarts⟩

theorem of_append_right (h : ThenStarts (ls ++ ls')) : ThenStarts ls' := by
  induction ls with
  | nil => exact h
  | cons l ls ih => exact ih h.2

end ThenStarts

/-- No leaf is a reserved word, other than the name of a function. -/
def KeywordFree (ls : List Leaf) : Prop := ∀ l ∈ ls, ∀ k, l.1 ≠ .keyword k

@[simp] theorem keywordFree_nil : KeywordFree [] := by simp [KeywordFree]

@[simp] theorem keywordFree_cons {l : Leaf} {ls : List Leaf} :
    KeywordFree (l :: ls) ↔ (∀ k, l.1 ≠ .keyword k) ∧ KeywordFree ls := by
  simp [KeywordFree]

@[simp] theorem keywordFree_append {ls ls' : List Leaf} :
    KeywordFree (ls ++ ls') ↔ KeywordFree ls ∧ KeywordFree ls' := by
  simp [KeywordFree, or_imp, forall_and]

theorem KeywordFree.thenStarts {ls : List Leaf} (h : KeywordFree ls) : ThenStarts ls := by
  induction ls with
  | nil => trivial
  | cons l ls ih =>
    obtain ⟨hl, hls⟩ := keywordFree_cons.1 h
    exact ⟨fun hthen => absurd hthen (hl _), ih hls⟩

theorem Expr.SpelledBy.keywordFree {l : Level} {e : ParsedExpr l} {ls : List Leaf} (h : e.SpelledBy ls) :
    KeywordFree ls := by
  induction h <;> simp_all

theorem Item.SpelledBy.keywordFree {item : ParsedItem} {ls : List Leaf} (h : item.SpelledBy ls) :
    KeywordFree ls := by
  cases h with
  | text s => simp
  | value he => exact he.keywordFree

theorem VariableSpelledBy.keywordFree {v : TokenId} {ls : List Leaf} (h : VariableSpelledBy v ls) :
    KeywordFree ls := by
  subst h
  simp

theorem Stmt.SpelledBy.startsStatement {s : ParsedStmt} {ls : List Leaf} (h : s.SpelledBy ls) :
    ∃ l ∈ ls.head?, l.1.StartsStatement := by
  cases h with
  | action mark a => exact ⟨_, rfl, _, rfl, by cases a <;> simp [Action.keyword]⟩
  | _ => exact ⟨_, rfl, _, rfl, by simp⟩

@[simp] theorem thenStarts_cons {l : Leaf} {ls : List Leaf} (hl : l.1 ≠ .keyword .then) :
    ThenStarts (l :: ls) ↔ ThenStarts ls :=
  ⟨And.right, fun h => ⟨fun hthen => absurd hthen hl, h⟩⟩

theorem Stmt.SpelledBy.thenStarts {s : ParsedStmt} {ls : List Leaf} (h : s.SpelledBy ls) : ThenStarts ls := by
  induction h with
  | print mark hitem hmore =>
    have hmore : KeywordFree _ :=
      hmore.forall_tag (fun t => ∀ k, t ≠ .keyword k) (by simp) Item.SpelledBy.keywordFree
    simpa using KeywordFree.thenStarts (keywordFree_append.2 ⟨hitem.keywordFree, hmore⟩)
  | input mark hv hmore =>
    have hmore : KeywordFree _ :=
      hmore.forall_tag (fun t => ∀ k, t ≠ .keyword k) (by simp) VariableSpelledBy.keywordFree
    simpa using KeywordFree.thenStarts (keywordFree_append.2 ⟨hv.keywordFree, hmore⟩)
  | assign i j he => simpa using he.keywordFree.thenStarts
  | branch mark r rmark i he₁ he₂ hbody ih =>
    refine .append (.append ?_ ?_) ⟨fun _ => hbody.startsStatement, ih⟩
    · simpa using he₁.keywordFree.thenStarts
    · simpa using he₂.keywordFree.thenStarts
  | goto mark he => simpa using he.keywordFree.thenStarts
  | gosub mark he => simpa using he.keywordFree.thenStarts
  | action mark a => exact (thenStarts_cons (by cases a <;> simp [Action.keyword])).2 trivial

/-- The last tag of a beginning, as a position in the whole. -/
theorem exists_concat_iff {front rest : List Tag} {t : Tag} :
    (∃ f, front = f ++ [t]) ↔ 0 < front.length ∧ (front ++ rest)[front.length - 1]? = some t := by
  rcases front.eq_nil_or_concat with rfl | ⟨f, u, rfl⟩
  · simp
  · simp [List.concat_eq_append, List.append_assoc, eq_comm]

theorem EndsInThen.exists_concat {front : List Tag} (h : EndsInThen (leavesOf front)) :
    ∃ f, front = f ++ [Tag.keyword .then] := by
  obtain ⟨i, hi⟩ := h
  rcases front.eq_nil_or_concat with rfl | ⟨f, t, rfl⟩
  · cases hi
  · rw [leavesOf, List.concat_eq_append, List.zipIdx_append] at hi
    obtain ⟨rfl, -⟩ : t = .keyword .then ∧ _ := by simpa using hi
    exact ⟨f, List.concat_eq_append⟩

namespace Grammar

variable {line? : Option ParsedLine} {lines : List ParsedLine} {ls : List Leaf}

theorem LineSpelledBy.thenStarts (h : LineSpelledBy line? ls) : ThenStarts ls := by
  cases h with
  | empty => trivial
  | number n => exact (thenStarts_cons (by simp)).2 trivial
  | naked hs => exact hs.thenStarts
  | marked n hs => simpa using hs.thenStarts

theorem SpelledBy.thenStarts (h : SpelledBy lines ls) : ThenStarts ls := by
  induction h with
  | nil => trivial
  | last hline => exact hline.thenStarts
  | line i hline _ ih => exact hline.thenStarts.append ((thenStarts_cons (by simp)).2 ih)

/-- A list of tags that the grammar derives, however deep it is nested. The end of the text is its last tag. -/
def Sentence (tags : List Tag) : Prop :=
  ∃ front lines, tags = front ++ [.eof] ∧ SpelledBy lines (leavesOf front)

/-- A list of tags that the grammar derives within the limit on nesting. -/
def LimitedSentence (tags : List Tag) : Prop :=
  ∃ front lines, tags = front ++ [.eof] ∧ Derives front lines

/-- The tags are the beginning of a list of some kind. -/
def Begins (whole : List Tag → Prop) (tags : List Tag) : Prop := ∃ w, whole w ∧ tags <+: w

theorem Begins.of_append {whole : List Tag → Prop} {front back : List Tag} (h : Begins whole (front ++ back)) :
    Begins whole front := by
  obtain ⟨w, hw, hprefix⟩ := h
  exact ⟨w, hw, (List.prefix_append front back).trans hprefix⟩

/-- Behind THEN, no sentence goes on with anything but a statement. -/
theorem Begins.startsStatement {front : List Tag} {t : Tag} (h : Begins Sentence (front ++ [Tag.keyword .then, t])) :
    t.StartsStatement := by
  obtain ⟨_, ⟨text, lines, rfl, hlines⟩, back, hw⟩ := h
  -- The end of the text is not THEN, so what holds of the lines holds of the whole sentence.
  have hstarts : ThenStarts (leavesOf (text ++ [.eof])) := by
    rw [leavesOf, List.zipIdx_append]
    exact hlines.thenStarts.append ((thenStarts_cons (by simp)).2 trivial)
  rw [leavesOf, ← hw, List.append_assoc, List.zipIdx_append] at hstarts
  obtain ⟨l, hl, hstarts⟩ := hstarts.of_append_right.1 rfl
  obtain rfl := Option.some.inj hl
  exact hstarts

/-- The leaves that can be completed begin a sentence, together with the tag that is asked for. -/
theorem begins_of_opens {k : Complaint} {front : List Tag} (h : Opens Spells ⟨k, front.length⟩ (leavesOf front)) :
    Begins Sentence (front ++ k.wanted?.toList) := by
  obtain ⟨-, back, lines, hlines⟩ := h
  refine ⟨front ++ (k.wanted?.toList ++ back) ++ [.eof], ⟨_, lines, rfl, ?_⟩, back ++ [.eof], by simp⟩
  simpa [leavesOf, List.zipIdx_append] using hlines

theorem eof_not_mem_of_opens {e : SyntaxError} {front : List Tag} (h : Opens Spells e (leavesOf front)) :
    .eof ∉ front := by
  obtain ⟨-, back, lines, hlines⟩ := h
  intro heof
  rw [← List.zipIdx_map_fst 0 front] at heof
  obtain ⟨l, hl, heof⟩ := List.mem_map.1 heof
  exact ((properLeaves_append.1 hlines.proper).1 l hl).1 heof

theorem exists_front_of_parse {tags : List Tag} {e : SyntaxError} (h : parse tags = .error (.wrong e)) :
    ∃ front rest, tags = front ++ rest ∧ e.token = front.length ∧ Broken e (leavesOf front) := by
  obtain ⟨ls, c, hreads, hposition, hbroken⟩ := breaks_programWithin maxNesting ⟨0, tags⟩ e (parse_eq_error_iff.1 h)
  obtain ⟨front, htags, rfl, hlength⟩ := Cursor.reads_iff.1 hreads
  exact ⟨front, c.rest, htags, by simpa [hposition] using hlength, hbroken⟩

theorem exists_levels (lines : List ParsedLine) : ∃ levels, ∀ line ∈ lines, line.body.nesting ≤ levels := by
  induction lines with
  | nil => exact ⟨0, by simp⟩
  | cons line lines ih =>
    obtain ⟨levels, h⟩ := ih
    refine ⟨max line.body.nesting levels, List.forall_mem_cons.2 ⟨Nat.le_max_left _ _, fun line hline => ?_⟩⟩
    exact Nat.le_trans (h line hline) (Nat.le_max_right _ _)

/-- With enough levels, a sentence is accepted. -/
theorem Sentence.programWithin {w : List Tag} (h : Sentence w) (levels : Nat) :
    ∃ levels', levels ≤ levels' ∧ ∃ r, programWithin (levels' + 1) ⟨0, w⟩ = .ok r := by
  obtain ⟨front, lines, rfl, hlines⟩ := h
  obtain ⟨n, hn⟩ := exists_levels lines
  refine ⟨max levels n, Nat.le_max_left _ _, (lines, ⟨front.length, [.eof]⟩), programWithin_eq_ok_iff.2 ?_⟩
  refine ⟨⟨_, [], rfl, rfl⟩, fun line hline => ?_, _, Cursor.reads_iff.2 ⟨front, rfl, rfl, by simp⟩, hlines⟩
  exact Nat.le_succ_of_le (Nat.le_trans (hn line hline) (Nat.le_max_right _ _))

theorem LimitedSentence.parse {w : List Tag} (h : LimitedSentence w) : ∃ lines, parse w = .ok lines := by
  obtain ⟨front, lines, rfl, hlines⟩ := h
  exact ⟨lines, hlines.parse_eq []⟩

theorem agreesBefore_of_take {tags w : List Tag} {m : Nat} (h : tags.take m <+: w) (hm : m ≤ tags.length) :
    Cursor.AgreesBefore m ⟨0, tags⟩ ⟨0, w⟩ where
  position := rfl
  rest k hk := by
    have hk : k < m := by simpa using hk
    obtain ⟨back, rfl⟩ := h
    rw [List.getElem?_append_left (by simp; omega), List.getElem?_take, if_pos hk]

theorem not_begins_sentence {tags : List Tag} {e : SyntaxError} (h : parse tags = .error (.wrong e))
    (hk : e.complaint ≠ .nestingTooDeep) (hlength : e.token < tags.length) :
    ¬ Begins Sentence (tags.take (e.token + 1)) := by
  rintro ⟨w, hw, hprefix⟩
  -- Both inputs look the same up to the offending tag, and more levels do not make a difference.
  obtain ⟨levels, hlevels, r, hr⟩ := hw.programWithin 63
  have hforetells : Parser.Foretells (· ≠ .nestingTooDeep) true program (programWithin (levels + 1)) :=
    foretells_programWithin hlevels fun h => absurd rfl h
  have hhorizon : e.horizon ≤ e.token + 1 := Nat.le_of_eq (if_neg hk)
  have herror := hforetells.failed (agreesBefore_of_take hprefix hlength) (parse_eq_error_iff.1 h) hk hhorizon
  rw [hr] at herror
  cases herror

theorem not_begins_limitedSentence {tags : List Tag} {e : SyntaxError} (h : parse tags = .error (.wrong e))
    (hk : e.complaint = .nestingTooDeep) (hlength : e.token ≤ tags.length) :
    ¬ Begins LimitedSentence (tags.take e.token) := by
  rintro ⟨w, hw, hprefix⟩
  have hforetells : Parser.Foretells (fun _ => True) true program program :=
    foretells_programWithin (Nat.le_refl 63) fun _ => rfl
  have hhorizon : e.horizon ≤ e.token := Nat.le_of_eq (if_pos hk)
  have herror := hforetells.failed (agreesBefore_of_take hprefix hlength) (parse_eq_error_iff.1 h) trivial hhorizon
  obtain ⟨lines, hlines⟩ := hw.parse
  cases hlines.symm.trans (parse_eq_error_iff.2 herror)

/-- A syntax error stands at the first token that cannot be there. The tags in front of it begin a sentence, and
with this tag they begin none. A complaint about nesting comes even before that: the tags in front begin no sentence
within the limit. If a tag is asked for, it can come instead, unless THEN stands in front: a statement has to come
there, and what is asked for is the end of the line. -/
theorem parse_error_located {tags : List Tag} {k : Complaint} {i : TokenId} (heof : .eof ∈ tags)
    (h : parse tags = .error (.wrong ⟨k, i⟩)) :
    i < tags.length ∧ Begins Sentence (tags.take i) ∧
      (k ≠ .nestingTooDeep → ¬ Begins Sentence (tags.take (i + 1))) ∧
      (k = .nestingTooDeep → ¬ Begins LimitedSentence (tags.take i)) ∧
      ∀ t, k = .expectToken t → if 0 < i ∧ tags[i - 1]? = some (.keyword .then) then t = .eol
        else Begins Sentence (tags.take i ++ [t]) := by
  obtain ⟨front, rest, rfl, hi, hbroken⟩ := exists_front_of_parse h
  obtain rfl : i = front.length := hi
  obtain ⟨hbegins, hfront⟩ : Begins Sentence front ∧ .eof ∉ front := by
    rcases hbroken with hopens | ⟨-, -, hopens⟩
    · exact ⟨(begins_of_opens hopens).of_append, eof_not_mem_of_opens hopens⟩
    · exact ⟨(begins_of_opens hopens).of_append, eof_not_mem_of_opens hopens⟩
  have hlength : front.length < (front ++ rest).length := by
    have hrest := List.length_pos_of_mem ((List.mem_append.1 heof).resolve_left hfront)
    rw [List.length_append]
    omega
  refine ⟨hlength, ?_, fun hk => not_begins_sentence h hk hlength, fun hk =>
    not_begins_limitedSentence h hk (Nat.le_of_lt hlength), ?_⟩
  · rwa [List.take_left]
  rintro t rfl
  rw [List.take_left]
  split
  · rename_i hthen
    -- A tag that starts a statement is never asked for, so it must be the line end.
    obtain ⟨f, rfl⟩ := exists_concat_iff.2 hthen
    rcases hbroken with hopens | ⟨heol, -⟩
    · have hstarts := Begins.startsStatement (by simpa [Complaint.wanted?] using begins_of_opens hopens)
      exact absurd hstarts (hopens.1 t rfl)
    · simpa using heol
  · rename_i hthen
    rcases hbroken with hopens | ⟨-, hends, -⟩
    · exact begins_of_opens hopens
    · exact absurd (exists_concat_iff.1 hends.exists_concat) hthen

theorem parse_error_located_parenthesis :
    .eof ∈ [Tag.keyword .print, .lparen, .var, .eof] ∧
      parse [.keyword .print, .lparen, .var, .eof] = .error (.wrong ⟨.expectToken .rparen, 3⟩) ∧
      Begins Sentence [.keyword .print, .lparen, .var] ∧
      ¬ Begins Sentence [.keyword .print, .lparen, .var, .eof] ∧
      Begins Sentence [.keyword .print, .lparen, .var, .rparen] := by
  have heof : .eof ∈ [Tag.keyword .print, .lparen, .var, .eof] := by decide
  have herror : parse [.keyword .print, .lparen, .var, .eof] = .error (.wrong ⟨.expectToken .rparen, 3⟩) := by rfl
  obtain ⟨-, hbegins, hnone, -, hwanted⟩ := parse_error_located heof herror
  exact ⟨heof, herror, hbegins, hnone (by simp), hwanted _ rfl⟩

example : parse [.keyword .if, .var, .comparison .eq, .var, .keyword .then, .number, .eof] =
    .error (.wrong ⟨.expectToken .eol, 5⟩) := by
  rfl

end Grammar

end LineBasic
