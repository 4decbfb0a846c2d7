import LineBasic.Program.Table
import LineBasic.Proofs.Machine.Kinds
import LineBasic.Proofs.Text.Csv
import LineBasic.Proofs.Token.Marked

/-!
# Programs read back from tables

The tables of a program lose nothing of its nodes and of its tokens. A row can be read back as the node or as the
token that it was made from, and a text spells one table only. Numbers in tables are references and offsets, which are
within the sizes of the program, so they fit into their columns if these sizes do.

## Main definitions

* `Csv.ColumnType`, `Csv.Fit`: what a column can hold, and whether rows fit into columns.
* `Node.ofRow?`, `Token.ofRow?`: what a row was made from.
* `Program.readNodes`, `Program.readTokens`: the nodes and the tokens that the text of a table spells.
* `Program.SizesBelow`: the sizes of a program are below a bound.
* `Program.Exports`: texts spell the tables of a program.

## Main results

* `Arena.Orderly.token_lt`, `Arena.Orderly.reference_le`: the references of a node are within the sizes of the program.
* `Program.Exports.readNodes_eq`, `Program.Exports.readTokens_eq`: any spelling of a table is read back.
* `Program.parse_tables_lossless`: the tables of parsed programs.
-/

namespace LineBasic

/-! ### Columns -/

namespace Csv

/-- What a column can hold. -/
inductive ColumnType where
  | text
  /-- Integers of 32 bits with a sign. -/
  | int32
  deriving DecidableEq, Repr

/-- The integers of a column are below 2 ^ 31. -/
def integerBound : Nat := 2147483648

/-- A value fits into a column. A value may be missing in any column. -/
def ColumnType.Admits : ColumnType → Field → Prop
  | _, .missing => True
  | .text, .text _ => True
  | .int32, .integer n => -(integerBound : Int) ≤ n ∧ n < integerBound
  | .text, .integer _ | .int32, .text _ => False

/-- The values of each row fit into the columns, one value into each. -/
def Fit (columns : List (String × ColumnType)) (rows : List (List Field)) : Prop :=
  ∀ row ∈ rows, List.Forall₂ (fun column f => column.2.Admits f) columns row

/-- The reference in a field, which may be missing. -/
def Field.reference? : Field → Option (Option Nat)
  | .integer (.ofNat n) => some (some n)
  | .missing => some none
  | .integer (.negSucc _) | .text _ => none

@[simp] theorem Field.reference?_ofNat? (i : Option Nat) : (Field.ofNat? i).reference? = some i := by
  cases i with
  | none => rfl
  | some i => rfl

theorem ColumnType.admits_natCast {n : Nat} (h : n < integerBound) : int32.Admits (.integer n) :=
  ⟨by omega, by omega⟩

theorem ColumnType.admits_ofNat? {i : Option Nat} (h : ∀ n ∈ i, n < integerBound) : int32.Admits (Field.ofNat? i) := by
  cases i with
  | none => trivial
  | some n => exact admits_natCast (h n rfl)

end Csv

/-! ### Rows -/

theorem NodeTag.ofName?_name (t : NodeTag) : NodeTag.ofName? t.name = some t := by
  cases t with
  | action a => cases a <;> decide
  | term s => cases s <;> decide
  | factor o => cases o <;> decide
  | _ => decide

theorem Tag.ofName?_name (t : Tag) : Tag.ofName? t.name = some t := by
  cases t with
  | sign s => cases s <;> decide
  | scale o => cases o <;> decide
  | comparison r => cases r <;> decide
  | keyword k => cases k <;> decide
  | builtin f => cases f <;> decide
  | _ => decide

/-- The node that a row was made from. -/
def Node.ofRow? : List Csv.Field → Option Node
  | [.text name, token, lhs, rhs] => do
    return ⟨← NodeTag.ofName? (String.ofList name), ← token.reference?, ← lhs.reference?, ← rhs.reference?⟩
  | _ => none

/-- The token that a row was made from, with its characters. -/
def Token.ofRow? : List Csv.Field → Option (Token × List Char)
  | [.text name, .integer (.ofNat start), .integer (.ofNat stop), .text text] => do
    return (⟨← Tag.ofName? (String.ofList name), start, stop⟩, text)
  | _ => none

theorem Node.ofRow?_row (n : Node) : Node.ofRow? n.row = some n := by
  simp [Node.row, Node.ofRow?, NodeTag.ofName?_name]

theorem Token.ofRow?_row (source : List Char) (t : Token) : Token.ofRow? (t.row source) = some (t, t.text source) := by
  show (Tag.ofName? (String.ofList t.tag.name.toList)).bind _ = _
  rw [String.ofList_toList, Tag.ofName?_name]
  rfl

/-- Rows are read back one by one. -/
theorem mapM_map_eq_some {α β γ : Type} {row : α → β} {ofRow : β → Option γ} {value : α → γ}
    (h : ∀ x, ofRow (row x) = some (value x)) (xs : List α) : (xs.map row).mapM ofRow = some (xs.map value) := by
  rw [List.mapM_map, show ofRow ∘ row = fun x => pure (value x) from funext h]
  exact List.mapM_pure

namespace Program

/-- The columns of a table of nodes. -/
def nodeColumns : List (String × Csv.ColumnType) :=
  [("tag", .text), ("token", .int32), ("lhs", .int32), ("rhs", .int32)]

/-- The columns of a table of tokens. -/
def tokenColumns : List (String × Csv.ColumnType) :=
  [("tag", .text), ("start", .int32), ("end", .int32), ("text", .text)]

/-- The rows of the nodes of a program. -/
def nodeRows (p : Program) : List (List Csv.Field) := p.arena.nodes.toList.map Node.row

/-- The rows of the tokens of a program. -/
def tokenRows (p : Program) : List (List Csv.Field) := p.tokens.toList.map (Token.row p.source)

/-- The nodes whose table a text spells. -/
def readNodes (text : List Char) : Option (List Node) :=
  (Csv.rowsUnder? (nodeColumns.map Prod.fst) text).bind fun rows => rows.mapM Node.ofRow?

/-- The tokens whose table a text spells, with their characters. -/
def readTokens (text : List Char) : Option (List (Token × List Char)) :=
  (Csv.rowsUnder? (tokenColumns.map Prod.fst) text).bind fun rows => rows.mapM Token.ofRow?

/-- The source, the tokens, the nodes and the list of children of a program are shorter than a bound. -/
structure SizesBelow (p : Program) (bound : Nat) : Prop where
  source : p.source.length < bound
  tokens : p.tokens.size < bound
  nodes : p.arena.nodes.size < bound
  extra : p.arena.extra.size < bound

end Program

/-! ### Numbers in tables -/

namespace Arena

variable {a : Arena} {tags : List Tag} {n : Node}

/-- The token of a node is one of the program. -/
theorem Orderly.token_lt (h : a.Orderly tags) (hn : n ∈ a.nodes.toList) : ∀ t ∈ n.token, t < tags.length := by
  obtain ⟨i, hi⟩ := List.mem_iff_getElem?.1 hn
  rw [Array.getElem?_toList] at hi
  have hsuits := (h.regular i n hi).token
  intro t ht
  rw [NodeTag.Suits] at hsuits
  split at hsuits
  · obtain ⟨t', u, htoken, hu, -⟩ := hsuits
    obtain rfl := Option.some.inj (ht.symm.trans htoken)
    exact (List.getElem?_eq_some_iff.1 hu).1
  · rw [hsuits] at ht
    cases ht

/-- A reference names a node or bounds a range. -/
theorem Orderly.reference_le (h : a.Orderly tags) (hn : n ∈ a.nodes.toList) {i : Nat}
    (hi : i ∈ n.lhs.toList ++ n.rhs.toList) : i < a.nodes.size ∨ i ≤ a.extra.size := by
  obtain ⟨k, hk⟩ := List.mem_iff_getElem?.1 hn
  rw [Array.getElem?_toList] at hk
  have hregular := h.regular k n hk
  cases hrange : n.tag.hasRange with
  | true =>
    obtain ⟨lo, hi', hlo, hhi, hle, hsize⟩ := hregular.range hrange
    rw [hlo, hhi] at hi
    simp only [Option.toList_some, List.singleton_append, List.mem_cons, List.not_mem_nil, or_false] at hi
    omega
  | false =>
    obtain ⟨kinds, hforall, -⟩ := hregular.children
    rw [references, hrange, if_neg Bool.false_ne_true] at hforall
    obtain ⟨_, -, m, hm, -⟩ := exists_mem_of_forall₂ hforall hi
    exact .inl (Array.getElem?_eq_some_iff.1 hm).1

end Arena

namespace Program

variable {source : List Char} {p : Program}

/-- The numbers in the table of nodes fit into their columns. -/
theorem DerivedFrom.fit_nodeRows {lines : List ParsedLine} (h : p.DerivedFrom lines)
    (hsizes : p.SizesBelow Csv.integerBound) : Csv.Fit nodeColumns p.nodeRows := by
  intro row hrow
  obtain ⟨n, hn, rfl⟩ := List.mem_map.1 hrow
  have htoken : ∀ t ∈ n.token, t < Csv.integerBound := by
    intro t ht
    have hlt := h.orderly.token_lt hn t ht
    rw [List.length_map, Array.length_toList] at hlt
    exact Nat.lt_trans hlt hsizes.tokens
  have hreference : ∀ i ∈ n.lhs.toList ++ n.rhs.toList, i < Csv.integerBound := by
    intro i hi
    have hnodes := hsizes.nodes
    have hextra := hsizes.extra
    have hle := h.orderly.reference_le hn hi
    omega
  have hlhs : ∀ i ∈ n.lhs, i < Csv.integerBound := fun i hi =>
    hreference i (List.mem_append_left _ (Option.mem_toList.2 hi))
  have hrhs : ∀ i ∈ n.rhs, i < Csv.integerBound := fun i hi =>
    hreference i (List.mem_append_right _ (Option.mem_toList.2 hi))
  exact .cons trivial (.cons (Csv.ColumnType.admits_ofNat? htoken) (.cons (Csv.ColumnType.admits_ofNat? hlhs)
    (.cons (Csv.ColumnType.admits_ofNat? hrhs) .nil)))

/-- The numbers in the table of tokens fit into their columns. -/
theorem DerivedFrom.fit_tokenRows {lines : List ParsedLine} (h : p.DerivedFrom lines)
    (hsizes : p.SizesBelow Csv.integerBound) : Csv.Fit tokenColumns p.tokenRows := by
  obtain ⟨front, eof, hscan, htokens, -⟩ := h
  intro row hrow
  obtain ⟨t, ht, rfl⟩ := List.mem_map.1 hrow
  rw [htokens] at ht
  obtain ⟨hle, hstop, -⟩ := bounds_of_mem_scan hscan ht
  have hsource := hsizes.source
  exact .cons trivial (.cons (Csv.ColumnType.admits_natCast (by omega))
    (.cons (Csv.ColumnType.admits_natCast (by omega)) (.cons trivial .nil)))

/-! ### Tables -/

/-- Two texts spell the table of the nodes and the table of the tokens of a program. -/
structure Exports (p : Program) (nodeText tokenText : List Char) : Prop where
  nodes : Csv.SpelledBy (Csv.header (nodeColumns.map Prod.fst) :: p.nodeRows) nodeText
  tokens : Csv.SpelledBy (Csv.header (tokenColumns.map Prod.fst) :: p.tokenRows) tokenText

/-- The tables that are written for a program spell its nodes and its tokens. -/
theorem exports_tables (p : Program) : p.Exports p.nodeTable p.tokenTable := by
  constructor
  · refine Csv.spelledBy_write (List.cons_ne_nil _ _) fun row hrow => ?_
    obtain ⟨n, -, rfl⟩ := List.mem_map.1 hrow
    exact List.cons_ne_nil _ _
  · refine Csv.spelledBy_write (List.cons_ne_nil _ _) fun row hrow => ?_
    obtain ⟨t, -, rfl⟩ := List.mem_map.1 hrow
    exact List.cons_ne_nil _ _

namespace Exports

variable {p' : Program} {nodeText tokenText : List Char}

/-- Whatever spells the table of nodes is read as the nodes. -/
theorem readNodes_eq (h : p.Exports nodeText tokenText) : readNodes nodeText = some p.arena.nodes.toList := by
  rw [readNodes, Csv.rowsUnder?_eq_some_iff.2 h.nodes]
  exact (mapM_map_eq_some Node.ofRow?_row _).trans (by rw [List.map_id'])

/-- Whatever spells the table of tokens is read as the tokens with their characters. -/
theorem readTokens_eq (h : p.Exports nodeText tokenText) :
    readTokens tokenText = some (p.tokens.toList.map fun t => (t, t.text p.source)) := by
  rw [readTokens, Csv.rowsUnder?_eq_some_iff.2 h.tokens]
  exact mapM_map_eq_some (Token.ofRow?_row p.source) _

/-- Programs with the same tables have the same nodes and tokens. -/
theorem unique (h : p.Exports nodeText tokenText) (h' : p'.Exports nodeText tokenText) :
    p'.arena.nodes = p.arena.nodes ∧ p'.tokens = p.tokens ∧
      p'.tokens.toList.map (Token.text p'.source) = p.tokens.toList.map (Token.text p.source) := by
  have hnodes := Option.some.inj (h'.readNodes_eq.symm.trans h.readNodes_eq)
  have hpairs := Option.some.inj (h'.readTokens_eq.symm.trans h.readTokens_eq)
  have htokens := congrArg (List.map Prod.fst) hpairs
  have htexts := congrArg (List.map Prod.snd) hpairs
  rw [List.map_map, List.map_map] at htokens htexts
  refine ⟨Array.toList_inj.1 hnodes, Array.toList_inj.1 ?_, htexts⟩
  simpa only [Function.comp_def, List.map_id'] using htokens

end Exports

/-- The tables of a parsed program whose sizes fit into 32 bits. All values fit into their columns, and the tables that
are written spell the rows below the names of the columns. Whatever texts spell them, that of the nodes is read back as
the nodes and that of the tokens as the tokens with their characters, in order. So programs with the same tables have
the same nodes, and the same tokens with the same characters. -/
theorem parse_tables_lossless (h : Program.parse source = .ok p) (hsizes : p.SizesBelow Csv.integerBound) :
    Csv.Fit nodeColumns p.nodeRows ∧ Csv.Fit tokenColumns p.tokenRows ∧ p.Exports p.nodeTable p.tokenTable ∧
      ∀ nodeText tokenText, p.Exports nodeText tokenText →
        readNodes nodeText = some p.arena.nodes.toList ∧
        readTokens tokenText = some (p.tokens.toList.map fun t => (t, t.text source)) ∧
        ∀ source' p', Program.parse source' = .ok p' → p'.Exports nodeText tokenText →
          p'.arena.nodes = p.arena.nodes ∧ p'.tokens = p.tokens ∧
            p'.tokens.toList.map (Token.text source') = p.tokens.toList.map (Token.text source) := by
  obtain ⟨rfl, lines, hlines⟩ := parse_eq_ok_iff.1 h
  refine ⟨hlines.fit_nodeRows hsizes, hlines.fit_tokenRows hsizes, p.exports_tables, ?_⟩
  intro nodeText tokenText hexports
  refine ⟨hexports.readNodes_eq, hexports.readTokens_eq, ?_⟩
  intro source' p' h' hexports'
  obtain ⟨rfl, -⟩ := parse_eq_ok_iff.1 h'
  exact hexports.unique hexports'

/-- A text with a comma between quotes, and with a line end. -/
def quotedComma : List Char := "PRINT \"A,B\"\nEND".toList

/-- Quotes, the comma and the line end come back as they were, and so does the empty text of the last token. -/
theorem parse_tables_lossless_quotedComma : ∃ p, Program.parse quotedComma = .ok p ∧ p.SizesBelow Csv.integerBound ∧
    Csv.Fit nodeColumns p.nodeRows ∧ Csv.Fit tokenColumns p.tokenRows ∧
    readNodes p.nodeTable = some p.arena.nodes.toList ∧
    readTokens p.tokenTable = some [(⟨.keyword .print, 0, 5⟩, "PRINT".toList), (⟨.string, 6, 11⟩, "\"A,B\"".toList),
      (⟨.eol, 11, 12⟩, ['\n']), (⟨.keyword .end, 12, 15⟩, "END".toList), (⟨.eof, 15, 15⟩, [])] := by
  have hparse : (Program.parse quotedComma).toOption.any (fun p => decide (
      p.source.length < Csv.integerBound ∧ p.tokens.size < Csv.integerBound ∧
      p.arena.nodes.size < Csv.integerBound ∧ p.arena.extra.size < Csv.integerBound ∧
      p.tokens.toList.map (fun t => (t, t.text quotedComma)) = [(⟨.keyword .print, 0, 5⟩, "PRINT".toList),
        (⟨.string, 6, 11⟩, "\"A,B\"".toList), (⟨.eol, 11, 12⟩, ['\n']), (⟨.keyword .end, 12, 15⟩, "END".toList),
        (⟨.eof, 15, 15⟩, [])])) = true := by decide +kernel
  obtain ⟨p, hp, hsizes⟩ := exists_ok_of_any hparse
  obtain ⟨hsource, htokens, hnodes, hextra, htexts⟩ := of_decide_eq_true hsizes
  have hbelow : p.SizesBelow Csv.integerBound := ⟨hsource, htokens, hnodes, hextra⟩
  obtain ⟨hnodeFit, htokenFit, hexports, hread⟩ := parse_tables_lossless hp hbelow
  obtain ⟨hreadNodes, hreadTokens, -⟩ := hread _ _ hexports
  rw [htexts] at hreadTokens
  exact ⟨p, hp, hbelow, hnodeFit, htokenFit, hreadNodes, hreadTokens⟩

end Program

end LineBasic
