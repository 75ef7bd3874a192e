import ScriptTree.Lowering.Statement
import ScriptTree.Proofs.LexemeBounds
import ScriptTree.Proofs.TokenSearch
import ScriptTree.Proofs.TreeBounds
import ScriptTree.Proofs.WrittenOrder

/-!
What nodes quote. A node that stands for one token keeps its text, or stands for a word that is
always written alike; of the other tokens of its construct a node keeps the positions. The tokens
are found again by searches, so that a mark is known by the kind that was looked for.
-/
namespace ScriptTree

/-- The position that a node has kept of a token of this kind. -/
structure Mark where
  kind : Kind
  pos : Nat
  deriving DecidableEq, Repr

/-- A mark that may be missing. -/
def Mark.of? (kind : Kind) (pos : Option Nat) : List Mark := (pos.map (mk kind)).toList

namespace Node
open Mark

/-- The text of a node that stands for one token. -/
def text? : Node → Option String
  | .keyword word => some word.text
  | .label l => some l.text
  | .comment c => some c.text
  | .identifier _ text | .xmlAttribute _ text | .literal _ _ text | .xmlText _ text => some text
  | .this .. => some "this"
  | .null _ => some "null"
  | .asterisk _ => some "*"
  | _ => none

/-- The positions that a node has kept, with the kinds of the tokens there. The tag of an operator
that is shared by several tokens gives way to the kind of its token. -/
def marks : Node → List Mark
  | .block _ openBrace _ closeBrace => of? .openBrace openBrace ++ of? .closeBrace closeBrace
  | .expressionStatement _ _ semicolon | .throwStatement _ _ _ semicolon
  | .returnStatement _ _ _ semicolon | .jumpStatement _ _ _ semicolon =>
    of? .semicolon semicolon
  | .constStatement _ _ _ commas semicolon =>
    commas.map (mk .comma) ++ of? .semicolon semicolon
  | .ifStatement _ _ openParen _ closeParen _ _ _ | .whileStatement _ _ openParen _ closeParen _
  | .withStatement _ _ openParen _ closeParen _ | .catchClause _ _ openParen _ _ closeParen _
  | .forInStatement _ _ _ openParen _ _ _ closeParen _
  | .getMethod _ _ _ openParen closeParen _ | .setMethod _ _ _ openParen _ closeParen _ =>
    of? .openParen openParen ++ of? .closeParen closeParen
  | .doWhileStatement _ _ _ _ openParen _ closeParen semicolon =>
    of? .openParen openParen ++ of? .closeParen closeParen ++ of? .semicolon semicolon
  | .forStatement _ _ openParen _ first _ second _ closeParen _ =>
    of? .openParen openParen ++ of? .semicolon first ++ of? .semicolon second ++
      of? .closeParen closeParen
  | .switchStatement _ _ openParen _ closeParen openBrace _ closeBrace =>
    of? .openParen openParen ++ of? .closeParen closeParen ++ of? .openBrace openBrace ++
      of? .closeBrace closeBrace
  | .caseClause _ _ _ colon _ | .defaultClause _ _ colon _ | .labelledStatement _ _ colon _
  | .propertyInitializer _ _ colon _ => of? .colon colon
  | .defaultXmlNamespaceStatement _ _ _ _ assign _ semicolon =>
    of? .equals assign ++ of? .semicolon semicolon
  | .binary _ operator position _ _ => [⟨operator, position⟩]
  | .unary _ operator position _ => [⟨operator.operatorToken?.getD operator, position⟩]
  | .call _ _ openParen _ commas closeParen | .function _ _ _ openParen _ commas closeParen _ =>
    of? .openParen openParen ++ commas.map (mk .comma) ++ of? .closeParen closeParen
  | .property _ _ dot _ => [⟨.dot, dot⟩]
  | .allChildren _ _ dotDot _ => [⟨.dotDot, dotDot⟩]
  | .localName _ _ colonColon _ => [⟨.colonColon, colonColon⟩]
  | .arrayItem _ _ openBracket _ closeBracket =>
    of? .openBracket openBracket ++ of? .closeBracket closeBracket
  | .array _ openBracket _ commas closeBracket =>
    ⟨.openBracket, openBracket⟩ :: commas.map (mk .comma) ++ of? .closeBracket closeBracket
  | .object _ openBrace _ commas closeBrace _ =>
    ⟨.openBrace, openBrace⟩ :: commas.map (mk .comma) ++ of? .closeBrace closeBrace
  | .conditional _ _ question _ colon _ => ⟨.question, question⟩ :: of? .colon colon
  | .comma _ _ commas | .variableDeclaration _ _ _ commas => commas.map (mk .comma)
  | .parenthesized _ openParen _ closeParen =>
    ⟨.openParen, openParen⟩ :: of? .closeParen closeParen
  | .variableDeclarator _ _ assign _ => of? .equals assign
  | _ => []

end Node

section
variable (tokens : Array Token)

/-- At the mark stands a token of its kind, which is always written alike. -/
def Mark.Stands (m : Mark) : Prop :=
  ∃ i t, tokens[i]? = some t ∧ m.pos = TokenTable.offset (.ofTokens tokens) i ∧
    m.kind.text? = some t.text

/-- At each of the marks stands its token. -/
def Marked (marks : List Mark) : Prop := ∀ m ∈ marks, m.Stands tokens

/-- Range `r` goes over a token that has this text, or over nothing if there is no text. -/
def Range.Quotes (r : Range) (text : String) : Prop :=
  ∃ i, r = .ofLength (TokenTable.offset (.ofTokens tokens) i) text.utf8ByteSize ∧
    (text = "" ∨ ∃ t, tokens[i]? = some t ∧ t.text = text)

/-- Node `n` has the text of its token and the marks of others. -/
structure Node.Quotes (n : Node) : Prop where
  text : ∀ text, n.text? = some text → n.range.Quotes tokens text
  marked : Marked tokens n.marks

end

section
variable {tokens : Array Token}

theorem marked_nil : Marked tokens [] := nofun

theorem Mark.Stands.cons {m : Mark} {ms : List Mark} (hm : m.Stands tokens)
    (hms : Marked tokens ms) : Marked tokens (m :: ms) :=
  List.forall_mem_cons.mpr ⟨hm, hms⟩

theorem Mark.Stands.only {m : Mark} (hm : m.Stands tokens) : Marked tokens [m] :=
  hm.cons marked_nil

theorem Marked.append {ms ns : List Mark} (hms : Marked tokens ms) (hns : Marked tokens ns) :
    Marked tokens (ms ++ ns) :=
  List.forall_mem_append.mpr ⟨hms, hns⟩

theorem marked_of? {k : Kind} {pos : Option Nat}
    (h : ∀ p, pos = some p → (Mark.mk k p).Stands tokens) : Marked tokens (Mark.of? k pos) := by
  cases pos with
  | none => exact marked_nil
  | some p => exact (h p rfl).only

/-- A node that keeps no text. -/
theorem Node.quotes_of_marked {n : Node} (htext : n.text? = none) (h : Marked tokens n.marks) :
    n.Quotes tokens where
  text text hsome := by
    rw [htext] at hsome
    cases hsome
  marked := h

end

/-! Marks and texts of tokens that are found. -/

section
variable {input : Input} {tokens : Array Token} {k : Kind} {start bound i : Nat}
  (cuts : input.Cuts tokens)
include cuts

theorem stands_of_token {t : Token} (ht : tokens[i]? = some t) (hkind : t.kind = k)
    (hk : k.text?.isSome = true) :
    (Mark.mk k (TokenTable.offset (.ofTokens tokens) i)).Stands tokens := by
  obtain ⟨text, htext⟩ := Option.isSome_iff_exists.mp hk
  refine ⟨i, t, ht, rfl, ?_⟩
  rw [cuts.spelled t (Array.mem_of_getElem? ht) text (hkind ▸ htext)]
  exact htext

theorem stands_of_sees {p : Nat} (hsees : input.Sees p k) (hk : k.text?.isSome = true) :
    (Mark.mk k (input.startAt tokens p)).Stands tokens := by
  obtain ⟨t, ht, hkind, _, _⟩ := cuts.token_of_sees hsees
  exact stands_of_token cuts ht hkind hk

theorem stands_of_index? (hk : k.text?.isSome = true)
    (h : Lowering.index? (.ofTokens tokens) k start bound = some i) :
    (Mark.mk k (TokenTable.offset (.ofTokens tokens) i)).Stands tokens := by
  obtain ⟨_, _, t, ht, hkind⟩ := Lowering.index?_spec h
  exact stands_of_token cuts ht hkind hk

theorem marked_position? (hk : k.text?.isSome = true) :
    Marked tokens (Mark.of? k (Lowering.position? (.ofTokens tokens) k start bound)) := by
  refine marked_of? fun pos hpos => ?_
  obtain ⟨i, hi, rfl⟩ := Option.map_eq_some_iff.mp hpos
  exact stands_of_index? cuts hk hi

/-- The semicolon at the end of a statement. -/
theorem marked_semicolon? {t : Concrete} {last : Option Concrete} :
    Marked tokens (Mark.of? .semicolon (Lowering.semicolon? (.ofTokens tokens) t last)) :=
  marked_position? cuts rfl

omit cuts in
theorem operatorToken?_of_isToken (h : k.isToken = true) : k.operatorToken? = none := by
  cases k <;> first | rfl | cases h

/-- An operator that is found has its own tag, or it is written as the token that the tag stands
for. No token has such a tag. -/
theorem stands_of_operatorPosition {pos : Nat}
    (hk : (k.operatorToken?.getD k).text?.isSome = true)
    (h : Lowering.operatorPosition (.ofTokens tokens) k start bound = .ok pos) :
    (Mark.mk (k.operatorToken?.getD k) pos).Stands tokens := by
  rw [Lowering.operatorPosition] at h
  split at h
  · rename_i i hi
    cases h
    split at hi
    · rcases Option.or_eq_some_iff.mp hi with hfound | ⟨_, hfound⟩
      · obtain ⟨_, _, t, ht, hkind⟩ := TokenTable.search?_spec hfound
        have hkind : t.kind = k := beq_iff_eq.mp hkind
        have hnone := operatorToken?_of_isToken (cuts.isToken t (Array.mem_of_getElem? ht))
        rw [hkind] at hnone
        rw [hnone] at hk ⊢
        exact stands_of_token cuts ht hkind hk
      · obtain ⟨token, htoken, hfound⟩ := Option.bind_eq_some_iff.mp hfound
        obtain ⟨_, _, t, ht, hkind⟩ := TokenTable.search?_spec hfound
        rw [htoken] at hk ⊢
        exact stands_of_token cuts ht (beq_iff_eq.mp hkind) hk
    · cases hi
  · cases h

/-- The text of a leaf is that of its token. -/
theorem Input.IsLeaf.quotes {t : Concrete} (h : input.IsLeaf t) :
    (Lowering.leafRange (.ofTokens tokens) t).Quotes tokens t.content := by
  obtain ⟨p, k, tag, hsees, _, rfl⟩ := h
  obtain ⟨u, hu, _, _, htext⟩ := cuts.token_of_sees hsees
  exact ⟨_, rfl, .inr ⟨u, hu, htext⟩⟩

/-- A tree quotes its text. A tree for something missing has none. -/
theorem Input.Snug.quotes {t : Concrete} (ht : input.Snug t) :
    (Lowering.leafRange (.ofTokens tokens) t).Quotes tokens t.content := by
  rcases ht.holds.text with htext | hleaf
  · refine ⟨t.start, rfl, .inl ?_⟩
    rw [Concrete.content, htext]
    rfl
  · exact hleaf.quotes cuts

/-- A leaf whose tag is always written alike. -/
theorem Input.IsLeaf.content_eq {t : Concrete} (h : input.IsLeaf t) (text : String)
    (htext : t.kind.text? = some text) : t.content = text := by
  obtain ⟨p, k, tag, hsees, rfl | rfl, rfl⟩ := h
  · obtain ⟨u, hu, rfl, _, hu'⟩ := cuts.token_of_sees hsees
    exact hu'.symm.trans (cuts.spelled u (Array.mem_of_getElem? hu) text htext)
  · cases htext

theorem quotes_keywordAt? {word : Keyword} {t : Token} (ht : tokens[i]? = some t)
    (hk : t.kind.keywordText?.isSome = true)
    (h : Lowering.keywordAt? (.ofTokens tokens) i = some word) :
    (Node.keyword word).Quotes tokens := by
  rw [Lowering.keywordAt?, TokenTable.ofTokens_tokens, ht, Option.map_some] at h
  cases h
  obtain ⟨text, htext⟩ := Option.isSome_iff_exists.mp hk
  have hspelled : t.text = text := by
    refine cuts.spelled t (Array.mem_of_getElem? ht) text ?_
    rw [Kind.text?, (Lexeme.keyword_isReadable hk).2, Option.none_or, htext]
  refine ⟨?_, marked_nil⟩
  rintro _ ⟨⟩
  have hword : Keyword.text ⟨.ofLength (TokenTable.offset (.ofTokens tokens) i) t.length, t.kind⟩ =
      t.text := by
    rw [Keyword.text, htext, Option.getD_some, hspelled]
  rw [hword]
  exact ⟨i, rfl, .inr ⟨t, ht, rfl⟩⟩

end
end ScriptTree
