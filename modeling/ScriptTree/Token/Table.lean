import ScriptTree.Kind.Spelling
import ScriptTree.Node
import ScriptTree.Token

/-!
Token lists with their positions. `Offsets` tells where each token begins in the source;
`TokenTable` joins them with the tokens and searches windows of the list. The ends of a window both
belong to it.
-/
namespace ScriptTree

/-- The starts of the tokens of a list, and after them the length of the source. -/
structure Offsets where
  starts : Array Nat
  deriving DecidableEq, Repr

namespace Offsets

def ofTokens (tokens : Array Token) : Offsets :=
  ⟨tokens.foldl (fun starts t => starts.push (starts.back?.getD 0 + t.length)) #[0]⟩

/-- The start of a token. Tokens past the list start at the end of the source. -/
def get (o : Offsets) (index : Nat) : Nat := o.starts[min index (o.starts.size - 1)]?.getD 0

def sourceLength (o : Offsets) : Nat := o.starts.back?.getD 0

def tokenCount (o : Offsets) : Nat := o.starts.size - 1

end Offsets

/-- Tokens and their offsets. -/
structure TokenTable where
  tokens : Array Token
  offsets : Offsets

namespace TokenTable

def ofTokens (tokens : Array Token) : TokenTable := ⟨tokens, .ofTokens tokens⟩

/-- Among the `count` tokens from place `i` on, the one that `skip` others with `p` come before. -/
def scanFor? (tokens : Array Token) (p : Token → Bool) : (count i skip : Nat) → Option Nat
  | 0, _, _ => none
  | count + 1, i, skip =>
    match tokens[i]? with
    | none => none
    | some t =>
      if p t then
        match skip with
        | 0 => some i
        | skip + 1 => scanFor? tokens p count (i + 1) skip
      else scanFor? tokens p count (i + 1) skip

/-- The first token with `p` in a window, after `skip` others. -/
def search? (t : TokenTable) (p : Token → Bool) (start stop skip : Nat) : Option Nat :=
  scanFor? t.tokens p (min (stop + 1) t.tokens.size - start) start skip

/-- The first token of a kind in a window, after `skip` others. -/
def findNth? (t : TokenTable) (kind : Kind) (start stop skip : Nat) : Option Nat :=
  t.search? (·.kind == kind) start stop skip

/-- The first token of a kind in a window. -/
def find? (t : TokenTable) (kind : Kind) (start stop : Nat) : Option Nat :=
  t.findNth? kind start stop 0

/-- The first token of a kind in a window, or else of the kind that the operator is written as. -/
def findOperator? (t : TokenTable) (kind : Kind) (start stop : Nat) : Option Nat :=
  (t.find? kind start stop).or (kind.operatorToken?.bind (t.find? · start stop))

/-- The first token in a window that is not hidden. -/
def nextSignificant? (t : TokenTable) (start stop : Nat) : Option Nat :=
  t.search? (!·.isHidden) start stop 0

/-- The position of a token. -/
def offset (t : TokenTable) (index : Nat) : Nat := t.offsets.get index

/-- The style of the comments of a kind. -/
def commentStyle? : Kind → Option CommentStyle
  | .singleLineComment => some .singleLine
  | .multiLineComment => some .multiLine
  | _ => none

/-- The comments among the tokens, in order. -/
def comments (t : TokenTable) : List Comment :=
  t.tokens.toList.zipIdx.filterMap fun (token, index) =>
    (commentStyle? token.kind).map fun style =>
      ⟨.ofLength (t.offset index) token.length, token.text, style⟩

end TokenTable
end ScriptTree
