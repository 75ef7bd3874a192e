import ScriptTree.Production.Statement

/-!
Whole scripts. Here the rules are put into each other: `Grammar.within n` allows `n` nested calls.
Between two productions that go a level deeper there are at most ten calls, one for each level of
precedence, so that the limit on levels is always met first.
-/
namespace ScriptTree

/-- The grammar that halts when more than `n` of its productions are nested. -/
def Grammar.within : Nat → Grammar
  | 0 =>
    { statement := throw .exhausted
      assignment := fun _ => throw .exhausted
      binary := fun _ _ => throw .exhausted
      unary := throw .exhausted
      member := fun _ => throw .exhausted }
  | n + 1 =>
    { statement := fun input c => Production.statement (within n) input c
      assignment := fun noIn input c => Production.assignment (within n) noIn input c
      binary := fun floor noIn input c => Production.binary (within n) floor noIn input c
      unary := fun input c => Production.unary (within n) input c
      member := fun calls input c => Production.member (within n) calls input c }

/-- How many nested calls a limit on levels leaves room for. -/
def callAllowance (limit : Nat) : Nat := 11 * (limit + 1)

/-- All tokens from the cursor on, as a script. -/
def Production.program : Production Concrete := do
  let start ← index
  let g := Grammar.within (callAllowance (← read).limit)
  let children ← statements g (pure false)
  node .script start children

/-- Read a script from the cursor on. What was reported stays with the cursor that is left. -/
def Cursor.program (c : Cursor) (input : Input) : Except Halt Concrete × Cursor :=
  match Production.program input c with
  | .ok tree c => (.ok tree, c)
  | .error halt c => (.error halt, c)

end ScriptTree
