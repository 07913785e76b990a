import Mismatch.Ty.Cursor

/-!
# Reading a type

A reader for the syntax in which types are shown. White space may stand before, between and after
the tokens. Each inference variable gets the next number, counted modulo 2^32. A refusal carries
its cause and the offset of the byte where reading stopped; a path that denotes nothing, or has the
wrong number of arguments, is reported where it starts.
-/

namespace Mismatch

namespace Ty

/-- The numeric or primitive type that a word names. -/
def ofWord? (w : Text) : Option Ty :=
  match NumKind.all.find? (·.name == w) with
  | some k => some (.num k)
  | none => ([PrimKind.bool, .char, .str].find? (·.name == w)).map .prim

mutual

/-- Reads one type. The first argument bounds the nesting; `parse` gives one that no text exceeds.
-/
def read (names : NameTable) : Nat → Cursor → Except ParseError (Ty × Cursor)
  | 0, c => c.fail .expectedType
  | n + 1, c =>
    let c := c.skipSpace
    match c.rest with
    | [] => c.fail .expectedType
    | b :: _ =>
      if b == 0 then c.fail .expectedType
      else if b == Text.byte '&' then do
        let (m, c) := (c.drop 1).mutability
        let (t, c) ← read names n c
        return (.ref m t, c)
      else if b == Text.byte '!' then return (.never, c.drop 1)
      else if b == 0x7b then
        match c.braced? with
        | some found => return found
        | none => c.fail .expectedBraced
      else if b == Text.byte '[' then do
        let (t, c) ← read names n (c.drop 1)
        match c.eat "]" with
        | some c => return (.slice t, c)
        | none => c.fail .unclosedSlice
      else if b == Text.byte '(' then
        let c := c.drop 1
        match c.eat ")" with
        | some c => return (.unit, c)
        | none => do
          let (ts, comma, c) ← readElems names n c
          match ts, comma with
          | [t], false => return (t, c)
          | ts, _ => return (.tuple ts, c)
      else if Text.isIdentStart b then do
        let start := c.offset
        let (path, c) ← c.path
        if path == "_" then return c.fresh .general
        match ofWord? path with
        | some t => return (t, c)
        | none =>
          match names.lookup path with
          | .error e => .error ⟨.name e, start⟩
          | .ok found => do
            let (args, c) ← match c.eat "<" with
              | some c => readArgs names n c
              | none => .ok ([], c)
            if args.length = found.arity then return (.adt found.item args, c)
            else .error ⟨.arity path found.arity args.length, start⟩
      else c.fail (.unexpectedByte b)

/-- Reads the elements of a tuple and the closing parenthesis. Also tells whether a comma follows
the last element: without one, a single element is only a type in parentheses. -/
def readElems (names : NameTable) : Nat → Cursor → Except ParseError (List Ty × Bool × Cursor)
  | 0, c => c.fail .expectedType
  | n + 1, c => do
    let (t, c) ← read names n c
    match c.eat "," with
    | some c =>
      match c.eat ")" with
      | some c => return ([t], true, c)
      | none => do
        let (ts, comma, c) ← readElems names n c
        return (t :: ts, comma, c)
    | none =>
      match c.eat ")" with
      | some c => return ([t], false, c)
      | none => c.fail .unclosedTuple

/-- Reads type arguments and the closing bracket. -/
def readArgs (names : NameTable) : Nat → Cursor → Except ParseError (List Ty × Cursor)
  | 0, c => c.fail .expectedType
  | n + 1, c => do
    let (t, c) ← read names n c
    match c.eat ">" with
    | some c => return ([t], c)
    | none =>
      match c.eat "," with
      | some c => do
        let (ts, c) ← readArgs names n c
        return (t :: ts, c)
      | none => c.fail .unclosedArguments

end

/-- The type that a text denotes, its inference variables numbered from `firstId`. Two levels of
nesting cost at least one byte, so the bound on the nesting is never met. -/
def parse (names : NameTable) (text : Text) (firstId : UInt32) : Except ParseError Ty := do
  let (t, c) ← read names (2 * text.length + 2) ⟨text, 0, firstId⟩
  match c.skipSpace.rest with
  | [] => return t
  | b :: _ => c.fail (.trailingByte b)

end Ty
end Mismatch
