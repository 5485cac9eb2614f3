import PagedIndex.Value.Shape

/-!
# Names of shapes

A shape is named by the names of its parts, separated by a comma; a pair that is the second part of a
pair stands in parentheses: `i64,str`, `bytes,(u16,i8)`.
-/

namespace PagedIndex.Shape

/-- The shapes that are no pairs, under their names. -/
def simple : List (String × Shape) :=
  [("u8", u8), ("i8", i8), ("u16", u16), ("i16", i16), ("u32", u32), ("i32", i32), ("u64", u64),
   ("i64", i64), ("bool", bool), ("str", str), ("bytes", bytes)]

/-- Cuts a name at its first comma outside parentheses, `depth` of which are open. -/
def cut (depth : Nat) : List Char → Option (List Char × List Char)
  | [] => none
  | c :: rest =>
    if c = ',' ∧ depth = 0 then some ([], rest)
    else
      let depth := if c = '(' then depth + 1 else if c = ')' then depth - 1 else depth
      (cut depth rest).map fun (first, second) => (c :: first, second)

/-- The shape of a name, with at most `limit` nested parts. -/
def ofChars? : Nat → List Char → Option Shape
  | 0, _ => none
  | limit + 1, name =>
    match cut 0 name with
    | some (first, second) => do return .pair (← ofChars? limit first) (← ofChars? limit second)
    | none =>
      match name with
      | '(' :: rest => ofChars? limit rest.dropLast
      | _ => simple.lookup (String.ofList name)

/-- The shape of a name. -/
def ofName? (name : String) : Option Shape := ofChars? (name.length + 1) name.toList

end PagedIndex.Shape
