import ManagedCode.Metadata.Fault

namespace ManagedCode

/-- The tokens of references, in the order in which they were given, and the references filed in
each table, in row order. A table is listed from the first time a row of it was wanted. -/
structure TokenTable where
  tokens : List (RefKey × Token) := []
  rowLists : List (TableKind × List RefKey) := []
  deriving DecidableEq, Inhabited

namespace TokenTable

variable (tokens : TokenTable)

def get? (key : RefKey) : Option Token := tokens.tokens.lookup key

def contains (key : RefKey) : Bool := (tokens.get? key).isSome

/-- The references filed in a table, in row order. -/
def rows (table : TableKind) : List RefKey := (tokens.rowLists.lookup table).getD []

/-- How many references have a token. -/
def size : Nat := tokens.tokens.length

def isEmpty : Bool := tokens.size = 0

/-- Lists a table, without rows if it is new. -/
def listTable (table : TableKind) : TokenTable :=
  match tokens.rowLists.lookup table with
  | some _ => tokens
  | none => { tokens with rowLists := tokens.rowLists ++ [(table, [])] }

/-- Adds a row to a listed table. -/
def pushRow (table : TableKind) (key : RefKey) : TokenTable :=
  { tokens with
    rowLists := tokens.rowLists.map fun (kind, keys) =>
      (kind, if kind = table then keys ++ [key] else keys) }

def insert (key : RefKey) (token : Token) : TokenTable :=
  { tokens with tokens := tokens.tokens ++ [(key, token)] }

/-- The token of a reference, which gets the next row of the table if it had none. A table that is
full is listed all the same. -/
def reserve (key : RefKey) (table : TableKind) : EStateM Fault TokenTable Token := do
  match (← get).get? key with
  | some token => return token
  | none =>
    modify (·.listTable table)
    let row := ((← get).rows table).length + 1
    unless row < Token.rowLimit do
      throw (.tableFull table)
    modify (·.pushRow table key)
    let token := Token.ofRow table row
    modify (·.insert key token)
    return token

end TokenTable

end ManagedCode
