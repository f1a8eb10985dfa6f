import Ecphoria.Data
import Ecphoria.Library.Trim
import Mathlib.Algebra.GroupWithZero.Nat

/-! Query planning: a call of `ecphoria_search` or `ecphoria_state` anywhere in the text makes the
whole query a lookup, and everything else goes to the database. A plan of `none` is a panic: a slice
that begins inside a character or after the end. -/
namespace Ecphoria.Query
open Library

/-- The Unicode case tables, which map an ASCII character to one character. -/
structure CaseMap where
  lower : Char → List Char
  upper : Char → List Char
  cased : Char → Bool
  caseIgnorable : Char → Bool
  lower_ascii : ∀ c, c.toNat < 128 → lower c = [c.toLower]
  upper_ascii : ∀ c, c.toNat < 128 → upper c = [c.toUpper]

inductive QueryPlan where
  | sql (text : String)
  | dml (text : String)
  | vectorSearch (queryText : String) (k : Nat)
  | stateGet (agentId key : String)
deriving DecidableEq,Repr

inductive Statement where
  | query | insert | update | delete | other
deriving DecidableEq,Repr

section Case

variable (m : CaseMap)

def caseIgnorableThenCased (s : List Char) : Bool :=
  match s.dropWhile m.caseIgnorable with
  | c :: _ => m.cased c
  | [] => false

/-- `to_lowercase`, with what is already read in reverse: a capital sigma at the end of a word
becomes the final one. -/
def lowercaseFrom : List Char → List Char → List Char
  | _,[] => []
  | before,c :: rest =>
    (if c = 'Σ' then
      [if caseIgnorableThenCased m before && !caseIgnorableThenCased m rest then 'ς' else 'σ']
    else m.lower c) ++ lowercaseFrom (c :: before) rest

def toLowercase (s : List Char) : List Char := lowercaseFrom m [] s

def toUppercase (s : List Char) : List Char := s.flatMap m.upper

end Case

section Slices

def utf8Length (s : List Char) : Nat := (s.map Char.utf8Size).sum

def find (pattern : List Char) : List Char → Option Nat
  | [] => if pattern = [] then some 0 else none
  | c :: rest =>
    if pattern.isPrefixOf (c :: rest) then some 0 else (find pattern rest).map (· + c.utf8Size)

/-- `&s[n..]`. -/
def sliceFrom : List Char → Nat → Option (List Char)
  | s,0 => some s
  | [],_ + 1 => none
  | c :: rest,n + 1 => if c.utf8Size ≤ n + 1 then sliceFrom rest (n + 1 - c.utf8Size) else none

def after (c : Char) (s : List Char) : Option (List Char) :=
  match s.dropWhile (· != c) with
  | [] => none
  | _ :: rest => some rest

def before (c : Char) (s : List Char) : Option (List Char) :=
  if c ∈ s then some (s.takeWhile (· != c)) else none

/-- `trim().trim_matches('\'').trim_matches('"')`. -/
def unquote (s : List Char) : List Char :=
  trimMatches (· == '"') (trimMatches (· == '\'') (trimMatches isWhitespace s))

def withoutSign : List Char → List Char
  | '+' :: rest => rest
  | s => s

def parseUsize (s : List Char) : Option Nat :=
  let digits := withoutSign s
  if digits ≠ [] ∧ digits.all Char.isDigit ∧ Nat.ofDigitChars 10 digits 0 < 2 ^ 64 then
    some (Nat.ofDigitChars 10 digits 0)
  else none

end Slices

section Plan

variable (m : CaseMap) (parseSql : List Char → Except String (List Statement))

/-- The outer `none` is the panic of the slice, whose offset was found in the lower-cased text. -/
def extractFunctionArgs (sql name : List Char) : Option (Option (List Char)) :=
  match find (toLowercase m name) (toLowercase m sql) with
  | none => some none
  | some pos => (sliceFrom sql (pos + utf8Length name)).map (fun rest => (after '(' rest).bind (before ')'))

/-- Whether the upper-cased text has the name before an opening parenthesis. -/
def mentions (sql name : List Char) : Bool :=
  decide (name ++ ['('] <:+: toUppercase m sql) || decide (name ++ [' ','('] <:+: toUppercase m sql)

/-- The arguments of the first call, when the text mentions one and it closes. -/
def call (sql : List Char) (name upper : String) : Option (Option (List Char)) :=
  if mentions m sql upper.toList then extractFunctionArgs m sql name.toList else some none

def searchPlan (args : List Char) : QueryPlan :=
  .vectorSearch (String.ofList (unquote (args.takeWhile (· != ','))))
    (((after ',' args).bind (fun s => parseUsize (trimMatches isWhitespace s))).getD 5)

def statePlan (args : List Char) : QueryPlan :=
  .stateGet (String.ofList (unquote (args.takeWhile (· != ','))))
    (String.ofList (((after ',' args).map unquote).getD []))

def statementPlan (trimmed : List Char) : QueryPlan :=
  match parseSql trimmed with
  | .ok (.insert :: _) | .ok (.update :: _) | .ok (.delete :: _) => .dml (String.ofList trimmed)
  | _ => .sql (String.ofList trimmed)

def plan (sql : String) : Option QueryPlan := do
  let trimmed := trimMatches isWhitespace sql.toList
  match ← call m trimmed "ecphoria_search" "ECPHORIA_SEARCH" with
  | some args => return searchPlan args
  | none =>
    match ← call m trimmed "ecphoria_state" "ECPHORIA_STATE" with
    | some args => return statePlan args
    | none => return statementPlan parseSql trimmed

end Plan

end Ecphoria.Query
