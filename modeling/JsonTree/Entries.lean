/-!
# Sorted entries

A finite map from texts to values, held as its entries in the order of their keys. Keys are compared character
by character, which is also the order of their UTF-8 bytes. Equal maps have equal entries, whatever was done to
reach them.
-/

namespace JsonTree

/-- Keys and values, meant to be in strictly increasing order of the keys. -/
abbrev Entries (α : Type) := List (String × α)

namespace Entries

variable {α β : Type}

/-- Each key is less than every later one. -/
def Sorted (es : Entries α) : Prop := es.Pairwise fun e e' => e.1 < e'.1

def keys (es : Entries α) : List String := es.map Prod.fst

def values (es : Entries α) : List α := es.map Prod.snd

def get? (k : String) : Entries α → Option α
  | [] => none
  | (k', a) :: es => if k = k' then some a else get? k es

def contains (k : String) (es : Entries α) : Bool := (es.get? k).isSome

/-- Gives a key a value, in place of the value that it has. -/
def insert (k : String) (a : α) : Entries α → Entries α
  | [] => [(k, a)]
  | (k', a') :: es =>
      if k < k' then (k, a) :: (k', a') :: es
      else if k = k' then (k, a) :: es
      else (k', a') :: insert k a es

def erase (k : String) : Entries α → Entries α
  | [] => []
  | (k', a) :: es => if k = k' then es else (k', a) :: erase k es

/-- The entries of a list of pairs: of several values for a key the last counts. -/
def ofList (ps : List (String × α)) : Entries α := ps.foldl (fun es p => insert p.1 p.2 es) []

end Entries

end JsonTree
