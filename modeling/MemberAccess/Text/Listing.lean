/-!
Phrases of messages: quoted names, lists with a conjunction, singular and plural.
-/
namespace MemberAccess.Text

inductive Conjunction where
  | and | or
  deriving DecidableEq

def Conjunction.word : Conjunction → String
  | .and => "and"
  | .or => "or"

/-- Commas separate the items, except that the conjunction stands before the last one. -/
def listing (conjunction : Conjunction) : List String → String
  | [] => ""
  | [item] => item
  | [first, last] => first ++ " " ++ conjunction.word ++ " " ++ last
  | item :: items => item ++ ", " ++ listing conjunction items

def quote (text : String) : String := "‘" ++ text ++ "’"

def numbered (amount : Nat) (singular plural : String) : String :=
  if amount = 1 then singular else plural

def pluralize (amount : Nat) (noun : String) : String := numbered amount noun (noun ++ "s")

end MemberAccess.Text
