/-! Cutting a text at a separator, and comma lists, in which the empty text is the empty list. -/
namespace MethodMetadata

/-- The pieces of a list between the separators, one more than there are separators. -/
def splitOn {α : Type} [DecidableEq α] (separator : α) (items : List α) : List (List α) :=
  items.foldr
    (fun item pieces =>
      if item = separator then [] :: pieces
      else
        match pieces with
        | [] => [[item]]
        | piece :: more => (item :: piece) :: more)
    [[]]

namespace CommaList

def split (text : String) : List String :=
  if text.isEmpty then [] else (splitOn ',' text.toList).map String.ofList

def join (items : List String) : String :=
  ",".intercalate items

end CommaList

end MethodMetadata
