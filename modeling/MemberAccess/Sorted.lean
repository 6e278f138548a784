/-!
Sorted lists, and finite sets as strictly increasing lists.
-/
namespace MemberAccess.Sorted

def insert (cmp : α → α → Ordering) (x : α) : List α → List α
  | [] => [x]
  | y :: ys =>
    match cmp x y with
    | .lt => x :: y :: ys
    | .eq => y :: ys
    | .gt => y :: insert cmp x ys

def insertAll (cmp : α → α → Ordering) (xs : List α) (set : List α) : List α :=
  xs.foldl (fun set x => insert cmp x set) set

def sort (cmp : α → α → Ordering) (xs : List α) : List α :=
  xs.mergeSort fun x y => (cmp x y).isLE

end MemberAccess.Sorted
