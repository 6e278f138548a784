import MemberAccess.Program.Basic

/-!
A core library with the most common classes, for programs to build on.
-/
namespace MemberAccess.Program

def core : Program :=
  let comparable (t : Ty) : Ty := .interface ⟨3⟩ [t]
  let num : Ty := .interface ⟨4⟩ []
  let string : Ty := .interface ⟨7⟩ []
  { initial with
    types := .ofList
      [coreClass "Object" [] [],
        coreClass "Null" [] [],
        coreClass "Future" [⟨0⟩] [],
        coreClass "Comparable" [⟨1⟩] [],
        coreClass "num" [] [comparable num],
        coreClass "int" [] [num],
        coreClass "double" [] [num],
        coreClass "String" [] [comparable string],
        coreClass "bool" [] [],
        coreClass "Iterable" [⟨2⟩] [],
        coreClass "List" [⟨3⟩] [.interface ⟨9⟩ [.param ⟨3⟩]]]
    params := .ofList [⟨"T", none⟩, ⟨"T", none⟩, ⟨"E", none⟩, ⟨"E", none⟩] }

/-- The core library with a type parameter that declarations outside of it can take. -/
def genericCore : Program :=
  { core with params := .ofList (core.params.entries.toList ++ [⟨"T", none⟩]) }

/-- Besides the core library, two libraries that import nothing else. -/
def siblingLibraries : Table .library Library :=
  .ofList [⟨"dart:core", []⟩, ⟨"a", []⟩, ⟨"b", []⟩]

end MemberAccess.Program
